import Mathlib.Data.Set.Function
import Mathlib.Tactic
import Mathlib.Order.CompletePartialOrder

/-!
# Actions that work in a region

A state gives a value to every location.  An action answers and changes the state; it is local to a region when it writes
only there, and when what it answers and writes there depends on nothing else (`Local`).  A location may be read outside
of the region as far as the invariant `I` tells what is there.

Clients whose actions are local to regions of their own do not notice each other: in whatever order their actions come,
each gets the answers, and finds in its region what there would be, had the others not been (`perform_own`).
-/

namespace XrdHdfs.Lib

variable {L V A ω ι : Type}

/-- The action works in `R`, in the states with `I`. -/
structure Local (I : (L → V) → Prop) (R : Set L) (f : (L → V) → ω × (L → V)) : Prop where
  keeps : ∀ s, I s → I (f s).2
  outside : ∀ s, I s → ∀ l, l ∉ R → (f s).2 l = s l
  inside : ∀ s s', I s → I s' → Set.EqOn s s' R → (f s).1 = (f s').1 ∧ Set.EqOn (f s).2 (f s').2 R

/-- An attempt: where `P` allows it, the change `g`; else the answer is an error, and nothing is changed. -/
noncomputable def attempt (P : (L → V) → Prop) (g : (L → V) → L → V) (ok : ω) (error : (L → V) → ω) (s : L → V) :
    ω × (L → V) :=
  open Classical in if P s then (ok, g s) else (error s, s)

theorem attempt_pos {P : (L → V) → Prop} {g : (L → V) → L → V} {ok : ω} {error : (L → V) → ω} {s : L → V} (h : P s) :
    attempt P g ok error s = (ok, g s) := if_pos h

theorem attempt_neg {P : (L → V) → Prop} {g : (L → V) → L → V} {ok : ω} {error : (L → V) → ω} {s : L → V} (h : ¬ P s) :
    attempt P g ok error s = (error s, s) := if_neg h

/-- **An attempt is local** when what allows it, its error and its change are. -/
theorem Local.attempt {I : (L → V) → Prop} {R : Set L} {P : (L → V) → Prop} {g : (L → V) → L → V} {ok : ω}
    {error : (L → V) → ω} (hI : ∀ s s', I s → (∀ l, l ∉ R → s' l = s l) → I s')
    (hP : ∀ s s', I s → I s' → Set.EqOn s s' R → (P s ↔ P s'))
    (herror : ∀ s s', I s → I s' → Set.EqOn s s' R → error s = error s')
    (hout : ∀ s, I s → P s → ∀ l, l ∉ R → g s l = s l)
    (hin : ∀ s s', I s → I s' → Set.EqOn s s' R → Set.EqOn (g s) (g s') R) : Local I R (attempt P g ok error) where
  keeps s hs := by
    by_cases h : P s
    · rw [attempt_pos h]
      exact hI s _ hs (hout s hs h)
    · rwa [attempt_neg h]
  outside s hs l hl := by
    by_cases h : P s
    · rw [attempt_pos h]
      exact hout s hs h l hl
    · rw [attempt_neg h]
  inside s s' hs hs' heq := by
    have hiff := hP s s' hs hs' heq
    by_cases h : P s
    · rw [attempt_pos h, attempt_pos (hiff.1 h)]
      exact ⟨rfl, hin s s' hs hs' heq⟩
    · rw [attempt_neg h, attempt_neg fun h' => h (hiff.2 h')]
      exact ⟨herror s s' hs hs' heq, heq⟩

/-- The actions one after the other, each with its answer. -/
def perform (f : A → (L → V) → ω × (L → V)) : List A → (L → V) → List (A × ω) × (L → V)
  | [], s => ([], s)
  | a :: as, s => ((a, (f a s).1) :: (perform f as (f a s).2).1, (perform f as (f a s).2).2)

section Perform

variable {f : A → (L → V) → ω × (L → V)} {I : (L → V) → Prop} {R : ι → Set L} {owner : A → ι}

/-- **Clients with regions of their own do not notice each other.** -/
theorem perform_own [DecidableEq ι] (hdisj : ∀ i j, i ≠ j → Disjoint (R i) (R j)) {as : List A}
    (h : ∀ a ∈ as, Local I (R (owner a)) (f a)) (i : ι) {s s' : L → V} (hs : I s) (hs' : I s')
    (heq : Set.EqOn s s' (R i)) :
    (perform f as s).1.filter (fun r => owner r.1 = i) = (perform f (as.filter fun a => owner a = i) s').1 ∧
      Set.EqOn (perform f as s).2 (perform f (as.filter fun a => owner a = i) s').2 (R i) := by
  induction as generalizing s s' with
  | nil => exact ⟨rfl, heq⟩
  | cons a as ih =>
    rw [List.forall_mem_cons] at h
    obtain ⟨ha, has⟩ := h
    by_cases hown : owner a = i
    · -- its own action: the same answer, and the same changes in the region
      subst hown
      obtain ⟨hans, hin⟩ := ha.inside s s' hs hs' heq
      obtain ⟨hanss, hend⟩ := ih has (ha.keeps s hs) (ha.keeps s' hs') hin
      rw [List.filter_cons_of_pos (by simp)]
      refine ⟨?_, hend⟩
      simp only [perform]
      rw [List.filter_cons_of_pos (by simp), hanss, hans]
    · -- the action of another: the region is as it was
      have hin : Set.EqOn (f a s).2 s' (R i) := by
        intro l hl
        rw [ha.outside s hs l fun hl' => Set.disjoint_left.1 (hdisj _ _ hown) hl' hl]
        exact heq hl
      obtain ⟨hanss, hend⟩ := ih has (ha.keeps s hs) hs' hin
      rw [List.filter_cons_of_neg (by simpa using hown)]
      refine ⟨?_, hend⟩
      simp only [perform]
      rw [List.filter_cons_of_neg (by simpa using hown), hanss]

end Perform

end XrdHdfs.Lib
