import XrdHdfs.Lib.Prog

/-!
# Processes that take turns

Processes over one state, each with a type of its own for where it stands.  A schedule says which of them takes the
next step; a step is a program, so that what nothing can come in between is one step.

* `Prog.interleaved step schedule ph` — the processes, from where `ph` has them, in the order of the schedule;
* `Reaches step n x y` — a process that is alone gets from `x` to `y`, with `n` units of fuel for each step;
* `Gives.interleaved` — the invariant rule: a part `G` for the state, and a part `L` for each process.  Who takes a step
  keeps `G` and its own part, and breaks the part of no other.  Both speak of a value that no process knows of, such as
  who created what, and which a step may change.
-/

namespace XrdHdfs.Lib

variable {σ : Type}

/-! ### One process -/

/-- Where a process that is alone, and the state, can get to. -/
def Reaches {P : Type} (step : P → Prog σ P) (n : ℕ) : P × σ → P × σ → Prop :=
  Relation.ReflTransGen fun x y => (step x.1).run n x.2 = some y

/-! ### Many processes -/

variable {ι : Type} {P : ι → Type} [DecidableEq ι]

namespace Prog

/-- The steps that the processes take in the order of a schedule. -/
def interleaved (step : ∀ i, P i → Prog σ (P i)) : List ι → (∀ i, P i) → Prog σ (∀ i, P i)
  | [], ph => pure ph
  | i :: schedule, ph => do
    let p ← step i (ph i)
    interleaved step schedule (Function.update ph i p)

end Prog

/-- When the others wait, a process gets where it gets alone. -/
theorem Reaches.interleaved {step : ∀ i, P i → Prog σ (P i)} {n : ℕ} {i : ι} {x y : P i × σ} (h : Reaches (step i) n x y)
    {ph : ∀ i, P i} (hx : ph i = x.1) :
    ∃ k, (Prog.interleaved step (List.replicate k i) ph).run n x.2 = some (Function.update ph i y.1, y.2) := by
  induction h using Relation.ReflTransGen.head_induction_on generalizing ph with
  | refl =>
    refine ⟨0, ?_⟩
    rw [← hx, Function.update_eq_self]
    rfl
  | @head x z hxz _ ih =>
    obtain ⟨k, hk⟩ := @ih (Function.update ph i z.1) (Function.update_self ..)
    rw [Function.update_idem] at hk
    exact ⟨k + 1, Prog.run_bind_some.2 ⟨z.1, z.2, by rwa [hx], hk⟩⟩

/-- Who takes no step stays where it is. -/
theorem Prog.interleaved_others {step : ∀ i, P i → Prog σ (P i)} (schedule : List ι) (ph : ∀ i, P i) (s : σ) :
    Ends (Prog.interleaved step schedule ph) s fun ph' _ => ∀ i, i ∉ schedule → ph' i = ph i := by
  induction schedule generalizing ph s with
  | nil => exact Ends.pure fun _ _ => rfl
  | cons j schedule ih =>
    intro n ph' s' hrun i hi
    obtain ⟨p, s₁, -, hrest⟩ := Prog.run_bind_some.1 hrun
    rw [List.mem_cons, not_or] at hi
    have hsame := ih _ s₁ n ph' s' hrest i hi.2
    rwa [Function.update_of_ne hi.1] at hsame

/-- **The invariant rule for processes that take turns.** -/
theorem Gives.interleaved {γ : Type} {step : ∀ i, P i → Prog σ (P i)} (G : γ → σ → Prop) (L : γ → ∀ i, P i → σ → Prop)
    (hstep : ∀ g i p s, G g s → L g i p s → Gives (step i p) s fun p' s' =>
      ∃ g', G g' s' ∧ L g' i p' s' ∧ ∀ j, j ≠ i → ∀ q, L g j q s → L g' j q s')
    (schedule : List ι) {ph : ∀ i, P i} {s : σ} {g : γ} (hG : G g s) (hL : ∀ i, L g i (ph i) s) :
    Gives (Prog.interleaved step schedule ph) s fun ph' s' => ∃ g', G g' s' ∧ ∀ i, L g' i (ph' i) s' := by
  induction schedule generalizing ph s g with
  | nil => exact Gives.pure ⟨g, hG, hL⟩
  | cons i schedule ih =>
    refine Gives.bind ((hstep g i (ph i) s hG (hL i)).mono ?_)
    rintro p s' ⟨g', hG', hown, hothers⟩
    refine ih hG' fun j => ?_
    rcases eq_or_ne j i with rfl | hj
    · rwa [Function.update_self]
    · rw [Function.update_of_ne hj]
      exact hothers j hj (ph j) (hL j)

end XrdHdfs.Lib
