import Mathlib.Tactic

/-!
# Strings between separators, and what survives when they are cut up

`List.splitOn z b` are the strings of `b` between the separators `z`.  A property of a list of strings is `CutClosed`
when it stays true if a string is forgotten or cut in two.  Such a property goes over from a sequence to its parts,
wherever they are cut, and to what is left when something is taken off the start.
-/

namespace XrdHdfs.Lib

variable {α : Type} [DecidableEq α] {z : α}

/-! ### Strings -/

theorem splitOn_cons_self (b : List α) : (z :: b).splitOn z = [] :: b.splitOn z := by
  simp [List.splitOn, List.splitOnP_cons_eq_if_modifyHead]

theorem exists_splitOn (b : List α) : ∃ r L, b.splitOn z = r :: L :=
  List.exists_cons_of_ne_nil (by simp [List.splitOn, List.splitOnP_ne_nil])

theorem splitOn_cons_of_ne {c : α} (h : c ≠ z) {b r : List α} {L : List (List α)} (hb : b.splitOn z = r :: L) :
    (c :: b).splitOn z = (c :: r) :: L := by
  simp only [List.splitOn] at *
  rw [List.splitOnP_cons_eq_if_modifyHead, if_neg (by simpa using h), hb]
  rfl

/-- Where two sequences meet, the last string of the first and the first string of the second are one. -/
theorem splitOn_append (a b : List α) : ∃ A x y B, a.splitOn z = A ++ [x] ∧ b.splitOn z = y :: B ∧
    (a ++ b).splitOn z = A ++ (x ++ y) :: B := by
  induction a with
  | nil =>
    obtain ⟨y, B, hb⟩ := exists_splitOn (z := z) b
    exact ⟨[], [], y, B, rfl, hb, hb⟩
  | cons c a ih =>
    obtain ⟨A, x, y, B, ha, hb, hab⟩ := ih
    rcases eq_or_ne c z with rfl | hc
    · refine ⟨[] :: A, x, y, B, ?_, hb, ?_⟩
      · rw [splitOn_cons_self, ha, List.cons_append]
      · rw [List.cons_append, splitOn_cons_self, hab, List.cons_append]
    · cases A with
      | nil => exact ⟨[], c :: x, y, B, splitOn_cons_of_ne hc ha, hb, splitOn_cons_of_ne hc hab⟩
      | cons r A => exact ⟨(c :: r) :: A, x, y, B, splitOn_cons_of_ne hc ha, hb, splitOn_cons_of_ne hc hab⟩

theorem length_le_of_mem_splitOn {b r : List α} (h : r ∈ b.splitOn z) : r.length ≤ b.length := by
  induction b generalizing r with
  | nil => simp_all
  | cons c b ih =>
    obtain ⟨r', L, hb⟩ := exists_splitOn (z := z) b
    rw [hb] at ih
    rcases eq_or_ne c z with rfl | hc
    · rw [splitOn_cons_self, hb] at h
      rcases List.mem_cons.1 h with rfl | h
      · exact Nat.zero_le _
      · exact (ih h).trans (Nat.le_succ _)
    · rw [splitOn_cons_of_ne hc hb] at h
      rcases List.mem_cons.1 h with rfl | h
      · exact Nat.succ_le_succ (ih List.mem_cons_self)
      · exact (ih (List.mem_cons_of_mem _ h)).trans (Nat.le_succ _)

/-! ### Properties that survive -/

/-- The property stays true when strings are forgotten or cut in two. -/
structure CutClosed (I : List (List α) → Prop) : Prop where
  perm : ∀ {L L'}, L.Perm L' → I L → I L'
  forget : ∀ {r L}, I (r :: L) → I L
  cut : ∀ {a b L}, I ((a ++ b) :: L) → I (a :: b :: L)

namespace CutClosed

variable {I : List (List α) → Prop} (hI : CutClosed I) {a b : List α} {L : List (List α)}

include hI

/-- A sequence may be read in two parts. -/
theorem append (h : I ((a ++ b).splitOn z ++ L)) : I (a.splitOn z ++ (b.splitOn z ++ L)) := by
  obtain ⟨A, x, y, B, ha, hb, hab⟩ := splitOn_append (z := z) a b
  rw [hab, List.append_assoc, List.cons_append] at h
  rw [ha, hb]
  have h' : I ((x ++ y) :: (A ++ (B ++ L))) := hI.perm List.perm_middle h
  refine hI.perm ?_ (hI.cut h')
  simp only [List.append_assoc, List.cons_append, List.nil_append]
  exact (List.perm_middle.trans (List.Perm.cons x List.perm_middle)).symm

/-- Something may be taken off the start. -/
theorem drop (k : ℕ) (h : I (b.splitOn z ++ L)) : I ((b.drop k).splitOn z ++ L) := by
  rw [← List.take_append_drop k b] at h
  have h' := hI.append h
  obtain ⟨A, hA⟩ : ∃ A, (b.take k).splitOn z = A := ⟨_, rfl⟩
  rw [hA] at h'
  clear hA
  induction A with
  | nil => exact h'
  | cons r A ih => exact ih (hI.forget h')

omit [DecidableEq α] in
/-- Empty strings do no harm. -/
theorem nil {r : List α} (h : I (r :: L)) : I ([] :: r :: L) := hI.cut (a := []) h

theorem separators (m : ℕ) {r : List α} (h : I (r :: L)) : I ((List.replicate m z).splitOn z ++ r :: L) := by
  induction m with
  | zero => exact hI.nil h
  | succ m ih =>
    rw [List.replicate_succ, splitOn_cons_self]
    obtain ⟨r', L', hr⟩ := exists_splitOn (z := z) (List.replicate m z)
    rw [hr] at ih ⊢
    exact hI.nil ih

end CutClosed

end XrdHdfs.Lib
