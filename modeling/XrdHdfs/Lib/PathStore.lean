import XrdHdfs.Lib.Local

/-!
# Stores with paths

A store has something at some of the paths, which are sequences of names; what is there may be a directory.  The changes
of a file system, in terms of paths alone: a directory at a path and those above it are made (`fill`), something is placed
at a path, removed, modified, or moved with all that is below it.

What a change at a path below a directory `d` reads and writes lies below `d`, provided that `d` and what is above it are
directories (`Roots`): the lemmas `…_out` and `…_in` are what `Local.attempt` asks for.
-/

namespace XrdHdfs.Lib

/-- What is at the paths. -/
abbrev PathStore (α ν : Type) := List α → Option ν

namespace PathStore

variable {α ν : Type} (dirs : Set ν) (s : PathStore α ν)

def IsDir (p : List α) : Prop := ∃ n ∈ dirs, s p = some n

/-- There is something, and it is no directory. -/
def IsLeaf (p : List α) : Prop := ∃ n, n ∉ dirs ∧ s p = some n

/-! ### Changes -/

section Changes

open Classical in
/-- The directory `d` wherever there is nothing at or above `p`. -/
noncomputable def fill (d : ν) (p : List α) : PathStore α ν := fun q => if q <+: p ∧ s q = none then some d else s q

open Classical in
/-- Something at `p`, with directories above it. -/
noncomputable def place (d n : ν) (p : List α) : PathStore α ν := fun q => if q = p then some n else s.fill d p q

open Classical in
noncomputable def erase (p : List α) : PathStore α ν := fun q => if q = p then none else s q

open Classical in
noncomputable def modify (f : ν → ν) (p : List α) : PathStore α ν := fun q => if q = p then (s p).map f else s q

open Classical in
/-- What is at and below `p` is put at `p'`. -/
noncomputable def move (p p' : List α) : PathStore α ν := fun q =>
  if p' <+: q then s (p ++ q.drop p'.length) else if p <+: q then none else s q

end Changes

theorem fill_nil (d : ν) (h : s [] ≠ none) : s.fill d [] = s := by
  funext q
  unfold fill
  refine if_neg ?_
  rintro ⟨hq, hnone⟩
  rw [List.prefix_nil.1 hq] at hnone
  exact h hnone

theorem modify_place (d n : ν) (f : ν → ν) (p : List α) : (s.place d n p).modify f p = s.place d (f n) p := by
  funext q
  unfold modify place
  by_cases hq : q = p
  · simp [hq]
  · simp [hq]

/-! ### Conditions -/

/-- No leaf is in the way of a directory at `p`. -/
def Free (p : List α) : Prop := ∀ q, q <+: p → ¬ s.IsLeaf dirs q

/-- A leaf may be placed at `p`. -/
def Room (p : List α) : Prop := p ≠ [] ∧ ¬ s.IsDir dirs p ∧ ∀ q, q <+: p → q ≠ p → ¬ s.IsLeaf dirs q

/-- There is something at `p`, and nothing below it. -/
def Removable (p : List α) : Prop := p ≠ [] ∧ s p ≠ none ∧ ∀ c, s (p ++ [c]) = none

/-- The new place of what is moved is free and in a directory, and not inside of what is moved. -/
def Movable (p p' : List α) : Prop := p ≠ [] ∧ s p' = none ∧ ¬ p <+: p' ∧ s.IsDir dirs p'.dropLast

/-! ### Below a directory -/

/-- The paths below `d`. -/
def Below (d : List α) : Set (List α) := {q | ∃ r, r ≠ [] ∧ q = d ++ r}

/-- `d` and all above it are directories. -/
def Roots (d : List α) : Prop := ∀ q, q <+: d → s.IsDir dirs q

section Below

variable {dirs} {s s' : PathStore α ν} {d p p' q : List α} {n m : ν}

theorem mem_below_longer (hp : p ∈ Below d) (h : p <+: q) : q ∈ Below d := by
  obtain ⟨r, hr, rfl⟩ := hp
  obtain ⟨t, rfl⟩ := h
  exact ⟨r ++ t, by simp [hr], by simp⟩

theorem mem_below_append (h : q ∈ Below d) (t : List α) : q ++ t ∈ Below d := mem_below_longer h (List.prefix_append q t)

/-- What is above a path below `d` is above `d`, or below it. -/
theorem prefix_cases (hp : p ∈ Below d) (h : q <+: p) : q <+: d ∨ q ∈ Below d := by
  obtain ⟨r, -, rfl⟩ := hp
  rcases Nat.le_total q.length d.length with hle | hle
  · exact Or.inl (List.prefix_of_prefix_length_le h (List.prefix_append d r) hle)
  · obtain ⟨t, rfl⟩ := List.prefix_of_prefix_length_le (List.prefix_append d r) h hle
    rcases eq_or_ne t [] with rfl | ht
    · exact Or.inl (by rw [List.append_nil])
    · exact Or.inr ⟨t, ht, rfl⟩

theorem not_mem_below_above (h : q <+: d) : q ∉ Below d := by
  rintro ⟨r, hr, rfl⟩
  have hlen := h.length_le
  have hpos := List.length_pos_iff.2 hr
  rw [List.length_append] at hlen
  omega

/-- Directories of which none is above another have nothing below them in common. -/
theorem disjoint_below (h : ¬ d <+: p) (h' : ¬ p <+: d) : Disjoint (Below d) (Below p) := by
  rw [Set.disjoint_left]
  rintro q ⟨r, -, rfl⟩ ⟨t, -, heq⟩
  rcases List.prefix_or_prefix_of_prefix (List.prefix_append d r) (heq ▸ List.prefix_append p t) with h₀ | h₀
  · exact h h₀
  · exact h' h₀

/-- A change below `d` leaves the way to a directory that is not below `d`. -/
theorem Roots.of_eq (h : s.Roots dirs p) (hnot : p ∉ Below d) (heq : ∀ q, q ∉ Below d → s' q = s q) : s'.Roots dirs p := by
  intro q hq
  obtain ⟨n, hn, hs⟩ := h q hq
  exact ⟨n, hn, by rw [heq q fun hq' => hnot (mem_below_longer hq' hq), hs]⟩

/-! ### Conditions are decided below -/

section Conditions

variable (hd : s.Roots dirs d) (hd' : s'.Roots dirs d) (heq : Set.EqOn s s' (Below d))

include heq in
theorem isDir_in (hp : p ∈ Below d) : s.IsDir dirs p ↔ s'.IsDir dirs p := by
  unfold IsDir
  rw [heq hp]

include heq in
theorem isLeaf_in (hp : p ∈ Below d) : s.IsLeaf dirs p ↔ s'.IsLeaf dirs p := by
  unfold IsLeaf
  rw [heq hp]

theorem Roots.not_isLeaf (hd : s.Roots dirs d) (h : q <+: d) : ¬ s.IsLeaf dirs q := by
  rintro ⟨n, hn, hs⟩
  obtain ⟨m, hm, hs'⟩ := hd q h
  rw [hs, Option.some.injEq] at hs'
  exact hn (hs' ▸ hm)

include hd hd' heq in
/-- On the way to a path below `d` there are the same leaves. -/
theorem isLeaf_above (hp : p ∈ Below d) (h : q <+: p) : s.IsLeaf dirs q ↔ s'.IsLeaf dirs q := by
  rcases prefix_cases hp h with hq | hq
  · exact iff_of_false (hd.not_isLeaf hq) (hd'.not_isLeaf hq)
  · exact isLeaf_in heq hq

include hd hd' heq in
theorem free_in (hp : p ∈ Below d) : s.Free dirs p ↔ s'.Free dirs p :=
  forall₂_congr fun _ hq => not_congr (isLeaf_above hd hd' heq hp hq)

include hd hd' heq in
theorem room_in (hp : p ∈ Below d) : s.Room dirs p ↔ s'.Room dirs p := by
  unfold Room
  rw [isDir_in heq hp]
  exact and_congr_right' (and_congr_right' (forall₂_congr fun q hq => imp_congr_right fun _ =>
    not_congr (isLeaf_above hd hd' heq hp hq)))

include heq in
theorem removable_in (hp : p ∈ Below d) : s.Removable p ↔ s'.Removable p := by
  unfold Removable
  rw [heq hp]
  exact and_congr_right' (and_congr_right' (forall_congr' fun c => by rw [heq (mem_below_append hp [c])]))

theorem dropLast_cases (hp : p ∈ Below d) : p.dropLast = d ∨ p.dropLast ∈ Below d := by
  obtain ⟨r, hr, rfl⟩ := hp
  rw [List.dropLast_append_of_ne_nil hr]
  rcases eq_or_ne r.dropLast [] with h0 | h0
  · exact Or.inl (by rw [h0, List.append_nil])
  · exact Or.inr ⟨_, h0, rfl⟩

include hd hd' heq in
/-- The directory that a path below `d` is in. -/
theorem isDir_dropLast (hp : p ∈ Below d) : s.IsDir dirs p.dropLast ↔ s'.IsDir dirs p.dropLast := by
  rcases dropLast_cases hp with h | h
  · rw [h]
    exact iff_of_true (hd d List.prefix_rfl) (hd' d List.prefix_rfl)
  · exact isDir_in heq h

include hd hd' heq in
theorem dropLast_none (hp : p ∈ Below d) : s p.dropLast = none ↔ s' p.dropLast = none := by
  rcases dropLast_cases hp with h | h
  · obtain ⟨n, -, hn⟩ := hd d List.prefix_rfl
    obtain ⟨m, -, hm⟩ := hd' d List.prefix_rfl
    rw [h, hn, hm]
    exact iff_of_false (by simp) (by simp)
  · rw [heq h]

include hd hd' heq in
theorem movable_in (hp' : p' ∈ Below d) : s.Movable dirs p p' ↔ s'.Movable dirs p p' := by
  unfold Movable
  rw [heq hp', isDir_dropLast hd hd' heq hp']

end Conditions

/-! ### Changes are made below -/

theorem fill_out (hd : s.Roots dirs d) (hp : p ∈ Below d) (hq : q ∉ Below d) : s.fill n p q = s q := by
  unfold fill
  refine if_neg ?_
  rintro ⟨hpre, hnone⟩
  obtain ⟨m, -, hm⟩ := hd q ((prefix_cases hp hpre).resolve_right hq)
  rw [hm] at hnone
  cases hnone

theorem fill_in (heq : Set.EqOn s s' (Below d)) : Set.EqOn (s.fill n p) (s'.fill n p) (Below d) := by
  intro q hq
  unfold fill
  rw [heq hq]

theorem place_out (hd : s.Roots dirs d) (hp : p ∈ Below d) (hq : q ∉ Below d) : s.place n m p q = s q := by
  unfold place
  rw [if_neg (ne_of_mem_of_not_mem hp hq).symm]
  exact fill_out hd hp hq

theorem place_in (heq : Set.EqOn s s' (Below d)) : Set.EqOn (s.place n m p) (s'.place n m p) (Below d) := by
  intro q hq
  unfold place
  rw [fill_in heq hq]

theorem erase_out (hp : p ∈ Below d) (hq : q ∉ Below d) : s.erase p q = s q :=
  if_neg (ne_of_mem_of_not_mem hp hq).symm

theorem erase_in (heq : Set.EqOn s s' (Below d)) : Set.EqOn (s.erase p) (s'.erase p) (Below d) := by
  intro q hq
  unfold erase
  rw [heq hq]

theorem modify_out {f : ν → ν} (hp : p ∈ Below d) (hq : q ∉ Below d) : s.modify f p q = s q :=
  if_neg (ne_of_mem_of_not_mem hp hq).symm

theorem modify_in {f : ν → ν} (hp : p ∈ Below d) (heq : Set.EqOn s s' (Below d)) :
    Set.EqOn (s.modify f p) (s'.modify f p) (Below d) := by
  intro q hq
  unfold modify
  rw [heq hq, heq hp]

theorem move_out (hp : p ∈ Below d) (hp' : p' ∈ Below d) (hq : q ∉ Below d) : s.move p p' q = s q := by
  unfold move
  rw [if_neg fun h => hq (mem_below_longer hp' h), if_neg fun h => hq (mem_below_longer hp h)]

theorem move_in (hp : p ∈ Below d) (heq : Set.EqOn s s' (Below d)) : Set.EqOn (s.move p p') (s'.move p p') (Below d) := by
  intro q hq
  unfold move
  rw [heq hq, heq (mem_below_append hp _)]

end Below

end PathStore

end XrdHdfs.Lib
