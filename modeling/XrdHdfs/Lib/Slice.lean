import Mathlib.Tactic

/-!
# Parts of a sequence

`slice F o n` is the part of `F` that starts at `o` and has length `n`, cut off at the end of `F`.  A window
`(o, l)` of `F` is a part that lies inside it; `Window F o w` says that the list `w` is the part of `F` at `o`.
`pieces n F` are the parts that a reader takes who reads `F` from the start, `n` at a time.
-/

namespace XrdHdfs.Lib

variable {α : Type} {F : List α} {o n m : ℕ}

/-- The part of `F` at `o`, of length `n` where `F` is long enough. -/
def slice (F : List α) (o n : ℕ) : List α := (F.drop o).take n

theorem length_slice : (slice F o n).length = min n (F.length - o) := by
  simp [slice]

@[simp] theorem slice_zero : slice F o 0 = [] := by
  simp [slice]

theorem slice_append : slice F o n ++ slice F (o + n) m = slice F o (n + m) := by
  unfold slice
  rw [← List.drop_drop, List.take_add]

/-- A slice that runs past the end stops there. -/
theorem slice_min : slice F o (min n (F.length - o)) = slice F o n := by
  unfold slice
  rcases Nat.le_total n (F.length - o) with h | h
  · rw [Nat.min_eq_left h]
  · rw [Nat.min_eq_right h, List.take_of_length_le (by simp), List.take_of_length_le (by simp; omega)]

/-- A part of a part. -/
theorem slice_slice {i k : ℕ} (h : i + k ≤ n) : slice (slice F o n) i k = slice F (o + i) k := by
  unfold slice
  rw [List.drop_take, List.take_take, List.drop_drop, Nat.min_eq_left (by omega)]

/-- A part that lies inside a sequence is there in a longer one. -/
theorem slice_grown {F' : List α} (hF : F <+: F') (h : o + n ≤ F.length) : slice F' o n = slice F o n := by
  obtain ⟨z, rfl⟩ := hF
  unfold slice
  rw [List.drop_append_of_le_length (by omega), List.take_append_of_le_length (by rw [List.length_drop]; omega)]

/-- `w` is the part of `F` at `o`. -/
def Window (F : List α) (o : ℕ) (w : List α) : Prop := w = slice F o w.length

namespace Window

variable {w v : List α}

theorem nil : Window F o ([] : List α) := by
  simp [Window]

/-- A window that is not empty lies inside the sequence. -/
theorem bound (h : Window F o w) (hw : w ≠ []) : o + w.length ≤ F.length := by
  have hl : w.length = min w.length (F.length - o) := by
    conv_lhs => rw [h]
    exact length_slice
  have hpos : 0 < w.length := List.length_pos_iff.2 hw
  omega

/-- Windows that touch are one window. -/
theorem append (h : Window F o w) (h' : Window F (o + w.length) v) : Window F o (w ++ v) := by
  unfold Window
  conv_lhs => rw [h, h']
  rw [List.length_append, slice_append]

/-- A part of a window is read at its own place. -/
theorem slice_eq (h : Window F o w) {i k : ℕ} (hik : i + k ≤ w.length) : slice w i k = slice F (o + i) k := by
  conv_lhs => rw [h]
  exact slice_slice hik

/-- A window of a sequence is one of a longer one. -/
theorem of_longer {F' : List α} (h : Window F o w) (hF : F <+: F') : Window F' o w := by
  rcases eq_or_ne w [] with rfl | hw
  · exact nil
  · unfold Window
    rw [slice_grown hF (h.bound hw)]
    exact h

/-- What starts like the rest of the sequence is a window of it. -/
theorem of_prefix (h : w <+: F.drop o) : Window F o w :=
  List.prefix_iff_eq_take.1 h

end Window

/-! ### Pieces -/

/-- At most `k` pieces of length `n`, the last one possibly shorter. -/
def piecesFuel (n : ℕ) : ℕ → List α → List (List α)
  | 0, _ => []
  | _ + 1, [] => []
  | k + 1, x :: F => (x :: F).take n :: piecesFuel n k ((x :: F).drop n)

/-- The pieces of length `n`, of which the last may be shorter. -/
def pieces (n : ℕ) (F : List α) : List (List α) := piecesFuel n F.length F

theorem piecesFuel_congr {k l : ℕ} (hn : 0 < n) (hk : F.length ≤ k) (hl : F.length ≤ l) :
    piecesFuel n k F = piecesFuel n l F := by
  induction k generalizing l F with
  | zero =>
    obtain rfl : F = [] := List.length_eq_zero_iff.1 (by omega)
    cases l <;> rfl
  | succ k ih =>
    cases F with
    | nil => cases l <;> rfl
    | cons x F =>
      rw [List.length_cons] at hk hl
      obtain ⟨l, rfl⟩ : ∃ l', l = l' + 1 := ⟨l - 1, by omega⟩
      unfold piecesFuel
      rw [ih (l := l) (by simp; omega) (by simp; omega)]

@[simp] theorem pieces_nil : pieces n ([] : List α) = [] := rfl

theorem pieces_of_ne_nil (hn : 0 < n) (hF : F ≠ []) : pieces n F = F.take n :: pieces n (F.drop n) := by
  obtain ⟨x, F, rfl⟩ := List.exists_cons_of_ne_nil hF
  rw [pieces, List.length_cons, piecesFuel, pieces]
  congr 1
  exact piecesFuel_congr hn (by simp; omega) (by simp)

theorem flatten_pieces (hn : 0 < n) : (pieces n F).flatten = F := by
  induction hlen : F.length using Nat.strong_induction_on generalizing F with
  | _ l ih =>
    rcases eq_or_ne F [] with rfl | hF
    · rfl
    · have hpos := List.length_pos_iff.2 hF
      rw [pieces_of_ne_nil hn hF, List.flatten_cons, ih (F.drop n).length (by simp; omega) rfl, List.take_append_drop]

end XrdHdfs.Lib
