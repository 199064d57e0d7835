import Mathlib.Data.List.TakeDrop
import Mathlib.Tactic

/-!
# Memory

Memory from some address on is a function of the offset.  `put m o src` is the memory after `src` was copied to the
offset `o`, and `region m o n` are the `n` cells there.
-/

namespace XrdHdfs.Lib

variable {α : Type}

/-- `src` is copied to the offset `o`. -/
def put (m : ℕ → α) (o : ℕ) (src : List α) : ℕ → α := fun i =>
  if h : o ≤ i ∧ i < o + src.length then src.get ⟨i - o, by omega⟩ else m i

/-- The `n` cells from the offset `o` on. -/
def region (m : ℕ → α) (o n : ℕ) : List α := (List.range n).map fun i => m (o + i)

variable {m m' : ℕ → α} {o p n : ℕ} {src : List α}

@[simp] theorem length_region : (region m o n).length = n := by simp [region]

@[simp] theorem region_zero : region m o 0 = [] := rfl

theorem region_add (a b : ℕ) : region m o (a + b) = region m o a ++ region m (o + a) b := by
  unfold region
  rw [List.range_add, List.map_append, List.map_map]
  congr 1
  exact List.map_congr_left fun i _ => by rw [Function.comp_apply, Nat.add_assoc]

theorem region_succ : region m o (n + 1) = m o :: region m (o + 1) n := by
  rw [Nat.add_comm n 1, region_add]
  rfl

theorem region_congr (h : ∀ i, o ≤ i → i < o + n → m i = m' i) : region m o n = region m' o n :=
  List.map_congr_left fun i hi => h (o + i) (Nat.le_add_right o i) (Nat.add_lt_add_left (List.mem_range.1 hi) o)

/-! ### What is copied, and what is not -/

theorem put_of_lt {i : ℕ} (h : i < o) : put m o src i = m i := dif_neg (by omega)

theorem put_of_le {i : ℕ} (h : o + src.length ≤ i) : put m o src i = m i := dif_neg (by omega)

/-- What was copied is there. -/
theorem region_put (h : src.length = n) : region (put m o src) o n = src := by
  subst h
  refine List.ext_getElem length_region fun i hi hi' => ?_
  have hin : o ≤ o + i ∧ o + i < o + src.length := by omega
  simp only [region, List.getElem_map, List.getElem_range, put, dif_pos hin, List.get_eq_getElem]
  congr 1
  omega

theorem region_put_before (h : p + n ≤ o) : region (put m o src) p n = region m p n :=
  region_congr fun i _ hi => put_of_lt (by omega)

theorem region_put_behind (h : o + src.length ≤ p) : region (put m o src) p n = region m p n :=
  region_congr fun i hi _ => put_of_le (by omega)

end XrdHdfs.Lib
