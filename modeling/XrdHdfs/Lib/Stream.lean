import XrdHdfs.Lib.Slice

/-!
# Streaming hashes and fixed-size chunks

A `StreamHash` absorbs a sequence piece by piece; where the pieces are cut makes no difference.

`chunks C D` are the full chunks of length `C` of a sequence and `rest C D` is what is left behind them.  The
lemmas say what a splitter does that carries the rest of the last call over into the next one: a piece that
does not fill the chunk goes to the rest (`chunks_append_lt`), one that fills it closes a chunk
(`chunks_append_fill`).
-/

namespace XrdHdfs.Lib

/-- A hash that absorbs its input in pieces. -/
structure StreamHash (α : Type) where
  Ctx : Type
  init : Ctx
  update : Ctx → List α → Ctx
  final : Ctx → List α
  update_nil : update init [] = init
  update_append : ∀ x y, update (update init x) y = update init (x ++ y)

namespace StreamHash

variable {α : Type} (H : StreamHash α)

/-- What the hash has absorbed after `x`. -/
def absorb (x : List α) : H.Ctx := H.update H.init x

/-- The hash of a sequence. -/
def hash (x : List α) : List α := H.final (H.absorb x)

theorem absorb_nil : H.absorb [] = H.init := H.update_nil

theorem update_absorb (x y : List α) : H.update (H.absorb x) y = H.absorb (x ++ y) := H.update_append x y

/-- The hash whose value is computed by `f` from all that was absorbed. -/
def ofFun (f : List α → List α) : StreamHash α where
  Ctx := List α
  init := []
  update := (· ++ ·)
  final := f
  update_nil := rfl
  update_append _ _ := by simp

end StreamHash

section Chunks

variable {α : Type} {C : ℕ} {D b : List α}

/-- The `i`-th chunk of length `C`. -/
def chunk (C : ℕ) (D : List α) (i : ℕ) : List α := slice D (i * C) C

/-- The full chunks of a sequence. -/
def chunks (C : ℕ) (D : List α) : List (List α) := (List.range (D.length / C)).map (chunk C D)

/-- What is left behind the full chunks. -/
def rest (C : ℕ) (D : List α) : List α := D.drop (D.length / C * C)

theorem length_chunks : (chunks C D).length = D.length / C := by
  simp [chunks]

theorem length_rest : (rest C D).length = D.length % C := by
  rw [rest, List.length_drop, Nat.mod_eq_sub_div_mul]

/-- A full chunk stays the same when the sequence goes on. -/
theorem chunk_append {i : ℕ} (h : (i + 1) * C ≤ D.length) : chunk C (D ++ b) i = chunk C D i := by
  have h' : (i + 1) * C = i * C + C := by ring
  unfold chunk slice
  rw [List.drop_append_of_le_length (by omega), List.take_append_of_le_length (by simp; omega)]

theorem map_chunk_append {k : ℕ} (h : k * C ≤ D.length) :
    (List.range k).map (chunk C (D ++ b)) = (List.range k).map (chunk C D) := by
  refine List.map_congr_left fun i hi => chunk_append ?_
  have hi' : i + 1 ≤ k := List.mem_range.1 hi
  exact (Nat.mul_le_mul_right C hi').trans h

/-- A piece that does not fill the chunk. -/
theorem chunks_append_lt (h : D.length % C + b.length < C) :
    chunks C (D ++ b) = chunks C D ∧ rest C (D ++ b) = rest C D ++ b := by
  have hdiv : (D ++ b).length / C = D.length / C := by
    rw [List.length_append]
    have hC : 0 < C := by omega
    have hsplit : D.length + b.length = (D.length % C + b.length) + C * (D.length / C) := by
      have := Nat.mod_add_div D.length C
      omega
    rw [hsplit, Nat.add_mul_div_left _ _ hC, Nat.div_eq_of_lt h, Nat.zero_add]
  have hle : D.length / C * C ≤ D.length := Nat.div_mul_le_self _ _
  refine ⟨?_, ?_⟩
  · rw [chunks, hdiv, map_chunk_append hle]
    rfl
  · rw [rest, hdiv, List.drop_append_of_le_length hle]
    rfl

/-- A piece that fills the chunk exactly. -/
theorem chunks_append_fill (hC : 0 < C) (h : D.length % C + b.length = C) :
    chunks C (D ++ b) = chunks C D ++ [rest C D ++ b] ∧ rest C (D ++ b) = [] := by
  have hmod := Nat.mod_add_div D.length C
  have hlen : (D ++ b).length = (D.length / C + 1) * C := by
    rw [List.length_append, Nat.add_mul, Nat.mul_comm (D.length / C) C]
    omega
  have hdiv : (D ++ b).length / C = D.length / C + 1 := by rw [hlen, Nat.mul_div_cancel _ hC]
  have hle : D.length / C * C ≤ D.length := Nat.div_mul_le_self _ _
  refine ⟨?_, ?_⟩
  · rw [chunks, hdiv, List.range_succ, List.map_append, map_chunk_append hle]
    congr 1
    have hlast : chunk C (D ++ b) (D.length / C) = rest C D ++ b := by
      unfold chunk slice rest
      rw [List.drop_append_of_le_length hle, List.take_of_length_le]
      have hr := length_rest (C := C) (D := D)
      rw [rest] at hr
      rw [List.length_append, hr]
      omega
    simp [hlast]
  · rw [rest, hdiv, ← hlen, List.drop_length]

end Chunks

end XrdHdfs.Lib
