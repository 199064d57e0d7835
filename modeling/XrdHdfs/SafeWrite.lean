import XrdHdfs.Environment

/-!
# `safe_write`

`safe_write` asks `write` for `len - result` bytes, where `result` is what the turn before returned.  After it took a
part of the bytes, that part has come off `len` already, and is taken off once more; after an interruption, one byte
more is asked for than there is.  `safe_write_right_iff`: all is well if and only if no interruption comes while bytes
are left, and no `write` takes more than half of what is left without taking all.

The invariant is that the cursor and the length together make up the buffer, and that the last result fits into what is
left.
-/

namespace XrdHdfs

namespace SafeWrite

variable {buf : ℕ → UInt8} {total : ℕ} {s : SafeWrite} {o : WriteOutcome}

/-- What is asked for lies in what is not yet written, what was written is the start of the buffer, and 0 is returned
when that is all of it. -/
structure Right (buf : ℕ → UInt8) (total : ℕ) (s : SafeWrite) : Prop where
  requests : ∀ q ∈ s.requests, q.written ≤ q.start ∧ q.start + q.size ≤ total
  out : s.out <+: (List.range total).map buf
  returned : s.returned = some 0 → s.out = (List.range total).map buf

/-- While bytes are left, `write` is not interrupted, and takes all or at most half of them. -/
def Orderly (o : WriteOutcome) (s : SafeWrite) : Prop :=
  s.returned = none → s.len ≠ 0 →
    match o with
    | .failed errno _ => errno ≠ EINTR
    | .wrote n => s.taken n = s.len ∨ 2 * s.taken n ≤ s.len

/-- The invariant. -/
structure Inv (buf : ℕ → UInt8) (total : ℕ) (s : SafeWrite) : Prop where
  sum : s.cur_buffer + s.len = total
  out : s.out = (List.range s.cur_buffer).map buf
  result : s.returned = none → s.len ≠ 0 → 0 ≤ s.result ∧ s.result ≤ s.len
  requests : ∀ q ∈ s.requests, q.written ≤ q.start ∧ q.start + q.size ≤ total
  returned : s.returned = some 0 → s.len = 0

theorem toNat_u64 {n : ℤ} (h : 0 ≤ n) (h' : n < 2 ^ 64) : ((u64 n).toNat : ℤ) = n := by
  rw [u64_of_lt h h', Int.toNat_of_nonneg h]

theorem range_add_map (f : ℕ → UInt8) (m n : ℕ) :
    (List.range m).map f ++ (List.range n).map (fun i => f (m + i)) = (List.range (m + n)).map f := by
  rw [List.range_add, List.map_append, List.map_map]
  rfl

theorem Inv.right (h : s.Inv buf total) : s.Right buf total := by
  obtain ⟨rest, hrest⟩ : ∃ rest, total = s.cur_buffer + rest := ⟨s.len, h.sum.symm⟩
  refine ⟨h.requests, ?_, fun h0 => ?_⟩
  · rw [h.out, hrest, ← range_add_map]
    exact List.prefix_append _ _
  · have hlen := h.returned h0
    have hsum := h.sum
    rw [h.out, show s.cur_buffer = total by omega]

/-- While bytes are left, no more is asked for than there are. -/
theorem Inv.request (h : s.Inv buf total) (htotal : total < 2 ^ 63) (h0 : s.returned = none) (hlen : s.len ≠ 0) :
    (s.request : ℤ) = s.len - s.result := by
  have hsum := h.sum
  obtain ⟨hnonneg, hle⟩ := h.result h0 hlen
  exact toNat_u64 (by omega) (by omega)

theorem Inv.taken_le (h : s.Inv buf total) (htotal : total < 2 ^ 63) (h0 : s.returned = none) (hlen : s.len ≠ 0)
    (n : ℕ) : s.taken n ≤ s.len := by
  have hreq := h.request htotal h0 hlen
  have hnonneg := (h.result h0 hlen).1
  unfold taken
  omega

/-- **One turn** keeps the invariant where the outcome is orderly. -/
theorem Inv.turn (h : s.Inv buf total) (htotal : total < 2 ^ 63) (ho : s.Orderly o) : (s.turn buf o).Inv buf total := by
  unfold SafeWrite.turn
  rcases hr : s.returned with _ | e
  swap
  · exact h
  simp only [Option.isSome_none, Bool.false_eq_true, if_false]
  rcases eq_or_ne s.len 0 with hlen | hlen
  · rw [if_pos hlen]
    exact ⟨h.sum, h.out, fun h0 => absurd h0 (by simp), h.requests, fun _ => hlen⟩
  rw [if_neg hlen]
  have hsum := h.sum
  have hreq := h.request htotal hr hlen
  have hnonneg := (h.result hr hlen).1
  have hrequests : ∀ q ∈ s.requests ++ [⟨s.cur_buffer, s.request, s.out.length⟩],
      q.written ≤ q.start ∧ q.start + q.size ≤ total := by
    intro q hq
    rcases List.mem_append.1 hq with hq | hq
    · exact h.requests q hq
    · have hout : s.out.length = s.cur_buffer := by
        rw [h.out, List.length_map, List.length_range]
      rw [List.mem_singleton.1 hq]
      dsimp only
      omega
  have ho' := ho hr hlen
  cases o with
  | failed errno pos =>
    dsimp only at ho' ⊢
    rw [if_neg ho']
    refine ⟨hsum, h.out, fun h0 => absurd h0 (by simp), hrequests, fun h0 => ?_⟩
    have he : errno = 0 := Option.some.inj h0
    omega
  | wrote n =>
    have hle := h.taken_le htotal hr hlen n
    have hleft : ((u64 (s.len - s.taken n)).toNat : ℤ) = s.len - s.taken n := toNat_u64 (by omega) (by omega)
    dsimp only at ho' ⊢
    refine ⟨?_, ?_, fun _ hne => ?_, hrequests, fun h0 => ?_⟩
    · dsimp only
      omega
    · dsimp only
      rw [h.out, range_add_map]
    · dsimp only at hne ⊢
      rcases ho' with hall | hhalf
      · omega
      · omega
    · cases h0

/-- An outcome that is not orderly makes the next turn ask for more than there is. -/
theorem Inv.orderly (h : s.Inv buf total) (htotal : total < 2 ^ 63) (o' : WriteOutcome)
    (hright : ((s.turn buf o).turn buf o').Right buf total) : s.Orderly o := by
  intro hr hlen
  have hsum := h.sum
  -- the request of the next turn, when that turn is made
  have hnext : ∀ s' : SafeWrite, s.turn buf o = s' → s'.returned = none → s'.len ≠ 0 →
      s'.cur_buffer + s'.request ≤ total := by
    intro s' hs' hr' hlen'
    rw [hs'] at hright
    refine (hright.requests ⟨s'.cur_buffer, s'.request, s'.out.length⟩ ?_).2
    unfold SafeWrite.turn
    rw [hr']
    simp only [Option.isSome_none, Bool.false_eq_true, if_false]
    rw [if_neg hlen']
    cases o' with
    | failed errno pos =>
      dsimp only
      split <;> simp
    | wrote n => simp
  unfold SafeWrite.turn at hnext
  rw [hr] at hnext
  simp only [Option.isSome_none, Bool.false_eq_true, if_false] at hnext
  rw [if_neg hlen] at hnext
  cases o with
  | failed errno pos =>
    dsimp only at hnext ⊢
    intro he
    rw [if_pos he] at hnext
    have hbad := hnext _ rfl rfl hlen
    simp only [SafeWrite.request] at hbad
    have hreq : ((u64 (s.len - (-1))).toNat : ℤ) = s.len - (-1) := toNat_u64 (by omega) (by omega)
    omega
  | wrote n =>
    dsimp only at hnext ⊢
    have hle := h.taken_le htotal hr hlen n
    have hleft : ((u64 (s.len - s.taken n)).toNat : ℤ) = s.len - s.taken n := toNat_u64 (by omega) (by omega)
    by_contra hbad
    have hmore := hnext _ rfl rfl (by dsimp only; omega)
    simp only [SafeWrite.request] at hmore
    rw [hleft] at hmore
    unfold u64 at hmore
    omega

end SafeWrite

variable {buf : ℕ → UInt8} {len : ℕ} {outcomes : ℕ → WriteOutcome}

theorem safe_write_start (buf : ℕ → UInt8) (len : ℕ) (outcomes : ℕ → WriteOutcome) :
    (safe_write buf len outcomes 0).Inv buf len :=
  ⟨Nat.zero_add len, rfl, fun _ _ => ⟨le_rfl, Int.natCast_nonneg _⟩, by simp [safe_write], by simp [safe_write]⟩

/-- A run whose outcomes are orderly keeps the invariant. -/
theorem safe_write_inv (hlen : len < 2 ^ 63) {n : ℕ}
    (h : ∀ k < n, (safe_write buf len outcomes k).Orderly (outcomes k)) : (safe_write buf len outcomes n).Inv buf len := by
  induction n with
  | zero => exact safe_write_start buf len outcomes
  | succ n ih => exact (ih fun k hk => h k (by omega)).turn hlen (h n (Nat.lt_succ_self n))

/-- **When `safe_write` writes exactly its buffer**: if and only if all outcomes are orderly. -/
theorem safe_write_right_iff (buf : ℕ → UInt8) {len : ℕ} (hlen : len < 2 ^ 63) (outcomes : ℕ → WriteOutcome) :
    (∀ n, (safe_write buf len outcomes n).Right buf len) ↔
      ∀ n, (safe_write buf len outcomes n).Orderly (outcomes n) := by
  constructor
  · intro h n
    -- by strong induction: up to the first outcome that is not orderly, the invariant holds
    induction n using Nat.strong_induction_on with
    | _ n ih => exact (safe_write_inv hlen ih).orderly hlen (outcomes (n + 1)) (h (n + 2))
  · intro h n
    exact (safe_write_inv hlen fun k _ => h k).right

/-- Four bytes in three calls: one of them, one of them again, and the rest. -/
theorem safe_write_right_four :
    4 < 2 ^ 63 ∧ ((∀ n, (safe_write (fun _ => 65) 4 (fun n => .wrote (if n < 2 then 1 else 2)) n).Right (fun _ => 65) 4) ↔
      ∀ n, (safe_write (fun _ => 65) 4 (fun n => .wrote (if n < 2 then 1 else 2)) n).Orderly
        (.wrote (if n < 2 then 1 else 2))) :=
  ⟨by decide, safe_write_right_iff (fun _ => 65) (by decide) fun n => .wrote (if n < 2 then 1 else 2)⟩

/-- Interrupted once, `safe_write` asks for two bytes where it has one. -/
theorem safe_write_overreads :
    ¬ ∀ n, (safe_write (fun _ => 65) 1 (fun n => if n = 0 then .failed EINTR (by decide) else .wrote 1) n).Right
      (fun _ => 65) 1 := by
  intro h
  have hreq := ((h 2).requests ⟨0, 2, 0⟩ (by decide)).2
  exact absurd hreq (by decide)

end XrdHdfs
