import XrdHdfs.ReadAhead

/-!
# Copies out of the read-ahead buffer

The full-hit test of `Read` compares unsigned values.  A read at a negative offset leaves a negative
`readbuf_offset` and an empty buffer; a later request that starts at or after it and ends at or after byte 0
then passes the test, because `readbuf_offset + readbuf_len` is a huge unsigned number (`Straddles`).  The
partial-hit test casts `readbuf_len` to `off_t` and has no such gap.

`reads_safe_iff`: in every run, and for every behaviour of `hdfsPread`, the copies out of the buffer stay
inside the bytes stored since `readbuf_offset` was last set exactly when no call of the run straddles.
-/

namespace XrdHdfs

open Lib

/-! ### Reading the accesses back -/

/-- The number of bytes stored since `readbuf_offset` was last set, after one access. -/
def Access.next (k : ℕ) : Access → ℕ
  | .place _ => 0
  | .pread _ _ _ => k
  | .fill _ n => k + n
  | .copy _ _ _ => k

/-- With `k` bytes stored, a store goes right behind them, and a copy reads only indices below
`readbuf_len`, which is `k`. -/
def Access.Safe (k : ℕ) : Access → Prop
  | .place _ => True
  | .pread _ _ _ => True
  | .fill start _ => start = k
  | .copy start n len => len = k ∧ ∀ i : ℕ, i < n → 0 ≤ start + i ∧ start + i < len

/-- The number of bytes stored after a sequence of accesses. -/
def storedAfter (k : ℕ) (as : List Access) : ℕ := as.foldl Access.next k

/-- Every access of the sequence is safe where it stands. -/
def SafeFrom : ℕ → List Access → Prop
  | _, [] => True
  | k, a :: as => a.Safe k ∧ SafeFrom (a.next k) as

instance Access.decidableSafe (k : ℕ) : ∀ a : Access, Decidable (a.Safe k)
  | .place _ => isTrue trivial
  | .pread _ _ _ => isTrue trivial
  | .fill start _ => inferInstanceAs (Decidable (start = k))
  | .copy start n len => inferInstanceAs (Decidable (len = k ∧ ∀ i : ℕ, i < n → 0 ≤ start + i ∧ start + i < len))

instance decidableSafeFrom : ∀ (k : ℕ) (as : List Access), Decidable (SafeFrom k as)
  | _, [] => isTrue trivial
  | k, a :: as =>
    have := decidableSafeFrom (a.next k) as
    inferInstanceAs (Decidable (a.Safe k ∧ SafeFrom (a.next k) as))

theorem safeFrom_append (as bs : List Access) :
    ∀ k, SafeFrom k (as ++ bs) ↔ SafeFrom k as ∧ SafeFrom (storedAfter k as) bs := by
  induction as with
  | nil => intro k; simp [SafeFrom, storedAfter]
  | cons a as ih =>
    intro k
    simp only [List.cons_append, SafeFrom, ih, and_assoc]
    rfl

theorem storedAfter_append (k : ℕ) (as bs : List Access) :
    storedAfter k (as ++ bs) = storedAfter (storedAfter k as) bs := List.foldl_append

/-- A copy inside the stored bytes is safe. -/
theorem Access.safe_copy {start : ℤ} {n len : ℕ} (h : 0 ≤ start) (h' : start + n ≤ len) :
    (Access.copy start n len).Safe len := by
  refine ⟨rfl, fun i hi => ?_⟩
  omega

namespace Readbuf

/-! ### The invariant -/

/-- What `Read` maintains about the two fields of the window, whatever `hdfsPread` does: the offset is an
`off_t`, a buffer placed at a negative offset is empty, and the length is far from overflowing. -/
structure WindowOk (rb : Readbuf) : Prop where
  lower : -2 ^ 63 ≤ rb.offset
  upper : rb.offset < 2 ^ 63
  empty : rb.offset < 0 → rb.len = 0
  len_lt : rb.len < 2 ^ 32

theorem windowOk_open (rb : Readbuf) (malloc : Option (ℤ → UInt8)) : (rb.openReadbuf malloc).WindowOk := by
  constructor <;> simp [openReadbuf_offset, openReadbuf_len]

theorem windowOk_place {rb : Readbuf} {o : ℤ} (h : -2 ^ 63 ≤ o) (h' : o < 2 ^ 63) : (rb.place o).WindowOk :=
  ⟨h, h', fun _ => rfl, by simp⟩

/-- The requests that the unsigned full-hit test lets through although the buffer holds nothing: the buffer
was placed at a negative offset, and the request starts at or after it and ends at or after byte 0. -/
def Straddles (rb : Readbuf) (c : ReadCall) : Prop :=
  0 < c.blen.toNat ∧ c.blen.toNat ≤ rb.size ∧ rb.offset < 0 ∧ rb.offset ≤ c.offset.toInt ∧
    0 ≤ c.offset.toInt + c.blen.toNat ∧ c.offset.toInt + c.blen.toNat ≤ 2 ^ 64 + rb.offset

section Step

variable {rb : Readbuf} {c : ReadCall}

/-- A straddling request passes the full-hit test. -/
theorem Straddles.fullHit (hw : rb.WindowOk) (h : Straddles rb c) : rb.FullHit c.offset.toInt c.blen.toNat := by
  obtain ⟨_, _, hneg, hle, h0, hhi⟩ := h
  have hlen := hw.empty hneg
  have hlow := hw.lower
  refine ⟨hle, ?_⟩
  unfold u64
  rw [hlen]
  omega

/-- A request that passes the full-hit test is copied from inside the buffer, unless it straddles. -/
theorem safe_fullHit_iff (hw : rb.WindowOk) (hsize : c.blen.toNat ≤ rb.size)
    (hhit : rb.FullHit c.offset.toInt c.blen.toNat) :
    (Access.copy (s64 (c.offset.toInt - rb.offset)) c.blen.toNat rb.len).Safe rb.len ↔ ¬ Straddles rb c := by
  obtain ⟨hle, hu⟩ := hhit
  have hupper := hw.upper
  have hlen := hw.len_lt
  have hcap := rb.size_le
  have hoff : c.offset.toInt < 2 ^ 63 := Int64.toInt_lt c.offset
  by_cases hneg : rb.offset < 0
  · -- the buffer is empty: the copy is safe only if it copies nothing
    have h0 := hw.empty hneg
    have hlow := hw.lower
    unfold u64 at hu
    rw [h0] at hu ⊢
    constructor
    · rintro ⟨-, hall⟩ hs
      have := hall 0 hs.1
      omega
    · intro hns
      refine ⟨rfl, fun i hi => ?_⟩
      exact absurd ⟨by omega, hsize, hneg, hle, by omega, by omega⟩ hns
  · -- nothing wraps around, and the test means what it says
    unfold u64 at hu
    have hs : s64 (c.offset.toInt - rb.offset) = c.offset.toInt - rb.offset := s64_of_lt (by omega) (by omega)
    rw [hs]
    constructor
    · rintro - ⟨-, -, h, -⟩
      exact hneg h
    · intro _
      exact Access.safe_copy (by omega) (by omega)

/-- What the buffer already holds of a request is copied from inside the buffer, and the request is shifted
to an offset that is an `off_t` again. -/
theorem serve_safe (hw : rb.WindowOk) (o : ℤ) (blen : ℕ) (hlow : -2 ^ 63 ≤ o) (hup : o < 2 ^ 63) :
    SafeFrom rb.len (rb.serve o blen).1.accesses ∧ -2 ^ 63 ≤ (rb.serve o blen).1.offset ∧
      (rb.serve o blen).1.offset < 2 ^ 63 := by
  unfold serve
  by_cases h : rb.PartialHit o
  · simp only [if_pos h]
    obtain ⟨hle, hlt⟩ := h
    have hupper := hw.upper
    have hlen := hw.len_lt
    have hpos : 0 ≤ rb.offset := by
      by_contra hneg
      have h0 := hw.empty (by omega)
      unfold s64 at hlt
      rw [h0] at hlt
      have := hw.lower
      omega
    have hsum : o < rb.offset + rb.len ∧ rb.offset + rb.len < 2 ^ 63 := by
      unfold s64 at hlt
      omega
    rw [s64_of_lt (z := o - rb.offset) (by omega) (by omega)]
    rw [s64_of_lt (z := rb.len - (o - rb.offset)) (by omega) (by omega), u64_of_lt (by omega) (by omega),
      s64_of_lt (z := o + _) (by omega) (by omega)]
    refine ⟨⟨Access.safe_copy (by omega) (by omega), trivial⟩, by omega, by omega⟩
  · simp only [if_neg h]
    exact ⟨trivial, hlow, hup⟩

end Step

/-! ### One read -/

section Read

variable {σ : Type} {hdfsPread : ℤ → ℤ → σ → PreadAnswer × σ}

/-- The loop that fills the buffer keeps the window in order and makes no copy. -/
theorem refill_safe (hneg : ∀ pos len s, pos < 0 → (hdfsPread pos len s).1.n ≤ 0) {k : ℕ} {o : ℤ}
    (rb : Readbuf) (acc : List Access) (s : σ) (ho : rb.offset = o) (hw : rb.WindowOk)
    (hsafe : SafeFrom k acc) (hk : storedAfter k acc = rb.len) :
    Ends (.loop (refillTurn hdfsPread o) (rb, acc)) s fun r _ =>
      r.2.1.WindowOk ∧ SafeFrom k r.2.2 ∧ storedAfter k r.2.2 = r.2.1.len := by
  refine Ends.loop
    (fun b _ => b.1.offset = o ∧ b.1.WindowOk ∧ SafeFrom k b.2 ∧ storedAfter k b.2 = b.1.len) ?_
    (rb, acc) s ⟨ho, hw, hsafe, hk⟩
  rintro ⟨rb, acc⟩ s ⟨ho, hw, hsafe, hk⟩
  dsimp only at ho hw hsafe hk
  refine refillTurn_cases hdfsPread o rb acc s (fun _ => ⟨hw, hsafe, hk⟩) ?_
  intro hlt pos want a s' hpos _ ha
  -- a call of hdfsPread by itself changes nothing
  have hcall : SafeFrom k (acc ++ [.pread pos want a.n]) ∧ storedAfter k (acc ++ [.pread pos want a.n]) = rb.len := by
    rw [safeFrom_append, storedAfter_append, hk]
    exact ⟨⟨hsafe, trivial, trivial⟩, rfl⟩
  refine ⟨fun _ _ => ⟨ho, hw, hcall⟩, fun _ _ => ⟨hw, hcall⟩, fun _ _ => ⟨hw, hcall⟩, fun hn => ?_⟩
  have hdata := a.length_data_lt
  have hcap := rb.size_le
  refine ⟨ho, ⟨hw.lower, hw.upper, fun hoff => ?_, ?_⟩, ?_, ?_⟩
  · -- bytes arrive only at positions that are not negative, so the offset is not negative either
    exfalso
    rw [store_offset] at hoff
    have h0 := hw.empty hoff
    have hlow := hw.lower
    have := hneg pos want s (by rw [hpos, h0, ← ho, s64_of_lt] <;> omega)
    simp only [ha] at this
    omega
  · rw [store_len]
    omega
  · rw [safeFrom_append, hcall.2]
    exact ⟨hcall.1, rfl, trivial⟩
  · rw [storedAfter_append, hcall.2]
    rfl

/-- **One `Read`.**  It keeps the window in order, and its copies are safe exactly when it does not straddle. -/
theorem read_safe (hneg : ∀ pos len s, pos < 0 → (hdfsPread pos len s).1.n ≤ 0) (rb : Readbuf)
    (c : ReadCall) (s : σ) (hw : rb.WindowOk) :
    Ends (rb.read hdfsPread c.offset.toInt c.blen.toNat) s fun r _ =>
      r.2.WindowOk ∧ storedAfter rb.len r.1.accesses = r.2.len ∧
        (SafeFrom rb.len r.1.accesses ↔ ¬ Straddles rb c) := by
  unfold read
  refine Ends.ite (fun hby => ?_) (fun hsize => Ends.ite (fun hhit => ?_) (fun hmiss => ?_))
  · -- bypass: the buffer is not touched
    refine Ends.bind (Ends.step (Ends.pure ?_))
    refine ⟨⟨hw.lower, hw.upper, hw.empty, hw.len_lt⟩, rfl, iff_of_true ⟨trivial, trivial⟩ ?_⟩
    rintro ⟨-, h, -⟩
    omega
  · -- full hit
    refine Ends.pure ⟨⟨hw.lower, hw.upper, hw.empty, hw.len_lt⟩, rfl, ?_⟩
    rw [← safe_fullHit_iff hw (by omega) hhit]
    exact and_iff_left trivial
  · -- partial hit or miss: refill at the shifted offset
    obtain ⟨hserve, hlow, hup⟩ := serve_safe hw c.offset.toInt c.blen.toNat (Int64.le_toInt c.offset)
      (Int64.toInt_lt c.offset)
    have hns : ¬ Straddles rb c := fun hs => hmiss (hs.fullHit hw)
    refine Ends.bind ((refill_safe hneg ((rb.serve _ _).2.place _) _ s rfl (windowOk_place hlow hup)
      (k := rb.len) ?_ ?_).mono ?_)
    · rw [safeFrom_append]
      exact ⟨hserve, trivial, trivial⟩
    · rw [storedAfter_append]
      rfl
    rintro ⟨err, rb', acc⟩ s' ⟨hw', hsafe, hk⟩
    dsimp only at hw' hsafe hk
    cases err with
    | some errno => exact Ends.pure ⟨hw', hk, iff_of_true hsafe hns⟩
    | none =>
      refine Ends.pure ⟨⟨hw'.lower, hw'.upper, hw'.empty, hw'.len_lt⟩, ?_, iff_of_true ?_ hns⟩
      · rw [storedAfter_append, hk]
        rfl
      · rw [safeFrom_append, hk]
        refine ⟨hsafe, Access.safe_copy (by omega) ?_, trivial⟩
        split <;> omega

/-! ### Runs -/

/-- The accesses of a run, in order. -/
def accesses (steps : List ReadStep) : List Access := steps.flatMap fun st => st.out.accesses

theorem reads_safe (hneg : ∀ pos len s, pos < 0 → (hdfsPread pos len s).1.n ≤ 0) :
    ∀ (cs : List ReadCall) (rb : Readbuf) (s : σ), rb.WindowOk →
      Ends (reads hdfsPread rb cs) s fun r _ =>
        SafeFrom rb.len (accesses r.1) ↔ ∀ st ∈ r.1, ¬ Straddles st.rb st.call := by
  intro cs
  induction cs with
  | nil =>
    intro rb s _
    exact Ends.pure (iff_of_true trivial (by simp))
  | cons c cs ih =>
    intro rb s hw
    refine Ends.bind ((read_safe hneg rb c s hw).mono ?_)
    rintro ⟨out, rb'⟩ s' ⟨hw', hk, hiff⟩
    refine Ends.bind ((ih rb' s' hw').mono ?_)
    rintro ⟨steps, rb''⟩ s'' hrest
    refine Ends.pure ?_
    dsimp only at hk hiff hrest ⊢
    simp only [accesses, List.flatMap_cons, List.forall_mem_cons] at hrest ⊢
    rw [safeFrom_append, hk, hiff, hrest]

/-- **Memory safety of the read-ahead buffer.**  After an `Open`, for every sequence of `Read` calls and every
behaviour of `hdfsPread` that gives no bytes at a negative position, every copy out of `readbuf` reads only
bytes that were stored since `readbuf_offset` was last set, if and only if no call straddles. -/
theorem reads_safe_iff (hneg : ∀ pos len s, pos < 0 → (hdfsPread pos len s).1.n ≤ 0) (fuel : ℕ) (rb rb' : Readbuf)
    (malloc : Option (ℤ → UInt8)) (cs : List ReadCall) (s s' : σ) (steps : List ReadStep)
    (hrun : (reads hdfsPread (rb.openReadbuf malloc) cs).run fuel s = some ((steps, rb'), s')) :
    SafeFrom 0 (accesses steps) ↔ ∀ st ∈ steps, ¬ Straddles st.rb st.call := by
  have h := reads_safe hneg cs (rb.openReadbuf malloc) s (windowOk_open rb malloc) fuel _ _ hrun
  rwa [openReadbuf_len] at h

end Read

/-- An `hdfsPread` on an empty file which fails at negative positions. -/
def preadEmpty (pos _len : ℤ) (s : Unit) : PreadAnswer × Unit :=
  (if pos < 0 then .failed EINVAL else .got [] 0 (by decide), s)

/-- A read of 1 byte at offset -10 fails and leaves `readbuf_offset = -10`; the read of 10 bytes at offset 5
that follows is served from `readbuf + 15`, though nothing was ever stored. -/
theorem reads_leak : ¬ ∀ (hdfsPread : ℤ → ℤ → Unit → PreadAnswer × Unit),
    (∀ pos len s, pos < 0 → (hdfsPread pos len s).1.n ≤ 0) →
    ∀ (fuel : ℕ) (rb rb' : Readbuf) (malloc : Option (ℤ → UInt8)) (cs : List ReadCall) (s s' : Unit)
      (steps : List ReadStep),
      (reads hdfsPread (rb.openReadbuf malloc) cs).run fuel s = some ((steps, rb'), s') →
      SafeFrom 0 (accesses steps) := by
  intro h
  have hneg : ∀ pos len s, pos < 0 → (preadEmpty pos len s).1.n ≤ 0 := by
    intro pos len s hpos
    simp [preadEmpty, hpos, PreadAnswer.n]
  exact absurd (h preadEmpty hneg 2 {} _ (some fun _ => 0) [⟨-10, 1⟩, ⟨5, 10⟩] () _ _ rfl) (by decide)

/-- Two reads of an empty file at offset 0: the run returns, and neither read straddles. -/
theorem reads_safe_iff_empty :
    ((reads preadEmpty (openReadbuf {} (some fun _ => 0)) [⟨0, 4⟩, ⟨0, 4⟩]).run 2 ()).isSome ∧
      ∀ r ∈ (reads preadEmpty (openReadbuf {} (some fun _ => 0)) [⟨0, 4⟩, ⟨0, 4⟩]).run 2 (),
        (SafeFrom 0 (accesses r.1.1) ↔ ∀ st ∈ r.1.1, ¬ Straddles st.rb st.call) :=
  ⟨by decide, fun r hr => reads_safe_iff (by intro pos len s hpos; simp [preadEmpty, hpos, PreadAnswer.n]) 2 {}
    r.1.2 (some fun _ => 0) [⟨0, 4⟩, ⟨0, 4⟩] () r.2 r.1.1 hr⟩

end Readbuf

end XrdHdfs
