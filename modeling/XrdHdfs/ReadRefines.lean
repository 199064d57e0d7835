import XrdHdfs.ReadAhead

/-!
# Reading through the buffer is reading the file

Over a file that does not change, and for requests at offsets that are not negative, the read-ahead buffer
always holds a window of the file (`BufferHolds`), also after a call that failed half-way through filling it.
So a `Read` that goes through the buffer and does not fail returns what the file has at the offset, cut off
only by the end of the file; a larger one returns what its single `hdfsPread` gave (`ReadOk`).

`Serves S F hdfsPread` is what is asked of the library: in the states `S`, which its calls do not leave, there
may be short reads, interruptions and errors at any point, but the bytes are those of the file, and 0 without an
error means the end of it.  Where there are finitely many interruptions (`Counted`) a `Read` returns
(`read_gives`), and where there are no other failures (`Calm`) a `Read` through the buffer does not fail
(`read_calm`).
-/

namespace XrdHdfs

open Lib

namespace Readbuf

/-- What a call of `hdfsPread` at `pos` for `len` bytes may answer on the file `F`. -/
def PreadOk (F : Bytes) (pos len : ℤ) : PreadAnswer → Prop
  | .failed _ => True
  | .got d e _ => d.length ≤ max len 0 ∧ d <+: F.drop pos.toNat ∧ (d = [] → e = 0 → F.length ≤ pos ∨ len ≤ 0)

/-- In the states `S`, every answer of `hdfsPread` is one for the file `F`. -/
def Serves {σ : Type} (S : σ → Prop) (F : Bytes) (hdfsPread : ℤ → ℤ → σ → PreadAnswer × σ) : Prop :=
  ∀ pos len s, S s → S (hdfsPread pos len s).2 ∧ (0 ≤ pos → PreadOk F pos len (hdfsPread pos len s).1)

/-- **The invariant.** `readbuf[0..readbuf_len)` is `F[readbuf_offset .. readbuf_offset + readbuf_len)`. -/
structure BufferHolds (F : Bytes) (rb : Readbuf) : Prop where
  nonneg : 0 ≤ rb.offset
  upper : rb.offset < 2 ^ 63
  window : Window F rb.offset.toNat (rb.copyOut 0 rb.len)
  len_le : rb.len ≤ rb.size

/-- What one `Read` says about its result: when it did not fail, it returned what the file has. -/
def ReadOk (F : Bytes) (size : ℕ) (offset : ℤ) (blen : ℕ) (out : ReadOut) : Prop :=
  0 ≤ out.ret →
    (blen ≤ size →
      out.ret = min blen (F.length - offset.toNat) ∧ out.data = slice F offset.toNat blen) ∧
    (size < blen →
      out.accesses = [.pread offset (s32 blen) out.ret] ∧ out.data.length = out.ret ∧ out.ret ≤ max (s32 blen) 0 ∧
        out.data = slice F offset.toNat out.data.length ∧ (out.ret = 0 → F.length ≤ offset ∨ s32 blen ≤ 0))

/-! ### The memory of the buffer -/

theorem copyOut_slice {rb : Readbuf} {i n : ℕ} (h : i + n ≤ rb.len) :
    rb.copyOut i n = slice (rb.copyOut 0 rb.len) i n := by
  unfold slice copyOut
  apply List.ext_getElem
  · simp
    omega
  · intro k h₁ h₂
    simp

/-- Bytes stored by `hdfsPread` extend the valid part of the buffer. -/
theorem copyOut_store {rb : Readbuf} (d : Bytes) (hmem : rb.mem.isSome) :
    (rb.store d).copyOut 0 (rb.store d).len = rb.copyOut 0 rb.len ++ d := by
  obtain ⟨m, hm⟩ := Option.isSome_iff_exists.1 hmem
  apply List.ext_getElem
  · simp
  · intro k h₁ h₂
    simp only [length_copyOut, store_len] at h₁
    rw [List.getElem_append]
    simp only [copyOut, List.getElem_map, List.getElem_range, zero_add, store, byteAt, hm, Option.map_some,
      Option.getD_some]
    by_cases hk : k < rb.len
    · rw [dif_pos (by simpa using hk), if_neg (by omega)]
    · rw [dif_neg (by simpa using hk), if_pos (by omega)]
      have e : ((k : ℤ) - rb.len).toNat = k - rb.len := by omega
      simp only [e, List.length_map, List.length_range]
      exact (List.getElem_eq_getD 0).symm

theorem mem_of_len_lt {rb : Readbuf} (h : rb.len < rb.size) : rb.mem.isSome := by
  by_contra hm
  have := rb.alloc
  rw [if_neg hm] at this
  omega

section Buffer

variable {F : FileContent} {rb : Readbuf}

theorem bufferHolds_open (rb : Readbuf) (malloc : Option (ℤ → UInt8)) :
    BufferHolds F.bytes (rb.openReadbuf malloc) := by
  constructor
  · rw [openReadbuf_offset]
  · rw [openReadbuf_offset]; norm_num
  · rw [openReadbuf_len]; exact Window.nil
  · rw [openReadbuf_len]; exact Nat.zero_le _

theorem bufferHolds_place {o : ℤ} (h : 0 ≤ o) (h' : o < 2 ^ 63) : BufferHolds F.bytes (rb.place o) :=
  ⟨h, h', Window.nil, Nat.zero_le _⟩

/-- A buffer that is not empty ends inside the file. -/
theorem BufferHolds.end_le (hb : BufferHolds F.bytes rb) (hlen : 0 < rb.len) :
    rb.offset + rb.len ≤ F.bytes.length := by
  have := hb.window.bound (List.length_pos_iff.1 (by simpa using hlen))
  have := hb.nonneg
  simp only [length_copyOut] at *
  omega

/-- A copy from inside the valid part of the buffer is a copy of the file. -/
theorem BufferHolds.copyOut_eq (hb : BufferHolds F.bytes rb) {i n : ℕ} (h : i + n ≤ rb.len) :
    rb.copyOut i n = slice F.bytes (rb.offset.toNat + i) n := by
  rw [copyOut_slice h, hb.window.slice_eq (by simpa using h)]

/-- Bytes of the file stored behind the valid part keep the buffer a window. -/
theorem BufferHolds.store (hb : BufferHolds F.bytes rb) {d : Bytes} (hlen : rb.len < rb.size)
    (hfit : rb.len + d.length ≤ rb.size) (hd : d <+: F.bytes.drop (rb.offset.toNat + rb.len)) :
    BufferHolds F.bytes (rb.store d) := by
  refine ⟨hb.nonneg, hb.upper, ?_, hfit⟩
  rw [copyOut_store d (mem_of_len_lt hlen)]
  refine hb.window.append ?_
  rw [length_copyOut]
  exact Window.of_prefix hd

end Buffer

/-! ### One read -/

section Read

variable {σ : Type} {hdfsPread : ℤ → ℤ → σ → PreadAnswer × σ} {F : FileContent} {S : σ → Prop}

/-- What the filling loop keeps. -/
def Refilling (S : σ → Prop) (F : Bytes) (o : ℤ) (size : ℕ) (b : Readbuf × List Access) (s : σ) : Prop :=
  BufferHolds F b.1 ∧ b.1.offset = o ∧ b.1.size = size ∧ S s

/-- What it leaves behind: when it does not fail, the buffer is full or reaches the end of the file. -/
def Refilled (S : σ → Prop) (F : Bytes) (o : ℤ) (size : ℕ) (r : Option ℤ × Readbuf × List Access) (s : σ) : Prop :=
  Refilling S F o size r.2 s ∧ (r.1 = none → r.2.1.len = r.2.1.size ∨ F.length ≤ o + r.2.1.len)

/-- Where the next `hdfsPread` of the loop reads, and how much: at the end of the window, what is missing. -/
theorem Refilling.request {o : ℤ} {size : ℕ} {rb : Readbuf} {acc : List Access} {s : σ}
    (h : Refilling S F.bytes o size (rb, acc) s) :
    s64 (o + rb.len) = o + rb.len ∧ 0 ≤ o + rb.len ∧ s32 (rb.size - rb.len) = rb.size - rb.len := by
  obtain ⟨hb, ho, -, -⟩ := h
  dsimp only at hb ho
  have hcap := rb.size_le
  have hnn := hb.nonneg
  have hup := hb.upper
  have hle := hb.len_le
  refine ⟨s64_of_lt (by omega) ?_, by omega, s32_of_lt (by omega) (by omega)⟩
  -- the window ends inside the file, unless it is empty
  rcases Nat.eq_zero_or_pos rb.len with h0 | hpos
  · omega
  · have := hb.end_le hpos
    have := F.length_lt
    omega

/-- One turn of the loop that fills the buffer. -/
theorem refillTurn_holds (hserves : Serves S F.bytes hdfsPread) {o : ℤ} {size : ℕ} (b : Readbuf × List Access) (s : σ)
    (h : Refilling S F.bytes o size b s) :
    Ends (refillTurn hdfsPread o b) s fun r s' =>
      Sum.elim (fun b' => Refilling S F.bytes o size b' s') (fun c => Refilled S F.bytes o size c s') r := by
  obtain ⟨rb, acc⟩ := b
  obtain ⟨hposeq, hpos0, hwanteq⟩ := h.request
  obtain ⟨hb, ho, hsize, hS⟩ := h
  dsimp only at hb ho hsize
  have hnn := hb.nonneg
  refine refillTurn_cases hdfsPread o rb acc s
    (fun hfull => ⟨⟨hb, ho, hsize, hS⟩, fun _ => Or.inl (le_antisymm hb.len_le hfull)⟩) ?_
  intro hlt pos want a s' hpos hwant ha
  rw [hposeq] at hpos
  rw [hwanteq] at hwant
  obtain ⟨hS', hok⟩ := hserves pos want s hS
  rw [ha] at hS' hok
  replace hok := hok (by omega)
  refine ⟨fun _ _ => ⟨hb, ho, hsize, hS'⟩, fun _ _ => ⟨⟨hb, ho, hsize, hS'⟩, by simp⟩,
    fun he hn => ⟨⟨hb, ho, hsize, hS'⟩, fun _ => ?_⟩, fun hn => ?_⟩
  · cases a with
    | failed e => simp [PreadAnswer.n] at hn
    | got d e _ =>
      have hd : d = [] := by simpa [PreadAnswer.n] using hn
      rcases hok.2.2 hd he with h | h
      · exact Or.inr (show (F.bytes.length : ℤ) ≤ o + rb.len by omega)
      · omega
  · cases a with
    | failed e => simp [PreadAnswer.n] at hn
    | got d e _ =>
      have hl := hok.1
      refine ⟨hb.store hlt (by simp only [PreadAnswer.data]; omega) ?_, ho, hsize, hS'⟩
      have he : rb.offset.toNat + rb.len = pos.toNat := by omega
      rw [he]
      exact hok.2.1

/-- The loop that fills the buffer keeps it a window of the file. -/
theorem refill_holds (hserves : Serves S F.bytes hdfsPread) {o : ℤ} {size : ℕ} (b : Readbuf × List Access) (s : σ)
    (h : Refilling S F.bytes o size b s) :
    Ends (.loop (refillTurn hdfsPread o) b) s (Refilled S F.bytes o size) :=
  Ends.loop (Refilling S F.bytes o size) (refillTurn_holds hserves) b s h

/-- What the buffer serves of a request that is not a full hit is the start of it, and the rest of the request
starts where the buffer ends. -/
theorem serve_holds {rb : Readbuf} (hb : BufferHolds F.bytes rb) {o : ℤ} {blen : ℕ} (ho : 0 ≤ o) (ho' : o < 2 ^ 63)
    (hsize : blen ≤ rb.size) (hmiss : ¬ rb.FullHit o blen) :
    ∃ n : ℕ, (rb.serve o blen).1.nbytes = n ∧ n ≤ blen ∧ (rb.serve o blen).1.blen = blen - n ∧
      (rb.serve o blen).1.offset = o + n ∧ o + n < 2 ^ 63 ∧ (n = 0 ∨ o + n ≤ F.bytes.length) ∧
      (rb.serve o blen).1.data = slice F.bytes o.toNat n ∧ (rb.serve o blen).2.size = rb.size := by
  have hcap := rb.size_le
  have hnn := hb.nonneg
  have hup := hb.upper
  have hle := hb.len_le
  unfold serve
  by_cases h : rb.PartialHit o
  · obtain ⟨hlo, hlt⟩ := h
    have hlen : 0 < rb.len := by
      by_contra h0
      unfold s64 at hlt
      omega
    have hend := hb.end_le hlen
    have hF := F.length_lt
    have hsum : o < rb.offset + rb.len := by
      unfold s64 at hlt
      omega
    -- the bytes served are those from the request's offset to the end of the buffer
    obtain ⟨i, hi⟩ : ∃ i : ℕ, (i : ℤ) = o - rb.offset := ⟨(o - rb.offset).toNat, by omega⟩
    obtain ⟨n, hn⟩ : ∃ n : ℕ, (n : ℤ) = rb.len - (o - rb.offset) := ⟨(rb.len - (o - rb.offset)).toNat, by omega⟩
    have hnblen : n ≤ blen := by
      by_contra hgt
      refine hmiss ⟨hlo, ?_⟩
      rw [u64_of_lt (by omega) (by omega), u64_of_lt (by omega) (by omega)]
      omega
    have e1 : s64 (o - rb.offset) = i := by rw [hi, s64_of_lt (by omega) (by omega)]
    have e2 : s64 (rb.len - (i : ℤ)) = n := by rw [s64_of_lt (by omega) (by omega)]; omega
    have e3 : (u64 (n : ℤ)).toNat = n := by rw [u64_of_lt (by omega) (by omega)]; omega
    have e4 : s64 (o + n) = o + n := s64_of_lt (by omega) (by omega)
    have e5 : (u64 (blen - (n : ℤ))).toNat = blen - n := by rw [u64_of_lt (by omega) (by omega)]; omega
    simp only [if_pos (show rb.PartialHit o from ⟨hlo, hlt⟩), e1, e2, e3, e4, e5]
    refine ⟨n, rfl, hnblen, rfl, rfl, by omega, Or.inr (by omega), ?_, trivial⟩
    rw [hb.copyOut_eq (by omega)]
    congr 1
    omega
  · simp only [if_neg h]
    exact ⟨0, rfl, by omega, rfl, by simp, by simpa using ho', Or.inl rfl, by simp, trivial⟩

/-- **One `Read`.** It keeps the buffer a window of the file, and returns what the file has. -/
theorem read_refines (hserves : Serves S F.bytes hdfsPread) (rb : Readbuf) {o : ℤ} {blen : ℕ} (s : σ) (hs : S s)
    (hb : BufferHolds F.bytes rb) (ho : 0 ≤ o) (ho' : o < 2 ^ 63) :
    Ends (rb.read hdfsPread o blen) s fun r s' =>
      S s' ∧ BufferHolds F.bytes r.2 ∧ r.2.size = rb.size ∧ ReadOk F.bytes rb.size o blen r.1 := by
  have hcap := rb.size_le
  have hnn := hb.nonneg
  have hup := hb.upper
  have hle := hb.len_le
  unfold read
  refine Ends.ite (fun hby => ?_) (fun hsize => Ends.ite (fun hhit => ?_) (fun hmiss => ?_))
  · -- bypass
    refine Ends.bind (Ends.step (Ends.pure ?_))
    obtain ⟨hs', hok⟩ := hserves o (s32 blen) s hs
    replace hok := hok ho
    refine ⟨hs', ⟨hb.nonneg, hb.upper, hb.window, hb.len_le⟩, rfl, ?_⟩
    revert hok
    generalize (hdfsPread o (s32 blen) s).1 = a
    intro hok hret
    dsimp only at hret ⊢
    refine ⟨fun h => absurd hby (by omega), fun _ => ?_⟩
    cases a with
    | failed e =>
      have := emsg_neg e
      simp [PreadAnswer.n, PreadAnswer.errno] at hret
      omega
    | got d e _ =>
      have hneg := emsg_neg e
      have hn : ¬ (d.length = 0 ∧ e ≠ 0) := by
        rintro ⟨h0, he⟩
        simp [PreadAnswer.n, PreadAnswer.errno, h0, he] at hret
        omega
      have hif : (if (PreadAnswer.got d e ‹_›).n = 0 ∧ (PreadAnswer.got d e ‹_›).errno ≠ 0 then (-1 : ℤ)
          else (PreadAnswer.got d e ‹_›).n) = d.length := by
        rw [if_neg (by simpa [PreadAnswer.n, PreadAnswer.errno] using hn)]
        rfl
      rw [hif, if_neg (by omega)]
      refine ⟨rfl, rfl, hok.1, List.prefix_iff_eq_take.1 hok.2.1, fun h0 => ?_⟩
      have hd : d.length = 0 := by omega
      exact hok.2.2 (List.length_eq_zero_iff.1 hd) (not_not.1 fun he => hn ⟨hd, he⟩)
  · -- full hit
    refine Ends.pure ⟨hs, ⟨hb.nonneg, hb.upper, hb.window, hb.len_le⟩, rfl, fun _ =>
      ⟨fun _ => ?_, fun h => absurd h hsize⟩⟩
    obtain ⟨hlo, hu⟩ := hhit
    rw [u64_of_lt (by omega) (by omega), u64_of_lt (by omega) (by omega)] at hu
    obtain ⟨i, hi⟩ : ∃ i : ℕ, (i : ℤ) = o - rb.offset := ⟨(o - rb.offset).toNat, by omega⟩
    have hin : blen = 0 ∨ o + blen ≤ F.bytes.length := by
      rcases Nat.eq_zero_or_pos rb.len with h0 | hpos
      · left; omega
      · right; have := hb.end_le hpos; omega
    dsimp only
    rw [s64_of_lt (by omega) (by omega), ← hi]
    refine ⟨by omega, ?_⟩
    rw [hb.copyOut_eq (by omega)]
    congr 1
    omega
  · -- partial hit or miss
    obtain ⟨n, hn, hnb, hblen, hoff, hlt, hend, hdata, hsz⟩ := serve_holds hb ho ho' (by omega) hmiss
    generalize rb.serve o blen = sv at hn hblen hoff hdata hsz
    obtain ⟨⟨nbytes, data, offset, blen', as⟩, rb₁⟩ := sv
    dsimp only at hn hblen hoff hdata hsz ⊢
    subst hn hblen hoff hdata
    refine Ends.bind ((refill_holds hserves (rb₁.place _, _) s
      ⟨bufferHolds_place (by omega) (by omega), rfl, rfl, hs⟩).mono ?_)
    rintro ⟨err, rb', acc⟩ s' ⟨⟨hb', hoff', hsz', hs'⟩, hfull⟩
    dsimp only at hb' hoff' hsz' hfull
    rw [place_size, hsz] at hsz'
    rw [place_offset] at hoff' hfull
    cases err with
    | some errno =>
      refine Ends.pure ⟨hs', hb', hsz', fun h => ?_⟩
      have := emsg_neg errno
      dsimp only at h
      omega
    | none =>
      refine Ends.pure ⟨hs', ⟨hb'.nonneg, hb'.upper, hb'.window, hb'.len_le⟩, hsz', fun _ =>
        ⟨fun _ => ?_, fun h => absurd h hsize⟩⟩
      dsimp only
      obtain ⟨k, hk⟩ : ∃ k, k = if rb'.len < blen - n then rb'.len else blen - n := ⟨_, rfl⟩
      rw [← hk]
      have hkle : k ≤ rb'.len ∧ k ≤ blen - n ∧ (k = rb'.len ∨ k = blen - n) := by
        rw [hk]
        split <;> omega
      -- the number of bytes is the request's, cut off at the end of the file
      have hcount : n + k = min blen (F.bytes.length - o.toNat) := by
        have hle' := hb'.len_le
        rcases Nat.eq_zero_or_pos rb'.len with h0 | hpos
        · rcases hfull rfl with h | h <;> omega
        · have := hb'.end_le hpos
          rcases hfull rfl with h | h <;> omega
      refine ⟨by omega, ?_⟩
      have hcopy : rb'.copyOut 0 k = slice F.bytes (o.toNat + n) k := by
        have h0 := hb'.copyOut_eq (i := 0) (n := k) (by omega)
        rw [hoff', Int.toNat_add ho (by omega), Int.toNat_natCast, Nat.add_zero] at h0
        exact h0
      rw [hcopy, slice_append, hcount, slice_min]

/-! ### Interruptions -/

/-- `ν` counts the interruptions still to come. -/
def Counted (ν : σ → ℕ) (hdfsPread : ℤ → ℤ → σ → PreadAnswer × σ) : Prop :=
  ∀ pos len s, ν (hdfsPread pos len s).2 ≤ ν s ∧
    ((hdfsPread pos len s).1.errno = EINTR ∨ (hdfsPread pos len s).1.errno = -EINTR → ν (hdfsPread pos len s).2 < ν s)

/-- In the states `S` there are no other failures. -/
def Calm (S : σ → Prop) (hdfsPread : ℤ → ℤ → σ → PreadAnswer × σ) : Prop :=
  ∀ pos len s, S s → 0 ≤ pos → 0 ≤ len →
    ((hdfsPread pos len s).1.errno = 0 ∧ 0 ≤ (hdfsPread pos len s).1.n) ∨ (hdfsPread pos len s).1 = .failed EINTR

theorem emsg_eq_neg_eintr {e : ℤ} (h : emsg e = -EINTR) : e = EINTR ∨ e = -EINTR := by
  unfold emsg EINTR at *
  split_ifs at h <;> omega

/-- The loop that fills the buffer ends: each turn stores bytes or uses up an interruption. -/
theorem refill_gives {ν : σ → ℕ} (hcount : Counted ν hdfsPread) (o : ℤ) (b : Readbuf × List Access) (s : σ) :
    Gives (.loop (refillTurn hdfsPread o) b) s fun r s' =>
      ν s' ≤ ν s ∧ (∀ e, r.1 = some e → emsg e = -EINTR → ν s' < ν s) := by
  refine Gives.loop (fun _ s' => ν s' ≤ ν s) (fun b s => ν s + (b.1.size - b.1.len)) ?_ b s le_rfl
  rintro ⟨rb, acc⟩ t hν
  have hturn : Ends (refillTurn hdfsPread o (rb, acc)) t fun r s' => Sum.elim
      (fun b' => ν s' ≤ ν s ∧ ν s' + (b'.1.size - b'.1.len) < ν t + (rb.size - rb.len))
      (fun c => ν s' ≤ ν s ∧ (∀ e, c.1 = some e → emsg e = -EINTR → ν s' < ν s)) r := by
    refine refillTurn_cases hdfsPread o rb acc t (fun _ => ⟨hν, by simp⟩) ?_
    intro hlt pos want a s' _ _ ha
    obtain ⟨hle, hdec⟩ := hcount pos want t
    rw [ha] at hle hdec
    dsimp only at hle hdec
    refine ⟨fun _ he => ?_, fun _ _ => ⟨hle.trans hν, fun e he hintr => ?_⟩, fun _ _ => ⟨hle.trans hν, by simp⟩,
      fun hn => ?_⟩
    · exact ⟨hle.trans hν, Nat.add_lt_add_right (hdec (Or.inl he)) _⟩
    · simp only [Option.some.injEq] at he
      subst he
      exact (hdec (emsg_eq_neg_eintr hintr)).trans_le hν
    · have hlen := PreadAnswer.n_eq_length hn.le
      refine ⟨hle.trans hν, ?_⟩
      simp only [store_size, store_len]
      omega
  refine ((refillTurn_gives hdfsPread o (rb, acc) t).and_ends hturn).mono ?_
  rintro (b' | c) s' ⟨-, h⟩
  · exact h
  · exact h

/-- **A `Read` returns**, and one that was interrupted has used up an interruption. -/
theorem read_gives {ν : σ → ℕ} (hcount : Counted ν hdfsPread) (rb : Readbuf) (o : ℤ) (blen : ℕ) (s : σ)
    (hpos : blen ≤ rb.size → ¬ rb.FullHit o blen → 0 ≤ (rb.serve o blen).1.nbytes) :
    Gives (rb.read hdfsPread o blen) s fun r s' => ν s' ≤ ν s ∧ (r.1.ret = -EINTR → ν s' < ν s) := by
  unfold read
  refine Gives.ite (fun hby => ?_) (fun hsize => Gives.ite (fun hhit => ?_) (fun hmiss => ?_))
  · refine Gives.bind (Gives.step (Gives.pure ?_))
    obtain ⟨hle, hdec⟩ := hcount o (s32 blen) s
    refine ⟨hle, fun hret => hdec (emsg_eq_neg_eintr ?_)⟩
    dsimp only [EINTR] at hret
    split_ifs at hret with h1 h2
    · exact hret
    · omega
    · exact hret
    · omega
  · exact Gives.pure ⟨le_rfl, fun h => absurd h (by dsimp only [EINTR]; omega)⟩
  · replace hpos := hpos (by omega) hmiss
    refine Gives.bind ((refill_gives hcount _ _ s).mono ?_)
    rintro ⟨err, rb', acc⟩ s' ⟨hle, hdec⟩
    cases err with
    | some errno => exact Gives.pure ⟨hle, fun h => hdec errno rfl h⟩
    | none => exact Gives.pure ⟨hle, fun h => absurd h (by dsimp only [EINTR]; omega)⟩

/-- Without other failures the loop that fills the buffer does not fail. -/
theorem refill_calm (hserves : Serves S F.bytes hdfsPread) (hcalm : Calm S hdfsPread) {o : ℤ} {size : ℕ}
    (b : Readbuf × List Access) (s : σ) (h : Refilling S F.bytes o size b s) :
    Ends (.loop (refillTurn hdfsPread o) b) s fun r _ => r.1 = none := by
  refine Ends.loop (Refilling S F.bytes o size) ?_ b s h
  rintro ⟨rb, acc⟩ t hr
  have hturn : Ends (refillTurn hdfsPread o (rb, acc)) t fun r _ => Sum.elim (fun _ => True) (fun c => c.1 = none) r := by
    obtain ⟨hposeq, hpos0, hwanteq⟩ := hr.request
    refine refillTurn_cases hdfsPread o rb acc t (fun _ => rfl) ?_
    intro hlt pos want a s' hpos hwant ha
    rw [hposeq] at hpos
    rw [hwanteq] at hwant
    have hcase := hcalm pos want t hr.2.2.2 (by omega) (by omega)
    rw [ha] at hcase
    dsimp only at hcase
    refine ⟨fun _ _ => trivial, fun hni herr => ?_, fun _ _ => rfl, fun _ => trivial⟩
    rcases hcase with ⟨he, hn⟩ | rfl
    · rcases herr with h | h
      · omega
      · exact absurd he h.1
    · exact absurd ⟨by decide, rfl⟩ hni
  refine ((refillTurn_holds hserves (rb, acc) t hr).and hturn).mono ?_
  rintro (b' | c) s' ⟨h₁, h₂⟩
  · exact h₁
  · exact h₂

/-- **Without other failures a `Read` does not fail**, unless it went around the buffer and was interrupted. -/
theorem read_calm (hserves : Serves S F.bytes hdfsPread) (hcalm : Calm S hdfsPread) (rb : Readbuf)
    {o : ℤ} {blen : ℕ} (s : σ) (hs : S s) (hb : BufferHolds F.bytes rb) (ho : 0 ≤ o) (ho' : o < 2 ^ 63)
    (hblen : blen < 2 ^ 31) :
    Ends (rb.read hdfsPread o blen) s fun r _ => 0 ≤ r.1.ret ∨ rb.size < blen ∧ r.1.ret = -EINTR := by
  unfold read
  refine Ends.ite (fun hby => ?_) (fun hsize => Ends.ite (fun hhit => ?_) (fun hmiss => ?_))
  · refine Ends.bind (Ends.step (Ends.pure ?_))
    rcases hcalm o (s32 blen) s hs ho (by rw [s32_of_lt] <;> omega) with ⟨he, hn⟩ | ha
    · left
      have hnbytes : ¬ ((hdfsPread o (s32 blen) s).1.n = 0 ∧ (hdfsPread o (s32 blen) s).1.errno ≠ 0) :=
        fun h => h.2 he
      dsimp only
      rw [if_neg hnbytes, if_neg (by omega)]
      exact hn
    · right
      rw [ha]
      exact ⟨hby, rfl⟩
  · exact Ends.pure (Or.inl (Int.natCast_nonneg _))
  · obtain ⟨n, hn, -, -, hoff, hlt, -, -, -⟩ := serve_holds hb ho ho' (by omega) hmiss
    generalize rb.serve o blen = sv at hn hoff
    obtain ⟨⟨nbytes, data, offset, blen', as⟩, rb₁⟩ := sv
    dsimp only at hn hoff ⊢
    subst hn hoff
    refine Ends.bind ((refill_calm hserves hcalm (rb₁.place _, _) s
      ⟨bufferHolds_place (by omega) (by omega), rfl, rfl, hs⟩).mono ?_)
    rintro ⟨err, rb', acc⟩ s' rfl
    refine Ends.pure (Or.inl ?_)
    dsimp only
    omega

/-! ### Runs -/

/-- **Reading through the buffer refines `pread`.**  After an `Open`, for every file, every sequence of `Read`
calls at offsets that are not negative and every behaviour of `hdfsPread` on that file: the buffer holds a
window of the file before and after every call, and every call that does not fail returns what the file has. -/
theorem reads_refine_pread (F : FileContent) (hserves : Serves S F.bytes hdfsPread) (rb rb' : Readbuf)
    (malloc : Option (ℤ → UInt8)) (cs : List ReadCall) (hcs : ∀ c ∈ cs, 0 ≤ c.offset.toInt) (fuel : ℕ) (s s' : σ)
    (hs : S s) (steps : List ReadStep)
    (hrun : (reads hdfsPread (rb.openReadbuf malloc) cs).run fuel s = some ((steps, rb'), s')) :
    BufferHolds F.bytes rb' ∧ ∀ st ∈ steps, BufferHolds F.bytes st.rb ∧
      ReadOk F.bytes st.rb.size st.call.offset.toInt st.call.blen.toNat st.out := by
  have h := ends_reads hdfsPread (I := fun rb s => BufferHolds F.bytes rb ∧ S s) (P := fun c => 0 ≤ c.offset.toInt)
    (R := fun st => BufferHolds F.bytes st.rb ∧
      ReadOk F.bytes st.rb.size st.call.offset.toInt st.call.blen.toNat st.out)
    (fun rb c s hI ho => (read_refines hserves rb s hI.2 hI.1 ho (Int64.toInt_lt c.offset)).mono
      fun r s' hr => ⟨⟨hr.2.1, hr.1⟩, hI.1, hr.2.2.2⟩)
    cs (rb.openReadbuf malloc) s ⟨bufferHolds_open rb malloc, hs⟩ hcs
  obtain ⟨⟨hb, -⟩, hsteps⟩ := h fuel _ _ hrun
  exact ⟨hb, hsteps⟩

end Read

/-- An `hdfsPread` on the file `F` that is interrupted on every other call and gives at most 3 bytes. -/
def preadShort (F : Bytes) (pos len : ℤ) (interrupted : Bool) : PreadAnswer × Bool :=
  (if interrupted then .got (slice F pos.toNat (min len.toNat 3)) 0 (by rw [length_slice]; omega) else .failed EINTR,
    !interrupted)

theorem serves_preadShort (F : Bytes) : Serves (fun _ => True) F (preadShort F) := by
  intro pos len interrupted _
  refine ⟨trivial, fun hpos => ?_⟩
  cases interrupted with
  | false => trivial
  | true =>
    refine ⟨?_, List.take_prefix _ _, fun hd _ => ?_⟩
    · rw [length_slice]
      omega
    · have h := congrArg List.length hd
      rw [length_slice, List.length_nil] at h
      omega

/-- A miss, a full hit, a hit at the end of the file and a read past it. -/
theorem reads_refine_pread_short :
    ((reads (preadShort (str "abcdefgh")) (openReadbuf {} (some fun _ => 0)) [⟨2, 3⟩, ⟨3, 4⟩, ⟨6, 5⟩, ⟨9, 1⟩]).run 9
      false).isSome ∧
    ∀ r ∈ (reads (preadShort (str "abcdefgh")) (openReadbuf {} (some fun _ => 0)) [⟨2, 3⟩, ⟨3, 4⟩, ⟨6, 5⟩, ⟨9, 1⟩]).run 9
        false,
      BufferHolds (str "abcdefgh") r.1.2 ∧ ∀ st ∈ r.1.1, BufferHolds (str "abcdefgh") st.rb ∧
        ReadOk (str "abcdefgh") st.rb.size st.call.offset.toInt st.call.blen.toNat st.out :=
  ⟨by decide, fun r hr => reads_refine_pread ⟨str "abcdefgh", by decide⟩ (serves_preadShort _) {} r.1.2
    (some fun _ => 0) [⟨2, 3⟩, ⟨3, 4⟩, ⟨6, 5⟩, ⟨9, 1⟩] (by decide) 9 false r.2 trivial r.1.1 hr⟩

end Readbuf

end XrdHdfs
