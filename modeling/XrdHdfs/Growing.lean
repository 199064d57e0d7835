import XrdHdfs.ReadRefines

/-!
# Reading a file that grows

`XrdHdfsFile::Read` while the file is being written: between two calls of `hdfsPread`, also between those of one `Read`,
others may append to the file.  The buffer may then hold less than there is, but what it holds stays right, so that what
a `Read` returns is what the file has at that place, now and later; and a `Read` through the buffer that returns less
than it was asked for came to the end of the file (`reads_grow`).

A `Read` is taken apart into what it does before its loop, the turns of the loop, and what it does after it (`run_read`).
-/

namespace XrdHdfs

open Lib

namespace Readbuf

/-! ### A `Read` in steps -/

section Steps

variable {σ : Type} (hdfsPread : ℤ → ℤ → σ → PreadAnswer × σ)

/-- `XrdHdfsFile::Read` up to its loop: it is over, or this is what the buffer served, and what the loop starts with. -/
def beginRead (rb : Readbuf) (offset : ℤ) (blen : ℕ) :
    Prog σ ((ReadOut × Readbuf) ⊕ (Served × Readbuf × List Access)) :=
  if rb.size < blen then do
    let a ← .step (hdfsPread offset (s32 blen))
    let nbytes := if a.n = 0 ∧ a.errno ≠ 0 then -1 else a.n
    let ret := if nbytes < 0 then emsg a.errno else nbytes
    pure (.inl (⟨ret, a.data, [.pread offset (s32 blen) a.n]⟩, { rb with bypassed := rb.bypassed + 1 }))
  else if rb.FullHit offset blen then
    let offset_in_readbuf := s64 (offset - rb.offset)
    pure (.inl (⟨blen, rb.copyOut offset_in_readbuf blen, [.copy offset_in_readbuf blen rb.len]⟩,
      { rb with hits := rb.hits + 1, bytesUsed := rb.bytesUsed + blen.toUInt64 }))
  else
    let sv := rb.serve offset blen
    pure (.inr (sv.1, sv.2.place sv.1.offset, sv.1.accesses ++ [.place sv.1.offset]))

/-- And from where the loop has been left. -/
def endRead (sv : Served) : Option ℤ × Readbuf × List Access → ReadOut × Readbuf
  | (some errno, rb, acc) => (⟨emsg errno, sv.data, acc⟩, rb)
  | (none, rb, acc) =>
    let bytes_to_copy := if rb.len < sv.blen then rb.len else sv.blen
    (⟨sv.nbytes + bytes_to_copy, sv.data ++ rb.copyOut 0 bytes_to_copy, acc ++ [.copy 0 bytes_to_copy rb.len]⟩,
      { rb with bytesLoaded := rb.bytesLoaded + (rb.len - bytes_to_copy).toUInt64 })

variable {hdfsPread}

/-- **A `Read` is its two ends and the loop.** -/
theorem run_read {rb : Readbuf} {offset : ℤ} {blen n : ℕ} {s s' : σ} {r : ReadOut × Readbuf} :
    (rb.read hdfsPread offset blen).run n s = some (r, s') ↔
      (rb.beginRead hdfsPread offset blen).run n s = some (.inl r, s') ∨
        ∃ sv b s₁ c, (rb.beginRead hdfsPread offset blen).run n s = some (.inr (sv, b), s₁) ∧
          (Prog.loop (refillTurn hdfsPread sv.offset) b).run n s₁ = some (c, s') ∧ endRead sv c = r := by
  unfold read beginRead
  by_cases hby : rb.size < blen
  · rcases hq : hdfsPread offset (s32 blen) s with ⟨a, s₀⟩
    simp only [if_pos hby, Prog.run_bind_some, Prog.run_step, Prog.run_pure, Option.some.injEq, Prod.mk.injEq, hq]
    constructor
    · rintro ⟨_, _, ⟨rfl, rfl⟩, rfl, rfl⟩
      exact Or.inl ⟨_, _, ⟨rfl, rfl⟩, rfl, rfl⟩
    · rintro (⟨_, _, ⟨rfl, rfl⟩, h, rfl⟩ | ⟨sv, b, s₁, c, ⟨_, s₂, -, h, -⟩, -⟩)
      · exact ⟨_, _, ⟨rfl, rfl⟩, Sum.inl_injective h, rfl⟩
      · cases h
  simp only [if_neg hby]
  by_cases hhit : rb.FullHit offset blen
  · simp only [if_pos hhit, Prog.run_pure, Option.some.injEq, Prod.mk.injEq]
    constructor
    · rintro ⟨rfl, rfl⟩
      exact Or.inl ⟨rfl, rfl⟩
    · rintro (⟨h, rfl⟩ | ⟨sv, b, s₁, c, ⟨h, -⟩, -⟩)
      · exact ⟨Sum.inl_injective h, rfl⟩
      · cases h
  simp only [if_neg hhit, Prog.run_pure, Option.some.injEq, Prod.mk.injEq]
  constructor
  · intro h
    obtain ⟨⟨err, rb', acc⟩, s₁, hloop, h⟩ := Prog.run_bind_some.1 h
    refine Or.inr ⟨_, _, s, (err, rb', acc), ⟨rfl, rfl⟩, ?_⟩
    cases err with
    | some errno =>
      cases h
      exact ⟨hloop, rfl⟩
    | none =>
      cases h
      exact ⟨hloop, rfl⟩
  · rintro (⟨h, -⟩ | ⟨sv, b, s₁, ⟨err, rb', acc⟩, ⟨h, rfl⟩, hloop, rfl⟩)
    · cases h
    · obtain ⟨rfl, rfl⟩ := Prod.mk.inj (Sum.inr_injective h)
      refine Prog.run_bind_some.2 ⟨_, s', hloop, ?_⟩
      cases err with
      | some errno => rfl
      | none => rfl

end Steps

section Growing

variable {σ : Type} {hdfsPread : ℤ → ℤ → σ → PreadAnswer × σ} {S : σ → Prop} {content : σ → FileContent}
  {F : FileContent} {F' : Bytes}

/-! ### A library whose file grows -/

/-- In the states `S`, what the file holds gets no shorter, and every answer of `hdfsPread` is one for what it then
holds. -/
def ServesGrowing (S : σ → Prop) (content : σ → FileContent) (hdfsPread : ℤ → ℤ → σ → PreadAnswer × σ) : Prop :=
  ∀ pos len s, S s → S (hdfsPread pos len s).2 ∧ (content s).bytes <+: (content (hdfsPread pos len s).2).bytes ∧
    (0 ≤ pos → PreadOk (content (hdfsPread pos len s).2).bytes pos len (hdfsPread pos len s).1)

theorem Serves.growing (h : Serves S F.bytes hdfsPread) : ServesGrowing S (fun _ => F) hdfsPread := by
  intro pos len s hs
  obtain ⟨hs', hok⟩ := h pos len s hs
  exact ⟨hs', List.prefix_rfl, hok⟩

theorem BufferHolds.grow {F : Bytes} {rb : Readbuf} (h : BufferHolds F rb) (hF : F <+: F') : BufferHolds F' rb :=
  ⟨h.nonneg, h.upper, h.window.of_longer hF, h.len_le⟩

/-- What the buffer served of a request at `offset`: its first bytes. -/
def Serving (F : Bytes) (offset blen : ℕ) (sv : Served) : Prop :=
  ∃ k : ℕ, sv.nbytes = k ∧ k ≤ blen ∧ sv.blen = blen - k ∧ sv.offset = offset + k ∧
    (k = 0 ∨ offset + k ≤ F.length) ∧ sv.data = slice F offset k

theorem Serving.grow {F : Bytes} {offset blen : ℕ} {sv : Served} (h : Serving F offset blen sv) (hF : F <+: F') :
    Serving F' offset blen sv := by
  obtain ⟨k, hk, hle, hblen, hoff, hin, hdata⟩ := h
  refine ⟨k, hk, hle, hblen, hoff, hin.imp_right fun h => h.trans hF.length_le, ?_⟩
  rcases hin with rfl | hin
  · rw [hdata, slice_zero, slice_zero]
  · rw [hdata, slice_grown hF hin]

/-! ### One `Read` -/

/-- What a `Read` returns when its loop has been left. -/
theorem readOk_endRead {offset blen size : ℕ} {sv : Served} (hsv : Serving F.bytes offset blen sv) (hsize : blen ≤ size)
    {c : Option ℤ × Readbuf × List Access} {s : σ} (hc : Refilled S F.bytes sv.offset size c s) :
    ReadOk F.bytes size offset blen (endRead sv c).1 := by
  obtain ⟨err, rb, acc⟩ := c
  obtain ⟨k, hk, hkle, hblen, hsvoff, hin, hdata⟩ := hsv
  obtain ⟨⟨hb, ho, hs, -⟩, hfull⟩ := hc
  dsimp only at hb ho hs hfull
  intro hret
  cases err with
  | some errno =>
    have hneg := emsg_neg errno
    simp only [endRead] at hret
    omega
  | none =>
    simp only [endRead] at hret ⊢
    obtain ⟨l, hl⟩ : ∃ l, l = if rb.len < sv.blen then rb.len else sv.blen := ⟨_, rfl⟩
    have hcases : l ≤ rb.len ∧ l ≤ sv.blen ∧ (l = rb.len ∨ l = sv.blen) := by
      rw [hl]
      split_ifs <;> omega
    have hcopy : rb.copyOut 0 l = slice F.bytes (offset + k) l := by
      have h0 := hb.copyOut_eq (i := 0) (n := l) (by omega)
      rwa [ho, hsvoff, Nat.add_zero, show ((offset : ℤ) + k).toNat = offset + k by omega] at h0
    -- the number of bytes is the request's, cut off at the end of the file
    have hcount : k + l = min blen (F.bytes.length - offset) := by
      have hle := hb.len_le
      rcases Nat.eq_zero_or_pos rb.len with h0 | hpos
      · rcases hfull rfl with h | h <;> omega
      · have hend := hb.end_le hpos
        rcases hfull rfl with h | h <;> omega
    rw [← hl, hcopy, hdata, slice_append, hk, Int.toNat_natCast]
    refine ⟨fun _ => ⟨by omega, ?_⟩, fun h => absurd h (by omega)⟩
    rw [hcount, slice_min]

theorem endRead_holds (sv : Served) {F : Bytes} {c : Option ℤ × Readbuf × List Access} (hb : BufferHolds F c.2.1) :
    BufferHolds F (endRead sv c).2 := by
  obtain ⟨err, rb, acc⟩ := c
  cases err with
  | some errno => exact hb
  | none => exact ⟨hb.nonneg, hb.upper, hb.window, hb.len_le⟩

/-- An `hdfsPread` that answers one request, and fails on all others. -/
def preadOnce (pos len : ℤ) (a : PreadAnswer) (pos' len' : ℤ) (u : Unit) : PreadAnswer × Unit :=
  (if pos' = pos ∧ len' = len then a else .failed 0, u)

theorem serves_preadOnce {F : Bytes} {pos len : ℤ} {a : PreadAnswer} (h : PreadOk F pos len a) :
    Serves (fun _ => True) F (preadOnce pos len a) := by
  intro pos' len' u _
  refine ⟨trivial, fun _ => ?_⟩
  unfold preadOnce
  split_ifs with heq
  · obtain ⟨rfl, rfl⟩ := heq
    exact h
  · trivial

/-- A `Read` that is over before its loop has returned what the file has when it is over; else the loop is to fill the
buffer. -/
theorem beginRead_grows (hserves : ServesGrowing S content hdfsPread) (rb : Readbuf) {o : ℤ} {blen : ℕ} (s : σ) (hs : S s)
    (hb : BufferHolds (content s).bytes rb) (ho : 0 ≤ o) (ho' : o < 2 ^ 63) :
    Gives (rb.beginRead hdfsPread o blen) s fun r s' => S s' ∧ (content s).bytes <+: (content s').bytes ∧
      ((∃ out rb', r = .inl (out, rb') ∧ BufferHolds (content s').bytes rb' ∧ rb'.size = rb.size ∧
          ReadOk (content s').bytes rb.size o blen out) ∨
        r = .inr ((rb.serve o blen).1, (rb.serve o blen).2.place (rb.serve o blen).1.offset,
          (rb.serve o blen).1.accesses ++ [.place (rb.serve o blen).1.offset]) ∧ s' = s ∧ blen ≤ rb.size ∧
          ¬ rb.FullHit o blen) := by
  -- without its loop a `Read` makes one request at most, so that the file may as well stay as it is in the end
  have hover : ∀ {s' : σ} {a : PreadAnswer} {r : ReadOut × Readbuf}, PreadOk (content s').bytes o (s32 blen) a →
      (content s).bytes <+: (content s').bytes → (rb.beginRead (preadOnce o (s32 blen) a) o blen).run 0 () = some (.inl r, ()) →
      BufferHolds (content s').bytes r.2 ∧ r.2.size = rb.size ∧ ReadOk (content s').bytes rb.size o blen r.1 :=
    fun {s' a r} hok hpre hrun =>
      (read_refines (F := content s') (serves_preadOnce hok) rb () trivial (hb.grow hpre) ho ho' 0 r ()
      (run_read.2 (Or.inl hrun))).2
  unfold beginRead at hover ⊢
  refine Gives.ite (fun hby => Gives.bind (Gives.step (Gives.pure ?_))) fun hsize =>
    Gives.ite (fun hhit => Gives.pure ?_) fun hmiss => Gives.pure ⟨hs, List.prefix_rfl, Or.inr ⟨rfl, rfl, by omega, hmiss⟩⟩
  · obtain ⟨hs', hpre, hok⟩ := hserves o (s32 blen) s hs
    simp only [if_pos hby] at hover
    refine ⟨hs', hpre, Or.inl ⟨_, _, rfl, ?_⟩⟩
    refine @hover (hdfsPread o (s32 blen) s).2 (hdfsPread o (s32 blen) s).1 ⟨_, _⟩ (hok ho) hpre ?_
    simp only [Prog.run_bind_some, Prog.run_step, preadOnce, and_self, if_true]
    exact ⟨_, _, rfl, rfl⟩
  · simp only [if_neg hsize, if_pos hhit] at hover
    exact ⟨hs, List.prefix_rfl, Or.inl ⟨_, _, rfl, @hover s (.failed 0) _ trivial List.prefix_rfl rfl⟩⟩

/-- One turn of the loop that fills the buffer. -/
theorem refillTurn_grows (hserves : ServesGrowing S content hdfsPread) {o : ℤ} {size : ℕ} (b : Readbuf × List Access) (s : σ)
    (h : Refilling S (content s).bytes o size b s) :
    Ends (refillTurn hdfsPread o b) s fun r s' => (content s).bytes <+: (content s').bytes ∧
      Sum.elim (fun b' => Refilling S (content s').bytes o size b' s')
        (fun c => Refilled S (content s').bytes o size c s') r := by
  obtain ⟨rb, acc⟩ := b
  obtain ⟨hposeq, hpos0, hwanteq⟩ := h.request
  obtain ⟨hb, ho, hsize, hS⟩ := h
  dsimp only at hb ho hsize
  have hnn := hb.nonneg
  refine refillTurn_cases hdfsPread o rb acc s
    (fun hfull => ⟨List.prefix_rfl, ⟨hb, ho, hsize, hS⟩, fun _ => Or.inl (le_antisymm hb.len_le hfull)⟩) ?_
  intro hlt pos want a s' hpos hwant ha
  rw [hposeq] at hpos
  rw [hwanteq] at hwant
  obtain ⟨hS', hpre, hok⟩ := hserves pos want s hS
  rw [ha] at hS' hpre hok
  replace hok := hok (by omega)
  dsimp only at hS' hpre hok
  replace hb := hb.grow hpre
  refine ⟨fun _ _ => ⟨hpre, hb, ho, hsize, hS'⟩, fun _ _ => ⟨hpre, ⟨hb, ho, hsize, hS'⟩, by simp⟩,
    fun he hn => ⟨hpre, ⟨hb, ho, hsize, hS'⟩, fun _ => ?_⟩, fun hn => ⟨hpre, ?_⟩⟩
  · cases a with
    | failed e => simp [PreadAnswer.n] at hn
    | got d e _ =>
      have hd : d = [] := by simpa [PreadAnswer.n] using hn
      rcases hok.2.2 hd he with h | h
      · exact Or.inr (show ((content s').bytes.length : ℤ) ≤ o + rb.len by omega)
      · omega
  · cases a with
    | failed e => simp [PreadAnswer.n] at hn
    | got d e _ =>
      have hl := hok.1
      refine ⟨hb.store hlt (by simp only [PreadAnswer.data]; omega) ?_, ho, hsize, hS'⟩
      have he : rb.offset.toNat + rb.len = pos.toNat := by omega
      rw [he]
      exact hok.2.1

/-- The loop that fills the buffer. -/
theorem refill_grows (hserves : ServesGrowing S content hdfsPread) {o : ℤ} {size : ℕ} (b : Readbuf × List Access) (s : σ)
    (h : Refilling S (content s).bytes o size b s) :
    Ends (.loop (refillTurn hdfsPread o) b) s fun c s' => (content s).bytes <+: (content s').bytes ∧
      Refilled S (content s').bytes o size c s' := by
  refine Ends.loop (fun b' s' => (content s).bytes <+: (content s').bytes ∧ Refilling S (content s').bytes o size b' s') ?_ b s
    ⟨List.prefix_rfl, h⟩
  rintro b' s₁ ⟨hpre, hr⟩
  refine (refillTurn_grows hserves b' s₁ hr).mono ?_
  rintro (b'' | c) s₂ ⟨hpre', hturn⟩
  · exact ⟨hpre.trans hpre', hturn⟩
  · exact ⟨hpre.trans hpre', hturn⟩

/-- What the loop starts with, once the buffer has served what it has. -/
theorem serving_serve {rb : Readbuf} (hb : BufferHolds F.bytes rb) {o blen : ℕ} (ho' : (o : ℤ) < 2 ^ 63)
    (hsize : blen ≤ rb.size)
    (hmiss : ¬ rb.FullHit o blen) :
    Serving F.bytes o blen (rb.serve o blen).1 ∧ (rb.serve o blen).2.size = rb.size ∧
      BufferHolds F.bytes ((rb.serve o blen).2.place (rb.serve o blen).1.offset) := by
  obtain ⟨k, hk, hkle, hblen, hoff, hlt, hin, hdata, hsz⟩ := serve_holds hb (Int.natCast_nonneg o) ho' hsize hmiss
  exact ⟨⟨k, hk, hkle, hblen, hoff, by omega, hdata⟩, hsz, bufferHolds_place (by omega) (by omega)⟩

/-- **One `Read`** of a file that grows returns what the file has when it returns. -/
theorem read_grows (hserves : ServesGrowing S content hdfsPread) (rb : Readbuf) {o : ℤ} {blen : ℕ} (s : σ) (hs : S s)
    (hb : BufferHolds (content s).bytes rb) (ho : 0 ≤ o) (ho' : o < 2 ^ 63) :
    Ends (rb.read hdfsPread o blen) s fun r s' => S s' ∧ (content s).bytes <+: (content s').bytes ∧
      BufferHolds (content s').bytes r.2 ∧ ReadOk (content s').bytes rb.size o blen r.1 := by
  obtain ⟨o, rfl⟩ := Int.eq_ofNat_of_zero_le ho
  have hbegin := (beginRead_grows hserves rb s hs hb ho ho' : Gives (rb.beginRead hdfsPread o blen) s _).ends
  intro n r s' hrun
  rcases run_read.1 hrun with hover | ⟨sv, b, s₁, c, hserved, hloop, rfl⟩
  · obtain ⟨hs', hpre, ⟨out, rb', hr, hb', -, hok⟩ | ⟨hr, -⟩⟩ := hbegin n _ s' hover
    · cases hr
      exact ⟨hs', hpre, hb', hok⟩
    · cases hr
  · obtain ⟨-, -, ⟨out, rb', hr, -⟩ | ⟨hr, rfl, hsize, hmiss⟩⟩ := hbegin n _ s₁ hserved
    · cases hr
    obtain ⟨rfl, rfl⟩ := Prod.mk.inj (Sum.inr_injective hr)
    obtain ⟨hsv, hsz, hplace⟩ := serving_serve hb ho' hsize hmiss
    generalize rb.serve o blen = sv at hsv hsz hplace hloop
    obtain ⟨sv, rb₁⟩ := sv
    dsimp only at hsv hsz hplace hloop
    have hstart : Refilling S (content s₁).bytes sv.offset rb.size
        (rb₁.place sv.offset, sv.accesses ++ [.place sv.offset]) s₁ :=
      ⟨hplace, rfl, hsz, hs⟩
    obtain ⟨hpre, hc⟩ := refill_grows hserves _ s₁ hstart n c s' hloop
    exact ⟨hc.1.2.2.2, hpre, endRead_holds _ hc.1.1, readOk_endRead (hsv.grow hpre) hsize hc⟩

/-! ### Runs -/

/-- **The `Read`s of a run are about versions of the file, in their order.** -/
inductive ReadInOrder : Bytes → List ReadStep → Bytes → Prop
  | nil {F F' : Bytes} (h : F <+: F') : ReadInOrder F [] F'
  | cons {F G F' : Bytes} {st : ReadStep} {steps : List ReadStep} (h : F <+: G) (hb : BufferHolds F st.rb)
      (hok : ReadOk G st.rb.size st.call.offset.toInt st.call.blen.toNat st.out) (hrest : ReadInOrder G steps F') :
      ReadInOrder F (st :: steps) F'

/-- **Reading a file that grows.**  After an `Open`, for every sequence of `Read` calls at offsets that are not negative,
while others append to the file between any two calls of `hdfsPread`: every call that does not fail returns what the file
has at one moment, and these moments are in the order of the calls. -/
theorem reads_grow (hserves : ServesGrowing S content hdfsPread) (rb rb' : Readbuf) (malloc : Option (ℤ → UInt8))
    (cs : List ReadCall) (hcs : ∀ c ∈ cs, 0 ≤ c.offset.toInt) (fuel : ℕ) (s s' : σ) (hs : S s) (steps : List ReadStep)
    (hrun : (reads hdfsPread (rb.openReadbuf malloc) cs).run fuel s = some ((steps, rb'), s')) :
    ReadInOrder (content s).bytes steps (content s').bytes ∧ BufferHolds (content s').bytes rb' := by
  have hb := bufferHolds_open (F := content s) rb malloc
  generalize rb.openReadbuf malloc = rb₀ at hrun hb
  induction cs generalizing rb₀ s steps with
  | nil =>
    cases hrun
    exact ⟨.nil List.prefix_rfl, hb⟩
  | cons c cs ih =>
    obtain ⟨⟨out, rb₁⟩, s₁, hread, hrest⟩ := Prog.run_bind_some.1 hrun
    obtain ⟨⟨steps', rb₂⟩, s₂, hrest, h⟩ := Prog.run_bind_some.1 hrest
    cases h
    have hc := List.forall_mem_cons.1 hcs
    have hlt : c.offset.toInt < 2 ^ 63 := Int64.toInt_lt c.offset
    obtain ⟨hs₁, hpre, hb₁, hok⟩ := read_grows hserves rb₀ s hs hb hc.1 hlt fuel (out, rb₁) s₁ hread
    obtain ⟨horder, hb'⟩ := ih hc.2 s₁ hs₁ steps' rb₁ hrest hb₁
    exact ⟨.cons hpre hb hok horder, hb'⟩

end Growing

/-- What a file that ends as `F` holds when there have been that many calls: three more bytes each time. -/
def threeMore (F : FileContent) (calls : ℕ) : FileContent :=
  ⟨F.bytes.take (3 * calls), (List.length_take_le' _ _).trans_lt F.length_lt⟩

/-- An `hdfsPread` on it that gives at most 3 bytes. -/
def preadGrowing (F : FileContent) (pos len : ℤ) (calls : ℕ) : PreadAnswer × ℕ :=
  (.got (slice (threeMore F (calls + 1)).bytes pos.toNat (min len.toNat 3)) 0 (by rw [length_slice]; omega), calls + 1)

theorem servesGrowing_preadGrowing (F : FileContent) : ServesGrowing (fun _ => True) (threeMore F) (preadGrowing F) := by
  intro pos len calls _
  refine ⟨trivial, List.take_prefix_take_left (by dsimp only [preadGrowing]; omega), fun hpos =>
    ⟨?_, List.take_prefix _ _, fun hd _ => ?_⟩⟩
  · rw [length_slice]
    omega
  · have h := congrArg List.length hd
    rw [length_slice, List.length_nil] at h
    dsimp only [preadGrowing]
    omega

/-- A miss behind the end of what there is, a miss that is served, a hit, and the same place again when the file has grown. -/
theorem reads_grow_three :
    ((reads (preadGrowing ⟨str "abcdefghijkl", by decide⟩) (openReadbuf {} (some fun _ => 0))
      [⟨4, 9⟩, ⟨0, 9⟩, ⟨2, 2⟩, ⟨2, 9⟩]).run 9 0).isSome ∧
    ∀ r ∈ (reads (preadGrowing ⟨str "abcdefghijkl", by decide⟩) (openReadbuf {} (some fun _ => 0))
        [⟨4, 9⟩, ⟨0, 9⟩, ⟨2, 2⟩, ⟨2, 9⟩]).run 9 0,
      ReadInOrder [] r.1.1 ((str "abcdefghijkl").take (3 * r.2)) ∧
        BufferHolds ((str "abcdefghijkl").take (3 * r.2)) r.1.2 :=
  ⟨by decide, fun r hr => reads_grow (servesGrowing_preadGrowing ⟨str "abcdefghijkl", by decide⟩) {} r.1.2 (some fun _ => 0)
    [⟨4, 9⟩, ⟨0, 9⟩, ⟨2, 2⟩, ⟨2, 9⟩] (by decide) 9 0 r.2 trivial r.1.1 hr⟩

end Readbuf

end XrdHdfs
