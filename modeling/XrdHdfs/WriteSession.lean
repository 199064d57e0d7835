import XrdHdfs.Absorb
import XrdHdfs.FileSpec
import XrdHdfs.Reference

/-!
# A file written in one session

A session is an `Open` for writing and a sequence of `Write` calls, in or out of order, with any outcome of every
`hdfsWrite`.  The checksum should cover exactly what HDFS accepted (`WriteOk`, after every call).  `Write` feeds the
checksum state with its whole buffer whatever `hdfsWrite` returns, so it does as long as every call that is in order
is accepted in full, and not any more after one that is not (`writes_cover_iff`).

`InSession` is the invariant that holds in any case: the state has absorbed at least as many bytes as HDFS accepted,
and, while there are no more of them, the same ones.
-/

namespace XrdHdfs

open Lib World ChecksumState

variable {env : Env}

/-- What HDFS has of the file that is open. -/
def File.content (f : File env) (w : World) : Bytes :=
  match f.fh with
  | some h => (w.fs.data h.ino).bytes
  | none => []

/-- The checksum state was constructed by `Open` and fed `D`, in some pieces. -/
def FedWith {Z : Digests} (D : Bytes) (st : ChecksumState Z) : Prop :=
  ∃ junk, ∃ bs : List Bytes, bs.flatten = D ∧ st = bs.foldl ChecksumState.update (new Z junk ALL)

theorem FedWith.fed {Z : Digests} {D : Bytes} {st : ChecksumState Z} (h : FedWith D st) : Fed D st := by
  obtain ⟨junk, bs, rfl, rfl⟩ := h
  simpa using (fed_new junk ALL).updates bs

theorem FedWith.update {Z : Digests} {D : Bytes} {st : ChecksumState Z} (h : FedWith D st) (b : Bytes) :
    FedWith (D ++ b) (st.update b) := by
  obtain ⟨junk, bs, rfl, rfl⟩ := h
  exact ⟨junk, bs ++ [b], by simp, by simp⟩

theorem FedWith.update_nil {Z : Digests} {D : Bytes} {st : ChecksumState Z} (h : FedWith D st) : st.update [] = st := by
  have hfed := h.fed
  obtain ⟨junk, bs, rfl, rfl⟩ := h
  exact hfed.update_nil ((streamed_new junk ALL).updates bs)

/-! ### The session -/

/-- One `Write` of a session: the object and the world before it, its arguments, its result, and what is there
after it. -/
structure WriteStep (env : Env) where
  f : File env
  w : World
  buff : Bytes
  offset : ℤ
  ret : ℤ
  f' : File env
  w' : World

/-- A sequence of `Write` calls on one object. -/
def writes : File env → List (Bytes × ℤ) → Prog World (List (WriteStep env) × File env)
  | f, [] => pure ([], f)
  | f, (buff, offset) :: calls => do
    let w ← .step fun w => (w, w)
    let (ret, f') ← f.write buff offset
    let w' ← .step fun w => (w, w)
    let (steps, f'') ← writes f' calls
    pure (⟨f, w, buff, offset, ret, f', w'⟩ :: steps, f'')

/-- `Open`, and `Write` calls on what was opened. -/
def session (f : File env) (path : Bytes) (openMode : ℕ) (calls : List (Bytes × ℤ)) :
    Prog World (ℤ × List (WriteStep env)) := do
  let (rc, f) ← f.openFile path openMode
  if rc ≠ 0 then pure (rc, [])
  else do
    let (steps, _) ← writes f calls
    pure (0, steps)

namespace WriteStep

variable (s : WriteStep env)

/-- The checksum covers what HDFS accepted: after the call, the state was fed exactly the content of the file, whose
length is `m_nextoff`; what was accepted is the start of the buffer, at the offset it was requested at; and a call
that failed changed neither `m_nextoff` nor `m_state`. -/
structure WriteOk : Prop where
  fed : ∃ st, s.f'.m_state = some st ∧ FedWith (s.f'.content s.w') st
  length : ((s.f'.content s.w').length : ℤ) = s.f'.m_nextoff
  accepted : s.f'.content s.w' = s.f.content s.w ++ s.buff.take s.ret.toNat
  landed : s.buff.take s.ret.toNat ≠ [] → s.offset = (s.f.content s.w).length
  kept : s.ret < 0 → s.f'.m_nextoff = s.f.m_nextoff ∧ s.f'.m_state = s.f.m_state

/-- A call that is in order has an empty buffer, or `hdfsWrite` accepts all of it. -/
def InFull : Prop := s.offset = s.f.m_nextoff → s.buff = [] ∨ (hdfsWrite s.f.fh s.buff s.w).1 = s.buff.length

end WriteStep

/-! ### One write -/

/-- **The invariant of a session** that started with `m_nextoff = k`. -/
structure InSession (k : ℤ) (i : ℕ) (f : File env) (w : World) : Prop where
  fh : f.fh = some ⟨i, true⟩
  nextoff : f.m_nextoff = k + (f.content w).length
  fed : ∃ D st, f.m_state = some st ∧ FedWith D st ∧ (f.content w).length ≤ D.length ∧
    ((f.content w).length = D.length → f.content w = D)

/-- The state has absorbed no more bytes than HDFS accepted. -/
def Exact (f : File env) (w : World) : Prop := ∀ st ∈ f.m_state, st.m_offset = (f.content w).length

theorem InSession.exact {k : ℤ} {i : ℕ} {f : File env} {w : World} (h : InSession k i f w) (he : Exact f w) :
    ∃ st, f.m_state = some st ∧ FedWith (f.content w) st := by
  obtain ⟨D, st, hst, hfed, -, heq⟩ := h.fed
  have hoff := he st hst
  rw [hfed.fed.offset] at hoff
  exact ⟨st, hst, heq hoff.symm ▸ hfed⟩

section Advance

variable {k : ℤ} {i : ℕ} {f f' : File env} {w w' : World} {buff : Bytes} {offset ret : ℤ} {m : ℕ}

/-- **The step of the invariant.** The state is fed the whole buffer while HDFS takes the first `m` bytes of it. -/
theorem InSession.advance (h : InSession k i f w) (hm : m ≤ buff.length) (hfh : f'.fh = f.fh)
    (hnext : f'.m_nextoff = f.m_nextoff + m) (hst : f'.m_state = f.m_state.map fun st => st.update buff)
    (hcontent : f'.content w' = f.content w ++ buff.take m) : InSession k i f' w' := by
  obtain ⟨D, st, hst₀, hfed, hle, heq⟩ := h.fed
  have hlen : (f'.content w').length = (f.content w).length + m := by
    rw [hcontent, List.length_append, List.length_take_of_le hm]
  refine ⟨hfh.trans h.fh, ?_, D ++ buff, st.update buff, by rw [hst, hst₀]; rfl, hfed.update buff, ?_, fun hl => ?_⟩
  · have := h.nextoff
    omega
  · rw [List.length_append]
    omega
  · rw [List.length_append] at hl
    rw [hcontent, heq (by omega), List.take_of_length_le (by omega)]

/-- Whether the state absorbed exactly what HDFS accepted, before and after. -/
theorem Exact.advance_iff (hex : Exact f w) (hin : InSession k i f w) (hm : m ≤ buff.length)
    (hst : f'.m_state = f.m_state.map fun st => st.update buff)
    (hcontent : f'.content w' = f.content w ++ buff.take m) : Exact f' w' ↔ m = buff.length := by
  obtain ⟨st, hst₀, -⟩ := hin.exact hex
  have hlen : (f'.content w').length = (f.content w).length + m := by
    rw [hcontent, List.length_append, List.length_take_of_le hm]
  have hoff : (st.update buff).m_offset = (f.content w).length + buff.length := by
    rw [← hex st hst₀]
    rfl
  unfold Exact
  rw [hst, hst₀]
  simp only [Option.map_some, Option.mem_def, Option.some.injEq, forall_eq', hoff, hlen]
  omega

/-- When the checksum covers what HDFS accepted. -/
theorem writeOk_iff (h : InSession 0 i f w) (hex : Exact f w) (hm : m ≤ buff.length) (hret : ret.toNat = m)
    (hfh : f'.fh = f.fh) (hnext : f'.m_nextoff = f.m_nextoff + m)
    (hst : f'.m_state = f.m_state.map fun st => st.update buff)
    (hcontent : f'.content w' = f.content w ++ buff.take m) (hoff : offset = f.m_nextoff) :
    WriteStep.WriteOk ⟨f, w, buff, offset, ret, f', w'⟩ ↔ m = buff.length := by
  have h' := h.advance hm hfh hnext hst hcontent
  have hiff := hex.advance_iff h hm hst hcontent
  have hn := h.nextoff
  constructor
  · intro hok
    refine hiff.1 fun st hst' => ?_
    obtain ⟨st', hst'', hfed⟩ := hok.fed
    obtain rfl : st' = st := Option.some.inj (hst''.symm.trans hst')
    exact hfed.fed.offset
  · intro hfull
    obtain ⟨st, hst', hfed⟩ := h'.exact (hiff.2 hfull)
    refine ⟨⟨st, hst', hfed⟩, ?_, by rw [hret]; exact hcontent, fun _ => by dsimp only; omega, fun hneg => ?_⟩
    · have := h'.nextoff
      dsimp only
      omega
    · -- a failed call took nothing, and so it had nothing to take
      dsimp only at hneg
      obtain rfl : buff = [] := List.length_eq_zero_iff.1 (by omega)
      obtain ⟨st₀, hst₀, hfed₀⟩ := h.exact hex
      refine ⟨by dsimp only; rw [hnext, hfull]; simp, ?_⟩
      dsimp only
      rw [hst, hst₀, Option.map_some, hfed₀.update_nil]

end Advance

/-- Everything one `Write` does to a session. -/
theorem write_session {k : ℤ} {i : ℕ} {f : File env} {w : World} (h : InSession k i f w) (buff : Bytes) (offset : ℤ) :
    Gives (f.write buff offset) w fun r w' => InSession k i r.2 w' ∧
      (Exact f w → (WriteStep.InFull ⟨f, w, buff, offset, r.1, r.2, w'⟩ → Exact r.2 w') ∧
        (k = 0 → (WriteStep.WriteOk ⟨f, w, buff, offset, r.1, r.2, w'⟩ ↔
          WriteStep.InFull ⟨f, w, buff, offset, r.1, r.2, w'⟩))) := by
  have hnext := h.nextoff
  refine (File.write_spec f h.fh rfl buff offset w).mono ?_
  rintro ⟨ret, f'⟩ w' (⟨hne, hneg, rfl, hu⟩ | ⟨rfl, -, hret, hcase⟩)
  · -- rejected: nothing changes
    dsimp only at hneg h hnext hne
    have hsame : f'.content w' = f'.content w := by
      unfold File.content
      rw [hu.fs]
    have hnone : ret.toNat = 0 := by omega
    have h' : InSession k i f' w' := by
      obtain ⟨hfh, hnextoff, hfed⟩ := h
      rw [← hsame] at hnextoff hfed
      exact ⟨hfh, hnextoff, hfed⟩
    unfold Exact
    rw [hsame]
    refine ⟨h', fun hex => ⟨fun _ => hex, fun hk => ⟨fun _ hin => absurd hin hne, fun _ => ?_⟩⟩⟩
    refine ⟨?_, ?_, by simp [hnone, hsame], by simp [hnone], fun _ => ⟨rfl, rfl⟩⟩
    · dsimp only
      rw [hsame]
      exact h.exact hex
    · dsimp only
      rw [hsame]
      omega
  · -- in order: HDFS takes the first `m` bytes, none when it fails
    obtain ⟨m, hm, htoNat, hfull, hfh, hn, hst, hcontent⟩ : ∃ m ≤ buff.length, ret.toNat = m ∧
        (WriteStep.InFull ⟨f, w, buff, f.m_nextoff, ret, f', w'⟩ ↔ m = buff.length) ∧ f'.fh = f.fh ∧
        f'.m_nextoff = f.m_nextoff + m ∧ (f'.m_state = f.m_state.map fun st => st.update buff) ∧
        f'.content w' = f.content w ++ buff.take m := by
      dsimp only at hret
      unfold WriteStep.InFull
      simp only [forall_const, ← hret]
      rcases hcase with ⟨n, hn, -, happ, hr, -⟩ | ⟨hfs, hr, -⟩
      · simp only [Prod.mk.injEq] at hr
        obtain ⟨rfl, rfl⟩ := hr
        obtain ⟨-, -, hdata, -⟩ := Fs.append_eq_some happ
        refine ⟨n, hn, by simp, ⟨fun hin => ?_, fun hn' => Or.inr (by rw [hn'])⟩, rfl, rfl, rfl, ?_⟩
        · rcases hin with rfl | hin
          · simpa using hn
          · omega
        · simp only [File.content, h.fh, hdata]
      · simp only [Prod.mk.injEq] at hr
        obtain ⟨rfl, rfl⟩ := hr
        refine ⟨0, Nat.zero_le _, rfl, ⟨fun hin => ?_, fun h0 => Or.inl (List.length_eq_zero_iff.1 h0.symm)⟩,
          rfl, by simp, rfl, by simp only [File.content, h.fh, hfs, List.take_zero, List.append_nil]⟩
        rcases hin with rfl | hin
        · rfl
        · omega
    refine ⟨h.advance hm hfh hn hst hcontent, fun hex => ⟨fun hin => ?_, ?_⟩⟩
    · exact (hex.advance_iff h hm hst hcontent).2 (hfull.1 hin)
    · rintro rfl
      exact (writeOk_iff h hex hm htoNat hfh hn hst hcontent rfl).trans hfull.symm

/-! ### The whole session -/

/-- A session that started elsewhere than at 0 has the wrong `m_nextoff`. -/
theorem InSession.not_ok {k : ℤ} {i : ℕ} {s : WriteStep env} (h : InSession k i s.f' s.w') (hok : s.WriteOk) : k = 0 := by
  have h₁ := h.nextoff
  have h₂ := hok.length
  omega

/-- The calls of a session, while the state has absorbed what HDFS accepted: the checksum covers the file after every
call if and only if there is no call, or the session started at 0 and every call in order was accepted in full. -/
theorem writes_session {k : ℤ} {i : ℕ} (calls : List (Bytes × ℤ)) (f : File env) (w : World) (h : InSession k i f w) :
    Gives (writes f calls) w fun r _ => r.1.map (fun s => (s.buff, s.offset)) = calls ∧
      (Exact f w → ((∀ s ∈ r.1, s.WriteOk) ↔ calls = [] ∨ k = 0 ∧ ∀ s ∈ r.1, s.InFull)) := by
  induction calls generalizing f w with
  | nil => exact Gives.pure ⟨rfl, by simp⟩
  | cons c calls ih =>
    obtain ⟨buff, offset⟩ := c
    refine Gives.bind (Gives.step (Gives.bind ((write_session h buff offset).mono ?_)))
    rintro ⟨ret, f'⟩ w' ⟨h', hstep⟩
    refine Gives.bind (Gives.step (Gives.bind ((ih f' w' h').mono ?_)))
    rintro ⟨steps, f''⟩ w'' ⟨hcalls, hrest⟩
    refine Gives.pure ⟨by rw [List.map_cons, hcalls], fun hex => ?_⟩
    obtain ⟨hkeep, hiff⟩ := hstep hex
    simp only [List.forall_mem_cons, reduceCtorEq, false_or]
    constructor
    · rintro ⟨hok, hoks⟩
      have hk : k = 0 := InSession.not_ok h' hok
      have hin := (hiff hk).1 hok
      refine ⟨hk, hin, ?_⟩
      rcases (hrest (hkeep hin)).1 hoks with hnil | hins
      · obtain rfl : steps = [] := List.map_eq_nil_iff.1 (hcalls.trans hnil)
        simp
      · exact hins.2
    · rintro ⟨hk, hin, hins⟩
      exact ⟨(hiff hk).2 hin, (hrest (hkeep hin)).2 (Or.inr ⟨hk, hins⟩)⟩

/-- What a session starts with. -/
theorem inSession_opened {f f' : File env} {path : Bytes} {openMode : ℕ} {h : Handle} {fs : Fs} {w : World} {p : HPath}
    (hwr : writing openMode) (hck : inCksums (env.getRealPath path) = false) (ho : File.Opened f f' path openMode h)
    (hat : File.OpenedAt fs p (writing openMode) h w.fs) : InSession f.m_nextoff h.ino f' w ∧ Exact f' w := by
  rw [File.OpenedAt, if_pos hwr] at hat
  obtain ⟨hino, -, -, -, hdata⟩ := Fs.create_eq_some hat
  have hempty : f'.content w = [] := by
    simp only [File.content, ho.fh]
    rw [hdata, hino, Function.update_self]
    rfl
  have hstate := ho.state
  rw [if_pos ⟨hwr, by rw [hck]; rfl⟩] at hstate
  obtain ⟨junk, hjunk⟩ := hstate
  have hfh : f'.fh = some ⟨h.ino, true⟩ := by
    rw [ho.fh, ← hwr, ← ho.kind]
  refine ⟨⟨hfh, by rw [hempty, ho.nextoff]; simp, [], _, hjunk, ⟨junk, [], rfl, rfl⟩, by rw [hempty],
    by rw [hempty]; simp⟩, ?_⟩
  intro st hst
  rw [hjunk, Option.mem_def, Option.some.injEq] at hst
  rw [← hst, hempty]
  rfl

/-- **When the checksum covers what HDFS accepted.**  In every session on a file outside `/cksums`: `WriteOk` holds
after every call if and only if there is no call, or the object had `m_nextoff` 0, as a new one has, and every call
in order was accepted in full or had nothing to write. -/
theorem writes_cover_iff (f : File env) (hf : f.fh = none) (path : Bytes) (openMode : ℕ) (hwr : writing openMode)
    (hck : inCksums (env.getRealPath path) = false) (calls : List (Bytes × ℤ)) (w : World) :
    Gives (session f path openMode calls) w fun r _ => r.1 = 0 →
      r.2.map (fun s => (s.buff, s.offset)) = calls ∧
      ((∀ s ∈ r.2, s.WriteOk) ↔ calls = [] ∨ f.m_nextoff = 0 ∧ ∀ s ∈ r.2, s.InFull) := by
  unfold session
  refine Gives.bind ((File.openFile_spec f hf path openMode w).mono ?_)
  rintro ⟨rc, f'⟩ w' (⟨hrc, -, -⟩ | ⟨hrc, -, h, hopened, hat, -⟩)
  · dsimp only at hrc ⊢
    refine Gives.ite (fun _ => Gives.pure fun h0 => ?_) fun h0 => absurd h0 (by omega)
    dsimp only at h0
    omega
  · dsimp only at hrc hopened ⊢
    subst hrc
    obtain ⟨hin, hex⟩ := inSession_opened hwr hck hopened hat
    refine Gives.ite (fun h => absurd rfl h) fun _ => Gives.bind ((writes_session calls f' w' hin).mono ?_)
    rintro ⟨steps, f''⟩ w'' ⟨hcalls, hiff⟩
    exact Gives.pure fun _ => ⟨hcalls, hiff hex⟩

/-- Two calls in order, and one out of order between them. -/
theorem writes_cover_iff_abc : Gives (session ({ oid := 0 } : File Reference.env) (str "/a") O_WRONLY
      [(str "ab", 0), (str "x", 7), (str "c", 2)]) { fs := .empty }
    fun r _ => r.1 = 0 → ((∀ s ∈ r.2, s.WriteOk) ↔ ∀ s ∈ r.2, s.InFull) := by
  refine (writes_cover_iff ({ oid := 0 } : File Reference.env) rfl (str "/a") O_WRONLY (by decide) (by decide)
    [(str "ab", 0), (str "x", 7), (str "c", 2)] { fs := .empty }).mono fun r w' h hrc => ?_
  simpa using (h hrc).2

/-- A short write, after which the state is ahead of the file. -/
theorem short_write_drifts : ((session ({ oid := 0 } : File Reference.env) (str "/a") O_WRONLY [(str "ab", 0)]).run 9
      { fs := .empty, script := Function.update (fun _ => []) .write [.part 1] }).map
    (fun r => r.1.2.map fun s => (s.ret, s.f'.m_nextoff, s.f'.content s.w', s.f'.m_state.map (·.m_offset))) =
    some [(1, 1, str "a", some 2)] := by
  decide +kernel

end XrdHdfs
