import XrdHdfs.Decode
import XrdHdfs.Cksum
import XrdHdfs.ManagerSpec
import XrdHdfs.WriteSession

/-!
# The checksums of writing and of reading

A file is written by `Open`, `Write` calls and `Close`, which records what the checksum state absorbed from the
buffers; `Calc` reads it back in other pieces, with short reads and interruptions, and records what another state
absorbed.  The two records agree on the digests that depend on the data alone, whatever the pieces
(`upload_calc_agree_iff`).  With one `Update` of all the data they agree as long as zlib is given all of it: its length
argument has 32 bits.
-/

namespace XrdHdfs

open Lib World ChecksumState ChecksumManager

variable {env : Env}

/-! ### Records that agree -/

/-- Two records have the same values for the digests that depend on the data alone. -/
def Agree (vs vs' : ChecksumValues) : Prop :=
  ∀ name ∈ [str "CKSUM", str "ADLER32", str "MD5", str "CVMFS"], lastValue vs name = lastValue vs' name

section Agree

variable {Z : Digests}

/-- The value of a digest in a record from which the empty ones are left out. -/
theorem lastValue_filter {vs : ChecksumValues} {name v : Bytes} (hall : ∀ e ∈ vs, strcaseeq e.1 name → e.2 = v)
    (hex : ∃ e ∈ vs, strcaseeq e.1 name) : lastValue (vs.filter fun e => e.2 ≠ []) name = v := by
  rcases lastMatch_lastValue (vs.filter fun e => e.2 ≠ []) name with ⟨pre, e, post, heq, hm, hv, -⟩ | ⟨hnil, hno⟩
  · have hmem : e ∈ vs.filter fun e => e.2 ≠ [] := by
      rw [heq]
      simp
    rw [← hv]
    exact hall e (List.mem_of_mem_filter hmem) hm
  · rw [hnil]
    obtain ⟨e, he, hm⟩ := hex
    by_contra hne
    refine hno e (List.mem_filter.2 ⟨he, ?_⟩) hm
    simpa [hall e he hm] using Ne.symm hne

/-- A record with a text for each digest, where it is not empty, has that text under its name. -/
theorem lastValue_texts (text : ℕ → Bytes) {e : Bytes × ℕ} (he : e ∈ digestNames) :
    lastValue ((digestNames.map fun e => (e.1, text e.2)).filter fun e => e.2 ≠ []) e.1 = text e.2 := by
  have hnames : ∀ e ∈ digestNames, ∀ d ∈ digestNames, strcaseeq d.1 e.1 → d = e := by decide +kernel
  refine lastValue_filter (fun x hx hm => ?_) ⟨(e.1, text e.2), List.mem_map.2 ⟨e, he, rfl⟩, ?_⟩
  · obtain ⟨d, hd, rfl⟩ := List.mem_map.1 hx
    rw [hnames e he d hd hm]
  · simp [strcaseeq]

theorem lastValue_stateValues (st : ChecksumState Z) {e : Bytes × ℕ} (he : e ∈ digestNames) :
    lastValue (stateValues st) e.1 = st.get e.2 :=
  lastValue_texts st.get he

theorem lastValue_recordEntries (junk : UInt32) (D : Bytes) {e : Bytes × ℕ} (he : e ∈ digestNames) :
    lastValue (recordEntries Z junk D ALL) e.1 = entryText Z junk D e.2 := by
  have hne : ∀ e ∈ digestNames.map fun e => (e.1, entryText Z junk D e.2), e.2 ≠ [] := by
    intro x hx
    obtain ⟨d, hd, rfl⟩ := List.mem_map.1 hx
    exact entryText_ne_nil (digest_mem d hd)
  have hlist : recordEntries Z junk D ALL =
      (digestNames.map fun e => (e.1, entryText Z junk D e.2)).filter fun e => e.2 ≠ [] := by
    rw [List.filter_eq_self.2 fun e he => decide_eq_true (hne e he)]
    rfl
  rw [hlist]
  exact lastValue_texts (entryText Z junk D) he

/-- **Two records of the same bytes** agree, whatever the memory their states were constructed in. -/
theorem agree_recordEntries (junk junk' : UInt32) (D : Bytes) :
    Agree (recordEntries Z junk D ALL) (recordEntries Z junk' D ALL) := by
  have hvalue : ∀ d ∈ digestNames, d.2 ≠ CRC32 →
      lastValue (recordEntries Z junk D ALL) d.1 = lastValue (recordEntries Z junk' D ALL) d.1 := by
    intro d hd hne
    rw [lastValue_recordEntries junk D hd, lastValue_recordEntries junk' D hd]
    have hmem := digest_mem d hd
    simp only [List.mem_cons, List.not_mem_nil, or_false] at hmem
    rcases hmem with h | h | h | h | h
    · rw [h]; rfl
    · rw [h]; rfl
    · rw [h]; rfl
    · rw [h]; rfl
    · exact absurd h hne
  simp only [Agree, List.forall_mem_cons, List.not_mem_nil, false_imp_iff, implies_true, and_true]
  exact ⟨hvalue (str "CKSUM", CKSUM) (by decide) (by decide), hvalue (str "ADLER32", ADLER32) (by decide) (by decide),
    hvalue (str "MD5", MD5) (by decide) (by decide), hvalue (str "CVMFS", CVMFS) (by decide) (by decide)⟩

/-- **One `Update`** gives the same values, but for the Adler-32 of what zlib is given. -/
theorem agree_update_iff (junk junk₁ : UInt32) (D : Bytes) :
    Agree (recordEntries Z junk D ALL) (stateValues ((new Z junk₁ ALL).update D).finalize) ↔
      Z.adler32 1 (zlibBuffer D) = Z.adler32 1 D := by
  have hfed : Fed D ((new Z junk₁ ALL).update D) := (fed_new junk₁ ALL).update D
  have hhas : ∀ d ∈ [MD5, CKSUM, CVMFS], ((new Z junk₁ ALL).update D).has d := by
    show ∀ d ∈ [MD5, CKSUM, CVMFS], ALL &&& d ≠ 0
    decide
  have hsame : ∀ d ∈ digestNames, d.2 ∈ [MD5, CKSUM, CVMFS] → lastValue (recordEntries Z junk D ALL) d.1 =
      lastValue (stateValues ((new Z junk₁ ALL).update D).finalize) d.1 := by
    intro d hd hmem
    rw [lastValue_recordEntries junk D hd, lastValue_stateValues _ hd]
    exact (@Fed.get_finalize Z junk D _ hfed d.2 hmem (hhas d.2 hmem)).symm
  have hadler : lastValue (stateValues ((new Z junk₁ ALL).update D).finalize) (str "ADLER32") =
      crcText (Z.adler32 1 (zlibBuffer D)) := by
    have hst : ((new Z junk₁ ALL).update D).m_adler32 = Z.adler32 1 (zlibBuffer D) :=
      if_pos (show ALL &&& ADLER32 ≠ 0 by decide)
    rw [lastValue_stateValues _ (e := (str "ADLER32", ADLER32)) (by decide), ChecksumState.get, if_neg fun hc => hc.1 rfl,
      if_neg fun hc => hc.1 rfl, if_pos ⟨by decide, (show ALL &&& ADLER32 ≠ 0 by decide)⟩, ← hst]
    rfl
  have hadler' : lastValue (recordEntries Z junk D ALL) (str "ADLER32") = crcText (Z.adler32 1 D) :=
    lastValue_recordEntries junk D (e := (str "ADLER32", ADLER32)) (by decide)
  simp only [Agree, List.forall_mem_cons, List.not_mem_nil, false_imp_iff, implies_true, and_true]
  rw [hadler, hadler', crcText_inj]
  constructor
  · rintro ⟨-, heq, -⟩
    exact heq.symm
  · intro heq
    exact ⟨hsame (str "CKSUM", CKSUM) (by decide) (by decide), heq.symm,
      hsame (str "MD5", MD5) (by decide) (by decide), hsame (str "CVMFS", CVMFS) (by decide) (by decide)⟩

end Agree

/-! ### Writing a file -/

/-- What became of an upload: what `Close` returned, or `Open` when it failed; the calls of `Write`; and the world before
`Close`. -/
structure Upload (env : Env) where
  rc : ℤ
  steps : List (WriteStep env)
  w : World

/-- `Open`, `Write` calls and `Close`. -/
def upload (f : File env) (path : Bytes) (openMode : ℕ) (calls : List (Bytes × ℤ)) : Prog World (Upload env) := do
  let (rc, f) ← f.openFile path openMode
  let w ← .step fun w => (w, w)
  if rc ≠ 0 then pure ⟨rc, [], w⟩
  else do
    let (steps, f) ← writes f calls
    let w ← .step fun w => (w, w)
    let (rc, _) ← f.close
    pure ⟨rc, steps, w⟩

/-- HDFS took all of the buffer. -/
def WriteStep.Whole (s : WriteStep env) : Prop := s.ret = s.buff.length

/-- **What an upload keeps** while HDFS takes everything: the file at `p` holds `D`, and the state has absorbed it. -/
structure Uploading (p : HPath) (fname D : Bytes) (f : File env) (w : World) : Prop where
  fh : ∃ i, f.fh = some ⟨i, true⟩ ∧ w.fs.tree.ino p = some i ∧ (w.fs.data i).bytes = D
  state : ∃ junk st, f.m_state = some st ∧ Absorbed junk D st ∧ st.m_digests = ALL
  fname : f.fname = some fname

theorem Uploading.view {p : HPath} {fname D : Bytes} {f : File env} {w : World} (h : Uploading p fname D f w) :
    w.fs.view p = some D := by
  obtain ⟨i, -, hino, hdata⟩ := h.fh
  exact Fs.view_eq_some.2 ⟨i, hino, hdata⟩

/-- One `Write` that HDFS takes as a whole. -/
theorem Uploading.write {p : HPath} {fname D : Bytes} {f : File env} {w : World} (h : Uploading p fname D f w)
    (buff : Bytes) (offset : ℤ) :
    Gives (f.write buff offset) w fun r w' => r.1 = buff.length → Uploading p fname (D ++ buff) r.2 w' := by
  obtain ⟨i, hfh, hino, hdata⟩ := h.fh
  obtain ⟨junk, st, hst, habs, hdig⟩ := h.state
  refine (File.write_spec f hfh rfl buff offset w).mono ?_
  rintro ⟨ret, f'⟩ w' (⟨-, hneg, -, -⟩ | ⟨-, -, -, ⟨n, -, hlt, happ, hr, -⟩ | ⟨-, hr, -⟩⟩) hwhole
  · dsimp only at hneg hwhole
    omega
  · simp only [Prod.mk.injEq] at hr
    obtain ⟨rfl, rfl⟩ := hr
    obtain rfl : n = buff.length := by simpa using hwhole
    rw [List.take_length] at happ
    obtain ⟨htree, -, hnew, -⟩ := Fs.append_eq_some happ
    have hst' : f.m_state.map (fun st => st.update buff) = some (st.update buff) := by
      rw [hst]
      rfl
    exact ⟨⟨i, hfh, by rw [htree, hino], by rw [hnew, hdata]⟩, ⟨junk, st.update buff, hst', habs.update (by omega), hdig⟩,
      h.fname⟩
  · simp only [Prod.mk.injEq] at hr
    dsimp only at hwhole
    omega

/-- A `Write` returns, and the object keeps its name. -/
theorem File.write_fname (f : File env) (buff : Bytes) (offset : ℤ) (w : World) :
    Gives (f.write buff offset) w fun r _ => r.2.fname = f.fname := by
  unfold File.write
  exact Gives.ite (fun _ => Gives.bind (Gives.step (Gives.pure rfl))) fun _ => Gives.bind (Gives.step (Gives.pure rfl))

theorem writes_fname (calls : List (Bytes × ℤ)) (f : File env) (w : World) :
    Gives (writes f calls) w fun r _ => r.2.fname = f.fname := by
  induction calls generalizing f w with
  | nil => exact Gives.pure rfl
  | cons c calls ih =>
    refine Gives.bind (Gives.step (Gives.bind ((File.write_fname f c.1 c.2 w).mono ?_)))
    rintro ⟨ret, f'⟩ w' hname
    refine Gives.bind (Gives.step (Gives.bind ((ih f' w').mono ?_)))
    rintro ⟨steps, f''⟩ w'' hnames
    exact Gives.pure (hnames.trans hname)

/-- A sequence of them. -/
theorem Uploading.writes {p : HPath} {fname : Bytes} (calls : List (Bytes × ℤ)) {D : Bytes} {f : File env} {w : World}
    (h : Uploading p fname D f w) :
    Gives (writes f calls) w fun r w' => (∀ s ∈ r.1, s.Whole) →
      Uploading p fname (D ++ (calls.map Prod.fst).flatten) r.2 w' := by
  induction calls generalizing D f w with
  | nil => exact Gives.pure fun _ => by simpa using h
  | cons c calls ih =>
    obtain ⟨buff, offset⟩ := c
    refine Gives.bind (Gives.step (Gives.bind ((h.write buff offset).mono ?_)))
    rintro ⟨ret, f'⟩ w' hstep
    dsimp only at hstep
    refine Gives.bind (Gives.step (Gives.bind ?_))
    by_cases hret : ret = buff.length
    · refine (ih (hstep hret)).mono ?_
      rintro ⟨steps, f''⟩ w'' hrest
      refine Gives.pure fun hall => ?_
      have h' := hrest fun s hs => hall s (List.mem_cons_of_mem _ hs)
      simpa using h'
    · refine (writes_fname calls f' w').mono ?_
      rintro ⟨steps, f''⟩ w'' -
      exact Gives.pure fun hall => absurd (hall _ List.mem_cons_self) hret

/-- What `Open` for writing starts with. -/
theorem uploading_opened {f f' : File env} {path : Bytes} {openMode : ℕ} {h : Handle} {w w' : World}
    (hwr : writing openMode) (hck : inCksums (env.getRealPath path) = false) (ho : File.Opened f f' path openMode h)
    (hat : File.OpenedAt w.fs (resolve (env.getRealPath path)) (writing openMode) h w'.fs) :
    Uploading (resolve (env.getRealPath path)) (env.getRealPath path) [] f' w' := by
  rw [File.OpenedAt, if_pos hwr] at hat
  have hput := Fs.Put.of_create hat
  obtain ⟨hino, -⟩ := Fs.create_eq_some hat
  have hstate := ho.state
  rw [if_pos ⟨hwr, by rw [hck]; rfl⟩] at hstate
  obtain ⟨junk, hjunk⟩ := hstate
  have hfh : f'.fh = some ⟨h.ino, true⟩ := by rw [ho.fh, ← hwr, ← ho.kind]
  refine ⟨⟨h.ino, hfh, ?_, ?_⟩, ⟨junk, _, hjunk, absorbed_new junk ALL, rfl⟩, ho.fname⟩
  · rw [hput.ino, if_pos rfl, hino]
  · rw [hino, hput.data]

/-- `Close` returns, and when it returns 0 it has written the record of the checksum state. -/
theorem File.close_returns (f : File env) (hck : RecordInCksums env (f.fname.getD [])) (w : World) :
    Gives f.close w fun r w' => (w.Calm → r.1 = 0) ∧ (r.1 = 0 → ∀ st, f.m_state = some st →
      WrittenAt w (env.recordFile (f.fname.getD [])) (stateValues st.finalize) w') := by
  cases hst : f.m_state with
  | none => exact (File.close_spec f hst w).mono fun r w' h => ⟨h.2.2, fun _ st h => nomatch h⟩
  | some st =>
    refine (close_state_mapped f hst hck w).mono ?_
    rintro r w' ⟨-, hcalm, hcase⟩
    refine ⟨hcalm, fun h0 st' heq => ?_⟩
    rcases hcase with ⟨hne, -⟩ | ⟨-, hw⟩
    · exact absurd h0 hne
    · rwa [← Option.some.inj heq]

/-- The file at `p` holds `D`, before the record at `q` was written and after, and the entries that were written are those
of `D`. -/
structure Uploaded (Z : Digests) (p q : HPath) (D : Bytes) (w w' : World) : Prop where
  before : w.fs.view p = some D
  after : p ≠ q → w'.fs.view p = some D
  written : ∃ junk, WrittenAt w q (recordEntries Z junk D ALL) w'

/-- **An upload that succeeds.** -/
theorem upload_spec (f : File env) (hf : f.fh = none) (path : Bytes) (openMode : ℕ) (hwr : writing openMode)
    (hck : inCksums (env.getRealPath path) = false) (hrec : RecordInCksums env (env.getRealPath path))
    (calls : List (Bytes × ℤ)) (w : World) :
    Gives (upload f path openMode calls) w fun u w' => u.rc = 0 → (∀ s ∈ u.steps, s.Whole) →
      Uploaded env.Z (resolve (env.getRealPath path)) (env.recordFile (env.getRealPath path))
        (calls.map Prod.fst).flatten u.w w' := by
  unfold upload
  refine Gives.bind ((File.openFile_spec f hf path openMode w).mono ?_)
  rintro ⟨rc, f'⟩ w' (⟨hrc, -, -⟩ | ⟨hrc, -, h, hopened, hat, -⟩)
  · dsimp only at hrc ⊢
    exact Gives.bind (Gives.step (Gives.ite (fun _ => Gives.pure fun h0 => absurd h0 hrc.ne)
      fun h0 => absurd h0 (not_not.2 hrc.ne)))
  dsimp only at hrc hopened ⊢
  subst hrc
  have hup := uploading_opened hwr hck hopened hat
  refine Gives.bind (Gives.step (Gives.ite (fun h => absurd rfl h) fun _ => Gives.bind ?_))
  refine ((hup.writes calls).and_ends (writes_fname calls f' w').ends).mono ?_
  rintro ⟨steps, f''⟩ w₁ ⟨hrest, hname⟩
  dsimp only at hrest hname ⊢
  rw [List.nil_append] at hrest
  replace hname : f''.fname.getD [] = env.getRealPath path := by
    rw [hname, hopened.fname]
    rfl
  refine Gives.bind (Gives.step (Gives.bind ((File.close_returns f'' (by rwa [hname]) w₁).mono ?_)))
  rintro ⟨rc, f₃⟩ w₂ ⟨-, hclose⟩
  refine Gives.pure fun hrc hall => ?_
  dsimp only at hrc hall hclose ⊢
  have hup' := hrest hall
  obtain ⟨junk, st, hst, habs, hdig⟩ := hup'.state
  have hw := hclose hrc st hst
  rw [hname, stateValues_finalize habs, hdig] at hw
  refine ⟨hup'.view, fun hne => ?_, junk, hw⟩
  rcases hw.fs with hfs | ⟨t, -, hput⟩
  · rw [hfs, hup'.view]
  · rw [hput.view_of_ne hne, hup'.view]

/-! ### Writing and reading -/

theorem returnDigest_all {cks : XrdCksData} {digest : ℕ} (h : returnDigest cks = some digest) : ALL ||| digest = ALL := by
  have hall : ∀ d ∈ [MD5, CKSUM, CRC32, ADLER32], ALL ||| d = ALL := by decide
  exact hall digest (returnDigest_mem h)

/-- A supported digest has a text. -/
theorem finalize_ne_nil {cks : XrdCksData} {digest : ℕ} (hd : returnDigest cks = some digest) (do_set : Bool)
    {junk : UInt32} {D : Bytes} {st : ChecksumState env.Z} (habs : Absorbed junk D st)
    (hdig : st.m_digests = (if do_set then ALL else 0) ||| digest) : st.finalize.get digest ≠ [] := by
  have hmem := returnDigest_mem hd
  have hmem' : digest ∈ [MD5, CKSUM, ADLER32, CVMFS, CRC32] :=
    (by decide : [MD5, CKSUM, CRC32, ADLER32] ⊆ [MD5, CKSUM, ADLER32, CVMFS, CRC32]) hmem
  have hbits : ∀ d ∈ [MD5, CKSUM, CRC32, ADLER32], ∀ b : Bool, ((if b then ALL else 0) ||| d) &&& d ≠ 0 := by decide
  have hhas : st.has digest := by
    rw [ChecksumState.has, hdig]
    exact hbits digest hmem do_set
  rw [habs.get_finalize hmem' hhas]
  exact entryText_ne_nil hmem'

/-- **`Calc`** records the entries of what it reads, however the reads are cut up and interrupted. -/
theorem calc_records (pfn : Bytes) (hrec : RecordInCksums env pfn) (cks : XrdCksData) (hd : returnDigest cks ≠ none)
    (w : World) {D : Bytes} (hD : w.fs.view (resolve (env.getRealPath pfn)) = some D) :
    Gives (calcDigest env pfn cks true) w fun r w' => (w.Calm → env.g_hdfs_oss → r.1 = 0) ∧
      (r.1 = 0 → ∃ junk, WrittenAt w (env.recordFile pfn) (recordEntries env.Z junk D ALL) w') := by
  refine (calc_mapped pfn hrec cks true w).mono ?_
  rintro r w' (⟨hneg, -, -, hno⟩ | ⟨-, digest, D', junk, st, hdigest, hD', habs, hdig, hwritten, hr⟩)
  · refine ⟨fun hw hoss => ?_, fun h0 => absurd h0 hneg.ne⟩
    rw [hno hw hoss hd] at hD
    cases hD
  obtain rfl : D = D' := Option.some.inj (hD.symm.trans hD')
  rw [if_neg (finalize_ne_nil hdigest true habs hdig)] at hr
  rw [if_pos rfl, returnDigest_all hdigest] at hdig
  rw [stateValues_finalize habs, hdig] at hwritten
  exact ⟨fun _ _ => by rw [hr], fun _ => ⟨junk, hwritten⟩⟩

/-- **Write-time and read-time checksums.** After an upload that HDFS took in full, `Close` records the entries of the
data, and so does every `Calc` of a supported digest that reads the same data later; without faults `Calc` does not fail.
The two records agree with each other and with one `Update` of all the data exactly when the part of the data that zlib is
given then has the Adler-32 of the whole. -/
theorem upload_calc_agree_iff (f : File env) (hf : f.fh = none) (path : Bytes) (openMode : ℕ) (hwr : writing openMode)
    (hck : inCksums (env.getRealPath path) = false) (hrec : RecordInCksums env (env.getRealPath path))
    (calls : List (Bytes × ℤ)) (w : World) (pfn : Bytes) (hrec' : RecordInCksums env pfn) (cks : XrdCksData)
    (hd : returnDigest cks ≠ none) :
    Gives (upload f path openMode calls) w fun u w₂ => u.rc = 0 → (∀ s ∈ u.steps, s.Whole) →
      ∃ D junk, D = (calls.map Prod.fst).flatten ∧ u.w.fs.view (resolve (env.getRealPath path)) = some D ∧
        WrittenAt u.w (env.recordFile (env.getRealPath path)) (recordEntries env.Z junk D ALL) w₂ ∧
        ∀ w₃, w₃.fs.view (resolve (env.getRealPath pfn)) = some D →
          Gives (calcDigest env pfn cks true) w₃ fun r w₄ => (w₃.Calm → env.g_hdfs_oss → r.1 = 0) ∧
            (r.1 = 0 → ∃ junk', WrittenAt w₃ (env.recordFile pfn) (recordEntries env.Z junk' D ALL) w₄ ∧
              ∀ junk₁, Agree (recordEntries env.Z junk D ALL) (recordEntries env.Z junk' D ALL) ∧
                  Agree (recordEntries env.Z junk' D ALL) (stateValues ((new env.Z junk₁ ALL).update D).finalize) ↔
                env.Z.adler32 1 (zlibBuffer D) = env.Z.adler32 1 D) := by
  refine (upload_spec f hf path openMode hwr hck hrec calls w).mono ?_
  intro u w₂ hup hrc hall
  obtain ⟨hfile, -, junk, hwritten⟩ := hup hrc hall
  refine ⟨_, junk, rfl, hfile, hwritten, fun w₃ hD => (calc_records pfn hrec' cks hd w₃ hD).mono ?_⟩
  rintro r w₄ ⟨hcalm, hrecords⟩
  refine ⟨hcalm, fun h0 => ?_⟩
  obtain ⟨junk', hwritten'⟩ := hrecords h0
  refine ⟨junk', hwritten', fun junk₁ => ?_⟩
  rw [agree_update_iff]
  exact and_iff_right (agree_recordEntries junk junk' _)
theorem upload_calc_agree_iff_abc : Gives (upload ({ oid := 0 } : File Reference.env) (str "/a") O_WRONLY
      [(str "ab", 0), (str "c", 2)]) { fs := .empty } fun u w₂ => u.rc = 0 → (∀ s ∈ u.steps, s.Whole) →
    ∃ D junk, D = str "abc" ∧ u.w.fs.view (resolve (str "/a")) = some D ∧
      WrittenAt u.w (Reference.env.recordFile (str "/a")) (recordEntries Reference.digests junk D ALL) w₂ ∧
      ∀ w₃, w₃.fs.view (resolve (str "/a")) = some D →
        Gives (calcDigest Reference.env (str "/a") { Name := str "md5" } true) w₃ fun r w₄ =>
          (w₃.Calm → Reference.env.g_hdfs_oss → r.1 = 0) ∧
          (r.1 = 0 → ∃ junk', WrittenAt w₃ (Reference.env.recordFile (str "/a"))
              (recordEntries Reference.digests junk' D ALL) w₄ ∧
            ∀ junk₁, Agree (recordEntries Reference.digests junk D ALL) (recordEntries Reference.digests junk' D ALL) ∧
                Agree (recordEntries Reference.digests junk' D ALL)
                  (stateValues ((new Reference.digests junk₁ ALL).update D).finalize) ↔
              Reference.adler32 1 (zlibBuffer D) = Reference.adler32 1 D) :=
  upload_calc_agree_iff ({ oid := 0 } : File Reference.env) rfl (str "/a") O_WRONLY (by decide) (by decide) (by decide)
    [(str "ab", 0), (str "c", 2)] { fs := .empty } (str "/a") (by decide) { Name := str "md5" } (by decide)

/-! ### Four gigabytes at once -/

/-- Each call starts where the one before ended, and none is too long for `hdfsWrite`. -/
def Consecutive : ℤ → List (Bytes × ℤ) → Prop
  | _, [] => True
  | k, (buff, offset) :: calls => offset = k ∧ buff.length < 2 ^ 31 ∧ Consecutive (k + buff.length) calls

/-- With no script, HDFS takes such calls as a whole. -/
theorem writes_whole (calls : List (Bytes × ℤ)) {f : File env} {i : ℕ} (hfh : f.fh = some ⟨i, true⟩)
    (hcalls : Consecutive f.m_nextoff calls) {w : World} (hscript : w.script = fun _ => [])
    (hlen : (w.fs.data i).bytes.length + (calls.map Prod.fst).flatten.length < 2 ^ 63) :
    Gives (writes f calls) w fun r w' => (∀ s ∈ r.1, s.Whole) ∧ w'.script = fun _ => [] := by
  induction calls generalizing f w with
  | nil => exact Gives.pure ⟨by simp, hscript⟩
  | cons c calls ih =>
    obtain ⟨buff, offset⟩ := c
    obtain ⟨rfl, hbuff, hrest⟩ := hcalls
    simp only [List.map_cons, List.flatten_cons, List.length_append] at hlen
    have hfit : ((w.fs.data i).bytes ++ buff).length < 2 ^ 63 := by
      rw [List.length_append]
      omega
    obtain ⟨fs, happ⟩ : ∃ fs, w.fs.append i buff = some fs := ⟨_, dif_pos hfit⟩
    obtain ⟨-, -, hdata, -⟩ := Fs.append_eq_some happ
    have hwrite : hdfsWrite f.fh buff w =
        ((buff.length : ℤ), { w.did (.write f.fh buff) buff.length with fs := fs }) := by
      have htake : w.take .write = (.ok, w) := by
        unfold take
        rw [hscript]
      have hs32 : s32 buff.length = buff.length := s32_of_lt (by omega) (by omega)
      have hnn : ¬ (s32 buff.length < 0 ∨ (!true) = true) := by
        rw [hs32]
        simp
      simp only [hdfsWrite, hfh, htake, Answer.error]
      rw [if_neg hnn, hs32]
      simp only [Answer.given, Int.toNat_natCast, List.take_length, happ]
    refine Gives.bind (Gives.step (Gives.bind ?_))
    unfold File.write
    refine Gives.ite (fun h => absurd rfl h) fun _ => Gives.bind (Gives.step (Gives.pure ?_))
    rw [hwrite]
    dsimp only
    rw [if_pos (Int.natCast_nonneg _)]
    have hlen' : (fs.data i).bytes.length + (calls.map Prod.fst).flatten.length < 2 ^ 63 := by
      rw [hdata, List.length_append]
      omega
    have hih := @ih { f with
      m_nextoff := f.m_nextoff + buff.length
      m_state := f.m_state.map fun st => st.update buff } hfh hrest
      { w.did (.write f.fh buff) buff.length with fs := fs } hscript hlen'
    refine Gives.bind (Gives.step (Gives.bind (hih.mono ?_)))
    rintro ⟨steps, f'⟩ w' ⟨hwhole, hscript'⟩
    exact Gives.pure ⟨List.forall_mem_cons.2 ⟨rfl, hwhole⟩, hscript'⟩

/-- The lower half of an Adler-32 is the sum of the bytes and 1, modulo 65521. -/
theorem low_adlerStep (s : UInt32) (c : UInt8) :
    (Reference.adlerStep s c).toNat % 2 ^ 16 = (s.toNat % 2 ^ 16 + c.toNat) % 65521 := by
  have hc := c.toNat_lt
  have hlow : (s &&& 0xffff).toNat = s.toNat % 2 ^ 16 := by
    rw [UInt32.toNat_and]
    exact Nat.and_two_pow_sub_one_eq_mod s.toNat 16
  have ha : (((s &&& 0xffff) + c.toUInt32) % 65521).toNat = (s.toNat % 2 ^ 16 + c.toNat) % 65521 := by
    rw [UInt32.toNat_mod, UInt32.toNat_add, hlow, UInt8.toNat_toUInt32]
    simp
    omega
  unfold Reference.adlerStep
  dsimp only
  rw [UInt32.toNat_or, Nat.or_mod_two_pow, ha]
  have hhigh : ∀ b : UInt32, (b <<< 16).toNat % 2 ^ 16 = 0 := by
    intro b
    rw [UInt32.toNat_shiftLeft]
    simp [Nat.shiftLeft_eq]
  rw [hhigh, Nat.zero_or]
  omega

theorem low_adler32_replicate (n : ℕ) {s : UInt32} (h : s.toNat % 2 ^ 16 = 1) :
    (Reference.adler32 s (List.replicate n 0)).toNat % 2 ^ 16 = 1 := by
  induction n generalizing s with
  | zero => exact h
  | succ n ih =>
    refine ih ?_
    rw [low_adlerStep, h]
    rfl
/-- `2 * n` zeros and a 1, in three calls. -/
def zerosAndOne (n : ℕ) : List (Bytes × ℤ) :=
  [(List.replicate n 0, 0), (List.replicate n 0, n), ([0, 1], n + n)]

theorem flatten_zerosAndOne (n : ℕ) :
    ((zerosAndOne n).map Prod.fst).flatten = List.replicate (n + n + 1) 0 ++ [1] := by
  simp only [zerosAndOne, List.map_cons, List.map_nil, List.flatten_cons, List.flatten_nil, List.replicate_add,
    List.append_assoc]
  rfl

/-- Of a file of exactly four gigabytes, one `Update` gives zlib nothing. -/
theorem adler32_zerosAndOne {n : ℕ} (hn : n + n + 2 = 2 ^ 32) :
    Reference.adler32 1 (zlibBuffer (List.replicate (n + n + 1) 0 ++ [1])) ≠
      Reference.adler32 1 (List.replicate (n + n + 1) 0 ++ [1]) := by
  have hnone : zlibBuffer (List.replicate (n + n + 1) 0 ++ [1]) = [] := by
    unfold zlibBuffer
    rw [List.length_append, List.length_replicate, List.length_singleton, hn]
    rfl
  have hlow := @low_adlerStep (Reference.adler32 1 (List.replicate (n + n + 1) 0)) 1
  rw [low_adler32_replicate (n + n + 1) (s := 1) rfl] at hlow
  have hlast : Reference.adler32 1 (List.replicate (n + n + 1) 0 ++ [1]) =
      Reference.adlerStep (Reference.adler32 1 (List.replicate (n + n + 1) 0)) 1 := by
    unfold Reference.adler32
    rw [List.foldl_append]
    rfl
  rw [hnone, hlast]
  intro h
  rw [← h] at hlow
  exact absurd hlow (by decide)

/-- The world in which `Open` creates `/a`. -/
theorem openFile_empty : Gives (({ oid := 0 } : File Reference.env).openFile (str "/a") O_WRONLY) { fs := .empty }
    fun r w => r.1 = 0 ∧ r.2.m_nextoff = 0 ∧ w.script = fun _ => [] :=
  ⟨0, _, _, rfl, rfl, rfl, rfl⟩

/-- An upload in such calls succeeds. -/
theorem upload_whole {calls : List (Bytes × ℤ)} (hcalls : Consecutive 0 calls)
    (hlen : (calls.map Prod.fst).flatten.length < 2 ^ 63) :
    Gives (upload ({ oid := 0 } : File Reference.env) (str "/a") O_WRONLY calls) { fs := .empty } fun u _ =>
      u.rc = 0 ∧ (∀ s ∈ u.steps, s.Whole) ∧ u.w.Calm := by
  have hopen := File.openFile_spec ({ oid := 0 } : File Reference.env) rfl (str "/a") O_WRONLY { fs := .empty }
  refine Gives.bind ((hopen.and_ends openFile_empty.ends).mono ?_)
  rintro ⟨rc, f⟩ w ⟨⟨hneg, -⟩ | ⟨-, -, h, hopened, hat, -⟩, h0, hnext, hscript⟩
  · exact absurd h0 hneg.ne
  dsimp only at h0 hnext hopened ⊢
  subst h0
  obtain ⟨i, hfh, -, hempty⟩ := (uploading_opened (by decide) (by decide) hopened hat).fh
  have hwrites := @writes_whole Reference.env calls f i hfh (by rwa [hnext]) w hscript (by simpa [hempty] using hlen)
  refine Gives.bind (Gives.step (Gives.ite (fun h => absurd rfl h) fun _ => Gives.bind ?_))
  refine (hwrites.and_ends (writes_fname calls f w).ends).mono ?_
  rintro ⟨steps, f'⟩ w₁ ⟨⟨hwhole, hscript₁⟩, hname⟩
  dsimp only at hwhole hname ⊢
  have hcalm : w₁.Calm := by
    intro c a ha
    rw [hscript₁] at ha
    cases ha
  rw [hopened.fname] at hname
  refine Gives.bind (Gives.step (Gives.bind ((File.close_returns f' (by rw [hname]; decide) w₁).mono ?_)))
  rintro ⟨rc, f''⟩ w₂ ⟨hclose, -⟩
  exact Gives.pure ⟨hclose hcalm, hwhole, hcalm⟩

/-- **The upload of such a file.** `Close` and `Calc` record an Adler-32 that one `Update` does not give. -/
theorem upload_zerosAndOne {n : ℕ} (hn : n + n + 2 = 2 ^ 32) {D : Bytes} (hD : D = List.replicate (n + n + 1) 0 ++ [1]) :
    Gives (upload ({ oid := 0 } : File Reference.env) (str "/a") O_WRONLY (zerosAndOne n)) { fs := .empty } fun u w₂ =>
      u.rc = 0 ∧ (∀ s ∈ u.steps, s.Whole) ∧ w₂.fs.view (resolve (str "/a")) = some D ∧
        ∃ junk, WrittenAt u.w (Reference.env.recordFile (str "/a")) (recordEntries Reference.digests junk D ALL) w₂ ∧
          Gives (calcDigest Reference.env (str "/a") { Name := str "adler32" } true) w₂ fun r w₄ => r.1 = 0 ∧
            ∃ junk', WrittenAt w₂ (Reference.env.recordFile (str "/a")) (recordEntries Reference.digests junk' D ALL) w₄ ∧
              ¬ Agree (recordEntries Reference.digests junk' D ALL)
                (stateValues ((new Reference.digests 0 ALL).update D).finalize) := by
  have hspec := upload_spec ({ oid := 0 } : File Reference.env) rfl (str "/a") O_WRONLY (by decide) (by decide) (by decide)
    (zerosAndOne n) { fs := .empty }
  have hflat := flatten_zerosAndOne n
  rw [← hD] at hflat
  have hlen : ((zerosAndOne n).map Prod.fst).flatten.length < 2 ^ 63 := by
    rw [hflat, hD, List.length_append, List.length_replicate, List.length_singleton]
    omega
  have hcalls : Consecutive 0 (zerosAndOne n) := by
    simp only [zerosAndOne, Consecutive, List.length_replicate, zero_add, and_true, true_and]
    exact ⟨by omega, by omega, by decide⟩
  rw [hflat] at hspec
  refine ((upload_whole hcalls hlen).and_ends hspec.ends).mono ?_
  rintro u w₂ ⟨⟨hrc, hwhole, hcalm⟩, hup⟩
  obtain ⟨-, hafter, junk, hwritten⟩ := hup hrc hwhole
  have hfile := hafter (by decide)
  refine ⟨hrc, hwhole, hfile, junk, hwritten, ?_⟩
  refine (calc_records (str "/a") (by decide) { Name := str "adler32" } (by decide) w₂ hfile).mono ?_
  rintro r w₄ ⟨hzero, hrecords⟩
  have h0 := hzero (hwritten.later.calm hcalm) rfl
  obtain ⟨junk', hwritten'⟩ := hrecords h0
  refine ⟨h0, junk', hwritten', fun hagree => ?_⟩
  rw [agree_update_iff, hD] at hagree
  exact adler32_zerosAndOne hn hagree

/-- `2 ^ 31 - 1` zeros, as many again, and the bytes 0 and 1. -/
theorem update_drops_data : Gives (upload ({ oid := 0 } : File Reference.env) (str "/a") O_WRONLY (zerosAndOne (2 ^ 31 - 1)))
    { fs := .empty } fun u w₂ => u.rc = 0 ∧ (∀ s ∈ u.steps, s.Whole) ∧
      ∃ D junk, D = List.replicate (2 ^ 32 - 1) 0 ++ [1] ∧ w₂.fs.view (resolve (str "/a")) = some D ∧
        WrittenAt u.w (Reference.env.recordFile (str "/a")) (recordEntries Reference.digests junk D ALL) w₂ ∧
        Gives (calcDigest Reference.env (str "/a") { Name := str "adler32" } true) w₂ fun r w₄ => r.1 = 0 ∧
          ∃ junk', WrittenAt w₂ (Reference.env.recordFile (str "/a")) (recordEntries Reference.digests junk' D ALL) w₄ ∧
            ¬ Agree (recordEntries Reference.digests junk' D ALL)
              (stateValues ((new Reference.digests 0 ALL).update D).finalize) := by
  refine (upload_zerosAndOne (n := 2 ^ 31 - 1) (by norm_num) rfl).mono ?_
  rintro u w₂ ⟨hrc, hwhole, hfile, junk, hwritten, hcalc⟩
  exact ⟨hrc, hwhole, _, junk, by norm_num, hfile, hwritten, hcalc⟩

end XrdHdfs
