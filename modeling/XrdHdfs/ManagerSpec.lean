import XrdHdfs.Absorb
import XrdHdfs.CallLog

/-!
# What the entry points of `ChecksumManager` do

Over every script, with no Name2Name library: `Get` answers what `answer` makes of the text of the record, and
unlinks the data file when the record lacks the digest (`get_spec`); `List` changes nothing; `Ver` does to the
file system what `Get` does; `Set`, `Calc` and the `Close` of a written file write a record (`Written`) or leave
everything as it was.
-/

namespace XrdHdfs

open Lib World ChecksumManager

variable {env : Env}

/-! ### The text of a record -/

/-- **`GetFileContents`** changes nothing, and when it succeeds it returns the text of the record. -/
theorem getFileContents_mapped (pfn : Bytes) (w : World) :
    Gives (ChecksumManager.getFileContents env pfn) w fun r w' => Unchanged w w' ∧
      ((r.1 < 0 ∧ (w.Calm → env.g_hdfs_oss → w.fs.view (env.recordFile pfn) = none)) ∨
        (r.1 = 0 ∧ env.g_hdfs_oss ∧ ∃ F, w.fs.view (env.recordFile pfn) = some F ∧ IsText F r.2 ∧
          (w.Calm → r.2 = readText F))) := by
  rw [getFileContents_eq]
  refine Gives.ite (fun hoss => Gives.pure ⟨.refl w, Or.inl ⟨by norm_num, fun _ h => ?_⟩⟩) fun hoss => ?_
  · simp [h] at hoss
  replace hoss : env.g_hdfs_oss = true := by simpa using hoss
  refine scanFile_gives (getChecksumFilename pfn) (by norm_num) (by norm_num) w
    (fun v _ => ⟨rfl, .refl v, rfl⟩) (fun rc w' hrc hu _ hno => ⟨hu, Or.inl ⟨hrc, fun hw _ => hno hw⟩⟩) ?_
  intro F retval bs w' h
  refine Gives.ite (fun hneg => Gives.pure ⟨h.unchanged, Or.inl ⟨hneg, fun hw _ => ?_⟩⟩) fun hnn =>
    Gives.pure ⟨h.unchanged, Or.inr ?_⟩
  · have := h.calm hw
    omega
  · obtain ⟨hflat, hpieces⟩ := h.whole (by omega)
    rw [foldl_cstr, List.nil_append]
    refine ⟨rfl, hoss, F, h.data, ⟨bs, hflat, rfl⟩, fun hw => ?_⟩
    rw [hpieces hw (by norm_num)]
    rfl

theorem getFileContents_spec (hN : env.the_N2N = none) (pfn : Bytes) (w : World) :
    Gives (ChecksumManager.getFileContents env pfn) w fun r w' => Unchanged w w' ∧
      ((r.1 < 0 ∧ (w.Calm → env.g_hdfs_oss → w.fs.view (recordPath pfn) = none)) ∨
        (r.1 = 0 ∧ env.g_hdfs_oss ∧ ∃ F, w.fs.view (recordPath pfn) = some F ∧ IsText F r.2 ∧
          (w.Calm → r.2 = readText F))) := by
  rw [← recordFile_eq hN pfn]
  exact getFileContents_mapped pfn w

/-- **A record reads back.** Where the record holds the text that `SetMultiple` makes of some entries, then however
the reads are cut up, `GetFileContents` fails or returns this text, `Parse` accepts it, finds the same entries with
their names in upper case, and they make the same text again.  Without faults it does not fail. -/
theorem record_reads_back (pfn : Bytes) {vs : ChecksumValues} (hgood : ∀ e ∈ vs, GoodEntry e) (w : World)
    (hrec : w.fs.view (env.recordFile pfn) = some (serialise vs)) :
    Gives (ChecksumManager.getFileContents env pfn) w fun r _ =>
      (r.1 = 0 → r.2 = serialise vs ∧ parse r.2 = (0, vs.map upperName) ∧ serialise (parse r.2).2 = serialise vs) ∧
        (env.g_hdfs_oss → w.Calm → r.1 = 0) := by
  refine (getFileContents_mapped pfn w).mono ?_
  rintro ⟨rc, text⟩ w' ⟨-, ⟨hrc, hno⟩ | ⟨rfl, -, F, hF, htext, -⟩⟩
  · refine ⟨fun h0 => absurd h0 hrc.ne, fun hoss hw => ?_⟩
    rw [hno hw hoss] at hrec
    cases hrec
  · obtain rfl : serialise vs = F := by rw [hrec] at hF; exact Option.some.inj hF
    obtain rfl : text = serialise vs := htext.eq_self (not_mem_zero_serialise hgood)
    refine ⟨fun _ => ⟨rfl, parse_serialise hgood, ?_⟩, fun _ _ => rfl⟩
    rw [parse_serialise hgood]
    exact serialise_upperName vs

/-- HDFS with the record of `/a`, read with an interruption and two short reads. -/
def shortReads : World where
  fs := .ofFiles [(str "/cksums/a", serialise [(str "md5", str "0aff"), (str "cvmfs", str "size=1;checksum=b,c:d")])]
  script c := if c = .pread then [.part 3, .fail EINTR, .part 1] else []

theorem record_reads_back_a : Gives (ChecksumManager.getFileContents Reference.env (str "/a")) shortReads fun r _ =>
    (r.1 = 0 → r.2 = serialise [(str "md5", str "0aff"), (str "cvmfs", str "size=1;checksum=b,c:d")] ∧
      parse r.2 = (0, [(str "md5", str "0aff"), (str "cvmfs", str "size=1;checksum=b,c:d")].map upperName) ∧
      serialise (parse r.2).2 = serialise [(str "md5", str "0aff"), (str "cvmfs", str "size=1;checksum=b,c:d")]) ∧
    (Reference.env.g_hdfs_oss → shortReads.Calm → r.1 = 0) :=
  record_reads_back (str "/a") (by decide +kernel) shortReads (by decide +kernel)

/-! ### Unlink -/

theorem hdfsDelete_spec (path : Bytes) (w : World) : Later w (hdfsDelete path w).2 ∧
    ((hdfsDelete path w).1 = 0 ∧ w.fs.delete (resolve path) = some (hdfsDelete path w).2.fs ∨
      (hdfsDelete path w).1 = -1 ∧ (hdfsDelete path w).2.fs = w.fs ∧ (w.Calm → w.fs.delete (resolve path) = none)) := by
  obtain ⟨hl, h | ⟨h1, hfs, hc⟩⟩ := call_spec (.delete path) EIO (fun fs => fs.delete (resolve path)) w
  · exact ⟨hl, Or.inl h⟩
  · exact ⟨hl, Or.inr ⟨h1, hfs, fun hw => hc hw (by simp [LibCall.kind])⟩⟩

theorem hdfsExists_unchanged (path : Bytes) (w : World) : Unchanged w (hdfsExists path w).2 := by
  obtain ⟨hl, ⟨-, hfs⟩ | ⟨-, hfs, -⟩⟩ :=
    call_spec (.exists path) ENOENT (fun fs => if fs.tree (resolve path) = none then none else some fs) w
  · refine ⟨?_, hl⟩
    split at hfs
    · cases hfs
    · exact (Option.some.inj hfs).symm
  · exact ⟨hfs, hl⟩

theorem unlinkErrno_unchanged (path : Bytes) (w : World) : Unchanged w (unlinkErrno path w).2 := by
  unfold unlinkErrno
  split
  · have hu := hdfsExists_unchanged path { w with errno := 0 }
    revert hu
    rcases hdfsExists path { w with errno := 0 } with ⟨r, w₁⟩
    have hl : Later w { w with errno := 0 } := .of_script rfl
    exact fun hu => ⟨hu.fs, (hl.trans hu.later).trans (.of_script rfl)⟩
  · exact .refl w

/-- What a call that may delete the file or directory at `p` leaves behind. -/
def Unlinked (w : World) (p : HPath) (w' : World) : Prop :=
  Later w w' ∧ (w.fs.delete p = some w'.fs ∨ w'.fs = w.fs ∧ (w.Calm → w.fs.delete p = none))

/-- **`Unlink`.** -/
theorem unlink_mapped (pfn : Bytes) (w : World) :
    Gives (unlink env pfn) w fun r w' => Unlinked w (resolve (env.getRealPath pfn)) w' ∧ r ≤ 0 ∧
      (r = 0 → w.fs.delete (resolve (env.getRealPath pfn)) = some w'.fs) ∧ (r ≠ 0 → w'.fs = w.fs) := by
  unfold unlink
  generalize env.getRealPath pfn = path
  obtain ⟨hu₁, hconn⟩ := hadoopConnect_spec w
  refine Gives.bind (Gives.step (Gives.ite (fun hne => Gives.step ?_) fun _ => ?_))
  · have hneg := emsg_neg (hadoopConnect w).2.errno
    replace hu₁ := hu₁.trans (errorCode_unchanged .sys (.fixed EIO) _)
    exact ⟨⟨hu₁.later, Or.inr ⟨hu₁.fs, fun hw => absurd (hconn hw) hne⟩⟩, hneg.le, fun h => absurd h hneg.ne,
      fun _ => hu₁.fs⟩
  generalize (hadoopConnect w).2 = w₁ at hu₁
  have hu₂ : Unchanged w w₁.clearErrno.2 := hu₁.trans ⟨rfl, .of_script rfl⟩
  refine Gives.bind (Gives.step ?_)
  generalize w₁.clearErrno.2 = w₂ at hu₂
  have hdel := hdfsDelete_spec path w₂
  refine Gives.bind (Gives.step ?_)
  generalize hdfsDelete path w₂ = r at hdel
  obtain ⟨r, w₃⟩ := r
  dsimp only at hdel ⊢
  rw [hu₂.fs] at hdel
  obtain ⟨hl₃, ⟨rfl, hfs⟩ | ⟨rfl, hfs, hno⟩⟩ := hdel
  · refine Gives.ite (fun h => absurd h (by norm_num)) fun _ => Gives.pure ?_
    exact ⟨⟨hu₂.later.trans hl₃, Or.inl hfs⟩, le_rfl, fun _ => hfs, fun h => absurd rfl h⟩
  · refine Gives.ite (fun _ => Gives.bind (Gives.step (Gives.step ?_))) fun h => absurd rfl h
    have hu₄ := (unlinkErrno_unchanged path w₃).trans (errorCode_unchanged .sys (.errnoOr EIO) _)
    have hneg := emsg_neg (unlinkErrno path w₃).2.errno
    refine ⟨⟨(hu₂.later.trans hl₃).trans hu₄.later, Or.inr ⟨hu₄.fs.trans hfs, fun hw => hno (hu₂.later.calm hw)⟩⟩,
      hneg.le, fun h => absurd h hneg.ne, fun _ => hu₄.fs.trans hfs⟩

theorem unlink_spec (hN : env.the_N2N = none) (pfn : Bytes) (w : World) :
    Gives (unlink env pfn) w fun r w' => Unlinked w (resolve pfn) w' ∧ r ≤ 0 ∧
      (r = 0 → w.fs.delete (resolve pfn) = some w'.fs) := by
  have h := @unlink_mapped env pfn w
  rw [getRealPath_eq hN] at h
  exact h.mono fun r w' ⟨h₁, h₂, h₃, _⟩ => ⟨h₁, h₂, h₃⟩

/-! ### Get, List and Ver -/

/-- The record is well formed and has no value for the digest. -/
def Lacks (text name : Bytes) : Prop := (parse text).1 = 0 ∧ lastValue (parse text).2 name = []

instance (text name : Bytes) : Decidable (Lacks text name) := by unfold Lacks; infer_instance

/-- What `Get` answers to the text of a record. -/
def answer (env : Env) (cks : XrdCksData) (text : Bytes) : GetOut :=
  let checksum_value := lastValue (parse text).2 (requestedChecksum cks)
  if (parse text).1 ≠ 0 ∨ checksum_value = [] then { rc := -ESRCH, cks }
  else if ValuSize < checksum_value.length then { rc := -EDOM, cks, recorded := some checksum_value }
  else { rc := 0, cks := env.cks.Set cks checksum_value, recorded := some checksum_value }

/-- What `Get` does with a record at `p` of a data file at `q`: it cannot read the record; or it answers what the record
says, and unlinks the data file where the record lacks the digest. -/
def GetDoesAt (env : Env) (p q : HPath) (cks : XrdCksData) (w : World) (out : GetOut) (w' : World) : Prop :=
  (out.rc < 0 ∧ out.cks = cks ∧ Unchanged w w' ∧ (w.Calm → env.g_hdfs_oss → w.fs.view p = none)) ∨
  (env.g_hdfs_oss ∧ ∃ F text, w.fs.view p = some F ∧ IsText F text ∧ (w.Calm → text = readText F) ∧
    out = answer env cks text ∧
    (¬ Lacks text (requestedChecksum cks) → Unchanged w w') ∧
    (Lacks text (requestedChecksum cks) → Unlinked w q w'))

/-- What `Get` does without a mapping. -/
def GetDoes (env : Env) (pfn : Bytes) (cks : XrdCksData) (w : World) (out : GetOut) (w' : World) : Prop :=
  GetDoesAt env (recordPath pfn) (resolve pfn) cks w out w'

/-- **`Get`.** -/
theorem get_mapped (pfn : Bytes) (cks : XrdCksData) (w : World) :
    Gives (get env pfn cks) w (GetDoesAt env (env.recordFile pfn) (resolve (env.getRealPath pfn)) cks w) := by
  unfold ChecksumManager.get
  refine Gives.bind ((getFileContents_mapped pfn w).mono ?_)
  rintro ⟨rc, text⟩ w₁ ⟨hu, ⟨hrc, hno⟩ | ⟨hrc, hoss, F, hF, htext, hcalm⟩⟩
  · dsimp only at hrc ⊢
    refine Gives.ite (fun _ => Gives.pure (Or.inl ⟨?_, rfl, hu, hno⟩)) fun h => absurd h (by omega)
    dsimp only
    split
    · norm_num
    · exact hrc
  dsimp only at hrc hcalm ⊢
  subst hrc
  refine Gives.ite (fun h => absurd rfl h) fun _ => ?_
  -- what remains depends on the text only, but for the unlinking
  suffices h : Gives _ w₁ fun out w' => out = answer env cks text ∧
      (¬ Lacks text (requestedChecksum cks) → Unchanged w₁ w') ∧
      (Lacks text (requestedChecksum cks) → Unlinked w₁ (resolve (env.getRealPath pfn)) w') by
    refine h.mono ?_
    rintro out w₂ ⟨hout, hkeep, hdel⟩
    refine Or.inr ⟨hoss, F, text, hF, htext, hcalm, hout, fun hl => hu.trans (hkeep hl), fun hl => ?_⟩
    obtain ⟨hl', h⟩ := hdel hl
    rw [hu.fs] at h
    exact ⟨hu.later.trans hl', h.imp_right fun h => ⟨h.1, fun hw => h.2 (hu.later.calm hw)⟩⟩
  unfold answer Lacks
  refine Gives.ite (fun hrc => Gives.pure ?_) fun hrc => Gives.ite (fun hv => ?_) fun hv => ?_
  · exact ⟨by rw [if_pos (Or.inl hrc)], fun _ => .refl _, fun h => absurd h.1 hrc⟩
  · refine Gives.bind ((unlink_mapped pfn w₁).mono ?_)
    rintro _ w₂ ⟨hdel, -⟩
    exact Gives.pure ⟨by rw [if_pos (Or.inr hv)], fun h => absurd ⟨not_not.1 hrc, hv⟩ h, fun _ => hdel⟩
  · have hne : ¬ ((parse text).1 ≠ 0 ∨ lastValue (parse text).2 (requestedChecksum cks) = []) := not_or.2 ⟨hrc, hv⟩
    simp only [if_neg hne]
    refine Gives.ite (fun hlen => Gives.pure ?_) fun hlen => Gives.pure ?_
    · exact ⟨by rw [if_pos hlen], fun _ => .refl _, fun h => absurd h.2 hv⟩
    · exact ⟨by rw [if_neg hlen], fun _ => .refl _, fun h => absurd h.2 hv⟩

theorem get_spec (hN : env.the_N2N = none) (pfn : Bytes) (cks : XrdCksData) (w : World) :
    Gives (get env pfn cks) w (GetDoes env pfn cks w) := by
  have h := @get_mapped env pfn cks w
  rw [recordFile_eq hN, getRealPath_eq hN] at h
  exact h

/-- When `Get` returns 0, the record has a value for the digest. -/
theorem answer_eq_zero {cks : XrdCksData} {text : Bytes} (h : (answer env cks text).rc = 0) :
    (parse text).1 = 0 ∧ lastValue (parse text).2 (requestedChecksum cks) ≠ [] ∧
      (lastValue (parse text).2 (requestedChecksum cks)).length ≤ ValuSize ∧
      (answer env cks text).recorded = some (lastValue (parse text).2 (requestedChecksum cks)) ∧
      (answer env cks text).cks = env.cks.Set cks (lastValue (parse text).2 (requestedChecksum cks)) := by
  unfold answer at *
  dsimp only at *
  split at h
  · exact absurd (show -ESRCH = 0 from h) (by decide)
  · next hne =>
    split at h
    · exact absurd (show -EDOM = 0 from h) (by decide)
    · next hlen =>
      obtain ⟨h0, hv⟩ := not_or.1 hne
      rw [if_neg hne, if_neg hlen]
      exact ⟨not_not.1 h0, hv, Nat.le_of_not_lt hlen, rfl, rfl⟩

/-- A `Get` that fails leaves the caller's data alone. -/
theorem answer_cks {cks : XrdCksData} {text : Bytes} (h : (answer env cks text).rc ≠ 0) : (answer env cks text).cks = cks := by
  unfold answer at *
  dsimp only at *
  split at h
  · next hne => rw [if_pos hne]
  · next hne =>
    rw [if_neg hne]
    split at h
    · next hlen => rw [if_pos hlen]
    · exact absurd rfl h

theorem GetDoesAt.cks_eq {p q : HPath} {cks : XrdCksData} {w w' : World} {out : GetOut}
    (h : GetDoesAt env p q cks w out w') (hrc : out.rc ≠ 0) : out.cks = cks := by
  rcases h with ⟨-, hcks, -⟩ | ⟨-, F, text, -, -, -, rfl, -⟩
  · exact hcks
  · exact answer_cks hrc

/-- What a `Get` that returns 0 has read. -/
theorem GetDoesAt.eq_zero {p q : HPath} {cks : XrdCksData} {w w' : World} {out : GetOut}
    (h : GetDoesAt env p q cks w out w') (hrc : out.rc = 0) :
    Unchanged w w' ∧ ∃ F text, w.fs.view p = some F ∧ IsText F text ∧ (w.Calm → text = readText F) ∧
      out = answer env cks text := by
  rcases h with ⟨hneg, -⟩ | ⟨-, F, text, hF, htext, hcalm, rfl, hkeep, -⟩
  · omega
  · exact ⟨hkeep fun hl => (answer_eq_zero hrc).2.1 hl.2, F, text, hF, htext, hcalm, rfl⟩

/-- **`List`** changes nothing. -/
theorem list_spec (pfn : Bytes) (blen : ℕ) (separator : UInt8) (w : World) :
    Gives (list env pfn blen separator) w fun _ w' => Unchanged w w' := by
  unfold list
  refine Gives.bind ((getFileContents_mapped pfn w).mono ?_)
  rintro ⟨rc, text⟩ w₁ ⟨hu, -⟩
  exact Gives.ite (fun _ => Gives.pure hu) fun _ => Gives.ite (fun _ => Gives.pure hu) fun _ => Gives.pure hu

/-- **`Ver`** does what `Get` of the default digest does.  When that fails, it calls `Calc` for a digest without a
name. -/
theorem ver_mapped (pfn : Bytes) (cks : XrdCksData) (w : World) :
    Gives (ver env pfn cks) w fun rc w' =>
      ∃ out, GetDoesAt env (env.recordFile pfn) (resolve (env.getRealPath pfn)) {} w out w' ∧
        rc = if out.rc ≠ 0 then -ENOTSUP else compareValue out.cks cks := by
  unfold ver
  refine Gives.bind ((get_mapped pfn {} w).mono ?_)
  intro out w₁ hget
  refine Gives.ite (fun hrc => ?_) fun hrc => Gives.pure ⟨out, hget, by rw [if_neg hrc]⟩
  have hcalc : calcDigest env pfn out.cks true = pure (-ENOTSUP, out.cks) := by
    rw [hget.cks_eq hrc]
    rfl
  rw [hcalc]
  exact Gives.bind (Gives.pure (Gives.pure ⟨out, hget, by rw [if_pos hrc]⟩))

theorem ver_spec (hN : env.the_N2N = none) (pfn : Bytes) (cks : XrdCksData) (w : World) :
    Gives (ver env pfn cks) w fun rc w' => ∃ out, GetDoes env pfn {} w out w' ∧
      rc = if out.rc ≠ 0 then -ENOTSUP else compareValue out.cks cks := by
  have h := @ver_mapped env pfn cks w
  rw [recordFile_eq hN, getRealPath_eq hN] at h
  exact h

/-! ### Writing records -/

/-- A record was written at `p`, as far as it went. Without faults it was written in full where it can be created. -/
structure WrittenAt (w : World) (p : HPath) (values : ChecksumValues) (w' : World) : Prop where
  later : Later w w'
  fs : w'.fs = w.fs ∨ ∃ t, t <+: serialise values ∧ w.fs.Put p t w'.fs
  calm : w.Calm → (serialise values).length < 2 ^ 31 → w.fs.create p ≠ none → w.fs.Put p (serialise values) w'.fs

/-- The record of `pfn` was written, without a mapping. -/
abbrev Written (w : World) (pfn : Bytes) (values : ChecksumValues) (w' : World) : Prop :=
  WrittenAt w (recordPath pfn) values w'

theorem WrittenAt.of_unchanged {w w₁ w' : World} {p : HPath} {values : ChecksumValues} (hu : Unchanged w w₁)
    (h : WrittenAt w₁ p values w') : WrittenAt w p values w' := by
  obtain ⟨hl, hfs, hc⟩ := h
  rw [hu.fs] at hfs hc
  exact ⟨hu.later.trans hl, hfs, fun hw => hc (hu.later.calm hw)⟩

/-- The record's own name is mapped into `/cksums`, so that no record is made of the record. -/
def RecordInCksums (env : Env) (pfn : Bytes) : Prop := inCksums (env.getRealPath (getChecksumFilename pfn))

instance (env : Env) (pfn : Bytes) : Decidable (RecordInCksums env pfn) := by unfold RecordInCksums; infer_instance

theorem recordInCksums (hN : env.the_N2N = none) (pfn : Bytes) : RecordInCksums env pfn := by
  rw [RecordInCksums, getRealPath_eq hN, inCksums_getChecksumFilename]

theorem setMultiple_writtenAt (pfn : Bytes) (hck : RecordInCksums env pfn) (values : ChecksumValues) (w : World) :
    Gives (setMultiple env pfn values) w fun rc w' => rc ≤ 0 ∧ WrittenAt w (env.recordFile pfn) values w' := by
  refine (setMultiple_mapped pfn hck values w).mono ?_
  rintro rc w' ⟨hl, ⟨hrc, hfs, hno⟩ | ⟨hrc, t, ht, hput, hc⟩⟩
  · exact ⟨hrc.le, hl, Or.inl hfs, fun hw _ hcr => absurd (hno hw) hcr⟩
  · exact ⟨hrc, hl, Or.inr ⟨t, ht, hput⟩, fun hw hlen _ => (hc hw hlen).1 ▸ hput⟩

theorem setMultiple_written (hN : env.the_N2N = none) (pfn : Bytes) (values : ChecksumValues) (w : World) :
    Gives (setMultiple env pfn values) w fun rc w' => rc ≤ 0 ∧ Written w pfn values w' := by
  have h := setMultiple_writtenAt pfn (recordInCksums hN pfn) values w
  rwa [recordFile_eq hN] at h

/-- **`Set`** of one digest changes nothing, or writes a record. -/
theorem set_spec (hN : env.the_N2N = none) (pfn : Bytes) (cks : XrdCksData) (w : World) :
    Gives (ChecksumManager.set env pfn cks) w fun _ w' => Unchanged w w' ∨ ∃ values, Written w pfn values w' := by
  unfold ChecksumManager.set
  refine Gives.bind ((getFileContents_spec hN pfn w).mono ?_)
  rintro ⟨rc, text⟩ w₁ ⟨hu, -⟩
  dsimp only
  rcases parse text with ⟨rc', values⟩
  refine Gives.ite (fun _ => Gives.pure (Or.inl hu)) fun _ => Gives.ite (fun _ => Gives.pure (Or.inl hu)) fun _ => ?_
  cases merge cks (env.cks.Get cks) values with
  | none => exact Gives.pure (Or.inl hu)
  | some values =>
    refine (setMultiple_written hN pfn values w₁).mono ?_
    rintro rc w₂ ⟨-, hw⟩
    exact Or.inr ⟨values, hw.of_unchanged hu⟩

/-- Where `Calc` comes to record the digests of the file: so far it made calls that change no file, and its state has
absorbed the whole file. -/
structure Calculated (env : Env) (pfn : Bytes) (cks : XrdCksData) (do_set : Bool) (w : World) (digest : ℕ) (D : Bytes)
    (st : ChecksumState env.Z) (w' : World) : Prop where
  oss : env.g_hdfs_oss
  supported : returnDigest cks = some digest
  data : w.fs.view (resolve (env.getRealPath pfn)) = some D
  absorbed : ChecksumState.Absorbed (w.junk 0) D st
  digests : st.m_digests = (if do_set then ALL else 0) ||| digest
  unchanged : Unchanged w w'
  calls : Logs (fun c => c.1.Reading) w w'

/-- What `Calc` returns after it has recorded the digests. -/
def calcAnswer (cks : XrdCksData) (digest : ℕ) (st : ChecksumState env.Z) : ℤ × XrdCksData :=
  if st.finalize.get digest = [] then (- EIO, cks) else (0, env.cks.Set cks (st.finalize.get digest))

/-- **`Calc`** fails and changes nothing; or it reads the whole file, and what remains is to record the digests. -/
theorem calc_reads (pfn : Bytes) (cks : XrdCksData) (do_set : Bool) (w : World) {Q : ℤ × XrdCksData → World → Prop}
    (hfail : ∀ rc w', rc < 0 → Unchanged w w' → Logs (fun c => c.1.Reading) w w' →
      (w.Calm → env.g_hdfs_oss → returnDigest cks ≠ none → w.fs.view (resolve (env.getRealPath pfn)) = none) →
      Q (rc, cks) w')
    (hset : ∀ digest D st w', Calculated env pfn cks do_set w digest D st w' →
      Gives (setState env pfn st.finalize) w' fun _ w'' => Q (calcAnswer cks digest st) w'') :
    Gives (calcDigest env pfn cks do_set) w Q := by
  rw [calcDigest_eq]
  rcases hd : returnDigest cks with _ | digest
  · exact Gives.pure (hfail _ w (by norm_num) (.refl w) (.of_eq rfl) fun _ _ h => absurd hd h)
  refine Gives.ite (fun hoss => Gives.pure (hfail _ w (by norm_num) (.refl w) (.of_eq rfl) fun _ h => ?_)) fun hoss => ?_
  · simp [h] at hoss
  replace hoss : env.g_hdfs_oss = true := by simpa using hoss
  generalize hdigests : (if do_set then ALL else 0) ||| digest = digests
  have hstart (v : World) (hj : v.junk = w.junk) :
      (newState env.Z digests v).1 = .new env.Z (w.junk 0) digests ∧ Unchanged v (newState env.Z digests v).2 ∧
        (newState env.Z digests v).2.calls = v.calls :=
    ⟨by rw [newState, nextJunk, hj], nextJunk_unchanged v, rfl⟩
  refine scanFile_gives pfn (by norm_num) (by norm_num) w hstart
    (fun rc w' hrc hu hc hno => hfail rc w' hrc hu hc fun hw _ _ => hno hw) ?_
  intro D retval bs w' h
  refine Gives.ite (fun hneg => Gives.pure (hfail _ _ (by norm_num) h.unchanged h.calls fun hw _ _ => ?_)) fun hnn => ?_
  · have := h.calm hw
    omega
  -- the state has absorbed the file
  obtain ⟨hflat, -⟩ := h.whole (by omega)
  have hlt : ∀ b ∈ bs, b.length < 2 ^ 32 := fun b hb => (h.length_le b hb).trans_lt (by norm_num)
  have habs := (ChecksumState.absorbed_new (Z := env.Z) (w.junk 0) digests).updates hlt
  rw [List.nil_append, hflat] at habs
  have hdig := (ChecksumState.digests_updates (ChecksumState.new env.Z (w.junk 0) digests) bs).trans hdigests.symm
  generalize bs.foldl ChecksumState.update _ = st at habs hdig
  refine Gives.bind ((hset digest D st _ ⟨hoss, hd, h.data, habs, hdig, h.unchanged, h.calls⟩).mono fun rc w₇ hQ => ?_)
  unfold calcAnswer at hQ
  refine Gives.ite (fun hv => Gives.pure ?_) fun hv => Gives.pure ?_
  · rwa [if_pos hv] at hQ
  · rwa [if_neg hv] at hQ

/-- **`Calc`** fails and changes nothing; or it has read the whole file, writes its record and returns the
digest. -/
theorem calc_mapped (pfn : Bytes) (hck : RecordInCksums env pfn) (cks : XrdCksData) (do_set : Bool) (w : World) :
    Gives (calcDigest env pfn cks do_set) w fun r w' =>
      (r.1 < 0 ∧ r.2 = cks ∧ Unchanged w w' ∧
        (w.Calm → env.g_hdfs_oss → returnDigest cks ≠ none → w.fs.view (resolve (env.getRealPath pfn)) = none)) ∨
      (env.g_hdfs_oss ∧ ∃ (digest : ℕ) (D : Bytes) (junk : UInt32) (st : ChecksumState env.Z),
        returnDigest cks = some digest ∧ w.fs.view (resolve (env.getRealPath pfn)) = some D ∧
        ChecksumState.Absorbed junk D st ∧ st.m_digests = (if do_set then ALL else 0) ||| digest ∧
        WrittenAt w (env.recordFile pfn) (stateValues st.finalize) w' ∧
        r = if st.finalize.get digest = [] then (- EIO, cks) else (0, env.cks.Set cks (st.finalize.get digest))) := by
  refine calc_reads pfn cks do_set w (fun rc w' hrc hu _ hno => Or.inl ⟨hrc, rfl, hu, hno⟩) fun digest D st w₁ h => ?_
  refine (setMultiple_writtenAt pfn hck (stateValues st.finalize) w₁).mono ?_
  rintro rc w₂ ⟨-, hw⟩
  exact Or.inr ⟨h.oss, digest, D, w.junk 0, st, h.supported, h.data, h.absorbed, h.digests, hw.of_unchanged h.unchanged, rfl⟩

theorem calc_spec (hN : env.the_N2N = none) (pfn : Bytes) (cks : XrdCksData) (do_set : Bool) (w : World) :
    Gives (calcDigest env pfn cks do_set) w fun r w' =>
      (r.1 < 0 ∧ r.2 = cks ∧ Unchanged w w' ∧
        (w.Calm → env.g_hdfs_oss → returnDigest cks ≠ none → w.fs.view (resolve pfn) = none)) ∨
      (env.g_hdfs_oss ∧ ∃ (digest : ℕ) (D : Bytes) (junk : UInt32) (st : ChecksumState env.Z),
        returnDigest cks = some digest ∧ w.fs.view (resolve pfn) = some D ∧
        ChecksumState.Absorbed junk D st ∧ st.m_digests = (if do_set then ALL else 0) ||| digest ∧
        Written w pfn (stateValues st.finalize) w' ∧
        r = if st.finalize.get digest = [] then (- EIO, cks) else (0, env.cks.Set cks (st.finalize.get digest))) := by
  have h := calc_mapped pfn (recordInCksums hN pfn) cks do_set w
  rwa [recordFile_eq hN, getRealPath_eq hN] at h

/-- **`Close`** of a written file closes it, and then writes its record. -/
theorem close_state_mapped (f : File env) {st : ChecksumState env.Z} (hst : f.m_state = some st)
    (hck : RecordInCksums env (f.fname.getD [])) (w : World) :
    Gives f.close w fun r w' => r.2 = f.closed ∧ (w.Calm → r.1 = 0) ∧
      ((r.1 ≠ 0 ∧ Unchanged w w') ∨
        (r.1 = 0 ∧ WrittenAt w (env.recordFile (f.fname.getD [])) (stateValues st.finalize) w')) := by
  obtain ⟨hu, hc⟩ := File.closeHandle_spec f w
  unfold File.close
  refine Gives.fix (Gives.bind (Gives.step (Gives.bind (Gives.step ?_))))
  have hu' := hu.trans (note_unchanged f.oid .closed _)
  rw [hst]
  refine Gives.ite (fun h0 => Gives.bind (Gives.step ?_)) fun hne => Gives.pure ?_
  · have hu'' := hu'.trans (note_unchanged f.oid .recorded _)
    refine Gives.bind ((setMultiple_writtenAt _ hck _ _).mono ?_)
    rintro rc w' ⟨-, hw⟩
    exact Gives.pure ⟨rfl, hc, Or.inr ⟨h0, hw.of_unchanged hu''⟩⟩
  · exact ⟨rfl, hc, Or.inl ⟨hne, hu'⟩⟩

end XrdHdfs
