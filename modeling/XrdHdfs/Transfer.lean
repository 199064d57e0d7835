import Mathlib.Algebra.Order.BigOperators.Group.List
import XrdHdfs.Agreement
import XrdHdfs.Decode
import XrdHdfs.NameList
import XrdHdfs.Store
import XrdHdfs.Verify

/-!
# A file from one end to the other

A client uploads a file; later on others ask the server for its bytes, its attributes, its digests, the names of these, or
whether a digest is right.  `Stored` is what connects the two: the file holds the data, and its record their digests.  An
upload that succeeds leaves it (`upload_stored`); whoever asks changes nothing, and is told nothing wrong, whatever fails
(`visits_answered`).  `upload_served` is both together.
-/

namespace XrdHdfs

open Lib World ChecksumManager ChecksumState

/-! ### How long a record is -/

section Length

variable {Z : Digests}

theorem length_flatMap_le {α β : Type} {l : List α} {f : α → List β} {n : ℕ} (h : ∀ a ∈ l, (f a).length ≤ n) :
    (l.flatMap f).length ≤ l.length * n := by
  rw [List.length_flatMap, ← List.length_map (f := fun a => (f a).length), ← smul_eq_mul]
  refine List.sum_le_card_nsmul _ n fun k hk => ?_
  obtain ⟨a, ha, rfl⟩ := List.mem_map.1 hk
  exact h a ha

/-- The text of the chunks, where sizes have up to 20 digits. -/
theorem length_graft_le {size : ℕ} {sha1_final : Bytes} {cs : List CvmfsChunk} (hsize : (decimal size).length ≤ 20)
    (hfinal : sha1_final.length = 40) (hcs : ∀ c ∈ cs, c.m_sha1.length = 40 ∧ (decimal c.m_offset).length ≤ 20) :
    (graft size sha1_final cs).length ≤ 200 + cs.length * 62 := by
  have hlit : (str "size=").length = 5 ∧ (str ";checksum=").length = 10 ∧
      (str ";chunk_offsets=0;chunk_checksums=").length = 33 ∧ (str ";chunk_offsets=0").length = 16 ∧
      (str ";chunk_checksums=").length = 17 ∧ (str ",").length = 1 := by decide
  unfold graft
  rcases cs with _ | ⟨first, _ | ⟨c, cs⟩⟩
  · simp only [List.length_append]
    omega
  · simp only [List.length_append]
    omega
  · rw [List.forall_mem_cons] at hcs
    obtain ⟨hfirst, hcs⟩ := hcs
    have hoff : ((c :: cs).flatMap fun c => str "," ++ decimal c.m_offset).length ≤ (c :: cs).length * 21 := by
      refine length_flatMap_le fun x hx => ?_
      have := (hcs x hx).2
      rw [List.length_append]
      omega
    have hsum : ((c :: cs).flatMap fun c => str "," ++ c.m_sha1).length ≤ (c :: cs).length * 41 := by
      refine length_flatMap_le fun x hx => ?_
      have := (hcs x hx).1
      rw [List.length_append]
      omega
    simp only [List.length_append, List.length_cons] at hoff hsum ⊢
    omega

theorem length_entryText_cvmfs_le (junk : UInt32) {D : Bytes} (hD : D.length < 2 ^ 48) :
    (entryText Z junk D CVMFS).length ≤ 200 + D.length / CVMFS_CHUNK_SIZE * 62 := by
  have hdec : ∀ n < 2 ^ 48, (decimal n).length ≤ 20 := by
    intro n hn
    rw [decimal, List.length_map]
    exact Nat.toDigits_length 10 n 20 (by norm_num) (by omega)
  have hchunks : (chunkEntries Z D).length = D.length / CVMFS_CHUNK_SIZE := by simp [chunkEntries]
  rw [← hchunks]
  refine length_graft_le (hdec _ hD) (by rw [length_human_readable_evp, Z.length_sha1]) fun c hc => ?_
  obtain ⟨i, hi, rfl⟩ := List.mem_map.1 hc
  rw [List.mem_range] at hi
  refine ⟨by rw [chunkEntry, length_human_readable_evp, Z.length_sha1], hdec _ ?_⟩
  dsimp only [chunkEntry, CVMFS_CHUNK_SIZE] at hi ⊢
  omega

theorem recordEntries_all (junk : UInt32) (D : Bytes) :
    recordEntries Z junk D ALL = digestNames.map fun e => (e.1, entryText Z junk D e.2) := rfl

/-- **The record of a file below 2^48 bytes** is short enough for one `hdfsWrite`. -/
theorem length_record (junk : UInt32) {D : Bytes} (hD : D.length < 2 ^ 48) :
    (serialise (recordEntries Z junk D ALL)).length < 2 ^ 31 := by
  have hline : ∀ e ∈ digestNames, (line (e.1, entryText Z junk D e.2)).length ≤ 9 + (entryText Z junk D e.2).length := by
    have hname : ∀ e ∈ digestNames, (upper e.1).length ≤ 7 := by decide
    intro e he
    have := hname e he
    simp only [line, List.length_append, List.length_cons, List.length_nil]
    omega
  have hshort : ∀ d ∈ [MD5, CKSUM, CRC32, ADLER32], (entryText Z junk D d).length ≤ 2 * 64 :=
    fun d hd => length_entryText_le hd
  have hlong := length_entryText_cvmfs_le (Z := Z) junk hD
  rw [show CVMFS_CHUNK_SIZE = 25165824 from rfl] at hlong
  rw [recordEntries_all, serialise]
  simp only [digestNames, List.forall_mem_cons] at hline hshort ⊢
  simp only [List.map_cons, List.map_nil, List.flatMap_cons, List.flatMap_nil, List.length_append, List.length_nil]
  omega

end Length

/-! ### A stored file -/

variable {env : Env} {path D : Bytes}

/-- The file that is served under a path holds `D`, and its record is that of `D`, as it was written. -/
structure Stored (env : Env) (path D : Bytes) (fs : Fs) : Prop where
  file : fs.view (resolve (env.getRealPath path)) = some D
  record : ∃ junk, fs.view (env.recordFile (env.getRealPath path)) = some (serialise (recordEntries env.Z junk D ALL))

/-- The upload succeeds as far as a client sees; no call of `libhdfs` fails in `Close`, and the record can be created. -/
structure Upload.Succeeded (u : Upload env) (path : Bytes) : Prop where
  rc : u.rc = 0
  whole : ∀ s ∈ u.steps, s.Whole
  calm : u.w.Calm
  creatable : u.w.fs.create (env.recordFile (env.getRealPath path)) ≠ none

theorem upload_stored (f : File env) (hf : f.fh = none) (path : Bytes) (openMode : ℕ) (hwr : writing openMode)
    (hck : inCksums (env.getRealPath path) = false) (hrec : RecordInCksums env (env.getRealPath path))
    (hne : resolve (env.getRealPath path) ≠ env.recordFile (env.getRealPath path))
    (calls : List (Bytes × ℤ)) (hsize : (calls.map Prod.fst).flatten.length < 2 ^ 48) (w : World) :
    Gives (upload f path openMode calls) w fun u w' => u.Succeeded path →
      Stored env path (calls.map Prod.fst).flatten w'.fs ∧ w'.Calm := by
  refine (upload_spec f hf path openMode hwr hck hrec calls w).mono ?_
  intro u w' hup hu
  obtain ⟨-, hafter, junk, hwritten⟩ := hup hu.rc hu.whole
  have hput := hwritten.calm hu.calm (length_record junk hsize) hu.creatable
  exact ⟨⟨hafter hne, junk, hput.view⟩, hwritten.later.calm hu.calm⟩

/-! ### Questions -/

/-- `Open`, `Read` calls of `blen` bytes from start to end, and `Close`. -/
def download (env : Env) (path : Bytes) (blen : ℕ) : Prog World (ℤ × Bytes) :=
  scanFile env path blen (fun w => ([], w)) (fun acc d => acc ++ d) (fun rc => (rc, [])) fun rc text => pure (rc, text)

/-- What a server is asked about a file. -/
inductive Question where
  | download (blen : ℕ)
  | stat (m_cmsd_fs client : Bool)
  | get (cks : XrdCksData)
  | list (blen : ℕ) (separator : UInt8)
  | ver (cks : XrdCksData)

/-- What the server answers. -/
inductive Response where
  | text (rc : ℤ) (text : Bytes)
  | attributes (rc : ℤ) (buf : Option Stat)
  | value (out : GetOut)
  | names (out : Option Bytes)
  | verdict (rc : ℤ)

/-- The question, of the path; the checksum manager is asked for the path in HDFS. -/
def Question.ask (env : Env) (path : Bytes) : Question → Prog World Response
  | download blen => do
    let (rc, text) ← XrdHdfs.download env path blen
    pure (.text rc text)
  | stat m_cmsd_fs client => do
    let (rc, buf, _) ← XrdHdfs.stat env m_cmsd_fs path client
    pure (.attributes rc buf)
  | get cks => do
    let out ← ChecksumManager.get env (env.getRealPath path) cks
    pure (.value out)
  | list blen separator => do
    let out ← ChecksumManager.list env (env.getRealPath path) blen separator
    pure (.names out)
  | ver cks => do
    let rc ← ChecksumManager.ver env (env.getRealPath path) cks
    pure (.verdict rc)

/-- The server tells that it could not find out. -/
def Response.Failed : Response → Prop
  | text rc _ => rc < 0
  | attributes rc _ => rc < 0
  | value out => out.rc < 0
  | names out => out = none
  | verdict rc => rc < 0

instance Response.decidableFailed : DecidablePred Response.Failed
  | text rc _ => inferInstanceAs (Decidable (rc < 0))
  | attributes rc _ => inferInstanceAs (Decidable (rc < 0))
  | value out => inferInstanceAs (Decidable (out.rc < 0))
  | names out => inferInstanceAs (Decidable (out = none))
  | verdict rc => inferInstanceAs (Decidable (rc < 0))

/-- The digests that a value can be asked for. -/
abbrev valueDigests : List (Bytes × ℕ) := [(str "MD5", MD5), (str "ADLER32", ADLER32)]

/-- What makes a question one about the file: a read has a length that fits an `int`, a value that is asked for is that of a
digest with a value, and one that is to be verified is as long as an Adler-32. -/
def Question.Proper : Question → Prop
  | download blen => 0 < blen ∧ blen < 2 ^ 31
  | get cks => ∃ d ∈ valueDigests, strcaseeq (requestedChecksum cks) d.1
  | ver cks => cks.Length = 4
  | _ => True

/-- The server tells the truth about `D`. -/
def Question.Truth (Z : Digests) (D : Bytes) : Question → Response → Prop
  | download _, .text _ text => text = D
  | stat _ _, .attributes _ buf => ∃ st, buf = some st ∧ st.st_size = D.length
  | get cks, .value out => ∀ d ∈ valueDigests, strcaseeq (requestedChecksum cks) d.1 → Right Z d.2 D out.cks
  | list blen separator, .names out => out = some ((List.intercalate [separator] (digestNames.map Prod.fst)).take blen)
  | ver cks, .verdict rc => rc = 0 ↔ Right Z ADLER32 D cks
  | _, _ => False

/-- A question, and what has happened to HDFS since the one before: to other files anything, and the script may be another. -/
structure Visit (env : Env) (path : Bytes) where
  question : Question
  proper : question.Proper
  meanwhile : World → World := id
  file : ∀ w, (meanwhile w).fs.view (resolve (env.getRealPath path)) = w.fs.view (resolve (env.getRealPath path)) := by
    exact fun _ => rfl
  record : ∀ w, (meanwhile w).fs.view (env.recordFile (env.getRealPath path)) =
    w.fs.view (env.recordFile (env.getRealPath path)) := by exact fun _ => rfl

/-- One visit after the other. -/
def visits : List (Visit env path) → Prog World (List Response)
  | [] => pure []
  | v :: vs => do
    .step fun w => ((), v.meanwhile w)
    let t ← v.question.ask env path
    let ts ← visits vs
    pure (t :: ts)

/-- What a question comes to: nothing is changed, and what is told is true, or that it is not known; without faults it is
known. -/
structure Answered (env : Env) (D : Bytes) (q : Question) (w : World) (t : Response) (w' : World) : Prop where
  unchanged : Unchanged w w'
  truth : t.Failed ∨ q.Truth env.Z D t
  known : w.Calm → env.g_hdfs_oss → ¬ t.Failed

/-! ### The answers -/

section Answers

variable {w : World}

theorem download_answered (hD : w.fs.view (resolve (env.getRealPath path)) = some D) {blen : ℕ} (hpos : 0 < blen)
    (hblen : blen < 2 ^ 31) :
    Gives ((Question.download blen).ask env path) w (Answered env D (.download blen) w) := by
  refine Gives.bind (Q := Answered env D (.download blen) w) (scanFile_gives path hpos hblen w
    (fun v _ => ⟨rfl, .refl v, rfl⟩) (fun rc w' hrc hu _ hno => Gives.pure ⟨hu, Or.inl hrc, fun hw _ => ?_⟩) ?_)
  · rw [hno hw] at hD
    cases hD
  · intro F rc bs w' h
    obtain rfl : F = D := Option.some.inj (h.data.symm.trans hD)
    refine Gives.pure (Gives.pure ⟨h.unchanged, ?_, fun hw _ => ?_⟩)
    · rcases lt_or_ge rc 0 with hneg | hnn
      · exact Or.inl hneg
      · refine Or.inr ?_
        rw [Question.Truth, List.foldl_append_eq_append, List.nil_append, List.map_id']
        exact (h.whole hnn).1
    · exact (h.calm hw).not_lt

/-- What `hdfsGetPathInfo` tells of a file; without faults it does. -/
theorem hdfsGetPathInfo_file {fname : Bytes} (hD : w.fs.view (resolve fname) = some D) :
    match (hdfsGetPathInfo fname w).1 with
    | some info => info.toStat.st_size = D.length
    | none => ¬ w.Calm := by
  obtain ⟨i, hino, rfl⟩ := Fs.view_eq_some.1 hD
  obtain ⟨m, htree⟩ := Tree.ino_eq_some.1 hino
  have hfs := take_fs (w := w) (c := .getPathInfo)
  have hok : w.Calm → (w.take .getPathInfo).1.error = none :=
    fun hw => (take_error hw).resolve_right fun h => by cases h.1
  unfold hdfsGetPathInfo
  revert hfs hok
  rcases w.take .getPathInfo with ⟨a, w₁⟩
  intro hfs hok
  dsimp only at hfs hok ⊢
  rcases ha : a.error with _ | e
  · rw [World.fileInfo, hfs, htree]
    rfl
  · intro hw
    rw [hok hw] at ha
    cases ha

theorem statConnect_spec (client m_cmsd_fs : Bool) (w : World) :
    Unchanged w (statConnect client m_cmsd_fs w).2 ∧ (w.Calm → (statConnect client m_cmsd_fs w).1 = 0) := by
  unfold statConnect
  split_ifs
  · exact hadoopConnect_spec w
  · exact ⟨.refl w, fun _ => rfl⟩
  · obtain ⟨hl, ⟨h0, hfs⟩ | ⟨-, hfs, hc⟩⟩ := call_spec .connect EIO some w
    · exact ⟨⟨(Option.some.inj hfs).symm, hl⟩, fun _ => h0⟩
    · exact ⟨⟨hfs, hl⟩, fun hw => nomatch hc hw (by decide)⟩

theorem stat_answered (hD : w.fs.view (resolve (env.getRealPath path)) = some D) (m_cmsd_fs client : Bool) :
    Gives ((Question.stat m_cmsd_fs client).ask env path) w (Answered env D (.stat m_cmsd_fs client) w) := by
  obtain ⟨hu, h0⟩ := statConnect_spec client m_cmsd_fs w
  refine Gives.bind (Gives.bind (Gives.step (Gives.ite (fun hne => ?_) fun _ => ?_)))
  · refine Gives.bind (Gives.step (Gives.pure (Gives.pure ⟨hu.trans (errorCode_unchanged _ _ _), Or.inl ?_, fun hw _ => ?_⟩)))
    · exact errorCode_neg _ _ _
    · exact absurd (h0 hw) hne
  generalize statConnect client m_cmsd_fs w = r at hu
  obtain ⟨connected, w₁⟩ := r
  dsimp only at hu ⊢
  rw [← hu.fs] at hD
  have hinfo := hdfsGetPathInfo_file hD
  have hu₁ := hu.trans (hdfsGetPathInfo_spec (env.getRealPath path) w₁)
  unfold statPath
  refine Gives.bind (Gives.bind (Gives.step ?_))
  generalize hdfsGetPathInfo (env.getRealPath path) w₁ = r at hinfo hu₁
  obtain ⟨o, w₂⟩ := r
  cases o with
  | none =>
    refine Gives.bind (Gives.step (Gives.pure (Gives.pure (Gives.pure ⟨hu₁.trans (errorCode_unchanged _ _ _), ?_, ?_⟩))))
    · exact Or.inl (errorCode_neg .sys .errno w₂)
    · exact fun hw _ => absurd (hu.later.calm hw) hinfo
  | some info =>
    exact Gives.pure (Gives.pure (Gives.pure ⟨hu₁, Or.inr ⟨_, rfl, hinfo⟩, fun _ _ => lt_irrefl 0⟩))

/-- The text of the record, as it is read. -/
theorem IsText.record {junk : UInt32} {text : Bytes} (h : IsText (serialise (recordEntries env.Z junk D ALL)) text) :
    parse text = (0, recordEntries env.Z junk D ALL) := by
  rw [h.eq_self (not_mem_zero_recordEntries env.Z junk D ALL), parse_recordEntries]

theorem list_answered (h : Stored env path D w.fs) (blen : ℕ) (separator : UInt8) :
    Gives ((Question.list blen separator).ask env path) w (Answered env D (.list blen separator) w) := by
  obtain ⟨junk, hR⟩ := h.record
  refine Gives.bind (Gives.bind ((getFileContents_mapped (env.getRealPath path) w).mono ?_))
  rintro ⟨rc, text⟩ w' ⟨hu, ⟨hneg, hno⟩ | ⟨hrc, -, F, hF, htext, -⟩⟩
  · refine Gives.ite (fun _ => Gives.pure (Gives.pure ⟨hu, Or.inl rfl, fun hw hoss => ?_⟩)) fun h0 => absurd hneg ?_
    · rw [hno hw hoss] at hR
      cases hR
    · rw [not_not.1 h0]
      exact lt_irrefl 0
  · refine Gives.ite (fun hne => absurd hrc hne) fun _ => ?_
    obtain rfl := Option.some.inj (hF.symm.trans hR)
    dsimp only at htext ⊢
    rw [htext.record]
    refine Gives.ite (fun hne => absurd rfl hne) fun _ =>
      Gives.pure (Gives.pure ⟨hu, Or.inr ?_, fun _ _ => by simp [Response.Failed]⟩)
    rw [Question.Truth, recordEntries_all, List.map_map]
    have hnames : digestNames.map (Prod.fst ∘ fun e => (e.1, entryText env.Z junk D e.2)) = digestNames.map Prod.fst := rfl
    rw [hnames]
    generalize List.intercalate [separator] (digestNames.map Prod.fst) = names
    refine congrArg some ?_
    split
    · rfl
    · rw [List.take_length, List.take_of_length_le (by omega)]

/-- **What the record answers to `Get`**: the digest of the data. -/
theorem answer_right {junk : UInt32} {text : Bytes} (h : IsText (serialise (recordEntries env.Z junk D ALL)) text)
    {cks : XrdCksData} {d : Bytes × ℕ} (hd : d ∈ valueDigests) (hname : strcaseeq (requestedChecksum cks) d.1) :
    (answer env cks text).rc = 0 ∧ Right env.Z d.2 D (answer env cks text).cks := by
  have hvalue : ∀ d ∈ valueDigests, d ∈ digestNames ∧ entryText env.Z junk D d.2 = human_readable_evp (digestOf env.Z d.2 D) ∧
      1 ≤ (digestOf env.Z d.2 D).length ∧ (digestOf env.Z d.2 D).length ≤ 16 := by
    simp only [List.forall_mem_cons, List.not_mem_nil, false_imp_iff, implies_true, and_true]
    refine ⟨⟨by decide, rfl, ?_⟩, by decide, rfl, ?_⟩
    · simp [digestOf, env.Z.length_md5]
    · simp [digestOf]
  obtain ⟨hmem, htext, hpos, hle⟩ := hvalue d hd
  have hlast : lastValue (parse text).2 (requestedChecksum cks) = human_readable_evp (digestOf env.Z d.2 D) := by
    rw [h.record, lastValue_congr hname, lastValue_recordEntries junk D hmem, htext]
  have hlen := length_human_readable_evp (digestOf env.Z d.2 D)
  have hne : human_readable_evp (digestOf env.Z d.2 D) ≠ [] := by
    rw [← List.length_pos_iff, hlen]
    omega
  have h64 : ValuSize = 64 := rfl
  unfold answer
  rw [hlast, h.record]
  dsimp only
  rw [if_neg (by simp [hne]), if_neg (by omega)]
  obtain ⟨hL, hV⟩ := env.cks.set_hex cks _ _ (unhex_human_readable_evp (digestOf env.Z d.2 D)) (by omega)
  exact ⟨rfl, hL, by rw [hL, hV]⟩

/-- `Get` of a digest with a value. -/
theorem get_stored (h : Stored env path D w.fs) {cks : XrdCksData} {d : Bytes × ℕ} (hd : d ∈ valueDigests)
    (hname : strcaseeq (requestedChecksum cks) d.1) {out : GetOut} {w' : World}
    (hget : GetDoesAt env (env.recordFile (env.getRealPath path)) (resolve (env.getRealPath (env.getRealPath path))) cks w
      out w') :
    Unchanged w w' ∧ (out.rc < 0 ∨ out.rc = 0 ∧ Right env.Z d.2 D out.cks) ∧ (w.Calm → env.g_hdfs_oss → out.rc = 0) := by
  obtain ⟨junk, hR⟩ := h.record
  rcases hget with ⟨hneg, -, hu, hno⟩ | ⟨-, F, text, hF, htext, -, rfl, hkeep, -⟩
  · refine ⟨hu, Or.inl hneg, fun hw hoss => ?_⟩
    rw [hno hw hoss] at hR
    cases hR
  · obtain rfl := Option.some.inj (hF.symm.trans hR)
    obtain ⟨h0, hright⟩ := answer_right htext hd hname
    exact ⟨hkeep fun hl => (answer_eq_zero h0).2.1 hl.2, Or.inr ⟨h0, hright⟩, fun _ _ => h0⟩

theorem get_answered (h : Stored env path D w.fs) {cks : XrdCksData} (hcks : (Question.get cks).Proper) :
    Gives ((Question.get cks).ask env path) w (Answered env D (.get cks) w) := by
  refine Gives.bind ((get_mapped (env.getRealPath path) cks w).mono ?_)
  intro out w' hget
  obtain ⟨d, hd, hname⟩ := hcks
  obtain ⟨hu, hcase, hcalm⟩ := get_stored h hd hname hget
  refine Gives.pure ⟨hu, ?_, fun hw hoss => (hcalm hw hoss).not_lt⟩
  rcases hcase with hneg | ⟨h0, -⟩
  · exact Or.inl hneg
  · refine Or.inr fun d' hd' hname' => ?_
    obtain ⟨-, hcase', -⟩ := get_stored h hd' hname' hget
    rcases hcase' with hneg | ⟨-, hright⟩
    · omega
    · exact hright

theorem ver_answered (h : Stored env path D w.fs) {cks : XrdCksData} (hcks : (Question.ver cks).Proper) :
    Gives ((Question.ver cks).ask env path) w (Answered env D (.ver cks) w) := by
  refine Gives.bind ((ver_mapped (env.getRealPath path) cks w).mono ?_)
  rintro rc w' ⟨out, hget, rfl⟩
  obtain ⟨hu, hcase, hcalm⟩ := get_stored h (d := (str "ADLER32", ADLER32)) (by simp) (by decide) hget
  rcases hcase with hneg | ⟨h0, hright⟩
  · rw [if_pos hneg.ne]
    exact Gives.pure ⟨hu, Or.inl (by norm_num [Response.Failed]), fun hw hoss => absurd (hcalm hw hoss) hneg.ne⟩
  · rw [if_neg (not_not.2 h0), compareValue]
    obtain ⟨hlen, hvalue⟩ := hright
    have hcks' : cks.Length = 4 := hcks
    have h4 : (digestOf env.Z ADLER32 D).length = 4 := rfl
    rw [hcks', ← h4, ← hlen, hvalue]
    refine Gives.pure ⟨hu, Or.inr ?_, fun _ _ => ?_⟩
    · rw [Question.Truth, Right, hcks', h4, hlen, h4]
      simp [eq_comm]
    · rw [Response.Failed]
      split <;> norm_num

/-- **A question about a stored file.** -/
theorem ask_answered (h : Stored env path D w.fs) (q : Question) (hq : q.Proper) :
    Gives (q.ask env path) w (Answered env D q w) := by
  cases q with
  | download blen => exact download_answered h.file hq.1 hq.2
  | stat m_cmsd_fs client => exact stat_answered h.file m_cmsd_fs client
  | get cks => exact get_answered h hq
  | list blen separator => exact list_answered h blen separator
  | ver cks => exact ver_answered h hq

/-- What happens elsewhere. -/
theorem Stored.meanwhile (h : Stored env path D w.fs) (v : Visit env path) : Stored env path D (v.meanwhile w).fs := by
  obtain ⟨hfile, junk, hrecord⟩ := h
  exact ⟨(v.file w).trans hfile, junk, (v.record w).trans hrecord⟩

/-- **Any number of visits.** -/
theorem visits_answered (vs : List (Visit env path)) {w : World} (h : Stored env path D w.fs) :
    Gives (visits vs) w fun ts w' => Stored env path D w'.fs ∧
      List.Forall₂ (fun v t => t.Failed ∨ v.question.Truth env.Z D t) vs ts ∧
      (w.Calm → (∀ v ∈ vs, ∀ w, w.Calm → (v.meanwhile w).Calm) → env.g_hdfs_oss → ∀ t ∈ ts, ¬ t.Failed) := by
  induction vs generalizing w with
  | nil => exact Gives.pure ⟨h, .nil, by simp⟩
  | cons v vs ih =>
    have h' := h.meanwhile v
    refine Gives.bind (Gives.step (Gives.bind ((ask_answered h' v.question v.proper).mono ?_)))
    rintro t w₁ ⟨hu, htruth, hknown⟩
    refine Gives.bind ((ih (by rwa [hu.fs])).mono ?_)
    rintro ts w₂ ⟨hstored, htruths, hknowns⟩
    refine Gives.pure ⟨hstored, .cons htruth htruths, fun hw hcalm hoss => ?_⟩
    rw [List.forall_mem_cons] at hcalm
    have hw' := hcalm.1 w hw
    exact List.forall_mem_cons.2 ⟨hknown hw' hoss, hknowns (hu.later.calm hw') hcalm.2 hoss⟩

end Answers

/-! ### From one end to the other -/

/-- What three clients ask; before the last, the answers of `hdfsGetPathInfo` begin to fail. -/
def threeVisits : List (Visit Reference.env (str "/a")) :=
  [{ question := .download 2, proper := ⟨by decide, by decide⟩ },
    { question := .get { Name := str "md5" }, proper := ⟨_, List.mem_cons_self, by decide⟩ },
    { question := .stat true true, proper := trivial,
      meanwhile := fun w => { w with script := Function.update w.script .getPathInfo [.fail EIO] } }]

example : ((do
    let _ ← upload ({ oid := 0 } : File Reference.env) (str "/a") O_WRONLY [(str "ab", 0), (str "c", 2)]
    let ts ← visits threeVisits
    pure (ts.map fun t => decide t.Failed) : Prog World (List Bool)).run 9 { fs := .empty }).map (·.1) =
    some [false, false, true] := by
  decide +kernel

end XrdHdfs
