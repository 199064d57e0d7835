import XrdHdfs.FileSpec
import XrdHdfs.Reference
import XrdHdfs.Manager

/-!
# Reading a file from start to end, and writing a record

`GetFileContents` and `Calc` read a file in the same way, `scanFile`; `SetMultiple` writes a record.  The two
lemmas `scan_spec` and `setMultiple_spec` hold over every script: however the reads are
cut and interrupted, a loop that does not fail has read the whole file, and whatever goes wrong in `SetMultiple`,
nothing changes but the record, which holds the start of the text.

Without a Name2Name library the record of `pfn` is at `recordPath pfn`.
-/

namespace XrdHdfs

open Lib World

variable {env : Env}

/-! ### Where the record is -/

/-- The path of the record of `pfn`. -/
def recordPath (pfn : Bytes) : HPath := str "cksums" :: resolve pfn

theorem resolve_getChecksumFilename (pfn : Bytes) : resolve (getChecksumFilename pfn) = recordPath pfn := by
  have h : getChecksumFilename pfn = 47 :: 99 :: 107 :: 115 :: 117 :: 109 :: 115 :: 47 :: pfn := rfl
  unfold resolve recordPath
  rw [h]
  simp [List.splitOn, List.splitOnP_cons_eq_if_modifyHead, resolve]
  rfl

theorem inCksums_getChecksumFilename (pfn : Bytes) : inCksums (getChecksumFilename pfn) = true := rfl

theorem getRealPath_eq (hN : env.the_N2N = none) (path : Bytes) : env.getRealPath path = path := by
  simp [Env.getRealPath, hN]

/-! ### Reading a file from start to end -/

section Scan

variable {α : Type}

/-- A turn of a loop that reads a file from the start, at most `blen` bytes at a time. -/
def scanTurn (blen : ℕ) (g : α → Bytes → α) :
    File env × α × ℕ → Prog World ((File env × α × ℕ) ⊕ (ℤ × α × File env))
  | (fh, acc, offset) => do
    let (out, fh) ← fh.read offset blen
    if out.ret = -EINTR then pure (.inl (fh, acc, offset))
    else if 0 < out.ret then pure (.inl (fh, g acc (out.data.take out.ret.toNat), offset + out.ret.toNat))
    else pure (.inr (out.ret, acc, fh))

/-- A `Read` inside the file that does not fail takes the next bytes of it, and none only at the end. -/
theorem Readbuf.ReadOk.next {F : Bytes} {size offset blen : ℕ} {out : ReadOut}
    (h : Readbuf.ReadOk F size offset blen out) (hret : 0 ≤ out.ret) (hpos : 0 < blen) (hblen : blen < 2 ^ 31)
    (ho : offset ≤ F.length) :
    ∃ n : ℕ, out.ret = n ∧ out.data.take n = slice F offset n ∧ n ≤ blen ∧ offset + n ≤ F.length ∧
      (n = 0 → offset = F.length) ∧ (blen ≤ size → n = min blen (F.length - offset)) := by
  obtain ⟨hbuf, hby⟩ := h hret
  rw [Int.toNat_natCast] at hbuf hby
  rcases Nat.lt_or_ge size blen with hlt | hle
  · obtain ⟨-, hlen, hmax, hdata, hend⟩ := hby hlt
    rw [s32_of_lt (by omega) (by omega)] at hmax hend
    have hin := congrArg List.length hdata
    rw [length_slice] at hin
    refine ⟨out.data.length, hlen.symm, by rw [List.take_length, ← hdata], by omega, by omega, fun h0 => ?_, by omega⟩
    rcases hend (by omega) with h | h <;> omega
  · obtain ⟨hlen, hdata⟩ := hbuf hle
    refine ⟨min blen (F.length - offset), by omega, ?_, Nat.min_le_left _ _, by omega, by omega, fun _ => rfl⟩
    rw [slice_min, hdata, List.take_of_length_le (by rw [length_slice])]

/-- **The invariant of the loop.** What was accumulated comes from pieces that make up the file up to the offset.
Where the buffer takes the reads, they are the pieces of length `blen`. -/
structure Scanning (w : World) (f : File env) (F : Bytes) (blen : ℕ) (g : α → Bytes → α) (acc : α)
    (b : File env × α × ℕ) (w' : World) : Prop where
  unchanged : Unchanged w w'
  file : b.1 = { f with readbuf := b.1.readbuf }
  size : b.1.readbuf.size = f.readbuf.size
  holds : b.1.readbuf.BufferHolds F
  offset_le : b.2.2 ≤ F.length
  taken : ∃ bs : List Bytes, b.2.1 = bs.foldl g acc ∧ bs.flatten = F.take b.2.2 ∧ (∀ x ∈ bs, x.length ≤ blen) ∧
    (blen ≤ f.readbuf.size → bs ++ pieces blen (F.drop b.2.2) = pieces blen F)

/-- **Reading a file from start to end.** -/
theorem scan_spec (f : File env) {h : Handle} (hfh : f.fh = some h) (hr : h.writing = false) (w : World) {F : FileContent}
    (hF : w.fs.data h.ino = F) (hb : f.readbuf.BufferHolds F.bytes) {blen : ℕ} (hpos : 0 < blen)
    (hblen : blen < 2 ^ 31) (g : α → Bytes → α) (acc : α) :
    Gives (.loop (scanTurn blen g) (f, acc, 0)) w fun r w' =>
      Unchanged w w' ∧ r.1 ≤ 0 ∧ r.2.2 = { f with readbuf := r.2.2.readbuf } ∧ (w.Calm → r.1 = 0) ∧
      ∃ bs : List Bytes, r.2.1 = bs.foldl g acc ∧ (∀ x ∈ bs, x.length ≤ blen) ∧
        (0 ≤ r.1 → bs.flatten = F.bytes ∧ (blen ≤ f.readbuf.size → bs = pieces blen F.bytes)) := by
  refine Gives.loop (Scanning w f F.bytes blen g acc) (fun b s => s.preads + (F.bytes.length - b.2.2)) ?_ (f, acc, 0) w
    ⟨.refl w, rfl, rfl, hb, Nat.zero_le _, [], rfl, rfl, by simp, by simp⟩
  rintro ⟨fh, acc', offset⟩ w₁ ⟨hu, hfile, hsize, hholds, hle, bs, rfl, hflat, hbs, hpieces⟩
  dsimp only at hfile hsize hholds hle hflat hpieces
  have hF₁ : w₁.fs.data h.ino = F := by rw [hu.fs, hF]
  have hfh' : fh.fh = some h := by rw [hfile, hfh]
  have hlt := F.length_lt
  have hread := File.read_spec fh hfh' hr w₁ (by rw [hF₁]; exact hholds) (by omega : offset < 2 ^ 63) hblen
  rw [hF₁, hsize] at hread
  refine Gives.bind (hread.mono ?_)
  rintro ⟨out, fh'⟩ w₂ ⟨hu', hfile', hsize', hholds', hok, hintr, hcalm⟩
  dsimp only at hfile' hsize' hholds' hok hintr hcalm ⊢
  have hfile₂ : fh' = { f with readbuf := fh'.readbuf } := by
    rw [hfile', hfile]
  refine Gives.ite (fun hret => Gives.pure ?_) fun hni => Gives.ite (fun hret => Gives.pure ?_) fun hret => Gives.pure ?_
  · exact ⟨⟨hu.trans hu', hfile₂, hsize', hholds', hle, bs, rfl, hflat, hbs, hpieces⟩,
      Nat.add_lt_add_right (hintr hret) _⟩
  · obtain ⟨n, hn, hdata, hnle, hin, -, hmin⟩ := hok.next hret.le hpos hblen hle
    have htoNat : out.ret.toNat = n := by omega
    rw [htoNat, hdata]
    refine ⟨⟨hu.trans hu', hfile₂, hsize', hholds', hin, bs ++ [slice F.bytes offset n], by simp, ?_, ?_, fun hs => ?_⟩, ?_⟩
    · rw [List.flatten_append, hflat, List.flatten_singleton]
      exact List.take_add.symm
    · intro x hx
      rcases List.mem_append.1 hx with hx | hx
      · exact hbs x hx
      · obtain rfl := List.mem_singleton.1 hx
        rw [length_slice]
        omega
    · -- the next piece is the one that the buffer gave
      have hne : F.bytes.drop offset ≠ [] := by
        rw [Ne, List.drop_eq_nil_iff]
        omega
      rw [← hpieces hs, pieces_of_ne_nil hpos hne, List.drop_drop, List.append_assoc, List.singleton_append]
      have hcut : slice F.bytes offset n = (F.bytes.drop offset).take blen := by
        rw [hmin hs, slice_min]
        rfl
      have hdrop : F.bytes.drop (offset + n) = F.bytes.drop (offset + blen) := by
        rcases Nat.lt_or_ge (F.bytes.length - offset) blen with hlt' | hge
        · rw [List.drop_of_length_le (by have := hmin hs; omega), List.drop_of_length_le (by omega)]
        · rw [hmin hs, Nat.min_eq_left hge]
      rw [hcut, hdrop]
    · have hp := hu'.later.preads_le
      dsimp only
      omega
  · refine ⟨hu.trans hu', by omega, hfile₂, fun hw => ?_, bs, rfl, hbs, fun h0 => ?_⟩
    · rcases hcalm (hu.later.calm hw) with h0 | h0
      · omega
      · exact absurd h0 hni
    · obtain ⟨n, hn, -, -, -, hend, -⟩ := hok.next h0 hpos hblen hle
      have hoff : offset = F.bytes.length := hend (by omega)
      rw [hoff, List.take_length] at hflat
      rw [hoff, List.drop_length, pieces_nil, List.append_nil] at hpieces
      exact ⟨hflat, hpieces⟩

/-- A file is read from start to end through a new file object: what `GetFileContents` and `Calc` have in common.  The
pieces are put to what `start` makes, `stop` is returned where the file cannot be opened, and `rest` is done at the end. -/
def scanFile {β : Type} (env : Env) (path : Bytes) (blen : ℕ) (start : World → α × World) (g : α → Bytes → α)
    (stop : ℤ → β) (rest : ℤ → α → Prog World β) : Prog World β := do
  match ← .step (newFile env) with
  | none => pure (stop (-ENOMEM))
  | some fh => do
    let (rc, fh) ← fh.openFile path O_RDONLY
    if rc ≠ 0 then pure (stop rc)
    else do
      let acc ← .step start
      let (retval, acc, fh) ← .loop (scanTurn blen g) (fh, acc, 0)
      let (_, fh) ← fh.close
      fh.destroy
      rest retval acc

theorem getFileContents_eq (pfn : Bytes) : ChecksumManager.getFileContents env pfn =
    if !env.g_hdfs_oss then pure (-ENOMEM, [])
    else scanFile env (getChecksumFilename pfn) 4095 (fun w => ([], w)) (fun ss d => ss ++ cstr d) (fun rc => (rc, []))
      fun retval result => if retval < 0 then pure (retval, []) else pure (0, result) := rfl

/-- The `ChecksumState` that `Calc` constructs. -/
def newState (Z : Digests) (digests : ℕ) (w : World) : ChecksumState Z × World :=
  (.new Z w.nextJunk.1 digests, w.nextJunk.2)

theorem calcDigest_eq (pfn : Bytes) (cks : XrdCksData) (do_set : Bool) : ChecksumManager.calcDigest env pfn cks do_set =
    match ChecksumManager.returnDigest cks with
    | none => pure (-ENOTSUP, cks)
    | some digest =>
      if !env.g_hdfs_oss then pure (-ENOMEM, cks)
      else scanFile env pfn 262144 (newState env.Z ((if do_set then ALL else 0) ||| digest)) ChecksumState.update
        (fun rc => (rc, cks)) (fun retval state =>
          if retval < 0 then pure (- EIO, cks)
          else do
            let _ ← setState env pfn state.finalize
            if state.finalize.get digest = [] then pure (- EIO, cks)
            else pure (0, env.cks.Set cks (state.finalize.get digest))) := rfl

end Scan

/-! ### The text of a record -/

/-- What `GetFileContents` may make of a file: the file in pieces, each cut off at its first NUL. -/
def IsText (F text : Bytes) : Prop := ∃ bs : List Bytes, bs.flatten = F ∧ text = bs.flatMap cstr

/-- What `GetFileContents` makes of a file when it reads through the buffer. -/
def readText (F : Bytes) : Bytes := (pieces 4095 F).flatMap cstr

theorem isText_readText (F : Bytes) : IsText F (readText F) := ⟨pieces 4095 F, flatten_pieces (by norm_num), rfl⟩

/-- A file without NULs is its own text. -/
theorem IsText.eq_self {F text : Bytes} (h : IsText F text) (h0 : 0 ∉ F) : text = F := by
  obtain ⟨bs, rfl, rfl⟩ := h
  have hmap : bs.map cstr = bs.map id :=
    List.map_congr_left fun b hb => cstr_eq_self fun hc => h0 (List.mem_flatten.2 ⟨b, hb, hc⟩)
  rw [List.flatMap_def, hmap, List.map_id]

theorem foldl_cstr (bs : List Bytes) (ss : Bytes) :
    bs.foldl (fun ss d => ss ++ cstr d) ss = ss ++ bs.flatMap cstr := by
  induction bs generalizing ss with
  | nil => simp
  | cons b bs ih => rw [List.foldl_cons, ih, List.flatMap_cons, List.append_assoc]

/-- The name under which HDFS is asked for the record of `pfn`. -/
def Env.recordName (env : Env) (pfn : Bytes) : Bytes := env.getRealPath (getChecksumFilename pfn)

/-- The file that is opened as the record of `pfn`, whatever the Name2Name library. -/
def Env.recordFile (env : Env) (pfn : Bytes) : HPath := resolve (env.getRealPath (getChecksumFilename pfn))

theorem recordFile_eq (hN : env.the_N2N = none) (pfn : Bytes) : env.recordFile pfn = recordPath pfn := by
  rw [Env.recordFile, getRealPath_eq hN, resolve_getChecksumFilename]

/-! ### Writing a record -/

/-- **A turn of the loop of `SetMultiple`** puts the next bytes of the text at the end of the file, and goes on only if
there were some.  When it leaves after a `Write` that took some, or without faults where they fit, the text is complete. -/
theorem writeTurn_appends {fh : File env} {i offset : ℕ} (hfh : fh.fh = some ⟨i, true⟩) (hst : fh.m_state = none)
    (hoff : fh.m_nextoff = offset) {text : Bytes} (hle : offset ≤ text.length) (w : World) :
    Gives (writeTurn text (fh, offset)) w fun r w' => Later w w' ∧ ∃ n, offset + n ≤ text.length ∧
      (w.fs.append i ((text.drop offset).take n) = some w'.fs ∨ n = 0 ∧ w'.fs = w.fs) ∧
      Sum.elim
        (fun b => b.1.fh = some ⟨i, true⟩ ∧ b.1.m_state = none ∧ b.1.m_nextoff = b.2 ∧ b.2 = offset + n ∧ 0 < n)
        (fun r => r.2.m_state = none ∧ (0 < r.1 → offset + n = text.length) ∧
          (w.Calm → text.length < 2 ^ 31 → (offset + n = text.length ∧ 0 ≤ r.1) ∨
            ∃ m, offset + m ≤ text.length ∧ w.fs.append i ((text.drop offset).take m) = none)) r := by
  unfold writeTurn
  refine Gives.bind ((File.write_spec fh hfh rfl (text.drop offset) offset w).mono ?_)
  rintro ⟨retval, fh'⟩ w₂ (⟨hne, -, -, -⟩ | ⟨-, hl₂, -, ⟨n, hn, -, happ, heq, hcalm⟩ | ⟨hfs, heq, hcalm⟩⟩)
  · exact absurd hoff.symm hne
  · simp only [Prod.mk.injEq] at heq
    obtain ⟨rfl, rfl⟩ := heq
    rw [List.length_drop] at hn
    have hnext : (if 0 < (n : ℤ) then offset + (n : ℤ).toNat else offset) = offset + n := by
      split <;> omega
    refine Gives.ite (fun h => absurd h (by norm_num; omega)) fun _ => ?_
    rw [hnext]
    refine Gives.ite (fun hgo => Gives.pure ?_) fun hstop => Gives.pure ?_
    · exact ⟨hl₂, n, by omega, Or.inl happ, hfh, by simp [hst], by simp [hoff], rfl, by omega⟩
    · refine ⟨hl₂, n, by omega, Or.inl happ, by simp [hst], fun hpos => ?_, fun hw hlen => Or.inl ⟨?_, by simp⟩⟩
      · by_contra hlt
        exact hstop ⟨hpos, by omega⟩
      · by_contra hlt
        have hpos := hcalm hw (by rw [Ne, List.drop_eq_nil_iff]; omega) (by rw [List.length_drop]; omega)
        exact hstop ⟨by omega, by omega⟩
  · simp only [Prod.mk.injEq] at heq
    obtain ⟨rfl, rfl⟩ := heq
    refine Gives.ite (fun h => absurd h (by norm_num)) fun _ => Gives.ite (fun h => absurd h.1 (by norm_num))
      fun _ => Gives.pure ?_
    refine ⟨hl₂, 0, by omega, Or.inr ⟨rfl, hfs⟩, by simp [hst], fun h => absurd h (by norm_num), fun hw hlen => Or.inr ?_⟩
    obtain ⟨m, hm, hnone⟩ := hcalm hw (by rw [List.length_drop]; omega)
    rw [List.length_drop] at hm
    exact ⟨m, by omega, hnone⟩

/-- What the loop of `SetMultiple` keeps: the record holds the text up to the offset. -/
structure Recording (w : World) (p : HPath) (text : Bytes) (b : File env × ℕ) (w' : World) : Prop where
  later : Later w w'
  fh : b.1.fh = some ⟨w.fs.next, true⟩
  state : b.1.m_state = none
  nextoff : b.1.m_nextoff = b.2
  offset_le : b.2 ≤ text.length
  put : w.fs.Put p (text.take b.2) w'.fs

/-- What it leaves behind: the start of the text, and without faults all of it. -/
def Recorded (w : World) (p : HPath) (text : Bytes) (r : ℤ × File env) (w' : World) : Prop :=
  Later w w' ∧ r.2.m_state = none ∧ ∃ t, t <+: text ∧ w.fs.Put p t w'.fs ∧
    (w.Calm → text.length < 2 ^ 31 → t = text ∧ 0 ≤ r.1)

/-- A turn of the loop of `SetMultiple`. -/
theorem writeTurn_spec {w : World} {p : HPath} {text : Bytes} (b : File env × ℕ) (w₁ : World)
    (hr : Recording w p text b w₁) :
    Gives (writeTurn text b) w₁ fun r w' => Sum.elim
      (fun b' => Recording w p text b' w' ∧ text.length - b'.2 < text.length - b.2)
      (fun r => Recorded w p text r w') r := by
  obtain ⟨fh, offset⟩ := b
  obtain ⟨hl, hfh, hst, hoff, hle, hput⟩ := hr
  dsimp only at hfh hst hoff hle hput
  refine (writeTurn_appends hfh hst hoff hle w₁).mono ?_
  rintro r w₂ ⟨hl₂, n, hn, happ, hcase⟩
  -- the bytes taken lengthen the record
  have hput' : w.fs.Put p (text.take (offset + n)) w₂.fs := by
    rcases happ with happ | ⟨rfl, hfs⟩
    · have := hput.append happ
      rwa [← List.take_add] at this
    · rwa [hfs]
  rcases r with ⟨fh', offset'⟩ | ⟨retval, fh'⟩
  · obtain ⟨hfh', hst', hoff', rfl, hpos⟩ := hcase
    refine ⟨⟨hl.trans hl₂, hfh', hst', hoff', hn, hput'⟩, ?_⟩
    dsimp only at hn ⊢
    omega
  · obtain ⟨hst', -, hcalm⟩ := hcase
    refine ⟨hl.trans hl₂, hst', _, List.take_prefix _ _, hput', fun hw hlen => ?_⟩
    rcases hcalm (hl.calm hw) hlen with ⟨hall, hret⟩ | ⟨m, hm, hnone⟩
    · exact ⟨List.take_of_length_le hall.ge, hret⟩
    · have hbig := Fs.append_eq_none hnone
      rw [hput.data] at hbig
      simp only [List.length_take, List.length_drop] at hbig
      omega

/-- **`SetMultiple`** writes the start of the text to the record, or fails and changes nothing.  Without faults
it writes all of the text where the record can be created. -/
theorem setMultiple_mapped (pfn : Bytes) (hck : inCksums (env.getRealPath (getChecksumFilename pfn)))
    (values : ChecksumValues) (w : World) :
    Gives (setMultiple env pfn values) w fun rc w' => Later w w' ∧
      ((rc < 0 ∧ w'.fs = w.fs ∧ (w.Calm → w.fs.create (env.recordFile pfn) = none)) ∨
        (rc ≤ 0 ∧ ∃ t, t <+: serialise values ∧ w.fs.Put (env.recordFile pfn) t w'.fs ∧
          (w.Calm → (serialise values).length < 2 ^ 31 → t = serialise values ∧ rc = 0))) := by
  unfold setMultiple setMultipleWith
  obtain ⟨hu₁, hnew, hsome⟩ := @newFile_spec env w
  refine Gives.bind (Gives.step ?_)
  generalize newFile env w = r at hu₁ hnew hsome
  obtain ⟨o, w₁⟩ := r
  dsimp only at hu₁ hnew hsome ⊢
  cases o with
  | none => exact Gives.pure ⟨hu₁.later, Or.inl ⟨by norm_num, hu₁.fs, fun hw => absurd rfl (hsome hw)⟩⟩
  | some fh =>
  obtain rfl := hnew fh rfl
  have hopen := File.openFile_spec ({ oid := w.objects } : File env) rfl (getChecksumFilename pfn) O_WRONLY w₁
  rw [hu₁.fs] at hopen
  refine Gives.bind (hopen.mono ?_)
  rintro ⟨rc, fh⟩ w₂ (⟨hrc, hu₂, hno⟩ | ⟨hrc, hl₂, h, hopened, hat, -⟩)
  · dsimp only at hrc ⊢
    refine Gives.ite (fun _ => Gives.pure ⟨hu₁.later.trans hu₂.later, Or.inl ⟨hrc, hu₂.fs.trans hu₁.fs, fun hw => ?_⟩⟩)
      fun h0 => absurd h0 (by omega)
    exact hno (hu₁.later.calm hw)
  dsimp only at hrc hopened ⊢
  subst hrc
  refine Gives.ite (fun h => absurd rfl h) fun _ => ?_
  have hcreate : w.fs.create (env.recordFile pfn) = some (h.ino, w₂.fs) := hat
  have hst : fh.m_state = none := by
    have := hopened.state
    rwa [if_neg (by simp [hck])] at this
  have hh : h = ⟨w.fs.next, true⟩ := by
    have hino := (Fs.create_eq_some hcreate).1
    have hkind : h.writing = true := hopened.kind
    rw [← hino, ← hkind]
  have hinit : Recording w (env.recordFile pfn) (serialise values) (fh, 0) w₂ :=
    ⟨hu₁.later.trans hl₂, by rw [← hh]; exact hopened.fh, hst, hopened.nextoff, Nat.zero_le _,
      by rw [List.take_zero]; exact Fs.Put.of_create hcreate⟩
  refine Gives.bind ((Gives.loop _ (fun b _ => (serialise values).length - b.2) writeTurn_spec (fh, 0) w₂ hinit).mono ?_)
  rintro ⟨retval, fh'⟩ w₃ ⟨hl₃, hst', t, ht, hput, hcalm⟩
  dsimp only at hst' hcalm ⊢
  refine Gives.bind ((File.close_spec fh' hst' w₃).mono ?_)
  rintro ⟨_, fh''⟩ w₄ ⟨hu₄, -, -⟩
  refine Gives.bind ((File.destroy_spec fh'' w₄).mono ?_)
  intro _ w₅ hu₅
  have hfs : w₅.fs = w₃.fs := (hu₄.trans hu₅).fs
  refine Gives.pure ⟨hl₃.trans (hu₄.trans hu₅).later, Or.inr ⟨by split <;> omega, t, ht, by rw [hfs]; exact hput, ?_⟩⟩
  intro hw hlen
  obtain ⟨rfl, hnn⟩ := hcalm hw hlen
  exact ⟨rfl, if_neg (by omega)⟩

theorem setMultiple_spec (hN : env.the_N2N = none) (pfn : Bytes) (values : ChecksumValues) (w : World) :
    Gives (setMultiple env pfn values) w fun rc w' => Later w w' ∧
      ((rc < 0 ∧ w'.fs = w.fs ∧ (w.Calm → w.fs.create (recordPath pfn) = none)) ∨
        (rc ≤ 0 ∧ ∃ t, t <+: serialise values ∧ w.fs.Put (recordPath pfn) t w'.fs ∧
          (w.Calm → (serialise values).length < 2 ^ 31 → t = serialise values ∧ rc = 0))) := by
  rw [← recordFile_eq hN pfn]
  exact setMultiple_mapped pfn (by rw [getRealPath_eq hN, inCksums_getChecksumFilename]) values w

end XrdHdfs
