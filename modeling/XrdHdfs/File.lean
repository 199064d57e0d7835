import XrdHdfs.ChecksumState
import XrdHdfs.LibHdfs
import XrdHdfs.Record

/-!
# `XrdHdfsFile`, and how it records checksums

The file object with its `Open`, `Read`, `Write` and `Close`, and the part of `ChecksumManager` that `Close`
calls: `Set` of a checksum state and `SetMultiple`, which in turn opens, writes and closes a file object.  That
recursion is `Prog.fix closeBody`.

`Env` holds what does not change while the plugin runs: the hash libraries, XRootD's `XrdCksData`, the
Name2Name library, whether `g_hdfs_oss` is set, and what freshly allocated memory holds.
-/

namespace XrdHdfs

open Lib

/-! ### The environment -/

/-- `XrdCksData`: a digest's name and its value. -/
structure XrdCksData where
  Name : Bytes := []
  Value : Bytes := List.replicate 64 0
  Length : ℕ := 0
  deriving DecidableEq

abbrev NameSize : ℕ := 16
abbrev ValuSize : ℕ := 64

/-- XRootD's conversions between a value and its text.  `Set` decodes hex that fits the value and leaves the rest of
the array as it was; of what it does with any other text nothing is known, except that it leaves the name alone. -/
structure CksLib where
  Set : XrdCksData → Bytes → XrdCksData
  Get : XrdCksData → Bytes
  name_set : ∀ c v, (Set c v).Name = c.Name
  set_hex : ∀ c v x, unhex v = some x → x.length ≤ ValuSize → (Set c v).Length = x.length ∧ (Set c v).Value.take x.length = x
  set_rest : ∀ c v x, unhex v = some x → x.length ≤ ValuSize → (Set c v).Value.drop x.length = c.Value.drop x.length
  get_hex : ∀ c, Get c = human_readable_evp (c.Value.take c.Length)

structure Env where
  Z : Digests
  cks : CksLib
  the_N2N : Option (Bytes → Option Bytes) := none
  g_hdfs_oss : Bool := true
  heap : ℤ → UInt8 := fun _ => 0

variable {env : Env}

/-- `XrdHdfsSys::GetRealPath`: the mapped path, or the path itself where there is no mapping for it. -/
def Env.getRealPath (env : Env) (path : Bytes) : Bytes :=
  match env.the_N2N with
  | some lfn2pfn => (lfn2pfn path).getD path
  | none => path

/-! ### Flags -/

abbrev O_RDONLY : ℕ := 0
abbrev O_WRONLY : ℕ := 1
abbrev O_RDWR : ℕ := 2
abbrev O_TRUNC : ℕ := 0x200

/-- The flags `Open` passes to `hdfsOpenFile`. -/
def openFlag (openMode : ℕ) : ℕ :=
  if openMode &&& O_TRUNC ≠ 0 then O_TRUNC ||| O_WRONLY
  else if openMode &&& 3 = O_RDONLY then O_RDONLY
  else if openMode &&& 3 = O_WRONLY then O_WRONLY
  else if openMode &&& 3 = O_RDWR then O_WRONLY
  else O_RDONLY

/-- The file is opened for writing. -/
def writing (openMode : ℕ) : Bool := openFlag openMode &&& O_WRONLY ≠ 0

/-- `!strncmp("/cksums", fname, 7)`. -/
def inCksums (fname : Bytes) : Bool := fname.take 7 == str "/cksums"

/-! ### Steps of the world -/

namespace World

/-- `malloc`: `none` for `NULL`. -/
def malloc (env : Env) (w : World) : Option (ℤ → UInt8) × World :=
  let (a, w) := w.take .malloc
  (if a.error.isSome then none else some env.heap, w)

/-- What is in the memory a `ChecksumState` is constructed in. -/
def nextJunk (w : World) : UInt32 × World := (w.junk 0, { w with junk := fun n => w.junk (n + 1) })

def note (oid : ℕ) (e : ObjEvent) (w : World) : Unit × World := ((), { w with ledger := w.ledger ++ [(oid, e)] })

end World

/-! ### The file object -/

structure File (env : Env) where
  oid : ℕ
  fh : Option Handle := none
  fname : Option Bytes := none
  m_nextoff : ℤ := 0
  readbuf : Readbuf := {}
  m_state : Option (ChecksumState env.Z) := none

/-- `g_hdfs_oss->newFile`: a new object with the next number, or `NULL`. -/
def newFile (env : Env) (w : World) : Option (File env) × World :=
  let (a, w) := w.take .newFile
  if a.error.isSome then (none, w)
  else (some { oid := w.objects },
    { w with objects := w.objects + 1, ledger := w.ledger ++ [(w.objects, .created)] })

/-- The part of `Close` that frees the buffer. -/
def Readbuf.free (rb : Readbuf) : Readbuf :=
  if rb.mem.isSome then { rb with mem := none, size := 0, offset := 0, len := 0, alloc := rfl } else rb

namespace File

/-- What `Open` answers when `hdfsOpenFile` failed. -/
def openError (fname : Bytes) (w : World) : ℤ × World :=
  match hdfsGetPathInfo fname w with
  | (some fileInfo, w) => (if fileInfo.mKind = .directory then -EISDIR else -EEXIST, w)
  | (none, w) => (-ENOENT, w)

/-- `XrdHdfsFile::Open`. -/
def openFile (f : File env) (path : Bytes) (openMode : ℕ) : Prog World (ℤ × File env) :=
  if f.fh.isSome then pure (-EINVAL, f)
  else do
    let fname := env.getRealPath path
    let mem ← .step (if f.readbuf.mem.isSome then fun w => (none, w) else World.malloc env)
    let f := { f with fname := some fname, readbuf := f.readbuf.openReadbuf mem }
    let connected ← .step hadoopConnect
    if connected ≠ 0 then do
      let err ← .step (World.errorCode (.file f.oid) (.fixed EIO))
      pure (err, f)
    else do
      match ← .step (hdfsOpenFile fname (writing openMode)) with
      | none => do
        let err ← .step (openError fname)
        pure (err, f)
      | some h => do
        .step (World.note f.oid (.opened fname (writing openMode) (writing openMode && !inCksums fname)))
        if writing openMode ∧ !inCksums fname then do
          let junk ← .step World.nextJunk
          pure (0, { f with fh := some h, m_state := some (.new env.Z junk ALL) })
        else pure (0, { f with fh := some h })

/-- A `Read` that fails has called `Emsg`. -/
def readReport (oid : ℕ) (out : ReadOut) (w : World) : Unit × World :=
  ((), if out.ret < 0 then (World.errorCode (.file oid) .errno w).2 else w)

/-- `XrdHdfsFile::Read`. -/
def read (f : File env) (offset : ℤ) (blen : ℕ) : Prog World (ReadOut × File env) := do
  let (out, rb) ← f.readbuf.read (hdfsPread f.fh) offset blen
  .step (readReport f.oid out)
  pure (out, { f with readbuf := rb })

/-- `XrdHdfsFile::Write`. -/
def write (f : File env) (buff : Bytes) (offset : ℤ) : Prog World (ℤ × File env) :=
  if offset ≠ f.m_nextoff then do
    let err ← .step (World.errorCode (.file f.oid) (.fixed ENOTSUP))
    pure (err, f)
  else do
    let result ← .step (hdfsWrite f.fh buff)
    pure (result, { f with
      m_nextoff := if 0 ≤ result then f.m_nextoff + result else f.m_nextoff
      m_state := f.m_state.map fun st => st.update buff })

/-- The part of `Close` that closes the HDFS file. -/
def closeHandle (f : File env) (w : World) : ℤ × World :=
  match f.fh with
  | none => (0, w)
  | some h =>
    let (r, w) := hdfsCloseFile h w
    if r ≠ 0 then World.errorCode (.file f.oid) .errno w else (0, w)

/-- The object that `Close` leaves behind. -/
def closed (f : File env) : File env :=
  { f with fh := none, fname := none, readbuf := f.readbuf.free, m_state := none }

/-- `delete fh`. -/
def destroy (f : File env) : Prog World Unit := .step (World.note f.oid .deleted)

end File

/-! ### Recording checksums -/

/-- `ChecksumManager::GetChecksumFilename`. -/
def getChecksumFilename (pfn : Bytes) : Bytes := str "/cksums/" ++ pfn

/-- The turn of the loop of `SetMultiple`: one `Write` of what is left of the text. -/
def writeTurn (text : Bytes) : File env × ℕ → Prog World ((File env × ℕ) ⊕ (ℤ × File env))
  | (fh, offset) => do
    let (retval, fh) ← fh.write (text.drop offset) offset
    if retval = -EINTR then pure (.inl (fh, offset))
    else
      let offset := if 0 < retval then offset + retval.toNat else offset
      if 0 < retval ∧ offset < text.length then pure (.inl (fh, offset)) else pure (.inr (retval, fh))

/-- `ChecksumManager::SetMultiple`, with the `Close` of the file object. -/
def setMultipleWith (close : File env → Prog World (ℤ × File env)) (pfn : Bytes) (values : ChecksumValues) :
    Prog World ℤ := do
  let text := serialise values
  match ← .step (newFile env) with
  | none => pure (-ENOMEM)
  | some fh => do
    let (rc, fh) ← fh.openFile (getChecksumFilename pfn) O_WRONLY
    if rc ≠ 0 then pure rc
    else do
      let (retval, fh) ← .loop (writeTurn text) (fh, 0)
      let (_, fh) ← close fh
      fh.destroy
      pure (if retval < 0 then retval else 0)

/-- The entries of `ChecksumManager::Set(pfn, state)`, in its order; a digest without a text is left out. -/
def stateValues {Z : Digests} (state : ChecksumState Z) : ChecksumValues :=
  [(str "CKSUM", state.get CKSUM), (str "ADLER32", state.get ADLER32), (str "CRC32", state.get CRC32),
    (str "MD5", state.get MD5), (str "CVMFS", state.get CVMFS)].filter fun e => e.2 ≠ []

/-- The body of `XrdHdfsFile::Close`, with the `Close` of the record's file object. -/
def closeBody (close : File env → Prog World (ℤ × File env)) (f : File env) : Prog World (ℤ × File env) := do
  let ret ← .step f.closeHandle
  .step (World.note f.oid .closed)
  match f.m_state with
  | none => pure (ret, f.closed)
  | some state => do
    -- Only write checksum file if close() was successful
    if ret = 0 then do
      .step (World.note f.oid .recorded)
      let _ ← setMultipleWith close (f.fname.getD []) (stateValues state.finalize)
      pure (ret, f.closed)
    else pure (ret, f.closed)

theorem setMultipleWith_below {n : ℕ} {g h : File env → Prog World (ℤ × File env)} (hgh : ∀ f, Prog.Below n (g f) (h f))
    (pfn : Bytes) (values : ChecksumValues) :
    Prog.Below n (setMultipleWith g pfn values) (setMultipleWith h pfn values) := by
  refine .bind (.refl _) ?_
  rintro (_ | fh)
  · exact .refl _
  · refine .bind (.refl _) ?_
    rintro ⟨rc, fh⟩
    refine .ite (.refl _) (.bind (.refl _) ?_)
    rintro ⟨retval, fh⟩
    exact .bind (hgh fh) fun _ => .refl _

theorem closeBody_recursive : Prog.Recursive (@closeBody env) := by
  intro n g h hgh f
  refine .bind (.refl _) fun ret => .bind (.refl _) fun _ => ?_
  cases f.m_state with
  | none => exact .refl _
  | some state =>
    exact .ite (.bind (.refl _) fun _ => .bind (setMultipleWith_below hgh _ _) fun _ => .refl _) (.refl _)

/-- `XrdHdfsFile::Close`. -/
def File.close : File env → Prog World (ℤ × File env) := Prog.fix closeBody closeBody_recursive

def setMultiple (env : Env) (pfn : Bytes) (values : ChecksumValues) : Prog World ℤ :=
  setMultipleWith (@File.close env) pfn values

/-- `ChecksumManager::Set(pfn, state)`. -/
def setState (env : Env) (pfn : Bytes) (state : ChecksumState env.Z) : Prog World ℤ :=
  setMultiple env pfn (stateValues state)

end XrdHdfs
