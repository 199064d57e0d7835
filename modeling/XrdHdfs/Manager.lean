import XrdHdfs.File

/-!
# `ChecksumManager`

The checksum manager's entry points `Get`, `Del`, `List`, `Ver`, `Set` and `Calc`, and the operation of
`XrdHdfsSys` that `Del` calls.
-/

namespace XrdHdfs

open Lib

/-! ### `XrdHdfsSys::Unlink` -/

/-- What `Unlink` does to `errno` after a failed `hdfsDelete`: when it is `EIO`, it asks `hdfsExists`. -/
def unlinkErrno (path : Bytes) (w : World) : Unit × World :=
  if w.errno = EIO then
    let (r, w) := hdfsExists path { w with errno := 0 }
    ((), { w with errno := if r = -1 ∧ w.errno = 0 then ENOENT else w.errno })
  else ((), w)

/-- `errno = 0`. -/
def World.clearErrno (w : World) : Unit × World := ((), { w with errno := 0 })

def unlink (env : Env) (req_path : Bytes) : Prog World ℤ := do
  let path := env.getRealPath req_path
  let connected ← .step hadoopConnect
  if connected ≠ 0 then .step (World.errorCode .sys (.fixed EIO))
  else do
    .step World.clearErrno
    let r ← .step (hdfsDelete path)
    if r = -1 then do
      .step (unlinkErrno path)
      .step (World.errorCode .sys (.errnoOr EIO))
    else pure 0

namespace ChecksumManager

/-! ### Reading a record -/

/-- The turn of the read loop of `GetFileContents`.  What is read is appended as a C string. -/
def contentsTurn {env : Env} : File env × Bytes × ℕ → Prog World ((File env × Bytes × ℕ) ⊕ (ℤ × Bytes × File env))
  | (fh, ss, offset) => do
    let (out, fh) ← fh.read offset 4095
    if out.ret = -EINTR then pure (.inl (fh, ss, offset))
    else if 0 < out.ret then pure (.inl (fh, ss ++ cstr (out.data.take out.ret.toNat), offset + out.ret.toNat))
    else pure (.inr (out.ret, ss, fh))

/-- `ChecksumManager::GetFileContents`: an error, or 0 and the text. -/
def getFileContents (env : Env) (pfn : Bytes) : Prog World (ℤ × Bytes) :=
  if !env.g_hdfs_oss then pure (-ENOMEM, [])
  else do
    match ← .step (newFile env) with
    | none => pure (-ENOMEM, [])
    | some fh => do
      let (rc, fh) ← fh.openFile (getChecksumFilename pfn) O_RDONLY
      if rc ≠ 0 then pure (rc, [])
      else do
        let (retval, result, fh) ← .loop contentsTurn (fh, [], 0)
        let (_, fh) ← fh.close
        fh.destroy
        if retval < 0 then pure (retval, []) else pure (0, result)

/-- The name `Get` looks up.  `Name` is an array and never `NULL`, so that the configured default digest is
never looked up. -/
def requestedChecksum (cks : XrdCksData) : Bytes := if cks.Name = [] then str "adler32" else cks.Name

/-- What `Get` gives back: the return code, the caller's data, and the recorded value that it logs. -/
structure GetOut where
  rc : ℤ
  cks : XrdCksData
  recorded : Option Bytes := none

/-- `ChecksumManager::Del`.  It is the data file at `pfn` that is unlinked. -/
def del (env : Env) (pfn : Bytes) : Prog World ℤ := unlink env pfn

/-- `ChecksumManager::Get`. -/
def get (env : Env) (pfn : Bytes) (cks : XrdCksData) : Prog World GetOut := do
  let (rc, checksum_contents) ← getFileContents env pfn
  if rc ≠ 0 then pure { rc := if rc = -ENOENT then -ESRCH else rc, cks }
  else
    let (rc, values) := parse checksum_contents
    if rc ≠ 0 then
      -- Override the error code and return -ESRCH
      pure { rc := -ESRCH, cks }
    else
      let checksum_value := lastValue values (requestedChecksum cks)
      if checksum_value = [] then do
        let _ ← del env pfn
        pure { rc := -ESRCH, cks }
      else if ValuSize < checksum_value.length then pure { rc := -EDOM, cks, recorded := some checksum_value }
      else pure { rc := 0, cks := env.cks.Set cks checksum_value, recorded := some checksum_value }

/-- `ChecksumManager::List`: `none` for `NULL`, or the bytes copied to the buffer. -/
def list (env : Env) (pfn : Bytes) (blen : ℕ) (separator : UInt8) : Prog World (Option Bytes) := do
  let (rc, checksum_contents) ← getFileContents env pfn
  if rc ≠ 0 then pure none
  else
    let (rc, values) := parse checksum_contents
    if rc ≠ 0 then pure none
    else
      let result := List.intercalate [separator] (values.map Prod.fst)
      pure (some (result.take (if blen < result.length then blen else result.length)))

/-! ### Calculating -/

/-- The digest `Calc` returns; `none` for a name it does not support. -/
def returnDigest (cks : XrdCksData) : Option ℕ :=
  if strncaseeq cks.Name (str "md5") NameSize then some MD5
  else if strncaseeq cks.Name (str "cksum") NameSize then some CKSUM
  else if strncaseeq cks.Name (str "crc32") NameSize then some CRC32
  else if strncaseeq cks.Name (str "adler32") NameSize then some ADLER32
  else none

/-- The turn of the read loop of `Calc`. -/
def calcTurn {env : Env} :
    File env × ChecksumState env.Z × ℕ → Prog World ((File env × ChecksumState env.Z × ℕ) ⊕
      (ℤ × ChecksumState env.Z × File env))
  | (fh, state, offset) => do
    let (out, fh) ← fh.read offset 262144
    if out.ret = -EINTR then pure (.inl (fh, state, offset))
    else if 0 < out.ret then
      pure (.inl (fh, state.update (out.data.take out.ret.toNat), offset + out.ret.toNat))
    else pure (.inr (out.ret, state, fh))

/-- `ChecksumManager::Calc`. -/
def calcDigest (env : Env) (pfn : Bytes) (cks : XrdCksData) (do_set : Bool) : Prog World (ℤ × XrdCksData) :=
  match returnDigest cks with
  | none => pure (-ENOTSUP, cks)
  | some return_digest =>
    let digests := (if do_set then ALL else 0) ||| return_digest
    if !env.g_hdfs_oss then pure (-ENOMEM, cks)
    else do
      match ← .step (newFile env) with
      | none => pure (-ENOMEM, cks)
      | some fh => do
        let (rc, fh) ← fh.openFile pfn O_RDONLY
        if rc ≠ 0 then pure (rc, cks)
        else do
          let junk ← .step World.nextJunk
          let (retval, state, fh) ← .loop calcTurn (fh, .new env.Z junk digests, 0)
          let (_, fh) ← fh.close
          fh.destroy
          if retval < 0 then pure (- EIO, cks)
          else do
            let state := state.finalize
            let _ ← setState env pfn state
            let value := state.get return_digest
            if value = [] then pure (- EIO, cks) else pure (0, env.cks.Set cks value)

/-- `!memcmp(cks_on_disk.Value, cks.Value, cks.Length) ? 0 : 1`. -/
def compareValue (cks_on_disk cks : XrdCksData) : ℤ :=
  if cks_on_disk.Value.take cks.Length = cks.Value.take cks.Length then 0 else 1

/-- `ChecksumManager::Ver`.  The digest asked of `Get` and `Calc` has an empty name. -/
def ver (env : Env) (pfn : Bytes) (cks : XrdCksData) : Prog World ℤ := do
  let out ← get env pfn {}
  if out.rc ≠ 0 then do
    let (rc, cks_on_disk) ← calcDigest env pfn out.cks true
    if rc ≠ 0 then pure rc else pure (compareValue cks_on_disk cks)
  else pure (compareValue out.cks cks)

/-! ### Setting -/

/-- The loop of `Set` over the entries, with its two flags. -/
def mergeValue (checksum_name checksum_value : Bytes) (values : ChecksumValues) : ChecksumValues × Bool × Bool :=
  (values.map fun e => if upper e.1 = checksum_name ∧ e.2 ≠ checksum_value then (e.1, checksum_value) else e,
    values.any fun e => upper e.1 = checksum_name,
    !values.any fun e => upper e.1 = checksum_name ∧ e.2 = checksum_value)

/-- What `Set` writes: the merged entries, or `none` when it writes nothing. -/
def merge (cks : XrdCksData) (text : Bytes) (values : ChecksumValues) : Option ChecksumValues :=
  let checksum_name := upper cks.Name
  let (values, overwrote_value, changed_value) := mergeValue checksum_name text values
  let values := if overwrote_value then values else values ++ [(checksum_name, text)]
  if changed_value then some values else none

/-- `ChecksumManager::Set(pfn, cks)`. -/
def set (env : Env) (pfn : Bytes) (cks : XrdCksData) : Prog World ℤ := do
  let (rc, checksum_contents) ← getFileContents env pfn
  if rc ≠ 0 then pure rc
  else
    let (rc, values) := parse checksum_contents
    if rc ≠ 0 then pure rc
    else
      match merge cks (env.cks.Get cks) values with
      | none => pure 0
      | some values => setMultiple env pfn values

end ChecksumManager

end XrdHdfs
