import XrdHdfs.Hdfs
import XrdHdfs.Readbuf
import XrdHdfs.Lib.Slice

/-!
# libhdfs

The calls of `libhdfs` and of the C++ run time that the plugin makes.  What they do is decided by the file
system and by a script: for each kind of call, the answers it will give, one for each call to come.  When the
script is used up, calls succeed in full.  So a script is any finite pattern of failures, short reads, short
writes and interruptions, and every theorem over all worlds is one over all these patterns.
-/

namespace XrdHdfs

open Lib

/-- The kinds of calls that can fail. -/
inductive Call where
  | connect | newFile | malloc | openFile | closeFile | pread | write | delete | exists | rename | chmod | mkdir
  | getPathInfo | listDirectory
  deriving DecidableEq

/-- What the script says of one call: success, success on a part of the data, or failure with an `errno`. -/
inductive Answer where
  | ok
  | part (n : ℕ)
  | fail (errno : ℤ)
  deriving DecidableEq

/-- The `errno` of a failure. -/
def Answer.error : Answer → Option ℤ
  | .fail e => some e
  | _ => none

/-- How many of the `want` bytes asked for are transferred: all of them, or a part, but not fewer than `least`. -/
def Answer.given (a : Answer) (want least : ℕ) : ℕ :=
  match a with
  | .part k => min want (max k least)
  | _ => want

theorem Answer.given_le (a : Answer) (want least : ℕ) : a.given want least ≤ want := by
  unfold given
  split <;> omega

/-- What happens to a file object: it is opened under the name `fname`, perhaps with a checksum state, or its `Close`
records checksums. -/
inductive ObjEvent where
  | created | opened (fname : Bytes) (writing state : Bool) | recorded | closed | deleted
  deriving DecidableEq

/-- An `hdfsFile`: the inode and whether it is open for writing. -/
structure Handle where
  ino : ℕ
  writing : Bool
  deriving DecidableEq

/-- A call of `libhdfs` or of `hadoop_connect`, with what it is given. -/
inductive LibCall where
  | connect
  | openFile (path : Bytes) (writing : Bool)
  | closeFile (fh : Handle)
  | pread (fh : Option Handle) (pos len : ℤ)
  | write (fh : Option Handle) (buff : Bytes)
  | delete (path : Bytes)
  | exists (path : Bytes)
  | rename (path dst : Bytes)
  | chmod (path : Bytes) (mode : ℕ)
  | mkdir (path : Bytes)
  | getPathInfo (path : Bytes)
  | listDirectory (path : Bytes)
  deriving DecidableEq

/-- The script it is answered from. -/
def LibCall.kind : LibCall → Call
  | connect => .connect
  | openFile _ _ => .openFile
  | closeFile _ => .closeFile
  | pread _ _ _ => .pread
  | write _ _ => .write
  | delete _ => .delete
  | .exists _ => .exists
  | rename _ _ => .rename
  | chmod _ _ => .chmod
  | mkdir _ => .mkdir
  | getPathInfo _ => .getPathInfo
  | listDirectory _ => .listDirectory

/-- The kinds of things there are at a path. -/
inductive ObjectKind where
  | file | directory
  deriving DecidableEq

/-- An `hdfsFileInfo`, as far as the plugin reads it. -/
structure FileInfo where
  mKind : ObjectKind
  mName : Bytes
  mLastMod : ℤ
  mSize : ℤ
  mPermissions : ℕ
  deriving DecidableEq

/-- An error object: that of `XrdHdfsSys`, of a file object by its number, or of a directory object. -/
inductive ErrInfo where
  | sys
  | file (oid : ℕ)
  | directory
  deriving DecidableEq

/-- The error code that a caller of `Emsg` chooses. -/
inductive ErrorCode where
  | errno
  /-- `errno ? errno : fallback` -/
  | errnoOr (fallback : ℤ)
  | fixed (code : ℤ)
  deriving DecidableEq

def ErrorCode.value (e : ℤ) : ErrorCode → ℤ
  | errno => e
  | errnoOr fallback => if e ≠ 0 then e else fallback
  | fixed code => code

/-- A call of `Emsg`: its error object, the code chosen for it, and what `errno` was then. -/
structure Report where
  einfo : ErrInfo
  ecode : ErrorCode
  errno : ℤ
  deriving DecidableEq

/-- The code that `Emsg` puts into the error object. -/
def Report.code (r : Report) : ℤ := |r.ecode.value r.errno|

/-- Everything outside the plugin's own objects.  `junk` is what memory holds before a `ChecksumState` is constructed in
it, `lastMod` when the paths were modified, and `listings` what is in the directories; `ledger` records the file objects
by their number, `calls` the calls of `libhdfs` with what they returned (a pointer counts as 0, and `NULL` as -1), and
`reports` what went into error objects. -/
structure World where
  fs : Fs
  errno : ℤ := 0
  script : Call → List Answer := fun _ => []
  junk : ℕ → UInt32 := fun _ => 0
  lastMod : HPath → ℤ := fun _ => 0
  listings : HPath → Option (List FileInfo) := fun _ => none
  objects : ℕ := 0
  ledger : List (ℕ × ObjEvent) := []
  calls : List (LibCall × ℤ) := []
  reports : List Report := []

namespace World

/-- The next answer of the script. -/
def take (c : Call) (w : World) : Answer × World :=
  match w.script c with
  | [] => (.ok, w)
  | a :: as => (a, { w with script := Function.update w.script c as })

/-- A call has returned. -/
def did (c : LibCall) (r : ℤ) (w : World) : World := { w with calls := w.calls ++ [(c, r)] }

/-- A call that changes the file system by `f`, or fails with `e` where the name node refuses. -/
def call (c : LibCall) (e : ℤ) (f : Fs → Option Fs) (w : World) : ℤ × World :=
  let (a, w) := w.take c.kind
  match a.error with
  | some err => (-1, { w.did c (-1) with errno := err })
  | none =>
    match f w.fs with
    | some fs => (0, { w.did c 0 with fs := fs })
    | none => (-1, { w.did c (-1) with errno := e })

/-- What is known of a path. -/
def fileInfo (w : World) (path : Bytes) : Option FileInfo :=
  match w.fs.tree (resolve path) with
  | some (.dir m) => some ⟨.directory, path, w.lastMod (resolve path), 0, m⟩
  | some (.file i m) => some ⟨.file, path, w.lastMod (resolve path), (w.fs.data i).bytes.length, m⟩
  | none => none

/-- `XrdHdfsSys::Emsg`.  The code goes into the error object; what is returned goes by `errno`, whatever the code is. -/
def errorCode (einfo : ErrInfo) (ecode : ErrorCode) (w : World) : ℤ × World :=
  (emsg w.errno, { w with reports := w.reports ++ [⟨einfo, ecode, w.errno⟩] })

end World

section Calls

variable (path : Bytes)

/-- `hadoop_connect`. -/
def hadoopConnect (w : World) : ℤ × World := World.call .connect EIO some { w with errno := 0 }

def hdfsCloseFile (fh : Handle) : World → ℤ × World := World.call (.closeFile fh) EIO some

/-- `hdfsDelete(fs, path, 0)`. -/
def hdfsDelete : World → ℤ × World := World.call (.delete path) EIO fun fs => fs.delete (resolve path)

def hdfsExists : World → ℤ × World :=
  World.call (.exists path) ENOENT fun fs => if fs.tree (resolve path) = none then none else some fs

def hdfsRename (dst : Bytes) : World → ℤ × World :=
  World.call (.rename path dst) EIO fun fs => fs.rename (resolve path) (resolve dst)

/-- `hdfsCreateDirectory`: the directories above are made as needed. -/
def hdfsCreateDirectory : World → ℤ × World := World.call (.mkdir path) EIO fun fs => fs.mkdirs (resolve path)

def hdfsChmod (mode : ℕ) : World → ℤ × World := World.call (.chmod path mode) ENOENT fun fs => fs.chmod (resolve path) mode

/-- `hdfsGetPathInfo`: `none` for `NULL`. -/
def hdfsGetPathInfo (w : World) : Option FileInfo × World :=
  let (a, w) := w.take .getPathInfo
  match a.error with
  | some e => (none, { w.did (.getPathInfo path) (-1) with errno := e })
  | none =>
    match w.fileInfo path with
    | some info => (some info, w.did (.getPathInfo path) 0)
    | none => (none, { w.did (.getPathInfo path) (-1) with errno := ENOENT })

/-- `hdfsListDirectory`: `none` for `NULL`, which with `errno` 0 says that the directory is empty. -/
def hdfsListDirectory (w : World) : Option (List FileInfo) × World :=
  let (a, w) := w.take .listDirectory
  match a.error with
  | some e => (none, { w.did (.listDirectory path) (-1) with errno := e })
  | none =>
    match w.listings (resolve path) with
    | some [] => (none, { w.did (.listDirectory path) (-1) with errno := 0 })
    | some (fileInfo :: rest) => (some (fileInfo :: rest), w.did (.listDirectory path) 0)
    | none => (none, { w.did (.listDirectory path) (-1) with errno := ENOENT })

/-- `hdfsOpenFile`: with `O_WRONLY`, a new file that replaces the one at the path. -/
def hdfsOpenFile (writing : Bool) (w : World) : Option Handle × World :=
  let (a, w) := w.take .openFile
  match a.error with
  | some e => (none, { w.did (.openFile path writing) (-1) with errno := e })
  | none =>
    if writing then
      match w.fs.create (resolve path) with
      | some (i, fs) => (some ⟨i, true⟩, { w.did (.openFile path writing) 0 with fs := fs })
      | none => (none, { w.did (.openFile path writing) (-1) with errno := EIO })
    else
      match w.fs.tree.ino (resolve path) with
      | some i => (some ⟨i, false⟩, w.did (.openFile path writing) 0)
      | none => (none, { w.did (.openFile path writing) (-1) with errno := ENOENT })

end Calls

/-- `hdfsPread`: at most `len` bytes at `pos`, and none only at or past the end of the file. -/
def hdfsPread (fh : Option Handle) (pos len : ℤ) (w : World) : PreadAnswer × World :=
  let (a, w) := w.take .pread
  match a.error, fh with
  | some e, _ => (.failed e, { w.did (.pread fh pos len) (-1) with errno := e })
  | none, none => (.failed EBADF, { w.did (.pread fh pos len) (-1) with errno := EBADF })
  | none, some h =>
    if pos < 0 ∨ len < 0 ∨ h.writing then
      (.failed EINVAL, { w.did (.pread fh pos len) (-1) with errno := EINVAL })
    else
      let n := a.given (min len.toNat 0x7fffffff) 1
      have hn : (slice (w.fs.data h.ino).bytes pos.toNat n).length < 2 ^ 31 := by
        have := a.given_le (min len.toNat 0x7fffffff) 1
        rw [length_slice]
        omega
      (.got (slice (w.fs.data h.ino).bytes pos.toNat n) 0 hn,
        { w.did (.pread fh pos len) (slice (w.fs.data h.ino).bytes pos.toNat n).length with errno := 0 })

/-- `hdfsWrite`: the bytes go to the end of the file, and their number, which the library takes as a 32-bit
integer, is returned. -/
def hdfsWrite (fh : Option Handle) (buff : Bytes) (w : World) : ℤ × World :=
  let (a, w) := w.take .write
  match a.error, fh with
  | some e, _ => (-1, { w.did (.write fh buff) (-1) with errno := e })
  | none, none => (-1, { w.did (.write fh buff) (-1) with errno := EBADF })
  | none, some h =>
    if s32 buff.length < 0 ∨ !h.writing then (-1, { w.did (.write fh buff) (-1) with errno := EINVAL })
    else
      let n := a.given (s32 buff.length).toNat 0
      match w.fs.append h.ino (buff.take n) with
      | some fs => (n, { w.did (.write fh buff) n with fs := fs })
      | none => (-1, { w.did (.write fh buff) (-1) with errno := EIO })

end XrdHdfs
