import Mathlib.Data.List.DropRight
import XrdHdfs.Manager

/-!
# The name-space operations of `XrdHdfsSys`

`Lfn2Pfn`, and `Chmod`, `Create`, `Mkdir`, `Remdir`, `Rename` and `Truncate`; `Unlink` is in `XrdHdfs.Manager`.  Each
maps its paths, connects, clears `errno` and makes its calls of `libhdfs`; what it returns for a failed call is `Emsg`'s.
-/

namespace XrdHdfs

open Lib

/-! ### The common frame -/

/-- Connect, clear `errno`, and go on. -/
def withConnection (x : Prog World ℤ) : Prog World ℤ := do
  let connected ← .step hadoopConnect
  if connected ≠ 0 then .step (World.errorCode .sys (.fixed EIO))
  else do
    .step World.clearErrno
    x

/-- One call, and the code of its failure. -/
def callOnce (call : World → ℤ × World) : Prog World ℤ := do
  let r ← .step call
  if r = -1 then .step (World.errorCode .sys (.errnoOr EIO)) else pure 0

/-! ### Names -/

/-- `Lfn2Pfn` into a buffer of `blen` bytes; `none` where the library has no mapping, or the path does not fit. -/
def Env.lfn2Pfn (env : Env) (lfn : Bytes) (blen : ℕ) : Option Bytes :=
  match env.the_N2N with
  | some lfn2pfn => (lfn2pfn lfn).filter fun pfn => pfn.length < blen
  | none => if lfn.length < blen then some lfn else none

/-! ### The operations -/

section Operations

variable (env : Env)

def chmod (req_fname : Bytes) (mode : ℕ) : Prog World ℤ :=
  withConnection (callOnce (hdfsChmod (env.getRealPath req_fname) mode))

/-- The path without its trailing slashes; `none` where the loop that takes them off comes to the first character. -/
def trimSlashes (path : Bytes) : Option Bytes :=
  let path := path.take 1 ++ (path.drop 1).rdropWhile (· = 47)
  if path.length ≤ 1 then none else some path

/-- The path up to its last slash, which is included. -/
def parentDir (path : Bytes) : Bytes := path.rdropWhile (· ≠ 47)

/-- Whether the directory above is there: 0, unless `hdfsExists` says otherwise.  Nothing is asked about the root. -/
def parentMissing (path : Bytes) : World → ℤ × World :=
  if (parentDir path).length ≤ 1 then fun w => (0, w) else hdfsExists (parentDir path)

/-- `Mkdir`, built by default: without `MKDIR_PERFORM_CHMOD` the mode is not used.  Without `mkpath` the directory above
has to be there, and the root is there already. -/
def mkdir (req_path : Bytes) (_mode : ℕ) (mkpath : Bool) : Prog World ℤ :=
  let path := env.getRealPath req_path
  withConnection <|
    if mkpath then callOnce (hdfsCreateDirectory path)
    else
      match trimSlashes path with
      | none => pure 0
      | some path => do
        let missing ← .step (parentMissing path)
        if missing ≠ 0 then .step (World.errorCode .sys (.errnoOr ENOENT))
        else do
          .step World.clearErrno
          callOnce (hdfsCreateDirectory path)

def remdir (req_path : Bytes) : Prog World ℤ := withConnection (callOnce (hdfsDelete (env.getRealPath req_path)))

def rename (req_src req_dest : Bytes) : Prog World ℤ :=
  withConnection (callOnce (hdfsRename (env.getRealPath req_src) (env.getRealPath req_dest)))

/-- Open for writing, go on, and close. -/
def withNewFile (path : Bytes) (x : Prog World ℤ) : Prog World ℤ :=
  withConnection do
    match ← .step (hdfsOpenFile path true) with
    | none => .step (World.errorCode .sys .errno)
    | some fp => do
      let retc ← x
      let _ ← .step (hdfsCloseFile fp)
      pure retc

/-- `Truncate`.  The size asked for is not used. -/
def truncate (req_path : Bytes) (_newsize : ℕ) : Prog World ℤ := withNewFile (env.getRealPath req_path) (pure 0)

def create (req_path : Bytes) (mode : ℕ) : Prog World ℤ :=
  withNewFile (env.getRealPath req_path) (callOnce (hdfsChmod (env.getRealPath req_path) mode))

end Operations

end XrdHdfs
