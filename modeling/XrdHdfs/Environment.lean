import XrdHdfs.Basic

/-!
# The environment that the bootstrap hands over

`xrootd_hdfs_envcheck` runs under the Hadoop configuration and writes three variables of its environment to its standard
output, each as `NAME=value` with a NUL behind it; `DetermineEnvironment` runs it, reads what it wrote and sets the
variables.  Both have buffers of 8 KiB.
-/

namespace XrdHdfs

inductive Variable where
  | classpath | libhdfs_opts | ld_library_path
  deriving DecidableEq

def Variable.name : Variable → Bytes
  | classpath => str "CLASSPATH"
  | libhdfs_opts => str "LIBHDFS_OPTS"
  | ld_library_path => str "LD_LIBRARY_PATH"

/-- The values of the variables; `none` for one that is not set. -/
abbrev Environment := Variable → Option Bytes

abbrev BUFSIZE : ℕ := 8192

/-! ### `xrootd_hdfs_envcheck` -/

/-- The formatted text of a variable. -/
def formatted (x : Variable) (value : Bytes) : Bytes := x.name ++ 61 :: value

/-- `snprintf(buf, BUFSIZE, …)`: the length the text has, or a negative number when that is no `int`; and `buf`, with
the start of the text and a NUL in it. -/
def snprintf (text : Bytes) (buf : ℕ → UInt8) : ℤ × (ℕ → UInt8) :=
  let stored := min text.length (BUFSIZE - 1)
  (if text.length < 2 ^ 31 then text.length else -1,
    fun i => if i < stored then text.getD i 0 else if i = stored then 0 else buf i)

/-- What a `write` does: it takes some of the bytes, or fails with an `errno`. -/
inductive WriteOutcome where
  | wrote (n : ℕ)
  | failed (errno : ℤ) (pos : 0 < errno)

/-- A `write`: where it starts, how many bytes it asks for, and how many were written before it. -/
structure WriteRequest where
  start : ℕ
  size : ℕ
  written : ℕ
  deriving DecidableEq

/-- `safe_write` at work: its variables, what it returned, what it has written and asked for. -/
structure SafeWrite where
  cur_buffer : ℕ := 0
  len : ℕ
  result : ℤ := 0
  returned : Option ℤ := none
  out : Bytes := []
  requests : List WriteRequest := []

namespace SafeWrite

/-- `len-result`. -/
def request (s : SafeWrite) : ℕ := (u64 (s.len - s.result)).toNat

/-- How many bytes `write` takes: not more than it was asked for, and not more than it can return. -/
def taken (n : ℕ) (s : SafeWrite) : ℕ := min n (min s.request (2 ^ 63 - 1))

/-- One turn of the loop; `buf` is the memory from the buffer on. -/
def turn (buf : ℕ → UInt8) (o : WriteOutcome) (s : SafeWrite) : SafeWrite :=
  if s.returned.isSome then s
  else if s.len = 0 then { s with returned := some 0 }
  else
    let requests := s.requests ++ [⟨s.cur_buffer, s.request, s.out.length⟩]
    match o with
    | .failed errno _ =>
      if errno = EINTR then { s with result := -1, requests } else { s with result := -1, returned := some errno, requests }
    | .wrote n =>
      { s with
        cur_buffer := s.cur_buffer + s.taken n
        len := (u64 (s.len - s.taken n)).toNat
        result := s.taken n
        out := s.out ++ (List.range (s.taken n)).map fun i => buf (s.cur_buffer + i)
        requests }

end SafeWrite

/-- `safe_write` of `len` bytes, after `n` turns. -/
def safe_write (buf : ℕ → UInt8) (len : ℕ) (outcomes : ℕ → WriteOutcome) : ℕ → SafeWrite
  | 0 => { len }
  | n + 1 => (safe_write buf len outcomes n).turn buf (outcomes n)

/-- `main` at work: its buffer and what lies behind it in memory, what it has written, and for each `safe_write` of
the buffer how much of the text the buffer held and how much was written, where every `write` takes all. -/
structure EnvCheck where
  buf : ℕ → UInt8
  out : Bytes := []
  writes : List (ℕ × ℕ) := []

/-- One variable: `safe_write` the buffer, and a NUL. -/
def EnvCheck.put (x : Variable) (value : Option Bytes) (s : EnvCheck) : EnvCheck :=
  match value with
  | none => s
  | some value =>
    let (result, buf) := snprintf (formatted x value) s.buf
    if 0 ≤ result then
      { buf
        out := s.out ++ (List.range result.toNat).map buf ++ [0]
        writes := s.writes ++ [(min (formatted x value).length (BUFSIZE - 1), result.toNat)] }
    else { s with buf }

/-- `main`; `stack` is the memory behind the buffer. -/
def envcheck (vars : Environment) (stack : ℕ → UInt8) : EnvCheck :=
  let s : EnvCheck := { buf := fun i => if i < BUFSIZE + 1 then 0 else stack i }
  ((s.put .classpath (vars .classpath)).put .libhdfs_opts (vars .libhdfs_opts)).put .ld_library_path
    (vars .ld_library_path)

/-! ### `DetermineEnvironment` -/

/-- The line that `fgets(…, BUFSIZE - 1, …)` reads: up to a line feed, and at most `BUFSIZE - 2` characters. -/
def fgetsLine (fp : Bytes) : Bytes :=
  let line := fp.take (BUFSIZE - 2)
  if 10 ∈ line then line.take (line.idxOf 10 + 1) else line

/-- `strchr(input, '=')`, and what stands before it is how the variable's name begins. -/
def Matches (x : Variable) (input : Bytes) : Prop := 61 ∈ input ∧ input.takeWhile (· != 61) <+: x.name

instance (x : Variable) (input : Bytes) : Decidable (Matches x input) := by unfold Matches; infer_instance

/-- What stands behind the equals sign. -/
def valueOf (input : Bytes) : Bytes := (input.dropWhile (· != 61)).tail

/-- `CheckEnvVar` for the variables in turn, of which each is still needed until it is set. -/
def checkEnvVars (env : Environment) (input : Bytes) : Environment :=
  if env .classpath = none ∧ Matches .classpath input then Function.update env .classpath (some (valueOf input))
  else if env .libhdfs_opts = none ∧ Matches .libhdfs_opts input then
    Function.update env .libhdfs_opts (some (valueOf input))
  else if env .ld_library_path = none ∧ Matches .ld_library_path input then
    Function.update env .ld_library_path (some (valueOf input))
  else env

/-- `DetermineEnvironment` at work: its buffer, `cur_pos`, and the variables that were set. -/
structure Decoder where
  environ_buffer : Bytes := List.replicate BUFSIZE 0
  cur_pos : ℕ := 0
  env : Environment := fun _ => none

namespace Decoder

/-- `fgets` puts the line and a NUL at the start of the buffer. -/
def load (line : Bytes) (d : Decoder) : Decoder :=
  { d with environ_buffer := line ++ 0 :: d.environ_buffer.drop (line.length + 1) }

/-- The inner loop: the strings from `cur_pos` on, up to an empty one. -/
def scanLoop : ℕ → Decoder → Decoder
  | 0, d => d
  | k + 1, d =>
    let input := cstr (d.environ_buffer.drop d.cur_pos)
    if input = [] then d
    else scanLoop k { d with cur_pos := d.cur_pos + (input.length + 1), env := checkEnvVars d.env input }

/-- Every turn of the loop takes `cur_pos` on, so that there are no more turns than bytes. -/
def scan (d : Decoder) : Decoder := scanLoop BUFSIZE d

/-- The outer loop. -/
def readLoop : ℕ → Bytes → Decoder → Decoder
  | 0, _, d => d
  | k + 1, fp, d =>
    if fp = [] then d
    else readLoop k (fp.drop (fgetsLine fp).length) (d.load (fgetsLine fp)).scan

end Decoder

/-- The variables that `DetermineEnvironment` sets when the command writes `fp` and exits with 0. -/
def determineEnvironment (fp : Bytes) : Environment := (Decoder.readLoop (fp.length + 1) fp {}).env

end XrdHdfs
