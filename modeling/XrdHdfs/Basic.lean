import Mathlib.Data.List.TakeWhile
import Mathlib.Tactic

/-!
# Bytes, C strings, error numbers and machine integers

The plugin's data are byte strings: file contents, paths, digest names and record texts alike.
Signed and unsigned 64-bit values are integers, brought into range by `s64` and `u64` wherever the
source's own arithmetic could leave it (two's complement, which is what the compiled code does).
-/

namespace XrdHdfs

abbrev Bytes := List UInt8

/-- The bytes of a string literal of the source. -/
def str (s : String) : Bytes := s.toList.map fun c => c.toNat.toUInt8

/-- A byte buffer read as a C string: it ends at the first NUL. -/
def cstr (s : Bytes) : Bytes := s.takeWhile (· != 0)

theorem cstr_eq_self {s : Bytes} (h : 0 ∉ s) : cstr s = s := by
  have h' : ∀ c ∈ s, (c != 0) = true := by simpa using fun c hc => ne_of_mem_of_not_mem hc h
  have := @List.takeWhile_append_of_pos _ _ _ [] h'
  simpa [cstr] using this

theorem cstr_append_of_not_mem {t : Bytes} (h : 0 ∉ t) (b : Bytes) : cstr (t ++ b) = t ++ cstr b :=
  List.takeWhile_append_of_pos (by simpa using fun c hc => ne_of_mem_of_not_mem hc h)

theorem cstr_append {t : Bytes} (h : 0 ∉ t) (b : Bytes) : cstr (t ++ 0 :: b) = t := by
  rw [cstr_append_of_not_mem h]
  simp [cstr]

theorem not_mem_zero_cstr (s : Bytes) : 0 ∉ cstr s := fun h => by simpa using List.mem_takeWhile_imp h

theorem mem_zero_of_cstr {s : Bytes} (h : cstr s = s) : 0 ∉ s := h ▸ not_mem_zero_cstr s

/-- The content of an HDFS file.  Positions are signed 64-bit integers, and so is the length. -/
structure FileContent where
  bytes : Bytes
  length_lt : bytes.length < 2 ^ 63

/-- The empty file. -/
def FileContent.nil : FileContent := ⟨[], by decide⟩

/-! ### Error numbers -/

abbrev ENOENT : ℤ := 2
abbrev ESRCH : ℤ := 3
abbrev EINTR : ℤ := 4
abbrev EIO : ℤ := 5
abbrev EBADF : ℤ := 9
abbrev ENOMEM : ℤ := 12
abbrev EEXIST : ℤ := 17
abbrev EISDIR : ℤ := 21
abbrev EINVAL : ℤ := 22
abbrev EDOM : ℤ := 33
abbrev ENOTSUP : ℤ := 95

/-- `XrdHdfsSys::Emsg` returns the negated `errno` of the moment, or `-1` when there is none. -/
def emsg (errno : ℤ) : ℤ :=
  if errno ≠ 0 then (if errno > 0 then -errno else errno) else -1

theorem emsg_neg (errno : ℤ) : emsg errno < 0 := by
  unfold emsg
  split_ifs <;> omega

/-! ### Machine integers -/

/-- The value as a `size_t`. -/
def u64 (z : ℤ) : ℤ := z % 0x10000000000000000

/-- The value as an `off_t` or `ssize_t`. -/
def s64 (z : ℤ) : ℤ := (z + 0x8000000000000000) % 0x10000000000000000 - 0x8000000000000000

/-- The value as an `unsigned`. -/
def u32 (z : ℤ) : ℤ := z % 0x100000000

/-- The value as a `tSize`, which is a 32-bit integer in libhdfs. -/
def s32 (z : ℤ) : ℤ := (z + 0x80000000) % 0x100000000 - 0x80000000

theorem u64_of_lt {z : ℤ} (h : 0 ≤ z) (h' : z < 2 ^ 64) : u64 z = z := by
  unfold u64
  omega

theorem s64_of_lt {z : ℤ} (h : -2 ^ 63 ≤ z) (h' : z < 2 ^ 63) : s64 z = z := by
  unfold s64
  omega

theorem u32_of_lt {z : ℤ} (h : 0 ≤ z) (h' : z < 2 ^ 32) : u32 z = z := by
  unfold u32
  omega

theorem s32_of_lt {z : ℤ} (h : -2 ^ 31 ≤ z) (h' : z < 2 ^ 31) : s32 z = z := by
  unfold s32
  omega

/-! ### Case folding -/

/-- `toupper` in the C locale. -/
def toupper (c : UInt8) : UInt8 := if 97 ≤ c ∧ c ≤ 122 then c - 32 else c

/-- `tolower` in the C locale. -/
def tolower (c : UInt8) : UInt8 := if 65 ≤ c ∧ c ≤ 90 then c + 32 else c

/-- `std::transform(…, ::toupper)`. -/
def upper (s : Bytes) : Bytes := s.map toupper

/-- `!strcasecmp(s, t)`. -/
def strcaseeq (s t : Bytes) : Bool := s.map tolower == t.map tolower

/-- `!strncasecmp(s, t, n)`. -/
def strncaseeq (s t : Bytes) (n : ℕ) : Bool := (s.take n).map tolower == (t.take n).map tolower

end XrdHdfs
