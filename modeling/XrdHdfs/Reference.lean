import XrdHdfs.File

/-!
# The hash functions themselves

Adler-32 and CRC-32 as zlib has them, MD5 and SHA-1 as OpenSSL has them, and the conversions of XRootD: an
instance of `Digests` and `CksLib` that can be run.  It shows that the laws of `Digests` are those of the real
functions, and it is what the examples are computed with.
-/

namespace XrdHdfs.Reference

open Lib

/-! ### zlib -/

/-- One byte of Adler-32: the two sums modulo 65521 are the two halves of the value. -/
def adlerStep (s : UInt32) (c : UInt8) : UInt32 :=
  let a := ((s &&& 0xffff) + c.toUInt32) % 65521
  let b := ((s >>> 16) + a) % 65521
  (b <<< 16) ||| a

def adler32 (s : UInt32) (x : Bytes) : UInt32 := x.foldl adlerStep s

/-- One bit of CRC-32. -/
def crcBit (crc : UInt32) : UInt32 := if crc &&& 1 = 1 then (crc >>> 1) ^^^ 0xedb88320 else crc >>> 1

def crcByte (crc : UInt32) (c : UInt8) : UInt32 := (crcBit^[8]) (crc ^^^ c.toUInt32)

def crc32 (s : UInt32) (x : Bytes) : UInt32 := ~~~ x.foldl crcByte (~~~ s)

/-! ### Words and padding -/

def rotl (x : UInt32) (n : UInt32) : UInt32 := (x <<< n) ||| (x >>> (32 - n))

def bytesBE (x : UInt32) : Bytes := htonl x

def bytesLE (x : UInt32) : Bytes := (htonl x).reverse

def wordBE (b : Bytes) : UInt32 := b.foldl (fun w c => (w <<< 8) ||| c.toUInt32) 0

def wordLE (b : Bytes) : UInt32 := wordBE b.reverse

/-- The message with its padding; `bits` are the eight bytes of its length in bits. -/
def pad (x bits : Bytes) : Bytes := x ++ [0x80] ++ List.replicate ((119 - x.length % 64) % 64) 0 ++ bits

/-- The parts of length `n`, the last of which may be shorter. -/
def parts (n : ℕ) (x : Bytes) : List Bytes := (List.range ((x.length + n - 1) / n)).map fun i => slice x (i * n) n

/-! ### MD5 -/

def md5Table : List UInt32 := [ 0xd76aa478, 0xe8c7b756, 0x242070db, 0xc1bdceee, 0xf57c0faf, 0x4787c62a, 0xa8304613, 0xfd469501,
  0x698098d8, 0x8b44f7af, 0xffff5bb1, 0x895cd7be, 0x6b901122, 0xfd987193, 0xa679438e, 0x49b40821,
  0xf61e2562, 0xc040b340, 0x265e5a51, 0xe9b6c7aa, 0xd62f105d, 0x02441453, 0xd8a1e681, 0xe7d3fbc8,
  0x21e1cde6, 0xc33707d6, 0xf4d50d87, 0x455a14ed, 0xa9e3e905, 0xfcefa3f8, 0x676f02d9, 0x8d2a4c8a,
  0xfffa3942, 0x8771f681, 0x6d9d6122, 0xfde5380c, 0xa4beea44, 0x4bdecfa9, 0xf6bb4b60, 0xbebfbc70,
  0x289b7ec6, 0xeaa127fa, 0xd4ef3085, 0x04881d05, 0xd9d4d039, 0xe6db99e5, 0x1fa27cf8, 0xc4ac5665,
  0xf4292244, 0x432aff97, 0xab9423a7, 0xfc93a039, 0x655b59c3, 0x8f0ccc92, 0xffeff47d, 0x85845dd1,
  0x6fa87e4f, 0xfe2ce6e0, 0xa3014314, 0x4e0811a1, 0xf7537e82, 0xbd3af235, 0x2ad7d2bb, 0xeb86d391]

def md5Shifts : List UInt32 := [7, 12, 17, 22, 5, 9, 14, 20, 4, 11, 16, 23, 6, 10, 15, 21]

def md5Round (w : List UInt32) : UInt32 × UInt32 × UInt32 × UInt32 → ℕ → UInt32 × UInt32 × UInt32 × UInt32
  | (a, b, c, d), i =>
    let fg : UInt32 × ℕ :=
      if i < 16 then ((b &&& c) ||| (~~~ b &&& d), i)
      else if i < 32 then ((d &&& b) ||| (~~~ d &&& c), (5 * i + 1) % 16)
      else if i < 48 then (b ^^^ c ^^^ d, (3 * i + 5) % 16)
      else (c ^^^ (b ||| ~~~ d), (7 * i) % 16)
    (d, b + rotl (a + fg.1 + md5Table.getD i 0 + w.getD fg.2 0) (md5Shifts.getD (4 * (i / 16) + i % 4) 0), b, c)

def md5Block : UInt32 × UInt32 × UInt32 × UInt32 → Bytes → UInt32 × UInt32 × UInt32 × UInt32
  | (a, b, c, d), block =>
    let (a', b', c', d') := (List.range 64).foldl (md5Round ((parts 4 block).map wordLE)) (a, b, c, d)
    (a + a', b + b', c + c', d + d')

def md5 (x : Bytes) : Bytes :=
  let n := 8 * x.length
  let (a, b, c, d) := (parts 64 (pad x (bytesLE n.toUInt32 ++ bytesLE (n / 0x100000000).toUInt32))).foldl md5Block
    (0x67452301, 0xefcdab89, 0x98badcfe, 0x10325476)
  bytesLE a ++ bytesLE b ++ bytesLE c ++ bytesLE d

/-! ### SHA-1 -/

/-- The schedule, the newest word first. -/
def sha1Schedule (block : Bytes) : List UInt32 :=
  (List.range 64).foldl (fun w _ => rotl (w.getD 2 0 ^^^ w.getD 7 0 ^^^ w.getD 13 0 ^^^ w.getD 15 0) 1 :: w)
    ((parts 4 block).map wordBE).reverse

abbrev Sha1Regs := UInt32 × UInt32 × UInt32 × UInt32 × UInt32

def sha1Round : Sha1Regs → UInt32 × ℕ → Sha1Regs
  | (a, b, c, d, e), (w, i) =>
    let fk : UInt32 × UInt32 :=
      if i < 20 then ((b &&& c) ||| (~~~ b &&& d), 0x5a827999)
      else if i < 40 then (b ^^^ c ^^^ d, 0x6ed9eba1)
      else if i < 60 then ((b &&& c) ||| (b &&& d) ||| (c &&& d), 0x8f1bbcdc)
      else (b ^^^ c ^^^ d, 0xca62c1d6)
    (rotl a 5 + fk.1 + e + fk.2 + w, a, rotl b 30, c, d)

def sha1Block : Sha1Regs → Bytes → Sha1Regs
  | (a, b, c, d, e), block =>
    let (a', b', c', d', e') := (sha1Schedule block).reverse.zipIdx.foldl sha1Round (a, b, c, d, e)
    (a + a', b + b', c + c', d + d', e + e')

def sha1 (x : Bytes) : Bytes :=
  let n := 8 * x.length
  let (a, b, c, d, e) := (parts 64 (pad x (bytesBE (n / 0x100000000).toUInt32 ++ bytesBE n.toUInt32))).foldl sha1Block
    (0x67452301, 0xefcdab89, 0x98badcfe, 0x10325476, 0xc3d2e1f0)
  bytesBE a ++ bytesBE b ++ bytesBE c ++ bytesBE d ++ bytesBE e

/-! ### The instance -/

def digests : Digests where
  adler32 := adler32
  adler32_nil := rfl
  adler32_append _ _ := (List.foldl_append ..).symm
  crc32 := crc32
  crc32_nil c := by simp [crc32]
  crc32_append c x y := by simp [crc32, List.foldl_append]
  md5 := .ofFun md5
  length_md5 _ := rfl
  sha1 := .ofFun sha1
  length_sha1 _ := rfl

example : adler32 1 (str "abc") = 0x024d0127 ∧ crc32 0 (str "abc") = 0x352441c2 := by decide +kernel

example : human_readable_evp (md5 (str "abc")) = str "900150983cd24fb0d6963f7d28e17f72" := by decide +kernel

example : human_readable_evp (sha1 (str "abc")) = str "a9993e364706816aba3e25717850c26c9cd0d89d" := by decide +kernel

def cks : CksLib where
  Set c v :=
    match unhex v with
    | some x => if x.length ≤ ValuSize then { c with Length := x.length, Value := x ++ c.Value.drop x.length } else c
    | none => c
  Get c := human_readable_evp (c.Value.take c.Length)
  name_set c v := by
    split
    · split <;> rfl
    · rfl
  set_hex c v x hv hx := by
    simp [hv, hx]
  set_rest c v x hv hx := by
    simp [hv, hx]
  get_hex _ := rfl

/-- A plugin that runs. -/
def env : Env := { Z := digests, cks := cks }

end XrdHdfs.Reference
