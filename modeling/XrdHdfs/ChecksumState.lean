import XrdHdfs.Text
import XrdHdfs.Lib.Stream

/-!
# `ChecksumState`

The running checksums of one file: POSIX `cksum`, Adler-32, CRC-32, MD5 and the CVMFS graft, which lists the
SHA-1 of the file and of its 24 MiB chunks.  The hash functions are those of zlib and OpenSSL and are
parameters (`Digests`), of which only what the libraries document is known.
-/

namespace XrdHdfs

open Lib

/-- zlib and OpenSSL.  `adler32` and `crc32` continue a running value, `md5` and `sha1` absorb into a context. -/
structure Digests where
  adler32 : UInt32 → Bytes → UInt32
  adler32_nil : adler32 1 [] = 1
  adler32_append : ∀ x y, adler32 (adler32 1 x) y = adler32 1 (x ++ y)
  crc32 : UInt32 → Bytes → UInt32
  crc32_nil : ∀ c, crc32 c [] = c
  crc32_append : ∀ c x y, crc32 (crc32 c x) y = crc32 c (x ++ y)
  md5 : StreamHash UInt8
  length_md5 : ∀ x, (md5.hash x).length = 16
  sha1 : StreamHash UInt8
  length_sha1 : ∀ x, (sha1.hash x).length = 20

/-! ### The state -/

@[match_pattern] abbrev MD5 : ℕ := 0x01
@[match_pattern] abbrev CKSUM : ℕ := 0x02
@[match_pattern] abbrev ADLER32 : ℕ := 0x04
@[match_pattern] abbrev CVMFS : ℕ := 0x08
@[match_pattern] abbrev CRC32 : ℕ := 0x10
abbrev ALL : ℕ := 0xff

abbrev CVMFS_CHUNK_SIZE : ℕ := 25165824

/-- The table of the POSIX `cksum`. -/
def g_crctab : List UInt32 := [
  0x00000000, 0x04c11db7, 0x09823b6e, 0x0d4326d9, 0x130476dc, 0x17c56b6b, 0x1a864db2, 0x1e475005,
  0x2608edb8, 0x22c9f00f, 0x2f8ad6d6, 0x2b4bcb61, 0x350c9b64, 0x31cd86d3, 0x3c8ea00a, 0x384fbdbd,
  0x4c11db70, 0x48d0c6c7, 0x4593e01e, 0x4152fda9, 0x5f15adac, 0x5bd4b01b, 0x569796c2, 0x52568b75,
  0x6a1936c8, 0x6ed82b7f, 0x639b0da6, 0x675a1011, 0x791d4014, 0x7ddc5da3, 0x709f7b7a, 0x745e66cd,
  0x9823b6e0, 0x9ce2ab57, 0x91a18d8e, 0x95609039, 0x8b27c03c, 0x8fe6dd8b, 0x82a5fb52, 0x8664e6e5,
  0xbe2b5b58, 0xbaea46ef, 0xb7a96036, 0xb3687d81, 0xad2f2d84, 0xa9ee3033, 0xa4ad16ea, 0xa06c0b5d,
  0xd4326d90, 0xd0f37027, 0xddb056fe, 0xd9714b49, 0xc7361b4c, 0xc3f706fb, 0xceb42022, 0xca753d95,
  0xf23a8028, 0xf6fb9d9f, 0xfbb8bb46, 0xff79a6f1, 0xe13ef6f4, 0xe5ffeb43, 0xe8bccd9a, 0xec7dd02d,
  0x34867077, 0x30476dc0, 0x3d044b19, 0x39c556ae, 0x278206ab, 0x23431b1c, 0x2e003dc5, 0x2ac12072,
  0x128e9dcf, 0x164f8078, 0x1b0ca6a1, 0x1fcdbb16, 0x018aeb13, 0x054bf6a4, 0x0808d07d, 0x0cc9cdca,
  0x7897ab07, 0x7c56b6b0, 0x71159069, 0x75d48dde, 0x6b93dddb, 0x6f52c06c, 0x6211e6b5, 0x66d0fb02,
  0x5e9f46bf, 0x5a5e5b08, 0x571d7dd1, 0x53dc6066, 0x4d9b3063, 0x495a2dd4, 0x44190b0d, 0x40d816ba,
  0xaca5c697, 0xa864db20, 0xa527fdf9, 0xa1e6e04e, 0xbfa1b04b, 0xbb60adfc, 0xb6238b25, 0xb2e29692,
  0x8aad2b2f, 0x8e6c3698, 0x832f1041, 0x87ee0df6, 0x99a95df3, 0x9d684044, 0x902b669d, 0x94ea7b2a,
  0xe0b41de7, 0xe4750050, 0xe9362689, 0xedf73b3e, 0xf3b06b3b, 0xf771768c, 0xfa325055, 0xfef34de2,
  0xc6bcf05f, 0xc27dede8, 0xcf3ecb31, 0xcbffd686, 0xd5b88683, 0xd1799b34, 0xdc3abded, 0xd8fba05a,
  0x690ce0ee, 0x6dcdfd59, 0x608edb80, 0x644fc637, 0x7a089632, 0x7ec98b85, 0x738aad5c, 0x774bb0eb,
  0x4f040d56, 0x4bc510e1, 0x46863638, 0x42472b8f, 0x5c007b8a, 0x58c1663d, 0x558240e4, 0x51435d53,
  0x251d3b9e, 0x21dc2629, 0x2c9f00f0, 0x285e1d47, 0x36194d42, 0x32d850f5, 0x3f9b762c, 0x3b5a6b9b,
  0x0315d626, 0x07d4cb91, 0x0a97ed48, 0x0e56f0ff, 0x1011a0fa, 0x14d0bd4d, 0x19939b94, 0x1d528623,
  0xf12f560e, 0xf5ee4bb9, 0xf8ad6d60, 0xfc6c70d7, 0xe22b20d2, 0xe6ea3d65, 0xeba91bbc, 0xef68060b,
  0xd727bbb6, 0xd3e6a601, 0xdea580d8, 0xda649d6f, 0xc423cd6a, 0xc0e2d0dd, 0xcda1f604, 0xc960ebb3,
  0xbd3e8d7e, 0xb9ff90c9, 0xb4bcb610, 0xb07daba7, 0xae3afba2, 0xaafbe615, 0xa7b8c0cc, 0xa379dd7b,
  0x9b3660c6, 0x9ff77d71, 0x92b45ba8, 0x9675461f, 0x8832161a, 0x8cf30bad, 0x81b02d74, 0x857130c3,
  0x5d8a9099, 0x594b8d2e, 0x5408abf7, 0x50c9b640, 0x4e8ee645, 0x4a4ffbf2, 0x470cdd2b, 0x43cdc09c,
  0x7b827d21, 0x7f436096, 0x7200464f, 0x76c15bf8, 0x68860bfd, 0x6c47164a, 0x61043093, 0x65c52d24,
  0x119b4be9, 0x155a565e, 0x18197087, 0x1cd86d30, 0x029f3d35, 0x065e2082, 0x0b1d065b, 0x0fdc1bec,
  0x3793a651, 0x3352bbe6, 0x3e119d3f, 0x3ad08088, 0x2497d08d, 0x2056cd3a, 0x2d15ebe3, 0x29d4f654,
  0xc5a92679, 0xc1683bce, 0xcc2b1d17, 0xc8ea00a0, 0xd6ad50a5, 0xd26c4d12, 0xdf2f6bcb, 0xdbee767c,
  0xe3a1cbc1, 0xe760d676, 0xea23f0af, 0xeee2ed18, 0xf0a5bd1d, 0xf464a0aa, 0xf9278673, 0xfde69bc4,
  0x89b8fd09, 0x8d79e0be, 0x803ac667, 0x84fbdbd0, 0x9abc8bd5, 0x9e7d9662, 0x933eb0bb, 0x97ffad0c,
  0xafb010b1, 0xab710d06, 0xa6322bdf, 0xa2f33668, 0xbcb4666d, 0xb8757bda, 0xb5365d03, 0xb1f740b4]

/-- One byte of the POSIX CRC. -/
def crcStep (crc : UInt32) (c : UInt8) : UInt32 :=
  (crc <<< 8) ^^^ g_crctab.getD (((crc >>> 24) ^^^ c.toUInt32) &&& 0xFF).toNat 0

/-- The bytes of the length that `Finalize` appends, least significant first, and none for 0. -/
def crcLength : ℕ → ℕ → UInt32 → UInt32
  | 0, _, crc => crc
  | k + 1, n, crc => if n ≠ 0 then crcLength k (n / 256) (crcStep crc (n % 256).toUInt8) else crc

structure CvmfsChunk where
  m_sha1 : Bytes
  m_offset : ℕ
  deriving DecidableEq

structure ChecksumState (Z : Digests) where
  m_digests : ℕ
  m_crc32 : UInt32
  m_cksum : UInt32
  m_adler32 : UInt32
  m_cur_chunk_bytes : ℕ
  m_offset : ℕ
  m_md5 : Z.md5.Ctx
  m_file_sha1 : Z.sha1.Ctx
  m_chunk_sha1 : Z.sha1.Ctx
  m_md5_value : Bytes
  m_sha1_final : Bytes
  m_graft : Bytes
  m_chunks : List CvmfsChunk

namespace ChecksumState

variable {Z : Digests}

/-- The constructor.  It leaves `m_crc32` as the memory was. -/
def new (Z : Digests) (junk : UInt32) (digests : ℕ) : ChecksumState Z where
  m_digests := digests
  m_crc32 := junk
  m_cksum := 0
  m_adler32 := 1
  m_cur_chunk_bytes := 0
  m_offset := 0
  m_md5 := Z.md5.init
  m_file_sha1 := Z.sha1.init
  m_chunk_sha1 := Z.sha1.init
  m_md5_value := []
  m_sha1_final := []
  m_graft := []
  m_chunks := []

/-- The digest is one of those the state was made for. -/
def has (st : ChecksumState Z) (digest : ℕ) : Prop := st.m_digests &&& digest ≠ 0

instance (st : ChecksumState Z) (digest : ℕ) : Decidable (st.has digest) := by unfold has; infer_instance

/-- `(m_chunks.size() == 0) ? 0 : (m_chunks.back().m_offset + CVMFS_CHUNK_SIZE)`. -/
def nextOffset (chunks : List CvmfsChunk) : ℕ :=
  match chunks.getLast? with
  | none => 0
  | some last => last.m_offset + CVMFS_CHUNK_SIZE

/-- Where the chunk splitter of `Update` stands. -/
structure Splitter (Z : Digests) where
  sha1 : Z.sha1.Ctx
  chunks : List CvmfsChunk
  cur_chunk_bytes : ℕ
  total_bytes : ℕ
  buffer_offset : ℕ
  bsize : ℕ

/-- The loop of `Update` that closes chunks; each turn takes at least a chunk off `total_bytes`. -/
def split (buffer : Bytes) : ℕ → Splitter Z → Splitter Z
  | 0, s => s
  | k + 1, s =>
    if CVMFS_CHUNK_SIZE ≤ s.total_bytes then
      let new_bytes := CVMFS_CHUNK_SIZE - s.cur_chunk_bytes
      let sha1 := Z.sha1.update s.sha1 (slice buffer s.buffer_offset new_bytes)
      let new_chunk : CvmfsChunk := {
        m_sha1 := human_readable_evp (Z.sha1.final sha1)
        m_offset := nextOffset s.chunks }
      split buffer k {
        sha1 := Z.sha1.init
        chunks := s.chunks ++ [new_chunk]
        cur_chunk_bytes := 0
        total_bytes := s.total_bytes - CVMFS_CHUNK_SIZE
        buffer_offset := s.buffer_offset + new_bytes
        bsize := s.bsize - new_bytes }
    else s

/-- zlib takes the length as a 32-bit `uInt`. -/
def zlibBuffer (buffer : Bytes) : Bytes := buffer.take (buffer.length % 0x100000000)

/-- The splitter after the loop, for a call of `Update` with this buffer. -/
def splitter (st : ChecksumState Z) (buffer : Bytes) : Splitter Z :=
  let total_bytes := st.m_cur_chunk_bytes + buffer.length
  split buffer (total_bytes + 1)
    ⟨st.m_chunk_sha1, st.m_chunks, st.m_cur_chunk_bytes, total_bytes, 0, buffer.length⟩

def update (st : ChecksumState Z) (buffer : Bytes) : ChecksumState Z :=
  let s := st.splitter buffer
  { st with
    m_offset := st.m_offset + buffer.length
    m_adler32 := if st.has ADLER32 then Z.adler32 st.m_adler32 (zlibBuffer buffer) else st.m_adler32
    m_cksum := if st.has CKSUM then buffer.foldl crcStep st.m_cksum else st.m_cksum
    m_crc32 := if st.has CRC32 then Z.crc32 st.m_crc32 (zlibBuffer buffer) else st.m_crc32
    m_md5 := if st.has MD5 then Z.md5.update st.m_md5 buffer else st.m_md5
    m_file_sha1 := if st.has CVMFS then Z.sha1.update st.m_file_sha1 buffer else st.m_file_sha1
    m_chunk_sha1 :=
      if st.has CVMFS then Z.sha1.update s.sha1 (slice buffer s.buffer_offset s.bsize) else st.m_chunk_sha1
    m_chunks := if st.has CVMFS then s.chunks else st.m_chunks
    m_cur_chunk_bytes := if st.has CVMFS then s.cur_chunk_bytes + s.bsize else st.m_cur_chunk_bytes }

/-- The graft of a file: with fewer than two chunks, the file is its own only chunk. -/
def graft (size : ℕ) (sha1_final : Bytes) (chunks : List CvmfsChunk) : Bytes :=
  str "size=" ++ decimal size ++ str ";checksum=" ++ sha1_final ++
    match chunks with
    | [] => str ";chunk_offsets=0;chunk_checksums=" ++ sha1_final
    | [_] => str ";chunk_offsets=0;chunk_checksums=" ++ sha1_final
    | first :: chunks =>
      str ";chunk_offsets=0" ++ chunks.flatMap (fun c => str "," ++ decimal c.m_offset) ++
        str ";chunk_checksums=" ++ first.m_sha1 ++ chunks.flatMap fun c => str "," ++ c.m_sha1

/-- The chunk that `Finalize` makes of the bytes behind the last full chunk. -/
def lastChunk (st : ChecksumState Z) : Option CvmfsChunk :=
  let chunk_offset := st.m_offset - st.m_cur_chunk_bytes
  if st.m_cur_chunk_bytes ≠ 0 ∧ chunk_offset ≠ 0 then
    some ⟨human_readable_evp (Z.sha1.final st.m_chunk_sha1), chunk_offset⟩
  else none

def finalize (st : ChecksumState Z) : ChecksumState Z :=
  let m_sha1_final := human_readable_evp (Z.sha1.final st.m_file_sha1)
  -- a local variable of the source, which adds it to nothing
  let _new_chunk := st.lastChunk
  { st with
    m_md5_value := if st.has MD5 then Z.md5.final st.m_md5 else st.m_md5_value
    m_cksum :=
      if st.has CKSUM then ~~~ crcLength 8 (st.m_offset % 0x10000000000000000) st.m_cksum else st.m_cksum
    m_sha1_final := if st.has CVMFS then m_sha1_final else st.m_sha1_final
    m_graft := if st.has CVMFS then graft st.m_offset m_sha1_final st.m_chunks else st.m_graft }

/-- `Get`: the text of the first of the digests asked for that the state has. -/
def get (st : ChecksumState Z) (digest : ℕ) : Bytes :=
  if digest &&& CKSUM ≠ 0 ∧ st.has CKSUM then decimal st.m_cksum.toNat
  else if digest &&& CRC32 ≠ 0 ∧ st.has CRC32 then human_readable_evp (htonl st.m_crc32)
  else if digest &&& ADLER32 ≠ 0 ∧ st.has ADLER32 then human_readable_evp (htonl st.m_adler32)
  else if digest &&& MD5 ≠ 0 ∧ st.has MD5 then human_readable_evp st.m_md5_value
  else if digest &&& CVMFS ≠ 0 ∧ st.has CVMFS then st.m_graft
  else []

end ChecksumState

end XrdHdfs
