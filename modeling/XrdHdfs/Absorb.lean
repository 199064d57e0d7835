import XrdHdfs.ChecksumState

/-!
# What a `ChecksumState` has absorbed

`Fed D st` says that `st` is a state that was fed the bytes `D`, in whatever pieces: its `cksum`, MD5 and SHA-1
have the value that `D` gives them, and the chunk splitter stands behind the last full chunk of `D`.
`Absorbed junk D st` says the same also of the two checksums of zlib, which take no piece of 2^32 bytes or more
as a whole.  `Fed.update` and `Absorbed.update` are the step lemmas, `Fed.updates` and `Absorbed.updates` the
run lemmas, and `get_finalize` says that the texts `Get` returns after `Finalize` are functions of `D`
(`entryText`); only that of CRC32 depends also on the memory the state was constructed in.
-/

namespace XrdHdfs

open Lib

namespace ChecksumState

variable {Z : Digests}

/-- The entry of a chunk of the file in the graft. -/
def chunkEntry (Z : Digests) (D : Bytes) (i : ℕ) : CvmfsChunk where
  m_sha1 := human_readable_evp (Z.sha1.hash (chunk CVMFS_CHUNK_SIZE D i))
  m_offset := i * CVMFS_CHUNK_SIZE

/-- The entries of the full chunks. -/
def chunkEntries (Z : Digests) (D : Bytes) : List CvmfsChunk :=
  (List.range (D.length / CVMFS_CHUNK_SIZE)).map (chunkEntry Z D)

/-- The state was fed the bytes `D`. -/
structure Fed (D : Bytes) (st : ChecksumState Z) : Prop where
  offset : st.m_offset = D.length
  cksum : st.has CKSUM → st.m_cksum = D.foldl crcStep 0
  md5 : st.has MD5 → st.m_md5 = Z.md5.absorb D
  file_sha1 : st.has CVMFS → st.m_file_sha1 = Z.sha1.absorb D
  chunks : st.has CVMFS → st.m_chunks = chunkEntries Z D
  cur : st.has CVMFS → st.m_cur_chunk_bytes = D.length % CVMFS_CHUNK_SIZE
  chunk_sha1 : st.has CVMFS → st.m_chunk_sha1 = Z.sha1.absorb (rest CVMFS_CHUNK_SIZE D)

/-- The state was fed the bytes `D` in pieces that zlib takes as a whole, and was constructed in memory that
held `junk`. -/
structure Absorbed (junk : UInt32) (D : Bytes) (st : ChecksumState Z) : Prop extends Fed D st where
  adler32 : st.has ADLER32 → st.m_adler32 = Z.adler32 1 D
  crc32 : st.has CRC32 → st.m_crc32 = Z.crc32 junk D

theorem fed_new (junk : UInt32) (digests : ℕ) : Fed [] (new Z junk digests) where
  offset := rfl
  cksum _ := rfl
  md5 _ := Z.md5.absorb_nil.symm
  file_sha1 _ := Z.sha1.absorb_nil.symm
  chunks _ := rfl
  cur _ := rfl
  chunk_sha1 _ := Z.sha1.absorb_nil.symm

theorem absorbed_new (junk : UInt32) (digests : ℕ) : Absorbed junk [] (new Z junk digests) where
  toFed := fed_new junk digests
  adler32 _ := Z.adler32_nil.symm
  crc32 _ := (Z.crc32_nil junk).symm

/-! ### The chunk splitter -/

theorem chunkEntries_append {D b : Bytes} (h : chunks CVMFS_CHUNK_SIZE (D ++ b) = chunks CVMFS_CHUNK_SIZE D) :
    chunkEntries Z (D ++ b) = chunkEntries Z D := by
  have hlen : (D ++ b).length / CVMFS_CHUNK_SIZE = D.length / CVMFS_CHUNK_SIZE := by
    rw [← length_chunks, ← length_chunks, h]
  unfold chunkEntries
  rw [hlen]
  refine List.map_congr_left fun i hi => ?_
  unfold chunkEntry
  rw [chunk_append]
  exact (Nat.mul_le_mul_right _ (List.mem_range.1 hi)).trans (Nat.div_mul_le_self _ _)

/-- Filling the chunk gives one entry more, with the SHA-1 of what was carried over and the new bytes. -/
theorem chunkEntries_fill {D b : Bytes} (h : D.length % CVMFS_CHUNK_SIZE + b.length = CVMFS_CHUNK_SIZE) :
    chunkEntries Z (D ++ b) = chunkEntries Z D ++
      [⟨human_readable_evp (Z.sha1.hash (rest CVMFS_CHUNK_SIZE D ++ b)), D.length / CVMFS_CHUNK_SIZE * CVMFS_CHUNK_SIZE⟩] := by
  obtain ⟨hchunks, -⟩ := chunks_append_fill (by norm_num) h
  have hlen : (D ++ b).length / CVMFS_CHUNK_SIZE = D.length / CVMFS_CHUNK_SIZE + 1 := by
    have := congrArg List.length hchunks
    simpa [length_chunks] using this
  have hlast : chunk CVMFS_CHUNK_SIZE (D ++ b) (D.length / CVMFS_CHUNK_SIZE) = rest CVMFS_CHUNK_SIZE D ++ b := by
    unfold chunks at hchunks
    rw [hlen, List.range_succ, List.map_append, map_chunk_append (Nat.div_mul_le_self _ _)] at hchunks
    simpa using hchunks
  unfold chunkEntries
  rw [hlen, List.range_succ, List.map_append]
  congr 1
  · refine List.map_congr_left fun i hi => ?_
    unfold chunkEntry
    rw [chunk_append]
    exact (Nat.mul_le_mul_right _ (List.mem_range.1 hi)).trans (Nat.div_mul_le_self _ _)
  · simp [chunkEntry, hlast]

/-- The offset that `Update` gives the next chunk. -/
theorem next_offset (D : Bytes) :
    nextOffset (chunkEntries Z D) = D.length / CVMFS_CHUNK_SIZE * CVMFS_CHUNK_SIZE := by
  unfold chunkEntries nextOffset
  cases D.length / CVMFS_CHUNK_SIZE with
  | zero => simp
  | succ k =>
    rw [List.range_succ, List.map_append, List.map_cons, List.map_nil, List.getLast?_concat]
    simp only [chunkEntry]
    ring

/-- **The splitter's invariant.** Of the buffer, the first `buffer_offset` bytes have been taken; `D` is what
the state had absorbed before. -/
structure Splitting (D buffer : Bytes) (s : Splitter Z) : Prop where
  taken : s.buffer_offset + s.bsize = buffer.length
  total : s.total_bytes = s.cur_chunk_bytes + s.bsize
  cur : s.cur_chunk_bytes = (D ++ buffer.take s.buffer_offset).length % CVMFS_CHUNK_SIZE
  chunks : s.chunks = chunkEntries Z (D ++ buffer.take s.buffer_offset)
  sha1 : s.sha1 = Z.sha1.absorb (rest CVMFS_CHUNK_SIZE (D ++ buffer.take s.buffer_offset))

theorem take_add_slice (b : Bytes) (i n : ℕ) : b.take (i + n) = b.take i ++ slice b i n := List.take_add

/-- What one turn of the loop makes of it: the chunk is filled and closed. -/
def Splitter.next (buffer : Bytes) (s : Splitter Z) : Splitter Z where
  sha1 := Z.sha1.init
  chunks := s.chunks ++ [{
    m_sha1 := human_readable_evp (Z.sha1.final
      (Z.sha1.update s.sha1 (slice buffer s.buffer_offset (CVMFS_CHUNK_SIZE - s.cur_chunk_bytes))))
    m_offset := nextOffset s.chunks }]
  cur_chunk_bytes := 0
  total_bytes := s.total_bytes - CVMFS_CHUNK_SIZE
  buffer_offset := s.buffer_offset + (CVMFS_CHUNK_SIZE - s.cur_chunk_bytes)
  bsize := s.bsize - (CVMFS_CHUNK_SIZE - s.cur_chunk_bytes)

section Splitting

variable {D buffer : Bytes} {s : Splitter Z}

theorem Splitting.cur_lt (hs : Splitting D buffer s) : s.cur_chunk_bytes < CVMFS_CHUNK_SIZE := by
  rw [hs.cur]
  exact Nat.mod_lt _ (by norm_num)

/-- A turn keeps the invariant. -/
theorem Splitting.next (hs : Splitting D buffer s) (hle : CVMFS_CHUNK_SIZE ≤ s.total_bytes) :
    Splitting D buffer (s.next buffer) := by
  -- the bytes that fill the chunk
  obtain ⟨P, hP⟩ : ∃ P, P = D ++ buffer.take s.buffer_offset := ⟨_, rfl⟩
  obtain ⟨b, hb⟩ : ∃ b, b = slice buffer s.buffer_offset (CVMFS_CHUNK_SIZE - s.cur_chunk_bytes) := ⟨_, rfl⟩
  have hcurlt := hs.cur_lt
  have htaken := hs.taken
  have htotal := hs.total
  have hblen : b.length = CVMFS_CHUNK_SIZE - s.cur_chunk_bytes := by
    rw [hb, length_slice]
    omega
  have hfill : P.length % CVMFS_CHUNK_SIZE + b.length = CVMFS_CHUNK_SIZE := by
    rw [hP, ← hs.cur, hblen]
    omega
  have hnext : D ++ buffer.take (s.buffer_offset + (CVMFS_CHUNK_SIZE - s.cur_chunk_bytes)) = P ++ b := by
    rw [take_add_slice, hP, hb, List.append_assoc]
  obtain ⟨-, hrest⟩ := chunks_append_fill (by norm_num) hfill
  refine ⟨?_, ?_, ?_, ?_, ?_⟩
  · dsimp only [Splitter.next]
    omega
  · dsimp only [Splitter.next]
    omega
  · dsimp only [Splitter.next]
    rw [hnext, ← length_rest, hrest]
    rfl
  · dsimp only [Splitter.next]
    rw [hnext, chunkEntries_fill hfill, hs.chunks, ← hP, next_offset, hs.sha1, ← hP, ← hb, Z.sha1.update_absorb]
    rfl
  · dsimp only [Splitter.next]
    rw [hnext, hrest]
    exact Z.sha1.absorb_nil.symm

/-- When less than a chunk is left, what remains of the buffer goes to the rest. -/
theorem Splitting.finish (hs : Splitting D buffer s) (hlt : s.total_bytes < CVMFS_CHUNK_SIZE) :
    s.chunks = chunkEntries Z (D ++ buffer) ∧
      s.cur_chunk_bytes + s.bsize = (D ++ buffer).length % CVMFS_CHUNK_SIZE ∧
      Z.sha1.update s.sha1 (slice buffer s.buffer_offset s.bsize) =
        Z.sha1.absorb (rest CVMFS_CHUNK_SIZE (D ++ buffer)) := by
  obtain ⟨P, hP⟩ : ∃ P, P = D ++ buffer.take s.buffer_offset := ⟨_, rfl⟩
  obtain ⟨e, he⟩ : ∃ e, e = slice buffer s.buffer_offset s.bsize := ⟨_, rfl⟩
  have htaken := hs.taken
  have htotal := hs.total
  have helen : e.length = s.bsize := by
    rw [he, length_slice]
    omega
  have hDb : D ++ buffer = P ++ e := by
    rw [hP, he, List.append_assoc, ← take_add_slice, htaken, List.take_length]
  have hcur := hs.cur
  rw [← hP] at hcur
  obtain ⟨hchunks, hrest⟩ := chunks_append_lt (C := CVMFS_CHUNK_SIZE) (D := P) (b := e) (by omega)
  refine ⟨?_, ?_, ?_⟩
  · rw [hDb, chunkEntries_append hchunks, hs.chunks, hP]
  · rw [hDb, ← length_rest, hrest, List.length_append, length_rest, hcur, helen]
  · rw [hDb, hrest, hs.sha1, ← hP, ← he, Z.sha1.update_absorb]

end Splitting

/-- The loop keeps the invariant, and ends with less than a chunk to go. -/
theorem split_splitting (D buffer : Bytes) :
    ∀ (k : ℕ) (s : Splitter Z), Splitting D buffer s → s.total_bytes < k →
      Splitting D buffer (split buffer k s) ∧ (split buffer k s).total_bytes < CVMFS_CHUNK_SIZE := by
  intro k
  induction k with
  | zero =>
    intro s _ h
    exact absurd h (Nat.not_lt_zero _)
  | succ k ih =>
    intro s hs hk
    unfold split
    by_cases hle : CVMFS_CHUNK_SIZE ≤ s.total_bytes
    · rw [if_pos hle]
      have hpos : 0 < CVMFS_CHUNK_SIZE := by norm_num
      refine ih (s.next buffer) (hs.next hle) ?_
      change s.total_bytes - CVMFS_CHUNK_SIZE < k
      omega
    · rw [if_neg hle]
      exact ⟨hs, by omega⟩

/-! ### Update -/

theorem zlibBuffer_eq {b : Bytes} (h : b.length < 2 ^ 32) : zlibBuffer b = b := by
  unfold zlibBuffer
  rw [Nat.mod_eq_of_lt (by simpa using h), List.take_length]

section Update

variable {junk : UInt32} {D : Bytes} {st : ChecksumState Z}

/-- What the splitter leaves behind for the next call. -/
theorem Fed.splitter (h : Fed D st) (hc : st.has CVMFS) (b : Bytes) :
    (st.splitter b).chunks = chunkEntries Z (D ++ b) ∧
      (st.splitter b).cur_chunk_bytes + (st.splitter b).bsize = (D ++ b).length % CVMFS_CHUNK_SIZE ∧
      Z.sha1.update (st.splitter b).sha1 (slice b (st.splitter b).buffer_offset (st.splitter b).bsize) =
        Z.sha1.absorb (rest CVMFS_CHUNK_SIZE (D ++ b)) := by
  have hinit : Splitting D b (⟨st.m_chunk_sha1, st.m_chunks, st.m_cur_chunk_bytes, st.m_cur_chunk_bytes + b.length, 0,
      b.length⟩ : Splitter Z) :=
    ⟨by simp, rfl, by simp [h.cur hc], by simp [h.chunks hc], by simp [h.chunk_sha1 hc]⟩
  obtain ⟨hs, hlt⟩ := split_splitting D b (st.m_cur_chunk_bytes + b.length + 1) _ hinit (Nat.lt_succ_self _)
  exact hs.finish hlt

/-- **One `Update`.** -/
theorem Fed.update (h : Fed D st) (b : Bytes) : Fed (D ++ b) (st.update b) := by
  constructor
  · show st.m_offset + b.length = (D ++ b).length
    rw [h.offset, List.length_append]
  · intro (hd : st.has CKSUM)
    show (if st.has CKSUM then _ else _) = _
    rw [if_pos hd, h.cksum hd, List.foldl_append]
  · intro (hd : st.has MD5)
    show (if st.has MD5 then _ else _) = _
    rw [if_pos hd, h.md5 hd, Z.md5.update_absorb]
  · intro (hd : st.has CVMFS)
    show (if st.has CVMFS then _ else _) = _
    rw [if_pos hd, h.file_sha1 hd, Z.sha1.update_absorb]
  · intro (hd : st.has CVMFS)
    show (if st.has CVMFS then _ else _) = _
    rw [if_pos hd]
    exact (h.splitter hd b).1
  · intro (hd : st.has CVMFS)
    show (if st.has CVMFS then _ else _) = _
    rw [if_pos hd]
    exact (h.splitter hd b).2.1
  · intro (hd : st.has CVMFS)
    show (if st.has CVMFS then _ else _) = _
    rw [if_pos hd]
    exact (h.splitter hd b).2.2

/-- One `Update` with a buffer that zlib takes as a whole. -/
theorem Absorbed.update (h : Absorbed junk D st) {b : Bytes} (hb : b.length < 2 ^ 32) :
    Absorbed junk (D ++ b) (st.update b) := by
  have hz := zlibBuffer_eq hb
  refine ⟨h.toFed.update b, fun (hd : st.has ADLER32) => ?_, fun (hd : st.has CRC32) => ?_⟩
  · show (if st.has ADLER32 then _ else _) = _
    rw [if_pos hd, hz, h.adler32 hd, Z.adler32_append]
  · show (if st.has CRC32 then _ else _) = _
    rw [if_pos hd, hz, h.crc32 hd, Z.crc32_append]

/-- **A run of `Update`s** feeds the state with everything. -/
theorem Fed.updates (h : Fed D st) (bs : List Bytes) : Fed (D ++ bs.flatten) (bs.foldl ChecksumState.update st) := by
  induction bs generalizing D st with
  | nil => simpa using h
  | cons b bs ih => simpa using ih (h.update b)

theorem Absorbed.updates (h : Absorbed junk D st) {bs : List Bytes} (hbs : ∀ b ∈ bs, b.length < 2 ^ 32) :
    Absorbed junk (D ++ bs.flatten) (bs.foldl ChecksumState.update st) := by
  induction bs generalizing D st with
  | nil => simpa using h
  | cons b bs ih =>
    have h' := ih (h.update (hbs b (by simp))) fun c hc => hbs c (List.mem_cons_of_mem _ hc)
    simpa using h'

theorem digests_updates (st : ChecksumState Z) (bs : List Bytes) :
    (bs.foldl ChecksumState.update st).m_digests = st.m_digests := by
  induction bs generalizing st with
  | nil => rfl
  | cons b bs ih => exact ih (st.update b)

theorem has_updates (st : ChecksumState Z) (bs : List Bytes) (digest : ℕ) :
    (bs.foldl ChecksumState.update st).has digest ↔ st.has digest := by
  rw [has, has, digests_updates]

/-- The two checksums of zlib have values that come from bytes, whatever was cut off in `Update`. -/
structure Streamed (st : ChecksumState Z) : Prop where
  adler32 : ∃ x, st.m_adler32 = Z.adler32 1 x
  crc32 : ∃ c x, st.m_crc32 = Z.crc32 c x

theorem Streamed.updates (h : Streamed st) (bs : List Bytes) : Streamed (bs.foldl ChecksumState.update st) := by
  induction bs generalizing st with
  | nil => exact h
  | cons b bs ih =>
    obtain ⟨⟨x, hx⟩, c, y, hy⟩ := h
    refine ih ⟨?_, ?_⟩
    · show ∃ x, (if st.has ADLER32 then _ else _) = _
      split
      · exact ⟨x ++ zlibBuffer b, by rw [hx, Z.adler32_append]⟩
      · exact ⟨x, hx⟩
    · show ∃ c x, (if st.has CRC32 then _ else _) = _
      split
      · exact ⟨c, y ++ zlibBuffer b, by rw [hy, Z.crc32_append]⟩
      · exact ⟨c, y, hy⟩

theorem streamed_new (junk : UInt32) (digests : ℕ) : Streamed (new Z junk digests) :=
  ⟨⟨[], Z.adler32_nil.symm⟩, junk, [], (Z.crc32_nil junk).symm⟩

/-- **An empty buffer** changes nothing. -/
theorem Fed.update_nil (h : Fed D st) (hs : Streamed st) : st.update [] = st := by
  obtain ⟨⟨x, hx⟩, c, y, hy⟩ := hs
  have hchunks := fun hc : st.has CVMFS => h.splitter hc []
  simp only [List.append_nil] at hchunks
  have hz : zlibBuffer [] = [] := rfl
  have hadler : (if st.has ADLER32 then Z.adler32 st.m_adler32 (zlibBuffer []) else st.m_adler32) = st.m_adler32 := by
    rw [hz, hx, Z.adler32_append, List.append_nil, ite_self]
  have hcrc : (if st.has CRC32 then Z.crc32 st.m_crc32 (zlibBuffer []) else st.m_crc32) = st.m_crc32 := by
    rw [hz, hy, Z.crc32_append, List.append_nil, ite_self]
  have hmd5 : (if st.has MD5 then Z.md5.update st.m_md5 [] else st.m_md5) = st.m_md5 := by
    split
    · next hd => rw [h.md5 hd, Z.md5.update_absorb, List.append_nil]
    · rfl
  have hfile : (if st.has CVMFS then Z.sha1.update st.m_file_sha1 [] else st.m_file_sha1) = st.m_file_sha1 := by
    split
    · next hd => rw [h.file_sha1 hd, Z.sha1.update_absorb, List.append_nil]
    · rfl
  unfold ChecksumState.update
  dsimp only
  rw [hadler, hcrc, hmd5, hfile, List.length_nil, Nat.add_zero, List.foldl_nil, ite_self]
  by_cases hc : st.has CVMFS
  · obtain ⟨h1, h2, h3⟩ := hchunks hc
    rw [if_pos hc, if_pos hc, if_pos hc, h1, h2, h3, ← h.chunks hc, ← h.cur hc, ← h.chunk_sha1 hc]
  · rw [if_neg hc, if_neg hc, if_neg hc]

end Update

/-! ### Finalize -/

/-- The POSIX checksum of a file: the CRC of its bytes and of its length. -/
def cksum (D : Bytes) : ℕ := (~~~ crcLength 8 (D.length % 0x10000000000000000) (D.foldl crcStep 0)).toNat

/-- The text of one digest of a file, without `Update` and `Finalize`. -/
def entryText (Z : Digests) (junk : UInt32) (D : Bytes) (digest : ℕ) : Bytes :=
  match digest with
  | MD5 => human_readable_evp (Z.md5.hash D)
  | CKSUM => decimal (cksum D)
  | ADLER32 => human_readable_evp (htonl (Z.adler32 1 D))
  | CVMFS => graft D.length (human_readable_evp (Z.sha1.hash D)) (chunkEntries Z D)
  | CRC32 => human_readable_evp (htonl (Z.crc32 junk D))
  | _ => []

/-- **The result of a checksum state** depends only on the bytes it was fed. -/
theorem Fed.get_finalize {junk : UInt32} {D : Bytes} {st : ChecksumState Z} (h : Fed D st) {digest : ℕ}
    (hd : digest ∈ [MD5, CKSUM, CVMFS]) (hhas : st.has digest) :
    st.finalize.get digest = entryText Z junk D digest := by
  have hfin : st.finalize.has digest := hhas
  simp only [List.mem_cons, List.not_mem_nil, or_false] at hd
  -- `Get` goes through the digests in its own order: those before the one asked for are not asked for
  unfold get
  rcases hd with rfl | rfl | rfl
  · rw [if_neg fun hc => hc.1 rfl, if_neg fun hc => hc.1 rfl, if_neg fun hc => hc.1 rfl, if_pos ⟨by decide, hfin⟩]
    show human_readable_evp (if st.has MD5 then _ else _) = _
    rw [if_pos hhas, h.md5 hhas]
    rfl
  · rw [if_pos ⟨by decide, hfin⟩]
    show decimal (if st.has CKSUM then _ else _ : UInt32).toNat = _
    rw [if_pos hhas, h.cksum hhas, h.offset]
    rfl
  · rw [if_neg fun hc => hc.1 rfl, if_neg fun hc => hc.1 rfl, if_neg fun hc => hc.1 rfl, if_neg fun hc => hc.1 rfl,
      if_pos ⟨by decide, hfin⟩]
    show (if st.has CVMFS then _ else _) = _
    rw [if_pos hhas, h.file_sha1 hhas, h.chunks hhas, h.offset]
    rfl

theorem Absorbed.get_finalize {junk : UInt32} {D : Bytes} {st : ChecksumState Z} (h : Absorbed junk D st) {digest : ℕ}
    (hd : digest ∈ [MD5, CKSUM, ADLER32, CVMFS, CRC32]) (hhas : st.has digest) :
    st.finalize.get digest = entryText Z junk D digest := by
  have hfin : st.finalize.has digest := hhas
  by_cases hd' : digest ∈ [MD5, CKSUM, CVMFS]
  · exact h.toFed.get_finalize hd' hhas
  · obtain rfl | rfl : digest = ADLER32 ∨ digest = CRC32 := by
      simp only [List.mem_cons, List.not_mem_nil, or_false] at hd hd'
      omega
    · unfold get
      rw [if_neg fun hc => hc.1 rfl, if_neg fun hc => hc.1 rfl, if_pos ⟨by decide, hfin⟩]
      show human_readable_evp (htonl st.m_adler32) = _
      rw [h.adler32 hhas]
      rfl
    · unfold get
      rw [if_neg fun hc => hc.1 rfl, if_pos ⟨by decide, hfin⟩]
      show human_readable_evp (htonl st.m_crc32) = _
      rw [h.crc32 hhas]
      rfl

end ChecksumState

end XrdHdfs
