import XrdHdfs.Absorb
import XrdHdfs.Lib.Prog
import XrdHdfs.Reference

/-!
# The CVMFS branch of `Update` in machine arithmetic

`ChecksumState.update` counts in natural numbers.  Here the branch for CVMFS is taken with the types of the source:
`m_cur_chunk_bytes` and `bsize` are `size_t`, `m_offset` and `total_bytes` are `off_t`, and every result wraps around.
Each reading of the buffer is logged.

`UpdateLoop.turn_next` says that a turn of this loop is a turn of the one in natural numbers, `CvmfsState.update_counts`
what one `Update` does, and `chunk_accounting` what any sequence of them does, as long as an `off_t` can count the bytes.
-/

namespace XrdHdfs

open Lib

variable {Z : Digests}

/-! ### The source -/

/-- A reading of a buffer of `size` bytes: where, and how many bytes. -/
structure BufferRead where
  offset : ℤ
  len : ℤ
  size : ℕ
  deriving DecidableEq

/-- It stays inside the buffer. -/
def BufferRead.Inside (r : BufferRead) : Prop := 0 ≤ r.offset ∧ 0 ≤ r.len ∧ r.offset + r.len ≤ r.size

instance (r : BufferRead) : Decidable r.Inside := by unfold BufferRead.Inside; infer_instance

/-- `CvmfsChunk`. -/
structure ChunkRecord where
  m_sha1 : Bytes
  m_offset : ℤ
  deriving DecidableEq

/-- The members of a `ChecksumState` with CVMFS that `Update` changes for it. -/
structure CvmfsState (Z : Digests) where
  m_offset : ℤ := 0
  m_cur_chunk_bytes : ℤ := 0
  m_file_sha1 : Z.sha1.Ctx := Z.sha1.init
  m_chunk_sha1 : Z.sha1.Ctx := Z.sha1.init
  m_chunks : List ChunkRecord := []

/-- `EVP_DigestUpdate(ctx, buffer + offset, len)`. -/
def digestUpdate (ctx : Z.sha1.Ctx) (buffer : Bytes) (offset len : ℤ) : Prog (List BufferRead) Z.sha1.Ctx :=
  .step fun reads => (Z.sha1.update ctx (slice buffer offset.toNat len.toNat), reads ++ [⟨offset, len, buffer.length⟩])

/-- `(m_chunks.size() == 0) ? 0 : (m_chunks.back().m_offset + CVMFS_CHUNK_SIZE)`. -/
def nextChunkOffset (m_chunks : List ChunkRecord) : ℤ :=
  match m_chunks.getLast? with
  | none => 0
  | some last => s64 (last.m_offset + CVMFS_CHUNK_SIZE)

/-- The variables of the loop of `Update`. -/
structure UpdateLoop (Z : Digests) where
  m_chunk_sha1 : Z.sha1.Ctx
  m_chunks : List ChunkRecord
  m_cur_chunk_bytes : ℤ
  total_bytes : ℤ
  buffer_offset : ℤ
  bsize : ℤ

def UpdateLoop.turn (buffer : Bytes) (v : UpdateLoop Z) : Prog (List BufferRead) (UpdateLoop Z ⊕ UpdateLoop Z) :=
  if CVMFS_CHUNK_SIZE ≤ v.total_bytes then do
    let new_bytes := u64 (CVMFS_CHUNK_SIZE - v.m_cur_chunk_bytes)
    let m_chunk_sha1 ← digestUpdate v.m_chunk_sha1 buffer v.buffer_offset new_bytes
    let new_chunk : ChunkRecord := {
      m_sha1 := human_readable_evp (Z.sha1.final m_chunk_sha1)
      m_offset := nextChunkOffset v.m_chunks }
    pure (.inl {
      m_chunk_sha1 := Z.sha1.init
      m_chunks := v.m_chunks ++ [new_chunk]
      m_cur_chunk_bytes := 0
      total_bytes := s64 (v.total_bytes - CVMFS_CHUNK_SIZE)
      buffer_offset := u64 (v.buffer_offset + new_bytes)
      bsize := u64 (v.bsize - new_bytes) })
  else pure (.inr v)

/-- `Update` of a state with CVMFS, in what it does for it. -/
def CvmfsState.update (st : CvmfsState Z) (buffer : Bytes) : Prog (List BufferRead) (CvmfsState Z) := do
  let bsize : ℤ := buffer.length
  let m_offset := s64 (st.m_offset + bsize)
  let m_file_sha1 ← digestUpdate st.m_file_sha1 buffer 0 bsize
  let v ← .loop (UpdateLoop.turn buffer) {
    m_chunk_sha1 := st.m_chunk_sha1
    m_chunks := st.m_chunks
    m_cur_chunk_bytes := st.m_cur_chunk_bytes
    total_bytes := s64 (u64 (st.m_cur_chunk_bytes + bsize))
    buffer_offset := 0
    bsize }
  let m_chunk_sha1 ← digestUpdate v.m_chunk_sha1 buffer v.buffer_offset v.bsize
  pure {
    m_offset
    m_cur_chunk_bytes := u64 (v.m_cur_chunk_bytes + v.bsize)
    m_file_sha1
    m_chunk_sha1
    m_chunks := v.m_chunks }

/-- A sequence of `Update`s. -/
def CvmfsState.updates : List Bytes → CvmfsState Z → Prog (List BufferRead) (CvmfsState Z)
  | [], st => pure st
  | buffer :: buffers, st => do
    let st ← st.update buffer
    updates buffers st

/-! ### The loop in natural numbers -/

/-- A chunk with its offset as an `off_t`. -/
def ChecksumState.chunkRecord (c : CvmfsChunk) : ChunkRecord := ⟨c.m_sha1, c.m_offset⟩

/-- The variables when nothing has wrapped around. -/
def UpdateLoop.of (s : ChecksumState.Splitter Z) : UpdateLoop Z where
  m_chunk_sha1 := s.sha1
  m_chunks := s.chunks.map ChecksumState.chunkRecord
  m_cur_chunk_bytes := s.cur_chunk_bytes
  total_bytes := s.total_bytes
  buffer_offset := s.buffer_offset
  bsize := s.bsize

/-- **The accounting**: what the state should be after the bytes `D`. -/
structure Counts (D : Bytes) (st : CvmfsState Z) : Prop where
  offset : st.m_offset = D.length
  chunks : st.m_chunks = (List.range (D.length / CVMFS_CHUNK_SIZE)).map fun i =>
    ⟨human_readable_evp (Z.sha1.hash (slice D (i * CVMFS_CHUNK_SIZE) CVMFS_CHUNK_SIZE)), i * CVMFS_CHUNK_SIZE⟩
  cur_chunk_bytes : st.m_cur_chunk_bytes = D.length % CVMFS_CHUNK_SIZE
  chunk_sha1 : st.m_chunk_sha1 = Z.sha1.absorb (D.drop (D.length / CVMFS_CHUNK_SIZE * CVMFS_CHUNK_SIZE))
  file_sha1 : st.m_file_sha1 = Z.sha1.absorb D

/-! ### No turn wraps around -/

section Turn

open ChecksumState

theorem nextChunkOffset_map {chunks : List CvmfsChunk} (h : nextOffset chunks < 2 ^ 63) :
    nextChunkOffset (chunks.map chunkRecord) = nextOffset chunks := by
  unfold nextChunkOffset
  unfold nextOffset at h ⊢
  rw [List.getLast?_map]
  cases hlast : chunks.getLast? with
  | none => rfl
  | some last =>
    rw [hlast] at h
    dsimp only [Option.map_some, chunkRecord] at h ⊢
    rw [s64_of_lt (by omega) (by exact_mod_cast h)]
    push_cast
    rfl

theorem map_chunkRecord (D : Bytes) : (chunkEntries Z D).map chunkRecord =
    (List.range (D.length / CVMFS_CHUNK_SIZE)).map fun i =>
      ⟨human_readable_evp (Z.sha1.hash (slice D (i * CVMFS_CHUNK_SIZE) CVMFS_CHUNK_SIZE)), i * CVMFS_CHUNK_SIZE⟩ := by
  unfold chunkEntries
  rw [List.map_map]
  refine List.map_congr_left fun i _ => ?_
  simp [chunkRecord, chunkEntry, chunk]

variable {D buffer : Bytes} {s : Splitter Z} {reads : List BufferRead}

/-- What is left to do is not more than there is. -/
theorem ChecksumState.Splitting.total_le (hs : Splitting D buffer s) : s.total_bytes ≤ (D ++ buffer).length := by
  have hcur := Nat.mod_le (D ++ buffer.take s.buffer_offset).length CVMFS_CHUNK_SIZE
  rw [← hs.cur, List.length_append, List.length_take] at hcur
  have htaken := hs.taken
  have htotal := hs.total
  rw [List.length_append]
  omega

/-- **A turn** is one of the loop in natural numbers, and reads inside the buffer. -/
theorem UpdateLoop.turn_next (hs : Splitting D buffer s) (hN : (D ++ buffer).length < 2 ^ 63)
    (hreads : ∀ r ∈ reads, r.Inside) : Gives ((UpdateLoop.of s).turn buffer) reads fun r reads' =>
      (∀ r ∈ reads', r.Inside) ∧ (r = .inl (.of (s.next buffer)) ∧ CVMFS_CHUNK_SIZE ≤ s.total_bytes ∨
        r = .inr (.of s) ∧ s.total_bytes < CVMFS_CHUNK_SIZE) := by
  have htotal := hs.total_le
  have hcur := hs.cur_lt
  have hsum := hs.total
  have htaken := hs.taken
  have hbuf : buffer.length ≤ (D ++ buffer).length := by simp
  unfold turn
  refine Gives.ite (fun hle => ?_) fun hlt => Gives.pure ⟨hreads, Or.inr ⟨rfl, ?_⟩⟩
  swap
  · exact Nat.lt_of_not_le fun h => hlt (Int.ofNat_le.2 h)
  replace hle : CVMFS_CHUNK_SIZE ≤ s.total_bytes := Int.ofNat_le.1 hle
  have hfit : s.buffer_offset + (CVMFS_CHUNK_SIZE - s.cur_chunk_bytes) ≤ buffer.length := by omega
  have hnew : u64 (CVMFS_CHUNK_SIZE - (UpdateLoop.of s).m_cur_chunk_bytes) = (CVMFS_CHUNK_SIZE - s.cur_chunk_bytes : ℕ) := by
    change u64 ((CVMFS_CHUNK_SIZE : ℤ) - (s.cur_chunk_bytes : ℤ)) = _
    rw [u64_of_lt (by omega) (by omega)]
    omega
  have htot : s64 ((UpdateLoop.of s).total_bytes - CVMFS_CHUNK_SIZE) = (s.total_bytes - CVMFS_CHUNK_SIZE : ℕ) := by
    change s64 ((s.total_bytes : ℤ) - CVMFS_CHUNK_SIZE) = _
    rw [s64_of_lt (by omega) (by omega)]
    omega
  have hoff : u64 ((UpdateLoop.of s).buffer_offset + (CVMFS_CHUNK_SIZE - s.cur_chunk_bytes : ℕ)) =
      (s.buffer_offset + (CVMFS_CHUNK_SIZE - s.cur_chunk_bytes) : ℕ) := by
    change u64 ((s.buffer_offset : ℤ) + _) = _
    rw [u64_of_lt (by omega) (by omega)]
    omega
  have hsize : u64 ((UpdateLoop.of s).bsize - (CVMFS_CHUNK_SIZE - s.cur_chunk_bytes : ℕ)) =
      (s.bsize - (CVMFS_CHUNK_SIZE - s.cur_chunk_bytes) : ℕ) := by
    change u64 ((s.bsize : ℤ) - _) = _
    rw [u64_of_lt (by omega) (by omega)]
    omega
  have hchunk : nextChunkOffset (UpdateLoop.of s).m_chunks = nextOffset s.chunks := by
    refine nextChunkOffset_map ?_
    rw [hs.chunks, next_offset]
    refine (Nat.div_mul_le_self _ _).trans_lt (lt_of_le_of_lt ?_ hN)
    rw [List.length_append, List.length_append, List.length_take]
    omega
  refine Gives.bind (Gives.step (Gives.pure ⟨?_, Or.inl ⟨?_, hle⟩⟩))
  · rw [hnew]
    rintro r hr
    rcases List.mem_append.1 hr with hr | hr
    · exact hreads r hr
    · obtain rfl := List.mem_singleton.1 hr
      exact ⟨Int.natCast_nonneg _, Int.natCast_nonneg _, Int.ofNat_le.2 hfit⟩
  · dsimp only
    rw [hnew, htot, hoff, hsize, hchunk]
    unfold UpdateLoop.of Splitter.next
    dsimp only
    rw [Int.toNat_natCast, Int.toNat_natCast, List.map_append]
    rfl

/-- **The loop** ends, as the one in natural numbers does. -/
theorem UpdateLoop.loop_splitting (hs : Splitting D buffer s) (hN : (D ++ buffer).length < 2 ^ 63)
    (hreads : ∀ r ∈ reads, r.Inside) : Gives (.loop (UpdateLoop.turn buffer) (UpdateLoop.of s)) reads fun v reads' =>
      (∀ r ∈ reads', r.Inside) ∧ ∃ s' : Splitter Z, v = UpdateLoop.of s' ∧ Splitting D buffer s' ∧
        s'.total_bytes < CVMFS_CHUNK_SIZE := by
  refine Gives.loop
    (fun v reads' => (∀ r ∈ reads', r.Inside) ∧ ∃ s' : Splitter Z, v = UpdateLoop.of s' ∧ Splitting D buffer s')
    (fun v _ => v.total_bytes.toNat) ?_ (UpdateLoop.of s) reads ⟨hreads, s, rfl, hs⟩
  rintro _ reads₁ ⟨hreads₁, s₁, rfl, hs₁⟩
  refine (UpdateLoop.turn_next hs₁ hN hreads₁).mono ?_
  rintro _ reads₂ ⟨hreads₂, ⟨rfl, hle⟩ | ⟨rfl, hlt⟩⟩
  · refine ⟨⟨hreads₂, s₁.next buffer, rfl, hs₁.next hle⟩, ?_⟩
    dsimp only [UpdateLoop.of, Splitter.next]
    have hpos : 0 < CVMFS_CHUNK_SIZE := by norm_num
    rw [Int.toNat_natCast, Int.toNat_natCast]
    omega
  · exact ⟨hreads₂, s₁, rfl, hs₁, hlt⟩

end Turn

/-! ### Calls of `Update` -/

section Calls

open ChecksumState

variable {D : Bytes} {st : CvmfsState Z} {reads : List BufferRead}

theorem counts_new : Counts [] ({} : CvmfsState Z) where
  offset := rfl
  chunks := rfl
  cur_chunk_bytes := rfl
  chunk_sha1 := Z.sha1.absorb_nil.symm
  file_sha1 := Z.sha1.absorb_nil.symm

/-- The loop begins where the one in natural numbers does. -/
theorem Counts.splitting (h : Counts D st) (buffer : Bytes) (hN : (D ++ buffer).length < 2 ^ 63) :
    ∃ s : Splitter Z, Splitting D buffer s ∧ UpdateLoop.of s = {
      m_chunk_sha1 := st.m_chunk_sha1
      m_chunks := st.m_chunks
      m_cur_chunk_bytes := st.m_cur_chunk_bytes
      total_bytes := s64 (u64 (st.m_cur_chunk_bytes + buffer.length))
      buffer_offset := 0
      bsize := buffer.length } := by
  have hcur : st.m_cur_chunk_bytes = (D.length % CVMFS_CHUNK_SIZE : ℕ) := h.cur_chunk_bytes.trans (Int.natCast_emod _ _).symm
  have hle := Nat.mod_le D.length CVMFS_CHUNK_SIZE
  rw [List.length_append] at hN
  refine ⟨⟨st.m_chunk_sha1, chunkEntries Z D, D.length % CVMFS_CHUNK_SIZE, D.length % CVMFS_CHUNK_SIZE + buffer.length, 0,
    buffer.length⟩, ⟨by simp, rfl, by simp, by simp, ?_⟩, ?_⟩
  · rw [List.take_zero, List.append_nil]
    exact h.chunk_sha1
  · have htotal : s64 (u64 (st.m_cur_chunk_bytes + buffer.length)) =
        (D.length % CVMFS_CHUNK_SIZE + buffer.length : ℕ) := by
      rw [hcur, ← Nat.cast_add, u64_of_lt (by omega) (by omega), s64_of_lt (by omega) (by omega)]
    rw [htotal, hcur, h.chunks, ← map_chunkRecord]
    rfl

/-- **One `Update`** ends, reads inside its buffer, and keeps the accounting. -/
theorem CvmfsState.update_counts (h : Counts D st) (buffer : Bytes) (hN : (D ++ buffer).length < 2 ^ 63)
    (hreads : ∀ r ∈ reads, r.Inside) : Gives (st.update buffer) reads fun st' reads' =>
      (∀ r ∈ reads', r.Inside) ∧ Counts (D ++ buffer) st' := by
  have hwhole : (BufferRead.mk 0 buffer.length buffer.length).Inside := ⟨le_rfl, Int.natCast_nonneg _, by simp⟩
  obtain ⟨s, hs, heq⟩ := h.splitting buffer hN
  refine Gives.bind (Gives.step (Gives.bind ?_))
  rw [← heq]
  refine (UpdateLoop.loop_splitting hs hN (List.forall_mem_append.2 ⟨hreads, by simpa using hwhole⟩)).mono ?_
  rintro _ reads₁ ⟨hreads₁, s₁, rfl, hs₁, hlt⟩
  obtain ⟨hchunks, hcur, hsha1⟩ := hs₁.finish hlt
  have htaken := hs₁.taken
  have hrest : (BufferRead.mk (UpdateLoop.of s₁).buffer_offset (UpdateLoop.of s₁).bsize buffer.length).Inside :=
    ⟨Int.natCast_nonneg _, Int.natCast_nonneg _, Int.ofNat_le.2 htaken.le⟩
  refine Gives.bind (Gives.step (Gives.pure ⟨List.forall_mem_append.2 ⟨hreads₁, by simpa using hrest⟩, ?_, ?_, ?_, ?_, ?_⟩))
  · dsimp only
    rw [List.length_append] at hN
    rw [h.offset, s64_of_lt (by omega) (by omega), List.length_append, Nat.cast_add]
  · dsimp only [UpdateLoop.of]
    rw [hchunks, map_chunkRecord]
  · have hmod := Nat.mod_le (D ++ buffer).length CVMFS_CHUNK_SIZE
    dsimp only [UpdateLoop.of]
    rw [← Nat.cast_add, hcur, u64_of_lt (by omega) (by omega), Int.natCast_emod]
  · dsimp only [UpdateLoop.of]
    rw [Int.toNat_natCast, Int.toNat_natCast]
    exact hsha1
  · dsimp only
    rw [Int.toNat_zero, Int.toNat_natCast, h.file_sha1, Z.sha1.update_absorb]
    congr 2
    exact List.take_length

theorem CvmfsState.updates_counts (buffers : List Bytes) (h : Counts D st) (hN : (D ++ buffers.flatten).length < 2 ^ 63)
    (hreads : ∀ r ∈ reads, r.Inside) : Gives (CvmfsState.updates buffers st) reads fun st' reads' =>
      (∀ r ∈ reads', r.Inside) ∧ Counts (D ++ buffers.flatten) st' := by
  induction buffers generalizing D st reads with
  | nil => exact Gives.pure ⟨hreads, by simpa using h⟩
  | cons buffer buffers ih =>
    rw [List.flatten_cons, ← List.append_assoc] at hN ⊢
    have hN' : (D ++ buffer).length < 2 ^ 63 := lt_of_le_of_lt (by simp) hN
    refine Gives.bind ((CvmfsState.update_counts h buffer hN' hreads).mono ?_)
    rintro st' reads' ⟨hreads', h'⟩
    exact ih h' hN hreads'

/-- **The chunk accounting.**  Any sequence of `Update`s on a new state, of as many bytes as an `off_t` can count, ends and
reads only inside the buffers.  Afterwards `m_offset` is the number of bytes, there is an entry for each full chunk, with
its offset and its SHA-1, and the running hash has absorbed the rest. -/
theorem chunk_accounting (buffers : List Bytes) (hN : buffers.flatten.length < 2 ^ 63) :
    Gives (CvmfsState.updates buffers ({} : CvmfsState Z)) [] fun st reads =>
      (∀ r ∈ reads, r.Inside) ∧ Counts buffers.flatten st :=
  CvmfsState.updates_counts buffers counts_new hN (by simp)

/-- A full chunk and a byte more, in two calls. -/
def chunkAndByte : List Bytes := [List.replicate 25165824 0, str "a"]

theorem chunk_accounting_chunkAndByte : chunkAndByte.flatten.length < 2 ^ 63 ∧
    Gives (CvmfsState.updates chunkAndByte ({} : CvmfsState Reference.env.Z)) [] fun st reads =>
      (∀ r ∈ reads, r.Inside) ∧ Counts chunkAndByte.flatten st :=
  have hN : chunkAndByte.flatten.length < 2 ^ 63 := by
    rw [chunkAndByte, List.flatten_cons, List.length_append, List.length_replicate]
    decide
  ⟨hN, chunk_accounting chunkAndByte hN⟩

/-! ### The state in natural numbers -/

/-- The members for CVMFS of a `ChecksumState`. -/
def CvmfsState.of (st : ChecksumState Z) : CvmfsState Z where
  m_offset := st.m_offset
  m_cur_chunk_bytes := st.m_cur_chunk_bytes
  m_file_sha1 := st.m_file_sha1
  m_chunk_sha1 := st.m_chunk_sha1
  m_chunks := st.m_chunks.map chunkRecord

/-- **Nothing wraps around**: the members are those that `ChecksumState.update` computes. -/
theorem CvmfsState.updates_eq (junk : UInt32) {digests : ℕ} (hdigests : digests &&& CVMFS ≠ 0) (buffers : List Bytes)
    (hN : buffers.flatten.length < 2 ^ 63) : Gives (CvmfsState.updates buffers ({} : CvmfsState Z)) [] fun st _ =>
      st = .of (buffers.foldl ChecksumState.update (ChecksumState.new Z junk digests)) := by
  refine (CvmfsState.updates_counts buffers counts_new hN (by simp)).mono ?_
  rintro st reads ⟨-, h⟩
  have hfed := (fed_new (Z := Z) junk digests).updates buffers
  have hhas : (buffers.foldl ChecksumState.update (ChecksumState.new Z junk digests)).has CVMFS :=
    (has_updates _ buffers CVMFS).2 hdigests
  generalize buffers.foldl ChecksumState.update (ChecksumState.new Z junk digests) = st' at hfed hhas
  rw [List.nil_append] at h hfed
  obtain ⟨m_offset, m_cur_chunk_bytes, m_file_sha1, m_chunk_sha1, m_chunks⟩ := st
  have hoffset := h.offset
  have hchunks := h.chunks
  have hcur := h.cur_chunk_bytes
  have hsha1 := h.chunk_sha1
  have hfile := h.file_sha1
  dsimp only at hoffset hchunks hcur hsha1 hfile
  unfold CvmfsState.of
  rw [hoffset, hchunks, hcur, hsha1, hfile, hfed.offset, hfed.chunks hhas, hfed.cur hhas, hfed.chunk_sha1 hhas,
    hfed.file_sha1 hhas, map_chunkRecord, Int.natCast_emod]
  rfl

end Calls

end XrdHdfs
