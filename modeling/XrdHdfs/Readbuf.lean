import XrdHdfs.Basic
import XrdHdfs.Lib.Prog

/-!
# The read-ahead buffer of `XrdHdfsFile`

`XrdHdfsFile::Read` over an arbitrary `hdfsPread`: the library function is a parameter with a hidden state
`σ` of its own, so that any behaviour of it, and any change of behaviour from one call to the next, is one
of its instances.  Memory around `readbuf` is a function of the index, negative and large indices included,
so that a read outside the buffer is an event that can be talked about and not a fault of the model.

`Read` reports what it did to the buffer as a list of `Access`es.
-/

namespace XrdHdfs

open Lib

/-- What one call of `hdfsPread` answers: the bytes it stored, whose number (a 32-bit `tSize`) it returns, with
the `errno` it left (the caller set it to 0 before), or `-1` with an `errno`. -/
inductive PreadAnswer where
  | got (data : Bytes) (errno : ℤ) (h : data.length < 2 ^ 31)
  | failed (errno : ℤ)

namespace PreadAnswer

/-- The return value of the call. -/
def n : PreadAnswer → ℤ
  | got data _ _ => data.length
  | failed _ => -1

/-- The value of `errno` after the call. -/
def errno : PreadAnswer → ℤ
  | got _ e _ => e
  | failed e => e

/-- The bytes the call stored. -/
def data : PreadAnswer → Bytes
  | got d _ _ => d
  | failed _ => []

theorem length_data_lt (a : PreadAnswer) : a.data.length < 2 ^ 31 := by
  cases a with
  | got d e h => exact h
  | failed e => simp [data]

theorem n_eq_length {a : PreadAnswer} (h : 0 ≤ a.n) : a.n = a.data.length := by
  cases a with
  | got d e _ => rfl
  | failed e => simp [n] at h

end PreadAnswer

/-- There is no memory. -/
theorem size_null : 0 = if (none : Option (ℤ → UInt8)).isSome then 32768 else 0 := rfl

/-- The `readbuf_*` fields of `XrdHdfsFile`.  `mem` is the memory `readbuf` points to, `none` for `NULL`;
`alloc` is what `Open` and `Close` maintain about its size. -/
structure Readbuf where
  mem : Option (ℤ → UInt8) := none
  size : ℕ := 0
  offset : ℤ := 0
  len : ℕ := 0
  bypassed : UInt32 := 0
  misses : UInt32 := 0
  hits : UInt32 := 0
  partialHits : UInt32 := 0
  bytesUsed : UInt64 := 0
  bytesLoaded : UInt64 := 0
  alloc : size = if mem.isSome then 32768 else 0 := by exact size_null

/-- What `Read` does to the buffer and to HDFS, in order. -/
inductive Access where
  /-- `readbuf_offset` is set and `readbuf_len` cleared -/
  | place (offset : ℤ)
  /-- one call of `hdfsPread`, with its position, length and return value -/
  | pread (pos len n : ℤ)
  /-- `hdfsPread` stored `n` bytes at `readbuf + start` -/
  | fill (start n : ℕ)
  /-- `memcpy` of `n` bytes out of `readbuf + start`, while `readbuf_len` is `len` -/
  | copy (start : ℤ) (n len : ℕ)
  deriving DecidableEq

/-- The result of one `Read`: the value returned and the bytes placed in the caller's buffer. -/
structure ReadOut where
  ret : ℤ
  data : Bytes
  accesses : List Access

namespace Readbuf

/-- The byte at `readbuf + i`. -/
def byteAt (rb : Readbuf) (i : ℤ) : UInt8 := (rb.mem.getD fun _ => 0) i

/-- `memcpy(…, readbuf + start, n)`. -/
def copyOut (rb : Readbuf) (start : ℤ) (n : ℕ) : Bytes :=
  (List.range n).map fun i : ℕ => rb.byteAt (start + i)

/-- `hdfsPread` stores `data` at `readbuf + readbuf_len`. -/
def store (rb : Readbuf) (data : Bytes) : Readbuf :=
  { rb with
    mem := rb.mem.map fun m i =>
      if (rb.len : ℤ) ≤ i ∧ i < rb.len + data.length then data.getD (i - rb.len).toNat 0 else m i
    len := rb.len + data.length
    alloc := by simpa using rb.alloc }

/-- `readbuf_offset = offset; readbuf_len = 0`. -/
def place (rb : Readbuf) (offset : ℤ) : Readbuf := { rb with offset := offset, len := 0 }

/-- The whole request lies in the buffer: a comparison of unsigned values, since `blen` and `readbuf_len`
are `size_t`. -/
def FullHit (rb : Readbuf) (offset : ℤ) (blen : ℕ) : Prop :=
  rb.offset ≤ offset ∧ u64 (offset + blen) ≤ u64 (rb.offset + rb.len)

/-- The request starts in the buffer: here `readbuf_len` is cast to `off_t`, so the comparison is signed. -/
def PartialHit (rb : Readbuf) (offset : ℤ) : Prop :=
  rb.offset ≤ offset ∧ offset < s64 (rb.offset + s64 rb.len)

instance (rb : Readbuf) (offset : ℤ) (blen : ℕ) : Decidable (rb.FullHit offset blen) := by
  unfold FullHit; infer_instance

instance (rb : Readbuf) (offset : ℤ) : Decidable (rb.PartialHit offset) := by
  unfold PartialHit; infer_instance

/-- What the buffer holds of a request, and what is left of the request. -/
structure Served where
  nbytes : ℤ
  data : Bytes
  offset : ℤ
  blen : ℕ
  accesses : List Access

/-- Satisfy as much of the request from the read buffer as possible. -/
def serve (rb : Readbuf) (offset : ℤ) (blen : ℕ) : Served × Readbuf :=
  if rb.PartialHit offset then
    let offset_in_readbuf := s64 (offset - rb.offset)
    let nbytes := s64 (rb.len - offset_in_readbuf)
    let n := (u64 nbytes).toNat
    -- shift request past end of readbuf
    (⟨nbytes, rb.copyOut offset_in_readbuf n, s64 (offset + nbytes), (u64 (blen - nbytes)).toNat,
        [.copy offset_in_readbuf n rb.len]⟩,
      { rb with partialHits := rb.partialHits + 1, bytesUsed := rb.bytesUsed + n.toUInt64 })
  else
    (⟨0, [], offset, blen, []⟩, { rb with misses := rb.misses + 1 })

section Read

variable {σ : Type} (hdfsPread : ℤ → ℤ → σ → PreadAnswer × σ)

/-- One turn of the loop that fills the buffer.  It leaves with the `errno` of a failed read, or with
`none` when the buffer is full or the end of the file is reached. -/
def refillTurn (offset : ℤ) :
    Readbuf × List Access → Prog σ ((Readbuf × List Access) ⊕ (Option ℤ × Readbuf × List Access))
  | (rb, acc) =>
    if rb.len < rb.size then do
      let pos := s64 (offset + rb.len)
      let want := s32 (rb.size - rb.len)
      let a ← .step (hdfsPread pos want)
      let acc := acc ++ [.pread pos want a.n]
      if a.n < 0 ∧ a.errno = EINTR then pure (.inl (rb, acc))
      else if a.n < 0 ∨ (a.errno ≠ 0 ∧ a.n = 0) then pure (.inr (some a.errno, rb, acc))
      else if a.n = 0 then pure (.inr (none, rb, acc))
      else pure (.inl (rb.store a.data, acc ++ [.fill rb.len a.data.length]))
    else pure (.inr (none, rb, acc))

/-- `XrdHdfsFile::Read`. -/
def read (rb : Readbuf) (offset : ℤ) (blen : ℕ) : Prog σ (ReadOut × Readbuf) :=
  if rb.size < blen then do
    -- request is larger than readbuf, so bypass readbuf and read directly into caller's buffer
    let a ← .step (hdfsPread offset (s32 blen))
    let nbytes := if a.n = 0 ∧ a.errno ≠ 0 then -1 else a.n
    let ret := if nbytes < 0 then emsg a.errno else nbytes
    pure (⟨ret, a.data, [.pread offset (s32 blen) a.n]⟩, { rb with bypassed := rb.bypassed + 1 })
  else if rb.FullHit offset blen then
    let offset_in_readbuf := s64 (offset - rb.offset)
    pure (⟨blen, rb.copyOut offset_in_readbuf blen, [.copy offset_in_readbuf blen rb.len]⟩,
      { rb with hits := rb.hits + 1, bytesUsed := rb.bytesUsed + blen.toUInt64 })
  else do
    let sv := rb.serve offset blen
    let (err, rb, acc) ← .loop (refillTurn hdfsPread sv.1.offset)
      (sv.2.place sv.1.offset, sv.1.accesses ++ [.place sv.1.offset])
    match err with
    | some errno => pure (⟨emsg errno, sv.1.data, acc⟩, rb)
    | none =>
      let bytes_to_copy := if rb.len < sv.1.blen then rb.len else sv.1.blen
      pure (⟨sv.1.nbytes + bytes_to_copy, sv.1.data ++ rb.copyOut 0 bytes_to_copy,
          acc ++ [.copy 0 bytes_to_copy rb.len]⟩,
        { rb with bytesLoaded := rb.bytesLoaded + (rb.len - bytes_to_copy).toUInt64 })

end Read

/-- The part of `XrdHdfsFile::Open` that sets the buffer up: allocate it unless there is one, then
invalidate its contents.  `malloc` is what the allocator returns. -/
def openReadbuf (rb : Readbuf) (malloc : Option (ℤ → UInt8)) : Readbuf :=
  match h : rb.mem with
  | some m => { mem := some m, size := rb.size, alloc := by rw [rb.alloc, h] }
  | none => { mem := malloc, size := if malloc.isSome then 32768 else 0, alloc := rfl }

end Readbuf

end XrdHdfs
