import XrdHdfs.Absorb
import XrdHdfs.Reference

/-!
# The CVMFS graft

What the graft of a file should say (`DescribesFile`) and when the one that `ChecksumState` makes does.  The
graft lists the full chunks only: the chunk that `Finalize` makes of the bytes behind the last full chunk is
never put into `m_chunks`, so from two full chunks on the last checksum is that of a full chunk where the
listing makes its reader expect that of everything up to the end of the file (`graft_describes_iff`).
-/

namespace XrdHdfs

open Lib ChecksumState

/-! ### What a graft lists -/

/-- Comma-separated texts. -/
def commas (l : List Bytes) : Bytes := List.intercalate [44] l

/-- The text that lists a size, a checksum, the offsets of the chunks and their checksums. -/
def listing (size : ℕ) (sum : Bytes) (offsets : List ℕ) (sums : List Bytes) : Bytes :=
  str "size=" ++ decimal size ++ str ";checksum=" ++ human_readable_evp sum ++
    str ";chunk_offsets=" ++ commas (offsets.map decimal) ++
    str ";chunk_checksums=" ++ commas (sums.map human_readable_evp)

/-- The file cut at the offsets: each piece ends where the next one begins, the last one at the end. -/
def segments (D : Bytes) : List ℕ → List Bytes
  | [] => []
  | [o] => [D.drop o]
  | o :: o' :: os => slice D o (o' - o) :: segments D (o' :: os)

/-- **What a graft is for.**  It lists the size and the SHA-1 of the file, strictly increasing offsets from 0 on
that lie inside the file, and the SHA-1 of every piece between them. -/
def DescribesFile (Z : Digests) (D text : Bytes) : Prop :=
  ∃ offsets : List ℕ, offsets.head? = some 0 ∧ offsets.Pairwise (· < ·) ∧ (∀ o ∈ offsets, o < max D.length 1) ∧
    text = listing D.length (Z.sha1.hash D) offsets ((segments D offsets).map Z.sha1.hash)

/-! ### Reading a listing back -/

theorem commas_cons (a : Bytes) (l : List Bytes) : commas (a :: l) = a ++ l.flatMap fun b => str "," ++ b := by
  induction l generalizing a with
  | nil => simp [commas]
  | cons b l ih =>
    have hstep : commas (a :: b :: l) = a ++ str "," ++ commas (b :: l) := List.intercalate_cons_cons
    rw [hstep, ih b]
    simp

theorem mem_commas {c : UInt8} {l : List Bytes} (h : c ∈ commas l) : c = 44 ∨ ∃ a ∈ l, c ∈ a := by
  cases l with
  | nil => simp [commas] at h
  | cons a l =>
    rw [commas_cons, List.mem_append] at h
    rcases h with h | h
    · exact Or.inr ⟨a, by simp, h⟩
    · obtain ⟨b, hb, hc⟩ := List.mem_flatMap.1 h
      rcases List.mem_append.1 hc with hc | hc
      · exact Or.inl (List.mem_singleton.1 hc)
      · exact Or.inr ⟨b, List.mem_cons_of_mem _ hb, hc⟩

/-- Texts without commas can be read back. -/
theorem commas_injective {l l' : List Bytes} (hl : ∀ a ∈ l, 44 ∉ a) (hl' : ∀ a ∈ l', 44 ∉ a) (hne : l ≠ [])
    (hne' : l' ≠ []) (h : commas l = commas l') : l = l' := by
  rw [← List.splitOn_intercalate 44 hl hne, ← List.splitOn_intercalate 44 hl' hne']
  exact congrArg _ h

theorem comma_not_mem_decimal (n : ℕ) : 44 ∉ decimal n := fun h => absurd (isDigit_decimal h) (by decide)

theorem comma_not_mem_human (s : Bytes) : 44 ∉ human_readable_evp s :=
  fun h => absurd (isHexLower_human_readable_evp h) (by decide)

theorem semicolon_not_mem_offsets (offsets : List ℕ) : 59 ∉ commas (offsets.map decimal) := by
  intro h
  rcases mem_commas h with h | ⟨a, ha, h⟩
  · exact absurd h (by decide)
  · obtain ⟨n, -, rfl⟩ := List.mem_map.1 ha
    exact absurd (isDigit_decimal h) (by decide)

theorem semicolon_not_mem_sums (sums : List Bytes) :
    59 ∉ str "chunk_checksums=" ++ commas (sums.map human_readable_evp) := by
  intro h
  rcases List.mem_append.1 h with h | h
  · exact absurd h (by decide)
  · rcases mem_commas h with h | ⟨a, ha, h⟩
    · exact absurd h (by decide)
    · obtain ⟨s, -, rfl⟩ := List.mem_map.1 ha
      exact absurd (isHexLower_human_readable_evp h) (by decide)

/-- A listing determines what it lists. -/
theorem listing_injective {size : ℕ} {sum : Bytes} {os os' : List ℕ} {ss ss' : List Bytes} (ho : os ≠ [])
    (ho' : os' ≠ []) (hs : ss ≠ []) (hs' : ss' ≠ []) (h : listing size sum os ss = listing size sum os' ss') :
    os = os' ∧ ss = ss' := by
  unfold listing at h
  simp only [List.append_assoc, List.append_cancel_left_eq] at h
  -- the offsets end at the first semicolon
  have hsplit : str ";chunk_checksums=" = 59 :: str "chunk_checksums=" := rfl
  rw [hsplit, List.cons_append, List.cons_append,
    List.append_cons_inj_of_notMem (semicolon_not_mem_offsets os) (semicolon_not_mem_sums ss)] at h
  obtain ⟨hoff, -, hsum⟩ := h
  rw [List.append_cancel_left_eq] at hsum
  constructor
  · have := commas_injective (by simpa using fun n _ => comma_not_mem_decimal n)
      (by simpa using fun n _ => comma_not_mem_decimal n) (by simpa) (by simpa) hoff
    exact decimal_injective.list_map this
  · have := commas_injective (by simpa using fun s _ => comma_not_mem_human s)
      (by simpa using fun s _ => comma_not_mem_human s) (by simpa) (by simpa) hsum
    exact human_readable_evp_injective.list_map this

/-! ### The graft of the full chunks -/

section Graft

variable {Z : Digests} {D : Bytes}

/-- With fewer than two full chunks the file is listed as one piece. -/
theorem graft_short (h : D.length / CVMFS_CHUNK_SIZE < 2) :
    graft D.length (human_readable_evp (Z.sha1.hash D)) (chunkEntries Z D) =
      listing D.length (Z.sha1.hash D) [0] [Z.sha1.hash D] := by
  have hzero : str ";chunk_offsets=0;chunk_checksums=" =
      str ";chunk_offsets=" ++ (commas [decimal 0] ++ str ";chunk_checksums=") := rfl
  have hone : commas [human_readable_evp (Z.sha1.hash D)] = human_readable_evp (Z.sha1.hash D) := by
    simp [commas_cons]
  unfold chunkEntries listing
  generalize D.length / CVMFS_CHUNK_SIZE = k at h
  obtain rfl | rfl : k = 0 ∨ k = 1 := by omega
  · simp [graft, hzero, hone]
  · simp [graft, List.range_succ, hzero, hone]

/-- From two entries on, the entries are listed. -/
theorem graft_entries (size : ℕ) (sum : Bytes) (f : ℕ → Bytes) (C m : ℕ) :
    graft size (human_readable_evp sum) ((List.range (m + 2)).map fun i => ⟨human_readable_evp (f i), i * C⟩) =
      listing size sum ((List.range (m + 2)).map (· * C)) ((List.range (m + 2)).map f) := by
  have hzero : str ";chunk_offsets=0" = str ";chunk_offsets=" ++ decimal 0 := rfl
  have hrange : List.range (m + 2) = 0 :: 1 :: (List.range m).map (· + 2) := by
    rw [List.range_succ_eq_map, List.range_succ_eq_map]
    simp
  unfold listing
  rw [hrange]
  simp only [List.map_cons, commas_cons, List.flatMap_cons, List.flatMap_map, List.map_map, graft, hzero]
  simp

theorem graft_long {m : ℕ} (h : D.length / CVMFS_CHUNK_SIZE = m + 2) :
    graft D.length (human_readable_evp (Z.sha1.hash D)) (chunkEntries Z D) =
      listing D.length (Z.sha1.hash D) ((List.range (m + 2)).map (· * CVMFS_CHUNK_SIZE))
        ((List.range (m + 2)).map fun i => Z.sha1.hash (chunk CVMFS_CHUNK_SIZE D i)) := by
  unfold chunkEntries
  rw [h]
  exact graft_entries _ _ _ _ _

/-- The file cut at the offsets of its full chunks: the last piece goes to the end of the file. -/
theorem segments_chunks (C : ℕ) (m s : ℕ) :
    segments D ((List.range' s (m + 1)).map (· * C)) =
      (List.range' s m).map (chunk C D) ++ [D.drop ((s + m) * C)] := by
  induction m generalizing s with
  | zero => simp [segments]
  | succ m ih =>
    have hlen : (s + 1) * C - s * C = C := by
      rw [Nat.succ_mul, Nat.add_sub_cancel_left]
    have hs : s + 1 + m = s + (m + 1) := by omega
    rw [List.range'_succ, List.range'_succ, List.map_cons, List.map_cons, segments, hlen, List.range'_succ,
      ← List.map_cons (f := (· * C)), ← List.range'_succ, ih (s + 1), hs]
    rfl

/-- When the graft of the full chunks describes the file. -/
theorem describesFile_iff :
    DescribesFile Z D (graft D.length (human_readable_evp (Z.sha1.hash D)) (chunkEntries Z D)) ↔
      D.length < 2 * CVMFS_CHUNK_SIZE ∨ CVMFS_CHUNK_SIZE ∣ D.length ∨
        Z.sha1.hash (chunk CVMFS_CHUNK_SIZE D (D.length / CVMFS_CHUNK_SIZE - 1)) =
          Z.sha1.hash (D.drop ((D.length / CVMFS_CHUNK_SIZE - 1) * CVMFS_CHUNK_SIZE)) := by
  rcases Nat.lt_or_ge (D.length / CVMFS_CHUNK_SIZE) 2 with hk | hk
  · -- one piece
    have hlt : D.length < 2 * CVMFS_CHUNK_SIZE := (Nat.div_lt_iff_lt_mul (by norm_num)).1 hk
    refine iff_of_true ⟨[0], rfl, by simp, by simp, ?_⟩ (Or.inl hlt)
    rw [graft_short hk]
    simp [segments]
  · obtain ⟨m, hm⟩ : ∃ m, D.length / CVMFS_CHUNK_SIZE = m + 2 := ⟨_, (Nat.sub_add_cancel hk).symm⟩
    have hle : (m + 2) * CVMFS_CHUNK_SIZE ≤ D.length := hm ▸ Nat.div_mul_le_self _ _
    have hsucc : (m + 2) * CVMFS_CHUNK_SIZE = (m + 1) * CVMFS_CHUNK_SIZE + CVMFS_CHUNK_SIZE := by ring
    have hC : 0 < CVMFS_CHUNK_SIZE := by norm_num
    have hge : ¬ D.length < 2 * CVMFS_CHUNK_SIZE := by
      have := Nat.mul_le_mul_right CVMFS_CHUNK_SIZE (show 2 ≤ m + 2 by omega)
      omega
    have hsub : D.length / CVMFS_CHUNK_SIZE - 1 = m + 1 := by omega
    have hseg : (segments D ((List.range (m + 2)).map (· * CVMFS_CHUNK_SIZE))).map Z.sha1.hash =
        (List.range (m + 1)).map (fun i => Z.sha1.hash (chunk CVMFS_CHUNK_SIZE D i)) ++
          [Z.sha1.hash (D.drop ((m + 1) * CVMFS_CHUNK_SIZE))] := by
      rw [List.range_eq_range', List.range_eq_range', segments_chunks, List.map_append, List.map_map, Nat.zero_add]
      rfl
    have hlast : (List.range (m + 2)).map (fun i => Z.sha1.hash (chunk CVMFS_CHUNK_SIZE D i)) =
        (List.range (m + 1)).map (fun i => Z.sha1.hash (chunk CVMFS_CHUNK_SIZE D i)) ++
          [Z.sha1.hash (chunk CVMFS_CHUNK_SIZE D (m + 1))] := by
      rw [List.range_succ, List.map_append]
      rfl
    -- when the file ends with a full chunk, the two last pieces are the same
    have hdvd : CVMFS_CHUNK_SIZE ∣ D.length →
        chunk CVMFS_CHUNK_SIZE D (m + 1) = D.drop ((m + 1) * CVMFS_CHUNK_SIZE) := by
      intro h
      have hD := Nat.div_mul_cancel h
      rw [hm] at hD
      unfold chunk slice
      rw [List.take_of_length_le]
      rw [List.length_drop]
      omega
    rw [graft_long hm, hsub]
    constructor
    · rintro ⟨offsets, hhead, -, -, htext⟩
      have hne : offsets ≠ [] := by
        rintro rfl
        cases hhead
      have hsegne : segments D offsets ≠ [] := by
        cases offsets with
        | nil => exact absurd rfl hne
        | cons o os => cases os <;> simp [segments]
      obtain ⟨hoff, hsums⟩ := listing_injective (by simp) hne (by simp) (by simpa using hsegne) htext
      rw [← hoff, hseg, hlast, List.append_cancel_left_eq] at hsums
      exact Or.inr (Or.inr (List.singleton_injective hsums))
    · intro h
      have hcoll : Z.sha1.hash (chunk CVMFS_CHUNK_SIZE D (m + 1)) =
          Z.sha1.hash (D.drop ((m + 1) * CVMFS_CHUNK_SIZE)) := by
        rcases h with h | h | h
        · exact absurd h hge
        · rw [hdvd h]
        · exact h
      refine ⟨(List.range (m + 2)).map (· * CVMFS_CHUNK_SIZE), by simp [List.range_succ_eq_map], ?_, ?_, ?_⟩
      · rw [List.pairwise_map]
        exact List.pairwise_lt_range.imp fun hij => Nat.mul_lt_mul_of_pos_right hij (by norm_num)
      · intro o ho
        obtain ⟨i, hi, rfl⟩ := List.mem_map.1 ho
        have hi' : i + 1 ≤ m + 2 := List.mem_range.1 hi
        have := (Nat.mul_le_mul_right CVMFS_CHUNK_SIZE hi').trans hle
        rw [Nat.succ_mul] at this
        exact lt_max_of_lt_left (by omega)
      · rw [hseg, hlast, hcoll]

end Graft

/-! ### The graft of a checksum state -/

/-- The graft after any sequence of `Update`s is that of the full chunks of what they fed. -/
theorem get_graft {Z : Digests} {junk : UInt32} {digests : ℕ} (hd : digests &&& CVMFS ≠ 0) (bs : List Bytes) :
    ((bs.foldl update (new Z junk digests)).finalize.get CVMFS) =
      graft bs.flatten.length (human_readable_evp (Z.sha1.hash bs.flatten)) (chunkEntries Z bs.flatten) := by
  have hfed := (fed_new (Z := Z) junk digests).updates bs
  rw [List.nil_append] at hfed
  exact @Fed.get_finalize Z junk _ _ hfed CVMFS (by simp) ((has_updates _ bs CVMFS).2 hd)

/-- **The CVMFS graft.**  For every file, fed in any pieces, the graft describes the file if and only if the file
has fewer than two full chunks, or ends with a full chunk, or the SHA-1 of the last full chunk happens to be that
of everything from there to the end of the file. -/
theorem graft_describes_iff (Z : Digests) (junk : UInt32) (digests : ℕ) (hd : digests &&& CVMFS ≠ 0)
    (bs : List Bytes) :
    DescribesFile Z bs.flatten ((bs.foldl update (new Z junk digests)).finalize.get CVMFS) ↔
      bs.flatten.length < 2 * CVMFS_CHUNK_SIZE ∨ CVMFS_CHUNK_SIZE ∣ bs.flatten.length ∨
        Z.sha1.hash (chunk CVMFS_CHUNK_SIZE bs.flatten (bs.flatten.length / CVMFS_CHUNK_SIZE - 1)) =
          Z.sha1.hash (bs.flatten.drop ((bs.flatten.length / CVMFS_CHUNK_SIZE - 1) * CVMFS_CHUNK_SIZE)) := by
  rw [get_graft hd]
  exact describesFile_iff

/-- Two pieces of a short file. -/
theorem graft_describes_iff_abc :
    DescribesFile Reference.digests (str "abc")
        (([str "a", str "bc"].foldl update (new Reference.digests 0 ALL)).finalize.get CVMFS) ↔
      (str "abc").length < 2 * CVMFS_CHUNK_SIZE ∨ CVMFS_CHUNK_SIZE ∣ (str "abc").length ∨
        Reference.digests.sha1.hash (chunk CVMFS_CHUNK_SIZE (str "abc") ((str "abc").length / CVMFS_CHUNK_SIZE - 1)) =
          Reference.digests.sha1.hash
            ((str "abc").drop (((str "abc").length / CVMFS_CHUNK_SIZE - 1) * CVMFS_CHUNK_SIZE)) :=
  graft_describes_iff Reference.digests 0 ALL (by decide) [str "a", str "bc"]

/-- A streaming hash that tells files of different lengths modulo 256 apart. -/
def lengthHash : StreamHash UInt8 := .ofFun fun x => x.length.toUInt8 :: List.replicate 19 0

/-- The digests with that hash for SHA-1. -/
def lengthDigests : Digests := { Reference.digests with sha1 := lengthHash, length_sha1 := fun _ => rfl }

theorem hash_lengthDigests (x : Bytes) : (lengthDigests.sha1.hash x).head? = some x.length.toUInt8 := rfl

theorem not_describesFile_tail {D : Bytes} (hlen : D.length = 2 * CVMFS_CHUNK_SIZE + 1) :
    ¬ DescribesFile lengthDigests D (([D].foldl update (new lengthDigests 0 ALL)).finalize.get CVMFS) := by
  have hget := @get_graft lengthDigests 0 ALL (by decide) [D]
  rw [List.flatten_singleton] at hget
  rw [hget, describesFile_iff, hlen]
  have hdiv : (2 * CVMFS_CHUNK_SIZE + 1) / CVMFS_CHUNK_SIZE - 1 = 1 := by norm_num
  rw [hdiv]
  rintro (hlt | hdvd | hcoll)
  · omega
  · exact absurd hdvd (by norm_num)
  · have hhead := congrArg List.head? hcoll
    rw [hash_lengthDigests, hash_lengthDigests, chunk, length_slice, List.length_drop, hlen] at hhead
    exact absurd hhead (by decide +kernel)

/-- A file of two full chunks and one byte, fed at once: the byte is covered by no checksum. -/
theorem graft_misses_tail :
    ¬ ∀ (Z : Digests) (bs : List Bytes),
      DescribesFile Z bs.flatten ((bs.foldl update (new Z 0 ALL)).finalize.get CVMFS) := by
  intro h
  have hall := h lengthDigests [List.replicate (2 * CVMFS_CHUNK_SIZE + 1) 0]
  rw [List.flatten_singleton] at hall
  exact not_describesFile_tail List.length_replicate hall

end XrdHdfs
