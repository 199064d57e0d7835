import XrdHdfs.Absorb
import XrdHdfs.File

/-!
# The entries of a record that the plugin makes

`Close` and `Calc` record the texts of the digests of a checksum state.  Whatever the state was fed in, its entries
are those of the bytes it absorbed (`stateValues_finalize`); their texts have no white space and no NUL, so that
the record reads back (`parse_recordEntries`).
-/

namespace XrdHdfs

open ChecksumState

variable {Z : Digests} {junk : UInt32} {D : Bytes}

/-! ### Texts of digests -/

/-- A character that is neither white space nor NUL. -/
def IsWord (c : UInt8) : Prop := !isspace c ∧ c ≠ 0

instance (c : UInt8) : Decidable (IsWord c) := by unfold IsWord; infer_instance

theorem IsHexLower.isWord : ∀ {c : UInt8}, IsHexLower c → IsWord c := by
  intro c
  exact forall_byte (P := fun c => IsHexLower c → IsWord c) (by decide +kernel) c

theorem isWord_decimal {n : ℕ} {c : UInt8} (h : c ∈ decimal n) : IsWord c := by
  have hdig := isDigit_decimal h
  exact IsHexLower.isWord (Or.inl hdig)

theorem isWord_hex {s : Bytes} {c : UInt8} (h : c ∈ human_readable_evp s) : IsWord c :=
  (isHexLower_human_readable_evp h).isWord

theorem isWord_graft {n : ℕ} {sha1 : Bytes} {cs : List CvmfsChunk} (hs : ∀ c ∈ sha1, IsWord c)
    (hcs : ∀ x ∈ cs, ∀ c ∈ x.m_sha1, IsWord c) : ∀ c ∈ graft n sha1 cs, IsWord c := by
  have hlit : ∀ t ∈ [str "size=", str ";checksum=", str ";chunk_offsets=0;chunk_checksums=", str ";chunk_offsets=0",
      str ";chunk_checksums=", str ","], ∀ c ∈ t, IsWord c := by decide +kernel
  intro c hc
  unfold graft at hc
  simp only [List.mem_append] at hc
  rcases hc with (((hc | hc) | hc) | hc) | hc
  · exact hlit (str "size=") (by simp) c hc
  · exact isWord_decimal hc
  · exact hlit (str ";checksum=") (by simp) c hc
  · exact hs c hc
  split at hc
  · rcases List.mem_append.1 hc with hc | hc
    · exact hlit (str ";chunk_offsets=0;chunk_checksums=") (by simp) c hc
    · exact hs c hc
  · rcases List.mem_append.1 hc with hc | hc
    · exact hlit (str ";chunk_offsets=0;chunk_checksums=") (by simp) c hc
    · exact hs c hc
  · next first rest _ =>
    simp only [List.mem_append, List.mem_flatMap] at hc
    rcases hc with (((hc | ⟨x, hx, hc | hc⟩) | hc) | hc) | ⟨x, hx, hc | hc⟩
    · exact hlit (str ";chunk_offsets=0") (by simp) c hc
    · exact hlit (str ",") (by simp) c hc
    · exact isWord_decimal hc
    · exact hlit (str ";chunk_checksums=") (by simp) c hc
    · exact hcs first (by simp) c hc
    · exact hlit (str ",") (by simp) c hc
    · exact hcs x (List.mem_cons_of_mem _ hx) c hc

/-- The text of a digest is a word. -/
theorem isWord_entryText {digest : ℕ} {c : UInt8} (h : c ∈ entryText Z junk D digest) : IsWord c := by
  unfold entryText at h
  split at h
  · exact isWord_hex h
  · exact isWord_decimal h
  · exact isWord_hex h
  · refine isWord_graft (fun c hc => isWord_hex hc) (fun x hx c hc => ?_) c h
    obtain ⟨i, -, rfl⟩ := List.mem_map.1 hx
    exact isWord_hex hc
  · exact isWord_hex h
  · cases h

/-! ### The entries -/

/-- The digests a record can have, in the order in which they are recorded. -/
def digestNames : List (Bytes × ℕ) :=
  [(str "CKSUM", CKSUM), (str "ADLER32", ADLER32), (str "CRC32", CRC32), (str "MD5", MD5), (str "CVMFS", CVMFS)]

/-- The entries of a file's record. -/
def recordEntries (Z : Digests) (junk : UInt32) (D : Bytes) (digests : ℕ) : ChecksumValues :=
  (digestNames.filter fun e => digests &&& e.2 ≠ 0).map fun e => (e.1, entryText Z junk D e.2)

theorem entryText_ne_nil {digest : ℕ} (h : digest ∈ [MD5, CKSUM, ADLER32, CVMFS, CRC32]) :
    entryText Z junk D digest ≠ [] := by
  simp only [List.mem_cons, List.not_mem_nil, or_false] at h
  rcases h with rfl | rfl | rfl | rfl | rfl
  · intro h
    have := congrArg List.length h
    simp [entryText, Z.length_md5] at this
  · exact decimal_ne_nil _
  · intro h
    simpa [entryText] using congrArg List.length h
  · simp [entryText, graft, str]
  · intro h
    simpa [entryText] using congrArg List.length h

theorem digest_mem : ∀ e ∈ digestNames, e.2 ∈ [MD5, CKSUM, ADLER32, CVMFS, CRC32] := by decide

/-- A digest the state was not made for has no text. -/
theorem get_eq_nil {st : ChecksumState Z} {e : Bytes × ℕ} (he : e ∈ digestNames) (h : ¬ st.has e.2) :
    st.get e.2 = [] := by
  have hflag : ∀ e ∈ digestNames, ∀ d ∈ digestNames, e.2 &&& d.2 ≠ 0 → d.2 = e.2 := by decide
  have hno : ∀ d ∈ digestNames, ¬ (e.2 &&& d.2 ≠ 0 ∧ st.has d.2) :=
    fun d hd hc => h (hflag e he d hd hc.1 ▸ hc.2)
  unfold ChecksumState.get
  rw [if_neg (hno (str "CKSUM", CKSUM) (by decide)), if_neg (hno (str "CRC32", CRC32) (by decide)),
    if_neg (hno (str "ADLER32", ADLER32) (by decide)), if_neg (hno (str "MD5", MD5) (by decide)),
    if_neg (hno (str "CVMFS", CVMFS) (by decide))]

/-- **The entries of a state** are those of the bytes it absorbed. -/
theorem stateValues_finalize {st : ChecksumState Z} (h : Absorbed junk D st) :
    stateValues st.finalize = recordEntries Z junk D st.m_digests := by
  have hlist : stateValues st.finalize =
      (digestNames.map fun e => (e.1, st.finalize.get e.2)).filter fun e => e.2 ≠ [] := rfl
  have hget : ∀ e ∈ digestNames, st.has e.2 → st.finalize.get e.2 = entryText Z junk D e.2 :=
    fun e he hhas => h.get_finalize (digest_mem e he) hhas
  rw [hlist, recordEntries, List.filter_map]
  have hfilter : digestNames.filter ((fun e : ChecksumValue => decide (e.2 ≠ [])) ∘ fun e => (e.1, st.finalize.get e.2)) =
      digestNames.filter fun e => st.m_digests &&& e.2 ≠ 0 := by
    refine List.filter_congr fun e he => ?_
    have hiff : st.finalize.get e.2 ≠ [] ↔ st.has e.2 := by
      constructor
      · intro hne
        by_contra hno
        exact hne (get_eq_nil he hno)
      · intro hhas
        rw [hget e he hhas]
        exact entryText_ne_nil (digest_mem e he)
    simpa [has, not_iff_not] using hiff
  rw [hfilter]
  refine List.map_congr_left fun e he => ?_
  obtain ⟨hmem, hhas⟩ := List.mem_filter.1 he
  rw [hget e hmem (by simpa [has] using hhas)]

/-! ### Reading them back -/

theorem goodEntry_recordEntries {digests : ℕ} : ∀ e ∈ recordEntries Z junk D digests, GoodEntry e ∧ upper e.1 = e.1 := by
  intro e he
  obtain ⟨d, hd, rfl⟩ := List.mem_map.1 he
  have hmem := (List.mem_filter.1 hd).1
  have hname : ∀ d ∈ digestNames, (∀ c ∈ d.1, !isspace c ∧ c ≠ 58 ∧ c ≠ 0) ∧ upper d.1 = d.1 ∧
      d.2 ∈ [MD5, CKSUM, ADLER32, CVMFS, CRC32] := by decide +kernel
  obtain ⟨hchars, hup, hdig⟩ := hname d hmem
  exact ⟨⟨hchars, entryText_ne_nil hdig, fun c hc => isWord_entryText hc⟩, hup⟩

/-- **A record of the plugin reads back.** -/
theorem parse_recordEntries (Z : Digests) (junk : UInt32) (D : Bytes) (digests : ℕ) :
    parse (serialise (recordEntries Z junk D digests)) = (0, recordEntries Z junk D digests) := by
  rw [parse_serialise fun e he => (goodEntry_recordEntries e he).1]
  congr 1
  conv_rhs => rw [← List.map_id (recordEntries Z junk D digests)]
  refine List.map_congr_left fun e he => ?_
  rw [upperName, (goodEntry_recordEntries e he).2]
  rfl

theorem not_mem_zero_recordEntries (Z : Digests) (junk : UInt32) (D : Bytes) (digests : ℕ) :
    0 ∉ serialise (recordEntries Z junk D digests) :=
  not_mem_zero_serialise fun e he => (goodEntry_recordEntries e he).1

end XrdHdfs
