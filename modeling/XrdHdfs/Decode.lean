import XrdHdfs.Entries
import XrdHdfs.ManagerSpec
import XrdHdfs.Reference

/-!
# Whether the caller holds the checksum

`Get` and `Calc` hand the text of a checksum to `XrdCksData::Set`, which decodes hex, and ignore its result.  They
return 0 also where nothing was decoded: for a recorded value that is not hex, and for a POSIX checksum with an odd
number of decimal digits.  `holds_iff` says that there are no other cases.
-/

namespace XrdHdfs

open Lib World ChecksumManager ChecksumState

variable {env : Env}

/-! ### Texts that decode -/

/-- An even number of hex digits. -/
def HexText (v : Bytes) : Prop := Even v.length ∧ ∀ c ∈ v, hexValue c ≠ none

instance (v : Bytes) : Decidable (HexText v) :=
  @instDecidableAnd _ _ inferInstance (List.decidableBAll _ _)

theorem hexValue_some : ∀ c : UInt8, ∀ n ∈ hexValue c, n < 16 ∧ hexDigit n = tolower c :=
  forall_byte (by decide +kernel)

/-- The halves of a byte put together from two digits. -/
theorem halves {hi lo : UInt8} (h : hi < 16) (l : lo < 16) : (hi * 16 + lo) / 16 = hi ∧ (hi * 16 + lo) % 16 = lo := by
  have hall : ∀ i j : Fin 16, (UInt8.ofNat i * 16 + UInt8.ofNat j) / 16 = UInt8.ofNat i ∧
      (UInt8.ofNat i * 16 + UInt8.ofNat j) % 16 = UInt8.ofNat j := by decide +kernel
  have hij := hall ⟨hi.toNat, h⟩ ⟨lo.toNat, l⟩
  rwa [UInt8.ofNat_toNat, UInt8.ofNat_toNat] at hij

/-- A hex text decodes to the bytes that print as it, in lower case. -/
theorem unhex_of_hexText : ∀ {v : Bytes}, HexText v →
    ∃ x, unhex v = some x ∧ v.length = 2 * x.length ∧ human_readable_evp x = v.map tolower
  | [], _ => ⟨[], rfl, rfl, rfl⟩
  | [_], h => absurd h.1 Nat.not_even_one
  | a :: b :: s, ⟨heven, hhex⟩ => by
    have hs : HexText s := by
      refine ⟨?_, fun c hc => hhex c (by simp [hc])⟩
      simp only [List.length_cons] at heven
      obtain ⟨k, hk⟩ := heven
      exact ⟨k - 1, by omega⟩
    obtain ⟨x, hx, hlen, htext⟩ := unhex_of_hexText hs
    obtain ⟨hi, hhi⟩ := Option.ne_none_iff_exists'.1 (hhex a (by simp))
    obtain ⟨lo, hlo⟩ := Option.ne_none_iff_exists'.1 (hhex b (by simp))
    obtain ⟨hhi16, hdhi⟩ := hexValue_some a hi hhi
    obtain ⟨hlo16, hdlo⟩ := hexValue_some b lo hlo
    obtain ⟨h1, h2⟩ := halves hhi16 hlo16
    refine ⟨(hi * 16 + lo) :: x, ?_, ?_, ?_⟩
    · simp [unhex, hhi, hlo, hx]
    · simp only [List.length_cons, hlen]
      omega
    · rw [human_readable_evp_cons, h1, h2, hdhi, hdlo, htext]
      rfl

/-- The caller's data hold the value whose text is `v`, up to the case of the letters. -/
def Holds (cks : XrdCksData) (v : Bytes) : Prop :=
  2 * cks.Length = v.length ∧ strcaseeq (human_readable_evp (cks.Value.take cks.Length)) v

instance (cks : XrdCksData) (v : Bytes) : Decidable (Holds cks v) := by unfold Holds; infer_instance

/-- **`XrdCksData::Set`** makes the caller hold the value exactly when its text is hex. -/
theorem holds_set_iff (L : CksLib) (cks : XrdCksData) {v : Bytes} (hlen : v.length ≤ 2 * ValuSize) :
    Holds (L.Set cks v) v ↔ HexText v := by
  constructor
  · rintro ⟨heven, htext⟩
    refine ⟨⟨(L.Set cks v).Length, by omega⟩, fun c hc => ?_⟩
    -- in lower case, `c` is a character of a hex text
    have hmem : tolower c ∈ (human_readable_evp ((L.Set cks v).Value.take (L.Set cks v).Length)).map tolower := by
      rw [beq_iff_eq.1 htext]
      exact List.mem_map_of_mem hc
    obtain ⟨d, hd, heq⟩ := List.mem_map.1 hmem
    have hbyte : ∀ c : UInt8, IsHexLower (tolower c) → hexValue c ≠ none := forall_byte (by decide +kernel)
    have hlow : ∀ d : UInt8, IsHexLower d → tolower d = d := forall_byte (by decide +kernel)
    have hdlow := isHexLower_human_readable_evp hd
    refine hbyte c ?_
    rw [← heq, hlow d hdlow]
    exact hdlow
  · intro h
    obtain ⟨x, hx, hl, htext⟩ := unhex_of_hexText h
    obtain ⟨hL, hV⟩ := L.set_hex cks v x hx (by omega)
    refine ⟨by omega, ?_⟩
    have hlow : ∀ c : UInt8, tolower (tolower c) = tolower c := forall_byte (by decide +kernel)
    rw [hL, hV, htext, strcaseeq, beq_iff_eq, List.map_map]
    exact List.map_congr_left fun c _ => hlow c

/-! ### Which digests have hex texts -/

theorem hexText_human_readable_evp (x : Bytes) : HexText (human_readable_evp x) := by
  have hbyte : ∀ c : UInt8, IsHexLower c → hexValue c ≠ none := forall_byte (by decide +kernel)
  exact ⟨⟨x.length, by rw [length_human_readable_evp]; omega⟩, fun c hc => hbyte c (isHexLower_human_readable_evp hc)⟩

theorem hexText_decimal_iff (n : ℕ) : HexText (decimal n) ↔ Even (decimal n).length := by
  have hbyte : ∀ c : UInt8, 48 ≤ c ∧ c ≤ 57 → hexValue c ≠ none := forall_byte (by decide +kernel)
  exact ⟨And.left, fun h => ⟨h, fun c hc => hbyte c (isDigit_decimal hc)⟩⟩

theorem returnDigest_mem {cks : XrdCksData} {digest : ℕ} (h : returnDigest cks = some digest) :
    digest ∈ [MD5, CKSUM, CRC32, ADLER32] := by
  unfold returnDigest at h
  split_ifs at h <;> simp only [Option.some.injEq] at h <;> subst h <;> decide

theorem hexText_entryText_iff {Z : Digests} {junk : UInt32} {D : Bytes} {digest : ℕ}
    (h : digest ∈ [MD5, CKSUM, CRC32, ADLER32]) :
    HexText (entryText Z junk D digest) ↔ (digest = CKSUM → Even (decimal (cksum D)).length) := by
  simp only [List.mem_cons, List.not_mem_nil, or_false] at h
  rcases h with rfl | rfl | rfl | rfl
  · exact ⟨fun _ h => absurd h (by decide), fun _ => hexText_human_readable_evp _⟩
  · exact (hexText_decimal_iff _).trans ⟨fun h _ => h, fun h => h rfl⟩
  · exact ⟨fun _ h => absurd h (by decide), fun _ => hexText_human_readable_evp _⟩
  · exact ⟨fun _ h => absurd h (by decide), fun _ => hexText_human_readable_evp _⟩

/-- A number below `2 ^ 32` has at most ten digits. -/
theorem length_decimal_le {n : ℕ} (h : n < 2 ^ 32) : (decimal n).length ≤ 10 := by
  rw [decimal, List.length_map, Nat.length_toDigits_le_iff (by norm_num) (by norm_num)]
  omega

theorem length_entryText_le {Z : Digests} {junk : UInt32} {D : Bytes} {digest : ℕ}
    (h : digest ∈ [MD5, CKSUM, CRC32, ADLER32]) : (entryText Z junk D digest).length ≤ 2 * ValuSize := by
  simp only [List.mem_cons, List.not_mem_nil, or_false] at h
  rcases h with rfl | rfl | rfl | rfl
  · norm_num [entryText, Z.length_md5]
  · have := length_decimal_le (n := cksum D) (UInt32.toNat_lt _)
    show (decimal (cksum D)).length ≤ 2 * 64
    omega
  · norm_num [entryText]
  · norm_num [entryText]

/-! ### Get and Calc -/

/-- **When the caller holds the checksum.**  A `Get` that returns 0 has found the value of the last entry with the
name, and the caller holds it exactly when it is hex; a `Calc` that returns 0 has made the text of the file's
digest, and the caller holds it exactly when it is no POSIX checksum with an odd number of digits. -/
theorem holds_iff (hN : env.the_N2N = none) (pfn : Bytes) (cks : XrdCksData) {digest : ℕ}
    (hd : returnDigest cks = some digest) (do_set : Bool) (w : World) :
    Gives (ChecksumManager.get env pfn cks) w (fun out _ => out.rc = 0 → ∃ F text v,
        w.fs.view (recordPath pfn) = some F ∧ IsText F text ∧ (parse text).1 = 0 ∧
        LastMatch (parse text).2 cks.Name v ∧ (Holds out.cks v ↔ HexText v)) ∧
      Gives (calcDigest env pfn cks do_set) w (fun r _ => r.1 = 0 → ∃ D junk,
        w.fs.view (resolve pfn) = some D ∧
        (Holds r.2 (entryText env.Z junk D digest) ↔ (digest = CKSUM → Even (decimal (cksum D)).length))) := by
  have hmem := returnDigest_mem hd
  have hname : requestedChecksum cks = cks.Name := by
    refine if_neg fun h0 => ?_
    have hnone : returnDigest cks = none := by
      unfold returnDigest
      rw [h0]
      rfl
    rw [hnone] at hd
    cases hd
  refine ⟨(get_spec hN pfn cks w).mono ?_, (calc_spec hN pfn cks do_set w).mono ?_⟩
  · intro out w' h hrc
    obtain ⟨-, F, text, hF, htext, -, rfl⟩ := h.eq_zero hrc
    obtain ⟨hp, hne, hlen, -, hcks⟩ := answer_eq_zero hrc
    rw [hname] at hne hlen hcks
    refine ⟨F, text, _, hF, htext, hp, (lastMatch_lastValue _ _).resolve_right fun h => hne h.1, ?_⟩
    rw [hcks]
    exact holds_set_iff env.cks cks (by omega)
  · rintro ⟨rc, cks'⟩ w' (⟨hrc, -⟩ | ⟨-, d, D, junk, st, hd', hD, habs, hdig, -, heq⟩) h0
    · dsimp only at hrc h0
      omega
    rw [hd, Option.some.injEq] at hd'
    subst hd'
    have hhas : st.has digest := by
      have hall : ∀ d ∈ [MD5, CKSUM, CRC32, ADLER32], ∀ b : Bool, ((if b then ALL else 0) ||| d) &&& d ≠ 0 := by decide
      rw [has, hdig]
      exact hall digest hmem do_set
    have hmem' : digest ∈ [MD5, CKSUM, ADLER32, CVMFS, CRC32] := by
      have hall : ∀ d ∈ [MD5, CKSUM, CRC32, ADLER32], d ∈ [MD5, CKSUM, ADLER32, CVMFS, CRC32] := by decide
      exact hall digest hmem
    rw [habs.get_finalize hmem' hhas, if_neg (entryText_ne_nil hmem'), Prod.mk.injEq] at heq
    refine ⟨D, junk, hD, ?_⟩
    rw [heq.2, holds_set_iff env.cks cks (length_entryText_le hmem)]
    exact hexText_entryText_iff hmem

/-- A file whose POSIX checksum is 975775277. -/
def nineDigits : World where
  fs := .ofFiles [(str "/b", str "b")]

/-- Its MD5 is held. -/
theorem holds_iff_md5 : Gives (calcDigest Reference.env (str "/b") { Name := str "md5" } false) nineDigits
    fun r _ => r.1 = 0 → Holds r.2 (str "92eb5ffee6ae2fec3ad71c777531578f") := by
  refine (@holds_iff Reference.env rfl (str "/b") { Name := str "md5" } _ rfl false nineDigits).2.mono ?_
  intro r w' h hrc
  obtain ⟨D, junk, hD, hiff⟩ := h hrc
  have hview : nineDigits.fs.view (resolve (str "/b")) = some (str "b") := by decide +kernel
  rw [hview, Option.some.injEq] at hD
  subst hD
  have htext : entryText Reference.digests junk (str "b") MD5 = str "92eb5ffee6ae2fec3ad71c777531578f" := by
    show human_readable_evp (Reference.digests.md5.hash (str "b")) = _
    decide +kernel
  exact htext ▸ hiff.2 fun h => absurd h (by decide)

/-- `Calc` of its POSIX checksum returns 0, and the caller holds nothing. -/
theorem calc_not_held : ((calcDigest Reference.env (str "/b") { Name := str "cksum" } false).run 9 nineDigits).map
    (fun r => (r.1.1, r.1.2.Length, decide (Holds r.1.2 (str "975775277")))) = some (0, 0, false) := by
  decide +kernel

end XrdHdfs
