import XrdHdfs.Absorb
import XrdHdfs.Reference
import XrdHdfs.Lib.Crc

/-!
# The two CRCs of a checksum state

`CKSUM` is the POSIX checksum: the table and the loops of `Update` and `Finalize` compute, bit for bit, the CRC with
the generator `0x04C11DB7` of the bytes and of their number.  `CRC32` is that of zlib, continued from whatever
`m_crc32` held before the constructor, which does not set it.
-/

namespace XrdHdfs

open Lib ChecksumState

/-! ### The POSIX checksum, bit by bit -/

/-- The generator of the POSIX checksum. -/
def generator : BitVec 32 := 0x04c11db7#32

/-- The bits of a byte, most significant first. -/
def byteBits (c : UInt8) : List Bool := (List.range 8).map fun i => c.toBitVec.getMsbD i

/-- A length in as few bytes as it takes, least significant first. -/
def lengthBytes (n : ℕ) : Bytes := (Nat.digits 256 n).map Nat.toUInt8

/-- **The POSIX checksum** of a file: the complement of the CRC of its bytes and of those of its length. -/
def posixCksum (D : Bytes) : BitVec 32 :=
  ~~~ crcBits generator 0#32 ((D ++ lengthBytes D.length).flatMap byteBits)

@[simp] theorem length_byteBits (c : UInt8) : (byteBits c).length = 8 := rfl

theorem place_byteBits : ∀ c : UInt8, place 32 (byteBits c) = c.toUInt32.toBitVec <<< 24 :=
  forall_byte (by decide +kernel)

/-- The literal table has the eight turns of every pattern of eight bits. -/
theorem g_crctab_eq : ∀ i : Fin 256, (g_crctab.getD i 0).toBitVec = (shiftIn generator)^[8] (BitVec.ofNat 32 i <<< 24) := by
  decide +kernel

/-- **One byte of the loop of `Update`** is eight bits of the CRC. -/
theorem crcStep_eq (crc : UInt32) (c : UInt8) :
    (crcStep crc c).toBitVec = crcBits generator crc.toBitVec (byteBits c) := by
  have htable : ∀ x : BitVec 32, x.toNat < 2 ^ 8 →
      (g_crctab.getD x.toNat 0).toBitVec = (shiftIn generator)^[8] (x <<< 24) := by
    intro x hx
    rw [g_crctab_eq ⟨x.toNat, hx⟩, BitVec.ofNat_toNat, BitVec.setWidth_eq]
  have hbyte : crcBits generator crc.toBitVec (byteBits c) = crc.toBitVec <<< 8 ^^^
      (g_crctab.getD ((crc.toBitVec ^^^ place 32 (byteBits c)) >>> 24).toNat 0).toBitVec :=
    @crcBits_eq_table 32 generator (byteBits c) (fun x => (g_crctab.getD x.toNat 0).toBitVec) (by simp) htable _
  -- the index is the byte that leaves the register, with that of the message added
  have hindex : ((crc.toBitVec ^^^ c.toUInt32.toBitVec <<< 24) >>> 24).toNat =
      (((crc >>> 24) ^^^ c.toUInt32) &&& 0xFF).toNat := by
    have hc : (c.toUInt32.toBitVec <<< 24) >>> 24 = c.toUInt32.toBitVec :=
      forall_byte (P := fun c => (c.toUInt32.toBitVec <<< 24) >>> 24 = c.toUInt32.toBitVec) (by decide +kernel) c
    rw [BitVec.ushiftRight_xor_distrib, hc]
    have hlt : (crc.toBitVec >>> 24 ^^^ c.toUInt32.toBitVec).toNat < 2 ^ 8 := by
      rw [BitVec.toNat_xor]
      refine Nat.xor_lt_two_pow ?_ c.toNat_lt
      rw [BitVec.toNat_ushiftRight, Nat.shiftRight_eq_div_pow]
      have := crc.toBitVec.isLt
      omega
    show _ = ((crc.toBitVec >>> 24 ^^^ c.toUInt32.toBitVec) &&& 0xFF#32).toNat
    rw [BitVec.toNat_and, show (0xFF#32).toNat = 2 ^ 8 - 1 from rfl, Nat.and_two_pow_sub_one_of_lt_two_pow hlt]
  rw [hbyte, place_byteBits, hindex]
  rfl

theorem foldl_crcStep (D : Bytes) (crc : UInt32) :
    (D.foldl crcStep crc).toBitVec = crcBits generator crc.toBitVec (D.flatMap byteBits) := by
  induction D generalizing crc with
  | nil => rfl
  | cons c D ih => rw [List.foldl_cons, ih, crcStep_eq, List.flatMap_cons, crcBits, crcBits, crcBits, List.foldl_append]

/-- **The loop of `Finalize`** appends the bytes of the length. -/
theorem crcLength_eq (k n : ℕ) (h : n < 256 ^ k) (crc : UInt32) :
    crcLength k n crc = (lengthBytes n).foldl crcStep crc := by
  induction k generalizing n crc with
  | zero =>
    obtain rfl : n = 0 := by simpa using h
    rfl
  | succ k ih =>
    unfold crcLength
    rcases Nat.eq_zero_or_pos n with rfl | hpos
    · rfl
    · have hdiv : n / 256 < 256 ^ k := Nat.div_lt_of_lt_mul (by rwa [← pow_succ'])
      rw [if_pos hpos.ne', ih _ hdiv, lengthBytes, lengthBytes, Nat.digits_def' (by norm_num) hpos, List.map_cons,
        List.foldl_cons]

theorem cksum_eq_posixCksum {D : Bytes} (h : D.length < 2 ^ 64) : cksum D = (posixCksum D).toNat := by
  have hmod : D.length % 0x10000000000000000 = D.length := Nat.mod_eq_of_lt (by simpa using h)
  unfold cksum posixCksum
  rw [hmod, crcLength_eq 8 _ (by simpa using h), ← List.foldl_append]
  show (~~~ (List.foldl crcStep 0 (D ++ lengthBytes D.length)).toBitVec).toNat = _
  rw [foldl_crcStep]
  rfl

/-- **`CKSUM` is the POSIX checksum** of everything `Update` was called with, in whatever pieces.  `m_offset` has 64
bits, and so has the number of bytes. -/
theorem get_cksum (Z : Digests) (junk : UInt32) {digests : ℕ} (hd : digests &&& CKSUM ≠ 0) (bs : List Bytes)
    (hlen : bs.flatten.length < 2 ^ 64) :
    (bs.foldl update (new Z junk digests)).finalize.get CKSUM = decimal (posixCksum bs.flatten).toNat := by
  have hfed := (fed_new (Z := Z) junk digests).updates bs
  rw [List.nil_append] at hfed
  rw [← cksum_eq_posixCksum hlen]
  exact @Fed.get_finalize Z junk _ _ hfed CKSUM (by simp) ((has_updates _ bs CKSUM).2 hd)

theorem get_cksum_abc : ([str "a", str "bc"].foldl update (new Reference.digests 0 ALL)).finalize.get CKSUM =
    decimal (posixCksum (str "abc")).toNat :=
  get_cksum Reference.digests 0 (by decide) [str "a", str "bc"] (by decide)

example : (posixCksum (str "abc")).toNat = 1219131554 := by decide +kernel

/-! ### zlib's CRC-32 -/

theorem toBitVec_crcBit (z : UInt32) : (Reference.crcBit z).toBitVec =
    (z.toBitVec >>> 1) ^^^ if z.toBitVec.getLsbD 0 then 0xedb88320#32 else 0#32 := by
  have hlow : (z &&& 1).toBitVec = (BitVec.ofBool (z.toBitVec.getLsbD 0)).setWidth 32 :=
    BitVec.and_one_eq_setWidth_ofBool_getLsbD
  unfold Reference.crcBit
  by_cases hb : z.toBitVec.getLsbD 0
  · have h1 : z &&& 1 = 1 := by
      refine UInt32.toBitVec_inj.1 ?_
      rw [hlow, hb]
      rfl
    rw [if_pos h1, if_pos hb]
    rfl
  · have h1 : ¬ z &&& 1 = 1 := by
      intro h1
      rw [h1, Bool.eq_false_iff.2 hb] at hlow
      exact absurd hlow (by decide)
    rw [if_neg h1, if_neg hb, BitVec.xor_zero]
    rfl

/-- One turn of zlib's register loses nothing: the bit that leaves it decides the bit at the top. -/
theorem crcBit_injective : Function.Injective Reference.crcBit := by
  intro x y h
  replace h := congrArg UInt32.toBitVec h
  rw [toBitVec_crcBit, toBitVec_crcBit] at h
  -- the generator's top bit is set
  have htop : ∀ z : BitVec 32,
      ((z >>> 1) ^^^ if z.getLsbD 0 then 0xedb88320#32 else 0#32).getLsbD 31 = z.getLsbD 0 := by
    intro z
    rw [BitVec.getLsbD_xor, BitVec.getLsbD_ushiftRight, BitVec.getLsbD_of_ge z (1 + 31) (by norm_num), Bool.false_xor]
    cases z.getLsbD 0 <;> rfl
  have hlow : x.toBitVec.getLsbD 0 = y.toBitVec.getLsbD 0 := by rw [← htop, h, htop]
  rw [hlow] at h
  have hup : x.toBitVec >>> 1 = y.toBitVec >>> 1 := (BitVec.xor_left_inj _).1 h
  refine UInt32.toBitVec_inj.1 (BitVec.eq_of_getLsbD_eq fun i _ => ?_)
  rcases i with _ | i
  · exact hlow
  · have hi := congrArg (fun v => v.getLsbD i) hup
    simpa [Nat.add_comm] using hi

theorem crc32_injective (x : Bytes) : Function.Injective fun c => Reference.crc32 c x := by
  have hbyte : ∀ b, Function.Injective fun c => Reference.crcByte c b := by
    intro b c d h
    exact UInt32.xor_left_inj _ |>.1 (crcBit_injective.iterate 8 h)
  have hfold : ∀ c d, x.foldl Reference.crcByte c = x.foldl Reference.crcByte d → c = d := by
    induction x with
    | nil => exact fun c d h => h
    | cons b x ih => exact fun c d h => hbyte b (ih _ _ h)
  intro c d h
  exact UInt32.not_inj.1 (hfold _ _ (UInt32.not_inj.1 h))

theorem htonl_injective : Function.Injective htonl := by
  intro x y h
  simp only [htonl, List.cons.injEq, and_true] at h
  obtain ⟨h3, h2, h1, h0⟩ := h
  have hbyte : ∀ {u v : UInt32}, u.toUInt8 = v.toUInt8 → u.toNat % 256 = v.toNat % 256 := by
    intro u v huv
    have := congrArg UInt8.toNat huv
    simpa using this
  replace h3 := hbyte h3
  replace h2 := hbyte h2
  replace h1 := hbyte h1
  replace h0 := hbyte h0
  simp only [UInt32.toNat_shiftRight, Nat.shiftRight_eq_div_pow] at h3 h2 h1
  have hx := x.toNat_lt
  have hy := y.toNat_lt
  refine UInt32.toNat_inj.1 ?_
  simp at h3 h2 h1
  omega

/-- The text of a value, in network order. -/
def crcText (c : UInt32) : Bytes := human_readable_evp (htonl c)

theorem crcText_inj {c d : UInt32} : crcText c = crcText d ↔ c = d :=
  (human_readable_evp_injective.comp htonl_injective).eq_iff

/-- What `CRC32` reports: zlib's value, continued from what the memory held. -/
theorem get_crc32 (Z : Digests) (junk : UInt32) {digests : ℕ} (hd : digests &&& CRC32 ≠ 0) (bs : List Bytes) :
    (bs.foldl update (new Z junk digests)).finalize.get CRC32 = crcText (Z.crc32 junk (bs.flatMap zlibBuffer)) := by
  have hfold : ∀ (st : ChecksumState Z), st.has CRC32 →
      (bs.foldl update st).m_crc32 = Z.crc32 st.m_crc32 (bs.flatMap zlibBuffer) := by
    induction bs with
    | nil => exact fun st _ => (Z.crc32_nil _).symm
    | cons b bs ih =>
      intro st hst
      have hcrc : (st.update b).m_crc32 = Z.crc32 st.m_crc32 (zlibBuffer b) := if_pos hst
      rw [List.foldl_cons, ih (st.update b) hst, hcrc, Z.crc32_append, List.flatMap_cons]
  have hst := hfold (new Z junk digests) hd
  have hhas : (bs.foldl update (new Z junk digests)).finalize.has CRC32 := (has_updates _ bs CRC32).2 hd
  unfold ChecksumState.get
  rw [if_neg fun hc => hc.1 rfl, if_pos ⟨by decide, hhas⟩]
  show crcText (bs.foldl update (new Z junk digests)).m_crc32 = _
  rw [hst]
  rfl

/-- **`CRC32` depends on the memory.** Over zlib's own CRC-32 and for every sequence of `Update`s, the text is that of
the CRC-32 of the data exactly when zlib's value, continued from what `m_crc32` held before the constructor over the
bytes zlib is given, is; with buffers below 2³² bytes, which zlib is given whole, exactly when the memory held 0.
Two states fed the same data report the same exactly when their memory held the same. -/
theorem crc32_iff (Z : Digests) (hZ : Z.crc32 = Reference.crc32) (junk : UInt32) {digests : ℕ}
    (hd : digests &&& CRC32 ≠ 0) (bs : List Bytes) :
    ((bs.foldl update (new Z junk digests)).finalize.get CRC32 = crcText (Reference.crc32 0 bs.flatten) ↔
        Reference.crc32 junk (bs.flatMap zlibBuffer) = Reference.crc32 0 bs.flatten) ∧
      ((∀ b ∈ bs, b.length < 2 ^ 32) →
        ((bs.foldl update (new Z junk digests)).finalize.get CRC32 = crcText (Reference.crc32 0 bs.flatten) ↔
            junk = 0) ∧
          ∀ (junk' : UInt32) (bs' : List Bytes), bs'.flatten = bs.flatten → (∀ b ∈ bs', b.length < 2 ^ 32) →
            ((bs.foldl update (new Z junk digests)).finalize.get CRC32 =
              (bs'.foldl update (new Z junk' digests)).finalize.get CRC32 ↔ junk = junk')) := by
  have hkept : ∀ {bs : List Bytes}, (∀ b ∈ bs, b.length < 2 ^ 32) → bs.flatMap zlibBuffer = bs.flatten := by
    intro bs hbs
    rw [List.flatMap_def, List.map_congr_left fun b hb => zlibBuffer_eq (hbs b hb), List.map_id']
  have hinj := crc32_injective bs.flatten
  refine ⟨?_, fun hbs => ⟨?_, fun junk' bs' heq hbs' => ?_⟩⟩
  · rw [get_crc32 Z junk hd, hZ, crcText_inj]
  · rw [get_crc32 Z junk hd, hZ, crcText_inj, hkept hbs]
    exact hinj.eq_iff
  · rw [get_crc32 Z junk hd, get_crc32 Z junk' hd, hZ, crcText_inj, hkept hbs, hkept hbs', heq]
    exact hinj.eq_iff

theorem crc32_iff_abc : ([str "ab", str "c"].foldl update (new Reference.digests 0 ALL)).finalize.get CRC32 =
    crcText (Reference.crc32 0 (str "abc")) :=
  ((crc32_iff Reference.digests rfl 0 (by decide) [str "ab", str "c"]).2 (by decide)).1.2 rfl

/-- In memory that held 1, the three bytes `abc` get another CRC-32. -/
theorem crc32_of_junk : ([str "abc"].foldl update (new Reference.digests 1 ALL)).finalize.get CRC32 = str "34e62bf5" ∧
    crcText (Reference.crc32 0 (str "abc")) = str "352441c2" := by
  decide +kernel

end XrdHdfs
