import Mathlib.Tactic

/-!
# Cyclic redundancy checks, most significant bit first

A CRC of width `w` is a shift register.  A bit of the message enters it at the top; whenever a set bit leaves it at
the top, the generator `G` is added.  The message can also enter the register all at once, at the top
(`crcBits_eq_shiftIn`), and what leaves the register in `n` turns depends only on its `n` top bits
(`shiftIn_iterate`); so a table of the `n`-bit patterns replaces `n` turns by one (`crcBits_eq_table`).
-/

namespace XrdHdfs.Lib

variable {w : ℕ} (G : BitVec w)

/-- One turn of the register. -/
def shiftIn (r : BitVec w) : BitVec w := (r <<< 1) ^^^ if r.msb then G else 0#w

/-- A bit at the top of the register. -/
def topBit (w : ℕ) (b : Bool) : BitVec w := (BitVec.ofBool b).setWidth w <<< (w - 1)

/-- One bit of the message. -/
def crcBit (r : BitVec w) (b : Bool) : BitVec w := (r <<< 1) ^^^ if r.msb ^^ b then G else 0#w

/-- The bits of a message, one after the other. -/
def crcBits (r : BitVec w) (bits : List Bool) : BitVec w := bits.foldl (crcBit G) r

/-- A message at the top of the register. -/
def place (w : ℕ) : List Bool → BitVec w
  | [] => 0#w
  | b :: bits => topBit w b ^^^ (place w bits >>> 1)

variable {G} {r s : BitVec w}

/-! ### The register is linear -/

theorem shiftIn_xor (r s : BitVec w) : shiftIn G (r ^^^ s) = shiftIn G r ^^^ shiftIn G s := by
  have hout : (if (r ^^^ s).msb then G else 0#w) = (if r.msb then G else 0#w) ^^^ if s.msb then G else 0#w := by
    rw [BitVec.msb_xor]
    cases r.msb <;> cases s.msb <;> simp
  unfold shiftIn
  rw [hout, BitVec.shiftLeft_xor_distrib]
  ac_rfl

theorem shiftIn_iterate_xor (n : ℕ) (r s : BitVec w) :
    (shiftIn G)^[n] (r ^^^ s) = (shiftIn G)^[n] r ^^^ (shiftIn G)^[n] s := by
  induction n generalizing r s with
  | zero => rfl
  | succ n ih => simp only [Function.iterate_succ_apply, shiftIn_xor, ih]

/-! ### A message at the top of the register -/

theorem msb_topBit (hw : 0 < w) (b : Bool) : (topBit w b).msb = b := by
  rw [topBit, BitVec.msb_shiftLeft, BitVec.getMsbD_setWidth]
  cases b
  · simp
  · simp
    omega

theorem topBit_shiftLeft (b : Bool) (hw : 0 < w) : topBit w b <<< 1 = 0#w := by
  rw [topBit, ← BitVec.shiftLeft_add, Nat.sub_add_cancel hw]
  exact BitVec.shiftLeft_eq_zero le_rfl

theorem crcBit_eq_shiftIn (hw : 0 < w) (r : BitVec w) (b : Bool) : crcBit G r b = shiftIn G (r ^^^ topBit w b) := by
  rw [crcBit, shiftIn, BitVec.msb_xor, msb_topBit hw, BitVec.shiftLeft_xor_distrib, topBit_shiftLeft b hw,
    BitVec.xor_zero]

/-- A message that does not fill the register leaves its lower end clear. -/
theorem place_low (bits : List Bool) {i : ℕ} (hi : i + bits.length < w) : (place w bits).getLsbD i = false := by
  induction bits generalizing i with
  | nil => simp [place]
  | cons b bits ih =>
    have hlen : i + (bits.length + 1) < w := hi
    rw [place, BitVec.getLsbD_xor, BitVec.getLsbD_ushiftRight, ih (by omega), topBit, BitVec.getLsbD_shiftLeft]
    simp
    omega

/-- A register whose top bit is clear only moves up. -/
theorem shiftIn_ushiftRight (h : r.getLsbD 0 = false) : shiftIn G (r >>> 1) = r := by
  have hmsb : (r >>> 1).msb = false := by simp [BitVec.msb_ushiftRight]
  unfold shiftIn
  rw [hmsb, if_neg (by simp), BitVec.xor_zero]
  ext i hi
  rw [← BitVec.getLsbD_eq_getElem, BitVec.getLsbD_shiftLeft, BitVec.getLsbD_ushiftRight, ← BitVec.getLsbD_eq_getElem]
  rcases i with _ | i
  · simp [h]
  · simp [hi, Nat.add_comm]

/-- **A message can enter the register at once.** -/
theorem crcBits_eq_shiftIn (bits : List Bool) (h : bits.length ≤ w) (r : BitVec w) :
    crcBits G r bits = (shiftIn G)^[bits.length] (r ^^^ place w bits) := by
  induction bits generalizing r with
  | nil => simp [crcBits, place]
  | cons b bits ih =>
    have hlen : bits.length + 1 ≤ w := h
    have hlow : (place w bits).getLsbD 0 = false := place_low bits (by omega)
    show crcBits G (crcBit G r b) bits = _
    rw [ih (by omega), crcBit_eq_shiftIn (by omega), List.length_cons, Function.iterate_succ_apply, place,
      ← BitVec.xor_assoc, shiftIn_xor (r ^^^ topBit w b), shiftIn_ushiftRight hlow]

/-! ### Several turns at once -/

/-- A register with clear bits at the top only moves up. -/
theorem shiftIn_iterate_of_clear (n : ℕ) (h : ∀ i < n, r.getMsbD i = false) : (shiftIn G)^[n] r = r <<< n := by
  induction n with
  | zero => simp
  | succ n ih =>
    have hmsb : (r <<< n).msb = false := by
      rw [BitVec.msb_shiftLeft]
      exact h n n.lt_succ_self
    rw [Function.iterate_succ_apply', ih fun i hi => h i (by omega), shiftIn, hmsb, if_neg (by simp), BitVec.xor_zero,
      ← BitVec.shiftLeft_add]

/-- What leaves the register in `n` turns depends only on its `n` top bits. -/
theorem shiftIn_iterate (n : ℕ) (h : n ≤ w) (r : BitVec w) :
    (shiftIn G)^[n] r = (r <<< n) ^^^ (shiftIn G)^[n] ((r >>> (w - n)) <<< (w - n)) := by
  -- the register is its lower end, which only moves up, and its upper end
  have hsplit : r = ((r <<< n) >>> n) ^^^ ((r >>> (w - n)) <<< (w - n)) := by
    ext i hi
    simp only [← BitVec.getLsbD_eq_getElem, BitVec.getLsbD_xor, BitVec.getLsbD_ushiftRight, BitVec.getLsbD_shiftLeft]
    by_cases hin : i + n < w
    · simp [hi, Nat.add_comm n i, hin, show i < w - n by omega]
    · simp [hi, Nat.add_comm n i, hin, show ¬ i < w - n by omega, show w - n + (i - (w - n)) = i by omega]
  have hclear : ∀ i < n, ((r <<< n) >>> n).getMsbD i = false := by
    intro i hi
    rw [BitVec.getMsbD_ushiftRight]
    simp
    omega
  have hback : ((r <<< n) >>> n) <<< n = r <<< n := by
    ext i hi
    simp only [← BitVec.getLsbD_eq_getElem, BitVec.getLsbD_ushiftRight, BitVec.getLsbD_shiftLeft]
    by_cases hin : i < n
    · simp [hin]
    · simp [hi, hin, show n + (i - n) = i by omega]
  conv_lhs => rw [hsplit]
  rw [shiftIn_iterate_xor, shiftIn_iterate_of_clear n hclear, hback]

/-- **The table.** With `n` turns tabulated for every pattern of the `n` top bits, `n` bits of the message take one
look-up. -/
theorem crcBits_eq_table {bits : List Bool} {T : BitVec w → BitVec w} (h : bits.length ≤ w)
    (hT : ∀ x, x.toNat < 2 ^ bits.length → T x = (shiftIn G)^[bits.length] (x <<< (w - bits.length))) (r : BitVec w) :
    crcBits G r bits = (r <<< bits.length) ^^^ T ((r ^^^ place w bits) >>> (w - bits.length)) := by
  have hlt : ((r ^^^ place w bits) >>> (w - bits.length)).toNat < 2 ^ bits.length := by
    have hr := (r ^^^ place w bits).isLt
    rw [BitVec.toNat_ushiftRight, Nat.shiftRight_eq_div_pow]
    refine Nat.div_lt_of_lt_mul ?_
    rwa [← pow_add, Nat.sub_add_cancel h]
  have hup : place w bits <<< bits.length = 0#w := by
    ext i hi
    rw [← BitVec.getLsbD_eq_getElem, BitVec.getLsbD_shiftLeft]
    by_cases hin : i < bits.length
    · simp [hin]
    · simp [place_low bits (show i - bits.length + bits.length < w by omega)]
  rw [crcBits_eq_shiftIn bits h, shiftIn_iterate bits.length h, hT _ hlt, BitVec.shiftLeft_xor_distrib, hup,
    BitVec.xor_zero]

end XrdHdfs.Lib
