import XrdHdfs.Basic

/-!
# Numbers and byte strings as text

Hex, as `human_readable_evp` prints it and as XRootD reads it back, the network order of a number, and decimal
numbers.  The lemmas say which characters occur, how long the text is and that it can be read back.
-/

namespace XrdHdfs

/-! ### Hex -/

/-- The lower-case hex digit of a number below 16. -/
def hexDigit (n : UInt8) : UInt8 := if n < 10 then 48 + n else 87 + n

def human_readable_evp (evp : Bytes) : Bytes := evp.flatMap fun b => [hexDigit (b / 16), hexDigit (b % 16)]

/-- The value of a hex digit of either case. -/
def hexValue (c : UInt8) : Option UInt8 :=
  if 48 ≤ c ∧ c ≤ 57 then some (c - 48)
  else if 97 ≤ c ∧ c ≤ 102 then some (c - 87)
  else if 65 ≤ c ∧ c ≤ 70 then some (c - 55)
  else none

/-- The bytes a hex text stands for. -/
def unhex : Bytes → Option Bytes
  | [] => some []
  | [_] => none
  | a :: b :: s => do
    let hi ← hexValue a
    let lo ← hexValue b
    let rest ← unhex s
    return (hi * 16 + lo) :: rest

/-- The four bytes of a number in network order. -/
def htonl (x : UInt32) : Bytes := [(x >>> 24).toUInt8, (x >>> 16).toUInt8, (x >>> 8).toUInt8, x.toUInt8]

@[simp] theorem human_readable_evp_nil : human_readable_evp [] = [] := rfl

@[simp] theorem human_readable_evp_cons (b : UInt8) (s : Bytes) :
    human_readable_evp (b :: s) = hexDigit (b / 16) :: hexDigit (b % 16) :: human_readable_evp s := rfl

@[simp] theorem length_human_readable_evp (s : Bytes) : (human_readable_evp s).length = 2 * s.length := by
  induction s with
  | nil => rfl
  | cons b s ih =>
    simp only [human_readable_evp_cons, List.length_cons, ih]
    omega

@[simp] theorem length_htonl (x : UInt32) : (htonl x).length = 4 := rfl

/-- Every byte is one of 256. -/
theorem forall_byte {P : UInt8 → Prop} (h : ∀ n : Fin 256, P (UInt8.ofNat n)) (b : UInt8) : P b := by
  have hb := h ⟨b.toNat, b.toNat_lt⟩
  rwa [UInt8.ofNat_toNat] at hb

/-- A lower-case hex digit. -/
def IsHexLower (c : UInt8) : Prop := (48 ≤ c ∧ c ≤ 57) ∨ (97 ≤ c ∧ c ≤ 102)

instance (c : UInt8) : Decidable (IsHexLower c) := by unfold IsHexLower; infer_instance

theorem isHexLower_digits : ∀ b : UInt8, IsHexLower (hexDigit (b / 16)) ∧ IsHexLower (hexDigit (b % 16)) :=
  forall_byte (by decide +kernel)

theorem hexValue_digits : ∀ b : UInt8, hexValue (hexDigit (b / 16)) = some (b / 16) ∧
    hexValue (hexDigit (b % 16)) = some (b % 16) ∧ b / 16 * 16 + b % 16 = b :=
  forall_byte (by decide +kernel)

theorem isHexLower_human_readable_evp {s : Bytes} {c : UInt8} (h : c ∈ human_readable_evp s) : IsHexLower c := by
  obtain ⟨b, -, hc⟩ := List.mem_flatMap.1 h
  obtain ⟨h1, h2⟩ := isHexLower_digits b
  rcases List.mem_pair.1 hc with rfl | rfl
  · exact h1
  · exact h2

theorem unhex_human_readable_evp (s : Bytes) : unhex (human_readable_evp s) = some s := by
  induction s with
  | nil => rfl
  | cons b s ih =>
    obtain ⟨h1, h2, h3⟩ := hexValue_digits b
    rw [human_readable_evp_cons, unhex, h1, h2, ih]
    simp [h3]

theorem human_readable_evp_injective : Function.Injective human_readable_evp := by
  intro s t h
  have h' := congrArg unhex h
  rw [unhex_human_readable_evp, unhex_human_readable_evp] at h'
  exact Option.some.inj h'

/-! ### Decimal numbers -/

/-- A number as `operator<<` prints it. -/
def decimal (n : ℕ) : Bytes := (Nat.toDigits 10 n).map fun c => c.toNat.toUInt8

theorem decimal_ne_nil (n : ℕ) : decimal n ≠ [] := by
  simp [decimal, Nat.toDigits_ne_nil]

theorem digit_toNat {n : ℕ} {d : Char} (h : d ∈ Nat.toDigits 10 n) : 48 ≤ d.toNat ∧ d.toNat ≤ 57 := by
  have hdig := Nat.isDigit_of_mem_toDigits (by norm_num) (by norm_num) h
  simp only [Char.isDigit, Bool.and_eq_true, decide_eq_true_eq] at hdig
  exact ⟨UInt32.le_iff_toNat_le.1 hdig.1, UInt32.le_iff_toNat_le.1 hdig.2⟩

theorem isDigit_decimal {n : ℕ} {c : UInt8} (h : c ∈ decimal n) : 48 ≤ c ∧ c ≤ 57 := by
  obtain ⟨d, hd, rfl⟩ := List.mem_map.1 h
  have hdig := digit_toNat hd
  rw [UInt8.le_iff_toNat_le, UInt8.le_iff_toNat_le, Nat.toUInt8_eq, UInt8.toNat_ofNat', Nat.mod_eq_of_lt (by omega)]
  exact hdig

theorem decimal_injective : Function.Injective decimal := by
  have hback : ∀ n, (decimal n).map (fun c => Char.ofNat c.toNat) = Nat.toDigits 10 n := by
    intro n
    rw [decimal, List.map_map]
    conv_rhs => rw [← List.map_id (Nat.toDigits 10 n)]
    refine List.map_congr_left fun d hd => ?_
    have hdig := digit_toNat hd
    simp only [Function.comp_apply, Nat.toUInt8_eq, UInt8.toNat_ofNat', id_eq]
    rw [Nat.mod_eq_of_lt (by omega), Char.ofNat_toNat]
  intro m n h
  have h' : Nat.toDigits 10 m = Nat.toDigits 10 n := by rw [← hback, ← hback, h]
  rw [← Nat.ofDigitChars_ten_toDigits (n := m), h', Nat.ofDigitChars_ten_toDigits]

end XrdHdfs
