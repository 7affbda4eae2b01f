import Mathlib.Data.List.Induction
import Mathlib.Data.Nat.Notation
import Mathlib.Tactic.Common

/-!
# Numbers and hexadecimal texts as octets

Numbers are written with a fixed number of octets, the most significant one first. Octets are
written with two hexadecimal digits each.
-/

namespace Octets

/-! ## Numbers -/

/-- How many numbers are written with this many octets. -/
def capacity : ℕ → ℕ
  | 0 => 1
  | width + 1 => 256 * capacity width

/-- The octets of a number. -/
def beBytes : ℕ → ℕ → List UInt8
  | 0, _ => []
  | width + 1, n => beBytes width (n / 256) ++ [UInt8.ofNat (n % 256)]

/-- The number that octets stand for. -/
def beValue (bytes : List UInt8) : ℕ := bytes.foldl (fun n byte => n * 256 + byte.toNat) 0

variable {width n : ℕ} {bytes : List UInt8}

@[simp] theorem length_beBytes : (beBytes width n).length = width := by
  induction width generalizing n with
  | zero => rfl
  | succ width ih => rw [beBytes, List.length_append, ih]; rfl

private theorem beValue_append_singleton {byte : UInt8} :
    beValue (bytes ++ [byte]) = beValue bytes * 256 + byte.toNat := by
  simp [beValue, List.foldl_append]

/-- What is written in enough bytes is read back. -/
theorem beValue_beBytes (hfits : n < capacity width) : beValue (beBytes width n) = n := by
  induction width generalizing n with
  | zero =>
    rw [capacity] at hfits
    rw [beBytes, show n = 0 by omega]
    rfl
  | succ width ih =>
    rw [capacity] at hfits
    have hbyte : (UInt8.ofNat (n % 256)).toNat = n % 256 := by
      rw [UInt8.toNat_ofNat']
      omega
    rw [beBytes, beValue_append_singleton, ih (by omega), hbyte]
    omega

/-! ## Hexadecimal texts -/

/-- The digit with a value. -/
def hexDigit (value : ℕ) : Char :=
  if value < 10 then Char.ofNat (48 + value) else Char.ofNat (87 + value)

/-- The value of a digit. -/
def hexValue (digit : Char) : Option ℕ :=
  if '0' ≤ digit ∧ digit ≤ '9' then some (digit.toNat - 48)
  else if 'a' ≤ digit ∧ digit ≤ 'f' then some (digit.toNat - 87)
  else if 'A' ≤ digit ∧ digit ≤ 'F' then some (digit.toNat - 55)
  else none

/-- The digits of octets. -/
def hexEncode (bytes : List UInt8) : List Char :=
  bytes.flatMap fun byte => [hexDigit (byte.toNat / 16), hexDigit (byte.toNat % 16)]

/-- The octets with these digits. -/
def hexDecode : List Char → Option (List UInt8)
  | [] => some []
  | high :: low :: rest => do
    let high ← hexValue high
    let low ← hexValue low
    let rest ← hexDecode rest
    return UInt8.ofNat (high * 16 + low) :: rest
  | [_] => none

private theorem hexValue_hexDigit {value : ℕ} (hvalue : value < 16) :
    hexValue (hexDigit value) = some value := by
  revert value
  decide

/-- Encoded bytes are decoded again. -/
theorem hexDecode_hexEncode : hexDecode (hexEncode bytes) = some bytes := by
  induction bytes with
  | nil => rfl
  | cons byte bytes ih =>
    have hbyte : byte.toNat < 256 := byte.toNat_lt
    have hparts : byte.toNat / 16 * 16 + byte.toNat % 16 = byte.toNat := by omega
    change hexDecode (_ :: _ :: hexEncode bytes) = _
    rw [hexDecode, hexValue_hexDigit (by omega), hexValue_hexDigit (by omega), ih]
    change some (UInt8.ofNat (byte.toNat / 16 * 16 + byte.toNat % 16) :: bytes) = _
    rw [hparts, UInt8.ofNat_toNat]

end Octets
