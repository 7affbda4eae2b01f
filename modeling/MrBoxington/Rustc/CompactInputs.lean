import MrBoxington.Lib.Fallible
import MrBoxington.Lib.Utf8

/-!
# Compact prediction inputs

The inputs of a prediction are stored as the number of bytes that an input shares with the
one before it, a colon, and the rest of the input. A shared part ends between two characters
of the new input. It then also ends between two characters of the one before, since the bytes
up to there are the same text.
-/

namespace MrBoxington.Rustc

open Utf8 (Text isCharBoundary)

/-- The most bytes of all inputs of a prediction. -/
def maxDecodedPredictionBytes : ℕ := 16 * 1024 * 1024

/-- The message of a slice that does not end between characters. -/
def notCharBoundary : String := "byte index is not a char boundary"

/-- A number in decimal digits. -/
def decimal (n : ℕ) : Text := .ofChars (Nat.toDigits 10 n)

/-- The separator. -/
def colon : Text := .ofChars [':']

/-- The number in a text, if it is one of 64 bits. -/
def parseUsize (bytes : List UInt8) : Option ℕ :=
  let digits := if bytes.head? = some 43 then bytes.tail else bytes
  if digits = [] ∨ digits.any fun digit => digit.toNat < 48 ∨ 57 < digit.toNat then none
  else
    let value := digits.foldl (fun value digit => value * 10 + (digit.toNat - 48)) 0
    if value < 18446744073709551616 then some value else none

/-- Go back to a place between characters. -/
def backOff (bytes : List UInt8) : ℕ → ℕ
  | 0 => 0
  | shared + 1 => if isCharBoundary bytes (shared + 1) then shared + 1 else backOff bytes shared

/-- The number of bytes that two texts share. -/
def sharedBytes (previous input : Text) : ℕ :=
  ((previous.bytes.zip input.bytes).takeWhile fun pair => pair.1 = pair.2).length

/-- An input after another one. -/
def compactInput (previous input : Text) : Except String Text :=
  let shared := backOff input.bytes (sharedBytes previous input)
  match input.sliceFrom shared with
  | none => .error notCharBoundary
  | some suffix => .ok ((decimal shared).append (colon.append suffix))

/-- Inputs after another one. -/
def compactFrom (previous : Text) : List Text → Except String (List Text)
  | [] => .ok []
  | input :: rest => do
    let compact ← compactInput previous input
    let others ← compactFrom input rest
    return compact :: others

/-- The inputs of a prediction as they are stored. -/
def compactPredictionInputs (inputs : List Text) : Except String (List Text) :=
  compactFrom (.ofChars []) inputs

/-- The input that a stored one stands for, after another one. -/
def expandInput (previous : Option Text) (input : Text) : Except String Text := do
  let (sharedText, suffix) ← (input.splitOnce 58).elim
    (.error "compact rustc prediction input has no prefix length") .ok
  let shared ← (parseUsize sharedText.bytes).elim
    (.error "compact rustc prediction prefix length is invalid") .ok
  if decimal shared ≠ sharedText ∨ previous.elim 0 Text.len < shared ∨
      previous.any fun previous => !isCharBoundary previous.bytes shared then
    .error "compact rustc prediction prefix is not canonical"
  else
    match previous with
    | none => return suffix
    | some previous =>
      match previous.sliceTo shared with
      | none => .error notCharBoundary
      | some front => return front.append suffix

/-- The inputs that stored ones stand for, after another one and some bytes. -/
def expandFrom (previous : Option Text) (decodedBytes : ℕ) : List Text → Except String (List Text)
  | [] => .ok []
  | input :: rest => do
    let path ← expandInput previous input
    let decodedBytes := decodedBytes + path.len
    if 18446744073709551616 ≤ decodedBytes ∨ maxDecodedPredictionBytes < decodedBytes then
      .error "compact rustc prediction is too large"
    else
      let others ← expandFrom (some path) decodedBytes rest
      return path :: others

/-- The inputs of a prediction from their stored form. -/
def expandPredictionInputs (inputs : List Text) : Except String (List Text) :=
  expandFrom none 0 inputs

/-- The bytes of all texts. -/
def totalLen : List Text → ℕ
  | [] => 0
  | text :: rest => text.len + totalLen rest

section Numbers

private theorem digit_bounds {digit : Char} (hdigit : digit.isDigit = true) :
    48 ≤ digit.val.toNat ∧ digit.val.toNat ≤ 57 := by
  simpa [Char.isDigit, UInt32.le_iff_toNat_le] using hdigit

private theorem encode_digits {digits : List Char}
    (hdigits : ∀ digit ∈ digits, digit.isDigit = true) :
    Utf8.encode digits = digits.map fun digit => UInt8.ofNat digit.val.toNat := by
  induction digits with
  | nil => rfl
  | cons digit digits ih =>
    rw [List.forall_mem_cons] at hdigits
    have hascii : digit.val.toNat ≤ 127 := (digit_bounds hdigits.1).2.trans (by decide)
    rw [Utf8.encode_cons, ih hdigits.2, String.utf8EncodeChar, if_pos hascii]
    rfl

private theorem toNat_digit {digit : Char} (hdigit : digit.isDigit = true) :
    (UInt8.ofNat digit.val.toNat).toNat = digit.val.toNat := by
  have hbounds := digit_bounds hdigit
  rw [UInt8.toNat_ofNat']
  omega

private theorem isDigit_decimal {n : ℕ} : ∀ digit ∈ Nat.toDigits 10 n, digit.isDigit = true :=
  fun _ hmem => Nat.isDigit_of_mem_toDigits (by decide) (by decide) hmem

private theorem bytes_decimal {n : ℕ} :
    (decimal n).bytes = (Nat.toDigits 10 n).map fun digit => UInt8.ofNat digit.val.toNat :=
  encode_digits isDigit_decimal

private theorem mem_decimal {n : ℕ} {byte : UInt8} (hmem : byte ∈ (decimal n).bytes) :
    48 ≤ byte.toNat ∧ byte.toNat ≤ 57 := by
  rw [bytes_decimal] at hmem
  obtain ⟨digit, hdigit, rfl⟩ := List.mem_map.mp hmem
  rw [toNat_digit (isDigit_decimal digit hdigit)]
  exact digit_bounds (isDigit_decimal digit hdigit)

private theorem foldl_digits {digits : List Char} {value : ℕ}
    (hdigits : ∀ digit ∈ digits, digit.isDigit = true) :
    (Utf8.encode digits).foldl (fun value digit => value * 10 + (digit.toNat - 48)) value =
      Nat.ofDigitChars 10 digits value := by
  rw [encode_digits hdigits]
  induction digits generalizing value with
  | nil => simp
  | cons digit digits ih =>
    rw [List.forall_mem_cons] at hdigits
    rw [List.map_cons, List.foldl_cons, ih hdigits.2, toNat_digit hdigits.1,
      Nat.ofDigitChars_cons, Nat.mul_comm]
    rfl

private theorem parseUsize_decimal {n : ℕ} (hbits : n < 18446744073709551616) :
    parseUsize (decimal n).bytes = some n := by
  have hhead : ¬(decimal n).bytes.head? = some 43 := by
    intro hhead
    have hbounds := mem_decimal (List.mem_of_mem_head? hhead)
    exact absurd hbounds.1 (by decide)
  have hdigits : ¬((decimal n).bytes = [] ∨ (decimal n).bytes.any fun digit =>
      digit.toNat < 48 ∨ 57 < digit.toNat) := by
    rintro (hempty | hany)
    · rw [bytes_decimal, List.map_eq_nil_iff] at hempty
      exact Nat.toDigits_ne_nil hempty
    · obtain ⟨byte, hmem, hbyte⟩ := List.any_eq_true.mp hany
      have hbounds := mem_decimal hmem
      have hbyte := of_decide_eq_true hbyte
      omega
  have hvalue : (decimal n).bytes.foldl (fun value digit => value * 10 + (digit.toNat - 48)) 0 =
      n := (foldl_digits isDigit_decimal).trans Nat.ofDigitChars_ten_toDigits
  rw [parseUsize]
  dsimp only
  rw [if_neg hhead, if_neg hdigits, hvalue, if_pos hbits]

end Numbers

section Shared

variable {previous input : Text}

private theorem backOff_le {bytes : List UInt8} {shared : ℕ} : backOff bytes shared ≤ shared := by
  induction shared with
  | zero => exact Nat.le_refl 0
  | succ shared ih =>
    unfold backOff
    split
    · exact Nat.le_refl _
    · exact ih.trans (Nat.le_succ _)

private theorem isCharBoundary_backOff {bytes : List UInt8} {shared : ℕ} :
    isCharBoundary bytes (backOff bytes shared) = true := by
  induction shared with
  | zero => exact Utf8.isCharBoundary_zero
  | succ shared ih =>
    unfold backOff
    split
    · assumption
    · exact ih

private theorem take_shared (left right : List UInt8) (count : ℕ)
    (hcount : count ≤ ((left.zip right).takeWhile fun pair => pair.1 = pair.2).length) :
    left.take count = right.take count ∧ count ≤ left.length := by
  induction left generalizing right count with
  | nil =>
    obtain rfl := Nat.le_zero.mp hcount
    exact ⟨rfl, Nat.le_refl 0⟩
  | cons a left ih =>
    cases count with
    | zero => exact ⟨rfl, Nat.zero_le _⟩
    | succ count =>
      cases right with
      | nil => exact absurd hcount (Nat.not_succ_le_zero count)
      | cons b right =>
        rw [List.zip_cons_cons, List.takeWhile_cons] at hcount
        split at hcount
        · rename_i heq
          have heq : a = b := of_decide_eq_true heq
          obtain ⟨htake, hlength⟩ := ih right count (Nat.le_of_succ_le_succ hcount)
          rw [List.take_succ_cons, List.take_succ_cons, htake, heq]
          exact ⟨rfl, Nat.succ_le_succ hlength⟩
        · exact absurd hcount (Nat.not_succ_le_zero count)

/-- A place between characters of an input, within the bytes that it shares with the one
before, is between characters of that one too. -/
theorem isCharBoundary_shared {shared : ℕ} (hshared : shared ≤ sharedBytes previous input)
    (hboundary : isCharBoundary input.bytes shared = true) :
    isCharBoundary previous.bytes shared = true ∧
      previous.bytes.take shared = input.bytes.take shared := by
  obtain ⟨htake, hlength⟩ := take_shared previous.bytes input.bytes shared hshared
  refine ⟨Utf8.isCharBoundary_of_valid_take previous.valid hlength ?_, htake⟩
  rw [htake]
  exact (Utf8.valid_take_drop input.valid hboundary).1

private theorem expandInput_append {before : Option Text} {shared : ℕ} (suffix : Text)
    (hbits : shared < 18446744073709551616) (hlength : shared ≤ before.elim 0 Text.len)
    (hboundary : ∀ previous ∈ before, isCharBoundary previous.bytes shared = true) :
    ∃ path, expandInput before ((decimal shared).append (colon.append suffix)) = .ok path ∧
      path.bytes = (before.elim [] Text.bytes).take shared ++ suffix.bytes := by
  have hsplit : ((decimal shared).append (colon.append suffix)).splitOnce 58 =
      some (decimal shared, suffix) := by
    refine Text.splitOnce_append suffix rfl fun hmem => ?_
    exact absurd (mem_decimal hmem).2 (by decide)
  have hcanonical : ¬(decimal shared ≠ decimal shared ∨ before.elim 0 Text.len < shared ∨
      before.any fun previous => !isCharBoundary previous.bytes shared) := by
    rintro (hne | hlong | hinside)
    · exact hne rfl
    · exact Nat.not_lt.mpr hlength hlong
    · cases before with
      | none => cases hinside
      | some previous =>
        have hprevious := hboundary previous rfl
        rw [Option.any_some, hprevious] at hinside
        cases hinside
  unfold expandInput
  rw [hsplit, Option.elim_some, Fallible.bind_of_ok rfl]
  dsimp only
  rw [parseUsize_decimal hbits, Option.elim_some, Fallible.bind_of_ok rfl, if_neg hcanonical]
  cases before with
  | none => exact ⟨suffix, rfl, by simp⟩
  | some previous =>
    obtain ⟨front, hslice, hbytes⟩ := Text.sliceTo_of_isCharBoundary (hboundary previous rfl)
    dsimp only
    rw [hslice]
    exact ⟨_, rfl, by rw [Text.bytes_append, hbytes]; rfl⟩

private theorem expandInput_compactInput {before : Option Text}
    (hbefore : before.elim (.ofChars []) id = previous) (hbits : input.len < 18446744073709551616) :
    ∃ compact, compactInput previous input = .ok compact ∧
      expandInput before compact = .ok input := by
  let shared := backOff input.bytes (sharedBytes previous input)
  have hboundary : isCharBoundary input.bytes shared = true := isCharBoundary_backOff
  obtain ⟨hprevious, htake⟩ := isCharBoundary_shared (backOff_le : shared ≤ _) hboundary
  obtain ⟨suffix, hslice, hsuffix⟩ := Text.sliceFrom_of_isCharBoundary hboundary
  have hcompact : compactInput previous input =
      .ok ((decimal shared).append (colon.append suffix)) := by
    rw [compactInput, hslice]
  have hbytes : before.elim [] Text.bytes = previous.bytes := by
    rw [← hbefore]
    cases before <;> rfl
  have hlength : shared ≤ before.elim 0 Text.len := by
    have hle := Utf8.le_length_of_isCharBoundary hprevious
    rw [← hbytes] at hle
    cases before <;> exact hle
  have hshared : ∀ text ∈ before, isCharBoundary text.bytes shared = true := by
    rintro text htext
    rw [Option.mem_def] at htext
    subst htext
    have hsame : text = previous := hbefore
    rw [hsame]
    exact hprevious
  obtain ⟨path, hexpand, hpath⟩ := expandInput_append suffix
    ((Utf8.le_length_of_isCharBoundary hboundary).trans_lt hbits) hlength hshared
  refine ⟨_, hcompact, hexpand.trans (congrArg _ (Text.ext_bytes ?_))⟩
  rw [hpath, hbytes, htake, hsuffix, List.take_append_drop]

end Shared

section RoundTrip

private theorem expandFrom_compactFrom {before : Option Text} {previous : Text} {inputs : List Text}
    {decodedBytes : ℕ} (hbefore : before.elim (.ofChars []) id = previous)
    (htotal : decodedBytes + totalLen inputs ≤ maxDecodedPredictionBytes) :
    ∃ compact, compactFrom previous inputs = .ok compact ∧
      expandFrom before decodedBytes compact = .ok inputs := by
  induction inputs generalizing before previous decodedBytes with
  | nil => exact ⟨[], rfl, rfl⟩
  | cons input rest ih =>
    have hmax : maxDecodedPredictionBytes = 16777216 := rfl
    rw [totalLen] at htotal
    obtain ⟨stored, hstored, hread⟩ := expandInput_compactInput hbefore
      (by omega : input.len < 18446744073709551616)
    obtain ⟨others, hothers, hexpanded⟩ := @ih (some input) input (decodedBytes + input.len) rfl
      (by omega)
    refine ⟨stored :: others, ?_, ?_⟩
    · rw [compactFrom, Fallible.bind_of_ok hstored, Fallible.bind_of_ok hothers]
      rfl
    · rw [expandFrom, Fallible.bind_of_ok hread]
      dsimp only
      rw [if_neg (by omega), Fallible.bind_of_ok hexpanded]
      rfl

private theorem totalLen_of_expandFrom {before : Option Text} {stored inputs : List Text}
    {decodedBytes : ℕ} (hdecoded : decodedBytes ≤ maxDecodedPredictionBytes)
    (hok : expandFrom before decodedBytes stored = .ok inputs) :
    decodedBytes + totalLen inputs ≤ maxDecodedPredictionBytes := by
  induction stored generalizing before inputs decodedBytes with
  | nil =>
    cases hok
    exact hdecoded
  | cons input rest ih =>
    rw [expandFrom] at hok
    obtain ⟨path, -, hok⟩ := Fallible.bind_ok hok
    dsimp only at hok
    split at hok
    · cases hok
    · rename_i hsmall
      obtain ⟨others, hothers, hok⟩ := Fallible.bind_ok hok
      cases hok
      rw [totalLen, ← Nat.add_assoc]
      exact ih (by omega) hothers

/-- Inputs within the bound are stored and read back, and what is read is always within the
bound. -/
theorem expand_compact_prediction_inputs :
    (∀ inputs, totalLen inputs ≤ maxDecodedPredictionBytes →
      ∃ compact, compactPredictionInputs inputs = .ok compact ∧
        expandPredictionInputs compact = .ok inputs) ∧
    ∀ stored inputs, expandPredictionInputs stored = .ok inputs →
      totalLen inputs ≤ maxDecodedPredictionBytes := by
  refine ⟨fun inputs htotal => expandFrom_compactFrom rfl (by rwa [Nat.zero_add]),
    fun stored inputs hok => ?_⟩
  have hbound := totalLen_of_expandFrom (Nat.zero_le _) hok
  rwa [Nat.zero_add] at hbound

end RoundTrip

end MrBoxington.Rustc
