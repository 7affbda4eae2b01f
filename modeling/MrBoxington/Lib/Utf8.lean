import Mathlib.Tactic.Common
import Mathlib.Data.String.Basic

/-!
# Text as bytes

Text is bytes in UTF-8. The bytes of a character are a first byte and continuation bytes,
so a place in the bytes is between two characters unless a continuation byte follows it.
Cutting text at such a place gives text, and the places where bytes can be cut into text
are these places.
-/

namespace Utf8

/-- The bytes of characters. -/
def encode (chars : List Char) : List UInt8 := chars.flatMap String.utf8EncodeChar

/-- Some characters have these bytes. -/
def Valid (bytes : List UInt8) : Prop := ∃ chars, encode chars = bytes

/-- A byte that continues a character. -/
def isContinuation (byte : UInt8) : Bool := 128 ≤ byte.toNat ∧ byte.toNat < 192

/-- The place before the byte with this index is between two characters. -/
def isCharBoundary (bytes : List UInt8) (index : ℕ) : Bool :=
  if index = 0 then true
  else
    match bytes[index]? with
    | none => index = bytes.length
    | some byte => !isContinuation byte

/-- Bytes that are text. -/
structure Text where
  bytes : List UInt8
  valid : Valid bytes

theorem Text.ext_bytes {text other : Text} (hbytes : text.bytes = other.bytes) : text = other := by
  cases text
  cases other
  cases hbytes
  rfl

instance : DecidableEq Text := fun text other =>
  decidable_of_iff (text.bytes = other.bytes) ⟨Text.ext_bytes, fun heq => heq ▸ rfl⟩

section Characters

/-- A character is a first byte and continuation bytes. -/
theorem utf8EncodeChar_eq_cons (c : Char) :
    ∃ first rest, String.utf8EncodeChar c = first :: rest ∧ isContinuation first = false ∧
      ∀ byte ∈ rest, isContinuation byte = true := by
  unfold String.utf8EncodeChar
  dsimp only
  generalize c.val.toNat = value
  split
  · refine ⟨_, [], rfl, ?_, by simp⟩
    simp [isContinuation]
    omega
  · split
    · refine ⟨_, _, rfl, ?_, ?_⟩ <;> simp [isContinuation] <;> omega
    · split
      · refine ⟨_, _, rfl, ?_, ?_⟩ <;> simp [isContinuation] <;> omega
      · refine ⟨_, _, rfl, ?_, ?_⟩ <;> simp [isContinuation] <;> omega

private theorem utf8EncodeChar_append_inj {c d : Char} {left right : List UInt8}
    (heq : String.utf8EncodeChar c ++ left = String.utf8EncodeChar d ++ right) : c = d := by
  have hdecode : ∀ (c : Char) (rest : List UInt8),
      (String.utf8EncodeChar c ++ rest).toByteArray.utf8DecodeChar? 0 = some c := by
    intro c rest
    rw [List.toByteArray_append]
    exact ByteArray.utf8DecodeChar?_utf8EncodeChar_append
  have hsame := hdecode c left
  rw [heq, hdecode d right] at hsame
  exact (Option.some.inj hsame).symm

end Characters

section Encode

@[simp] private theorem encode_nil : encode [] = [] := rfl

@[simp] theorem encode_cons {c : Char} {chars : List Char} :
    encode (c :: chars) = String.utf8EncodeChar c ++ encode chars := rfl

@[simp] theorem encode_append {front back : List Char} :
    encode (front ++ back) = encode front ++ encode back := List.flatMap_append

/-- What follows an encoded front encodes the other characters. -/
theorem encode_split {front chars : List Char} {rest : List UInt8}
    (heq : encode front ++ rest = encode chars) :
    ∃ back, chars = front ++ back ∧ rest = encode back := by
  induction front generalizing chars with
  | nil => exact ⟨chars, rfl, heq⟩
  | cons c front ih =>
    rw [encode_cons, List.append_assoc] at heq
    cases chars with
    | nil =>
      obtain ⟨first, others, hc, -, -⟩ := utf8EncodeChar_eq_cons c
      rw [hc] at heq
      cases heq
    | cons d chars =>
      rw [encode_cons] at heq
      obtain rfl := utf8EncodeChar_append_inj heq
      obtain ⟨back, rfl, hrest⟩ := ih (List.append_cancel_left heq)
      exact ⟨back, rfl, hrest⟩

private theorem isCharBoundary_encode {front back : List Char} :
    isCharBoundary (encode (front ++ back)) (encode front).length = true := by
  unfold isCharBoundary
  split
  · rfl
  · rw [encode_append, List.getElem?_append_right (Nat.le_refl _), Nat.sub_self]
    cases back with
    | nil => simp
    | cons c back =>
      obtain ⟨first, rest, hc, hfirst, -⟩ := utf8EncodeChar_eq_cons c
      rw [encode_cons, hc, List.cons_append, List.getElem?_cons_zero]
      simp [hfirst]

/-- A boundary of the bytes is one between characters. -/
theorem exists_of_isCharBoundary {chars : List Char} {index : ℕ}
    (hboundary : isCharBoundary (encode chars) index = true) :
    ∃ front back, chars = front ++ back ∧ (encode front).length = index := by
  induction chars generalizing index with
  | nil =>
    refine ⟨[], [], rfl, ?_⟩
    unfold isCharBoundary at hboundary
    split at hboundary
    · rename_i hzero
      exact hzero.symm
    · simpa using Eq.symm (of_decide_eq_true hboundary)
  | cons c chars ih =>
    by_cases hzero : index = 0
    · exact ⟨[], c :: chars, rfl, hzero.symm⟩
    obtain ⟨first, rest, hc, -, hrest⟩ := utf8EncodeChar_eq_cons c
    by_cases hinside : index < (String.utf8EncodeChar c).length
    · -- Within the bytes of the first character a continuation byte follows.
      exfalso
      unfold isCharBoundary at hboundary
      rw [if_neg hzero, encode_cons, List.getElem?_append_left hinside, hc] at hboundary
      obtain ⟨index, rfl⟩ := Nat.exists_eq_succ_of_ne_zero hzero
      rw [hc, List.length_cons] at hinside
      have hindex : index < rest.length := Nat.lt_of_succ_lt_succ hinside
      rw [List.getElem?_cons_succ, List.getElem?_eq_getElem hindex] at hboundary
      simp [hrest _ (List.getElem_mem hindex)] at hboundary
    · obtain ⟨past, rfl⟩ := Nat.exists_eq_add_of_le (Nat.not_lt.mp hinside)
      have hpast : isCharBoundary (encode chars) past = true := by
        unfold isCharBoundary at hboundary ⊢
        rw [if_neg hzero, encode_cons, List.getElem?_append_right (Nat.le_add_right _ _),
          Nat.add_sub_cancel_left, List.length_append] at hboundary
        split
        · rfl
        · split at hboundary <;> simp_all
      obtain ⟨front, back, rfl, hlength⟩ := ih hpast
      exact ⟨c :: front, back, rfl, by rw [encode_cons, List.length_append, hlength]⟩

end Encode

section Cutting

variable {bytes : List UInt8} {index : ℕ}

/-- Both sides of a boundary are valid. -/
theorem valid_take_drop (hvalid : Valid bytes) (hboundary : isCharBoundary bytes index = true) :
    Valid (bytes.take index) ∧ Valid (bytes.drop index) := by
  obtain ⟨chars, rfl⟩ := hvalid
  obtain ⟨front, back, rfl, rfl⟩ := exists_of_isCharBoundary hboundary
  rw [encode_append, List.take_left, List.drop_left]
  exact ⟨⟨front, rfl⟩, ⟨back, rfl⟩⟩

/-- If text is cut so that the part before the cut is text, the cut is between characters. -/
theorem isCharBoundary_of_valid_take (hvalid : Valid bytes) (hindex : index ≤ bytes.length)
    (htake : Valid (bytes.take index)) : isCharBoundary bytes index = true := by
  obtain ⟨chars, rfl⟩ := hvalid
  obtain ⟨front, hfront⟩ := htake
  have hsplit : encode front ++ (encode chars).drop index = encode chars := by
    rw [hfront, List.take_append_drop]
  obtain ⟨back, rfl, -⟩ := encode_split hsplit
  have hlength : (encode front).length = index := by
    rw [hfront, List.length_take, Nat.min_eq_left hindex]
  rw [← hlength]
  exact isCharBoundary_encode

private theorem Valid.append {other : List UInt8} (hvalid : Valid bytes) (hother : Valid other) :
    Valid (bytes ++ other) := by
  obtain ⟨front, rfl⟩ := hvalid
  obtain ⟨back, rfl⟩ := hother
  exact ⟨front ++ back, encode_append⟩

/-- Text does not begin with a byte that continues a character. -/
theorem Valid.isContinuation_head {byte : UInt8} {rest : List UInt8}
    (hvalid : Valid (byte :: rest)) : isContinuation byte = false := by
  obtain ⟨chars, hchars⟩ := hvalid
  cases chars with
  | nil => cases hchars
  | cons c chars =>
    obtain ⟨first, others, hc, hfirst, -⟩ := utf8EncodeChar_eq_cons c
    rw [encode_cons, hc] at hchars
    exact (List.cons.inj hchars).1 ▸ hfirst

theorem isCharBoundary_zero : isCharBoundary bytes 0 = true := rfl

theorem le_length_of_isCharBoundary (hboundary : isCharBoundary bytes index = true) :
    index ≤ bytes.length := by
  unfold isCharBoundary at hboundary
  split at hboundary
  · omega
  · split at hboundary
    · exact (of_decide_eq_true hboundary).le
    · rename_i hsome
      exact (List.getElem?_eq_some_iff.mp hsome).1.le

end Cutting

namespace Text

/-- The text from an index on. -/
def sliceFrom (text : Text) (index : ℕ) : Option Text :=
  if hboundary : isCharBoundary text.bytes index = true then
    some ⟨text.bytes.drop index, (valid_take_drop text.valid hboundary).2⟩
  else none

/-- The text up to an index. -/
def sliceTo (text : Text) (index : ℕ) : Option Text :=
  if hboundary : isCharBoundary text.bytes index = true then
    some ⟨text.bytes.take index, (valid_take_drop text.valid hboundary).1⟩
  else none

/-- Text after text. -/
def append (text other : Text) : Text := ⟨text.bytes ++ other.bytes, text.valid.append other.valid⟩

@[simp] theorem bytes_append {text other : Text} :
    (text.append other).bytes = text.bytes ++ other.bytes := rfl

/-- The length in bytes. -/
def len (text : Text) : ℕ := text.bytes.length

/-- The text of characters. -/
def ofChars (chars : List Char) : Text := ⟨encode chars, chars, rfl⟩

/-- The text before and after the first occurrence of an ASCII byte. -/
def splitOnce (byte : UInt8) (text : Text) : Option (Text × Text) := do
  let index := text.bytes.findIdx (· = byte)
  if index < text.len then
    let before ← text.sliceTo index
    let after ← text.sliceFrom (index + 1)
    return (before, after)
  else none

theorem sliceFrom_of_isCharBoundary {text : Text} {index : ℕ}
    (hboundary : isCharBoundary text.bytes index = true) :
    ∃ suffix, text.sliceFrom index = some suffix ∧ suffix.bytes = text.bytes.drop index :=
  ⟨_, dif_pos hboundary, rfl⟩

theorem sliceTo_of_isCharBoundary {text : Text} {index : ℕ}
    (hboundary : isCharBoundary text.bytes index = true) :
    ∃ front, text.sliceTo index = some front ∧ front.bytes = text.bytes.take index :=
  ⟨_, dif_pos hboundary, rfl⟩

private theorem isCharBoundary_append (text other : Text) :
    isCharBoundary (text.append other).bytes text.len = true := by
  refine isCharBoundary_of_valid_take (text.append other).valid ?_ ?_
  · rw [append, List.length_append]
    exact Nat.le_add_right _ _
  · rw [append, len, List.take_left]
    exact text.valid

private theorem sliceTo_append (text other : Text) :
    (text.append other).sliceTo text.len = some text := by
  obtain ⟨front, hslice, hbytes⟩ := sliceTo_of_isCharBoundary (isCharBoundary_append text other)
  rw [hslice, Option.some.injEq]
  exact Text.ext_bytes (hbytes.trans List.take_left)

private theorem sliceFrom_append (text other : Text) :
    (text.append other).sliceFrom text.len = some other := by
  obtain ⟨back, hslice, hbytes⟩ := sliceFrom_of_isCharBoundary (isCharBoundary_append text other)
  rw [hslice, Option.some.injEq]
  exact Text.ext_bytes (hbytes.trans List.drop_left)

private theorem append_assoc (text other another : Text) :
    (text.append other).append another = text.append (other.append another) :=
  Text.ext_bytes (List.append_assoc ..)

/-- The text is split at the first separator. -/
theorem splitOnce_append {byte : UInt8} {separator front : Text} (back : Text)
    (hseparator : separator.bytes = [byte]) (hfront : byte ∉ front.bytes) :
    (front.append (separator.append back)).splitOnce byte = some (front, back) := by
  have hindex : (front.append (separator.append back)).bytes.findIdx (· = byte) = front.len := by
    rw [bytes_append, bytes_append, hseparator, List.findIdx_append,
      if_neg (by simpa [List.findIdx_lt_length] using hfront), List.singleton_append,
      List.findIdx_cons]
    simp [len]
  have hlen : front.len < (front.append (separator.append back)).len := by
    simp [len, hseparator]
  have hafter : (front.append (separator.append back)).sliceFrom (front.len + 1) = some back := by
    have hshift : (front.append separator).len = front.len + 1 := by
      simp [len, hseparator]
    rw [← append_assoc, ← hshift, sliceFrom_append]
  rw [splitOnce, hindex, if_pos hlen, sliceTo_append, hafter]
  rfl

end Text

end Utf8
