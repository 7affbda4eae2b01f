import Mathlib.Data.List.GetD
import MrBoxington.Lib.Utf8

/-!
# Reading bytes as text with replacements

Bytes that are not text are read with a replacement character for each sequence which does not
go on as it began. Such a sequence ends before the next byte that begins a character, so the
bytes of a text are read as that text wherever they stand.
-/

namespace Utf8

/-- How many bytes a character has by its first byte; none begins with another byte. -/
def charWidth (first : UInt8) : ℕ :=
  if first < 128 then 1
  else if 194 ≤ first ∧ first ≤ 223 then 2
  else if 224 ≤ first ∧ first ≤ 239 then 3
  else if 240 ≤ first ∧ first ≤ 244 then 4
  else 0

/-- The second byte of a character of three or four bytes: none is longer than it has to be, a
surrogate or too large. -/
def secondAllowed (first second : UInt8) : Bool :=
  (first = 224 ∧ 160 ≤ second ∧ second ≤ 191) ∨
    (225 ≤ first ∧ first ≤ 236 ∧ 128 ≤ second ∧ second ≤ 191) ∨
    (first = 237 ∧ 128 ≤ second ∧ second ≤ 159) ∨
    (238 ≤ first ∧ first ≤ 239 ∧ 128 ≤ second ∧ second ≤ 191) ∨
    (first = 240 ∧ 144 ≤ second ∧ second ≤ 191) ∨
    (241 ≤ first ∧ first ≤ 243 ∧ 128 ≤ second ∧ second ≤ 191) ∨
    (first = 244 ∧ 128 ≤ second ∧ second ≤ 143)

/-- Whether a character begins with this byte, and how many bytes after it were accepted. A byte
past the end is zero. -/
def inspect (first : UInt8) (rest : List UInt8) : Bool × ℕ :=
  match charWidth first with
  | 1 => (true, 0)
  | 2 => if isContinuation (rest.getD 0 0) then (true, 1) else (false, 0)
  | 3 =>
    if secondAllowed first (rest.getD 0 0) then
      if isContinuation (rest.getD 1 0) then (true, 2) else (false, 1)
    else (false, 0)
  | 4 =>
    if secondAllowed first (rest.getD 0 0) then
      if isContinuation (rest.getD 1 0) then
        if isContinuation (rest.getD 2 0) then (true, 3) else (false, 2)
      else (false, 1)
    else (false, 0)
  | _ => (false, 0)

/-- The bytes of U+FFFD. -/
def replacement : List UInt8 := [239, 191, 189]

/-- Bytes read as text. -/
def lossy : List UInt8 → List UInt8
  | [] => []
  | first :: rest =>
    (if (inspect first rest).1 then first :: rest.take (inspect first rest).2 else replacement) ++
      lossy (rest.drop (inspect first rest).2)
termination_by bytes => bytes.length
decreasing_by
  rw [List.length_drop, List.length_cons]
  omega

private theorem isContinuation_of_secondAllowed {first second : UInt8}
    (hallowed : secondAllowed first second = true) : isContinuation second = true := by
  simp only [secondAllowed, decide_eq_true_eq, UInt8.le_iff_toNat_le, UInt8.reduceToNat]
    at hallowed
  simp only [isContinuation, decide_eq_true_eq]
  omega

/-- Only continuation bytes are accepted after the first byte. -/
theorem isContinuation_of_lt_inspect {first : UInt8} {rest : List UInt8} {i : ℕ}
    (hi : i < (inspect first rest).2) : isContinuation (rest.getD i 0) = true := by
  unfold inspect at hi
  split at hi
  · omega
  · split at hi
    · obtain rfl : i = 0 := by omega
      assumption
    · omega
  · split at hi
    · rename_i hsecond
      have hfirst := isContinuation_of_secondAllowed hsecond
      split at hi
      · obtain rfl | rfl : i = 0 ∨ i = 1 := by omega
        · exact hfirst
        · assumption
      · obtain rfl : i = 0 := by omega
        exact hfirst
    · omega
  · split at hi
    · rename_i hsecond
      have hfirst := isContinuation_of_secondAllowed hsecond
      split at hi
      · split at hi
        · obtain rfl | rfl | rfl : i = 0 ∨ i = 1 ∨ i = 2 := by omega
          · exact hfirst
          · assumption
          · assumption
        · obtain rfl | rfl : i = 0 ∨ i = 1 := by omega
          · exact hfirst
          · assumption
      · obtain rfl : i = 0 := by omega
        exact hfirst
    · omega
  · omega

/-- The bytes begin a character, or there are none. -/
def Begins (bytes : List UInt8) : Prop :=
  isContinuation (bytes.getD 0 0) = false

/-- Reading reaches every place where a character begins. -/
theorem lossy_append_of_begins {tail : List UInt8} (hbegins : Begins tail) (front : List UInt8) :
    ∃ before, lossy (front ++ tail) = before ++ lossy tail := by
  induction hlength : front.length using Nat.strongRecOn generalizing front with
  | ind length ih =>
    cases front with
    | nil => exact ⟨[], rfl⟩
    | cons first front =>
      have hcount : (inspect first (front ++ tail)).2 ≤ front.length := by
        by_contra hlt
        have hcontinues := isContinuation_of_lt_inspect (Nat.lt_of_not_le hlt)
        rw [List.getD_append_right _ _ _ _ (Nat.le_refl _), Nat.sub_self] at hcontinues
        exact absurd (hbegins.symm.trans hcontinues) Bool.false_ne_true
      obtain ⟨before, hbefore⟩ := ih (front.drop (inspect first (front ++ tail)).2).length
        (by rw [← hlength, List.length_drop, List.length_cons]; omega) _ rfl
      rw [List.cons_append, lossy, List.drop_append_of_le_length hcount, hbefore,
        ← List.append_assoc]
      exact ⟨_, rfl⟩

/-! ## The bytes of a character -/

private theorem inspect_two {first second : UInt8} {more : List UInt8}
    (hfirst : 194 ≤ first.toNat ∧ first.toNat ≤ 223) (hsecond : isContinuation second = true) :
    inspect first (second :: more) = (true, 1) := by
  have hwidth : charWidth first = 2 := by
    simp only [charWidth, UInt8.lt_iff_toNat_lt, UInt8.le_iff_toNat_le, UInt8.reduceToNat]
    rw [if_neg (by omega), if_pos hfirst]
  simp [inspect, hwidth, hsecond]

private theorem inspect_three {first second third : UInt8} {more : List UInt8}
    (hfirst : 224 ≤ first.toNat ∧ first.toNat ≤ 239) (hsecond : isContinuation second = true)
    (hshort : first.toNat = 224 → 160 ≤ second.toNat)
    (hsurrogate : first.toNat = 237 → second.toNat ≤ 159)
    (hthird : isContinuation third = true) :
    inspect first (second :: third :: more) = (true, 2) := by
  have hwidth : charWidth first = 3 := by
    simp only [charWidth, UInt8.lt_iff_toNat_lt, UInt8.le_iff_toNat_le, UInt8.reduceToNat]
    rw [if_neg (by omega), if_neg (by omega), if_pos hfirst]
  have hallowed : secondAllowed first second = true := by
    simp only [isContinuation, decide_eq_true_eq] at hsecond
    simp only [secondAllowed, decide_eq_true_eq, ← UInt8.toNat_inj, UInt8.le_iff_toNat_le,
      UInt8.reduceToNat]
    omega
  simp [inspect, hwidth, hallowed, hthird]

private theorem inspect_four {first second third fourth : UInt8} {more : List UInt8}
    (hfirst : 240 ≤ first.toNat ∧ first.toNat ≤ 244) (hsecond : isContinuation second = true)
    (hshort : first.toNat = 240 → 144 ≤ second.toNat)
    (hlarge : first.toNat = 244 → second.toNat ≤ 143)
    (hthird : isContinuation third = true) (hfourth : isContinuation fourth = true) :
    inspect first (second :: third :: fourth :: more) = (true, 3) := by
  have hwidth : charWidth first = 4 := by
    simp only [charWidth, UInt8.lt_iff_toNat_lt, UInt8.le_iff_toNat_le, UInt8.reduceToNat]
    rw [if_neg (by omega), if_neg (by omega), if_neg (by omega), if_pos hfirst]
  have hallowed : secondAllowed first second = true := by
    simp only [isContinuation, decide_eq_true_eq] at hsecond
    simp only [secondAllowed, decide_eq_true_eq, ← UInt8.toNat_inj, UInt8.le_iff_toNat_le,
      UInt8.reduceToNat]
    omega
  simp [inspect, hwidth, hallowed, hthird, hfourth]

private theorem inspect_one {first : UInt8} {more : List UInt8} (hfirst : first.toNat < 128) :
    inspect first more = (true, 0) := by
  have hwidth : charWidth first = 1 := by
    simp only [charWidth, UInt8.lt_iff_toNat_lt, UInt8.reduceToNat]
    rw [if_pos hfirst]
  simp [inspect, hwidth]

private theorem isContinuation_ofNat (n : ℕ) : isContinuation
    (UInt8.ofNat (n % 64 + 128)) = true := by
  simp only [isContinuation, decide_eq_true_eq, UInt8.toNat_ofNat']
  omega

private theorem lossy_utf8EncodeChar_append (c : Char) (more : List UInt8) :
    lossy (String.utf8EncodeChar c ++ more) = String.utf8EncodeChar c ++ lossy more := by
  have hvalid : c.val.toNat < 55296 ∨ 57343 < c.val.toNat ∧ c.val.toNat < 1114112 := c.valid
  unfold String.utf8EncodeChar
  dsimp only
  generalize c.val.toNat = value at hvalid ⊢
  split
  · rw [List.singleton_append, lossy, inspect_one (by rw [UInt8.toNat_ofNat']; omega)]
    rfl
  · split
    · rw [List.cons_append, lossy, List.singleton_append, inspect_two
        (by rw [UInt8.toNat_ofNat']; omega) (isContinuation_ofNat _)]
      rfl
    · split
      · rw [List.cons_append, lossy]
        simp only [List.cons_append, List.nil_append]
        rw [inspect_three (by rw [UInt8.toNat_ofNat']; omega) (isContinuation_ofNat _)
          (by rw [UInt8.toNat_ofNat', UInt8.toNat_ofNat']; omega)
          (by rw [UInt8.toNat_ofNat', UInt8.toNat_ofNat']; omega) (isContinuation_ofNat _)]
        rfl
      · rw [List.cons_append, lossy]
        simp only [List.cons_append, List.nil_append]
        rw [inspect_four (by rw [UInt8.toNat_ofNat']; omega) (isContinuation_ofNat _)
          (by rw [UInt8.toNat_ofNat', UInt8.toNat_ofNat']; omega)
          (by rw [UInt8.toNat_ofNat', UInt8.toNat_ofNat']; omega) (isContinuation_ofNat _)
          (isContinuation_ofNat _)]
        rfl

private theorem lossy_encode_append (chars : List Char) (more : List UInt8) :
    lossy (encode chars ++ more) = encode chars ++ lossy more := by
  induction chars with
  | nil => rfl
  | cons c chars ih =>
    rw [encode_cons, List.append_assoc, lossy_utf8EncodeChar_append, ih, List.append_assoc]

private theorem Valid.begins {bytes : List UInt8} (hvalid : Valid bytes) (hne : bytes ≠ [])
    (more : List UInt8) : Begins (bytes ++ more) := by
  obtain ⟨chars, rfl⟩ := hvalid
  cases chars with
  | nil => exact absurd rfl hne
  | cons c chars =>
    obtain ⟨first, rest, hchar, hfirst, -⟩ := utf8EncodeChar_eq_cons c
    rw [encode_cons, hchar]
    exact hfirst

/-- A text that stands in the bytes is read wherever it stands. -/
theorem lossy_contains {needle : List UInt8} (hvalid : Valid needle) (hne : needle ≠ [])
    (front back : List UInt8) : needle <:+: lossy (front ++ needle ++ back) := by
  obtain ⟨before, hbefore⟩ := lossy_append_of_begins (hvalid.begins hne back) front
  obtain ⟨chars, rfl⟩ := hvalid
  rw [List.append_assoc, hbefore, lossy_encode_append, ← List.append_assoc]
  exact ⟨before, lossy back, rfl⟩

end Utf8
