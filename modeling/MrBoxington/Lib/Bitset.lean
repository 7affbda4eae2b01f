import Mathlib.Data.Nat.Bitwise
import Mathlib.Order.Bounds.Basic
import Mathlib.Tactic.Common

/-!
# Sets of small numbers packed into 64-bit words

A set of natural numbers below `64 * words.length` is kept as a list of machine
words, bit `i % 64` of word `i / 64` standing for `i`. The two operations are
adding a shifted copy of the set to itself in place, and finding the least
member at or above a threshold; both are specified through membership alone.
-/

namespace Bitset

/-- Membership of `i` in the packed set. Positions past the last word are absent. -/
def testBit (words : List UInt64) (i : ℕ) : Bool :=
  ((words[i / 64]?).getD 0).toNat.testBit (i % 64)

/-- A bit that is set lies within the words. -/
theorem lt_of_testBit {words : List UInt64} {i : ℕ} (h : testBit words i = true) :
    i < 64 * words.length := by
  by_contra hge
  have hnone : words[i / 64]? = none := by
    rw [List.getElem?_eq_none_iff]
    omega
  simp [testBit, hnone] at h

/-- The word that position `index` receives when the set is shifted up by
`64 * words + shift` positions. -/
def shiftedWord (sums : List UInt64) (words shift index : ℕ) : UInt64 :=
  let low := (sums[index - words]?).getD 0 <<< UInt64.ofNat shift
  if shift ≠ 0 ∧ words < index then
    low ||| ((sums[index - words - 1]?).getD 0 >>> UInt64.ofNat (64 - shift))
  else low

/-- The in-place loop over word positions `words + count - 1` down to `words`.
A position is combined with lower words, which the loop has not reached yet. -/
def orShifted (words shift : ℕ) : ℕ → List UInt64 → List UInt64
  | 0, sums => sums
  | count + 1, sums =>
      let index := words + count
      orShifted words shift count
        (sums.set index ((sums[index]?).getD 0 ||| shiftedWord sums words shift index))

/-- Add every member shifted up by `weight`, keeping the old members. Members
that would pass the last word are dropped. -/
def addShifted (sums : List UInt64) (weight : ℕ) : List UInt64 :=
  orShifted (weight / 64) (weight % 64) (sums.length - weight / 64) sums

/-- The least member at or above `threshold`, scanning whole words upwards from
the one that holds the threshold. -/
def firstAtLeast (sums : List UInt64) (threshold : ℕ) : Option ℕ :=
  (List.range' (threshold / 64) (sums.length - threshold / 64)).findSome? fun index =>
    let word := (sums[index]?).getD 0
    let bits := if index = threshold / 64 then
      word &&& ((18446744073709551615 : UInt64) <<< UInt64.ofNat (threshold % 64)) else word
    if bits ≠ 0 then some (index * 64 + bits.toBitVec.ctz.toNat) else none

@[simp] private theorem orShifted_length (words shift count : ℕ) (sums : List UInt64) :
    (orShifted words shift count sums).length = sums.length := by
  induction count generalizing sums with
  | zero => rfl
  | succ count ih => simp [orShifted, ih]

@[simp] theorem addShifted_length (sums : List UInt64) (weight : ℕ) :
    (addShifted sums weight).length = sums.length := orShifted_length _ _ _ _

private theorem shiftedWord_congr {sums other : List UInt64} {words shift index : ℕ}
    (hsame : ∀ j ≤ index, sums[j]? = other[j]?) :
    shiftedWord sums words shift index = shiftedWord other words shift index := by
  simp only [shiftedWord, hsame (index - words) (by omega),
    hsame (index - words - 1) (by omega)]

/-- The loop combines each word of its interval with the shifted words of the
list it started from, and leaves the other words alone. -/
theorem orShifted_getElem? (words shift : ℕ) {count : ℕ} {sums : List UInt64}
    (hcount : words + count ≤ sums.length) (j : ℕ) :
    (orShifted words shift count sums)[j]? =
      if words ≤ j ∧ j < words + count then
        some ((sums[j]?).getD 0 ||| shiftedWord sums words shift j)
      else sums[j]? := by
  induction count generalizing sums with
  | zero => simp [orShifted, show ¬ (words ≤ j ∧ j < words) by omega]
  | succ count ih =>
    have hbelow : ∀ k, k ≠ words + count → (sums.set (words + count)
        ((sums[words + count]?).getD 0 ||| shiftedWord sums words shift (words + count)))[k]? =
        sums[k]? := by
      intro k hk
      rw [List.getElem?_set_ne (by omega)]
    rw [orShifted, ih (by simp; omega)]
    by_cases hj : j = words + count
    · subst hj
      have hlt : words + count < sums.length := by omega
      simp [hlt]
    · rw [hbelow j hj]
      by_cases hin : words ≤ j ∧ j < words + count
      · rw [if_pos hin, if_pos (by omega)]
        rw [shiftedWord_congr (fun k hk => hbelow k (by omega))]
      · rw [if_neg hin, if_neg (by omega)]

private theorem testBit_shl (w : UInt64) {s b : ℕ} (hs : s < 64) (hb : b < 64) :
    (w <<< UInt64.ofNat s).toNat.testBit b = (decide (s ≤ b) && w.toNat.testBit (b - s)) := by
  have hmod : (UInt64.ofNat s).toNat % 64 = s := by
    rw [UInt64.toNat_ofNat_of_lt' (by simp [UInt64.size]; omega)]
    omega
  rw [UInt64.toNat_shiftLeft, hmod, Nat.testBit_mod_two_pow, Nat.testBit_shiftLeft]
  simp [hb]

private theorem testBit_shr (w : UInt64) {s : ℕ} (hs : s < 64) (b : ℕ) :
    (w >>> UInt64.ofNat s).toNat.testBit b = w.toNat.testBit (s + b) := by
  have hmod : (UInt64.ofNat s).toNat % 64 = s := by
    rw [UInt64.toNat_ofNat_of_lt' (by simp [UInt64.size]; omega)]
    omega
  rw [UInt64.toNat_shiftRight, hmod, Nat.testBit_shiftRight]

private theorem shiftedWord_testBit (sums : List UInt64) {words shift index b : ℕ}
    (hshift : shift < 64)
    (hb : b < 64) (hindex : words ≤ index) :
    (shiftedWord sums words shift index).toNat.testBit b =
      (decide (words * 64 + shift ≤ index * 64 + b) &&
        testBit sums (index * 64 + b - (words * 64 + shift))) := by
  unfold shiftedWord testBit
  by_cases hsb : shift ≤ b
  · have hpos : index * 64 + b - (words * 64 + shift) = (index - words) * 64 + (b - shift) := by
      omega
    have hdiv : ((index - words) * 64 + (b - shift)) / 64 = index - words := by omega
    have hmod : ((index - words) * 64 + (b - shift)) % 64 = b - shift := by omega
    rw [hpos, hdiv, hmod, decide_eq_true (by omega : words * 64 + shift ≤ index * 64 + b)]
    split
    · rename_i hcarry
      have hhigh : ∀ w : UInt64, w.toNat.testBit (64 - shift + b) = false := fun w =>
        Nat.testBit_lt_two_pow
          (lt_of_lt_of_le w.toNat_lt (Nat.pow_le_pow_right (by omega) (by omega)))
      rw [UInt64.toNat_or, Nat.testBit_or, testBit_shl _ hshift hb,
        testBit_shr _ (by omega : 64 - shift < 64), hhigh]
      simp [hsb]
    · rw [testBit_shl _ hshift hb]
      simp [hsb]
  · by_cases hcarry : words < index
    · have hpos : index * 64 + b - (words * 64 + shift) =
          (index - words - 1) * 64 + (64 - shift + b) := by omega
      have hdiv : ((index - words - 1) * 64 + (64 - shift + b)) / 64 = index - words - 1 := by omega
      have hmod : ((index - words - 1) * 64 + (64 - shift + b)) % 64 = 64 - shift + b := by omega
      rw [hpos, hdiv, hmod, decide_eq_true (by omega : words * 64 + shift ≤ index * 64 + b),
        if_pos ⟨by omega, hcarry⟩, UInt64.toNat_or, Nat.testBit_or, testBit_shl _ hshift hb,
        testBit_shr _ (by omega : 64 - shift < 64)]
      simp [hsb]
    · have heq : index = words := by omega
      rw [if_neg (by omega), testBit_shl _ hshift hb]
      simp [hsb, show ¬ words * 64 + shift ≤ index * 64 + b by omega]

/-- After adding the shifted copy, a position is a member exactly when it was one
before or lies `weight` above an old member. -/
theorem testBit_addShifted (sums : List UInt64) (weight : ℕ) {i : ℕ}
    (hi : i < 64 * sums.length) :
    testBit (addShifted sums weight) i =
      (testBit sums i || (decide (weight ≤ i) && testBit sums (i - weight))) := by
  have hword : i / 64 < sums.length := by omega
  have hsplit : weight / 64 * 64 + weight % 64 = weight := by omega
  have hi' : i / 64 * 64 + i % 64 = i := by omega
  by_cases hwords : weight / 64 ≤ sums.length
  · have hcount : weight / 64 + (sums.length - weight / 64) ≤ sums.length := by omega
    have hget := orShifted_getElem? (weight / 64) (weight % 64) hcount (i / 64)
    unfold addShifted
    conv_lhs => rw [testBit, hget]
    by_cases hin : weight / 64 ≤ i / 64
    · rw [if_pos ⟨hin, by omega⟩, Option.getD_some, UInt64.toNat_or, Nat.testBit_or,
        shiftedWord_testBit sums (by omega) (by omega) hin, hsplit, hi']
      rfl
    · rw [if_neg (by omega)]
      have hlt : ¬ weight ≤ i := by omega
      simp [testBit, hlt]
  · have hlt : ¬ weight ≤ i := by omega
    rw [addShifted, show sums.length - weight / 64 = 0 by omega]
    simp [orShifted, hlt]

/-- The bits a scan looks at in word `index`: the whole word, less the positions
below the threshold in the word that holds it. -/
private def scannedBits (sums : List UInt64) (threshold index : ℕ) : UInt64 :=
  let word := (sums[index]?).getD 0
  if index = threshold / 64 then
    word &&& ((18446744073709551615 : UInt64) <<< UInt64.ofNat (threshold % 64)) else word

private theorem testBit_allOnes {b : ℕ} (hb : b < 64) :
    (18446744073709551615 : UInt64).toNat.testBit b = true := by
  have h := Nat.testBit_two_pow_sub_one 64 b
  simpa [hb] using h

private theorem scannedBits_testBit (sums : List UInt64) {threshold index : ℕ} (b : ℕ)
    (hindex : threshold / 64 ≤ index) (hb : b < 64) :
    (scannedBits sums threshold index).toNat.testBit b =
      (decide (threshold ≤ index * 64 + b) && testBit sums (index * 64 + b)) := by
  have hdiv : (index * 64 + b) / 64 = index := by omega
  have hmod : (index * 64 + b) % 64 = b := by omega
  unfold scannedBits testBit
  rw [hdiv, hmod]
  by_cases heq : index = threshold / 64
  · rw [if_pos heq, UInt64.toNat_and, Nat.testBit_and, testBit_shl _ (by omega) hb]
    by_cases hle : threshold % 64 ≤ b
    · rw [testBit_allOnes (by omega)]
      simp [hle, show threshold ≤ index * 64 + b by omega]
    · simp [hle, show ¬ threshold ≤ index * 64 + b by omega]
  · rw [if_neg heq]
    simp [show threshold ≤ index * 64 + b by omega]

private theorem lowest_bit {bits : UInt64} (hbits : bits ≠ 0) :
    bits.toBitVec.ctz.toNat < 64 ∧ bits.toNat.testBit bits.toBitVec.ctz.toNat = true ∧
      ∀ b < bits.toBitVec.ctz.toNat, bits.toNat.testBit b = false := by
  have hne : bits.toBitVec ≠ 0#64 := by
    intro h
    exact hbits (UInt64.toBitVec_inj.mp h)
  have hlt : bits.toBitVec.ctz < 64#64 := BitVec.ctz_lt_iff_ne_zero.mpr hne
  refine ⟨by simpa [BitVec.lt_def] using hlt, ?_, ?_⟩
  · exact BitVec.getLsbD_true_ctz_of_ne_zero hne
  · intro b hb
    exact BitVec.getLsbD_false_of_lt_ctz hb

/-- The search finds the least set bit from the threshold on. -/
theorem firstAtLeast_isLeast {sums : List UInt64} {threshold s : ℕ}
    (hfound : firstAtLeast sums threshold = some s) :
    IsLeast {i | threshold ≤ i ∧ testBit sums i = true} s := by
  obtain ⟨before, index, after, hrange, hhit, hbefore⟩ := List.findSome?_eq_some_iff.mp hfound
  change (if scannedBits sums threshold index ≠ 0 then
    some (index * 64 + (scannedBits sums threshold index).toBitVec.ctz.toNat) else none) =
      some s at hhit
  have hmem : index ∈ List.range' (threshold / 64) (sums.length - threshold / 64) := by
    simp [hrange]
  have hindex := (List.mem_range'_1.mp hmem).1
  split at hhit
  · rename_i hbits
    obtain ⟨hlt, hset, hlow⟩ := lowest_bit hbits
    rw [scannedBits_testBit sums _ hindex hlt, Option.some.inj hhit] at hset
    simp only [Bool.and_eq_true, decide_eq_true_eq] at hset
    refine ⟨hset, ?_⟩
    rintro i ⟨hi, hbit⟩
    by_contra hsmall
    have hdiv : i / 64 * 64 + i % 64 = i := by omega
    have hs := Option.some.inj hhit
    have hscan : (scannedBits sums threshold (i / 64)).toNat.testBit (i % 64) = true := by
      rw [scannedBits_testBit sums _ (by omega) (by omega), hdiv]
      simp [hi, hbit]
    by_cases hsame : i / 64 = index
    · rw [hsame, hlow (i % 64) (by omega)] at hscan
      exact Bool.false_ne_true hscan
    · have hprev : i / 64 ∈ before := by
        have hin : i / 64 ∈ before ++ index :: after := by
          rw [← hrange]
          have := (List.mem_range'_1.mp hmem).2
          exact List.mem_range'_1.mpr ⟨by omega, by omega⟩
        rcases List.mem_append.mp hin with h | h
        · exact h
        · have hsorted : (before ++ index :: after).Pairwise (· < ·) := by
            rw [← hrange]
            exact List.pairwise_lt_range'
          have hafter := (List.pairwise_cons.mp (List.pairwise_append.mp hsorted).2.1).1
          rcases List.mem_cons.mp h with h | h
          · exact absurd h hsame
          · have := hafter _ h
            omega
      have hnone := hbefore _ hprev
      change (if scannedBits sums threshold (i / 64) ≠ 0 then
        some (i / 64 * 64 + (scannedBits sums threshold (i / 64)).toBitVec.ctz.toNat)
          else none) = none at hnone
      split at hnone
      · exact absurd hnone (by simp)
      · rename_i hzero
        rw [not_not.mp hzero] at hscan
        simp at hscan
  · exact absurd hhit (by simp)

/-- A search that finds nothing has passed clear bits only. -/
theorem firstAtLeast_eq_none {sums : List UInt64} {threshold : ℕ}
    (hnone : firstAtLeast sums threshold = none) {i : ℕ} (hi : threshold ≤ i)
    (hbound : i < 64 * sums.length) : testBit sums i = false := by
  have hmem : i / 64 ∈ List.range' (threshold / 64) (sums.length - threshold / 64) :=
    List.mem_range'_1.mpr ⟨by omega, by omega⟩
  have h := List.findSome?_eq_none_iff.mp hnone _ hmem
  change (if scannedBits sums threshold (i / 64) ≠ 0 then
    some (i / 64 * 64 + (scannedBits sums threshold (i / 64)).toBitVec.ctz.toNat)
      else none) = none at h
  split at h
  · exact absurd h (by simp)
  · rename_i hzero
    have hword : threshold / 64 ≤ i / 64 := by omega
    have hscan := scannedBits_testBit sums (i % 64) hword (by omega)
    rw [not_not.mp hzero, show i / 64 * 64 + i % 64 = i by omega] at hscan
    simpa [hi] using hscan.symm

end Bitset
