import Mathlib.Data.List.Infix
import Mathlib.Tactic.Common

/-!
# Cutting texts

Operations of a standard library that take a text apart: behind a text that it starts with,
and at the places of a character.
-/

namespace Strings

/-- What follows a text that the text starts with. -/
def stripPrefix (text start : String) : Option String :=
  if start.toList.isPrefixOf text.toList then
    some (String.ofList (text.toList.drop start.toList.length))
  else none

/-- What is before and after the first place of a character. -/
def cut (separator : Char) : List Char → Option (List Char × List Char)
  | [] => none
  | c :: rest =>
    if c = separator then some ([], rest)
    else (cut separator rest).map fun parts => (c :: parts.1, parts.2)

/-- What is before and after the first place of a character. -/
def splitOnce (text : String) (separator : Char) : Option (String × String) :=
  (cut separator text.toList).map fun parts => (String.ofList parts.1, String.ofList parts.2)

/-- The parts of a text between all places of a character. -/
def split (text : String) (separator : Char) : List String :=
  (text.toList.splitOn separator).map String.ofList

/-- Texts with separators between them. -/
def join (parts : List String) (separator : Char) : String :=
  String.ofList ([separator].intercalate (parts.map String.toList))

/-- The text starts with another. -/
def startsWith (text start : String) : Bool := start.toList.isPrefixOf text.toList

/-- The text ends with another. -/
def endsWith (text ending : String) : Bool := ending.toList.isSuffixOf text.toList

/-- What precedes a text that the text ends with. -/
def stripSuffix (text ending : String) : Option String :=
  if ending.toList.isSuffixOf text.toList then
    some (String.ofList (text.toList.take (text.toList.length - ending.toList.length)))
  else none

/-- One of the characters is in the text. -/
def contains (text : String) (chars : List Char) : Bool := text.toList.any fun c => c ∈ chars

/-- A text of the system, which need not be encoded like other texts. -/
inductive OsString where
  | utf8 (text : String)
  | other (bytes : List UInt8)
deriving DecidableEq

variable {text start rest : String} {separator : Char}

theorem append_left_cancel {front back back' : String} (heq : front ++ back = front ++ back') :
    back = back' := by
  have hlist := congrArg String.toList heq
  rw [String.toList_append, String.toList_append] at hlist
  exact String.toList_inj.mp (List.append_cancel_left hlist)

/-- A text is stripped exactly where it starts with the front. -/
theorem stripPrefix_eq_some : stripPrefix text start = some rest ↔ text = start ++ rest := by
  rw [stripPrefix]
  constructor
  · intro hstrip
    split at hstrip
    · rename_i hstart
      obtain ⟨after, hafter⟩ := List.isPrefixOf_iff_prefix.mp hstart
      rw [← hafter, List.drop_left] at hstrip
      rw [← String.toList_inj, ← hafter, String.toList_append, ← Option.some.inj hstrip,
        String.toList_ofList]
    · cases hstrip
  · rintro rfl
    rw [String.toList_append, if_pos (List.isPrefixOf_iff_prefix.mpr (List.prefix_append _ _)),
      List.drop_left, String.ofList_toList]

@[simp] theorem stripPrefix_append : stripPrefix (start ++ rest) start = some rest :=
  stripPrefix_eq_some.mpr rfl

/-- A text is stripped exactly where it ends with the ending. -/
theorem stripSuffix_eq_some {ending : String} :
    stripSuffix text ending = some rest ↔ text = rest ++ ending := by
  rw [stripSuffix]
  constructor
  · intro hstrip
    split at hstrip
    · rename_i hending
      obtain ⟨before, hbefore⟩ := List.isSuffixOf_iff_suffix.mp hending
      rw [← hbefore, List.length_append, Nat.add_sub_cancel, List.take_left] at hstrip
      rw [← String.toList_inj, ← hbefore, String.toList_append, ← Option.some.inj hstrip,
        String.toList_ofList]
    · cases hstrip
  · rintro rfl
    rw [String.toList_append, if_pos (List.isSuffixOf_iff_suffix.mpr (List.suffix_append _ _)),
      List.length_append, Nat.add_sub_cancel, List.take_left, String.ofList_toList]

theorem stripPrefix_ofList {chars : List Char} :
    stripPrefix (String.ofList (start.toList ++ chars)) start = some (String.ofList chars) := by
  rw [stripPrefix_eq_some, ← String.toList_inj, String.toList_append, String.toList_ofList,
    String.toList_ofList]

theorem stripPrefix_eq_none : stripPrefix text start = none ↔ startsWith text start = false := by
  rw [stripPrefix, startsWith]
  split
  · rename_i hstart
    simp [hstart]
  · rename_i hstart
    exact iff_of_true rfl (Bool.eq_false_iff.mpr hstart)

theorem startsWith_append : startsWith (start ++ rest) start = true := by
  rw [startsWith, String.toList_append]
  exact List.isPrefixOf_iff_prefix.mpr (List.prefix_append _ _)

theorem startsWith_trans {front : String} (hstart : startsWith text start = true)
    (hfront : startsWith start front = true) : startsWith text front = true :=
  List.isPrefixOf_iff_prefix.mpr
    ((List.isPrefixOf_iff_prefix.mp hfront).trans (List.isPrefixOf_iff_prefix.mp hstart))

theorem stripPrefix_append_append (common : String) :
    stripPrefix (common ++ text) (common ++ start) = stripPrefix text start := by
  apply Option.ext
  intro rest
  rw [stripPrefix_eq_some, stripPrefix_eq_some, String.append_assoc]
  exact ⟨append_left_cancel, congrArg _⟩

/-- Neither text starts with the other. -/
def Apart (text other : String) : Prop :=
  text.toList.isPrefixOf other.toList = false ∧ other.toList.isPrefixOf text.toList = false

instance (text other : String) : Decidable (Apart text other) := inferInstanceAs (Decidable (_ ∧ _))

/-- A text apart from a start is never stripped of it. -/
theorem stripPrefix_of_apart {front : String} (hapart : Apart front start) (text : String) :
    stripPrefix (front ++ text) start = none := by
  rw [stripPrefix, if_neg]
  intro hstart
  rw [List.isPrefixOf_iff_prefix, String.toList_append] at hstart
  rcases List.prefix_or_prefix_of_prefix (List.prefix_append _ _) hstart with h | h
  · exact absurd (List.isPrefixOf_iff_prefix.mpr h) (by rw [hapart.1]; decide)
  · exact absurd (List.isPrefixOf_iff_prefix.mpr h) (by rw [hapart.2]; decide)

private theorem cut_eq_none {chars : List Char} :
    cut separator chars = none ↔ separator ∉ chars := by
  induction chars with
  | nil => simp [cut]
  | cons c rest ih =>
    rw [cut]
    split
    · rename_i hc
      simp [hc]
    · rename_i hc
      rw [Option.map_eq_none_iff, ih, List.mem_cons, not_or]
      exact ⟨fun h => ⟨Ne.symm hc, h⟩, fun h => h.2⟩

/-- A cut is made at the first separator. -/
theorem cut_eq_some {chars before after : List Char} :
    cut separator chars = some (before, after) ↔
      chars = before ++ separator :: after ∧ separator ∉ before := by
  induction chars generalizing before with
  | nil => simp [cut]
  | cons c rest ih =>
    rw [cut]
    split
    · rename_i hc
      subst hc
      cases before with
      | nil => simp
      | cons first before =>
        simp only [Option.some.injEq, Prod.mk.injEq, reduceCtorEq, false_and, List.cons_append,
          List.cons.injEq, List.mem_cons, not_or, false_iff]
        rintro ⟨⟨rfl, -⟩, hne, -⟩
        exact hne rfl
    · rename_i hc
      cases before with
      | nil => simp [hc]
      | cons first before =>
        simp only [Option.map_eq_some_iff, Prod.mk.injEq, List.cons.injEq, List.cons_append,
          List.mem_cons, not_or]
        constructor
        · rintro ⟨⟨front, back⟩, hcut, ⟨rfl, rfl⟩, rfl⟩
          obtain ⟨rfl, hnot⟩ := ih.mp hcut
          exact ⟨⟨rfl, rfl⟩, Ne.symm hc, hnot⟩
        · rintro ⟨⟨rfl, rfl⟩, -, hnot⟩
          exact ⟨(before, after), ih.mpr ⟨rfl, hnot⟩, ⟨rfl, rfl⟩, rfl⟩

theorem splitOnce_eq_none : splitOnce text separator = none ↔ separator ∉ text.toList := by
  rw [splitOnce, Option.map_eq_none_iff, cut_eq_none]

/-- A text is split at its first separator. -/
theorem splitOnce_eq_some {before after : String} :
    splitOnce text separator = some (before, after) ↔
      text.toList = before.toList ++ separator :: after.toList ∧ separator ∉ before.toList := by
  rw [← cut_eq_some, splitOnce, Option.map_eq_some_iff]
  constructor
  · rintro ⟨parts, hcut, heq⟩
    obtain ⟨rfl, rfl⟩ := Prod.mk.inj heq
    rw [String.toList_ofList, String.toList_ofList]
    exact hcut
  · intro hcut
    exact ⟨_, hcut, by rw [String.ofList_toList, String.ofList_toList]⟩

/-! ## Separated texts -/

theorem not_mem_of_mem_splitOn {chars piece : List Char}
    (hpiece : piece ∈ chars.splitOn separator) : separator ∉ piece := by
  induction hlen : chars.length using Nat.strong_induction_on generalizing chars with
  | _ len ih =>
    by_cases hmem : separator ∈ chars
    · obtain ⟨before, after, rfl, hbefore⟩ := List.eq_append_cons_of_mem hmem
      rw [List.splitOn_append_cons_self, List.splitOn_eq_singleton hbefore,
        List.singleton_append] at hpiece
      rcases List.mem_cons.mp hpiece with rfl | hpiece
      · exact hbefore
      · refine ih after.length ?_ hpiece rfl
        simp only [List.length_append, List.length_cons] at hlen
        omega
    · rw [List.splitOn_eq_singleton hmem] at hpiece
      obtain rfl := List.mem_singleton.mp hpiece
      exact hmem

theorem split_eq_singleton (hnot : separator ∉ text.toList) : split text separator = [text] := by
  rw [split, List.splitOn_eq_singleton hnot, List.map_singleton, String.ofList_toList]

/-- The first piece ends at the first separator. -/
theorem split_append {front between : String} (hnot : separator ∉ front.toList)
    (hbetween : between.toList = [separator]) :
    split (front ++ between ++ text) separator = front :: split text separator := by
  have hchars : (front ++ between ++ text).toList = front.toList ++ separator :: text.toList := by
    rw [String.toList_append, String.toList_append, hbetween]
    simp
  rw [split, hchars, List.splitOn_append_cons_self, List.splitOn_eq_singleton hnot]
  simp [split]

/-- Joined parts are split again. -/
theorem split_join {parts : List String} (hne : parts ≠ [])
    (hparts : ∀ part ∈ parts, separator ∉ part.toList) :
    split (join parts separator) separator = parts := by
  have hsplit : (join parts separator).toList.splitOn separator = parts.map String.toList := by
    rw [join, String.toList_ofList]
    refine List.splitOn_intercalate separator (fun piece hpiece => ?_) (by simpa using hne)
    obtain ⟨part, hpart, rfl⟩ := List.mem_map.mp hpiece
    exact hparts part hpart
  rw [split, hsplit, List.map_map]
  simp

end Strings
