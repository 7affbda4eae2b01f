import MrBoxington.Lib.Strings

/-!
# Lines and words

Operations of a standard library that take a text apart at the ends of its lines, at the first
place of another text, and at every blank.
-/

namespace Strings

variable {line front rest pattern : List Char} {parts : List (List Char)}
  {isSeparator : Char → Bool} {separator : Char}

/-! ## Lines -/

/-- The lines of a text: the last one may lack its end, and a return before an end is part of
the end. -/
def lineChars (text : List Char) : List (List Char) :=
  let parts := text.splitOn '\n'
  (if parts.getLast? = some [] then parts.dropLast else parts).zipIdx.map fun part =>
    let ended := part.2 + 1 < parts.length
    if ended ∧ part.1.getLast? = some '\r' then part.1.dropLast else part.1

/-- The lines of a text. -/
def lines (text : String) : List String := (lineChars text.toList).map String.ofList

/-- A line without the return at its end. -/
def stripReturn (line : List Char) : List Char :=
  if line.getLast? = some '\r' then line.dropLast else line

theorem stripReturn_eq_self (hreturn : '\r' ∉ line) : stripReturn line = line := by
  rw [stripReturn, if_neg]
  intro hlast
  exact hreturn (List.mem_of_getLast? hlast)

theorem stripReturn_prefix : stripReturn line <+: line := by
  rw [stripReturn]
  split
  · exact List.dropLast_prefix line
  · exact List.prefix_rfl

private theorem splitOn_flatMap_lines (hlines : ∀ line ∈ parts, '\n' ∉ line) :
    (parts.flatMap (· ++ ['\n'])).splitOn '\n' = parts ++ [[]] := by
  induction parts with
  | nil => rfl
  | cons line parts ih =>
    have hline := hlines line List.mem_cons_self
    have hrest := ih fun line hmem => hlines line (List.mem_cons_of_mem _ hmem)
    rw [List.flatMap_cons, List.append_assoc, List.singleton_append,
      List.splitOn_append_cons_self_of_not_mem hline, hrest, List.cons_append]

/-- Lines written with their ends are read back. -/
theorem lineChars_flatMap (hlines : ∀ line ∈ parts, '\n' ∉ line) :
    lineChars (parts.flatMap (· ++ ['\n'])) = parts.map stripReturn := by
  rw [lineChars]
  dsimp only
  rw [splitOn_flatMap_lines hlines, if_pos List.getLast?_concat, List.dropLast_concat]
  refine List.ext_getElem (by simp) fun index hleft hright => ?_
  have hindex : index < parts.length := by simpa using hright
  simp [stripReturn, hindex]

/-! ## The first place of a text -/

/-- What is before and after the first place of a text. -/
def cutAt (pattern : List Char) : List Char → Option (List Char × List Char)
  | [] => if pattern = [] then some ([], []) else none
  | c :: rest =>
    if pattern.isPrefixOf (c :: rest) then some ([], (c :: rest).drop pattern.length)
    else (cutAt pattern rest).map fun parts => (c :: parts.1, parts.2)

private theorem cutAt_append_self (hne : pattern ≠ []) :
    cutAt pattern (pattern ++ rest) = some ([], rest) := by
  obtain ⟨first, more, rfl⟩ := List.exists_cons_of_ne_nil hne
  rw [List.cons_append, cutAt, if_pos, ← List.cons_append, List.drop_left]
  exact List.isPrefixOf_iff_prefix.mpr (List.prefix_append _ _)

/-- A front without the pattern is passed over. -/
theorem cutAt_skip (hfirst : ¬ pattern <:+: front ++ rest.take (pattern.length - 1)) :
    cutAt pattern (front ++ rest) =
      (cutAt pattern rest).map fun parts => (front ++ parts.1, parts.2) := by
  induction front with
  | nil => simp
  | cons c front ih =>
    have hhere : ¬ pattern <+: c :: (front ++ rest) := by
      intro hprefix
      refine hfirst (List.IsPrefix.isInfix ?_)
      -- What follows is long enough for all but the first character.
      refine List.prefix_of_prefix_length_le hprefix ?_ ?_
      · rw [List.cons_append, List.cons_prefix_cons]
        exact ⟨rfl, (List.prefix_append_right_inj _).mpr (List.take_prefix _ _)⟩
      · have hlength := hprefix.length_le
        simp only [List.length_cons, List.length_append, List.length_take] at hlength ⊢
        omega
    rw [List.cons_append, cutAt, if_neg fun h => hhere (List.isPrefixOf_iff_prefix.mp h), ih,
      Option.map_map]
    · rfl
    · exact fun hwithin => hfirst (hwithin.trans (List.suffix_cons c _).isInfix)

/-- The text is cut at the first occurrence of the pattern. -/
theorem cutAt_append (hne : pattern ≠ []) (hfirst : ¬ pattern <:+: front ++ pattern.dropLast) :
    cutAt pattern (front ++ pattern ++ rest) = some (front, rest) := by
  have htake : (pattern ++ rest).take (pattern.length - 1) = pattern.dropLast := by
    rw [List.take_append_of_le_length (Nat.sub_le _ _), List.dropLast_eq_take]
  rw [List.append_assoc, cutAt_skip (by rwa [htake]), cutAt_append_self hne, Option.map_some,
    List.append_nil]

/-- A pair in an append lies in one part or across the seam. -/
theorem pair_infix_append {a b : Char} (hwithin : [a, b] <:+: front ++ rest) :
    [a, b] <:+: front ∨ [a, b] <:+: rest ∨ (front.getLast? = some a ∧ rest.head? = some b) := by
  induction front with
  | nil => exact .inr (.inl hwithin)
  | cons c front ih =>
    rw [List.cons_append, List.infix_cons_iff] at hwithin
    rcases hwithin with hprefix | hwithin
    · obtain ⟨rfl, hnext⟩ := List.cons_prefix_cons.mp hprefix
      cases front with
      | nil =>
        obtain ⟨more, rfl⟩ := hnext
        exact .inr (.inr ⟨rfl, rfl⟩)
      | cons second front =>
        obtain ⟨rfl, -⟩ := List.cons_prefix_cons.mp hnext
        exact .inl ⟨[], front, rfl⟩
    · rcases ih hwithin with hwithin | hwithin | ⟨hlast, hhead⟩
      · exact .inl (hwithin.trans (List.suffix_cons c front).isInfix)
      · exact .inr (.inl hwithin)
      · exact .inr (.inr ⟨by rw [List.getLast?_cons, hlast]; rfl, hhead⟩)

/-! ## Words -/

/-- What is between separators, without what is empty. -/
def words (isSeparator : Char → Bool) (text : List Char) : List (List Char) :=
  (text.splitOnP isSeparator).filter (· ≠ [])

theorem words_separator (hseparator : isSeparator separator = true) :
    words isSeparator (separator :: rest) = words isSeparator rest := by
  have hsplit := List.splitOnP_append_cons [] rest hseparator
  rw [List.nil_append] at hsplit
  rw [words, hsplit, List.filter_append]
  rfl

/-- A word ends at the first separator. -/
theorem words_word (hne : front ≠ []) (hfront : ∀ c ∈ front, isSeparator c = false)
    (hseparator : isSeparator separator = true) :
    words isSeparator (front ++ separator :: rest) = front :: words isSeparator rest := by
  rw [words, List.splitOnP_append_cons_of_forall_mem hfront separator hseparator,
    List.filter_cons_of_pos (by simpa using hne)]
  rfl

theorem words_last (hne : front ≠ []) (hfront : ∀ c ∈ front, isSeparator c = false) :
    words isSeparator front = [front] := by
  rw [words, List.splitOnP_eq_singleton hfront, List.filter_cons_of_pos (by simpa using hne)]
  rfl

end Strings
