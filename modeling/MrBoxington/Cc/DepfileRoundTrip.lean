import MrBoxington.Cc.Depfile
import MrBoxington.Lib.Fallible

/-!
# A list of dependencies is read back

The files of a list that the adapter wrote are read back from it unless a target before the last
one ends with a colon: the blank after it then looks like the end of the targets.
-/

namespace MrBoxington.Cc

open BuildScript (components)
open Fallible (bind_of_ok)
open Strings

namespace CcDepfile

variable {word rest front tail : List Char} {c : Char} {joined : Joined}

/-! ## Words -/

private theorem escapeMakeWord_append {word' : List Char} :
    escapeMakeWord (word ++ word') = escapeMakeWord word ++ escapeMakeWord word' :=
  List.flatMap_append

/-- A word that a list can hold. -/
structure PlainWord (word : List Char) : Prop where
  nonempty : word ≠ []
  plain (c : Char) (hc : c ∈ ['\\', '\t', '\r', '\n']) : c ∉ word

instance (word : List Char) : Decidable (PlainWord word) :=
  decidable_of_iff (word ≠ [] ∧
    (['\\', '\t', '\r', '\n'].all fun c => decide (c ∉ word)) = true) <| by
    rw [List.all_eq_true]
    constructor
    · rintro ⟨hne, hplain⟩
      exact ⟨hne, fun c hc => of_decide_eq_true (hplain c hc)⟩
    · rintro ⟨hne, hplain⟩
      exact ⟨hne, fun c hc => decide_eq_true (hplain c hc)⟩

private theorem mem_escapeMakeWord (hmem : c ∈ escapeMakeWord word) : c ∈ word ∨ c = '\\' := by
  obtain ⟨original, horiginal, hc⟩ := List.mem_flatMap.mp hmem
  split at hc
  · rename_i hspace
    subst hspace
    rcases List.mem_pair.mp hc with rfl | rfl
    · exact .inr rfl
    · exact .inl horiginal
  split at hc
  · rename_i hhash
    subst hhash
    rcases List.mem_pair.mp hc with rfl | rfl
    · exact .inr rfl
    · exact .inl horiginal
  split at hc
  · rename_i hdollar
    subst hdollar
    rcases List.mem_pair.mp hc with rfl | rfl <;> exact .inl horiginal
  · exact .inl (List.mem_singleton.mp hc ▸ horiginal)

private theorem PlainWord.not_mem_escape (hword : PlainWord word) (hc : c ∈ ['\t', '\r', '\n']) :
    c ∉ escapeMakeWord word := by
  intro hmem
  rcases mem_escapeMakeWord hmem with hmem | rfl
  · exact hword.plain c (List.mem_cons_of_mem _ hc) hmem
  · exact absurd hc (by decide)

private theorem getLast_escapeMakeWord : (escapeMakeWord word).getLast? = word.getLast? := by
  cases word using List.reverseRecOn with
  | nil => rfl
  | append_singleton front c =>
    rw [escapeMakeWord_append, List.getLast?_concat]
    by_cases hspace : c = ' '
    · simp [escapeMakeWord, hspace]
    by_cases hhash : c = '#'
    · simp [escapeMakeWord, hhash]
    by_cases hdollar : c = '$'
    · simp [escapeMakeWord, hdollar]
    · simp [escapeMakeWord, hspace, hhash, hdollar]

private theorem head_escapeMakeWord : (escapeMakeWord word).head? ≠ some ' ' := by
  cases word with
  | nil => simp [escapeMakeWord]
  | cons first word =>
    rw [escapeMakeWord, List.flatMap_cons]
    by_cases hspace : first = ' '
    · simp [hspace]
    by_cases hhash : first = '#'
    · simp [hhash]
    by_cases hdollar : first = '$'
    · simp [hdollar]
    · simp [hspace, hhash, hdollar]

private theorem separator_not_within : ¬ ruleSeparator <:+: escapeMakeWord word := by
  induction word with
  | nil =>
    intro hinfix
    simpa [escapeMakeWord, ruleSeparator] using hinfix.length_le
  | cons c word ih =>
    intro hinfix
    rw [escapeMakeWord, List.flatMap_cons] at hinfix
    rcases pair_infix_append hinfix with hinfix | hinfix | ⟨-, hhead⟩
    · split at hinfix
      · exact absurd hinfix (by decide)
      split at hinfix
      · exact absurd hinfix (by decide)
      split at hinfix
      · exact absurd hinfix (by decide)
      · simpa using hinfix.length_le
    · exact ih hinfix
    · exact head_escapeMakeWord hhead

private theorem splitEscaped_escape {current : List Char} (hplain : ∀ c ∈ ['\\', '\t'], c ∉ word) :
    splitEscaped current (escapeMakeWord word ++ rest) = splitEscaped (current ++ word) rest := by
  induction word generalizing current with
  | nil => rw [List.append_nil]; rfl
  | cons c word ih =>
    have hword : ∀ c ∈ ['\\', '\t'], c ∉ word := fun d hd hmem =>
      hplain d hd (List.mem_cons_of_mem _ hmem)
    have hbackslash : c ≠ '\\' := fun heq => hplain '\\' (by simp) (heq ▸ List.mem_cons_self)
    have htab : c ≠ '\t' := fun heq => hplain '\t' (by simp) (heq ▸ List.mem_cons_self)
    have hcurrent : current ++ c :: word = (current ++ [c]) ++ word := by simp
    rw [escapeMakeWord, List.flatMap_cons, List.append_assoc, hcurrent, ← ih hword]
    change splitEscaped current (_ ++ (escapeMakeWord word ++ rest)) = _
    by_cases hspace : c = ' '
    · simp [hspace, splitEscaped, isBlank]
    by_cases hhash : c = '#'
    · simp [hhash, splitEscaped, isBlank]
    by_cases hdollar : c = '$'
    · simp [hdollar, splitEscaped, isBlank]
    · rw [if_neg hspace, if_neg hhash, if_neg hdollar, List.singleton_append, splitEscaped.eq_def]
      simp only [isBlank, hspace, htab, hbackslash, hdollar, or_self, decide_false, if_false,
        Bool.false_eq_true]

private theorem splitEscaped_blank {current : List Char} (hc : isBlank c = true) :
    splitEscaped current (c :: rest) =
      (splitEscaped [] rest).map ((if current = [] then [] else [current]) ++ ·) := by
  rw [splitEscaped.eq_def]
  simp only [hc, if_true]

private theorem splitEscaped_eq_words {current value : List Char}
    (hcurrent : ∀ c ∈ current, isBlank c = false) (hbackslash : '\\' ∉ value)
    (hdollar : '$' ∉ value) :
    splitEscaped current value = .ok (words isBlank (current ++ value)) := by
  induction value generalizing current with
  | nil =>
    rw [List.append_nil, splitEscaped]
    by_cases hnil : current = []
    · subst hnil
      rfl
    · rw [if_neg hnil, words_last hnil hcurrent]
  | cons c value ih =>
    rw [List.mem_cons, not_or] at hbackslash hdollar
    cases hblank : isBlank c with
    | true =>
      rw [splitEscaped_blank hblank, ih (by simp) hbackslash.2 hdollar.2]
      by_cases hnil : current = []
      · subst hnil
        exact congrArg Except.ok (words_separator hblank).symm
      · rw [if_neg hnil, words_word hnil hcurrent hblank]
        rfl
    | false =>
      have hstep : splitEscaped current (c :: value) = splitEscaped (current ++ [c]) value := by
        rw [splitEscaped.eq_def]
        simp only [hblank, Ne.symm hbackslash.1, Ne.symm hdollar.1, if_false, Bool.false_eq_true]
      rw [hstep, ih _ hbackslash.2 hdollar.2]
      · simp
      · intro d hd
        rcases List.mem_append.mp hd with hd | hd
        · exact hcurrent d hd
        · rwa [List.mem_singleton.mp hd]

private theorem splitPrerequisites_eq {value : List Char} :
    splitPrerequisites value = splitEscapedPrerequisites value := by
  rw [splitPrerequisites]
  split
  · rename_i hplain
    rw [splitEscapedPrerequisites, splitEscaped_eq_words (by simp) hplain.1 hplain.2]
    rfl
  · rfl

/-! ## Lines -/

/-- The files of a rule in one line. -/
def fileText : List (List Char) → List Char
  | [] => []
  | [file] => ' ' :: ' ' :: escapeMakeWord file
  | file :: next :: rest =>
    ' ' :: ' ' :: (escapeMakeWord file ++ ' ' :: fileText (next :: rest))

/-- The lines of the files of a rule. -/
def fileLines : List (List Char) → List (List Char)
  | [] => []
  | [file] => [' ' :: escapeMakeWord file]
  | file :: next :: rest =>
    (' ' :: escapeMakeWord file ++ [' '] ++ ['\\']) :: fileLines (next :: rest)

private theorem flatMap_fileLines {files : List (List Char)} (hne : files ≠ []) :
    (files.flatMap fun file => [' ', '\\', '\n', ' '] ++ escapeMakeWord file) ++ ['\n'] =
      [' ', '\\', '\n'] ++ (fileLines files).flatMap (· ++ ['\n']) := by
  induction files with
  | nil => exact absurd rfl hne
  | cons file rest ih =>
    cases rest with
    | nil => simp [fileLines]
    | cons next rest =>
      rw [List.flatMap_cons, List.append_assoc, ih (List.cons_ne_nil _ _), fileLines.eq_3,
        List.flatMap_cons]
      simp only [List.append_assoc, List.cons_append, List.nil_append]

private theorem rdropWhile_tab {text : List Char} (htab : '\t' ∉ text) :
    text.rdropWhile (fun c => decide (c = '\t')) = text := by
  refine List.rdropWhile_eq_self_iff.mpr fun hne hlast => htab ?_
  rw [← of_decide_eq_true hlast]
  exact List.getLast_mem hne

private theorem addLine_continued {text : List Char} (hplain : ∀ c ∈ ['\t', '\r'], c ∉ text) :
    joined.addLine (text ++ ['\\']) =
      ⟨joined.text ++ (if joined.continued then [' '] else []) ++ text, true⟩ := by
  have hstrip : stripReturn (text ++ ['\\']) = text ++ ['\\'] := by
    rw [stripReturn, List.getLast?_concat, if_neg (by decide)]
  unfold Joined.addLine
  dsimp only
  rw [hstrip, List.getLast?_concat, List.dropLast_concat]
  simp [rdropWhile_tab (hplain '\t' (by simp))]

private theorem addLine_last {text : List Char} (hplain : ∀ c ∈ ['\t', '\r'], c ∉ text)
    (hlast : text.getLast? ≠ some '\\') :
    joined.addLine text =
      ⟨joined.text ++ (if joined.continued then [' '] else []) ++ text ++ ['\n'], false⟩ := by
  unfold Joined.addLine
  dsimp only
  rw [stripReturn_eq_self (hplain '\r' (by simp))]
  simp [hlast, rdropWhile_tab (hplain '\t' (by simp))]

private theorem foldl_addLine_files {files : List (List Char)} (hne : files ≠ [])
    (hfiles : ∀ file ∈ files, PlainWord file) (hcontinued : joined.continued = true) :
    (fileLines files).foldl Joined.addLine joined =
      ⟨joined.text ++ fileText files ++ ['\n'], false⟩ := by
  induction files generalizing joined with
  | nil => exact absurd rfl hne
  | cons file rest ih =>
    have hfile := hfiles file List.mem_cons_self
    have hplain : ∀ c ∈ ['\t', '\r'], c ∉ escapeMakeWord file := fun c hc =>
      hfile.not_mem_escape (List.mem_append_left ['\n'] hc)
    have hblank : ∀ c ∈ ['\t', '\r'], c ≠ ' ' := by simp
    cases rest with
    | nil =>
      have hlast : (' ' :: escapeMakeWord file).getLast? ≠ some '\\' := by
        rw [List.getLast?_cons, getLast_escapeMakeWord]
        intro heq
        cases hword : file.getLast? with
        | none => exact hfile.nonempty (List.getLast?_eq_none_iff.mp hword)
        | some last =>
          rw [hword] at heq
          cases heq
          exact hfile.plain '\\' (by simp) (List.mem_of_getLast? hword)
      rw [fileLines.eq_2, List.foldl_cons, List.foldl_nil, addLine_last _ hlast, hcontinued,
        fileText.eq_2]
      · simp
      · intro c hc
        simp [hplain c hc, hblank c hc]
    | cons next rest =>
      have hline : ∀ c ∈ ['\t', '\r'], c ∉ ' ' :: escapeMakeWord file ++ [' '] := by
        intro c hc
        simp [hplain c hc, hblank c hc]
      rw [fileLines.eq_3, List.foldl_cons, addLine_continued hline, hcontinued,
        ih (List.cons_ne_nil _ _) (fun file hmem => hfiles file (List.mem_cons_of_mem _ hmem)) rfl,
        fileText.eq_3]
      simp

private theorem foldl_addLine_last {lines : List (List Char)}
    (hlines : ∀ line ∈ lines, (∀ c ∈ ['\t', '\r'], c ∉ line) ∧ line.getLast? ≠ some '\\')
    (hcontinued : joined.continued = false) :
    lines.foldl Joined.addLine joined =
      ⟨joined.text ++ lines.flatMap (· ++ ['\n']), false⟩ := by
  induction lines generalizing joined with
  | nil =>
    rw [List.foldl_nil, List.flatMap_nil, List.append_nil, ← hcontinued]
  | cons line lines ih =>
    obtain ⟨hplain, hlast⟩ := hlines line List.mem_cons_self
    rw [List.foldl_cons, addLine_last hplain hlast,
      ih (fun line hmem => hlines line (List.mem_cons_of_mem _ hmem)) rfl, hcontinued]
    simp

private theorem splitEscaped_fileText {files : List (List Char)}
    (hfiles : ∀ file ∈ files, PlainWord file) :
    splitEscaped [] (fileText files) = .ok files := by
  have hblank : isBlank ' ' = true := by decide
  have hstart (rest : List Char) : splitEscaped [] (' ' :: ' ' :: rest) = splitEscaped [] rest := by
    rw [splitEscaped_blank hblank, splitEscaped_blank hblank]
    cases splitEscaped [] rest <;> rfl
  induction files with
  | nil => rfl
  | cons file rest ih =>
    have hfile := hfiles file List.mem_cons_self
    have hplain : ∀ c ∈ ['\\', '\t'], c ∉ file := fun c hc =>
      hfile.plain c (List.mem_append_left ['\r', '\n'] hc)
    cases rest with
    | nil =>
      have hend := @splitEscaped_escape file [] [] hplain
      rw [List.append_nil, List.nil_append] at hend
      rw [fileText.eq_2, hstart, hend, splitEscaped, if_neg hfile.nonempty]
    | cons next rest =>
      rw [fileText.eq_3, hstart, splitEscaped_escape hplain, splitEscaped_blank hblank,
        ih fun file hmem => hfiles file (List.mem_cons_of_mem _ hmem), List.nil_append,
        if_neg hfile.nonempty]
      rfl

/-! ## Targets -/

/-- The targets of a rule. -/
def targetsText (names : List (List Char)) : List Char :=
  [' '].intercalate (names.map escapeMakeWord)

private theorem targetsText_singleton {name : List Char} : targetsText
    [name] = escapeMakeWord name := by
  simp [targetsText, List.intercalate]

private theorem targetsText_cons {name next : List Char} {names : List (List Char)} :
    targetsText (name :: next :: names) =
      escapeMakeWord name ++ ' ' :: targetsText (next :: names) := by
  simp [targetsText, List.intercalate]

/-- No target before the last one ends with a colon. -/
def EndsOnce (names : List (List Char)) : Prop :=
  ∀ name ∈ names.dropLast, name.getLast? ≠ some ':'

private theorem cutAt_last {name files : List Char} :
    cutAt ruleSeparator (escapeMakeWord name ++ ruleSeparator ++ files) =
      some (escapeMakeWord name, files) := by
  refine cutAt_append (by decide) fun hinfix => ?_
  rcases pair_infix_append hinfix with hinfix | hinfix | ⟨-, hhead⟩
  · exact separator_not_within hinfix
  · exact absurd hinfix (by decide)
  · exact absurd hhead (by decide)

/-- The rule is cut at the end of its targets, or after a target before the last one that ends
with a colon. -/
theorem cutAt_targets {names : List (List Char)} {files : List Char} (hne : names ≠ []) :
    ∃ before after, cutAt ruleSeparator (targetsText names ++ ruleSeparator ++ files) =
        some (before, after) ∧
      ((EndsOnce names ∧ after = files) ∨
        (¬ EndsOnce names ∧ ∃ rest ≠ [], (∀ name ∈ rest, name ∈ names) ∧
          after = targetsText rest ++ ruleSeparator ++ files)) := by
  induction names with
  | nil => exact absurd rfl hne
  | cons name names ih =>
    cases names with
    | nil =>
      rw [targetsText_singleton]
      exact ⟨_, _, cutAt_last, .inl ⟨by simp [EndsOnce], rfl⟩⟩
    | cons next names =>
      obtain ⟨before, after, hcut, hafter⟩ := ih (List.cons_ne_nil _ _)
      have hiff : EndsOnce (name :: next :: names) ↔
          name.getLast? ≠ some ':' ∧ EndsOnce (next :: names) := by
        simp [EndsOnce]
      by_cases hcolon : name.getLast? = some ':'
      · -- The colon and the blank between the targets look like the end of the targets.
        have hlast := @getLast_escapeMakeWord name
        rw [hcolon] at hlast
        obtain ⟨start, hstart⟩ := List.getLast?_eq_some_iff.mp hlast
        have htext : targetsText (name :: next :: names) ++ ruleSeparator ++ files =
            start ++ ruleSeparator ++ (targetsText (next :: names) ++ ruleSeparator ++ files) := by
          rw [targetsText_cons, hstart]
          simp [ruleSeparator]
        have hinfix : ¬ ruleSeparator <:+: start ++ ruleSeparator.dropLast := by
          have hnot := @separator_not_within name
          rwa [hstart] at hnot
        refine ⟨start, _, ?_, .inr ⟨fun h => (hiff.mp h).1 hcolon, next :: names,
          List.cons_ne_nil _ _, fun other hmem => List.mem_cons_of_mem _ hmem, rfl⟩⟩
        rw [htext, cutAt_append (by decide) hinfix]
      · have htext : targetsText (name :: next :: names) ++ ruleSeparator ++ files =
            (escapeMakeWord name ++ [' ']) ++
              (targetsText (next :: names) ++ ruleSeparator ++ files) := by
          rw [targetsText_cons]
          simp
        have hinfix : ¬ ruleSeparator <:+: (escapeMakeWord name ++ [' ']) ++
            (targetsText (next :: names) ++ ruleSeparator ++ files).take
              (ruleSeparator.length - 1) := by
          intro hinfix
          rcases pair_infix_append hinfix with hinfix | hinfix | ⟨hlast, -⟩
          · rcases pair_infix_append hinfix with hinfix | hinfix | ⟨hlast, -⟩
            · exact separator_not_within hinfix
            · simpa using hinfix.length_le
            · rw [getLast_escapeMakeWord] at hlast
              exact hcolon hlast
          · have hlength := hinfix.length_le
            simp only [ruleSeparator, List.length_cons, List.length_nil,
              List.length_take] at hlength
            omega
          · rw [List.getLast?_concat] at hlast
            exact absurd hlast (by decide)
        rw [htext, cutAt_skip hinfix, hcut]
        refine ⟨_, _, rfl, ?_⟩
        rcases hafter with ⟨hends, rfl⟩ | ⟨hends, rest, hrest, hmem, rfl⟩
        · exact .inl ⟨hiff.mpr ⟨hcolon, hends⟩, rfl⟩
        · exact .inr ⟨fun h => hends (hiff.mp h).2, rest, hrest,
            fun other hother => List.mem_cons_of_mem _ (hmem other hother), rfl⟩

private theorem splitEscaped_targets {names : List (List Char)} {files : List Char}
    (hne : names ≠ [])
    (hnames : ∀ name ∈ names, PlainWord name) :
    ∃ extra ≠ [], splitEscaped [] (targetsText names ++ ruleSeparator ++ files) =
      (splitEscaped [] files).map (extra ++ ·) := by
  have hblank : isBlank ' ' = true := by decide
  induction names with
  | nil => exact absurd rfl hne
  | cons name names ih =>
    have hname := hnames name List.mem_cons_self
    have hplain : ∀ c ∈ ['\\', '\t'], c ∉ name := fun c hc =>
      hname.plain c (List.mem_append_left ['\r', '\n'] hc)
    cases names with
    | nil =>
      refine ⟨[name ++ [':']], List.cons_ne_nil _ _, ?_⟩
      rw [targetsText_singleton, List.append_assoc, splitEscaped_escape hplain, List.nil_append]
      have hcolon : splitEscaped name (ruleSeparator ++ files) =
          splitEscaped (name ++ [':']) (' ' :: files) := by
        rw [ruleSeparator, List.cons_append, splitEscaped.eq_def]
        rfl
      rw [hcolon, splitEscaped_blank hblank, if_neg (by simp)]
    | cons next names =>
      obtain ⟨extra, -, hextra⟩ := ih (List.cons_ne_nil _ _) fun other hmem =>
        hnames other (List.mem_cons_of_mem _ hmem)
      refine ⟨name :: extra, List.cons_ne_nil _ _, ?_⟩
      have htext : targetsText (name :: next :: names) ++ ruleSeparator ++ files =
          escapeMakeWord name ++
            ' ' :: (targetsText (next :: names) ++ ruleSeparator ++ files) := by
        rw [targetsText_cons]
        simp
      rw [htext, splitEscaped_escape hplain, List.nil_append, splitEscaped_blank hblank, hextra,
        if_neg hname.nonempty]
      cases splitEscaped [] files <;> rfl

/-! ## The whole list -/

/-- The empty rules. -/
def phonyLines (files : List String) (source : String) (phonyTargets : Bool) : List (List Char) :=
  if phonyTargets then
    (files.filter fun file => components file ≠ components source).map fun file =>
      escapeMakeWord file.toList ++ [':']
  else []

private theorem phonyLines_plain {files : List String} {source : String} {phonyTargets : Bool}
    (hfiles : ∀ file ∈ files, PlainWord file.toList) :
    ∀ line ∈ phonyLines files source phonyTargets,
      (∀ c ∈ ['\t', '\r', '\n'], c ∉ line) ∧ line.getLast? ≠ some '\\' := by
  intro line hline
  rw [phonyLines] at hline
  split at hline
  · obtain ⟨file, hfile, rfl⟩ := List.mem_map.mp hline
    refine ⟨fun c hc hmem => ?_, by simp⟩
    rcases List.mem_append.mp hmem with hmem | hmem
    · exact (hfiles file (List.mem_filter.mp hfile).1).not_mem_escape hc hmem
    · rw [List.mem_singleton.mp hmem] at hc
      exact absurd hc (by decide)
  · cases hline

private theorem fileLines_plain {files : List (List Char)}
    (hfiles : ∀ file ∈ files, PlainWord file) :
    ∀ line ∈ fileLines files, ∀ c ∈ ['\t', '\r', '\n'], c ∉ line := by
  have hblank : ∀ c ∈ ['\t', '\r', '\n'], c ≠ ' ' ∧ c ≠ '\\' := by simp
  induction files with
  | nil => simp [fileLines]
  | cons file rest ih =>
    have hfile := fun c (hc : c ∈ ['\t', '\r', '\n']) =>
      (hfiles file List.mem_cons_self).not_mem_escape hc
    cases rest with
    | nil =>
      intro line hline c hc
      rw [fileLines.eq_2, List.mem_singleton] at hline
      simp [hline, hfile c hc, (hblank c hc).1]
    | cons next rest =>
      intro line hline c hc
      rw [fileLines.eq_3, List.mem_cons] at hline
      rcases hline with rfl | hline
      · simp [hfile c hc, (hblank c hc).1, (hblank c hc).2]
      · exact ih (fun file hmem => hfiles file (List.mem_cons_of_mem _ hmem)) line hline c hc

private theorem fileText_plain {files : List (List Char)} (hfiles : ∀ file ∈ files, PlainWord file)
    (hc : c ∈ ['\t', '\r', '\n']) : c ∉ fileText files := by
  have hblank : ∀ c ∈ ['\t', '\r', '\n'], c ≠ ' ' := by simp
  induction files with
  | nil => simp [fileText]
  | cons file rest ih =>
    have hfile := (hfiles file List.mem_cons_self).not_mem_escape hc
    cases rest with
    | nil => simp [fileText, hfile, hblank c hc]
    | cons next rest =>
      have hrest := ih fun file hmem => hfiles file (List.mem_cons_of_mem _ hmem)
      rw [fileText.eq_3]
      simp [hfile, hblank c hc, hrest]

private theorem mem_targetsText {names : List (List Char)} (hmem : c ∈ targetsText names) :
    c = ' ' ∨ ∃ name ∈ names, c ∈ escapeMakeWord name := by
  induction names with
  | nil => simp [targetsText, List.intercalate] at hmem
  | cons name names ih =>
    cases names with
    | nil =>
      rw [targetsText_singleton] at hmem
      exact .inr ⟨name, List.mem_cons_self, hmem⟩
    | cons next names =>
      rw [targetsText_cons, List.mem_append, List.mem_cons] at hmem
      rcases hmem with hmem | hblank | hmem
      · exact .inr ⟨name, List.mem_cons_self, hmem⟩
      · exact .inl hblank
      · rcases ih hmem with hblank | ⟨other, hother, hmem⟩
        · exact .inl hblank
        · exact .inr ⟨other, List.mem_cons_of_mem _ hother, hmem⟩

private theorem targetsText_plain {names : List (List Char)}
    (hnames : ∀ name ∈ names, PlainWord name)
    (hc : c ∈ ['\t', '\r', '\n']) : c ∉ targetsText names := by
  intro hmem
  rcases mem_targetsText hmem with rfl | ⟨name, hname, hmem⟩
  · exact absurd hc (by decide)
  · exact (hnames name hname).not_mem_escape hc hmem

private theorem lineChars_plain {lines : List (List Char)}
    (hlines : ∀ line ∈ lines, ∀ c ∈ ['\t', '\r', '\n'], c ∉ line) :
    lineChars (lines.flatMap (· ++ ['\n'])) = lines := by
  rw [lineChars_flatMap fun line hline => hlines line hline '\n' (by simp)]
  refine (List.map_congr_left fun line hline => ?_).trans (List.map_id _)
  exact stripReturn_eq_self (hlines line hline '\r' (by simp))

section Render

variable {targets : List DepfileTarget} {files : List String} {source : String}
  {phonyTargets : Bool}

/-- The names of the targets. -/
def targetNames (targets : List DepfileTarget) : List (List Char) :=
  targets.map fun target => target.name.toList

private theorem render_lines (hquoted : ∀ target ∈ targets, target.quoted = true)
    (hne : files ≠ []) :
    (render targets files source phonyTargets).toList =
      ((targetsText (targetNames targets) ++ ruleSeparator ++ ['\\']) ::
        (fileLines (files.map String.toList) ++ phonyLines files source phonyTargets)).flatMap
          (· ++ ['\n']) := by
  have htargets : targets.map targetText = (targetNames targets).map escapeMakeWord := by
    rw [targetNames, List.map_map]
    refine List.map_congr_left fun target htarget => ?_
    rw [targetText, if_pos (hquoted target htarget)]
    rfl
  have hfiles : (files.flatMap fun file => [' ', '\\', '\n', ' '] ++ escapeMakeWord file.toList) ++
      ['\n'] =
      [' ', '\\', '\n'] ++ (fileLines (files.map String.toList)).flatMap (· ++ ['\n']) := by
    rw [← flatMap_fileLines (by simpa using hne), List.flatMap_map]
  have hphony : (if phonyTargets then
      (files.filter fun file => components file ≠ components source).flatMap fun file =>
        escapeMakeWord file.toList ++ [':', '\n']
      else []) = (phonyLines files source phonyTargets).flatMap (· ++ ['\n']) := by
    cases phonyTargets with
    | false => rfl
    | true => simp [phonyLines, List.flatMap_map]
  rw [render, String.toList_ofList, htargets, List.append_assoc _ _ ['\n'], hfiles, hphony,
    List.flatMap_cons, List.flatMap_append]
  simp [targetsText, ruleSeparator]

private theorem joinContinuations_render (hquoted : ∀ target ∈ targets, target.quoted = true)
    (hnames : ∀ name ∈ targetNames targets, PlainWord name) (hne : files ≠ [])
    (hfiles : ∀ file ∈ files, PlainWord file.toList) :
    joinContinuations (render targets files source phonyTargets).toList =
      .ok (((targetsText (targetNames targets) ++ ruleSeparator ++
        fileText (files.map String.toList)) :: phonyLines files source phonyTargets).flatMap
          (· ++ ['\n'])) := by
  have hplain : ∀ file ∈ files.map String.toList, PlainWord file := by simpa using hfiles
  have hstart : ∀ c ∈ ['\t', '\r', '\n'],
      c ∉ targetsText (targetNames targets) ++ ruleSeparator := by
    have hseparator : ∀ c ∈ ['\t', '\r', '\n'], c ∉ ruleSeparator := by simp [ruleSeparator]
    intro c hc hmem
    rcases List.mem_append.mp hmem with hmem | hmem
    · exact targetsText_plain hnames hc hmem
    · exact hseparator c hc hmem
  have hlines : ∀ line ∈ (targetsText (targetNames targets) ++ ruleSeparator ++ ['\\']) ::
      (fileLines (files.map String.toList) ++ phonyLines files source phonyTargets),
      ∀ c ∈ ['\t', '\r', '\n'], c ∉ line := by
    intro line hline c hc
    rcases List.mem_cons.mp hline with rfl | hline
    · have hbackslash : ∀ c ∈ ['\t', '\r', '\n'], c ≠ '\\' := by simp
      rw [List.mem_append, List.mem_singleton, not_or]
      exact ⟨hstart c hc, hbackslash c hc⟩
    · rcases List.mem_append.mp hline with hline | hline
      · exact fileLines_plain hplain line hline c hc
      · exact (phonyLines_plain hfiles line hline).1 c hc
  have hphony : ∀ line ∈ phonyLines files source phonyTargets,
      (∀ c ∈ ['\t', '\r'], c ∉ line) ∧ line.getLast? ≠ some '\\' := fun line hline =>
    ⟨fun c hc => (phonyLines_plain hfiles line hline).1 c (List.mem_append_left ['\n'] hc),
      (phonyLines_plain hfiles line hline).2⟩
  rw [joinContinuations, render_lines hquoted hne, lineChars_plain hlines, List.foldl_cons,
    addLine_continued fun c hc => hstart c (List.mem_append_left ['\n'] hc),
    List.foldl_append, foldl_addLine_files (by simpa using hne) hplain rfl,
    foldl_addLine_last hphony rfl]
  simp

private theorem parse_render (hquoted : ∀ target ∈ targets, target.quoted = true)
    (hnames : ∀ name ∈ targetNames targets, PlainWord name) (hne : files ≠ [])
    (hfiles : ∀ file ∈ files, PlainWord file.toList) {before after : List Char}
    (hcut : cutAt ruleSeparator (targetsText (targetNames targets) ++ ruleSeparator ++
      fileText (files.map String.toList)) = some (before, after)) :
    parse (render targets files source phonyTargets) =
      (splitEscaped [] after).map fun files => ⟨files.map String.ofList⟩ := by
  have hrule : lineChars (((targetsText (targetNames targets) ++ ruleSeparator ++
      fileText (files.map String.toList)) :: phonyLines files source phonyTargets).flatMap
        (· ++ ['\n'])) =
      (targetsText (targetNames targets) ++ ruleSeparator ++
        fileText (files.map String.toList)) :: phonyLines files source phonyTargets := by
    refine lineChars_plain fun line hline c hc => ?_
    rcases List.mem_cons.mp hline with rfl | hline
    · have hseparator : ∀ c ∈ ['\t', '\r', '\n'], c ∉ ruleSeparator := by simp [ruleSeparator]
      rw [List.mem_append, List.mem_append, not_or, not_or]
      exact ⟨⟨targetsText_plain hnames hc, hseparator c hc⟩,
        fileText_plain (by simpa using hfiles) hc⟩
    · exact (phonyLines_plain hfiles line hline).1 c hc
  refine (bind_of_ok (joinContinuations_render hquoted hnames hne hfiles)).trans ?_
  rw [hrule, List.findSome?_cons, hcut]
  dsimp only
  rw [splitPrerequisites_eq, splitEscapedPrerequisites]
  cases splitEscaped [] after <;> rfl

/-- A list that the adapter wrote is read back just when no target before the last one ends with
a colon. Words without escapes are read in the same way on both paths of the reader. -/
theorem depfile_read_back_iff (hne : targets ≠ [])
    (hquoted : ∀ target ∈ targets, target.quoted = true)
    (hnames : ∀ target ∈ targets, PlainWord target.name.toList) (hsome : files ≠ [])
    (hfiles : ∀ file ∈ files, PlainWord file.toList) :
    (parse (render targets files source phonyTargets) = .ok ⟨files⟩ ↔
      ∀ target ∈ targets.dropLast, target.name.toList.getLast? ≠ some ':') ∧
    ∀ value : List Char, '\\' ∉ value → '$' ∉ value →
      Except.ok ((words isBlank value).map String.ofList) = splitEscapedPrerequisites value := by
  have hplain : ∀ name ∈ targetNames targets, PlainWord name := by simpa [targetNames] using hnames
  have hread : splitEscaped [] (fileText (files.map String.toList)) =
      .ok (files.map String.toList) := splitEscaped_fileText (by simpa using hfiles)
  have hends : EndsOnce (targetNames targets) ↔
      ∀ target ∈ targets.dropLast, target.name.toList.getLast? ≠ some ':' := by
    simp [EndsOnce, targetNames, ← List.map_dropLast]
  refine ⟨?_, fun value hbackslash hdollar => ?_⟩
  · obtain ⟨before, after, hcut, hafter⟩ := @cutAt_targets (targetNames targets)
      (fileText (files.map String.toList)) (by simpa [targetNames] using hne)
    rw [parse_render hquoted hplain hsome hfiles hcut, ← hends]
    rcases hafter with ⟨honce, rfl⟩ | ⟨honce, rest, hrest, hmem, rfl⟩
    · refine iff_of_true ?_ honce
      rw [hread]
      simp [Except.map]
    · -- The targets after the colon are read as files, so there are more of them.
      obtain ⟨extra, hextra, hsplit⟩ := @splitEscaped_targets rest
        (fileText (files.map String.toList)) hrest fun name hname => hplain name (hmem name hname)
      refine iff_of_false (fun hparse => ?_) honce
      rw [hsplit, hread] at hparse
      have hlength := congrArg (fun depfile : Except CcBypassReason CcDepfile =>
        depfile.toOption.map fun depfile => depfile.files.length) hparse
      simp [Except.map, Except.toOption] at hlength
      exact hextra hlength
  · rw [← splitPrerequisites_eq, splitPrerequisites, if_pos ⟨hbackslash, hdollar⟩]

theorem depfile_read_back_iff_blanks :
    parse (render [⟨"out dir/a: b.o", true⟩, ⟨"c.o", true⟩] [" a b.c", "#$.h "] " a b.c" true) =
        .ok ⟨[" a b.c", "#$.h "]⟩ ∧
      Except.ok ((words isBlank "a\tb".toList).map String.ofList) =
        splitEscapedPrerequisites "a\tb".toList := by
  obtain ⟨hread, hwords⟩ := @depfile_read_back_iff [⟨"out dir/a: b.o", true⟩, ⟨"c.o", true⟩]
    [" a b.c", "#$.h "] " a b.c" true (by decide) (by decide) (by decide) (by decide) (by decide)
  exact ⟨hread.mpr (by decide), hwords _ (by decide) (by decide)⟩

/-- A target that ends with a colon looks like the end of the targets. -/
theorem colon_target_not_read_back :
    parse (render [⟨"a:", true⟩, ⟨"b", true⟩] ["c"] "c" false) = .ok ⟨["b:", "c"]⟩ := by
  decide +kernel

end Render

end CcDepfile

end MrBoxington.Cc
