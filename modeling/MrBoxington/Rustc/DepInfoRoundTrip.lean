import MrBoxington.Rustc.DepInfo

/-!
# The list of the compiler is read back

Every blank of a path has a backslash before it, so no part of a rule ends with a backslash unless
a blank of the path follows. Records are read back since their escapes are.
-/

namespace MrBoxington.Rustc

open BuildScript (components)
open Fallible (bind_of_ok)
open Paths (Path)
open Std (TreeMap)
open Strings

variable {path path' tail text text' : List Char} {c : Char} {reader : DepInfoReader}

/-! ## Paths -/

@[simp] private theorem escapeSpaces_nil : escapeSpaces [] = [] := rfl

private theorem escapeSpaces_space : escapeSpaces
    (' ' :: path) = '\\' :: ' ' :: escapeSpaces path := rfl

private theorem escapeSpaces_cons (hc : c ≠ ' ') : escapeSpaces
    (c :: path) = c :: escapeSpaces path := by
  rw [escapeSpaces, List.flatMap_cons, if_neg hc]
  rfl

private theorem escapeSpaces_append :
    escapeSpaces (path ++ path') = escapeSpaces path ++ escapeSpaces path' := List.flatMap_append

private theorem escapeSpaces_eq_self (hspace : ' ' ∉ path) : escapeSpaces path = path := by
  induction path with
  | nil => rfl
  | cons c path ih =>
    rw [List.mem_cons, not_or] at hspace
    rw [escapeSpaces_cons (Ne.symm hspace.1), ih hspace.2]

private theorem mem_escapeSpaces (hmem : c ∈ escapeSpaces path) : c ∈ path ∨ c = '\\' := by
  obtain ⟨original, horiginal, hc⟩ := List.mem_flatMap.mp hmem
  split at hc
  · rename_i hspace
    rcases List.mem_pair.mp hc with rfl | rfl
    · exact .inr rfl
    · exact .inl (hspace ▸ horiginal)
  · exact .inl (List.mem_singleton.mp hc ▸ horiginal)

private theorem head_escapeSpaces (hc : c ≠ ' ') :
    (escapeSpaces path ++ c :: tail).head? ≠ some ' ' := by
  cases path with
  | nil => simpa using hc
  | cons first path =>
    by_cases hfirst : first = ' '
    · subst hfirst
      simp [escapeSpaces_space]
    · simpa [escapeSpaces_cons hfirst] using hfirst

private theorem not_infix_escapeSpaces {before : Char} (hbefore : before ≠ '\\')
    (hspace : before ≠ ' ')
    (hc : c ≠ ' ') : ¬ [before, ' '] <:+: escapeSpaces path ++ [c] := by
  induction path with
  | nil =>
    intro hinfix
    simpa using hinfix.length_le
  | cons first path ih =>
    intro hinfix
    by_cases hfirst : first = ' '
    · subst hfirst
      rw [escapeSpaces_space, List.cons_append, List.cons_append, List.infix_cons_iff,
        List.infix_cons_iff] at hinfix
      rcases hinfix with hprefix | hprefix | hinfix
      · exact hbefore (List.cons_prefix_cons.mp hprefix).1
      · exact hspace (List.cons_prefix_cons.mp hprefix).1
      · exact ih hinfix
    · rw [escapeSpaces_cons hfirst, List.cons_append, List.infix_cons_iff] at hinfix
      rcases hinfix with hprefix | hinfix
      · obtain ⟨rest, hrest⟩ := (List.cons_prefix_cons.mp hprefix).2
        refine @head_escapeSpaces path [] c hc ?_
        rw [← hrest]
        rfl
      · exact ih hinfix

/-! ## Parts of a rule -/

private theorem isWhitespace_space : isWhitespace ' ' = true := by decide

private theorem isWhitespace_backslash : isWhitespace '\\' = false := by decide

/-- What was started with this part. -/
def resumed : Option (List Char) → List Char → List Char
  | none, fragment => fragment
  | some file, fragment => file.dropLast ++ ' ' :: fragment

private theorem resumed_append {started : Option (List Char)} :
    resumed started (path ++ path') = resumed started path ++ path' := by
  cases started with
  | none => rfl
  | some file => simp [resumed]

private theorem readFragments_cons {started : Option (List Char)} {fragment : List Char}
    {rest : List (List Char)} : DepInfoReader.readFragments started (fragment :: rest) =
      if (resumed started fragment).getLast? = some '\\' then
        DepInfoReader.readFragments (some (resumed started fragment)) rest
      else if resumed started fragment = [] then
        .error (.malformedDepInfo "dependency path is empty")
      else (DepInfoReader.readFragments none rest).map (resumed started fragment :: ·) := by
  cases started <;> rfl

private theorem Listable.not_whitespace (hpath : Listable path) (hspace : ' ' ∉ path) :
    ∀ c ∈ path, isWhitespace c = false := by
  intro c hc
  by_contra hwhite
  exact hspace (hpath.whitespace c hc (Bool.eq_true_of_not_eq_false hwhite) ▸ hc)

private theorem Listable.after_space {front rest : List Char}
    (hpath : Listable (front ++ ' ' :: rest)) :
    Listable rest := by
  have hne : rest ≠ [] := by
    rintro rfl
    exact (hpath.last ' ' (by simp)).1 rfl
  refine ⟨hne, fun c hc => hpath.whitespace c (by simp [hc]), fun c hlast => hpath.last c ?_⟩
  rw [List.getLast?_append_of_ne_nil _ (List.cons_ne_nil _ _), List.getLast?_cons, hlast]
  rfl

private theorem getLast_resumed {started : Option (List Char)} (hne : path ≠ []) :
    (resumed started path).getLast? = path.getLast? := by
  cases started with
  | none => rfl
  | some file =>
    obtain ⟨c, rest, rfl⟩ := List.exists_cons_of_ne_nil hne
    rw [resumed, List.getLast?_append_of_ne_nil _ (List.cons_ne_nil _ _), List.getLast?_cons_cons]

private theorem readFragments_path {started : Option (List Char)} (hpath : Listable path)
    (htail : tail = [] ∨ ∃ rest, tail = ' ' :: rest) :
    DepInfoReader.readFragments started (words isWhitespace (escapeSpaces path ++ tail)) =
      (DepInfoReader.readFragments none (words isWhitespace tail)).map
        (resumed started path :: ·) := by
  induction hlength : path.length using Nat.strong_induction_on generalizing path started with
  | _ length ih =>
    by_cases hspace : ' ' ∈ path
    · -- The part before the first blank ends with a backslash, and the path goes on after it.
      obtain ⟨front, rest, rfl, hfront⟩ := List.eq_append_cons_of_mem hspace
      have hparts : escapeSpaces (front ++ ' ' :: rest) ++ tail =
          (front ++ ['\\']) ++ ' ' :: (escapeSpaces rest ++ tail) := by
        rw [escapeSpaces_append, escapeSpaces_eq_self hfront, escapeSpaces_space]
        simp
      have hword : ∀ c ∈ front ++ ['\\'], isWhitespace c = false := by
        intro c hc
        rcases List.mem_append.mp hc with hc | hc
        · by_contra hwhite
          have := hpath.whitespace c (List.mem_append_left _ hc)
            (Bool.eq_true_of_not_eq_false hwhite)
          exact hfront (this ▸ hc)
        · rw [List.mem_singleton.mp hc]
          exact isWhitespace_backslash
      have hlast : (resumed started (front ++ ['\\'])).getLast? = some '\\' := by
        rw [getLast_resumed (by simp), List.getLast?_concat]
      rw [hparts, words_word (by simp) hword isWhitespace_space, readFragments_cons, if_pos hlast,
        ih rest.length (by simp [← hlength]; omega) hpath.after_space rfl]
      have hresumed : resumed (some (resumed started (front ++ ['\\']))) rest =
          resumed started (front ++ ' ' :: rest) := by
        rw [resumed_append, resumed_append, resumed, List.dropLast_concat]
      rw [hresumed]
    · have hword := hpath.not_whitespace hspace
      have hlast : (resumed started path).getLast? ≠ some '\\' := by
        rw [getLast_resumed hpath.nonempty]
        exact fun hlast => (hpath.last _ hlast).2 rfl
      have hne : resumed started path ≠ [] := by
        intro hnil
        have := @getLast_resumed path started hpath.nonempty
        rw [hnil, List.getLast?_nil, eq_comm, List.getLast?_eq_none_iff] at this
        exact hpath.nonempty this
      rw [escapeSpaces_eq_self hspace]
      rcases htail with rfl | ⟨rest, rfl⟩
      · rw [List.append_nil, words_last hpath.nonempty hword, readFragments_cons, if_neg hlast,
          if_neg hne]
        rfl
      · rw [words_word hpath.nonempty hword isWhitespace_space, readFragments_cons, if_neg hlast,
          if_neg hne, words_separator isWhitespace_space]

private theorem readFragments_paths {files : List String}
    (hfiles : ∀ file ∈ files, Listable file.toList) :
    DepInfoReader.readFragments none
        (words isWhitespace (files.flatMap fun file => ' ' :: escapeSpaces file.toList)) =
      .ok (files.map String.toList) := by
  induction files with
  | nil => rfl
  | cons file files ih =>
    have htail : (files.flatMap fun file => ' ' :: escapeSpaces file.toList) = [] ∨
        ∃ rest, (files.flatMap fun file => ' ' :: escapeSpaces file.toList) = ' ' :: rest := by
      cases files with
      | nil => exact .inl rfl
      | cons file files => exact .inr ⟨_, rfl⟩
    rw [List.flatMap_cons, List.cons_append, words_separator isWhitespace_space,
      readFragments_path (hfiles file List.mem_cons_self) htail,
      ih fun file hmem => hfiles file (List.mem_cons_of_mem _ hmem)]
    rfl

/-! ## Records -/

private theorem unescapeChars_escape : unescapeChars (escapeEnvironment text) = .ok text := by
  induction text with
  | nil => rfl
  | cons c text ih =>
    rw [escapeEnvironment, List.flatMap_cons]
    change unescapeChars (_ ++ escapeEnvironment text) = _
    by_cases hbackslash : c = '\\'
    · simp [hbackslash, unescapeChars, ih, Except.map]
    by_cases hnewline : c = '\n'
    · simp [hnewline, unescapeChars, ih, Except.map]
    by_cases hreturn : c = '\r'
    · simp [hreturn, unescapeChars, ih, Except.map]
    · rw [if_neg hbackslash, if_neg hnewline, if_neg hreturn, List.singleton_append,
        unescapeChars.eq_def]
      simp only [if_pos hbackslash, ih]
      rfl

private theorem unescapeEnvironment_escape {value : String} :
    unescapeEnvironment (String.ofList (escapeEnvironment value.toList)) = .ok value := by
  rw [unescapeEnvironment, String.toList_ofList, unescapeChars_escape, Except.map,
    String.ofList_toList]

private theorem mem_escapeEnvironment (hmem : c ∈ escapeEnvironment text) :
    (c ∈ text ∧ c ≠ '\n' ∧ c ≠ '\r') ∨ c ∈ ['\\', 'n', 'r'] := by
  obtain ⟨original, horiginal, hc⟩ := List.mem_flatMap.mp hmem
  split at hc
  · rcases List.mem_pair.mp hc with rfl | rfl <;> exact .inr (by simp)
  split at hc
  · rcases List.mem_pair.mp hc with rfl | rfl <;> exact .inr (by simp)
  split at hc
  · rcases List.mem_pair.mp hc with rfl | rfl <;> exact .inr (by simp)
  · rename_i hnewline hreturn
    obtain rfl := List.mem_singleton.mp hc
    exact .inl ⟨horiginal, hnewline, hreturn⟩

private theorem splitRecord_escape {name : String} {value : Option String}
    (hname : '=' ∉ name.toList) :
    DepInfoReader.splitRecord (String.ofList (escapeEnvironment name.toList ++
        (value.elim [] fun value => '=' :: escapeEnvironment value.toList))) =
      (String.ofList (escapeEnvironment name.toList),
        value.map fun value => String.ofList (escapeEnvironment value.toList)) := by
  have hfree : '=' ∉ escapeEnvironment name.toList := by
    intro hmem
    rcases mem_escapeEnvironment hmem with ⟨hmem, -⟩ | hmem
    · exact hname hmem
    · exact absurd hmem (by decide)
  unfold DepInfoReader.splitRecord
  cases value with
  | none =>
    rw [Option.elim_none, List.append_nil, splitOnce_eq_none.mpr]
    · rfl
    · rwa [String.toList_ofList]
  | some value =>
    rw [Option.elim_some, splitOnce_eq_some.mpr ⟨_, _⟩]
    · rfl
    · simp
    · rwa [String.toList_ofList]

private theorem readRecord_escape {name : String} {value : Option String} (hne : name ≠ "")
    (hname : '=' ∉ name.toList) (hnew : reader.environment[name]? = none) :
    reader.readRecord (String.ofList (escapeEnvironment name.toList ++
        (value.elim [] fun value => '=' :: escapeEnvironment value.toList))) =
      .ok { reader with environment := reader.environment.insert name value } := by
  have hvalue : (value.map fun value => String.ofList (escapeEnvironment value.toList)).mapM
      unescapeEnvironment = .ok value := by
    cases value with
    | none => rfl
    | some value => simp [unescapeEnvironment_escape]
  rw [DepInfoReader.readRecord, splitRecord_escape hname]
  dsimp only
  refine (bind_of_ok unescapeEnvironment_escape).trans ?_
  rw [if_neg hne]
  refine (bind_of_ok hvalue).trans ?_
  rw [DepInfoReader.insertVariable, hnew]
  rfl

/-! ## Lines -/

private theorem environment_text {name : String} {value : Option String} :
    (DepInfoLine.environment name value).text = recordStart.toList ++
      (escapeEnvironment name.toList ++
        (value.elim [] fun value => '=' :: escapeEnvironment value.toList)) := rfl

private theorem rule_text {target : String} {files : List String} :
    (DepInfoLine.rule target files).text = escapeSpaces target.toList ++
      ':' :: files.flatMap fun file => ' ' :: escapeSpaces file.toList := rfl

private theorem not_mem_environment_text {name : String} {value : Option String}
    (hc : c = '\n' ∨ c = '\r') : c ∉ (DepInfoLine.environment name value).text := by
  have hescape (text : List Char) : c ∉ escapeEnvironment text := by
    intro hmem
    rcases mem_escapeEnvironment hmem with ⟨-, hnewline, hreturn⟩ | hmem
    · exact hc.elim hnewline hreturn
    · rcases hc with rfl | rfl <;> exact absurd hmem (by decide)
  have hstart : c ∉ recordStart.toList := by rcases hc with rfl | rfl <;> decide
  have hequals : c ≠ '=' := by rcases hc with rfl | rfl <;> decide
  rw [environment_text, List.mem_append, List.mem_append]
  cases value with
  | none => simp [hstart, hescape]
  | some value => simp [hstart, hescape, hequals]

private theorem readLine_environment {name : String} {value : Option String} (hne : name ≠ "")
    (hname : '=' ∉ name.toList) (hnew : reader.environment[name]? = none) :
    reader.readLine (String.ofList (stripReturn (DepInfoLine.environment name value).text)) =
      .ok { reader with environment := reader.environment.insert name value } := by
  rw [stripReturn_eq_self (not_mem_environment_text (.inr rfl)), environment_text,
    DepInfoReader.readLine, stripPrefix_ofList]
  exact readRecord_escape hne hname hnew

private theorem not_mem_rule_text {target : String} {files : List String}
    (hc : c ∉ [':', ' ', '\\'])
    (hpaths : ∀ path ∈ target :: files, c ∉ path.toList) :
    c ∉ (DepInfoLine.rule target files).text := by
  have hescape (path : String) (hpath : path ∈ target :: files) :
      c ∉ escapeSpaces path.toList := by
    intro hmem
    rcases mem_escapeSpaces hmem with hmem | hmem
    · exact hpaths path hpath hmem
    · exact hc (by simp [hmem])
  intro hmem
  rw [rule_text, List.mem_append, List.mem_cons, List.mem_flatMap] at hmem
  rcases hmem with hmem | rfl | ⟨file, hfile, hmem⟩
  · exact hescape target List.mem_cons_self hmem
  · exact hc (by simp)
  · rcases List.mem_cons.mp hmem with rfl | hmem
    · exact hc (by simp)
    · exact hescape file (List.mem_cons_of_mem _ hfile) hmem

private theorem stripPrefix_rule {target : String} {files : List String} :
    stripPrefix (String.ofList (stripReturn (DepInfoLine.rule target files).text)) recordStart =
      none := by
  rw [stripPrefix_eq_none, Bool.eq_false_iff]
  intro hstart
  have hprefix : ['#', ' '] <+: (DepInfoLine.rule target files).text := by
    have hlonger := List.isPrefixOf_iff_prefix.mp hstart
    rw [String.toList_ofList] at hlonger
    exact (show ['#', ' '] <+: recordStart.toList by decide).trans
      (hlonger.trans stripReturn_prefix)
  rw [rule_text] at hprefix
  cases htarget : target.toList with
  | nil =>
    rw [htarget] at hprefix
    exact absurd (List.cons_prefix_cons.mp hprefix).1 (by decide)
  | cons first rest =>
    rw [htarget] at hprefix
    by_cases hfirst : first = ' '
    · rw [hfirst, escapeSpaces_space] at hprefix
      exact absurd (List.cons_prefix_cons.mp hprefix).1 (by decide)
    · rw [escapeSpaces_cons hfirst, List.cons_append, List.cons_prefix_cons] at hprefix
      obtain ⟨more, hmore⟩ := hprefix.2
      have hhead := @head_escapeSpaces rest
        (files.flatMap fun file => ' ' :: escapeSpaces file.toList) ':' (by decide)
      rw [← hmore] at hhead
      exact hhead rfl

private theorem readLine_rule_found {target : String} {files : List String}
    (hfound : reader.foundDependencies = true) :
    reader.readLine (String.ofList (stripReturn (DepInfoLine.rule target files).text)) =
      .ok reader := by
  rw [DepInfoReader.readLine, stripPrefix_rule]
  dsimp only
  split
  · rfl
  · rw [if_pos hfound]

private theorem readLine_rule {target : String} {files : List String} (hne : files ≠ [])
    (hpaths : ∀ path ∈ target :: files, Listable path.toList)
    (hfound : reader.foundDependencies = false) :
    reader.readLine (String.ofList (stripReturn (DepInfoLine.rule target files).text)) =
      .ok { reader with
        files := (files.map String.toList).foldl DepInfoReader.insertFile reader.files
        foundDependencies := true } := by
  have hreturn : '\r' ∉ (DepInfoLine.rule target files).text := by
    refine not_mem_rule_text (by decide) fun path hpath hmem => ?_
    exact absurd ((hpaths path hpath).whitespace _ hmem (by decide)) (by decide)
  obtain ⟨file, rest, rfl⟩ := List.exists_cons_of_ne_nil hne
  have hcut : cutAt [':', ' '] (DepInfoLine.rule target (file :: rest)).text =
      some (escapeSpaces target.toList, escapeSpaces file.toList ++
        rest.flatMap fun file => ' ' :: escapeSpaces file.toList) := by
    have hinfix : ¬ [':', ' '] <:+: escapeSpaces target.toList ++ [':', ' '].dropLast :=
      not_infix_escapeSpaces (by decide) (by decide) (by decide)
    rw [← cutAt_append (List.cons_ne_nil _ _) hinfix, rule_text]
    simp
  have hwords : words isWhitespace (escapeSpaces file.toList ++
      rest.flatMap fun file => ' ' :: escapeSpaces file.toList) =
      words isWhitespace ((file :: rest).flatMap fun file => ' ' :: escapeSpaces file.toList) := by
    rw [List.flatMap_cons, List.cons_append, words_separator isWhitespace_space]
  have hfiles := readFragments_paths fun file hfile => hpaths file (List.mem_cons_of_mem _ hfile)
  have hline := @stripPrefix_rule target (file :: rest)
  rw [stripReturn_eq_self hreturn] at hline ⊢
  rw [DepInfoReader.readLine, hline]
  dsimp only
  rw [String.toList_ofList, hcut]
  dsimp only
  rw [hfound, if_neg Bool.false_ne_true, DepInfoReader.readRule, hwords]
  exact bind_of_ok hfiles

/-! ## The whole list -/

/-- The variables with these added. -/
def insertAll (known : TreeMap String (Option String))
    (entries : List (String × Option String)) : TreeMap String (Option String) :=
  entries.foldl (fun known entry => known.insert entry.1 entry.2) known

/-- Variables that can be read after others. -/
structure FreshNames (entries : List (String × Option String))
    (known : TreeMap String (Option String)) : Prop where
  names : (entries.map Prod.fst).Nodup
  nonempty (name : String) (hname : name ∈ entries.map Prod.fst) : name ≠ ""
  equals (name : String) (hname : name ∈ entries.map Prod.fst) : '=' ∉ name.toList
  new (name : String) (hname : name ∈ entries.map Prod.fst) : known[name]? = none

private theorem FreshNames.insert {name : String} {value : Option String}
    {entries : List (String × Option String)} {known : TreeMap String (Option String)}
    (hfresh : FreshNames ((name, value) :: entries) known) :
    FreshNames entries (known.insert name value) := by
  have hnames := List.nodup_cons.mp hfresh.names
  refine ⟨hnames.2, fun other hmem => hfresh.nonempty other (List.mem_cons_of_mem _ hmem),
    fun other hmem => hfresh.equals other (List.mem_cons_of_mem _ hmem), fun other hmem => ?_⟩
  have hne : name ≠ other := fun heq => hnames.1 (heq ▸ hmem)
  rw [TreeMap.getElem?_insert, if_neg (by simpa using hne)]
  exact hfresh.new other (List.mem_cons_of_mem _ hmem)

private theorem foldlM_readLine_found {lines : List DepInfoLine}
    (hfresh : FreshNames (environmentLines lines) reader.environment)
    (hfound : reader.foundDependencies = true) :
    (lines.map fun line => String.ofList (stripReturn line.text)).foldlM
        DepInfoReader.readLine reader =
      .ok { reader with environment := insertAll reader.environment (environmentLines lines) } := by
  induction lines generalizing reader with
  | nil => rfl
  | cons line lines ih =>
    cases line with
    | rule target files =>
      rw [List.map_cons, List.foldlM_cons]
      exact (bind_of_ok (readLine_rule_found hfound)).trans (ih hfresh hfound)
    | environment name value =>
      have hname : name ∈ (environmentLines (.environment name value :: lines)).map Prod.fst :=
        List.mem_cons_self
      rw [List.map_cons, List.foldlM_cons]
      exact (bind_of_ok (readLine_environment (hfresh.nonempty name hname)
        (hfresh.equals name hname) (hfresh.new name hname))).trans (ih hfresh.insert hfound)

private theorem foldlM_readLine {lines : List DepInfoLine} {target : String} {files : List String}
    {further : List (String × List String)} (hrules : ruleLines lines = (target, files) :: further)
    (hne : files ≠ []) (hpaths : ∀ path ∈ target :: files, Listable path.toList)
    (hfresh : FreshNames (environmentLines lines) reader.environment)
    (hfound : reader.foundDependencies = false) :
    (lines.map fun line => String.ofList (stripReturn line.text)).foldlM
        DepInfoReader.readLine reader =
      .ok {
        files := (files.map String.toList).foldl DepInfoReader.insertFile reader.files
        environment := insertAll reader.environment (environmentLines lines)
        foundDependencies := true } := by
  induction lines generalizing reader with
  | nil => cases hrules
  | cons line lines ih =>
    cases line with
    | rule target' files' =>
      obtain ⟨rfl, rfl⟩ := Prod.mk.inj (List.cons.inj hrules).1
      rw [List.map_cons, List.foldlM_cons]
      exact (bind_of_ok (readLine_rule hne hpaths hfound)).trans
        (foldlM_readLine_found hfresh rfl)
    | environment name value =>
      have hname : name ∈ (environmentLines (.environment name value :: lines)).map Prod.fst :=
        List.mem_cons_self
      rw [List.map_cons, List.foldlM_cons]
      exact (bind_of_ok (readLine_environment (hfresh.nonempty name hname)
        (hfresh.equals name hname) (hfresh.new name hname))).trans (ih hrules hfresh.insert hfound)

private theorem getElem?_insertAll {entries : List (String × Option String)}
    {known : TreeMap String (Option String)} (hfresh : FreshNames entries known)
    {name : String} {value : Option String} :
    (insertAll known entries)[name]? = some value ↔
      (name, value) ∈ entries ∨ known[name]? = some value := by
  induction entries generalizing known with
  | nil => simp [insertAll]
  | cons entry entries ih =>
    obtain ⟨first, firstValue⟩ := entry
    have hnames := List.nodup_cons.mp hfresh.names
    change (insertAll (known.insert first firstValue) entries)[name]? = some value ↔ _
    rw [ih hfresh.insert, TreeMap.getElem?_insert, List.mem_cons, Prod.mk.injEq]
    by_cases heq : first = name
    · subst heq
      have hnew := hfresh.new first List.mem_cons_self
      simp [hnew, eq_comm, or_comm]
    · simp [heq, Ne.symm heq]

private theorem mem_insertFile {file : List Char} {known : List Path} {path : Path} :
    path ∈ DepInfoReader.insertFile known file ↔
      path ∈ known ∨ components (String.ofList file) = path := by
  rw [DepInfoReader.insertFile]
  split
  · rename_i hknown
    rw [List.contains_iff_mem] at hknown
    exact ⟨.inl, fun h => h.elim id fun heq => heq ▸ hknown⟩
  · rw [List.mem_append, List.mem_singleton, eq_comm]

private theorem mem_foldl_insertFile {files : List (List Char)} {known : List Path} {path : Path} :
    path ∈ files.foldl DepInfoReader.insertFile known ↔
      path ∈ known ∨ ∃ file ∈ files, components (String.ofList file) = path := by
  induction files generalizing known with
  | nil => simp
  | cons file files ih =>
    rw [List.foldl_cons, ih, mem_insertFile]
    simp [or_assoc]

private theorem nodup_foldl_insertFile {files : List (List Char)} {known : List Path}
    (hknown : known.Nodup) : (files.foldl DepInfoReader.insertFile known).Nodup := by
  induction files generalizing known with
  | nil => exact hknown
  | cons file files ih =>
    refine ih ?_
    rw [DepInfoReader.insertFile]
    split
    · exact hknown
    · rename_i hnew
      rw [List.contains_iff_mem] at hnew
      refine List.nodup_append.mpr ⟨hknown, by simp, fun path hpath other hother heq => hnew ?_⟩
      rwa [← List.mem_singleton.mp hother, ← heq]

private theorem lines_depInfoText {lines : List DepInfoLine}
    (hlines : ∀ line ∈ lines, '\n' ∉ line.text) :
    Strings.lines (depInfoText lines) =
      lines.map fun line => String.ofList (stripReturn line.text) := by
  have htext : (depInfoText lines).toList = (lines.map DepInfoLine.text).flatMap (· ++ ['\n']) := by
    rw [depInfoText, String.toList_ofList, List.flatMap_map]
  rw [Strings.lines, htext, lineChars_flatMap, List.map_map, List.map_map]
  · rfl
  · intro line hmem
    obtain ⟨original, horiginal, rfl⟩ := List.mem_map.mp hmem
    exact hlines original horiginal

/-- What the compiler lists is read back: the files of the first rule and all variables of the
environment, whatever other rules there are. -/
theorem depInfo_read_back {lines : List DepInfoLine} {target : String} {files : List String}
    {further : List (String × List String)} (hrules : ruleLines lines = (target, files) :: further)
    (hne : files ≠ []) (hpaths : ∀ path ∈ target :: files, Listable path.toList)
    (hfurther : ∀ rule ∈ further, ∀ path ∈ rule.1 :: rule.2, '\n' ∉ path.toList)
    (hdistinct : ((environmentLines lines).map Prod.fst).Nodup)
    (hnames : ∀ name ∈ (environmentLines lines).map Prod.fst, name ≠ "" ∧ '=' ∉ name.toList) :
    ∃ info, RustcDepInfo.parse (depInfoText lines) = .ok info ∧
      (∀ path, path ∈ info.files ↔ ∃ file ∈ files, components file = path) ∧
      info.files.Nodup ∧
      (∀ entry, entry ∈ info.environment ↔ entry ∈ environmentLines lines) ∧
      (info.environment.map Prod.fst).Nodup := by
  have hfresh : FreshNames (environmentLines lines) ∅ :=
    ⟨hdistinct, fun name hname => (hnames name hname).1, fun name hname => (hnames name hname).2,
      by simp⟩
  have hlines : ∀ line ∈ lines, '\n' ∉ line.text := by
    intro line hmem
    cases line with
    | environment name value => exact not_mem_environment_text (.inl rfl)
    | rule other paths =>
      refine not_mem_rule_text (by decide) fun path hpath => ?_
      have hrule : (other, paths) ∈ ruleLines lines := List.mem_filterMap.mpr ⟨_, hmem, rfl⟩
      rw [hrules] at hrule
      rcases List.mem_cons.mp hrule with heq | hrule
      · cases heq
        intro hnewline
        exact absurd ((hpaths path hpath).whitespace _ hnewline (by decide)) (by decide)
      · exact hfurther _ hrule path hpath
  have hread := @foldlM_readLine {} _ _ _ _ hrules hne hpaths hfresh rfl
  have hmem (path : Path) : path ∈ (files.map String.toList).foldl DepInfoReader.insertFile [] ↔
      ∃ file ∈ files, components file = path := by
    rw [mem_foldl_insertFile]
    simp
  have hfiles : (files.map String.toList).foldl DepInfoReader.insertFile [] ≠ [] := by
    obtain ⟨file, rest, rfl⟩ := List.exists_cons_of_ne_nil hne
    exact List.ne_nil_of_mem ((hmem (components file)).mpr ⟨file, List.mem_cons_self, rfl⟩)
  refine ⟨⟨((files.map String.toList).foldl DepInfoReader.insertFile []).insertionSort
      fun left right => pathLe left right = true, (insertAll ∅ (environmentLines lines)).toList⟩,
    ?_, fun path => ?_, ?_, fun entry => ?_, ?_⟩
  · rw [RustcDepInfo.parse, lines_depInfoText hlines]
    refine (bind_of_ok hread).trans ?_
    rw [if_neg Bool.noConfusion, if_neg hfiles]
  · rw [List.mem_insertionSort, hmem]
  · exact (List.perm_insertionSort _ _).nodup_iff.mpr (nodup_foldl_insertFile List.nodup_nil)
  · obtain ⟨name, value⟩ := entry
    rw [TreeMap.mem_toList_iff_getElem?_eq_some, getElem?_insertAll hfresh]
    simp
  · rw [TreeMap.map_fst_toList_eq_keys]
    exact Keyed.nodup_keys

/-- A list with blanks, backslashes and colons in paths and escapes in records. -/
def listedLines : List DepInfoLine :=
  [.environment "OPTION" none, .rule "out: dir/a.d" [" src/lib.rs", "a  b\\c: d.rs"],
    .rule "a" [], .environment "A\nB" (some "x=\\y\r"), .rule "b.d" ["c"]]

theorem depInfo_read_back_listed :
    ∃ info, RustcDepInfo.parse (depInfoText listedLines) = .ok info ∧
      (∀ path, path ∈ info.files ↔
        ∃ file ∈ [" src/lib.rs", "a  b\\c: d.rs"], components file = path) ∧
      info.files.Nodup ∧
      (∀ entry, entry ∈ info.environment ↔
        entry ∈ [("OPTION", none), ("A\nB", some "x=\\y\r")]) ∧
      (info.environment.map Prod.fst).Nodup :=
  @depInfo_read_back listedLines "out: dir/a.d" [" src/lib.rs", "a  b\\c: d.rs"]
    [("a", []), ("b.d", ["c"])] rfl (by decide) (by decide) (by decide) (by decide) (by decide)

end MrBoxington.Rustc
