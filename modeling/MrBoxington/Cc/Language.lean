import MrBoxington.Cc.Invocation
import MrBoxington.Lib.Fallible

/-!
# Which sources are preprocessed assembly

A driver applies the flag for the language to the inputs after it, and goes by the extension if
no such flag came before. The adapter keeps one language for the command line, wherever the
flags are. So a source that the driver takes for preprocessed assembly by its extension counts
as C if the flag for another language follows it.
-/

namespace MrBoxington.Cc

open Fallible (bind_ok)
open Strings

/-! ## How a driver reads its arguments -/

/-- The flags whose value is the next argument, besides the one for the language. -/
def separateFlags : List String :=
  ["-o", "-I", "-D", "-U", "-MF", "-MT", "-MQ", "-idirafter", "-imacros", "-include", "-iquote",
    "-isysroot", "-isystem", "--param", "-target", "-arch", "-Xassembler", "-Xclang", "-Xlinker",
    "-Xpreprocessor"]

/-- What an argument is. -/
inductive Reading where
  | language (attached : String)
  | separate
  | alone
  | input

/-- What an argument is. -/
def reading (text : String) : Reading :=
  match stripPrefix text "-x" with
  | some attached => .language attached
  | none =>
    if text ∈ separateFlags then .separate
    else if startsWith text "-" ∧ text ≠ "-" then .alone
    else .input

/-- The value of a flag is the next argument. -/
def takesNext (text : String) : Bool :=
  match reading text with
  | .language attached => attached = ""
  | .separate => true
  | _ => false

/-- What a driver does with the arguments, one after the other. -/
inductive Event where
  | language (name : String)
  | input (text : String)
deriving DecidableEq

/-- What a driver reads in its arguments. -/
def events : List OsString → List Event
  | [] => []
  | .other _ :: rest => events rest
  | .utf8 text :: rest =>
    match reading text with
    | .alone => events rest
    | .input => .input text :: events rest
    | .language attached =>
      if attached ≠ "" then .language attached :: events rest
      else
        match rest with
        | [] => []
        | .other _ :: rest => events rest
        | .utf8 name :: rest => .language name :: events rest
    | .separate =>
      match rest with
      | [] => []
      | _ :: rest => events rest

/-- The language of assembly that is preprocessed. -/
def assemblerWithCpp : String := "assembler-with-cpp"

/-- The extensions of assembly that is preprocessed. -/
def assemblerExtensions : List String := ["S", "sx"]

/-- The driver runs the preprocessor and the assembler on its first input. -/
def assembles : Option String → List Event → Bool
  | _, [] => false
  | _, .language name :: rest => assembles (some name) rest
  | some name, .input _ :: _ => name = assemblerWithCpp
  | none, .input text :: _ => Parser.extensionOf text ∈ assemblerExtensions

/-- The driver takes the source of a command line for preprocessed assembly. -/
def preprocessesAssembly (arguments : List OsString) : Bool := assembles none (events arguments)

/-! ## What the parser keeps of that -/

/-- What the parser keeps of what a driver reads. -/
structure Summary where
  sources : List String
  explicit : Bool
  assembly : Bool

/-- What the parser keeps of one step. -/
def Summary.add (summary : Summary) : Event → Summary
  | .language name =>
    { summary with explicit := true, assembly := summary.assembly || name = assemblerWithCpp }
  | .input text => { summary with sources := summary.sources ++ [text] }

/-- What the parser has kept. -/
def Parser.summary (parser : Parser) : Summary where
  sources := parser.source.toList
  explicit := parser.explicitLanguage.isSome
  assembly := parser.preprocessedAssembly

/-- What the parser will have kept of everything. -/
def total (parser : Parser) : Summary := (events parser.arguments).foldl .add parser.summary

variable {parser parser' : Parser} {value flag attached : String}

/-- Nothing is kept about languages, sources and dependencies. -/
structure Silent (parser parser' : Parser) : Prop where
  summary : parser'.summary = parser.summary
  dependency : parser'.dependency = parser.dependency

/-- Nothing is read, and nothing is kept about languages, sources and dependencies. -/
structure Quiet (parser parser' : Parser) : Prop extends Silent parser parser' where
  arguments : parser'.arguments = parser.arguments
  index : parser'.index = parser.index

/-- The next argument was read. -/
structure ReadsNext (parser : Parser) (value : String) (parser' : Parser) : Prop where
  arguments : parser.arguments = .utf8 value :: parser'.arguments
  index : parser'.index = parser.index + 1

/-- An argument was read with its value, and the parser keeps of it what a driver reads in it. -/
structure Reads (parser : Parser) (text : String) (parser' : Parser) : Prop where
  total : total parser' = (events (.utf8 text :: parser.arguments)).foldl .add parser.summary
  next (htakes : takesNext text = true) : ∃ value, ReadsNext parser value parser'
  alone (halone : takesNext text = false) :
    parser'.arguments = parser.arguments ∧ parser'.index = parser.index
  dependency : parser'.dependency = parser.dependency

private theorem Reads.length {text : String} (hreads : Reads parser text parser') :
    parser'.arguments.length ≤ parser.arguments.length := by
  cases htakes : takesNext text with
  | true =>
    obtain ⟨value, hnext⟩ := hreads.next htakes
    rw [hnext.arguments, List.length_cons]
    exact Nat.le_succ _
  | false => rw [(hreads.alone htakes).1]

private theorem Silent.trans {taken : Parser} (hfirst : Silent parser taken)
    (hsecond : Silent taken parser') : Silent parser parser' :=
  ⟨hsecond.summary.trans hfirst.summary, hsecond.dependency.trans hfirst.dependency⟩

private theorem Quiet.trans {taken : Parser} (hfirst : Quiet parser taken)
    (hsecond : Quiet taken parser') :
    Quiet parser parser' :=
  ⟨hfirst.toSilent.trans hsecond.toSilent, hsecond.arguments.trans hfirst.arguments,
    hsecond.index.trans hfirst.index⟩

/-- What a successful read of the next argument takes from the parser. -/
theorem next_ok {missing : CcBypassReason} (hnext : parser.next missing = .ok (value, parser')) :
    ReadsNext parser value parser' ∧ Silent parser parser' := by
  unfold Parser.next at hnext
  split at hnext
  · cases hnext
  · cases hnext
  · rename_i hrest
    cases hnext
    exact ⟨⟨hrest, rfl⟩, rfl, rfl⟩

private theorem takeValue_ok (htake : parser.takeValue flag attached = .ok (value, parser')) :
    (attached = value ∧ attached ≠ "" ∧ Quiet parser parser') ∨
      (attached = "" ∧ ReadsNext parser value parser' ∧ Silent parser parser') := by
  unfold Parser.takeValue at htake
  split at htake
  · rename_i hattached
    exact .inr ⟨hattached, next_ok htake⟩
  · rename_i hattached
    cases htake
    exact .inl ⟨rfl, hattached, ⟨rfl, rfl⟩, rfl, rfl⟩

/-! ## One argument -/

section Events

variable {text : String} {rest : List OsString}

private theorem events_alone (hreading : reading text = .alone) :
    events (.utf8 text :: rest) = events rest := by
  rw [events.eq_def]
  simp only [hreading]

private theorem events_input (hreading : reading text = .input) :
    events (.utf8 text :: rest) = .input text :: events rest := by
  rw [events.eq_def]
  simp only [hreading]

private theorem events_separate (hreading : reading text = .separate) :
    events (.utf8 text :: .utf8 value :: rest) = events rest := by
  rw [events, hreading]

private theorem events_language (hreading : reading text = .language attached)
    (hattached : attached ≠ "") :
    events (.utf8 text :: rest) = .language attached :: events rest := by
  rw [events.eq_def]
  simp only [hreading]
  exact if_pos hattached

private theorem events_language_next (hreading : reading text = .language "") :
    events (.utf8 text :: .utf8 value :: rest) = .language value :: events rest := by
  rw [events, hreading]
  rfl

end Events

/-- Texts with this start are not the flag for the language, and take their value from the next
argument only if they are no longer. -/
structure PlainFront (front : String) : Prop where
  dash : front.toList.head? = some '-'
  long : 2 ≤ front.toList.length
  language : Apart front "-x"
  separate : ∀ flag ∈ separateFlags, flag = front ∨ startsWith flag front = false

instance (front : String) : Decidable (PlainFront front) :=
  decidable_of_iff (front.toList.head? = some '-' ∧ 2 ≤ front.toList.length ∧ Apart front "-x" ∧
    ∀ flag ∈ separateFlags, flag = front ∨ startsWith flag front = false)
    ⟨fun h => ⟨h.1, h.2.1, h.2.2.1, h.2.2.2⟩, fun h => ⟨h.dash, h.long, h.language, h.separate⟩⟩

private theorem reading_append {front rest : String} (hfront : PlainFront front)
    (hrest : front ∈ separateFlags → rest ≠ "") : reading (front ++ rest) = .alone := by
  have hstart : startsWith (front ++ rest) "-" = true := by
    rw [startsWith, String.toList_append, List.isPrefixOf_iff_prefix]
    obtain ⟨tail, htail⟩ := List.head?_eq_some_iff.mp hfront.dash
    rw [htail]
    exact ⟨_, rfl⟩
  have hdash : front ++ rest ≠ "-" := by
    intro heq
    have hlength := congrArg (List.length ∘ String.toList) heq
    have := hfront.long
    simp only [Function.comp_apply, String.toList_append, List.length_append] at hlength
    have : "-".toList.length = 1 := rfl
    omega
  have hseparate : front ++ rest ∉ separateFlags := by
    intro hmem
    rcases hfront.separate _ hmem with heq | hstarts
    · rw [heq] at hmem
      exact hrest hmem (append_left_cancel (heq.trans String.append_empty.symm))
    · rw [startsWith, String.toList_append,
        List.isPrefixOf_iff_prefix.mpr (List.prefix_append _ _)] at hstarts
      cases hstarts
  rw [reading, stripPrefix_of_apart hfront.language]
  dsimp only
  rw [if_neg hseparate, if_pos ⟨hstart, hdash⟩]

/-- The starts of the flags that have no value in the next argument. -/
def ownFronts : List String :=
  ["-MD", "-MMD", "-MP", "-E", "-c", "-f", "-m", "-W", "-Wa,", "-std=", "--param=", "--target=",
    "--include=", "--sysroot="] ++ prefixMapFlags.map (· ++ "=") ++ supportedBareFlags ++
    supportedOFlags ++ supportedGFlags

/-- The flags that may have a value in the next argument. -/
def shortFronts : List String :=
  ["-o", "-I", "-D", "-U", "-MF", "-MT", "-MQ"] ++ separatePathFlags ++
    Parser.separateTextFlags.map Prod.fst

private theorem plain_ownFronts :
    ∀ front ∈ ownFronts, PlainFront front ∧ front ∉ separateFlags := by
  decide +kernel

private theorem plain_shortFronts :
    ∀ front ∈ shortFronts, PlainFront front ∧ front ∈ separateFlags := by
  decide +kernel

section Reads

variable {text front : String} {taken : Parser}

private theorem reads_alone (hreading : reading text = .alone) (hquiet : Quiet parser parser') :
    Reads parser text parser' where
  total := by rw [total, hquiet.arguments, hquiet.summary, events_alone hreading]
  next htakes := by simp [takesNext, hreading] at htakes
  alone _ := ⟨hquiet.arguments, hquiet.index⟩
  dependency := hquiet.dependency

private theorem ReadsNext.quiet {taken : Parser} (hnext : ReadsNext parser value taken)
    (hquiet : Quiet taken parser') : ReadsNext parser value parser' :=
  ⟨by rw [hnext.arguments, hquiet.arguments], hquiet.index.trans hnext.index⟩

private theorem reads_next (htext : text ∈ shortFronts)
    (htake : parser.takeValue flag "" = .ok (value, taken)) (hquiet : Quiet taken parser') :
    Reads parser text parser' := by
  obtain ⟨hfront, hmem⟩ := plain_shortFronts text htext
  have hreading : reading text = .separate := by
    have hx : stripPrefix text "-x" = none := by
      have := stripPrefix_of_apart hfront.language ""
      rwa [String.append_empty] at this
    rw [reading, hx]
    exact if_pos hmem
  rcases takeValue_ok htake with ⟨-, hne, -⟩ | ⟨-, hnext, hsilent⟩
  · exact absurd rfl hne
  · refine ⟨?_, fun _ => ⟨value, hnext.quiet hquiet⟩, fun halone => ?_,
      (hsilent.trans hquiet.toSilent).dependency⟩
    · rw [total, hquiet.arguments, (hsilent.trans hquiet.toSilent).summary, hnext.arguments,
        events_separate hreading]
    · simp [takesNext, hreading] at halone

private theorem reads_short (hfront : front ∈ shortFronts)
    (htake : parser.takeValue flag attached = .ok (value, taken)) (hquiet : Quiet taken parser') :
    Reads parser (front ++ attached) parser' := by
  by_cases hattached : attached = ""
  · subst hattached
    rw [String.append_empty]
    exact reads_next hfront htake hquiet
  · rcases takeValue_ok htake with ⟨rfl, -, htaken⟩ | ⟨hempty, -⟩
    · exact reads_alone (reading_append (plain_shortFronts front hfront).1 fun _ => hattached)
        (htaken.trans hquiet)
    · exact absurd hempty hattached

private theorem reads_front {rest : String} (hvalue : value = front ++ rest)
    (hfront : front ∈ ownFronts)
    (hquiet : Quiet parser parser') : Reads parser value parser' := by
  obtain ⟨hplain, hmem⟩ := plain_ownFronts front hfront
  rw [hvalue]
  exact reads_alone (reading_append hplain fun h => absurd h hmem) hquiet

private theorem reads_own (hvalue : value ∈ ownFronts) (hquiet : Quiet parser parser') :
    Reads parser value parser' :=
  reads_front String.append_empty.symm hvalue hquiet

private theorem reads_startsWith (hstart : startsWith value front = true)
    (hfront : front ∈ ownFronts)
    (hquiet : Quiet parser parser') : Reads parser value parser' := by
  obtain ⟨rest, hrest⟩ := List.isPrefixOf_iff_prefix.mp hstart
  have hvalue : value = front ++ String.ofList rest := by
    rw [← String.toList_inj, String.toList_append, String.toList_ofList, hrest]
  exact reads_front hvalue hfront hquiet

private theorem reads_stripPrefix {rest : String} (hstrip : stripPrefix value front = some rest)
    (hfront : front ∈ ownFronts) (hquiet : Quiet parser parser') : Reads parser value parser' :=
  reads_front (stripPrefix_eq_some.mp hstrip) hfront hquiet

end Reads

private theorem quiet_push {argument : Argument} : Quiet parser (parser.push argument) :=
  ⟨⟨rfl, rfl⟩, rfl, rfl⟩

/-- The arguments from the start of a flag are kept as a request for dependencies. -/
structure Requests (taken : Parser) (start : ℕ) (parser' : Parser) : Prop where
  arguments : parser'.arguments = taken.arguments
  index : parser'.index = taken.index
  summary : parser'.summary = taken.summary
  indices : parser'.dependency.indices =
    taken.dependency.indices ++ (List.range taken.index).drop start

/-- The flags for dependencies without a value. -/
def bareDependencyFlags : List String := ["-MD", "-MMD", "-MP"]

/-- The flags for dependencies with a value. -/
def valueDependencyFlags : List String := ["-MF", "-MT", "-MQ"]

/-- The argument is a flag for dependencies. -/
def isDependencyFlag (text : String) : Bool :=
  text ∈ bareDependencyFlags ∨ valueDependencyFlags.any fun flag => startsWith text flag

private theorem parseDependencyFlag_reads {option : String}
    (hparse : parser.parseDependencyFlag ("-M" ++ option) option = .ok parser') :
    isDependencyFlag ("-M" ++ option) = true ∧
      ∃ taken, Reads parser ("-M" ++ option) taken ∧ Requests taken (parser.index - 1) parser' := by
  have hbare (hflag : "-M" ++ option ∈ bareDependencyFlags)
      (hrequests : Requests parser (parser.index - 1) parser') :
      isDependencyFlag ("-M" ++ option) = true ∧ ∃ taken, Reads parser ("-M" ++ option) taken ∧
        Requests taken (parser.index - 1) parser' := by
    have hown : ∀ flag ∈ bareDependencyFlags, flag ∈ ownFronts := by decide
    exact ⟨decide_eq_true (.inl hflag), parser, reads_own (hown _ hflag) ⟨⟨rfl, rfl⟩, rfl, rfl⟩,
      hrequests⟩
  have hshort {letter front attached name flag : String} {taken : Parser}
      (hoption : stripPrefix option letter = some attached)
      (hfront : "-M" ++ letter = front) (hmem : front ∈ valueDependencyFlags)
      (htake : parser.takeValue flag attached = .ok (name, taken))
      (hrequests : Requests taken (parser.index - 1) parser') :
      isDependencyFlag ("-M" ++ option) = true ∧ ∃ taken, Reads parser ("-M" ++ option) taken ∧
        Requests taken (parser.index - 1) parser' := by
    have hsubset : ∀ flag ∈ valueDependencyFlags, flag ∈ shortFronts := by decide
    rw [stripPrefix_eq_some.mp hoption, ← String.append_assoc, hfront]
    refine ⟨decide_eq_true (.inr (List.any_eq_true.mpr ⟨front, hmem, ?_⟩)), taken,
      reads_short (hsubset _ hmem) htake ⟨⟨rfl, rfl⟩, rfl, rfl⟩, hrequests⟩
    exact startsWith_append
  unfold Parser.parseDependencyFlag at hparse
  dsimp only at hparse
  split at hparse
  · rename_i hoption
    cases hparse
    exact hbare (by rw [hoption]; decide) ⟨rfl, rfl, rfl, rfl⟩
  split at hparse
  · rename_i hoption
    cases hparse
    exact hbare (by rw [hoption]; decide) ⟨rfl, rfl, rfl, rfl⟩
  split at hparse
  · rename_i hoption
    cases hparse
    exact hbare (by rw [hoption]; decide) ⟨rfl, rfl, rfl, rfl⟩
  split at hparse
  · rename_i hoption
    obtain ⟨⟨name, taken⟩, htake, hparse⟩ := bind_ok hparse
    cases hparse
    exact hshort hoption rfl (by decide : "-MF" ∈ _) htake ⟨rfl, rfl, rfl, rfl⟩
  split at hparse
  · rename_i hoption
    obtain ⟨⟨name, taken⟩, htake, hparse⟩ := bind_ok hparse
    cases hparse
    exact hshort hoption rfl (by decide : "-MT" ∈ _) htake ⟨rfl, rfl, rfl, rfl⟩
  split at hparse
  · rename_i hoption
    obtain ⟨⟨name, taken⟩, htake, hparse⟩ := bind_ok hparse
    cases hparse
    exact hshort hoption rfl (by decide : "-MQ" ∈ _) htake ⟨rfl, rfl, rfl, rfl⟩
  · cases hparse

private theorem parseFFlag_quiet {option : String}
    (hparse : parser.parseFFlag value option = .ok parser') :
    Quiet parser parser' := by
  unfold Parser.parseFFlag at hparse
  split at hparse
  · cases hparse
  split at hparse
  · cases hparse
  split at hparse
  · cases hparse
    exact quiet_push
  · cases hparse

private theorem parseMFlag_quiet {option : String}
    (hparse : parser.parseMFlag value option = .ok parser') :
    Quiet parser parser' := by
  unfold Parser.parseMFlag at hparse
  split at hparse
  · cases hparse
  split at hparse
  · cases hparse
  split at hparse
  · cases hparse
    exact quiet_push
  · cases hparse

private theorem parseLastFlag_reads (hparse : parser.parseLastFlag value = .ok parser') :
    Reads parser value parser' := by
  unfold Parser.parseLastFlag at hparse
  split at hparse
  · rename_i hstrip
    exact reads_stripPrefix hstrip (by simp [ownFronts]) (parseFFlag_quiet hparse)
  split at hparse
  · rename_i hstrip
    exact reads_stripPrefix hstrip (by simp [ownFronts]) (parseMFlag_quiet hparse)
  split at hparse
  · cases hparse
  split at hparse
  · cases hparse
  split at hparse
  · rename_i hstart
    cases hparse
    exact reads_startsWith hstart (by simp [ownFronts]) quiet_push
  · cases hparse

private theorem parseLanguage_reads (hstrip : stripPrefix value "-x" = some attached)
    (hparse : parser.parseLanguage attached = .ok parser') : Reads parser value parser' := by
  have hreading : reading value = .language attached := by rw [reading, hstrip]
  obtain ⟨⟨name, taken⟩, htake, hparse⟩ := bind_ok hparse
  dsimp only at hparse
  split at hparse
  · cases hparse
  · rename_i language assembly hlanguage
    cases hparse
    have hassembly : assembly = decide (name = assemblerWithCpp) := by
      unfold Parser.languageOf at hlanguage
      split at hlanguage
      · rename_i hname
        cases hlanguage
        rw [hname]
        rfl
      split at hlanguage
      · rename_i hname
        cases hlanguage
        rw [hname]
        rfl
      split at hlanguage
      · rename_i hname
        cases hlanguage
        rw [hname]
        rfl
      · cases hlanguage
    have hevents : events (.utf8 value :: parser.arguments) =
        .language name :: events taken.arguments := by
      rcases takeValue_ok htake with ⟨rfl, hne, hquiet⟩ | ⟨rfl, hnext, -⟩
      · rw [events_language hreading hne, hquiet.arguments]
      · rw [hnext.arguments, events_language_next hreading]
    have htakes : takesNext value = decide (attached = "") := by rw [takesNext, hreading]
    have hsilent : Silent parser taken := by
      rcases takeValue_ok htake with ⟨-, -, hquiet⟩ | ⟨-, -, hsilent⟩
      · exact hquiet.toSilent
      · exact hsilent
    refine ⟨?_, fun hnext => ?_, fun halone => ?_, hsilent.dependency⟩
    · rw [hevents, List.foldl_cons, ← hsilent.summary, hassembly]
      rfl
    · rw [htakes, decide_eq_true_iff] at hnext
      rcases takeValue_ok htake with ⟨-, hne, -⟩ | ⟨-, hread, -⟩
      · exact absurd hnext hne
      · exact ⟨name, hread.arguments, hread.index⟩
    · rw [htakes, decide_eq_false_iff_not] at halone
      rcases takeValue_ok htake with ⟨-, -, hquiet⟩ | ⟨hempty, -⟩
      · exact ⟨hquiet.arguments, hquiet.index⟩
      · exact absurd hempty halone

private theorem parseDefinition_reads {front : String}
    (hstrip : stripPrefix value front = some attached)
    (hfront : front ∈ shortFronts)
    (hparse : parser.parseDefinition front attached = .ok parser') :
    Reads parser value parser' := by
  obtain ⟨⟨definition, taken⟩, htake, hparse⟩ := bind_ok hparse
  cases hparse
  rw [stripPrefix_eq_some.mp hstrip]
  exact reads_short hfront htake quiet_push

private theorem parseTextFlag_reads (hparse : parser.parseTextFlag value = .ok parser') :
    Reads parser value parser' := by
  unfold Parser.parseTextFlag at hparse
  split at hparse
  · rename_i kept hlookup
    obtain ⟨⟨text, taken⟩, htake, hparse⟩ := bind_ok hparse
    cases hparse
    obtain ⟨before, after, hflags, -⟩ := List.lookup_eq_some_iff.mp hlookup
    have hmem : value ∈ Parser.separateTextFlags.map Prod.fst :=
      List.mem_map.mpr ⟨(value, kept), by simp [hflags], rfl⟩
    exact reads_next (List.mem_append_right _ hmem) htake quiet_push
  split at hparse
  · rename_i hstart
    cases hparse
    rcases hstart with hstart | hstart
    · exact reads_startsWith hstart (by simp [ownFronts]) quiet_push
    · exact reads_startsWith hstart (by simp [ownFronts]) quiet_push
  split at hparse
  · rename_i hstrip
    exact parseDefinition_reads hstrip (by simp [shortFronts]) hparse
  split at hparse
  · rename_i hstrip
    exact parseDefinition_reads hstrip (by simp [shortFronts]) hparse
  split at hparse
  · rename_i hstrip
    exact parseLanguage_reads hstrip hparse
  · exact parseLastFlag_reads hparse

private theorem addSeparatePath_quiet {path : String} :
    Quiet parser (parser.addSeparatePath flag path) := by
  unfold Parser.addSeparatePath
  dsimp only
  split
  · exact ⟨⟨rfl, rfl⟩, rfl, rfl⟩
  split
  · exact ⟨⟨rfl, rfl⟩, rfl, rfl⟩
  · exact quiet_push

private theorem parseInlinePathFlag_reads
    (hparse : parser.parseInlinePathFlag value = .ok parser') :
    Reads parser value parser' := by
  unfold Parser.parseInlinePathFlag at hparse
  split at hparse
  · rename_i hstrip
    cases hparse
    exact reads_stripPrefix hstrip (by simp [ownFronts]) quiet_push
  split at hparse
  · rename_i hmap
    cases hparse
    obtain ⟨flag, hflag, hmap⟩ := List.exists_of_findSome?_eq_some hmap
    obtain ⟨rest, hstrip, -⟩ := Option.map_eq_some_iff.mp hmap
    exact reads_stripPrefix hstrip (by simp [ownFronts, hflag]) quiet_push
  split at hparse
  · rename_i hstrip
    cases hparse
    exact reads_stripPrefix hstrip (by simp [ownFronts]) ⟨⟨rfl, rfl⟩, rfl, rfl⟩
  · exact parseTextFlag_reads hparse

private theorem parsePathFlag_reads (hparse : parser.parsePathFlag value = .ok parser') :
    Reads parser value parser' := by
  unfold Parser.parsePathFlag at hparse
  split at hparse
  · rename_i hstrip
    obtain ⟨⟨path, taken⟩, htake, hparse⟩ := bind_ok hparse
    cases hparse
    rw [stripPrefix_eq_some.mp hstrip]
    exact reads_short (by simp [shortFronts]) htake ⟨⟨rfl, rfl⟩, rfl, rfl⟩
  split at hparse
  · rename_i hstrip
    obtain ⟨⟨path, taken⟩, htake, hparse⟩ := bind_ok hparse
    cases hparse
    rw [stripPrefix_eq_some.mp hstrip]
    exact reads_short (by simp [shortFronts]) htake ⟨⟨rfl, rfl⟩, rfl, rfl⟩
  split at hparse
  · rename_i hmem
    obtain ⟨⟨path, taken⟩, htake, hparse⟩ := bind_ok hparse
    cases hparse
    exact reads_next (by simp [shortFronts, hmem]) htake addSeparatePath_quiet
  · exact parseInlinePathFlag_reads hparse

private theorem parsePlainFlag_reads (hparse : parser.parsePlainFlag value = .ok parser') :
    Reads parser value parser' := by
  unfold Parser.parsePlainFlag at hparse
  split at hparse
  · cases hparse
  split at hparse
  · rename_i hassembler
    cases hparse
    obtain ⟨options, hstrip, -⟩ := (Option.any_eq_true _ _).mp hassembler
    exact reads_stripPrefix hstrip (by simp [ownFronts]) quiet_push
  split at hparse
  · cases hparse
  split at hparse
  · rename_i hcompile
    cases hparse
    exact reads_own (by simp [ownFronts, hcompile]) ⟨⟨rfl, rfl⟩, rfl, rfl⟩
  split at hparse
  · rename_i hbare
    cases hparse
    rcases of_decide_eq_true hbare with hmem | hmem | hmem | hstart
    · exact reads_own (by simp [ownFronts, hmem]) quiet_push
    · exact reads_own (by simp [ownFronts, hmem]) quiet_push
    · exact reads_own (by simp [ownFronts, hmem]) quiet_push
    · exact reads_startsWith hstart (by simp [ownFronts]) quiet_push
  · exact parsePathFlag_reads hparse

/-- An argument was read with its value, and kept as a request if it is a flag for
dependencies. -/
inductive Parses (parser : Parser) (text : String) (parser' : Parser) : Prop where
  | request {taken : Parser} (hflag : isDependencyFlag text = true)
      (hreads : Reads parser text taken)
      (hrequests : Requests taken (parser.index - 1) parser')
  | plain (hflag : isDependencyFlag text = false) (hreads : Reads parser text parser')

private theorem Parses.total {text : String} (hparses : Parses parser text parser') :
    total parser' = (events (.utf8 text :: parser.arguments)).foldl .add parser.summary := by
  cases hparses with
  | request _ hreads hrequests =>
    rw [← hreads.total, Cc.total, Cc.total, hrequests.arguments, hrequests.summary]
  | plain _ hreads => exact hreads.total

/-- An argument that parses never adds to the arguments that are left. -/
theorem Parses.length {text : String} (hparses : Parses parser text parser') :
    parser'.arguments.length ≤ parser.arguments.length := by
  cases hparses with
  | request _ hreads hrequests =>
    rw [hrequests.arguments]
    exact hreads.length
  | plain _ hreads => exact hreads.length

private theorem isDependencyFlag_eq_false (hother : startsWith value "-M" = false) :
    isDependencyFlag value = false := by
  have hbare : ∀ flag ∈ bareDependencyFlags, startsWith flag "-M" = true := by decide
  have hvalue : ∀ flag ∈ valueDependencyFlags, startsWith flag "-M" = true := by decide
  refine decide_eq_false ?_
  rintro (hmem | hany)
  · rw [hbare _ hmem] at hother
    cases hother
  · obtain ⟨flag, hmem, hstart⟩ := List.any_eq_true.mp hany
    rw [startsWith_trans hstart (hvalue flag hmem)] at hother
    cases hother

private theorem parseFlag_parses (hparse : parser.parseFlag value = .ok parser') :
    Parses parser value parser' := by
  unfold Parser.parseFlag at hparse
  by_cases hquery : value ∈ compilerQueryFlags ∨ startsWith value "-print" = true
  · rw [if_pos hquery] at hparse
    cases hparse
  by_cases hpreprocess : value = "-E"
  · rw [if_neg hquery, if_pos hpreprocess] at hparse
    cases hparse
    exact .plain (by rw [hpreprocess]; decide)
      (reads_own (by simp [ownFronts, hpreprocess]) ⟨⟨rfl, rfl⟩, rfl, rfl⟩)
  by_cases hassembly : value = "-S"
  · rw [if_neg hquery, if_neg hpreprocess, if_pos hassembly] at hparse
    cases hparse
  rw [if_neg hquery, if_neg hpreprocess, if_neg hassembly] at hparse
  split at hparse
  · rename_i hstrip
    rw [stripPrefix_eq_some.mp hstrip] at hparse ⊢
    obtain ⟨hflag, taken, hreads, hrequests⟩ := parseDependencyFlag_reads hparse
    exact .request hflag hreads hrequests
  · rename_i hstrip
    exact .plain (isDependencyFlag_eq_false (stripPrefix_eq_none.mp hstrip))
      (parsePlainFlag_reads hparse)

private theorem parseInput_reads (hparse : parser.parseInput value = .ok parser')
    (hdash : startsWith value "-" = false) : Reads parser value parser' := by
  have hreading : reading value = .input := by
    have hx : stripPrefix value "-x" = none := by
      cases hstrip : stripPrefix value "-x" with
      | none => rfl
      | some rest =>
        rw [stripPrefix_eq_some.mp hstrip, startsWith, String.toList_append] at hdash
        cases hdash
    have hseparate : value ∉ separateFlags := by
      have hall : ∀ flag ∈ separateFlags, startsWith flag "-" = true := by decide
      intro hmem
      rw [hall value hmem] at hdash
      cases hdash
    rw [reading, hx]
    dsimp only
    rw [if_neg hseparate, if_neg fun h => by rw [hdash] at h; cases h.1]
  unfold Parser.parseInput at hparse
  split at hparse
  · cases hparse
  split at hparse
  · cases hparse
  · rename_i hsource _
    cases hparse
    refine ⟨?_, fun htakes => ?_, fun _ => ⟨rfl, rfl⟩, rfl⟩
    · have hnone : parser.source = none := by simpa using hsource
      rw [events_input hreading, List.foldl_cons, Summary.add, Parser.summary, hnone]
      rfl
    · simp [takesNext, hreading] at htakes

/-- A successful step of the parser is one of the listed ways to parse. -/
theorem parseArgument_parses (hparse : parser.parseArgument value = .ok parser') :
    Parses parser value parser' := by
  unfold Parser.parseArgument at hparse
  split at hparse
  · cases hparse
  split at hparse
  · cases hparse
  split at hparse
  · exact parseFlag_parses hparse
  · rename_i hdash
    refine .plain (isDependencyFlag_eq_false (Bool.eq_false_iff.mpr fun hstart => hdash ?_))
      (parseInput_reads hparse (Bool.eq_false_iff.mpr hdash))
    exact startsWith_trans hstart (by decide)

private theorem parseArguments_summary {limit : ℕ} (hlimit : parser.arguments.length ≤ limit)
    (hparse : Parser.parseArguments limit parser = .ok parser') :
    parser'.summary = total parser := by
  have hdone {parser : Parser} (harguments : parser.arguments = []) :
      parser.summary = total parser := by
    rw [total, harguments]
    rfl
  induction limit generalizing parser with
  | zero =>
    cases hparse
    exact hdone (List.length_eq_zero_iff.mp (Nat.le_zero.mp hlimit))
  | succ limit ih =>
    rw [Parser.parseArguments] at hparse
    split at hparse
    · rename_i harguments
      cases hparse
      exact hdone harguments
    · obtain ⟨⟨value, read⟩, hnext, hparse⟩ := bind_ok hparse
      obtain ⟨after, hargument, hrest⟩ := bind_ok hparse
      obtain ⟨hread, hsilent⟩ := next_ok hnext
      have hparses := parseArgument_parses hargument
      rw [hread.arguments, List.length_cons] at hlimit
      rw [ih (by have := hparses.length; omega) hrest, hparses.total, total, hread.arguments,
        hsilent.summary]

/-! ## The whole command line -/

/-- The languages that the flags name. -/
def languages (read : List Event) : List String :=
  read.filterMap fun event =>
    match event with
    | .language name => some name
    | .input _ => none

/-- The inputs. -/
def inputs (read : List Event) : List String :=
  read.filterMap fun event =>
    match event with
    | .language _ => none
    | .input text => some text

private theorem foldl_add (read : List Event) (summary : Summary) :
    read.foldl .add summary =
      ⟨summary.sources ++ inputs read, summary.explicit || languages read ≠ [],
        summary.assembly || assemblerWithCpp ∈ languages read⟩ := by
  induction read generalizing summary with
  | nil => simp [inputs, languages]
  | cons event rest ih =>
    rw [List.foldl_cons, ih]
    cases event with
    | language name =>
      simp [Summary.add, inputs, languages, eq_comm (a := assemblerWithCpp), Bool.or_assoc]
    | input text => simp [Summary.add, inputs, languages]

private theorem assembles_cases {read : List Event} {source : String} {current : Option String}
    (hinputs : inputs read = [source]) (hassembles : assembles current read = true) :
    (read.head? = some (.input source) ∧ current = none ∧
        Parser.extensionOf source ∈ assemblerExtensions) ∨
      assemblerWithCpp ∈ languages read ∨ current = some assemblerWithCpp := by
  induction read generalizing current with
  | nil => cases hassembles
  | cons event rest ih =>
    cases event with
    | language name =>
      rw [assembles] at hassembles
      rcases ih hinputs hassembles with ⟨-, hnone, -⟩ | hmem | hname
      · cases hnone
      · exact .inr (.inl (List.mem_cons_of_mem name hmem))
      · rw [← Option.some.inj hname]
        exact .inr (.inl List.mem_cons_self)
    | input text =>
      obtain ⟨rfl, -⟩ := List.cons.inj hinputs
      cases current with
      | none => exact .inl ⟨rfl, rfl, of_decide_eq_true hassembles⟩
      | some name => exact .inr (.inr (congrArg some (of_decide_eq_true hassembles)))

variable {arguments : List OsString} {family : CcCompilerFamily} {invocation : CcInvocation}

private theorem finishWith_assembly {source output : String}
    (hfinish : parser.finishWith arguments source output = .ok invocation) :
    invocation.preprocessedAssembly = (parser.preprocessedAssembly ||
        (parser.explicitLanguage.isNone && Parser.extensionOf source = "S")) ∧
      (parser.explicitLanguage = none → Parser.extensionOf source ∈ Parser.sourceExtensions) := by
  unfold Parser.finishWith at hfinish
  split at hfinish
  · cases hfinish
  obtain ⟨language, hlanguage, hfinish⟩ := bind_ok hfinish
  obtain ⟨depfile, -, hfinish⟩ := bind_ok hfinish
  cases hfinish
  refine ⟨rfl, fun hnone => ?_⟩
  rw [Parser.language, hnone] at hlanguage
  dsimp only at hlanguage
  have hall : ∀ extension ∈ ["c", "S"] ++ ["cc", "cpp", "cxx", "c++"],
      extension ∈ Parser.sourceExtensions := by decide
  split at hlanguage
  · rename_i hmem
    exact hall _ (List.mem_append_left _ hmem)
  split at hlanguage
  · rename_i hmem
    exact hall _ (List.mem_append_right _ hmem)
  · cases hlanguage

private theorem parseFor_assembly
    (hparse : CcInvocation.parseFor arguments family = .ok invocation) :
    ∃ source, inputs (events arguments) = [source] ∧
      (invocation.preprocessedAssembly = true ↔ assemblerWithCpp ∈ languages (events arguments) ∨
        languages (events arguments) = [] ∧ Parser.extensionOf source = "S") ∧
      (languages (events arguments) = [] →
        Parser.extensionOf source ∈ Parser.sourceExtensions) := by
  obtain ⟨parser, harguments, hfinish⟩ := bind_ok hparse
  have hsummary : parser.summary = total { family := family, arguments := arguments } :=
    parseArguments_summary le_rfl harguments
  rw [total, foldl_add] at hsummary
  unfold Parser.finish at hfinish
  split at hfinish
  · cases hfinish
  split at hfinish
  · cases hfinish
  rename_i source hsource
  split at hfinish
  · cases hfinish
  rename_i output houtput
  obtain ⟨hassembly, hextension⟩ := finishWith_assembly hfinish
  have hsources : parser.source.toList = inputs (events arguments) :=
    congrArg Summary.sources hsummary
  have hexplicit : parser.explicitLanguage.isSome = decide (languages (events arguments) ≠ []) :=
    congrArg Summary.explicit hsummary
  have hflag : parser.preprocessedAssembly =
      decide (assemblerWithCpp ∈ languages (events arguments)) := congrArg Summary.assembly hsummary
  have hnone : parser.explicitLanguage = none ↔ languages (events arguments) = [] := by
    rw [← Option.not_isSome_iff_eq_none, hexplicit]
    simp
  refine ⟨source, by rw [← hsources, hsource]; rfl, ?_, fun hempty => hextension (hnone.mpr hempty)⟩
  rw [hassembly, hflag]
  simp [hnone]

/-- A source that the driver takes for preprocessed assembly counts as such exactly if it is not
a source with the extension of assembly before all flags for a language, with none of the flags
for assembly. -/
theorem preprocessedAssembly_iff
    (hparse : CcInvocation.parseFor arguments family = .ok invocation) :
    (preprocessesAssembly arguments = true → invocation.preprocessedAssembly = true) ↔
      ∀ source, (events arguments).head? = some (.input source) →
        Parser.extensionOf source ∈ assemblerExtensions → languages (events arguments) ≠ [] →
        assemblerWithCpp ∈ languages (events arguments) := by
  obtain ⟨source, hinputs, hassembly, hextension⟩ := parseFor_assembly hparse
  rw [hassembly]
  constructor
  · intro himplies other hhead hother hne
    have hassembles : preprocessesAssembly arguments = true := by
      obtain ⟨rest, hrest⟩ := List.head?_eq_some_iff.mp hhead
      rw [preprocessesAssembly, hrest]
      exact decide_eq_true hother
    exact (himplies hassembles).resolve_right fun h => hne h.1
  · intro hcondition hassembles
    rcases assembles_cases hinputs hassembles with ⟨hhead, -, hmem⟩ | hmem | hcurrent
    · by_cases hempty : languages (events arguments) = []
      · have hall : ∀ extension ∈ assemblerExtensions, extension ∈ Parser.sourceExtensions →
            extension = "S" := by decide
        exact .inr ⟨hempty, hall _ hmem (hextension hempty)⟩
      · exact .inl (hcondition source hhead hmem hempty)
    · exact .inl hmem
    · cases hcurrent

/-- A source of assembly, and after it a flag for a language. -/
def lateLanguage (name : String) : List OsString :=
  (["-c", "-o", "boot.o", "boot.S", "-x", name]).map .utf8

theorem preprocessedAssembly_iff_late :
    ∃ invocation, CcInvocation.parseFor (lateLanguage assemblerWithCpp) .gcc = .ok invocation ∧
      preprocessesAssembly (lateLanguage assemblerWithCpp) = true ∧
      invocation.preprocessedAssembly = true := by
  obtain ⟨invocation, hparse⟩ :
      ∃ invocation, CcInvocation.parseFor (lateLanguage assemblerWithCpp) .gcc = .ok invocation :=
    ⟨_, rfl⟩
  have hassembles : preprocessesAssembly (lateLanguage assemblerWithCpp) = true := by decide +kernel
  have hmem : assemblerWithCpp ∈ languages (events (lateLanguage assemblerWithCpp)) := by
    decide +kernel
  exact ⟨invocation, hparse, hassembles,
    (preprocessedAssembly_iff hparse).mpr (fun _ _ _ _ => hmem) hassembles⟩

/-- A flag for C after the source hides the assembly from the search for directives. -/
theorem late_language_hides_assembly :
    preprocessesAssembly (lateLanguage "c") = true ∧
      (CcInvocation.parseFor (lateLanguage "c") .gcc).map
        (fun invocation => (invocation.preprocessedAssembly,
          invocation.validateDiscoveredInputs (fun _ => .ok true) ["boot.S"])) =
        .ok (false, .ok ()) := by
  constructor
  · decide +kernel
  · decide +kernel

end MrBoxington.Cc
