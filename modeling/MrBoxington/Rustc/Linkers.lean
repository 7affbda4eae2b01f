import MrBoxington.Lib.Fallible
import MrBoxington.Rustc.Invocation

/-!
# Which linker a link runs

rustc reads its options by name and takes the value of the last one that names a linker. The
adapter keeps the options in order, and asks the first one it kept which linker to identify.
So a link is keyed by the linker that it runs exactly if the first and the last option name
the same one.
-/

namespace MrBoxington.Rustc

open Fallible (bind_ok)
open Strings

/-! ## How rustc reads its arguments -/

/-- The long options of rustc that take a value. -/
def longValueNames : List String :=
  ["cfg", "check-cfg", "crate-type", "crate-name", "edition", "emit", "print", "out-dir",
    "explain", "target", "allow", "warn", "force-warn", "deny", "forbid", "cap-lints", "codegen",
    "extern", "sysroot", "error-format", "json", "color", "diagnostic-width", "remap-path-prefix",
    "remap-path-scope", "env-set", "jobs-frontend"]

/-- The short options of rustc that take a value. -/
def shortValueNames : List Char := ['A', 'C', 'D', 'F', 'L', 'W', 'Z', 'l', 'o']

/-- What an argument is. -/
inductive Reading where
  | value (codegen : Bool) (attached : Option String)
  | alone

/-- What an argument is: a long option may have its value behind an equals sign, and the letters
behind a short option with a value are the value. -/
def reading (argument : String) : Reading :=
  match stripPrefix argument "--" with
  | some long =>
    if Parser.optionName long ∈ longValueNames then
      .value (Parser.optionName long = "codegen") (Parser.optionValue long)
    else .alone
  | none =>
    match argument.toList with
    | '-' :: letters =>
      match letters.dropWhile (· ∉ shortValueNames) with
      | [] => .alone
      | letter :: attached =>
        .value (letter = 'C') (Parser.attachedValue (String.ofList attached))
    | _ => .alone

/-- The codegen options of a command line, in order. -/
def codegenValues : List String → List String
  | [] => []
  | argument :: rest =>
    match reading argument with
    | .alone => codegenValues rest
    | .value codegen (some value) => (if codegen then [value] else []) ++ codegenValues rest
    | .value codegen none =>
      match rest with
      | [] => []
      | value :: rest => (if codegen then [value] else []) ++ codegenValues rest

/-- The linkers that the options of a command line name, in order. -/
def linkers (arguments : List String) : List String :=
  (codegenValues arguments).filterMap fun value => stripPrefix value "linker="

/-- The linkers in the arguments that were kept. -/
def keptLinkers (parsed : List Argument) : List String :=
  parsed.filterMap RustcInvocation.linkerOf

/-! ## What one argument adds -/

variable {parser parser' : Parser} {value flag : String}

private theorem keptLinkers_push (argument : Argument) :
    keptLinkers (parser.push argument).parsed =
      keptLinkers parser.parsed ++ (RustcInvocation.linkerOf argument).toList := by
  rw [Parser.push, keptLinkers, List.filterMap_append]
  cases h : RustcInvocation.linkerOf argument <;> simp [keptLinkers, h]

/-- Nothing is read, and no linker is named. -/
structure Quiet (parser parser' : Parser) : Prop where
  arguments : parser'.arguments = parser.arguments
  linkers : keptLinkers parser'.parsed = keptLinkers parser.parsed

private theorem quiet_push {argument : Argument}
    (hargument : RustcInvocation.linkerOf argument = none) :
    Quiet parser (parser.push argument) where
  arguments := rfl
  linkers := by rw [keptLinkers_push, hargument, Option.toList_none, List.append_nil]

private theorem linkerOf_plain {front : String} (hapart : Apart front "--codegen=linker=") :
    RustcInvocation.linkerOf (.plain (front ++ value)) = none := stripPrefix_of_apart hapart _

private theorem linkerOf_codegen :
    RustcInvocation.linkerOf (.plain ("--codegen=" ++ value)) = stripPrefix value "linker=" := by
  have hlinker : "--codegen=linker=" = "--codegen=" ++ "linker=" := by decide
  rw [RustcInvocation.linkerOf, hlinker, stripPrefix_append_append]

private theorem stripPrefix_linker (hname : Parser.optionName value ≠ "linker") :
    stripPrefix value "linker=" = none := by
  cases hstrip : stripPrefix value "linker=" with
  | none => rfl
  | some linker =>
    have hsplit : splitOnce value '=' = some ("linker", linker) := by
      rw [splitOnce_eq_some, stripPrefix_eq_some.mp hstrip, String.toList_append]
      exact ⟨by simp, by decide⟩
    rw [Parser.optionName, hsplit] at hname
    exact absurd rfl hname

private theorem keepCodegen_linkers :
    keptLinkers (parser.keepCodegen value).parsed =
      keptLinkers parser.parsed ++ (stripPrefix value "linker=").toList := by
  have hother (hname : Parser.optionName value = "link-arg" ∨
      Parser.optionName value = "link-args") :
      keptLinkers parser.parsed ++ (stripPrefix value "linker=").toList =
        keptLinkers parser.parsed := by
    rw [stripPrefix_linker (by rcases hname with h | h <;> rw [h] <;> decide),
      Option.toList_none, List.append_nil]
  rw [Parser.keepCodegen]
  split
  · rename_i selection hselection
    have hname : Parser.optionName value = "link-arg" := by
      by_contra hname
      rw [Parser.fuseLdSelection, if_neg hname] at hselection
      cases hselection
    rw [hother (.inl hname)]
    split
    · rfl
    · exact (quiet_push rfl).linkers
  split
  · rename_i name hinstall
    have hname : Parser.optionName value = "link-arg" := by
      obtain ⟨name, -, hinstall⟩ := Option.bind_eq_some_iff.mp hinstall
      split at hinstall
      · rename_i hsafe
        exact hsafe.1
      · cases hinstall
    rw [hother (.inl hname)]
    exact (quiet_push rfl).linkers
  split
  · rename_i directory hoso
    have hname : Parser.optionName value = "link-arg" ∨ Parser.optionName value = "link-args" := by
      by_contra hname
      rw [Parser.osoPrefixOf, if_neg hname] at hoso
      cases hoso
    rw [hother hname]
    exact (quiet_push rfl).linkers
  · dsimp only
    split
    · exact (keptLinkers_push _).trans (by rw [linkerOf_codegen])
    · exact (keptLinkers_push _).trans (by rw [linkerOf_codegen])

private theorem keepCodegen_arguments :
    (parser.keepCodegen value).arguments = parser.arguments := by
  rw [Parser.keepCodegen]
  repeat' split
  all_goals rfl

private theorem parseCodegen_ok (hparse : parser.parseCodegen value = .ok parser') :
    parser'.arguments = parser.arguments ∧
      keptLinkers parser'.parsed =
        keptLinkers parser.parsed ++ (stripPrefix value "linker=").toList := by
  unfold Parser.parseCodegen at hparse
  split at hparse
  · cases hparse
  split at hparse
  · rename_i hname
    split at hparse
    · cases hparse
    split at hparse
    · cases hparse
    · cases hparse
      rw [stripPrefix_linker (by rw [hname]; decide), Option.toList_none, List.append_nil]
      exact ⟨rfl, keptLinkers_push _ |>.trans (List.append_nil _)⟩
  split at hparse
  · cases hparse
  split at hparse
  · cases hparse
  · cases hparse
    exact ⟨keepCodegen_arguments, keepCodegen_linkers⟩

private theorem takeValue_ok {attached : Option String} (htake : parser.takeValue flag attached =
    .ok (value, parser')) : parser'.parsed = parser.parsed ∧
      ((attached = some value ∧ parser'.arguments = parser.arguments) ∨
        (attached = none ∧ parser.arguments = value :: parser'.arguments)) := by
  cases attached with
  | some text =>
    rw [Parser.takeValue] at htake
    split at htake
    · cases htake
    · cases htake
      exact ⟨rfl, .inl ⟨rfl, rfl⟩⟩
  | none =>
    rw [Parser.takeValue] at htake
    split at htake
    · cases htake
    · rename_i hrest
      cases htake
      exact ⟨rfl, .inr ⟨rfl, hrest⟩⟩

private theorem takeValue_length {attached : Option String}
    (htake : parser.takeValue flag attached = .ok (value, parser')) :
    parser'.arguments.length ≤ parser.arguments.length := by
  obtain ⟨-, ⟨-, hrest⟩ | ⟨-, hrest⟩⟩ := takeValue_ok htake
  · rw [hrest]
  · rw [hrest, List.length_cons]
    omega

private theorem codegenValues_takeValue {argument : String} {codegen : Bool}
    {attached : Option String}
    (hreading : reading argument = .value codegen attached)
    (htake : parser.takeValue flag attached = .ok (value, parser')) :
    codegenValues (argument :: parser.arguments) =
      (if codegen then [value] else []) ++ codegenValues parser'.arguments := by
  obtain ⟨-, ⟨rfl, hrest⟩ | ⟨rfl, hrest⟩⟩ := takeValue_ok htake
  · rw [codegenValues, hreading, hrest]
  · rw [codegenValues, hreading, hrest]

private theorem apart_flag (hflag : flag ∈ Parser.valueFlags) (hcodegen : flag ≠ "codegen") :
    Apart ("--" ++ flag ++ "=") "--codegen=linker=" := by
  have hall : ∀ flag ∈ Parser.valueFlags, flag = "codegen" ∨
      Apart ("--" ++ flag ++ "=") "--codegen=linker=" := by decide
  exact (hall flag hflag).resolve_left hcodegen

private theorem selectTarget_quiet : Quiet parser (parser.selectTarget value) := by
  rw [Parser.selectTarget]
  dsimp only
  split
  · exact ⟨rfl, (quiet_push rfl).linkers⟩
  · exact ⟨rfl, (quiet_push (linkerOf_plain (by decide))).linkers⟩

private theorem parseLongValue_quiet (hflag : flag ∈ Parser.valueFlags)
    (hcodegen : flag ≠ "codegen")
    (hparse : parser.parseLongValue flag value = .ok parser') : Quiet parser parser' := by
  have hplain : RustcInvocation.linkerOf (.plain ("--" ++ flag ++ "=" ++ value)) = none :=
    linkerOf_plain (apart_flag hflag hcodegen)
  unfold Parser.parseLongValue at hparse
  by_cases hname : flag = "crate-name"
  · rw [if_pos hname] at hparse
    cases hparse
    exact ⟨rfl, (quiet_push hplain).linkers⟩
  rw [if_neg hname] at hparse
  by_cases htext : flag ∈ Parser.textFlags
  · rw [if_pos htext] at hparse
    cases hparse
    exact quiet_push hplain
  rw [if_neg htext] at hparse
  by_cases htarget : flag = "target"
  · rw [if_pos htarget] at hparse
    cases hparse
    exact selectTarget_quiet
  rw [if_neg htarget] at hparse
  by_cases htype : flag = "crate-type"
  · rw [if_pos htype] at hparse
    cases hparse
    exact ⟨rfl, (quiet_push hplain).linkers⟩
  rw [if_neg htype] at hparse
  by_cases hemit : flag = "emit"
  · rw [if_pos hemit] at hparse
    cases hparse
    exact ⟨rfl, (quiet_push rfl).linkers⟩
  rw [if_neg hemit] at hparse
  by_cases houtput : flag = "out-dir"
  · rw [if_pos houtput] at hparse
    cases hparse
    exact ⟨rfl, (quiet_push rfl).linkers⟩
  rw [if_neg houtput] at hparse
  by_cases hsysroot : flag = "sysroot"
  · rw [if_pos hsysroot] at hparse
    cases hparse
    exact quiet_push rfl
  rw [if_neg hsysroot] at hparse
  by_cases hcrate : flag = "extern"
  · rw [if_pos hcrate] at hparse
    split at hparse
    · cases hparse
      exact ⟨rfl, (quiet_push rfl).linkers⟩
    · cases hparse
      exact quiet_push rfl
  rw [if_neg hcrate] at hparse
  by_cases hremap : flag = "remap-path-prefix"
  · rw [if_pos hremap] at hparse
    split at hparse
    · cases hparse
      exact quiet_push rfl
    · cases hparse
  rw [if_neg hremap] at hparse
  have hall : ∀ flag ∈ Parser.valueFlags, flag ∈ Parser.textFlags ∨ flag ∈ ["crate-name", "target",
      "crate-type", "emit", "out-dir", "sysroot", "extern", "remap-path-prefix", "codegen"] := by
    decide
  have hleft := (hall flag hflag).resolve_left htext
  simp only [List.mem_cons, List.not_mem_nil, hname, htarget, htype, hemit, houtput, hsysroot,
    hcrate, hremap, hcodegen, or_false] at hleft

private theorem parseUnstable_quiet (hparse : parser.parseUnstable value = .ok parser') :
    Quiet parser parser' := by
  have hplain : RustcInvocation.linkerOf (.plain ("-Z" ++ value)) = none :=
    linkerOf_plain (by decide)
  unfold Parser.parseUnstable at hparse
  dsimp only at hparse
  split at hparse
  · cases hparse
    exact quiet_push hplain
  split at hparse
  · cases hparse
  split at hparse
  · cases hparse
    exact quiet_push hplain
  split at hparse
  · split at hparse
    · cases hparse
      exact quiet_push hplain
    · cases hparse
  split at hparse
  · cases hparse
    exact quiet_push hplain
  split at hparse
  · cases hparse
    exact ⟨rfl, (quiet_push hplain).linkers⟩
  · cases hparse

private theorem parseShortValue_quiet {short : String} (hcodegen : short ≠ "-C")
    (hparse : parser.parseShortValue short value = .ok parser') : Quiet parser parser' := by
  unfold Parser.parseShortValue at hparse
  split at hparse
  · exact parseUnstable_quiet hparse
  split at hparse
  · unfold Parser.parseSearchPath at hparse
    dsimp only at hparse
    split at hparse
    · cases hparse
      exact quiet_push rfl
    · cases hparse
  split at hparse
  · cases hparse
    exact ⟨rfl, (quiet_push (linkerOf_plain (by decide))).linkers⟩
  split at hparse
  · cases hparse
    exact ⟨rfl, (quiet_push rfl).linkers⟩
  split at hparse
  · rename_i long hlong
    cases hparse
    refine quiet_push ?_
    have hall : ∀ long ∈ Parser.lintFlags.map Prod.snd,
        Apart (long ++ "=") "--codegen=linker=" := by decide
    obtain ⟨before, after, hflags, -⟩ := List.lookup_eq_some_iff.mp hlong
    exact linkerOf_plain (hall long (List.mem_map.mpr ⟨(short, long), by simp [hflags], rfl⟩))
  · cases hparse

/-! ## What the command line adds up to -/

/-- The linkers kept so far, followed by those in the arguments that are left. -/
def allLinkers (parser : Parser) : List String :=
  keptLinkers parser.parsed ++ linkers parser.arguments

private theorem linkers_codegen {arguments rest : List String} {option : String}
    (hvalues : codegenValues arguments = [option] ++ codegenValues rest) :
    linkers arguments = (stripPrefix option "linker=").toList ++ linkers rest := by
  rw [linkers, hvalues, List.filterMap_append, linkers]
  cases h : stripPrefix option "linker=" <;> simp [h]

/-- An argument was read, and all linkers are kept. -/
structure Reads (parser : Parser) (argument : String) (parser' : Parser) : Prop where
  linkers : allLinkers parser' =
    keptLinkers parser.parsed ++ linkers (argument :: parser.arguments)
  length : parser'.arguments.length ≤ parser.arguments.length

section Reads

variable {argument option : String} {taken : Parser} {attached : Option String}

private theorem reads_codegen (hreading : reading argument = .value true attached)
    (htake : parser.takeValue flag attached = .ok (option, taken))
    (hparse : taken.parseCodegen option = .ok parser') : Reads parser argument parser' := by
  obtain ⟨hrest, hkept⟩ := parseCodegen_ok hparse
  constructor
  · rw [allLinkers, hkept, hrest, (takeValue_ok htake).1, List.append_assoc,
      linkers_codegen (codegenValues_takeValue hreading htake)]
  · rw [hrest]
    exact takeValue_length htake

private theorem reads_quiet (hreading : reading argument = .value false attached)
    (htake : parser.takeValue flag attached = .ok (option, taken)) (hquiet : Quiet taken parser') :
    Reads parser argument parser' := by
  constructor
  · rw [allLinkers, hquiet.linkers, hquiet.arguments, (takeValue_ok htake).1, linkers, linkers,
      codegenValues_takeValue hreading htake, if_neg Bool.false_ne_true, List.nil_append]
  · rw [hquiet.arguments]
    exact takeValue_length htake

private theorem reads_alone (hreading : reading argument = .alone) (hquiet : Quiet parser parser') :
    Reads parser argument parser' := by
  constructor
  · rw [allLinkers, hquiet.linkers, hquiet.arguments, linkers, linkers, codegenValues, hreading]
  · rw [hquiet.arguments]

end Reads

private theorem parseLong_reads {long : String}
    (hparse : parser.parseLong (Parser.optionName long) (Parser.optionValue long) = .ok parser') :
    Reads parser ("--" ++ long) parser' := by
  have hreading : reading ("--" ++ long) = if Parser.optionName long ∈ longValueNames then
      .value (Parser.optionName long = "codegen") (Parser.optionValue long) else .alone := by
    rw [reading, stripPrefix_append]
  unfold Parser.parseLong at hparse
  split at hparse
  · cases hparse
  split at hparse
  · rename_i hname
    rw [hname] at hreading hparse
    cases hparse
    exact reads_alone hreading ⟨rfl, (quiet_push (by decide)).linkers⟩
  split at hparse
  · rename_i hname
    rw [hname] at hreading hparse
    cases hparse
    exact reads_alone hreading (quiet_push (by decide))
  split at hparse
  · rename_i hflag
    have hall : ∀ flag ∈ Parser.valueFlags, flag ∈ longValueNames := by decide
    rw [if_pos (hall _ hflag)] at hreading
    obtain ⟨⟨option, taken⟩, htake, hparse⟩ := bind_ok hparse
    by_cases hcodegen : Parser.optionName long = "codegen"
    · rw [hcodegen] at hparse
      exact reads_codegen (by rw [hreading, decide_eq_true hcodegen]) htake hparse
    · exact reads_quiet (by rw [hreading, decide_eq_false hcodegen]) htake
        (parseLongValue_quiet hflag hcodegen hparse)
  · cases hparse

private theorem parseShort_reads (hlong : stripPrefix value "--" = none)
    (hparse : parser.parseShort value = .ok parser') :
    Reads parser value parser' := by
  unfold Parser.parseShort at hparse
  split at hparse
  · cases hparse
  split at hparse
  · rename_i hplain
    cases hparse
    have hall : ∀ value ∈ ["-g", "-O", "-v"], RustcInvocation.linkerOf (.plain value) = none := by
      decide
    have halone : reading value = .alone := by
      simp only [List.mem_cons, List.not_mem_nil, or_false] at hplain
      rcases hplain with rfl | rfl | rfl <;> rfl
    exact reads_alone halone (quiet_push (hall value hplain))
  split at hparse
  · rename_i short attached hshort
    obtain ⟨flag, hflag, htried⟩ := List.exists_of_findSome?_eq_some hshort
    obtain ⟨rest, hstrip, heq⟩ := Option.map_eq_some_iff.mp htried
    obtain ⟨rfl, rfl⟩ := Prod.mk.inj heq
    obtain ⟨⟨option, taken⟩, htake, hparse⟩ := bind_ok hparse
    have hall : ∀ flag ∈ Parser.shortValueFlags, (shortValueNames.any fun letter =>
        flag.toList = ['-', letter] ∧ (letter = 'C' ↔ flag = "-C")) = true := by decide
    obtain ⟨letter, hletter, hfound⟩ := List.any_eq_true.mp (hall flag hflag)
    obtain ⟨hlist, hcodegen⟩ := of_decide_eq_true hfound
    have hreading : reading value = .value (letter = 'C') (Parser.attachedValue rest) := by
      have hvalue : value.toList = '-' :: letter :: rest.toList := by
        rw [stripPrefix_eq_some.mp hstrip, String.toList_append, hlist]
        rfl
      rw [reading, hlong, hvalue]
      simp only [List.dropWhile_cons, hletter, not_true_eq_false, decide_false, Bool.false_eq_true,
        if_false, String.ofList_toList]
    by_cases hC : flag = "-C"
    · rw [hC] at hparse
      exact reads_codegen (by rw [hreading, decide_eq_true (hcodegen.mpr hC)]) htake hparse
    · exact reads_quiet (by rw [hreading, decide_eq_false (mt hcodegen.mp hC)]) htake
        (parseShortValue_quiet hC hparse)
  · cases hparse

private theorem parseArgument_reads (hparse : parser.parseArgument value = .ok parser') :
    Reads parser value parser' := by
  unfold Parser.parseArgument at hparse
  split at hparse
  · rename_i long hlong
    rw [stripPrefix_eq_some.mp hlong]
    exact parseLong_reads hparse
  · rename_i hlong
    split at hparse
    · exact parseShort_reads hlong hparse
    · rename_i hshort
      unfold Parser.parseInput at hparse
      split at hparse
      · cases hparse
      split at hparse
      · cases hparse
      · rename_i hdash hsource
        cases hparse
        have halone : reading value = .alone := by
          rw [reading, hlong]
          dsimp only
          split
          · rename_i letters hletters
            exact absurd ⟨by rw [startsWith, hletters]; rfl, hdash⟩ hshort
          · rfl
        exact reads_alone halone ⟨rfl, rfl⟩

private theorem parseArguments_linkers {limit : ℕ} (hlimit : parser.arguments.length ≤ limit)
    (hparse : Parser.parseArguments limit parser = .ok parser') :
    keptLinkers parser'.parsed = allLinkers parser := by
  have hdone {parser : Parser} (harguments : parser.arguments = []) :
      keptLinkers parser.parsed = allLinkers parser := by
    rw [allLinkers, harguments]
    exact (List.append_nil _).symm
  induction limit generalizing parser with
  | zero =>
    cases hparse
    exact hdone (List.length_eq_zero_iff.mp (Nat.le_zero.mp hlimit))
  | succ limit ih =>
    rw [Parser.parseArguments] at hparse
    split at hparse
    · rename_i harguments
      cases hparse
      exact hdone harguments
    · rename_i value rest harguments
      obtain ⟨next, hargument, hrest⟩ := bind_ok hparse
      have hreads := parseArgument_reads hargument
      rw [harguments, List.length_cons] at hlimit
      rw [ih (by have := hreads.length; dsimp only at this; omega) hrest, hreads.linkers,
        allLinkers, harguments]

private theorem keptLinkers_dropUnobservableDiagnosticWidth {parsed : List Argument} :
    keptLinkers (Parser.dropUnobservableDiagnosticWidth parsed) = keptLinkers parsed := by
  have hfilter : keptLinkers (parsed.filter fun argument =>
      Parser.diagnosticWidth argument = none) = keptLinkers parsed := by
    rw [keptLinkers, List.filterMap_filter]
    refine List.filterMap_congr fun argument _ => ?_
    split
    · rfl
    · rename_i hwidth
      cases argument with
      | plain value =>
        cases hstrip : stripPrefix value "--diagnostic-width=" with
        | none => exact absurd (decide_eq_true hstrip) hwidth
        | some width =>
          rw [stripPrefix_eq_some.mp hstrip]
          exact (linkerOf_plain (by decide)).symm
      | _ => rfl
  unfold Parser.dropUnobservableDiagnosticWidth
  split
  · split
    · exact hfilter
    · rfl
  · rfl

variable {host : Host} {arguments : List OsString} {options : ParseOptions}
  {invocation : RustcInvocation}

private theorem finish_arguments (hfinish : parser.finish host = .ok invocation) :
    invocation.arguments = Parser.dropUnobservableDiagnosticWidth parser.parsed := by
  unfold Parser.finish at hfinish
  split at hfinish
  · cases hfinish
  cases hsource : parser.source with
  | none =>
    rw [hsource] at hfinish
    cases hfinish
  | some source =>
    rw [hsource] at hfinish
    obtain ⟨output, -, hfinish⟩ := bind_ok hfinish
    obtain ⟨archives, -, hfinish⟩ := bind_ok hfinish
    obtain ⟨crateName, -, hfinish⟩ := bind_ok hfinish
    cases hfinish
    rfl

private theorem keptLinkers_parseWith
    (hparse : RustcInvocation.parseWith host arguments options = .ok invocation) :
    ∃ expanded, expandResponseFiles host arguments = .ok expanded ∧
      keptLinkers invocation.arguments = linkers expanded := by
  obtain ⟨expanded, hexpanded, hparse⟩ := bind_ok hparse
  obtain ⟨parser, harguments, hfinish⟩ := bind_ok hparse
  refine ⟨expanded, hexpanded, ?_⟩
  have hkept : keptLinkers parser.parsed = linkers expanded :=
    parseArguments_linkers le_rfl harguments
  rw [← hkept, finish_arguments hfinish, keptLinkers_dropUnobservableDiagnosticWidth]

/-- A native link is keyed by the linker that it runs exactly if the first and the last option
that names a linker name the same one. -/
theorem linkerFor_last_iff {expanded : List String}
    (hparse : RustcInvocation.parseWith host arguments options = .ok invocation)
    (hexpanded : expandResponseFiles host arguments = .ok expanded)
    (hnative : invocation.linksNatively = true) :
    invocation.linkerFor (fun linker fuseLd => .ok (linker, fuseLd)) =
        .ok (some ((linkers expanded).getLast?, invocation.fuseLd)) ↔
      (linkers expanded).head? = (linkers expanded).getLast? := by
  obtain ⟨expanded', hexpanded', hkept⟩ := keptLinkers_parseWith hparse
  cases hexpanded.symm.trans hexpanded'
  have hoverride : invocation.linkerOverride = (linkers expanded).head? := by
    rw [← hkept, keptLinkers, List.head?_filterMap]
    rfl
  rw [RustcInvocation.linkerFor, if_pos hnative, hoverride]
  simp

/-- A machine with Linux and no files. -/
def plainHost : Host where
  linux := true
  macos := false
  msvc := false
  uefi := false
  readToString := fun _ => .error "not found"
  shlexSplit := fun _ => none
  isFile := fun _ => false
  canonicalize := fun _ => none

/-- A link that names two linkers. -/
def twoLinkers (first second : String) : List OsString :=
  (["--crate-type", "bin", "--emit=link,dep-info", "--out-dir", "out", "-Clinker=" ++ first, "-C",
    "linker=" ++ second, "src/main.rs"]).map .utf8

theorem linkerFor_last_iff_repeated :
    ∃ invocation, RustcInvocation.parseWith plainHost (twoLinkers "clang" "clang") ⟨true, false⟩ =
        .ok invocation ∧
      invocation.linkerFor (fun linker fuseLd => .ok (linker, fuseLd)) =
        .ok (some (some "clang", invocation.fuseLd)) := by
  obtain ⟨invocation, hparse, hnative⟩ : ∃ invocation,
      RustcInvocation.parseWith plainHost (twoLinkers "clang" "clang") ⟨true, false⟩ =
        .ok invocation ∧ invocation.linksNatively = true := ⟨_, rfl, rfl⟩
  obtain ⟨expanded, hexpanded, hfirst, hlast⟩ : ∃ expanded,
      expandResponseFiles plainHost (twoLinkers "clang" "clang") = .ok expanded ∧
        (linkers expanded).head? = some "clang" ∧ (linkers expanded).getLast? = some "clang" :=
    ⟨_, rfl, rfl, rfl⟩
  have hkeyed := (linkerFor_last_iff hparse hexpanded hnative).mpr (hfirst.trans hlast.symm)
  rw [hlast] at hkeyed
  exact ⟨invocation, hparse, hkeyed⟩

/-- The key has the first of two linkers, and rustc runs the second. -/
theorem two_linkers_key_the_first :
    (RustcInvocation.parseWith plainHost (twoLinkers "clang" "/opt/llvm/bin/clang")
        ⟨true, false⟩).map (fun invocation => (invocation.linksNatively,
          invocation.linkerFor fun linker fuseLd => .ok (linker, fuseLd))) =
        .ok (true, .ok (some (some "clang", none))) ∧
      (expandResponseFiles plainHost (twoLinkers "clang" "/opt/llvm/bin/clang")).map
        (fun expanded => (linkers expanded).getLast?) = .ok (some "/opt/llvm/bin/clang") := by
  constructor
  · decide +kernel
  · decide +kernel

end MrBoxington.Rustc
