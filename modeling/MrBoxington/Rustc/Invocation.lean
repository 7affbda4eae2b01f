import MrBoxington.BuildScript.Components
import MrBoxington.Lib.Paths
import MrBoxington.Lib.TextLines
import MrBoxington.Rustc.CompactInputs

/-!
# The command line of the compiler

The adapter reads the arguments of rustc and keeps what it read, in order. An argument that it
does not know makes the compilation bypass the cache. What a link reads besides the arguments
decides which links it takes.
-/

namespace MrBoxington.Rustc

open BuildScript (components)
open Paths (Path isAbsolute join normalizeComponents)
open Strings

/-! ## Arguments -/

/-- Why an invocation does not use the cache. -/
inductive BypassReason where
  | nonUtf8Argument (index : ℕ)
  | responseFile (message : String)
  | unknownFlag (flag : String)
  | unknownCodegenOption (option : String)
  | missingValue (flag : String)
  | compilerQuery
  | standardInput
  | missingInput
  | multipleInputs
  | incremental
  | unsupportedCrateType (crateType : String)
  | unsupportedEmit (kind : String)
  | noCacheableOutput
  | nativeLibrary (library : String)
  | missingNativeLibrary (library : String)
  | customTargetNativeLibrary (library : String)
  | unportableNativeLink (message : String)
  | unmodeledLinkArgument (option : String)
  | unsupportedSearchPath (kind : String)
  | unresolvedExtern (name : String)
  | nonUtf8Path (path : Path)
  | unmappedAbsolutePath (path : Path)
  | relativeWorkingDirectory (path : Path)
  | relativePathMapping (path : Path)
  | invalidPathPlaceholder (placeholder : String)
  | missingRequiredInput (path : String)
  | invalidInputDigest (path : Path)
  | conflictingInput (path : String)
  | inputRead (path : Path) (message : String)
  | discoveryWorkingDirectory
  | conflictingEnvironment (name : String)
  | malformedDepInfo (message : String)
  | unsupportedPrediction
  | invalidPredictedInput (path : String)
deriving DecidableEq

/-- Something that the compiler writes, with its path if the invocation names one. -/
structure Emit where
  kind : String
  path : Option Path
deriving DecidableEq

/-- An argument as the adapter keeps it. -/
inductive Argument where
  | plain (value : String)
  | path (flag : String) (path : Path)
  | searchPath (kind : String) (path : Path)
  | externCrate (name : String) (path : Option Path)
  | emit (emits : List Emit)
  | remapPath (source : Path) (target : String)
  | installName (name : String)
  | osoPrefix (path : Path) (trailingSlash : Bool)
  | fuseLd (selection : String)
deriving DecidableEq

/-- What a compilation links. -/
inductive LinkOutput where
  | library
  | wasmExecutable
  | nativeExecutable
  | nativeProcMacro
  | nativeSharedLibrary
deriving DecidableEq

/-- The output is linked for the host. -/
def LinkOutput.isNative : LinkOutput → Bool
  | .nativeExecutable => true
  | .nativeProcMacro => true
  | .nativeSharedLibrary => true
  | _ => false

/-- What the caller can model beyond the default. -/
structure ParseOptions where
  cacheNativeLinks : Bool
  customTargetSearch : Bool
deriving DecidableEq

/-- What the adapter keeps of a command line. -/
structure RustcInvocation where
  arguments : List Argument
  source : Path
  requiredInputs : List Path
  crateName : String
  extraFilename : String
  outDir : Option Path
  explicitOutput : Option Path
  emits : List Emit
  target : Option String
  linkOutput : LinkOutput
deriving DecidableEq

/-- What the parser asks of the machine it runs on. -/
structure Host where
  linux : Bool
  macos : Bool
  msvc : Bool
  uefi : Bool
  readToString : String → Except String String
  shlexSplit : String → Option (List String)
  isFile : Path → Bool
  canonicalize : Path → Option Path

/-! ## Response files -/

/-- State of the expansion. -/
structure ResponseExpander where
  shellArgfiles : Bool
  nextIsUnstableOption : Bool
  arguments : List String

/-- Keep an argument. -/
def ResponseExpander.push (expander : ResponseExpander) (argument : String) : ResponseExpander :=
  let kept := expander.arguments ++ [argument]
  if expander.nextIsUnstableOption then
    ⟨expander.shellArgfiles || argument = "shell-argfiles", false, kept⟩
  else
    match stripPrefix argument "-Z" with
    | some "" => ⟨expander.shellArgfiles, true, kept⟩
    | some option => ⟨expander.shellArgfiles || option = "shell-argfiles", false, kept⟩
    | none => ⟨expander.shellArgfiles, false, kept⟩

/-- Add an argument, or the arguments in the file that it names. -/
def ResponseExpander.expand (host : Host) (expander : ResponseExpander) (index : ℕ) :
    OsString → Except BypassReason ResponseExpander
  | .other _ => .error (.nonUtf8Argument index)
  | .utf8 argument =>
    match stripPrefix argument "@" with
    | none => .ok (expander.push argument)
    | some argfile =>
      let shellPath : Option String :=
        match splitOnce argfile ':' with
        | some ("shell", path) => if expander.shellArgfiles then some path else none
        | _ => none
      let path := shellPath.getD argfile
      match host.readToString path with
      | .error error => .error (.responseFile (path ++ ": " ++ error))
      | .ok contents =>
        match shellPath with
        | none => .ok ((lines contents).foldl .push expander)
        | some _ =>
          match host.shlexSplit contents with
          | none => .error (.responseFile ("invalid shell-style arguments in " ++ path))
          | some arguments => .ok (arguments.foldl .push expander)

/-- The arguments with the response files expanded. -/
def expandResponseFiles (host : Host) (arguments : List OsString) :
    Except BypassReason (List String) :=
  (arguments.zipIdx.foldlM (fun expander argument =>
    ResponseExpander.expand host expander argument.2 argument.1) ⟨false, false, []⟩).map
      ResponseExpander.arguments

/-! ## State of the parser -/

/-- The parser, with the arguments it has not read. -/
structure Parser where
  options : ParseOptions
  arguments : List String
  parsed : List Argument := []
  source : Option Path := none
  crateTypes : List String := []
  emits : List Emit := []
  requiredInputs : List Path := []
  nativeLibraries : List String := []
  test : Bool := false
  crateName : Option String := none
  extraFilename : String := ""
  outDir : Option Path := none
  explicitOutput : Option Path := none
  target : Option String := none
  sysrootBackend : Option String := none

namespace Parser

variable (host : Host) (parser : Parser)

/-- Keep an argument. -/
def push (argument : Argument) : Parser := { parser with parsed := parser.parsed ++ [argument] }

/-- The value of a flag: the rest of its argument, or the next argument. -/
def takeValue (flag : String) : Option String → Except BypassReason (String × Parser)
  | some value => if value = "" then .error (.missingValue flag) else .ok (value, parser)
  | none =>
    match parser.arguments with
    | [] => .error (.missingValue flag)
    | value :: rest => .ok (value, { parser with arguments := rest })

/-! ## Codegen options -/

/-- The codegen options that are kept as they are, besides those that name the linker. -/
def supportedCodegenOptions : List String :=
  ["codegen-units", "control-flow-guard", "debug-assertions", "debuginfo",
    "default-linker-libraries", "embed-bitcode", "extra-filename", "force-frame-pointers",
    "force-unwind-tables", "instrument-coverage", "link-arg", "link-args", "link-dead-code",
    "link-self-contained", "linker-plugin-lto", "lto", "metadata", "no-prepopulate-passes",
    "opt-level", "overflow-checks", "panic", "prefer-dynamic", "relocation-model", "rpath",
    "save-temps", "soft-float", "split-debuginfo", "split-dwarf-kind", "strip",
    "symbol-mangling-version", "target-cpu", "target-feature", "tls-model"]

/-- The name of an option: what is before its value. -/
def optionName (value : String) : String := ((splitOnce value '=').map Prod.fst).getD value

/-- The value of an option. -/
def optionValue (value : String) : Option String := (splitOnce value '=').map Prod.snd

/-- The spellings of a switch. -/
def switchValues : List String := ["y", "yes", "on", "true", "n", "no", "off", "false"]

/-- Any file name that can be part of an install name. -/
def safeInstallName (name : String) : Bool :=
  name ≠ "" ∧ name.toList.all fun c => c.isAlphanum || c ∈ ['.', '_', '-']

/-- The text without the separators at its end. -/
def trimSeparators (text : String) : String :=
  String.ofList (text.toList.reverse.dropWhile (· = '/')).reverse

/-- The linker that a link argument selects, if no other one is selected before. -/
def fuseLdSelection (value : String) : Option String := do
  let option ← if optionName value = "link-arg" then optionValue value else none
  let selection ← stripPrefix option "-fuse-ld="
  if selection ≠ "" ∧ contains selection [','] = false ∧
      parser.parsed.all (fun argument =>
        match argument with
        | .fuseLd existing => existing = selection
        | _ => true) then some selection else none

/-- The install name that a link argument gives. -/
def installNameOf (value : String) : Option String := do
  let name ← stripPrefix value "link-arg=-Wl,-install_name,@rpath/"
  if optionName value = "link-arg" ∧ safeInstallName name then some name else none

/-- The directory that a link argument leaves out of the debug map. -/
def osoPrefixOf (value : String) : Option String := do
  let option ← if optionName value = "link-arg" ∨ optionName value = "link-args" then
    optionValue value else none
  let directory ← stripPrefix option "-Wl,-oso_prefix,"
  if trimSeparators directory ≠ "" ∧ contains directory [','] = false then some directory
  else none

/-- A codegen option that is kept. -/
def keepCodegen (value : String) : Parser :=
  match parser.fuseLdSelection value with
  | some selection =>
    if parser.parsed.contains (.fuseLd selection) then parser else parser.push (.fuseLd selection)
  | none =>
    match installNameOf value with
    | some name => parser.push (.installName name)
    | none =>
      match osoPrefixOf value with
      | some directory =>
        parser.push (.osoPrefix (components (trimSeparators directory)) (endsWith directory "/"))
      | none =>
        let parser := parser.push (.plain ("--codegen=" ++ value))
        if optionName value = "extra-filename" then
          { parser with extraFilename := (optionValue value).getD "" }
        else parser

/-- One codegen option. -/
def parseCodegen (value : String) : Except BypassReason Parser :=
  if optionName value = "incremental" then .error .incremental
  else if optionName value = "profile-use" then
    match optionValue value with
    | none => .error (.missingValue "-Cprofile-use")
    | some profile =>
      if profile = "" then .error (.missingValue "-Cprofile-use")
      else
        .ok ({ parser with requiredInputs := parser.requiredInputs ++ [components profile] }.push
          (.path "-Cprofile-use" (components profile)))
  else if optionName value ∉ supportedCodegenOptions ∧ optionName value ≠ "linker" ∧
      optionName value ≠ "linker-flavor" then
    .error (.unknownCodegenOption (optionName value))
  else if optionName value = "linker-plugin-lto" ∧
      (optionValue value).any (fun selection => selection ∉ "" :: switchValues) then
    .error (.unknownCodegenOption ("linker-plugin-lto=" ++ (optionValue value).getD ""))
  else .ok (parser.keepCodegen value)

/-! ## Long flags -/

/-- What the compiler writes, from the value of the flag. -/
def parseEmits (value : String) : List Emit :=
  (split value ',').map fun emit =>
    match splitOnce emit '=' with
    | some (kind, path) => ⟨kind, some (components path)⟩
    | none => ⟨emit, none⟩

/-- The flags whose value is kept as text and not looked at. -/
def textFlags : List String :=
  ["cfg", "check-cfg", "edition", "error-format", "json", "color", "diagnostic-width",
    "remap-path-scope", "allow", "warn", "force-warn", "deny", "forbid", "cap-lints",
    "jobs-frontend"]

/-- A target is a file rather than a name. -/
def namesTargetFile (value : String) : Bool := endsWith value ".json" ∨ contains value ['/', '\\']

/-- Select the target, unless one is selected. -/
def selectTarget (value : String) : Parser :=
  let first := parser.target = none
  let selected := { parser with target := some (parser.target.getD value) }
  if namesTargetFile value then
    { selected with
      requiredInputs := if first then parser.requiredInputs ++ [components value]
        else parser.requiredInputs }.push (.path "--target" (components value))
  else selected.push (.plain ("--target=" ++ value))

/-- A long flag with its value. -/
def parseLongValue (flag value : String) : Except BypassReason Parser :=
  if flag = "crate-name" then
    .ok ({ parser with crateName := some value }.push (.plain ("--" ++ flag ++ "=" ++ value)))
  else if flag ∈ textFlags then .ok (parser.push (.plain ("--" ++ flag ++ "=" ++ value)))
  else if flag = "target" then .ok (parser.selectTarget value)
  else if flag = "crate-type" then
    .ok ({ parser with crateTypes := parser.crateTypes ++ split value ',' }.push
      (.plain ("--" ++ flag ++ "=" ++ value)))
  else if flag = "emit" then
    .ok ({ parser with emits := parser.emits ++ parseEmits value }.push (.emit (parseEmits value)))
  else if flag = "out-dir" then
    .ok ({ parser with outDir := some (components value) }.push
      (.path ("--" ++ flag) (components value)))
  else if flag = "sysroot" then .ok (parser.push (.path ("--" ++ flag) (components value)))
  else if flag = "extern" then
    match splitOnce value '=' with
    | some (name, path) =>
      .ok ({ parser with requiredInputs := parser.requiredInputs ++ [components path] }.push
        (.externCrate name (some (components path))))
    | none => .ok (parser.push (.externCrate value none))
  else if flag = "remap-path-prefix" then
    match splitOnce value '=' with
    | some (source, target) => .ok (parser.push (.remapPath (components source) target))
    | none => .error (.missingValue ("--" ++ flag))
  else parser.parseCodegen value

/-- The flags with a value. -/
def valueFlags : List String :=
  textFlags ++ ["crate-name", "target", "crate-type", "emit", "out-dir", "sysroot", "extern",
    "remap-path-prefix", "codegen"]

/-- A long flag, with what is behind the equals sign. -/
def parseLong (flag : String) (inline : Option String) : Except BypassReason Parser :=
  if flag ∈ ["help", "version", "explain", "print"] then .error .compilerQuery
  else if flag = "test" then .ok ({ parser with test := true }.push (.plain ("--" ++ flag)))
  else if flag = "verbose" then .ok (parser.push (.plain ("--" ++ flag)))
  else if flag ∈ valueFlags then do
    let (value, parser) ← parser.takeValue ("--" ++ flag) inline
    parser.parseLongValue flag value
  else .error (.unknownFlag ("--" ++ flag))

/-! ## Short flags -/

/-- The unstable options that are kept as they are. -/
def unstableOptions : List String :=
  ["embed-metadata=no", "embed-metadata=yes", "force-unstable-if-unmarked", "shell-argfiles",
    "unstable-options", "use-sync-unwind=yes", "use-sync-unwind=no"]

/-- The unstable options that lack their value. -/
def missingUnstableValue (option : String) : Option String :=
  if option ∈ ["threads", "threads="] then some "-Zthreads"
  else if option ∈ ["remap-cwd-prefix", "remap-cwd-prefix="] then some "-Zremap-cwd-prefix"
  else if option ∈ ["share-generics", "share-generics="] then some "-Zshare-generics"
  else none

/-- The code generator that an unstable option selects by name. -/
def backendOf (option : String) : Option String := do
  let backend ← stripPrefix option "codegen-backend="
  if backend ≠ "" ∧ contains backend ['.', '/', '\\'] = false then some backend else none

/-- One unstable option. -/
def parseUnstable (option : String) : Except BypassReason Parser :=
  let kept := parser.push (.plain ("-Z" ++ option))
  if option ∈ unstableOptions then .ok kept
  else
    match missingUnstableValue option with
    | some flag => .error (.missingValue flag)
    | none =>
      if startsWith option "remap-cwd-prefix=" then .ok kept
      else
        match stripPrefix option "share-generics=" with
        | some value =>
          if value ∈ switchValues then .ok kept else .error (.unknownFlag ("-Z" ++ option))
        | none =>
          if startsWith option "threads=" then .ok kept
          else
            match backendOf option with
            | some _ => .ok { kept with sysrootBackend := some ("-Z" ++ option) }
            | none => .error (.unknownFlag ("-Z" ++ option))

/-- A text that is not empty. -/
def attachedValue (attached : String) : Option String :=
  if attached = "" then none else some attached

/-- The short lint flags, and the long ones they stand for. -/
def lintFlags : List (String × String) :=
  [("-A", "--allow"), ("-W", "--warn"), ("-D", "--deny"), ("-F", "--forbid")]

/-- A directory to search. -/
def parseSearchPath (search : String) : Except BypassReason Parser :=
  let kind := ((splitOnce search '=').map Prod.fst).getD "all"
  let path := ((splitOnce search '=').map Prod.snd).getD search
  if kind = "dependency" ∨ kind = "native" then
    .ok (parser.push (.searchPath kind (components path)))
  else .error (.unsupportedSearchPath kind)

/-- A short flag with its value. -/
def parseShortValue (short value : String) : Except BypassReason Parser :=
  if short = "-Z" then parser.parseUnstable value
  else if short = "-C" then parser.parseCodegen value
  else if short = "-L" then parser.parseSearchPath value
  else if short = "-l" then
    let parser := parser.push (.plain ("-l" ++ value))
    .ok { parser with nativeLibraries := parser.nativeLibraries ++ [value] }
  else if short = "-o" then
    .ok ({ parser with explicitOutput := some (components value) }.push
      (.path "-o" (components value)))
  else
    match lintFlags.lookup short with
    | some long => .ok (parser.push (.plain (long ++ "=" ++ value)))
    | none => .error (.unknownFlag short)

/-- The short flags with a value, in the order in which they are tried. -/
def shortValueFlags : List String := ["-Z", "-A", "-W", "-D", "-F", "-C", "-L", "-l", "-o"]

/-- A short flag. -/
def parseShort (value : String) : Except BypassReason Parser :=
  if value ∈ ["-h", "-V", "-vV"] then .error .compilerQuery
  else if value ∈ ["-g", "-O", "-v"] then .ok (parser.push (.plain value))
  else
    match shortValueFlags.findSome? fun short => (stripPrefix value short).map (short, ·) with
    | some (short, attached) => do
      let (value, parser) ← parser.takeValue short (attachedValue attached)
      parser.parseShortValue short value
    | none => .error (.unknownFlag value)

/-! ## The loop -/

/-- An argument that is no flag is the source. -/
def parseInput (value : String) : Except BypassReason Parser :=
  if value = "-" then .error .standardInput
  else if parser.source.isSome then .error .multipleInputs
  else .ok { parser with source := some (components value) }

/-- One argument. -/
def parseArgument (value : String) : Except BypassReason Parser :=
  match stripPrefix value "--" with
  | some long => parser.parseLong (optionName long) (optionValue long)
  | none =>
    if startsWith value "-" ∧ value ≠ "-" then parser.parseShort value
    else parser.parseInput value

/-- Read at most so many arguments. -/
def parseArguments : ℕ → Parser → Except BypassReason Parser
  | 0, parser => .ok parser
  | limit + 1, parser =>
    match parser.arguments with
    | [] => .ok parser
    | value :: rest => do
      let parser ← { parser with arguments := rest }.parseArgument value
      parseArguments limit parser

/-! ## What is linked -/

/-- A switch is on; a switch without a value is. -/
def isEnabled : Option String → Bool
  | none => true
  | some value => value ∈ ["y", "yes", "on", "true"]

/-- The debug map leaves out the directory of the outputs. -/
def osoPrefixCoversOutputs : Bool :=
  match parser.outDir <|> parser.explicitOutput.bind Paths.parent with
  | none => false
  | some directory =>
    isAbsolute directory &&
      parser.parsed.any fun argument =>
        match argument with
        | .osoPrefix path _ =>
          isAbsolute path &&
            (Paths.startsWith (normalizeComponents directory) (normalizeComponents path) ||
              match host.canonicalize (normalizeComponents directory), host.canonicalize path with
              | some directory, some path => Paths.startsWith directory path
              | _, _ => false)
        | _ => false

/-- There is one crate type, and it is one of these. -/
def oneCrateType (kinds : List String) : Bool :=
  match parser.crateTypes with
  | [kind] => kind ∈ kinds
  | _ => false

/-- A native link would depend on what the key does not describe, or leave more behind than is
stored. -/
def isUnportable (name : String) (value : Option String) : Bool :=
  if name = "split-debuginfo" then
    if value = some "off" then false
    else if value = some "unpacked" ∧ host.macos then !parser.osoPrefixCoversOutputs host
    else true
  else if name = "debuginfo" then
    host.macos && !decide (value = some "0" ∨ value = some "none") &&
      !parser.osoPrefixCoversOutputs host
  else if name = "rpath" then isEnabled value
  else if name = "prefer-dynamic" then isEnabled value && !parser.oneCrateType ["proc-macro"]
  else name = "link-self-contained"

/-- The codegen option that an argument is, with its value. -/
def codegenOption : Argument → Option (String × Option String)
  | .plain value =>
    if value = "-g" then some ("debuginfo", some "2")
    else (stripPrefix value "--codegen=").map fun option => (optionName option, optionValue option)
  | _ => none

/-- Refuse the first option that a native link is not portable with. -/
def checkNativeLinkIsPortable : Except BypassReason Unit :=
  match (parser.parsed.filterMap codegenOption).find? fun option =>
      parser.isUnportable host option.1 option.2 with
  | some (name, some value) => .error (.unportableNativeLink (name ++ "=" ++ value))
  | some (name, none) => .error (.unportableNativeLink name)
  | none => .ok ()

/-- The compilation links for the host. -/
def linksANativeArtifact : Bool :=
  parser.target = none ∧ parser.emits.any (fun emit => emit.kind = "link") ∧
    ((parser.test ∧ parser.crateTypes = []) ∨ parser.oneCrateType ["bin", "proc-macro"] ∨
      (host.linux ∧ parser.oneCrateType ["cdylib"]))

/-- The keywords for the linker that read no file. -/
def elfKeywords : List String :=
  ["defs", "lazy", "nodelete", "nodlopen", "noexecstack", "norelro", "now", "origin", "relro"]

/-- A keyword for the linker that reads no file. -/
def elfKeywordIsModeled (output : LinkOutput) (value : String) : Bool :=
  host.linux && output.isNative &&
    (stripPrefix value "-Wl,-z,").any fun keyword => keyword ∈ elfKeywords

/-- The texts are equal but for the case of letters. -/
def eqIgnoreAsciiCase (text other : String) : Bool :=
  text.toList.map Char.toLower = other.toList.map Char.toLower

/-- A size, in decimal or hexadecimal digits. -/
def isSize (size : String) : Bool :=
  match stripPrefix size "0x" <|> stripPrefix size "0X" with
  | some hex => hex ≠ "" ∧ hex.toList.all fun c => c.isDigit || c.toLower ∈ "abcdef".toList
  | none => size ≠ "" ∧ size.toList.all Char.isDigit

/-- An option of the linker of Windows that reads no file. -/
def msvcOptionReadsNoFile (option : String) : Bool :=
  match stripPrefix option "/" <|> stripPrefix option "-" with
  | none => false
  | some option =>
    eqIgnoreAsciiCase option "brepro" ||
      match splitOnce option ':' with
      | none => false
      | some (name, sizes) =>
        eqIgnoreAsciiCase name "stack" && (split sizes ',').length ≤ 2 &&
          (split sizes ',').all isSize

/-- The words of a text. -/
def splitAsciiWhitespace (text : String) : List String :=
  ((text.toList.splitOnP fun c => c ∈ [' ', '\t', '\n', '\x0c', '\r']).filter (· ≠ [])).map
    String.ofList

/-- Options of the linker of Windows that read no file. -/
def msvcOptionsAreModeled (output : LinkOutput) (name value : String) : Bool :=
  host.msvc && output.isNative &&
    if name = "link-arg" then msvcOptionReadsNoFile value
    else if name = "link-args" then
      splitAsciiWhitespace value ≠ [] && (splitAsciiWhitespace value).all msvcOptionReadsNoFile
    else false

/-- The first option for the linker that is not modeled. -/
def firstLinkArgument (output : LinkOutput) : Option String :=
  parser.parsed.findSome? fun argument =>
    match argument with
    | .plain value => do
      let option ← stripPrefix value "--codegen="
      let value := (optionValue option).getD ""
      if optionName option ∈ ["link-arg", "link-args"] ∧
          ¬(optionName option = "link-arg" ∧ elfKeywordIsModeled host output value) ∧
          ¬msvcOptionsAreModeled host output (optionName option) value then some option
      else none
    | _ => none

/-- The targets whose linker comes with the compiler. -/
def compilerBundledWasmTargets : List String :=
  ["wasm32-unknown-unknown", "wasm32-wasip1", "wasm32-wasip1-threads", "wasm32-wasip2",
    "wasm32v1-none", "wasm64-unknown-unknown"]

/-- An option turns the files off that come with the compiler. -/
def unbundles : Argument → Bool
  | .plain value =>
    (stripPrefix value "--codegen=link-self-contained=").any fun value =>
      ((split value '=').getLast?.getD "") ∉ ["y", "yes", "on", "true"]
  | _ => false

/-- An option turns the static C library off. -/
def unlinksStaticLibc : Argument → Bool
  | .plain value =>
    (stripPrefix value "--codegen=target-feature=").any fun features =>
      "-crt-static" ∈ split features ','
  | _ => false

/-- What a compilation links, from what it writes and its crate types. -/
def selectLinkOutput : Except BypassReason LinkOutput :=
  let neverLinks := parser.emits.all fun emit => emit.kind ≠ "link"
  let buildsALibrary := !parser.test && parser.crateTypes ≠ [] &&
    parser.crateTypes.all fun crateType => crateType ∈ ["lib", "rlib"]
  if neverLinks || buildsALibrary then .ok .library
  else if parser.target.any (· ∈ compilerBundledWasmTargets) ∧
      ((parser.test ∧ parser.crateTypes = []) ∨ parser.oneCrateType ["bin", "cdylib"]) then
    if parser.parsed.any unbundles then .error (.unknownCodegenOption "link-self-contained")
    else if parser.target.any (fun target => "wasi".toList <:+: target.toList) ∧
        parser.parsed.any unlinksStaticLibc then
      .error (.unknownCodegenOption "target-feature=-crt-static")
    else .ok .wasmExecutable
  else if parser.options.cacheNativeLinks ∧ parser.linksANativeArtifact host then do
    parser.checkNativeLinkIsPortable host
    if parser.oneCrateType ["proc-macro"] then .ok .nativeProcMacro
    else if parser.oneCrateType ["cdylib"] then .ok .nativeSharedLibrary
    else .ok .nativeExecutable
  else if parser.test then .error (.unsupportedCrateType "test")
  else
    .error (.unsupportedCrateType
      ((parser.crateTypes.find? fun crateType => crateType ∉ ["lib", "rlib"]).getD "bin"))

/-- The linker that the arguments select for the driver. -/
def fuseLdArgument : Argument → Option String
  | .fuseLd selection => some selection
  | _ => none

/-- An extern without a file. -/
def unresolvedExtern : Argument → Option String
  | .externCrate name none => if name ≠ "proc_macro" then some name else none
  | _ => none

/-- The argument is a text that starts so. -/
def plainStartsWith (start : String) : Argument → Bool
  | .plain value => Strings.startsWith value start
  | _ => false

/-- What is wrong with the arguments, for what is linked. -/
def linkProblem (output : LinkOutput) : Option BypassReason :=
  let library := output = .library
  let native := output.isNative
  (if library then none else (parser.firstLinkArgument host output).map .unmodeledLinkArgument) <|>
  (if parser.parsed.any (fun argument => argument matches .installName _) ∧
      ¬(host.macos ∧ output = .nativeProcMacro) then
    some (.unmodeledLinkArgument "link-arg=-Wl,-install_name") else none) <|>
  (if library ∨ native then none
    else (parser.parsed.findSome? fuseLdArgument).map fun selection =>
      .unmodeledLinkArgument ("link-arg=-fuse-ld=" ++ selection)) <|>
  (if parser.parsed.any (plainStartsWith "--codegen=linker=") ∧ ¬(library ∨ native) then
    some (.unknownCodegenOption "linker") else none) <|>
  (if ¬library ∧ parser.parsed.any (plainStartsWith "--codegen=linker-flavor=") then
    some (.unknownCodegenOption "linker-flavor") else none) <|>
  (if ¬(library ∨ native) ∧ parser.parsed.any (fun argument => argument matches .osoPrefix _ _) then
    some (.unmodeledLinkArgument "link-arg=-Wl,-oso_prefix") else none) <|>
  (parser.parsed.findSome? unresolvedExtern).map .unresolvedExtern <|>
  ((parser.emits.find? fun emit => emit.kind ∉ ["dep-info", "link", "metadata"]).map fun emit =>
    .unsupportedEmit emit.kind) <|>
  (if parser.emits.any fun emit => emit.kind ∈ ["link", "metadata"] then none
    else some .noCacheableOutput)

/-- What the compilation links, if the cache takes it. -/
def classify : Except BypassReason LinkOutput := do
  let output ← parser.selectLinkOutput host
  match parser.linkProblem host output with
  | some reason => .error reason
  | none => .ok output

/-! ## Native libraries -/

/-- How a target names static libraries. -/
inductive StaticLibraryNaming where
  | msvc
  | unix

/-- How the target names static libraries, unless a specification says so. -/
def staticLibraryNaming : Option StaticLibraryNaming :=
  match parser.target with
  | none => some (if host.msvc ∨ host.uefi then .msvc else .unix)
  | some target =>
    if namesTargetFile target ∨ parser.options.customTargetSearch then none
    else if "msvc".toList <:+: target.toList ∨ endsWith target "-uefi" then some .msvc
    else some .unix

/-- The names that a static library can have. -/
def staticLibraryNames (name : String) (verbatim : Bool) : Option (List String) :=
  if verbatim then some [name]
  else
    match parser.staticLibraryNaming host with
    | some .msvc => some [name ++ ".lib", "lib" ++ name ++ ".a"]
    | some .unix => some ["lib" ++ name ++ ".a"]
    | none => none

/-- The directory to search for native libraries that an argument names. -/
def nativeDirectory : Argument → Option Path
  | .searchPath kind path => if kind = "native" then some path else none
  | _ => none

/-- The first file with one of the names in the directories to search. -/
def findNativeStaticLibrary (names : List String) : Option Path :=
  ((parser.parsed.filterMap nativeDirectory).flatMap fun directory =>
    names.map fun name => join directory (components name)).find? host.isFile

/-- The last of two modifiers, if one is given. -/
def lastModifier (on off : String) (default : Bool) (modifiers : List String) : Bool :=
  modifiers.foldl (fun value modifier =>
    if modifier = on then true else if modifier = off then false else value) default

/-- The file that a native library makes an input, if any. -/
def nativeInput (output : LinkOutput) (library : String) : Except BypassReason (Option Path) :=
  if output ≠ .library then .error (.nativeLibrary library)
  else
    match splitOnce library '=' with
    | none => .ok none
    | some (specified, name) =>
      let kind := ((splitOnce specified ':').map Prod.fst).getD specified
      let modifiers := split (((splitOnce specified ':').map Prod.snd).getD "") ','
      let name := ((splitOnce name ':').map Prod.snd).getD name
      if kind ∈ ["dylib", "framework", "link-arg"] then .ok none
      else if kind ≠ "static" then .error (.unknownFlag ("-l" ++ library))
      else if lastModifier "+bundle" "-bundle" true modifiers = false then .ok none
      else
        match parser.staticLibraryNames host name
            (lastModifier "+verbatim" "-verbatim" false modifiers) with
        | none => .error (.customTargetNativeLibrary library)
        | some names =>
          match parser.findNativeStaticLibrary host names with
          | some archive => .ok (some archive)
          | none => .error (.missingNativeLibrary library)

/-! ## The invocation -/

/-- The width that an argument gives for diagnostics. -/
def diagnosticWidth : Argument → Option String
  | .plain value => stripPrefix value "--diagnostic-width="
  | _ => none

/-- The arguments without the width of diagnostics, if one width is given. -/
def dropUnobservableDiagnosticWidth (parsed : List Argument) : List Argument :=
  match parsed.filterMap diagnosticWidth with
  | [width] =>
    if (parseUsize (Utf8.encode width.toList)).isSome then
      parsed.filter fun argument => diagnosticWidth argument = none
    else parsed
  | _ => parsed

/-- The crate name: the one given, or the one of the source. -/
def selectCrateName (source : Path) : Except BypassReason String :=
  match parser.crateName with
  | some name => .ok name
  | none =>
    match Paths.fileStem source with
    | some stem => .ok (String.ofList (stem.toList.map fun c => if c = '-' then '_' else c))
    | none => .error (.nonUtf8Path source)

/-- The argument selects a sysroot. -/
def isSysroot : Argument → Bool
  | .path flag _ => flag = "--sysroot"
  | _ => false

/-- What is kept of the arguments that were read. -/
def finish : Except BypassReason RustcInvocation :=
  if parser.sysrootBackend.isSome ∧ parser.parsed.any isSysroot then
    .error (.unknownFlag (parser.sysrootBackend.getD ""))
  else match parser.source with
  | none => .error .missingInput
  | some source => do
    let output ← parser.classify host
    let archives ← parser.nativeLibraries.mapM (parser.nativeInput host output)
    let crateName ← parser.selectCrateName source
    .ok {
      arguments := dropUnobservableDiagnosticWidth parser.parsed
      source := source
      requiredInputs := parser.requiredInputs ++ archives.filterMap id ++ [source]
      crateName := crateName
      extraFilename := parser.extraFilename
      outDir := parser.outDir
      explicitOutput := parser.explicitOutput
      emits := parser.emits
      target := parser.target
      linkOutput := output }

/-- Read all arguments. -/
def parse : Except BypassReason RustcInvocation := do
  let parser ← parseArguments parser.arguments.length parser
  parser.finish host

end Parser

namespace RustcInvocation

/-- Parse a command line. -/
def parseWith (host : Host) (arguments : List OsString) (options : ParseOptions) :
    Except BypassReason RustcInvocation := do
  let expanded ← expandResponseFiles host arguments
  Parser.parse host { options := options, arguments := expanded }

variable (invocation : RustcInvocation)

/-- The compilation links for the host. -/
def linksNatively : Bool := invocation.linkOutput.isNative

/-- The linker that an argument selects. -/
def linkerOf : Argument → Option String
  | .plain value => stripPrefix value "--codegen=linker="
  | _ => none

/-- The linker that the arguments select. -/
def linkerOverride : Option String := invocation.arguments.findSome? linkerOf

/-- The linker that the arguments select for the driver. -/
def fuseLd : Option String := invocation.arguments.findSome? Parser.fuseLdArgument

/-- The identity of the linker of a compilation, if it links for the host. The probe of a linker
is a parameter. -/
def linkerFor {ι : Type} (identityFor : Option String → Option String → Except String ι) :
    Except BypassReason (Option ι) :=
  if invocation.linksNatively then
    match identityFor invocation.linkerOverride invocation.fuseLd with
    | .ok identity => .ok (some identity)
    | .error error =>
      .error (.unportableNativeLink ("the linker could not be identified: " ++ error))
  else .ok none

end RustcInvocation

end MrBoxington.Rustc
