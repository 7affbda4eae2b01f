import MrBoxington.BuildScript.Components
import MrBoxington.Lib.Paths

/-!
# The command line of a C compiler

The adapter for compilers of C reads the arguments of the driver. It takes compilations of one
source file, and keeps one language for the whole command line.
-/

namespace MrBoxington.Cc

open BuildScript (components)
open Strings

/-! ## Arguments -/

/-- Why an invocation does not use the cache. -/
inductive CcBypassReason where
  | nonUtf8Argument (index : ℕ)
  | responseFile (file : String)
  | unknownFlag (flag : String)
  | missingValue (flag : String)
  | compilerQuery
  | notACompile
  | nonObjectOutput (flag : String)
  | standardInput
  | missingInput
  | multipleInputs
  | missingOutput
  | unsupportedLanguage (language : String)
  | callerDependencyFlags (flag : String)
  | precompiledHeader (flag : String)
  | coverageInstrumentation (flag : String)
  | splitDebugOutput (flag : String)
  | saveTemps (flag : String)
  | toolPassthrough (flag : String)
  | plugin (flag : String)
  | localCpuTarget (flag : String)
  | assemblerInputDirective (path : String)
  | inputRead (path message : String)
  | malformedDepfile (message : String)
deriving DecidableEq

/-- The language of a source. -/
inductive CcLanguage where
  | c
  | cxx
deriving DecidableEq

/-- The drivers with the flags of GCC. -/
inductive CcCompilerFamily where
  | gcc
  | clang
  | appleClang
deriving DecidableEq

/-- An argument as the adapter keeps it. Paths are kept as they are written. -/
inductive Argument where
  | plain (value : String)
  | path (flag path : String)
  | prefixMap (flag source target : String)
  | source (path : String)
deriving DecidableEq

/-- A target of a dependency rule. -/
structure DepfileTarget where
  name : String
  quoted : Bool
deriving DecidableEq

/-- A list of dependencies that the caller asked for. -/
structure CallerDepfile where
  path : Paths.Path
  targets : List DepfileTarget
  userHeadersOnly : Bool
  phonyTargets : Bool
deriving DecidableEq

/-- What the adapter keeps of a command line. -/
structure CcInvocation where
  arguments : List Argument
  source : String
  output : String
  includeDirs : List String
  requiredInputs : List String
  language : CcLanguage
  /-- The preprocessor runs on the source, and an assembler on what it writes. -/
  preprocessedAssembly : Bool
  preprocessingArguments : Option (List String)
  sysroot : Option String
  callerDepfile : Option CallerDepfile
  dependencyArgumentIndices : List ℕ
deriving DecidableEq

/-- What the flags for dependencies asked for. -/
structure DependencyRequest where
  userHeadersOnly : Option Bool := none
  file : Option String := none
  targets : List DepfileTarget := []
  phonyTargets : Bool := false
  modifier : Option String := none
  indices : List ℕ := []

/-- The names behind `-f` that are kept as they are. -/
def supportedFFlags : List String :=
  ["PIC", "PIE", "asynchronous-unwind-tables", "cf-protection", "color-diagnostics",
    "data-sections", "diagnostics-color", "exceptions", "fast-math", "finite-math-only",
    "function-sections", "lto", "math-errno", "merge-all-constants",
    "no-asynchronous-unwind-tables", "no-builtin", "no-common", "no-exceptions", "no-fast-math",
    "no-finite-math-only", "no-lto", "no-math-errno", "no-omit-frame-pointer", "no-plt",
    "no-reciprocal-math", "no-rtti", "no-semantic-interposition", "no-stack-protector",
    "no-strict-aliasing", "no-tree-vectorize", "no-unroll-loops", "no-unwind-tables",
    "omit-frame-pointer", "pic", "pie", "reciprocal-math", "rtti",
    "sanitize-undefined-strip-path-components", "short-enums", "signed-char",
    "stack-clash-protection", "stack-protector", "stack-protector-all", "stack-protector-strong",
    "strict-aliasing", "tls-model", "tree-vectorize", "unroll-loops", "unsigned-char",
    "unwind-tables", "visibility", "visibility-inlines-hidden", "wrapv"]

/-- The names behind `-m` that are kept as they are. -/
def supportedMFlags : List String :=
  ["32", "64", "adx", "aes", "arch", "arm", "avx", "avx2", "avx512bf16", "avx512bitalg",
    "avx512bw", "avx512cd", "avx512dq", "avx512f", "avx512fp16", "avx512ifma", "avx512vbmi",
    "avx512vbmi2", "avx512vl", "avx512vnni", "avx512vpopcntdq", "avxvnni", "bmi", "bmi2", "cpu",
    "crc", "crypto", "dotprod", "f16c", "float-abi", "fma", "fpu", "gfni",
    "iphoneos-version-min", "lse", "lzcnt", "macosx-version-min", "movbe", "no-avx", "no-avx2",
    "no-avx512f", "no-omit-leaf-frame-pointer", "no-outline-atomics", "no-red-zone", "no-sse",
    "no-sse2", "omit-leaf-frame-pointer", "outline-atomics", "pclmul", "popcnt", "rdrnd",
    "rdseed", "red-zone", "sha", "sha512", "soft-float", "sse", "sse2", "sse3", "sse4.1",
    "sse4.2", "sse4a", "ssse3", "sve", "sve2", "thumb", "tune", "vaes", "vpclmulqdq", "xsave",
    "xsavec", "xsaveopt", "xsaves"]

/-- The optimization flags. -/
def supportedOFlags : List String :=
  ["-O", "-O0", "-O1", "-O2", "-O3", "-Ofast", "-Og", "-Os", "-Oz"]

/-- The debug flags. -/
def supportedGFlags : List String :=
  ["-g", "-g0", "-g1", "-g2", "-g3", "-gdwarf-2", "-gdwarf-3", "-gdwarf-4", "-gdwarf-5",
    "-gfull", "-ggdb", "-ggdb0", "-ggdb1", "-ggdb2", "-ggdb3"]

/-- Other flags without a value. -/
def supportedBareFlags : List String :=
  ["-P", "-ansi", "-nostdinc", "-nostdinc++", "-pedantic", "-pedantic-errors", "-pipe",
    "-pthread", "-w"]

/-- The flags whose path is the next argument. -/
def separatePathFlags : List String :=
  ["-idirafter", "-imacros", "-include", "-iquote", "-isysroot", "-isystem"]

/-- The flags whose value is for another tool. -/
def toolPassthroughFlags : List String :=
  ["-Xassembler", "-Xclang", "-Xlinker", "-Xpreprocessor"]

/-- The options for the assembler that read no file. -/
def supportedAssemblerOptions : List String :=
  ["--noexecstack"]

/-- The flags that ask the driver about itself. -/
def compilerQueryFlags : List String :=
  ["--help", "--version", "-###", "-?", "-dumpmachine", "-dumpversion", "-v"]

/-- The flags that write a directory as another. -/
def prefixMapFlags : List String :=
  ["-fdebug-prefix-map", "-ffile-prefix-map", "-fmacro-prefix-map"]

/-! ## State of the parser -/

/-- The parser, with the arguments it has not read. -/
structure Parser where
  family : CcCompilerFamily
  arguments : List OsString
  index : ℕ := 0
  parsed : List Argument := []
  source : Option String := none
  output : Option String := none
  includeDirs : List String := []
  requiredInputs : List String := []
  sysroot : Option String := none
  explicitLanguage : Option CcLanguage := none
  preprocessedAssembly : Bool := false
  compiling : Bool := false
  preprocessing : Bool := false
  dependency : DependencyRequest := {}

namespace Parser

variable (parser : Parser)

/-- Keep an argument. -/
def push (argument : Argument) : Parser := { parser with parsed := parser.parsed ++ [argument] }

/-- The next argument. -/
def next (missing : CcBypassReason) : Except CcBypassReason (String × Parser) :=
  match parser.arguments with
  | [] => .error missing
  | .other _ :: _ => .error (.nonUtf8Argument parser.index)
  | .utf8 value :: rest =>
    .ok (value, { parser with arguments := rest, index := parser.index + 1 })

/-- The value of a flag: the rest of its argument, or the next argument. -/
def takeValue (flag attached : String) : Except CcBypassReason (String × Parser) :=
  if attached = "" then parser.next (.missingValue flag) else .ok (attached, parser)

/-! ## Flags -/

/-- The arguments from the start of a flag belong to a request for dependencies. -/
def requested (start : ℕ) : Parser :=
  { parser with dependency := { parser.dependency with
    indices := parser.dependency.indices ++ (List.range parser.index).drop start } }

/-- A flag names a target of the dependency rule. -/
def addTarget (flag : String) (target : DepfileTarget) : Parser :=
  { parser with dependency := { parser.dependency with
    targets := parser.dependency.targets ++ [target], modifier := some flag } }

/-- A flag for dependencies. -/
def parseDependencyFlag (value option : String) : Except CcBypassReason Parser :=
  let start := parser.index - 1
  if option = "D" then
    .ok (requested { parser with dependency :=
      { parser.dependency with userHeadersOnly := some false } } start)
  else if option = "MD" then
    .ok (requested { parser with dependency :=
      { parser.dependency with userHeadersOnly := some true } } start)
  else if option = "P" then
    .ok (requested { parser with dependency :=
      { parser.dependency with phonyTargets := true, modifier := some value } } start)
  else
    match stripPrefix option "F" with
    | some attached => do
      let (file, parser) ← parser.takeValue "-MF" attached
      .ok (requested { parser with dependency :=
        { parser.dependency with file := some file, modifier := some "-MF" } } start)
    | none =>
      match stripPrefix option "T" with
      | some attached => do
        let (name, parser) ← parser.takeValue "-MT" attached
        .ok ((parser.addTarget "-MT" ⟨name, false⟩).requested start)
      | none =>
        match stripPrefix option "Q" with
        | some attached => do
          let (name, parser) ← parser.takeValue "-MQ" attached
          .ok ((parser.addTarget "-MQ" ⟨name, true⟩).requested start)
        | none => .error (.callerDependencyFlags value)

/-- The name of an option: what is before its value. -/
def optionName (option : String) : String := ((splitOnce option '=').map Prod.fst).getD option

/-- A flag of code generation. -/
def parseFFlag (value option : String) : Except CcBypassReason Parser :=
  if startsWith option "plugin" ∨ startsWith option "pass-plugin" then .error (.plugin value)
  else if startsWith option "profile-" ∨ option = "test-coverage" then
    .error (.coverageInstrumentation value)
  else if optionName option ∈ supportedFFlags then .ok (parser.push (.plain value))
  else .error (.unknownFlag value)

/-- The option takes its value from the processor of this machine. -/
def isLocalCpu (option : String) : Bool :=
  (splitOnce option '=').any fun selection =>
    selection.1 ∈ ["arch", "cpu", "tune"] ∧ selection.2 ∈ ["native", "host"]

/-- A flag for the machine. -/
def parseMFlag (value option : String) : Except CcBypassReason Parser :=
  if option = "llvm" then .error (.toolPassthrough value)
  else if isLocalCpu option then .error (.localCpuTarget value)
  else if optionName option ∈ supportedMFlags then .ok (parser.push (.plain value))
  else .error (.unknownFlag value)

/-- The language that a flag names, with whether it is preprocessed assembly. -/
def languageOf (name : String) : Option (CcLanguage × Bool) :=
  if name = "c" then some (.c, false)
  else if name = "assembler-with-cpp" then some (.c, true)
  else if name = "c++" then some (.cxx, false)
  else none

/-- The flag for the language. -/
def parseLanguage (attached : String) : Except CcBypassReason Parser := do
  let (name, parser) ← parser.takeValue "-x" attached
  match languageOf name with
  | none => .error (.unsupportedLanguage name)
  | some (language, assembly) =>
    .ok ({ parser with
      explicitLanguage := some language
      preprocessedAssembly := parser.preprocessedAssembly || assembly
    }.push (.plain ("-x" ++ name)))

/-- The flags that are kept with the value that follows, by the text that is kept. -/
def separateTextFlags : List (String × String) :=
  [("--param", "--param="), ("-target", "--target="), ("-arch", "-arch=")]

/-- A flag that is none of the others. -/
def parseLastFlag (value : String) : Except CcBypassReason Parser :=
  match stripPrefix value "-f" with
  | some option => parser.parseFFlag value option
  | none =>
    match stripPrefix value "-m" with
    | some option => parser.parseMFlag value option
    | none =>
      if startsWith value "-gsplit-dwarf" then .error (.splitDebugOutput value)
      else if startsWith value "-g" then .error (.unknownFlag value)
      else if startsWith value "-W" then .ok (parser.push (.plain value))
      else .error (.unknownFlag value)

/-- A definition, with the flag that starts it. -/
def parseDefinition (flag attached : String) : Except CcBypassReason Parser := do
  let (definition, parser) ← parser.takeValue flag attached
  .ok (parser.push (.plain (flag ++ definition)))

/-- A flag for a language, a definition or a target, or one of those after them. -/
def parseTextFlag (value : String) : Except CcBypassReason Parser :=
  match separateTextFlags.lookup value with
  | some kept => do
    let (text, parser) ← parser.takeValue value ""
    .ok (parser.push (.plain (kept ++ text)))
  | none =>
    if startsWith value "--param=" ∨ startsWith value "--target=" then
      .ok (parser.push (.plain value))
    else
      match stripPrefix value "-D" with
      | some attached => parser.parseDefinition "-D" attached
      | none =>
        match stripPrefix value "-U" with
        | some attached => parser.parseDefinition "-U" attached
        | none =>
          match stripPrefix value "-x" with
          | some attached => parser.parseLanguage attached
          | none => parser.parseLastFlag value

/-- What a flag with a path in the next argument adds. -/
def addSeparatePath (flag path : String) : Parser :=
  let parser := parser.push (.path flag path)
  if flag ∈ ["-isystem", "-iquote", "-idirafter"] then
    { parser with includeDirs := parser.includeDirs ++ [path] }
  else if flag = "-isysroot" then { parser with sysroot := some path }
  else parser

/-- The directories that a flag maps to each other. -/
def prefixMapOf (value : String) : Option Argument :=
  prefixMapFlags.findSome? fun flag => (stripPrefix value (flag ++ "=")).map fun rest =>
    match splitOnce rest '=' with
    | some (source, target) => .prefixMap flag source target
    | none => .prefixMap flag rest ""

/-- A flag with a path behind an equals sign, or one of those after them. -/
def parseInlinePathFlag (value : String) : Except CcBypassReason Parser :=
  match stripPrefix value "--include=" with
  | some path => .ok (parser.push (.path "-include" path))
  | none =>
    match prefixMapOf value with
    | some argument => .ok (parser.push argument)
    | none =>
      match stripPrefix value "--sysroot=" with
      | some path => .ok ({ parser with sysroot := some path }.push (.path "--sysroot" path))
      | none => parser.parseTextFlag value

/-- A flag with a path, or one of those after them. -/
def parsePathFlag (value : String) : Except CcBypassReason Parser :=
  match stripPrefix value "-o" with
  | some attached => do
    let (path, parser) ← parser.takeValue "-o" attached
    .ok ({ parser with output := some path }.push (.path "-o" path))
  | none =>
    match stripPrefix value "-I" with
    | some attached => do
      let (path, parser) ← parser.takeValue "-I" attached
      .ok ({ parser with includeDirs := parser.includeDirs ++ [path] }.push (.path "-I" path))
    | none =>
      if value ∈ separatePathFlags then do
        let (path, parser) ← parser.takeValue value ""
        .ok (parser.addSeparatePath value path)
      else parser.parseInlinePathFlag value

/-- The value is passed to another tool. -/
def passesThrough (value : String) : Bool :=
  value ∈ toolPassthroughFlags ∨ startsWith value "-Wp," ∨ startsWith value "-Wa," ∨
    startsWith value "-Wl,"

/-- The options for the assembler read no file. -/
def isPlainAssemblerFlag (value : String) : Bool :=
  (stripPrefix value "-Wa,").any fun options =>
    options ≠ "" ∧ (split options ',').all fun option => option ∈ supportedAssemblerOptions

/-- A flag without a value that is kept as it is. -/
def isBareFlag (value : String) : Bool :=
  value ∈ supportedBareFlags ∨ value ∈ supportedOFlags ∨ value ∈ supportedGFlags ∨
    startsWith value "-std="

/-- What is wrong with a flag that is not modeled. -/
def flagProblem (value : String) : Option CcBypassReason :=
  if startsWith value "-save-temps" then some (.saveTemps value)
  else if value = "--coverage" then some (.coverageInstrumentation value)
  else none

/-- What is wrong with a flag that is meant for another tool. -/
def toolProblem (value : String) : Option CcBypassReason :=
  if passesThrough value then some (.toolPassthrough value)
  else if startsWith value "-include-pch" ∨ value = "-emit-pch" then some (.precompiledHeader value)
  else none

/-- A flag that does not ask for dependencies. -/
def parsePlainFlag (value : String) : Except CcBypassReason Parser :=
  match flagProblem value with
  | some problem => .error problem
  | none =>
    if isPlainAssemblerFlag value then .ok (parser.push (.plain value))
    else
      match toolProblem value with
      | some problem => .error problem
      | none =>
        if value = "-c" then .ok ({ parser with compiling := true }.push (.plain value))
        else if isBareFlag value then .ok (parser.push (.plain value))
        else parser.parsePathFlag value

/-- A flag. -/
def parseFlag (value : String) : Except CcBypassReason Parser :=
  if value ∈ compilerQueryFlags ∨ startsWith value "-print" then .error .compilerQuery
  else if value = "-E" then .ok ({ parser with preprocessing := true }.push (.plain value))
  else if value = "-S" then .error (.nonObjectOutput value)
  else
    match stripPrefix value "-M" with
    | some option => parser.parseDependencyFlag value option
    | none => parser.parsePlainFlag value

/-! ## The loop -/

/-- The extension of the file that a text names. -/
def extensionOf (path : String) : String := (Paths.extension (components path)).getD ""

/-- The extensions of sources. -/
def sourceExtensions : List String := ["c", "S", "cc", "cpp", "cxx", "c++"]

/-- An argument that is no flag is the source. -/
def parseInput (value : String) : Except CcBypassReason Parser :=
  if parser.source.isSome then .error .multipleInputs
  else if parser.explicitLanguage = none ∧ extensionOf value ∉ sourceExtensions then
    .error (.unsupportedLanguage value)
  else .ok ({ parser with source := some value }.push (.source value))

/-- One argument. -/
def parseArgument (value : String) : Except CcBypassReason Parser :=
  if value = "-" then .error .standardInput
  else
    match stripPrefix value "@" with
    | some argfile => .error (.responseFile argfile)
    | none => if startsWith value "-" then parser.parseFlag value else parser.parseInput value

/-- Read at most so many arguments. -/
def parseArguments : ℕ → Parser → Except CcBypassReason Parser
  | 0, parser => .ok parser
  | limit + 1, parser =>
    if parser.arguments = [] then .ok parser
    else do
      let (value, parser) ← parser.next .missingInput
      let parser ← parser.parseArgument value
      parseArguments limit parser

/-- The language of the source: the one that was named, or the one of its extension. -/
def language (source : String) : Except CcBypassReason CcLanguage :=
  match parser.explicitLanguage with
  | some language => .ok language
  | none =>
    if extensionOf source ∈ ["c", "S"] then .ok .c
    else if extensionOf source ∈ ["cc", "cpp", "cxx", "c++"] then .ok .cxx
    else .error (.unsupportedLanguage source)

/-- What the flags for dependencies and the output do not allow. -/
def outputProblem (output : String) : Option CcBypassReason :=
  if parser.preprocessing ∧ components output = components "-" then
    some (.nonObjectOutput "-E -o -")
  else if parser.preprocessing ∧ parser.dependency.userHeadersOnly.isSome ∧
      parser.dependency.file = none then
    some (.callerDependencyFlags "-E -MD/-MMD without -MF")
  else if parser.preprocessing ∧ parser.dependency.file.map components = some (components "-") then
    some (.callerDependencyFlags "-E -MF -")
  else none

/-- The target of a dependency rule, if the caller names none. -/
def defaultTarget (source output : String) : Except CcBypassReason DepfileTarget :=
  if parser.preprocessing ∧ parser.family = .gcc then
    match Paths.fileName (components source) with
    | some name => .ok ⟨(Paths.rsplitAtDot name).1 ++ ".o", true⟩
    | none => .error .missingInput
  else .ok ⟨output, true⟩

/-- The list of dependencies that the caller asked for. -/
def callerDepfile (source output : String) : Except CcBypassReason (Option CallerDepfile) :=
  match parser.dependency.userHeadersOnly with
  | none =>
    match parser.dependency.modifier with
    | some modifier => .error (.callerDependencyFlags modifier)
    | none => .ok none
  | some userHeadersOnly => do
    let path := (parser.dependency.file.map components).getD
      (Paths.withExtension (components output) "d")
    let targets ← if parser.dependency.targets = [] then
        (parser.defaultTarget source output).map fun target => [target]
      else .ok parser.dependency.targets
    .ok (some ⟨path, targets, userHeadersOnly, parser.dependency.phonyTargets⟩)

/-- The texts of all arguments. -/
def texts (arguments : List OsString) : List String :=
  arguments.filterMap fun argument =>
    match argument with
    | .utf8 text => some text
    | .other _ => none

/-- What is kept of the arguments that were read, with the source and the output. -/
def finishWith (arguments : List OsString) (source output : String) :
    Except CcBypassReason CcInvocation :=
  match parser.outputProblem output with
  | some problem => .error problem
  | none => do
    let language ← parser.language source
    let depfile ← parser.callerDepfile source output
    .ok {
      arguments := parser.parsed
      source := source
      output := output
      includeDirs := parser.includeDirs
      requiredInputs := parser.requiredInputs ++ [source]
      language := language
      preprocessedAssembly := parser.preprocessedAssembly ||
        (parser.explicitLanguage.isNone && extensionOf source = "S")
      preprocessingArguments := if parser.preprocessing then some (texts arguments) else none
      sysroot := parser.sysroot
      callerDepfile := depfile
      dependencyArgumentIndices := parser.dependency.indices }

/-- What is kept of the arguments that were read. -/
def finish (arguments : List OsString) : Except CcBypassReason CcInvocation :=
  if parser.compiling = false ∧ parser.preprocessing = false then .error .notACompile
  else
    match parser.source with
    | none => .error .missingInput
    | some source =>
      match parser.output with
      | none => .error .missingOutput
      | some output => parser.finishWith arguments source output

end Parser

namespace CcInvocation

/-- Parse a command line of a driver with the flags of GCC. -/
def parseFor (arguments : List OsString) (family : CcCompilerFamily) :
    Except CcBypassReason CcInvocation := do
  let parser ← Parser.parseArguments arguments.length { family := family, arguments := arguments }
  parser.finish arguments

/-- Refuse assembly that reads files which the preprocessor does not report. The search for the
directives in a file is a parameter. -/
def validateDiscoveredInputs (invocation : CcInvocation)
    (containsAssemblerInputDirective : String → Except CcBypassReason Bool) :
    List String → Except CcBypassReason Unit
  | [] => .ok ()
  | path :: rest =>
    if invocation.preprocessedAssembly = false then .ok ()
    else do
      let found ← containsAssemblerInputDirective path
      if found then .error (.assemblerInputDirective path)
      else validateDiscoveredInputs invocation containsAssemblerInputDirective rest

end CcInvocation

end MrBoxington.Cc
