import MrBoxington.Lib.Octets
import MrBoxington.Lib.Strings

/-!
# The archive date of a build script

Archives carry the time they were made unless `ZERO_AR_DATE` is set. `ar.rs` decides
whether a build script gets the variable, `build_script.rs` sets it, and the cache key of
the script has a spelling of the value that the script will see. The decision and the
key are computed apart from each other, from the same environment.
-/

namespace MrBoxington.BuildScript

open Strings (OsString)

/-- The variables of a process. -/
abbrev Environment := String → Option OsString

/-- `std::env::var`: a variable with a value in UTF-8. -/
def Environment.var (env : Environment) (name : String) : Option String :=
  match env name with
  | some (.utf8 value) => some value
  | _ => none

def arDeterminismEnv : String := "MBX_AR_DETERMINISM"

/-- Cargo sets it to the name of the profile. -/
def profileEnv : String := "PROFILE"

/-- The variable that keeps the time out of archives. -/
def zeroArDate : String := "ZERO_AR_DATE"

/-- The shim finds its own path in it, which is not for the script. -/
def buildScriptShimPathEnv : String := "MBX_BUILD_SCRIPT_SHIM_PATH"

/-- When archives get no time. -/
inductive ArDeterminism where
  | auto
  | always
  | off
deriving DecidableEq

/-- Any other spelling is `auto`. -/
def ArDeterminism.parse (value : String) : ArDeterminism :=
  if value = "always" then .always
  else if value = "off" then .off
  else .auto

/-- The policy of the session; the default is `auto`. -/
def arMode (env : Environment) : ArDeterminism := (env.var arDeterminismEnv).elim .auto .parse

def arProfile (env : Environment) : Option String := env.var profileEnv

/-- Whether the variable is set for a build script. A value that was inherited stays. -/
def normalizes (mode : ArDeterminism) (profile : Option String) (alreadySet : Bool) : Bool :=
  if alreadySet then false
  else
    match mode with
    | .off => false
    | .always => true
    | .auto => decide (profile ≠ some "release")

/-- A value of the variable in a cache key. -/
def keyFor : OsString → String
  | .utf8 text => "text:" ++ text
  | .other bytes => "bytes:" ++ String.ofList (Octets.hexEncode bytes)

/-- The key of the value that a script will see. -/
def effectiveZeroArDate (mode : ArDeterminism) (profile : Option String)
    (inherited : Option OsString) : Option String :=
  match inherited with
  | some value => some (keyFor value)
  | none => if normalizes mode profile false then some (keyFor (.utf8 "1")) else none

def archiveTimestampKey (env : Environment) : Option String :=
  effectiveZeroArDate (arMode env) (arProfile env) (env zeroArDate)

/-- The policy is read from the environment of the shim and applied to that of the command. -/
def applyArDeterminism (env command : Environment) : Environment :=
  if normalizes (arMode env) (arProfile env) (env zeroArDate).isSome then
    Function.update command zeroArDate (some (.utf8 "1"))
  else command

/-- The environment that `run` and `run_real` start the script in. -/
def scriptEnvironment (env : Environment) : Environment :=
  applyArDeterminism env (Function.update env buildScriptShimPathEnv none)

/-- Values with one spelling are one value: the tags keep text from looking like bytes. -/
theorem keyFor_injective : Function.Injective keyFor := by
  -- the tags differ in their first character
  have htags : ∀ (text : String) (digits : List Char),
      "text:" ++ text ≠ "bytes:" ++ String.ofList digits := by
    intro text digits heq
    have hlist := congrArg String.toList heq
    rw [String.toList_append, String.toList_append] at hlist
    exact absurd (List.cons.inj hlist).1 (by decide)
  intro value other heq
  cases value with
  | utf8 text =>
    cases other with
    | utf8 otherText => exact congrArg OsString.utf8 (Strings.append_left_cancel heq)
    | other bytes => exact absurd heq (htags _ _)
  | other bytes =>
    cases other with
    | utf8 text => exact absurd heq.symm (htags _ _)
    | other otherBytes =>
      have hdigits := String.ofList_injective (Strings.append_left_cancel heq)
      have hbytes := congrArg Octets.hexDecode hdigits
      rw [Octets.hexDecode_hexEncode, Octets.hexDecode_hexEncode, Option.some.injEq] at hbytes
      exact congrArg OsString.other hbytes

/-- The key spells the value that the script will see. -/
theorem archiveTimestampKey_eq (env : Environment) :
    archiveTimestampKey env = (scriptEnvironment env zeroArDate).map keyFor := by
  have hkept : Function.update env buildScriptShimPathEnv none zeroArDate = env zeroArDate :=
    Function.update_of_ne (by decide) _ _
  unfold archiveTimestampKey effectiveZeroArDate scriptEnvironment applyArDeterminism
  cases hinherited : env zeroArDate with
  | some value => simp [normalizes, hkept, hinherited]
  | none =>
    by_cases hset : normalizes (arMode env) (arProfile env) false = true <;>
      simp [hset, hkept, hinherited]

/-- Two runs of build scripts have one archive key exactly if the scripts see one value of
`ZERO_AR_DATE`, whatever the policies, profiles and inherited values that led to it. A value that
was inherited and every other variable reach the script as they were, but for the path of the
shim, which no script sees. -/
theorem archive_key_eq_iff (env other : Environment) :
    (archiveTimestampKey env = archiveTimestampKey other ↔
      scriptEnvironment env zeroArDate = scriptEnvironment other zeroArDate) ∧
    scriptEnvironment env buildScriptShimPathEnv = none ∧
    ∀ name, name ≠ buildScriptShimPathEnv → (name ≠ zeroArDate ∨ (env name).isSome = true) →
      scriptEnvironment env name = env name := by
  refine ⟨?_, ?_, ?_⟩
  · rw [archiveTimestampKey_eq, archiveTimestampKey_eq]
    exact (Option.map_injective keyFor_injective).eq_iff
  · unfold scriptEnvironment applyArDeterminism
    split
    · exact (Function.update_of_ne (by decide) _ _).trans (Function.update_self _ _ _)
    · exact Function.update_self _ _ _
  · intro name hshim hname
    have hkept : Function.update env buildScriptShimPathEnv none name = env name :=
      Function.update_of_ne hshim _ _
    unfold scriptEnvironment applyArDeterminism
    split
    · rename_i hnormalizes
      have hother : name ≠ zeroArDate := by
        rintro rfl
        simp [normalizes, hname.resolve_left (fun hne => hne rfl)] at hnormalizes
      rw [Function.update_of_ne hother, hkept]
    · exact hkept

end MrBoxington.BuildScript
