import MrBoxington.Cc.Language
import MrBoxington.Lib.Places

/-!
# The command line without requests for dependencies

The compiler is run with the arguments of the caller, less those that ask for a list of
dependencies. The parser keeps the places of these while it reads. What an argument is depends on
those before it, since a value may look like a flag.
-/

namespace MrBoxington.Cc

open Fallible (bind_ok)
open Places (keepFrom)
open Strings

/-- The arguments to run the compiler with. -/
def CcInvocation.compilerArguments (invocation : CcInvocation) (arguments : List OsString) :
    List OsString :=
  (arguments.zipIdx.filter fun item => item.2 ∉ invocation.dependencyArgumentIndices).map Prod.fst

/-- The command line without the flags for dependencies and their values, as a driver reads it:
flag by flag, each with its value. -/
def withoutDependencyFlags : List OsString → List OsString
  | [] => []
  | .other bytes :: rest => .other bytes :: withoutDependencyFlags rest
  | .utf8 text :: rest =>
    if takesNext text then
      match rest with
      | [] => if isDependencyFlag text then [] else [.utf8 text]
      | value :: rest =>
        if isDependencyFlag text then withoutDependencyFlags rest
        else .utf8 text :: value :: withoutDependencyFlags rest
    else if isDependencyFlag text then withoutDependencyFlags rest
    else .utf8 text :: withoutDependencyFlags rest

variable {parser parser' taken : Parser} {text value : String} {original read : List OsString}

/-- The parser has read these arguments and knows which of them to leave out. -/
structure Progress (original read : List OsString) (parser : Parser) : Prop where
  whole : original = read ++ parser.arguments
  index : parser.index = read.length
  bounded (place : ℕ) (hplace : place ∈ parser.dependency.indices) : place < read.length
  kept : withoutDependencyFlags original =
    keepFrom parser.dependency.indices 0 read ++ withoutDependencyFlags parser.arguments

private theorem Reads.values (hreads : Reads parser text taken) :
    ∃ values : List OsString, parser.arguments = values ++ taken.arguments ∧
      taken.index = parser.index + values.length ∧
      withoutDependencyFlags (.utf8 text :: parser.arguments) =
        (if isDependencyFlag text then [] else .utf8 text :: values) ++
          withoutDependencyFlags taken.arguments := by
  cases htakes : takesNext text with
  | true =>
    obtain ⟨value, hnext⟩ := hreads.next htakes
    refine ⟨[.utf8 value], hnext.arguments, hnext.index, ?_⟩
    rw [hnext.arguments, withoutDependencyFlags, if_pos htakes]
    split <;> rfl
  | false =>
    obtain ⟨harguments, hindex⟩ := hreads.alone htakes
    refine ⟨[], harguments.symm, hindex, ?_⟩
    rw [harguments, withoutDependencyFlags.eq_def]
    simp only [htakes]
    cases isDependencyFlag text <;> rfl

private theorem Progress.step (hprogress : Progress original read parser)
    (hnext : ReadsNext parser value taken) (hsilent : Silent parser taken)
    (hparses : Parses taken value parser') : ∃ read', Progress original read' parser' := by
  have hkept : keepFrom parser.dependency.indices 0 read ++
      withoutDependencyFlags (.utf8 value :: taken.arguments) =
        withoutDependencyFlags original := by
    rw [hprogress.kept, hnext.arguments]
  have hindex : taken.index = read.length + 1 := by rw [hnext.index, hprogress.index]
  cases hparses with
  | plain hflag hreads =>
    obtain ⟨values, harguments, hcount, hwithout⟩ := hreads.values
    have hindices : parser'.dependency.indices = parser.dependency.indices := by
      rw [hreads.dependency, hsilent.dependency]
    refine ⟨read ++ .utf8 value :: values, ?_, ?_, fun place hplace => ?_, ?_⟩
    · rw [hprogress.whole, hnext.arguments, harguments, List.append_assoc, List.cons_append]
    · rw [hcount, hindex, List.length_append, List.length_cons]
      omega
    · rw [hindices] at hplace
      have := hprogress.bounded place hplace
      rw [List.length_append]
      omega
    · have hall : keepFrom parser.dependency.indices (0 + read.length) (.utf8 value :: values) =
          .utf8 value :: values := by
        refine Places.keepFrom_eq_self fun place hle _ hmem => ?_
        have := hprogress.bounded place hmem
        omega
      rw [← hkept, hwithout, hflag, hindices, Places.keepFrom_append, hall, List.append_assoc]
      rfl
  | @request reached hflag hreads hrequests =>
    obtain ⟨values, harguments, hcount, hwithout⟩ := hreads.values
    have hindices : parser'.dependency.indices = parser.dependency.indices ++
        (List.range (read.length + 1 + values.length)).drop read.length := by
      rw [hrequests.indices, hreads.dependency, hsilent.dependency, hcount, hindex]
      rfl
    refine ⟨read ++ .utf8 value :: values, ?_, ?_, fun place hplace => ?_, ?_⟩
    · rw [hprogress.whole, hnext.arguments, harguments, hrequests.arguments, List.append_assoc,
        List.cons_append]
    · rw [hrequests.index, hcount, hindex, List.length_append, List.length_cons]
      omega
    · rw [List.length_append, List.length_cons]
      rw [hindices, List.mem_append, Places.mem_drop_range] at hplace
      rcases hplace with hplace | hplace
      · have := hprogress.bounded place hplace
        omega
      · omega
    · have hsame : keepFrom parser'.dependency.indices 0 read =
          keepFrom parser.dependency.indices 0 read := by
        refine Places.keepFrom_congr fun place _ hlt => ?_
        rw [hindices, List.mem_append, Places.mem_drop_range, or_iff_left]
        omega
      have hnone : keepFrom parser'.dependency.indices (0 + read.length) (.utf8 value :: values) =
          [] := by
        refine Places.keepFrom_eq_nil fun place hle hlt => ?_
        rw [hindices, List.mem_append, Places.mem_drop_range]
        rw [List.length_cons] at hlt
        omega
      rw [← hkept, hwithout, hflag, Places.keepFrom_append, hsame, hnone, hrequests.arguments,
        List.append_nil]
      rfl

private theorem Progress.run {limit : ℕ} (hlimit : parser.arguments.length ≤ limit)
    (hprogress : Progress original read parser)
    (hparse : Parser.parseArguments limit parser = .ok parser') :
    Progress original original parser' := by
  have hdone {parser : Parser} {read : List OsString} (harguments : parser.arguments = [])
      (hprogress : Progress original read parser) : Progress original original parser := by
    have hread : original = read := by rw [hprogress.whole, harguments, List.append_nil]
    rwa [← hread] at hprogress
  induction limit generalizing parser read with
  | zero =>
    cases hparse
    exact hdone (List.length_eq_zero_iff.mp (Nat.le_zero.mp hlimit)) hprogress
  | succ limit ih =>
    rw [Parser.parseArguments] at hparse
    split at hparse
    · rename_i harguments
      cases hparse
      exact hdone harguments hprogress
    · obtain ⟨⟨value, taken⟩, hnext, hparse⟩ := bind_ok hparse
      obtain ⟨after, hargument, hrest⟩ := bind_ok hparse
      obtain ⟨hread, hsilent⟩ := next_ok hnext
      have hparses := parseArgument_parses hargument
      obtain ⟨read', hstep⟩ := hprogress.step hread hsilent hparses
      rw [hread.arguments, List.length_cons] at hlimit
      exact ih (by have := hparses.length; omega) hstep hrest

private theorem finish_indices {arguments : List OsString} {invocation : CcInvocation}
    (hfinish : parser.finish arguments = .ok invocation) :
    invocation.dependencyArgumentIndices = parser.dependency.indices := by
  unfold Parser.finish at hfinish
  split at hfinish
  · cases hfinish
  split at hfinish
  · cases hfinish
  split at hfinish
  · cases hfinish
  unfold Parser.finishWith at hfinish
  split at hfinish
  · cases hfinish
  obtain ⟨language, -, hfinish⟩ := bind_ok hfinish
  obtain ⟨depfile, -, hfinish⟩ := bind_ok hfinish
  cases hfinish
  rfl

/-- The compiler is run with the command line of the caller without the flags for dependencies
and their values. -/
theorem compilerArguments_eq {arguments : List OsString} {family : CcCompilerFamily}
    {invocation : CcInvocation} (hparse : CcInvocation.parseFor arguments family = .ok invocation) :
    invocation.compilerArguments arguments = withoutDependencyFlags arguments := by
  obtain ⟨parser, hread, hfinish⟩ := bind_ok hparse
  have hstart : Progress arguments [] { family := family, arguments := arguments } :=
    ⟨rfl, rfl, by simp, rfl⟩
  have hprogress := hstart.run (Nat.le_refl _) hread
  have hnil : parser.arguments = [] := by
    simpa using (congrArg List.length hprogress.whole).symm
  have hkept := hprogress.kept
  rw [hnil, withoutDependencyFlags, List.append_nil] at hkept
  rw [hkept, ← finish_indices hfinish]
  rfl

/-- A command line in which values look like flags for dependencies. -/
def valueArguments : List OsString :=
  ["-c", "-MF", "-MD", "-MD", "-MTa.o", "-o", "-MP", "-D", "-MF", "a.c"].map .utf8

theorem compilerArguments_eq_values :
    ∃ invocation, CcInvocation.parseFor valueArguments .gcc = .ok invocation ∧
      invocation.compilerArguments valueArguments =
        ["-c", "-o", "-MP", "-D", "-MF", "a.c"].map .utf8 := by
  obtain ⟨invocation, hparse⟩ :
      ∃ invocation, CcInvocation.parseFor valueArguments .gcc = .ok invocation := ⟨_, rfl⟩
  have hwithout : withoutDependencyFlags valueArguments =
      ["-c", "-o", "-MP", "-D", "-MF", "a.c"].map .utf8 := by decide +kernel
  exact ⟨invocation, hparse, (compilerArguments_eq hparse).trans hwithout⟩

end MrBoxington.Cc
