import Mathlib.Data.List.MinMax
import Mathlib.Data.Prod.Lex
import MrBoxington.Lib.Keyed
import MrBoxington.Lib.Strings
import MrBoxington.Lib.Tally

/-!
# The critical path of a recorded build

Wrappers record when each unit ran and which units it consumed. The path is walked back from
the unit that finished last, each time to the dependency that became ready last, and each unit
is credited with the time between two handoffs. The times along the walk add up to the path
exactly when no unit of the walk starts after the unit that waited for it.
-/

namespace MrBoxington.Analyze

open Strings (startsWith endsWith)

variable {Id : Type} [LinearOrder Id]

/-- What a wrapper recorded about one invocation. -/
structure WrapperTiming (Id : Type) where
  adapter : String
  unit : Option String := none
  startUs : UInt64
  durationNs : UInt64
  unitId : Option Id := none
  dependencies : List Id := []

inductive SessionEvent (Id : Type) where
  | wrapperTiming (timing : WrapperTiming Id)
  | other

/-- One recorded unit with its interval, in microseconds. -/
structure Node (Id : Type) where
  label : String
  startUs : ℕ
  endUs : ℕ
  dependencies : List Id

/-- The recorded units, in the order of their ids. -/
abbrev Nodes (Id : Type) := List (Id × Node Id)

def saturatingAdd (a b : ℕ) : ℕ := min (a + b) 18446744073709551615

/-- Records a unit in place of an earlier one with its id. -/
def Nodes.insert (id : Id) (node : Node Id) : Nodes Id → Nodes Id
  | [] => [(id, node)]
  | entry :: rest =>
    if id < entry.1 then (id, node) :: entry :: rest
    else if id = entry.1 then (id, node) :: rest
    else entry :: Nodes.insert id node rest

/-- The unit that an event records. -/
def nodeOf : SessionEvent Id → Option (Id × Node Id)
  | .wrapperTiming timing =>
    timing.unitId.map fun id =>
      (id, { label := timing.unit.getD timing.adapter
             startUs := timing.startUs.toNat
             endUs := saturatingAdd timing.startUs.toNat (timing.durationNs.toNat / 1000)
             dependencies := timing.dependencies })
  | .other => none

/-- The labels that runs of build scripts give to what they consumed. -/
def renames (nodes : Nodes Id) : List (Id × String) :=
  (nodes.filter fun entry => endsWith entry.2.label " build script").flatMap fun entry =>
    entry.2.dependencies.map fun dependency => (dependency, entry.2.label ++ " (compile)")

/-- Gives a compiled build script its label. -/
def Nodes.rename (nodes : Nodes Id) (change : Id × String) : Nodes Id :=
  nodes.map fun entry =>
    if entry.1 = change.1 ∧ startsWith entry.2.label "build_script_" = true then
      (entry.1, { entry.2 with label := change.2 })
    else entry

/-- The units that a session recorded. -/
def nodes (events : List (SessionEvent Id)) : Nodes Id :=
  let recorded := (events.filterMap nodeOf).foldl (fun nodes entry =>
    Nodes.insert entry.1 entry.2 nodes) []
  (renames recorded).foldl Nodes.rename recorded

/-! ## The walk -/

/-- The order in which units finished. -/
def finishing (entry : Id × Node Id) : Lex (ℕ × Id) := toLex (entry.2.endUs, entry.1)

/-- The unit that finished last. -/
def lastToFinish (nodes : Nodes Id) : Option (Id × Node Id) := nodes.argmax finishing

/-- The recorded dependencies of a unit that the walk has not seen. -/
def candidates (nodes : Nodes Id) (seen : List Id) (current : Node Id) : Nodes Id :=
  (current.dependencies.filterMap (Keyed.lookup Prod.fst nodes)).filter fun entry =>
    entry.1 ∉ seen

/-- When a dependency was ready for the unit: the earlier of its end and the unit's start. -/
def handoff (current dependency : Node Id) : ℕ := min dependency.endUs current.startUs

/-- The order in which dependencies became ready. -/
def readiness (current : Node Id) (entry : Id × Node Id) : Lex (ℕ × Lex (ℕ × Id)) :=
  toLex (handoff current entry.2, toLex (entry.2.endUs, entry.1))

/-- The walk back from a unit, with the handoff to each unit; a step sees a new unit, so that
the number of units is enough fuel. -/
def walkBack (nodes : Nodes Id) : ℕ → List Id → Id × Node Id → List ((Id × Node Id) × ℕ)
  | 0, _, current => [(current, current.2.startUs)]
  | fuel + 1, seen, current =>
    match (candidates nodes seen current.2).argmax (readiness current.2) with
    | none => [(current, current.2.startUs)]
    | some ready =>
      (current, handoff current.2 ready.2) :: walkBack nodes fuel (ready.1 :: seen) ready

/-- One unit on the critical path. -/
structure Step where
  label : String
  spanUs : ℕ
  waitedUs : ℕ

/-- The steps from a boundary on, the latest first, and the last boundary. -/
def stepsFrom : ℕ → List ((Id × Node Id) × ℕ) → List Step × ℕ
  | boundary, [] => ([], boundary)
  | boundary, (entry, handoff) :: rest =>
    let step := { label := entry.2.label
                  spanUs := boundary - handoff
                  waitedUs := entry.2.startUs - handoff }
    (step :: (stepsFrom handoff rest).1, (stepsFrom handoff rest).2)

/-! ## Time alone -/

/-- A unit starts or ends. -/
structure Edge (Id : Type) where
  time : ℕ
  ends : Bool
  id : Id
deriving DecidableEq

/-- Starts sort before ends at the same instant. -/
def Edge.position (edge : Edge Id) : Lex (ℕ × Lex (ℕ × Id)) :=
  toLex (edge.time, toLex (edge.ends.toNat, edge.id))

def Edge.le (left right : Edge Id) : Prop := left.position ≤ right.position

instance : DecidableRel (Edge.le : Edge Id → Edge Id → Prop) := fun _ _ =>
  inferInstanceAs (Decidable (_ ≤ _))

def edges (nodes : Nodes Id) : List (Edge Id) :=
  (nodes.flatMap fun entry => [⟨entry.2.startUs, false, entry.1⟩, ⟨entry.2.endUs, true, entry.1⟩])
    |>.insertionSort Edge.le

/-- The units that run, the previous edge and what the units are charged. -/
structure Sweep (Id : Type) where
  running : List Id
  previous : ℕ
  charged : List (Id × ℕ)

/-- One edge: the time since the previous one is charged to a unit that ran alone. -/
def Sweep.pass (sweep : Sweep Id) (edge : Edge Id) : Sweep Id :=
  { running :=
      if edge.ends then sweep.running.filter (· ≠ edge.id)
      else if edge.id ∈ sweep.running then sweep.running else edge.id :: sweep.running
    previous := edge.time
    charged :=
      match sweep.running with
      | [only] => Tally.add (· < ·) only (edge.time - sweep.previous) sweep.charged
      | _ => sweep.charged }

/-- The order of texts. -/
def textLt (left right : String) : Prop :=
  List.Lex (· < ·) (left.toList.map Char.toNat) (right.toList.map Char.toNat)

instance : DecidableRel textLt := fun _ _ => inferInstanceAs (Decidable (List.Lex _ _ _))

/-- The costliest labels first. -/
def costlier (left right : String × ℕ) : Prop :=
  right.2 < left.2 ∨ left.2 = right.2 ∧ ¬ textLt right.1 left.1

instance : DecidableRel costlier := fun _ _ => inferInstanceAs (Decidable (_ ∨ _))

def labelOf (nodes : Nodes Id) (id : Id) : String :=
  ((Keyed.lookup Prod.fst nodes id).map fun entry => entry.2.label).getD ""

/-- What the sweep over the edges charges each unit. -/
def chargedAlone (nodes : Nodes Id) : List (Id × ℕ) :=
  let edges := edges nodes
  let previous := (edges.head?.map Edge.time).getD 0
  (edges.foldl Sweep.pass ⟨[], previous, []⟩).charged

/-- The time exactly one unit was running, by label, and in total. -/
def alone (nodes : Nodes Id) : List (String × ℕ) × ℕ :=
  let charged := chargedAlone nodes
  let byLabel := charged.foldl (fun byLabel entry =>
    Tally.add textLt (labelOf nodes entry.1) entry.2 byLabel) []
  ((byLabel.filter fun entry => decide (0 < entry.2)).insertionSort costlier,
    Tally.weigh (fun _ => true) charged)

/-! ## The path -/

structure CriticalPath where
  steps : List Step
  pathUs : ℕ
  spanUs : ℕ
  alone : List (String × ℕ)
  aloneUs : ℕ

/-- The first start of a unit. -/
def firstStart (nodes : Nodes Id) : Option ℕ := (nodes.map fun entry => entry.2.startUs).min?

/-- The critical path of a session, if it recorded any units. -/
def CriticalPath.of (events : List (SessionEvent Id)) : Option CriticalPath := do
  let nodes := nodes events
  let last ← lastToFinish nodes
  let (steps, boundary) := stepsFrom last.2.endUs (walkBack nodes nodes.length [last.1] last)
  let first ← firstStart nodes
  some
    { steps := steps.reverse
      pathUs := last.2.endUs - boundary
      spanUs := last.2.endUs - first
      alone := (Analyze.alone nodes).1
      aloneUs := (Analyze.alone nodes).2 }

/-! ## Recorded units -/

/-- The ids are in order, and no unit ends before it starts. -/
structure Nodes.WellFormed (nodes : Nodes Id) : Prop where
  sorted : (nodes.map Prod.fst).Pairwise (· < ·)
  interval : ∀ entry ∈ nodes, entry.2.startUs ≤ entry.2.endUs

/-- Well-formed nodes have distinct keys. -/
theorem Nodes.WellFormed.nodup {nodes : Nodes Id} (hwell : nodes.WellFormed) :
    (nodes.map Prod.fst).Nodup :=
  hwell.sorted.imp ne_of_lt

private theorem Nodes.mem_insert {id : Id} {node : Node Id} {nodes : Nodes Id}
    {entry : Id × Node Id}
    (hmem : entry ∈ Nodes.insert id node nodes) : entry = (id, node) ∨ entry ∈ nodes := by
  induction nodes with
  | nil => exact .inl (List.mem_singleton.mp hmem)
  | cons first rest ih =>
    simp only [Nodes.insert] at hmem
    split at hmem
    · exact List.mem_cons.mp hmem
    · split at hmem
      · exact (List.mem_cons.mp hmem).imp_right (List.mem_cons_of_mem _)
      · obtain rfl | hrest := List.mem_cons.mp hmem
        · exact .inr List.mem_cons_self
        · exact (ih hrest).imp_right (List.mem_cons_of_mem _)

private theorem Nodes.sorted_insert {id : Id} {node : Node Id} {nodes : Nodes Id}
    (hsorted : (nodes.map Prod.fst).Pairwise (· < ·)) :
    ((Nodes.insert id node nodes).map Prod.fst).Pairwise (· < ·) := by
  induction nodes with
  | nil => simp [Nodes.insert]
  | cons first rest ih =>
    obtain ⟨hfirst, hrest⟩ := List.pairwise_cons.mp hsorted
    simp only [Nodes.insert]
    split
    · rename_i hlt
      refine List.pairwise_cons.mpr ⟨fun key hkey => ?_, hsorted⟩
      obtain rfl | hkey := List.mem_cons.mp hkey
      · exact hlt
      · exact hlt.trans (hfirst key hkey)
    · rename_i hnot
      split
      · rename_i heq
        exact List.pairwise_cons.mpr ⟨fun key hkey => heq ▸ hfirst key hkey, hrest⟩
      · rename_i hne
        refine List.pairwise_cons.mpr ⟨fun key hkey => ?_, ih hrest⟩
        obtain ⟨entry, hentry, rfl⟩ := List.mem_map.mp hkey
        obtain rfl | hentry := Nodes.mem_insert hentry
        · exact lt_of_le_of_ne (not_lt.mp hnot) (Ne.symm hne)
        · exact hfirst _ (List.mem_map_of_mem hentry)

private theorem Nodes.WellFormed.insert {id : Id} {node : Node Id} {nodes : Nodes Id}
    (hwell : nodes.WellFormed) (hnode : node.startUs ≤ node.endUs) :
    (Nodes.insert id node nodes).WellFormed := by
  refine ⟨Nodes.sorted_insert hwell.sorted, fun entry hmem => ?_⟩
  obtain rfl | hold := Nodes.mem_insert hmem
  · exact hnode
  · exact hwell.interval entry hold

private theorem Nodes.WellFormed.rename {nodes : Nodes Id} (hwell : nodes.WellFormed)
    (change : Id × String) : (nodes.rename change).WellFormed := by
  have hkeys : (nodes.rename change).map Prod.fst = nodes.map Prod.fst := by
    rw [Nodes.rename, List.map_map]
    refine List.map_congr_left fun entry _ => ?_
    simp only [Function.comp_apply]
    split <;> rfl
  refine ⟨hkeys ▸ hwell.sorted, fun entry hmem => ?_⟩
  obtain ⟨old, hold, rfl⟩ := List.mem_map.mp hmem
  have hinterval := hwell.interval old hold
  split
  · exact hinterval
  · exact hinterval

omit [LinearOrder Id] in
private theorem nodeOf_interval {event : SessionEvent Id} {entry : Id × Node Id}
    (hnode : nodeOf event = some entry) : entry.2.startUs ≤ entry.2.endUs := by
  cases event with
  | other => cases hnode
  | wrapperTiming timing =>
    obtain ⟨id, -, rfl⟩ := Option.map_eq_some_iff.mp hnode
    have hbound := timing.startUs.toNat_lt
    simp only [saturatingAdd]
    omega

/-- The nodes built from any events are well formed. -/
theorem wellFormed_nodes (events : List (SessionEvent Id)) : (nodes events).WellFormed := by
  have hrecorded : ∀ (entries : List (Id × Node Id)) (start : Nodes Id), start.WellFormed →
      (∀ entry ∈ entries, entry.2.startUs ≤ entry.2.endUs) →
      (entries.foldl (fun nodes entry => Nodes.insert entry.1 entry.2 nodes)
        start).WellFormed := by
    intro entries
    induction entries with
    | nil => exact fun start hstart _ => hstart
    | cons entry rest ih =>
      exact fun start hstart hall => ih _ (hstart.insert (hall entry List.mem_cons_self))
        fun e he => hall e (List.mem_cons_of_mem _ he)
  have hrenamed : ∀ (changes : List (Id × String)) (start : Nodes Id), start.WellFormed →
      (changes.foldl Nodes.rename start).WellFormed := by
    intro changes
    induction changes with
    | nil => exact fun start hstart => hstart
    | cons change rest ih => exact fun start hstart => ih _ (hstart.rename change)
  refine hrenamed _ _ (hrecorded _ _ ⟨List.Pairwise.nil, fun _ hmem => nomatch hmem⟩ ?_)
  intro entry hmem
  obtain ⟨event, -, hnode⟩ := List.mem_filterMap.mp hmem
  exact nodeOf_interval hnode

end MrBoxington.Analyze
