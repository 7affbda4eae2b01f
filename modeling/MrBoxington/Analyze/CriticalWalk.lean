import Mathlib.Data.List.Chain
import MrBoxington.Analyze.CriticalPath

/-!
# When the steps add up to the path

The spans of the steps are differences of handoffs, cut off at zero. They add up to the path,
and hold the time that each step waited, exactly when no unit that was waited for starts after
the unit that waited for it. A dependency that is recorded as starting later breaks both.
-/

namespace MrBoxington.Analyze

/-- What the steps span together. -/
def totalSpan (steps : List Step) : ℕ := steps.foldr (fun step rest => step.spanUs + rest) 0

private theorem totalSpan_reverse (steps : List Step) : totalSpan steps.reverse = totalSpan steps :=
  (List.reverse_perm steps).foldr_eq' (fun _ _ _ _ _ => by omega) 0

variable {Id : Type}

/-- Each unit starts by the handoff of the unit before. -/
def StartsBy : ℕ → List ((Id × Node Id) × ℕ) → Prop
  | _, [] => True
  | boundary, (entry, handoff) :: rest => entry.2.startUs ≤ boundary ∧ StartsBy handoff rest

private theorem le_totalSpan (boundary : ℕ) (walk : List ((Id × Node Id) × ℕ)) :
    boundary ≤ totalSpan (stepsFrom boundary walk).1 + (stepsFrom boundary walk).2 := by
  induction walk generalizing boundary with
  | nil => simp [stepsFrom, totalSpan]
  | cons first rest ih =>
    have hrest := ih first.2
    simp only [stepsFrom, totalSpan, List.foldr_cons] at hrest ⊢
    omega

/-- The spans add up and hold the waits exactly when each unit starts by the handoff before. -/
theorem stepsFrom_exact_iff (boundary : ℕ) {walk : List ((Id × Node Id) × ℕ)}
    (hhandoff : ∀ entry ∈ walk, entry.2 ≤ entry.1.2.startUs) :
    (totalSpan (stepsFrom boundary walk).1 + (stepsFrom boundary walk).2 = boundary ∧
        ∀ step ∈ (stepsFrom boundary walk).1, step.waitedUs ≤ step.spanUs) ↔
      StartsBy boundary walk := by
  induction walk generalizing boundary with
  | nil => simp [stepsFrom, totalSpan, StartsBy]
  | cons first rest ih =>
    have hfirst := hhandoff first List.mem_cons_self
    have hle := le_totalSpan first.2 rest
    rw [StartsBy, ← ih first.2 fun entry hmem => hhandoff entry (List.mem_cons_of_mem _ hmem)]
    simp only [stepsFrom, totalSpan, List.foldr_cons, List.forall_mem_cons] at hle ⊢
    constructor
    · rintro ⟨hsum, hwaited, hrest⟩
      exact ⟨by omega, by omega, hrest⟩
    · rintro ⟨hstart, hsum, hrest⟩
      exact ⟨by omega, by omega, hrest⟩

variable [LinearOrder Id] {nodes : Nodes Id} {seen : List Id} {current next : Id × Node Id}

/-- The unit finished last. -/
def FinishesLast (nodes : Nodes Id) (last : Id × Node Id) : Prop :=
  last ∈ nodes ∧ ∀ entry ∈ nodes, finishing entry ≤ finishing last

/-- The dependency is the one that became ready last, of those not on the chain. -/
def ReadyLast (nodes : Nodes Id) (seen : List Id) (current : Node Id)
    (ready : Id × Node Id) : Prop :=
  ready ∈ candidates nodes seen current ∧
    ∀ entry ∈ candidates nodes seen current, readiness current entry ≤ readiness current ready

/-- A chain of units, each waited for by the one behind it, back from the unit that finished
last. -/
inductive WaitedFor (nodes : Nodes Id) : List (Id × Node Id) → Prop
  | last {entry : Id × Node Id} (hlast : FinishesLast nodes entry) : WaitedFor nodes [entry]
  | next {current ready : Id × Node Id} {later : List (Id × Node Id)}
      (hwaited : WaitedFor nodes (current :: later))
      (hready : ReadyLast nodes ((current :: later).map Prod.fst) current.2 ready) :
      WaitedFor nodes (ready :: current :: later)

private theorem mem_candidates {current : Node Id} {entry : Id × Node Id}
    (hmem : entry ∈ candidates nodes seen current) :
    Keyed.lookup Prod.fst nodes entry.1 = some entry ∧ entry.1 ∉ seen := by
  obtain ⟨hfound, hnot⟩ := List.mem_filter.mp hmem
  obtain ⟨id, -, hlookup⟩ := List.mem_filterMap.mp hfound
  obtain rfl := Keyed.key_of_lookup hlookup
  exact ⟨hlookup, of_decide_eq_true hnot⟩

/-- Only one dependency became ready last. -/
theorem ReadyLast.argmax {current : Node Id} (hready : ReadyLast nodes seen current next) :
    (candidates nodes seen current).argmax (readiness current) = some next := by
  cases hmax : (candidates nodes seen current).argmax (readiness current) with
  | none =>
    rw [List.argmax_eq_none] at hmax
    exact absurd hready.1 (by simp [hmax])
  | some ready =>
    have hmem := List.argmax_mem hmax
    have hsame : readiness current ready = readiness current next :=
      le_antisymm (hready.2 ready hmem) (List.le_of_mem_argmax hready.1 hmax)
    have hid : ready.1 = next.1 := by
      have hpair := congrArg (fun key => (ofLex (ofLex key).2).2) hsame
      exact hpair
    have hlookup := (mem_candidates hmem).1
    rw [hid, (mem_candidates hready.1).1] at hlookup
    exact hlookup.symm

private theorem readyLast_of_argmax {current : Node Id}
    (hmax : (candidates nodes seen current).argmax (readiness current) = some next) :
    ReadyLast nodes seen current next :=
  ⟨List.argmax_mem hmax, fun _ hmem => List.le_of_mem_argmax hmem hmax⟩

private theorem finishesLast_iff (hwell : nodes.WellFormed) :
    FinishesLast nodes current ↔ lastToFinish nodes = some current := by
  constructor
  · rintro ⟨hmem, hmax⟩
    cases hlast : lastToFinish nodes with
    | none => exact absurd hmem (by simp [List.argmax_eq_none.mp hlast])
    | some last =>
      have hlastMem := List.argmax_mem hlast
      have hsame := le_antisymm (hmax last hlastMem) (List.le_of_mem_argmax hmem hlast)
      have hid : last.1 = current.1 := congrArg (fun key => (ofLex key).2) hsame
      rw [List.inj_on_of_nodup_map hwell.nodup hlastMem hmem hid]
  · exact fun hlast =>
      ⟨List.argmax_mem hlast, fun _ hmem => List.le_of_mem_argmax hmem hlast⟩

/-- The walk starts with its unit, and goes on to the dependency that became ready last. -/
theorem walkBack_cases (nodes : Nodes Id) (fuel : ℕ) (seen : List Id)
    (current : Id × Node Id) :
    walkBack nodes fuel seen current = [(current, current.2.startUs)] ∨
      ∃ fuel' ready, fuel = fuel' + 1 ∧ ReadyLast nodes seen current.2 ready ∧
        walkBack nodes fuel seen current = (current, handoff current.2 ready.2) ::
          walkBack nodes fuel' (ready.1 :: seen) ready := by
  cases fuel with
  | zero => exact .inl rfl
  | succ fuel =>
    rw [walkBack]
    split
    · exact .inl rfl
    · rename_i ready hmax
      exact .inr ⟨fuel, ready, rfl, readyLast_of_argmax hmax, rfl⟩

private theorem walkBack_head (nodes : Nodes Id) (fuel : ℕ) (seen : List Id)
    (current : Id × Node Id) :
    ∃ rest, (walkBack nodes fuel seen current).map Prod.fst = current :: rest := by
  obtain hwalk | ⟨_, _, _, _, hwalk⟩ := walkBack_cases nodes fuel seen current
  · exact ⟨_, by rw [hwalk]; rfl⟩
  · exact ⟨_, by rw [hwalk]; rfl⟩

private theorem mem_of_readyLast (hready : ReadyLast nodes seen current.2 next) : next ∈ nodes :=
  Keyed.mem_of_lookup (mem_candidates hready.1).1

private theorem handoff_le_start (nodes : Nodes Id) (fuel : ℕ) (seen : List Id)
    (current : Id × Node Id) :
    ∀ entry ∈ walkBack nodes fuel seen current, entry.2 ≤ entry.1.2.startUs := by
  induction fuel generalizing seen current with
  | zero => simp [walkBack]
  | succ fuel ih =>
    obtain hwalk | ⟨fuel', ready, hfuel, -, hwalk⟩ := walkBack_cases nodes (fuel + 1) seen current
    · simp [hwalk]
    · obtain rfl := Nat.succ.inj hfuel
      rw [hwalk, List.forall_mem_cons]
      exact ⟨min_le_right _ _, ih (ready.1 :: seen) ready⟩

/-- The last boundary is the start of a recorded unit. -/
theorem lastBoundary_eq_start (boundary fuel : ℕ) (seen : List Id) (hmem : current ∈ nodes) :
    ∃ entry ∈ nodes,
      (stepsFrom boundary (walkBack nodes fuel seen current)).2 = entry.2.startUs := by
  induction fuel generalizing boundary seen current with
  | zero => exact ⟨current, hmem, rfl⟩
  | succ fuel ih =>
    obtain hwalk | ⟨fuel', ready, hfuel, hready, hwalk⟩ :=
      walkBack_cases nodes (fuel + 1) seen current
    · exact ⟨current, hmem, by rw [hwalk]; rfl⟩
    · obtain rfl := Nat.succ.inj hfuel
      rw [hwalk]
      exact ih _ _ (mem_of_readyLast hready)

/-- No unit of the list starts after the unit before it. -/
def Descending (chain : List (Id × Node Id)) : Prop :=
  chain.IsChain fun dependent dependency => dependency.2.startUs ≤ dependent.2.startUs

/-- A handoff is no later than the end of the dependency, so that the dependency starts by it
exactly when it starts no later than its dependent. -/
theorem startsBy_iff (hwell : nodes.WellFormed) (boundary fuel : ℕ) (seen : List Id) :
    StartsBy boundary (walkBack nodes fuel seen current) ↔
      current.2.startUs ≤ boundary ∧
        Descending ((walkBack nodes fuel seen current).map Prod.fst) := by
  induction fuel generalizing boundary seen current with
  | zero => simp [walkBack, StartsBy, Descending]
  | succ fuel ih =>
    obtain hwalk | ⟨fuel', ready, hfuel, hready, hwalk⟩ :=
      walkBack_cases nodes (fuel + 1) seen current
    · simp [hwalk, StartsBy, Descending]
    · obtain rfl := Nat.succ.inj hfuel
      obtain ⟨rest, hrest⟩ := walkBack_head nodes fuel (ready.1 :: seen) ready
      have hinterval := hwell.interval ready (mem_of_readyLast hready)
      have hhandoff : ready.2.startUs ≤ handoff current.2 ready.2 ↔
          ready.2.startUs ≤ current.2.startUs := by
        unfold handoff
        omega
      rw [hwalk, StartsBy, ih, hhandoff, List.map_cons, hrest]
      simp only [Descending, List.isChain_cons_cons]

private theorem WaitedFor.recorded {chain : List (Id × Node Id)} (hwaited : WaitedFor nodes chain) :
    (chain.map Prod.fst).Nodup ∧ ∀ entry ∈ chain, entry ∈ nodes := by
  induction hwaited with
  | last hlast => simpa using hlast.1
  | next hwaited hready ih =>
    refine ⟨List.nodup_cons.mpr ⟨(mem_candidates hready.1).2, ih.1⟩, ?_⟩
    exact List.forall_mem_cons.mpr ⟨mem_of_readyLast hready, ih.2⟩

private theorem WaitedFor.length_le {chain : List (Id × Node Id)}
    (hwaited : WaitedFor nodes chain) :
    chain.length ≤ nodes.length := by
  have hsub : chain.map Prod.fst ⊆ nodes.map Prod.fst :=
    List.map_subset _ hwaited.recorded.2
  simpa using (hwaited.recorded.1.subperm hsub).length_le

/-- Every chain that was waited for is the beginning of the walk, and the walk goes on from
it. -/
theorem WaitedFor.walk {chain : List (Id × Node Id)} (hwell : nodes.WellFormed)
    {last : Id × Node Id} (hlast : lastToFinish nodes = some last)
    (hwaited : WaitedFor nodes chain) :
    ∃ current later fuel, chain = current :: later ∧ nodes.length ≤ fuel + later.length ∧
      (walkBack nodes nodes.length [last.1] last).map Prod.fst =
        later.reverse ++ (walkBack nodes fuel (chain.map Prod.fst) current).map Prod.fst := by
  induction hwaited with
  | @last entry hentry =>
    obtain rfl : last = entry :=
      Option.some.inj (hlast.symm.trans ((finishesLast_iff hwell).mp hentry))
    exact ⟨last, [], nodes.length, rfl, le_rfl, rfl⟩
  | @next current ready later hwaited hready ih =>
    obtain ⟨_, _, fuel, hchain, hfuel, hwalk⟩ := ih
    obtain ⟨rfl, rfl⟩ := List.cons.inj hchain
    have hlength := (WaitedFor.next hwaited hready).length_le
    simp only [List.length_cons] at hlength
    obtain ⟨fuel, rfl⟩ : ∃ fuel', fuel = fuel' + 1 := ⟨fuel - 1, by omega⟩
    refine ⟨ready, current :: later, fuel, rfl, by rw [List.length_cons]; omega, ?_⟩
    rw [hwalk, walkBack, hready.argmax]
    simp

/-- The starts descend along the walk exactly when they descend along every chain that was
waited for. -/
theorem descending_walk_iff (hwell : nodes.WellFormed) {last : Id × Node Id}
    (hlast : lastToFinish nodes = some last) :
    Descending ((walkBack nodes nodes.length [last.1] last).map Prod.fst) ↔
      ∀ dependency dependent later, WaitedFor nodes (dependency :: dependent :: later) →
        dependency.2.startUs ≤ dependent.2.startUs := by
  constructor
  · intro hdescending dependency dependent later hwaited
    obtain ⟨_, _, fuel, hchain, -, hwalk⟩ := hwaited.walk hwell hlast
    obtain ⟨rfl, rfl⟩ := List.cons.inj hchain
    obtain ⟨rest, hrest⟩ := walkBack_head nodes fuel
      ((dependency :: dependent :: later).map Prod.fst) dependency
    rw [hwalk, hrest, List.reverse_cons, List.append_assoc] at hdescending
    exact (List.isChain_cons_cons.mp hdescending.right_of_append).1
  · intro hall
    have hfrom : ∀ (fuel : ℕ) (current : Id × Node Id) (later : List (Id × Node Id)),
        WaitedFor nodes (current :: later) →
        Descending ((walkBack nodes fuel ((current :: later).map Prod.fst) current).map
          Prod.fst) := by
      intro fuel
      induction fuel with
      | zero => exact fun current later _ => List.IsChain.singleton _
      | succ fuel ih =>
        intro current later hwaited
        obtain hwalk | ⟨fuel', ready, hfuel, hready, hwalk⟩ :=
          walkBack_cases nodes (fuel + 1) ((current :: later).map Prod.fst) current
        · rw [hwalk]
          exact List.IsChain.singleton _
        · obtain rfl := Nat.succ.inj hfuel
          have hnext := ih ready (current :: later) (.next hwaited hready)
          obtain ⟨rest, hrest⟩ := walkBack_head nodes fuel
            (ready.1 :: (current :: later).map Prod.fst) ready
          rw [hwalk, List.map_cons, hrest]
          rw [List.map_cons, hrest] at hnext
          exact List.isChain_cons_cons.mpr
            ⟨hall ready current later (.next hwaited hready), hnext⟩
    exact hfrom nodes.length last [] (.last ((finishesLast_iff hwell).mpr hlast))

/-- The spans of the steps add up to the path and hold the waits exactly when no unit that was
waited for starts after the unit that waited for it; the path is never longer than the
build. -/
theorem steps_add_up_iff (events : List (SessionEvent Id)) (path : CriticalPath)
    (hpath : CriticalPath.of events = some path) :
    (totalSpan path.steps = path.pathUs ∧ (∀ step ∈ path.steps, step.waitedUs ≤ step.spanUs) ∧
        path.pathUs ≤ path.spanUs) ↔
      ∀ dependency dependent later,
        WaitedFor (Analyze.nodes events) (dependency :: dependent :: later) →
          dependency.2.startUs ≤ dependent.2.startUs := by
  have hwell := wellFormed_nodes events
  unfold CriticalPath.of at hpath
  simp only [Option.bind_eq_bind, Option.bind_eq_some_iff, Option.some.injEq] at hpath
  obtain ⟨last, hlast, first, hfirst, rfl⟩ := hpath
  have hlastMem := ((finishesLast_iff hwell).mpr hlast).1
  obtain ⟨entry, hentry, hboundary⟩ := lastBoundary_eq_start last.2.endUs
    (Analyze.nodes events).length [last.1] hlastMem
  have hends : entry.2.startUs ≤ last.2.endUs := by
    have hfinish := ((finishesLast_iff hwell).mpr hlast).2 entry hentry
    have hend : entry.2.endUs ≤ last.2.endUs := Prod.Lex.monotone_fst _ _ hfinish
    exact (hwell.interval entry hentry).trans hend
  have hearliest : first ≤ entry.2.startUs :=
    (List.min?_eq_some_iff.mp hfirst).2 _ (List.mem_map_of_mem hentry)
  have hexact := (stepsFrom_exact_iff last.2.endUs
    (handoff_le_start (Analyze.nodes events) (Analyze.nodes events).length [last.1] last)).trans
      ((startsBy_iff hwell last.2.endUs _ [last.1]).trans
        (and_iff_right (hwell.interval last hlastMem)))
  rw [← descending_walk_iff hwell hlast, ← hexact]
  simp only [totalSpan_reverse, List.mem_reverse, hboundary]
  constructor
  · rintro ⟨hsum, hwaited, -⟩
    exact ⟨by omega, hwaited⟩
  · rintro ⟨hsum, hwaited⟩
    exact ⟨by omega, hwaited, by omega⟩

/-- A unit that runs for ten microseconds and lists a dependency that starts after five. -/
def lateDependency : List (SessionEvent ℕ) :=
  [.wrapperTiming { adapter := "rustc", startUs := 0, durationNs := 10000, unitId := some 1,
                    dependencies := [2] },
   .wrapperTiming { adapter := "rustc", startUs := 5, durationNs := 3000, unitId := some 2 }]

/-- The steps of a dependency that starts late add up to more than the path. -/
theorem steps_exceed_path :
    (CriticalPath.of lateDependency).map (fun path => (totalSpan path.steps, path.pathUs)) =
      some (10, 5) := by
  decide +kernel

/-- A build in which the dependency hands over at its end. -/
def handedOver : List (SessionEvent ℕ) :=
  [.wrapperTiming { adapter := "rustc", startUs := 7, durationNs := 3000, unitId := some 1,
                    dependencies := [2] },
   .wrapperTiming { adapter := "rustc", startUs := 2, durationNs := 4000, unitId := some 2 }]

theorem steps_add_up_iff_handedOver :
    (CriticalPath.of handedOver).isSome = true ∧
      ∀ dependency dependent later,
        WaitedFor (Analyze.nodes handedOver) (dependency :: dependent :: later) →
          dependency.2.startUs ≤ dependent.2.startUs := by
  have hsome : (CriticalPath.of handedOver).isSome = true := by decide +kernel
  obtain ⟨path, hpath⟩ := Option.isSome_iff_exists.mp hsome
  have hexact : (CriticalPath.of handedOver).all (fun path =>
      totalSpan path.steps = path.pathUs ∧ (∀ step ∈ path.steps, step.waitedUs ≤ step.spanUs) ∧
        path.pathUs ≤ path.spanUs) = true := by decide +kernel
  rw [hpath] at hexact
  exact ⟨hsome, (steps_add_up_iff handedOver path hpath).mp (of_decide_eq_true hexact)⟩

end MrBoxington.Analyze
