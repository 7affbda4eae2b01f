import Mathlib.Data.Nat.Count
import Mathlib.Data.Set.Card
import Mathlib.Order.Interval.Finset.Nat
import MrBoxington.Analyze.CriticalPath

/-!
# The time that one unit ran alone

The sweep passes the starts and ends of the units in order, and charges the time between two of
them to a unit that ran alone in between. What it charges is the number of instants at which
exactly that unit runs, whatever starts and ends coincide.
-/

namespace MrBoxington.Analyze

variable {Id : Type}

/-- The units that run at an instant. -/
def runningAt (nodes : Nodes Id) (time : ℕ) : Nodes Id :=
  nodes.filter fun entry => decide (entry.2.startUs ≤ time ∧ time < entry.2.endUs)

/-- The instants at which one unit runs alone that is wanted. -/
def aloneInstants (nodes : Nodes Id) (wanted : Id × Node Id → Prop) : Set ℕ :=
  {time | ∃ entry, runningAt nodes time = [entry] ∧ wanted entry}

/-- There is one unit, and it is wanted. -/
def onlyWanted (wanted : Id → Bool) : List Id → Bool
  | [only] => wanted only
  | _ => false

/-- A wanted unit runs alone. -/
def runsAlone (nodes : Nodes Id) (wanted : Id → Bool) (time : ℕ) : Bool :=
  onlyWanted wanted ((runningAt nodes time).map Prod.fst)

private theorem onlyWanted_perm {wanted : Id → Bool} {ids ids' : List Id} (hperm : ids.Perm ids') :
    onlyWanted wanted ids = onlyWanted wanted ids' := by
  match ids, ids' with
  | [], ids' => rw [hperm.nil_eq]
  | [only], ids' => rw [List.singleton_perm.mp hperm]
  | _ :: _ :: _, [] => exact absurd hperm.length_eq (by simp)
  | _ :: _ :: _, [_] => exact absurd hperm.length_eq (by simp)
  | _ :: _ :: _, _ :: _ :: _ => rfl

def startOf (entry : Id × Node Id) : Edge Id := ⟨entry.2.startUs, false, entry.1⟩

def endOf (entry : Id × Node Id) : Edge Id := ⟨entry.2.endUs, true, entry.1⟩

private theorem Edge.position_inj {left right : Edge Id} (heq : left.position = right.position) :
    left = right := by
  have htime : left.time = right.time := congrArg (fun key => (ofLex key).1) heq
  have hends : left.ends.toNat = right.ends.toNat :=
    congrArg (fun key => (ofLex (ofLex key).2).1) heq
  have hid : left.id = right.id := congrArg (fun key => (ofLex (ofLex key).2).2) heq
  obtain ⟨_, leftEnds, _⟩ := left
  obtain ⟨_, rightEnds, _⟩ := right
  cases leftEnds <;> cases rightEnds <;> simp_all

variable [LinearOrder Id] {nodes : Nodes Id} {sweep : Sweep Id} {edge : Edge Id}
  {passed rest : List (Edge Id)} {wanted : Id → Bool}

private theorem Edge.time_le {left right : Edge Id} (hle : left.le right) :
    left.time ≤ right.time :=
  Prod.Lex.monotone_fst _ _ hle

private theorem startOf_le_endOf {entry : Id × Node Id}
    (hinterval : entry.2.startUs ≤ entry.2.endUs) :
    (startOf entry).le (endOf entry) := by
  rw [Edge.le, Edge.position, Edge.position, Prod.Lex.toLex_le_toLex]
  obtain hlt | heq := hinterval.lt_or_eq
  · exact .inl hlt
  · exact .inr ⟨heq, Prod.Lex.toLex_le_toLex.mpr (.inl (by simp [startOf, endOf]))⟩

private theorem mem_edges :
    edge ∈ edges nodes ↔ ∃ entry ∈ nodes, edge = startOf entry ∨ edge = endOf entry := by
  simp [edges, startOf, endOf]

private theorem sorted_edges (nodes : Nodes Id) : (edges nodes).Pairwise Edge.le := by
  have : Std.Total (Edge.le : Edge Id → Edge Id → Prop) := ⟨fun _ _ => le_total _ _⟩
  have : IsTrans (Edge Id) Edge.le := ⟨fun _ _ _ => le_trans⟩
  exact List.pairwise_insertionSort _ _

/-- What the sweep holds between the edges it has passed and the rest. -/
structure Sweep.Reached (nodes : Nodes Id) (passed rest : List (Edge Id)) (sweep : Sweep Id) :
    Prop where
  split : edges nodes = passed ++ rest
  earlier : ∀ edge ∈ passed, edge.time ≤ sweep.previous
  later : ∀ edge ∈ rest, sweep.previous ≤ edge.time
  running : ∀ id, id ∈ sweep.running ↔
    ∃ entry ∈ nodes, entry.1 = id ∧ startOf entry ∈ passed ∧ endOf entry ∉ passed
  once : sweep.running.Nodup
  keys : (sweep.charged.map Prod.fst).Nodup
  charged : ∀ wanted, Tally.weigh wanted sweep.charged =
    Nat.count (fun time => runsAlone nodes wanted time = true) sweep.previous

private theorem startOf_mem_edges {entry : Id × Node Id} (hmem : entry ∈ nodes) :
    startOf entry ∈ edges nodes := mem_edges.mpr ⟨entry, hmem, .inl rfl⟩

private theorem endOf_mem_edges {entry : Id × Node Id} (hmem : entry ∈ nodes) :
    endOf entry ∈ edges nodes := mem_edges.mpr ⟨entry, hmem, .inr rfl⟩

/-- Before the first edge no unit runs. -/
theorem reached_start (nodes : Nodes Id) :
    Sweep.Reached nodes [] (edges nodes)
      ⟨[], ((edges nodes).head?.map Edge.time).getD 0, []⟩ := by
  have hlater : ∀ edge ∈ edges nodes, ((edges nodes).head?.map Edge.time).getD 0 ≤ edge.time := by
    have hsorted := sorted_edges nodes
    cases hedges : edges nodes with
    | nil => exact fun _ hmem => nomatch hmem
    | cons first rest =>
      rw [hedges, List.pairwise_cons] at hsorted
      exact List.forall_mem_cons.mpr ⟨le_rfl, fun edge hmem => Edge.time_le (hsorted.1 edge hmem)⟩
  refine ⟨rfl, by simp, hlater, by simp, List.nodup_nil, List.nodup_nil, fun wanted => ?_⟩
  refine (Nat.count_iff_forall_not.mpr fun time htime => ?_).symm
  have hnone : runningAt nodes time = [] := by
    refine List.filter_eq_nil_iff.mpr fun entry hmem hruns => ?_
    have hstart : _ ≤ entry.2.startUs := hlater _ (startOf_mem_edges hmem)
    have hle := (of_decide_eq_true hruns).1
    simp only at htime
    omega
  simp [runsAlone, hnone, onlyWanted]

/-- The units that run at an instant before the next edge are those that the sweep holds. -/
theorem Sweep.Reached.perm_running (hwell : nodes.WellFormed)
    (hreached : sweep.Reached nodes passed rest) {time : ℕ} (hfrom : sweep.previous ≤ time)
    (hbefore : ∀ edge ∈ rest, time < edge.time) :
    ((runningAt nodes time).map Prod.fst).Perm sweep.running := by
  have hpassed : ∀ edge ∈ edges nodes, edge ∈ passed ↔ edge.time ≤ time := by
    intro edge hmem
    rw [hreached.split, List.mem_append] at hmem
    constructor
    · exact fun hin => (hreached.earlier edge hin).trans hfrom
    · exact fun hle => hmem.resolve_right fun hrest => absurd (hbefore edge hrest) (not_lt.mpr hle)
  have hnodup : ((runningAt nodes time).map Prod.fst).Nodup :=
    hwell.nodup.sublist (List.filter_sublist.map Prod.fst)
  refine (List.perm_ext_iff_of_nodup hnodup hreached.once).mpr fun id => ?_
  rw [hreached.running, List.mem_map]
  refine exists_congr fun entry => ?_
  rw [runningAt, List.mem_filter, decide_eq_true_eq, and_assoc]
  refine and_congr_right fun hmem => ?_
  rw [hpassed _ (startOf_mem_edges hmem), hpassed _ (endOf_mem_edges hmem), not_le, and_comm]
  rfl

/-- From one edge to the next, the instants count for a wanted unit that runs alone. -/
theorem Sweep.Reached.count (hwell : nodes.WellFormed)
    (hreached : sweep.Reached nodes passed (edge :: rest)) (wanted : Id → Bool) :
    Nat.count (fun time => runsAlone nodes wanted time = true) edge.time =
      Nat.count (fun time => runsAlone nodes wanted time = true) sweep.previous +
        if onlyWanted wanted sweep.running then edge.time - sweep.previous else 0 := by
  have hle := hreached.later edge List.mem_cons_self
  have hsorted := List.pairwise_cons.mp
    (List.pairwise_append.mp (hreached.split ▸ sorted_edges nodes)).2.1
  have hgap : ∀ offset < edge.time - sweep.previous,
      runsAlone nodes wanted (sweep.previous + offset) = onlyWanted wanted sweep.running := by
    intro offset hoffset
    refine onlyWanted_perm (hreached.perm_running hwell (by omega) ?_)
    refine List.forall_mem_cons.mpr ⟨by omega, fun next hmem => ?_⟩
    have hnext := Edge.time_le (hsorted.1 next hmem)
    omega
  conv_lhs => rw [← Nat.add_sub_cancel' hle, Nat.count_add]
  congr 1
  split
  · rename_i honly
    exact Nat.count_iff_forall.mpr fun offset hoffset => (hgap offset hoffset).trans honly
  · rename_i honly
    refine Nat.count_iff_forall_not.mpr fun offset hoffset halone => honly ?_
    exact (hgap offset hoffset).symm.trans halone

private theorem Sweep.mem_running_start {id : Id} (hstarts : edge.ends = false) :
    id ∈ (sweep.pass edge).running ↔ id = edge.id ∨ id ∈ sweep.running := by
  simp only [Sweep.pass, hstarts, Bool.false_eq_true, if_false]
  split
  · rename_i hin
    exact ⟨.inr, fun hor => hor.elim (fun heq => heq ▸ hin) fun hold => hold⟩
  · exact List.mem_cons

private theorem Sweep.mem_running_end {id : Id} (hends : edge.ends = true) :
    id ∈ (sweep.pass edge).running ↔ id ∈ sweep.running ∧ id ≠ edge.id := by
  simp only [Sweep.pass, hends, if_true]
  exact List.mem_filter.trans (and_congr_right fun _ => decide_eq_true_iff)

/-- An edge changes which units run as it changes which edges are passed. -/
theorem Sweep.Reached.mem_running_pass (hwell : nodes.WellFormed)
    (hreached : sweep.Reached nodes passed (edge :: rest)) (id : Id) :
    id ∈ (sweep.pass edge).running ↔ ∃ entry ∈ nodes, entry.1 = id ∧
      startOf entry ∈ passed ++ [edge] ∧ endOf entry ∉ passed ++ [edge] := by
  obtain ⟨owner, howner, hedge⟩ := mem_edges.mp (hreached.split ▸ by simp : edge ∈ edges nodes)
  have hsorted := List.pairwise_append.mp (hreached.split ▸ sorted_edges nodes)
  simp only [List.mem_append, List.mem_singleton]
  obtain rfl | rfl := hedge
  · -- The unit has not ended, for its end is no earlier than its start.
    have hopen : endOf owner ∉ passed := by
      intro hin
      have hge := hsorted.2.2 _ hin _ List.mem_cons_self
      have heq := Edge.position_inj
        (le_antisymm hge (startOf_le_endOf (hwell.interval owner howner)))
      exact Bool.noConfusion (congrArg Edge.ends heq)
    have hends : ∀ entry : Id × Node Id, endOf entry ≠ startOf owner := fun _ heq =>
      Bool.noConfusion (congrArg Edge.ends heq)
    rw [Sweep.mem_running_start rfl, hreached.running]
    constructor
    · rintro (rfl | ⟨entry, hmem, heq, hstart, hend⟩)
      · exact ⟨owner, howner, rfl, .inr rfl, not_or.mpr ⟨hopen, hends owner⟩⟩
      · exact ⟨entry, hmem, heq, .inl hstart, not_or.mpr ⟨hend, hends entry⟩⟩
    · rintro ⟨entry, hmem, heq, hstart | hstart, hend⟩
      · exact .inr ⟨entry, hmem, heq, hstart, fun hin => hend (.inl hin)⟩
      · exact .inl (heq.symm.trans (congrArg Edge.id hstart))
  · rw [Sweep.mem_running_end rfl, hreached.running]
    constructor
    · rintro ⟨⟨entry, hmem, heq, hstart, hend⟩, hne⟩
      refine ⟨entry, hmem, heq, .inl hstart, ?_⟩
      rintro (hin | hin)
      · exact hend hin
      · exact hne (heq.symm.trans (congrArg Edge.id hin))
    · rintro ⟨entry, hmem, heq, hstart | hstart, hend⟩
      · refine ⟨⟨entry, hmem, heq, hstart, fun hin => hend (.inl hin)⟩, fun hid => hend (.inr ?_)⟩
        rw [List.inj_on_of_nodup_map hwell.nodup hmem howner (heq.trans hid)]
      · exact Bool.noConfusion (congrArg Edge.ends hstart)

private theorem Sweep.Reached.pass (hwell : nodes.WellFormed)
    (hreached : sweep.Reached nodes passed (edge :: rest)) :
    (sweep.pass edge).Reached nodes (passed ++ [edge]) rest := by
  have hsorted := List.pairwise_append.mp (hreached.split ▸ sorted_edges nodes)
  have hrest := List.pairwise_cons.mp hsorted.2.1
  refine ⟨by simp [hreached.split], ?_, fun next hmem => Edge.time_le (hrest.1 next hmem),
    hreached.mem_running_pass hwell, ?_, ?_, ?_⟩
  · intro old hmem
    obtain hold | hnew := List.mem_append.mp hmem
    · exact Edge.time_le (hsorted.2.2 old hold edge List.mem_cons_self)
    · rw [List.mem_singleton.mp hnew]
      exact le_rfl
  · simp only [Sweep.pass]
    split
    · exact hreached.once.filter _
    · split
      · exact hreached.once
      · rename_i hnot
        exact List.nodup_cons.mpr ⟨hnot, hreached.once⟩
  · simp only [Sweep.pass]
    split
    · exact Tally.nodup_add hreached.keys
    · exact hreached.keys
  · intro wanted
    have hcount := hreached.count hwell wanted
    rw [← hreached.charged] at hcount
    refine Eq.trans ?_ hcount.symm
    simp only [Sweep.pass]
    split
    · rename_i only hrunning
      rw [Tally.weigh_add hreached.keys, hrunning]
      rfl
    · rename_i hrunning
      have hnone : onlyWanted wanted sweep.running = false := by
        unfold onlyWanted
        split
        · rename_i only heq
          exact absurd heq (hrunning only)
        · rfl
      simp [hnone]

private theorem Sweep.Reached.run (hwell : nodes.WellFormed)
    (hreached : sweep.Reached nodes passed rest) :
    (rest.foldl Sweep.pass sweep).Reached nodes (passed ++ rest) [] := by
  induction rest generalizing passed sweep with
  | nil => simpa using hreached
  | cons edge rest ih =>
    rw [List.append_cons]
    exact ih (hreached.pass hwell)

/-- A unit is charged the instants at which it runs alone. -/
theorem weigh_chargedAlone (hwell : nodes.WellFormed) (wanted : Id → Bool) :
    Tally.weigh wanted (chargedAlone nodes) =
      (aloneInstants nodes fun entry => wanted entry.1 = true).ncard := by
  have hfinal := (reached_start nodes).run hwell
  rw [List.nil_append] at hfinal
  refine (hfinal.charged wanted).trans ?_
  rw [Nat.count_eq_card_filter_range, ← Set.ncard_coe_finset]
  congr 1
  ext time
  have halone : runsAlone nodes wanted time = true ↔
      time ∈ aloneInstants nodes fun entry => wanted entry.1 = true := by
    simp only [runsAlone, onlyWanted, aloneInstants, Set.mem_ofPred_eq]
    match runningAt nodes time with
    | [] => simp
    | [entry] => simp
    | _ :: _ :: _ => simp
  rw [← halone]
  simp only [Finset.coe_filter, Finset.mem_range, Set.mem_ofPred_eq, and_iff_right_iff_imp]
  intro hruns
  by_contra hlate
  have hstopped : runsAlone nodes wanted time = onlyWanted wanted _ :=
    onlyWanted_perm (hfinal.perm_running hwell (not_lt.mp hlate) (by simp))
  have hended : (List.foldl Sweep.pass _ (edges nodes)).running = [] :=
    List.eq_nil_iff_forall_not_mem.mpr fun id hid => by
      obtain ⟨entry, hmem, -, -, hend⟩ := (hfinal.running id).mp hid
      exact hend (endOf_mem_edges hmem)
  rw [hstopped, hended] at hruns
  cases hruns

omit [LinearOrder Id] in
private theorem weigh_byLabel (wanted : String → Bool) (label : Id → String)
    (charged : List (Id × ℕ))
    {byLabel : List (String × ℕ)} (hnodup : (byLabel.map Prod.fst).Nodup) :
    let labelled := charged.foldl (fun byLabel entry =>
      Tally.add textLt (label entry.1) entry.2 byLabel) byLabel
    (labelled.map Prod.fst).Nodup ∧ Tally.weigh wanted labelled =
      Tally.weigh wanted byLabel + Tally.weigh (fun id => wanted (label id)) charged := by
  induction charged generalizing byLabel with
  | nil => exact ⟨hnodup, rfl⟩
  | cons entry rest ih =>
    have hadded : ((Tally.add textLt (label entry.1) entry.2 byLabel).map Prod.fst).Nodup :=
      Tally.nodup_add hnodup
    obtain ⟨hkeys, hweigh⟩ := ih hadded
    refine ⟨hkeys, hweigh.trans ?_⟩
    rw [Tally.weigh_add hnodup, Tally.weigh_cons]
    omega

private theorem labelOf_of_mem (hwell : nodes.WellFormed) {entry : Id × Node Id}
    (hmem : entry ∈ nodes) :
    labelOf nodes entry.1 = entry.2.label := by
  simp [labelOf, Keyed.lookup_of_mem hwell.nodup hmem]

private theorem weigh_label (hwell : nodes.WellFormed) (label : String) :
    Tally.weigh (fun id => decide (labelOf nodes id = label)) (chargedAlone nodes) =
      (aloneInstants nodes fun entry => entry.2.label = label).ncard := by
  rw [weigh_chargedAlone hwell]
  congr 1
  ext time
  refine exists_congr fun entry => and_congr_right fun hrunning => ?_
  have hmem : entry ∈ nodes := List.mem_of_mem_filter
    (hrunning ▸ List.mem_singleton_self entry : entry ∈ runningAt nodes time)
  simp only [labelOf_of_mem hwell hmem, decide_eq_true_eq]

omit [LinearOrder Id] in
private theorem ncard_alone_le {first last : ℕ}
    (hbounds : ∀ entry ∈ nodes, first ≤ entry.2.startUs ∧ entry.2.endUs ≤ last) :
    (aloneInstants nodes fun _ => True).ncard ≤ last - first := by
  have hsub : aloneInstants nodes (fun _ => True) ⊆ Finset.Ico first last := by
    rintro time ⟨entry, hrunning, -⟩
    obtain ⟨hmem, hruns⟩ := List.mem_filter.mp
      (hrunning ▸ List.mem_singleton_self entry : entry ∈ runningAt nodes time)
    have hinside := of_decide_eq_true hruns
    have hbound := hbounds entry hmem
    rw [Finset.mem_coe, Finset.mem_Ico]
    omega
  have hcard := Set.ncard_le_ncard hsub (Finset.finite_toSet _)
  rwa [Set.ncard_coe_finset, Nat.card_Ico] at hcard

/-- Each label is charged the instants at which exactly one unit runs and has the label, the
total is that of all such instants, and it is no longer than the build. -/
theorem alone_exact (nodes : Nodes Id) (hwell : nodes.WellFormed) :
    (∀ label us, (label, us) ∈ (alone nodes).1 ↔
      0 < us ∧ (aloneInstants nodes fun entry => entry.2.label = label).ncard = us) ∧
    ((alone nodes).1.map Prod.fst).Nodup ∧
    (alone nodes).2 = (aloneInstants nodes fun _ => True).ncard ∧
    ∀ first last, firstStart nodes = some first →
      (nodes.map fun entry => entry.2.endUs).max? = some last →
        (alone nodes).2 ≤ last - first := by
  have htotal : (alone nodes).2 = (aloneInstants nodes fun _ => True).ncard := by
    refine (weigh_chargedAlone hwell fun _ => true).trans ?_
    simp only
  have hempty : (([] : List (String × ℕ)).map Prod.fst).Nodup := List.nodup_nil
  have hlabelled := fun wanted =>
    weigh_byLabel wanted (labelOf nodes) (chargedAlone nodes) hempty
  have hkeys := (hlabelled fun _ => true).1
  refine ⟨fun label us => ?_, ?_, htotal, fun first last hfirst hlast => ?_⟩
  · rw [← weigh_label hwell]
    simp only [alone, List.mem_insertionSort, List.mem_filter, decide_eq_true_eq]
    rw [and_comm]
    refine and_congr_right fun hpos => ?_
    rw [Tally.mem_iff_weigh hkeys hpos, (hlabelled fun l => decide (l = label)).2,
      Tally.weigh_nil, Nat.zero_add]
  · have hperm := List.perm_insertionSort costlier
      (((chargedAlone nodes).foldl (fun byLabel entry =>
        Tally.add textLt (labelOf nodes entry.1) entry.2 byLabel) []).filter
          fun entry => decide (0 < entry.2))
    exact (hperm.map Prod.fst).nodup_iff.mpr (hkeys.sublist (List.filter_sublist.map Prod.fst))
  · rw [htotal]
    refine ncard_alone_le fun entry hmem => ⟨?_, ?_⟩
    · exact (List.min?_eq_some_iff.mp hfirst).2 _ (List.mem_map_of_mem hmem)
    · exact (List.max?_eq_some_iff.mp hlast).2 _ (List.mem_map_of_mem hmem)

/-- A unit between two others, one empty, with edges that coincide. -/
def touchingNodes : Nodes ℕ :=
  [(1, ⟨"a", 0, 4, []⟩), (2, ⟨"b", 4, 9, []⟩), (3, ⟨"a", 6, 6, []⟩), (4, ⟨"a", 7, 12, []⟩)]

theorem alone_exact_touching :
    (aloneInstants touchingNodes fun entry => entry.2.label = "a").ncard = 7 ∧
      (alone touchingNodes).2 ≤ 12 := by
  obtain ⟨hlabels, -, -, htotal⟩ := alone_exact touchingNodes
    ⟨by decide +kernel, by decide +kernel⟩
  exact ⟨((hlabels "a" 7).mp (by decide +kernel)).2, htotal 0 12 (by decide) (by decide)⟩

end MrBoxington.Analyze
