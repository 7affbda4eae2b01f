import MrBoxington.Lib.MemoCheck

/-!
# Checks on graphs with cycles

On a graph with cycles a remembered verdict can be too kind, since a node passes while
it is being checked. It is never too strict: what fails has something below it that
fails, so a check that starts with nothing remembered fails too. And the outcome of a
check depends only on the nodes that may be entered, and not on the fuel.
-/

namespace MemoCheck

variable {κ : Type*} {passes passes' enters : κ → Bool} {children children' : κ → List κ}
  {memo memo' memo'' : Memo κ} {node : κ} {fuel : ℕ}

/-! ## Checking a list -/

section CheckAll

variable {checkOne checkOne' : Memo κ → κ → Bool × Memo κ} {nodes : List κ}

private theorem checkAll_grows (hone : ∀ memo node, Grows memo (checkOne memo node).2)
    (memo : Memo κ)
    (nodes : List κ) : Grows memo (checkAll checkOne memo nodes).2 := by
  induction nodes generalizing memo with
  | nil => exact fun _ hnode => hnode
  | cons node rest ih =>
    have hfirst := hone memo node
    unfold checkAll
    split
    · rename_i memo' heq
      rw [heq] at hfirst
      exact hfirst.trans (ih memo')
    · rename_i memo' heq
      rw [heq] at hfirst
      exact hfirst

private theorem checkAll_agree (parents : Finset κ) (bound : ℕ)
    (hgrows : ∀ memo node, Grows memo (checkOne memo node).2)
    (hone : ∀ memo, ∀ node ∈ nodes, unseen parents memo < bound →
      checkOne memo node = checkOne' memo node)
    (hbound : unseen parents memo < bound) :
    checkAll checkOne memo nodes = checkAll checkOne' memo nodes := by
  induction nodes generalizing memo with
  | nil => rfl
  | cons node rest ih =>
    have hfirst := hgrows memo node
    unfold checkAll
    rw [← hone memo node List.mem_cons_self hbound]
    split
    · rename_i memo' heq
      rw [heq] at hfirst
      exact ih (fun memo other hother => hone memo other (List.mem_cons_of_mem _ hother))
        (Nat.lt_of_le_of_lt (unseen_le hfirst) hbound)
    · rfl

/-- What is remembered as failing is not complete. -/
def FailuresSound (passes enters : κ → Bool) (children : κ → List κ) (memo : Memo κ) : Prop :=
  ∀ node, memo node = some false → ¬Complete passes enters children node

private theorem checkAll_fails {holds : κ → Prop}
    (hone : ∀ memo node, FailuresSound passes enters children memo →
      ((checkOne memo node).1 = false → ¬holds node) ∧
        FailuresSound passes enters children (checkOne memo node).2)
    (hsound : FailuresSound passes enters children memo) :
    ((checkAll checkOne memo nodes).1 = false → ¬∀ node ∈ nodes, holds node) ∧
      FailuresSound passes enters children (checkAll checkOne memo nodes).2 := by
  induction nodes generalizing memo with
  | nil => exact ⟨by simp [checkAll], hsound⟩
  | cons node rest ih =>
    obtain ⟨hfails, hafter⟩ := hone memo node hsound
    unfold checkAll
    split
    · rename_i memo' heq
      rw [heq] at hafter
      obtain ⟨hlater, hend⟩ := ih hafter
      exact ⟨fun hfalse hall => hlater hfalse (List.forall_mem_cons.mp hall).2, hend⟩
    · rename_i memo' heq
      rw [heq] at hfails hafter
      exact ⟨fun _ hall => hfails rfl (List.forall_mem_cons.mp hall).1, hafter⟩

/-- What a check that passed has added: nodes that pass, with their children. -/
structure Explored (passes enters : κ → Bool) (children : κ → List κ) (memo memo' : Memo κ) :
    Prop where
  kept : ∀ node verdict, memo node = some verdict → memo' node = some verdict
  /-- Every new node passes, and its children are remembered as passing. -/
  closed : ∀ node, memo node = none → memo' node ≠ none →
    memo' node = some true ∧ passes node = true ∧
      ∀ child ∈ children node, enters child = true ∧ memo' child = some true

private theorem Explored.refl (memo : Memo κ) : Explored passes enters children memo memo :=
  ⟨fun _ _ h => h, fun _ hnone hsome => absurd hnone hsome⟩

private theorem Explored.trans (hfirst : Explored passes enters children memo memo')
    (hsecond : Explored passes enters children memo' memo'') :
    Explored passes enters children memo memo'' := by
  refine ⟨fun node verdict h => hsecond.kept node verdict (hfirst.kept node verdict h), ?_⟩
  intro node hnone hsome
  cases hmiddle : memo' node with
  | none => exact hsecond.closed node hmiddle hsome
  | some verdict =>
    obtain ⟨hverdict, hpasses, hchildren⟩ := hfirst.closed node hnone (by simp [hmiddle])
    exact ⟨hsecond.kept node true hverdict, hpasses, fun child hchild =>
      ⟨(hchildren child hchild).1, hsecond.kept child true (hchildren child hchild).2⟩⟩

private theorem checkAll_passes (parents : Finset κ) (bound : ℕ)
    (hgrows : ∀ memo node, Grows memo (checkOne memo node).2)
    (hone : ∀ memo, ∀ node ∈ nodes, unseen parents memo < bound →
      (checkOne memo node).1 = true → enters node = true ∧ (checkOne memo node).2 node = some true ∧
        Explored passes enters children memo (checkOne memo node).2)
    (hbound : unseen parents memo < bound) (hpassed : (checkAll checkOne memo nodes).1 = true) :
    (∀ node ∈ nodes, enters node = true ∧ (checkAll checkOne memo nodes).2 node = some true) ∧
      Explored passes enters children memo (checkAll checkOne memo nodes).2 := by
  induction nodes generalizing memo with
  | nil => exact ⟨by simp, Explored.refl memo⟩
  | cons node rest ih =>
    have hfirst := hone memo node List.mem_cons_self hbound
    have hgrew := hgrows memo node
    unfold checkAll at hpassed ⊢
    split at hpassed
    · rename_i memo' heq
      rw [heq] at hfirst hgrew
      obtain ⟨henters, hverdict, hexplored⟩ := hfirst rfl
      obtain ⟨hrest, hmore⟩ := ih
        (fun memo other hother => hone memo other (List.mem_cons_of_mem _ hother))
        (Nat.lt_of_le_of_lt (unseen_le hgrew) hbound) hpassed
      exact ⟨List.forall_mem_cons.mpr ⟨⟨henters, hmore.kept node true hverdict⟩, hrest⟩,
        hexplored.trans hmore⟩
    · exact absurd hpassed (by simp)

end CheckAll

/-! ## Checking a node -/

section Check

variable [DecidableEq κ] {parents : Finset κ}

/-- Check a child if it may be entered. -/
def checkChild (passes enters : κ → Bool) (children : κ → List κ) (fuel : ℕ) (memo : Memo κ)
    (child : κ) : Bool × Memo κ :=
  if enters child then check passes enters children fuel memo child else (false, memo)

/-- The check of what is below a node that is being checked. -/
def checkBelow (passes enters : κ → Bool) (children : κ → List κ) (fuel : ℕ) (memo : Memo κ)
    (node : κ) : Bool × Memo κ :=
  if passes node then checkAll (checkChild passes enters children fuel) memo (children node)
  else (false, memo)

private theorem check_seen {verdict : Bool} (hmemo : memo node = some verdict) :
    check passes enters children (fuel + 1) memo node = (verdict, memo) := by
  simp only [check, hmemo]

private theorem check_unseen (hmemo : memo node = none) :
    check passes enters children (fuel + 1) memo node =
      let below := checkBelow passes enters children fuel (Function.update memo node (some true))
        node
      (below.1, Function.update below.2 node (some below.1)) := by
  simp only [check, hmemo]
  rfl

private theorem check_grows (passes enters : κ → Bool) (children : κ → List κ) (fuel : ℕ)
    (memo : Memo κ)
    (node : κ) : Grows memo (check passes enters children fuel memo node).2 := by
  induction fuel generalizing memo node with
  | zero => exact fun _ hnode => hnode
  | succ fuel ih =>
    cases hmemo : memo node with
    | some verdict =>
      rw [check_seen hmemo]
      exact fun _ hnode => hnode
    | none =>
      rw [check_unseen hmemo]
      have hbelow : Grows (Function.update memo node (some true))
          (checkBelow passes enters children fuel (Function.update memo node (some true))
            node).2 := by
        unfold checkBelow
        split
        · refine checkAll_grows (fun memo child => ?_) _ _
          unfold checkChild
          split
          · exact ih memo child
          · exact fun _ hnode => hnode
        · exact fun _ hnode => hnode
      exact ((Grows.update memo node true).trans hbelow).trans (Grows.update _ node _)

private theorem checkChild_grows (passes enters : κ → Bool) (children : κ → List κ) (fuel : ℕ)
    (memo : Memo κ) (child : κ) :
    Grows memo (checkChild passes enters children fuel memo child).2 := by
  unfold checkChild
  split
  · exact check_grows passes enters children fuel memo child
  · exact fun _ hseen => hseen

/-- Two checks agree if the graphs agree at the nodes that may be entered, and both have
enough fuel. -/
theorem check_agree (judged : κ → Prop) (parents : Finset κ)
    (henters : ∀ node, enters node = true → judged node)
    (hagree : ∀ node, judged node →
      passes node = passes' node ∧ children node = children' node)
    (hparents : ∀ node, judged node → children node ≠ [] → node ∈ parents) {fuel' : ℕ}
    (hnode : judged node) (hfuel : unseen parents memo < fuel)
    (hfuel' : unseen parents memo < fuel') :
    check passes enters children fuel memo node =
      check passes' enters children' fuel' memo node := by
  induction fuel generalizing fuel' memo node with
  | zero => exact absurd hfuel (Nat.not_lt_zero _)
  | succ fuel ih =>
    obtain ⟨fuel', rfl⟩ : ∃ n, fuel' = n + 1 := ⟨fuel' - 1, by omega⟩
    cases hmemo : memo node with
    | some verdict => rw [check_seen hmemo, check_seen hmemo]
    | none =>
      have hbelow : checkBelow passes enters children fuel (Function.update memo node (some true))
            node =
          checkBelow passes' enters children' fuel' (Function.update memo node (some true))
            node := by
        obtain ⟨hpasses, hchildren⟩ := hagree node hnode
        unfold checkBelow
        rw [← hpasses, ← hchildren]
        by_cases hleaf : children node = []
        · rw [hleaf]
          rfl
        split
        · have hlt := unseen_lt (hparents node hnode hleaf) hmemo true
          refine checkAll_agree parents (min fuel fuel') (checkChild_grows _ _ _ _) ?_ (by omega)
          intro memo child _ hbound
          unfold checkChild
          split
          · rename_i hchild
            exact ih (henters child hchild) (by omega) (by omega)
          · rfl
        · rfl
      rw [check_unseen hmemo, check_unseen hmemo, hbelow]

private theorem FailuresSound.update {verdict : Bool}
    (hsound : FailuresSound passes enters children memo)
    (hverdict : verdict = false → ¬Complete passes enters children node) :
    FailuresSound passes enters children (Function.update memo node (some verdict)) := by
  intro other hother
  by_cases heq : other = node
  · rw [heq, Function.update_self, Option.some.injEq] at hother
    exact heq ▸ hverdict hother
  · rw [Function.update_of_ne heq] at hother
    exact hsound other hother

/-- A failed check is right, and its memo of failures stays sound. -/
theorem check_fails (fuel : ℕ) (node : κ) (hsound : FailuresSound passes enters children memo) :
    ((check passes enters children fuel memo node).1 = false →
        ¬Complete passes enters children node) ∧
      FailuresSound passes enters children (check passes enters children fuel memo node).2 := by
  induction fuel generalizing memo node with
  | zero => exact ⟨by simp [check], hsound⟩
  | succ fuel ih =>
    cases hmemo : memo node with
    | some verdict =>
      rw [check_seen hmemo]
      exact ⟨fun hfalse => hsound node (hmemo.trans (congrArg some hfalse)), hsound⟩
    | none =>
      rw [check_unseen hmemo]
      have hbegun : FailuresSound passes enters children (Function.update memo node (some true)) :=
        hsound.update (by simp)
      have hchild : ∀ memo child, FailuresSound passes enters children memo →
          ((checkChild passes enters children fuel memo child).1 = false →
            ¬(enters child = true ∧ Complete passes enters children child)) ∧
          FailuresSound passes enters children
            (checkChild passes enters children fuel memo child).2 := by
        intro memo child hmemo
        unfold checkChild
        split
        · obtain ⟨hfails, hkept⟩ := ih child hmemo
          exact ⟨fun hfalse hboth => hfails hfalse hboth.2, hkept⟩
        · rename_i hnot
          exact ⟨fun _ hboth => hnot hboth.1, hmemo⟩
      have hbelow : ((checkBelow passes enters children fuel
            (Function.update memo node (some true)) node).1 = false →
              ¬Complete passes enters children node) ∧
          FailuresSound passes enters children (checkBelow passes enters children fuel
            (Function.update memo node (some true)) node).2 := by
        rw [complete_iff]
        unfold checkBelow
        split
        · obtain ⟨hfails, hafter⟩ := checkAll_fails hchild hbegun
          exact ⟨fun hfalse hall => hfails hfalse hall.2, hafter⟩
        · rename_i hpasses
          exact ⟨fun _ hall => hpasses hall.1, hbegun⟩
      exact ⟨hbelow.1, hbelow.2.update hbelow.1⟩

/-- A check that passes has remembered everything below the node as passing, except for what
was remembered before. -/
theorem check_passes (hparents : ∀ node, children node ≠ [] → node ∈ parents)
    (hfuel : unseen parents memo < fuel)
    (hpassed : (check passes enters children fuel memo node).1 = true) :
    (check passes enters children fuel memo node).2 node = some true ∧
      Explored passes enters children memo (check passes enters children fuel memo node).2 := by
  induction fuel generalizing memo node with
  | zero => exact absurd hfuel (Nat.not_lt_zero _)
  | succ fuel ih =>
    cases hmemo : memo node with
    | some verdict =>
      rw [check_seen hmemo] at hpassed ⊢
      exact ⟨hmemo.trans (congrArg some hpassed), Explored.refl memo⟩
    | none =>
      rw [check_unseen hmemo] at hpassed ⊢
      dsimp only at hpassed ⊢
      rw [hpassed, Function.update_self]
      unfold checkBelow at hpassed ⊢
      by_cases hpasses : passes node = true
      · rw [if_pos hpasses] at hpassed ⊢
        have hbelow : (∀ child ∈ children node, enters child = true ∧
              (checkAll (checkChild passes enters children fuel)
                (Function.update memo node (some true)) (children node)).2 child = some true) ∧
            Explored passes enters children (Function.update memo node (some true))
              (checkAll (checkChild passes enters children fuel)
                (Function.update memo node (some true)) (children node)).2 := by
          by_cases hleaf : children node = []
          · rw [hleaf]
            exact ⟨by simp, Explored.refl _⟩
          have hlt := unseen_lt (hparents node hleaf) hmemo true
          refine checkAll_passes parents fuel (checkChild_grows _ _ _ _) ?_ (by omega) hpassed
          intro memo child _ hbound htrue
          unfold checkChild at htrue ⊢
          split at htrue
          · rename_i hchild
            rw [if_pos hchild]
            obtain ⟨hmarked, hmore⟩ := ih hbound htrue
            exact ⟨hchild, hmarked, hmore⟩
          · exact absurd htrue (by simp)
        generalize (checkAll (checkChild passes enters children fuel)
          (Function.update memo node (some true)) (children node)).2 = below at hbelow
        obtain ⟨hchildren, hexplored⟩ := hbelow
        have hnode : below node = some true := hexplored.kept node true (Function.update_self ..)
        rw [Function.update_eq_self_iff.mpr hnode.symm]
        refine ⟨rfl, ?_, ?_⟩
        · intro other verdict hother
          refine hexplored.kept other verdict ?_
          rwa [Function.update_of_ne]
          rintro rfl
          exact absurd (hmemo.symm.trans hother) (by simp)
        · intro other hnone hsome
          by_cases heq : other = node
          · rw [heq]
            exact ⟨hnode, hpasses, hchildren⟩
          · exact hexplored.closed other (by rwa [Function.update_of_ne heq]) hsome
      · rw [if_neg hpasses] at hpassed
        exact absurd hpassed (by simp)

private theorem complete_of_check (hparents : ∀ node, children node ≠ [] → node ∈ parents)
    (hfuel : parents.card < fuel)
    (hpassed : (check passes enters children fuel (fun _ => none) node).1 = true) :
    Complete passes enters children node := by
  have hunseen : unseen parents (fun _ => none) < fuel :=
    Nat.lt_of_le_of_lt (Finset.card_filter_le _ _) hfuel
  obtain ⟨hnode, hexplored⟩ := check_passes hparents hunseen hpassed
  have hclosed {other : κ} (hother : (check passes enters children fuel (fun _ => none) node).2
      other = some true) := hexplored.closed other rfl (by simp [hother])
  intro below hbelow
  have hmarked : (check passes enters children fuel (fun _ => none) node).2 below = some true := by
    induction hbelow with
    | refl => exact hnode
    | tail _ hchild ih => exact ((hclosed ih).2.2 _ hchild).2
  exact ⟨(hclosed hmarked).2.1, fun child hchild => ((hclosed hmarked).2.2 child hchild).1⟩

theorem check_fails_again (hsound : FailuresSound passes enters children memo)
    (hparents : ∀ node, children node ≠ [] → node ∈ parents) {fuel' : ℕ}
    (hfuel : parents.card < fuel')
    (hfailed : (check passes enters children fuel memo node).1 = false) :
    (check passes enters children fuel' (fun _ => none) node).1 = false := by
  rw [← Bool.not_eq_true]
  intro hpassed
  exact (check_fails fuel node hsound).1 hfailed (complete_of_check hparents hfuel hpassed)

end Check

end MemoCheck
