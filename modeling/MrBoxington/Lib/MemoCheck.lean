import Mathlib.Data.Finset.Card
import Mathlib.Logic.Relation

/-!
# Checking everything below a node of a graph

A check of a node passes when the node itself passes and every child may be entered
and passes in turn. Verdicts are remembered, and a node is remembered as passing
while it is being checked. On a graph without cycles that provisional verdict is
never used, so every remembered verdict is the one that a fresh check would give,
whatever was checked before.
-/

namespace MemoCheck

variable {κ : Type*}

/-- Verdicts that are remembered. -/
abbrev Memo (κ : Type*) := κ → Option Bool

/-- Check the elements of a list until one fails. -/
def checkAll (check : Memo κ → κ → Bool × Memo κ) : Memo κ → List κ → Bool × Memo κ
  | memo, [] => (true, memo)
  | memo, child :: rest =>
    match check memo child with
    | (true, memo) => checkAll check memo rest
    | (false, memo) => (false, memo)

/-- Check a node and everything below it. The fuel bounds the depth. -/
def check [DecidableEq κ] (passes enters : κ → Bool) (children : κ → List κ) :
    ℕ → Memo κ → κ → Bool × Memo κ
  | 0, memo, _ => (true, memo)
  | fuel + 1, memo, node =>
    match memo node with
    | some verdict => (verdict, memo)
    | none =>
      let memo := Function.update memo node (some true)
      let (verdict, memo) :=
        if passes node then
          checkAll (fun memo child =>
            if enters child then check passes enters children fuel memo child
            else (false, memo)) memo (children node)
        else (false, memo)
      (verdict, Function.update memo node (some verdict))

variable {passes enters : κ → Bool} {children : κ → List κ}

/-- One step down. -/
def Child (children : κ → List κ) (parent child : κ) : Prop := child ∈ children parent

/-- Everything below a node passes, and so does the node. -/
def Complete (passes enters : κ → Bool) (children : κ → List κ) (node : κ) : Prop :=
  ∀ below, Relation.ReflTransGen (Child children) node below →
    passes below = true ∧ ∀ child ∈ children below, enters child = true

/-- No node is below itself. -/
def Acyclic (children : κ → List κ) : Prop :=
  ∀ node, ¬Relation.TransGen (Child children) node node

/-- Completeness, unfolded at one node. -/
theorem complete_iff {node : κ} :
    Complete passes enters children node ↔
      passes node = true ∧ ∀ child ∈ children node,
        enters child = true ∧ Complete passes enters children child := by
  constructor
  · intro hcomplete
    obtain ⟨hpasses, henters⟩ := hcomplete node .refl
    refine ⟨hpasses, fun child hchild => ⟨henters child hchild, ?_⟩⟩
    intro below hbelow
    exact hcomplete below (.head hchild hbelow)
  · rintro ⟨hpasses, hchildren⟩ below hbelow
    rcases Relation.ReflTransGen.cases_head hbelow with rfl | ⟨child, hchild, hrest⟩
    · exact ⟨hpasses, fun child hchild => (hchildren child hchild).1⟩
    · exact (hchildren child hchild).2 below hrest

/-- Apart from the nodes that are being checked, remembered verdicts are right. -/
def Sound (passes enters : κ → Bool) (children : κ → List κ) (checking : Set κ)
    (memo : Memo κ) : Prop :=
  ∀ node verdict, memo node = some verdict → node ∉ checking →
    (verdict = true ↔ Complete passes enters children node)

/-- How many nodes with children are not yet remembered. -/
def unseen (parents : Finset κ) (memo : Memo κ) : ℕ :=
  (parents.filter fun node => memo node = none).card

/-- What is remembered stays remembered. -/
def Grows (memo memo' : Memo κ) : Prop := ∀ node, memo node ≠ none → memo' node ≠ none

theorem Grows.trans {memo memo' memo'' : Memo κ} (hfirst : Grows memo memo')
    (hsecond : Grows memo' memo'') : Grows memo memo'' :=
  fun node hnode => hsecond node (hfirst node hnode)

theorem Grows.update [DecidableEq κ] (memo : Memo κ) (node : κ) (verdict : Bool) :
    Grows memo (Function.update memo node (some verdict)) := by
  intro other hother
  by_cases heq : other = node
  · rw [heq, Function.update_self]
    simp
  · rwa [Function.update_of_ne heq]

theorem unseen_le {parents : Finset κ} {memo memo' : Memo κ} (hgrows : Grows memo memo') :
    unseen parents memo' ≤ unseen parents memo := by
  apply Finset.card_le_card
  intro node hnode
  rw [Finset.mem_filter] at hnode ⊢
  refine ⟨hnode.1, ?_⟩
  by_contra hseen
  exact hgrows node hseen hnode.2

theorem unseen_lt [DecidableEq κ] {parents : Finset κ} {memo : Memo κ} {node : κ}
    (hparent : node ∈ parents)
    (hunseen : memo node = none) (verdict : Bool) :
    unseen parents (Function.update memo node (some verdict)) < unseen parents memo := by
  apply Finset.card_lt_card
  rw [Finset.ssubset_iff_of_subset]
  · exact ⟨node, Finset.mem_filter.mpr ⟨hparent, hunseen⟩, by simp⟩
  · intro other hother
    rw [Finset.mem_filter] at hother ⊢
    refine ⟨hother.1, ?_⟩
    by_contra hseen
    exact Grows.update memo node verdict other hseen hother.2

/-- An outcome of a check: the verdict is right, and so is what is remembered. -/
structure Judged (passes enters : κ → Bool) (children : κ → List κ) (checking : Set κ)
    (memo : Memo κ) (holds : Prop) (outcome : Bool × Memo κ) : Prop where
  verdict : outcome.1 = true ↔ holds
  sound : Sound passes enters children checking outcome.2
  grows : Grows memo outcome.2

/-- A check of a list finds whether all its elements pass, if the check of each element
does. -/
theorem checkAll_spec {checkOne : Memo κ → κ → Bool × Memo κ} {checking : Set κ}
    {parents : Finset κ} {bound : ℕ} {nodes : List κ} {holds : κ → Prop}
    (hone : ∀ memo, ∀ node ∈ nodes, Sound passes enters children checking memo →
      unseen parents memo < bound →
      Judged passes enters children checking memo (holds node) (checkOne memo node))
    {memo : Memo κ} (hsound : Sound passes enters children checking memo)
    (hbound : unseen parents memo < bound) :
    Judged passes enters children checking memo (∀ node ∈ nodes, holds node)
      (checkAll checkOne memo nodes) := by
  induction nodes generalizing memo with
  | nil => exact ⟨by simp [checkAll], hsound, fun _ hnode => hnode⟩
  | cons node rest ih =>
    obtain ⟨hverdict, hsoundOne, hgrowsOne⟩ := hone memo node List.mem_cons_self hsound hbound
    unfold checkAll
    split
    · rename_i memo' heq
      rw [heq] at hverdict hsoundOne hgrowsOne
      obtain ⟨hrest, hsoundRest, hgrowsRest⟩ :=
        ih (fun memo other hother => hone memo other (List.mem_cons_of_mem _ hother)) hsoundOne
          (Nat.lt_of_le_of_lt (unseen_le hgrowsOne) hbound)
      refine ⟨?_, hsoundRest, hgrowsOne.trans hgrowsRest⟩
      rw [hrest, List.forall_mem_cons]
      exact ⟨fun hall => ⟨hverdict.mp rfl, hall⟩, fun hall => hall.2⟩
    · rename_i memo' heq
      rw [heq] at hverdict hsoundOne hgrowsOne
      refine ⟨?_, hsoundOne, hgrowsOne⟩
      rw [List.forall_mem_cons]
      exact ⟨fun hfalse => absurd hfalse (by simp), fun hall => hverdict.mpr hall.1⟩

section Check

variable [DecidableEq κ]

private theorem Sound.begin {checking : Set κ} {memo : Memo κ} {node : κ}
    (hsound : Sound passes enters children checking memo) :
    Sound passes enters children (insert node checking)
      (Function.update memo node (some true)) := by
  intro other verdict hother hnot
  rw [Set.mem_insert_iff, not_or] at hnot
  rw [Function.update_of_ne hnot.1] at hother
  exact hsound other verdict hother hnot.2

private theorem Sound.finish {checking : Set κ} {memo : Memo κ} {node : κ} {verdict : Bool}
    (hsound : Sound passes enters children (insert node checking) memo)
    (hverdict : verdict = true ↔ Complete passes enters children node) :
    Sound passes enters children checking (Function.update memo node (some verdict)) := by
  intro other verdict' hother hnot
  by_cases heq : other = node
  · rw [heq, Function.update_self, Option.some.injEq] at hother
    rw [← hother, heq, hverdict]
  · rw [Function.update_of_ne heq] at hother
    exact hsound other verdict' hother (by simp [heq, hnot])

/-- With enough fuel a check finds completeness, and its memo stays sound. -/
theorem check_spec {parents : Finset κ} (hacyclic : Acyclic children)
    (hparents : ∀ node, children node ≠ [] → node ∈ parents)
    {fuel : ℕ} {checking : Set κ} {memo : Memo κ} (node : κ)
    (hsound : Sound passes enters children checking memo)
    (hapart : ∀ other ∈ checking, ¬Relation.ReflTransGen (Child children) node other)
    (hfuel : unseen parents memo < fuel) :
    Judged passes enters children checking memo (Complete passes enters children node)
      (check passes enters children fuel memo node) := by
  induction fuel generalizing checking memo node with
  | zero => exact absurd hfuel (Nat.not_lt_zero _)
  | succ fuel ih =>
    unfold check
    cases hmemo : memo node with
    | some verdict =>
      have hnot : node ∉ checking := fun hin => hapart node hin .refl
      exact ⟨hsound node verdict hmemo hnot, hsound, fun _ hseen => hseen⟩
    | none =>
      dsimp only
      have hgrows := Grows.update memo node true
      by_cases hpasses : passes node = true
      · rw [if_pos hpasses]
        have hchildren : Judged passes enters children (insert node checking)
            (Function.update memo node (some true))
            (∀ child ∈ children node, enters child = true ∧ Complete passes enters children child)
            (checkAll (fun memo child =>
              if enters child then check passes enters children fuel memo child
              else (false, memo)) (Function.update memo node (some true)) (children node)) := by
          by_cases hleaf : children node = []
          · rw [hleaf]
            exact ⟨by simp [checkAll], hsound.begin, fun _ hseen => hseen⟩
          have hlt := unseen_lt (hparents node hleaf) hmemo true
          refine checkAll_spec ?_ hsound.begin (Nat.lt_of_lt_of_le hlt (Nat.le_of_lt_succ hfuel))
          intro memo' child hchild hmemo' hbound
          by_cases henters : enters child = true
          · rw [if_pos henters]
            -- A node that is being checked is above the child, so not below it.
            obtain ⟨hverdict, hkept, hgrew⟩ := ih child hmemo' (by
              rintro other (rfl | hother) hbelow
              · exact hacyclic other (.head' hchild hbelow)
              · exact hapart other hother (.head hchild hbelow)) hbound
            exact ⟨by simp [hverdict, henters], hkept, hgrew⟩
          · rw [if_neg henters]
            exact ⟨by simp [henters], hmemo', fun _ hseen => hseen⟩
        have hcomplete := hchildren.verdict.trans
          ((and_iff_right hpasses).symm.trans complete_iff.symm)
        exact ⟨hcomplete, hchildren.sound.finish hcomplete,
          (hgrows.trans hchildren.grows).trans (Grows.update _ node _)⟩
      · rw [if_neg hpasses]
        have hcomplete : false = true ↔ Complete passes enters children node := by
          rw [complete_iff]
          simp [hpasses]
        exact ⟨hcomplete, hsound.begin.finish hcomplete, hgrows.trans (Grows.update _ node _)⟩

end Check

end MemoCheck
