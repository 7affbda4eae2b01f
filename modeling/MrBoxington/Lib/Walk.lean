import Mathlib.Algebra.BigOperators.Group.Finset.Basic
import Mathlib.Algebra.Order.BigOperators.Group.Finset
import Mathlib.Logic.Relation

/-!
# Walking a graph with a list of nodes to visit

A walk takes a node from the end of a list, passes over it if it was seen, and
otherwise visits it and appends its children to the list. A visit changes a state and
may fail, which ends the walk. With enough fuel a walk that does not fail has seen
everything that can be reached.
-/

namespace Walk

variable {κ σ ε : Type*} [DecidableEq κ]

/-- Visit the pending nodes and everything below them; the last pending node is at the
head of the list. The fuel bounds how many nodes are taken from the list. -/
def walk (visit : σ → κ → Except ε (σ × List κ)) :
    ℕ → Finset κ → σ → List κ → Except ε (Finset κ × σ)
  | 0, seen, state, _ => .ok (seen, state)
  | _ + 1, seen, state, [] => .ok (seen, state)
  | fuel + 1, seen, state, node :: pending =>
    if node ∈ seen then walk visit fuel seen state pending
    else
      match visit state node with
      | .error e => .error e
      | .ok (state, children) =>
        walk visit fuel (insert node seen) state (children.reverse ++ pending)

variable {visit : σ → κ → Except ε (σ × List κ)} {fuel : ℕ} {seen : Finset κ} {state : σ}
  {pending : List κ} {children : κ → List κ} {outcome : Finset κ × σ}

/-- How many nodes can still be taken from the list. -/
def ahead (parents : Finset κ) (children : κ → List κ) (seen : Finset κ) (pending : List κ) : ℕ :=
  pending.length + ∑ node ∈ parents \ seen, (children node).length

private theorem ahead_insert {parents : Finset κ} {node : κ} (hnew : node ∉ seen)
    (hparents : ∀ node, children node ≠ [] → node ∈ parents) :
    ahead parents children (insert node seen) ((children node).reverse ++ pending) <
      ahead parents children seen (node :: pending) := by
  unfold ahead
  rw [List.length_append, List.length_reverse, List.length_cons]
  by_cases hleaf : children node = []
  · have hle : ∑ n ∈ parents \ insert node seen, (children n).length ≤
        ∑ n ∈ parents \ seen, (children n).length :=
      Finset.sum_le_sum_of_subset (Finset.sdiff_subset_sdiff (Finset.Subset.refl _)
        (Finset.subset_insert _ _))
    rw [hleaf, List.length_nil]
    omega
  · have hmem : node ∈ parents \ seen := Finset.mem_sdiff.mpr ⟨hparents node hleaf, hnew⟩
    have hsum := Finset.sum_erase_add (parents \ seen) (fun n => (children n).length) hmem
    rw [Finset.sdiff_insert, hsum.symm]
    omega

/-- With enough fuel a walk has seen the pending nodes and the children of every node
that it visited. -/
theorem walk_closed {parents : Finset κ}
    (hvisit : ∀ state node state' below, visit state node = .ok (state', below) →
      below = children node)
    (hparents : ∀ node, children node ≠ [] → node ∈ parents)
    (hfuel : ahead parents children seen pending ≤ fuel)
    (hwalk : walk visit fuel seen state pending = .ok outcome) :
    seen ⊆ outcome.1 ∧ (∀ node ∈ pending, node ∈ outcome.1) ∧
      ∀ node ∈ outcome.1, node ∉ seen → ∀ child ∈ children node, child ∈ outcome.1 := by
  induction fuel generalizing seen state pending with
  | zero =>
    have hpending : pending = [] := by
      unfold ahead at hfuel
      exact List.length_eq_zero_iff.mp (by omega)
    cases hwalk
    refine ⟨Finset.Subset.refl _, by simp [hpending], ?_⟩
    intro node hnode hnew
    exact absurd hnode hnew
  | succ fuel ih =>
    cases pending with
    | nil =>
      cases hwalk
      refine ⟨Finset.Subset.refl _, by simp, ?_⟩
      intro node hnode hnew
      exact absurd hnode hnew
    | cons node pending =>
      unfold walk at hwalk
      split at hwalk
      · rename_i hseen
        obtain ⟨hgrows, hpending, hclosed⟩ := ih (by
          unfold ahead at hfuel ⊢
          rw [List.length_cons] at hfuel
          omega) hwalk
        exact ⟨hgrows, List.forall_mem_cons.mpr ⟨hgrows hseen, hpending⟩, hclosed⟩
      · rename_i hnew
        split at hwalk
        · exact absurd hwalk (by simp)
        · rename_i state' below hvisited
          rw [hvisit _ _ _ _ hvisited] at hwalk
          have hlt : ahead parents children (insert node seen)
              ((children node).reverse ++ pending) <
                ahead parents children seen (node :: pending) := ahead_insert hnew hparents
          obtain ⟨hgrows, hpending, hclosed⟩ := ih (by omega) hwalk
          have hnode := hgrows (Finset.mem_insert_self node seen)
          refine ⟨(Finset.subset_insert _ _).trans hgrows,
            List.forall_mem_cons.mpr ⟨hnode, fun other hother =>
              hpending other (List.mem_append_right _ hother)⟩, ?_⟩
          intro other hother hnot child hchild
          by_cases heq : other = node
          · exact hpending child (List.mem_append_left _ (List.mem_reverse.mpr (heq ▸ hchild)))
          · exact hclosed other hother (by simp [heq, hnot]) child hchild

/-- Everything that can be reached from a pending node was seen, if what was seen before
was closed. -/
theorem walk_reaches {parents : Finset κ}
    (hvisit : ∀ state node state' below, visit state node = .ok (state', below) →
      below = children node)
    (hparents : ∀ node, children node ≠ [] → node ∈ parents)
    (hfuel : ahead parents children seen pending ≤ fuel)
    (hclosed : ∀ node ∈ seen, ∀ child ∈ children node, child ∈ seen)
    (hwalk : walk visit fuel seen state pending = .ok outcome) {root node : κ}
    (hroot : root ∈ pending ∨ root ∈ seen)
    (hreach : Relation.ReflTransGen (fun parent child => child ∈ children parent) root node) :
    node ∈ outcome.1 := by
  obtain ⟨hgrows, hpending, hchildren⟩ := walk_closed hvisit hparents hfuel hwalk
  induction hreach with
  | refl =>
    rcases hroot with hroot | hroot
    · exact hpending _ hroot
    · exact hgrows hroot
  | @tail parent child _ hchild ih =>
    by_cases hseen : parent ∈ seen
    · exact hgrows (hclosed parent hseen child hchild)
    · exact hchildren parent ih hseen child hchild

end Walk
