import Mathlib.Data.Fintype.Card
import Mathlib.Data.Set.Finite.Basic
import Mathlib.Order.WellFounded

/-!
# Acquiring in an order

Tasks hold resources and wait for resources. If every task waits only for what comes after all
that it holds, no set of tasks waits for each other.
-/

namespace LockOrder

variable {τ ρ : Type*} {before : ρ → ρ → Prop} {holds : τ → ρ → Prop} {waits : τ → Option ρ}

/-- Each task of the set waits for what another task of the set holds. -/
def Deadlocked (holds : τ → ρ → Prop) (waits : τ → Option ρ) (tasks : Set τ) : Prop :=
  tasks.Nonempty ∧
    ∀ task ∈ tasks, ∃ resource, waits task = some resource ∧
      ∃ other ∈ tasks, other ≠ task ∧ holds other resource

/-- What a task waits for comes after what it holds. -/
def OrderedWaits (before : ρ → ρ → Prop) (holds : τ → ρ → Prop) (waits : τ → Option ρ) : Prop :=
  ∀ task held wanted, holds task held → waits task = some wanted → before held wanted

/-- Tasks that wait in one order never wait in a circle. -/
theorem not_deadlocked (htrans : ∀ a b c, before a b → before b c → before a c)
    (hirrefl : ∀ a, ¬ before a a) (hordered : OrderedWaits before holds waits) {tasks : Set τ}
    (hfinite : tasks.Finite) : ¬ Deadlocked holds waits tasks := by
  rintro ⟨⟨first, hfirst⟩, hwaits⟩
  -- A task that waits for what comes last of all that the tasks wait for has no holder.
  let later (task other : tasks) : Prop :=
    ∃ wanted wanted', waits task = some wanted ∧ waits other = some wanted' ∧
      before wanted' wanted
  have : IsTrans tasks later := ⟨by
    rintro a b c ⟨wa, wb, ha, hb, hba⟩ ⟨wb', wc, hb', hc, hcb⟩
    obtain rfl := Option.some.inj (hb.symm.trans hb')
    exact ⟨wa, wc, ha, hc, htrans _ _ _ hcb hba⟩⟩
  have : Std.Irrefl later := ⟨by
    rintro a ⟨wanted, wanted', ha, ha', hself⟩
    obtain rfl := Option.some.inj (ha.symm.trans ha')
    exact hirrefl _ hself⟩
  have : Finite tasks := hfinite
  obtain ⟨last, -, hlast⟩ := (Finite.wellFounded_of_trans_of_irrefl later).has_min Set.univ
    ⟨⟨first, hfirst⟩, trivial⟩
  obtain ⟨wanted, hwanted, other, hother, -, hholds⟩ := hwaits last last.2
  obtain ⟨wanted', hwanted', -⟩ := hwaits other hother
  exact hlast ⟨other, hother⟩ trivial
    ⟨wanted', wanted, hwanted', hwanted, hordered other wanted wanted' hholds hwanted'⟩

end LockOrder
