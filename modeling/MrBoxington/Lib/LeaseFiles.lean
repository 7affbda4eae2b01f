import Mathlib.Logic.Function.Basic
import Mathlib.Data.Nat.Notation
import Mathlib.Tactic.Common

/-!
# Lease files under a registrar

A process that needs something to stay creates a file of its own in the directory of that
key and locks it. Files are created and locked, and looked at by those who want to remove
the key, while the registrar, an exclusive lock, is held; they may be unlocked and removed
without it. Whoever holds the registrar and has found every file of a key unlocked knows
that there is no lease on it, and that there will be none while it holds the registrar.
-/

namespace LeaseFiles

/-- The lease files of every key, and the locks of their inodes. Inodes are numbered in
order of creation. -/
structure Disk (κ ν : Type*) where
  path : κ → ν → Option ℕ
  locked : ℕ → Bool
  next : ℕ

/-- What an agent is doing to lease files while it holds the registrar. -/
inductive Stage (κ ν : Type*) where
  | plain
  | opened (key : κ) (name : ν) (inode : ℕ)
  /-- It has found no lease on a key, except perhaps in files that are left to probe. -/
  | probing (key : κ) (rest : List ν)
  | pruning (key : κ) (name : ν) (rest : List ν)

variable {τ κ ν : Type*}

/-- What every sequence of operations maintains. -/
structure Disk.Sound (d : Disk κ ν) : Prop where
  path_lt : ∀ k n i, d.path k n = some i → i < d.next
  path_inj : ∀ k n k' n' i, d.path k n = some i → d.path k' n' = some i → k = k' ∧ n = n'

/-- The leases, each given by its key, name and inode, are protected by locked files, and
the stages of all agents are justified. -/
structure Guarded (d : Disk κ ν) (registrar : Option τ) (stage : τ → Stage κ ν)
    (lease : κ → ν → ℕ → Prop) : Prop where
  sound : d.Sound
  backed : ∀ k n i, lease k n i → d.path k n = some i ∧ d.locked i = true
  exclusive : ∀ t, stage t ≠ .plain → registrar = some t
  opened : ∀ t k n i, stage t = .opened k n i → d.path k n = some i
  probing : ∀ t k rest, stage t = .probing k rest → ∀ n i, lease k n i → n ∈ rest
  pruning : ∀ t k n rest, stage t = .pruning k n rest →
    ∀ m i, lease k m i → m ∈ rest ∧ m ≠ n

/-- Lock an inode. -/
def Disk.lock (d : Disk κ ν) (i : ℕ) : Disk κ ν :=
  { d with locked := Function.update d.locked i true }

/-- Unlock an inode. -/
def Disk.unlock (d : Disk κ ν) (i : ℕ) : Disk κ ν :=
  { d with locked := Function.update d.locked i false }

section Stages

variable {d d' : Disk κ ν} {registrar registrar' : Option τ} {stage stage' : τ → Stage κ ν}
  {lease lease' : κ → ν → ℕ → Prop} {t : τ} {k : κ} {n : ν} {i : ℕ}

/-- Who has probed every name of a key has found no lease. -/
theorem Guarded.none_of_probed (hguarded : Guarded d registrar stage lease)
    (hstage : stage t = .probing k []) : ¬lease k n i := by
  intro hlease
  exact List.not_mem_nil (hguarded.probing t k [] hstage n i hlease)

theorem Guarded.of_plain (hsound : d.Sound) (hstage : ∀ t, stage t = .plain)
    (hlease : ∀ k n i, ¬lease k n i) : Guarded d registrar stage lease := by
  constructor
  · exact hsound
  · exact fun k n i h => absurd h (hlease k n i)
  all_goals
    intro t
    simp [hstage t]

private theorem Guarded.of_agent (hguarded : Guarded d registrar stage lease) (t : τ)
    (hstage : ∀ u, u ≠ t → stage' u = stage u)
    (hregistrar : ∀ u, u ≠ t → registrar = some u → registrar' = some u)
    (hsound : d'.Sound)
    (hbacked : ∀ k n i, lease' k n i → d'.path k n = some i ∧ d'.locked i = true)
    (hnew : registrar = some t ∨ ∀ k n i, lease' k n i → lease k n i)
    (hopened : ∀ u k n i, u ≠ t → stage u = .opened k n i → d'.path k n = some i)
    (hself : stage' t ≠ .plain → registrar' = some t)
    (hselfOpened : ∀ k n i, stage' t = .opened k n i → d'.path k n = some i)
    (hselfProbing : ∀ k rest, stage' t = .probing k rest → ∀ n i, lease' k n i → n ∈ rest)
    (hselfPruning : ∀ k n rest, stage' t = .pruning k n rest →
      ∀ m i, lease' k m i → m ∈ rest ∧ m ≠ n) :
    Guarded d' registrar' stage' lease' := by
  -- Only the holder of the registrar can grant leases, and then the others do nothing.
  have hold : ∀ u, u ≠ t → stage u ≠ .plain → ∀ k n i, lease' k n i → lease k n i := by
    intro u hut hbusy
    refine hnew.resolve_left fun hmine => hut ?_
    exact Option.some.inj ((hguarded.exclusive u hbusy).symm.trans hmine)
  refine ⟨hsound, hbacked, fun u => ?_, fun u => ?_, fun u => ?_, fun u => ?_⟩
  all_goals
    by_cases hut : u = t
    · subst hut
      assumption
    rw [hstage u hut]
  · exact fun hbusy => hregistrar u hut (hguarded.exclusive u hbusy)
  · exact fun k n i hu => hopened u k n i hut hu
  · intro k rest hu n i hlease
    have hbusy : stage u ≠ .plain := by simp [hu]
    exact hguarded.probing u k rest hu n i (hold u hut hbusy k n i hlease)
  · intro k n rest hu m i hlease
    have hbusy : stage u ≠ .plain := by simp [hu]
    exact hguarded.pruning u k n rest hu m i (hold u hut hbusy k m i hlease)

/-- A step that changes no stage and adds no lease keeps the guard. -/
theorem Guarded.congr (hguarded : Guarded d registrar stage lease) (t : τ)
    (hregistrar : registrar' = registrar ∨ registrar = none)
    (hstage : ∀ u, stage' u = stage u)
    (hlease : ∀ k n i, lease' k n i → lease k n i) : Guarded d registrar' stage' lease' := by
  have hkept : ∀ u, registrar = some u → registrar' = some u := by
    intro u hu
    rcases hregistrar with rfl | rfl
    · exact hu
    · cases hu
  refine hguarded.of_agent t (fun u _ => hstage u) (fun u _ => hkept u) hguarded.sound
    (fun k n i h => hguarded.backed k n i (hlease k n i h)) (.inr hlease)
    (fun u k n i _ => hguarded.opened u k n i) ?_ ?_ ?_ ?_
  all_goals rw [hstage t]
  · exact fun hbusy => hkept t (hguarded.exclusive t hbusy)
  · exact hguarded.opened t
  · exact fun k rest ht n i h => hguarded.probing t k rest ht n i (hlease k n i h)
  · exact fun k n rest ht m i h => hguarded.pruning t k n rest ht m i (hlease k m i h)

/-- A task that leaves the protocol keeps the guard. -/
theorem Guarded.leave (hguarded : Guarded d registrar stage lease)
    (hstage : ∀ u, u ≠ t → stage' u = stage u) (hplain : stage' t = .plain)
    (hregistrar : ∀ u, u ≠ t → registrar = some u → registrar' = some u) :
    Guarded d registrar' stage' lease := by
  refine hguarded.of_agent t hstage hregistrar hguarded.sound hguarded.backed
    (.inr fun _ _ _ h => h) (fun u k n i _ => hguarded.opened u k n i) ?_ ?_ ?_ ?_
  all_goals simp [hplain]

/-- The registrar moves on to its next stage. -/
theorem Guarded.advance (hguarded : Guarded d registrar stage lease)
    (hregistrar : registrar = some t) (hstage : ∀ u, u ≠ t → stage' u = stage u)
    (hselfOpened : ∀ k n i, stage' t = .opened k n i → d.path k n = some i)
    (hselfProbing : ∀ k rest, stage' t = .probing k rest → ∀ n i, lease k n i → n ∈ rest)
    (hselfPruning : ∀ k n rest, stage' t = .pruning k n rest →
      ∀ m i, lease k m i → m ∈ rest ∧ m ≠ n) :
    Guarded d registrar stage' lease :=
  hguarded.of_agent t hstage (fun _ _ h => h) hguarded.sound hguarded.backed
    (.inr fun _ _ _ h => h) (fun u k n i _ => hguarded.opened u k n i) (fun _ => hregistrar)
    hselfOpened hselfProbing hselfPruning

/-- The registrar lists the names that exist and starts to probe them. -/
theorem Guarded.list (hguarded : Guarded d registrar stage lease)
    (hregistrar : registrar = some t) (hstage : ∀ u, u ≠ t → stage' u = stage u)
    {names : List ν} (hnames : ∀ n, d.path k n ≠ none → n ∈ names)
    (hself : stage' t = .probing k names) : Guarded d registrar stage' lease := by
  refine hguarded.advance hregistrar hstage ?_ ?_ ?_
  · simp [hself]
  · rintro k' rest hprobing n i hlease
    obtain ⟨rfl, rfl⟩ := Stage.probing.inj (hself.symm.trans hprobing)
    exact hnames n (by simp [(hguarded.backed k n i hlease).1])
  · simp [hself]

/-- A name whose file is not locked carries no lease. -/
theorem Guarded.not_leased (hguarded : Guarded d registrar stage lease)
    (hfree : ∀ i, d.path k n = some i → d.locked i = false) : ¬lease k n i := by
  intro hlease
  obtain ⟨hpath, hlocked⟩ := hguarded.backed k n i hlease
  rw [hfree i hpath] at hlocked
  cases hlocked

theorem Guarded.narrow (hguarded : Guarded d registrar stage lease) {names names' : List ν}
    (hstage : stage t = .probing k names) (hothers : ∀ u, u ≠ t → stage' u = stage u)
    (hself : stage' t = .probing k names')
    (hnames : ∀ n i, lease k n i → n ∈ names → n ∈ names') :
    Guarded d registrar stage' lease := by
  refine hguarded.advance (hguarded.exclusive t (by simp [hstage])) hothers (by simp [hself]) ?_
    (by simp [hself])
  rintro k' rest hprobing n i hlease
  obtain ⟨rfl, rfl⟩ := Stage.probing.inj (hself.symm.trans hprobing)
  exact hnames n i hlease (hguarded.probing t k names hstage n i hlease)

private theorem Guarded.probed (hguarded : Guarded d registrar stage lease) {rest : List ν}
    (hstage : stage t = .probing k (n :: rest))
    (hfree : ∀ i, d.path k n = some i → d.locked i = false) {m : ν} (hlease : lease k m i) :
    m ∈ rest ∧ m ≠ n := by
  have hne : m ≠ n := by
    rintro rfl
    exact hguarded.not_leased hfree hlease
  exact ⟨(List.mem_cons.mp (hguarded.probing t k _ hstage m i hlease)).resolve_left hne, hne⟩

/-- A name found free is taken off the names to probe. -/
theorem Guarded.probe (hguarded : Guarded d registrar stage lease) {rest : List ν}
    (hstage : stage t = .probing k (n :: rest))
    (hothers : ∀ u, u ≠ t → stage' u = stage u)
    (hfree : ∀ i, d.path k n = some i → d.locked i = false)
    (hself : stage' t = .probing k rest ∨ stage' t = .pruning k n rest) :
    Guarded d registrar stage' lease := by
  have hregistrar := hguarded.exclusive t (by simp [hstage])
  rcases hself with hself | hself
  · refine hguarded.advance hregistrar hothers (by simp [hself]) ?_ (by simp [hself])
    rintro k' rest' hprobing m i hlease
    obtain ⟨rfl, rfl⟩ := Stage.probing.inj (hself.symm.trans hprobing)
    exact (hguarded.probed hstage hfree hlease).1
  · refine hguarded.advance hregistrar hothers (by simp [hself]) (by simp [hself]) ?_
    rintro k' n' rest' hpruning m i hlease
    obtain ⟨rfl, rfl, rfl⟩ := Stage.pruning.inj (hself.symm.trans hpruning)
    exact hguarded.probed hstage hfree hlease

/-- A pruned name is taken off the names to probe. -/
theorem Guarded.pruned (hguarded : Guarded d registrar stage lease) {rest : List ν}
    (hstage : stage t = .pruning k n rest) (hothers : ∀ u, u ≠ t → stage' u = stage u)
    (hself : stage' t = .probing k rest) : Guarded d registrar stage' lease := by
  refine hguarded.advance (hguarded.exclusive t (by simp [hstage])) hothers (by simp [hself]) ?_
    (by simp [hself])
  rintro k' rest' hprobing m i hlease
  obtain ⟨rfl, rfl⟩ := Stage.probing.inj (hself.symm.trans hprobing)
  exact (hguarded.pruning t k n rest hstage m i hlease).1

/-- The opened and locked file becomes a lease. -/
theorem Guarded.grant (hguarded : Guarded d registrar stage lease)
    (hopened : stage t = .opened k n i) (hstage : ∀ u, u ≠ t → stage' u = stage u)
    (hself : stage' t = .plain)
    (hlease : ∀ k' n' i', lease' k' n' i' → lease k' n' i' ∨ k' = k ∧ n' = n ∧ i' = i) :
    Guarded (d.lock i) registrar stage' lease' := by
  have hregistrar := hguarded.exclusive t (by simp [hopened])
  refine hguarded.of_agent t hstage (fun _ _ h => h) ⟨hguarded.sound.1, hguarded.sound.2⟩ ?_
    (.inl hregistrar) (fun u k' n' i' _ => hguarded.opened u k' n' i') (by simp [hself])
    (by simp [hself]) (by simp [hself]) (by simp [hself])
  intro k' n' i' hnew
  rcases hlease k' n' i' hnew with hold | ⟨rfl, rfl, rfl⟩
  · obtain ⟨hpath, hlocked⟩ := hguarded.backed k' n' i' hold
    refine ⟨hpath, ?_⟩
    by_cases hi : i' = i
    · simp [Disk.lock, hi]
    · simpa [Disk.lock, hi] using hlocked
  · exact ⟨hguarded.opened t k' n' i' hopened, by simp [Disk.lock]⟩

/-- A lease is given up with its lock. -/
theorem Guarded.drop (hguarded : Guarded d registrar stage lease) (hheld : lease k n i)
    (hlease : ∀ k' n' i', lease' k' n' i' → lease k' n' i' ∧ ¬(k' = k ∧ n' = n)) :
    Guarded (d.unlock i) registrar stage lease' where
  sound := ⟨hguarded.sound.1, hguarded.sound.2⟩
  backed k' n' i' hkept := by
    obtain ⟨hold, hother⟩ := hlease k' n' i' hkept
    obtain ⟨hpath, hlocked⟩ := hguarded.backed k' n' i' hold
    refine ⟨hpath, ?_⟩
    have hi : i' ≠ i := by
      rintro rfl
      exact hother (hguarded.sound.path_inj _ _ _ _ _ hpath (hguarded.backed k n _ hheld).1)
    simpa [Disk.unlock, hi] using hlocked
  exclusive := hguarded.exclusive
  opened := hguarded.opened
  probing t k rest hstage n i h := hguarded.probing t k rest hstage n i (hlease k n i h).1
  pruning t k n rest hstage m i h := hguarded.pruning t k n rest hstage m i (hlease k m i h).1

theorem Guarded.not_opened (hguarded : Guarded d registrar stage lease) (hbusy : stage t ≠ .plain)
    (hself : ∀ i, stage t ≠ .opened k n i) (u : τ) (i : ℕ) : stage u ≠ .opened k n i := by
  intro hu
  have hmine := hguarded.exclusive t hbusy
  have hother := hguarded.exclusive u (by simp [hu])
  have heq : u = t := Option.some.inj (hother.symm.trans hmine)
  exact hself i (heq ▸ hu)

end Stages

namespace Disk

variable [DecidableEq κ] [DecidableEq ν]

/-- Create a file. -/
def create (d : Disk κ ν) (k : κ) (n : ν) : Disk κ ν :=
  { d with
    path := Function.update d.path k (Function.update (d.path k) n (some d.next))
    next := d.next + 1 }

/-- Remove a file. -/
def unlink (d : Disk κ ν) (k : κ) (n : ν) : Disk κ ν :=
  { d with path := Function.update d.path k (Function.update (d.path k) n none) }

/-- Open the file of a name, which creates it where it is missing. -/
inductive Opens (d : Disk κ ν) (k : κ) (n : ν) : ℕ → Disk κ ν → Prop
  | found {i : ℕ} (hpath : d.path k n = some i) : Opens d k n i d
  | created (hpath : d.path k n = none) : Opens d k n d.next (d.create k n)

variable {d d' : Disk κ ν} {k k' : κ} {n n' : ν} {i j : ℕ}

@[simp] private theorem create_path_self : (d.create k n).path k n = some d.next := by
  simp [create]

private theorem create_path_of_some (hnone : d.path k n = none) (hpath : d.path k' n' = some i) :
    (d.create k n).path k' n' = some i := by
  unfold create
  by_cases hk : k' = k
  · subst hk
    have hn : n' ≠ n := by
      rintro rfl
      rw [hnone] at hpath
      cases hpath
    simpa [hn] using hpath
  · simpa [hk] using hpath

private theorem create_path_some (hpath : (d.create k n).path k' n' = some i) :
    (k' = k ∧ n' = n ∧ i = d.next) ∨ d.path k' n' = some i := by
  unfold create at hpath
  by_cases hk : k' = k
  · subst hk
    by_cases hn : n' = n
    · subst hn
      exact .inl ⟨rfl, rfl, (by simpa using hpath : d.next = i).symm⟩
    · exact .inr (by simpa [hn] using hpath)
  · exact .inr (by simpa [hk] using hpath)

private theorem unlink_path_some (hpath : (d.unlink k n).path k' n' = some i) :
    d.path k' n' = some i := by
  unfold unlink at hpath
  by_cases hk : k' = k
  · subst hk
    by_cases hn : n' = n
    · simp [hn] at hpath
    · simpa [hn] using hpath
  · simpa [hk] using hpath

private theorem unlink_path_of_ne (hne : ¬(k' = k ∧ n' = n)) (hpath : d.path k' n' = some i) :
    (d.unlink k n).path k' n' = some i := by
  unfold unlink
  by_cases hk : k' = k
  · subst hk
    have hn : n' ≠ n := fun h => hne ⟨rfl, h⟩
    simpa [hn] using hpath
  · simpa [hk] using hpath

private theorem Sound.create (hsound : d.Sound) : (d.create k n).Sound where
  path_lt k' n' i hpath := by
    rcases create_path_some hpath with ⟨-, -, rfl⟩ | hold
    · exact Nat.lt_succ_self _
    · exact Nat.lt_succ_of_lt (hsound.path_lt k' n' i hold)
  path_inj k₁ n₁ k₂ n₂ i h₁ h₂ := by
    rcases create_path_some h₁ with ⟨rfl, rfl, rfl⟩ | hold₁ <;>
      rcases create_path_some h₂ with ⟨rfl, rfl, heq⟩ | hold₂
    · exact ⟨rfl, rfl⟩
    · exact absurd (hsound.path_lt _ _ _ hold₂) (Nat.lt_irrefl _)
    · exact absurd (heq ▸ hsound.path_lt _ _ _ hold₁) (Nat.lt_irrefl _)
    · exact hsound.path_inj k₁ n₁ k₂ n₂ i hold₁ hold₂

private theorem Sound.unlink (hsound : d.Sound) : (d.unlink k n).Sound where
  path_lt k' n' i hpath := hsound.path_lt k' n' i (unlink_path_some hpath)
  path_inj k₁ n₁ k₂ n₂ i h₁ h₂ :=
    hsound.path_inj k₁ n₁ k₂ n₂ i (unlink_path_some h₁) (unlink_path_some h₂)

theorem Opens.path (hopens : d.Opens k n i d') : d'.path k n = some i := by
  cases hopens with
  | found hpath => exact hpath
  | created => exact create_path_self

end Disk

section Operations

variable [DecidableEq κ] [DecidableEq ν] {d d' : Disk κ ν} {registrar : Option τ}
  {stage stage' : τ → Stage κ ν} {lease : κ → ν → ℕ → Prop} {t : τ} {k : κ} {n : ν} {i : ℕ}

/-- A new file breaks no guard. -/
theorem Guarded.create (hguarded : Guarded d registrar stage lease)
    (hnone : d.path k n = none) : Guarded (d.create k n) registrar stage lease where
  sound := hguarded.sound.create
  backed k' n' i hlease := by
    obtain ⟨hpath, hlocked⟩ := hguarded.backed k' n' i hlease
    exact ⟨Disk.create_path_of_some hnone hpath, hlocked⟩
  exclusive := hguarded.exclusive
  opened t k' n' i hstage := Disk.create_path_of_some hnone (hguarded.opened t k' n' i hstage)
  probing := hguarded.probing
  pruning := hguarded.pruning

theorem Guarded.opens (hguarded : Guarded d registrar stage lease) (hopens : d.Opens k n i d') :
    Guarded d' registrar stage lease := by
  cases hopens with
  | found => exact hguarded
  | created hnone => exact hguarded.create hnone

/-- The registrar opens the file of its lease. -/
theorem Guarded.open (hguarded : Guarded d registrar stage lease)
    (hregistrar : registrar = some t) (hstage : ∀ u, u ≠ t → stage' u = stage u)
    (hopens : d.Opens k n i d') (hself : stage' t = .opened k n i) :
    Guarded d' registrar stage' lease := by
  refine (hguarded.opens hopens).advance hregistrar hstage ?_ (by simp [hself])
    (by simp [hself])
  rintro k' n' i' hopened
  obtain ⟨rfl, rfl, rfl⟩ := Stage.opened.inj (hself.symm.trans hopened)
  exact hopens.path

/-- A name without a lease and not opened by anyone may go. -/
theorem Guarded.unlink (hguarded : Guarded d registrar stage lease)
    (hlease : ∀ i, ¬lease k n i) (hopened : ∀ u i, stage u ≠ .opened k n i) :
    Guarded (d.unlink k n) registrar stage lease where
  sound := hguarded.sound.unlink
  backed k' n' i hheld := by
    obtain ⟨hpath, hlocked⟩ := hguarded.backed k' n' i hheld
    refine ⟨Disk.unlink_path_of_ne ?_ hpath, hlocked⟩
    rintro ⟨rfl, rfl⟩
    exact hlease i hheld
  exclusive := hguarded.exclusive
  opened u k' n' i hu := by
    refine Disk.unlink_path_of_ne ?_ (hguarded.opened u k' n' i hu)
    rintro ⟨rfl, rfl⟩
    exact hopened u i hu
  probing := hguarded.probing
  pruning := hguarded.pruning

end Operations

end LeaseFiles
