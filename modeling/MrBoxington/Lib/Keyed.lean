import Mathlib.Data.Finset.Dedup
import Mathlib.Data.Finset.Insert
import Mathlib.Data.List.Nodup

/-!
# Lists of entries with keys

Entries are looked up by a key. Updates are merged into a list by dropping the
entries that they replace and appending the last update for each key, so that the
list stays ordered from the oldest to the newest entry.
-/

namespace Keyed

variable {α κ : Type*} [DecidableEq κ] (key : α → κ)

/-- The first entry with a key. -/
def lookup (entries : List α) (k : κ) : Option α := entries.find? fun a => key a = k

/-- The first entry for each key that was not seen before. -/
def retainNew (seen : Finset κ) : List α → List α
  | [] => []
  | a :: rest =>
    if key a ∈ seen then retainNew seen rest
    else a :: retainNew (insert (key a) seen) rest

/-- The last entry for each key. -/
def latest (entries : List α) : List α := (retainNew key ∅ entries.reverse).reverse

/-- The entries that no update names, followed by the last update for each key. -/
def merge (base updates : List α) : List α :=
  base.filter (fun a => key a ∉ (updates.map key).toFinset) ++ latest key updates

/-- The entries that no later entry replaces. -/
def lasts : List α → List α
  | [] => []
  | a :: rest => if key a ∈ rest.map key then lasts rest else a :: lasts rest

variable {key} {base updates entries : List α} {k : κ} {a : α} {seen : Finset κ}

@[simp] theorem lookup_nil : lookup key [] k = none := rfl

@[simp] theorem lookup_cons :
    lookup key (a :: entries) k = if key a = k then some a else lookup key entries k := by
  unfold lookup
  rw [List.find?_cons]
  split <;> simp_all

/-- A lookup goes through the first list, then through the second. -/
theorem lookup_append :
    lookup key (base ++ updates) k = (lookup key base k).or (lookup key updates k) :=
  List.find?_append

theorem key_of_lookup (hlookup : lookup key entries k = some a) : key a = k := by
  simpa using List.find?_some hlookup

theorem mem_of_lookup (hlookup : lookup key entries k = some a) : a ∈ entries :=
  List.mem_of_find?_eq_some hlookup

/-- Exactly the absent keys are not found. -/
theorem lookup_eq_none_iff : lookup key entries k = none ↔ k ∉ entries.map key := by
  simp [lookup, List.find?_eq_none]

/-- With distinct keys an entry is found under its key. -/
theorem lookup_of_mem (hnodup : (entries.map key).Nodup) (hmem : a ∈ entries) :
    lookup key entries (key a) = some a := by
  induction entries with
  | nil => exact absurd hmem List.not_mem_nil
  | cons b rest ih =>
    rw [List.map_cons, List.nodup_cons] at hnodup
    rw [lookup_cons]
    rcases List.mem_cons.mp hmem with rfl | hrest
    · exact if_pos rfl
    · have hne : key b ≠ key a := by
        intro heq
        exact hnodup.1 (heq ▸ List.mem_map_of_mem hrest)
      rw [if_neg hne]
      exact ih hnodup.2 hrest

/-- With distinct keys the order of the entries does not matter. -/
theorem lookup_perm (hperm : base.Perm updates) (hnodup : (base.map key).Nodup) :
    lookup key base k = lookup key updates k := by
  have hnodup' : (updates.map key).Nodup := (hperm.map key).nodup_iff.mp hnodup
  cases hfound : lookup key base k with
  | none =>
    rw [lookup_eq_none_iff, (hperm.map key).mem_iff, ← lookup_eq_none_iff] at hfound
    exact hfound.symm
  | some a =>
    rw [← key_of_lookup hfound]
    exact (lookup_of_mem hnodup' (hperm.mem_iff.mp (mem_of_lookup hfound))).symm

private theorem lookup_retainNew :
    lookup key (retainNew key seen entries) k =
      if k ∈ seen then none else lookup key entries k := by
  induction entries generalizing seen with
  | nil => simp [retainNew]
  | cons a rest ih =>
    unfold retainNew
    by_cases hseen : key a ∈ seen
    · rw [if_pos hseen, ih, lookup_cons]
      by_cases hk : key a = k
      · subst hk
        simp [hseen]
      · rw [if_neg hk]
    · rw [if_neg hseen, lookup_cons, lookup_cons, ih]
      by_cases hk : key a = k
      · subst hk
        simp [hseen]
      · have hinsert : k ∈ insert (key a) seen ↔ k ∈ seen := by
          simp [Finset.mem_insert, Ne.symm hk]
        simp only [if_neg hk, hinsert]

private theorem nodup_retainNew : ((retainNew key seen entries).map key).Nodup ∧
    ∀ a ∈ retainNew key seen entries, key a ∉ seen := by
  induction entries generalizing seen with
  | nil => simp [retainNew]
  | cons a rest ih =>
    unfold retainNew
    by_cases hseen : key a ∈ seen
    · rw [if_pos hseen]
      exact ih
    · rw [if_neg hseen]
      obtain ⟨hnodup, hfresh⟩ := @ih (insert (key a) seen)
      refine ⟨?_, ?_⟩
      · rw [List.map_cons, List.nodup_cons]
        refine ⟨fun hmem => ?_, hnodup⟩
        obtain ⟨b, hb, hkey⟩ := List.mem_map.mp hmem
        exact hfresh b hb (hkey ▸ Finset.mem_insert_self _ _)
      · intro b hb
        rcases List.mem_cons.mp hb with rfl | hrest
        · exact hseen
        · exact fun hmem => hfresh b hrest (Finset.mem_insert_of_mem hmem)

theorem mem_of_mem_retainNew (hmem : a ∈ retainNew key seen entries) : a ∈ entries := by
  obtain ⟨hnodup, hfresh⟩ := @nodup_retainNew _ _ _ key entries seen
  have hfound := lookup_of_mem hnodup hmem
  rw [lookup_retainNew, if_neg (hfresh a hmem)] at hfound
  exact mem_of_lookup hfound

private theorem nodup_latest : ((latest key entries).map key).Nodup := by
  unfold latest
  rw [List.map_reverse, List.nodup_reverse]
  exact nodup_retainNew.1

private theorem lookup_latest : lookup key
    (latest key entries) k = lookup key entries.reverse k := by
  have hperm : (latest key entries).Perm (retainNew key ∅ entries.reverse) := List.reverse_perm _
  rw [lookup_perm hperm nodup_latest, lookup_retainNew]
  simp

private theorem retainNew_concat :
    retainNew key seen (entries ++ [a]) =
      retainNew key seen entries ++
        if key a ∈ seen ∨ key a ∈ entries.map key then [] else [a] := by
  induction entries generalizing seen with
  | nil => simp [retainNew]
  | cons b rest ih =>
    rw [List.cons_append, retainNew, retainNew, ih, ih]
    by_cases hb : key b ∈ seen
    · rw [if_pos hb, if_pos hb]
      congr 2
      simp only [List.map_cons, List.mem_cons, eq_iff_iff]
      constructor
      · rintro (hseen | hrest)
        · exact .inl hseen
        · exact .inr (.inr hrest)
      · rintro (hseen | hkey | hrest)
        · exact .inl hseen
        · exact .inl (hkey ▸ hb)
        · exact .inr hrest
    · rw [if_neg hb, if_neg hb, List.cons_append]
      congr 3
      simp only [Finset.mem_insert, List.map_cons, List.mem_cons, eq_iff_iff]
      tauto

/-- The loop that drops earlier entries keeps the last of each key. -/
theorem latest_eq_lasts : latest key entries = lasts key entries := by
  induction entries with
  | nil => rfl
  | cons a rest ih =>
    have hmem : (key a ∈ (∅ : Finset κ) ∨ key a ∈ rest.reverse.map key) ↔ key a ∈ rest.map key := by
      simp
    rw [latest, List.reverse_cons, retainNew_concat, List.reverse_append, lasts,
      if_congr hmem rfl rfl]
    rw [latest] at ih
    split
    · exact ih
    · rw [ih]
      rfl

/-- With distinct keys nothing is dropped. -/
theorem latest_of_nodup (hnodup : (entries.map key).Nodup) : latest key entries = entries := by
  have hall : ∀ {seen : Finset κ} {rest : List α}, (rest.map key).Nodup →
      (∀ a ∈ rest, key a ∉ seen) → retainNew key seen rest = rest := by
    intro seen rest hrest hfresh
    induction rest generalizing seen with
    | nil => rfl
    | cons a rest ih =>
      rw [List.map_cons, List.nodup_cons] at hrest
      unfold retainNew
      rw [if_neg (hfresh a List.mem_cons_self), ih hrest.2]
      intro b hb hmem
      rcases Finset.mem_insert.mp hmem with heq | hseen
      · exact hrest.1 (heq ▸ List.mem_map_of_mem hb)
      · exact hfresh b (List.mem_cons_of_mem _ hb) hseen
  unfold latest
  rw [hall (by rwa [List.map_reverse, List.nodup_reverse]) (by simp), List.reverse_reverse]

/-- A merge answers with the last update, else with the base. -/
theorem lookup_merge :
    lookup key (merge key base updates) k =
      (lookup key updates.reverse k).or (lookup key base k) := by
  have hfilter : lookup key (base.filter fun a => key a ∉ (updates.map key).toFinset) k =
      if k ∈ updates.map key then none else lookup key base k := by
    induction base with
    | nil => simp
    | cons a rest ih =>
      by_cases hk : key a = k
      · subst hk
        by_cases hmem : key a ∈ updates.map key <;> simp_all
      · by_cases hmem : key a ∈ updates.map key <;> simp_all
  unfold merge
  rw [lookup_append, hfilter, lookup_latest]
  by_cases hmem : k ∈ updates.map key
  · rw [if_pos hmem, Option.none_or]
    cases hfound : lookup key updates.reverse k with
    | none =>
      rw [lookup_eq_none_iff, List.map_reverse, List.mem_reverse] at hfound
      exact absurd hmem hfound
    | some a => rfl
  · have hnone : lookup key updates.reverse k = none := by
      rw [lookup_eq_none_iff, List.map_reverse, List.mem_reverse]
      exact hmem
    rw [if_neg hmem, hnone, Option.or_none, Option.none_or]

/-- A merge keeps the keys distinct. -/
theorem nodup_merge (hnodup : (base.map key).Nodup) : ((merge key base updates).map key).Nodup := by
  unfold merge
  rw [List.map_append, List.nodup_append']
  refine ⟨hnodup.sublist ((List.filter_sublist).map key), nodup_latest, ?_⟩
  intro k hbase hlatest
  obtain ⟨a, ha, rfl⟩ := List.mem_map.mp hbase
  obtain ⟨-, hfresh⟩ := List.mem_filter.mp ha
  have hfound : lookup key (latest key updates) (key a) ≠ none := by
    rw [Ne, lookup_eq_none_iff]
    exact fun h => h hlatest
  rw [lookup_latest, Ne, lookup_eq_none_iff, List.map_reverse, List.mem_reverse] at hfound
  simp_all

/-- A merge invents no entry. -/
theorem mem_of_mem_merge (hmem : a ∈ merge key base updates) : a ∈ base ∨ a ∈ updates := by
  rcases List.mem_append.mp hmem with hbase | hlatest
  · exact Or.inl (List.mem_of_mem_filter hbase)
  · exact Or.inr <| List.mem_reverse.mp (mem_of_mem_retainNew (List.mem_reverse.mp hlatest))

/-- A filter that spares a key leaves its lookup alone. -/
theorem lookup_filter {p : α → Bool} (hspared : ∀ a ∈ entries, key a = k → p a = true) :
    lookup key (entries.filter p) k = lookup key entries k := by
  induction entries with
  | nil => rfl
  | cons a rest ih =>
    have hrest := ih fun b hb => hspared b (List.mem_cons_of_mem _ hb)
    by_cases hp : p a = true
    · rw [List.filter_cons_of_pos hp, lookup_cons, lookup_cons, hrest]
    · have hk : key a ≠ k := fun heq => hp (hspared a List.mem_cons_self heq)
      rw [List.filter_cons_of_neg hp, lookup_cons, if_neg hk, hrest]

/-- A part of a list with distinct keys finds the same if it has the entries with the
key. -/
theorem lookup_of_sublist {part : List α} (hpart : part.Sublist entries)
    (hnodup : (entries.map key).Nodup) (hspared : ∀ a ∈ entries, key a = k → a ∈ part) :
    lookup key part k = lookup key entries k := by
  cases hfound : lookup key entries k with
  | none =>
    rw [lookup_eq_none_iff] at hfound ⊢
    exact fun hmem => hfound ((hpart.map key).subset hmem)
  | some a =>
    have hkey := key_of_lookup hfound
    rw [← hkey]
    exact lookup_of_mem (hnodup.sublist (hpart.map key)) (hspared a (mem_of_lookup hfound) hkey)

end Keyed
