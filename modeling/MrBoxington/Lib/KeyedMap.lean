import MrBoxington.Lib.Keyed

/-!
# Ordered maps of entries with keys

A list of entries is collected into a map by inserting them one after the other;
the values of a map are a list in the order of the keys. Both agree with looking up
a key in the list.
-/

namespace Keyed

open Std (TreeMap)

variable {α κ : Type*} [Ord κ] {key : α → κ} {entries : List α} {k : κ}
  {map : TreeMap κ α}

/-- The map of a list's entries, in which later entries replace earlier ones. -/
def index (key : α → κ) (entries : List α) : TreeMap κ α :=
  entries.foldl (fun map a => map.insert (key a) a) ∅

/-- The values of a map in the order of their keys. -/
def values (map : TreeMap κ α) : List α := map.toList.map Prod.snd

/-- Every value is stored under its key. -/
def Faithful (key : α → κ) (map : TreeMap κ α) : Prop :=
  ∀ (k : κ) (a : α), map[k]? = some a → key a = k

variable [Std.TransOrd κ] [Std.LawfulEqOrd κ]

theorem mem_values {a : α} : a ∈ values map ↔ ∃ k : κ, map[k]? = some a := by
  simp [values, TreeMap.mem_toList_iff_getElem?_eq_some]

theorem map_key_values (hfaithful : Faithful key map) : (values map).map key = map.keys := by
  rw [← TreeMap.map_fst_toList_eq_keys, values, List.map_map]
  refine List.map_congr_left fun entry hentry => ?_
  exact hfaithful _ _ (TreeMap.mem_toList_iff_getElem?_eq_some.mp hentry)

theorem nodup_keys : map.keys.Nodup := by
  have hdistinct := map.distinct_keys
  simpa [List.Nodup, Std.LawfulEqCmp.compare_eq_iff_eq] using hdistinct

theorem nodup_values (hfaithful : Faithful key map) : ((values map).map key).Nodup := by
  rw [map_key_values hfaithful]
  exact nodup_keys

variable [DecidableEq κ]

private theorem getElem?_foldl_insert :
    (entries.foldl (fun map a => map.insert (key a) a) map)[k]? =
      (lookup key entries.reverse k).or map[k]? := by
  induction entries generalizing map with
  | nil => simp
  | cons a rest ih =>
    rw [List.foldl_cons, ih, List.reverse_cons, lookup_append, Option.or_assoc,
      TreeMap.getElem?_insert]
    simp only [Std.LawfulEqCmp.compare_eq_iff_eq, lookup_cons, lookup_nil]
    split <;> simp

/-- An index answers with the last entry of a key. -/
theorem getElem?_index : (index key entries)[k]? = lookup key entries.reverse k := by
  unfold index
  rw [getElem?_foldl_insert]
  simp

/-- With distinct keys an index is the lookup. -/
theorem getElem?_index_of_nodup (hnodup : (entries.map key).Nodup) :
    (index key entries)[k]? = lookup key entries k := by
  rw [getElem?_index]
  exact lookup_perm (List.reverse_perm _) (by rwa [List.map_reverse, List.nodup_reverse])

theorem faithful_index : Faithful key (index key entries) := by
  intro k a hfound
  rw [getElem?_index] at hfound
  exact key_of_lookup hfound

omit [DecidableEq κ] [Std.LawfulEqOrd κ] in
theorem faithful_empty : Faithful key (∅ : TreeMap κ α) := by
  intro k a hfound
  simp at hfound

/-- A faithful map and its values answer alike. -/
theorem lookup_values (hfaithful : Faithful key map) : lookup key (values map) k = map[k]? := by
  cases hfound : map[k]? with
  | none =>
    rw [lookup_eq_none_iff, List.mem_map]
    rintro ⟨a, ha, rfl⟩
    obtain ⟨k', hk'⟩ := mem_values.mp ha
    rw [← hfaithful _ _ hk', hfound] at hk'
    exact Option.some_ne_none a hk'.symm
  | some a =>
    rw [← hfaithful _ _ hfound]
    exact lookup_of_mem (nodup_values hfaithful) (mem_values.mpr ⟨k, hfound⟩)

end Keyed
