import Mathlib.Data.List.Basic

/-!
# Items by their places

The items of a list whose places are not among given ones, with places counted from any start.
-/

namespace Places

variable {α : Type*} {dropped dropped' : List ℕ} {start : ℕ} {items front back : List α}

/-- The items whose places are not among the given ones. -/
def keepFrom (dropped : List ℕ) (start : ℕ) (items : List α) : List α :=
  ((items.zipIdx start).filter fun item => item.2 ∉ dropped).map Prod.fst

/-- The places of an append are those of its parts. -/
theorem keepFrom_append : keepFrom dropped start (front ++ back) =
    keepFrom dropped start front ++ keepFrom dropped (start + front.length) back := by
  rw [keepFrom, List.zipIdx_append, List.filter_append, List.map_append]
  rfl

private theorem place_bounds {item : α × ℕ} (hitem : item ∈ items.zipIdx start) :
    start ≤ item.2 ∧ item.2 < start + items.length := by
  obtain ⟨hle, hlt, -⟩ := List.mem_zipIdx hitem
  exact ⟨hle, hlt⟩

theorem keepFrom_eq_self
    (hkept : ∀ place, start ≤ place → place < start + items.length → place ∉ dropped) :
    keepFrom dropped start items = items := by
  have hall : (items.zipIdx start).filter (fun item => item.2 ∉ dropped) = items.zipIdx start := by
    refine List.filter_eq_self.mpr fun item hitem => ?_
    obtain ⟨hle, hlt⟩ := place_bounds hitem
    exact decide_eq_true (hkept _ hle hlt)
  rw [keepFrom, hall, List.zipIdx_map_fst]

theorem keepFrom_eq_nil
    (hdropped : ∀ place, start ≤ place → place < start + items.length → place ∈ dropped) :
    keepFrom dropped start items = [] := by
  rw [keepFrom, List.map_eq_nil_iff, List.filter_eq_nil_iff]
  intro item hitem
  obtain ⟨hle, hlt⟩ := place_bounds hitem
  simpa using hdropped _ hle hlt

/-- Only the dropped places in range matter. -/
theorem keepFrom_congr (hsame : ∀ place, start ≤ place → place < start + items.length →
    (place ∈ dropped ↔ place ∈ dropped')) :
    keepFrom dropped start items = keepFrom dropped' start items := by
  rw [keepFrom, keepFrom]
  congr 1
  refine List.filter_congr fun item hitem => ?_
  obtain ⟨hle, hlt⟩ := place_bounds hitem
  simp only [hsame _ hle hlt]

theorem mem_drop_range {place first last : ℕ} :
    place ∈ (List.range last).drop first ↔ first ≤ place ∧ place < last := by
  rw [List.range_eq_range', List.drop_range', List.mem_range'_1]
  omega

end Places
