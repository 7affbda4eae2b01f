import Mathlib.Data.List.Basic

/-!
# Searching a text that is read in chunks

A search over chunks keeps only the end of what it has read. If nothing it looks for is
longer than that end by more than one symbol, then whatever was not found so far and
occurs after the next chunk occurs in the kept end with the chunk after it.
-/

namespace ChunkScan

variable {α : Type*} {wanted : List α → Prop} {longest : ℕ} {seen window chunk text : List α}

/-- A wanted text stands somewhere in the text. -/
def Occurs (wanted : List α → Prop) (text : List α) : Prop :=
  ∃ front found back, text = front ++ found ++ back ∧ wanted found

/-- The window holds the end of what was seen: all of it, or as much as the longest
wanted text without one symbol. -/
def Window (longest : ℕ) (seen window : List α) : Prop :=
  ∃ dropped, seen = dropped ++ window ∧ (dropped = [] ∨ longest - 1 ≤ window.length)

/-- What is kept of a window. -/
def keepEnd (longest : ℕ) (window : List α) : List α :=
  window.drop (window.length - (longest - 1))

/-- More text does not hide an occurrence. -/
theorem Occurs.append_right (hoccurs : Occurs wanted text) (more : List α) :
    Occurs wanted (text ++ more) := by
  obtain ⟨front, found, back, rfl, hwanted⟩ := hoccurs
  exact ⟨front, found, back ++ more, by simp, hwanted⟩

private theorem Occurs.append_left (hoccurs : Occurs wanted text) (before : List α) :
    Occurs wanted (before ++ text) := by
  obtain ⟨front, found, back, rfl, hwanted⟩ := hoccurs
  exact ⟨before ++ front, found, back, by simp, hwanted⟩

theorem Window.start : Window longest ([] : List α) [] := ⟨[], rfl, .inl rfl⟩

/-- The window of the text so far becomes that of the text with the chunk. -/
theorem Window.next (hwindow : Window longest seen window) (chunk : List α) :
    Window longest (seen ++ chunk) (keepEnd longest (window ++ chunk)) := by
  obtain ⟨dropped, rfl, hdropped⟩ := hwindow
  unfold keepEnd
  rw [List.append_assoc]
  generalize hlength : (window ++ chunk).length - (longest - 1) = count
  refine ⟨dropped ++ (window ++ chunk).take count, ?_, ?_⟩
  · rw [List.append_assoc, List.take_append_drop]
  · rw [List.length_append] at hlength
    rw [List.length_drop, List.length_append]
    by_cases hcount : count = 0
    · obtain rfl | hlong := hdropped
      · left
        simp [hcount]
      · right
        omega
    · right
      omega

/-- An occurrence that what was seen does not hold ends in the chunk, so that it begins
in the window or later. -/
theorem Window.occurs_iff (hwindow : Window longest seen window)
    (hlongest : ∀ found, wanted found → found.length ≤ longest)
    (hclean : ¬ Occurs wanted seen) :
    Occurs wanted (window ++ chunk) ↔ Occurs wanted (seen ++ chunk) := by
  obtain ⟨dropped, rfl, hdropped⟩ := hwindow
  constructor
  · intro hoccurs
    rw [List.append_assoc]
    exact hoccurs.append_left dropped
  · rintro ⟨front, found, back, htext, hwanted⟩
    have hends : (dropped ++ window).length < (front ++ found).length := by
      by_contra hle
      obtain ⟨more, hmore⟩ : front ++ found <+: dropped ++ window :=
        List.prefix_of_prefix_length_le ⟨back, htext.symm⟩ ⟨chunk, rfl⟩ (Nat.not_lt.mp hle)
      exact hclean ⟨front, found, more, hmore.symm, hwanted⟩
    have hbegins : dropped.length ≤ front.length := by
      have hfound := hlongest found hwanted
      simp only [List.length_append] at hends
      obtain rfl | hlong := hdropped
      · simp
      · omega
    obtain ⟨front', rfl⟩ : dropped <+: front :=
      List.prefix_of_prefix_length_le ⟨window ++ chunk, rfl⟩
        ⟨found ++ back, by rw [← List.append_assoc, ← List.append_assoc, htext]⟩ hbegins
    refine ⟨front', found, back, ?_, hwanted⟩
    simpa only [List.append_assoc, List.append_cancel_left_eq] using htext

end ChunkScan
