import MrBoxington.Store.Collect

/-!
# Attempts to evict

Any attempt to remove an object can succeed, find nothing or be refused. Whatever the
attempts meet, the objects of live builds are touched last, and only after every other
object is gone.
-/

namespace MrBoxington.Store

/-- An attempt to remove an object. -/
structure Attempt where
  object : StoredFile
  removal : Removal

/-- The bytes that an attempt gives back. -/
def Attempt.freed (attempt : Attempt) : ℕ :=
  match attempt.removal with
  | .blocked => 0
  | .removed => attempt.object.size
  | .missing => attempt.object.size

/-- The bytes that attempts give back. -/
def freed : List Attempt → ℕ
  | [] => 0
  | attempt :: rest => attempt.freed + freed rest

/-- Remove files as an environment decides from all attempts before, and log the
attempts. -/
def recorded (outcome : List (Path × Removal) → Path → Removal) (log : List (Path × Removal))
    (path : Path) : Removal × List (Path × Removal) :=
  (outcome log path, log ++ [(path, outcome log path)])

/-- What the log shows of an attempt. -/
def Attempt.logged (attempt : Attempt) : Path × Removal := (attempt.object.path, attempt.removal)

/-- Whether an attempt leaves behind an object that nothing depends on. -/
def Attempt.leavesUnrooted (rooted : Finset Path) (attempt : Attempt) : Bool :=
  attempt.removal = .blocked && attempt.object.path ∉ rooted

/-- Attempts that keep the promise of an eviction that starts with some total. -/
structure Protective (rooted : Finset Path) (maxBytes total : ℕ) (objects : List StoredFile)
    (attempted : List Attempt) (remainingBytes : ℕ) : Prop where
  /-- Nothing that a live build depends on is attempted before every other object was, and
  none of these was blocked. -/
  unrooted_first : ∀ before attempt after, attempted = before ++ attempt :: after →
    attempt.object.path ∈ rooted →
      ((before.map Attempt.object).filter (·.path ∉ rooted)).Perm
          (objects.filter (·.path ∉ rooted)) ∧
        ∀ earlier ∈ before, earlier.object.path ∉ rooted → earlier.removal ≠ .blocked
  /-- The objects of each class are attempted by their last use, and those not attempted
  come after them. The attempts end only where no object is left, the rest fits, or an object of
  a live build comes next after another one was blocked. -/
  by_use : ∃ rest, (attempted.map Attempt.object ++ rest).Perm objects ∧
    ((attempted.map Attempt.object ++ rest).Pairwise fun left right =>
      (left.path ∈ rooted ↔ right.path ∈ rooted) → left.used ≤ right.used) ∧
    (rest = [] ∨ remainingBytes ≤ maxBytes ∨ (∃ next ∈ rest.head?, next.path ∈ rooted) ∧
      ∃ attempt ∈ attempted, attempt.leavesUnrooted rooted = true)
  over_budget : ∀ before attempt after, attempted = before ++ attempt :: after →
    maxBytes < total - freed before
  remaining : remainingBytes + freed attempted = total

variable {rooted : Finset Path} {maxBytes liveBytes : ℕ} {entries : List StoredFile}
  {outcome : List (Path × Removal) → Path → Removal} {log : List (Path × Removal)}
  {blockedUnrooted : Bool} {done : ObjectEvictions} {entry : StoredFile}

/-! ## One attempt -/

/-- The eviction stops where the rest fits, and before a protected object if another one
could not be removed. -/
theorem evictObjects_stop
    (hstop : liveBytes ≤ maxBytes ∨ (entry.path ∈ rooted ∧ blockedUnrooted = true)) :
    evictObjects rooted maxBytes (recorded outcome) (entry :: entries) liveBytes blockedUnrooted
        done log = ({ done with remainingBytes := liveBytes }, log) := by
  rw [evictObjects, if_pos hstop]

/-- Otherwise the next object is attempted, and its bytes count as gone unless it was
blocked. -/
theorem evictObjects_attempt (entries : List StoredFile)
    (outcome : List (Path × Removal) → Path → Removal) (log : List (Path × Removal))
    (done : ObjectEvictions)
    (hgo : ¬(liveBytes ≤ maxBytes ∨ (entry.path ∈ rooted ∧ blockedUnrooted = true))) :
    ∃ done', evictObjects rooted maxBytes (recorded outcome) (entry :: entries) liveBytes
        blockedUnrooted done log =
      evictObjects rooted maxBytes (recorded outcome) entries
        (liveBytes - (Attempt.mk entry (outcome log entry.path)).freed)
        (blockedUnrooted || (Attempt.mk entry (outcome log entry.path)).leavesUnrooted rooted)
        done' (log ++ [(Attempt.mk entry (outcome log entry.path)).logged]) := by
  rw [evictObjects, if_neg hgo]
  unfold recorded Attempt.freed Attempt.leavesUnrooted Attempt.logged
  cases outcome log entry.path with
  | removed => exact ⟨_, by simp; rfl⟩
  | missing => exact ⟨_, by simp; rfl⟩
  | blocked => exact ⟨_, by simp; rfl⟩

/-! ## A whole eviction -/

/-- An eviction attempts the front of its list. Before each attempt the rest is too large,
and before a protected object nothing else was left behind. It stops where nothing is left, the
rest fits, or something was left behind and a protected object comes next. -/
theorem evictObjects_attempts (rooted : Finset Path) (maxBytes : ℕ)
    (outcome : List (Path × Removal) → Path → Removal) (entries : List StoredFile)
    (liveBytes : ℕ) (blockedUnrooted : Bool) (done : ObjectEvictions)
    (log : List (Path × Removal)) :
    ∃ attempted rest, attempted.map Attempt.object ++ rest = entries ∧
      (evictObjects rooted maxBytes (recorded outcome) entries liveBytes blockedUnrooted done
        log).1.remainingBytes = liveBytes - freed attempted ∧
      (evictObjects rooted maxBytes (recorded outcome) entries liveBytes blockedUnrooted done
        log).2 = log ++ attempted.map Attempt.logged ∧
      (rest = [] ∨ liveBytes - freed attempted ≤ maxBytes ∨
        (∃ next ∈ rest.head?, next.path ∈ rooted) ∧ (blockedUnrooted = true ∨
          ∃ attempt ∈ attempted, attempt.leavesUnrooted rooted = true)) ∧
      ∀ before attempt after, attempted = before ++ attempt :: after →
        maxBytes < liveBytes - freed before ∧
          (attempt.object.path ∈ rooted → blockedUnrooted = false ∧
            ∀ earlier ∈ before, earlier.leavesUnrooted rooted = false) := by
  induction entries generalizing liveBytes blockedUnrooted done log with
  | nil => exact ⟨[], [], rfl, rfl, by simp [evictObjects], .inl rfl, by simp⟩
  | cons entry entries ih =>
    by_cases hstop : liveBytes ≤ maxBytes ∨ (entry.path ∈ rooted ∧ blockedUnrooted = true)
    · rw [evictObjects_stop hstop]
      refine ⟨[], entry :: entries, rfl, rfl, (List.append_nil log).symm, .inr ?_, by simp⟩
      exact hstop.imp_right fun ⟨hrooted, hblocked⟩ => ⟨⟨entry, rfl, hrooted⟩, .inl hblocked⟩
    obtain ⟨done', hnext⟩ := evictObjects_attempt entries outcome log done hstop
    rw [hnext]
    generalize hfirst : Attempt.mk entry (outcome log entry.path) = first
    have hobject : first.object = entry := by rw [← hfirst]
    obtain ⟨attempted, rest, hfront, hremaining, hlog, hend, hbefore⟩ :=
      ih (liveBytes - first.freed) (blockedUnrooted || first.leavesUnrooted rooted) done'
        (log ++ [first.logged])
    refine ⟨first :: attempted, rest, ?_, ?_, ?_, ?_, ?_⟩
    · rw [List.map_cons, hobject, List.cons_append, hfront]
    · rw [hremaining, freed, Nat.sub_sub]
    · rw [hlog, List.map_cons, ← List.append_cons]
    · rw [freed, ← Nat.sub_sub]
      refine hend.imp_right fun hend => hend.imp_right fun ⟨hnext, hleft⟩ => ⟨hnext, ?_⟩
      rw [Bool.or_eq_true, or_assoc] at hleft
      simpa using hleft
    · intro before attempt after hsplit
      cases before with
      | nil =>
        rw [List.nil_append, List.cons.injEq] at hsplit
        rw [← hsplit.1, hobject, freed]
        refine ⟨by omega, fun hrooted => ⟨?_, by simp⟩⟩
        exact Bool.eq_false_iff.mpr fun hblocked => hstop (.inr ⟨hrooted, hblocked⟩)
      | cons earliest before =>
        rw [List.cons_append, List.cons.injEq] at hsplit
        obtain ⟨hover, hprotect⟩ := hbefore before attempt after hsplit.2
        rw [← hsplit.1, freed, ← Nat.sub_sub]
        refine ⟨hover, fun hrooted => ?_⟩
        obtain ⟨hnone, hearlier⟩ := hprotect hrooted
        rw [Bool.or_eq_false_iff] at hnone
        exact ⟨hnone.1, List.forall_mem_cons.mpr ⟨hnone.2, hearlier⟩⟩

/-! ## The order of eviction -/

private theorem evictedBefore_total (rooted : Finset Path) (left right : StoredFile) :
    EvictedBefore rooted left right ∨ EvictedBefore rooted right left := by
  unfold EvictedBefore
  have := Int.le_total left.used right.used
  tauto

private theorem EvictedBefore.trans {first second third : StoredFile}
    (hfirst : EvictedBefore rooted first second) (hsecond : EvictedBefore rooted second third) :
    EvictedBefore rooted first third := by
  unfold EvictedBefore at *
  rcases hfirst with hfirst | ⟨hclass, hused⟩
  · exact .inl ⟨hfirst.1, by tauto⟩
  · rcases hsecond with hsecond | ⟨hclass', hused'⟩
    · exact .inl ⟨by tauto, hsecond.2⟩
    · exact .inr ⟨hclass.trans hclass', Int.le_trans hused hused'⟩

private theorem evictionOrder_pairwise (rooted : Finset Path) (objects : List StoredFile) :
    (evictionOrder rooted objects).Pairwise (EvictedBefore rooted) := by
  have : Std.Total (EvictedBefore rooted) := ⟨evictedBefore_total rooted⟩
  have : IsTrans StoredFile (EvictedBefore rooted) := ⟨fun _ _ _ => EvictedBefore.trans⟩
  exact List.pairwise_insertionSort _ _

private theorem filter_unrooted_of_rooted {before after : List StoredFile}
    (hordered : (before ++ entry :: after).Pairwise (EvictedBefore rooted))
    (hrooted : entry.path ∈ rooted) :
    (before ++ entry :: after).filter (·.path ∉ rooted) = before.filter (·.path ∉ rooted) := by
  have hafter : ∀ later ∈ after, later.path ∈ rooted := by
    intro later hlater
    have hbefore := (List.pairwise_cons.mp (List.pairwise_append.mp hordered).2.1).1 later hlater
    unfold EvictedBefore at hbefore
    tauto
  have hnone : (entry :: after).filter (·.path ∉ rooted) = [] := by
    rw [List.filter_eq_nil_iff]
    simpa using ⟨hrooted, hafter⟩
  rw [List.filter_append, hnone, List.append_nil]

private theorem freed_le (attempted : List Attempt) :
    freed attempted ≤ ((attempted.map Attempt.object).map StoredFile.size).sum := by
  induction attempted with
  | nil => exact Nat.le_refl 0
  | cons attempt rest ih =>
    have hone : attempt.freed ≤ attempt.object.size := by
      unfold Attempt.freed
      split <;> omega
    rw [freed, List.map_cons, List.map_cons, List.sum_cons]
    exact Nat.add_le_add hone ih

/-- Whatever each attempt meets, an eviction in the order of a collection attempts no object
of a live build while another object is left, goes by last use within each class, stops once
the rest fits and not before unless it must, and reports what remains. -/
theorem evictObjects_protective (rooted : Finset Path) (maxBytes otherBytes : ℕ)
    (objects : List StoredFile) (outcome : List (Path × Removal) → Path → Removal) :
    let total := (objects.map StoredFile.size).sum + otherBytes
    let evicted := evictObjects rooted maxBytes (recorded outcome) (evictionOrder rooted objects)
      total false ⟨0, 0, 0⟩ []
    ∃ attempted, evicted.2 = attempted.map Attempt.logged ∧
      Protective rooted maxBytes total objects attempted evicted.1.remainingBytes := by
  intro total evicted
  have hperm : (evictionOrder rooted objects).Perm objects := List.perm_insertionSort _ _
  have hordered := evictionOrder_pairwise rooted objects
  obtain ⟨attempted, rest, hfront, hremaining, hlog, hend, hbefore⟩ := evictObjects_attempts rooted
    maxBytes outcome (evictionOrder rooted objects) total false ⟨0, 0, 0⟩ []
  refine ⟨attempted, hlog, ?_, ?_, ?_, ?_⟩
  · intro before attempt after hsplit hrooted
    obtain ⟨-, hprotect⟩ := hbefore before attempt after hsplit
    have horder : evictionOrder rooted objects = before.map Attempt.object ++
        attempt.object :: (after.map Attempt.object ++ rest) := by
      rw [← hfront, hsplit, List.map_append, List.map_cons, List.append_assoc, List.cons_append]
    rw [horder] at hperm hordered
    have hsame := filter_unrooted_of_rooted hordered hrooted
    refine ⟨hsame ▸ hperm.filter _, fun earlier hearlier hunrooted hblocked => ?_⟩
    have hleft := (hprotect hrooted).2 earlier hearlier
    simp [Attempt.leavesUnrooted, hblocked, hunrooted] at hleft
  · have hremains : evicted.1.remainingBytes = total - freed attempted := hremaining
    refine ⟨rest, hfront ▸ hperm, hfront ▸ hordered.imp ?_, by simpa [hremains] using hend⟩
    intro left right hbefore hclass
    unfold EvictedBefore at hbefore
    tauto
  · exact fun before attempt after hsplit => (hbefore before attempt after hsplit).1
  · have hsizes : freed attempted ≤ total := by
      have hall := (hperm.map StoredFile.size).sum_eq
      rw [← hfront, List.map_append, List.sum_append] at hall
      have hsome := freed_le attempted
      omega
    have hrest : evicted.1.remainingBytes = total - freed attempted := hremaining
    rw [hrest, Nat.sub_add_cancel hsizes]

end MrBoxington.Store
