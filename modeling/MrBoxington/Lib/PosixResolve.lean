import MrBoxington.Lib.PosixTree

/-!
# Where the system leads a path

A path leads from a directory through directories and links to whatever is at its end. A link
on the way stands for the path it holds, followed by the rest. What a path leads to is real: it
is reached from the root by its own names, through directories only. A path without steps up
leads where its names lead, and a path with steps up need not lead where it seems to.
-/

namespace PosixTree

variable {β : Type*}

/-- The path leads from one location to another, through so many links. -/
inductive Reaches (tree : Nodes β) : ℕ → Location → List Step → Location → Prop where
  | done {location : Location} : Reaches tree 0 location [] location
  | enter {links : ℕ} {location found : Location} {name : String} {rest : List Step}
      {node : Node β} (hdir : tree location = some .dir)
      (hnode : tree (location ++ [name]) = some node) (hlink : ∀ target, node ≠ .link target)
      (hrest : Reaches tree links (location ++ [name]) rest found) :
      Reaches tree links location (.down name :: rest) found
  | follow {links : ℕ} {location found : Location} {name : String} {target rest : List Step}
      (hdir : tree location = some .dir) (hlink : tree (location ++ [name]) = some (.link target))
      (hrest : Reaches tree links location (target ++ rest) found) :
      Reaches tree (links + 1) location (.down name :: rest) found
  | stay {links : ℕ} {location found : Location} {rest : List Step}
      (hdir : tree location = some .dir) (hrest : Reaches tree links location rest found) :
      Reaches tree links location (.stay :: rest) found
  | up {links : ℕ} {location found : Location} {rest : List Step}
      (hdir : tree location = some .dir) (hrest : Reaches tree links location.dropLast rest found) :
      Reaches tree links location (.up :: rest) found
  | top {links : ℕ} {location found : Location} {rest : List Step}
      (hdir : tree location = some .dir) (hrest : Reaches tree links [] rest found) :
      Reaches tree links location (.top :: rest) found

variable {tree : Nodes β} {links links' : ℕ} {location found found' : Location}
  {steps front rest : List Step}

theorem Reaches.intoDir {name : String} (hdir : tree location = some .dir)
    (hnode : tree (location ++ [name]) = some .dir)
    (hrest : Reaches tree links (location ++ [name]) rest found) :
    Reaches tree links location (.down name :: rest) found :=
  .enter hdir hnode (by simp) hrest

theorem Reaches.toFile {name : String} {contents : β} (hdir : tree location = some .dir)
    (hnode : tree (location ++ [name]) = some (.file contents)) :
    Reaches tree 0 location [.down name] (location ++ [name]) :=
  .enter hdir hnode (by simp) .done

/-- A path leads to one place, through one number of links. -/
theorem Reaches.deterministic (hreaches : Reaches tree links location steps found)
    (hreaches' : Reaches tree links' location steps found') : links = links' ∧ found = found' := by
  induction hreaches generalizing links' found' with
  | done =>
    cases hreaches'
    exact ⟨rfl, rfl⟩
  | enter hdir hnode hlink _ ih =>
    cases hreaches' with
    | enter _ _ _ hrest => exact ih hrest
    | follow _ htarget _ =>
      rw [hnode] at htarget
      exact absurd (Option.some.inj htarget) (hlink _)
  | follow hdir htarget _ ih =>
    cases hreaches' with
    | enter _ hnode hlink _ =>
      rw [htarget] at hnode
      exact absurd (Option.some.inj hnode).symm (hlink _)
    | follow _ htarget' hrest =>
      rw [htarget] at htarget'
      cases htarget'
      obtain ⟨rfl, rfl⟩ := ih hrest
      exact ⟨rfl, rfl⟩
  | stay _ _ ih =>
    cases hreaches' with
    | stay _ hrest => exact ih hrest
  | up _ _ ih =>
    cases hreaches' with
    | up _ hrest => exact ih hrest
  | top _ _ ih =>
    cases hreaches' with
    | top _ hrest => exact ih hrest

private theorem Reaches.append (hfront : Reaches tree links location front found)
    (hrest : Reaches tree links' found rest found') :
    Reaches tree (links + links') location (front ++ rest) found' := by
  induction hfront with
  | done => simpa using hrest
  | enter hdir hnode hlink _ ih => exact .enter hdir hnode hlink (ih hrest)
  | follow hdir hlink _ ih =>
    have := ih hrest
    rw [List.append_assoc] at this
    rw [Nat.add_right_comm]
    exact .follow hdir hlink this
  | stay hdir _ ih => exact .stay hdir (ih hrest)
  | up hdir _ ih => exact .up hdir (ih hrest)
  | top hdir _ ih => exact .top hdir (ih hrest)

private theorem Reaches.split (hreaches : Reaches tree links location (front ++ rest) found) :
    ∃ first second middle, Reaches tree first location front middle ∧
      Reaches tree second middle rest found ∧ links = first + second := by
  generalize hsteps : front ++ rest = steps at hreaches
  induction hreaches generalizing front with
  | done =>
    obtain ⟨rfl, rfl⟩ := List.append_eq_nil_iff.mp hsteps
    exact ⟨0, 0, _, .done, .done, rfl⟩
  | enter hdir hnode hlink hrest ih =>
    rcases List.append_eq_cons_iff.mp hsteps with ⟨rfl, rfl⟩ | ⟨front, rfl, rfl⟩
    · exact ⟨0, _, _, .done, .enter hdir hnode hlink hrest, (Nat.zero_add _).symm⟩
    · obtain ⟨first, second, middle, hfirst, hsecond, hlinks⟩ := ih rfl
      exact ⟨first, second, middle, .enter hdir hnode hlink hfirst, hsecond, hlinks⟩
  | follow hdir htarget hrest ih =>
    rcases List.append_eq_cons_iff.mp hsteps with ⟨rfl, rfl⟩ | ⟨front, rfl, rfl⟩
    · exact ⟨0, _, _, .done, .follow hdir htarget hrest, (Nat.zero_add _).symm⟩
    · obtain ⟨first, second, middle, hfirst, hsecond, hlinks⟩ := ih (List.append_assoc _ _ _)
      exact ⟨first + 1, second, middle, .follow hdir htarget hfirst, hsecond, by omega⟩
  | stay hdir hrest ih =>
    rcases List.append_eq_cons_iff.mp hsteps with ⟨rfl, rfl⟩ | ⟨front, rfl, rfl⟩
    · exact ⟨0, _, _, .done, .stay hdir hrest, (Nat.zero_add _).symm⟩
    · obtain ⟨first, second, middle, hfirst, hsecond, hlinks⟩ := ih rfl
      exact ⟨first, second, middle, .stay hdir hfirst, hsecond, hlinks⟩
  | up hdir hrest ih =>
    rcases List.append_eq_cons_iff.mp hsteps with ⟨rfl, rfl⟩ | ⟨front, rfl, rfl⟩
    · exact ⟨0, _, _, .done, .up hdir hrest, (Nat.zero_add _).symm⟩
    · obtain ⟨first, second, middle, hfirst, hsecond, hlinks⟩ := ih rfl
      exact ⟨first, second, middle, .up hdir hfirst, hsecond, hlinks⟩
  | top hdir hrest ih =>
    rcases List.append_eq_cons_iff.mp hsteps with ⟨rfl, rfl⟩ | ⟨front, rfl, rfl⟩
    · exact ⟨0, _, _, .done, .top hdir hrest, (Nat.zero_add _).symm⟩
    · obtain ⟨first, second, middle, hfirst, hsecond, hlinks⟩ := ih rfl
      exact ⟨first, second, middle, .top hdir hfirst, hsecond, hlinks⟩

/-! ## Real locations -/

/-- The location is reached by its own names, through directories. -/
structure Real (tree : Nodes β) (location : Location) : Prop where
  above : ∀ front name rest, location = front ++ name :: rest → tree front = some .dir
  here : ∃ node, tree location = some node ∧ ∀ target, node ≠ .link target

private theorem Real.enter {name : String} {node : Node β} (hreal : Real tree location)
    (hdir : tree location = some .dir) (hnode : tree (location ++ [name]) = some node)
    (hlink : ∀ target, node ≠ .link target) : Real tree (location ++ [name]) where
  above front other rest heq := by
    rcases List.append_eq_append_iff.mp heq.symm with ⟨back, rfl, hback⟩ | ⟨back, rfl, hback⟩
    · cases back with
      | nil => simpa using hdir
      | cons first back =>
        exact hreal.above front first back rfl
    · cases back with
      | nil => simpa using hdir
      | cons first back =>
        have := congrArg List.length hback
        simp at this
  here := ⟨node, hnode, hlink⟩

private theorem Real.root (hreal : Real tree location) (hdir : tree location = some .dir) :
    tree [] = some .dir := by
  cases location with
  | nil => exact hdir
  | cons name rest => exact hreal.above [] name rest rfl

theorem Real.nil (hroot : tree [] = some .dir) : Real tree [] where
  above front name rest heq := absurd (congrArg List.length heq) (by simp)
  here := ⟨.dir, hroot, by simp⟩

private theorem Real.dropLast (hreal : Real tree location) : Real tree location.dropLast := by
  cases location using List.reverseRecOn with
  | nil => exact hreal
  | append_singleton front name =>
    rw [List.dropLast_concat]
    refine ⟨fun above other rest heq => ?_, .dir, hreal.above front name [] rfl, by simp⟩
    exact hreal.above above other (rest ++ [name]) (by rw [heq]; simp)

/-- What is reached from a real location is real. -/
theorem Reaches.real (hreal : Real tree location)
    (hreaches : Reaches tree links location steps found) : Real tree found := by
  induction hreaches with
  | done => exact hreal
  | enter hdir hnode hlink _ ih => exact ih (hreal.enter hdir hnode hlink)
  | follow _ _ _ ih => exact ih hreal
  | stay _ _ ih => exact ih hreal
  | up _ _ ih => exact ih hreal.dropLast
  | top hdir _ ih => exact ih (.nil (hreal.root hdir))

/-- A real location is reached by its own names, without a link. -/
theorem Real.reaches {names : List String} (hreal : Real tree (location ++ names)) :
    Reaches tree 0 location (names.map .down) (location ++ names) := by
  induction names generalizing location with
  | nil =>
    rw [List.append_nil]
    exact .done
  | cons name names ih =>
    have hdir : tree location = some .dir := hreal.above location name names rfl
    have hsplit : location ++ name :: names = location ++ [name] ++ names := by simp
    obtain ⟨node, hnode, hlink⟩ : ∃ node, tree (location ++ [name]) = some node ∧
        ∀ target, node ≠ .link target := by
      cases names with
      | nil => exact hreal.here
      | cons second rest =>
        exact ⟨.dir, hreal.above _ second rest (by simp), by simp⟩
    rw [hsplit] at hreal ⊢
    exact .enter hdir hnode hlink (ih hreal)

/-! ## The path that the system reports -/

open Classical in
/-- What a path leads to, if anything. -/
noncomputable def realpath (tree : Nodes β) (location : Location) (steps : List Step) :
    Option Location :=
  if h : ∃ found links, Reaches tree links location steps found then some h.choose else none

/-- The computed path is the one the relation reaches. -/
theorem realpath_eq_some :
    realpath tree location steps = some found ↔
      ∃ links, Reaches tree links location steps found := by
  unfold realpath
  constructor
  · intro heq
    split at heq
    · rename_i h
      rw [← Option.some.inj heq]
      exact h.choose_spec
    · cases heq
  · rintro ⟨links, hreaches⟩
    have h : ∃ found links, Reaches tree links location steps found := ⟨found, links, hreaches⟩
    obtain ⟨links', hreaches'⟩ := h.choose_spec
    rw [dif_pos h, (hreaches.deterministic hreaches').2]

theorem Reaches.realpath (hreaches : Reaches tree links location steps found) :
    PosixTree.realpath tree location steps = some found := realpath_eq_some.mpr ⟨links, hreaches⟩

/-- A path is resolved part by part. -/
theorem realpath_append : realpath tree location (front ++ rest) =
    (realpath tree location front).bind fun middle => realpath tree middle rest := by
  apply Option.ext
  intro found
  rw [realpath_eq_some, Option.bind_eq_some_iff]
  constructor
  · rintro ⟨links, hreaches⟩
    obtain ⟨first, second, middle, hfirst, hsecond, -⟩ := hreaches.split
    exact ⟨middle, hfirst.realpath, hsecond.realpath⟩
  · rintro ⟨middle, hfirst, hsecond⟩
    obtain ⟨first, hfirst⟩ := realpath_eq_some.mp hfirst
    obtain ⟨second, hsecond⟩ := realpath_eq_some.mp hsecond
    exact ⟨first + second, hfirst.append hsecond⟩

@[simp] private theorem realpath_nil : realpath tree location
    [] = some location := Reaches.done.realpath

end PosixTree
