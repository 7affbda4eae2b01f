import MrBoxington.Uploads.Queue

/-!
# Action results never wait for queued blobs

A ticket can be seen by others only after its blob was pushed, because it is inserted and
the blob is pushed under one lock. So a prerequisite of an action result is reported,
being uploaded or pending whenever the action result is pending. The worker takes all
that is pending and finishes the blobs first.
-/

namespace MrBoxington.Uploads

open Protocol (Digest ActionResult)

section Packs

private theorem closePack_perm (pack : List PackMember) (packs : List (List PackMember))
    (singles : List PackMember) :
    ((closePack pack packs singles).1.flatten ++ (closePack pack packs singles).2).Perm
      (packs.flatten ++ singles ++ pack) := by
  unfold closePack
  split
  · simp
  · simp only [List.flatten_append, List.flatten_singleton, List.append_assoc]
    exact (List.perm_append_comm).append_left _

private theorem groupFrom_perm (limits : BlobPackLimits) (members : List PackMember)
    (packs : List (List PackMember)) (singles current : List PackMember) (currentBytes : ℕ) :
    ((groupFrom limits members packs singles current currentBytes).1.flatten ++
      (groupFrom limits members packs singles current currentBytes).2).Perm
      (packs.flatten ++ singles ++ current ++ members) := by
  induction members generalizing packs singles current currentBytes with
  | nil => simpa [groupFrom] using closePack_perm current packs singles
  | cons member rest ih =>
    unfold groupFrom
    split
    · refine (ih _ _ _ _).trans ?_
      simp only [List.append_assoc, List.singleton_append]
      exact ((@List.perm_middle _ member current rest).symm.append_left _).append_left _
    · split
      · refine (ih _ _ _ _).trans ?_
        simpa using (closePack_perm current packs singles).append_right (member :: rest)
      · refine (ih _ _ _ _).trans ?_
        simp

/-- Grouping into packs drops and repeats no member. -/
theorem groupIntoPacks_perm (members : List PackMember) (limits : BlobPackLimits) :
    ((groupIntoPacks members limits).1.flatten ++ (groupIntoPacks members limits).2).Perm
      members := by
  simpa [groupIntoPacks] using groupFrom_perm limits members [] [] [] 0

end Packs

section Tasks

private theorem mem_blobsOf {batch : List QueuedUpload} {member : PackMember} :
    member ∈ blobsOf batch ↔ .blob member ∈ batch := by
  simp only [blobsOf, List.mem_filterMap]
  constructor
  · rintro ⟨upload, hmem, hupload⟩
    cases upload with
    | blob found => cases hupload; exact hmem
    | actionResult queued => cases hupload
  · exact fun hmem => ⟨_, hmem, rfl⟩

private theorem mem_resultsOf {batch : List QueuedUpload} {queued : QueuedResult} :
    queued ∈ resultsOf batch ↔ .actionResult queued ∈ batch := by
  simp only [resultsOf, List.mem_filterMap]
  constructor
  · rintro ⟨upload, hmem, hupload⟩
    cases upload with
    | blob found => cases hupload
    | actionResult found => cases hupload; exact hmem
  · exact fun hmem => ⟨_, hmem, rfl⟩

/-- The tickets that the tasks will report. -/
def ticketsOf (tasks : List BlobTask) : List Ticket := tasks.flatMap BlobTask.tickets

private theorem ticketsOf_append (first second : List BlobTask) :
    ticketsOf (first ++ second) = ticketsOf first ++ ticketsOf second := List.flatMap_append

private theorem ticketsOf_members (members : List PackMember) :
    ticketsOf (members.map .member) = members.map PackMember.ticket := by
  induction members with
  | nil => rfl
  | cons member rest ih => simpa [ticketsOf, BlobTask.tickets] using ih

private theorem ticketsOf_reports (members : List PackMember) (outcome : UploadOutcome) :
    ticketsOf (members.map fun m => .report m.ticket outcome) =
      members.map PackMember.ticket := by
  induction members with
  | nil => rfl
  | cons member rest ih => simpa [ticketsOf, BlobTask.tickets] using ih

private theorem mem_ticketsOf_blobTasks {limits : Option BlobPackLimits} {blobs : List PackMember}
    {member : PackMember} (hmember : member ∈ blobs) :
    member.ticket ∈ ticketsOf (blobTasks limits blobs) := by
  unfold blobTasks
  split
  · rw [ticketsOf_members]
    exact List.mem_map_of_mem hmember
  · split
    · rw [ticketsOf_members]
      exact List.mem_map_of_mem hmember
    · rename_i limits
      dsimp only
      rw [ticketsOf_append, List.mem_append, ticketsOf_members]
      rcases List.mem_append.1 ((groupIntoPacks_perm blobs limits).mem_iff.2 hmember) with hp | hs
      · obtain ⟨pack, hpack, hmem⟩ := List.mem_flatten.1 hp
        exact .inl (List.mem_flatMap.2
          ⟨.pack pack, List.mem_map_of_mem hpack, List.mem_map_of_mem hmem⟩)
      · exact .inr (List.mem_map_of_mem hs)

private theorem BlobTask.Next.tickets {task : BlobTask} {next : List BlobTask}
    (hnext : task.Next next)
    {ticket : Ticket} (hticket : ticket ∈ task.tickets) : ticket ∈ ticketsOf next := by
  cases hnext with
  | upload m outcome => simpa [BlobTask.tickets, ticketsOf] using hticket
  | present members exist =>
    obtain ⟨member, hmember, rfl⟩ := List.mem_map.1 hticket
    rw [ticketsOf_append, ticketsOf_reports, List.mem_append]
    cases hexist : exist member with
    | false => exact .inl (List.mem_map_of_mem (by simp [hmember, hexist]))
    | true =>
      have hfilter : member ∈ members.filter exist := by simp [hmember, hexist]
      refine .inr ?_
      split
      · rw [ticketsOf_members]
        exact List.mem_map_of_mem hfilter
      · simpa [ticketsOf, BlobTask.tickets] using ⟨member, ⟨hmember, hexist⟩, rfl⟩
  | closed members => rwa [ticketsOf_reports]
  | accepted members => rwa [ticketsOf_reports]
  | refused members => rwa [ticketsOf_members]

end Tasks

section Invariant

variable {κ : Type} {s t : State κ}

/-- The tickets of the blobs that are being uploaded. -/
def Worker.uploading : Worker → List Ticket
  | .blobs tasks _ => ticketsOf tasks
  | _ => []

/-- The outcome of a ticket is known, or its blob is being uploaded or pending. -/
def State.Settling (s : State κ) (ticket : Ticket) : Prop :=
  (s.outcome ticket).isSome ∨ ticket ∈ s.worker.uploading ∨
    ticket ∈ (blobsOf s.pending).map PackMember.ticket

/-- What holds of a connection. -/
def ConnectionInv (s : State κ) (c : κ) : ConnectionPhase → Prop
  | .idle => True
  | .locked _ => s.lock = some c
  | .inserted _ => s.lock = some c
  | .recording ticket => s.Settling ticket
  | .gathered _ prerequisites => ∀ ticket ∈ prerequisites, s.Settling ticket
  | .ticketed queued => ∀ ticket ∈ queued.prerequisites, s.Settling ticket

/-- What holds of a task for an action result. -/
def ResultInv (outcome : Ticket → Option UploadOutcome) : ResultTask → Prop
  | .awaiting queued remaining => ∀ ticket ∈ queued.prerequisites, (outcome ticket).isSome ∧
      (ticket ∈ remaining ∨ outcome ticket = some .uploaded)
  | .report _ _ => True

/-- What holds of the worker. -/
def WorkerInv (outcome : Ticket → Option UploadOutcome) : Worker → Prop
  | .waiting => True
  | .blobs tasks results => ∀ queued ∈ results, ∀ ticket ∈ queued.prerequisites,
      (outcome ticket).isSome ∨ ticket ∈ ticketsOf tasks
  | .results tasks => ∀ task ∈ tasks, ResultInv outcome task

/-- What holds in every state. -/
structure State.Inv (s : State κ) : Prop where
  /-- A ticket that can be found is pushed, or its connection holds the lock. -/
  found : ∀ (digest : Digest) (ticket : Ticket), s.blobTickets[digest]? = some ticket →
    s.Settling ticket ∨ ∃ c member, s.phase c = .inserted member ∧ member.ticket = ticket
  recorded : ∀ c, ∀ ticket ∈ s.tickets c, s.Settling ticket
  connection : ∀ c, ConnectionInv s c (s.phase c)
  pending : ∀ queued, .actionResult queued ∈ s.pending →
    ∀ ticket ∈ queued.prerequisites, s.Settling ticket
  worker : WorkerInv s.outcome s.worker
  puts : ∀ queued ∈ s.puts, ∀ ticket ∈ queued.prerequisites, s.outcome ticket = some .uploaded

private theorem State.Inv.ordered (hinv : s.Inv) : s.Ordered where
  puts := hinv.puts
  settled tasks hworker queued remaining hmem ticket hticket := by
    have hworkerInv := hinv.worker
    rw [hworker] at hworkerInv
    exact (hworkerInv _ hmem ticket hticket).1

private theorem State.Inv.of_initial (hinitial : s.Initial) : s.Inv := by
  subst hinitial
  refine ⟨?_, ?_, fun c => trivial, ?_, trivial, ?_⟩ <;> simp

private theorem State.Settling.mono {ticket : Ticket} (hsettling : s.Settling ticket)
    (houtcome : t.outcome = s.outcome) (hworker : t.worker = s.worker)
    (hpending : s.pending ⊆ t.pending) : t.Settling ticket := by
  unfold State.Settling
  rw [houtcome, hworker]
  refine hsettling.imp_right (Or.imp_right fun hmem => ?_)
  obtain ⟨member, hmember, rfl⟩ := List.mem_map.1 hmem
  exact List.mem_map_of_mem (mem_blobsOf.2 (hpending (mem_blobsOf.1 hmember)))

private theorem State.Settling.of_pending {member : PackMember} (hmem : .blob member ∈ s.pending) :
    s.Settling member.ticket :=
  .inr (.inr (List.mem_map_of_mem (mem_blobsOf.2 hmem)))

private theorem ConnectionInv.mono {c : κ} {phase : ConnectionPhase}
    (hsettling : ∀ ticket, s.Settling ticket → t.Settling ticket)
    (hlock : s.lock = some c → t.lock = some c) (hinv : ConnectionInv s c phase) :
    ConnectionInv t c phase := by
  cases phase with
  | idle => trivial
  | locked digest => exact hlock hinv
  | inserted member => exact hlock hinv
  | recording ticket => exact hsettling ticket hinv
  | gathered result prerequisites =>
    exact fun ticket hticket => hsettling ticket (hinv ticket hticket)
  | ticketed queued => exact fun ticket hticket => hsettling ticket (hinv ticket hticket)

private theorem report_eq {outcome : Ticket → Option UploadOutcome} {ticket other : Ticket}
    {reported known : UploadOutcome} (hknown : outcome other = some known) :
    report outcome ticket reported other = some known := by
  unfold report
  by_cases heq : other = ticket
  · subst heq
    rw [Function.update_self, hknown, Option.getD_some]
  · rw [Function.update_of_ne heq, hknown]

private theorem report_isSome {outcome : Ticket → Option UploadOutcome} {ticket other : Ticket}
    {reported : UploadOutcome} (hknown : (outcome other).isSome ∨ other = ticket) :
    (report outcome ticket reported other).isSome := by
  unfold report
  by_cases heq : other = ticket
  · subst heq
    rw [Function.update_self]
    rfl
  · rw [Function.update_of_ne heq]
    exact hknown.resolve_right heq

private theorem ResultInv.mono {outcome outcome' : Ticket → Option UploadOutcome}
    {task : ResultTask}
    (hkept : ∀ ticket known, outcome ticket = some known → outcome' ticket = some known)
    (hinv : ResultInv outcome task) : ResultInv outcome' task := by
  cases task with
  | report ticket reported => trivial
  | awaiting queued remaining =>
    intro ticket hticket
    obtain ⟨hsome, hremaining⟩ := hinv ticket hticket
    obtain ⟨known, hknown⟩ := Option.isSome_iff_exists.1 hsome
    exact ⟨by rw [hkept ticket known hknown]; rfl, hremaining.imp_right (hkept ticket _)⟩

private theorem State.Inv.of_worker (hinv : s.Inv) (hphase : t.phase = s.phase)
    (hlock : t.lock = s.lock) (htickets : t.tickets = s.tickets)
    (hblobs : t.blobTickets = s.blobTickets)
    (hpending : ∀ queued, .actionResult queued ∈ t.pending → .actionResult queued ∈ s.pending)
    (hsettling : ∀ ticket, s.Settling ticket → t.Settling ticket)
    (hworker : WorkerInv t.outcome t.worker)
    (hputs : ∀ queued ∈ t.puts, ∀ ticket ∈ queued.prerequisites,
      t.outcome ticket = some .uploaded) : t.Inv where
  found digest ticket hticket := by
    rw [hblobs] at hticket
    rw [hphase]
    exact (hinv.found digest ticket hticket).imp_left (hsettling ticket)
  recorded c ticket hticket := by
    rw [htickets] at hticket
    exact hsettling ticket (hinv.recorded c ticket hticket)
  connection c := by
    rw [hphase]
    exact (hinv.connection c).mono hsettling fun hheld => by rw [hlock, hheld]
  pending queued hqueued ticket hticket :=
    hsettling ticket (hinv.pending queued (hpending queued hqueued) ticket hticket)
  worker := hworker
  puts := hputs

private theorem State.Inv.of_result (hinv : s.Inv) {before after : List ResultTask}
    {task : ResultTask} (rest : List ResultTask)
    (hresults : s.worker = .results (before ++ task :: after))
    (hworker : t.worker = .results (before ++ (rest ++ after))) (hphase : t.phase = s.phase)
    (hlock : t.lock = s.lock) (htickets : t.tickets = s.tickets)
    (hblobs : t.blobTickets = s.blobTickets) (hpending : t.pending = s.pending)
    (hkept : ∀ ticket known, s.outcome ticket = some known → t.outcome ticket = some known)
    (hrest : ResultInv s.outcome task → ∀ next ∈ rest, ResultInv s.outcome next)
    (hputs : ∀ queued ∈ t.puts, queued ∈ s.puts ∨ (ResultInv s.outcome task →
      ∀ ticket ∈ queued.prerequisites, s.outcome ticket = some .uploaded)) : t.Inv := by
  have hinvs := hinv.worker
  rw [hresults] at hinvs
  have htask : ResultInv s.outcome task := hinvs task (by simp)
  refine hinv.of_worker hphase hlock htickets hblobs (fun queued hmem => hpending ▸ hmem)
    (fun ticket hsettling => ?_) ?_ fun queued hqueued ticket hticket => ?_
  · unfold State.Settling at hsettling ⊢
    rw [hresults] at hsettling
    rw [hworker, hpending]
    refine hsettling.imp_left fun hknown => ?_
    obtain ⟨known, hknown⟩ := Option.isSome_iff_exists.1 hknown
    rw [hkept ticket known hknown]
    rfl
  · rw [hworker]
    intro next hnext
    refine ResultInv.mono hkept ?_
    rcases List.mem_append.1 hnext with hbefore | hnext
    · exact hinvs next (List.mem_append_left _ hbefore)
    · rcases List.mem_append.1 hnext with hnew | hafter
      · exact hrest htask next hnew
      · exact hinvs next (List.mem_append_right _ (List.mem_cons_of_mem _ hafter))
  · rcases hputs queued hqueued with hold | hnew
    · exact hkept ticket _ (hinv.puts queued hold ticket hticket)
    · exact hkept ticket _ (hnew htask ticket hticket)

variable [DecidableEq κ]

/-- A step of a connection keeps the invariant if tickets that become visible are
pushed. -/
private theorem State.Inv.of_connection (hinv : s.Inv) (c : κ) (phase : ConnectionPhase)
    (hphase : t.phase = Function.update s.phase c phase) (hworker : t.worker = s.worker)
    (houtcome : t.outcome = s.outcome) (hputs : t.puts = s.puts)
    (hsettling : ∀ ticket, s.Settling ticket → t.Settling ticket)
    (hlock : ∀ other, other ≠ c → s.lock = some other → t.lock = some other)
    (hfound : ∀ (digest : Digest) (ticket : Ticket), t.blobTickets[digest]? = some ticket →
      s.blobTickets[digest]? = some ticket ∨ phase = .inserted ⟨digest, ticket⟩)
    (hinserted : ∀ member, s.phase c = .inserted member → t.Settling member.ticket)
    (hrecorded : ∀ other, ∀ ticket ∈ t.tickets other,
      ticket ∈ s.tickets other ∨ t.Settling ticket)
    (hconnection : ConnectionInv t c phase)
    (hpending : ∀ queued, .actionResult queued ∈ t.pending →
      .actionResult queued ∈ s.pending ∨ ∀ ticket ∈ queued.prerequisites, t.Settling ticket) :
    t.Inv where
  found digest ticket hticket := by
    rcases hfound digest ticket hticket with hold | hnew
    · rcases hinv.found digest ticket hold with hsettled | ⟨other, member, hother, rfl⟩
      · exact .inl (hsettling ticket hsettled)
      · by_cases heq : other = c
        · exact .inl (hinserted member (heq ▸ hother))
        · exact .inr ⟨other, member, by rw [hphase, Function.update_of_ne heq, hother], rfl⟩
    · exact .inr ⟨c, _, by rw [hphase, Function.update_self, hnew], rfl⟩
  recorded other ticket hticket := by
    rcases hrecorded other ticket hticket with hold | hsettled
    · exact hsettling ticket (hinv.recorded other ticket hold)
    · exact hsettled
  connection other := by
    rw [hphase]
    by_cases heq : other = c
    · rw [heq, Function.update_self]
      exact hconnection
    · rw [Function.update_of_ne heq]
      exact (hinv.connection other).mono hsettling (hlock other heq)
  pending queued hqueued := by
    rcases hpending queued hqueued with hold | hsettled
    · exact fun ticket hticket => hsettling ticket (hinv.pending queued hold ticket hticket)
    · exact hsettled
  worker := by
    rw [hworker, houtcome]
    exact hinv.worker
  puts := by
    rw [hputs, houtcome]
    exact hinv.puts

private theorem State.Inv.connectionStep {c : κ} (hinv : s.Inv) (hstep : ConnectionStep c s t) :
    t.Inv := by
  have hsame : ∀ ticket, s.Settling ticket → s.Settling ticket := fun _ h => h
  have hconnection := hinv.connection c
  cases hstep with
  | lockBlob digest hidle hfree =>
    exact hinv.of_connection c _ rfl rfl rfl rfl hsame (by simp [hfree])
      (fun _ _ => .inl) (by simp [hidle]) (fun _ _ => .inl) rfl (fun _ => .inl)
  | reuse digest ticket awaited hlocked hticket hreusable =>
    rw [hlocked] at hconnection
    -- Whoever inserted the ticket has released the lock, and before that pushed the blob.
    have hsettled : s.Settling ticket := by
      rcases hinv.found digest ticket hticket with hsettled | ⟨other, member, hother, -⟩
      · exact hsettled
      · have hholder := hinv.connection other
        rw [hother] at hholder
        obtain rfl : c = other := Option.some.inj (hconnection.symm.trans hholder)
        cases hlocked.symm.trans hother
    refine hinv.of_connection c _ rfl rfl rfl rfl hsame (fun other hne hheld => ?_)
      (fun _ _ => .inl) (by simp [hlocked]) (fun _ _ => .inl) hsettled (fun _ => .inl)
    exact absurd (Option.some.inj (hheld.symm.trans hconnection)) hne
  | insert digest awaited hlocked hfresh =>
    rw [hlocked] at hconnection
    refine hinv.of_connection c _ rfl rfl rfl rfl hsame (fun _ _ => id)
      (fun other ticket hget => ?_)
      (by simp [hlocked]) (fun _ _ => .inl) hconnection (fun _ => .inl)
    dsimp only at hget
    rw [Std.TreeMap.getElem?_insert] at hget
    split at hget
    · rename_i hdigest
      rw [Std.compare_eq_iff_eq.1 hdigest, Option.some.inj hget]
      exact .inr rfl
    · exact .inl hget
  | pushBlob member hinserted =>
    rw [hinserted] at hconnection
    have hpushed : .blob member ∈ s.pending ++ [.blob member] :=
      List.mem_append_right _ (List.mem_singleton.2 rfl)
    refine hinv.of_connection c _ rfl rfl rfl rfl
      (fun _ hsettling => hsettling.mono rfl rfl (List.subset_append_left _ _))
      (fun other hne hheld => ?_)
      (fun _ _ => .inl) (fun found hfound => ?_) (fun _ _ => .inl) (.of_pending hpushed)
      (fun queued hmem => ?_)
    · exact absurd (Option.some.inj (hheld.symm.trans hconnection)) hne
    · obtain rfl : member = found := by simpa [hinserted] using hfound
      exact .of_pending hpushed
    · exact .inl (by simpa using hmem)
  | record ticket hrecording =>
    rw [hrecording] at hconnection
    refine hinv.of_connection c _ rfl rfl rfl rfl hsame (fun _ _ => id) (fun _ _ => .inl)
      (by simp [hrecording]) (fun other found hfound => ?_) trivial (fun _ => .inl)
    dsimp only at hfound
    by_cases heq : other = c
    · subst heq
      rw [Function.update_self, List.mem_append, List.mem_singleton] at hfound
      rcases hfound with hold | rfl
      · exact .inl hold
      · exact .inr hconnection
    · rw [Function.update_of_ne heq] at hfound
      exact .inl hfound
  | gather result hidle htickets =>
    exact hinv.of_connection c _ rfl rfl rfl rfl hsame (fun _ _ => id) (fun _ _ => .inl)
      (by simp [hidle]) (fun _ _ => .inl) (hinv.recorded c) (fun _ => .inl)
  | gatherAll result hidle htickets hfree =>
    refine hinv.of_connection c _ rfl rfl rfl rfl hsame (fun _ _ => id) (fun _ _ => .inl)
      (by simp [hidle]) (fun _ _ => .inl) (fun ticket hticket => ?_) (fun _ => .inl)
    obtain ⟨⟨digest, found⟩, hmem, rfl⟩ := List.mem_map.1 hticket
    rw [Std.TreeMap.mem_toList_iff_getElem?_eq_some] at hmem
    -- The lock is free, so no inserted ticket is still to be pushed.
    rcases hinv.found digest found hmem with hsettled | ⟨other, member, hother, -⟩
    · exact hsettled
    · have hholder := hinv.connection other
      rw [hother] at hholder
      cases hfree.symm.trans hholder
  | ticketResult result prerequisites hgathered =>
    rw [hgathered] at hconnection
    exact hinv.of_connection c _ rfl rfl rfl rfl hsame (fun _ _ => id) (fun _ _ => .inl)
      (by simp [hgathered]) (fun _ _ => .inl) hconnection (fun _ => .inl)
  | pushResult queued hticketed =>
    rw [hticketed] at hconnection
    have hpending := List.subset_append_left s.pending [.actionResult queued]
    refine hinv.of_connection c _ rfl rfl rfl rfl
      (fun _ hsettling => hsettling.mono rfl rfl hpending)
      (fun _ _ => id) (fun _ _ => .inl)
      (by simp [hticketed]) (fun _ _ => .inl) trivial (fun found hfound => ?_)
    rcases List.mem_append.1 hfound with hold | hnew
    · exact .inl hold
    · cases List.mem_singleton.1 hnew
      exact .inr fun ticket hticket => (hconnection ticket hticket).mono rfl rfl hpending

omit [DecidableEq κ] in
private theorem State.Inv.workerStep (hinv : s.Inv) (hstep : WorkerStep s t) : t.Inv := by
  have hworker := hinv.worker
  cases hstep with
  | take limits hwaiting hpending =>
    have hsettling : ∀ ticket, s.Settling ticket → (s.outcome ticket).isSome ∨
        ticket ∈ ticketsOf (blobTasks limits (blobsOf s.pending)) := by
      rintro ticket (hknown | huploading | hpending)
      · exact .inl hknown
      · rw [hwaiting] at huploading
        cases huploading
      · obtain ⟨member, hmember, rfl⟩ := List.mem_map.1 hpending
        exact .inr (mem_ticketsOf_blobTasks hmember)
    refine hinv.of_worker rfl rfl rfl rfl (by simp)
      (fun ticket h => (hsettling ticket h).imp_right .inl) ?_ hinv.puts
    intro queued hqueued ticket hticket
    exact hsettling ticket (hinv.pending queued (mem_resultsOf.1 hqueued) ticket hticket)
  | upload before after task next results hblobs hnext =>
    rw [hblobs] at hworker
    have htickets : ticketsOf (before ++ task :: after) ⊆ ticketsOf (before ++ next ++ after) := by
      intro ticket hticket
      rw [ticketsOf_append, List.mem_append] at hticket
      rw [List.append_assoc, ticketsOf_append, ticketsOf_append, List.mem_append, List.mem_append]
      rcases hticket with hbefore | hticket
      · exact .inl hbefore
      · rcases List.mem_append.1 hticket with htask | hafter
        · exact .inr (.inl (hnext.tickets htask))
        · exact .inr (.inr hafter)
    refine hinv.of_worker rfl rfl rfl rfl (fun _ => id) (fun ticket hsettling => ?_) ?_ hinv.puts
    · unfold State.Settling at hsettling
      rw [hblobs] at hsettling
      exact hsettling.imp_right (Or.imp_left fun hmem => htickets hmem)
    · exact fun queued hqueued ticket hticket =>
        (hworker queued hqueued ticket hticket).imp_right fun hmem => htickets hmem
  | reportBlob before after ticket outcome results hblobs =>
    rw [hblobs] at hworker
    have htickets : ∀ other, (s.outcome other).isSome ∨
        other ∈ ticketsOf (before ++ .report ticket outcome :: after) →
        (report s.outcome ticket outcome other).isSome ∨ other ∈ ticketsOf (before ++ after) := by
      rintro other (hknown | hother)
      · exact .inl (report_isSome (.inl hknown))
      · rw [ticketsOf_append, List.mem_append] at hother ⊢
        rcases hother with hbefore | hother
        · exact .inr (.inl hbefore)
        · rcases List.mem_append.1 hother with hreported | hafter
          · exact .inl (report_isSome (.inr (List.mem_singleton.1 hreported)))
          · exact .inr (.inr hafter)
    refine hinv.of_worker rfl rfl rfl rfl (fun _ => id) (fun other hsettling => ?_) ?_ ?_
    · unfold State.Settling at hsettling ⊢
      rw [hblobs, ← or_assoc] at hsettling
      rw [← or_assoc]
      exact hsettling.imp_left (htickets other)
    · exact fun queued hqueued other hother => htickets other (hworker queued hqueued other hother)
    · exact fun queued hqueued other hother => report_eq (hinv.puts queued hqueued other hother)
  | startResults results hblobs =>
    rw [hblobs] at hworker
    refine hinv.of_worker rfl rfl rfl rfl (fun _ => id) (fun ticket hsettling => ?_) ?_ hinv.puts
    · unfold State.Settling at hsettling ⊢
      rw [hblobs] at hsettling
      exact hsettling
    · intro task htask
      obtain ⟨queued, hqueued, rfl⟩ := List.mem_map.1 htask
      intro ticket hticket
      exact ⟨(hworker queued hqueued ticket hticket).resolve_right List.not_mem_nil, .inl hticket⟩
  | await before after queued ticket remaining hresults houtcome =>
    refine hinv.of_result [.awaiting queued remaining] hresults rfl rfl rfl rfl rfl rfl
      (fun _ _ => id) (fun htask next hnext => ?_) fun _ => .inl
    cases List.mem_singleton.1 hnext
    intro other hother
    obtain ⟨hknown, hremaining⟩ := htask other hother
    refine ⟨hknown, ?_⟩
    rcases hremaining with hmem | huploaded
    · rcases List.mem_cons.1 hmem with rfl | hrest
      · exact .inr houtcome
      · exact .inl hrest
    · exact .inr huploaded
  | skip before after queued ticket remaining outcome hresults houtcome hpublished =>
    refine hinv.of_result [.report queued.ticket .skipped] hresults rfl rfl rfl rfl rfl rfl
      (fun _ _ => id) (fun htask next hnext => ?_) fun _ => .inl
    cases List.mem_singleton.1 hnext
    trivial
  | refuse before after queued hresults =>
    refine hinv.of_result [.report queued.ticket .failed] hresults rfl rfl rfl rfl rfl rfl
      (fun _ _ => id) (fun htask next hnext => ?_) fun _ => .inl
    cases List.mem_singleton.1 hnext
    trivial
  | putActionResult before after queued ok hresults =>
    refine hinv.of_result [.report queued.ticket (if ok then .uploaded else .failed)] hresults rfl
      rfl rfl rfl rfl rfl (fun _ _ => id) (fun htask next hnext => ?_) fun found hfound => ?_
    · cases List.mem_singleton.1 hnext
      trivial
    · rcases List.mem_cons.1 hfound with rfl | hold
      · exact .inr fun htask ticket hticket =>
          (htask ticket hticket).2.resolve_left List.not_mem_nil
      · exact .inl hold
  | reportResult before after ticket outcome hresults =>
    exact hinv.of_result [] hresults rfl rfl rfl rfl rfl rfl (fun _ _ => report_eq)
      (fun _ _ hmem => absurd hmem List.not_mem_nil) fun _ => .inl
  | finish hresults =>
    refine hinv.of_worker rfl rfl rfl rfl (fun _ => id) (fun ticket hsettling => ?_) trivial
      hinv.puts
    unfold State.Settling at hsettling ⊢
    rw [hresults] at hsettling
    exact hsettling

/-- Whatever the connections and the worker do, the remote is called for an action result
only after all its prerequisites were uploaded, and the action results of a batch wait
for no ticket without an outcome. -/
theorem uploads_ordered (hreach : Runs.Reachable State.Initial Step s) : s.Ordered := by
  refine State.Inv.ordered (hreach.invariant (fun _ => .of_initial) fun s t hinv hstep => ?_)
  rcases hstep with ⟨c, hconnection⟩ | hworker
  · exact hinv.connectionStep hconnection
  · exact hinv.workerStep hworker

end Invariant

section Runs

/-- Some blob. -/
def someDigest : Digest := ⟨"blake3", "", 0⟩

/-- An action result without outputs. -/
def someResult : ActionResult := ⟨someDigest, none, none, 1⟩

theorem uploads_ordered_one :
    ∃ s : State Unit, s.puts = [⟨someResult, [0], 1⟩] ∧ s.Ordered := by
  have hstart : Runs.Reachable (@State.Initial Unit) Step _ := .start rfl
  have hqueued := (((hstart.next (.inl ⟨(), .lockBlob _ someDigest rfl rfl⟩)).next
    (.inl ⟨(), .insert _ someDigest true rfl (by simp)⟩)).next
    (.inl ⟨(), .pushBlob _ ⟨someDigest, 0⟩ rfl⟩)).next (.inl ⟨(), .record _ 0 rfl⟩)
  have hresult := ((hqueued.next (.inl ⟨(), .gather _ someResult rfl (by simp)⟩)).next
    (.inl ⟨(), .ticketResult _ someResult [0] rfl⟩)).next
    (.inl ⟨(), .pushResult _ ⟨someResult, [0], 1⟩ rfl⟩)
  have hblobs := ((hresult.next (.inr (.take _ none rfl (by simp)))).next
    (.inr (.upload _ [] [] _ _ _ rfl (.upload ⟨someDigest, 0⟩ .uploaded)))).next
    (.inr (.reportBlob _ [] [] 0 .uploaded _ rfl))
  have hput := ((hblobs.next (.inr (.startResults _ _ rfl))).next
    (.inr (.await _ [] [] ⟨someResult, [0], 1⟩ 0 [] rfl rfl))).next
    (.inr (.putActionResult _ [] [] ⟨someResult, [0], 1⟩ true rfl))
  exact ⟨_, rfl, uploads_ordered hput⟩

end Runs

end MrBoxington.Uploads
