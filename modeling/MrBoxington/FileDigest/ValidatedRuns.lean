import MrBoxington.FileDigest.Validated

/-!
# A settled identity vouches for the contents

The handle's change time is taken before and after the contents are read. If it is
a tick old when the read begins, every later write would move it, so a file that
still shows it has the contents that were read. The same argument covers the time
after the digest is returned.
-/

namespace MrBoxington.FileDigest

open ChangeTime (Store Pinned)

variable {π : Type} {system : System}

/-- The tick of a file's device. -/
def System.nodeTick (system : System) (node : Node) : ℤ := system.tick node.dev

/-- Once the change time was a tick old when the read began, the file satisfies `P`
for as long as it shows that change time. -/
def Trusted (system : System) (store : Store Node File) (started : SystemTime) (node : Node)
    (changed : SystemTime) (P : File → Prop) : Prop :=
  changed + system.nodeTick node ≤ started →
    Pinned File.changed system.nodeTick store node changed P

/-- What holds of a process in each phase. -/
def PhaseInv (system : System) (store : Store Node File) : DigestPhase → Prop
  | .idle => True
  | .opening _ started => started ≤ store.now
  | .opened _ started _ => started ≤ store.now
  | .reading _ started node before reader =>
    before.node = node ∧ reader.size = reader.hashed.length ∧
      Trusted system store started node before.changed (reader.hashed <+: ·.bytes)
  | .exhausted started node before reader =>
    before.node = node ∧ reader.size = reader.hashed.length ∧
      Trusted system store started node before.changed (·.bytes = reader.hashed)
  | .restated started node before reader after =>
    before.node = node ∧ reader.size = reader.hashed.length ∧ after.node = node ∧
      Trusted system store started node before.changed (·.bytes = reader.hashed)
  | .located started node before reader after _ =>
    before.node = node ∧ reader.size = reader.hashed.length ∧ after.node = node ∧
      Trusted system store started node before.changed (·.bytes = reader.hashed)

/-- What holds of a digest that was returned: on a reliable filesystem whose tick is
within the race window, its identity names the object and change time of a file
that has the contents that were read as long as it shows that change time. -/
def ReturnedInv (system : System) (store : Store Node File) (returned : Returned) : Prop :=
  returned.validated.resolution = returned.reader.resolution system.blake3 ∧
    returned.reader.size = returned.reader.hashed.length ∧
    ∀ identity, returned.validated.cacheIdentity = some identity →
      system.platform.isUnix →
      metadataIdentityIsUnreliable system.platform returned.device = false →
      system.tick returned.device ≤ raceWindow identity →
      ∃ node changed, identity.object = some node.object ∧
        identity.changed = some (splitTime changed) ∧
        Pinned File.changed system.nodeTick store node changed (·.bytes = returned.reader.hashed)

/-- What holds in every state. -/
structure DigestInv (system : System) (s : DigestState π) : Prop where
  phase : ∀ p, PhaseInv system s.store (s.phase p)
  returned : ∀ returned ∈ s.returned, ReturnedInv system s.store returned

private theorem DigestInv.of_initial {s : DigestState π} (hinitial : s.Initial) :
    DigestInv system s where
  phase p := by
    rw [hinitial.phase p]
    trivial
  returned returned hmem := by
    rw [hinitial.returned] at hmem
    exact absurd hmem (List.not_mem_nil)

variable {store store' : Store Node File}

private theorem Trusted.step {started : SystemTime} {node : Node} {changed : SystemTime}
    {P : File → Prop} (htrusted : Trusted system store started node changed P)
    (hstep : ChangeTime.Step File.changed system.nodeTick store store') :
    Trusted system store' started node changed P :=
  fun hold => (htrusted hold).step (system.tick_pos node.dev) hstep

private theorem PhaseInv.step {phase : DigestPhase} (hinv : PhaseInv system store phase)
    (hstep : ChangeTime.Step File.changed system.nodeTick store store') :
    PhaseInv system store' phase := by
  cases phase with
  | idle => trivial
  | opening => exact Int.le_trans hinv hstep.now_le
  | opened => exact Int.le_trans hinv hstep.now_le
  | reading => exact ⟨hinv.1, hinv.2.1, hinv.2.2.step hstep⟩
  | exhausted => exact ⟨hinv.1, hinv.2.1, hinv.2.2.step hstep⟩
  | restated => exact ⟨hinv.1, hinv.2.1, hinv.2.2.1, hinv.2.2.2.step hstep⟩
  | located => exact ⟨hinv.1, hinv.2.1, hinv.2.2.1, hinv.2.2.2.step hstep⟩

private theorem ReturnedInv.step {returned : Returned} (hinv : ReturnedInv system store returned)
    (hstep : ChangeTime.Step File.changed system.nodeTick store store') :
    ReturnedInv system store' returned := by
  refine ⟨hinv.1, hinv.2.1, fun identity hidentity hunix hreliable htick => ?_⟩
  obtain ⟨node, changed, hobject, hchanged, hpinned⟩ :=
    hinv.2.2 identity hidentity hunix hreliable htick
  exact ⟨node, changed, hobject, hchanged, hpinned.step (system.tick_pos node.dev) hstep⟩

private theorem Reader.update_ok {scope : FileDigestScope} {reader reader' : Reader}
    {chunk : List UInt8} (hupdate : reader.update scope chunk = .ok reader') :
    reader'.hashed = reader.hashed ++ chunk ∧ reader'.size = reader.size + chunk.length := by
  unfold Reader.update at hupdate
  split at hupdate
  · cases hupdate
  · split at hupdate
    · cases hupdate
      exact ⟨rfl, rfl⟩
    · cases hupdate
      exact ⟨rfl, rfl⟩

private theorem Observed.validate_ok {observed : Observed} {platform : Platform}
    {blake3 : List UInt8 → String} {path : String} {validated : ValidatedFileDigest}
    (hvalid : observed.validate platform blake3 path = .ok (some validated)) :
    ∃ identity, observed.identity platform path = some identity ∧
      metadataNamesSameFile platform observed.after observed.current = true ∧
      handleAndPathAreStable platform path observed.before observed.after identity
        (metadataIdentityIsUnreliable platform observed.current.node.dev)
        observed.reader.size = .ok true ∧
      validated = observed.result platform blake3 path identity := by
  unfold Observed.validate at hvalid
  split at hvalid
  · cases hvalid
  · rename_i identity hidentity
    refine ⟨identity, hidentity, ?_⟩
    split at hvalid
    · cases hvalid
    · rename_i hnames
      refine ⟨by simpa using hnames, ?_⟩
      split at hvalid
      · cases hvalid
      · cases hvalid
      · rename_i hstable
        cases hvalid
        exact ⟨hstable, rfl⟩

private theorem handleAndPathAreStable_reliable {platform : Platform} {path : String}
    {before after : Metadata} {current : FileIdentity} {digestSize : ℕ}
    (hstable : handleAndPathAreStable platform path before after current false digestSize
      = .ok true) :
    describe platform path before = some current := by
  unfold handleAndPathAreStable at hstable
  split at hstable
  · cases hstable
  · split at hstable
    · cases hstable
    · simp only [Bool.false_eq_true, if_false, Except.ok.injEq, decide_eq_true_eq] at hstable
      exact hstable.2.1.trans hstable.2.2

/-- On a reliable Unix filesystem a reusable identity names the file that was open,
with the change time that it showed before the read, a race window before the read
began. -/
theorem Observed.settled_of_validate {observed : Observed} {platform : Platform}
    {blake3 : List UInt8 → String} {path : String} {validated : ValidatedFileDigest}
    {identity : FileIdentity} (hunix : platform.isUnix)
    (hreliable : metadataIdentityIsUnreliable platform observed.current.node.dev = false)
    (hvalid : observed.validate platform blake3 path = .ok (some validated))
    (hcache : validated.cacheIdentity = some identity) :
    observed.after.node = observed.current.node ∧
      identity.object = some observed.current.node.object ∧
      identity.changed = some (splitTime observed.before.changed) ∧
      observed.before.changed + raceWindow identity ≤ observed.started := by
  obtain ⟨compared, hcompared, hnames, hstable, rfl⟩ := Observed.validate_ok hvalid
  obtain ⟨hforCache, hracy⟩ := Option.filter_eq_some_iff.mp hcache
  have hsettled : identityIsRacy identity observed.started = false := by
    simpa [hforCache] using hracy
  have hsame : compared = identity := by
    have hor : observed.identity platform path = some identity := by
      unfold Observed.identity
      rw [hforCache]
      rfl
    exact Option.some.inj (hcompared.symm.trans hor)
  subst hsame
  rw [hreliable] at hstable
  have hbefore : compared.changed = some (splitTime observed.before.changed) := by
    have hdescribe := handleAndPathAreStable_reliable hstable
    obtain ⟨modified, -, rfl⟩ := Option.map_eq_some_iff.mp hdescribe
    exact if_pos hunix
  refine ⟨?_, (forDigestCache_reliable hunix hreliable hforCache).2, hbefore,
    changed_le_of_settled hbefore hsettled⟩
  unfold metadataNamesSameFile at hnames
  rw [if_pos hunix] at hnames
  exact of_decide_eq_true hnames

private theorem ReturnedInv.of_validate {observed : Observed} {node : Node}
    {validated : ValidatedFileDigest}
    (hsize : observed.reader.size = observed.reader.hashed.length)
    (hafter : observed.after.node = node)
    (htrusted : Trusted system store observed.started node observed.before.changed
      (·.bytes = observed.reader.hashed))
    (hvalid : observed.validate system.platform system.blake3 system.path
      = .ok (some validated)) :
    ReturnedInv system store ⟨validated, observed.reader, observed.current.node.dev⟩ := by
  refine ⟨?_, hsize, fun identity hidentity hunix hreliable htick => ?_⟩
  · obtain ⟨_, _, _, _, rfl⟩ := Observed.validate_ok hvalid
    rfl
  · obtain ⟨hsame, hobject, hchanged, hold⟩ :=
      Observed.settled_of_validate hunix hreliable hvalid hidentity
    have hnode : observed.current.node = node := hsame.symm.trans hafter
    refine ⟨node, observed.before.changed, hnode ▸ hobject, hchanged, htrusted ?_⟩
    have hwindow : system.nodeTick node ≤ raceWindow identity := hnode ▸ htick
    exact Int.le_trans (Int.add_le_add_left hwindow _) hold

variable [DecidableEq π] {s t : DigestState π} {p : π}

private theorem DigestStep.store_step (hstep : DigestStep system p s t) :
    ChangeTime.Step File.changed system.nodeTick s.store t.store := by
  cases hstep with
  | pass hnow => exact .pass _ hnow
  | write node file hstamp => exact .write _ node file hstamp
  | _ => exact .stay _

private theorem DigestStep.phase_other (hstep : DigestStep system p s t) {q : π} (hne : q ≠ p) :
    t.phase q = s.phase q := by
  cases hstep with
  | pass => rfl
  | write => rfl
  | rename => rfl
  | _ => exact Function.update_of_ne hne _ _

/-- A process keeps what its phase says: it reads a prefix of the trusted contents,
and all of them when it sees the end of the file. -/
theorem DigestStep.phase_own (hinv : PhaseInv system s.store (s.phase p))
    (hstep : DigestStep system p s t) : PhaseInv system t.store (t.phase p) := by
  have hstore := hstep.store_step
  cases hstep with
  | start scope hphase => simp [DigestState.enter, PhaseInv]
  | openFile hphase hnamed =>
    rw [hphase] at hinv
    simpa [DigestState.enter, PhaseInv] using hinv
  | stat hphase hfile =>
    rw [hphase] at hinv
    simp only [DigestState.enter, Function.update_self]
    refine ⟨rfl, rfl, fun hold => ⟨Int.le_trans hold hinv, fun _ => ?_⟩⟩
    exact List.nil_prefix
  | read length hphase hlength hmore hupdate =>
    rw [hphase] at hinv
    obtain ⟨hnode, hsize, htrusted⟩ := hinv
    obtain ⟨hhashed, hcount⟩ := Reader.update_ok hupdate
    simp only [DigestState.enter, Function.update_self]
    refine ⟨hnode, ?_, fun hold => (htrusted hold).imp fun _ hread => ?_⟩
    · rw [hcount, hhashed, List.length_append, hsize]
    · -- The chunk was taken from the file right after the prefix.
      obtain ⟨rest, hrest⟩ := hread
      rw [hhashed, ← hrest, List.drop_left]
      exact (List.prefix_append_right_inj _).mpr (List.take_prefix _ _)
  | finish hphase hend =>
    rw [hphase] at hinv
    obtain ⟨hnode, hsize, htrusted⟩ := hinv
    simp only [DigestState.enter, Function.update_self]
    refine ⟨hnode, hsize, fun hold => (htrusted hold).imp fun _ hread => ?_⟩
    exact (hread.eq_of_length_le hend).symm
  | restat hphase =>
    rw [hphase] at hinv
    simp only [DigestState.enter, Function.update_self]
    exact ⟨hinv.1, hinv.2.1, rfl, hinv.2.2⟩
  | locate hphase hnamed =>
    rw [hphase] at hinv
    simp only [DigestState.enter, Function.update_self]
    exact hinv
  | accept => simp [DigestState.return, PhaseInv]
  | abort => simp [DigestState.enter, PhaseInv]
  | pass => exact hinv.step hstore
  | write => exact hinv.step hstore
  | rename => exact hinv

private theorem DigestStep.returned (hinv : PhaseInv system s.store (s.phase p))
    (hstep : DigestStep system p s t) {returned : Returned} (hmem : returned ∈ t.returned) :
    returned ∈ s.returned ∨ ReturnedInv system s.store returned := by
  cases hstep with
  | accept hphase hstatus hvalid =>
    rw [hphase] at hinv
    refine (List.mem_cons.mp hmem).symm.imp id fun heq => ?_
    rw [heq]
    exact .of_validate hinv.2.1 hinv.2.2.1 hinv.2.2.2 hvalid
  | _ => exact Or.inl hmem

private theorem DigestInv.step (hinv : DigestInv system s) (hstep : DigestStepAny system s t) :
    DigestInv system t := by
  obtain ⟨p, hstep⟩ := hstep
  refine ⟨fun q => ?_, fun returned hmem => ?_⟩
  · by_cases hqp : q = p
    · subst hqp
      exact hstep.phase_own (hinv.phase q)
    · rw [hstep.phase_other hqp]
      exact (hinv.phase q).step hstep.store_step
  · rcases hstep.returned (hinv.phase p) hmem with hold | hnew
    · exact (hinv.returned returned hold).step hstep.store_step
    · exact hnew.step hstep.store_step

/-- In every history of reads, writes and renames: if a digest of a file on a reliable
Unix filesystem, whose tick is within the race window of the returned identity, came
with an identity for reuse, and that identity still describes the file at the path,
then the bytes at the path are those that were hashed. -/
theorem digestFileValidated_reusable
    (hreach : Runs.Reachable DigestState.Initial (DigestStepAny system) s)
    (hunix : system.platform.isUnix) {returned : Returned} {identity : FileIdentity}
    (hreturned : returned ∈ s.returned)
    (hidentity : returned.validated.cacheIdentity = some identity)
    (hreliable : metadataIdentityIsUnreliable system.platform returned.device = false)
    (htick : system.tick returned.device ≤ raceWindow identity) {node : Node}
    {status : Option Statx} (hnamed : s.named = some node)
    (hdescribes : identity.stillDescribes system.platform (s.metadata node) status) :
    (s.store.file node).bytes = returned.reader.hashed ∧
      ∀ digest, returned.validated.resolution = .digest digest →
        digest = ⟨"blake3", system.blake3 (s.store.file node).bytes,
          (s.store.file node).bytes.length⟩ := by
  have hinv : DigestInv system s := hreach.invariant (fun _ h => .of_initial h)
    (fun _ _ h hstep => h.step hstep)
  obtain ⟨hresolution, hsize, hvouched⟩ := hinv.returned returned hreturned
  obtain ⟨vouched, changed, hobject, hchanged, hpinned⟩ :=
    hvouched identity hidentity hunix hreliable htick
  have hcurrent := of_decide_eq_true hdescribes
  have hreliable' := reliable_of_changed hcurrent hchanged
  obtain ⟨hchanged', hobject'⟩ := forDigestCache_reliable hunix hreliable' hcurrent
  -- The file at the path is the one that was read, with the change time it had then.
  have hnode : vouched = node :=
    Node.object_injective (Option.some.inj (hobject.symm.trans hobject'))
  subst hnode
  have htime : (s.store.file vouched).changed = changed := by
    have hsplit := Option.some.inj (hchanged'.symm.trans hchanged)
    rw [← splitTime_time changed, ← hsplit, splitTime_time]
    rfl
  have hbytes := hpinned.holds htime
  refine ⟨hbytes, fun digest hdigest => ?_⟩
  rw [hresolution, Reader.resolution] at hdigest
  split at hdigest
  · cases hdigest
  · rw [hbytes, ← hsize]
    exact (FileDigestResolution.digest.inj hdigest).symm

section Sample

/-- A Linux system with a tick of 10 milliseconds, on NFS or not. -/
def sampleSystem (nfs : Bool) : System where
  platform := .linux fun _ => nfs
  tick _ := 10000000
  tick_pos _ := by decide
  blake3 bytes := String.ofList (bytes.map fun byte => Char.ofNat byte.toNat)
  path := "/work/input.c"

/-- The file that is read. -/
def sampleNode : Node := ⟨8, 21⟩

/-- A file of one byte, ten seconds old. -/
def sampleState : DigestState Unit where
  store := ⟨10000000000, fun _ => ⟨true, [1], some 0, 0⟩⟩
  named := some sampleNode
  phase _ := .idle
  returned := []

/-- What reading that file gathers. -/
def sampleObserved (status : Option Statx) : Observed where
  started := 10000000000
  before := sampleState.metadata sampleNode
  reader := ⟨[1], 1, [], false⟩
  after := sampleState.metadata sampleNode
  current := sampleState.metadata sampleNode
  status := status

private theorem sample_returned (nfs : Bool) {status : Option Statx}
    {validated : ValidatedFileDigest}
    (hstatus : StatxAnswer sampleState.store sampleState.named status)
    (hvalid : (sampleObserved status).validate (sampleSystem nfs).platform
      (sampleSystem nfs).blake3 (sampleSystem nfs).path = .ok (some validated)) :
    ∃ s : DigestState Unit,
      Runs.Reachable DigestState.Initial (DigestStepAny (sampleSystem nfs)) s ∧
      s.store = sampleState.store ∧ s.named = some sampleNode ∧
      s.returned = [⟨validated, ⟨[1], 1, [], false⟩, 8⟩] := by
  have hstart : Runs.Reachable DigestState.Initial (DigestStepAny (sampleSystem nfs))
      sampleState := .start ⟨fun _ => rfl, rfl⟩
  have hopening := hstart.next ⟨(), .start .content rfl⟩
  have hopened := hopening.next ⟨(), .openFile rfl rfl⟩
  have hreading := hopened.next ⟨(), .stat rfl rfl⟩
  have hread := hreading.next ⟨(), .read 1 rfl (by decide) (by decide) rfl⟩
  have hexhausted := hread.next ⟨(), .finish rfl (by decide)⟩
  have hrestated := hexhausted.next ⟨(), .restat rfl⟩
  have hlocated := hrestated.next ⟨(), .locate rfl rfl⟩
  exact ⟨_, hlocated.next ⟨(), .accept rfl hstatus hvalid⟩, rfl, rfl, rfl⟩

/-- The identity of the file on a local filesystem. -/
def sampleIdentity : FileIdentity :=
  ⟨"/work/input.c", 1, 0, some (0, 0), some ⟨0, 8, 0, 21⟩⟩

/-- On a local filesystem the digest comes with an identity, which describes the
unchanged file afterwards. -/
theorem digestFileValidated_reusable_local :
    ∃ (s : DigestState Unit) (returned : Returned),
      Runs.Reachable DigestState.Initial (DigestStepAny (sampleSystem false)) s ∧
      returned ∈ s.returned ∧ returned.validated.cacheIdentity = some sampleIdentity ∧
      sampleIdentity.stillDescribes (sampleSystem false).platform (s.metadata sampleNode) none ∧
      (s.store.file sampleNode).bytes = returned.reader.hashed := by
  obtain ⟨⟨store, named, phase, returned⟩, hreach, rfl, rfl, rfl⟩ :=
    sample_returned false .unsupported rfl
  have hdescribes : sampleIdentity.stillDescribes (sampleSystem false).platform
      (sampleState.metadata sampleNode) none := rfl
  refine ⟨_, _, hreach, List.mem_singleton.mpr rfl, rfl, hdescribes, ?_⟩
  exact (digestFileValidated_reusable hreach rfl (List.mem_singleton.mpr rfl) rfl rfl
    (by decide) rfl hdescribes).1

/-- The answer of statx for the file. -/
def sampleStatus : Statx := File.statx ⟨true, [1], some 0, 0⟩ sampleNode 0 3

/-- The identity of the file on NFS. -/
def sampleNfsIdentity : FileIdentity :=
  ⟨"/work/input.c", 1, 0, none, some ⟨0, 8, 3, 21⟩⟩

/-- On NFS the identity omits the change time, so a rewrite that keeps the length and
restores the modification time goes unnoticed. -/
theorem digestFileValidated_stale_on_nfs :
    ∃ (s : DigestState Unit) (returned : Returned),
      Runs.Reachable DigestState.Initial (DigestStepAny (sampleSystem true)) s ∧
      returned ∈ s.returned ∧ returned.validated.cacheIdentity = some sampleNfsIdentity ∧
      (sampleSystem true).tick returned.device ≤ raceWindow sampleNfsIdentity ∧
      s.named = some sampleNode ∧ StatxAnswer s.store s.named (some sampleStatus) ∧
      sampleNfsIdentity.stillDescribes (sampleSystem true).platform (s.metadata sampleNode)
        (some sampleStatus) ∧
      (s.store.file sampleNode).bytes ≠ returned.reader.hashed := by
  have hstatus : StatxAnswer sampleState.store sampleState.named (some sampleStatus) :=
    .complete 3 rfl rfl
  obtain ⟨⟨store, named, phase, returned⟩, hreach, rfl, rfl, rfl⟩ :=
    sample_returned true hstatus rfl
  have hrewritten := hreach.next
    ⟨(), .write sampleNode ⟨true, [2], some 0, 10000000000⟩ rfl⟩
  have hother : ([2] : List UInt8) ≠ [1] := by decide
  exact ⟨_, _, hrewritten, List.mem_singleton.mpr rfl, rfl, by decide, rfl,
    .complete 3 rfl rfl, rfl, hother⟩

end Sample

end MrBoxington.FileDigest
