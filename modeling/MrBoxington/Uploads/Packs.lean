import MrBoxington.Uploads.QueueRuns

/-!
# Packs within the limits of a server

Blobs to upload are grouped into packs as they come, and digests to fetch are planned into packs
by scanning what is left of them again and again. The totals are clamped at the largest word. If
a server's limit is below that word, as every limit that is negotiated is, all packs are within
the limits, and each blob that fits into a pack is in exactly one or is sent alone.
-/

namespace MrBoxington.Uploads

open Protocol (Digest)

/-- The bytes of all objects. -/
def totalBytes (digests : List Digest) : ℕ :=
  digests.foldr (fun digest rest => digest.size + rest) 0

private theorem totalBytes_concat (digests : List Digest) (digest : Digest) :
    totalBytes (digests ++ [digest]) = totalBytes digests + digest.size := by
  induction digests with
  | nil => simp [totalBytes]
  | cons first rest ih =>
    simp only [totalBytes, List.cons_append, List.foldr_cons] at ih ⊢
    omega

private theorem size_le_totalBytes {digest : Digest} {digests : List Digest}
    (hmem : digest ∈ digests) :
    digest.size ≤ totalBytes digests := by
  induction digests with
  | nil => cases hmem
  | cons first rest ih =>
    simp only [totalBytes, List.foldr_cons] at ih ⊢
    obtain rfl | hrest := List.mem_cons.mp hmem
    · omega
    · have hle := ih hrest
      omega

private theorem saturatingAdd_of_le {a b bound : ℕ} (hbound : bound < 18446744073709551615)
    (hle : saturatingAdd a b ≤ bound) : saturatingAdd a b = a + b := by
  unfold saturatingAdd at *
  omega

variable {limits : BlobPackLimits}

/-! ## Uploads -/

/-- A pack that the server accepts. -/
def Accepted (limits : BlobPackLimits) (pack : List PackMember) : Prop :=
  2 ≤ pack.length ∧ pack.length ≤ limits.maxItems ∧
    totalBytes (pack.map PackMember.digest) ≤ limits.maxBytes

/-- The open group with its size, among the members seen. -/
structure Open (limits : BlobPackLimits) (seen current : List PackMember) (bytes : ℕ) :
    Prop where
  items : current.length ≤ limits.maxItems
  bytes_eq : bytes = totalBytes (current.map PackMember.digest)
  bytes_le : bytes ≤ limits.maxBytes
  order : current.Sublist seen

/-- The groups that are closed are accepted, and keep the order of the members seen. -/
def Closed (limits : BlobPackLimits) (seen : List PackMember) (packs : List (List PackMember)) :
    Prop :=
  ∀ pack ∈ packs, Accepted limits pack ∧ pack.Sublist seen

variable {seen current : List PackMember} {member : PackMember} {bytes : ℕ}
  {packs : List (List PackMember)} {singles : List PackMember}

private theorem Closed.mono (hclosed : Closed limits seen packs) (more : List PackMember) :
    Closed limits (seen ++ more) packs := fun pack hmem =>
  ⟨(hclosed pack hmem).1, (hclosed pack hmem).2.trans (List.sublist_append_left _ _)⟩

private theorem Closed.closePack (hclosed : Closed limits seen packs)
    (hopen : Open limits seen current bytes) :
    Closed limits seen (closePack current packs singles).1 := by
  unfold Uploads.closePack
  split
  · exact hclosed
  · intro pack hmem
    obtain hold | hnew := List.mem_append.mp hmem
    · exact hclosed pack hold
    · obtain rfl := List.mem_singleton.mp hnew
      exact ⟨⟨by omega, hopen.items, hopen.bytes_eq ▸ hopen.bytes_le⟩, hopen.order⟩

private theorem Open.skip (hopen : Open limits seen current bytes) (member : PackMember) :
    Open limits (seen ++ [member]) current bytes :=
  ⟨hopen.items, hopen.bytes_eq, hopen.bytes_le,
    hopen.order.trans (List.sublist_append_left _ _)⟩

private theorem Open.push (hbytes : limits.maxBytes < 18446744073709551615)
    (hopen : Open limits seen current bytes) (hroom : current.length < limits.maxItems)
    (hfits : saturatingAdd bytes member.digest.size ≤ limits.maxBytes) :
    Open limits (seen ++ [member]) (current ++ [member])
      (saturatingAdd bytes member.digest.size) := by
  refine ⟨by rw [List.length_append]; exact hroom, ?_, hfits, hopen.order.append_right [member]⟩
  rw [saturatingAdd_of_le hbytes hfits, List.map_append, List.map_singleton, totalBytes_concat,
    ← hopen.bytes_eq]

private theorem Open.empty (limits : BlobPackLimits) (seen : List PackMember) :
    Open limits seen [] 0 :=
  ⟨Nat.zero_le _, rfl, Nat.zero_le _, List.nil_sublist _⟩

/-- A member that is not too large opens a group. -/
theorem Open.first (hitems : 1 ≤ limits.maxItems)
    (hbytes : limits.maxBytes < 18446744073709551615) (seen : List PackMember)
    (hsize : member.digest.size ≤ limits.maxBytes) :
    Open limits (seen ++ [member]) [member] (saturatingAdd 0 member.digest.size) := by
  have hfits : saturatingAdd 0 member.digest.size ≤ limits.maxBytes := by
    unfold saturatingAdd
    omega
  exact (Open.empty limits seen).push hbytes hitems hfits

private theorem Closed.groupFrom (hitems : 1 ≤ limits.maxItems)
    (hbytes : limits.maxBytes < 18446744073709551615) (members : List PackMember)
    (hclosed : Closed limits seen packs) (hopen : Open limits seen current bytes) :
    Closed limits (seen ++ members) (groupFrom limits members packs singles current bytes).1 := by
  induction members generalizing seen packs singles current bytes with
  | nil =>
    rw [List.append_nil]
    exact hclosed.closePack hopen
  | cons member rest ih =>
    rw [List.append_cons]
    unfold Uploads.groupFrom
    split
    · exact ih (hclosed.mono [member]) (hopen.skip member)
    · rename_i hsize
      split
      · exact ih ((hclosed.closePack hopen).mono [member])
          (Open.first hitems hbytes seen (Nat.not_lt.mp hsize))
      · rename_i hkeep
        by_cases hempty : current = []
        · subst hempty
          rw [hopen.bytes_eq]
          exact ih (hclosed.mono [member]) (Open.first hitems hbytes seen (Nat.not_lt.mp hsize))
        · have hroom : ¬ (_ ∨ _) := fun hexceeds => hkeep ⟨hexceeds, hempty⟩
          rw [not_or, Nat.not_le, Nat.not_lt] at hroom
          exact ih (hclosed.mono [member]) (hopen.push hbytes hroom.1 hroom.2)

/-! ## Downloads -/

/-- The loop that takes the first digests that fit together. -/
def chunkFrom (limits : BlobPackLimits) :
    List Digest → List Digest → ℕ → List Digest → Except Digest (List Digest)
  | _, chunk, _, [] => .ok chunk
  | seen, chunk, chunkBytes, digest :: rest =>
    if digest.validate = false then .error digest
    else if digest ∈ seen ∨ limits.maxBytes < digest.size then
      chunkFrom limits (digest :: seen) chunk chunkBytes rest
    else if chunk.length = limits.maxItems ∨
        limits.maxBytes < saturatingAdd chunkBytes digest.size then .ok chunk
    else
      chunkFrom limits (digest :: seen) (chunk ++ [digest])
        (saturatingAdd chunkBytes digest.size) rest

/-- The digests of the next pack, unless one is not valid. -/
def blobPackChunk (digests : List Digest) (limits : BlobPackLimits) :
    Except Digest (List Digest) :=
  chunkFrom limits [] [] 0 digests

/-- A chunk goes on with digests in the order of the candidates. -/
theorem chunkFrom_sublist {seen chunk digests result : List Digest} {chunkBytes : ℕ}
    (hresult : chunkFrom limits seen chunk chunkBytes digests = .ok result) :
    ∃ more, result = chunk ++ more ∧ more.Sublist digests := by
  induction digests generalizing seen chunk chunkBytes with
  | nil =>
    cases hresult
    exact ⟨[], (List.append_nil _).symm, .slnil⟩
  | cons first rest ih =>
    unfold chunkFrom at hresult
    split at hresult
    · cases hresult
    · split at hresult
      · obtain ⟨more, heq, hmore⟩ := ih hresult
        exact ⟨more, heq, hmore.cons first⟩
      · split at hresult
        · cases hresult
          exact ⟨[], (List.append_nil _).symm, List.nil_sublist _⟩
        · obtain ⟨more, heq, hmore⟩ := ih hresult
          exact ⟨first :: more, by rw [heq, List.append_assoc]; rfl, hmore.cons_cons first⟩

private theorem blobPackChunk_sublist {digests chunk : List Digest}
    (hchunk : blobPackChunk digests limits = .ok chunk) : chunk.Sublist digests := by
  obtain ⟨more, rfl, hmore⟩ := chunkFrom_sublist hchunk
  exact hmore

/-- What is left of the candidates when the digests of a pack are removed. -/
def withoutPack (candidates chunk : List Digest) : List Digest := candidates.filter (· ∉ chunk)

private theorem length_withoutPack {candidates chunk : List Digest}
    (hchunk : blobPackChunk candidates limits = .ok chunk) (hne : chunk ≠ []) :
    (withoutPack candidates chunk).length < candidates.length := by
  obtain ⟨digest, hmem⟩ := List.exists_mem_of_ne_nil chunk hne
  exact List.length_filter_lt_length_iff_exists.mpr
    ⟨digest, (blobPackChunk_sublist hchunk).subset hmem, by simpa using hmem⟩

/-- Packs for the missing digests, planned until none is left that fits into a pack. -/
def planBlobPacks (missing : List Digest) (limits : BlobPackLimits) : List (List Digest) :=
  if missing = [] then []
  else
    match _hchunk : blobPackChunk missing limits with
    | .error _ => []
    | .ok chunk =>
      if _hne : chunk = [] then []
      else chunk :: planBlobPacks (withoutPack missing chunk) limits
termination_by missing.length
decreasing_by exact length_withoutPack _hchunk _hne

/-- Every pack keeps the order of the missing digests. -/
theorem planBlobPacks_sublist (missing : List Digest) (limits : BlobPackLimits) :
    ∀ pack ∈ planBlobPacks missing limits, pack.Sublist missing := by
  induction hlength : missing.length using Nat.strongRecOn generalizing missing with
  | ind length ih =>
    unfold planBlobPacks
    split
    · simp
    · split
      · simp
      · rename_i chunk hchunk
        split
        · simp
        · rename_i hne
          have hrest := ih _ (hlength ▸ length_withoutPack hchunk hne)
            (withoutPack missing chunk) rfl
          exact List.forall_mem_cons.mpr ⟨blobPackChunk_sublist hchunk,
            fun pack hmem => (hrest pack hmem).trans List.filter_sublist⟩

/-- The digests that fit into a pack. -/
def eligible (limits : BlobPackLimits) (digests : List Digest) : List Digest :=
  digests.filter fun digest => decide (digest.size ≤ limits.maxBytes)

private theorem eligible_withoutPack {missing chunk left : List Digest} (hnodup : missing.Nodup)
    (heligible : eligible limits missing = chunk ++ left) :
    eligible limits (withoutPack missing chunk) = left := by
  have hdisjoint : (chunk ++ left).Nodup := heligible ▸ hnodup.filter _
  rw [eligible, withoutPack, List.filter_comm, ← eligible, heligible, List.filter_append,
    List.filter_eq_nil_iff.mpr, List.filter_eq_self.mpr, List.nil_append]
  · intro digest hmem
    exact decide_eq_true fun hin => (List.nodup_append.mp hdisjoint).2.2 digest hin digest hmem rfl
  · simp

/-- A chunk goes on with the first digests that fit into a pack, and takes at least one. -/
theorem chunkFrom_spec (hitems : 1 ≤ limits.maxItems)
    (hbytes : limits.maxBytes < 18446744073709551615) {seen chunk digests : List Digest}
    {chunkBytes : ℕ} (hvalid : ∀ digest ∈ digests, digest.validate = true)
    (hnodup : digests.Nodup) (hfresh : ∀ digest ∈ digests, digest ∉ seen)
    (hlength : chunk.length ≤ limits.maxItems) (htotal : chunkBytes = totalBytes chunk)
    (hle : chunkBytes ≤ limits.maxBytes) :
    ∃ more left, chunkFrom limits seen chunk chunkBytes digests = .ok (chunk ++ more) ∧
      eligible limits digests = more ++ left ∧ (chunk ++ more).length ≤ limits.maxItems ∧
      totalBytes (chunk ++ more) ≤ limits.maxBytes ∧ (chunk = [] → more = [] → left = []) := by
  induction digests generalizing seen chunk chunkBytes with
  | nil => exact ⟨[], [], by simp [chunkFrom], rfl, by simpa, by simpa [← htotal], by simp⟩
  | cons digest rest ih =>
    obtain ⟨hdigest, hrest⟩ := List.forall_mem_cons.mp hvalid
    obtain ⟨hnot, hnodup⟩ := List.nodup_cons.mp hnodup
    obtain ⟨hnew, hfresh⟩ := List.forall_mem_cons.mp hfresh
    have hfresh' : ∀ other ∈ rest, other ∉ digest :: seen := fun other hmem hin =>
      (List.mem_cons.mp hin).elim (fun heq => hnot (heq ▸ hmem)) (hfresh other hmem)
    unfold chunkFrom eligible
    rw [if_neg (by simp [hdigest])]
    by_cases hsize : digest.size ≤ limits.maxBytes
    · rw [if_neg (by simp [hnew, hsize]), List.filter_cons_of_pos (by simpa using hsize)]
      split
      · rename_i hfull
        refine ⟨[], _, by rw [List.append_nil], rfl, by simpa, by simpa [← htotal], fun hnil => ?_⟩
        -- An empty chunk has room for a digest that fits into a pack.
        subst hnil
        refine absurd hfull (not_or.mpr ⟨?_, ?_⟩)
        · rw [List.length_nil]
          omega
        · rw [htotal, Nat.not_lt]
          simp only [totalBytes, List.foldr_nil, saturatingAdd]
          omega
      · rename_i hroom
        obtain ⟨hitemsLeft, hfits⟩ := not_or.mp hroom
        rw [Nat.not_lt] at hfits
        have hexact := saturatingAdd_of_le hbytes hfits
        have hlonger : (chunk ++ [digest]).length ≤ limits.maxItems := by
          rw [List.length_append, List.length_singleton]
          omega
        have hlarger : saturatingAdd chunkBytes digest.size = totalBytes (chunk ++ [digest]) := by
          rw [hexact, totalBytes_concat, htotal]
        obtain ⟨more, left, hchunk, heligible, hlength', htotal', -⟩ :=
          ih hrest hnodup hfresh' hlonger hlarger hfits
        rw [List.append_assoc, List.singleton_append] at hchunk hlength' htotal'
        refine ⟨digest :: more, left, hchunk, ?_, hlength', htotal', fun _ hnil => nomatch hnil⟩
        rw [List.cons_append, ← heligible, eligible]
    · rw [if_pos (.inr (Nat.not_le.mp hsize)), List.filter_cons_of_neg (by simpa using hsize)]
      exact ih hrest hnodup hfresh' hlength htotal hle

/-- The plan holds the digests that fit into a pack, in order, in packs within the limits. -/
theorem planBlobPacks_spec (hitems : 1 ≤ limits.maxItems)
    (hbytes : limits.maxBytes < 18446744073709551615) (missing : List Digest)
    (hnodup : missing.Nodup) (hvalid : ∀ digest ∈ missing, digest.validate = true) :
    (planBlobPacks missing limits).flatten = eligible limits missing ∧
      ∀ pack ∈ planBlobPacks missing limits,
        pack.length ≤ limits.maxItems ∧ totalBytes pack ≤ limits.maxBytes := by
  induction hlength : missing.length using Nat.strongRecOn generalizing missing with
  | ind length ih =>
    unfold planBlobPacks
    split
    · rename_i hempty
      simp [hempty, eligible]
    · have hfresh : ∀ digest ∈ missing, digest ∉ ([] : List Digest) :=
        fun _ _ => List.not_mem_nil
      have hnone : 0 = totalBytes [] := rfl
      obtain ⟨chunk, left, hspec, heligible, hitems', htotal, hsome⟩ :=
        chunkFrom_spec hitems hbytes hvalid hnodup hfresh (Nat.zero_le _) hnone (Nat.zero_le _)
      rw [List.nil_append] at hspec hitems' htotal
      split
      · rename_i hchunk
        cases hspec.symm.trans hchunk
      · rename_i result hchunk
        cases Except.ok.inj (hspec.symm.trans hchunk)
        split
        · rename_i hnil
          subst hnil
          rw [heligible, hsome rfl rfl]
          simp
        · rename_i hne
          obtain ⟨hflatten, hpacks⟩ := ih _ (hlength ▸ length_withoutPack hchunk hne)
            (withoutPack missing chunk) (hnodup.filter _)
            (fun digest hmem => hvalid digest (List.mem_of_mem_filter hmem)) rfl
          refine ⟨?_, List.forall_mem_cons.mpr ⟨⟨hitems', htotal⟩, hpacks⟩⟩
          rw [List.flatten_cons, hflatten, eligible_withoutPack hnodup heligible, heligible]

/-- Below the largest word, uploads and downloads are packed within the limits: each member is in
one pack or alone, and each digest that fits into a pack is in exactly one. -/
theorem packs_within_limits (limits : BlobPackLimits) (hitems : 1 ≤ limits.maxItems)
    (hbytes : limits.maxBytes < 18446744073709551615) :
    (∀ members : List PackMember,
      ((groupIntoPacks members limits).1.flatten ++ (groupIntoPacks members limits).2).Perm
        members ∧
      (∀ pack ∈ (groupIntoPacks members limits).1, 2 ≤ pack.length ∧
        pack.length ≤ limits.maxItems ∧
        totalBytes (pack.map PackMember.digest) ≤ limits.maxBytes ∧ pack.Sublist members) ∧
      ∀ member ∈ members, limits.maxBytes < member.digest.size →
        member ∈ (groupIntoPacks members limits).2 ∧
          ∀ pack ∈ (groupIntoPacks members limits).1, member ∉ pack) ∧
    ∀ missing : List Digest, missing.Nodup → (∀ digest ∈ missing, digest.validate = true) →
      (∀ pack ∈ planBlobPacks missing limits,
        pack.length ≤ limits.maxItems ∧ totalBytes pack ≤ limits.maxBytes) ∧
      (planBlobPacks missing limits).flatten =
        missing.filter fun digest => decide (digest.size ≤ limits.maxBytes) := by
  refine ⟨fun members => ?_, fun missing hnodup hvalid => ?_⟩
  · have hperm := groupIntoPacks_perm members limits
    have hclosed : Closed limits ([] ++ members) (groupIntoPacks members limits).1 :=
      Closed.groupFrom hitems hbytes members (fun _ hmem => nomatch hmem)
        (Open.empty limits [])
    refine ⟨hperm, fun pack hmem => ?_, fun member hmem hlarge => ?_⟩
    · obtain ⟨⟨htwo, hmax, htotal⟩, horder⟩ := hclosed pack hmem
      exact ⟨htwo, hmax, htotal, horder⟩
    · have hunpacked : ∀ pack ∈ (groupIntoPacks members limits).1, member ∉ pack := by
        intro pack hpack hin
        have hsize := size_le_totalBytes (List.mem_map_of_mem (f := PackMember.digest) hin)
        have htotal := (hclosed pack hpack).1.2.2
        omega
      refine ⟨(List.mem_append.mp (hperm.mem_iff.mpr hmem)).resolve_left fun hflat => ?_,
        hunpacked⟩
      obtain ⟨pack, hpack, hin⟩ := List.mem_flatten.mp hflat
      exact hunpacked pack hpack hin
  · exact (planBlobPacks_spec hitems hbytes missing hnodup hvalid).symm

/-- Two blobs of the largest size that a word holds. -/
def largestMembers : List PackMember :=
  [⟨⟨"blake3", "a", 18446744073709551615⟩, 0⟩, ⟨⟨"blake3", "b", 18446744073709551615⟩, 1⟩]

/-- At the largest word the clamped total never exceeds the limit, and both are packed. -/
theorem clamped_total_exceeds_limit :
    ∃ pack ∈ (groupIntoPacks largestMembers ⟨2, 18446744073709551615⟩).1,
      18446744073709551615 < totalBytes (pack.map PackMember.digest) :=
  ⟨largestMembers, by decide +kernel, by decide +kernel⟩

/-- Two digests that fit, but not together, and one that does not. -/
def missingDigests : List Digest :=
  [4, 7, 11].map fun size =>
    ⟨"blake3", "0000000000000000000000000000000000000000000000000000000000000000", size⟩

/-- Two blobs that fit together, and one that does not. -/
def smallMembers : List PackMember :=
  [⟨⟨"blake3", "a", 4⟩, 0⟩, ⟨⟨"blake3", "b", 6⟩, 1⟩, ⟨⟨"blake3", "c", 11⟩, 2⟩]

theorem packs_within_limits_missing :
    (planBlobPacks missingDigests ⟨2, 10⟩).flatten = missingDigests.take 2 ∧
      smallMembers.take 2 ∈ (groupIntoPacks smallMembers ⟨2, 10⟩).1 ∧
      ∀ pack ∈ (groupIntoPacks smallMembers ⟨2, 10⟩).1, pack.Sublist smallMembers := by
  obtain ⟨huploads, hdownloads⟩ := packs_within_limits ⟨2, 10⟩ (by decide) (by decide)
  refine ⟨?_, by decide +kernel, fun pack hmem => ((huploads smallMembers).2.1 pack hmem).2.2.2⟩
  exact (hdownloads missingDigests (by decide +kernel) (by decide +kernel)).2.trans
    (by decide +kernel)

end MrBoxington.Uploads
