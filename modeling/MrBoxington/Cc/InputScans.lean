import MrBoxington.Cc.Invocation
import MrBoxington.FileDigest.Validated
import MrBoxington.Lib.ChunkScan

/-!
# Scans of inputs for what a key cannot stand for

An input that can make the assembler read another file, or that holds a macro whose
value is the time, is found while the file is read in chunks. Both scans keep only the
end of what they read, and both find exactly what the whole content holds, however the
reads cut it.
-/

namespace MrBoxington.Cc

open ChunkScan
open Protocol (asciiBytes)

/-! ## Directives for the assembler -/

/-- The directives that make the assembler read a file. -/
def assemblerInputDirectives : List (List UInt8) :=
  [".include", ".incbin", ".sinclude"].map asciiBytes

def toAsciiLowercase (byte : UInt8) : UInt8 :=
  if 65 ≤ byte ∧ byte ≤ 90 then byte + 32 else byte

def toAsciiUppercase (byte : UInt8) : UInt8 :=
  if 97 ≤ byte ∧ byte ≤ 122 then byte - 32 else byte

/-- The bytes are equal but for the case of letters. -/
def bytesEqIgnoreAsciiCase (candidate needle : List UInt8) : Bool :=
  candidate.map toAsciiLowercase = needle.map toAsciiLowercase

/-- The search of the library `memchr`: the offsets of either of two bytes. -/
structure Memchr where
  memchr2Iter : UInt8 → UInt8 → List UInt8 → List ℕ
  mem_memchr2Iter : ∀ byte other window offset, offset ∈ memchr2Iter byte other window ↔
    window[offset]? = some byte ∨ window[offset]? = some other

/-- The directive stands in the window with its letter at the offset. -/
def directiveAt (needle window : List UInt8) : ℕ → Bool
  | 0 => false
  | start + 1 =>
    let candidate := (window.drop start).take needle.length
    candidate.length = needle.length && bytesEqIgnoreAsciiCase candidate needle

/-- A directive is found in the window, by its first letter. -/
def windowHasDirective (memchr : Memchr) (window : List UInt8) : Bool :=
  assemblerInputDirectives.any fun needle =>
    (memchr.memchr2Iter (needle.getD 1 0) (toAsciiUppercase (needle.getD 1 0)) window).any
      (directiveAt needle window)

/-- The length of the longest directive. -/
def longestDirective : ℕ := (assemblerInputDirectives.map List.length).foldl max 0

/-- The loop over the reads, each of which fails or returns a chunk; an empty chunk is
the end of the file. -/
def scanForDirective (memchr : Memchr) (path : String) (window : List UInt8) :
    List (Except String (List UInt8)) → Except CcBypassReason Bool
  | [] => .ok false
  | .error message :: _ => .error (.inputRead path message)
  | .ok chunk :: rest =>
    if chunk = [] then .ok false
    else if windowHasDirective memchr (window ++ chunk) then .ok true
    else
      scanForDirective memchr path
        ((window ++ chunk).drop ((window ++ chunk).length - (longestDirective - 1))) rest

/-- Whether an input can make the assembler read another file. -/
def containsAssemblerInputDirective (memchr : Memchr) (path : String)
    (opened : Except String (List (Except String (List UInt8)))) :
    Except CcBypassReason Bool :=
  match opened with
  | .error message => .error (.inputRead path message)
  | .ok reads => scanForDirective memchr path [] reads

/-- The bytes are one of the directives, in any case. -/
def IsDirective (found : List UInt8) : Prop :=
  ∃ directive ∈ assemblerInputDirectives, bytesEqIgnoreAsciiCase found directive = true

private theorem IsDirective.length_le {found : List UInt8} (hfound : IsDirective found) :
    found.length ≤ longestDirective := by
  obtain ⟨directive, hmem, heq⟩ := hfound
  have hlength := congrArg List.length (of_decide_eq_true heq)
  simp only [List.length_map] at hlength
  have hall : ∀ directive ∈ assemblerInputDirectives,
      directive.length ≤ longestDirective := by decide +kernel
  exact hlength ▸ hall directive hmem

/-- A byte that is a letter but for its case is one of the two bytes searched for. -/
theorem eq_or_eq_upper {byte letter : UInt8} (hletter : 97 ≤ letter ∧ letter ≤ 122)
    (heq : toAsciiLowercase byte = toAsciiLowercase letter) :
    byte = letter ∨ byte = toAsciiUppercase letter := by
  unfold toAsciiLowercase toAsciiUppercase at *
  rw [if_pos hletter]
  have hupper : (letter - 32).toNat = letter.toNat - 32 :=
    UInt8.toNat_sub_of_le letter 32
      (UInt8.le_trans (by decide : (32 : UInt8) ≤ 97) hletter.1)
  simp only [UInt8.le_iff_toNat_le, ← UInt8.toNat_inj, UInt8.reduceToNat] at *
  rw [if_neg (c := 65 ≤ letter.toNat ∧ _) (by omega)] at heq
  split at heq
  · simp only [UInt8.toNat_add, UInt8.reduceToNat] at heq
    omega
  · exact .inl heq

private theorem directive_letter : ∀ directive ∈ assemblerInputDirectives,
    ∃ dot letter rest, directive = dot :: letter :: rest ∧ 97 ≤ letter ∧ letter ≤ 122 := by
  intro directive hmem
  simp only [assemblerInputDirectives, List.map_cons, List.map_nil, List.mem_cons,
    List.not_mem_nil, or_false] at hmem
  obtain rfl | rfl | rfl := hmem
  · exact ⟨_, _, _, rfl, by decide +kernel, by decide +kernel⟩
  · exact ⟨_, _, _, rfl, by decide +kernel, by decide +kernel⟩
  · exact ⟨_, _, _, rfl, by decide +kernel, by decide +kernel⟩

/-- The search by the letter finds what occurs in the window. -/
theorem windowHasDirective_iff (memchr : Memchr) (window : List UInt8) :
    windowHasDirective memchr window = true ↔ Occurs IsDirective window := by
  simp only [windowHasDirective, List.any_eq_true]
  constructor
  · rintro ⟨needle, hneedle, offset, -, hat⟩
    cases offset with
    | zero => exact absurd hat Bool.false_ne_true
    | succ start =>
      simp only [directiveAt, Bool.and_eq_true] at hat
      refine ⟨window.take start, (window.drop start).take needle.length,
        (window.drop start).drop needle.length, ?_, needle, hneedle, hat.2⟩
      rw [List.append_assoc, List.take_append_drop, List.take_append_drop]
  · rintro ⟨front, found, back, rfl, needle, hneedle, heq⟩
    obtain ⟨dot, letter, rest, rfl, hletter⟩ := directive_letter needle hneedle
    have hmaps := of_decide_eq_true heq
    obtain ⟨first, second, more, rfl⟩ : ∃ first second more, found = first :: second :: more := by
      cases found with
      | nil => exact absurd hmaps (by simp)
      | cons first tail =>
        cases tail with
        | nil => exact absurd hmaps (by simp)
        | cons second more => exact ⟨first, second, more, rfl⟩
    have hlength := congrArg List.length hmaps
    simp only [List.map_cons, List.cons.injEq] at hmaps
    simp only [List.length_map, List.length_cons, Nat.add_right_cancel_iff] at hlength
    refine ⟨_, hneedle, front.length + 1, ?_, ?_⟩
    · have hsecond := eq_or_eq_upper hletter hmaps.2.1
      refine (memchr.mem_memchr2Iter _ _ _ _).mpr ?_
      simpa using hsecond
    · have htake : ((front ++ first :: second :: more ++ back).drop front.length).take
          (dot :: letter :: rest).length = first :: second :: more := by
        rw [List.append_assoc, List.drop_left]
        exact List.take_left' (by simp [hlength])
      rw [directiveAt, htake, heq, Bool.and_true]
      simp [hlength]

private theorem scanForDirective_spec (memchr : Memchr) (path : String) {seen window : List UInt8}
    (hwindow : Window longestDirective seen window) (hclean : ¬ Occurs IsDirective seen)
    (chunks : List (List UInt8)) (hchunks : ∀ chunk ∈ chunks, chunk ≠ []) :
    ∃ answer, scanForDirective memchr path window (chunks.map .ok) = .ok answer ∧
      (answer = true ↔ Occurs IsDirective (seen ++ chunks.flatten)) := by
  induction chunks generalizing seen window with
  | nil => exact ⟨false, rfl, by simpa using hclean⟩
  | cons chunk rest ih =>
    have hfound := (windowHasDirective_iff memchr (window ++ chunk)).trans
      (hwindow.occurs_iff (fun _ => IsDirective.length_le) hclean)
    simp only [List.map_cons, scanForDirective, if_neg (hchunks chunk List.mem_cons_self),
      List.flatten_cons]
    rw [← List.append_assoc]
    split
    · rename_i hhas
      exact ⟨true, rfl, iff_of_true rfl ((hfound.mp hhas).append_right _)⟩
    · rename_i hhas
      exact ih (hwindow.next chunk) (fun hoccurs => hhas (hfound.mpr hoccurs))
        fun chunk' hmem => hchunks chunk' (List.mem_cons_of_mem _ hmem)

end MrBoxington.Cc

namespace MrBoxington.FileDigest

open ChunkScan

/-! ## Timestamp macros -/

/-- The loop over the reads of a file; an empty chunk is the end of the file. -/
def Reader.readAll (scope : FileDigestScope) :
    Reader → List (Except DigestError (List UInt8)) → Except DigestError Reader
  | reader, [] => .ok reader
  | _, .error error :: _ => .error error
  | reader, .ok chunk :: rest =>
    if chunk = [] then .ok reader
    else
      match reader.update scope chunk with
      | .error error => .error error
      | .ok reader => reader.readAll scope rest

/-- The resolution and the size of a file that is read to its end. -/
def digestReader (blake3 : List UInt8 → String) (scope : FileDigestScope)
    (reads : List (Except DigestError (List UInt8))) :
    Except DigestError (FileDigestResolution × ℕ) :=
  match Reader.start.readAll scope reads with
  | .error error => .error error
  | .ok reader => .ok (reader.resolution blake3, reader.size)

/-- The bytes are one of the macros. -/
def IsTimestampMacro (found : List UInt8) : Prop := found ∈ timestampMacros

private theorem IsTimestampMacro.length_le {found : List UInt8} (hfound : IsTimestampMacro found) :
    found.length ≤ longestMacro := by
  have hall : ∀ name ∈ timestampMacros, name.length ≤ longestMacro := by decide +kernel
  exact hall found hfound

private theorem any_infix_iff (text : List UInt8) :
    (timestampMacros.any (· <:+: text)) = true ↔ Occurs IsTimestampMacro text := by
  simp only [List.any_eq_true, decide_eq_true_eq]
  constructor
  · rintro ⟨name, hname, front, back, htext⟩
    exact ⟨front, name, back, htext.symm, hname⟩
  · rintro ⟨front, name, back, htext, hname⟩
    exact ⟨name, hname, front, back, htext.symm⟩

/-- What the reader holds after the bytes it has seen. -/
structure Reader.Seen (scope : FileDigestScope) (seen : List UInt8) (reader : Reader) :
    Prop where
  hashed : reader.hashed = seen
  size : reader.size = seen.length
  found : reader.foundTimestampMacro = true ↔
    scope = .ccInput ∧ Occurs IsTimestampMacro seen
  window : scope = .ccInput → reader.foundTimestampMacro = false →
    Window longestMacro seen reader.window

private theorem Reader.Seen.update {scope : FileDigestScope} {seen chunk : List UInt8}
    {reader : Reader} (hseen : reader.Seen scope seen)
    (hsize : (seen ++ chunk).length < 18446744073709551616) :
    ∃ reader', reader.update scope chunk = .ok reader' ∧
      reader'.Seen scope (seen ++ chunk) := by
  rw [List.length_append] at hsize
  unfold Reader.update
  rw [if_neg (by rw [hseen.size]; omega)]
  split
  · rename_i hscan
    have hclean : ¬ Occurs IsTimestampMacro seen := fun hoccurs =>
      absurd (hseen.found.mpr ⟨hscan.1, hoccurs⟩) (by simp [hscan.2])
    have hwindow := hseen.window hscan.1 hscan.2
    refine ⟨_, rfl, by rw [hseen.hashed], by simp [hseen.size], ?_, fun _ _ =>
      hwindow.next chunk⟩
    rw [← hwindow.occurs_iff (fun _ => IsTimestampMacro.length_le) hclean]
    exact (any_infix_iff _).trans (and_iff_right hscan.1).symm
  · rename_i hscan
    refine ⟨_, rfl, by rw [hseen.hashed], by simp [hseen.size], ?_, fun hscope hfound =>
      absurd ⟨hscope, hfound⟩ hscan⟩
    simp only [not_and, Bool.not_eq_false] at hscan
    constructor
    · intro hfound
      obtain ⟨hscope, hoccurs⟩ := hseen.found.mp hfound
      exact ⟨hscope, hoccurs.append_right chunk⟩
    · exact fun hboth => hscan hboth.1

private theorem Reader.Seen.readAll {scope : FileDigestScope} {seen : List UInt8} {reader : Reader}
    (hseen : reader.Seen scope seen) (chunks : List (List UInt8))
    (hchunks : ∀ chunk ∈ chunks, chunk ≠ [])
    (hsize : (seen ++ chunks.flatten).length < 18446744073709551616) :
    ∃ reader', reader.readAll scope (chunks.map .ok) = .ok reader' ∧
      reader'.Seen scope (seen ++ chunks.flatten) := by
  induction chunks generalizing seen reader with
  | nil => exact ⟨reader, rfl, by simpa using hseen⟩
  | cons chunk rest ih =>
    rw [List.flatten_cons, ← List.append_assoc] at hsize
    have hnext : (seen ++ chunk).length < 18446744073709551616 := by
      rw [List.length_append] at hsize
      omega
    obtain ⟨reader', hupdate, hseen'⟩ := hseen.update hnext
    simp only [List.map_cons, Reader.readAll, if_neg (hchunks chunk List.mem_cons_self),
      hupdate, List.flatten_cons]
    rw [← List.append_assoc]
    exact ih hseen' (fun chunk' hmem => hchunks chunk' (List.mem_cons_of_mem _ hmem)) hsize

private theorem digestReader_spec (blake3 : List UInt8 → String) (scope : FileDigestScope)
    (chunks : List (List UInt8)) (hchunks : ∀ chunk ∈ chunks, chunk ≠ [])
    (hsize : chunks.flatten.length < 18446744073709551616) :
    ∃ resolution, digestReader blake3 scope (chunks.map .ok) =
        .ok (resolution, chunks.flatten.length) ∧
      (resolution = .embeddedTimestampMacro ↔
        scope = .ccInput ∧ Occurs IsTimestampMacro chunks.flatten) ∧
      (resolution ≠ .embeddedTimestampMacro → resolution =
        .digest ⟨"blake3", blake3 chunks.flatten, chunks.flatten.length⟩) := by
  have hstart : Reader.start.Seen scope [] := by
    refine ⟨rfl, rfl, iff_of_false Bool.false_ne_true ?_, fun _ _ => Window.start⟩
    rintro ⟨-, front, found, back, htext, hfound⟩
    have hnil : found = [] := by
      rw [eq_comm, List.append_assoc, List.append_eq_nil_iff, List.append_eq_nil_iff] at htext
      exact htext.2.1
    exact absurd (hnil ▸ hfound) (by unfold IsTimestampMacro; decide +kernel)
  obtain ⟨reader, hread, hseen⟩ := hstart.readAll chunks hchunks hsize
  rw [List.nil_append] at hseen
  refine ⟨reader.resolution blake3, by simp [digestReader, hread, hseen.size], ?_, ?_⟩
  · rw [← hseen.found, Reader.resolution]
    split <;> simp_all
  · intro hdigest
    unfold Reader.resolution at hdigest ⊢
    split
    · rename_i hfound
      exact absurd (if_pos hfound) hdigest
    · rw [hseen.hashed, hseen.size]

end MrBoxington.FileDigest

namespace MrBoxington.Cc

open ChunkScan FileDigest
open Protocol (asciiBytes)

/-- However the reads cut a content, the directives and the macros that are found are
those of the whole content, and a digest is that of the whole content. -/
theorem chunked_scans_exact (memchr : Memchr) (path : String) (blake3 : List UInt8 → String)
    (chunks : List (List UInt8)) (hchunks : ∀ chunk ∈ chunks, chunk ≠ []) :
    (∃ answer, containsAssemblerInputDirective memchr path (.ok (chunks.map .ok)) = .ok answer ∧
      (answer = true ↔ ∃ directive ∈ assemblerInputDirectives, ∃ front found back,
        chunks.flatten = front ++ found ++ back ∧
        bytesEqIgnoreAsciiCase found directive = true)) ∧
    (chunks.flatten.length < 18446744073709551616 →
      ∃ resolution, digestReader blake3 .ccInput (chunks.map .ok) =
          .ok (resolution, chunks.flatten.length) ∧
        (resolution = .embeddedTimestampMacro ↔
          ∃ name ∈ timestampMacros, name <:+: chunks.flatten) ∧
        (resolution ≠ .embeddedTimestampMacro → resolution =
          .digest ⟨"blake3", blake3 chunks.flatten, chunks.flatten.length⟩)) := by
  refine ⟨?_, fun hsize => ?_⟩
  · have hclean : ¬ Occurs IsDirective [] := by
      rintro ⟨front, found, back, htext, directive, hmem, heq⟩
      obtain rfl : found = [] := by
        rw [eq_comm, List.append_assoc, List.append_eq_nil_iff, List.append_eq_nil_iff] at htext
        exact htext.2.1
      have hnone : ∀ directive ∈ assemblerInputDirectives,
          bytesEqIgnoreAsciiCase [] directive = false := by decide +kernel
      rw [hnone directive hmem] at heq
      cases heq
    obtain ⟨answer, hscan, hanswer⟩ := scanForDirective_spec memchr path Window.start hclean
      chunks hchunks
    refine ⟨answer, hscan, hanswer.trans ⟨?_, ?_⟩⟩
    · rintro ⟨front, found, back, htext, directive, hmem, heq⟩
      exact ⟨directive, hmem, front, found, back, htext, heq⟩
    · rintro ⟨directive, hmem, front, found, back, htext, heq⟩
      exact ⟨front, found, back, htext, directive, hmem, heq⟩
  · obtain ⟨resolution, hdigest, hembedded, hplain⟩ :=
      digestReader_spec blake3 .ccInput chunks hchunks hsize
    refine ⟨resolution, hdigest, hembedded.trans ?_, hplain⟩
    rw [and_iff_right rfl, ← any_infix_iff]
    simp

/-- A search from the front. -/
def frontMemchr : Memchr where
  memchr2Iter byte other window := (List.range window.length).filter fun offset =>
    window[offset]? = some byte ∨ window[offset]? = some other
  mem_memchr2Iter byte other window offset := by
    rw [List.mem_filter, List.mem_range, decide_eq_true_eq, and_iff_right_iff_imp]
    rintro (hbyte | hbyte)
    · exact (List.getElem?_eq_some_iff.mp hbyte).1
    · exact (List.getElem?_eq_some_iff.mp hbyte).1

/-- Reads that cut a directive and a macro. -/
def straddlingChunks : List (List UInt8) :=
  ["x .I", "nc", "Bin __DA", "T", "E__"].map asciiBytes

theorem chunked_scans_exact_straddling :
    containsAssemblerInputDirective frontMemchr "a.S" (.ok (straddlingChunks.map .ok)) = .ok true ∧
      digestReader (fun _ => "") .ccInput (straddlingChunks.map .ok) =
        .ok (.embeddedTimestampMacro, 18) := by
  obtain ⟨⟨answer, hscan, hanswer⟩, hdigest⟩ :=
    chunked_scans_exact frontMemchr "a.S" (fun _ => "") straddlingChunks (by decide +kernel)
  obtain ⟨resolution, hread, hembedded, -⟩ := hdigest (by decide +kernel)
  have hfound : answer = true :=
    hanswer.mpr ⟨asciiBytes ".incbin", by decide +kernel, asciiBytes "x ",
      asciiBytes ".IncBin", asciiBytes " __DATE__", by decide +kernel, by decide +kernel⟩
  have hmacro : resolution = .embeddedTimestampMacro :=
    hembedded.mpr ⟨asciiBytes "__DATE__", by decide +kernel, asciiBytes "x .IncBin ", [],
      by decide +kernel⟩
  have hlength : straddlingChunks.flatten.length = 18 := by decide +kernel
  exact ⟨hfound ▸ hscan, by rw [hread, hmacro, hlength]⟩

end MrBoxington.Cc
