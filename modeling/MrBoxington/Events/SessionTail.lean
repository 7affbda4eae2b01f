import MrBoxington.Lib.TextLines
import MrBoxington.Lib.Utf8

/-!
# A session's events, read while they are written

A build appends its events to a stream, a line each. A reader keeps the offset it has
consumed and the line that is not ended yet, and decodes what was appended since the last
read on its own. If no read ends inside a character, the events it returns are those of all
lines that are ended. A read that ends inside a character loses what it consumed, and the
next one loses the rest of that character and what follows it.
-/

namespace MrBoxington.Events

open Strings (lineChars stripReturn)
open Utf8 (encode isCharBoundary)

/-- The text of bytes, if they are text. -/
def fromUtf8 (bytes : List UInt8) : Option (List Char) :=
  (String.fromUTF8? bytes.toByteArray).map String.toList

/-- What is before and after the last end of a line; the end belongs to what is before. -/
def cutLast : List Char → Option (List Char × List Char)
  | [] => none
  | c :: rest =>
    match cutLast rest with
    | some (complete, remainder) => some (c :: complete, remainder)
    | none => if c = '\n' then some (['\n'], rest) else none

/-- The text up to and including its last end of a line. -/
def throughLastNewline (text : List Char) : List Char := ((cutLast text).map Prod.fst).getD []

structure SessionTail where
  offset : ℕ := 0
  partialLine : List Char := []
  finished : Bool := false

section Reader

variable {Event : Type} (fromStr : List Char → Option Event) (isFinished : Event → Bool)

/-- The events of a text, without the lines that are not events. -/
def parseEvents (contents : List Char) : List Event := (lineChars contents).filterMap fromStr

/-- Consumes what was appended since the last read. The contents are those of the file, unless
it cannot be opened or read. -/
def SessionTail.read (tail : SessionTail) (contents : Option (List UInt8)) :
    List Event × SessionTail :=
  match contents with
  | none => ([], tail)
  | some contents =>
    let appended := contents.drop tail.offset
    let tail := { tail with
      offset := min (tail.offset + appended.length) 18446744073709551615 }
    match fromUtf8 appended with
    | none => ([], tail)
    | some appended =>
      match cutLast (tail.partialLine ++ appended) with
      | none => ([], { tail with partialLine := tail.partialLine ++ appended })
      | some (complete, remainder) =>
        let events := parseEvents fromStr complete
        (events, { tail with partialLine := remainder
                             finished := tail.finished || events.any isFinished })

/-- The events of reads that see the first bytes of a stream, up to each cut. -/
def SessionTail.readCuts (stream : List UInt8) : SessionTail → List ℕ → List Event
  | _, [] => []
  | tail, cut :: cuts =>
    let (events, tail) := tail.read fromStr isFinished (some (stream.take cut))
    events ++ tail.readCuts stream cuts

end Reader

/-! ## Lines that are ended -/

/-- Lines, each with its end. -/
def Complete (text : List Char) : Prop :=
  ∃ parts : List (List Char), (∀ line ∈ parts, '\n' ∉ line) ∧ text = parts.flatMap (· ++ ['\n'])

private theorem Complete.nil : Complete [] := ⟨[], by simp, rfl⟩

private theorem Complete.append {front back : List Char} (hfront : Complete front)
    (hback : Complete back) : Complete (front ++ back) := by
  obtain ⟨parts, hparts, rfl⟩ := hfront
  obtain ⟨parts', hparts', rfl⟩ := hback
  refine ⟨parts ++ parts', fun line hmem => ?_, List.flatMap_append.symm⟩
  exact (List.mem_append.mp hmem).elim (hparts line) (hparts' line)

private theorem Complete.cons {c : Char} {text : List Char} (htext : Complete text)
    (hne : text ≠ []) :
    Complete (c :: text) := by
  obtain ⟨parts, hparts, rfl⟩ := htext
  cases parts with
  | nil => exact absurd rfl hne
  | cons line parts =>
    obtain ⟨hline, hrest⟩ := List.forall_mem_cons.mp hparts
    by_cases hc : c = '\n'
    · subst hc
      exact ⟨[] :: line :: parts, List.forall_mem_cons.mpr ⟨by simp, hparts⟩, rfl⟩
    · refine ⟨(c :: line) :: parts, List.forall_mem_cons.mpr ⟨?_, hrest⟩, rfl⟩
      simp [Ne.symm hc, hline]

private theorem parseEvents_append {Event : Type} (fromStr : List Char → Option Event)
    {front back : List Char} (hfront : Complete front) (hback : Complete back) :
    parseEvents fromStr (front ++ back) =
      parseEvents fromStr front ++ parseEvents fromStr back := by
  obtain ⟨parts, hparts, rfl⟩ := hfront
  obtain ⟨parts', hparts', rfl⟩ := hback
  have hboth : ∀ line ∈ parts ++ parts', '\n' ∉ line := fun line hmem =>
    (List.mem_append.mp hmem).elim (hparts line) (hparts' line)
  unfold parseEvents
  rw [← List.flatMap_append, Strings.lineChars_flatMap hboth, Strings.lineChars_flatMap hparts,
    Strings.lineChars_flatMap hparts', List.map_append, List.filterMap_append]

private theorem cutLast_eq_none {text : List Char} : cutLast text = none ↔ '\n' ∉ text := by
  induction text with
  | nil => simp [cutLast]
  | cons c rest ih =>
    rw [cutLast]
    split
    · rename_i heq
      have hmem : '\n' ∈ rest := by
        by_contra hnot
        exact absurd (heq.symm.trans (ih.mpr hnot)) (by simp)
      simp [hmem]
    · rename_i heq
      have hnot := ih.mp heq
      split
      · simp_all
      · rename_i hc
        simp [hnot, Ne.symm hc]

private theorem cutLast_eq_some {text complete remainder : List Char}
    (hcut : cutLast text = some (complete, remainder)) :
    text = complete ++ remainder ∧ Complete complete ∧ complete ≠ [] ∧ '\n' ∉ remainder := by
  induction text generalizing complete with
  | nil => cases hcut
  | cons c rest ih =>
    rw [cutLast] at hcut
    split at hcut
    · rename_i complete' remainder' heq
      obtain ⟨rfl, rfl⟩ := Prod.mk.inj (Option.some.inj hcut)
      obtain ⟨rfl, hcomplete, hne, hnot⟩ := ih heq
      exact ⟨rfl, hcomplete.cons hne, List.cons_ne_nil _ _, hnot⟩
    · rename_i heq
      split at hcut
      · rename_i hc
        obtain ⟨rfl, rfl⟩ := Prod.mk.inj (Option.some.inj hcut)
        exact ⟨by rw [hc]; rfl, ⟨[[]], by simp, rfl⟩, List.cons_ne_nil _ _,
          cutLast_eq_none.mp heq⟩
      · cases hcut

private theorem Complete.mem_of_suffix {front back : List Char} (htext : Complete (front ++ back))
    (hne : back ≠ []) : '\n' ∈ back := by
  obtain ⟨parts, -, heq⟩ := htext
  obtain rfl | ⟨init, line, rfl⟩ := parts.eq_nil_or_concat
  · exact absurd (List.append_eq_nil_iff.mp heq).2 hne
  · rw [List.concat_eq_append, List.flatMap_append, List.flatMap_singleton,
      ← List.append_assoc] at heq
    have hlast := congrArg List.getLast? heq
    rw [List.getLast?_append_of_ne_nil _ hne, List.getLast?_concat] at hlast
    exact List.mem_of_getLast? hlast

/-- A text of ended lines and a line that is not ended is cut between them. -/
theorem throughLastNewline_append {complete remainder : List Char} (hcomplete : Complete complete)
    (hnot : '\n' ∉ remainder) : throughLastNewline (complete ++ remainder) = complete := by
  unfold throughLastNewline
  cases hcut : cutLast (complete ++ remainder) with
  | none =>
    have hnone := cutLast_eq_none.mp hcut
    have hwhole : Complete ([] ++ complete) := hcomplete
    by_contra hne
    exact hnone (List.mem_append_left _ (hwhole.mem_of_suffix (Ne.symm hne)))
  | some cut =>
    obtain ⟨heq, hcomplete', -, hnot'⟩ := cutLast_eq_some hcut
    obtain ⟨extra, hleft, hright⟩ | ⟨extra, hleft, hright⟩ := List.append_eq_append_iff.mp heq
    · by_cases hextra : extra = []
      · simp [hleft, hextra]
      · have hin := (hleft ▸ hcomplete').mem_of_suffix hextra
        exact absurd (hright ▸ List.mem_append_left _ hin) hnot
    · by_cases hextra : extra = []
      · simp [hleft, hextra]
      · have hin := (hleft ▸ hcomplete).mem_of_suffix hextra
        exact absurd (hright ▸ List.mem_append_left _ hin) hnot'

/-! ## Reads -/

private theorem fromUtf8_encode (chars : List Char) : fromUtf8 (encode chars) = some chars := by
  have hvalid : (encode chars).toByteArray.IsValidUTF8 := ⟨chars, rfl⟩
  have htext : String.fromUTF8 (encode chars).toByteArray hvalid = String.ofList chars := by
    rw [← String.toByteArray_inj]
    rfl
  rw [fromUtf8, String.fromUTF8?, dif_pos hvalid, htext, Option.map_some, String.toList_ofList]

private theorem fromUtf8_eq_none {bytes : List UInt8} (hvalid : ¬ Utf8.Valid bytes) :
    fromUtf8 bytes = none := by
  rw [fromUtf8, String.fromUTF8?, dif_neg, Option.map_none]
  rintro ⟨chars, hchars⟩
  exact hvalid ⟨chars, (List.toByteArray_inj.mp hchars).symm⟩

/-- What the reader has consumed of a stream: ended lines, whose events it has returned, and a
line that is not ended. -/
structure SessionTail.Consumed (stream lines : List Char) (tail : SessionTail) : Prop where
  offset : tail.offset = (encode (lines ++ tail.partialLine)).length
  complete : Complete lines
  pending : '\n' ∉ tail.partialLine
  front : lines ++ tail.partialLine <+: stream

section Reads

variable {Event : Type} (fromStr : List Char → Option Event) (isFinished : Event → Bool)
  {stream lines : List Char} {tail : SessionTail} {cut : ℕ}

/-- What was appended up to a place between characters is text. -/
theorem SessionTail.Consumed.appended (hconsumed : tail.Consumed stream lines)
    (hle : tail.offset ≤ cut) (hboundary : isCharBoundary (encode stream) cut = true) :
    ∃ appended, ((encode stream).take cut).drop tail.offset = encode appended ∧
      tail.offset + (encode appended).length = cut ∧
      lines ++ (tail.partialLine ++ appended) <+: stream := by
  obtain ⟨front, back, rfl, hlength⟩ := Utf8.exists_of_isCharBoundary hboundary
  have htake : (encode (front ++ back)).take cut = encode front := by
    rw [Utf8.encode_append, ← hlength, List.take_left]
  obtain ⟨rest, hrest⟩ := hconsumed.front
  have hconsumedFront : encode (lines ++ tail.partialLine) <+: encode front :=
    List.prefix_of_prefix_length_le
      ⟨encode rest, by rw [← Utf8.encode_append, hrest]⟩
      ⟨encode back, Utf8.encode_append.symm⟩ (by rw [← hconsumed.offset, hlength]; exact hle)
  obtain ⟨bytes, hbytes⟩ := hconsumedFront
  obtain ⟨appended, rfl, rfl⟩ := Utf8.encode_split hbytes
  refine ⟨appended, ?_, ?_, ⟨back, by simp⟩⟩
  · rw [htake, Utf8.encode_append, hconsumed.offset, List.drop_left]
  · rw [← hlength, hconsumed.offset, ← hbytes, List.length_append]

/-- A read that ends between characters returns the events of the lines that it completes. -/
theorem SessionTail.Consumed.read (hconsumed : tail.Consumed stream lines)
    (hlength : (encode stream).length ≤ 18446744073709551615) (hle : tail.offset ≤ cut)
    (hboundary : isCharBoundary (encode stream) cut = true) :
    ∃ more tail', tail.read fromStr isFinished (some ((encode stream).take cut)) =
        (parseEvents fromStr more, tail') ∧ Complete more ∧
      tail'.Consumed stream (lines ++ more) ∧ tail'.offset = cut := by
  obtain ⟨appended, hdrop, hoffset, hfront⟩ := hconsumed.appended hle hboundary
  have hcut := Utf8.le_length_of_isCharBoundary hboundary
  have hmin : min (tail.offset + (encode appended).length) 18446744073709551615 = cut := by omega
  have hconsumedLength : cut = (encode (lines ++ (tail.partialLine ++ appended))).length := by
    rw [← List.append_assoc, Utf8.encode_append, List.length_append, ← hconsumed.offset, hoffset]
  simp only [SessionTail.read, hdrop, fromUtf8_encode, hmin]
  cases hlast : cutLast (tail.partialLine ++ appended) with
  | none =>
    refine ⟨[], _, rfl, .nil, ⟨?_, ?_, cutLast_eq_none.mp hlast, ?_⟩, rfl⟩
    · rw [List.append_nil]
      exact hconsumedLength
    · rw [List.append_nil]
      exact hconsumed.complete
    · rwa [List.append_nil]
  | some cutText =>
    obtain ⟨complete, remainder⟩ := cutText
    obtain ⟨heq, hcomplete, -, hnot⟩ := cutLast_eq_some hlast
    rw [heq, ← List.append_assoc] at hconsumedLength hfront
    exact ⟨complete, _, rfl, hcomplete,
      ⟨hconsumedLength, hconsumed.complete.append hcomplete, hnot, hfront⟩, rfl⟩

private theorem SessionTail.Consumed.readCuts (hconsumed : tail.Consumed stream lines)
    (hlength : (encode stream).length ≤ 18446744073709551615) (cuts : List ℕ)
    (hgrow : (tail.offset :: cuts).Pairwise (· ≤ ·))
    (hlast : cuts.getLast?.getD tail.offset = (encode stream).length)
    (hwhole : ∀ cut ∈ cuts, isCharBoundary (encode stream) cut = true) :
    ∃ more, Complete more ∧ throughLastNewline stream = lines ++ more ∧
      tail.readCuts fromStr isFinished (encode stream) cuts = parseEvents fromStr more := by
  induction cuts generalizing tail lines with
  | nil =>
    obtain ⟨rest, hrest⟩ := hconsumed.front
    have hall : tail.offset = (encode stream).length := hlast
    rw [hconsumed.offset, ← hrest, Utf8.encode_append, List.length_append] at hall
    have hnil : rest = [] := by
      cases rest with
      | nil => rfl
      | cons c rest =>
        obtain ⟨first, others, hc, -⟩ := Utf8.utf8EncodeChar_eq_cons c
        simp [hc] at hall
    rw [hnil, List.append_nil] at hrest
    refine ⟨[], .nil, ?_, rfl⟩
    rw [← hrest, List.append_nil, throughLastNewline_append hconsumed.complete hconsumed.pending]
  | cons cut cuts ih =>
    obtain ⟨hfirst, hrest⟩ := List.pairwise_cons.mp hgrow
    obtain ⟨hboundary, hwhole⟩ := List.forall_mem_cons.mp hwhole
    obtain ⟨more, tail', hread, hmore, hconsumed', hoffset⟩ := hconsumed.read fromStr isFinished
      hlength (hfirst cut List.mem_cons_self) hboundary
    rw [List.getLast?_cons, Option.getD_some] at hlast
    obtain ⟨more', hmore', hthrough, hreads⟩ := ih hconsumed' (hoffset ▸ hrest)
      (hoffset ▸ hlast) hwhole
    refine ⟨more ++ more', hmore.append hmore', by rw [hthrough, List.append_assoc], ?_⟩
    rw [SessionTail.readCuts, hread, parseEvents_append fromStr hmore hmore', ← hreads]

/-- If no read ends inside a character, the reads return the events of all lines that are
ended. -/
theorem reads_return_ended_lines (stream : List Char)
    (hlength : (encode stream).length ≤ 18446744073709551615) (cuts : List ℕ)
    (hgrow : cuts.Pairwise (· ≤ ·)) (hlast : cuts.getLast? = some (encode stream).length)
    (hwhole : ∀ cut ∈ cuts, isCharBoundary (encode stream) cut = true) :
    ({} : SessionTail).readCuts fromStr isFinished (encode stream) cuts =
      parseEvents fromStr (throughLastNewline stream) := by
  have hstart : ({} : SessionTail).Consumed stream [] :=
    ⟨rfl, .nil, List.not_mem_nil, List.nil_prefix⟩
  obtain ⟨more, -, hthrough, hreads⟩ := hstart.readCuts fromStr isFinished hlength cuts
    (List.pairwise_cons.mpr ⟨fun _ _ => Nat.zero_le _, hgrow⟩) (by rw [hlast]; rfl) hwhole
  rw [hreads, hthrough, List.nil_append]

end Reads

/-- The last event of a session, with a character of two bytes. -/
def finishedLine : List Char :=
  "\x7b\"type\":\"session_finished\",\"v\":1,\"ts_ms\":0,\"stats\":\"é\"\x7d".toList

def finishedStream : List Char := finishedLine ++ ['\n']

/-- Reads that see the line in two parts. -/
theorem reads_return_ended_lines_parts :
    ({} : SessionTail).readCuts some (fun _ => true) (encode finishedStream) [50, 57] =
      parseEvents some (throughLastNewline finishedStream) :=
  reads_return_ended_lines some (fun _ => true) finishedStream (by decide +kernel)
    [50, 57] (by decide) (by decide +kernel) (by decide +kernel)

private theorem finishedLine_complete : ∀ line ∈ [finishedLine], '\n' ∉ line := by decide +kernel

/-- A first read that ends inside the character loses the event. -/
theorem cut_character_loses_event :
    [53, 57].Pairwise (· ≤ ·) ∧ [53, 57].getLast? = some (encode finishedStream).length ∧
      ∀ fromStr : List Char → Option Unit, fromStr finishedLine = some () →
        ({} : SessionTail).readCuts fromStr (fun _ => true) (encode finishedStream) [53, 57] = [] ∧
          parseEvents fromStr (throughLastNewline finishedStream) = [()] := by
  have hall : (encode finishedStream).length = 57 := by decide +kernel
  refine ⟨by decide, by rw [hall]; rfl, fun fromStr hparses => ⟨?_, ?_⟩⟩
  · have hfirst : fromUtf8 (((encode finishedStream).take 53).drop 0) = none :=
      fromUtf8_eq_none fun hvalid => absurd
        (Utf8.isCharBoundary_of_valid_take ⟨finishedStream, rfl⟩ (by omega) hvalid)
        (by decide +kernel)
    have hsecond : fromUtf8 (((encode finishedStream).take 57).drop 53) = none := by
      have hbytes : ((encode finishedStream).take 57).drop 53 = [169, 34, 125, 10] := by
        decide +kernel
      rw [hbytes]
      exact fromUtf8_eq_none fun hvalid => absurd hvalid.isContinuation_head (by decide)
    have hoffset : min (0 + (((encode finishedStream).take 53).drop 0).length)
        18446744073709551615 = 53 := by
      rw [List.drop_zero, List.length_take, hall]
      rfl
    simp only [SessionTail.readCuts, SessionTail.read, hfirst, hoffset, hsecond, List.nil_append]
  · have hended : Complete finishedStream :=
      ⟨[finishedLine], finishedLine_complete, by simp [finishedStream]⟩
    have hthrough := throughLastNewline_append hended (List.not_mem_nil (a := '\n'))
    have hlines : lineChars finishedStream = [stripReturn finishedLine] := by
      simpa [finishedStream] using Strings.lineChars_flatMap finishedLine_complete
    have hplain : stripReturn finishedLine = finishedLine := by decide +kernel
    rw [List.append_nil] at hthrough
    rw [hthrough, parseEvents, hlines, hplain]
    simp [hparses]

end MrBoxington.Events
