import Mathlib.Data.List.MinMax
import Mathlib.Data.List.Sort
import Mathlib.Data.Prod.Lex
import MrBoxington.Lib.Keyed
import MrBoxington.Lib.Octets
import MrBoxington.Lib.SearchSorted

/-!
# What tests needed before

The history of a test binary is a file: a header with the largest measurement, and a record for
each test in the order of the hashes of their names. A lookup searches the file by offsets; an
update reads all records, raises one, makes room if there are too many and writes the file again.
What is written is read back.
-/

namespace MrBoxington.Scheduler.TestHistory

structure TestMeasurement where
  peak : Option ℕ := none
  cores : Option ℕ := none
deriving DecidableEq

structure TestHistoryRecord where
  hash : ℕ
  measurement : TestMeasurement
deriving DecidableEq

structure TestHistoryHeader where
  count : ℕ := 0
  maximum : TestMeasurement := {}

structure TestHistoryLookup where
  test : Option TestMeasurement := none
  header : TestHistoryHeader := {}

def testHistoryMagic : List UInt8 := [109, 98, 120, 116, 101, 115, 116, 1]

def testHistoryHeaderLen : ℕ := 32

def testHistoryRecordLen : ℕ := 24

def maxTestHistoryEntries : ℕ := 16384

/-! ## Measurements -/

/-- The larger of two figures, if there are two. -/
def raiseField : Option ℕ → Option ℕ → Option ℕ
  | some current, some incoming => some (max current incoming)
  | some current, none => some current
  | none, incoming => incoming

def raiseMeasurement (current incoming : TestMeasurement) : TestMeasurement :=
  ⟨raiseField current.peak incoming.peak, raiseField current.cores incoming.cores⟩

def nonzero (value : ℕ) : Option ℕ := if value = 0 then none else some value

/-! ## The file -/

/-- A word, its least significant octet first. -/
def leBytes (value : ℕ) : List UInt8 := (Octets.beBytes 8 value).reverse

def readU64 (bytes : List UInt8) : ℕ := Octets.beValue bytes.reverse

/-- The word at an offset. -/
def wordAt (offset : ℕ) (bytes : List UInt8) : ℕ := readU64 ((bytes.drop offset).take 8)

def measurementAt (offset : ℕ) (bytes : List UInt8) : TestMeasurement :=
  ⟨nonzero (wordAt offset bytes), nonzero (wordAt (offset + 8) bytes)⟩

def encodeMeasurement (measurement : TestMeasurement) : List UInt8 :=
  leBytes (measurement.peak.getD 0) ++ leBytes (measurement.cores.getD 0)

def parseTestHistoryHeader (bytes : List UInt8) (fileLen tag : ℕ) : Option TestHistoryHeader :=
  if bytes.length ≠ testHistoryHeaderLen ∨ fileLen < testHistoryHeaderLen ∨
      bytes.take 8 ≠ testHistoryMagic ∨ wordAt 8 bytes ≠ tag then none
  else
    some { count := (fileLen - testHistoryHeaderLen) / testHistoryRecordLen
           maximum := measurementAt 16 bytes }

/-- The header of the history of a binary, unless the file is missing or not one. -/
def readTestHistoryHeader (file : Option (List UInt8)) (tag : ℕ) : Option TestHistoryHeader :=
  file.bind fun contents =>
    parseTestHistoryHeader (contents.take testHistoryHeaderLen) contents.length tag

def decodeTestHistoryRecord (bytes : List UInt8) : TestHistoryRecord :=
  ⟨wordAt 0 bytes, measurementAt 8 bytes⟩

def encodeTestHistoryRecord (record : TestHistoryRecord) : List UInt8 :=
  leBytes record.hash ++ encodeMeasurement record.measurement

def encodeTestHistory (tag : ℕ) (records : List TestHistoryRecord) : List UInt8 :=
  let maximum := records.foldl (fun maximum record =>
    raiseMeasurement maximum record.measurement) {}
  testHistoryMagic ++ leBytes tag ++ encodeMeasurement maximum ++
    records.flatMap encodeTestHistoryRecord

/-- The first chunks of the length of a record. -/
def recordChunks : ℕ → List UInt8 → List (List UInt8)
  | 0, _ => []
  | count + 1, bytes =>
    bytes.take testHistoryRecordLen :: recordChunks count (bytes.drop testHistoryRecordLen)

/-- Adds a record after others, or raises the last one if it has the same hash. -/
def pushUnique (unique : List TestHistoryRecord) (record : TestHistoryRecord) :
    List TestHistoryRecord :=
  match unique.getLast? with
  | some previous =>
    if previous.hash = record.hash then
      unique.dropLast ++
        [{ previous with
            measurement := raiseMeasurement previous.measurement record.measurement }]
    else unique ++ [record]
  | none => [record]

def readTestHistoryRecords (file : Option (List UInt8)) (tag : ℕ) : List TestHistoryRecord :=
  match readTestHistoryHeader file tag with
  | none => []
  | some header =>
    let body := (file.getD []).drop testHistoryHeaderLen
    let records := (recordChunks header.count body).map decodeTestHistoryRecord
    (records.insertionSort fun left right => left.hash ≤ right.hash).foldl pushUnique []

/-- The record with an index, if the file reaches that far. -/
def readRecordAt (contents : List UInt8) (index : ℕ) : Option TestHistoryRecord :=
  let bytes := (contents.drop (testHistoryHeaderLen + index * testHistoryRecordLen)).take
    testHistoryRecordLen
  if bytes.length = testHistoryRecordLen then some (decodeTestHistoryRecord bytes) else none

def lookupTestHistory (file : Option (List UInt8)) (tag hash : ℕ) : TestHistoryLookup :=
  match readTestHistoryHeader file tag with
  | none => {}
  | some header =>
    { test := (SearchSorted.search TestHistoryRecord.hash hash (readRecordAt (file.getD [])) 0
        header.count).map TestHistoryRecord.measurement
      header }

/-! ## Updates -/

/-- Replaces the record with the hash in sorted records, or inserts it where a binary search
ends. -/
def putRecord (record : TestHistoryRecord) (records : List TestHistoryRecord) :
    List TestHistoryRecord :=
  records.filter (fun other => decide (other.hash < record.hash)) ++
    record :: records.filter fun other => decide (record.hash < other.hash)

/-- The order in which records make room. -/
def worth (record : TestHistoryRecord) : Lex (ℕ × Lex (ℕ × ℕ)) :=
  toLex (record.measurement.peak.getD 0, toLex (record.measurement.cores.getD 0, record.hash))

/-- Removes the smallest record. -/
def removeSmallest (records : List TestHistoryRecord) : List TestHistoryRecord :=
  match records.argmin worth with
  | some smallest => records.erase smallest
  | none => records

/-- Removes records until there are no more than the limit; a round removes one. -/
def enforceTestHistoryCap (limit : ℕ) : ℕ → List TestHistoryRecord → List TestHistoryRecord
  | 0, records => records
  | rounds + 1, records =>
    if limit < records.length then enforceTestHistoryCap limit rounds (removeSmallest records)
    else records

/-- The measurement with a hash. -/
def measurementOf (records : List TestHistoryRecord) (hash : ℕ) : TestMeasurement :=
  ((Keyed.lookup TestHistoryRecord.hash records hash).map TestHistoryRecord.measurement).getD {}

/-- The figures that are not zero. -/
def positive (peak cores : Option ℕ) : TestMeasurement :=
  ⟨peak.filter fun value => decide (0 < value), cores.filter fun value => decide (0 < value)⟩

/-- The file after a measurement of a test. -/
def recordTestHistory (tag hash : ℕ) (peak cores : Option ℕ) (file : Option (List UInt8)) :
    Option (List UInt8) :=
  let records := readTestHistoryRecords file tag
  let current := measurementOf records hash
  let updated := raiseMeasurement current (positive peak cores)
  if updated = current then file
  else
    let stored := putRecord ⟨hash, updated⟩ records
    some (encodeTestHistory tag (enforceTestHistoryCap maxTestHistoryEntries stored.length stored))

/-! ## What is written is read back -/

/-- Figures that are written with a word, and are not zero. -/
def Figure (figure : Option ℕ) : Prop :=
  ∀ value, figure = some value → 0 < value ∧ value < 18446744073709551616

structure TestMeasurement.Fits (measurement : TestMeasurement) : Prop where
  peak : Figure measurement.peak
  cores : Figure measurement.cores

/-- Records in the order of their hashes. -/
structure WellFormed (records : List TestHistoryRecord) : Prop where
  sorted : records.Pairwise (·.hash < ·.hash)
  fits : ∀ record ∈ records, record.hash < 18446744073709551616 ∧ record.measurement.Fits

@[simp] private theorem length_leBytes (value : ℕ) : (leBytes value).length = 8 := by simp [leBytes]

private theorem readU64_leBytes {value : ℕ} (hvalue : value < 18446744073709551616) :
    readU64 (leBytes value) = value := by
  rw [readU64, leBytes, List.reverse_reverse]
  exact Octets.beValue_beBytes hvalue

private theorem wordAt_append {front back : List UInt8} {value offset : ℕ}
    (hoffset : front.length = offset)
    (hvalue : value < 18446744073709551616) :
    wordAt offset (front ++ (leBytes value ++ back)) = value := by
  rw [wordAt, List.drop_left' hoffset, List.take_left' (length_leBytes value),
    readU64_leBytes hvalue]

private theorem nonzero_getD {figure : Option ℕ} (hfigure : Figure figure) :
    nonzero (figure.getD 0) = figure ∧ figure.getD 0 < 18446744073709551616 := by
  cases figure with
  | none => exact ⟨rfl, by decide⟩
  | some value =>
    obtain ⟨hpos, hlt⟩ := hfigure value rfl
    exact ⟨if_neg (by simp only [Option.getD_some]; omega), hlt⟩

private theorem measurementAt_append {front back : List UInt8} {measurement : TestMeasurement}
    {offset : ℕ} (hoffset : front.length = offset) (hfits : measurement.Fits) :
    measurementAt offset (front ++ (encodeMeasurement measurement ++ back)) = measurement := by
  obtain ⟨hpeak, hpeakFits⟩ := nonzero_getD hfits.peak
  obtain ⟨hcores, hcoresFits⟩ := nonzero_getD hfits.cores
  rw [measurementAt, encodeMeasurement, List.append_assoc, wordAt_append hoffset hpeakFits,
    ← List.append_assoc, wordAt_append (by simp [hoffset]) hcoresFits, hpeak, hcores]

@[simp] private theorem length_encodeMeasurement (measurement : TestMeasurement) :
    (encodeMeasurement measurement).length = 16 := by simp [encodeMeasurement]

@[simp] private theorem length_encodeTestHistoryRecord (record : TestHistoryRecord) :
    (encodeTestHistoryRecord record).length = testHistoryRecordLen := by
  simp [encodeTestHistoryRecord, testHistoryRecordLen]

private theorem decode_encode {record : TestHistoryRecord}
    (hhash : record.hash < 18446744073709551616)
    (hfits : record.measurement.Fits) :
    decodeTestHistoryRecord (encodeTestHistoryRecord record) = record := by
  have hword : wordAt 0 (encodeTestHistoryRecord record) = record.hash :=
    @wordAt_append [] (encodeMeasurement record.measurement) record.hash 0 rfl hhash
  have hmeasurement : measurementAt 8 (encodeTestHistoryRecord record) = record.measurement := by
    have happend := @measurementAt_append (leBytes record.hash) [] record.measurement 8
      (length_leBytes _) hfits
    rwa [List.append_nil] at happend
  rw [decodeTestHistoryRecord, hword, hmeasurement]

private theorem recordChunks_encode (records : List TestHistoryRecord) :
    recordChunks records.length (records.flatMap encodeTestHistoryRecord) =
      records.map encodeTestHistoryRecord := by
  induction records with
  | nil => rfl
  | cons record rest ih =>
    have hlength := length_encodeTestHistoryRecord record
    rw [List.length_cons, recordChunks, List.flatMap_cons, List.take_left' hlength,
      List.drop_left' hlength, ih, List.map_cons]

private theorem length_flatMap_encode (records : List TestHistoryRecord) :
    (records.flatMap encodeTestHistoryRecord).length = records.length * testHistoryRecordLen := by
  induction records with
  | nil => rfl
  | cons record rest ih =>
    rw [List.flatMap_cons, List.length_append, length_encodeTestHistoryRecord, ih,
      List.length_cons, Nat.succ_mul, Nat.add_comm]

/-- The largest measurement of records. -/
def maximumOf (records : List TestHistoryRecord) : TestMeasurement :=
  records.foldl (fun maximum record => raiseMeasurement maximum record.measurement) {}

private theorem figure_raiseField {current incoming : Option ℕ} (hcurrent : Figure current)
    (hincoming : Figure incoming) : Figure (raiseField current incoming) := by
  cases current with
  | none => exact hincoming
  | some a =>
    cases incoming with
    | none => exact hcurrent
    | some b =>
      rintro _ ⟨⟩
      have ha := hcurrent a rfl
      have hb := hincoming b rfl
      omega

/-- A raised measurement still fits its record. -/
theorem TestMeasurement.Fits.raise {current incoming : TestMeasurement} (hcurrent : current.Fits)
    (hincoming : incoming.Fits) : (raiseMeasurement current incoming).Fits :=
  ⟨figure_raiseField hcurrent.peak hincoming.peak,
    figure_raiseField hcurrent.cores hincoming.cores⟩

theorem fits_empty : ({} : TestMeasurement).Fits :=
  ⟨by rintro _ ⟨⟩, by rintro _ ⟨⟩⟩

private theorem fits_maximumOf {records : List TestHistoryRecord}
    (hfits : ∀ record ∈ records, record.measurement.Fits) : (maximumOf records).Fits := by
  have hfrom : ∀ start : TestMeasurement, start.Fits →
      (records.foldl (fun maximum record =>
        raiseMeasurement maximum record.measurement) start).Fits := by
    induction records with
    | nil => exact fun start hstart => hstart
    | cons record rest ih =>
      obtain ⟨hrecord, hrest⟩ := List.forall_mem_cons.mp hfits
      exact fun start hstart => ih hrest _ (hstart.raise hrecord)
  exact hfrom {} fits_empty

/-- The header of an encoded history is read back. -/
theorem readTestHistoryHeader_encode {tag : ℕ} {records : List TestHistoryRecord}
    (htag : tag < 18446744073709551616) (hwell : WellFormed records) :
    ∃ header, readTestHistoryHeader (some (encodeTestHistory tag records)) tag = some header ∧
      header.count = records.length ∧ header.maximum = maximumOf records := by
  obtain ⟨front, hfront⟩ : ∃ front, front = testHistoryMagic ++
    (leBytes tag ++ encodeMeasurement (maximumOf records)) := ⟨_, rfl⟩
  have hfile : encodeTestHistory tag records =
      front ++ records.flatMap encodeTestHistoryRecord := by
    simp [encodeTestHistory, hfront, maximumOf]
  have hlength : front.length = testHistoryHeaderLen := by
    simp [hfront, testHistoryMagic, testHistoryHeaderLen]
  have height : testHistoryMagic.length = 8 := rfl
  have hmagic : front.take 8 = testHistoryMagic := by rw [hfront, List.take_left' height]
  have hword : wordAt 8 front = tag := by rw [hfront, wordAt_append height htag]
  have hmaximum : measurementAt 16 front = maximumOf records := by
    have happend := @measurementAt_append (testHistoryMagic ++ leBytes tag) [] (maximumOf records)
      16 (by simp [testHistoryMagic])
      (fits_maximumOf fun record hmem => (hwell.fits record hmem).2)
    rwa [List.append_nil, List.append_assoc, ← hfront] at happend
  have hcount : (front ++ records.flatMap encodeTestHistoryRecord).length =
      testHistoryHeaderLen + records.length * testHistoryRecordLen := by
    rw [List.length_append, hlength, length_flatMap_encode]
  refine ⟨⟨records.length, maximumOf records⟩, ?_, rfl, rfl⟩
  rw [readTestHistoryHeader, Option.bind_some, hfile, List.take_left' hlength,
    parseTestHistoryHeader, hcount, Nat.add_sub_cancel_left, hmaximum, hlength, hmagic, hword,
    Nat.mul_div_cancel _ (by decide)]
  simp

private theorem drop_encode {tag : ℕ} (records : List TestHistoryRecord) (extra : ℕ) :
    (encodeTestHistory tag records).drop (testHistoryHeaderLen + extra) =
      (records.flatMap encodeTestHistoryRecord).drop extra := by
  rw [← List.drop_drop, encodeTestHistory,
    List.drop_left' (by simp [testHistoryMagic, testHistoryHeaderLen])]

private theorem foldl_pushUnique {records : List TestHistoryRecord}
    (hsorted : records.Pairwise (·.hash < ·.hash)) : records.foldl pushUnique [] = records := by
  induction records using List.reverseRecOn with
  | nil => rfl
  | append_singleton front record ih =>
    obtain ⟨hfront, -, hbefore⟩ := List.pairwise_append.mp hsorted
    rw [List.foldl_concat, ih hfront, pushUnique]
    split
    · rename_i previous hlast
      have hless := hbefore previous (List.mem_of_getLast? hlast) record List.mem_cons_self
      rw [if_neg (by omega)]
    · rename_i hnone
      rw [List.getLast?_eq_none_iff.mp hnone, List.nil_append]

/-- An encoded history is read back. -/
theorem readTestHistoryRecords_encode {tag : ℕ} {records : List TestHistoryRecord}
    (htag : tag < 18446744073709551616) (hwell : WellFormed records) :
    readTestHistoryRecords (some (encodeTestHistory tag records)) tag = records := by
  obtain ⟨header, hheader, hcount, -⟩ := readTestHistoryHeader_encode htag hwell
  have hdecoded : (records.map encodeTestHistoryRecord).map decodeTestHistoryRecord = records := by
    rw [List.map_map]
    exact (List.map_congr_left fun record hmem =>
      decode_encode (hwell.fits record hmem).1 (hwell.fits record hmem).2).trans (List.map_id _)
  have hbody := @drop_encode tag records 0
  rw [List.drop_zero, Nat.add_zero] at hbody
  have hsorted : records.insertionSort (fun left right => left.hash ≤ right.hash) = records :=
    (hwell.sorted.imp Nat.le_of_lt).insertionSort_eq
  simp only [readTestHistoryRecords, hheader, Option.getD_some, hbody, hcount,
    recordChunks_encode, hdecoded, hsorted, foldl_pushUnique hwell.sorted]

private theorem readRecordAt_encode {tag index : ℕ} {records : List TestHistoryRecord}
    (hwell : WellFormed records) (hindex : index < records.length) :
    readRecordAt (encodeTestHistory tag records) index = records[index]? := by
  have hbytes : ∀ (records : List TestHistoryRecord) (index : ℕ) (hindex : index < records.length),
      ((records.flatMap encodeTestHistoryRecord).drop (index * testHistoryRecordLen)).take
        testHistoryRecordLen = encodeTestHistoryRecord records[index] := by
    intro records
    induction records with
    | nil => exact fun index hindex => absurd hindex (Nat.not_lt_zero _)
    | cons record rest ih =>
      intro index hindex
      have hlength := length_encodeTestHistoryRecord record
      rw [List.flatMap_cons]
      cases index with
      | zero => rw [Nat.zero_mul, List.drop_zero, List.take_left' hlength, List.getElem_cons_zero]
      | succ index =>
        rw [Nat.succ_mul, Nat.add_comm, ← List.drop_drop, List.drop_left' hlength,
          List.getElem_cons_succ]
        exact ih index (Nat.lt_of_succ_lt_succ hindex)
  have hfits := hwell.fits _ (List.getElem_mem hindex)
  simp only [readRecordAt, drop_encode, hbytes records index hindex,
    length_encodeTestHistoryRecord, if_true, decode_encode hfits.1 hfits.2,
    List.getElem?_eq_getElem hindex]

/-- The lookup finds the record with the hash. -/
theorem lookupTestHistory_encode {tag hash : ℕ} {records : List TestHistoryRecord}
    (htag : tag < 18446744073709551616) (hwell : WellFormed records) :
    (lookupTestHistory (some (encodeTestHistory tag records)) tag hash).test =
      (Keyed.lookup TestHistoryRecord.hash records hash).map TestHistoryRecord.measurement := by
  obtain ⟨header, hheader, hcount, -⟩ := readTestHistoryHeader_encode htag hwell
  simp only [lookupTestHistory, hheader, Option.getD_some, hcount]
  rw [SearchSorted.search_eq_find hwell.sorted (fun index => readRecordAt_encode hwell) le_rfl]
  · rfl
  · exact fun index record hget _ => ⟨Nat.zero_le _, (List.getElem?_eq_some_iff.mp hget).1⟩

end MrBoxington.Scheduler.TestHistory
