import Mathlib.Data.List.Infix
import MrBoxington.Lib.ChunkScan
import MrBoxington.Lib.U64
import MrBoxington.Lib.Utf8Lossy

/-!
# Looking for the donor's paths in the files of a unit

A file is read in chunks, and each window of what was read is searched as text. Bytes that are not
text are replaced there, and a window may begin within a character; still nothing that is looked
for is lost, wherever the reads cut the file.
-/

namespace MrBoxington.Target

open ChunkScan Utf8

/-- Why a unit is not seeded. -/
inductive SeedFinding where
  | found (needle : Text)
  | unreadable
  | pastTheScanBudget
deriving DecidableEq

/-- The finding as text; a path is shown for what is not a needle. -/
def SeedFinding.message (path : Text) : SeedFinding → Text
  | .found needle => needle
  | .unreadable => path.append (.ofChars " (unreadable)".toList)
  | .pastTheScanBudget => path.append (.ofChars " (past the scan budget)".toList)

/-- The length of the longest needle. -/
def longestNeedle (needles : List Text) : ℕ :=
  (needles.map Text.len).max?.getD 0

/-- The needles are looked for in the window read as text. -/
def findNeedle (needles : List Text) (window : List UInt8) : Option Text :=
  needles.find? fun needle => decide (needle.bytes <:+: lossy window)

/-- The loop over the reads, with the finding and the budget that is left. A read of nothing is
the end of the file. -/
def scanReads (needles : List Text) (window : List UInt8) (budget : UInt64) :
    List (Option (List UInt8)) → Option SeedFinding × UInt64
  | [] => (none, budget)
  | none :: _ => (some .unreadable, budget)
  | some chunk :: reads =>
    if chunk = [] then (none, budget)
    else
      match U64.checkedSub budget (UInt64.ofNat chunk.length) with
      | none => (some .pastTheScanBudget, budget)
      | some left =>
        let window := window ++ chunk
        match findNeedle needles window with
        | some needle => (some (.found needle), left)
        | none =>
          let keep := min (longestNeedle needles - 1) window.length
          scanReads needles (window.drop (window.length - keep)) left reads

/-- Scans a file that was opened, or not. -/
def scanFile (needles : List Text) (opened : Option (List (Option (List UInt8))))
    (budget : UInt64) : Option SeedFinding × UInt64 :=
  match opened with
  | none => (some .unreadable, budget)
  | some reads => scanReads needles [] budget reads

/-- The bytes are those of a needle. -/
def IsNeedle (needles : List Text) (bytes : List UInt8) : Prop :=
  ∃ needle ∈ needles, needle.bytes = bytes

section Scan

variable {needles : List Text} {window seen : List UInt8}

private theorem IsNeedle.length_le {bytes : List UInt8} (hneedle : IsNeedle needles bytes) :
    bytes.length ≤ longestNeedle needles := by
  obtain ⟨needle, hmem, rfl⟩ := hneedle
  exact List.le_max?_getD_of_mem (List.mem_map_of_mem hmem)

/-- A window in which no needle is found has none in its bytes. -/
theorem not_occurs_of_findNeedle (hne : ∀ needle ∈ needles, needle.bytes ≠ [])
    (hnone : findNeedle needles window = none) : ¬ Occurs (IsNeedle needles) window := by
  rintro ⟨front, found, back, rfl, needle, hmem, rfl⟩
  have hclean := List.find?_eq_none.mp hnone needle hmem
  exact hclean (decide_eq_true (lossy_contains needle.valid (hne needle hmem) front back))

private theorem keep_eq_keepEnd (longest : ℕ) (window : List UInt8) :
    window.drop (window.length - min (longest - 1) window.length) = keepEnd longest window := by
  unfold keepEnd
  congr 1
  omega

/-- From a window of what was seen so far, no finding means that nothing was there to find. -/
theorem not_occurs_of_scanReads (hne : ∀ needle ∈ needles, needle.bytes ≠ [])
    (hwindow : Window (longestNeedle needles) seen window)
    (hclean : ¬ Occurs (IsNeedle needles) seen) {chunks : List (List UInt8)}
    (hchunks : ∀ chunk ∈ chunks, chunk ≠ []) {budget left : UInt64}
    (hscan : scanReads needles window budget (chunks.map some) = (none, left)) :
    ¬ Occurs (IsNeedle needles) (seen ++ chunks.flatten) := by
  induction chunks generalizing seen window budget with
  | nil => simpa using hclean
  | cons chunk chunks ih =>
    rw [List.map_cons, scanReads, if_neg (hchunks chunk List.mem_cons_self)] at hscan
    split at hscan
    · cases hscan
    · dsimp only at hscan
      split at hscan
      · cases hscan
      · rename_i hnone
        rw [keep_eq_keepEnd] at hscan
        have hlonger : ¬ Occurs (IsNeedle needles) (seen ++ chunk) := fun hoccurs =>
          not_occurs_of_findNeedle hne hnone
            ((hwindow.occurs_iff (fun _ h => h.length_le) hclean).mpr hoccurs)
        rw [List.flatten_cons, ← List.append_assoc]
        exact ih (hwindow.next chunk) hlonger
          (fun chunk hmem => hchunks chunk (List.mem_cons_of_mem _ hmem)) hscan

end Scan

/-- However the reads cut a file, a scan that finds nothing means that the bytes of no needle stand
anywhere in the file. -/
theorem scanFile_none_clean (needles : List Text) (hne : ∀ needle ∈ needles, needle.bytes ≠ [])
    (chunks : List (List UInt8)) (hchunks : ∀ chunk ∈ chunks, chunk ≠ []) (budget : UInt64)
    (hscan : (scanFile needles (some (chunks.map some)) budget).1 = none) :
    ∀ needle ∈ needles, ¬ needle.bytes <:+: chunks.flatten := by
  rintro needle hmem ⟨front, back, hcontent⟩
  have hempty : ¬ Occurs (IsNeedle needles) [] := by
    rintro ⟨front, found, back, htext, needle, hmem, rfl⟩
    have hbytes : needle.bytes = [] := by simp_all
    exact hne needle hmem hbytes
  refine not_occurs_of_scanReads hne .start hempty hchunks (Prod.ext hscan rfl) ?_
  exact ⟨front, needle.bytes, back, by simpa using hcontent.symm, needle, hmem, rfl⟩

/-- The first read ends within a character, and the second one goes on with other bytes. -/
theorem scanFile_none_clean_cut :
    (scanFile [.ofChars ['é', 'b']] (some [some [97, 195], some [98, 195, 169]]) 5).1 = none ∧
      ¬ (Text.ofChars ['é', 'b']).bytes <:+: [97, 195, 98, 195, 169] := by
  have hscan : (scanFile [.ofChars ['é', 'b']] (some [some [97, 195], some [98, 195, 169]]) 5).1 =
      none := by decide +kernel
  exact ⟨hscan, scanFile_none_clean [.ofChars ['é', 'b']] (by decide) [[97, 195], [98, 195, 169]]
    (by decide) 5 hscan _ List.mem_cons_self⟩

end MrBoxington.Target
