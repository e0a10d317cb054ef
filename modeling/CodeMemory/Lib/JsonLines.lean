import CodeMemory.Lib.JsonRoundTrip
import CodeMemory.Lib.Scanner

/-! Files with one JSON object on each line, read by a scanner with a bounded
buffer that trims every line. -/

namespace CodeMemory.Lib.JsonLines

open GoString Json

/-- Splitting a file into lines and trimming them leaves this line as it is. -/
structure Intact (l : GoString) : Prop where
  trimmed : trimSpace l = l
  noReturn : Scanner.dropCR l = l
  ne_nil : l ≠ []
  noNewline : Scanner.newline ∉ l

theorem intact_obj {fs : List (GoString × Json)} (h : Numbers (.obj fs)) : Intact (render (.obj fs)) := by
  obtain ⟨t, ht⟩ := render_obj fs
  refine ⟨?_, ?_, ?_, fun hmem => ?_⟩
  · rw [ht]
    exact trimSpace_eq_self (by decide) (by decide) t
  · rw [ht, ← List.cons_append]
    exact Scanner.dropCR_append (by decide)
  · simp [ht]
  · exact absurd (printable_render _ h _ hmem) (by decide)

/-- The file with the given lines, each with its newline. -/
def file (lines : List GoString) : GoString := lines.flatMap (· ++ [Scanner.newline])

theorem file_append (a b : List GoString) : file (a ++ b) = file a ++ file b := List.flatMap_append

variable {max : Nat} {lines : List GoString}

theorem rawLines_file (h : ∀ l ∈ lines, Intact l) : Scanner.rawLines (file lines) = lines :=
  Scanner.rawLines_flatMap (fun l hl => (h l hl).noNewline)

/-- A scan that reaches the end yields the lines that were written. -/
theorem scan_file (h : ∀ l ∈ lines, Intact l) (hend : (Scanner.scan max (file lines)).2 = true) :
    (Scanner.scan max (file lines)).1 = lines := by
  have hall : lines.all (fun l => l.length < max) = true := by
    rw [← rawLines_file h]
    exact hend
  have htake : lines.takeWhile (fun l => l.length < max) = lines :=
    List.takeWhile_eq_self_iff.mpr (List.all_eq_true.mp hall)
  show ((Scanner.rawLines (file lines)).takeWhile (fun l => l.length < max)).map Scanner.dropCR = lines
  rw [rawLines_file h, htake]
  calc lines.map Scanner.dropCR = lines.map id := List.map_congr_left (fun l hl => (h l hl).noReturn)
    _ = lines := List.map_id lines

end CodeMemory.Lib.JsonLines
