import CodeMemory.Lib.GoString

/-! `bufio.Scanner` with `ScanLines` over a byte string. A line is what stands
between newlines, without a trailing carriage return; a line that fills the
buffer before its newline is seen ends the scan with an error. -/

namespace CodeMemory.Lib.Scanner

def newline : UInt8 := 0x0A

def carriageReturn : UInt8 := 0x0D

/-- The pieces between newlines; nothing follows a final newline. -/
def rawLines (s : GoString) : List GoString :=
  let pieces := s.splitOn newline
  if pieces.getLast? = some [] then pieces.dropLast else pieces

def dropCR (line : GoString) : GoString :=
  if line.getLast? = some carriageReturn then line.dropLast else line

/-- The tokens `Scan` yields before the first line of `max` bytes or more, and
whether the input ended without such a line. -/
def scan (max : Nat) (s : GoString) : List GoString × Bool :=
  (((rawLines s).takeWhile (fun l => l.length < max)).map dropCR,
    (rawLines s).all (fun l => l.length < max))

/-- Lines written with a newline after each are split back. -/
theorem rawLines_flatMap {lines : List GoString} (h : ∀ l ∈ lines, newline ∉ l) :
    rawLines (lines.flatMap (· ++ [newline])) = lines := by
  have hsplit : (lines.flatMap (· ++ [newline])).splitOn newline = lines ++ [[]] := by
    induction lines with
    | nil => rfl
    | cons l lines ih =>
      rw [List.forall_mem_cons] at h
      have hl : ∀ b ∈ l, (b == newline) = false := fun b hb => beq_false_of_ne (ne_of_mem_of_not_mem hb h.1)
      rw [List.flatMap_cons, List.append_assoc, List.singleton_append, List.splitOn,
        List.splitOnP_append_cons_of_forall_mem hl newline (by decide), ← List.splitOn, ih h.2]
      rfl
  rw [rawLines, hsplit]
  simp

theorem dropCR_append {l : GoString} {b : UInt8} (h : b ≠ carriageReturn) : dropCR (l ++ [b]) = l ++ [b] := by
  rw [dropCR, List.getLast?_append, if_neg]
  simpa using h

end CodeMemory.Lib.Scanner
