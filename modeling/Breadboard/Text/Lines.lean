namespace Breadboard.Text

/-- A line that stands in reversed order, without the carriage return of its end. -/
def dropReturn : List Char → List Char
  | '\r' :: line => line
  | line => line

/-- The lines of some characters, where `line` holds in reversed order what the first line has so
far. A last line that has no end is a line if it has a character. -/
def splitFrom (line : List Char) : List Char → List (List Char)
  | [] => if line.isEmpty then [] else [line.reverse]
  | c :: rest =>
    if c = '\n' then (dropReturn line).reverse :: splitFrom [] rest else splitFrom (c :: line) rest

/-- A line with a line feed at its end. -/
def ended (line : List Char) : List Char := line ++ ['\n']

theorem dropReturn_eq_self (line : List Char) (h : '\r' ∉ line) : dropReturn line = line := by
  unfold dropReturn
  split
  · exact absurd (by simp) h
  · rfl

theorem splitFrom_ended (line rest before : List Char) (hn : '\n' ∉ line) (hb : '\r' ∉ before)
    (hr : '\r' ∉ line) :
    splitFrom before (ended line ++ rest) = (before.reverse ++ line) :: splitFrom [] rest := by
  induction line generalizing before with
  | nil => simp [ended, splitFrom, dropReturn_eq_self before hb]
  | cons c line ih =>
    have hc : c ≠ '\n' := fun h => hn (by simp [h])
    have hbefore : '\r' ∉ c :: before := by simp_all
    have h := ih (c :: before) (by simp_all) hbefore (by simp_all)
    simpa [ended, splitFrom, hc] using h

/-- Lines are read as they were written. -/
theorem split_ended (lines : List (List Char))
    (h : ∀ line ∈ lines, '\n' ∉ line ∧ '\r' ∉ line) :
    splitFrom [] (lines.flatMap ended) = lines := by
  induction lines with
  | nil => rfl
  | cons line lines ih =>
    have hl := h line (by simp)
    rw [List.flatMap_cons, splitFrom_ended line _ [] hl.1 (by simp) hl.2,
      ih fun other ho => h other (by simp [ho])]
    simp

def lines (text : String) : List String := (splitFrom [] text.toList).map String.ofList

/-- The text of lines that all end with a line feed. -/
def ofLines (lines : List String) : String := String.join (lines.map (· ++ "\n"))

end Breadboard.Text
