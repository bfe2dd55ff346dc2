import Propositional.Text.Lines

/-!
# Cutting a text into lines

No line has a boundary in it (`unbroken_of_mem`), and the lines of a text do not depend on whether its
carriage returns are written as line feeds (`splitLines_lineFeeds`).
-/

namespace Propositional

def Unbroken (line : List Char) : Prop :=
  ∀ c ∈ line, isLineBoundary c = false

instance (line : List Char) : Decidable (Unbroken line) :=
  List.decidableBAll (isLineBoundary · = false) line

theorem unbroken_nil : Unbroken [] :=
  fun _ member => nomatch member

theorem unbroken_cons {c : Char} {line : List Char} : Unbroken (c :: line) ↔ isLineBoundary c = false ∧ Unbroken line :=
  List.forall_mem_cons

theorem unbroken_append {front back : List Char} : Unbroken (front ++ back) ↔ Unbroken front ∧ Unbroken back :=
  List.forall_mem_append

/-- A text is a line, or a line in front of a boundary and a further text. -/
theorem line_or_boundary (text : List Char) :
    Unbroken text ∨ ∃ line c rest, Unbroken line ∧ isLineBoundary c = true ∧ text = line ++ c :: rest := by
  induction text with
  | nil => exact .inl unbroken_nil
  | cons c text ih =>
    cases boundary : isLineBoundary c with
    | true => exact .inr ⟨[], c, text, unbroken_nil, boundary, rfl⟩
    | false =>
      rcases ih with unbroken | ⟨line, d, rest, unbroken, final, rfl⟩
      · exact .inl (unbroken_cons.mpr ⟨boundary, unbroken⟩)
      · exact .inr ⟨c :: line, d, rest, unbroken_cons.mpr ⟨boundary, unbroken⟩, final, rfl⟩

@[elab_as_elim]
theorem lines_induction {motive : List Char → Prop} (last : ∀ line, Unbroken line → motive line)
    (line : ∀ line c rest, Unbroken line → isLineBoundary c = true → motive (afterBoundary (c :: rest)) →
      motive (line ++ c :: rest)) (text : List Char) : motive text := by
  induction size : text.length using Nat.strongRecOn generalizing text with
  | ind size ih =>
    rcases line_or_boundary text with unbroken | ⟨front, c, rest, unbroken, boundary, rfl⟩
    · exact last text unbroken
    · have shorter := length_afterBoundary (c :: rest)
      simp only [List.length_append, List.length_cons] at size shorter
      exact line front c rest unbroken boundary (ih _ (by omega) _ rfl)

theorem splitLines_append {line rest : List Char} (unbroken : Unbroken line) (some_char : line ++ rest ≠ []) :
    splitLines (line ++ rest) = (line ++ rest.takeWhile (!isLineBoundary ·)) ::
      splitLines (afterBoundary (rest.dropWhile (!isLineBoundary ·))) := by
  have inside : ∀ c ∈ line, (!isLineBoundary c) = true := fun c member => by rw [unbroken c member]; rfl
  rw [← List.takeWhile_append_of_pos inside, ← List.dropWhile_append_of_pos inside]
  cases text : line ++ rest with
  | nil => exact absurd text some_char
  | cons c text => rw [splitLines]

theorem splitLines_last {line : List Char} (unbroken : Unbroken line) (some_char : line ≠ []) :
    splitLines line = [line] := by
  have lines : splitLines (line ++ []) = _ := splitLines_append unbroken (by simpa using some_char)
  simpa [afterBoundary, splitLines] using lines

theorem splitLines_line {line : List Char} {c : Char} (unbroken : Unbroken line)
    (boundary : isLineBoundary c = true) (rest : List Char) :
    splitLines (line ++ c :: rest) = line :: splitLines (afterBoundary (c :: rest)) := by
  rw [splitLines_append unbroken (by simp)]
  simp [boundary]

theorem unbroken_of_mem {text line : List Char} (member : line ∈ splitLines text) : Unbroken line := by
  induction text using lines_induction with
  | last front unbroken =>
    cases front with
    | nil => simp [splitLines] at member
    | cons c front =>
      rw [splitLines_last unbroken (by simp), List.mem_singleton] at member
      exact member ▸ unbroken
  | line front c rest unbroken boundary ih =>
    rw [splitLines_line unbroken boundary, List.mem_cons] at member
    rcases member with rfl | member
    · exact unbroken
    · exact ih member

/-! ### Line feeds for carriage returns -/

theorem lineFeedsFrom_append (before done text : List Char) :
    lineFeedsFrom (done ++ before) text = before.reverse ++ lineFeedsFrom done text := by
  fun_induction lineFeedsFrom done text with
  | case1 done rest ih => exact ih
  | case2 done rest _ ih => rw [lineFeedsFrom]; exact ih; assumption
  | case3 done c rest _ _ ih => rw [lineFeedsFrom]; exact ih; assumption; assumption
  | case4 done => simp [lineFeedsFrom]

theorem lineFeedsFrom_singleton (c : Char) (text : List Char) : lineFeedsFrom [c] text = c :: lineFeeds text :=
  lineFeedsFrom_append [c] [] text

theorem lineFeeds_cons {c : Char} (other : c ≠ '\r') (rest : List Char) :
    lineFeeds (c :: rest) = c :: lineFeeds rest := by
  rw [lineFeeds, lineFeedsFrom, lineFeedsFrom_singleton]
  · exact fun _ same => absurd same other
  · exact other

theorem lineFeeds_append {line : List Char} (unbroken : Unbroken line) (rest : List Char) :
    lineFeeds (line ++ rest) = line ++ lineFeeds rest := by
  induction line with
  | nil => rfl
  | cons c line ih =>
    obtain ⟨inside, unbroken⟩ := unbroken_cons.mp unbroken
    have other : c ≠ '\r' := fun same => by rw [same] at inside; exact absurd inside (by decide)
    rw [List.cons_append, lineFeeds_cons other, ih unbroken, List.cons_append]

theorem afterBoundary_cons {c : Char} (other : c ≠ '\r') (rest : List Char) : afterBoundary (c :: rest) = rest := by
  rw [afterBoundary]
  exact fun _ same => absurd same other

/-- The boundary in front remains one, and what follows it is the same text. -/
theorem lineFeeds_boundary {c : Char} (boundary : isLineBoundary c = true) (rest : List Char) :
    ∃ d tail, lineFeeds (c :: rest) = d :: tail ∧ isLineBoundary d = true ∧
      afterBoundary (d :: tail) = lineFeeds (afterBoundary (c :: rest)) := by
  by_cases carriage : c = '\r'
  · subst carriage
    refine ⟨'\n', lineFeeds (afterBoundary ('\r' :: rest)), ?_, by decide, rfl⟩
    rw [← lineFeedsFrom_singleton]
    cases rest with
    | nil => rfl
    | cons d rest =>
      by_cases feed : d = '\n'
      · rw [feed]; rfl
      · rw [lineFeeds, lineFeedsFrom, afterBoundary]
        · exact fun _ _ same => feed (List.cons.inj same).1
        · exact fun _ same => feed (List.cons.inj same).1
  · refine ⟨c, lineFeeds rest, lineFeeds_cons carriage rest, boundary, ?_⟩
    rw [afterBoundary_cons carriage, afterBoundary_cons carriage]

theorem splitLines_lineFeeds (text : List Char) : splitLines (lineFeeds text) = splitLines text := by
  induction text using lines_induction with
  | last line unbroken =>
    have same := lineFeeds_append unbroken []
    rw [List.append_nil] at same
    rw [same]
    simp [lineFeeds, lineFeedsFrom]
  | line line c rest unbroken boundary ih =>
    obtain ⟨d, tail, feeds, boundary', after⟩ := lineFeeds_boundary boundary rest
    rw [lineFeeds_append unbroken, feeds, splitLines_line unbroken boundary', after, ih,
      splitLines_line unbroken boundary]

/-! ### Lines without the blanks around them -/

/-- The character at one end of a text, if there is one, is not blank. -/
def Solid (c? : Option Char) : Prop :=
  ∀ c ∈ c?, isBlank c = false

instance (c? : Option Char) : Decidable (Solid c?) :=
  Option.decidableForallMem c?

theorem dropWhile_solid {text : List Char} (front : Solid text.head?) :
    text.dropWhile isBlank = text := by
  cases text with
  | nil => rfl
  | cons c rest => exact List.dropWhile_cons_of_neg (by simp [front c rfl])

theorem strip_append {before : List Char} (blanks : ∀ c ∈ before, isBlank c = true) (line : List Char) :
    strip (before ++ line) = strip line := by
  simp only [strip, List.dropWhile_append_of_pos blanks]

theorem strip_blanks {line : List Char} (blanks : ∀ c ∈ line, isBlank c = true) : strip line = [] := by
  simpa [strip] using strip_append blanks []

/-- A text with no blank at either end is what remains when the blanks around it are taken off. -/
theorem strip_padded {before text after : List Char} (blanksBefore : ∀ c ∈ before, isBlank c = true)
    (blanksAfter : ∀ c ∈ after, isBlank c = true) (front : Solid text.head?)
    (back : Solid text.getLast?) : strip (before ++ text ++ after) = text := by
  have behind : ∀ c ∈ after.reverse, isBlank c = true := by simpa using blanksAfter
  rw [List.append_assoc, strip_append blanksBefore]
  cases text with
  | nil => exact strip_blanks blanksAfter
  | cons c rest =>
    have whole : (c :: rest ++ after).dropWhile isBlank = c :: rest ++ after :=
      dropWhile_solid (by simpa using front)
    rw [strip, whole, List.reverse_append, List.dropWhile_append_of_pos behind,
      dropWhile_solid (by rwa [List.head?_reverse]), List.reverse_reverse]

/-- The first character that is not blank remains the first. -/
theorem strip_of_dropWhile {text rest : List Char} {c : Char} (dropped : text.dropWhile isBlank = c :: rest) :
    isBlank c = false ∧ ∃ back, strip text = c :: back := by
  have solid : isBlank c = false := by
    have stopped := List.head?_dropWhile_not isBlank text
    rw [dropped] at stopped
    simpa using stopped
  refine ⟨solid, ?_⟩
  rw [strip, dropped, List.reverse_cons, List.dropWhile_append]
  split
  · exact ⟨[], by simp [solid]⟩
  · exact ⟨(rest.reverse.dropWhile isBlank).reverse, by simp⟩

theorem strip_front {text : List Char} : Solid (strip text).head? := by
  intro c first
  cases dropped : text.dropWhile isBlank with
  | nil => simp [strip, dropped] at first
  | cons d rest =>
    obtain ⟨solid, back, stripped⟩ := strip_of_dropWhile dropped
    rw [stripped, List.head?_cons, Option.mem_some_iff] at first
    exact first ▸ solid

theorem strip_back {text : List Char} : Solid (strip text).getLast? := by
  intro c last
  have stopped := List.head?_dropWhile_not isBlank (text.dropWhile isBlank).reverse
  rw [strip, List.getLast?_reverse, Option.mem_def] at last
  simpa [last] using stopped

theorem mem_of_mem_strip {text : List Char} {c : Char} (member : c ∈ strip text) : c ∈ text := by
  rw [strip, List.mem_reverse] at member
  have inside := (List.dropWhile_suffix isBlank).subset member
  exact (List.dropWhile_suffix isBlank).subset (List.mem_reverse.mp inside)

end Propositional
