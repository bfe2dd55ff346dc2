import Propositional.FormulaFile
import Propositional.Proofs.Text.Lines
import Propositional.Proofs.Text.Utf8

/-!
# Written formula files

`read_exact` says that a file gives back the formulas that were written to it, whatever stands around and
between them, and that a file gives no other formulas than those that can be written.
-/

namespace Propositional.FormulaFile

/-! ### How a file may be written -/

/-- What can stand as a formula in a file of its own line. -/
structure Writable (formula : String) : Prop where
  some_char : formula.toList ≠ []
  unbroken : Unbroken formula.toList
  front : Solid formula.toList.head?
  back : Solid formula.toList.getLast?
  no_comment : formula.toList.head? ≠ some '#'

instance (formula : String) : Decidable (Writable formula) :=
  decidable_of_iff (formula.toList ≠ [] ∧ Unbroken formula.toList ∧ Solid formula.toList.head? ∧
      Solid formula.toList.getLast? ∧ formula.toList.head? ≠ some '#')
    ⟨fun ⟨some_char, unbroken, front, back, no_comment⟩ => ⟨some_char, unbroken, front, back, no_comment⟩,
      fun whole => ⟨whole.some_char, whole.unbroken, whole.front, whole.back, whole.no_comment⟩⟩

/-- Blanks that do not end the line. -/
def Margin (blanks : List Char) : Prop :=
  ∀ c ∈ blanks, isBlank c = true ∧ isLineBoundary c = false

instance (blanks : List Char) : Decidable (Margin blanks) :=
  List.decidableBAll (fun c => isBlank c = true ∧ isLineBoundary c = false) blanks

/-- The lines of a file, with the formula they hold. -/
inductive Shows : List Char → Option String → Prop
  | formula {before after : List Char} {formula : String} (front : Margin before) (whole : Writable formula)
      (back : Margin after) : Shows (before ++ formula.toList ++ after) (some formula)
  | blank {line : List Char} (margin : Margin line) : Shows line none
  | comment {before text : List Char} (front : Margin before) (unbroken : Unbroken text) :
      Shows (before ++ '#' :: text) none

inductive Terminator : List Char → Prop
  | boundary {c : Char} (boundary : isLineBoundary c = true) : Terminator [c]
  | carriageReturn : Terminator ['\r', '\n']

/-- A text that holds formulas, one a line. A text whose last line is terminated has an empty line behind
the terminator. -/
inductive Written : List Char → List String → Prop
  | last {line : List Char} {formula : Option String} (shows : Shows line formula) : Written line formula.toList
  | line {line terminator rest : List Char} {formula : Option String} {formulas : List String}
      (shows : Shows line formula) (ends : Terminator terminator) (others : Written rest formulas) :
      Written (line ++ terminator ++ rest) (formula.toList ++ formulas)

/-! ### The formula of a line -/

def held (line : List Char) : Option String :=
  let text := strip line
  if text = [] ∨ text.head? = some '#' then none else some (String.ofList text)

theorem formulas_eq_held (text : List Char) : formulas text = (splitLines text).filterMap held := by
  unfold formulas
  induction splitLines text with
  | nil => rfl
  | cons line lines ih =>
    rw [List.filterMap_cons, ← ih]
    by_cases skipped : strip line = [] ∨ (strip line).head? = some '#'
    · have filtered : (!(strip line).isEmpty && (strip line).head? != some '#') = false := by
        rcases skipped with empty | comment <;> simp [*]
      simp [held, skipped, filtered]
    · have kept : (!(strip line).isEmpty && (strip line).head? != some '#') = true := by
        simpa using skipped
      simp [held, skipped, kept]

theorem held_nil : held [] = none :=
  rfl

theorem Margin.blanks {cs : List Char} (margin : Margin cs) : ∀ c ∈ cs, isBlank c = true :=
  fun c member => (margin c member).1

theorem Margin.unbroken {cs : List Char} (margin : Margin cs) : Unbroken cs :=
  fun c member => (margin c member).2

theorem Shows.unbroken {line : List Char} {formula : Option String} (shows : Shows line formula) : Unbroken line := by
  cases shows with
  | formula front whole back =>
    exact unbroken_append.mpr ⟨unbroken_append.mpr ⟨front.unbroken, whole.unbroken⟩, back.unbroken⟩
  | blank margin => exact margin.unbroken
  | comment front unbroken =>
    exact unbroken_append.mpr ⟨front.unbroken, unbroken_cons.mpr ⟨by decide, unbroken⟩⟩

theorem Shows.held_eq {line : List Char} {formula : Option String} (shows : Shows line formula) :
    held line = formula := by
  cases shows with
  | formula front whole back =>
    rw [held, strip_padded front.blanks back.blanks whole.front whole.back]
    simp [whole.some_char, whole.no_comment]
  | blank margin => simp [held, strip_blanks margin.blanks]
  | @comment before text front _ =>
    have dropped : ('#' :: text).dropWhile isBlank = '#' :: text := rfl
    obtain ⟨-, back, stripped⟩ := strip_of_dropWhile dropped
    simp [held, strip_append front.blanks, stripped]

/-- A line that holds a formula holds one that can be written. -/
theorem writable_of_held {line : List Char} {formula : String} (unbroken : Unbroken line)
    (holds : held line = some formula) : Writable formula := by
  by_cases skipped : strip line = [] ∨ (strip line).head? = some '#'
  · simp [held, skipped] at holds
  · obtain ⟨some_char, no_comment⟩ := not_or.mp skipped
    obtain rfl : String.ofList (strip line) = formula := by simpa [held, skipped] using holds
    constructor <;> rw [String.toList_ofList]
    · exact some_char
    · exact fun c member => unbroken c (mem_of_mem_strip member)
    · exact strip_front
    · exact strip_back
    · exact no_comment

/-! ### The formulas of a text -/

/-- It makes no difference whether a carriage return takes the line feed behind it along, since an empty line
holds no formula. -/
theorem formulas_afterBoundary (c : Char) (rest : List Char) :
    formulas (afterBoundary (c :: rest)) = formulas rest := by
  unfold afterBoundary
  split
  next rest' same =>
    obtain ⟨-, rfl⟩ := List.cons.inj same
    have cut := splitLines_line (c := '\n') unbroken_nil (by decide) rest'
    rw [formulas_eq_held, formulas_eq_held ('\n' :: rest'), ← List.nil_append ('\n' :: rest'), cut]
    rfl
  next same => rw [(List.cons.inj same).2]
  next same => cases same

theorem formulas_line {line : List Char} {c : Char} (unbroken : Unbroken line) (boundary : isLineBoundary c = true)
    (rest : List Char) : formulas (line ++ c :: rest) = (held line).toList ++ formulas rest := by
  rw [formulas_eq_held, splitLines_line unbroken boundary, List.filterMap_cons, ← formulas_eq_held,
    formulas_afterBoundary]
  cases held line <;> rfl

theorem formulas_last {line : List Char} (unbroken : Unbroken line) : formulas line = (held line).toList := by
  rw [formulas_eq_held]
  cases line with
  | nil => simp [splitLines, held_nil]
  | cons c line =>
    rw [splitLines_last unbroken (List.cons_ne_nil _ _)]
    cases found : held (c :: line) <;> simp [found]

theorem Written.formulas_eq {text : List Char} {fs : List String} (written : Written text fs) :
    formulas text = fs := by
  induction written with
  | last shows => rw [formulas_last shows.unbroken, shows.held_eq]
  | @line line terminator rest formula fs shows ends _ ih =>
    cases ends with
    | @boundary c boundary =>
      rw [List.append_assoc, List.singleton_append, formulas_line shows.unbroken boundary, shows.held_eq, ih]
    | carriageReturn =>
      have feed : formulas ('\n' :: rest) = formulas rest := formulas_line unbroken_nil (by decide) rest
      rw [List.append_assoc, List.cons_append, List.singleton_append,
        formulas_line shows.unbroken (by decide), feed, shows.held_eq, ih]

theorem writable_of_mem {text : List Char} {formula : String} (member : formula ∈ formulas text) : Writable formula := by
  rw [formulas_eq_held, List.mem_filterMap] at member
  obtain ⟨line, inside, holds⟩ := member
  exact writable_of_held (unbroken_of_mem inside) holds

theorem formulas_lineFeeds (text : List Char) : formulas (lineFeeds text) = formulas text := by
  rw [formulas, splitLines_lineFeeds, formulas]

/-! ### Reading a file -/

theorem read_eq_ok {path : String} {content : Except ReadFault (List UInt8)} {fs : List String}
    (returned : read path content = .ok fs) : ∃ text, fs = formulas text := by
  unfold read at returned
  split at returned
  · cases returned
  · split at returned
    · cases returned
    · next text _ => exact ⟨lineFeeds text, (Except.ok.inj returned).symm⟩

theorem read_encode (path : String) (text : List Char) :
    read path (.ok (Utf8.encode text)) = .ok (formulas text) := by
  simp only [read, Utf8.decode_encode, formulas_lineFeeds]

theorem written_lines {fs : List String} (whole : ∀ formula ∈ fs, Writable formula) :
    Written (fs.flatMap fun formula => formula.toList ++ ['\n']) fs := by
  have empty : Margin [] := by decide
  induction fs with
  | nil => exact .last (.blank empty)
  | cons formula fs ih =>
    obtain ⟨writable, whole⟩ := List.forall_mem_cons.mp whole
    have shows : Shows formula.toList (some formula) := by
      simpa using Shows.formula empty writable empty
    exact .line shows (.boundary (by decide)) (ih whole)

/-- A file gives back the formulas that were written to it, whatever stands around and between them, and no
others than can be written. -/
theorem read_exact (path : String) :
    (∀ text fs, Written text fs → read path (.ok (Utf8.encode text)) = .ok fs) ∧
    ∀ fs, (∃ content, read path content = .ok fs) ↔ ∀ formula ∈ fs, Writable formula := by
  have round_trip {text : List Char} {fs : List String} (written : Written text fs) :
      read path (.ok (Utf8.encode text)) = .ok fs := by
    rw [read_encode, written.formulas_eq]
  refine ⟨fun _ _ => round_trip, fun fs => ⟨?_, fun whole => ⟨_, round_trip (written_lines whole)⟩⟩⟩
  rintro ⟨content, returned⟩ formula member
  obtain ⟨text, rfl⟩ := read_eq_ok returned
  exact writable_of_mem member

/-- The boundaries of lines are a carriage return with a line feed, a line separator, and a carriage return in
front of a line that is empty up to its line feed. -/
theorem read_exact_mixed :
    ∃ text fs, fs = ["p -> q", "~∧ ä"] ∧ Written text fs ∧
      text = "\t# p\r\n\x1f p -> q \u2028\r\n~∧ ä".toList ∧
      read "formulas.txt" (.ok (Utf8.encode text)) = .ok fs := by
  have comment : Shows (['\t'] ++ '#' :: [' ', 'p']) none := .comment (by decide) (by decide)
  have first : Shows (['\x1f', ' '] ++ "p -> q".toList ++ [' ']) (some "p -> q") :=
    .formula (by decide) (by decide) (by decide)
  have empty : Shows [] none := .blank (by decide)
  have second : Shows ([] ++ "~∧ ä".toList ++ []) (some "~∧ ä") := .formula (by decide) (by decide) (by decide)
  have separator : Terminator ['\u2028'] := .boundary (by decide)
  have returned : Terminator ['\r'] := .boundary (by decide)
  have lineFeed : Terminator ['\n'] := .boundary (by decide)
  have written := Written.line comment .carriageReturn (.line first separator (.line empty returned
    (.line empty lineFeed (.last second))))
  exact ⟨_, _, rfl, written, by decide, (read_exact "formulas.txt").1 _ _ written⟩

end Propositional.FormulaFile
