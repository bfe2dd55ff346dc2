import Propositional.Text.Blank

/-!
# Lines

A file that is read as text has a line feed in place of every carriage return. A text is cut at its
line boundaries, of which a carriage return with a line feed counts as one. A final boundary opens no
further line.
-/

namespace Propositional

/-- Writes one line feed for a carriage return and the line feed that may follow it. What has been
written is in `done`, last character first. -/
def lineFeedsFrom (done : List Char) : List Char → List Char
  | '\r' :: '\n' :: rest => lineFeedsFrom ('\n' :: done) rest
  | '\r' :: rest => lineFeedsFrom ('\n' :: done) rest
  | c :: rest => lineFeedsFrom (c :: done) rest
  | [] => done.reverse

def lineFeeds (text : List Char) : List Char :=
  lineFeedsFrom [] text

def isLineBoundary (c : Char) : Bool :=
  ['\n', '\r', '\x0b', '\x0c', '\x1c', '\x1d', '\x1e', '\u0085', '\u2028', '\u2029'].contains c

/-- What follows the line boundary at the front. -/
def afterBoundary : List Char → List Char
  | '\r' :: '\n' :: rest => rest
  | _ :: rest => rest
  | [] => []

theorem length_afterBoundary (text : List Char) : (afterBoundary text).length ≤ text.length - 1 := by
  unfold afterBoundary
  split
  · simp only [List.length_cons]; omega
  · exact Nat.le_refl _
  · exact Nat.le_refl _

def splitLines : List Char → List (List Char)
  | [] => []
  | c :: rest =>
    let text := c :: rest
    text.takeWhile (!isLineBoundary ·) :: splitLines (afterBoundary (text.dropWhile (!isLineBoundary ·)))
termination_by text => text.length
decreasing_by
  have boundary := length_afterBoundary ((c :: rest).dropWhile (!isLineBoundary ·))
  have line := (List.dropWhile_suffix (!isLineBoundary ·) : _ <:+ c :: rest).length_le
  simp only [List.length_cons] at line ⊢
  omega

end Propositional
