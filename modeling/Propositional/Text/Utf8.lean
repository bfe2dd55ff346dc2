/-!
# UTF-8

Decoding bytes, with the place and the reason of the first fault. A fault covers the longest start
of a well-formed sequence, and at least one byte.
-/

namespace Propositional.Utf8

inductive Reason where
  | invalidStart | invalidContinuation | unexpectedEnd
  deriving DecidableEq

structure Fault where
  position : Nat
  first : UInt8
  length : Nat
  reason : Reason
  deriving DecidableEq

def Reason.message : Reason → String
  | invalidStart => "invalid start byte"
  | invalidContinuation => "invalid continuation byte"
  | unexpectedEnd => "unexpected end of data"

def Fault.message (e : Fault) : String :=
  let digits := Nat.toDigits 16 e.first.toNat
  let byte := String.ofList (List.replicate (2 - digits.length) '0' ++ digits)
  let last := e.position + e.length - 1
  let place :=
    if e.length = 1 then s!"byte 0x{byte} in position {e.position}"
    else s!"bytes in position {e.position}-{last}"
  "'utf-8' codec can't decode " ++ place ++ ": " ++ e.reason.message

/-- What a first byte announces: how many bytes follow, the bits it brings and the bounds of the
next byte. -/
structure Lead where
  following : Nat
  bits : Nat
  low : UInt8
  high : UInt8

def lead? (b : UInt8) : Option Lead :=
  let n := b.toNat
  if n < 0x80 then some ⟨0, n, 0x80, 0xBF⟩
  else if n < 0xC2 then none
  else if n < 0xE0 then some ⟨1, n - 0xC0, 0x80, 0xBF⟩
  else if n = 0xE0 then some ⟨2, 0, 0xA0, 0xBF⟩
  else if n = 0xED then some ⟨2, 0xD, 0x80, 0x9F⟩
  else if n < 0xF0 then some ⟨2, n - 0xE0, 0x80, 0xBF⟩
  else if n = 0xF0 then some ⟨3, 0, 0x90, 0xBF⟩
  else if n < 0xF4 then some ⟨3, n - 0xF0, 0x80, 0xBF⟩
  else if n = 0xF4 then some ⟨3, 4, 0x80, 0x8F⟩
  else none

/-- Reads the bytes that follow a first byte: the code point, or the number of bytes that were good
and why the next is not. -/
def follow (low high : UInt8) (bits read : Nat) : Nat → List UInt8 → Except (Nat × Reason) Nat
  | 0, _ => .ok bits
  | _ + 1, [] => .error (read, .unexpectedEnd)
  | n + 1, b :: rest =>
    if low ≤ b && b ≤ high then follow 0x80 0xBF (bits * 64 + (b.toNat - 0x80)) (read + 1) n rest
    else .error (read, .invalidContinuation)

/-- The characters of a text whose first byte stands at `position`; those before it are in `done`,
last first. -/
def decodeFrom (position : Nat) (done : List Char) : List UInt8 → Except Fault (List Char)
  | [] => .ok done.reverse
  | b :: rest =>
    match lead? b with
    | none => .error ⟨position, b, 1, .invalidStart⟩
    | some lead =>
      match follow lead.low lead.high lead.bits 0 lead.following rest with
      | .error (read, reason) => .error ⟨position, b, read + 1, reason⟩
      | .ok code =>
        decodeFrom (position + lead.following + 1) (Char.ofNat code :: done) (rest.drop lead.following)
termination_by bytes => bytes.length
decreasing_by simp only [List.length_cons, List.length_drop]; omega

def decode (bytes : List UInt8) : Except Fault (List Char) :=
  decodeFrom 0 [] bytes

end Propositional.Utf8
