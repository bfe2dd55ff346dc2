import Propositional.Text.Utf8

/-!
# Decoding what was encoded

`decode_encode` says that the encoding of a text is decoded to that text, whatever its characters.
-/

namespace Propositional.Utf8

def encode (text : List Char) : List UInt8 :=
  text.flatMap String.utf8EncodeChar

theorem toNat_byte {n : Nat} (small : n < 256) : (UInt8.ofNat n).toNat = n :=
  UInt8.toNat_ofNat_of_lt' small

def tail (digit : Nat) : UInt8 :=
  UInt8.ofNat (digit + 0x80)

/-- The bytes after one that is within its bounds have the widest bounds. -/
theorem follow_digit {low high : UInt8} {digit : Nat} (above : low.toNat ≤ digit + 0x80)
    (below : digit + 0x80 ≤ high.toNat) (bits read n : Nat) (rest : List UInt8) :
    follow low high bits read (n + 1) (tail digit :: rest) =
      follow 0x80 0xBF (bits * 64 + digit) (read + 1) n rest := by
  have number : (tail digit).toNat = digit + 0x80 := toNat_byte (Nat.lt_of_le_of_lt below high.toNat_lt)
  have within : (low ≤ tail digit && tail digit ≤ high) = true := by
    simp only [Bool.and_eq_true, decide_eq_true_eq, UInt8.le_iff_toNat_le, number]
    exact ⟨above, below⟩
  rw [follow, if_pos within, number, Nat.add_sub_cancel]

theorem follow_tails {digits : List Nat} (small : ∀ digit ∈ digits, digit < 64) (bits read : Nat) (rest : List UInt8) :
    follow 0x80 0xBF bits read digits.length (digits.map tail ++ rest) =
      .ok (digits.foldl (fun code digit => code * 64 + digit) bits) := by
  induction digits generalizing bits read with
  | nil => rfl
  | cons digit digits ih =>
    obtain ⟨first, small⟩ := List.forall_mem_cons.mp small
    rw [List.map_cons, List.cons_append, List.length_cons,
      follow_digit (Nat.le_add_left ..) (show digit + 0x80 ≤ 0xBF by omega), ih small, List.foldl_cons]

/-- The first byte of the encoding of a character announces the bytes that come with it, and they give the
character back. -/
structure Announces (c : Char) (b : UInt8) (rest : List UInt8) (lead : Lead) : Prop where
  lead_eq : lead? b = some lead
  length_eq : rest.length = lead.following
  code_eq : ∀ more, follow lead.low lead.high lead.bits 0 lead.following (rest ++ more) = .ok c.toNat

variable {c : Char}

theorem announces_one (small : c.toNat < 0x80) :
    Announces c (UInt8.ofNat c.toNat) [] ⟨0, c.toNat, 0x80, 0xBF⟩ where
  lead_eq := by
    have number := toNat_byte (n := c.toNat) (by omega)
    simp only [lead?, number, if_pos small]
  length_eq := rfl
  code_eq _ := rfl

/-- Only the second byte may have bounds of its own. -/
theorem announces_more {b low high : UInt8} {bits : Nat} (digit : Nat) (digits : List Nat)
    (lead_eq : lead? b = some ⟨digits.length + 1, bits, low, high⟩) (above : low.toNat ≤ digit + 0x80)
    (below : digit + 0x80 ≤ high.toNat) (small : ∀ digit ∈ digits, digit < 64)
    (code : digits.foldl (fun code digit => code * 64 + digit) (bits * 64 + digit) = c.toNat) :
    Announces c b (tail digit :: digits.map tail) ⟨digits.length + 1, bits, low, high⟩ where
  lead_eq := lead_eq
  length_eq := by rw [List.length_cons, List.length_map]
  code_eq more := by rw [List.cons_append, follow_digit above below, follow_tails small, code]

theorem lead?_two (large : 0x80 ≤ c.toNat) (small : c.toNat < 0x800) :
    lead? (UInt8.ofNat (c.toNat / 64 + 0xC0)) = some ⟨1, c.toNat / 64, 0x80, 0xBF⟩ := by
  have number := toNat_byte (n := c.toNat / 64 + 0xC0) (by omega)
  simp only [lead?, number]
  rw [if_neg (by omega), if_neg (by omega), if_pos (by omega), Nat.add_sub_cancel]

/-- The bounds of the second byte leave out what fits into two bytes and what is no character. -/
theorem lead?_three (large : 0x800 ≤ c.toNat) (small : c.toNat < 0x10000) :
    ∃ low high : UInt8, lead? (UInt8.ofNat (c.toNat / 4096 + 0xE0)) = some ⟨2, c.toNat / 4096, low, high⟩ ∧
      low.toNat ≤ c.toNat / 64 % 64 + 0x80 ∧ c.toNat / 64 % 64 + 0x80 ≤ high.toNat := by
  have number := toNat_byte (n := c.toNat / 4096 + 0xE0) (by omega)
  have scalar : c.toNat < 0xD800 ∨ 0xDFFF < c.toNat ∧ c.toNat < 0x110000 := c.valid
  rcases (by omega : c.toNat / 4096 = 0 ∨ c.toNat / 4096 = 0xD ∨ c.toNat / 4096 ≠ 0 ∧ c.toNat / 4096 ≠ 0xD)
    with first | first | ⟨first, middle⟩
  · exact ⟨0xA0, 0xBF, by rw [first]; rfl, show 0xA0 ≤ _ by omega, show _ ≤ 0xBF by omega⟩
  · exact ⟨0x80, 0x9F, by rw [first]; rfl, show 0x80 ≤ _ by omega, show _ ≤ 0x9F by omega⟩
  · refine ⟨0x80, 0xBF, ?_, show 0x80 ≤ _ by omega, show _ ≤ 0xBF by omega⟩
    simp only [lead?, number]
    rw [if_neg (by omega), if_neg (by omega), if_neg (by omega), if_neg (by omega), if_neg (by omega),
      if_pos (by omega), Nat.add_sub_cancel]

/-- The bounds of the second byte leave out what fits into three bytes and what lies beyond the last
character. -/
theorem lead?_four (large : 0x10000 ≤ c.toNat) :
    ∃ low high : UInt8, lead? (UInt8.ofNat (c.toNat / 262144 + 0xF0)) = some ⟨3, c.toNat / 262144, low, high⟩ ∧
      low.toNat ≤ c.toNat / 4096 % 64 + 0x80 ∧ c.toNat / 4096 % 64 + 0x80 ≤ high.toNat := by
  have scalar : c.toNat < 0xD800 ∨ 0xDFFF < c.toNat ∧ c.toNat < 0x110000 := c.valid
  have number := toNat_byte (n := c.toNat / 262144 + 0xF0) (by omega)
  rcases (by omega : c.toNat / 262144 = 0 ∨ c.toNat / 262144 = 4 ∨ c.toNat / 262144 ≠ 0 ∧ c.toNat / 262144 ≠ 4)
    with first | first | ⟨first, middle⟩
  · exact ⟨0x90, 0xBF, by rw [first]; rfl, show 0x90 ≤ _ by omega, show _ ≤ 0xBF by omega⟩
  · exact ⟨0x80, 0x8F, by rw [first]; rfl, show 0x80 ≤ _ by omega, show _ ≤ 0x8F by omega⟩
  · refine ⟨0x80, 0xBF, ?_, show 0x80 ≤ _ by omega, show _ ≤ 0xBF by omega⟩
    simp only [lead?, number]
    rw [if_neg (by omega), if_neg (by omega), if_neg (by omega), if_neg (by omega), if_neg (by omega),
      if_neg (by omega), if_neg (by omega), if_pos (by omega), Nat.add_sub_cancel]

theorem announced (c : Char) : ∃ b rest lead, String.utf8EncodeChar c = b :: rest ∧ Announces c b rest lead := by
  have scalar : c.toNat < 0xD800 ∨ 0xDFFF < c.toNat ∧ c.toNat < 0x110000 := c.valid
  -- The encoding cuts every digit off from above; it is within its bounds already.
  have digits : String.utf8EncodeChar c =
      if c.toNat ≤ 0x7F then [UInt8.ofNat c.toNat]
      else if c.toNat ≤ 0x7FF then [UInt8.ofNat (c.toNat / 64 % 32 + 0xC0), UInt8.ofNat (c.toNat % 64 + 0x80)]
      else if c.toNat ≤ 0xFFFF then
        [UInt8.ofNat (c.toNat / 4096 % 16 + 0xE0), UInt8.ofNat (c.toNat / 64 % 64 + 0x80),
          UInt8.ofNat (c.toNat % 64 + 0x80)]
      else
        [UInt8.ofNat (c.toNat / 262144 % 8 + 0xF0), UInt8.ofNat (c.toNat / 4096 % 64 + 0x80),
          UInt8.ofNat (c.toNat / 64 % 64 + 0x80), UInt8.ofNat (c.toNat % 64 + 0x80)] := rfl
  rw [digits]
  split
  · exact ⟨_, _, _, rfl, announces_one (by omega)⟩
  split
  · rw [Nat.mod_eq_of_lt (by omega : c.toNat / 64 < 32)]
    exact ⟨_, _, _, rfl, announces_more (c.toNat % 64) [] (lead?_two (by omega) (by omega)) (show 0x80 ≤ _ by omega)
      (show _ ≤ 0xBF by omega) (by simp) (by simp only [List.foldl_nil]; omega)⟩
  split
  · rw [Nat.mod_eq_of_lt (by omega : c.toNat / 4096 < 16)]
    obtain ⟨low, high, lead_eq, above, below⟩ := lead?_three (c := c) (by omega) (by omega)
    refine ⟨_, _, _, rfl, announces_more (c.toNat / 64 % 64) [c.toNat % 64] lead_eq above below ?_ ?_⟩
    · exact List.forall_mem_singleton.mpr (by omega)
    · simp only [List.foldl_cons, List.foldl_nil]
      omega
  · rw [Nat.mod_eq_of_lt (by omega : c.toNat / 262144 < 8)]
    obtain ⟨low, high, lead_eq, above, below⟩ := lead?_four (c := c) (by omega)
    refine ⟨_, _, _, rfl, announces_more (c.toNat / 4096 % 64) [c.toNat / 64 % 64, c.toNat % 64] lead_eq above
      below ?_ ?_⟩
    · exact List.forall_mem_cons.mpr ⟨by omega, List.forall_mem_singleton.mpr (by omega)⟩
    · simp only [List.foldl_cons, List.foldl_nil]
      omega

theorem decodeFrom_encode (position : Nat) (done text : List Char) :
    decodeFrom position done (encode text) = .ok (done.reverse ++ text) := by
  induction text generalizing position done with
  | nil => rw [encode, List.flatMap_nil, decodeFrom, List.append_nil]
  | cons c text ih =>
    obtain ⟨b, rest, lead, bytes, announces⟩ := announced c
    rw [encode, List.flatMap_cons, bytes, List.cons_append, decodeFrom, announces.lead_eq]
    simp only [announces.code_eq, Char.ofNat_toNat]
    rw [← announces.length_eq, List.drop_left, ← encode, ih, List.reverse_cons, List.append_assoc,
      List.singleton_append]

theorem decode_encode (text : List Char) : decode (encode text) = .ok text :=
  decodeFrom_encode 0 [] text

end Propositional.Utf8
