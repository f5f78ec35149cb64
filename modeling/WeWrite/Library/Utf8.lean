import Mathlib.Data.UInt
import Mathlib.Tactic.Common

/-!
# The bytes of a character

UTF-8 takes one byte for a character below `0x80` and up to four for the others.  Every byte behind
the first is a tail byte, which no character starts with.  Not every first byte may be followed
by every tail byte: an encoding is never longer than necessary, surrogates have none, and nothing
is encoded above `0x10FFFF`.

Main results:

- Theorem `isCharacter_iff`: the byte sequences that `IsCharacter` lists are the encodings of
  characters.
-/

namespace Utf8

/-- A byte that stands inside a character. -/
def IsTail (b : UInt8) : Prop :=
  0x80 ≤ b.toNat ∧ b.toNat < 0xC0

/-- The well-formed byte sequences of one character, by their length. -/
inductive IsCharacter : List UInt8 → Prop where
  | one {b₀ : UInt8} (hlead : b₀.toNat < 0x80) : IsCharacter [b₀]
  | two {b₀ b₁ : UInt8} (hlead : 0xC2 ≤ b₀.toNat ∧ b₀.toNat < 0xE0) (h₁ : IsTail b₁) :
      IsCharacter [b₀, b₁]
  | three {b₀ b₁ b₂ : UInt8} (hlead : 0xE0 ≤ b₀.toNat ∧ b₀.toNat < 0xF0) (h₁ : IsTail b₁)
      (h₂ : IsTail b₂) (hlow : b₀.toNat = 0xE0 → 0xA0 ≤ b₁.toNat)
      (hsurrogate : b₀.toNat = 0xED → b₁.toNat < 0xA0) : IsCharacter [b₀, b₁, b₂]
  | four {b₀ b₁ b₂ b₃ : UInt8} (hlead : 0xF0 ≤ b₀.toNat ∧ b₀.toNat < 0xF5) (h₁ : IsTail b₁)
      (h₂ : IsTail b₂) (h₃ : IsTail b₃) (hlow : b₀.toNat = 0xF0 → 0x90 ≤ b₁.toNat)
      (hhigh : b₀.toNat = 0xF4 → b₁.toNat < 0x90) : IsCharacter [b₀, b₁, b₂, b₃]

/-- The bytes are the encodings of some characters, one behind the other. -/
def IsValid (bytes : List UInt8) : Prop :=
  ∃ chars : List Char, bytes = chars.flatMap String.utf8EncodeChar

/-! ## Characters by their number -/

/-- The character of a number. -/
theorem exists_char {v : Nat} (h : v < 0xD800 ∨ 0xDFFF < v ∧ v < 0x110000) :
    ∃ c : Char, c.val.toNat = v := by
  have hsize : v < UInt32.size := by
    unfold UInt32.size
    omega
  exact ⟨⟨UInt32.ofNatLT v hsize, h⟩, UInt32.toNat_ofNatLT⟩

theorem ofNat_eq {n : Nat} {b : UInt8} (h : n = b.toNat) : UInt8.ofNat n = b := by
  rw [h, UInt8.ofNat_toNat]

theorem isCharacter_utf8EncodeChar (c : Char) : IsCharacter (String.utf8EncodeChar c) := by
  have hvalid : c.val.toNat < 0xD800 ∨ 0xDFFF < c.val.toNat ∧ c.val.toNat < 0x110000 := c.valid
  rw [String.utf8EncodeChar]
  generalize c.val.toNat = v at hvalid ⊢
  have hbyte : ∀ n, n < 256 → (UInt8.ofNat n).toNat = n := fun n hn =>
    UInt8.toNat_ofNat_of_lt' hn
  have htail : ∀ n, IsTail (UInt8.ofNat (n % 64 + 0x80)) := by
    intro n
    rw [IsTail, hbyte _ (by omega)]
    omega
  split_ifs with h₁ h₂ h₃
  · apply IsCharacter.one
    rw [hbyte _ (by omega)]
    omega
  · apply IsCharacter.two
    · rw [hbyte _ (by omega)]
      omega
    · exact htail v
  · apply IsCharacter.three
    · rw [hbyte _ (by omega)]
      omega
    · exact htail (v / 64)
    · exact htail v
    · rw [hbyte _ (by omega), hbyte _ (by omega)]
      omega
    · rw [hbyte _ (by omega), hbyte _ (by omega)]
      omega
  · apply IsCharacter.four
    · rw [hbyte _ (by omega)]
      omega
    · exact htail (v / 4096)
    · exact htail (v / 64)
    · exact htail v
    · rw [hbyte _ (by omega), hbyte _ (by omega)]
      omega
    · rw [hbyte _ (by omega), hbyte _ (by omega)]
      omega

/-- Every sequence of the list is the encoding of the number that its bytes carry. -/
theorem IsCharacter.exists_char {bytes : List UInt8} (h : IsCharacter bytes) :
    ∃ c : Char, bytes = String.utf8EncodeChar c := by
  cases h with
  | @one b₀ hlead =>
      rcases Utf8.exists_char (v := b₀.toNat) (by omega) with ⟨c, hc⟩
      refine ⟨c, ?_⟩
      rw [String.utf8EncodeChar, hc, if_pos (by omega), ofNat_eq rfl]
  | @two b₀ b₁ hlead h₁ =>
      rw [IsTail] at h₁
      rcases Utf8.exists_char (v := (b₀.toNat - 0xC0) * 64 + (b₁.toNat - 0x80)) (by omega) with
        ⟨c, hc⟩
      refine ⟨c, ?_⟩
      rw [String.utf8EncodeChar, hc, if_neg (by omega), if_pos (by omega),
        ofNat_eq (b := b₀) (by omega), ofNat_eq (b := b₁) (by omega)]
  | @three b₀ b₁ b₂ hlead h₁ h₂ hlow hsurrogate =>
      rw [IsTail] at h₁ h₂
      rcases Utf8.exists_char
        (v := (b₀.toNat - 0xE0) * 4096 + (b₁.toNat - 0x80) * 64 + (b₂.toNat - 0x80)) (by omega) with
        ⟨c, hc⟩
      refine ⟨c, ?_⟩
      rw [String.utf8EncodeChar, hc, if_neg (by omega), if_neg (by omega), if_pos (by omega),
        ofNat_eq (b := b₀) (by omega), ofNat_eq (b := b₁) (by omega),
        ofNat_eq (b := b₂) (by omega)]
  | @four b₀ b₁ b₂ b₃ hlead h₁ h₂ h₃ hlow hhigh =>
      rw [IsTail] at h₁ h₂ h₃
      rcases Utf8.exists_char (v := (b₀.toNat - 0xF0) * 262144 + (b₁.toNat - 0x80) * 4096 +
        (b₂.toNat - 0x80) * 64 + (b₃.toNat - 0x80)) (by omega) with ⟨c, hc⟩
      refine ⟨c, ?_⟩
      rw [String.utf8EncodeChar, hc, if_neg (by omega), if_neg (by omega), if_neg (by omega),
        ofNat_eq (b := b₀) (by omega), ofNat_eq (b := b₁) (by omega),
        ofNat_eq (b := b₂) (by omega), ofNat_eq (b := b₃) (by omega)]

/-- The sequences of the list are the encodings of characters. -/
theorem isCharacter_iff (bytes : List UInt8) :
    IsCharacter bytes ↔ ∃ c : Char, bytes = String.utf8EncodeChar c := by
  constructor
  · exact IsCharacter.exists_char
  · rintro ⟨c, rfl⟩
    exact isCharacter_utf8EncodeChar c

end Utf8
