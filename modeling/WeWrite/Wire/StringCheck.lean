import WeWrite.Editor.ContentEncoding
import WeWrite.Wire.Utf8Scan

/-!
# The strings that pass the check

A string field whose bytes are not valid UTF-8 is logged, both when it is serialized and when it
was parsed.  The string of an edit comes from UTF-16 units.  If every surrogate of it stands in a
pair, its bytes are the encodings of characters, and they stay so when the C string ends early at
a NUL.  What a device makes of a lone surrogate is its own affair, but the three bytes that would
encode one are never valid.

Main results:

- Theorem `utf8Bytes_accepts`: a well-formed string has valid bytes.
- Theorem `strings_pass_check`: which bytes are logged, and which strings are not.
-/

namespace WeWrite.Wire

open Scanning Utf8

namespace StructurallyValid

/-! ## The check -/

/-- Whether a string was parsed or is to be serialized. -/
inductive Operation where
  | parse
  | serialize
deriving DecidableEq, Repr

/-- `operation_str`. -/
def Operation.str : Operation → String
  | .parse => "parsing"
  | .serialize => "serializing"

/-- `VerifyUTF8StringFallback`: the error that is logged, if any. -/
def verifyUTF8StringFallback (base : Nat) (data : List UInt8) (op : Operation) : Option String :=
  if isStructurallyValidUTF8 base data then none
  else
    some ("String field contains invalid UTF-8 data when " ++ op.str ++
      " a protocol buffer. Use the 'bytes' type if you intend to send raw bytes.")

/-! ## Code points -/

/-- The bytes of a code point that is no surrogate are the encoding of its character. -/
theorem utf8Point_eq (c : Char) : utf8Point c.val.toNat = String.utf8EncodeChar c := by
  have hvalid : c.val.toNat < 0xD800 ∨ 0xDFFF < c.val.toNat ∧ c.val.toNat < 0x110000 := c.valid
  rw [utf8Point, String.utf8EncodeChar]
  generalize c.val.toNat = v at hvalid
  by_cases h₁ : v < 0x80
  · rw [if_pos h₁, if_pos (by omega)]
  rw [if_neg h₁, if_neg (by omega : ¬ v ≤ 0x7F)]
  by_cases h₂ : v < 0x800
  · rw [if_pos h₂, if_pos (by omega), show 0xC0 + v / 64 = v / 64 % 0x20 + 0xC0 by omega,
      Nat.add_comm 0x80]
  rw [if_neg h₂, if_neg (by omega : ¬ v ≤ 0x7FF)]
  by_cases h₃ : v < 0x10000
  · rw [if_pos h₃, if_pos (by omega), show 0xE0 + v / 4096 = v / 4096 % 0x10 + 0xE0 by omega,
      Nat.add_comm 0x80, Nat.add_comm 0x80]
  · rw [if_neg h₃, if_neg (by omega), show 0xF0 + v / 262144 = v / 262144 % 0x08 + 0xF0 by omega,
      Nat.add_comm 0x80, Nat.add_comm 0x80, Nat.add_comm 0x80]

/-- A code point that is no surrogate in front of valid bytes. -/
theorem utf8Point_append_accepts {point : Nat}
    (hpoint : point < 0xD800 ∨ 0xDFFF < point ∧ point < 0x110000) {w : List UInt8}
    (hw : w ∈ automaton.accepts) : utf8Point point ++ w ∈ automaton.accepts := by
  rcases Utf8.exists_char hpoint with ⟨c, rfl⟩
  have hc := accepts_of_isCharacter (isCharacter_utf8EncodeChar c)
  rw [utf8Point_eq, automaton_returns.append_mem_iff hc]
  exact hw

/-- The bytes of a well-formed string are valid UTF-8. -/
theorem utf8Bytes_accepts {s : NSString Unichar} (hs : WellFormed s) :
    utf8Bytes s ∈ automaton.accepts := by
  have hunit : ∀ u : Unichar, ¬ isHighSurrogate u → ¬ isLowSurrogate u →
      u.toNat < 0xD800 ∨ 0xDFFF < u.toNat ∧ u.toNat < 0x110000 := by
    intro u hhigh hlow
    have hlt := u.toNat_lt
    rw [isHighSurrogate] at hhigh
    rw [isLowSurrogate] at hlow
    omega
  fun_induction WellFormed s with
  | case1 => exact automaton_returns.nil_mem
  | case2 u =>
      rw [utf8Bytes, ← List.append_nil (utf8Point u.toNat)]
      exact utf8Point_append_accepts (hunit u hs.1 hs.2) automaton_returns.nil_mem
  | case3 u v rest hpair ih =>
      have hhigh := hpair.1
      have hlow := hpair.2
      rw [isHighSurrogate] at hhigh
      rw [isLowSurrogate] at hlow
      rw [utf8Bytes, if_pos hpair]
      exact utf8Point_append_accepts (by omega) (ih hs)
  | case4 u v rest hpair ih =>
      rw [utf8Bytes, if_neg hpair]
      exact utf8Point_append_accepts (hunit u hs.1 hs.2.1) (ih hs.2.2)

/-! ## Strings -/

/-- No NUL stands inside a character: it is read in the state 0. -/
theorem accepts_of_nul {u v : List UInt8} (h : u ++ 0 :: v ∈ automaton.accepts) :
    u ∈ automaton.accepts := by
  rw [automaton_returns.mem_accepts] at h ⊢
  rw [DFA.eval, DFA.evalFrom_of_append] at h
  change automaton.evalFrom (automaton.eval u) (0 :: v) = 0 at h
  by_contra hne
  by_cases hlt : automaton.eval u < kExitIllegalStructure
  · rw [evalFrom_cons hlt] at h
    by_cases hexit : kExitIllegalStructure ≤ entry (automaton.eval u) 0
    · exact evalFrom_exit_ne hexit v h
    · have htail := isTail_of_entry hne (Nat.not_le.mp hexit)
      exact absurd htail.1 (by decide)
  · exact evalFrom_exit_ne (Nat.not_lt.mp hlt) (0 :: v) h

/-- Valid bytes stay valid when they are taken as a C string. -/
theorem cString_accepts {bytes : List UInt8} (h : bytes ∈ automaton.accepts) :
    cString bytes ∈ automaton.accepts := by
  have hsplit := List.takeWhile_append_dropWhile (p := fun b : UInt8 => decide (b ≠ 0)) (l := bytes)
  have hhead := List.head?_dropWhile_not (fun b : UInt8 => decide (b ≠ 0)) bytes
  cases hrest : bytes.dropWhile (fun b => decide (b ≠ 0)) with
  | nil =>
      rw [hrest, List.append_nil] at hsplit
      rwa [cString, hsplit]
  | cons b v =>
      rw [hrest] at hsplit hhead
      obtain rfl : b = 0 := by simpa using hhead
      rw [← hsplit] at h
      exact accepts_of_nul h

theorem verifyUTF8StringFallback_eq_none_iff (base : Nat) (op : Operation) (data : List UInt8) :
    verifyUTF8StringFallback base data op = none ↔ data ∈ automaton.accepts := by
  rw [mem_accepts_iff, ← isStructurallyValidUTF8_iff base, verifyUTF8StringFallback]
  split_ifs with h
  · exact iff_of_true rfl h
  · exact iff_of_false (by simp) h

/-- Bytes that begin with an encoded surrogate are not valid, whatever stands in front of them. -/
theorem not_accepts_of_surrogate {text rest : List UInt8} (htext : text ∈ automaton.accepts)
    (hrest : BeginsWithSurrogate rest) : text ++ rest ∉ automaton.accepts := by
  rw [automaton_returns.append_mem_iff htext, automaton_returns.mem_accepts,
    eval_of_beginsWithSurrogate hrest]
  decide

/-- The bytes that pass the check are the encodings of characters, one behind the other; an encoded
surrogate behind such bytes makes them fail; and whatever a device makes of a string in which
every surrogate stands in a pair passes. -/
theorem strings_pass_check (base : Nat) (op : Operation) :
    (∀ data, verifyUTF8StringFallback base data op = none ↔ IsValid data) ∧
      (∀ text rest, IsValid text → BeginsWithSurrogate rest →
        ∃ error, verifyUTF8StringFallback base (text ++ rest) op = some error) ∧
      ∀ (sender : Utf8Conversion) (s : NSString Unichar), WellFormed s →
        verifyUTF8StringFallback base (sender.contentModified s) op = none := by
  refine ⟨?_, ?_, ?_⟩
  · intro data
    rw [verifyUTF8StringFallback_eq_none_iff, mem_accepts_iff]
  · intro text rest htext hrest
    rw [← Option.ne_none_iff_exists', ne_eq, verifyUTF8StringFallback_eq_none_iff]
    exact not_accepts_of_surrogate ((mem_accepts_iff text).mpr htext) hrest
  · intro sender s hs
    rw [verifyUTF8StringFallback_eq_none_iff, Utf8Conversion.contentModified,
      sender.wellFormed s hs]
    exact cString_accepts (utf8Bytes_accepts hs)

end StructurallyValid

end WeWrite.Wire
