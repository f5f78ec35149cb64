import WeWrite.Wire.Readers
import WeWrite.Wire.Utf8Table

/-!
# The scanners of the string check

`UTF8GenericScan` skips ASCII as fast as it can, byte by byte up to an address that is a multiple
of 8 and then two words at a time, and runs the state table over the rest.  Where the table leads
to an exit, or the bytes end inside a character, it backs up to the first byte of that character.
`UTF8GenericScanFastAscii` skips ASCII once more in front of it.

The address of the string is the parameter `base`.  Only its last three bits are looked at, and
they decide nothing but how fast a scan is.

Main results:

- Theorem `tableScan_found`: the table scan ends behind the longest accepted prefix.
- Theorem `scanners_find_longest_valid_prefix`: what both scanners answer.
- Theorem `isStructurallyValidUTF8_iff`: what is let through.
-/

namespace WeWrite.Wire

open Scanning Utf8

namespace StructurallyValid

/-! ## Scanning -/

/-- A pointer into the string: the bytes behind it, the nearest first, and the bytes from it
on. -/
structure Src where
  behind : List UInt8
  ahead : List UInt8

/-- `src - isrc`. -/
def Src.offset (src : Src) : Nat :=
  src.behind.length

/-- `src += n`. -/
def Src.advance (src : Src) (n : Nat) : Src where
  behind := (src.ahead.take n).reverse ++ src.behind
  ahead := src.ahead.drop n

/-- `((uintptr_t)src & 0x07) == 0`. -/
def isAligned (base offset : Nat) : Bool :=
  (base + offset) &&& 0x07 == 0

/-- `src++` up to the limit while the byte there passes the test. -/
def advanceWhile (test : Nat → UInt8 → Bool) (behind : List UInt8) : List UInt8 → Src
  | [] => ⟨behind, []⟩
  | c :: ahead =>
      if test behind.length c then advanceWhile test (c :: behind) ahead
      else ⟨behind, c :: ahead⟩

/-- Four bytes as they are loaded by one access. -/
def word (b0 b1 b2 b3 : UInt8) : UInt32 :=
  b0.toUInt32 ||| b1.toUInt32 <<< 8 ||| b2.toUInt32 <<< 16 ||| b3.toUInt32 <<< 24

/-- The loop over groups of 8 bytes in `UTF8GenericScan`. -/
def skipGroups (behind : List UInt8) : List UInt8 → Src
  | b0 :: b1 :: b2 :: b3 :: b4 :: b5 :: b6 :: b7 :: ahead =>
      let s0123 := word b0 b1 b2 b3
      let s4567 := word b4 b5 b6 b7
      let losub : UInt32 := 0x20202020
      let hiadd : UInt32 := 0x00000000
      let temp := (s0123 - losub) ||| (s0123 + hiadd) ||| (s4567 - losub) ||| (s4567 + hiadd)
      let again := skipGroups (b7 :: b6 :: b5 :: b4 :: b3 :: b2 :: b1 :: b0 :: behind) ahead
      if temp &&& 0x80808080 ≠ 0 then
        if fastState b0 ||| fastState b1 ||| (fastState b2 ||| fastState b3) ≠ 0 then
          ⟨behind, b0 :: b1 :: b2 :: b3 :: b4 :: b5 :: b6 :: b7 :: ahead⟩
        else if fastState b4 ||| fastState b5 ||| (fastState b6 ||| fastState b7) ≠ 0 then
          ⟨b3 :: b2 :: b1 :: b0 :: behind, b4 :: b5 :: b6 :: b7 :: ahead⟩
        else again
      else again
  | ahead => ⟨behind, ahead⟩

/-- The byte-at-a-time scan: the last entry, the block, and where the scan ends. -/
def tableScan (tbl e : Nat) (behind : List UInt8) : List UInt8 → Nat × Nat × Src
  | [] => (e, tbl, ⟨behind, []⟩)
  | c :: ahead =>
      if kExitIllegalStructure ≤ entry tbl c then (entry tbl c, tbl, ⟨c :: behind, ahead⟩)
      else tableScan (entry tbl c) (entry tbl c) (c :: behind) ahead

/-- `do { src--; } while ((src > isrc) && ((src[0] & 0xc0) == 0x80))`. -/
def backUp : List UInt8 → List UInt8 → Src
  | [], ahead => ⟨[], ahead⟩
  | c :: behind, ahead =>
      if behind ≠ [] ∧ c &&& 0xC0 = 0x80 then backUp behind (c :: ahead)
      else ⟨behind, c :: ahead⟩

/-- How `UTF8GenericScan` leaves the table scan. -/
def leave : Nat × Nat × Src → Nat × Src
  | (e, tbl, src) =>
      if kExitIllegalStructure ≤ e then
        -- back up over exactly one byte, and over the rest of a character
        match src.behind with
        | [] => (e, src)
        | c :: behind =>
            if tbl ≠ 0 then (e, backUp behind (c :: src.ahead)) else (e, ⟨behind, c :: src.ahead⟩)
      else if tbl ≠ 0 then (kExitIllegalStructure, backUp src.behind src.ahead)
      else (kExitOK, src)

/-- The two loops of `UTF8GenericScan` in front of the byte-at-a-time scan. -/
def fastScan (base : Nat) (src : Src) : Src :=
  let src := advanceWhile (fun offset c => !isAligned base offset && fastState c == 0)
    src.behind src.ahead
  if isAligned base src.offset then skipGroups src.behind src.ahead else src

/-- `UTF8GenericScan` from the label `DoAgain` on. -/
def genericPass (base : Nat) (src : Src) : Nat × Src :=
  let src := fastScan base src
  leave (tableScan 0 0 src.behind src.ahead)

/-! ## Skipping ASCII -/

/-- From one pointer on to another there are bytes below `0x80` only. -/
def Skips (src src' : Src) : Prop :=
  ∃ bytes : List UInt8, (∀ b ∈ bytes, b.toNat < 0x80) ∧
    src'.behind = bytes.reverse ++ src.behind ∧ src.ahead = bytes ++ src'.ahead

/-- Skipping nothing. -/
theorem Skips.refl (src : Src) : Skips src src :=
  ⟨[], by simp, rfl, rfl⟩

/-- Skipping twice is skipping. -/
theorem Skips.trans {src src' src'' : Src} (h : Skips src src') (h' : Skips src' src'') :
    Skips src src'' := by
  rcases h with ⟨bytes, hbytes, hbehind, hahead⟩
  rcases h' with ⟨bytes', hbytes', hbehind', hahead'⟩
  refine ⟨bytes ++ bytes', ?_, ?_, ?_⟩
  · intro b hb
    exact (List.mem_append.mp hb).elim (hbytes b) (hbytes' b)
  · rw [hbehind', hbehind, List.reverse_append, List.append_assoc]
  · rw [hahead, hahead', List.append_assoc]

/-- One more ASCII byte in front is skipped too. -/
theorem Skips.cons {c : UInt8} {behind ahead : List UInt8} {src : Src} (hc : c.toNat < 0x80)
    (h : Skips ⟨c :: behind, ahead⟩ src) : Skips ⟨behind, c :: ahead⟩ src := by
  refine Skips.trans ⟨[c], ?_, rfl, rfl⟩ h
  intro b hb
  rw [List.mem_singleton.mp hb]
  exact hc

/-- The fast table is zero for ASCII. -/
theorem fastState_eq_zero_iff (c : UInt8) : fastState c = 0 ↔ c.toNat < 0x80 := by
  have hblock : ∀ n < 256, utf8acceptnonsurrogatesFast.entry n = 0 ↔ n < 0x80 := by
    decide +kernel
  exact hblock c.toNat c.toNat_lt

/-- A loop whose test only lets ASCII pass skips ASCII. -/
theorem advanceWhile_skips {test : Nat → UInt8 → Bool}
    (htest : ∀ offset c, test offset c = true → c.toNat < 0x80) (behind ahead : List UInt8) :
    Skips ⟨behind, ahead⟩ (advanceWhile test behind ahead) := by
  induction ahead generalizing behind with
  | nil => exact Skips.refl _
  | cons c ahead ih =>
      rw [advanceWhile]
      by_cases h : test behind.length c = true
      · rw [if_pos h]
        exact (ih (c :: behind)).cons (htest _ _ h)
      · rw [if_neg h]
        exact Skips.refl _

/-- No byte of a word whose high bits are clear is above `0x7F`. -/
theorem high_bits_clear {b0 b1 b2 b3 : UInt8} (h : word b0 b1 b2 b3 &&& 0x80808080 = 0) :
    b0.toNat < 0x80 ∧ b1.toNat < 0x80 ∧ b2.toNat < 0x80 ∧ b3.toNat < 0x80 := by
  have h0 := b0.toNat_lt
  have h1 := b1.toNat_lt
  have h2 := b2.toNat_lt
  have h3 := b3.toNat_lt
  have hword : (word b0 b1 b2 b3).toNat =
      b0.toNat + b1.toNat * 2 ^ 8 + b2.toNat * 2 ^ 16 + b3.toNat * 2 ^ 24 := by
    rw [word, CodedInputStream.toNat_four_bytes]
    simp only [WireFormat.ofLittleEndian]
    omega
  have hand := congrArg UInt32.toNat h
  rw [UInt32.toNat_and, hword] at hand
  have hbit : ∀ i, (0x80808080 : UInt32).toNat.testBit i = true →
      Nat.testBit (b0.toNat + b1.toNat * 2 ^ 8 + b2.toNat * 2 ^ 16 + b3.toNat * 2 ^ 24) i =
        false := by
    intro i hi
    have hclear := congrArg (Nat.testBit · i) hand
    simp only [Nat.testBit_and, hi, Bool.and_true] at hclear
    rw [hclear]
    exact Nat.zero_testBit i
  have hbit7 := hbit 7 (by decide)
  have hbit15 := hbit 15 (by decide)
  have hbit23 := hbit 23 (by decide)
  have hbit31 := hbit 31 (by decide)
  simp only [Nat.testBit_eq_decide_div_mod_eq, decide_eq_false_iff_not] at hbit7 hbit15
  simp only [Nat.testBit_eq_decide_div_mod_eq, decide_eq_false_iff_not] at hbit23 hbit31
  omega

/-- Four more ASCII bytes in front are skipped too. -/
theorem Skips.four {b0 b1 b2 b3 : UInt8} {behind ahead : List UInt8} {src : Src}
    (h : b0.toNat < 0x80 ∧ b1.toNat < 0x80 ∧ b2.toNat < 0x80 ∧ b3.toNat < 0x80)
    (hsrc : Skips ⟨b3 :: b2 :: b1 :: b0 :: behind, ahead⟩ src) :
    Skips ⟨behind, b0 :: b1 :: b2 :: b3 :: ahead⟩ src :=
  (((hsrc.cons h.2.2.2).cons h.2.2.1).cons h.2.1).cons h.1

/-- Four entries of the fast table together are zero for four ASCII bytes. -/
theorem fastState_or_eq_zero {b0 b1 b2 b3 : UInt8}
    (h : fastState b0 ||| fastState b1 ||| (fastState b2 ||| fastState b3) = 0) :
    b0.toNat < 0x80 ∧ b1.toNat < 0x80 ∧ b2.toNat < 0x80 ∧ b3.toNat < 0x80 := by
  simp only [Nat.or_eq_zero_iff, fastState_eq_zero_iff] at h
  exact ⟨h.1.1, h.1.2, h.2.1, h.2.2⟩

/-- The test of two words at once has the high bits of both. -/
theorem words_clear {s t l : UInt32}
    (h : ((s - l) ||| (s + 0) ||| (t - l) ||| (t + 0)) &&& 0x80808080 = 0) :
    s &&& 0x80808080 = 0 ∧ t &&& 0x80808080 = 0 := by
  have hnat := congrArg UInt32.toNat h
  simp only [UInt32.add_zero, UInt32.toNat_and, UInt32.toNat_or, Nat.and_or_distrib_right,
    UInt32.toNat_zero, Nat.or_eq_zero_iff] at hnat
  exact ⟨UInt32.toNat.inj hnat.1.1.2, UInt32.toNat.inj hnat.2⟩

/-- The loop in groups of eight skips ASCII. -/
theorem skipGroups_skips (behind ahead : List UInt8) :
    Skips ⟨behind, ahead⟩ (skipGroups behind ahead) := by
  fun_induction skipGroups behind ahead with
  | case1 => exact Skips.refl _
  | case2 behind _ _ _ _ _ _ _ _ ahead _ _ _ _ _ _ he _ =>
      exact (Skips.refl _).four (fastState_or_eq_zero (not_not.mp he))
  | case3 behind _ _ _ _ _ _ _ _ ahead _ _ _ _ _ _ _ he he' ih =>
      exact (ih.four (fastState_or_eq_zero (not_not.mp he'))).four
        (fastState_or_eq_zero (not_not.mp he))
  | case4 behind _ _ _ _ _ _ _ _ ahead _ _ _ _ _ _ htemp ih =>
      rcases words_clear (not_not.mp htemp) with ⟨hs, ht⟩
      exact (ih.four (high_bits_clear ht)).four (high_bits_clear hs)
  | case5 => exact Skips.refl _

/-! ## The table scan -/

/-- The test of the backing up is the one for a tail byte. -/
theorem and_eq_iff_isTail (c : UInt8) : c &&& 0xC0 = 0x80 ↔ IsTail c := by
  have hmask : ∀ n < 256, n &&& 0xC0 = 0x80 ↔ 0x80 ≤ n ∧ n < 0xC0 := by decide +kernel
  rw [← UInt8.toNat_inj, UInt8.toNat_and]
  exact hmask c.toNat c.toNat_lt

/-- Backing up over the tail bytes of a character and its first byte. -/
theorem backUp_character {lead : UInt8} {tails : List UInt8} (hlead : ¬ IsTail lead)
    (htails : ∀ b ∈ tails, IsTail b) (start ahead : List UInt8) :
    backUp (tails.reverse ++ lead :: start) ahead = ⟨start, lead :: tails ++ ahead⟩ := by
  induction tails using List.reverseRecOn generalizing ahead with
  | nil =>
      change backUp (lead :: start) ahead = _
      rw [backUp, if_neg]
      · rfl
      · rintro ⟨-, h⟩
        exact hlead ((and_eq_iff_isTail lead).mp h)
  | append_singleton tails c ih =>
      have hc : IsTail c := htails c (by simp)
      rw [List.reverse_append, List.reverse_singleton, List.singleton_append, List.cons_append,
        backUp, if_pos ⟨by simp, (and_eq_iff_isTail c).mpr hc⟩,
        ih fun b hb => htails b (List.mem_append_left _ hb)]
      simp

/-- The scan has read some bytes since it was in the state 0, and stands inside a character. -/
structure Unfinished (tbl : Nat) (bytes : List UInt8) : Prop where
  eval : automaton.eval bytes = tbl
  lt : tbl < kExitIllegalStructure
  pending : LongestPrefix automaton.accepts bytes 0
  shape : bytes = [] ∨ ∃ lead tails, bytes = lead :: tails ∧ ¬ IsTail lead ∧ ∀ b ∈ tails, IsTail b

/-- At the start of a character nothing has been read of it. -/
theorem unfinished_nil : Unfinished 0 [] where
  eval := rfl
  lt := by decide
  pending := LongestPrefix.nil automaton_returns.nil_mem
  shape := Or.inl rfl

/-- Nothing has been read of a character exactly in the first state. -/
theorem Unfinished.eq_nil_iff {tbl : Nat} {bytes : List UInt8} (h : Unfinished tbl bytes) :
    bytes = [] ↔ tbl = 0 := by
  rw [← h.eval]
  change _ ↔ automaton.eval bytes = automaton.start
  rw [← automaton_returns.mem_accepts, ← h.pending.eq_length_iff, eq_comm (a := 0),
    List.length_eq_zero_iff]

/-- One more byte of a character is read by the table. -/
theorem eval_concat {tbl : Nat} {bytes : List UInt8} (h : Unfinished tbl bytes) (c : UInt8) :
    automaton.eval (bytes ++ [c]) = entry tbl c := by
  rw [DFA.eval_append_singleton, h.eval, automaton_step, if_pos h.lt]

/-- One more byte inside a character. -/
theorem Unfinished.concat {tbl : Nat} {bytes : List UInt8} {c : UInt8} (h : Unfinished tbl bytes)
    (hne : entry tbl c ≠ 0) (hlt : entry tbl c < kExitIllegalStructure) :
    Unfinished (entry tbl c) (bytes ++ [c]) where
  eval := eval_concat h c
  lt := hlt
  pending := by
    refine h.pending.extend fun m hpos hm => ?_
    rw [List.take_of_length_le (show [c].length ≤ m from hpos), automaton_returns.mem_accepts,
      eval_concat h c]
    exact hne
  shape := by
    right
    rcases h.shape with rfl | ⟨lead, tails, rfl, hlead, htails⟩
    · obtain rfl := h.eq_nil_iff.mp rfl
      exact ⟨c, [], rfl, not_isTail_of_entry hne hlt, by simp⟩
    · have hzero : tbl ≠ 0 := h.eq_nil_iff.not.mp (by simp)
      refine ⟨lead, tails ++ [c], rfl, hlead, fun b hb => ?_⟩
      rcases List.mem_append.mp hb with hb | hb
      · exact htails b hb
      · rw [List.mem_singleton.mp hb]
        exact isTail_of_entry hzero hlt

/-- Where the table exits, no longer prefix is accepted. -/
theorem Unfinished.exit {tbl : Nat} {bytes : List UInt8} {c : UInt8} (h : Unfinished tbl bytes)
    (hexit : kExitIllegalStructure ≤ entry tbl c) (ahead : List UInt8) :
    LongestPrefix automaton.accepts (bytes ++ c :: ahead) 0 ∧
      automaton.eval (bytes ++ c :: ahead) = entry tbl c := by
  have heval : ∀ v, automaton.eval (bytes ++ c :: v) = entry tbl c := by
    intro v
    rw [← List.singleton_append, ← List.append_assoc, DFA.eval, DFA.evalFrom_of_append]
    change automaton.evalFrom (automaton.eval (bytes ++ [c])) v = _
    rw [eval_concat h c, evalFrom_exit hexit]
  refine ⟨h.pending.extend fun m hpos _ => ?_, heval ahead⟩
  obtain ⟨m, rfl⟩ := Nat.exists_eq_succ_of_ne_zero (Nat.ne_of_gt hpos)
  rw [List.take_succ_cons, automaton_returns.mem_accepts, heval]
  exact fun hzero => absurd (hexit.trans_eq hzero) (by decide)

/-- The exit reason for a string, by the state in which the table leaves it. -/
def exitReason (tbl : Nat) : Nat :=
  if kExitIllegalStructure ≤ tbl then tbl
  else if tbl ≠ 0 then kExitIllegalStructure
  else kExitOK

/-- The scan ends behind the longest accepted prefix of what is ahead. -/
structure Found (src : Src) (result : Nat × Src) : Prop where
  reason : result.1 = exitReason (automaton.eval src.ahead)
  place : ∃ n, LongestPrefix automaton.accepts src.ahead n ∧ result.2 = src.advance n

/-- Accepted bytes may be skipped. -/
theorem Found.skip {bytes start ahead : List UInt8} {result : Nat × Src}
    (hbytes : bytes ∈ automaton.accepts) (h : Found ⟨bytes.reverse ++ start, ahead⟩ result) :
    Found ⟨start, bytes ++ ahead⟩ result where
  reason := by
    have heval : automaton.eval (bytes ++ ahead) = automaton.eval ahead := by
      rw [DFA.eval, DFA.evalFrom_of_append]
      exact congrArg (automaton.evalFrom · ahead) ((automaton_returns.mem_accepts _).mp hbytes)
    rw [h.reason, heval]
  place := by
    rcases h.place with ⟨n, hn, hplace⟩
    refine ⟨bytes.length + n, hn.append (automaton_returns.append_mem_iff hbytes), ?_⟩
    rw [hplace]
    simp only [Src.advance, List.take_length_add_append, List.drop_length_add_append,
      List.reverse_append, List.append_assoc]

/-- Backing up goes to the start of the character. -/
theorem Unfinished.backUp {tbl : Nat} {bytes : List UInt8} (h : Unfinished tbl bytes)
    (hne : tbl ≠ 0) (start ahead : List UInt8) :
    backUp (bytes.reverse ++ start) ahead = ⟨start, bytes ++ ahead⟩ := by
  rcases h.shape with rfl | ⟨lead, tails, rfl, hlead, htails⟩
  · exact absurd (h.eq_nil_iff.mp rfl) hne
  · rw [List.reverse_cons, List.append_assoc, List.singleton_append,
      backUp_character hlead htails]

/-- Where the bytes end, the scan is left at the last character that has begun. -/
theorem leave_unfinished {tbl : Nat} {bytes : List UInt8} (h : Unfinished tbl bytes)
    (start : List UInt8) :
    Found ⟨start, bytes⟩ (leave (tbl, tbl, ⟨bytes.reverse ++ start, []⟩)) := by
  have hlt := Nat.not_le.mpr h.lt
  rw [leave, if_neg hlt]
  by_cases hzero : tbl = 0
  · obtain rfl := h.eq_nil_iff.mpr hzero
    rw [if_neg (not_not.mpr hzero)]
    refine ⟨?_, 0, h.pending, rfl⟩
    rw [h.eval, exitReason, if_neg hlt, if_neg (not_not.mpr hzero)]
  · rw [if_pos hzero, h.backUp hzero, List.append_nil]
    refine ⟨?_, 0, h.pending, rfl⟩
    rw [h.eval, exitReason, if_neg hlt, if_pos hzero]

/-- Where the table exits, the scan is left at the character that it has exited in. -/
theorem leave_exit {tbl : Nat} {bytes : List UInt8} {c : UInt8} (h : Unfinished tbl bytes)
    (hexit : kExitIllegalStructure ≤ entry tbl c) (start ahead : List UInt8) :
    Found ⟨start, bytes ++ c :: ahead⟩
      (leave (entry tbl c, tbl, ⟨c :: (bytes.reverse ++ start), ahead⟩)) := by
  rcases h.exit hexit ahead with ⟨hlongest, heval⟩
  have hleave : leave (entry tbl c, tbl, ⟨c :: (bytes.reverse ++ start), ahead⟩) =
      (entry tbl c, ⟨start, bytes ++ c :: ahead⟩) := by
    rw [leave, if_pos hexit]
    by_cases hzero : tbl = 0
    · obtain rfl := h.eq_nil_iff.mpr hzero
      exact if_neg (not_not.mpr hzero)
    · dsimp only
      rw [if_pos hzero, h.backUp hzero]
  rw [hleave]
  refine ⟨?_, 0, hlongest, rfl⟩
  rw [heval, exitReason, if_pos hexit]

/-- The byte-at-a-time scan, from inside a character on. -/
theorem tableScan_found {tbl : Nat} {bytes : List UInt8} (h : Unfinished tbl bytes)
    (start ahead : List UInt8) :
    Found ⟨start, bytes ++ ahead⟩ (leave (tableScan tbl tbl (bytes.reverse ++ start) ahead)) := by
  induction ahead generalizing tbl bytes start with
  | nil =>
      rw [List.append_nil]
      exact leave_unfinished h start
  | cons c ahead ih =>
      rw [tableScan]
      by_cases hexit : kExitIllegalStructure ≤ entry tbl c
      · rw [if_pos hexit]
        exact leave_exit h hexit start ahead
      · rw [if_neg hexit]
        by_cases hzero : entry tbl c = 0
        · -- the byte ends its character, and the next one starts with nothing behind it
          have hdone : bytes ++ [c] ∈ automaton.accepts := by
            rw [automaton_returns.mem_accepts, eval_concat h c]
            exact hzero
          have hstart : (bytes ++ [c]).reverse ++ start = c :: (bytes.reverse ++ start) := by
            rw [List.reverse_append, List.reverse_singleton, List.singleton_append,
              List.cons_append]
          have hfound : Found ⟨start, (bytes ++ [c]) ++ ahead⟩
              (leave (tableScan 0 0 (c :: (bytes.reverse ++ start)) ahead)) := by
            apply Found.skip hdone
            rw [hstart]
            exact ih unfinished_nil (c :: (bytes.reverse ++ start))
          rw [hzero]
          rwa [List.append_assoc, List.singleton_append] at hfound
        · have hfound := ih (h.concat hzero (Nat.not_le.mp hexit)) start
          rw [List.append_assoc, List.singleton_append, List.reverse_append,
            List.reverse_singleton, List.singleton_append, List.cons_append] at hfound
          exact hfound

/-! ## The scanners -/

/-- ASCII is valid. -/
theorem ascii_accepts {bytes : List UInt8} (h : ∀ b ∈ bytes, b.toNat < 0x80) :
    bytes ∈ automaton.accepts := by
  induction bytes with
  | nil => exact automaton_returns.nil_mem
  | cons b bytes ih =>
      have hb : [b] ∈ automaton.accepts := accepts_of_isCharacter (.one (h b (by simp)))
      rw [← List.singleton_append, automaton_returns.append_mem_iff hb]
      exact ih fun b' hb' => h b' (List.mem_cons_of_mem b hb')

/-- Skipping ASCII does not change what a scan finds. -/
theorem Found.skips {src src' : Src} {result : Nat × Src} (hskips : Skips src src')
    (h : Found src' result) : Found src result := by
  rcases src with ⟨behind, ahead⟩
  rcases src' with ⟨behind', ahead'⟩
  rcases hskips with ⟨bytes, hbytes, hbehind, hahead⟩
  dsimp only at hbehind hahead
  subst hbehind hahead
  exact h.skip (ascii_accepts hbytes)

/-- The fast part of a pass skips ASCII, from every address. -/
theorem fastScan_skips (base : Nat) (src : Src) : Skips src (fastScan base src) := by
  have htest : ∀ offset c, (!isAligned base offset && fastState c == 0) = true →
      c.toNat < 0x80 := by
    intro offset c h
    rw [Bool.and_eq_true, beq_iff_eq] at h
    exact (fastState_eq_zero_iff c).mp h.2
  have halign := advanceWhile_skips htest src.behind src.ahead
  unfold fastScan
  dsimp only
  split_ifs with haligned
  · exact halign.trans (skipGroups_skips _ _)
  · exact halign

/-- A pass of the first scanner finds the longest valid prefix. -/
theorem genericPass_found (base : Nat) (src : Src) : Found src (genericPass base src) :=
  Found.skips (fastScan_skips base src)
    (tableScan_found unfinished_nil (fastScan base src).behind (fastScan base src).ahead)

/-- No pass asks for another one. -/
theorem Found.ne_doAgain {src : Src} {result : Nat × Src} (h : Found src result) :
    result.1 ≠ kExitDoAgain := by
  rw [h.reason, exitReason]
  split_ifs with hexit hzero
  · rcases eval_cases src.ahead with hlt | he | he
    · exact absurd hexit (Nat.not_le.mpr (hlt.trans (by decide)))
    · rw [he]
      decide
    · rw [he]
      decide
  · decide
  · decide

/-- `UTF8GenericScan` from the label `DoAgain` on, as often as it goes back there. -/
def genericFrom (base : Nat) (src : Src) : Nat × Src :=
  let result := genericPass base src
  if result.1 = kExitDoAgain then genericFrom base result.2 else result
termination_by src.ahead.length
decreasing_by exact absurd ‹_› (genericPass_found base src).ne_doAgain

/-- `UTF8GenericScan`: the exit reason and `bytes_consumed`. -/
def utf8GenericScan (base : Nat) (str : List UInt8) : Nat × Nat :=
  if str.length = 0 then (kExitOK, 0)
  else
    let (e, src) := genericFrom base ⟨[], str⟩
    (e, src.offset)

/-- The loop over groups of 8 bytes in `UTF8GenericScanFastAscii`. -/
def skipAsciiGroups (behind : List UInt8) : List UInt8 → Src
  | b0 :: b1 :: b2 :: b3 :: b4 :: b5 :: b6 :: b7 :: ahead =>
      if (word b0 b1 b2 b3 ||| word b4 b5 b6 b7) &&& 0x80808080 = 0 then
        skipAsciiGroups (b7 :: b6 :: b5 :: b4 :: b3 :: b2 :: b1 :: b0 :: behind) ahead
      else ⟨behind, b0 :: b1 :: b2 :: b3 :: b4 :: b5 :: b6 :: b7 :: ahead⟩
  | ahead => ⟨behind, ahead⟩

/-- The three loops of `UTF8GenericScanFastAscii` in front of the table scan. -/
def asciiScan (base : Nat) (src : Src) : Src :=
  let src := advanceWhile (fun offset c => !isAligned base offset && c < 0x80)
    src.behind src.ahead
  let src := if isAligned base src.offset then skipAsciiGroups src.behind src.ahead else src
  advanceWhile (fun _ c => c < 0x80) src.behind src.ahead

/-- The body of the loop of `UTF8GenericScanFastAscii`: the table is run on the rest. -/
def fastAsciiPass (base : Nat) (src : Src) : Nat × Src :=
  let src := asciiScan base src
  let (exitReason, restConsumed) := utf8GenericScan (base + src.offset) src.ahead
  (exitReason, src.advance restConsumed)

/-- What a pass has found, from the start of the string. -/
theorem Found.offset {str : List UInt8} {result : Nat × Src} (h : Found ⟨[], str⟩ result) :
    result.1 = exitReason (automaton.eval str) ∧
      LongestPrefix automaton.accepts str result.2.offset := by
  rcases h.place with ⟨n, hn, hplace⟩
  have hoffset : result.2.offset = n := by
    rw [hplace, Src.offset, Src.advance, List.append_nil, List.length_reverse, List.length_take]
    exact Nat.min_eq_left hn.le
  rw [hoffset]
  exact ⟨h.reason, hn⟩

/-- `UTF8GenericScan` finds the longest accepted prefix. -/
theorem utf8GenericScan_spec (base : Nat) (str : List UInt8) :
    (utf8GenericScan base str).1 = exitReason (automaton.eval str) ∧
      LongestPrefix automaton.accepts str (utf8GenericScan base str).2 := by
  unfold utf8GenericScan
  split_ifs with hlength
  · obtain rfl := List.length_eq_zero_iff.mp hlength
    exact ⟨rfl, LongestPrefix.nil automaton_returns.nil_mem⟩
  · have hfound := genericPass_found base ⟨[], str⟩
    rw [genericFrom, if_neg hfound.ne_doAgain]
    exact hfound.offset

/-- The loop in groups of eight of the second scanner skips ASCII. -/
theorem skipAsciiGroups_skips (behind ahead : List UInt8) :
    Skips ⟨behind, ahead⟩ (skipAsciiGroups behind ahead) := by
  fun_induction skipAsciiGroups behind ahead with
  | case1 behind b0 b1 b2 b3 b4 b5 b6 b7 ahead hclear ih =>
      have hnat := congrArg UInt32.toNat hclear
      simp only [UInt32.toNat_and, UInt32.toNat_or, Nat.and_or_distrib_right,
        UInt32.toNat_zero, Nat.or_eq_zero_iff] at hnat
      exact (ih.four (high_bits_clear (UInt32.toNat.inj hnat.2))).four
        (high_bits_clear (UInt32.toNat.inj hnat.1))
  | case2 => exact Skips.refl _
  | case3 => exact Skips.refl _

/-- The fast part of the second scanner skips ASCII, from every address. -/
theorem asciiScan_skips (base : Nat) (src : Src) : Skips src (asciiScan base src) := by
  have hlow : ∀ {c : UInt8}, decide (c < 0x80) = true → c.toNat < 0x80 := fun h =>
    UInt8.lt_iff_toNat_lt.mp (of_decide_eq_true h)
  have hbytes : ∀ src : Src, Skips src (advanceWhile (fun _ c => c < 0x80) src.behind src.ahead) :=
    fun src => advanceWhile_skips (fun _ _ h => hlow h) src.behind src.ahead
  have halign : Skips src (advanceWhile (fun offset c => !isAligned base offset && c < 0x80)
      src.behind src.ahead) :=
    advanceWhile_skips (fun _ _ h => hlow (Bool.and_eq_true _ _ ▸ h).2) src.behind src.ahead
  unfold asciiScan
  dsimp only
  split_ifs with haligned
  · exact (halign.trans (skipAsciiGroups_skips _ _)).trans (hbytes _)
  · exact halign.trans (hbytes _)

/-- A pass of the second scanner finds the longest valid prefix. -/
theorem fastAsciiPass_found (base : Nat) (src : Src) : Found src (fastAsciiPass base src) := by
  apply Found.skips (asciiScan_skips base src)
  rcases utf8GenericScan_spec (base + (asciiScan base src).offset) (asciiScan base src).ahead with
    ⟨hreason, hlongest⟩
  exact ⟨hreason, _, hlongest, rfl⟩

/-- The loop of `UTF8GenericScanFastAscii`. -/
def fastAsciiFrom (base : Nat) (src : Src) : Nat × Src :=
  let result := fastAsciiPass base src
  if result.1 = kExitDoAgain then fastAsciiFrom base result.2 else result
termination_by src.ahead.length
decreasing_by exact absurd ‹_› (fastAsciiPass_found base src).ne_doAgain

/-- `UTF8GenericScanFastAscii`: the exit reason and `bytes_consumed`. -/
def utf8GenericScanFastAscii (base : Nat) (str : List UInt8) : Nat × Nat :=
  if str.length = 0 then (kExitOK, 0)
  else
    let (exitReason, src) := fastAsciiFrom base ⟨[], str⟩
    (exitReason, src.offset)

/-- `UTF8GenericScanFastAscii` finds the longest accepted prefix. -/
theorem utf8GenericScanFastAscii_spec (base : Nat) (str : List UInt8) :
    (utf8GenericScanFastAscii base str).1 = exitReason (automaton.eval str) ∧
      LongestPrefix automaton.accepts str (utf8GenericScanFastAscii base str).2 := by
  unfold utf8GenericScanFastAscii
  split_ifs with hlength
  · obtain rfl := List.length_eq_zero_iff.mp hlength
    exact ⟨rfl, LongestPrefix.nil automaton_returns.nil_mem⟩
  · have hfound := fastAsciiPass_found base ⟨[], str⟩
    rw [fastAsciiFrom, if_neg hfound.ne_doAgain]
    exact hfound.offset

/-! ## What the scanners find -/

/-- The longest valid prefix, and the exit reason by what stands behind it. -/
structure Verdict (str : List UInt8) (e n : Nat) : Prop where
  le : n ≤ str.length
  valid : IsValid (str.take n)
  longest : ∀ m ≤ str.length, IsValid (str.take m) → m ≤ n
  reason : e = kExitOK ∨ e = kExitReject ∨ e = kExitIllegalStructure
  ok_iff : e = kExitOK ↔ n = str.length
  reject_iff : e = kExitReject ↔ BeginsWithSurrogate (str.drop n)

/-- The exit reason tells how the automaton has ended. -/
theorem exitReason_eval (str : List UInt8) :
    exitReason (automaton.eval str) = kExitOK ∧ automaton.eval str = 0 ∨
      exitReason (automaton.eval str) = kExitReject ∧ automaton.eval str = RJ ∨
      exitReason (automaton.eval str) = kExitIllegalStructure ∧ automaton.eval str ≠ 0 ∧
        automaton.eval str ≠ RJ := by
  rcases eval_cases str with hlt | he | he
  · rw [exitReason, if_neg (Nat.not_le.mpr (hlt.trans (by decide)))]
    by_cases hzero : automaton.eval str = 0
    · exact Or.inl ⟨if_neg (not_not.mpr hzero), hzero⟩
    · exact Or.inr (Or.inr ⟨if_pos hzero, hzero, (hlt.trans (by decide : 9 < RJ)).ne⟩)
  · rw [he]
    exact Or.inr (Or.inr ⟨rfl, by decide, by decide⟩)
  · rw [he]
    exact Or.inr (Or.inl ⟨rfl, rfl⟩)

/-- The longest valid prefix and the exit reason are the verdict. -/
theorem verdict_of_longestPrefix {str : List UInt8} {n : Nat}
    (h : LongestPrefix automaton.accepts str n) :
    Verdict str (exitReason (automaton.eval str)) n := by
  have htake : automaton.eval (str.take n) = 0 := (automaton_returns.mem_accepts _).mp h.mem
  have hdrop : automaton.eval (str.drop n) = automaton.eval str := by
    conv_rhs => rw [← List.take_append_drop n str, DFA.eval, DFA.evalFrom_of_append]
    exact (congrArg (automaton.evalFrom · (str.drop n)) htake).symm
  have hrest := h.rest (automaton_returns.append_mem_iff h.mem)
  have hok : automaton.eval str = 0 ↔ n = str.length := by
    rw [h.eq_length_iff]
    exact (automaton_returns.mem_accepts str).symm
  have hreject : automaton.eval str = RJ ↔ BeginsWithSurrogate (str.drop n) := by
    rw [← hdrop]
    exact eval_eq_reject_iff hrest
  refine ⟨h.le, (mem_accepts_iff _).mp h.mem, ?_, ?_, ?_, ?_⟩
  · intro m hm hvalid
    exact h.longest m hm ((mem_accepts_iff _).mpr hvalid)
  · rcases exitReason_eval str with ⟨he, -⟩ | ⟨he, -⟩ | ⟨he, -⟩
    · exact Or.inl he
    · exact Or.inr (Or.inl he)
    · exact Or.inr (Or.inr he)
  · rw [← hok]
    rcases exitReason_eval str with ⟨he, hz⟩ | ⟨he, hz⟩ | ⟨he, hz, -⟩
    · exact iff_of_true he hz
    · rw [he, hz]
      decide
    · rw [he]
      exact iff_of_false (by decide) hz
  · rw [← hreject]
    rcases exitReason_eval str with ⟨he, hz⟩ | ⟨he, hz⟩ | ⟨he, -, hz⟩
    · rw [he, hz]
      decide
    · exact iff_of_true he hz
    · rw [he]
      exact iff_of_false (by decide) hz

/-- Both scanners give one answer, whatever the address of the string: its longest prefix of valid
UTF-8, and why it goes no further. -/
theorem scanners_find_longest_valid_prefix (str : List UInt8) :
    ∃ e n, Verdict str e n ∧ ∀ base,
      utf8GenericScan base str = (e, n) ∧ utf8GenericScanFastAscii base str = (e, n) := by
  rcases utf8GenericScan_spec 0 str with ⟨hreason, hlongest⟩
  refine ⟨_, _, verdict_of_longestPrefix hlongest, fun base => ⟨?_, ?_⟩⟩
  · have hspec := utf8GenericScan_spec base str
    exact Prod.ext hspec.1 (hspec.2.unique hlongest)
  · have hspec := utf8GenericScanFastAscii_spec base str
    exact Prod.ext hspec.1 (hspec.2.unique hlongest)

/-- `IsStructurallyValidUTF8`, once the module is initialized. -/
def isStructurallyValidUTF8 (base : Nat) (buf : List UInt8) : Bool :=
  (utf8GenericScanFastAscii base buf).2 == buf.length

/-- The check lets through valid UTF-8 and nothing else. -/
theorem isStructurallyValidUTF8_iff (base : Nat) (buf : List UInt8) :
    isStructurallyValidUTF8 base buf = true ↔ IsValid buf := by
  rw [isStructurallyValidUTF8, beq_iff_eq, (utf8GenericScanFastAscii_spec base buf).2.eq_length_iff,
    mem_accepts_iff]

end StructurallyValid

end WeWrite.Wire
