import Mathlib.Data.List.GetD
import WeWrite.Library.LongestPrefix
import WeWrite.Library.Utf8

/-!
# The state table of the string check

Before a string field is written, and after it was read, its bytes are checked against a table of
nine states with an entry for every byte: the next state, or one of the exits.  The state is 0
between two characters.

As an automaton the table accepts the bytes that lead back to the state 0.  These are the
encodings of characters, one behind the other: what would encode a surrogate is rejected with an
exit of its own.

Main results:

- Theorem `mem_accepts_iff`: the table accepts valid UTF-8 and nothing else.
- Theorem `eval_cases`: which states and exits the table comes to.
- Theorem `eval_eq_reject_iff`: when it comes to the exit for surrogates.
-/

namespace WeWrite.Wire

open Scanning Utf8

namespace StructurallyValid

/-! ## The state table -/

/-- The least of the codes that a table may hold instead of a state. -/
def kExitIllegalStructure : Nat := 240

/-- The whole string was accepted. -/
def kExitOK : Nat := 241

/-- A surrogate was met. -/
def kExitReject : Nat := 242

/-- The scan is to start again from where it stands. -/
def kExitDoAgain : Nat := 253

/-- No exit. -/
def kExitNone : Nat := 255

/-- A block of a table: one entry for every byte, in runs of equal entries. -/
abbrev Block := List (Nat × Nat)

/-- The entry of a byte.  No byte is beyond the end of a block. -/
def Block.entry : Block → Nat → Nat
  | [], _ => kExitNone
  | (count, e) :: runs, c => if c < count then e else Block.entry runs (c - count)

/-- `X__`. -/
def X : Nat := kExitIllegalStructure

/-- `RJ_`. -/
def RJ : Nat := kExitReject

/-- `utf8acceptnonsurrogates`, one block for each state. -/
def utf8acceptnonsurrogates : List Block := [
  -- state[0] 0x000000 Byte 1
  [(128, 0), (66, X), (30, 1), (1, 2), (12, 3), (1, 7), (2, 3), (1, 4), (3, 5), (1, 6), (11, X)],
  -- state[1] 0x000080 Byte 2 of 2
  [(128, X), (64, 0), (64, X)],
  -- state[2] 0x000000 Byte 2 of 3
  [(160, X), (32, 1), (64, X)],
  -- state[3] 0x001000 Byte 2 of 3
  [(128, X), (64, 1), (64, X)],
  -- state[4] 0x000000 Byte 2 of 4
  [(144, X), (48, 3), (64, X)],
  -- state[5] 0x040000 Byte 2 of 4
  [(128, X), (64, 3), (64, X)],
  -- state[6] 0x100000 Byte 2 of 4
  [(128, X), (16, 3), (112, X)],
  -- state[7] 0x00d000 Byte 2 of 3
  [(128, X), (32, 1), (32, 8), (64, X)],
  -- state[8] 0x00d800 Byte 3 of 3
  [(128, X), (64, RJ), (64, X)]]

/-- `utf8acceptnonsurrogates_fast`. -/
def utf8acceptnonsurrogatesFast : Block :=
  [(128, 0), (128, 1)]

/-- `Tbl[c]`, where `Tbl` is the start of the block of a state. -/
def entry (tbl : Nat) (c : UInt8) : Nat :=
  (utf8acceptnonsurrogates.getD tbl []).entry c.toNat

/-- `Tbl2[c]`. -/
def fastState (c : UInt8) : Nat :=
  utf8acceptnonsurrogatesFast.entry c.toNat

/-! ## The entries -/

/-- Which bytes lead where from the start. -/
theorem lead_cases (c : UInt8) :
    c.toNat < 128 ∧ entry 0 c = 0 ∨
    (194 ≤ c.toNat ∧ c.toNat < 224) ∧ entry 0 c = 1 ∨
    c.toNat = 224 ∧ entry 0 c = 2 ∨
    (225 ≤ c.toNat ∧ c.toNat < 240 ∧ c.toNat ≠ 237) ∧ entry 0 c = 3 ∨
    c.toNat = 237 ∧ entry 0 c = 7 ∨
    c.toNat = 240 ∧ entry 0 c = 4 ∨
    (241 ≤ c.toNat ∧ c.toNat < 244) ∧ entry 0 c = 5 ∨
    c.toNat = 244 ∧ entry 0 c = 6 ∨
    (128 ≤ c.toNat ∧ c.toNat < 194 ∨ 245 ≤ c.toNat) ∧ entry 0 c = X := by
  have hblock : ∀ n < 256, ∀ e, Block.entry (utf8acceptnonsurrogates.getD 0 []) n = e →
      n < 128 ∧ e = 0 ∨ (194 ≤ n ∧ n < 224) ∧ e = 1 ∨ n = 224 ∧ e = 2 ∨
      (225 ≤ n ∧ n < 240 ∧ n ≠ 237) ∧ e = 3 ∨ n = 237 ∧ e = 7 ∨ n = 240 ∧ e = 4 ∨
      (241 ≤ n ∧ n < 244) ∧ e = 5 ∨ n = 244 ∧ e = 6 ∨
      (128 ≤ n ∧ n < 194 ∨ 245 ≤ n) ∧ e = X := by
    simp only [forall_eq']
    decide +kernel
  exact hblock c.toNat c.toNat_lt _ rfl

/-- The runs of a block, each with the byte at which it begins and the one at which it has
ended. -/
def Block.ranges : Nat → Block → List (Nat × Nat × Nat)
  | _, [] => []
  | low, (count, e) :: runs => (low, low + count, e) :: Block.ranges (low + count) runs

/-- Every byte stands in one of the ranges of its block. -/
theorem Block.exists_range (block : Block) (low : Nat) {c : Nat}
    (hc : c < (block.map Prod.fst).sum) :
    ∃ range ∈ Block.ranges low block,
      (range.1 ≤ low + c ∧ low + c < range.2.1) ∧ block.entry c = range.2.2 := by
  induction block generalizing low c with
  | nil => exact absurd hc (Nat.not_lt_zero c)
  | cons run runs ih =>
      rcases run with ⟨count, e⟩
      rw [List.map_cons, List.sum_cons] at hc
      rw [Block.entry, Block.ranges]
      by_cases hlt : c < count
      · rw [if_pos hlt]
        exact ⟨_, List.mem_cons_self, ⟨Nat.le_add_right low c, Nat.add_lt_add_left hlt low⟩, rfl⟩
      · rw [if_neg hlt]
        rcases ih (low + count) (c := c - count) (by omega) with ⟨range, hmem, hrange, he⟩
        exact ⟨range, List.mem_cons_of_mem _ hmem, by omega, he⟩

/-- Every byte is in one of the runs of a block. -/
theorem exists_range {tbl : Nat} (htbl : tbl < 9) (c : UInt8) :
    ∃ range ∈ Block.ranges 0 (utf8acceptnonsurrogates.getD tbl []),
      (range.1 ≤ c.toNat ∧ c.toNat < range.2.1) ∧ entry tbl c = range.2.2 := by
  have hsize : ∀ tbl < 9, ((utf8acceptnonsurrogates.getD tbl []).map Prod.fst).sum = 256 := by
    decide
  have hc : c.toNat < ((utf8acceptnonsurrogates.getD tbl []).map Prod.fst).sum := by
    rw [hsize tbl htbl]
    exact c.toNat_lt
  rcases Block.exists_range _ 0 hc with ⟨range, hmem, hrange, he⟩
  rw [Nat.zero_add] at hrange
  exact ⟨range, hmem, hrange, he⟩

/-- A block that accepts one range of bytes. -/
theorem entry_between (tbl low count high e : Nat) (c : UInt8)
    (hblock : utf8acceptnonsurrogates.getD tbl [] = [(low, X), (count, e), (high, X)])
    (hsize : low + count + high = 256) :
    entry tbl c = if low ≤ c.toNat ∧ c.toNat < low + count then e else X := by
  have hc := c.toNat_lt
  rw [entry, hblock]
  simp only [Block.entry]
  split_ifs <;> first | rfl | omega

/-- The state before the last byte of a character. -/
theorem entry_one (c : UInt8) : entry 1 c = if 128 ≤ c.toNat ∧ c.toNat < 192 then 0 else X :=
  entry_between 1 128 64 64 0 c rfl rfl

/-- The state behind `0xE0`, which no overlong encoding leaves. -/
theorem entry_two (c : UInt8) : entry 2 c = if 160 ≤ c.toNat ∧ c.toNat < 192 then 1 else X :=
  entry_between 2 160 32 64 1 c rfl rfl

/-- The state before the last two bytes. -/
theorem entry_three (c : UInt8) : entry 3 c = if 128 ≤ c.toNat ∧ c.toNat < 192 then 1 else X :=
  entry_between 3 128 64 64 1 c rfl rfl

/-- The state behind `0xF0`, which no overlong encoding leaves. -/
theorem entry_four (c : UInt8) : entry 4 c = if 144 ≤ c.toNat ∧ c.toNat < 192 then 3 else X :=
  entry_between 4 144 48 64 3 c rfl rfl

/-- The state before the last three bytes. -/
theorem entry_five (c : UInt8) : entry 5 c = if 128 ≤ c.toNat ∧ c.toNat < 192 then 3 else X :=
  entry_between 5 128 64 64 3 c rfl rfl

/-- The state behind `0xF4`, which nothing above `0x10FFFF` leaves. -/
theorem entry_six (c : UInt8) : entry 6 c = if 128 ≤ c.toNat ∧ c.toNat < 144 then 3 else X :=
  entry_between 6 128 16 112 3 c rfl rfl

/-- The state before the last byte of a surrogate. -/
theorem entry_eight (c : UInt8) : entry 8 c = if 128 ≤ c.toNat ∧ c.toNat < 192 then RJ else X :=
  entry_between 8 128 64 64 RJ c rfl rfl

/-- The state behind `0xED`: a character, or a surrogate. -/
theorem entry_seven (c : UInt8) : entry 7 c =
    if 128 ≤ c.toNat ∧ c.toNat < 160 then 1
    else if 160 ≤ c.toNat ∧ c.toNat < 192 then 8 else X := by
  change Block.entry [(128, X), (32, 1), (32, 8), (64, X)] c.toNat = _
  have hc := c.toNat_lt
  simp only [Block.entry]
  split_ifs <;> first | rfl | omega

/-! ## The table as an automaton -/

/-- The table as an automaton that stays in an exit. -/
def automaton : DFA UInt8 Nat where
  step tbl c := if tbl < kExitIllegalStructure then entry tbl c else tbl
  start := 0
  accept := {0}

/-- A state takes a byte by the table, and an exit stays. -/
theorem automaton_step (tbl : Nat) (c : UInt8) :
    automaton.step tbl c = if tbl < kExitIllegalStructure then entry tbl c else tbl :=
  rfl

/-- A scan that comes back to the first state has read whole characters. -/
theorem automaton_returns : Returns automaton :=
  rfl

/-- Reading one byte. -/
theorem evalFrom_cons {tbl : Nat} (h : tbl < kExitIllegalStructure) (c : UInt8)
    (w : List UInt8) :
    automaton.evalFrom tbl (c :: w) = automaton.evalFrom (entry tbl c) w := by
  rw [DFA.evalFrom_cons, automaton_step, if_pos h]

/-- Behind an exit nothing is read. -/
theorem evalFrom_exit {tbl : Nat} (h : kExitIllegalStructure ≤ tbl) (w : List UInt8) :
    automaton.evalFrom tbl w = tbl := by
  induction w with
  | nil => rfl
  | cons c w ih =>
      rw [DFA.evalFrom_cons, automaton_step, if_neg (Nat.not_lt.mpr h), ih]

/-- From an exit no scan comes back. -/
theorem evalFrom_exit_ne {tbl : Nat} (h : kExitIllegalStructure ≤ tbl) (w : List UInt8) :
    automaton.evalFrom tbl w ≠ 0 := by
  rw [evalFrom_exit h]
  exact Nat.ne_of_gt (Nat.lt_of_lt_of_le (by decide) h)

/-- What leads from a state back to the start goes on with a byte. -/
theorem exists_cons_of_evalFrom {tbl : Nat} (hlt : tbl < kExitIllegalStructure) (hne : tbl ≠ 0)
    {w : List UInt8} (h : automaton.evalFrom tbl w = 0) :
    ∃ c v, w = c :: v ∧ automaton.evalFrom (entry tbl c) v = 0 := by
  cases w with
  | nil => exact absurd h hne
  | cons c v =>
      rw [evalFrom_cons hlt] at h
      exact ⟨c, v, rfl, h⟩

/-- What leads from a state with one run back to the start: a byte of the run, and what leads back
from there. -/
theorem evalFrom_between_iff {tbl low high e : Nat} (hlt : tbl < kExitIllegalStructure)
    (hne : tbl ≠ 0)
    (hentry : ∀ c, entry tbl c = if low ≤ c.toNat ∧ c.toNat < high then e else X)
    (w : List UInt8) :
    automaton.evalFrom tbl w = 0 ↔ ∃ c v, w = c :: v ∧ (low ≤ c.toNat ∧ c.toNat < high) ∧
      automaton.evalFrom e v = 0 := by
  constructor
  · intro h
    rcases exists_cons_of_evalFrom hlt hne h with ⟨c, v, rfl, hv⟩
    rw [hentry] at hv
    split_ifs at hv with hc
    · exact ⟨c, v, rfl, hc, hv⟩
    · exact absurd hv (evalFrom_exit_ne (Nat.le_refl _) v)
  · rintro ⟨c, v, rfl, hc, hv⟩
    rw [evalFrom_cons hlt, hentry, if_pos hc, hv]

/-- A scan comes back from the last byte of a character if that byte follows. -/
theorem evalFrom_one_iff (w : List UInt8) : automaton.evalFrom 1 w = 0 ↔
    ∃ c v, w = c :: v ∧ (128 ≤ c.toNat ∧ c.toNat < 192) ∧ automaton.evalFrom 0 v = 0 :=
  evalFrom_between_iff (by decide) (by decide) entry_one w

/-- The same behind `0xE0`. -/
theorem evalFrom_two_iff (w : List UInt8) : automaton.evalFrom 2 w = 0 ↔
    ∃ c v, w = c :: v ∧ (160 ≤ c.toNat ∧ c.toNat < 192) ∧ automaton.evalFrom 1 v = 0 :=
  evalFrom_between_iff (by decide) (by decide) entry_two w

/-- The same before the last two bytes. -/
theorem evalFrom_three_iff (w : List UInt8) : automaton.evalFrom 3 w = 0 ↔
    ∃ c v, w = c :: v ∧ (128 ≤ c.toNat ∧ c.toNat < 192) ∧ automaton.evalFrom 1 v = 0 :=
  evalFrom_between_iff (by decide) (by decide) entry_three w

/-- The same behind `0xF0`. -/
theorem evalFrom_four_iff (w : List UInt8) : automaton.evalFrom 4 w = 0 ↔
    ∃ c v, w = c :: v ∧ (144 ≤ c.toNat ∧ c.toNat < 192) ∧ automaton.evalFrom 3 v = 0 :=
  evalFrom_between_iff (by decide) (by decide) entry_four w

/-- The same before the last three bytes. -/
theorem evalFrom_five_iff (w : List UInt8) : automaton.evalFrom 5 w = 0 ↔
    ∃ c v, w = c :: v ∧ (128 ≤ c.toNat ∧ c.toNat < 192) ∧ automaton.evalFrom 3 v = 0 :=
  evalFrom_between_iff (by decide) (by decide) entry_five w

/-- The same behind `0xF4`. -/
theorem evalFrom_six_iff (w : List UInt8) : automaton.evalFrom 6 w = 0 ↔
    ∃ c v, w = c :: v ∧ (128 ≤ c.toNat ∧ c.toNat < 144) ∧ automaton.evalFrom 3 v = 0 :=
  evalFrom_between_iff (by decide) (by decide) entry_six w

/-- No list leads from the state behind the first two bytes of a surrogate back to the start. -/
theorem evalFrom_eight_ne (w : List UInt8) : automaton.evalFrom 8 w ≠ 0 := by
  intro h
  rcases (evalFrom_between_iff (by decide) (by decide) entry_eight w).mp h with ⟨_, v, -, -, hv⟩
  have hexit : kExitIllegalStructure ≤ RJ := by decide
  exact evalFrom_exit_ne hexit v hv

/-- The same behind `0xED`, where a surrogate does not come back. -/
theorem evalFrom_seven_iff (w : List UInt8) : automaton.evalFrom 7 w = 0 ↔
    ∃ c v, w = c :: v ∧ (128 ≤ c.toNat ∧ c.toNat < 160) ∧ automaton.evalFrom 1 v = 0 := by
  constructor
  · intro h
    rcases exists_cons_of_evalFrom (by decide) (by decide) h with ⟨c, v, rfl, hv⟩
    rw [entry_seven] at hv
    split_ifs at hv with hc hsurrogate
    · exact ⟨c, v, rfl, hc, hv⟩
    · exact absurd hv (evalFrom_eight_ne v)
    · exact absurd hv (evalFrom_exit_ne (Nat.le_refl _) v)
  · rintro ⟨c, v, rfl, hc, hv⟩
    rw [evalFrom_cons (by decide), entry_seven, if_pos hc, hv]

/-- The bytes of a character lead back to the start. -/
theorem accepts_of_isCharacter {bytes : List UInt8} (h : IsCharacter bytes) :
    bytes ∈ automaton.accepts := by
  rw [automaton_returns.mem_accepts]
  change automaton.evalFrom 0 bytes = 0
  have hone : ∀ {b}, IsTail b → automaton.evalFrom 1 [b] = 0 := fun {b} hb =>
    (evalFrom_one_iff _).mpr ⟨b, [], rfl, hb, rfl⟩
  have htwo : ∀ {b b'}, IsTail b → IsTail b' → automaton.evalFrom 3 [b, b'] = 0 :=
    fun {b b'} hb hb' => (evalFrom_three_iff _).mpr ⟨b, [b'], rfl, hb, hone hb'⟩
  cases h with
  | @one b₀ hlead =>
      rw [evalFrom_cons (by decide)]
      rcases lead_cases b₀ with ⟨_, he⟩ | hother
      · rw [he, DFA.evalFrom_nil]
      · omega
  | @two b₀ b₁ hlead h₁ =>
      rw [evalFrom_cons (by decide)]
      rcases lead_cases b₀ with hother | ⟨_, he⟩ | hother
      · omega
      · rw [he, hone h₁]
      · omega
  | @three b₀ b₁ b₂ hlead h₁ h₂ hlow hsurrogate =>
      rw [evalFrom_cons (by decide)]
      rcases lead_cases b₀ with hother | hother | ⟨hE0, he⟩ | ⟨_, he⟩ | ⟨hED, he⟩ | hother
      · omega
      · omega
      · rw [he]
        exact (evalFrom_two_iff _).mpr ⟨b₁, [b₂], rfl, ⟨hlow hE0, h₁.2⟩, hone h₂⟩
      · rw [he, htwo h₁ h₂]
      · rw [he]
        exact (evalFrom_seven_iff _).mpr ⟨b₁, [b₂], rfl, ⟨h₁.1, hsurrogate hED⟩, hone h₂⟩
      · omega
  | @four b₀ b₁ b₂ b₃ hlead h₁ h₂ h₃ hlow hhigh =>
      rw [evalFrom_cons (by decide)]
      rcases lead_cases b₀ with hother | hother | hother | hother | hother | ⟨hF0, he⟩ | ⟨_, he⟩ |
        ⟨hF4, he⟩ | hother
      · omega
      · omega
      · omega
      · omega
      · omega
      · rw [he]
        exact (evalFrom_four_iff _).mpr ⟨b₁, [b₂, b₃], rfl, ⟨hlow hF0, h₁.2⟩, htwo h₂ h₃⟩
      · rw [he]
        exact (evalFrom_five_iff _).mpr ⟨b₁, [b₂, b₃], rfl, h₁, htwo h₂ h₃⟩
      · rw [he]
        exact (evalFrom_six_iff _).mpr ⟨b₁, [b₂, b₃], rfl, ⟨h₁.1, hhigh hF4⟩, htwo h₂ h₃⟩
      · omega

/-- What leads back to the start begins with the bytes of a character. -/
theorem starts_with_character {w : List UInt8} (hw : w ∈ automaton.accepts) (hne : w ≠ []) :
    ∃ bytes v, w = bytes ++ v ∧ IsCharacter bytes := by
  rw [automaton_returns.mem_accepts] at hw
  have hone : ∀ {w}, automaton.evalFrom 1 w = 0 → ∃ b v, w = b :: v ∧ IsTail b := by
    intro w h
    rcases (evalFrom_one_iff w).mp h with ⟨b, v, rfl, hb, -⟩
    exact ⟨b, v, rfl, hb⟩
  have htwo : ∀ {w}, automaton.evalFrom 3 w = 0 →
      ∃ b b' v, w = b :: b' :: v ∧ IsTail b ∧ IsTail b' := by
    intro w h
    rcases (evalFrom_three_iff w).mp h with ⟨b, v, rfl, hb, hv⟩
    rcases hone hv with ⟨b', v, rfl, hb'⟩
    exact ⟨b, b', v, rfl, hb, hb'⟩
  cases w with
  | nil => exact absurd rfl hne
  | cons c w =>
      change automaton.evalFrom 0 (c :: w) = 0 at hw
      rw [evalFrom_cons (by decide)] at hw
      rcases lead_cases c with ⟨hc, he⟩ | ⟨hc, he⟩ | ⟨hc, he⟩ | ⟨hc, he⟩ | ⟨hc, he⟩ | ⟨hc, he⟩ |
        ⟨hc, he⟩ | ⟨hc, he⟩ | ⟨hc, he⟩
      all_goals rw [he] at hw
      · exact ⟨[c], w, rfl, .one hc⟩
      · rcases hone hw with ⟨b, v, rfl, hb⟩
        exact ⟨[c, b], v, rfl, .two hc hb⟩
      · rcases (evalFrom_two_iff w).mp hw with ⟨b, v, rfl, hb, hv⟩
        rcases hone hv with ⟨b', v, rfl, hb'⟩
        exact ⟨[c, b, b'], v, rfl,
          .three (by omega) ⟨by omega, hb.2⟩ hb' (fun _ => hb.1) fun _ => by omega⟩
      · rcases htwo hw with ⟨b, b', v, rfl, hb, hb'⟩
        exact ⟨[c, b, b'], v, rfl,
          .three (by omega) hb hb' (fun _ => by omega) fun _ => by omega⟩
      · rcases (evalFrom_seven_iff w).mp hw with ⟨b, v, rfl, hb, hv⟩
        rcases hone hv with ⟨b', v, rfl, hb'⟩
        exact ⟨[c, b, b'], v, rfl,
          .three (by omega) ⟨hb.1, by omega⟩ hb' (fun _ => by omega) fun _ => hb.2⟩
      · rcases (evalFrom_four_iff w).mp hw with ⟨b, v, rfl, hb, hv⟩
        rcases htwo hv with ⟨b', b'', v, rfl, hb', hb''⟩
        exact ⟨[c, b, b', b''], v, rfl,
          .four (by omega) ⟨by omega, hb.2⟩ hb' hb'' (fun _ => hb.1) fun _ => by omega⟩
      · rcases (evalFrom_five_iff w).mp hw with ⟨b, v, rfl, hb, hv⟩
        rcases htwo hv with ⟨b', b'', v, rfl, hb', hb''⟩
        exact ⟨[c, b, b', b''], v, rfl,
          .four (by omega) hb hb' hb'' (fun _ => by omega) fun _ => by omega⟩
      · rcases (evalFrom_six_iff w).mp hw with ⟨b, v, rfl, hb, hv⟩
        rcases htwo hv with ⟨b', b'', v, rfl, hb', hb''⟩
        exact ⟨[c, b, b', b''], v, rfl,
          .four (by omega) ⟨hb.1, by omega⟩ hb' hb'' (fun _ => by omega) fun _ => hb.2⟩
      · exact absurd hw (evalFrom_exit_ne (Nat.le_refl _) w)

/-- The table accepts exactly the encodings of characters, one behind the other. -/
theorem mem_accepts_iff (w : List UInt8) :
    w ∈ automaton.accepts ↔ IsValid w := by
  refine automaton_returns.mem_accepts_iff ?_ ?_ ?_ w
  · intro c
    exact accepts_of_isCharacter ((isCharacter_iff _).mpr ⟨c, rfl⟩)
  · intro c h
    have hcharacter := isCharacter_utf8EncodeChar c
    rw [h] at hcharacter
    cases hcharacter
  · intro w hw hne
    rcases starts_with_character hw hne with ⟨bytes, v, rfl, hbytes⟩
    rcases (isCharacter_iff bytes).mp hbytes with ⟨c, rfl⟩
    exact ⟨c, v, rfl⟩

/-- A byte that ends no character and starts none, where a character is awaited, is a tail
byte. -/
theorem isTail_of_entry {tbl : Nat} {c : UInt8} (hne : tbl ≠ 0)
    (hlt : entry tbl c < kExitIllegalStructure) : IsTail c := by
  have hrun : ∀ {low high e}, 128 ≤ low → high ≤ 192 →
      entry tbl c = (if low ≤ c.toNat ∧ c.toNat < high then e else X) → IsTail c := by
    intro low high e hlow hhigh he
    rw [he] at hlt
    by_cases hc : low ≤ c.toNat ∧ c.toNat < high
    · exact ⟨hlow.trans hc.1, hc.2.trans_le hhigh⟩
    · rw [if_neg hc] at hlt
      exact absurd hlt (by decide)
  match tbl with
  | 0 => exact absurd rfl hne
  | 1 => exact hrun (by decide) (by decide) (entry_one c)
  | 2 => exact hrun (by decide) (by decide) (entry_two c)
  | 3 => exact hrun (by decide) (by decide) (entry_three c)
  | 4 => exact hrun (by decide) (by decide) (entry_four c)
  | 5 => exact hrun (by decide) (by decide) (entry_five c)
  | 6 => exact hrun (by decide) (by decide) (entry_six c)
  | 7 =>
      rw [entry_seven] at hlt
      split_ifs at hlt with h h'
      · exact ⟨h.1, by omega⟩
      · exact ⟨by omega, h'.2⟩
      · exact absurd hlt (by decide)
  | 8 => exact hrun (by decide) (by decide) (entry_eight c)
  | tbl + 9 => exact absurd hlt (by decide : ¬ kExitNone < kExitIllegalStructure)

/-- The first byte of a character is no tail byte. -/
theorem not_isTail_of_entry {c : UInt8} (hne : entry 0 c ≠ 0)
    (hlt : entry 0 c < kExitIllegalStructure) : ¬ IsTail c := by
  rintro ⟨hlow, hhigh⟩
  rcases lead_cases c with ⟨_, he⟩ | h | h | h | h | h | h | h | ⟨_, he⟩
  · exact hne he
  all_goals first
    | omega
    | exact absurd (he ▸ hlt) (by decide)

/-- A state leads to a state or to one of two exits. -/
theorem entry_cases {tbl : Nat} (htbl : tbl < 9) (c : UInt8) :
    entry tbl c < 9 ∨ entry tbl c = X ∨ entry tbl c = RJ := by
  have htable : ∀ tbl < 9, ∀ range ∈ Block.ranges 0 (utf8acceptnonsurrogates.getD tbl []),
      range.2.2 < 9 ∨ range.2.2 = X ∨ range.2.2 = RJ := by
    decide
  rcases exists_range htbl c with ⟨range, hmem, -, he⟩
  rw [he]
  exact htable tbl htbl range hmem

/-- The table is never left but by two of the exits. -/
theorem eval_cases (w : List UInt8) :
    automaton.eval w < 9 ∨ automaton.eval w = X ∨ automaton.eval w = RJ := by
  induction w using List.reverseRecOn with
  | nil => exact Or.inl (by decide : 0 < 9)
  | append_singleton w c ih =>
      rw [DFA.eval_append_singleton, automaton_step]
      rcases ih with hlt | hX | hRJ
      · rw [if_pos (hlt.trans (by decide))]
        exact entry_cases hlt c
      · rw [hX]
        exact Or.inr (Or.inl rfl)
      · rw [hRJ]
        exact Or.inr (Or.inr rfl)

/-! ## Surrogates -/

/-- The bytes begin with what UTF-8 would encode a surrogate as. -/
def BeginsWithSurrogate (bytes : List UInt8) : Prop :=
  ∃ b₀ b₁ b₂ rest, bytes = b₀ :: b₁ :: b₂ :: rest ∧ b₀.toNat = 0xED ∧
    (0xA0 ≤ b₁.toNat ∧ b₁.toNat < 0xC0) ∧ IsTail b₂

/-- The entries on the way through a surrogate stand nowhere else in the table. -/
theorem entry_surrogate (tbl : Nat) (c : UInt8) :
    (entry tbl c = 7 → tbl = 0 ∧ c.toNat = 0xED) ∧
      (entry tbl c = 8 → tbl = 7 ∧ 0xA0 ≤ c.toNat ∧ c.toNat < 0xC0) ∧
      (entry tbl c = RJ → tbl = 8 ∧ IsTail c) := by
  by_cases htbl : tbl < 9
  · have hseven : ∀ tbl < 9, ∀ range ∈ Block.ranges 0 (utf8acceptnonsurrogates.getD tbl []),
        range.2.2 = 7 → tbl = 0 ∧ range.1 = 0xED ∧ range.2.1 = 0xEE := by
      decide
    have height : ∀ tbl < 9, ∀ range ∈ Block.ranges 0 (utf8acceptnonsurrogates.getD tbl []),
        range.2.2 = 8 → tbl = 7 ∧ range.1 = 0xA0 ∧ range.2.1 = 0xC0 := by
      decide
    have hreject : ∀ tbl < 9, ∀ range ∈ Block.ranges 0 (utf8acceptnonsurrogates.getD tbl []),
        range.2.2 = RJ → tbl = 8 ∧ range.1 = 0x80 ∧ range.2.1 = 0xC0 := by
      decide
    rcases exists_range htbl c with ⟨range, hmem, hrange, he⟩
    rw [he]
    refine ⟨fun h => ?_, fun h => ?_, fun h => ?_⟩
    · rcases hseven tbl htbl range hmem h with ⟨htbl, hbegin, hend⟩
      exact ⟨htbl, by omega⟩
    · rcases height tbl htbl range hmem h with ⟨htbl, hbegin, hend⟩
      exact ⟨htbl, by omega⟩
    · rcases hreject tbl htbl range hmem h with ⟨htbl, hbegin, hend⟩
      exact ⟨htbl, by omega, by omega⟩
  · have hnone : entry tbl c = kExitNone := by
      rw [entry, List.getD_eq_default _ _ (Nat.not_lt.mp htbl)]
      rfl
    rw [hnone]
    exact ⟨fun h => absurd h (by decide), fun h => absurd h (by decide),
      fun h => absurd h (by decide)⟩

/-- An encoded surrogate is rejected, whatever follows it. -/
theorem eval_of_beginsWithSurrogate {bytes : List UInt8} (h : BeginsWithSurrogate bytes) :
    automaton.eval bytes = RJ := by
  rcases h with ⟨b₀, b₁, b₂, rest, rfl, h₀, h₁, h₂⟩
  change automaton.evalFrom 0 _ = RJ
  rw [IsTail] at h₂
  have hlead : entry 0 b₀ = 7 := by
    rcases lead_cases b₀ with h | h | h | h | ⟨_, he⟩ | h | h | h | h
    all_goals first
      | exact he
      | omega
  rw [evalFrom_cons (by decide), hlead, evalFrom_cons (by decide), entry_seven,
    if_neg (by omega), if_pos h₁, evalFrom_cons (by decide), entry_eight, if_pos h₂,
    evalFrom_exit (by decide)]

/-- A list leads to the state of a byte from the state in which that byte is read. -/
theorem eval_concat_eq {w : List UInt8} {c : UInt8} {tbl : Nat}
    (h : automaton.eval (w ++ [c]) = tbl) :
    automaton.eval w < kExitIllegalStructure ∧ entry (automaton.eval w) c = tbl ∨
      kExitIllegalStructure ≤ tbl ∧ automaton.eval w = tbl := by
  rw [DFA.eval_append_singleton, automaton_step] at h
  split_ifs at h with hlt
  · exact Or.inl ⟨hlt, h⟩
  · exact Or.inr ⟨h ▸ Nat.not_lt.mp hlt, h⟩

/-- Nothing is left behind the longest prefix when the scan comes back. -/
theorem eq_nil_of_eval {w : List UInt8} (h : automaton.eval w = 0)
    (hlongest : LongestPrefix automaton.accepts w 0) : w = [] := by
  have hmem := (automaton_returns.mem_accepts w).mpr h
  exact List.length_eq_zero_iff.mp (hlongest.eq_length_iff.mpr hmem).symm

/-- What is left in the state behind `0xED`. -/
theorem eq_of_eval_seven {w : List UInt8} (h : automaton.eval w = 7)
    (hlongest : LongestPrefix automaton.accepts w 0) : ∃ b₀, w = [b₀] ∧ b₀.toNat = 0xED := by
  rcases List.eq_nil_or_concat' w with rfl | ⟨u, c, rfl⟩
  · exact absurd h (by decide : (0 : Nat) ≠ 7)
  · rcases eval_concat_eq h with ⟨-, hentry⟩ | ⟨hexit, -⟩
    · rcases (entry_surrogate _ c).1 hentry with ⟨hu, hc⟩
      obtain rfl := eq_nil_of_eval hu hlongest.of_append
      exact ⟨c, rfl, hc⟩
    · exact absurd hexit (by decide)

/-- What is left in the state before the last byte of a surrogate. -/
theorem eq_of_eval_eight {w : List UInt8} (h : automaton.eval w = 8)
    (hlongest : LongestPrefix automaton.accepts w 0) :
    ∃ b₀ b₁, w = [b₀, b₁] ∧ b₀.toNat = 0xED ∧ 0xA0 ≤ b₁.toNat ∧ b₁.toNat < 0xC0 := by
  rcases List.eq_nil_or_concat' w with rfl | ⟨u, c, rfl⟩
  · exact absurd h (by decide : (0 : Nat) ≠ 8)
  · rcases eval_concat_eq h with ⟨-, hentry⟩ | ⟨hexit, -⟩
    · rcases (entry_surrogate _ c).2.1 hentry with ⟨hu, hc⟩
      rcases eq_of_eval_seven hu hlongest.of_append with ⟨b₀, rfl, h₀⟩
      exact ⟨b₀, c, rfl, h₀, hc⟩
    · exact absurd hexit (by decide)

/-- Only a surrogate is rejected as one. -/
theorem beginsWithSurrogate_of_eval {w : List UInt8} (h : automaton.eval w = RJ)
    (hlongest : LongestPrefix automaton.accepts w 0) : BeginsWithSurrogate w := by
  induction w using List.reverseRecOn with
  | nil => exact absurd h (by decide : 0 ≠ RJ)
  | append_singleton u c ih =>
      rcases eval_concat_eq h with ⟨-, hentry⟩ | ⟨-, hu⟩
      · rcases (entry_surrogate _ c).2.2 hentry with ⟨hu, hc⟩
        rcases eq_of_eval_eight hu hlongest.of_append with ⟨b₀, b₁, rfl, h₀, h₁⟩
        exact ⟨b₀, b₁, c, [], rfl, h₀, h₁, hc⟩
      · rcases ih hu hlongest.of_append with ⟨b₀, b₁, b₂, rest, rfl, hbytes⟩
        exact ⟨b₀, b₁, b₂, rest ++ [c], rfl, hbytes⟩

/-- The exit for surrogates is taken exactly at a surrogate, where no character stands in front of
it. -/
theorem eval_eq_reject_iff {w : List UInt8} (hlongest : LongestPrefix automaton.accepts w 0) :
    automaton.eval w = RJ ↔ BeginsWithSurrogate w :=
  ⟨fun h => beginsWithSurrogate_of_eval h hlongest, eval_of_beginsWithSurrogate⟩

end StructurallyValid

end WeWrite.Wire
