import Mathlib.Data.Nat.Bitwise
import WeWrite.Library.WireFormat
import WeWrite.Wire.CodedInput

/-!
# What the readers read

Each reader of numbers is a fold of one step for each byte, whose state stands for a number:
the 32-bit word, the three parts of the unrolled 64-bit reader, the word of the loop.  A step
puts the seven bits of its byte at their place, so all of them read the value of the first
number of the buffer, in the size of their result.

Main results:

- Theorem `unchecked_read_is_safe`: the unrolled readers stay inside the buffer.
- Theorems `readVarint64_eq` and `readVarint32_eq`: which number is read, and what comes behind.
- Theorem `readers_agree`: the inline readers, the unrolled ones and the loop read the same.
- Theorems `readTag_nil` and `readTag_cons`: the tag at the end of the array and before it.
- Theorems `readLittleEndian32_eq_some_iff` and `readLittleEndian64_eq_some_iff`: bytes of a fixed
  number.
-/

namespace WeWrite.Wire

open Varint WireFormat

namespace CodedInputStream

/-! ## Readers as folds of a step -/

/-- Whether a byte is the last one of its number. -/
theorem high_clear_iff (b : UInt8) : b &&& 0x80 = 0 ↔ b.toNat < 128 := by
  have hlt := b.toNat_lt
  rw [← UInt8.toNat_inj, UInt8.toNat_and]
  change b.toNat &&& 2 ^ 7 = 0 ↔ b.toNat < 128
  rw [Nat.and_two_pow, Nat.testBit_eq_decide_div_mod_eq]
  by_cases hb : b.toNat < 128
  · have hbit : b.toNat / 2 ^ 7 % 2 = 0 := by omega
    rw [hbit]
    simpa using hb
  · have hbit : b.toNat / 2 ^ 7 % 2 = 1 := by omega
    rw [hbit]
    simpa using hb

/-- One byte of an unrolled reader, whose result is `view` of the state. -/
theorem unrolled_byte {σ α : Type*} {step : Nat → σ → UInt8 → σ} {view : σ → α} {left i : Nat}
    {s : σ} {result : UInt8 × List UInt8 → α}
    {more : UInt8 × List UInt8 → Option (Option (α × List UInt8))}
    (hresult : ∀ p, result p = view (step i s p.1))
    (hmore : ∀ p, more p =
      (readBytes step left (i + 1) (step i s p.1) p.2).map (Option.map (Prod.map view id)))
    (buffer : List UInt8) :
    ((next buffer).bind fun p =>
        if p.1 &&& 0x80 = 0 then some (some (result p, p.2)) else more p) =
      (readBytes step (left + 1) i s buffer).map (Option.map (Prod.map view id)) := by
  cases buffer with
  | nil => rfl
  | cons b ptr =>
      by_cases hb : b.toNat < 128
      · simp [next, readBytes, (high_clear_iff b).mpr hb, hb, hresult]
      · simp [next, readBytes, mt (high_clear_iff b).mp hb, hb, hmore]

/-- The step of `readVarint32FromArray` at position `i`. -/
def step32 (i : Nat) (result : UInt32) (b : UInt8) : UInt32 :=
  if i < 4 then result ||| (b.toUInt32 &&& 0x7F) <<< .ofNat (7 * i)
  else if i = 4 then result ||| b.toUInt32 <<< 28
  else result

/-- The step of `readVarint64FromArray` at position `i`. -/
def step64 (i : Nat) (parts : UInt32 × UInt32 × UInt32) (b : UInt8) : UInt32 × UInt32 × UInt32 :=
  let (part0, part1, part2) := parts
  if i < 4 then (part0 ||| (b.toUInt32 &&& 0x7F) <<< .ofNat (7 * i), part1, part2)
  else if i < 8 then (part0, part1 ||| (b.toUInt32 &&& 0x7F) <<< .ofNat (7 * (i - 4)), part2)
  else (part0, part1, part2 ||| (b.toUInt32 &&& 0x7F) <<< .ofNat (7 * (i - 8)))

/-- From the sixth byte on the 32-bit reader only looks for the end, as the steps that put in
nothing do. -/
theorem dropHighBits_eq (result : UInt32) (n : Nat) {i : Nat} (hi : 5 ≤ i)
    (buffer : List UInt8) : dropHighBits result n buffer =
      (readBytes step32 n i result buffer).map (Option.map (Prod.map id id)) := by
  induction n generalizing i buffer with
  | zero => rfl
  | succ n ih =>
      have hstep : ∀ b, result = step32 i result b := fun b => by
        rw [step32, if_neg (by omega), if_neg (by omega)]
      refine unrolled_byte (fun p => hstep p.1) (fun p => ?_) buffer
      rw [← hstep]
      exact ih (by omega) p.2

/-- The unrolled 32-bit reader is ten steps of a reader that goes byte by byte. -/
theorem readVarint32FromArray_eq (buffer : List UInt8) :
    readVarint32FromArray buffer =
      (readBytes step32 10 0 0 buffer).map (Option.map (Prod.map id id)) := by
  unfold readVarint32FromArray
  -- the five bytes that have bits of the result
  iterate 5
    refine unrolled_byte (fun p => ?_) (fun p => ?_) _
    · simp [step32]
  rw [dropHighBits_eq _ 5 (Nat.le_refl 5)]
  simp [step32]

/-- The unrolled 64-bit reader is ten steps that keep three parts, and the parts are joined at the
end. -/
theorem readVarint64FromArray_eq (buffer : List UInt8) :
    readVarint64FromArray buffer = (readBytes step64 10 0 (0, 0, 0) buffer).map
      (Option.map (Prod.map (fun parts => joinParts parts.1 parts.2.1 parts.2.2) id)) := by
  unfold readVarint64FromArray
  iterate 10
    refine unrolled_byte (fun p => ?_) (fun p => ?_) _
    · simp [step64]
  rfl

/-! ## What a step adds -/

/-- The seven bits of a byte. -/
theorem toNat_low_bits (b : UInt8) : (b.toUInt32 &&& 0x7F).toNat = b.toNat % 128 := by
  rw [UInt32.toNat_and, UInt8.toNat_toUInt32]
  exact Nat.and_two_pow_sub_one_eq_mod b.toNat 7

/-- The seven bits of a byte at their place in a word. -/
theorem toNat_shiftLeft_low_bits (b : UInt8) {i : Nat} (hi : i < 4) :
    ((b.toUInt32 &&& 0x7F) <<< .ofNat (7 * i)).toNat = (b.toNat % 128) <<< (7 * i) := by
  have hshift : (UInt32.ofNat (7 * i)).toNat % 32 = 7 * i := by
    rw [UInt32.toNat_ofNat']
    omega
  rw [UInt32.toNat_shiftLeft, hshift, toNat_low_bits, Nat.shiftLeft_eq, Nat.mod_eq_of_lt]
  calc b.toNat % 128 * 2 ^ (7 * i) ≤ 127 * 2 ^ 21 :=
        Nat.mul_le_mul (by omega) (Nat.pow_le_pow_right (by decide) (by omega))
    _ < 2 ^ 32 := by decide

/-- Bits that are put in above those already there are added. -/
theorem or_shiftLeft {a k : Nat} (ha : a < 2 ^ k) (b : Nat) : a ||| b <<< k = a + b * 2 ^ k := by
  rw [Nat.or_comm, ← Nat.shiftLeft_add_eq_or_of_lt ha, Nat.shiftLeft_eq, Nat.add_comm]

/-- A group of a number has seven bits. -/
theorem pow_128 (i : Nat) : 128 ^ i = 2 ^ (7 * i) := by
  rw [Nat.pow_mul]

/-- One byte of a 32-bit number adds its group, and what does not fit is lost. -/
theorem step32_toNat (i : Nat) (s : UInt32) (b : UInt8) (hs : s.toNat < 128 ^ i) :
    (step32 i s b).toNat = (s.toNat + b.toNat % 128 * 128 ^ i) % 2 ^ 32 := by
  have hlt := s.toNat_lt
  rw [pow_128] at hs ⊢
  rw [step32]
  split_ifs with hlow hlast
  · have hpow : 2 ^ (7 * i) ≤ 2 ^ 21 := Nat.pow_le_pow_right (by decide) (by omega)
    have hdigit : b.toNat % 128 * 2 ^ (7 * i) ≤ 127 * 2 ^ 21 := Nat.mul_le_mul (by omega) hpow
    rw [UInt32.toNat_or, toNat_shiftLeft_low_bits b hlow, or_shiftLeft hs]
    omega
  · subst hlast
    rw [UInt32.toNat_or, UInt32.toNat_shiftLeft, UInt8.toNat_toUInt32]
    change s.toNat ||| b.toNat <<< 28 % 2 ^ 32 = _
    have hor := or_shiftLeft hs (b.toNat % 16)
    have hbits : b.toNat <<< 28 % 2 ^ 32 = (b.toNat % 16) <<< 28 := by
      rw [Nat.shiftLeft_eq, Nat.shiftLeft_eq]
      omega
    rw [hbits, hor]
    omega
  · have hpow : 2 ^ (7 * i) = 2 ^ 32 * 2 ^ (7 * i - 32) := by
      rw [← pow_add]
      congr 1
      omega
    rw [hpow, Nat.mul_left_comm, Nat.add_mul_mod_self_left, Nat.mod_eq_of_lt hlt]

/-- The number in the three parts. -/
def viewParts (parts : UInt32 × UInt32 × UInt32) : Nat :=
  parts.1.toNat ||| parts.2.1.toNat <<< 28 ||| parts.2.2.toNat <<< 56

/-- One byte of a 64-bit number adds its group to the number that the three parts hold. -/
theorem viewParts_step64 (i : Nat) (parts : UInt32 × UInt32 × UInt32) (b : UInt8) (hi : i < 10)
    (hs : viewParts parts < 128 ^ i) :
    viewParts (step64 i parts b) = (viewParts parts + b.toNat % 128 * 128 ^ i) % 2 ^ 70 := by
  rw [pow_128] at hs ⊢
  have hstep : viewParts (step64 i parts b) = viewParts parts ||| (b.toNat % 128) <<< (7 * i) := by
    rcases parts with ⟨part0, part1, part2⟩
    rw [step64]
    split_ifs with hlow hmid
    · have hor : ∀ p q r x : Nat, p ||| x ||| q ||| r = p ||| q ||| r ||| x := by
        intros
        ac_rfl
      rw [viewParts, viewParts, UInt32.toNat_or, toNat_shiftLeft_low_bits b hlow, hor]
    · have hor : ∀ p q r x : Nat, p ||| (q ||| x) ||| r = p ||| q ||| r ||| x := by
        intros
        ac_rfl
      have hi' : 7 * (i - 4) + 28 = 7 * i := by omega
      rw [viewParts, viewParts, UInt32.toNat_or, toNat_shiftLeft_low_bits b (by omega),
        Nat.shiftLeft_or_distrib, ← Nat.shiftLeft_add, hi', hor]
    · have hi' : 7 * (i - 8) + 56 = 7 * i := by omega
      rw [viewParts, viewParts, UInt32.toNat_or, toNat_shiftLeft_low_bits b (by omega),
        Nat.shiftLeft_or_distrib, ← Nat.shiftLeft_add, hi', Nat.or_assoc _ _ (_ ||| _),
        Nat.or_assoc, Nat.or_assoc]
  have hpow : 2 ^ (7 * i) ≤ 2 ^ 63 := Nat.pow_le_pow_right (by decide) (by omega)
  have hdigit : b.toNat % 128 * 2 ^ (7 * i) ≤ 127 * 2 ^ 63 := Nat.mul_le_mul (by omega) hpow
  rw [hstep, or_shiftLeft hs]
  omega

/-- Joined, the three parts are the number that they hold, without what does not fit. -/
theorem joinParts_eq (parts : UInt32 × UInt32 × UInt32) :
    joinParts parts.1 parts.2.1 parts.2.2 = .ofNat (viewParts parts) := by
  apply UInt64.toNat.inj
  rw [UInt64.toNat_ofNat', viewParts, joinParts, UInt64.toNat_or, UInt64.toNat_or,
    UInt64.toNat_shiftLeft, UInt64.toNat_shiftLeft, Nat.or_mod_two_pow, Nat.or_mod_two_pow,
    UInt32.toNat_toUInt64, UInt32.toNat_toUInt64, UInt32.toNat_toUInt64]
  have h0 := parts.1.toNat_lt
  rw [Nat.mod_eq_of_lt (by omega : parts.1.toNat < 2 ^ 64)]
  rfl

/-- The step of `readVarint64Loop`. -/
def stepSlow (count : Nat) (result : UInt64) (b : UInt8) : UInt64 :=
  result ||| (b &&& 0x7F).toUInt64 <<< .ofNat (7 * count)

/-- The loop of the slow reader, as steps of the reader that goes byte by byte. -/
theorem readVarint64Loop_eq (left count : Nat) (result : UInt64) (buffer : List UInt8) :
    readVarint64Loop left count result buffer =
      (readBytes stepSlow left count result buffer).join := by
  induction left generalizing count result buffer with
  | zero => rfl
  | succ left ih =>
      cases buffer with
      | nil => rfl
      | cons b buffer =>
          rw [readVarint64Loop, readBytes]
          by_cases hb : b.toNat < 128
          · rw [if_neg (not_not.mpr ((high_clear_iff b).mpr hb)), if_pos hb]
            rfl
          · rw [if_pos (mt (high_clear_iff b).mp hb), if_neg hb, ih]
            rfl

/-- One byte of the slow reader adds its group. -/
theorem stepSlow_toNat (count : Nat) (s : UInt64) (b : UInt8) (hcount : count < 10)
    (hs : s.toNat < 128 ^ count) :
    (stepSlow count s b).toNat = (s.toNat + b.toNat % 128 * 128 ^ count) % 2 ^ 64 := by
  have hlt := s.toNat_lt
  have hshift : (UInt64.ofNat (7 * count)).toNat % 64 = 7 * count := by
    rw [UInt64.toNat_ofNat']
    omega
  have hbits : (b &&& 0x7F).toUInt64.toNat = b.toNat % 128 := by
    rw [UInt8.toNat_toUInt64, UInt8.toNat_and]
    exact Nat.and_two_pow_sub_one_eq_mod b.toNat 7
  rw [pow_128] at hs ⊢
  rw [stepSlow, UInt64.toNat_or, UInt64.toNat_shiftLeft, hshift, hbits, ← or_shiftLeft hs,
    Nat.or_mod_two_pow, Nat.mod_eq_of_lt hlt]

/-! ## The number that is read -/

/-- The unrolled 32-bit reader finds the number at the front, without its high bits. -/
theorem join_readVarint32FromArray (buffer : List UInt8) :
    (readVarint32FromArray buffer).join =
      (split kMaxVarintBytes buffer).map (Prod.map (fun bs => .ofNat (value bs)) id) := by
  have hresult : ∀ (s : UInt32) n, s.toNat = n % 2 ^ 32 → id s = UInt32.ofNat n := by
    intro s n hs
    apply UInt32.toNat.inj
    rw [UInt32.toNat_ofNat', id, hs]
  rw [readVarint32FromArray_eq, Option.join_map_eq_map_join]
  exact join_readBytes (fun i s b _ hs => step32_toNat i s b hs) hresult rfl (by decide) buffer

/-- The unrolled 64-bit reader finds the number at the front. -/
theorem join_readVarint64FromArray (buffer : List UInt8) :
    (readVarint64FromArray buffer).join =
      (split kMaxVarintBytes buffer).map (Prod.map (fun bs => .ofNat (value bs)) id) := by
  have hresult : ∀ parts n, viewParts parts = n % 2 ^ 70 →
      joinParts parts.1 parts.2.1 parts.2.2 = UInt64.ofNat n := by
    intro parts n hparts
    apply UInt64.toNat.inj
    rw [joinParts_eq, hparts, UInt64.toNat_ofNat', UInt64.toNat_ofNat']
    omega
  rw [readVarint64FromArray_eq, Option.join_map_eq_map_join]
  exact join_readBytes (fun i s b hi hs => viewParts_step64 i s b hi hs) hresult rfl (by decide)
    buffer

/-- So does the loop. -/
theorem readVarint64Loop_eq_split (buffer : List UInt8) :
    readVarint64Loop kMaxVarintBytes 0 0 buffer =
      (split kMaxVarintBytes buffer).map (Prod.map (fun bs => .ofNat (value bs)) id) := by
  have hresult : ∀ (s : UInt64) n, s.toNat = n % 2 ^ 64 → id s = UInt64.ofNat n := by
    intro s n hs
    apply UInt64.toNat.inj
    rw [UInt64.toNat_ofNat', id, hs]
  have hstep : ∀ i s b, i < kMaxVarintBytes → UInt64.toNat s < 128 ^ i →
      (stepSlow i s b).toNat = (s.toNat + b.toNat % 128 * 128 ^ i) % 2 ^ 64 :=
    fun i s b hi hs => stepSlow_toNat i s b hi hs
  have hread := join_readBytes hstep hresult UInt64.toNat_zero (by decide) buffer
  rwa [Prod.map_id, Option.map_id, id, ← readVarint64Loop_eq] at hread

/-- The unrolled readers stay inside the buffer when the test in front of them holds. -/
theorem unchecked_read_is_safe {input : CodedInputStream} (h : input.mayReadUnchecked = true) :
    readVarint32FromArray input.buffer ≠ none ∧ readVarint64FromArray input.buffer ≠ none := by
  have hsafe : ∀ {σ : Type} (step : Nat → σ → UInt8 → σ) s,
      readBytes step kMaxVarintBytes 0 s input.buffer ≠ none := by
    intro σ step s hnone
    rw [readBytes_eq] at hnone
    cases hsplit : split kMaxVarintBytes input.buffer with
    | some pair =>
        rw [hsplit] at hnone
        cases hnone
    | none =>
        have hlen : kMaxVarintBytes ≤ input.buffer.length := by
          rcases Bool.or_eq_true_iff.mp h with hlong | hlast
          · exact of_decide_eq_true hlong
          · rcases Option.any_eq_true _ _ |>.mp hlast with ⟨b, hb, hclear⟩
            exact le_length_of_split_eq_none hb ((high_clear_iff b).mp (by simpa using hclear))
              hsplit
        rw [hsplit, if_neg (Nat.not_lt.mpr hlen)] at hnone
        cases hnone
  rw [readVarint32FromArray_eq, readVarint64FromArray_eq]
  constructor
  · intro hnone
    exact hsafe _ _ (Option.map_eq_none_iff.mp hnone)
  · intro hnone
    exact hsafe _ _ (Option.map_eq_none_iff.mp hnone)

/-- `ReadVarint64Slow` takes the number at the front off the stream. -/
theorem readVarint64Slow_eq (input : CodedInputStream) :
    input.readVarint64Slow = (split kMaxVarintBytes input.buffer).map fun (bs, rest) =>
      (.ofNat (value bs), { input with buffer := rest }) := by
  rw [readVarint64Slow, readVarint64Loop_eq_split, Option.bind_eq_bind, Option.bind_map]
  cases split kMaxVarintBytes input.buffer <;> rfl

/-- `ReadVarint64Fallback` does so whichever reader it chooses. -/
theorem readVarint64Fallback_eq (input : CodedInputStream) :
    input.readVarint64Fallback = (split kMaxVarintBytes input.buffer).map fun (bs, rest) =>
      (.ofNat (value bs), { input with buffer := rest }) := by
  rw [readVarint64Fallback]
  split_ifs
  · rw [join_readVarint64FromArray, Option.bind_eq_bind, Option.bind_map]
    cases split kMaxVarintBytes input.buffer <;> rfl
  · exact readVarint64Slow_eq input

/-- A number of one byte, as the inline readers take it. -/
theorem split_singleton {b : UInt8} {buffer : List UInt8} (hb : b < 0x80) :
    split kMaxVarintBytes (b :: buffer) = some ([b], buffer) := by
  have hlt : b.toNat < 128 := UInt8.lt_iff_toNat_lt.mp hb
  rw [kMaxVarintBytes, split, if_pos hlt]

/-- A byte below `0x80` is the number itself. -/
theorem value_singleton {b : UInt8} (hb : b < 0x80) : value [b] = b.toNat := by
  have hlt : b.toNat < 128 := UInt8.lt_iff_toNat_lt.mp hb
  rw [value, value]
  omega

/-- `ReadVarint64` takes the number at the front off the stream, with its path for one byte. -/
theorem readVarint64_eq (input : CodedInputStream) :
    input.readVarint64 = (split kMaxVarintBytes input.buffer).map fun (bs, rest) =>
      (.ofNat (value bs), { input with buffer := rest }) := by
  rw [readVarint64]
  split
  next b buffer hbuffer =>
      split_ifs with hb
      · rw [hbuffer, split_singleton hb]
        simp [value_singleton hb]
      · rw [readVarint64Fallback_eq]
  next => exact readVarint64Fallback_eq input

/-- `ReadVarint32Fallback` does so for the low 32 bits. -/
theorem readVarint32Fallback_eq (input : CodedInputStream) :
    input.readVarint32Fallback = (split kMaxVarintBytes input.buffer).map fun (bs, rest) =>
      (.ofNat (value bs), { input with buffer := rest }) := by
  rw [readVarint32Fallback]
  split_ifs
  · rw [join_readVarint32FromArray, Option.bind_eq_bind, Option.bind_map]
    cases split kMaxVarintBytes input.buffer <;> rfl
  · rw [readVarint64Fallback_eq, Option.bind_eq_bind, Option.bind_map]
    cases split kMaxVarintBytes input.buffer with
    | none => rfl
    | some pair => simp

/-- `ReadVarint32` too, with its path for one byte. -/
theorem readVarint32_eq (input : CodedInputStream) :
    input.readVarint32 = (split kMaxVarintBytes input.buffer).map fun (bs, rest) =>
      (.ofNat (value bs), { input with buffer := rest }) := by
  rw [readVarint32]
  split
  next b buffer hbuffer =>
      split_ifs with hb
      · rw [hbuffer, split_singleton hb]
        simp [value_singleton hb]
      · rw [readVarint32Fallback_eq]
  next => exact readVarint32Fallback_eq input

/-- The unrolled readers do not run past the buffer where the test lets them run, and every way of
reading a number is the loop; the 32-bit readers drop the high bits. -/
theorem readers_agree (input : CodedInputStream) :
    (input.mayReadUnchecked = true →
        readVarint32FromArray input.buffer ≠ none ∧ readVarint64FromArray input.buffer ≠ none) ∧
      input.readVarint64Fallback = input.readVarint64Slow ∧
      input.readVarint64 = input.readVarint64Slow ∧
      input.readVarint32Fallback =
        input.readVarint64Slow.map (fun (value, input) => (value.toUInt32, input)) ∧
      input.readVarint32 =
        input.readVarint64Slow.map (fun (value, input) => (value.toUInt32, input)) := by
  have hlow : (split kMaxVarintBytes input.buffer).map (fun (bs, rest) =>
        ((.ofNat (value bs) : UInt32), { input with buffer := rest })) =
      input.readVarint64Slow.map (fun (value, input) => (value.toUInt32, input)) := by
    rw [readVarint64Slow_eq, Option.map_map]
    congr 1
    funext pair
    exact Prod.ext (UInt32.toNat_inj.mp (by simp)) rfl
  refine ⟨unchecked_read_is_safe, ?_, ?_, ?_, ?_⟩
  · rw [readVarint64Fallback_eq, readVarint64Slow_eq]
  · rw [readVarint64_eq, readVarint64Slow_eq]
  · rw [readVarint32Fallback_eq, hlow]
  · rw [readVarint32_eq, hlow]

/-! ## Tags -/

/-- At the end of the array the tag is 0, and the end is legitimate below the limit. -/
theorem readTagFallback_nil {input : CodedInputStream} (hnil : input.buffer = []) :
    input.readTagFallback = (0, { input with
      legitimateMessageEnd := decide (input.totalBytesRead ≤ kDefaultTotalBytesLimit) }) := by
  have hchecked : ¬ input.mayReadUnchecked = true := by
    rw [mayReadUnchecked, hnil]
    decide
  rw [readTagFallback, if_neg hchecked]
  by_cases hlimit : input.totalBytesRead < kDefaultTotalBytesLimit
  · rw [if_pos ⟨hnil, hlimit⟩, decide_eq_true (Nat.le_of_lt hlimit)]
  · have hend : (input.totalBytesRead == kDefaultTotalBytesLimit) =
        decide (input.totalBytesRead ≤ kDefaultTotalBytesLimit) :=
      decide_eq_decide.mpr (by omega)
    rw [if_neg (fun h => hlimit h.2), readTagSlow, if_pos hnil, if_pos (Nat.le_of_not_lt hlimit),
      hend]

/-- Before the end the tag is the number at the front, or 0 if there is none. -/
theorem readTagFallback_cons {input : CodedInputStream} (hne : input.buffer ≠ []) :
    input.readTagFallback = match split kMaxVarintBytes input.buffer with
      | some (bs, rest) => (.ofNat (value bs), { input with buffer := rest })
      | none => (0, input) := by
  have hbytes : ¬ (input.buffer = [] ∧ input.totalBytesRead < kDefaultTotalBytesLimit) :=
    fun h => hne h.1
  rw [readTagFallback, if_neg hbytes, join_readVarint32FromArray, readTagSlow, if_neg hne,
    readVarint64_eq]
  cases split kMaxVarintBytes input.buffer with
  | none => split_ifs <;> rfl
  | some pair => split_ifs <;> simp

/-- `ReadTag` at the end of the array. -/
theorem readTag_nil {input : CodedInputStream} (hnil : input.buffer = []) :
    input.readTag = (0, { input with
      lastTag := 0
      legitimateMessageEnd := decide (input.totalBytesRead ≤ kDefaultTotalBytesLimit) }) := by
  rw [readTag]
  split
  next b buffer hbuffer =>
      rw [hnil] at hbuffer
      cases hbuffer
  next => rw [readTagFallback_nil hnil]

/-- `ReadTag` before the end of the array. -/
theorem readTag_cons {input : CodedInputStream} (hne : input.buffer ≠ []) :
    input.readTag = match split kMaxVarintBytes input.buffer with
      | some (bs, rest) =>
          (.ofNat (value bs), { input with buffer := rest, lastTag := .ofNat (value bs) })
      | none => (0, { input with lastTag := 0 }) := by
  rw [readTag]
  split
  next b buffer hbuffer =>
      split_ifs with hb
      · rw [hbuffer, split_singleton hb]
        simp [value_singleton hb]
      · rw [readTagFallback_cons hne]
        cases split kMaxVarintBytes input.buffer <;> rfl
  next hnil => exact (hne hnil).elim

/-! ## Numbers and tags on the wire -/

/-- A number is split off what follows it. -/
theorem split_append_isNumber {bs : List UInt8} (hbs : IsNumber bs) (rest : List UInt8) :
    split kMaxVarintBytes (bs ++ rest) = some (bs, rest) :=
  split_append rest hbs.varint hbs.length

/-- What is split off is a number. -/
theorem isNumber_of_split {buffer bs rest : List UInt8}
    (h : split kMaxVarintBytes buffer = some (bs, rest)) : IsNumber bs ∧ buffer = bs ++ rest := by
  rcases split_eq_some_iff.mp h with ⟨hbs, hlength, hbuffer⟩
  exact ⟨⟨hbs, hlength⟩, hbuffer⟩

/-- A number on the stream is read. -/
theorem readVarint64_append {input : CodedInputStream} {bs rest : List UInt8} (hbs : IsNumber bs)
    (hbuffer : input.buffer = bs ++ rest) :
    input.readVarint64 = some (.ofNat (value bs), { input with buffer := rest }) := by
  rw [readVarint64_eq, hbuffer, split_append_isNumber hbs, Option.map_some]

/-- What `ReadVarint64` has read was a number on the stream. -/
theorem readVarint64_eq_some {input input' : CodedInputStream} {v : UInt64}
    (h : input.readVarint64 = some (v, input')) :
    ∃ bs, IsNumber bs ∧ input.buffer = bs ++ input'.buffer ∧ v = .ofNat (value bs) ∧
      input' = { input with buffer := input'.buffer } := by
  rw [readVarint64_eq] at h
  rcases Option.map_eq_some_iff.mp h with ⟨⟨bs, rest⟩, hsplit, heq⟩
  obtain ⟨rfl, rfl⟩ := Prod.mk.inj heq
  rcases isNumber_of_split hsplit with ⟨hbs, hbuffer⟩
  exact ⟨bs, hbs, hbuffer, rfl, rfl⟩

/-- A number on the stream is read without its high bits. -/
theorem readVarint32_append {input : CodedInputStream} {bs rest : List UInt8} (hbs : IsNumber bs)
    (hbuffer : input.buffer = bs ++ rest) :
    input.readVarint32 = some (.ofNat (value bs), { input with buffer := rest }) := by
  rw [readVarint32_eq, hbuffer, split_append_isNumber hbs, Option.map_some]

/-- What `ReadVarint32` has read was a number on the stream, without its high bits. -/
theorem readVarint32_eq_some {input input' : CodedInputStream} {v : UInt32}
    (h : input.readVarint32 = some (v, input')) :
    ∃ bs, IsNumber bs ∧ input.buffer = bs ++ input'.buffer ∧ v = .ofNat (value bs) ∧
      input' = { input with buffer := input'.buffer } := by
  rw [readVarint32_eq] at h
  rcases Option.map_eq_some_iff.mp h with ⟨⟨bs, rest⟩, hsplit, heq⟩
  obtain ⟨rfl, rfl⟩ := Prod.mk.inj heq
  rcases isNumber_of_split hsplit with ⟨hbs, hbuffer⟩
  exact ⟨bs, hbs, hbuffer, rfl, rfl⟩

/-- A number on the stream is read as a tag, and remembered as the last one. -/
theorem readTag_append {input : CodedInputStream} {bs rest : List UInt8} (hbs : IsNumber bs)
    (hbuffer : input.buffer = bs ++ rest) :
    input.readTag = (.ofNat (value bs),
      { input with buffer := rest, lastTag := .ofNat (value bs) }) := by
  have hne : input.buffer ≠ [] := by
    intro hnil
    rw [hnil] at hbuffer
    have hbs' := hbs.varint
    rw [(List.append_eq_nil_iff.mp hbuffer.symm).1] at hbs'
    exact hbs'
  rw [readTag_cons hne, hbuffer, split_append_isNumber hbs]

/-- A tag other than 0 stands on the wire. -/
theorem readTag_of_ne_zero {input input' : CodedInputStream} {tag : UInt32}
    (h : input.readTag = (tag, input')) (htag : tag ≠ 0) :
    ∃ bs, IsNumber bs ∧ input.buffer = bs ++ input'.buffer ∧ tag = .ofNat (value bs) ∧
      input' = { input with buffer := input'.buffer, lastTag := tag } := by
  by_cases hnil : input.buffer = []
  · rw [readTag_nil hnil] at h
    exact (htag (Prod.mk.inj h).1.symm).elim
  · rw [readTag_cons hnil] at h
    cases hsplit : split kMaxVarintBytes input.buffer with
    | none =>
        rw [hsplit] at h
        exact (htag (Prod.mk.inj h).1.symm).elim
    | some pair =>
        rw [hsplit] at h
        obtain ⟨rfl, rfl⟩ := Prod.mk.inj h
        rcases isNumber_of_split hsplit with ⟨hbs, hbuffer⟩
        exact ⟨pair.1, hbs, hbuffer, rfl, rfl⟩

/-- The last tag is the one that was read. -/
theorem lastTag_readTag {input input' : CodedInputStream} {tag : UInt32}
    (h : input.readTag = (tag, input')) : input'.lastTag = tag := by
  by_cases hnil : input.buffer = []
  · rw [readTag_nil hnil] at h
    obtain ⟨rfl, rfl⟩ := Prod.mk.inj h
    rfl
  · rw [readTag_cons hnil] at h
    cases hsplit : split kMaxVarintBytes input.buffer with
    | none =>
        rw [hsplit] at h
        obtain ⟨rfl, rfl⟩ := Prod.mk.inj h
        rfl
    | some pair =>
        rw [hsplit] at h
        obtain ⟨rfl, rfl⟩ := Prod.mk.inj h
        rfl

/-! ## Bytes of a fixed number -/

/-- A byte that is shifted within a word loses nothing. -/
theorem toNat_shiftLeft_byte (b : UInt8) {k : Nat} (hk : k ≤ 24) :
    (b.toUInt32 <<< .ofNat k).toNat = b.toNat <<< k := by
  have hlt := b.toNat_lt
  have hshift : (UInt32.ofNat k).toNat % 32 = k := by
    rw [UInt32.toNat_ofNat']
    omega
  rw [UInt32.toNat_shiftLeft, hshift, UInt8.toNat_toUInt32, Nat.shiftLeft_eq, Nat.mod_eq_of_lt]
  calc b.toNat * 2 ^ k ≤ 255 * 2 ^ 24 :=
        Nat.mul_le_mul (by omega) (Nat.pow_le_pow_right (by decide) hk)
    _ < 2 ^ 32 := by decide

/-- Four bytes put together are the word that they write, the lowest first. -/
theorem toNat_four_bytes (b0 b1 b2 b3 : UInt8) :
    (b0.toUInt32 ||| b1.toUInt32 <<< 8 ||| b2.toUInt32 <<< 16 ||| b3.toUInt32 <<< 24).toNat =
      ofLittleEndian [b0, b1, b2, b3] := by
  have h0 := b0.toNat_lt
  have h1 := b1.toNat_lt
  have h2 := b2.toNat_lt
  have hbyte1 : (b1.toUInt32 <<< 8).toNat = b1.toNat <<< 8 := toNat_shiftLeft_byte b1 (by decide)
  have hbyte2 : (b2.toUInt32 <<< 16).toNat = b2.toNat <<< 16 :=
    toNat_shiftLeft_byte b2 (by decide)
  have hbyte3 : (b3.toUInt32 <<< 24).toNat = b3.toNat <<< 24 :=
    toNat_shiftLeft_byte b3 (by decide)
  have hor1 := or_shiftLeft (k := 8) h0 b1.toNat
  have hor2 := or_shiftLeft (k := 16) (a := b0.toNat + b1.toNat * 2 ^ 8) (by omega) b2.toNat
  have hor3 := or_shiftLeft (k := 24) (a := b0.toNat + b1.toNat * 2 ^ 8 + b2.toNat * 2 ^ 16)
    (by omega) b3.toNat
  rw [UInt32.toNat_or, UInt32.toNat_or, UInt32.toNat_or, UInt8.toNat_toUInt32, hbyte1, hbyte2,
    hbyte3, hor1, hor2, hor3]
  simp only [ofLittleEndian]
  omega

/-- `ReadLittleEndian32` reads the four bytes of a word. -/
theorem readLittleEndian32_eq_some_iff {input input' : CodedInputStream} {value : UInt32} :
    input.readLittleEndian32 = some (value, input') ↔
      input.buffer = littleEndian 4 value.toNat ++ input'.buffer ∧
        input' = { input with buffer := input'.buffer } := by
  constructor
  · intro h
    rw [readLittleEndian32] at h
    split at h
    next b0 b1 b2 b3 buffer hbuffer =>
        obtain ⟨rfl, rfl⟩ := Prod.mk.inj (Option.some.inj h)
        have hback := littleEndian_ofLittleEndian [b0, b1, b2, b3]
        rw [← toNat_four_bytes] at hback
        exact ⟨hbuffer.trans (congrArg (· ++ buffer) hback).symm, rfl⟩
    next => cases h
  · rintro ⟨hbuffer, hinput⟩
    obtain ⟨b0, b1, b2, b3, hbytes⟩ :
        ∃ b0 b1 b2 b3, littleEndian 4 value.toNat = [b0, b1, b2, b3] := ⟨_, _, _, _, rfl⟩
    have hvalue : b0.toUInt32 ||| b1.toUInt32 <<< 8 ||| b2.toUInt32 <<< 16 |||
        b3.toUInt32 <<< 24 = value := by
      apply UInt32.toNat.inj
      rw [toNat_four_bytes, ← hbytes, ofLittleEndian_littleEndian]
      exact Nat.mod_eq_of_lt value.toNat_lt
    rw [hinput, readLittleEndian32, hbuffer, hbytes]
    simp only [List.cons_append, List.nil_append, hvalue]

/-- Two words put together. -/
theorem toNat_two_words (part0 part1 : UInt32) :
    (part0.toUInt64 ||| part1.toUInt64 <<< 32).toNat = part0.toNat + part1.toNat * 2 ^ 32 := by
  have h0 := part0.toNat_lt
  have h1 := part1.toNat_lt
  have hhigh : (part1.toUInt64 <<< 32).toNat = part1.toNat <<< 32 := by
    rw [UInt64.toNat_shiftLeft, UInt32.toNat_toUInt64]
    change part1.toNat <<< 32 % 2 ^ 64 = _
    rw [Nat.shiftLeft_eq, Nat.mod_eq_of_lt (by omega)]
  rw [UInt64.toNat_or, UInt32.toNat_toUInt64, hhigh, or_shiftLeft h0]

/-- The eight bytes of two words are those of the one behind those of the other. -/
theorem littleEndian_two_words (part0 part1 : UInt32) :
    littleEndian 8 (part0.toNat + part1.toNat * 2 ^ 32) =
      littleEndian 4 part0.toNat ++ littleEndian 4 part1.toNat := by
  have h0 := part0.toNat_lt
  have hlow : (part0.toNat + part1.toNat * 2 ^ 32) % 256 ^ 4 = part0.toNat := by omega
  have hhigh : (part0.toNat + part1.toNat * 2 ^ 32) / 256 ^ 4 = part1.toNat := by omega
  rw [littleEndian_add 4 4, ← littleEndian_mod 4 (part0.toNat + _), hlow, hhigh]

/-- `ReadLittleEndian64` reads the eight bytes of two words. -/
theorem readLittleEndian64_eq_some_iff {input input' : CodedInputStream} {value : UInt64} :
    input.readLittleEndian64 = some (value, input') ↔
      input.buffer = littleEndian 8 value.toNat ++ input'.buffer ∧
        input' = { input with buffer := input'.buffer } := by
  simp only [readLittleEndian64, Option.bind_eq_bind, Option.bind_eq_some_iff, Prod.exists,
    readLittleEndian32_eq_some_iff, Option.some.injEq, Prod.mk.injEq]
  constructor
  · rintro ⟨part0, input1, ⟨hbuffer, hinput1⟩, part1, input2, ⟨hbuffer1, hinput2⟩, rfl, rfl⟩
    rw [toNat_two_words, littleEndian_two_words, hbuffer, hbuffer1, List.append_assoc]
    exact ⟨rfl, by rw [hinput2, hinput1]⟩
  · rintro ⟨hbuffer, hinput⟩
    have hvalue : value.toUInt32.toUInt64 ||| (value >>> 32).toUInt32.toUInt64 <<< 32 = value := by
      apply UInt64.toNat.inj
      have hlt := value.toNat_lt
      have hhigh : (value >>> 32).toUInt32.toNat = value.toNat / 2 ^ 32 % 2 ^ 32 := by
        rw [UInt64.toNat_toUInt32, UInt64.toNat_shiftRight]
        change value.toNat >>> 32 % 2 ^ 32 = _
        rw [Nat.shiftRight_eq_div_pow]
      rw [toNat_two_words, UInt64.toNat_toUInt32, hhigh]
      omega
    rw [← hvalue, toNat_two_words, littleEndian_two_words, List.append_assoc] at hbuffer
    exact ⟨value.toUInt32, { input with
        buffer := littleEndian 4 (value >>> 32).toUInt32.toNat ++ input'.buffer },
      ⟨hbuffer, rfl⟩, (value >>> 32).toUInt32, input', ⟨rfl, hinput⟩, hvalue, rfl⟩

/-! ## Strings -/

/-- A string that is all there. -/
theorem readString_append {input : CodedInputStream} {data rest : List UInt8} (old : List UInt8)
    (hbuffer : input.buffer = data ++ rest) :
    input.readString old data.length = (true, data, { input with buffer := rest }) := by
  have hlength : (data.length : Int) ≤ input.buffer.length := by
    rw [hbuffer, List.length_append]
    omega
  rw [readString, if_neg (by omega), if_pos hlength, Int.toNat_natCast, hbuffer, List.take_left,
    List.drop_left]

/-- A string that was read stood on the stream, and had the size that was asked for. -/
theorem readString_eq_true {input input' : CodedInputStream} {old data : List UInt8} {size : Int}
    (h : input.readString old size = (true, data, input')) :
    input.buffer = data ++ input'.buffer ∧ size = data.length ∧
      input' = { input with buffer := input'.buffer } := by
  rw [readString] at h
  split_ifs at h with hneg hsize
  · cases (Prod.mk.inj h).1
  · obtain ⟨-, rfl, rfl⟩ : true = true ∧ _ = data ∧ _ = input' := by simpa using h
    refine ⟨(List.take_append_drop _ _).symm, ?_, rfl⟩
    rw [List.length_take]
    omega
  · cases (Prod.mk.inj h).1

end CodedInputStream

end WeWrite.Wire
