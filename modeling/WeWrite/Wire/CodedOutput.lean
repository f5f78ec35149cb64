import WeWrite.Library.WireFormat

/-!
# Writing numbers

The output side of the coded streams.  The app serializes into one array that is large
enough, so a writer returns the bytes that it puts at its target.  A number of up to 64 bits is
cut into three pieces of 32 bits, its size is found by a search tree, and its bytes are written
from the last one down.

Main results:

- Theorem `writeVarint64ToArrayInline_eq`: the unrolled writer produces the shortest encoding.
- Theorem `writeVarint64Slow_eq`: so does the loop.
- Theorems `varintSize32_eq` and `varintSize64_eq`: the sizes are the lengths.
- Theorem `writers_agree`: the optimized writers, the loop and the sizes agree.
-/

namespace WeWrite.Wire

/-! ## Writing numbers -/

/-- The size that `WriteVarint64ToArrayInline` finds for its three pieces. -/
def varint64ArraySize (part0 part1 part2 : UInt32) : Nat :=
  if part2 = 0 then
    if part1 = 0 then
      if part0.toNat < 1 <<< 14 then
        if part0.toNat < 1 <<< 7 then 1 else 2
      else
        if part0.toNat < 1 <<< 21 then 3 else 4
    else
      if part1.toNat < 1 <<< 14 then
        if part1.toNat < 1 <<< 7 then 5 else 6
      else
        if part1.toNat < 1 <<< 21 then 7 else 8
  else
    if part2.toNat < 1 <<< 7 then 9 else 10

/-- `CodedOutputStream::WriteVarint64ToArrayInline`. -/
def writeVarint64ToArrayInline (value : UInt64) : List UInt8 :=
  let part0 := value.toUInt32
  let part1 := (value >>> 28).toUInt32
  let part2 := (value >>> 56).toUInt32
  let size := varint64ArraySize part0 part1 part2
  -- the labels `size10` to `size1` fall through, so every byte below the size is written
  let target := [
    (part0 ||| 0x80).toUInt8, (part0 >>> 7 ||| 0x80).toUInt8,
    (part0 >>> 14 ||| 0x80).toUInt8, (part0 >>> 21 ||| 0x80).toUInt8,
    (part1 ||| 0x80).toUInt8, (part1 >>> 7 ||| 0x80).toUInt8,
    (part1 >>> 14 ||| 0x80).toUInt8, (part1 >>> 21 ||| 0x80).toUInt8,
    (part2 ||| 0x80).toUInt8, (part2 >>> 7 ||| 0x80).toUInt8].take size
  target.modify (size - 1) (· &&& 0x7F)

/-- The loop of `CodedOutputStream::WriteVarint64`, for a buffer that may end. -/
def writeVarint64Slow (value : UInt64) : List UInt8 :=
  if 0x7F < value then
    ((value.toUInt8 &&& 0x7F) ||| 0x80) :: writeVarint64Slow (value >>> 7)
  else
    [value.toUInt8 &&& 0x7F]
termination_by value.toNat
decreasing_by
  rename_i hmore
  have hlt : 127 < value.toNat := UInt64.lt_iff_toNat_lt.mp hmore
  rw [UInt64.toNat_shiftRight]
  change value.toNat >>> 7 < value.toNat
  rw [Nat.shiftRight_eq_div_pow]
  omega

/-- `CodedOutputStream::WriteVarint32FallbackToArrayInline`. -/
def writeVarint32FallbackToArrayInline (value : UInt32) : List UInt8 :=
  let target0 := (value ||| 0x80).toUInt8
  if 1 <<< 7 ≤ value.toNat then
    let target1 := (value >>> 7 ||| 0x80).toUInt8
    if 1 <<< 14 ≤ value.toNat then
      let target2 := (value >>> 14 ||| 0x80).toUInt8
      if 1 <<< 21 ≤ value.toNat then
        let target3 := (value >>> 21 ||| 0x80).toUInt8
        if 1 <<< 28 ≤ value.toNat then
          [target0, target1, target2, target3, (value >>> 28).toUInt8]
        else
          [target0, target1, target2, target3 &&& 0x7F]
      else
        [target0, target1, target2 &&& 0x7F]
    else
      [target0, target1 &&& 0x7F]
  else
    [target0 &&& 0x7F]

/-- `CodedOutputStream::WriteVarint32ToArray`. -/
def writeVarint32ToArray (value : UInt32) : List UInt8 :=
  if value < 0x80 then [value.toUInt8] else writeVarint32FallbackToArrayInline value

/-- `CodedOutputStream::WriteTagToArray`. -/
def writeTagToArray (value : UInt32) : List UInt8 :=
  if value.toNat < 1 <<< 7 then
    [value.toUInt8]
  else if value.toNat < 1 <<< 14 then
    [(value ||| 0x80).toUInt8, (value >>> 7).toUInt8]
  else
    writeVarint32FallbackToArrayInline value

/-- `CodedOutputStream::VarintSize32`, with its fallback. -/
def varintSize32 (value : UInt32) : Nat :=
  if value.toNat < 1 <<< 7 then 1
  else if value.toNat < 1 <<< 14 then 2
  else if value.toNat < 1 <<< 21 then 3
  else if value.toNat < 1 <<< 28 then 4
  else 5

/-- `CodedOutputStream::VarintSize64`. -/
def varintSize64 (value : UInt64) : Nat :=
  if value.toNat < 1 <<< 35 then
    if value.toNat < 1 <<< 7 then 1
    else if value.toNat < 1 <<< 14 then 2
    else if value.toNat < 1 <<< 21 then 3
    else if value.toNat < 1 <<< 28 then 4
    else 5
  else
    if value.toNat < 1 <<< 42 then 6
    else if value.toNat < 1 <<< 49 then 7
    else if value.toNat < 1 <<< 56 then 8
    else if value.toNat < 1 <<< 63 then 9
    else 10

/-- `CodedOutputStream::WriteLittleEndian32ToArray`. -/
def writeLittleEndian32ToArray (value : UInt32) : List UInt8 :=
  [value.toUInt8, (value >>> 8).toUInt8, (value >>> 16).toUInt8, (value >>> 24).toUInt8]

/-- `CodedOutputStream::WriteLittleEndian64ToArray`. -/
def writeLittleEndian64ToArray (value : UInt64) : List UInt8 :=
  let part0 := value.toUInt32
  let part1 := (value >>> 32).toUInt32
  [part0.toUInt8, (part0 >>> 8).toUInt8, (part0 >>> 16).toUInt8, (part0 >>> 24).toUInt8,
    part1.toUInt8, (part1 >>> 8).toUInt8, (part1 >>> 16).toUInt8, (part1 >>> 24).toUInt8]

/-- `CodedOutputStream::WriteRawToArray`: the bytes that `memcpy` copies.  Of a negative size that
is undefined; here nothing is copied then, and no result is about it. -/
def writeRawToArray (data : List UInt8) (size : Int32) : List UInt8 :=
  data.take size.toInt.toNat

/-- `CodedOutputStream::WriteStringToArray`, which casts the size of the string to an `int`. -/
def writeStringToArray (str : List UInt8) : List UInt8 :=
  writeRawToArray str (.ofNat str.length)

/-- A string whose size is an `int` is copied as it is. -/
theorem writeStringToArray_of_lt {str : List UInt8} (hlt : str.length < 2 ^ 31) :
    writeStringToArray str = str := by
  rw [writeStringToArray, writeRawToArray, Int32.toInt_ofNat_of_lt hlt, Int.toNat_natCast,
    List.take_length]

/-! ### Pieces and bytes -/

/-- The lowest piece has the low 32 bits. -/
theorem toNat_part0 (value : UInt64) : value.toUInt32.toNat = value.toNat % 2 ^ 32 := by
  rw [UInt64.toNat_toUInt32]

/-- The second piece starts at bit 28. -/
theorem toNat_part1 (value : UInt64) :
    (value >>> 28).toUInt32.toNat = value.toNat / 2 ^ 28 % 2 ^ 32 := by
  rw [UInt64.toNat_toUInt32, UInt64.toNat_shiftRight]
  change value.toNat >>> 28 % 2 ^ 32 = _
  rw [Nat.shiftRight_eq_div_pow]

/-- The third piece starts at bit 56. -/
theorem toNat_part2 (value : UInt64) :
    (value >>> 56).toUInt32.toNat = value.toNat / 2 ^ 56 % 2 ^ 32 := by
  rw [UInt64.toNat_toUInt32, UInt64.toNat_shiftRight]
  change value.toNat >>> 56 % 2 ^ 32 = _
  rw [Nat.shiftRight_eq_div_pow]

/-- A byte written with its high bit set. -/
theorem toUInt8_high (x : UInt32) : (x ||| 0x80).toUInt8 = .ofNat (x.toNat % 128 + 128) := by
  apply UInt8.toNat.inj
  rw [Varint.toNat_high, UInt32.toNat_toUInt8, UInt32.toNat_or]
  change (x.toNat ||| 2 ^ 7) % 2 ^ 8 = _
  rw [Nat.or_mod_two_pow]
  have hlow : x.toNat % 2 ^ 8 = 2 ^ 7 * (x.toNat / 128 % 2) + x.toNat % 128 := by omega
  have hbits := Nat.two_pow_add_eq_or_of_lt (i := 7) (b := x.toNat % 128) (by omega)
  rw [hlow, hbits, Nat.or_assoc, Nat.or_comm (x.toNat % 128), ← Nat.or_assoc]
  have htop : 2 ^ 7 * (x.toNat / 128 % 2) ||| 2 ^ 7 % 2 ^ 8 = 2 ^ 7 * 1 := by
    rcases Nat.mod_two_eq_zero_or_one (x.toNat / 128) with h | h <;> rw [h] <;> rfl
  rw [htop, ← hbits]
  omega

/-- A byte of a shifted piece, written with its high bit set. -/
theorem toUInt8_shiftRight_high (x : UInt32) (k : Nat) (hk : k < 32) :
    (x >>> .ofNat k ||| 0x80).toUInt8 = .ofNat (x.toNat / 2 ^ k % 128 + 128) := by
  have hmod : (UInt32.ofNat k).toNat % 32 = k := by
    rw [UInt32.toNat_ofNat']
    omega
  rw [toUInt8_high, UInt32.toNat_shiftRight, hmod, Nat.shiftRight_eq_div_pow]

/-! ### The shortest encodings -/

/-- The size that is found is the length of the shortest encoding. -/
theorem varint64ArraySize_spec (value : UInt64) :
    ∃ k, varint64ArraySize value.toUInt32 (value >>> 28).toUInt32 (value >>> 56).toUInt32 =
        k + 1 ∧ k < 10 ∧ value.toNat < 128 ^ (k + 1) ∧ (k = 0 ∨ 128 ^ k ≤ value.toNat) := by
  have hlt := value.toNat_lt
  have h0 := toNat_part0 value
  have h1 := toNat_part1 value
  have h2 := toNat_part2 value
  unfold varint64ArraySize
  simp only [← UInt32.toNat_inj, UInt32.toNat_zero, h0, h1, h2]
  split_ifs
  · exact ⟨0, rfl, by omega, by omega, by omega⟩
  · exact ⟨1, rfl, by omega, by omega, by omega⟩
  · exact ⟨2, rfl, by omega, by omega, by omega⟩
  · exact ⟨3, rfl, by omega, by omega, by omega⟩
  · exact ⟨4, rfl, by omega, by omega, by omega⟩
  · exact ⟨5, rfl, by omega, by omega, by omega⟩
  · exact ⟨6, rfl, by omega, by omega, by omega⟩
  · exact ⟨7, rfl, by omega, by omega, by omega⟩
  · exact ⟨8, rfl, by omega, by omega, by omega⟩
  · exact ⟨9, rfl, by omega, by omega, by omega⟩

/-- The ten bytes at the labels are the seven-bit groups of the number, with the high bit. -/
theorem target_eq (value : UInt64) :
    [(value.toUInt32 ||| 0x80).toUInt8, (value.toUInt32 >>> 7 ||| 0x80).toUInt8,
      (value.toUInt32 >>> 14 ||| 0x80).toUInt8, (value.toUInt32 >>> 21 ||| 0x80).toUInt8,
      ((value >>> 28).toUInt32 ||| 0x80).toUInt8, ((value >>> 28).toUInt32 >>> 7 ||| 0x80).toUInt8,
      ((value >>> 28).toUInt32 >>> 14 ||| 0x80).toUInt8,
      ((value >>> 28).toUInt32 >>> 21 ||| 0x80).toUInt8,
      ((value >>> 56).toUInt32 ||| 0x80).toUInt8,
      ((value >>> 56).toUInt32 >>> 7 ||| 0x80).toUInt8] =
    (List.range 10).map fun i => UInt8.ofNat (value.toNat / 128 ^ i % 128 + 128) := by
  have hlt := value.toNat_lt
  have h0 := toNat_part0 value
  have h1 := toNat_part1 value
  have h2 := toNat_part2 value
  have hshift : ∀ (x : UInt32) (k i : Nat), k < 32 →
      x.toNat / 2 ^ k % 128 = value.toNat / 128 ^ i % 128 →
      (x >>> .ofNat k ||| 0x80).toUInt8 = UInt8.ofNat (value.toNat / 128 ^ i % 128 + 128) :=
    fun x k i hk heq => by rw [toUInt8_shiftRight_high x k hk, heq]
  have hfirst : ∀ (x : UInt32) (i : Nat), x.toNat % 128 = value.toNat / 128 ^ i % 128 →
      (x ||| 0x80).toUInt8 = UInt8.ofNat (value.toNat / 128 ^ i % 128 + 128) :=
    fun x i heq => by rw [toUInt8_high x, heq]
  simp only [List.range_succ_eq_map, List.range_zero, List.map_cons, List.map_nil, List.cons.injEq,
    and_true]
  refine ⟨hfirst _ 0 ?_, hshift _ 7 1 ?_ ?_, hshift _ 14 2 ?_ ?_, hshift _ 21 3 ?_ ?_,
    hfirst _ 4 ?_, hshift _ 7 5 ?_ ?_, hshift _ 14 6 ?_ ?_, hshift _ 21 7 ?_ ?_,
    hfirst _ 8 ?_, hshift _ 7 9 ?_ ?_⟩ <;> omega

/-- The unrolled writer produces the shortest encoding. -/
theorem writeVarint64ToArrayInline_eq (value : UInt64) :
    writeVarint64ToArrayInline value = Varint.encode value.toNat := by
  rcases varint64ArraySize_spec value with ⟨k, hsize, hk, hlt, hge⟩
  simp only [writeVarint64ToArrayInline, hsize, target_eq]
  rw [Varint.encode_eq_map hlt hge, ← List.map_take, List.take_range, Nat.min_eq_left (by omega),
    Nat.add_sub_cancel]

/-- Clearing the high bit of the last byte leaves its group. -/
theorem low_byte (n : Nat) : UInt8.ofNat (n % 128 + 128) &&& 0x7F = .ofNat (n % 128) := by
  apply UInt8.toNat.inj
  have hmask := Nat.and_two_pow_sub_one_eq_mod (n % 128 + 128) 7
  rw [UInt8.toNat_and, Varint.toNat_high, Varint.toNat_low (by omega)]
  change n % 128 + 128 &&& 2 ^ 7 - 1 = n % 128
  rw [hmask]
  omega

/-- The seven low bits of a number, as a byte. -/
theorem toUInt8_low (value : UInt64) : value.toUInt8 &&& 0x7F = .ofNat (value.toNat % 128) := by
  apply UInt8.toNat.inj
  have hmask := Nat.and_two_pow_sub_one_eq_mod (value.toNat % 256) 7
  rw [UInt8.toNat_and, UInt64.toNat_toUInt8, Varint.toNat_low (by omega)]
  change value.toNat % 256 &&& 2 ^ 7 - 1 = value.toNat % 128
  rw [hmask]
  omega

/-- Setting the high bit of a group. -/
theorem low_or_high (n : Nat) :
    UInt8.ofNat (n % 128) ||| 0x80 = .ofNat (n % 128 + 128) := by
  apply UInt8.toNat.inj
  have hbits := Nat.two_pow_add_eq_or_of_lt (i := 7) (b := n % 128) (by omega) 1
  rw [UInt8.toNat_or, Varint.toNat_low (by omega), Varint.toNat_high, Nat.or_comm]
  change 2 ^ 7 * 1 ||| n % 128 = n % 128 + 128
  rw [← hbits]
  omega

/-- The loop produces the shortest encoding. -/
theorem writeVarint64Slow_eq (value : UInt64) :
    writeVarint64Slow value = Varint.encode value.toNat := by
  have key : ∀ n value, UInt64.toNat value = n → writeVarint64Slow value = Varint.encode n := by
    intro n
    induction n using Varint.encode_induction with
    | hlast n hn =>
        rintro value rfl
        have hnot : ¬ 0x7F < value := by
          rw [UInt64.lt_iff_toNat_lt]
          change ¬ 127 < value.toNat
          omega
        rw [writeVarint64Slow, if_neg hnot, Varint.encode_of_lt hn, toUInt8_low,
          Nat.mod_eq_of_lt hn]
    | hmore n hn ih =>
        rintro value rfl
        have hmore : 0x7F < value := by
          rw [UInt64.lt_iff_toNat_lt]
          change 127 < value.toNat
          omega
        have hrest : (value >>> 7).toNat = value.toNat / 128 := by
          rw [UInt64.toNat_shiftRight]
          change value.toNat >>> 7 = value.toNat / 128
          rw [Nat.shiftRight_eq_div_pow]
        rw [writeVarint64Slow, if_pos hmore, Varint.encode_of_ge hn, ih (value >>> 7) hrest]
        rw [toUInt8_low, low_or_high]
  exact key value.toNat value rfl

/-- The unrolled 32-bit writer produces the shortest encoding. -/
theorem writeVarint32FallbackToArrayInline_eq (value : UInt32) :
    writeVarint32FallbackToArrayInline value = Varint.encode value.toNat := by
  have hlt := value.toNat_lt
  have hshift : ∀ k i : Nat, k < 32 → value.toNat / 2 ^ k % 128 = value.toNat / 128 ^ i % 128 →
      (value >>> .ofNat k ||| 0x80).toUInt8 = UInt8.ofNat (value.toNat / 128 ^ i % 128 + 128) :=
    fun k i hk heq => by rw [toUInt8_shiftRight_high value k hk, heq]
  have h0 : (value ||| 0x80).toUInt8 = UInt8.ofNat (value.toNat / 128 ^ 0 % 128 + 128) := by
    rw [toUInt8_high, pow_zero, Nat.div_one]
  have h1 := hshift 7 1 (by omega) (by omega)
  have h2 := hshift 14 2 (by omega) (by omega)
  have h3 := hshift 21 3 (by omega) (by omega)
  have h4 : (value >>> 28).toUInt8 =
      UInt8.ofNat (value.toNat / 128 ^ 4 % 128 + 128) &&& 0x7F := by
    apply UInt8.toNat.inj
    rw [low_byte, Varint.toNat_low (by omega), UInt32.toNat_toUInt8, UInt32.toNat_shiftRight]
    change value.toNat >>> 28 % 256 = _
    rw [Nat.shiftRight_eq_div_pow]
    omega
  unfold writeVarint32FallbackToArrayInline
  split_ifs
  · rw [Varint.encode_eq_map (k := 4) (by omega) (by omega)]
    exact congr(($h0) :: ($h1) :: ($h2) :: ($h3) :: [$h4])
  · rw [Varint.encode_eq_map (k := 3) (by omega) (by omega)]
    exact congr(($h0) :: ($h1) :: ($h2) :: [($h3) &&& 0x7F])
  · rw [Varint.encode_eq_map (k := 2) (by omega) (by omega)]
    exact congr(($h0) :: ($h1) :: [($h2) &&& 0x7F])
  · rw [Varint.encode_eq_map (k := 1) (by omega) (by omega)]
    exact congr(($h0) :: [($h1) &&& 0x7F])
  · rw [Varint.encode_eq_map (k := 0) (by omega) (by omega)]
    exact congr([($h0) &&& 0x7F])

/-- So it does with its path for one byte. -/
theorem writeVarint32ToArray_eq (value : UInt32) :
    writeVarint32ToArray value = Varint.encode value.toNat := by
  unfold writeVarint32ToArray
  split_ifs with hlow
  · have hlt : value.toNat < 128 := UInt32.lt_iff_toNat_lt.mp hlow
    rw [Varint.encode_of_lt hlt]
    rfl
  · exact writeVarint32FallbackToArrayInline_eq value

/-- And so does the writer of tags, with its paths for one and for two bytes. -/
theorem writeTagToArray_eq (value : UInt32) :
    writeTagToArray value = Varint.encode value.toNat := by
  unfold writeTagToArray
  split_ifs with hone htwo
  · rw [Varint.encode_of_lt (by omega)]
    rfl
  · have hlt : value.toNat / 128 < 128 := by omega
    have hrest : (value >>> 7).toUInt8 = .ofNat (value.toNat / 128) := by
      apply UInt8.toNat.inj
      rw [Varint.toNat_low hlt, UInt32.toNat_toUInt8, UInt32.toNat_shiftRight]
      change value.toNat >>> 7 % 256 = _
      rw [Nat.shiftRight_eq_div_pow]
      omega
    rw [Varint.encode_of_ge (by omega), Varint.encode_of_lt hlt, toUInt8_high, hrest]
  · exact writeVarint32FallbackToArrayInline_eq value

/-! ### Sizes -/

/-- `VarintSize32` is the length of the shortest encoding. -/
theorem varintSize32_eq (value : UInt32) :
    varintSize32 value = (Varint.encode value.toNat).length := by
  have hlt := value.toNat_lt
  unfold varintSize32
  split_ifs
  · exact (Varint.length_encode_eq (k := 0) (by omega) (by omega)).symm
  · exact (Varint.length_encode_eq (k := 1) (by omega) (by omega)).symm
  · exact (Varint.length_encode_eq (k := 2) (by omega) (by omega)).symm
  · exact (Varint.length_encode_eq (k := 3) (by omega) (by omega)).symm
  · exact (Varint.length_encode_eq (k := 4) (by omega) (by omega)).symm

/-- `VarintSize64` is the length of the shortest encoding. -/
theorem varintSize64_eq (value : UInt64) :
    varintSize64 value = (Varint.encode value.toNat).length := by
  have hlt := value.toNat_lt
  unfold varintSize64
  split_ifs
  · exact (Varint.length_encode_eq (k := 0) (by omega) (by omega)).symm
  · exact (Varint.length_encode_eq (k := 1) (by omega) (by omega)).symm
  · exact (Varint.length_encode_eq (k := 2) (by omega) (by omega)).symm
  · exact (Varint.length_encode_eq (k := 3) (by omega) (by omega)).symm
  · exact (Varint.length_encode_eq (k := 4) (by omega) (by omega)).symm
  · exact (Varint.length_encode_eq (k := 5) (by omega) (by omega)).symm
  · exact (Varint.length_encode_eq (k := 6) (by omega) (by omega)).symm
  · exact (Varint.length_encode_eq (k := 7) (by omega) (by omega)).symm
  · exact (Varint.length_encode_eq (k := 8) (by omega) (by omega)).symm
  · exact (Varint.length_encode_eq (k := 9) (by omega) (by omega)).symm

/-- The unrolled writer writes what the loop writes, the 32-bit writer writes what the 64-bit one
does of the same number, and both write as many bytes as were reserved. -/
theorem writers_agree (value : UInt64) (value32 : UInt32) :
    writeVarint64ToArrayInline value = writeVarint64Slow value ∧
      writeVarint32ToArray value32 = writeVarint64ToArrayInline value32.toUInt64 ∧
      (writeVarint64ToArrayInline value).length = varintSize64 value ∧
      (writeVarint32ToArray value32).length = varintSize32 value32 := by
  refine ⟨?_, ?_, ?_, ?_⟩
  · rw [writeVarint64ToArrayInline_eq, writeVarint64Slow_eq]
  · rw [writeVarint32ToArray_eq, writeVarint64ToArrayInline_eq, UInt32.toNat_toUInt64]
  · rw [writeVarint64ToArrayInline_eq, varintSize64_eq]
  · rw [writeVarint32ToArray_eq, varintSize32_eq]

/-! ### Bytes of a fixed number -/

/-- The four bytes of a word, the lowest first. -/
theorem writeLittleEndian32ToArray_eq (value : UInt32) :
    writeLittleEndian32ToArray value = WireFormat.littleEndian 4 value.toNat := by
  have hbyte : ∀ (x : UInt32) (n : Nat), x.toNat % 256 = n % 256 → x.toUInt8 = .ofNat n := by
    intro x n heq
    apply UInt8.toNat.inj
    rw [UInt32.toNat_toUInt8, UInt8.toNat_ofNat']
    exact heq
  have hshift : ∀ k, k < 32 → (value >>> .ofNat k).toNat = value.toNat / 2 ^ k := by
    intro k hk
    have hmod : (UInt32.ofNat k).toNat % 32 = k := by
      rw [UInt32.toNat_ofNat']
      omega
    rw [UInt32.toNat_shiftRight, hmod, Nat.shiftRight_eq_div_pow]
  have h8 := hshift 8 (by decide)
  have h16 := hshift 16 (by decide)
  have h24 := hshift 24 (by decide)
  simp only [writeLittleEndian32ToArray, WireFormat.littleEndian, List.cons.injEq, and_true]
  refine ⟨hbyte _ _ rfl, hbyte _ _ ?_, hbyte _ _ ?_, hbyte _ _ ?_⟩
  · change (value >>> .ofNat 8).toNat % 256 = _
    omega
  · change (value >>> .ofNat 16).toNat % 256 = _
    omega
  · change (value >>> .ofNat 24).toNat % 256 = _
    omega

/-- The eight bytes of two words, the lowest first. -/
theorem writeLittleEndian64ToArray_eq (value : UInt64) :
    writeLittleEndian64ToArray value = WireFormat.littleEndian 8 value.toNat := by
  have hparts : writeLittleEndian64ToArray value =
      writeLittleEndian32ToArray value.toUInt32 ++
        writeLittleEndian32ToArray (value >>> 32).toUInt32 := rfl
  have h0 := toNat_part0 value
  have h1 : (value >>> 32).toUInt32.toNat = value.toNat / 2 ^ 32 % 2 ^ 32 := by
    rw [UInt64.toNat_toUInt32, UInt64.toNat_shiftRight]
    change value.toNat >>> 32 % 2 ^ 32 = _
    rw [Nat.shiftRight_eq_div_pow]
  rw [hparts, writeLittleEndian32ToArray_eq, writeLittleEndian32ToArray_eq, h0, h1,
    WireFormat.littleEndian_add 4 4, ← WireFormat.littleEndian_mod 4 value.toNat,
    ← WireFormat.littleEndian_mod 4 (value.toNat / 256 ^ 4)]
  rfl

end WeWrite.Wire
