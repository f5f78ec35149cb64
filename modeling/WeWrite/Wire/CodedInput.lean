import WeWrite.Library.Varint

/-!
# Reading numbers, tags and strings

The input side of the coded streams.  The app parses from one array, so a stream is the
unread part of its array.  `current_limit_` is the size of the array and never moves, there is
nothing to refresh from, and `total_bytes_limit_` has its default.

A reader that has ten bytes left, or whose buffer ends in the last byte of a number, reads up to
ten bytes without looking at the end of the buffer.  Reading past the end is the outer `none`
of these readers.

After a reader has found no number, its callers fail and read no more; where the stream stands
then is left out.
-/

namespace WeWrite.Wire

open Varint

/-- `kMaxVarintBytes`. -/
def kMaxVarintBytes : Nat := 10

/-- `kDefaultTotalBytesLimit`, 64 MB. -/
def kDefaultTotalBytesLimit : Nat := 64 <<< 20

/-- `default_recursion_limit_`. -/
def kDefaultRecursionLimit : Nat := 100

/-- A `CodedInputStream` over an array; `buffer` runs from `buffer_` to `buffer_end_`. -/
structure CodedInputStream where
  buffer : List UInt8
  totalBytesRead : Nat
  lastTag : UInt32
  legitimateMessageEnd : Bool
  recursionDepth : Nat
deriving DecidableEq, Repr

namespace CodedInputStream

/-- The constructor for an array. -/
def ofArray (data : List UInt8) : CodedInputStream where
  buffer := data
  totalBytesRead := data.length
  lastTag := 0
  legitimateMessageEnd := false
  recursionDepth := 0

/-! ## Numbers -/

/-- The loop at the end of `ReadVarint32FromArray`, which drops the high bits. -/
def dropHighBits (result : UInt32) : Nat → List UInt8 → Option (Option (UInt32 × List UInt8))
  | 0, _ => some none
  | i + 1, ptr => do
      let (b, ptr) ← next ptr
      if b &&& 0x80 = 0 then some (some (result, ptr)) else dropHighBits result i ptr

/-- `ReadVarint32FromArray`: the outer `none` is a read past the end, the inner one `NULL`. -/
def readVarint32FromArray (buffer : List UInt8) : Option (Option (UInt32 × List UInt8)) := do
  let (b, ptr) ← next buffer
  let result := b.toUInt32 &&& 0x7F
  if b &&& 0x80 = 0 then return some (result, ptr)
  let (b, ptr) ← next ptr
  let result := result ||| (b.toUInt32 &&& 0x7F) <<< 7
  if b &&& 0x80 = 0 then return some (result, ptr)
  let (b, ptr) ← next ptr
  let result := result ||| (b.toUInt32 &&& 0x7F) <<< 14
  if b &&& 0x80 = 0 then return some (result, ptr)
  let (b, ptr) ← next ptr
  let result := result ||| (b.toUInt32 &&& 0x7F) <<< 21
  if b &&& 0x80 = 0 then return some (result, ptr)
  let (b, ptr) ← next ptr
  let result := result ||| b.toUInt32 <<< 28
  if b &&& 0x80 = 0 then return some (result, ptr)
  dropHighBits result 5 ptr

/-- The value at the label `done` of `ReadVarint64Fallback`. -/
def joinParts (part0 part1 part2 : UInt32) : UInt64 :=
  part0.toUInt64 ||| part1.toUInt64 <<< 28 ||| part2.toUInt64 <<< 56

/-- The unrolled part of `ReadVarint64Fallback`. -/
def readVarint64FromArray (buffer : List UInt8) : Option (Option (UInt64 × List UInt8)) := do
  let (b, ptr) ← next buffer
  let part0 := b.toUInt32 &&& 0x7F
  if b &&& 0x80 = 0 then return some (joinParts part0 0 0, ptr)
  let (b, ptr) ← next ptr
  let part0 := part0 ||| (b.toUInt32 &&& 0x7F) <<< 7
  if b &&& 0x80 = 0 then return some (joinParts part0 0 0, ptr)
  let (b, ptr) ← next ptr
  let part0 := part0 ||| (b.toUInt32 &&& 0x7F) <<< 14
  if b &&& 0x80 = 0 then return some (joinParts part0 0 0, ptr)
  let (b, ptr) ← next ptr
  let part0 := part0 ||| (b.toUInt32 &&& 0x7F) <<< 21
  if b &&& 0x80 = 0 then return some (joinParts part0 0 0, ptr)
  let (b, ptr) ← next ptr
  let part1 := b.toUInt32 &&& 0x7F
  if b &&& 0x80 = 0 then return some (joinParts part0 part1 0, ptr)
  let (b, ptr) ← next ptr
  let part1 := part1 ||| (b.toUInt32 &&& 0x7F) <<< 7
  if b &&& 0x80 = 0 then return some (joinParts part0 part1 0, ptr)
  let (b, ptr) ← next ptr
  let part1 := part1 ||| (b.toUInt32 &&& 0x7F) <<< 14
  if b &&& 0x80 = 0 then return some (joinParts part0 part1 0, ptr)
  let (b, ptr) ← next ptr
  let part1 := part1 ||| (b.toUInt32 &&& 0x7F) <<< 21
  if b &&& 0x80 = 0 then return some (joinParts part0 part1 0, ptr)
  let (b, ptr) ← next ptr
  let part2 := b.toUInt32 &&& 0x7F
  if b &&& 0x80 = 0 then return some (joinParts part0 part1 part2, ptr)
  let (b, ptr) ← next ptr
  let part2 := part2 ||| (b.toUInt32 &&& 0x7F) <<< 7
  if b &&& 0x80 = 0 then return some (joinParts part0 part1 part2, ptr)
  -- more than ten bytes
  return none

/-- The test in front of the unrolled readers. -/
def mayReadUnchecked (input : CodedInputStream) : Bool :=
  kMaxVarintBytes ≤ input.buffer.length ||
    input.buffer.getLast?.any fun b => b &&& 0x80 == 0

/-- The loop of `ReadVarint64Slow`; `left` is `kMaxVarintBytes - count`. -/
def readVarint64Loop : Nat → Nat → UInt64 → List UInt8 → Option (UInt64 × List UInt8)
  | 0, _, _, _ => none
  | _ + 1, _, _, [] => none
  | left + 1, count, result, b :: buffer =>
      let result := result ||| (b &&& 0x7F).toUInt64 <<< .ofNat (7 * count)
      if b &&& 0x80 ≠ 0 then readVarint64Loop left (count + 1) result buffer
      else some (result, buffer)

/-- `ReadVarint64Slow`. -/
def readVarint64Slow (input : CodedInputStream) : Option (UInt64 × CodedInputStream) := do
  let (value, buffer) ← readVarint64Loop kMaxVarintBytes 0 0 input.buffer
  some (value, { input with buffer := buffer })

/-- `ReadVarint64Fallback`. -/
def readVarint64Fallback (input : CodedInputStream) : Option (UInt64 × CodedInputStream) :=
  if input.mayReadUnchecked then do
    let (value, ptr) ← (readVarint64FromArray input.buffer).join
    some (value, { input with buffer := ptr })
  else
    input.readVarint64Slow

/-- `ReadVarint64`. -/
def readVarint64 (input : CodedInputStream) : Option (UInt64 × CodedInputStream) :=
  match input.buffer with
  | b :: buffer =>
      if b < 0x80 then some (b.toUInt64, { input with buffer := buffer })
      else input.readVarint64Fallback
  | [] => input.readVarint64Fallback

/-- `ReadVarint32Fallback`, with `ReadVarint32Slow`. -/
def readVarint32Fallback (input : CodedInputStream) : Option (UInt32 × CodedInputStream) :=
  if input.mayReadUnchecked then do
    let (value, ptr) ← (readVarint32FromArray input.buffer).join
    some (value, { input with buffer := ptr })
  else do
    let (result, input) ← input.readVarint64Fallback
    some (result.toUInt32, input)

/-- `ReadVarint32`. -/
def readVarint32 (input : CodedInputStream) : Option (UInt32 × CodedInputStream) :=
  match input.buffer with
  | b :: buffer =>
      if b < 0x80 then some (b.toUInt32, { input with buffer := buffer })
      else input.readVarint32Fallback
  | [] => input.readVarint32Fallback

/-! ## Tags -/

/-- `ReadTagSlow`. -/
def readTagSlow (input : CodedInputStream) : UInt32 × CodedInputStream :=
  if input.buffer = [] then
    -- `Refresh` fails: the end of the array is at `current_limit_`
    if kDefaultTotalBytesLimit ≤ input.totalBytesRead then
      (0, { input with
        legitimateMessageEnd := input.totalBytesRead == kDefaultTotalBytesLimit })
    else
      (0, { input with legitimateMessageEnd := true })
  else
    match input.readVarint64 with
    | none => (0, input)
    | some (result, input) => (result.toUInt32, input)

/-- `ReadTagFallback`. -/
def readTagFallback (input : CodedInputStream) : UInt32 × CodedInputStream :=
  if input.mayReadUnchecked then
    match (readVarint32FromArray input.buffer).join with
    | none => (0, input)
    | some (tag, ptr) => (tag, { input with buffer := ptr })
  else if input.buffer = [] ∧ input.totalBytesRead < kDefaultTotalBytesLimit then
    -- We hit a byte limit
    (0, { input with legitimateMessageEnd := true })
  else
    input.readTagSlow

/-- `ReadTag`: the tag, 0 at the end of the input or when there is none. -/
def readTag (input : CodedInputStream) : UInt32 × CodedInputStream :=
  match input.buffer with
  | b :: buffer =>
      if b < 0x80 then
        (b.toUInt32, { input with buffer := buffer, lastTag := b.toUInt32 })
      else
        let (tag, input) := input.readTagFallback
        (tag, { input with lastTag := tag })
  | [] =>
      let (tag, input) := input.readTagFallback
      (tag, { input with lastTag := tag })

/-- `LastTagWas`. -/
def lastTagWas (input : CodedInputStream) (expected : UInt32) : Bool :=
  input.lastTag == expected

/-- `ExpectTag`: the stream behind the tag, if it is the expected one. -/
def expectTag (input : CodedInputStream) (expected : UInt32) : Option CodedInputStream :=
  if expected.toNat < 1 <<< 7 then
    match input.buffer with
    | b :: buffer =>
        if b.toUInt32 = expected then some { input with buffer := buffer } else none
    | [] => none
  else if expected.toNat < 1 <<< 14 then
    match input.buffer with
    | b0 :: b1 :: buffer =>
        if b0 = (expected ||| 0x80).toUInt8 ∧ b1 = (expected >>> 7).toUInt8 then
          some { input with buffer := buffer }
        else none
    | _ => none
  else
    none

/-- `ExpectAtEnd`: the stream at its end, if the array has been read. -/
def expectAtEnd (input : CodedInputStream) : Option CodedInputStream :=
  if input.buffer = [] then some { input with lastTag := 0, legitimateMessageEnd := true }
  else none

/-- `ConsumedEntireMessage`. -/
def consumedEntireMessage (input : CodedInputStream) : Bool :=
  input.legitimateMessageEnd

/-! ## Fixed sizes, strings and nesting -/

/-- `ReadLittleEndian32`. -/
def readLittleEndian32 (input : CodedInputStream) : Option (UInt32 × CodedInputStream) :=
  match input.buffer with
  | b0 :: b1 :: b2 :: b3 :: buffer =>
      some (b0.toUInt32 ||| b1.toUInt32 <<< 8 ||| b2.toUInt32 <<< 16 ||| b3.toUInt32 <<< 24,
        { input with buffer := buffer })
  | _ => none

/-- `ReadLittleEndian64`. -/
def readLittleEndian64 (input : CodedInputStream) : Option (UInt64 × CodedInputStream) := do
  let (part0, input) ← input.readLittleEndian32
  let (part1, input) ← input.readLittleEndian32
  some (part0.toUInt64 ||| part1.toUInt64 <<< 32, input)

/-- `InternalReadStringInline`, with `ReadStringFallback`: whether it succeeds, what the string
that held `old` holds then, and the stream. -/
def readString (input : CodedInputStream) (old : List UInt8) (size : Int) :
    Bool × List UInt8 × CodedInputStream :=
  if size < 0 then
    (false, old, input)
  else if size ≤ input.buffer.length then
    (true, input.buffer.take size.toNat, { input with buffer := input.buffer.drop size.toNat })
  else
    -- what is there has been copied when `Refresh` fails
    (false, input.buffer, { input with buffer := [] })

/-- `IncrementRecursionDepth`: the stream, if the limit allows it. -/
def incrementRecursionDepth (input : CodedInputStream) : Option CodedInputStream :=
  if input.recursionDepth + 1 ≤ kDefaultRecursionLimit then
    some { input with recursionDepth := input.recursionDepth + 1 }
  else none

/-- `DecrementRecursionDepth`. -/
def decrementRecursionDepth (input : CodedInputStream) : CodedInputStream :=
  { input with recursionDepth := input.recursionDepth - 1 }

end CodedInputStream

end WeWrite.Wire
