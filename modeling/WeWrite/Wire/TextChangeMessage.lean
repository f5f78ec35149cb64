import WeWrite.Wire.UnknownFields

/-!
# The message of an edit

`textChange::textChangeMessage` as the compiler generated it: its three fields with their
has-bits and the fields it does not know, and the code that parses, serializes, sizes, merges
and clears it.

The parser is a loop with labels.  The generated code looks for the fields in the order of
their numbers, and goes from one to the next without reading a tag when the expected one
follows.  One pass of the loop is `pass`, and it ends with the label where the next one starts or
with the result.  The checks of the string's bytes do nothing but log; `Wire.StringCheck` has
them.
-/

namespace WeWrite.Wire

open WireFormat CodedInputStream

/-- `textChangeMessage`.  A field whose has-bit is not set is `none`. -/
structure TextChangeMessage where
  cursorLocation : Option Int64
  contentModified : Option (List UInt8)
  numChars : Option Int64
  unknownFields : UnknownFieldSet

namespace TextChangeMessage

/-- A new message, and what `Clear` makes of every message. -/
def clear : TextChangeMessage where
  cursorLocation := none
  contentModified := none
  numChars := none
  unknownFields := []

/-! ## Parsing -/

/-- Where a pass of the loop starts. -/
inductive Label where
  | loop
  | parseContentModified
  | parseNumChars
deriving DecidableEq, Repr

/-- How a pass of the loop ends. -/
inductive PassEnd where
  | goto (label : Label)
  | ret (ok : Bool)
deriving DecidableEq, Repr

/-- The end of a pass, the message, and the stream. -/
abbrev PassResult := PassEnd × TextChangeMessage × CodedInputStream

/-- Go to a label if its tag follows, and back to the top of the loop if it does not. -/
def expectOr (tag : UInt32) (label : Label) (message : TextChangeMessage)
    (input : CodedInputStream) : PassResult :=
  match input.expectTag tag with
  | some input => (.goto label, message, input)
  | none => (.goto .loop, message, input)

/-- `optional int64 cursorLocation = 1`. -/
def parseCursorLocation (message : TextChangeMessage) (input : CodedInputStream) : PassResult :=
  match input.readVarint64 with
  | none => (.ret false, message, input)
  | some (value, input) =>
      expectOr 18 .parseContentModified { message with cursorLocation := some value.toInt64 } input

/-- `optional string contentModified = 2`, from its label on. -/
def parseContentModified (message : TextChangeMessage) (input : CodedInputStream) : PassResult :=
  -- `mutable_contentmodified` sets the has-bit first
  let content := message.contentModified.getD []
  match input.readVarint32 with
  | none => (.ret false, { message with contentModified := some content }, input)
  | some (length, input) =>
      let (ok, content, input) := input.readString content length.toInt32.toInt
      let message := { message with contentModified := some content }
      if ok then expectOr 24 .parseNumChars message input else (.ret false, message, input)

/-- `optional int64 numChars = 3`, from its label on. -/
def parseNumChars (message : TextChangeMessage) (input : CodedInputStream) : PassResult :=
  match input.readVarint64 with
  | none => (.ret false, message, input)
  | some (value, input) =>
      let message := { message with numChars := some value.toInt64 }
      match input.expectAtEnd with
      | some input => (.ret true, message, input)
      | none => (.goto .loop, message, input)

/-- `handle_uninterpreted`. -/
def handleUninterpreted (tag : UInt32) (message : TextChangeMessage) (input : CodedInputStream) :
    PassResult :=
  if getTagWireType tag = wireTypeEndGroup then (.ret true, message, input)
  else
    let (ok, unknownFields, input) :=
      skipField (2 * input.buffer.length + 2) input tag message.unknownFields
    let message := { message with unknownFields := unknownFields }
    (if ok then .goto .loop else .ret false, message, input)

/-- One pass of the loop of `MergePartialFromCodedStream`. -/
def pass (message : TextChangeMessage) (input : CodedInputStream) : Label → PassResult
  | .loop =>
      let (tag, input) := input.readTag
      if tag = 0 then (.ret true, message, input)
      else
        match getTagFieldNumber tag with
        | 1 =>
            if getTagWireType tag = wireTypeVarint then parseCursorLocation message input
            else handleUninterpreted tag message input
        | 2 =>
            if getTagWireType tag = wireTypeLengthDelimited then parseContentModified message input
            else handleUninterpreted tag message input
        | 3 =>
            if getTagWireType tag = wireTypeVarint then parseNumChars message input
            else handleUninterpreted tag message input
        | _ => handleUninterpreted tag message input
  | .parseContentModified => parseContentModified message input
  | .parseNumChars => parseNumChars message input

/-- The loop: every pass takes at least one byte, so it ends before its fuel does. -/
def mergeLoop : Nat → Label → TextChangeMessage → CodedInputStream →
    Bool × TextChangeMessage × CodedInputStream
  | 0, _, message, input => (false, message, input)
  | fuel + 1, label, message, input =>
      match pass message input label with
      | (.goto label, message, input) => mergeLoop fuel label message input
      | (.ret ok, message, input) => (ok, message, input)

/-- `MergePartialFromCodedStream`. -/
def mergePartialFromCodedStream (message : TextChangeMessage) (input : CodedInputStream) :
    Bool × TextChangeMessage × CodedInputStream :=
  mergeLoop (input.buffer.length + 1) .loop message input

/-- `ParseFromArray`: whether it succeeds, and the message.  `IsInitialized` is always true, and
what the message was before is cleared. -/
def parseFromArray (data : List UInt8) : Bool × TextChangeMessage :=
  let (ok, message, input) := mergePartialFromCodedStream clear (ofArray data)
  (ok && input.consumedEntireMessage, message)

/-! ## Serializing -/

/-- `WireFormatLite::WriteInt64ToArray`. -/
def writeInt64ToArray (fieldNumber : Nat) (value : Int64) : List UInt8 :=
  writeTagToArray (makeTag fieldNumber wireTypeVarint) ++
    writeVarint64ToArrayInline value.toUInt64

/-- `WireFormatLite::WriteStringToArray`. -/
def writeStringToArray (fieldNumber : Nat) (value : List UInt8) : List UInt8 :=
  writeTagToArray (makeTag fieldNumber wireTypeLengthDelimited) ++
    writeVarint32ToArray (.ofNat value.length) ++ Wire.writeStringToArray value

/-- `SerializeWithCachedSizesToArray`. -/
def serializeWithCachedSizesToArray (message : TextChangeMessage) : List UInt8 :=
  (message.cursorLocation.elim [] (writeInt64ToArray 1)) ++
    (message.contentModified.elim [] (writeStringToArray 2)) ++
    (message.numChars.elim [] (writeInt64ToArray 3)) ++
    serializeUnknownFieldsToArray message.unknownFields

/-- `WireFormatLite::Int64Size`. -/
def int64Size (value : Int64) : Nat :=
  varintSize64 value.toUInt64

/-- `WireFormatLite::StringSize`. -/
def stringSize (value : List UInt8) : Nat :=
  varintSize32 (.ofNat value.length) + value.length

/-- `ByteSize`, an `int`. -/
def byteSize (message : TextChangeMessage) : Int32 :=
  .ofNat ((message.cursorLocation.elim 0 fun value => 1 + int64Size value) +
    (message.contentModified.elim 0 fun value => 1 + stringSize value) +
    (message.numChars.elim 0 fun value => 1 + int64Size value) +
    computeUnknownFieldsSize message.unknownFields)

/-- `SerializeAsString`; `none` when the size that was computed is not the number of bytes that
were written, which ends the program. -/
def serializeAsString (message : TextChangeMessage) : Option (List UInt8) :=
  let bytes := message.serializeWithCachedSizesToArray
  if (bytes.length : Int) = message.byteSize.toInt then some bytes else none

/-! ## Merging -/

/-- `MergeFrom`. -/
def mergeFrom (message source : TextChangeMessage) : TextChangeMessage where
  cursorLocation := source.cursorLocation <|> message.cursorLocation
  contentModified := source.contentModified <|> message.contentModified
  numChars := source.numChars <|> message.numChars
  unknownFields := message.unknownFields ++ source.unknownFields

end TextChangeMessage

end WeWrite.Wire
