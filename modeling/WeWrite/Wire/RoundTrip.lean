import WeWrite.Wire.Parse

/-!
# Serializing and parsing

A serialized message is the shortest encoding of its fields in the order of their numbers, with
the unknown ones at the end, so parsing gives the message back.  What was parsed is well-formed,
and serializing it again takes no more bytes than it came from.

Main results:

- Theorem `serializeWithCachedSizesToArray_eq`: what is written.
- Theorem `serialize_size`: the computed size is the number of bytes written, up to the bound of
  an `int`, when no string is longer than that on its own.
- Theorem `parseFromArray_serializeAsString`: which messages parsing gives back.
- Theorem `serializeAsString_parseFromArray`: serializing gives no more bytes back, and they are
  parsed as the same message.
- Theorem `parseFromArray_append`: two serialized messages, one behind the other, are parsed as
  the first merged with the second.
-/

namespace WeWrite.Wire

open Varint WireFormat CodedInputStream

namespace TextChangeMessage

/-! ## The fields of a message -/

/-- The fields of a message in the order in which they are written. -/
def toFields (message : TextChangeMessage) : List WireFormat.Field :=
  (message.cursorLocation.elim [] fun value => [.scalar 1 (.varint value.toUInt64)]) ++
    (message.contentModified.elim [] fun data => [.scalar 2 (.lengthDelimited data)]) ++
    (message.numChars.elim [] fun value => [.scalar 3 (.varint value.toUInt64)]) ++
    message.unknownFields

/-- A message that can be written and read back: its string and its unknown fields are
encodable, and no unknown field is one of its own. -/
structure WellFormed (message : TextChangeMessage) : Prop where
  content : ∀ data, message.contentModified = some data → data.length < 2 ^ 31
  encodable : AreEncodable kDefaultRecursionLimit message.unknownFields
  unknown : ∀ field ∈ message.unknownFields, IsUnknown field

theorem foldl_addField_unknown {fields : List WireFormat.Field}
    (hunknown : ∀ field ∈ fields, IsUnknown field) (message : TextChangeMessage) :
    fields.foldl addField message =
      { message with unknownFields := message.unknownFields ++ fields } := by
  induction fields generalizing message with
  | nil => rw [List.foldl_nil, List.append_nil]
  | cons field fields ih =>
      rw [List.foldl_cons, addField_of_isUnknown (hunknown field (by simp)),
        ih fun f hf => hunknown f (List.mem_cons_of_mem field hf), List.append_assoc,
        List.singleton_append]

/-- The fields of a message mean the message. -/
theorem ofFields_toFields {message : TextChangeMessage}
    (hunknown : ∀ field ∈ message.unknownFields, IsUnknown field) :
    ofFields message.toFields = message := by
  rcases message with ⟨cursorLocation, contentModified, numChars, unknownFields⟩
  rw [ofFields, toFields, List.foldl_append, foldl_addField_unknown hunknown]
  cases cursorLocation <;> cases contentModified <;> cases numChars <;> simp [addField, clear]

theorem areEncodable_toFields {message : TextChangeMessage} (h : message.WellFormed) :
    AreEncodable kDefaultRecursionLimit message.toFields := by
  have hscalar : ∀ number payload, 0 < number → number < 2 ^ 29 →
      Payload.IsEncodable payload →
      AreEncodable kDefaultRecursionLimit [.scalar number payload] := by
    intro number payload hpos hlt hpayload
    rw [AreEncodable, WireFormat.Field.IsEncodable, AreEncodable]
    exact ⟨⟨by omega, hlt, hpayload⟩, trivial⟩
  rw [toFields, areEncodable_append, areEncodable_append, areEncodable_append]
  refine ⟨⟨⟨?_, ?_⟩, ?_⟩, h.encodable⟩
  · cases message.cursorLocation with
    | none => trivial
    | some value => exact hscalar 1 _ (by decide) (by decide) trivial
  · cases hcontent : message.contentModified with
    | none => trivial
    | some data => exact hscalar 2 _ (by decide) (by decide) (h.content data hcontent)
  · cases message.numChars with
    | none => trivial
    | some value => exact hscalar 3 _ (by decide) (by decide) trivial

/-! ## What is written -/

theorem writeInt64ToArray_eq {number : Nat} (hlt : number < 2 ^ 29) (value : Int64) :
    writeInt64ToArray number value =
      WireFormat.Field.encode (.scalar number (.varint value.toUInt64)) := by
  rw [writeInt64ToArray, writeTagToArray_makeTag (by decide) hlt, writeVarint64ToArrayInline_eq]
  rfl

theorem writeStringToArray_eq {number : Nat} (hlt : number < 2 ^ 29) {data : List UInt8}
    (hsize : data.length < 2 ^ 31) : writeStringToArray number data =
      WireFormat.Field.encode (.scalar number (.lengthDelimited data)) := by
  have hlength : (UInt32.ofNat data.length).toNat = data.length := by
    rw [UInt32.toNat_ofNat']
    omega
  rw [writeStringToArray, writeTagToArray_makeTag (by decide) hlt, writeVarint32ToArray_eq,
    hlength, writeStringToArray_of_lt hsize, List.append_assoc]
  rfl

/-- A well-formed message is written as the shortest encoding of its fields. -/
theorem serializeWithCachedSizesToArray_eq {message : TextChangeMessage} (h : message.WellFormed) :
    message.serializeWithCachedSizesToArray = encodeFields message.toFields := by
  have hint : ∀ (number : Nat) (value : Option Int64), number < 2 ^ 29 →
      value.elim [] (writeInt64ToArray number) =
        encodeFields (value.elim [] fun v => [.scalar number (.varint v.toUInt64)]) := by
    intro number value hlt
    cases value with
    | none => rfl
    | some v =>
        simp only [Option.elim, writeInt64ToArray_eq hlt, encodeFields, List.append_nil]
  have hstring : message.contentModified.elim [] (writeStringToArray 2) = encodeFields
      (message.contentModified.elim [] fun data => [.scalar 2 (.lengthDelimited data)]) := by
    cases hcontent : message.contentModified with
    | none => rfl
    | some data =>
        simp only [Option.elim, writeStringToArray_eq (by decide : 2 < 2 ^ 29)
          (h.content data hcontent), encodeFields, List.append_nil]
  rw [serializeWithCachedSizesToArray, toFields, encodeFields_append, encodeFields_append,
    encodeFields_append, hint 1 _ (by decide), hint 3 _ (by decide), hstring,
    serializeUnknownFieldsToArray_eq h.encodable]

/-- The size of every string in the message is an `int`. -/
structure StringsFit (message : TextChangeMessage) : Prop where
  content : ∀ data, message.contentModified = some data → data.length < 2 ^ 31
  unknown : Wire.StringsFit message.unknownFields

theorem WellFormed.stringsFit {message : TextChangeMessage} (h : message.WellFormed) :
    message.StringsFit where
  content := h.content
  unknown := stringsFit_of_areEncodable h.encodable

/-- The size that is computed is the number of bytes that are written, as an `int`. -/
theorem byteSize_eq {message : TextChangeMessage} (h : message.StringsFit) :
    message.byteSize = .ofNat message.serializeWithCachedSizesToArray.length := by
  have hint : ∀ (number : Nat) (value : Option Int64),
      varintSize32 (makeTag number wireTypeVarint) = 1 →
      (value.elim [] (writeInt64ToArray number)).length =
        value.elim 0 fun v => 1 + int64Size v := by
    intro number value htag
    cases value with
    | none => rfl
    | some v =>
        simp only [Option.elim, writeInt64ToArray, List.length_append, length_writeTagToArray, htag,
          writeVarint64ToArrayInline_eq, int64Size, varintSize64_eq]
  have hstring : (message.contentModified.elim [] (writeStringToArray 2)).length =
      message.contentModified.elim 0 fun data => 1 + stringSize data := by
    have htag : varintSize32 (makeTag 2 wireTypeLengthDelimited) = 1 := by decide
    cases hcontent : message.contentModified with
    | none => rfl
    | some data =>
        simp only [Option.elim, writeStringToArray, List.length_append, length_writeTagToArray,
          htag, writeVarint32ToArray_eq, stringSize, varintSize32_eq, Nat.add_assoc,
          writeStringToArray_of_lt (h.content data hcontent)]
  rw [byteSize, serializeWithCachedSizesToArray, List.length_append, List.length_append,
    List.length_append, hint 1 _ (by decide), hint 3 _ (by decide), hstring,
    computeUnknownFieldsSize_eq h.unknown]

/-- Serializing ends the program exactly when the bytes are too many for an `int`. -/
theorem serializeAsString_eq_some_iff {message : TextChangeMessage} {data : List UInt8}
    (h : message.StringsFit) :
    message.serializeAsString = some data ↔
      data = message.serializeWithCachedSizesToArray ∧ data.length < 2 ^ 31 := by
  have hbound : ∀ n : Nat, (n : Int) = (Int32.ofNat n).toInt ↔ n < 2 ^ 31 := by
    intro n
    constructor
    · intro h
      have hlt := Int32.toInt_lt (Int32.ofNat n)
      omega
    · intro h
      exact (Int32.toInt_ofNat_of_lt h).symm
  simp only [serializeAsString, byteSize_eq h, hbound]
  split_ifs with hlt
  · rw [Option.some.injEq]
    constructor
    · rintro rfl
      exact ⟨rfl, hlt⟩
    · rintro ⟨rfl, -⟩
      rfl
  · constructor
    · intro h
      cases h
    · rintro ⟨rfl, hlt'⟩
      exact (hlt hlt').elim

/-- When the size of every string is an `int`: the size that is computed is the number of bytes
that are written, in an `int`, and writing the message ends the program exactly when they are too
many for one. -/
theorem serialize_size {message : TextChangeMessage} (h : message.StringsFit) :
    message.byteSize.toInt =
        (message.serializeWithCachedSizesToArray.length : Int).bmod (2 ^ 32) ∧
      (message.serializeAsString = none ↔
        2 ^ 31 ≤ message.serializeWithCachedSizesToArray.length) ∧
      ∀ data, message.serializeAsString = some data →
        data = message.serializeWithCachedSizesToArray ∧ message.byteSize.toInt = data.length := by
  refine ⟨?_, ?_, ?_⟩
  · rw [byteSize_eq h]
    exact Int32.toInt_ofNat
  · rw [← not_lt, ← not_iff_not, not_not, ← ne_eq, Option.ne_none_iff_exists']
    constructor
    · rintro ⟨data, hdata⟩
      rcases (serializeAsString_eq_some_iff h).mp hdata with ⟨rfl, hlt⟩
      exact hlt
    · intro hlt
      exact ⟨_, (serializeAsString_eq_some_iff h).mpr ⟨rfl, hlt⟩⟩
  · intro data hdata
    rcases (serializeAsString_eq_some_iff h).mp hdata with ⟨rfl, hlt⟩
    rw [byteSize_eq h]
    exact ⟨rfl, Int32.toInt_ofNat_of_lt hlt⟩

/-- A message with a field that nobody knows. -/
def annotatedMessage : TextChangeMessage where
  cursorLocation := some 5
  contentModified := some [104, 105]
  numChars := some (-1)
  unknownFields := [.group 9 [.scalar 1 (.fixed32 7)], .scalar 4 (.lengthDelimited [0])]

theorem annotatedMessage_wellFormed : annotatedMessage.WellFormed where
  content data hdata := by
    obtain rfl := Option.some.inj hdata
    decide
  encodable := by
    simp [annotatedMessage, AreEncodable, WireFormat.Field.IsEncodable, Payload.IsEncodable,
      Payload.wireType, kDefaultRecursionLimit]
  unknown field hfield := by
    simp only [annotatedMessage, List.mem_cons, List.not_mem_nil, or_false] at hfield
    rcases hfield with rfl | rfl <;> trivial

/-- Its size is the number of bytes that are written, and the program goes on. -/
theorem serialize_size_annotated :
    annotatedMessage.byteSize.toInt =
        (annotatedMessage.serializeWithCachedSizesToArray.length : Int).bmod (2 ^ 32) ∧
      annotatedMessage.serializeAsString ≠ none := by
  have hlength : annotatedMessage.serializeWithCachedSizesToArray.length ≤ 100 := by
    decide +kernel
  rcases serialize_size annotatedMessage_wellFormed.stringsFit with ⟨hsize, hnone, -⟩
  refine ⟨hsize, fun h => ?_⟩
  have hlong := hnone.mp h
  omega

/-! ## Parsing what was written -/

/-- `numChars` is the last field that is written when it is set and there are no unknown fields. -/
theorem endsInNumChars_toFields {message : TextChangeMessage}
    (hunknown : ∀ field ∈ message.unknownFields, IsUnknown field) :
    EndsInNumChars message.toFields ↔ message.numChars.isSome ∧ message.unknownFields = [] := by
  rw [EndsInNumChars, toFields]
  constructor
  · rintro ⟨value, hlast⟩
    rcases List.eq_nil_or_concat message.unknownFields with hnil | ⟨front, field, hconcat⟩
    · refine ⟨?_, hnil⟩
      cases hnumChars : message.numChars with
      | some _ => rfl
      | none =>
          rw [hnil, hnumChars] at hlast
          cases hcontent : message.contentModified with
          | some data => simp [hcontent] at hlast
          | none => cases hlocation : message.cursorLocation <;> simp [hcontent, hlocation] at hlast
    · rw [hconcat, List.concat_eq_append, ← List.append_assoc, List.getLast?_concat] at hlast
      obtain rfl := Option.some.inj hlast
      have hfield := hunknown (.scalar 3 (.varint value)) (by rw [hconcat]; simp)
      exact hfield.elim
  · rintro ⟨hnumChars, hnil⟩
    obtain ⟨value, hvalue⟩ := Option.isSome_iff_exists.mp hnumChars
    refine ⟨value.toUInt64, ?_⟩
    rw [hnil, hvalue, List.append_nil]
    exact List.getLast?_concat

theorem parseFromArray_serialize {message : TextChangeMessage} (h : message.WellFormed)
    (hlimit : message.serializeWithCachedSizesToArray.length ≤ kDefaultTotalBytesLimit ∨
      (message.numChars.isSome ∧ message.unknownFields = [])) :
    parseFromArray message.serializeWithCachedSizesToArray = (true, message) := by
  rw [serializeWithCachedSizesToArray_eq h] at hlimit ⊢
  have hfields := isFields_encodeFields (areEncodable_toFields h)
  rw [parseFromArray_of_isFields hfields
    (hlimit.imp_right (endsInNumChars_toFields h.unknown).mpr), ofFields_toFields h.unknown]

/-- Parsing a serialized message gives it back exactly when it is no longer than the limit or
`numChars` is the last of its fields. -/
theorem parseFromArray_serializeAsString {message : TextChangeMessage} {data : List UInt8}
    (h : message.WellFormed) (hdata : message.serializeAsString = some data) :
    parseFromArray data = (true, message) ↔ data.length ≤ kDefaultTotalBytesLimit ∨
      (message.numChars.isSome ∧ message.unknownFields = []) := by
  rcases (serializeAsString_eq_some_iff h.stringsFit).mp hdata with ⟨rfl, -⟩
  constructor
  · intro hparse
    rcases isFields_of_parseFromArray hparse with ⟨fields, hfields, -, hlimit⟩
    rw [serializeWithCachedSizesToArray_eq h] at hfields
    -- the bytes have one reading, so these are the fields of the message
    obtain rfl := hfields.unique (isFields_encodeFields (areEncodable_toFields h))
    exact hlimit.imp_right (endsInNumChars_toFields h.unknown).mp
  · exact parseFromArray_serialize h

/-- It comes back. -/
theorem parseFromArray_serializeAsString_annotated :
    ∃ data, annotatedMessage.serializeAsString = some data ∧
      parseFromArray data = (true, annotatedMessage) := by
  have hlength : annotatedMessage.serializeWithCachedSizesToArray.length ≤ 100 := by
    decide +kernel
  have hdata := (serializeAsString_eq_some_iff annotatedMessage_wellFormed.stringsFit).mpr
    ⟨rfl, Nat.lt_of_le_of_lt hlength (by decide : 100 < 2 ^ 31)⟩
  have hlimit : 100 ≤ kDefaultTotalBytesLimit := by decide
  exact ⟨_, hdata, (parseFromArray_serializeAsString annotatedMessage_wellFormed hdata).mpr
    (Or.inl (hlength.trans hlimit))⟩

/-! ## Writing what was parsed -/

theorem clear_wellFormed : clear.WellFormed where
  content _ h := by cases h
  encodable := trivial
  unknown _ h := by cases h

/-- One more field on the wire keeps a message well-formed. -/
theorem addField_wellFormed {message : TextChangeMessage} {field : WireFormat.Field}
    {bytes : List UInt8} (h : message.WellFormed)
    (hfield : IsFields kDefaultRecursionLimit [field] bytes) :
    (message.addField field).WellFormed := by
  rcases h with ⟨hcontent, hencodable, hunknown⟩
  by_cases hnew : IsUnknown field
  · rw [addField_of_isUnknown hnew]
    exact ⟨hcontent, areEncodable_append.mpr ⟨hencodable, hfield.areEncodable⟩,
      List.forall_mem_append.mpr ⟨hunknown, List.forall_mem_singleton.mpr hnew⟩⟩
  · rcases known_cases hnew with ⟨v, rfl⟩ | ⟨data, rfl⟩ | ⟨v, rfl⟩
    · exact ⟨hcontent, hencodable, hunknown⟩
    · refine ⟨fun data' hdata => ?_, hencodable, hunknown⟩
      obtain rfl : data = data' := Option.some.inj hdata
      have hsize := hfield.areEncodable
      rw [AreEncodable, WireFormat.Field.IsEncodable] at hsize
      exact hsize.1.2.2
    · exact ⟨hcontent, hencodable, hunknown⟩

/-- One more field on the wire adds at most its own bytes to what is written. -/
theorem length_addField_le (message : TextChangeMessage) (field : WireFormat.Field) :
    (encodeFields (message.addField field).toFields).length ≤
      (encodeFields message.toFields).length + field.encode.length := by
  by_cases hnew : IsUnknown field
  · rw [addField_of_isUnknown hnew]
    simp only [toFields, encodeFields_append, List.length_append, encodeFields, List.append_nil]
    omega
  · rcases known_cases hnew with ⟨v, rfl⟩ | ⟨data, rfl⟩ | ⟨v, rfl⟩
    · simp only [addField, toFields, encodeFields_append, List.length_append, Option.elim,
        encodeFields, List.append_nil, UInt64.toUInt64_toInt64]
      omega
    · simp only [addField, toFields, encodeFields_append, List.length_append, Option.elim,
        encodeFields, List.append_nil]
      omega
    · simp only [addField, toFields, encodeFields_append, List.length_append, Option.elim,
        encodeFields, List.append_nil, UInt64.toUInt64_toInt64]
      omega

/-- What fields mean is well-formed, and no longer than they are. -/
theorem foldl_addField {fields : List WireFormat.Field} {bytes : List UInt8}
    {message : TextChangeMessage} (h : message.WellFormed)
    (hfields : IsFields kDefaultRecursionLimit fields bytes) :
    (fields.foldl addField message).WellFormed ∧
      (encodeFields (fields.foldl addField message).toFields).length ≤
        (encodeFields message.toFields).length + (encodeFields fields).length := by
  induction fields generalizing message bytes with
  | nil => exact ⟨h, Nat.le_add_right _ _⟩
  | cons field fields ih =>
      rcases hfields.uncons with ⟨first, rest, hfirst, hrest, -⟩
      have hlength := length_addField_le message field
      rcases ih (addField_wellFormed h hfirst) hrest with ⟨hwf, hle⟩
      refine ⟨hwf, ?_⟩
      rw [List.foldl_cons, encodeFields, List.length_append]
      omega

/-- A parsed message can be serialized again, in no more bytes than it came from, and these are
parsed as the same message. -/
theorem serializeAsString_parseFromArray {message : TextChangeMessage} {data : List UInt8}
    (h : parseFromArray data = (true, message)) (hlimit : data.length ≤ kDefaultTotalBytesLimit) :
    ∃ data', message.serializeAsString = some data' ∧ data'.length ≤ data.length ∧
      parseFromArray data' = (true, message) := by
  rcases isFields_of_parseFromArray h with ⟨fields, hfields, rfl, -⟩
  rcases foldl_addField clear_wellFormed hfields with ⟨hwf, hle⟩
  have hdata := serializeWithCachedSizesToArray_eq hwf
  have hshort := hfields.length_encodeFields_le
  have hlength : (ofFields fields).serializeWithCachedSizesToArray.length ≤ data.length := by
    rw [ofFields, hdata]
    exact hle.trans (by simpa [clear, toFields, encodeFields] using hshort)
  have hbound : kDefaultTotalBytesLimit < 2 ^ 31 := by decide
  have hfit : (ofFields fields).StringsFit := hwf.stringsFit
  exact ⟨_, (serializeAsString_eq_some_iff hfit).mpr ⟨rfl, by omega⟩, hlength,
    parseFromArray_serialize hwf (Or.inl (hlength.trans hlimit))⟩

/-- A number that takes a byte too many is written in one byte less. -/
theorem serializeAsString_parseFromArray_long :
    ∃ data', (⟨some 5, none, none, []⟩ : TextChangeMessage).serializeAsString = some data' ∧
      data'.length ≤ 3 ∧ parseFromArray data' = (true, ⟨some 5, none, none, []⟩) :=
  @serializeAsString_parseFromArray ⟨some 5, none, none, []⟩ [8, 133, 0] rfl (by decide)

/-! ## Two messages, one behind the other -/

theorem mergeFrom_addField (message source : TextChangeMessage) (field : WireFormat.Field) :
    message.mergeFrom (source.addField field) = (message.mergeFrom source).addField field := by
  by_cases hnew : IsUnknown field
  · rw [addField_of_isUnknown hnew, addField_of_isUnknown hnew, mergeFrom, mergeFrom,
      List.append_assoc]
  · rcases known_cases hnew with ⟨v, rfl⟩ | ⟨data, rfl⟩ | ⟨v, rfl⟩ <;> rfl

theorem mergeFrom_clear (message : TextChangeMessage) : message.mergeFrom clear = message := by
  rcases message with ⟨cursorLocation, contentModified, numChars, unknownFields⟩
  simp [mergeFrom, clear]

/-- Parsing into a message is merging what was parsed into it. -/
theorem mergeFrom_foldl (message source : TextChangeMessage) (fields : List WireFormat.Field) :
    message.mergeFrom (fields.foldl addField source) =
      fields.foldl addField (message.mergeFrom source) := by
  induction fields generalizing source with
  | nil => rfl
  | cons field fields ih => rw [List.foldl_cons, ih, mergeFrom_addField, List.foldl_cons]

/-- Two messages that are parsed, one behind the other, are parsed as the first merged with the
second. -/
theorem parseFromArray_append {message message' : TextChangeMessage} {data data' : List UInt8}
    (h : parseFromArray data = (true, message)) (h' : parseFromArray data' = (true, message'))
    (hlimit : (data ++ data').length ≤ kDefaultTotalBytesLimit) :
    parseFromArray (data ++ data') = (true, message.mergeFrom message') := by
  rcases isFields_of_parseFromArray h with ⟨fields, hfields, rfl, -⟩
  rcases isFields_of_parseFromArray h' with ⟨fields', hfields', rfl, -⟩
  rw [parseFromArray_of_isFields (hfields.append hfields') (Or.inl hlimit), ofFields, ofFields,
    ofFields, mergeFrom_foldl, mergeFrom_clear, List.foldl_append]

/-- The second message replaces one field of the first. -/
theorem parseFromArray_append_two :
    parseFromArray ([8, 5, 24, 1] ++ [24, 2]) = (true, ⟨some 5, none, some 2, []⟩) :=
  @parseFromArray_append ⟨some 5, none, some 1, []⟩ ⟨none, none, some 2, []⟩ [8, 5, 24, 1] [24, 2]
    rfl rfl (by decide)

end TextChangeMessage

end WeWrite.Wire
