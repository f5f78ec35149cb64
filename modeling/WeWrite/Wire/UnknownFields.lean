import WeWrite.Wire.CodedOutput
import WeWrite.Wire.Readers

/-!
# Unknown fields

A message keeps the fields that it does not know, groups with everything in them, and writes
them out again behind its own.

Main results:

- Theorem `serializeUnknownFieldsToArray_eq`: encodable fields are written in their shortest
  encoding.
- Theorem `computeUnknownFieldsSize_eq`: the size that is computed is the number of bytes
  that are written, when the size of every string is an `int`.
- Theorems `skipField_scalar` and `skipField_group`: what stands on the wire is read.
- Theorem `skip_sound`: what is read stands on the wire.
-/

namespace WeWrite.Wire

open Varint WireFormat CodedInputStream

/-- An unknown field: `number_`, `type_` and the value, or the set of fields of a group. -/
abbrev UnknownField := WireFormat.Field

/-- `UnknownFieldSet`. -/
abbrev UnknownFieldSet := List UnknownField

/-! ## Tags -/

/-- `WIRETYPE_VARINT`. -/
@[match_pattern] abbrev wireTypeVarint : Nat := 0

/-- `WIRETYPE_FIXED64`. -/
@[match_pattern] abbrev wireTypeFixed64 : Nat := 1

/-- `WIRETYPE_LENGTH_DELIMITED`. -/
@[match_pattern] abbrev wireTypeLengthDelimited : Nat := 2

/-- `WIRETYPE_START_GROUP`. -/
@[match_pattern] abbrev wireTypeStartGroup : Nat := 3

/-- `WIRETYPE_END_GROUP`. -/
@[match_pattern] abbrev wireTypeEndGroup : Nat := 4

/-- `WIRETYPE_FIXED32`. -/
@[match_pattern] abbrev wireTypeFixed32 : Nat := 5

/-- `WireFormatLite::MakeTag`. -/
def makeTag (fieldNumber type : Nat) : UInt32 :=
  UInt32.ofNat fieldNumber <<< 3 ||| UInt32.ofNat type

/-- `WireFormatLite::GetTagWireType`. -/
def getTagWireType (tag : UInt32) : Nat :=
  (tag &&& 7).toNat

/-- `WireFormatLite::GetTagFieldNumber`. -/
def getTagFieldNumber (tag : UInt32) : Nat :=
  (tag >>> 3).toNat

/-! ## Writing -/

mutual

/-- The body of the loop of `SerializeUnknownFieldsToArray`. -/
def serializeUnknownField : UnknownField → List UInt8
  | .scalar number (.varint value) =>
      writeTagToArray (makeTag number wireTypeVarint) ++ writeVarint64ToArrayInline value
  | .scalar number (.fixed32 value) =>
      writeTagToArray (makeTag number wireTypeFixed32) ++ writeLittleEndian32ToArray value
  | .scalar number (.fixed64 value) =>
      writeTagToArray (makeTag number wireTypeFixed64) ++ writeLittleEndian64ToArray value
  | .scalar number (.lengthDelimited data) =>
      writeTagToArray (makeTag number wireTypeLengthDelimited) ++
        writeVarint32ToArray (.ofNat data.length) ++ writeStringToArray data
  | .group number fields =>
      writeTagToArray (makeTag number wireTypeStartGroup) ++
        serializeUnknownFieldsToArray fields ++
        writeTagToArray (makeTag number wireTypeEndGroup)

/-- `WireFormat::SerializeUnknownFieldsToArray`. -/
def serializeUnknownFieldsToArray : UnknownFieldSet → List UInt8
  | [] => []
  | field :: fields => serializeUnknownField field ++ serializeUnknownFieldsToArray fields

end

mutual

/-- The body of the loop of `ComputeUnknownFieldsSize`. -/
def computeUnknownFieldSize : UnknownField → Nat
  | .scalar number (.varint value) =>
      varintSize32 (makeTag number wireTypeVarint) + varintSize64 value
  | .scalar number (.fixed32 _) => varintSize32 (makeTag number wireTypeFixed32) + 4
  | .scalar number (.fixed64 _) => varintSize32 (makeTag number wireTypeFixed64) + 8
  | .scalar number (.lengthDelimited data) =>
      varintSize32 (makeTag number wireTypeLengthDelimited) +
        varintSize32 (.ofNat data.length) + data.length
  | .group number fields =>
      varintSize32 (makeTag number wireTypeStartGroup) + computeUnknownFieldsSize fields +
        varintSize32 (makeTag number wireTypeEndGroup)

/-- `WireFormat::ComputeUnknownFieldsSize`, before its sum is cut to an `int`. -/
def computeUnknownFieldsSize : UnknownFieldSet → Nat
  | [] => 0
  | field :: fields => computeUnknownFieldSize field + computeUnknownFieldsSize fields

end

/-! ## Reading -/

mutual

/-- `WireFormat::SkipField` with a set to fill: whether it succeeds, the set, and the stream.
Reading a field takes at most two units of `fuel` for each byte that is left, and two more. -/
def skipField : Nat → CodedInputStream → UInt32 → UnknownFieldSet →
    Bool × UnknownFieldSet × CodedInputStream
  | 0, input, _, unknownFields => (false, unknownFields, input)
  | fuel + 1, input, tag, unknownFields =>
      let number := getTagFieldNumber tag
      match getTagWireType tag with
      | wireTypeVarint =>
          match input.readVarint64 with
          | none => (false, unknownFields, input)
          | some (value, input) =>
              (true, unknownFields ++ [.scalar number (.varint value)], input)
      | wireTypeFixed64 =>
          match input.readLittleEndian64 with
          | none => (false, unknownFields, input)
          | some (value, input) =>
              (true, unknownFields ++ [.scalar number (.fixed64 value)], input)
      | wireTypeLengthDelimited =>
          match input.readVarint32 with
          | none => (false, unknownFields, input)
          | some (length, input) =>
              -- the field is added before its string is read
              let (ok, data, input) := input.readString [] length.toInt32.toInt
              (ok, unknownFields ++ [.scalar number (.lengthDelimited data)], input)
      | wireTypeStartGroup =>
          match input.incrementRecursionDepth with
          | none => (false, unknownFields, input)
          | some input =>
              let (ok, group, input) := skipMessage fuel input []
              let unknownFields := unknownFields ++ [.group number group]
              if ok then
                let input := input.decrementRecursionDepth
                (input.lastTagWas (makeTag number wireTypeEndGroup), unknownFields, input)
              else (false, unknownFields, input)
      | wireTypeFixed32 =>
          match input.readLittleEndian32 with
          | none => (false, unknownFields, input)
          | some (value, input) =>
              (true, unknownFields ++ [.scalar number (.fixed32 value)], input)
      | _ => (false, unknownFields, input)

/-- `WireFormat::SkipMessage`. -/
def skipMessage : Nat → CodedInputStream → UnknownFieldSet →
    Bool × UnknownFieldSet × CodedInputStream
  | 0, input, unknownFields => (false, unknownFields, input)
  | fuel + 1, input, unknownFields =>
      let (tag, input) := input.readTag
      -- end of input: a valid place to end
      if tag = 0 then (true, unknownFields, input)
      else if getTagWireType tag = wireTypeEndGroup then (true, unknownFields, input)
      else
        let (ok, unknownFields, input) := skipField fuel input tag unknownFields
        if ok then skipMessage fuel input unknownFields else (false, unknownFields, input)

end

/-! ## Tags and what is written -/

theorem getTagWireType_eq (tag : UInt32) : getTagWireType tag = tag.toNat % 8 := by
  rw [getTagWireType, UInt32.toNat_and]
  exact Nat.and_two_pow_sub_one_eq_mod tag.toNat 3

theorem getTagFieldNumber_eq (tag : UInt32) : getTagFieldNumber tag = tag.toNat / 8 := by
  rw [getTagFieldNumber, UInt32.toNat_shiftRight]
  exact Nat.shiftRight_eq_div_pow tag.toNat 3

theorem toNat_makeTag {number type : Nat} (htype : type < 8) (hlt : number < 2 ^ 29) :
    (makeTag number type).toNat = 8 * number + type := by
  have hnumber : (UInt32.ofNat number <<< 3).toNat = 2 ^ 3 * number := by
    rw [UInt32.toNat_shiftLeft, UInt32.toNat_ofNat']
    change (number % 2 ^ 32) <<< 3 % 2 ^ 32 = _
    rw [Nat.shiftLeft_eq]
    omega
  have htype' : (UInt32.ofNat type).toNat = type := by
    rw [UInt32.toNat_ofNat']
    omega
  rw [makeTag, UInt32.toNat_or, hnumber, htype', ← Nat.two_pow_add_eq_or_of_lt htype]

theorem writeTagToArray_makeTag {number type : Nat} (htype : type < 8) (hlt : number < 2 ^ 29) :
    writeTagToArray (makeTag number type) = encodeTag number type := by
  rw [writeTagToArray_eq, toNat_makeTag htype hlt, encodeTag]

/-- AreEncodable fields are written in their shortest encoding. -/
theorem serializeUnknownFieldsToArray_eq {depth : Nat} {fields : UnknownFieldSet}
    (h : AreEncodable depth fields) :
    serializeUnknownFieldsToArray fields = encodeFields fields := by
  induction fields using fields_induction generalizing depth with
  | nil => rfl
  | scalar number payload fields ih =>
      rw [AreEncodable, WireFormat.Field.IsEncodable] at h
      rcases h with ⟨⟨-, hlt, hpayload⟩, hfields⟩
      have hscalar : serializeUnknownField (.scalar number payload) =
          encodeTag number payload.wireType ++ payload.encode := by
        cases payload with
        | varint value =>
            rw [serializeUnknownField, writeTagToArray_makeTag (by decide) hlt,
              writeVarint64ToArrayInline_eq]
            rfl
        | fixed64 value =>
            rw [serializeUnknownField, writeTagToArray_makeTag (by decide) hlt,
              writeLittleEndian64ToArray_eq]
            rfl
        | lengthDelimited data =>
            have hsize : data.length < 2 ^ 31 := hpayload
            have hlength : (UInt32.ofNat data.length).toNat = data.length := by
              rw [UInt32.toNat_ofNat']
              omega
            rw [serializeUnknownField, writeTagToArray_makeTag (by decide) hlt,
              writeVarint32ToArray_eq, hlength, writeStringToArray_of_lt hsize, List.append_assoc]
            rfl
        | fixed32 value =>
            rw [serializeUnknownField, writeTagToArray_makeTag (by decide) hlt,
              writeLittleEndian32ToArray_eq]
            rfl
      rw [serializeUnknownFieldsToArray, encodeFields, WireFormat.Field.encode, hscalar, ih hfields]
  | group number inner fields ihinner ih =>
      cases depth with
      | zero =>
          rw [AreEncodable, WireFormat.Field.IsEncodable] at h
          exact h.1.elim
      | succ depth =>
          rw [AreEncodable, WireFormat.Field.IsEncodable] at h
          rcases h with ⟨⟨hlt, hinner⟩, hfields⟩
          rw [serializeUnknownFieldsToArray, serializeUnknownField, ihinner hinner, ih hfields,
            writeTagToArray_makeTag (by decide) hlt, writeTagToArray_makeTag (by decide) hlt]
          rfl

theorem length_writeTagToArray (tag : UInt32) :
    (writeTagToArray tag).length = varintSize32 tag := by
  rw [writeTagToArray_eq, varintSize32_eq]

mutual

/-- Every string in the field has a size that is an `int`. -/
def FieldStringsFit : UnknownField → Prop
  | .scalar _ (.lengthDelimited data) => data.length < 2 ^ 31
  | .scalar _ _ => True
  | .group _ fields => StringsFit fields

/-- Every string in the fields has a size that is an `int`. -/
def StringsFit : UnknownFieldSet → Prop
  | [] => True
  | field :: fields => FieldStringsFit field ∧ StringsFit fields

end

/-- What can be written and read back fits. -/
theorem stringsFit_of_areEncodable {depth : Nat} {fields : UnknownFieldSet}
    (h : AreEncodable depth fields) : StringsFit fields := by
  induction fields using fields_induction generalizing depth with
  | nil => trivial
  | scalar number payload fields ih =>
      rw [AreEncodable, WireFormat.Field.IsEncodable] at h
      rcases h with ⟨⟨-, -, hpayload⟩, hfields⟩
      refine ⟨?_, ih hfields⟩
      cases payload with
      | lengthDelimited data => exact hpayload
      | _ => trivial
  | group number inner fields ihinner ih =>
      cases depth with
      | zero =>
          rw [AreEncodable, WireFormat.Field.IsEncodable] at h
          exact h.1.elim
      | succ depth =>
          rw [AreEncodable, WireFormat.Field.IsEncodable] at h
          exact ⟨ihinner h.1.2, ih h.2⟩

/-- The computed size is the number of bytes written. -/
theorem computeUnknownFieldsSize_eq {fields : UnknownFieldSet} (h : StringsFit fields) :
    computeUnknownFieldsSize fields = (serializeUnknownFieldsToArray fields).length := by
  induction fields using fields_induction with
  | nil => rfl
  | scalar number payload fields ih =>
      rcases h with ⟨hfield, hfields⟩
      rw [computeUnknownFieldsSize, serializeUnknownFieldsToArray, List.length_append, ih hfields,
        Nat.add_right_cancel_iff]
      cases payload with
      | varint value =>
          rw [computeUnknownFieldSize, serializeUnknownField, List.length_append,
            length_writeTagToArray, writeVarint64ToArrayInline_eq, varintSize64_eq]
      | fixed64 value =>
          rw [computeUnknownFieldSize, serializeUnknownField, List.length_append,
            length_writeTagToArray, writeLittleEndian64ToArray_eq, length_littleEndian]
      | lengthDelimited data =>
          have hsize : data.length < 2 ^ 31 := hfield
          rw [computeUnknownFieldSize, serializeUnknownField, List.length_append,
            List.length_append, length_writeTagToArray, writeVarint32ToArray_eq, varintSize32_eq,
            varintSize32_eq, writeStringToArray_of_lt hsize]
      | fixed32 value =>
          rw [computeUnknownFieldSize, serializeUnknownField, List.length_append,
            length_writeTagToArray, writeLittleEndian32ToArray_eq, length_littleEndian]
  | group number inner fields ihinner ih =>
      rcases h with ⟨hinner, hfields⟩
      rw [computeUnknownFieldsSize, serializeUnknownFieldsToArray, List.length_append, ih hfields,
        computeUnknownFieldSize, serializeUnknownField, List.length_append, List.length_append,
        length_writeTagToArray, length_writeTagToArray, ihinner hinner]

/-! ## Reading what stands on the wire -/

theorem toInt_toInt32_eq_iff {v : UInt32} {n : Nat} :
    v.toInt32.toInt = n ↔ v.toNat = n ∧ n < 2 ^ 31 := by
  have hlt := v.toNat_lt
  have hcond : v.toInt32.toInt =
      if 2 * v.toNat < 2 ^ 32 then (v.toNat : Int) else v.toNat - 2 ^ 32 :=
    BitVec.toInt_eq_toNat_cond v.toBitVec
  rw [hcond]
  split_ifs
  · omega
  · omega

theorem getTagWireType_makeTag {number type : Nat} (htype : type < 8) (hlt : number < 2 ^ 29) :
    getTagWireType (makeTag number type) = type := by
  rw [getTagWireType_eq, toNat_makeTag htype hlt]
  omega

theorem getTagFieldNumber_makeTag {number type : Nat} (htype : type < 8)
    (hlt : number < 2 ^ 29) : getTagFieldNumber (makeTag number type) = number := by
  rw [getTagFieldNumber_eq, toNat_makeTag htype hlt]
  omega

/-- A tag on the wire is read. -/
theorem readTag_isTag {number type : Nat} {tag rest : List UInt8} {input : CodedInputStream}
    (htag : IsTag number type tag) (htype : type < 8) (hbuffer : input.buffer = tag ++ rest) :
    input.readTag = (makeTag number type,
      { input with buffer := rest, lastTag := makeTag number type }) := by
  have hlt := htag.lt
  have hvalue : UInt32.ofNat (value tag) = makeTag number type := by
    apply UInt32.toNat.inj
    rw [UInt32.toNat_ofNat', htag.value, toNat_makeTag htype (by omega)]
  rw [readTag_append htag.isNumber hbuffer, hvalue]

theorem makeTag_ne_zero {number type : Nat} {tag : List UInt8} (htag : IsTag number type tag)
    (htype : type < 8) : makeTag number type ≠ 0 := by
  intro hzero
  have hlt := htag.lt
  have hpos := htag.ne_zero
  have hvalue := toNat_makeTag htype (by omega : number < 2 ^ 29)
  rw [hzero, UInt32.toNat_zero] at hvalue
  omega

/-- A field that is no group is read behind its tag. -/
theorem skipField_scalar {fuel number : Nat} {payload : Payload} {body rest : List UInt8}
    {input : CodedInputStream} {known : UnknownFieldSet} (hlt : number < 2 ^ 29)
    (hbody : IsBody payload body) (hbuffer : input.buffer = body ++ rest) :
    skipField (fuel + 1) input (makeTag number payload.wireType) known =
      (true, known ++ [.scalar number payload], { input with buffer := rest }) := by
  rw [skipField, getTagFieldNumber_makeTag payload.wireType_lt hlt,
    getTagWireType_makeTag payload.wireType_lt hlt]
  cases hbody with
  | varint hbs =>
      simp only [Payload.wireType, readVarint64_append hbs hbuffer]
  | fixed64 v =>
      have hread : input.readLittleEndian64 = some (v, { input with buffer := rest }) :=
        readLittleEndian64_eq_some_iff.mpr ⟨hbuffer, rfl⟩
      simp only [Payload.wireType, hread]
  | @lengthDelimited bs data hbs hlength hsize =>
      rw [List.append_assoc] at hbuffer
      have hsize' : (UInt32.ofNat (value bs)).toInt32.toInt = data.length := by
        rw [toInt_toInt32_eq_iff, UInt32.toNat_ofNat']
        exact ⟨hlength, hsize⟩
      have hread : readString { input with buffer := data ++ rest } [] data.length =
          (true, data, { input with buffer := rest }) := readString_append [] rfl
      simp only [Payload.wireType, readVarint32_append hbs hbuffer, hsize', hread]
  | fixed32 v =>
      have hread : input.readLittleEndian32 = some (v, { input with buffer := rest }) :=
        readLittleEndian32_eq_some_iff.mpr ⟨hbuffer, rfl⟩
      simp only [Payload.wireType, hread]

/-- A group is read behind its tag, when its fields are. -/
theorem skipField_group {fuel number : Nat} {inner : List WireFormat.Field} {rest : List UInt8}
    {input : CodedInputStream} {known : UnknownFieldSet} (hlt : number < 2 ^ 29)
    (hdepth : input.recursionDepth + 1 ≤ kDefaultRecursionLimit)
    (hinner : skipMessage fuel { input with recursionDepth := input.recursionDepth + 1 } [] =
      (true, inner, { input with
        buffer := rest
        recursionDepth := input.recursionDepth + 1
        lastTag := makeTag number endGroup })) :
    skipField (fuel + 1) input (makeTag number startGroup) known =
      (true, known ++ [.group number inner],
        { input with buffer := rest, lastTag := makeTag number endGroup }) := by
  rw [skipField, getTagFieldNumber_makeTag (by decide) hlt, getTagWireType_makeTag (by decide) hlt]
  simp only [startGroup, incrementRecursionDepth, if_pos hdepth, hinner, decrementRecursionDepth,
    if_true, Nat.add_sub_cancel, lastTagWas, endGroup, beq_self_eq_true]

theorem skipMessage_end {fuel number : Nat} {tag rest : List UInt8} {input : CodedInputStream}
    {known : UnknownFieldSet} (htag : IsTag number endGroup tag)
    (hbuffer : input.buffer = tag ++ rest) :
    skipMessage (fuel + 1) input known =
      (true, known, { input with buffer := rest, lastTag := makeTag number endGroup }) := by
  have hlt := htag.lt
  rw [skipMessage, readTag_isTag htag (by decide) hbuffer]
  simp only [if_neg (makeTag_ne_zero htag (by decide)),
    getTagWireType_makeTag (by decide : endGroup < 8) (by omega : number < 2 ^ 29)]
  rfl

/-- One field of a group and then the others. -/
theorem skipMessage_field {fuel number type : Nat} {tag rest : List UInt8}
    {input input' : CodedInputStream} {known known' : UnknownFieldSet}
    (htag : IsTag number type tag) (htype : type < 8) (hend : type ≠ endGroup)
    (hbuffer : input.buffer = tag ++ rest)
    (hfield : skipField fuel { input with buffer := rest, lastTag := makeTag number type }
      (makeTag number type) known = (true, known', input')) :
    skipMessage (fuel + 1) input known = skipMessage fuel input' known' := by
  have hlt := htag.lt
  have hnotEnd : ¬ getTagWireType (makeTag number type) = wireTypeEndGroup := by
    rwa [getTagWireType_makeTag htype (by omega)]
  rw [skipMessage, readTag_isTag htag htype hbuffer]
  simp only [if_neg (makeTag_ne_zero htag htype), if_neg hnotEnd, hfield, if_true]

/-- The fields of a group are read up to its end. -/
theorem skipMessage_group {depth : Nat} {fields : List WireFormat.Field} {bytes : List UInt8}
    (h : IsFields depth fields bytes) {fuel number : Nat} {tag rest : List UInt8}
    {input : CodedInputStream} {known : UnknownFieldSet} (htag : IsTag number endGroup tag)
    (hbuffer : input.buffer = bytes ++ (tag ++ rest))
    (hdepth : depth + input.recursionDepth ≤ kDefaultRecursionLimit)
    (hfuel : 2 * input.buffer.length + 1 ≤ fuel) :
    skipMessage fuel input known = (true, known ++ fields,
      { input with buffer := rest, lastTag := makeTag number endGroup }) := by
  have hpos := htag.isNumber.length_pos
  induction h generalizing fuel number tag rest input known with
  | nil =>
      obtain ⟨fuel, rfl⟩ : ∃ n, fuel = n + 1 := Nat.exists_eq_succ_of_ne_zero (by omega)
      rw [skipMessage_end htag hbuffer, List.append_nil]
  | @scalar depth field payload fields tag' body bytes htag' hbody _ ih =>
      have hlt := htag'.lt
      have hpos' := htag'.isNumber.length_pos
      rw [hbuffer] at hfuel
      simp only [List.length_append, List.append_assoc] at hfuel hbuffer
      obtain ⟨fuel, rfl⟩ : ∃ n, fuel = n + 2 := ⟨fuel - 2, by omega⟩
      have hnotEnd : payload.wireType ≠ endGroup := by
        cases payload <;> simp [Payload.wireType, endGroup]
      refine (skipMessage_field htag' payload.wireType_lt hnotEnd hbuffer
        (skipField_scalar (by omega) hbody rfl)).trans ?_
      rw [List.append_cons known _ fields]
      refine ih htag rfl hdepth ?_ hpos
      simp only [List.length_append]
      omega
  | @group depth field inner fields tag' body tag'' bytes htag' _ htag'' _ ihinner ih =>
      have hlt := htag'.lt
      have hpos' := htag'.isNumber.length_pos
      have hpos'' := htag''.isNumber.length_pos
      rw [hbuffer] at hfuel
      simp only [List.length_append, List.append_assoc] at hfuel hbuffer
      obtain ⟨fuel, rfl⟩ : ∃ n, fuel = n + 2 := ⟨fuel - 2, by omega⟩
      let behind : CodedInputStream := { input with
        buffer := body ++ (tag'' ++ (bytes ++ (tag ++ rest)))
        lastTag := makeTag field startGroup
        recursionDepth := input.recursionDepth + 1 }
      have hinner : skipMessage fuel behind [] = (true, inner, { behind with
          buffer := bytes ++ (tag ++ rest)
          lastTag := makeTag field endGroup }) := by
        refine ihinner htag'' rfl ?_ ?_ hpos''
        · change depth + (input.recursionDepth + 1) ≤ kDefaultRecursionLimit
          omega
        · simp only [behind, List.length_append]
          omega
      refine (skipMessage_field htag' (by decide) (by decide) hbuffer
        (skipField_group (by omega) (by simp only; omega) hinner)).trans ?_
      rw [List.append_cons known _ fields]
      refine ih htag rfl hdepth ?_ hpos
      simp only [List.length_append]
      omega

/-! ## What is read stands on the wire -/

/-- Every tag is made of a number and a wire type. -/
theorem makeTag_number_type (tag : UInt32) : makeTag (tag.toNat / 8) (tag.toNat % 8) = tag := by
  have hlt := tag.toNat_lt
  apply UInt32.toNat.inj
  rw [toNat_makeTag (by omega) (by omega)]
  omega

/-- A tag other than 0 was on the wire. -/
theorem isTag_of_readTag {input input' : CodedInputStream} {tag : UInt32}
    (h : input.readTag = (tag, input')) (htag : tag ≠ 0) :
    ∃ number type bs, type < 8 ∧ IsTag number type bs ∧ tag = makeTag number type ∧
      input.buffer = bs ++ input'.buffer ∧
      input' = { input with buffer := input'.buffer, lastTag := tag } := by
  rcases readTag_of_ne_zero h htag with ⟨bs, hbs, hbuffer, hvalue, hinput⟩
  have hlt := tag.toNat_lt
  have hnat : tag.toNat = value bs % 2 ^ 32 := by rw [hvalue, UInt32.toNat_ofNat']
  have hne : tag.toNat ≠ 0 := fun hzero => htag (UInt32.toNat.inj hzero)
  exact ⟨tag.toNat / 8, tag.toNat % 8, bs, by omega, ⟨hbs, by omega, by omega⟩,
    (makeTag_number_type tag).symm, hbuffer, hinput⟩

/-- What was read behind the tag of a field that is no group. -/
theorem skipField_scalar_sound {fuel number type : Nat} {input input' : CodedInputStream}
    {known known' : UnknownFieldSet} (htype : type < 8) (hlt : number < 2 ^ 29)
    (hscalar : type ≠ startGroup)
    (h : skipField (fuel + 1) input (makeTag number type) known = (true, known', input')) :
    ∃ payload body, payload.wireType = type ∧ IsBody payload body ∧
      known' = known ++ [.scalar number payload] ∧ input.buffer = body ++ input'.buffer ∧
      input' = { input with buffer := input'.buffer } := by
  rw [skipField, getTagFieldNumber_makeTag htype hlt, getTagWireType_makeTag htype hlt] at h
  split at h
  · -- a number
    split at h
    · cases h
    next v input1 hread =>
      obtain ⟨-, rfl, rfl⟩ : true = true ∧ _ = known' ∧ input1 = input' := by simpa using h
      rcases readVarint64_eq_some hread with ⟨bs, hbs, hbuffer, rfl, hinput⟩
      exact ⟨_, bs, rfl, .varint hbs, rfl, hbuffer, hinput⟩
  · -- eight bytes
    split at h
    · cases h
    next v input1 hread =>
      obtain ⟨-, rfl, rfl⟩ : true = true ∧ _ = known' ∧ input1 = input' := by simpa using h
      rcases readLittleEndian64_eq_some_iff.mp hread with ⟨hbuffer, hinput⟩
      exact ⟨_, _, rfl, .fixed64 v, rfl, hbuffer, hinput⟩
  · -- a length and a string
    split at h
    · cases h
    next length input1 hread =>
      rcases readVarint32_eq_some hread with ⟨bs, hbs, hbuffer, rfl, hinput1⟩
      cases hstring : input1.readString [] (UInt32.ofNat (value bs)).toInt32.toInt with
      | mk ok result =>
          rcases result with ⟨data, input2⟩
          simp only [hstring, Prod.mk.injEq] at h
          rcases h with ⟨rfl, rfl, rfl⟩
          rcases readString_eq_true hstring with ⟨hbuffer1, hsize, hinput2⟩
          rcases toInt_toInt32_eq_iff.mp hsize with ⟨hlength, hsize⟩
          rw [UInt32.toNat_ofNat'] at hlength
          refine ⟨_, bs ++ data, rfl, .lengthDelimited hbs hlength hsize, rfl, ?_, ?_⟩
          · rw [hbuffer, hbuffer1, List.append_assoc]
          · rw [hinput2, hinput1]
  · exact (hscalar rfl).elim
  · -- four bytes
    split at h
    · cases h
    next v input1 hread =>
      obtain ⟨-, rfl, rfl⟩ : true = true ∧ _ = known' ∧ input1 = input' := by simpa using h
      rcases readLittleEndian32_eq_some_iff.mp hread with ⟨hbuffer, hinput⟩
      exact ⟨_, _, rfl, .fixed32 v, rfl, hbuffer, hinput⟩
  · cases h

/-- What `SkipMessage` has read when it succeeds: fields, and the tag that ends the group if it
has come to one. -/
def SkippedMessage (input input' : CodedInputStream) (known known' : UnknownFieldSet) : Prop :=
  ∃ fields bytes, known' = known ++ fields ∧
    IsFields (kDefaultRecursionLimit - input.recursionDepth) fields bytes ∧
    (input'.lastTag ≠ 0 → ∃ number tag, IsTag number endGroup tag ∧
      input.buffer = bytes ++ (tag ++ input'.buffer) ∧
      input' = { input with buffer := input'.buffer, lastTag := makeTag number endGroup })

/-- What `SkipField` has read behind a tag when it succeeds. -/
def SkippedField (input input' : CodedInputStream) (tag : List UInt8)
    (known known' : UnknownFieldSet) : Prop :=
  ∃ field bytes, known' = known ++ [field] ∧
    IsFields (kDefaultRecursionLimit - input.recursionDepth) [field] (tag ++ bytes) ∧
    input.buffer = bytes ++ input'.buffer ∧
    input' = { input with buffer := input'.buffer, lastTag := input'.lastTag }

theorem makeTag_inj {number number' type : Nat} (htype : type < 8) (hlt : number < 2 ^ 29)
    (hlt' : number' < 2 ^ 29) (h : makeTag number type = makeTag number' type) :
    number = number' := by
  have hnat := congrArg UInt32.toNat h
  rw [toNat_makeTag htype hlt, toNat_makeTag htype hlt'] at hnat
  omega

/-- A group that was read behind its tag. -/
theorem skippedField_group {fuel number : Nat} {tag : List UInt8}
    {input input' : CodedInputStream} {known known' : UnknownFieldSet}
    (htag : IsTag number startGroup tag)
    (hmessage : ∀ {input input' known known'},
      skipMessage fuel input known = (true, known', input') →
        SkippedMessage input input' known known')
    (h : skipField (fuel + 1) input (makeTag number startGroup) known = (true, known', input')) :
    SkippedField input input' tag known known' := by
  have hlt := htag.lt
  have hnumber : number < 2 ^ 29 := by omega
  rw [skipField, getTagFieldNumber_makeTag (by decide) hnumber,
    getTagWireType_makeTag (by decide) hnumber] at h
  simp only [startGroup, incrementRecursionDepth] at h
  split_ifs at h with hdepth
  · cases hskip : skipMessage fuel { input with recursionDepth := input.recursionDepth + 1 } [] with
    | mk ok result =>
        rcases result with ⟨inner, input2⟩
        simp only [hskip] at h
        cases ok with
        | false => cases h
        | true =>
            simp only [if_true, Prod.mk.injEq] at h
            rcases h with ⟨hlast, rfl, rfl⟩
            have hlast : input2.lastTag = makeTag number endGroup := by
              rw [lastTagWas, beq_iff_eq] at hlast
              exact hlast
            have hpos : makeTag number endGroup ≠ 0 := by
              intro hzero
              have hvalue := toNat_makeTag (by decide : endGroup < 8) hnumber
              rw [hzero, UInt32.toNat_zero, endGroup] at hvalue
              omega
            rcases hmessage hskip with ⟨fields, bytes, hinner, hfields, hend⟩
            rw [List.nil_append] at hinner
            subst hinner
            rcases hend (by rw [hlast]; exact hpos) with ⟨number', tag', htag', hbuffer, hinput2⟩
            have hlt' := htag'.lt
            obtain rfl : number = number' := by
              rw [hinput2] at hlast
              exact (makeTag_inj (by decide) (by omega) hnumber hlast).symm
            have hdepth' : kDefaultRecursionLimit - input.recursionDepth =
                kDefaultRecursionLimit - (input.recursionDepth + 1) + 1 := by omega
            refine ⟨.group number inner, bytes ++ tag', rfl, ?_, ?_, ?_⟩
            · rw [hdepth']
              have hgroup := IsFields.group htag hfields htag' .nil
              rwa [List.append_nil] at hgroup
            · rw [List.append_assoc]
              exact hbuffer
            · rw [decrementRecursionDepth, hinput2]
              rfl
  · cases h

/-- One pass of the loop of `SkipMessage`. -/
theorem skippedMessage_step {fuel : Nat} {input input' : CodedInputStream}
    {known known' : UnknownFieldSet}
    (hfield : ∀ {input input' known known' number type} {tag : List UInt8}, type < 8 →
      IsTag number type tag →
      skipField fuel input (makeTag number type) known = (true, known', input') →
        SkippedField input input' tag known known')
    (hmessage : ∀ {input input' known known'},
      skipMessage fuel input known = (true, known', input') →
        SkippedMessage input input' known known')
    (h : skipMessage (fuel + 1) input known = (true, known', input')) :
    SkippedMessage input input' known known' := by
  rw [skipMessage] at h
  cases hread : input.readTag with
  | mk tag input1 =>
      simp only [hread] at h
      split_ifs at h with hzero hend hok
      · -- the end of the input
        obtain ⟨-, rfl, rfl⟩ : true = true ∧ known = known' ∧ input1 = input' := by simpa using h
        exact ⟨[], [], (List.append_nil known).symm, .nil, fun hne =>
          (hne (by rw [lastTag_readTag hread, hzero])).elim⟩
      · -- the end of the group
        obtain ⟨-, rfl, rfl⟩ : true = true ∧ known = known' ∧ input1 = input' := by simpa using h
        rcases isTag_of_readTag hread hzero with
          ⟨number, type, bs, htype, htag, rfl, hbuffer, hinput1⟩
        have hlt := htag.lt
        rw [getTagWireType_makeTag htype (by omega)] at hend
        subst hend
        exact ⟨[], [], (List.append_nil known).symm, .nil, fun _ =>
          ⟨number, bs, htag, hbuffer, hinput1⟩⟩
      · -- a field and then the others
        rcases isTag_of_readTag hread hzero with
          ⟨number, type, bs, htype, htag, rfl, hbuffer, hinput1⟩
        cases hskip : skipField fuel input1 (makeTag number type) known with
        | mk ok result =>
            rcases result with ⟨known1, input2⟩
            rw [hskip] at hok h
            obtain rfl : ok = true := hok
            rcases hfield htype htag hskip with ⟨field, bytes, rfl, hfield, hbuffer1, hinput2⟩
            rcases hmessage h with ⟨fields, bytes', rfl, hfields, hlast⟩
            rw [hinput2, hinput1] at hfields
            rw [hinput1] at hfield
            refine ⟨field :: fields, bs ++ bytes ++ bytes', ?_, hfield.append hfields,
              fun hne => ?_⟩
            · rw [List.append_assoc, List.singleton_append]
            · rcases hlast hne with ⟨number', tag', htag', hbuffer2, hinput'⟩
              refine ⟨number', tag', htag', ?_, ?_⟩
              · rw [hbuffer, hbuffer1, hbuffer2]
                simp only [List.append_assoc]
              · rw [hinput', hinput2, hinput1]
      · cases (Prod.mk.inj h).1

/-- What `SkipField` and `SkipMessage` have read when they succeed. -/
theorem skip_sound (fuel : Nat) :
    (∀ {input input' : CodedInputStream} {known known' : UnknownFieldSet} {number type : Nat}
        {tag : List UInt8}, type < 8 → IsTag number type tag →
        skipField fuel input (makeTag number type) known = (true, known', input') →
        SkippedField input input' tag known known') ∧
      ∀ {input input' : CodedInputStream} {known known' : UnknownFieldSet},
        skipMessage fuel input known = (true, known', input') →
        SkippedMessage input input' known known' := by
  induction fuel with
  | zero =>
      constructor
      · intro _ _ _ _ _ _ _ _ _ h
        rw [skipField] at h
        cases (Prod.mk.inj h).1
      · intro _ _ _ _ h
        rw [skipMessage] at h
        cases (Prod.mk.inj h).1
  | succ fuel ih =>
      constructor
      · intro input input' known known' number type tag htype htag h
        have hlt := htag.lt
        by_cases hgroup : type = startGroup
        · subst hgroup
          exact skippedField_group htag ih.2 h
        · rcases skipField_scalar_sound htype (by omega) hgroup h with
            ⟨payload, body, rfl, hbody, hknown, hbuffer, hinput⟩
          exact ⟨_, body, hknown, .singleton_scalar htag hbody, hbuffer, by rw [hinput]⟩
      · intro input input' known known' h
        exact skippedMessage_step ih.1 ih.2 h

end WeWrite.Wire
