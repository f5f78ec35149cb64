import WeWrite.Wire.TextChangeMessage

/-!
# What the parser accepts

A message means the fields that stand on the wire, one after the other: a field of its own
replaces what was there, and every other field is kept as an unknown one.  The parser accepts
an array exactly when it consists of fields, and the shortcuts from one field to the next change
nothing, but for one thing: an array above the limit of 64 MB is accepted when it ends in
`numChars`.

Main results:

- Theorem `pass_field`: one pass of the loop on a field, from every label.
- Theorem `pass_sound`: what one pass has read.
- Theorem `mergeLoop_fields`: the loop reads all fields and succeeds.
- Theorem `mergeLoop_sound`: when the loop succeeds at the end of the input, it has read fields.
- Theorem `parseFromArray_eq_true_iff`: which arrays are accepted, and as which message.
-/

namespace WeWrite.Wire

open Varint WireFormat CodedInputStream

namespace TextChangeMessage

/-! ## The meaning of fields -/

/-- The message after one more field on the wire. -/
def addField (message : TextChangeMessage) : WireFormat.Field → TextChangeMessage
  | .scalar 1 (.varint value) => { message with cursorLocation := some value.toInt64 }
  | .scalar 2 (.lengthDelimited data) => { message with contentModified := some data }
  | .scalar 3 (.varint value) => { message with numChars := some value.toInt64 }
  | field => { message with unknownFields := message.unknownFields ++ [field] }

/-- A field that the message does not know. -/
def IsUnknown : WireFormat.Field → Prop
  | .scalar 1 (.varint _) => False
  | .scalar 2 (.lengthDelimited _) => False
  | .scalar 3 (.varint _) => False
  | _ => True

/-- A field that the message does not know is kept at the end of the others. -/
theorem addField_of_isUnknown {field : WireFormat.Field} (h : IsUnknown field)
    (message : TextChangeMessage) : message.addField field =
      { message with unknownFields := message.unknownFields ++ [field] } := by
  unfold addField
  split
  · exact h.elim
  · exact h.elim
  · exact h.elim
  · rfl

/-- The three fields that the message knows. -/
theorem known_cases {field : WireFormat.Field} (h : ¬ IsUnknown field) :
    (∃ value, field = .scalar 1 (.varint value)) ∨
      (∃ data, field = .scalar 2 (.lengthDelimited data)) ∨
      ∃ value, field = .scalar 3 (.varint value) := by
  unfold IsUnknown at h
  split at h
  · exact Or.inl ⟨_, rfl⟩
  · exact Or.inr (Or.inl ⟨_, rfl⟩)
  · exact Or.inr (Or.inr ⟨_, rfl⟩)
  · exact (h trivial).elim

/-- The message that some fields mean. -/
def ofFields (fields : List WireFormat.Field) : TextChangeMessage :=
  fields.foldl addField clear

/-- The last field is `numChars`. -/
def EndsInNumChars (fields : List WireFormat.Field) : Prop :=
  ∃ value, fields.getLast? = some (.scalar 3 (.varint value))

/-- The bytes that have been taken at a label. -/
def Label.behind : Label → List UInt8
  | .loop => []
  | .parseContentModified => [18]
  | .parseNumChars => [24]

/-- The stream has only moved on. -/
structure MovedOn (input input' : CodedInputStream) : Prop where
  totalBytesRead : input'.totalBytesRead = input.totalBytesRead
  legitimateMessageEnd : input'.legitimateMessageEnd = input.legitimateMessageEnd
  recursionDepth : input'.recursionDepth = input.recursionDepth

/-- Moving on twice is moving on. -/
theorem MovedOn.trans {input input' input'' : CodedInputStream} (h : MovedOn input input')
    (h' : MovedOn input' input'') : MovedOn input input'' where
  totalBytesRead := h'.totalBytesRead.trans h.totalBytesRead
  legitimateMessageEnd := h'.legitimateMessageEnd.trans h.legitimateMessageEnd
  recursionDepth := h'.recursionDepth.trans h.recursionDepth

/-! ## The shortcuts -/

/-- A tag of one byte is expected successfully exactly when that byte follows. -/
theorem expectTag_eq_some_iff {input input' : CodedInputStream} {tag : UInt8} (htag : tag < 0x80) :
    input.expectTag tag.toUInt32 = some input' ↔
      input.buffer = tag :: input'.buffer ∧ input' = { input with buffer := input'.buffer } := by
  have hlt : tag.toUInt32.toNat < 1 <<< 7 := by
    rw [UInt8.toNat_toUInt32]
    exact UInt8.lt_iff_toNat_lt.mp htag
  rw [expectTag, if_pos hlt]
  constructor
  · intro h
    split at h
    next b buffer hbuffer =>
        split_ifs at h with hb
        obtain rfl := Option.some.inj h
        obtain rfl : b = tag := by
          apply UInt8.toNat.inj
          rw [← UInt8.toNat_toUInt32, hb, UInt8.toNat_toUInt32]
        exact ⟨hbuffer, rfl⟩
    next => cases h
  · rintro ⟨hbuffer, hinput⟩
    rw [hbuffer, hinput]
    simp

/-- Wherever the loop goes on, nothing that has not been parsed is lost. -/
theorem expectOr_goto {tag : UInt8} {label : Label} (htag : tag < 0x80)
    (hlabel : label.behind = [tag]) (message : TextChangeMessage) (input : CodedInputStream) :
    ∃ label' input', expectOr tag.toUInt32 label message input = (.goto label', message, input') ∧
      label'.behind ++ input'.buffer = input.buffer ∧ MovedOn input input' := by
  rw [expectOr]
  cases hexpect : input.expectTag tag.toUInt32 with
  | none => exact ⟨.loop, input, rfl, rfl, rfl, rfl, rfl⟩
  | some input' =>
      rcases (expectTag_eq_some_iff htag).mp hexpect with ⟨hbuffer, hinput⟩
      refine ⟨label, input', rfl, ?_, ?_⟩
      · rw [hlabel, hbuffer, List.singleton_append]
      · rw [hinput]
        exact ⟨rfl, rfl, rfl⟩

/-! ## One pass on a field -/

/-- A pass has read `field` and goes on with `rest`, or has succeeded at the end behind
`numChars`. -/
inductive PassedField (message : TextChangeMessage) (field : WireFormat.Field)
    (rest : List UInt8) (input : CodedInputStream) : PassResult → Prop where
  | goto (label : Label) {input' : CodedInputStream}
      (hrest : label.behind ++ input'.buffer = rest) (hmoved : MovedOn input input')
      (hmore : ∀ value, field = .scalar 3 (.varint value) → rest ≠ []) :
      PassedField message field rest input (.goto label, message.addField field, input')
  | ret {input' : CodedInputStream} {value : UInt64} (hrest : rest = [])
      (hfield : field = .scalar 3 (.varint value)) (hend : input'.legitimateMessageEnd = true) :
      PassedField message field rest input (.ret true, message.addField field, input')

/-- The pass on the first field, behind its tag. -/
theorem parseCursorLocation_body {message : TextChangeMessage} {input : CodedInputStream}
    {v : UInt64} {body rest : List UInt8} (hbody : IsBody (.varint v) body)
    (hbuffer : input.buffer = body ++ rest) :
    PassedField message (.scalar 1 (.varint v)) rest input (parseCursorLocation message input) := by
  cases hbody with
  | varint hbs =>
      rw [parseCursorLocation, readVarint64_append hbs hbuffer]
      rcases expectOr_goto (by decide) (by rfl : Label.parseContentModified.behind = [18])
        { message with cursorLocation := some (UInt64.ofNat (value body)).toInt64 }
        { input with buffer := rest } with ⟨label, input', hpass, hrest, hmoved⟩
      change PassedField message _ rest input (expectOr (UInt8.toUInt32 18) _ _ _)
      rw [hpass]
      exact .goto label hrest ⟨hmoved.1, hmoved.2, hmoved.3⟩ (fun _ heq => by cases heq)

/-- The pass on the second field, behind its tag. -/
theorem parseContentModified_body {message : TextChangeMessage} {input : CodedInputStream}
    {data body rest : List UInt8} (hbody : IsBody (.lengthDelimited data) body)
    (hbuffer : input.buffer = body ++ rest) :
    PassedField message (.scalar 2 (.lengthDelimited data)) rest input
      (parseContentModified message input) := by
  cases hbody with
  | @lengthDelimited bs _ hbs hlength hsize =>
      rw [List.append_assoc] at hbuffer
      have hsize' : (UInt32.ofNat (value bs)).toInt32.toInt = data.length := by
        rw [toInt_toInt32_eq_iff, UInt32.toNat_ofNat']
        exact ⟨hlength, hsize⟩
      have hread : readString { input with buffer := data ++ rest }
          (message.contentModified.getD []) data.length =
          (true, data, { input with buffer := rest }) := readString_append _ rfl
      rcases expectOr_goto (by decide) (by rfl : Label.parseNumChars.behind = [24])
        { message with contentModified := some data } { input with buffer := rest } with
        ⟨label, input', hpass, hrest, hmoved⟩
      rw [parseContentModified, readVarint32_append hbs hbuffer]
      simp only [hsize', hread, if_true]
      change PassedField message _ rest input (expectOr (UInt8.toUInt32 24) _ _ _)
      rw [hpass]
      exact .goto label hrest ⟨hmoved.1, hmoved.2, hmoved.3⟩ (fun _ heq => by cases heq)

/-- The pass on the third field, behind its tag. -/
theorem parseNumChars_body {message : TextChangeMessage} {input : CodedInputStream}
    {v : UInt64} {body rest : List UInt8} (hbody : IsBody (.varint v) body)
    (hbuffer : input.buffer = body ++ rest) :
    PassedField message (.scalar 3 (.varint v)) rest input (parseNumChars message input) := by
  cases hbody with
  | varint hbs =>
      rw [parseNumChars, readVarint64_append hbs hbuffer]
      simp only [expectAtEnd]
      split_ifs with hend
      · exact .ret hend rfl rfl
      · exact .goto .loop rfl ⟨rfl, rfl, rfl⟩ (fun _ _ => hend)

/-- The pass on a field that the message does not know, behind its tag. -/
theorem handleUninterpreted_field {message : TextChangeMessage} {number type : Nat}
    {input input' : CodedInputStream} {field : WireFormat.Field} {rest : List UInt8}
    (hunknown : IsUnknown field) (htype : type < 8) (hnumber : number < 2 ^ 29)
    (hend : type ≠ endGroup)
    (hskip : skipField (2 * input.buffer.length + 2) input (makeTag number type)
      message.unknownFields = (true, message.unknownFields ++ [field], input'))
    (hrest : input'.buffer = rest) (hmoved : MovedOn input input') :
    PassedField message field rest input
      (handleUninterpreted (makeTag number type) message input) := by
  have hnotEnd : ¬ getTagWireType (makeTag number type) = wireTypeEndGroup := by
    rwa [getTagWireType_makeTag htype hnumber]
  have hgoto : PassedField message field rest input _ :=
    .goto .loop hrest hmoved fun value heq => by
      rw [heq] at hunknown
      exact hunknown.elim
  rw [addField_of_isUnknown hunknown] at hgoto
  rw [handleUninterpreted, if_neg hnotEnd]
  simp only [hskip, if_true]
  exact hgoto

/-- A pass that starts further on has still read the field. -/
theorem PassedField.of_movedOn {message : TextChangeMessage} {field : WireFormat.Field}
    {rest : List UInt8} {input input1 : CodedInputStream} {result : PassResult}
    (hmoved : MovedOn input input1) (h : PassedField message field rest input1 result) :
    PassedField message field rest input result := by
  cases h with
  | goto label hrest hmoved' hmore => exact .goto label hrest (hmoved.trans hmoved') hmore
  | ret hrest hfield hend => exact .ret hrest hfield hend

/-- A tag that belongs to no field of the message. -/
def UnknownTag (number type : Nat) : Prop :=
  ¬ (number = 1 ∧ type = wireTypeVarint) ∧ ¬ (number = 2 ∧ type = wireTypeLengthDelimited) ∧
    ¬ (number = 3 ∧ type = wireTypeVarint)

/-- A tag that belongs to no field of the message goes to `handle_uninterpreted`. -/
theorem pass_loop_unknown {message : TextChangeMessage} {number type : Nat}
    {tag rest : List UInt8} {input : CodedInputStream} (htag : IsTag number type tag)
    (htype : type < 8) (hunknown : UnknownTag number type) (hbuffer : input.buffer = tag ++ rest) :
    pass message input .loop = handleUninterpreted (makeTag number type) message
      { input with buffer := rest, lastTag := makeTag number type } := by
  have hlt := htag.lt
  rcases hunknown with ⟨h1, h2, h3⟩
  rw [pass, readTag_isTag htag htype hbuffer]
  simp only [if_neg (makeTag_ne_zero htag htype),
    getTagFieldNumber_makeTag htype (by omega : number < 2 ^ 29),
    getTagWireType_makeTag htype (by omega : number < 2 ^ 29)]
  split
  · rw [if_neg (fun h => h1 ⟨rfl, h⟩)]
  · rw [if_neg (fun h => h2 ⟨rfl, h⟩)]
  · rw [if_neg (fun h => h3 ⟨rfl, h⟩)]
  · rfl

/-- A field that the message does not know has a tag that belongs to none of its own. -/
theorem unknownTag_of_isUnknown {number : Nat} {payload : Payload}
    (h : IsUnknown (.scalar number payload)) : UnknownTag number payload.wireType := by
  refine ⟨?_, ?_, ?_⟩
  · rintro ⟨rfl, htype⟩
    cases payload with
    | varint v => exact h
    | _ => cases htype
  · rintro ⟨rfl, htype⟩
    cases payload with
    | lengthDelimited data => exact h
    | _ => cases htype
  · rintro ⟨rfl, htype⟩
    cases payload with
    | varint v => exact h
    | _ => cases htype

/-- A field from the top of the loop. -/
theorem pass_loop_field {message : TextChangeMessage} {depth : Nat} {field : WireFormat.Field}
    {bytes rest : List UInt8} {input : CodedInputStream} (hfield : IsFields depth [field] bytes)
    (hbuffer : input.buffer = bytes ++ rest)
    (hdepth : depth + input.recursionDepth ≤ kDefaultRecursionLimit) :
    PassedField message field rest input (pass message input .loop) := by
  cases hfield with
  | @scalar _ number payload _ tag body _ htag hbody hnil =>
      cases hnil
      have hlt := htag.lt
      rw [List.append_nil, List.append_assoc] at hbuffer
      have hmoved : MovedOn input { input with
          buffer := body ++ rest, lastTag := makeTag number payload.wireType } := ⟨rfl, rfl, rfl⟩
      by_cases hunknown : IsUnknown (.scalar number payload)
      · rw [pass_loop_unknown htag payload.wireType_lt (unknownTag_of_isUnknown hunknown) hbuffer]
        refine .of_movedOn hmoved (handleUninterpreted_field hunknown payload.wireType_lt
          (by omega) ?_ (skipField_scalar (by omega) hbody rfl) rfl ⟨rfl, rfl, rfl⟩)
        cases payload <;> simp [Payload.wireType, endGroup]
      · rw [pass, readTag_isTag htag payload.wireType_lt hbuffer]
        simp only [if_neg (makeTag_ne_zero htag payload.wireType_lt),
          getTagFieldNumber_makeTag payload.wireType_lt (by omega : number < 2 ^ 29),
          getTagWireType_makeTag payload.wireType_lt (by omega : number < 2 ^ 29)]
        rcases known_cases hunknown with ⟨v, heq⟩ | ⟨data, heq⟩ | ⟨v, heq⟩
        · cases heq
          exact .of_movedOn hmoved (parseCursorLocation_body hbody rfl)
        · cases heq
          exact .of_movedOn hmoved (parseContentModified_body hbody rfl)
        · cases heq
          exact .of_movedOn hmoved (parseNumChars_body hbody rfl)
  | @group _ number inner _ tag body tag' _ htag hinner htag' hnil =>
      cases hnil
      have hlt := htag.lt
      simp only [List.append_nil, List.append_assoc] at hbuffer
      have hunknown : UnknownTag number startGroup := by
        refine ⟨?_, ?_, ?_⟩ <;> rintro ⟨-, htype⟩ <;> cases htype
      let behind : CodedInputStream := { input with
        buffer := body ++ (tag' ++ rest)
        lastTag := makeTag number startGroup }
      have hmessage : skipMessage (2 * behind.buffer.length + 1)
          { behind with recursionDepth := behind.recursionDepth + 1 } [] =
          (true, [] ++ inner, { behind with
            buffer := rest
            recursionDepth := behind.recursionDepth + 1
            lastTag := makeTag number endGroup }) := by
        refine skipMessage_group hinner htag' rfl ?_ (Nat.le_refl _)
        change _ + (input.recursionDepth + 1) ≤ kDefaultRecursionLimit
        omega
      have hskip : skipField (2 * behind.buffer.length + 2) behind (makeTag number startGroup)
          message.unknownFields = (true, message.unknownFields ++ [.group number inner],
            { behind with buffer := rest, lastTag := makeTag number endGroup }) := by
        refine skipField_group (by omega) ?_ hmessage
        change input.recursionDepth + 1 ≤ kDefaultRecursionLimit
        omega
      have hmoved : MovedOn input behind := ⟨rfl, rfl, rfl⟩
      rw [pass_loop_unknown htag (by decide) hunknown hbuffer]
      exact .of_movedOn hmoved (handleUninterpreted_field trivial (by decide) (by omega)
        (by decide) hskip rfl ⟨rfl, rfl, rfl⟩)

/-- A tag of one byte in front of a field is the tag of the field. -/
theorem field_of_tag_byte {depth : Nat} {field : WireFormat.Field} {b : UInt8}
    {bytes rest buffer : List UInt8} (hb : b < 0x80) (hfield : IsFields depth [field] bytes)
    (hbuffer : b :: buffer = bytes ++ rest) :
    (∃ number payload body, field = .scalar number payload ∧
      b.toNat = 8 * number + payload.wireType ∧ IsBody payload body ∧ buffer = body ++ rest) ∨
      ∃ number, b.toNat = 8 * number + startGroup := by
  have hone : IsVarint [b] := (isVarint_cons_of_lt (UInt8.lt_iff_toNat_lt.mp hb)).mpr rfl
  have htagByte : ∀ {number type : Nat} {tag more : List UInt8}, IsTag number type tag →
      b :: buffer = tag ++ more → b.toNat = 8 * number + type ∧ buffer = more := by
    intro number type tag more htag heq
    have hlt := b.toNat_lt
    rcases hone.append_inj htag.isNumber.varint heq with ⟨rfl, rfl⟩
    have hvalue := htag.value
    rw [value_singleton hb] at hvalue
    exact ⟨by omega, rfl⟩
  cases hfield with
  | scalar htag hbody hnil =>
      cases hnil
      rw [List.append_nil, List.append_assoc] at hbuffer
      rcases htagByte htag hbuffer with ⟨hvalue, rfl⟩
      exact Or.inl ⟨_, _, _, rfl, hvalue, hbody, rfl⟩
  | group htag _ _ _ =>
      rw [List.append_assoc] at hbuffer
      exact Or.inr ⟨_, (htagByte htag hbuffer).1⟩

/-- One pass on a field, from every label. -/
theorem pass_field {message : TextChangeMessage} {depth : Nat} {field : WireFormat.Field}
    {bytes rest : List UInt8} {input : CodedInputStream} {label : Label}
    (hfield : IsFields depth [field] bytes) (hbuffer : label.behind ++ input.buffer = bytes ++ rest)
    (hdepth : depth + input.recursionDepth ≤ kDefaultRecursionLimit) :
    PassedField message field rest input (pass message input label) := by
  cases label with
  | loop => exact pass_loop_field hfield hbuffer hdepth
  | parseContentModified =>
      rcases field_of_tag_byte (by decide) hfield hbuffer with
        ⟨number, payload, body, rfl, hvalue, hbody, hbuffer⟩ | ⟨number, hvalue⟩
      · have hvalue : 18 = 8 * number + payload.wireType := hvalue
        have htype := payload.wireType_lt
        obtain rfl : number = 2 := by omega
        cases payload with
        | lengthDelimited data => exact parseContentModified_body hbody hbuffer
        | _ => cases hvalue
      · have hvalue : 18 = 8 * number + 3 := hvalue
        omega
  | parseNumChars =>
      rcases field_of_tag_byte (by decide) hfield hbuffer with
        ⟨number, payload, body, rfl, hvalue, hbody, hbuffer⟩ | ⟨number, hvalue⟩
      · have hvalue : 24 = 8 * number + payload.wireType := hvalue
        have htype := payload.wireType_lt
        obtain rfl : number = 3 := by omega
        cases payload with
        | varint v => exact parseNumChars_body hbody hbuffer
        | _ => cases hvalue
      · have hvalue : 24 = 8 * number + 3 := hvalue
        omega

/-! ## The loop on fields -/

/-- What stands in front of the last field does not matter. -/
theorem endsInNumChars_cons {field : WireFormat.Field} {fields : List WireFormat.Field}
    (hne : fields ≠ []) : EndsInNumChars (field :: fields) ↔ EndsInNumChars fields := by
  cases fields with
  | nil => exact (hne rfl).elim
  | cons field' fields => rw [EndsInNumChars, EndsInNumChars, List.getLast?_cons_cons]

/-- The loop reads all fields and succeeds. -/
theorem mergeLoop_fields {depth fuel : Nat} {fields : List WireFormat.Field} {bytes : List UInt8}
    {label : Label} {message : TextChangeMessage} {input : CodedInputStream}
    (hfields : IsFields depth fields bytes) (hbuffer : label.behind ++ input.buffer = bytes)
    (hdepth : depth + input.recursionDepth ≤ kDefaultRecursionLimit)
    (hfuel : input.buffer.length + 1 ≤ fuel) :
    ∃ input', mergeLoop fuel label message input = (true, fields.foldl addField message, input') ∧
      (input.totalBytesRead ≤ kDefaultTotalBytesLimit ∨ EndsInNumChars fields →
        input'.legitimateMessageEnd = true) := by
  induction fields generalizing fuel bytes label message input with
  | nil =>
      cases hfields
      rcases List.append_eq_nil_iff.mp hbuffer with ⟨hbehind, hnil⟩
      obtain rfl : label = .loop := by
        cases label with
        | loop => rfl
        | parseContentModified => cases hbehind
        | parseNumChars => cases hbehind
      obtain ⟨fuel, rfl⟩ : ∃ n, fuel = n + 1 := Nat.exists_eq_succ_of_ne_zero (by omega)
      rw [mergeLoop, pass, readTag_nil hnil]
      refine ⟨_, rfl, ?_⟩
      rintro (hlimit | ⟨value, hlast⟩)
      · exact decide_eq_true hlimit
      · cases hlast
  | cons field fields ih =>
      rcases hfields.uncons with ⟨first, rest, hfirst, hrest, rfl⟩
      have hlength := congrArg List.length hbuffer
      have htwo := hfirst.two_le_length
      have hbehind : label.behind.length ≤ 1 := by cases label <;> decide
      simp only [List.length_append] at hlength
      obtain ⟨fuel, rfl⟩ : ∃ n, fuel = n + 1 := Nat.exists_eq_succ_of_ne_zero (by omega)
      have hpass : PassedField message field rest input (pass message input label) :=
        pass_field hfirst hbuffer hdepth
      rw [mergeLoop]
      cases hresult : pass message input label with
      | mk passEnd result =>
          rw [hresult] at hpass
          cases hpass with
          | @goto label' input' hbuffer' hmoved hmore =>
              have hlength' := congrArg List.length hbuffer'
              rw [List.length_append] at hlength'
              have hdepth' : depth + input'.recursionDepth ≤ kDefaultRecursionLimit := by
                rw [hmoved.recursionDepth]
                exact hdepth
              have hfuel' : input'.buffer.length + 1 ≤ fuel := by omega
              rcases ih hrest hbuffer' hdepth' hfuel' with ⟨input'', hloop, hend⟩
              refine ⟨input'', hloop, fun h => hend ?_⟩
              rw [hmoved.totalBytesRead]
              refine h.imp_right fun hlast => ?_
              by_cases hnil : fields = []
              · subst hnil
                cases hrest
                rcases hlast with ⟨value, hlast⟩
                exact (hmore value (Option.some.inj hlast) rfl).elim
              · exact (endsInNumChars_cons hnil).mp hlast
          | ret hnil hfield hend =>
              subst hnil
              obtain rfl := hrest.eq_nil
              exact ⟨_, rfl, fun _ => hend⟩

/-! ## What a pass has read -/

/-- What one pass has read of `whole`, the bytes from the tag of its field on. -/
inductive PassRead (message : TextChangeMessage) (input : CodedInputStream)
    (whole : List UInt8) : PassResult → Prop where
  | fail (message' : TextChangeMessage) (input' : CodedInputStream) :
      PassRead message input whole (.ret false, message', input')
  | goto (label : Label) {field : WireFormat.Field} {bytes : List UInt8}
      {input' : CodedInputStream}
      (hfield : IsFields (kDefaultRecursionLimit - input.recursionDepth) [field] bytes)
      (hwhole : whole = bytes ++ (label.behind ++ input'.buffer))
      (hmoved : MovedOn input input') :
      PassRead message input whole (.goto label, message.addField field, input')
  | stop {input' : CodedInputStream}
      (hend : input'.legitimateMessageEnd = true → input.legitimateMessageEnd = true ∨
        (whole = [] ∧ input.totalBytesRead ≤ kDefaultTotalBytesLimit)) :
      PassRead message input whole (.ret true, message, input')
  | last {value : UInt64} {input' : CodedInputStream}
      (hfield : IsFields (kDefaultRecursionLimit - input.recursionDepth)
        [.scalar 3 (.varint value)] whole) :
      PassRead message input whole
        (.ret true, message.addField (.scalar 3 (.varint value)), input')

/-- What the pass on the first field has read. -/
theorem parseCursorLocation_sound {message : TextChangeMessage} {input : CodedInputStream}
    {tag : List UInt8} (htag : IsTag 1 wireTypeVarint tag) :
    PassRead message input (tag ++ input.buffer) (parseCursorLocation message input) := by
  rw [parseCursorLocation]
  cases hread : input.readVarint64 with
  | none => exact .fail _ _
  | some result =>
      rcases result with ⟨v, input1⟩
      rcases readVarint64_eq_some hread with ⟨bs, hbs, hbuffer, rfl, hinput1⟩
      rcases expectOr_goto (by decide) (by rfl : Label.parseContentModified.behind = [18])
        { message with cursorLocation := some (UInt64.ofNat (value bs)).toInt64 } input1 with
        ⟨label, input', hpass, hrest, hmoved⟩
      have hfield : IsFields (kDefaultRecursionLimit - input.recursionDepth)
          [.scalar 1 (.varint (.ofNat (value bs)))] (tag ++ bs) :=
        .singleton_scalar htag (.varint hbs)
      change PassRead message input _ (expectOr (UInt8.toUInt32 18) _ _ _)
      rw [hpass]
      rw [hinput1] at hmoved
      refine .goto label hfield ?_ ⟨hmoved.1, hmoved.2, hmoved.3⟩
      rw [hbuffer, hrest, List.append_assoc]

/-- What the pass on the second field has read. -/
theorem parseContentModified_sound {message : TextChangeMessage} {input : CodedInputStream}
    {tag : List UInt8} (htag : IsTag 2 wireTypeLengthDelimited tag) :
    PassRead message input (tag ++ input.buffer) (parseContentModified message input) := by
  rw [parseContentModified]
  cases hread : input.readVarint32 with
  | none => exact .fail _ _
  | some result =>
      rcases result with ⟨v, input1⟩
      rcases readVarint32_eq_some hread with ⟨bs, hbs, hbuffer, rfl, hinput1⟩
      cases hstring : input1.readString (message.contentModified.getD [])
          (UInt32.ofNat (value bs)).toInt32.toInt with
      | mk ok result =>
          rcases result with ⟨data, input2⟩
          simp only [hstring]
          cases ok with
          | false => exact .fail _ _
          | true =>
              rcases readString_eq_true hstring with ⟨hbuffer1, hsize, hinput2⟩
              rcases toInt_toInt32_eq_iff.mp hsize with ⟨hlength, hsize⟩
              rw [UInt32.toNat_ofNat'] at hlength
              rcases expectOr_goto (by decide) (by rfl : Label.parseNumChars.behind = [24])
                { message with contentModified := some data } input2 with
                ⟨label, input', hpass, hrest, hmoved⟩
              have hfield : IsFields (kDefaultRecursionLimit - input.recursionDepth)
                  [.scalar 2 (.lengthDelimited data)] (tag ++ (bs ++ data)) :=
                .singleton_scalar htag (.lengthDelimited hbs hlength hsize)
              change PassRead message input _ (expectOr (UInt8.toUInt32 24) _ _ _)
              rw [hpass]
              rw [hinput2, hinput1] at hmoved
              refine .goto label hfield ?_ ⟨hmoved.1, hmoved.2, hmoved.3⟩
              rw [hbuffer, hbuffer1, hrest]
              simp only [List.append_assoc]

/-- What the pass on the third field has read. -/
theorem parseNumChars_sound {message : TextChangeMessage} {input : CodedInputStream}
    {tag : List UInt8} (htag : IsTag 3 wireTypeVarint tag) :
    PassRead message input (tag ++ input.buffer) (parseNumChars message input) := by
  rw [parseNumChars]
  cases hread : input.readVarint64 with
  | none => exact .fail _ _
  | some result =>
      rcases result with ⟨v, input1⟩
      rcases readVarint64_eq_some hread with ⟨bs, hbs, hbuffer, rfl, hinput1⟩
      have hfield : IsFields (kDefaultRecursionLimit - input.recursionDepth)
          [.scalar 3 (.varint (.ofNat (value bs)))] (tag ++ bs) :=
        .singleton_scalar htag (.varint hbs)
      simp only [expectAtEnd]
      split_ifs with hend
      · rw [hbuffer, hend, List.append_nil]
        exact .last hfield
      · refine .goto .loop hfield ?_ ?_
        · rw [hbuffer, List.append_assoc]
          rfl
        · rw [hinput1]
          exact ⟨rfl, rfl, rfl⟩

/-- A tag that belongs to no field of the message starts a field that it does not know. -/
theorem isUnknown_of_unknownTag {number : Nat} {payload : Payload}
    (h : UnknownTag number payload.wireType) : IsUnknown (.scalar number payload) := by
  unfold IsUnknown
  split
  next heq =>
      cases heq
      exact h.1 ⟨rfl, rfl⟩
  next heq =>
      cases heq
      exact h.2.1 ⟨rfl, rfl⟩
  next heq =>
      cases heq
      exact h.2.2 ⟨rfl, rfl⟩
  next => trivial

/-- A field behind a tag that belongs to no field of the message. -/
theorem isUnknown_of_isFields {depth number type : Nat} {field : WireFormat.Field}
    {tag bytes : List UInt8} (htype : type < 8) (htag : IsTag number type tag)
    (hunknown : UnknownTag number type) (h : IsFields depth [field] (tag ++ bytes)) :
    IsUnknown field := by
  generalize hwhole : tag ++ bytes = whole at h
  cases h with
  | scalar htag' _ _ =>
      rcases htag.append_inj htag' htype (Payload.wireType_lt _) hwhole with ⟨rfl, rfl, -, -⟩
      exact isUnknown_of_unknownTag hunknown
  | group _ _ _ _ => trivial

/-- What the pass on a field that the message does not know has read. -/
theorem handleUninterpreted_sound {message : TextChangeMessage} {number type : Nat}
    {input : CodedInputStream} {tag : List UInt8} (htype : type < 8) (htag : IsTag number type tag)
    (hunknown : UnknownTag number type) :
    PassRead message input (tag ++ input.buffer)
      (handleUninterpreted (makeTag number type) message input) := by
  rw [handleUninterpreted]
  split_ifs with hend
  · exact .stop Or.inl
  · cases hskip : skipField (2 * input.buffer.length + 2) input (makeTag number type)
      message.unknownFields with
    | mk ok result =>
        rcases result with ⟨known', input'⟩
        cases ok with
        | false => exact .fail _ _
        | true =>
            rcases (skip_sound _).1 htype htag hskip with
              ⟨field, bytes, rfl, hfield, hbuffer, hinput⟩
            have hadd := addField_of_isUnknown (isUnknown_of_isFields htype htag hunknown hfield)
              message
            simp only [if_true]
            rw [← hadd]
            refine .goto .loop hfield ?_ ?_
            · rw [hbuffer, List.append_assoc]
              rfl
            · rw [hinput]
              exact ⟨rfl, rfl, rfl⟩

/-- What a pass has read that started further on. -/
theorem PassRead.of_movedOn {message : TextChangeMessage} {input input1 : CodedInputStream}
    {whole : List UInt8} {result : PassResult} (hmoved : MovedOn input input1)
    (h : PassRead message input1 whole result) : PassRead message input whole result := by
  cases h with
  | fail message' input' => exact .fail message' input'
  | goto label hfield hwhole hmoved' =>
      rw [hmoved.recursionDepth] at hfield
      exact .goto label hfield hwhole (hmoved.trans hmoved')
  | stop hend =>
      rw [hmoved.legitimateMessageEnd, hmoved.totalBytesRead] at hend
      exact .stop hend
  | last hfield =>
      rw [hmoved.recursionDepth] at hfield
      exact .last hfield

/-- When the tag 0 is the end of a message. -/
theorem legitimateMessageEnd_readTag {input input' : CodedInputStream}
    (h : input.readTag = (0, input')) (hend : input'.legitimateMessageEnd = true) :
    input.legitimateMessageEnd = true ∨
      (input.buffer = [] ∧ input.totalBytesRead ≤ kDefaultTotalBytesLimit) := by
  by_cases hnil : input.buffer = []
  · rw [readTag_nil hnil] at h
    obtain rfl := (Prod.mk.inj h).2
    exact Or.inr ⟨hnil, of_decide_eq_true hend⟩
  · rw [readTag_cons hnil] at h
    cases hsplit : split kMaxVarintBytes input.buffer with
    | none =>
        rw [hsplit] at h
        obtain rfl := (Prod.mk.inj h).2
        exact Or.inl hend
    | some pair =>
        rw [hsplit] at h
        obtain rfl := (Prod.mk.inj h).2
        exact Or.inl hend

/-- What one pass has read, from every label. -/
theorem pass_sound (message : TextChangeMessage) (input : CodedInputStream) (label : Label) :
    PassRead message input (label.behind ++ input.buffer) (pass message input label) := by
  have hbyte : ∀ {b : UInt8}, b < 0x80 → IsNumber [b] := fun hb =>
    ⟨(isVarint_cons_of_lt (UInt8.lt_iff_toNat_lt.mp hb)).mpr rfl, Nat.le_of_ble_eq_true rfl⟩
  cases label with
  | parseContentModified =>
      exact parseContentModified_sound ⟨hbyte (by decide), by decide, by decide⟩
  | parseNumChars => exact parseNumChars_sound ⟨hbyte (by decide), by decide, by decide⟩
  | loop =>
      change PassRead message input input.buffer _
      cases hread : input.readTag with
      | mk tag input1 =>
          by_cases hzero : tag = 0
          · subst hzero
            rw [pass, hread]
            exact .stop (legitimateMessageEnd_readTag hread)
          · rcases isTag_of_readTag hread hzero with
              ⟨number, type, bs, htype, htag, rfl, hbuffer, hinput1⟩
            have hlt := htag.lt
            have hmoved : MovedOn input input1 := by
              rw [hinput1]
              exact ⟨rfl, rfl, rfl⟩
            rw [hbuffer]
            by_cases hunknown : UnknownTag number type
            · rw [pass_loop_unknown htag htype hunknown hbuffer, ← hinput1]
              exact .of_movedOn hmoved (handleUninterpreted_sound htype htag hunknown)
            · rw [pass, hread]
              simp only [if_neg hzero, getTagFieldNumber_makeTag htype (by omega : number < 2 ^ 29),
                getTagWireType_makeTag htype (by omega : number < 2 ^ 29)]
              have hknown : (number = 1 ∧ type = wireTypeVarint) ∨
                  (number = 2 ∧ type = wireTypeLengthDelimited) ∨
                  (number = 3 ∧ type = wireTypeVarint) := by
                by_contra hnot
                rcases not_or.mp hnot with ⟨h1, hnot⟩
                rcases not_or.mp hnot with ⟨h2, h3⟩
                exact hunknown ⟨h1, h2, h3⟩
              rcases hknown with ⟨rfl, rfl⟩ | ⟨rfl, rfl⟩ | ⟨rfl, rfl⟩
              · exact .of_movedOn hmoved (parseCursorLocation_sound htag)
              · exact .of_movedOn hmoved (parseContentModified_sound htag)
              · exact .of_movedOn hmoved (parseNumChars_sound htag)

/-! ## The loop when it succeeds -/

/-- When the loop succeeds at the end of the input, it has read fields. -/
theorem mergeLoop_sound {fuel : Nat} {label : Label} {message message' : TextChangeMessage}
    {input input' : CodedInputStream}
    (h : mergeLoop fuel label message input = (true, message', input'))
    (hstart : input.legitimateMessageEnd = false) (hend : input'.legitimateMessageEnd = true) :
    ∃ fields, IsFields (kDefaultRecursionLimit - input.recursionDepth) fields
        (label.behind ++ input.buffer) ∧
      message' = fields.foldl addField message ∧
      (input.totalBytesRead ≤ kDefaultTotalBytesLimit ∨ EndsInNumChars fields) := by
  induction fuel generalizing label message input with
  | zero =>
      rw [mergeLoop] at h
      cases (Prod.mk.inj h).1
  | succ fuel ih =>
      have hpass := pass_sound message input label
      rw [mergeLoop] at h
      generalize pass message input label = result at h hpass
      cases hpass with
      | fail _ _ => cases (Prod.mk.inj h).1
      | @goto label1 field bytes input1 hfield hwhole hmoved =>
          rcases ih h (hmoved.legitimateMessageEnd.trans hstart) with
            ⟨fields, hfields, rfl, hlimit⟩
          rw [hmoved.recursionDepth] at hfields
          rw [hmoved.totalBytesRead] at hlimit
          refine ⟨field :: fields, ?_, rfl, hlimit.imp_right fun hlast => ?_⟩
          · rw [hwhole]
            exact hfield.append hfields
          · have hne : fields ≠ [] := by
              rintro rfl
              rcases hlast with ⟨value, hlast⟩
              cases hlast
            exact (endsInNumChars_cons hne).mpr hlast
      | @stop input1 hstop =>
          obtain ⟨-, rfl, rfl⟩ : true = true ∧ message = message' ∧ input1 = input' := by
            simpa using h
          rcases hstop hend with hlegit | ⟨hnil, hlimit⟩
          · rw [hstart] at hlegit
            cases hlegit
          · rw [hnil]
            exact ⟨[], .nil, rfl, Or.inl hlimit⟩
      | @last value input1 hfield =>
          obtain ⟨-, rfl, rfl⟩ : true = true ∧ message.addField (.scalar 3 (.varint value)) =
              message' ∧ input1 = input' := by
            simpa using h
          exact ⟨_, hfield, rfl, Or.inr ⟨value, rfl⟩⟩

/-! ## What is accepted -/

/-- An array that is accepted consists of fields, with groups nested at most as deep as the limit,
and the message is what they mean. -/
theorem isFields_of_parseFromArray {data : List UInt8} {message : TextChangeMessage}
    (h : parseFromArray data = (true, message)) : ∃ fields,
      IsFields kDefaultRecursionLimit fields data ∧ message = ofFields fields ∧
        (data.length ≤ kDefaultTotalBytesLimit ∨ EndsInNumChars fields) := by
  rw [parseFromArray, mergePartialFromCodedStream] at h
  cases hloop : mergeLoop ((ofArray data).buffer.length + 1) .loop clear (ofArray data) with
  | mk ok result =>
      rcases result with ⟨message', input'⟩
      simp only [hloop, Prod.mk.injEq, Bool.and_eq_true] at h
      rcases h with ⟨⟨rfl, hend⟩, rfl⟩
      exact mergeLoop_sound hloop rfl hend

/-- An array of such fields is accepted, if it is no longer than the limit or ends in
`numChars`. -/
theorem parseFromArray_of_isFields {data : List UInt8} {fields : List WireFormat.Field}
    (hfields : IsFields kDefaultRecursionLimit fields data)
    (hlimit : data.length ≤ kDefaultTotalBytesLimit ∨ EndsInNumChars fields) :
    parseFromArray data = (true, ofFields fields) := by
  have hbuffer : Label.loop.behind ++ (ofArray data).buffer = data := rfl
  rcases mergeLoop_fields hfields hbuffer (Nat.le_refl _) (Nat.le_refl _) with
    ⟨input', hloop, hend⟩
  have hloop : mergeLoop ((ofArray data).buffer.length + 1) .loop clear (ofArray data) =
      (true, ofFields fields, input') := hloop
  simp only [parseFromArray, mergePartialFromCodedStream, hloop, Bool.true_and, Prod.mk.injEq,
    and_true]
  exact hend hlimit

/-- An array is accepted exactly when it consists of fields, with groups nested at most as deep as
the limit, and is no longer than the limit or ends in `numChars`; and then it is what its
fields mean. -/
theorem parseFromArray_eq_true_iff (data : List UInt8) (message : TextChangeMessage) :
    parseFromArray data = (true, message) ↔ ∃ fields,
      IsFields kDefaultRecursionLimit fields data ∧ message = ofFields fields ∧
        (data.length ≤ kDefaultTotalBytesLimit ∨ EndsInNumChars fields) := by
  constructor
  · exact isFields_of_parseFromArray
  · rintro ⟨fields, hfields, rfl, hlimit⟩
    exact parseFromArray_of_isFields hfields hlimit

end TextChangeMessage

end WeWrite.Wire
