import WeWrite.Library.Varint

/-!
# Fields, tags and groups

A message on the wire is a sequence of fields.  A field is a tag, which is a number that
carries the field number and the wire type, and then its value: a number, some bytes with
their length in front, four or eight bytes, or a group, which is a sequence of fields up to a
tag that ends it.  Nothing says where a message ends, so the encodings of two messages, one
behind the other, are an encoding of all their fields.

Numbers may have more bytes than they need, up to ten, and tags and lengths are cut to 32
bits.  `IsFields` says which bytes stand for which fields, for groups that are nested up to some
depth; `encodeFields` is the shortest of these encodings.

Main results:

- Theorem `IsFields.append`: encodings may be put one behind the other.
- Theorem `isFields_encodeFields`: encodable fields are encoded by their shortest encoding.
- Theorem `IsFields.areEncodable`: only encodable fields have an encoding.
- Theorem `IsFields.length_encodeFields_le`: no encoding is shorter.
- Theorem `IsFields.unique`: bytes encode one list of fields at most.
-/

namespace WireFormat

open Varint

/-! ## Fields -/

/-- The value of a field that is no group. -/
inductive Payload where
  | varint (value : UInt64)
  | fixed64 (value : UInt64)
  | lengthDelimited (data : List UInt8)
  | fixed32 (value : UInt32)
deriving DecidableEq, Repr

/-- A field of a message with its number. -/
inductive Field where
  | scalar (number : Nat) (payload : Payload)
  | group (number : Nat) (fields : List Field)
deriving Repr

/-- The wire type of a value. -/
def Payload.wireType : Payload → Nat
  | .varint _ => 0
  | .fixed64 _ => 1
  | .lengthDelimited _ => 2
  | .fixed32 _ => 5

/-- The wire type of the tag in front of a group. -/
def startGroup : Nat := 3

/-- The wire type of the tag behind a group. -/
def endGroup : Nat := 4

/-- Induction over the fields of a message and of the groups in it. -/
theorem fields_induction {P : List Field → Prop} (nil : P [])
    (scalar : ∀ number payload fields, P fields → P (.scalar number payload :: fields))
    (group : ∀ number inner fields, P inner → P fields → P (.group number inner :: fields)) :
    ∀ fields, P fields
  | [] => nil
  | .scalar number payload :: fields =>
      scalar number payload fields (fields_induction nil scalar group fields)
  | .group number inner :: fields =>
      group number inner fields (fields_induction nil scalar group inner)
        (fields_induction nil scalar group fields)

/-! ## Bytes of a fixed number -/

/-- The lowest `k` bytes of a number, the lowest first. -/
def littleEndian : Nat → Nat → List UInt8
  | 0, _ => []
  | k + 1, n => .ofNat n :: littleEndian k (n / 256)

/-- The number whose bytes these are. -/
def ofLittleEndian : List UInt8 → Nat
  | [] => 0
  | b :: bs => b.toNat + 256 * ofLittleEndian bs

/-- So many bytes are written. -/
@[simp]
theorem length_littleEndian (k n : Nat) : (littleEndian k n).length = k := by
  induction k generalizing n with
  | zero => rfl
  | succ k ih => rw [littleEndian, List.length_cons, ih]

/-- Reading back what was written, without what does not fit. -/
theorem ofLittleEndian_littleEndian (k n : Nat) :
    ofLittleEndian (littleEndian k n) = n % 256 ^ k := by
  induction k generalizing n with
  | zero => rw [littleEndian, ofLittleEndian, pow_zero, Nat.mod_one]
  | succ k ih =>
      have hpow : 256 ^ (k + 1) = 256 * 256 ^ k := by rw [pow_succ, Nat.mul_comm]
      rw [littleEndian, ofLittleEndian, ih, hpow, Nat.mod_mul, UInt8.toNat_ofNat']

/-- Writing back what was read. -/
theorem littleEndian_ofLittleEndian (bs : List UInt8) :
    littleEndian bs.length (ofLittleEndian bs) = bs := by
  induction bs with
  | nil => rfl
  | cons b bs ih =>
      have hlt := b.toNat_lt
      have hlow : UInt8.ofNat (b.toNat + 256 * ofLittleEndian bs) = b := by
        apply UInt8.toNat.inj
        rw [UInt8.toNat_ofNat']
        omega
      have hhigh : (b.toNat + 256 * ofLittleEndian bs) / 256 = ofLittleEndian bs := by omega
      rw [List.length_cons, littleEndian, ofLittleEndian, hlow, hhigh, ih]

/-- Bytes above the ones that are written do not matter. -/
theorem littleEndian_mod (k n : Nat) : littleEndian k (n % 256 ^ k) = littleEndian k n := by
  have hback := littleEndian_ofLittleEndian (littleEndian k n)
  rwa [length_littleEndian, ofLittleEndian_littleEndian] at hback

/-- The low bytes come before the high ones. -/
theorem littleEndian_add (j k n : Nat) :
    littleEndian (j + k) n = littleEndian j n ++ littleEndian k (n / 256 ^ j) := by
  induction j generalizing n with
  | zero => rw [Nat.zero_add, littleEndian, pow_zero, Nat.div_one, List.nil_append]
  | succ j ih =>
      rw [Nat.add_right_comm, littleEndian, littleEndian, ih, List.cons_append,
        Nat.div_div_eq_div_mul, pow_succ, Nat.mul_comm (256 ^ j)]

/-! ## Which bytes stand for which fields -/

/-- The most bytes that a number may have. -/
def maxVarintBytes : Nat := 10

/-- A number that a reader takes. -/
structure IsNumber (bs : List UInt8) : Prop where
  varint : IsVarint bs
  length : bs.length ≤ maxVarintBytes

/-- A tag; the tag 0 is none. -/
structure IsTag (number wireType : Nat) (bs : List UInt8) : Prop where
  isNumber : IsNumber bs
  value : value bs % 2 ^ 32 = 8 * number + wireType
  ne_zero : 0 < 8 * number + wireType

/-- The bytes behind a tag. -/
inductive IsBody : Payload → List UInt8 → Prop where
  | varint {bs : List UInt8} (hbs : IsNumber bs) : IsBody (.varint (.ofNat (value bs))) bs
  | fixed64 (v : UInt64) : IsBody (.fixed64 v) (littleEndian 8 v.toNat)
  | lengthDelimited {bs data : List UInt8} (hbs : IsNumber bs)
      (hlength : value bs % 2 ^ 32 = data.length) (hsize : data.length < 2 ^ 31) :
      IsBody (.lengthDelimited data) (bs ++ data)
  | fixed32 (v : UInt32) : IsBody (.fixed32 v) (littleEndian 4 v.toNat)

/-- The bytes of a sequence of fields, with groups nested up to `depth`. -/
inductive IsFields : Nat → List Field → List UInt8 → Prop where
  | nil {depth : Nat} : IsFields depth [] []
  | scalar {depth number : Nat} {payload : Payload} {fields : List Field}
      {tag body rest : List UInt8} (htag : IsTag number payload.wireType tag)
      (hbody : IsBody payload body) (hrest : IsFields depth fields rest) :
      IsFields depth (.scalar number payload :: fields) (tag ++ (body ++ rest))
  | group {depth number : Nat} {inner fields : List Field} {tag body tag' rest : List UInt8}
      (htag : IsTag number startGroup tag) (hinner : IsFields depth inner body)
      (htag' : IsTag number endGroup tag') (hrest : IsFields (depth + 1) fields rest) :
      IsFields (depth + 1) (.group number inner :: fields) (tag ++ (body ++ (tag' ++ rest)))

/-- Fields behind fields. -/
theorem IsFields.append {depth : Nat} {fields fields' : List Field} {bytes bytes' : List UInt8}
    (h : IsFields depth fields bytes) (h' : IsFields depth fields' bytes') :
    IsFields depth (fields ++ fields') (bytes ++ bytes') := by
  induction h with
  | nil => exact h'
  | scalar htag hbody _ ih =>
      simp only [List.cons_append, List.append_assoc]
      exact .scalar htag hbody (ih h')
  | group htag hinner htag' _ _ ih =>
      simp only [List.cons_append, List.append_assoc]
      exact .group htag hinner htag' (ih h')

/-- One field that is no group. -/
theorem IsFields.singleton_scalar {depth number : Nat} {payload : Payload} {tag body : List UInt8}
    (htag : IsTag number payload.wireType tag) (hbody : IsBody payload body) :
    IsFields depth [.scalar number payload] (tag ++ body) := by
  rw [← List.append_nil body]
  exact .scalar htag hbody .nil

/-- The bytes of the first field and those of the others. -/
theorem IsFields.uncons {depth : Nat} {field : Field} {fields : List Field} {bytes : List UInt8}
    (h : IsFields depth (field :: fields) bytes) :
    ∃ first rest, IsFields depth [field] first ∧ IsFields depth fields rest ∧
      bytes = first ++ rest := by
  cases h with
  | @scalar _ number payload _ tag body rest htag hbody hrest =>
      exact ⟨tag ++ body, rest, .singleton_scalar htag hbody, hrest, (List.append_assoc ..).symm⟩
  | @group _ number inner _ tag body tag' rest htag hinner htag' hrest =>
      refine ⟨tag ++ (body ++ (tag' ++ [])), rest, .group htag hinner htag' .nil, hrest, ?_⟩
      simp only [List.append_assoc, List.nil_append]

/-- A number has at least one byte. -/
theorem IsNumber.length_pos {bs : List UInt8} (h : IsNumber bs) : 0 < bs.length := by
  cases bs with
  | nil => exact h.varint.elim
  | cons b bs => exact Nat.succ_pos _

/-- What stands behind a tag has at least one byte. -/
theorem IsBody.length_pos {payload : Payload} {body : List UInt8} (h : IsBody payload body) :
    0 < body.length := by
  cases h with
  | varint hbs => exact hbs.length_pos
  | fixed64 v =>
      rw [length_littleEndian]
      omega
  | lengthDelimited hbs _ _ =>
      have hlength := hbs.length_pos
      rw [List.length_append]
      omega
  | fixed32 v =>
      rw [length_littleEndian]
      omega

/-- A field has at least two bytes. -/
theorem IsFields.two_le_length {depth : Nat} {field : Field} {bytes : List UInt8}
    (h : IsFields depth [field] bytes) : 2 ≤ bytes.length := by
  cases h with
  | scalar htag hbody _ =>
      have htagLength := htag.isNumber.length_pos
      have hbodyLength := hbody.length_pos
      simp only [List.length_append]
      omega
  | group htag _ htag' _ =>
      have htagLength := htag.isNumber.length_pos
      have htagLength' := htag'.isNumber.length_pos
      simp only [List.length_append]
      omega

/-- No bytes are no fields. -/
theorem IsFields.eq_nil {depth : Nat} {fields : List Field} (h : IsFields depth fields []) :
    fields = [] := by
  cases fields with
  | nil => rfl
  | cons field fields =>
      rcases h.uncons with ⟨first, rest, hfirst, -, heq⟩
      have hlength := hfirst.two_le_length
      rw [(List.append_eq_nil_iff.mp heq.symm).1] at hlength
      exact absurd hlength (by decide)

/-! ## One reading only -/

/-- A wire type has three bits. -/
theorem Payload.wireType_lt (payload : Payload) : payload.wireType < 8 := by
  cases payload <;> simp [wireType]

/-- A payload does not start a group. -/
theorem Payload.wireType_ne_startGroup (payload : Payload) : payload.wireType ≠ startGroup := by
  cases payload <;> simp [wireType, startGroup]

/-- A payload does not end a group. -/
theorem Payload.wireType_ne_endGroup (payload : Payload) : payload.wireType ≠ endGroup := by
  cases payload <;> simp [wireType, endGroup]

/-- A tag belongs to one field number and one wire type. -/
theorem IsTag.inj {number type number' type' : Nat} {tag : List UInt8}
    (h : IsTag number type tag) (h' : IsTag number' type' tag) (htype : type < 8)
    (htype' : type' < 8) : number = number' ∧ type = type' := by
  have hvalue := h.value
  rw [h'.value] at hvalue
  exact ⟨by omega, by omega⟩

/-- Two tags at the front of the same bytes are one. -/
theorem IsTag.append_inj {number type number' type' : Nat} {tag tag' rest rest' : List UInt8}
    (h : IsTag number type tag) (h' : IsTag number' type' tag') (htype : type < 8)
    (htype' : type' < 8) (heq : tag ++ rest = tag' ++ rest') :
    number = number' ∧ type = type' ∧ tag = tag' ∧ rest = rest' := by
  rcases h.isNumber.varint.append_inj h'.isNumber.varint heq with ⟨rfl, rfl⟩
  rcases h.inj h' htype htype' with ⟨rfl, rfl⟩
  exact ⟨rfl, rfl, rfl, rfl⟩

/-- Different numbers that fit are written differently. -/
theorem littleEndian_inj {k m n : Nat} (hm : m < 256 ^ k) (hn : n < 256 ^ k)
    (h : littleEndian k m = littleEndian k n) : m = n := by
  rw [← Nat.mod_eq_of_lt hm, ← Nat.mod_eq_of_lt hn, ← ofLittleEndian_littleEndian,
    ← ofLittleEndian_littleEndian, h]

/-- Behind a tag there is one body at most. -/
theorem IsBody.append_inj {payload payload' : Payload} {body body' rest rest' : List UInt8}
    (h : IsBody payload body) (h' : IsBody payload' body')
    (htype : payload.wireType = payload'.wireType) (heq : body ++ rest = body' ++ rest') :
    payload = payload' ∧ body = body' ∧ rest = rest' := by
  cases h with
  | varint hbs =>
      cases h' with
      | varint hbs' =>
          rcases hbs.varint.append_inj hbs'.varint heq with ⟨rfl, rfl⟩
          exact ⟨rfl, rfl, rfl⟩
      | fixed64 _ | lengthDelimited _ _ _ | fixed32 _ => cases htype
  | fixed64 v =>
      cases h' with
      | fixed64 v' =>
          rcases List.append_inj heq (by simp only [length_littleEndian]) with ⟨hbytes, rfl⟩
          obtain rfl := UInt64.toNat_inj.mp (littleEndian_inj v.toNat_lt v'.toNat_lt hbytes)
          exact ⟨rfl, rfl, rfl⟩
      | varint _ | lengthDelimited _ _ _ | fixed32 _ => cases htype
  | lengthDelimited hbs hlength hsize =>
      cases h' with
      | lengthDelimited hbs' hlength' hsize' =>
          rw [List.append_assoc, List.append_assoc] at heq
          rcases hbs.varint.append_inj hbs'.varint heq with ⟨rfl, htail⟩
          rcases List.append_inj htail (hlength.symm.trans hlength') with ⟨rfl, rfl⟩
          exact ⟨rfl, rfl, rfl⟩
      | varint _ | fixed64 _ | fixed32 _ => cases htype
  | fixed32 v =>
      cases h' with
      | fixed32 v' =>
          rcases List.append_inj heq (by simp only [length_littleEndian]) with ⟨hbytes, rfl⟩
          obtain rfl := UInt32.toNat_inj.mp (littleEndian_inj v.toNat_lt v'.toNat_lt hbytes)
          exact ⟨rfl, rfl, rfl⟩
      | varint _ | fixed64 _ | lengthDelimited _ _ _ => cases htype

/-- The bytes end, or go on with the end of a group. -/
def Stops (rest : List UInt8) : Prop :=
  rest = [] ∨ ∃ number tag tail, IsTag number endGroup tag ∧ rest = tag ++ tail

/-- What stops does not go on with the tag of a field. -/
theorem not_stops_tag {number type : Nat} {tag tail : List UInt8} (htag : IsTag number type tag)
    (htype : type < 8) (hne : type ≠ endGroup) : ¬ Stops (tag ++ tail) := by
  rintro (hnil | ⟨number', tag', tail', htag', heq⟩)
  · have hlength := htag.isNumber.length_pos
    rw [(List.append_eq_nil_iff.mp hnil).1] at hlength
    exact absurd hlength (by decide)
  · exact hne (htag.append_inj htag' htype (by decide) heq).2.1

/-- What stops has no field in front of it. -/
theorem IsFields.nil_of_stops {depth : Nat} {fields : List Field} {bytes rest : List UInt8}
    (h : IsFields depth fields bytes) (hstops : Stops (bytes ++ rest)) :
    fields = [] ∧ bytes = [] := by
  cases h with
  | nil => exact ⟨rfl, rfl⟩
  | scalar htag _ _ =>
      rw [List.append_assoc] at hstops
      exact (not_stops_tag htag (Payload.wireType_lt _) (Payload.wireType_ne_endGroup _)
        hstops).elim
  | group htag _ _ _ =>
      rw [List.append_assoc] at hstops
      exact (not_stops_tag htag (by decide) (by decide) hstops).elim

/-- Up to the end of a group, or up to their own end, bytes stand for one sequence of fields. -/
theorem IsFields.append_inj {depth depth' : Nat} {fields fields' : List Field}
    {bytes bytes' rest rest' : List UInt8} (h : IsFields depth fields bytes)
    (h' : IsFields depth' fields' bytes') (hstops : Stops rest) (hstops' : Stops rest')
    (heq : bytes ++ rest = bytes' ++ rest') : fields = fields' ∧ bytes = bytes' := by
  induction h generalizing depth' fields' bytes' rest rest' with
  | nil =>
      rw [List.nil_append] at heq
      rw [heq] at hstops
      rcases h'.nil_of_stops hstops with ⟨rfl, rfl⟩
      exact ⟨rfl, rfl⟩
  | scalar htag hbody hfields ih =>
      cases h' with
      | nil =>
          rw [List.nil_append] at heq
          rw [← heq, List.append_assoc] at hstops'
          exact (not_stops_tag htag (Payload.wireType_lt _) (Payload.wireType_ne_endGroup _)
            hstops').elim
      | scalar htag' hbody' hfields' =>
          simp only [List.append_assoc] at heq
          rcases htag.append_inj htag' (Payload.wireType_lt _) (Payload.wireType_lt _) heq with
            ⟨rfl, htype, rfl, hbehind⟩
          rcases hbody.append_inj hbody' htype hbehind with ⟨rfl, rfl, htail⟩
          rcases ih hfields' hstops hstops' htail with ⟨rfl, rfl⟩
          exact ⟨rfl, rfl⟩
      | group htag' _ _ _ =>
          simp only [List.append_assoc] at heq
          exact (Payload.wireType_ne_startGroup _ (htag.append_inj htag' (Payload.wireType_lt _)
            (by decide) heq).2.1).elim
  | @group _ number inner fields tag body close rest₁ htag hinner hclose hfields ihinner ih =>
      cases h' with
      | nil =>
          rw [List.nil_append] at heq
          rw [← heq, List.append_assoc] at hstops'
          exact (not_stops_tag htag (by decide) (by decide) hstops').elim
      | scalar htag' _ _ =>
          simp only [List.append_assoc] at heq
          exact (Payload.wireType_ne_startGroup _ (htag.append_inj htag' (by decide)
            (Payload.wireType_lt _) heq).2.1.symm).elim
      | group htag' hinner' hclose' hfields' =>
          simp only [List.append_assoc] at heq
          rcases htag.append_inj htag' (by decide) (by decide) heq with ⟨rfl, -, rfl, hbehind⟩
          rcases ihinner hinner' (Or.inr ⟨_, _, _, hclose, rfl⟩) (Or.inr ⟨_, _, _, hclose', rfl⟩)
            hbehind with ⟨rfl, rfl⟩
          rcases hclose.append_inj hclose' (by decide) (by decide)
            (List.append_cancel_left hbehind) with ⟨-, -, rfl, htail⟩
          rcases ih hfields' hstops hstops' htail with ⟨rfl, rfl⟩
          exact ⟨rfl, rfl⟩

/-- Bytes stand for one sequence of fields at most. -/
theorem IsFields.unique {depth depth' : Nat} {fields fields' : List Field} {bytes : List UInt8}
    (h : IsFields depth fields bytes) (h' : IsFields depth' fields' bytes) : fields = fields' :=
  (h.append_inj h' (Or.inl rfl) (Or.inl rfl) rfl).1

/-! ## The shortest encoding -/

/-- The tag of a field. -/
def encodeTag (number wireType : Nat) : List UInt8 :=
  Varint.encode (8 * number + wireType)

/-- The bytes behind the tag. -/
def Payload.encode : Payload → List UInt8
  | .varint v => Varint.encode v.toNat
  | .fixed64 v => littleEndian 8 v.toNat
  | .lengthDelimited data => Varint.encode data.length ++ data
  | .fixed32 v => littleEndian 4 v.toNat

mutual

/-- The shortest encoding of one field. -/
def Field.encode : Field → List UInt8
  | .scalar number payload => encodeTag number payload.wireType ++ payload.encode
  | .group number fields =>
      encodeTag number startGroup ++ encodeFields fields ++ encodeTag number endGroup

/-- The shortest encoding of a sequence of fields. -/
def encodeFields : List Field → List UInt8
  | [] => []
  | field :: fields => field.encode ++ encodeFields fields

end

/-- The value has a length that can be read back. -/
def Payload.IsEncodable : Payload → Prop
  | .lengthDelimited data => data.length < 2 ^ 31
  | _ => True

mutual

/-- A field that has an encoding, with groups nested up to a depth. -/
def Field.IsEncodable : Nat → Field → Prop
  | _, .scalar number payload =>
      0 < 8 * number + payload.wireType ∧ number < 2 ^ 29 ∧ payload.IsEncodable
  | 0, .group _ _ => False
  | depth + 1, .group number fields => number < 2 ^ 29 ∧ AreEncodable depth fields

/-- All fields have an encoding. -/
def AreEncodable : Nat → List Field → Prop
  | _, [] => True
  | depth, field :: fields => field.IsEncodable depth ∧ AreEncodable depth fields

end

/-- The encoding of a number of 64 bits is a number on the wire. -/
theorem isNumber_encode {n : Nat} (hn : n < 2 ^ 64) : IsNumber (Varint.encode n) where
  varint := isVarint_encode n
  length := length_encode_le_iff.mpr (Nat.lt_of_lt_of_le hn (by decide))

/-- The encoding of a tag is a tag on the wire. -/
theorem isTag_encodeTag {number wireType : Nat} (hpos : 0 < 8 * number + wireType)
    (hlt : 8 * number + wireType < 2 ^ 32) : IsTag number wireType (encodeTag number wireType) where
  isNumber := isNumber_encode (by omega)
  value := by rw [encodeTag, value_encode, Nat.mod_eq_of_lt hlt]
  ne_zero := hpos

/-- A tag has 32 bits. -/
theorem IsTag.lt {number wireType : Nat} {bs : List UInt8} (h : IsTag number wireType bs) :
    8 * number + wireType < 2 ^ 32 := by
  have hvalue := h.value
  omega

/-- No tag is shorter. -/
theorem IsTag.length_encodeTag_le {number wireType : Nat} {bs : List UInt8}
    (h : IsTag number wireType bs) : (encodeTag number wireType).length ≤ bs.length := by
  rw [encodeTag, ← h.value]
  exact (length_encode_mono (Nat.mod_le _ _)).trans (length_encode_value_le h.isNumber.varint)

/-- An encodable payload stands on the wire as its encoding. -/
theorem isBody_encode {payload : Payload} (h : payload.IsEncodable) :
    IsBody payload payload.encode := by
  cases payload with
  | varint v =>
      have hbody := IsBody.varint (isNumber_encode v.toNat_lt)
      rwa [value_encode, UInt64.ofNat_toNat] at hbody
  | fixed64 v => exact .fixed64 v
  | lengthDelimited data =>
      have hsize : data.length < 2 ^ 31 := h
      exact .lengthDelimited (isNumber_encode (by omega))
        (by rw [value_encode]; omega) hsize
  | fixed32 v => exact .fixed32 v

/-- A payload that stands on the wire is encodable. -/
theorem IsBody.isEncodable {payload : Payload} {bytes : List UInt8} (h : IsBody payload bytes) :
    payload.IsEncodable := by
  cases h with
  | lengthDelimited _ _ hsize => exact hsize
  | varint _ => trivial
  | fixed64 _ => trivial
  | fixed32 _ => trivial

/-- No bytes behind the tag are fewer. -/
theorem IsBody.length_encode_le {payload : Payload} {bytes : List UInt8}
    (h : IsBody payload bytes) : payload.encode.length ≤ bytes.length := by
  cases h with
  | varint hbs =>
      rw [Payload.encode, UInt64.toNat_ofNat']
      exact (length_encode_mono (Nat.mod_le _ _)).trans (length_encode_value_le hbs.varint)
  | fixed64 v => exact Nat.le_refl _
  | lengthDelimited hbs hlength _ =>
      rw [Payload.encode, List.length_append, List.length_append, ← hlength]
      exact Nat.add_le_add_right
        ((length_encode_mono (Nat.mod_le _ _)).trans (length_encode_value_le hbs.varint)) _
  | fixed32 v => exact Nat.le_refl _

/-- Encodable fields are encoded by their shortest encoding. -/
theorem isFields_encodeFields {depth : Nat} {fields : List Field} (h : AreEncodable depth fields) :
    IsFields depth fields (encodeFields fields) := by
  induction fields using fields_induction generalizing depth with
  | nil => exact .nil
  | scalar number payload fields ih =>
      rw [AreEncodable, Field.IsEncodable] at h
      rcases h with ⟨⟨hpos, hlt, hpayload⟩, hfields⟩
      have htype := payload.wireType_lt
      rw [encodeFields, Field.encode, List.append_assoc]
      exact .scalar (isTag_encodeTag hpos (by omega)) (isBody_encode hpayload) (ih hfields)
  | group number inner fields ihinner ih =>
      cases depth with
      | zero =>
          rw [AreEncodable, Field.IsEncodable] at h
          exact h.1.elim
      | succ depth =>
          rw [AreEncodable, Field.IsEncodable] at h
          rcases h with ⟨⟨hlt, hinner⟩, hfields⟩
          rw [encodeFields, Field.encode, List.append_assoc, List.append_assoc]
          exact .group (isTag_encodeTag (by rw [startGroup]; omega) (by rw [startGroup]; omega))
            (ihinner hinner)
            (isTag_encodeTag (by rw [endGroup]; omega) (by rw [endGroup]; omega)) (ih hfields)

/-- Only encodable fields have an encoding. -/
theorem IsFields.areEncodable {depth : Nat} {fields : List Field} {bytes : List UInt8}
    (h : IsFields depth fields bytes) : AreEncodable depth fields := by
  induction h with
  | nil => exact trivial
  | scalar htag hbody _ ih =>
      have hlt := htag.lt
      rw [AreEncodable, Field.IsEncodable]
      exact ⟨⟨htag.ne_zero, by omega, hbody.isEncodable⟩, ih⟩
  | group htag _ _ _ ihinner ih =>
      have hlt := htag.lt
      rw [AreEncodable, Field.IsEncodable]
      exact ⟨⟨by omega, ihinner⟩, ih⟩

/-- No encoding of the same fields is shorter. -/
theorem IsFields.length_encodeFields_le {depth : Nat} {fields : List Field} {bytes : List UInt8}
    (h : IsFields depth fields bytes) : (encodeFields fields).length ≤ bytes.length := by
  induction h with
  | nil => exact Nat.le_refl 0
  | scalar htag hbody _ ih =>
      have htagLength := htag.length_encodeTag_le
      have hbodyLength := hbody.length_encode_le
      simp only [encodeFields, Field.encode, List.length_append]
      omega
  | group htag _ htag' _ ihinner ih =>
      have htagLength := htag.length_encodeTag_le
      have htagLength' := htag'.length_encodeTag_le
      simp only [encodeFields, Field.encode, List.length_append]
      omega

/-- Fields are encoded one behind the other. -/
theorem encodeFields_append (fields fields' : List Field) :
    encodeFields (fields ++ fields') = encodeFields fields ++ encodeFields fields' := by
  induction fields with
  | nil => rfl
  | cons field fields ih =>
      rw [List.cons_append, encodeFields, encodeFields, ih, List.append_assoc]

/-- Fields are encodable when each of them is. -/
theorem areEncodable_append {depth : Nat} {fields fields' : List Field} :
    AreEncodable depth (fields ++ fields') ↔
      AreEncodable depth fields ∧ AreEncodable depth fields' := by
  induction fields with
  | nil => simp [AreEncodable]
  | cons field fields ih =>
      rw [List.cons_append, AreEncodable, AreEncodable, ih, and_assoc]

end WireFormat
