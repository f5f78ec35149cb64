import WeWrite.Wire.Parse

/-!
# That the parser comes to an end

The loops of the source have no bound, and the definitions that model them have one, their fuel.
Here are the same loops without fuel, each with the number of its passes and calls.  Every one of
them ends, after at most a number of steps that is linear in the bytes that are left, and the fuel
that the definitions are started with is enough for all of them.  So no result of the parser
comes from running out of it.

Main results:

- Theorems `fieldEnds_step` and `messageEnds_step`: what the end of a call rests on.
- Theorem `exists_skipRuns`: the readers of unknown fields end.
- Theorem `SkipRuns.run_eq`: then they have the result that the definitions with fuel have.
- Theorem `pass_goto_length`: a pass of the parser's loop that goes on has taken bytes.
- Theorems `exists_mergeRuns` and `MergeRuns.mergeLoop_eq`: the same for the parser's loop.
- Theorem `parser_terminates`: all of it.
-/

namespace WeWrite.Wire

open Varint WireFormat CodedInputStream

/-! ## The readers of unknown fields -/

/-- A call of one of the two readers. -/
inductive SkipCall where
  | field (tag : UInt32)
  | message

/-- The call with some fuel. -/
def SkipCall.run (fuel : Nat) (input : CodedInputStream) (known : UnknownFieldSet) :
    SkipCall → Bool × UnknownFieldSet × CodedInputStream
  | .field tag => skipField fuel input tag known
  | .message => skipMessage fuel input known

/-- The two readers without fuel: the call ends with a result, after so many calls of `SkipField`
and passes of the loop of `SkipMessage`, its own among them. -/
inductive SkipRuns : Nat → SkipCall → CodedInputStream → UnknownFieldSet →
    Bool × UnknownFieldSet × CodedInputStream → Prop where
  /-- Only a group goes on to `SkipMessage`. -/
  | scalar {input : CodedInputStream} {tag : UInt32} {known : UnknownFieldSet}
      (hscalar : getTagWireType tag ≠ wireTypeStartGroup) :
      SkipRuns 1 (.field tag) input known (skipField 1 input tag known)
  | tooDeep {input : CodedInputStream} {tag : UInt32} {known : UnknownFieldSet}
      (hgroup : getTagWireType tag = wireTypeStartGroup)
      (hdepth : input.incrementRecursionDepth = none) :
      SkipRuns 1 (.field tag) input known (false, known, input)
  | group {calls : Nat} {input input1 input2 : CodedInputStream} {tag : UInt32}
      {known inner : UnknownFieldSet} (hgroup : getTagWireType tag = wireTypeStartGroup)
      (hdepth : input.incrementRecursionDepth = some input1)
      (hinner : SkipRuns calls .message input1 [] (true, inner, input2)) :
      SkipRuns (calls + 1) (.field tag) input known
        (input2.decrementRecursionDepth.lastTagWas
            (makeTag (getTagFieldNumber tag) wireTypeEndGroup),
          known ++ [.group (getTagFieldNumber tag) inner], input2.decrementRecursionDepth)
  | groupFails {calls : Nat} {input input1 input2 : CodedInputStream} {tag : UInt32}
      {known inner : UnknownFieldSet} (hgroup : getTagWireType tag = wireTypeStartGroup)
      (hdepth : input.incrementRecursionDepth = some input1)
      (hinner : SkipRuns calls .message input1 [] (false, inner, input2)) :
      SkipRuns (calls + 1) (.field tag) input known
        (false, known ++ [.group (getTagFieldNumber tag) inner], input2)
  | ends {input input1 : CodedInputStream} {tag : UInt32} {known : UnknownFieldSet}
      (hread : input.readTag = (tag, input1))
      (hend : tag = 0 ∨ getTagWireType tag = wireTypeEndGroup) :
      SkipRuns 1 .message input known (true, known, input1)
  | fails {calls : Nat} {input input1 input2 : CodedInputStream} {tag : UInt32}
      {known known1 : UnknownFieldSet} (hread : input.readTag = (tag, input1))
      (hend : ¬ (tag = 0 ∨ getTagWireType tag = wireTypeEndGroup))
      (hfield : SkipRuns calls (.field tag) input1 known (false, known1, input2)) :
      SkipRuns (calls + 1) .message input known (false, known1, input2)
  | goes {calls calls' : Nat} {input input1 input2 : CodedInputStream} {tag : UInt32}
      {known known1 : UnknownFieldSet} {result : Bool × UnknownFieldSet × CodedInputStream}
      (hread : input.readTag = (tag, input1))
      (hend : ¬ (tag = 0 ∨ getTagWireType tag = wireTypeEndGroup))
      (hfield : SkipRuns calls (.field tag) input1 known (true, known1, input2))
      (hrest : SkipRuns calls' .message input2 known1 result) :
      SkipRuns (calls + calls' + 1) .message input known result

/-- Without a group, `SkipField` does not use its fuel. -/
theorem skipField_of_ne_startGroup {fuel : Nat} {input : CodedInputStream} {tag : UInt32}
    {known : UnknownFieldSet} (hscalar : getTagWireType tag ≠ wireTypeStartGroup) :
    skipField (fuel + 1) input tag known = skipField 1 input tag known := by
  rw [skipField, skipField]
  split
  · rfl
  · rfl
  · rfl
  next hgroup => exact (hscalar hgroup).elim
  · rfl
  · rfl

/-- Fuel for every call is enough fuel: the readers then end with the same result. -/
theorem SkipRuns.run_eq {calls : Nat} {call : SkipCall} {input : CodedInputStream}
    {known : UnknownFieldSet} {result : Bool × UnknownFieldSet × CodedInputStream}
    (h : SkipRuns calls call input known result) :
    ∀ fuel, calls ≤ fuel → call.run fuel input known = result := by
  induction h with
  | scalar hscalar =>
      intro fuel hfuel
      obtain ⟨fuel, rfl⟩ : ∃ n, fuel = n + 1 := ⟨fuel - 1, by omega⟩
      exact skipField_of_ne_startGroup hscalar
  | tooDeep hgroup hdepth =>
      intro fuel hfuel
      obtain ⟨fuel, rfl⟩ : ∃ n, fuel = n + 1 := ⟨fuel - 1, by omega⟩
      simp only [SkipCall.run, skipField, hgroup, hdepth]
  | group hgroup hdepth _ ih =>
      intro fuel hfuel
      obtain ⟨fuel, rfl⟩ : ∃ n, fuel = n + 1 := ⟨fuel - 1, by omega⟩
      have hinner := ih fuel (by omega)
      rw [SkipCall.run] at hinner
      simp only [SkipCall.run, skipField, hgroup, hdepth, hinner, if_true]
  | groupFails hgroup hdepth _ ih =>
      intro fuel hfuel
      obtain ⟨fuel, rfl⟩ : ∃ n, fuel = n + 1 := ⟨fuel - 1, by omega⟩
      have hinner := ih fuel (by omega)
      rw [SkipCall.run] at hinner
      simp only [SkipCall.run, skipField, hgroup, hdepth, hinner, Bool.false_eq_true, if_false]
  | ends hread hend =>
      intro fuel hfuel
      obtain ⟨fuel, rfl⟩ : ∃ n, fuel = n + 1 := ⟨fuel - 1, by omega⟩
      rw [SkipCall.run, skipMessage, hread]
      simp only
      split_ifs with hzero hgroup
      · rfl
      · rfl
      · exact (hend.elim hzero hgroup).elim
      · exact (hend.elim hzero hgroup).elim
  | fails hread hend _ ih =>
      intro fuel hfuel
      obtain ⟨fuel, rfl⟩ : ∃ n, fuel = n + 1 := ⟨fuel - 1, by omega⟩
      rcases not_or.mp hend with ⟨hzero, hgroup⟩
      have hfield := ih fuel (by omega)
      rw [SkipCall.run] at hfield
      simp only [SkipCall.run, skipMessage, hread, if_neg hzero, if_neg hgroup, hfield,
        Bool.false_eq_true, if_false]
  | goes hread hend _ _ ihfield ihrest =>
      intro fuel hfuel
      obtain ⟨fuel, rfl⟩ : ∃ n, fuel = n + 1 := ⟨fuel - 1, by omega⟩
      rcases not_or.mp hend with ⟨hzero, hgroup⟩
      have hfield := ihfield fuel (by omega)
      have hrest := ihrest fuel (by omega)
      rw [SkipCall.run] at hfield
      rw [SkipCall.run] at hrest
      simp only [SkipCall.run, skipMessage, hread, if_neg hzero, if_neg hgroup, hfield, hrest,
        if_true]

/-- A field that is no group takes at least one byte. -/
theorem skipField_scalar_length {input input' : CodedInputStream} {tag : UInt32}
    {known known' : UnknownFieldSet} (hscalar : getTagWireType tag ≠ wireTypeStartGroup)
    (h : skipField 1 input tag known = (true, known', input')) :
    input'.buffer.length + 1 ≤ input.buffer.length := by
  have hlt := tag.toNat_lt
  rw [← makeTag_number_type tag] at h hscalar
  rw [getTagWireType_makeTag (by omega) (by omega)] at hscalar
  rcases skipField_scalar_sound (by omega) (by omega) hscalar h with
    ⟨payload, body, -, hbody, -, hbuffer, -⟩
  have hpos := hbody.length_pos
  rw [hbuffer, List.length_append]
  omega

/-- `SkipField` ends on the stream, after at most two calls for each byte and two more; a field
that is read takes a byte for every two of its calls. -/
def FieldEnds (input : CodedInputStream) (tag : UInt32) (known : UnknownFieldSet) : Prop :=
  ∃ calls result, SkipRuns calls (.field tag) input known result ∧
    calls ≤ 2 * input.buffer.length + 2 ∧
    (result.1 = true → calls + 2 * result.2.2.buffer.length ≤ 2 * input.buffer.length)

/-- `SkipMessage` ends on the stream, after at most two calls for each byte and one more; a message
that is read up to a tag takes a byte for every two of its calls, the one of its group among
them. -/
def MessageEnds (input : CodedInputStream) (known : UnknownFieldSet) : Prop :=
  ∃ calls result, SkipRuns calls .message input known result ∧
    calls ≤ 2 * input.buffer.length + 1 ∧
    (result.1 = true → result.2.2.lastTag ≠ 0 →
      calls + 1 + 2 * result.2.2.buffer.length ≤ 2 * input.buffer.length)

/-- The tag that ends a group is not zero. -/
theorem makeTag_endGroup_ne_zero (tag : UInt32) :
    makeTag (getTagFieldNumber tag) wireTypeEndGroup ≠ 0 := by
  have hlt := tag.toNat_lt
  have hvalue := toNat_makeTag (by decide : wireTypeEndGroup < 8)
    (by rw [getTagFieldNumber_eq]; omega : getTagFieldNumber tag < 2 ^ 29)
  intro hzero
  rw [hzero, UInt32.toNat_zero] at hvalue
  exact Nat.succ_ne_zero _ hvalue.symm

/-- A field ends if, when it is a group, the message in it does. -/
theorem fieldEnds_step {input : CodedInputStream} {tag : UInt32} {known : UnknownFieldSet}
    (hmessage : ∀ input1 : CodedInputStream, input1.buffer = input.buffer →
      MessageEnds input1 []) : FieldEnds input tag known := by
  by_cases hgroup : getTagWireType tag = wireTypeStartGroup
  · cases hdepth : input.incrementRecursionDepth with
    | none => exact ⟨1, _, .tooDeep hgroup hdepth, by omega, fun h => by cases h⟩
    | some input1 =>
        have hbuffer : input1.buffer = input.buffer := by
          rw [incrementRecursionDepth] at hdepth
          split_ifs at hdepth
          obtain rfl := Option.some.inj hdepth
          rfl
        obtain ⟨calls, ⟨ok, inner, input2⟩, hinner, hcalls, htaken⟩ := hmessage input1 hbuffer
        rw [hbuffer] at hcalls htaken
        cases ok with
        | false => exact ⟨_, _, .groupFails hgroup hdepth hinner, by omega, fun h => by cases h⟩
        | true =>
            refine ⟨_, _, .group hgroup hdepth hinner, by omega, fun hok => ?_⟩
            -- the inner message has come to the tag that ends the group
            have hlast : input2.lastTag = makeTag (getTagFieldNumber tag) wireTypeEndGroup :=
              beq_iff_eq.mp hok
            have hinnerTaken := htaken rfl (by rw [hlast]; exact makeTag_endGroup_ne_zero tag)
            have hsame : input2.decrementRecursionDepth.buffer = input2.buffer := rfl
            simp only [hsame]
            omega
  · refine ⟨1, _, .scalar hgroup, by omega, fun hok => ?_⟩
    cases hskip : skipField 1 input tag known with
    | mk ok result =>
        rcases result with ⟨known', input'⟩
        rw [hskip] at hok
        obtain rfl : ok = true := hok
        have hlength := skipField_scalar_length hgroup hskip
        simp only
        omega

/-- A message ends if its first field does, and what is behind that. -/
theorem messageEnds_step {input : CodedInputStream} {known : UnknownFieldSet}
    (hfirst : ∀ (input1 : CodedInputStream) (tag : UInt32),
      input1.buffer.length < input.buffer.length → FieldEnds input1 tag known)
    (hbehind : ∀ (input2 : CodedInputStream) (known1 : UnknownFieldSet),
      input2.buffer.length < input.buffer.length → MessageEnds input2 known1) :
    MessageEnds input known := by
  cases hread : input.readTag with
  | mk tag input1 =>
      by_cases hzero : tag = 0
      · refine ⟨1, _, .ends hread (Or.inl hzero), by omega, fun _ hne => ?_⟩
        exact (hne (by rw [lastTag_readTag hread, hzero])).elim
      · rcases readTag_of_ne_zero hread hzero with ⟨bs, hbs, hbuffer, -, -⟩
        have hpos := hbs.length_pos
        have hlength := congrArg List.length hbuffer
        rw [List.length_append] at hlength
        by_cases hend : getTagWireType tag = wireTypeEndGroup
        · refine ⟨1, _, .ends hread (Or.inr hend), by omega, fun _ _ => ?_⟩
          simp only
          omega
        · have hgoes := not_or.mpr ⟨hzero, hend⟩
          obtain ⟨calls, ⟨ok, known1, input2⟩, hfield, hcalls, htaken⟩ :=
            hfirst input1 tag (by omega)
          cases ok with
          | false => exact ⟨_, _, .fails hread hgoes hfield, by omega, fun h => by cases h⟩
          | true =>
              have hfieldTaken := htaken rfl
              simp only at hfieldTaken
              obtain ⟨calls', result, hrest, hcalls', htaken'⟩ :=
                hbehind input2 known1 (by omega)
              refine ⟨_, _, .goes hread hgoes hfield hrest, by omega, fun hok hne => ?_⟩
              have hrestTaken := htaken' hok hne
              omega

/-- Every call ends: a group takes its message from the same bytes, a message takes a tag first. -/
theorem exists_skipRuns (n : Nat) :
    (∀ (input : CodedInputStream) (tag : UInt32) (known : UnknownFieldSet),
        2 * input.buffer.length + 2 ≤ n → FieldEnds input tag known) ∧
      ∀ (input : CodedInputStream) (known : UnknownFieldSet),
        2 * input.buffer.length + 1 ≤ n → MessageEnds input known := by
  induction n with
  | zero => exact ⟨fun _ _ _ h => by omega, fun _ _ h => by omega⟩
  | succ n ih =>
      rcases ih with ⟨ihfield, ihmessage⟩
      constructor
      · intro input tag known hn
        apply fieldEnds_step
        intro input1 hbuffer
        exact ihmessage input1 [] (by rw [hbuffer]; omega)
      · intro input known hn
        apply messageEnds_step
        · intro input1 tag hlt
          exact ihfield input1 tag known (by omega)
        · intro input2 known1 hlt
          exact ihmessage input2 known1 (by omega)

namespace TextChangeMessage

/-! ## The parser's loop -/

/-- The loop of `MergePartialFromCodedStream` without fuel: started at a label, it ends with a
result after so many passes. -/
inductive MergeRuns : Nat → Label → TextChangeMessage → CodedInputStream →
    Bool × TextChangeMessage × CodedInputStream → Prop where
  | ret {label : Label} {message message' : TextChangeMessage} {input input' : CodedInputStream}
      {ok : Bool} (hpass : pass message input label = (.ret ok, message', input')) :
      MergeRuns 1 label message input (ok, message', input')
  | goto {passes : Nat} {label label' : Label} {message message' : TextChangeMessage}
      {input input' : CodedInputStream} {result : Bool × TextChangeMessage × CodedInputStream}
      (hpass : pass message input label = (.goto label', message', input'))
      (hrest : MergeRuns passes label' message' input' result) :
      MergeRuns (passes + 1) label message input result

/-- Fuel for every pass is enough fuel. -/
theorem MergeRuns.mergeLoop_eq {passes : Nat} {label : Label} {message : TextChangeMessage}
    {input : CodedInputStream} {result : Bool × TextChangeMessage × CodedInputStream}
    (h : MergeRuns passes label message input result) :
    ∀ fuel, passes ≤ fuel → mergeLoop fuel label message input = result := by
  induction h with
  | ret hpass =>
      intro fuel hfuel
      obtain ⟨fuel, rfl⟩ : ∃ n, fuel = n + 1 := ⟨fuel - 1, by omega⟩
      rw [mergeLoop, hpass]
  | goto hpass _ ih =>
      intro fuel hfuel
      obtain ⟨fuel, rfl⟩ : ∃ n, fuel = n + 1 := ⟨fuel - 1, by omega⟩
      rw [mergeLoop, hpass]
      exact ih fuel (by omega)

/-- A pass that goes on has taken bytes. -/
theorem pass_goto_length {label label' : Label} {message message' : TextChangeMessage}
    {input input' : CodedInputStream}
    (h : pass message input label = (.goto label', message', input')) :
    input'.buffer.length + 1 ≤ input.buffer.length := by
  have hpass := pass_sound message input label
  rw [h] at hpass
  cases hpass with
  | goto _ hfield hwhole _ =>
      have hlength := congrArg List.length hwhole
      have htwo := hfield.two_le_length
      have hbehind : label.behind.length ≤ 1 := by cases label <;> decide
      simp only [List.length_append] at hlength
      omega

/-- The loop ends, after at most one pass for each byte that is left and one more. -/
theorem exists_mergeRuns (n : Nat) (label : Label) (message : TextChangeMessage)
    (input : CodedInputStream) (hn : input.buffer.length ≤ n) :
    ∃ passes result, MergeRuns passes label message input result ∧
      passes ≤ input.buffer.length + 1 := by
  induction n generalizing label message input with
  | zero =>
      cases hpass : pass message input label with
      | mk passEnd result =>
          rcases result with ⟨message', input'⟩
          cases passEnd with
          | goto label' =>
              have hlength := pass_goto_length hpass
              omega
          | ret ok => exact ⟨1, _, .ret hpass, by omega⟩
  | succ n ih =>
      cases hpass : pass message input label with
      | mk passEnd result =>
          rcases result with ⟨message', input'⟩
          cases passEnd with
          | goto label' =>
              have hlength := pass_goto_length hpass
              obtain ⟨passes, result, hrest, hpasses⟩ := ih label' message' input' (by omega)
              exact ⟨_, result, .goto hpass hrest, by omega⟩
          | ret ok => exact ⟨1, _, .ret hpass, by omega⟩

/-! ## Everything ends -/

/-- On every stream the parser's loop ends after at most one pass for each byte that is left and
one more, and the two readers of unknown fields after at most two calls for each byte and two
more; and with fuel for these passes or calls, the definitions give the result they end with. -/
theorem parser_terminates (message : TextChangeMessage) (input : CodedInputStream) (label : Label)
    (tag : UInt32) (known : UnknownFieldSet) :
    (∃ passes result, MergeRuns passes label message input result ∧
        passes ≤ input.buffer.length + 1 ∧
        ∀ fuel, passes ≤ fuel → mergeLoop fuel label message input = result) ∧
      (∃ calls result, SkipRuns calls (.field tag) input known result ∧
        calls ≤ 2 * input.buffer.length + 2 ∧
        ∀ fuel, calls ≤ fuel → skipField fuel input tag known = result) ∧
      ∃ calls result, SkipRuns calls .message input known result ∧
        calls ≤ 2 * input.buffer.length + 1 ∧
        ∀ fuel, calls ≤ fuel → skipMessage fuel input known = result := by
  refine ⟨?_, ?_, ?_⟩
  · obtain ⟨passes, result, hruns, hpasses⟩ :=
      exists_mergeRuns _ label message input (Nat.le_refl _)
    exact ⟨passes, result, hruns, hpasses, hruns.mergeLoop_eq⟩
  · obtain ⟨calls, result, hruns, hcalls, -⟩ :=
      (exists_skipRuns _).1 input tag known (Nat.le_refl _)
    exact ⟨calls, result, hruns, hcalls, hruns.run_eq⟩
  · obtain ⟨calls, result, hruns, hcalls, -⟩ :=
      (exists_skipRuns _).2 input known (Nat.le_refl _)
    exact ⟨calls, result, hruns, hcalls, hruns.run_eq⟩

end TextChangeMessage

end WeWrite.Wire
