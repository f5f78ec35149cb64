import WeWrite.Editor.Broadcast
import WeWrite.Session.Agreement
import WeWrite.Wire.RoundTrip

/-!
# A session over bytes

The service never sees an event: what a client hands to `broadcast:eventType:` is the type and
the bytes of a serialized message, and what it is handed is such a pair.  `Network` is the session
with packets of bytes in the order and in the outboxes and without any history.  Every editor
serializes what it sends and parses what it receives.

A position or a count is an `int64` on the wire and an `int` in the parameters of the mutators.
`EditsFit` says that the edited texts are short enough for that.  Under it the two systems take
the same actions and show the same texts.

Main results:

- Theorem `parseEvent_of_messageOf`: an event that fits is written, and is read back as itself.
- Theorem `Network.carries_step`: the two systems take the same steps.
- Theorem `Network.runs_carry`: they have the same runs.
- Theorem `Network.texts_agree`: when everything has been delivered, everyone shows one text.
-/

namespace WeWrite

open Transition ViewController

variable {ι α : Type}

/-! ## Events as bytes -/

/-- The message that is built for an event; `sendBroadcastDelete` sets no content. -/
def messageOf (event : Event UInt8) : Wire.TextChangeMessage where
  cursorLocation := some (.ofInt event.data.cursorLocation)
  contentModified :=
    if event.eventType = .delete then none else some event.data.contentModified
  numChars := some (.ofInt event.data.numChars)
  unknownFields := []

/-- The event that the handler makes of received data.  Whether parsing succeeded is not looked
at, and a field that is missing is read as its default. -/
def parseEvent (eventType : EventType) (data : List UInt8) : Event UInt8 :=
  let (_, message) := Wire.TextChangeMessage.parseFromArray data
  { eventType := eventType
    data := {
      cursorLocation := (message.cursorLocation.getD 0).toInt32.toInt
      contentModified := message.contentModified.getD []
      numChars := (message.numChars.getD 0).toInt32.toInt } }

/-- The numbers of an event fit an `int`, and its content is short. -/
structure Event.Fits (event : Event UInt8) : Prop where
  location : -2 ^ 31 ≤ event.data.cursorLocation ∧ event.data.cursorLocation < 2 ^ 31
  count : -2 ^ 31 ≤ event.data.numChars ∧ event.data.numChars < 2 ^ 31
  content : event.data.contentModified.length < 2 ^ 30
  nothing : event.eventType = .delete → event.data.contentModified = []

theorem toInt_toInt32_ofInt {n : Int} (h : -2 ^ 31 ≤ n ∧ n < 2 ^ 31) :
    (Int64.ofInt n).toInt32.toInt = n := by
  rw [Int64.toInt32_ofInt, Int32.toInt_ofInt_of_le h.1 h.2]

theorem messageOf_wellFormed {event : Event UInt8} (h : event.Fits) :
    (messageOf event).WellFormed where
  content data hdata := by
    have hlength := h.content
    simp only [messageOf] at hdata
    split_ifs at hdata
    obtain rfl := Option.some.inj hdata
    omega
  encodable := trivial
  unknown _ hfield := by cases hfield

theorem length_serialize_messageOf {event : Event UInt8} (h : event.Fits) :
    (messageOf event).serializeWithCachedSizesToArray.length < 2 ^ 31 := by
  have hnumber : ∀ n, n < 2 ^ 64 → (Varint.encode n).length ≤ 10 := fun n hn =>
    Varint.length_encode_le_iff.mpr (hn.trans (by decide))
  have hint : ∀ number, number < 2 ^ 29 → ∀ value : Int64,
      (Wire.TextChangeMessage.writeInt64ToArray number value).length ≤ 20 := by
    intro number hlt value
    have htag := hnumber (8 * number) (by omega)
    have hvalue := hnumber value.toUInt64.toNat (UInt64.toNat_lt _)
    rw [Wire.TextChangeMessage.writeInt64ToArray_eq hlt]
    simp only [WireFormat.Field.encode, WireFormat.encodeTag, WireFormat.Payload.wireType,
      WireFormat.Payload.encode, List.length_append, Nat.add_zero]
    omega
  have hlocation := hint 1 (by decide) (.ofInt event.data.cursorLocation)
  have hcount := hint 3 (by decide) (.ofInt event.data.numChars)
  have hcontent : ((messageOf event).contentModified.elim []
      (Wire.TextChangeMessage.writeStringToArray 2)).length ≤
      20 + event.data.contentModified.length := by
    have hlength := h.content
    have htag := hnumber (8 * 2 + 2) (by decide)
    have hsize := hnumber event.data.contentModified.length (by omega)
    simp only [messageOf]
    split_ifs
    · exact Nat.zero_le _
    · rw [Option.elim, Wire.TextChangeMessage.writeStringToArray_eq (by decide) (by omega)]
      simp only [WireFormat.Field.encode, WireFormat.encodeTag, WireFormat.Payload.wireType,
        WireFormat.Payload.encode, List.length_append]
      omega
  have hlength := h.content
  simp only [Wire.TextChangeMessage.serializeWithCachedSizesToArray, List.length_append]
  simp only [messageOf, Option.elim, Wire.serializeUnknownFieldsToArray, List.length_nil] at *
  omega

/-- An event that fits is written, and is read back as itself. -/
theorem parseEvent_of_messageOf {event : Event UInt8} (h : event.Fits) :
    ∃ data, (messageOf event).serializeAsString = some data ∧
      (Wire.TextChangeMessage.parseFromArray data).1 = true ∧
        parseEvent event.eventType data = event := by
  have hlength := length_serialize_messageOf h
  have hparse := Wire.TextChangeMessage.parseFromArray_serialize (messageOf_wellFormed h)
    (Or.inr ⟨rfl, rfl⟩)
  have hdata := (Wire.TextChangeMessage.serializeAsString_eq_some_iff
    (messageOf_wellFormed h).stringsFit).mpr ⟨rfl, hlength⟩
  refine ⟨_, hdata, by rw [hparse], ?_⟩
  rw [parseEvent, hparse]
  rcases event with ⟨eventType, location, content, count⟩
  have hcontent : (messageOf ⟨eventType, location, content, count⟩).contentModified.getD [] =
      content := by
    simp only [messageOf]
    split_ifs with htype
    · exact (h.nothing htype).symm
    · rfl
  simp only [hcontent]
  simp only [messageOf, Option.getD_some, toInt_toInt32_ofInt h.location,
    toInt_toInt32_ofInt h.count]

/-! ## State and steps -/

/-- A broadcast as the service holds it. -/
structure Packet (ι : Type) where
  author : ι
  eventType : EventType
  data : List UInt8

/-- A participant. -/
structure Endpoint (ι α : Type) where
  joined : Bool
  vc : ViewController α
  delivered : Nat
  outbox : List (Packet ι)

/-- The participants and the order of the published packets. -/
structure Network (ι α : Type) where
  endpoint : ι → Endpoint ι α
  order : List (Packet ι)

/-- Who sent a packet, and the event that a handler makes of it. -/
def Packet.read (packet : Packet ι) : ι × Event UInt8 :=
  (packet.author, parseEvent packet.eventType packet.data)

/-- The data of the packet is a message. -/
def Packet.Parses (packet : Packet ι) : Prop :=
  (Wire.TextChangeMessage.parseFromArray packet.data).1 = true

namespace Network

/-- Nobody has joined, and editor `i` opens on `view i`. -/
def start (view : ι → UITextView α) : Network ι α where
  endpoint i :=
    { joined := false, vc := viewDidLoad (view i), delivered := 0, outbox := [] }
  order := []

variable [DecidableEq ι]

/-- Replace one participant. -/
def setEndpoint (n : Network ι α) (i : ι) (e : Endpoint ι α) : Network ι α :=
  { n with endpoint := Function.update n.endpoint i e }

/-- One step; `none` when the action is impossible, raises, or ends the program. -/
def step (dev : ι → Device α UInt8) (n : Network ι α) : SessionAction ι α → Option (Network ι α)
  | .join i =>
      if (n.endpoint i).joined then none
      else some (n.setEndpoint i { n.endpoint i with joined := true })
  | .edit i edit =>
      if (n.endpoint i).joined then do
        let (vc, event) ← (n.endpoint i).vc.userEdit (dev i) edit
        let data ← (messageOf event).serializeAsString
        some (n.setEndpoint i { n.endpoint i with
          vc := vc
          outbox := (n.endpoint i).outbox ++ [⟨i, event.eventType, data⟩] })
      else none
  | .select i range =>
      if (n.endpoint i).joined then
        let view := { (n.endpoint i).vc.myTextView with selectedRange := range }
        some (n.setEndpoint i { n.endpoint i with
          vc := { (n.endpoint i).vc with myTextView := view } })
      else none
  | .publish i index => do
      let packet ← (n.endpoint i).outbox[index]?
      let endpoint := { n.endpoint i with outbox := (n.endpoint i).outbox.eraseIdx index }
      some { n.setEndpoint i endpoint with order := n.order ++ [packet] }
  | .deliver i =>
      if (n.endpoint i).joined then do
        let packet ← n.order[(n.endpoint i).delivered]?
        let vc ← (n.endpoint i).vc.receivedEvent (dev i)
          (submissionRegistrationID i packet.author) (parseEvent packet.eventType packet.data)
        some (n.setEndpoint i { n.endpoint i with
          vc := vc
          delivered := (n.endpoint i).delivered + 1 })
      else none

end Network

/-! ## Edits that fit -/

/-- The text before an edit and the text after it have fewer than `2 ^ 31` units, and the caret
after it is a place that an `int` can name. -/
def ViewController.EditFits (vc : ViewController α) (edit : Edit α) : Prop :=
  vc.myTextView.text.length < 2 ^ 31 ∧
    ∀ view ∈ edit.perform vc.myTextView.text, view.text.length < 2 ^ 31 ∧
      0 ≤ view.selectedRange.location ∧ view.selectedRange.location < 2 ^ 31

instance (vc : ViewController α) (edit : Edit α) : Decidable (vc.EditFits edit) :=
  inferInstanceAs (Decidable (_ ∧ _))

/-- Every edit that is made fits. -/
def Network.EditsFit (n : Network ι α) : SessionAction ι α → Prop
  | .edit i edit => (n.endpoint i).vc.EditFits edit
  | _ => True

/-- Every edit that is made fits. -/
def Session.EditsFit (s : Session ι α UInt8) : SessionAction ι α → Prop
  | .edit i edit => (s.client i).vc.EditFits edit
  | _ => True

instance (s : Session ι α UInt8) : ∀ a : SessionAction ι α, Decidable (s.EditsFit a)
  | .edit i edit => inferInstanceAs (Decidable ((s.client i).vc.EditFits edit))
  | .join _ | .select _ _ | .publish _ _ | .deliver _ => inferInstanceAs (Decidable True)

/-- UTF-8 takes at most three bytes for one unit. -/
def ShortUnits (dev : Device α UInt8) : Prop :=
  ∀ char, (dev.utf8String [char]).length ≤ 3

/-- The cached size is a length that fits, or the length of the text that is shown while nothing
is outstanding. -/
def ViewController.SizeFits (vc : ViewController α) : Prop :=
  0 ≤ vc.textSize ∧
    (vc.textSize < 2 ^ 31 ∨ vc.textSize = vc.myTextView.text.length ∧ vc.brCounter = 0)

/-- The event of an edit that fits is one that fits. -/
theorem ViewController.Edited.event_fits {dev : Device α UInt8} {edit : Edit α}
    {event : Event UInt8} {vc vc' : ViewController α} (hunits : ShortUnits dev)
    (hsize : vc.SizeFits) (hfits : vc.EditFits edit) (h : Edited dev edit event vc vc') :
    event.Fits := by
  rcases hfits with ⟨hbefore, hafter⟩
  rcases hafter _ h.view with ⟨hlength, hcaret⟩
  have hsize' := h.textSize
  rcases hsize with ⟨hpos, hlt⟩
  refine ⟨by rw [h.location]; omega, by rw [h.numChars]; omega, ?_, ?_⟩
  · by_cases hgrown : vc.textSize < vc'.textSize
    · rcases h.grown hgrown with ⟨-, char, -, hcontent⟩
      have hshort := hunits char
      rw [hcontent]
      omega
    · rw [(h.notGrown hgrown).2]
      decide
  · intro htype
    by_cases hgrown : vc.textSize < vc'.textSize
    · rw [(h.grown hgrown).1] at htype
      cases htype
    · exact (h.notGrown hgrown).2

theorem ViewController.Edited.sizeFits {dev : Device α UInt8} {edit : Edit α}
    {event : Event UInt8} {vc vc' : ViewController α} (hfits : vc.EditFits edit)
    (h : Edited dev edit event vc vc') : vc'.SizeFits := by
  have hlength := (hfits.2 _ h.view).1
  have hsize := h.textSize
  exact ⟨by omega, Or.inl (by omega)⟩

theorem ViewController.ReceivedOwn.sizeFits {decode : List UInt8 → NSString α}
    {event : Event UInt8} {vc vc' : ViewController α} (hsize : vc.SizeFits)
    (hcounter : vc.brCounter ≠ 0) (h : ReceivedOwn decode event vc vc') : vc'.SizeFits := by
  rcases hsize with ⟨hpos, hlt | ⟨-, hzero⟩⟩
  · rw [SizeFits, h.textSize]
    exact ⟨hpos, Or.inl hlt⟩
  · exact (hcounter hzero).elim

theorem ViewController.ReceivedRemote.sizeFits {decode : List UInt8 → NSString α}
    {event : Event UInt8} {vc vc' : ViewController α} (hsize : vc.SizeFits)
    (h : ReceivedRemote decode event vc vc') : vc'.SizeFits := by
  have hcounter := h.counter
  by_cases hzero : vc.brCounter = 0
  · have hshown := (h.shown hzero).2
    exact ⟨by omega, Or.inr ⟨hshown, by omega⟩⟩
  · rcases h.hidden hzero with ⟨hview, htextSize⟩
    rw [SizeFits, hview, htextSize, hcounter]
    exact hsize

namespace Session

variable [DecidableEq ι] {dev : ι → Device α UInt8} {s s' : Session ι α UInt8}

/-- Every cached size fits. -/
def SizesFit (s : Session ι α UInt8) : Prop :=
  ∀ i, (s.client i).vc.SizeFits

omit [DecidableEq ι] in
theorem sizesFit_start (view : ι → UITextView α) : SizesFit (start view) := by
  intro i
  exact ⟨Int.le_refl 0, Or.inl (by decide : (0 : Int) < 2 ^ 31)⟩

/-- A step keeps the cached sizes small, when every editor counts what it is owed. -/
theorem sizesFit_step {a : SessionAction ι α} (hsizes : SizesFit s)
    (hcounter : ∀ i, (s.client i).vc.brCounter = (s.pending i).length) (hfits : s.EditsFit a)
    (hstep : s.step dev a = some s') : SizesFit s' := by
  have hset : ∀ (i : ι) (c : Client ι α UInt8), c.vc.SizeFits →
      ∀ j, ((s.setClient i c).client j).vc.SizeFits := fun i c hc =>
    forall_setClient (P := fun _ c => c.vc.SizeFits) hsizes hc
  cases a with
  | join i =>
      obtain rfl := step_join hstep
      exact hset i _ (hsizes i)
  | edit i edit =>
      rcases step_edit hstep with ⟨vc, event, hedit, rfl⟩
      exact hset i _ ((userEdit_spec hedit).sizeFits hfits)
  | select i range =>
      obtain rfl := step_select hstep
      exact hset i _ (hsizes i)
  | publish i index =>
      rcases step_publish hstep with ⟨x, -, rfl⟩
      exact hset i _ (hsizes i)
  | deliver i =>
      rcases step_deliver hstep with ⟨x, vc, hx, hvc, rfl⟩
      refine hset i _ ?_
      rcases received_of_receivedEvent hvc with ⟨hauthor, hown⟩ | ⟨-, hremote⟩
      · refine hown.sizeFits (hsizes i) ?_
        have hpending := hcounter i
        rw [pending, ownFrom_succ hx, if_pos hauthor, List.length_cons] at hpending
        omega
      · exact hremote.sizeFits (hsizes i)

end Session

/-! ## The two systems side by side -/

/-- Who sent a submission, and its event. -/
def Submission.said (x : Submission ι α UInt8) : ι × Event UInt8 :=
  (x.author, x.event)

/-- The participant is the client, and its packets carry the client's broadcasts. -/
structure Endpoint.Carries (e : Endpoint ι α) (c : Client ι α UInt8) : Prop where
  joined : e.joined = c.joined
  vc : e.vc = c.vc
  delivered : e.delivered = c.delivered
  outbox : e.outbox.map Packet.read = c.outbox.map Submission.said
  parses : ∀ packet ∈ e.outbox, packet.Parses

namespace Network

/-- Every participant is a client, and the packets of the order carry its events. -/
structure Carries (n : Network ι α) (s : Session ι α UInt8) : Prop where
  endpoint : ∀ i, (n.endpoint i).Carries (s.client i)
  order : n.order.map Packet.read = s.order.map Submission.said
  parses : ∀ packet ∈ n.order, packet.Parses

theorem carries_start (view : ι → UITextView α) : Carries (start view) (Session.start view) where
  endpoint _ := ⟨rfl, rfl, rfl, rfl, by simp [start]⟩
  order := rfl
  parses := by simp [start]

variable [DecidableEq ι] {dev : ι → Device α UInt8} {n n' : Network ι α}
  {s s' : Session ι α UInt8}

/-- Replacing a participant and its client. -/
theorem Carries.set {i : ι} {e : Endpoint ι α} {c : Client ι α UInt8}
    {order : List (Packet ι)} {order' : List (Submission ι α UInt8)} {edits : List (Edit α)}
    (h : n.Carries s) (hclient : e.Carries c)
    (horder : order.map Packet.read = order'.map Submission.said)
    (hparses : ∀ packet ∈ order, packet.Parses) :
    Carries { n.setEndpoint i e with order := order }
      { s.setClient i c with order := order', edits := edits } where
  endpoint j := by
    by_cases hj : j = i
    · subst hj
      simpa [setEndpoint, Session.setClient] using hclient
    · simpa [setEndpoint, Session.setClient, hj] using h.endpoint j
  order := horder
  parses := hparses

omit [DecidableEq ι] in
/-- A packet and a submission at the same place say the same. -/
theorem read_cases {packets : List (Packet ι)} {xs : List (Submission ι α UInt8)}
    (h : packets.map Packet.read = xs.map Submission.said) (k : Nat) :
    (packets[k]? = none ∧ xs[k]? = none) ∨
      ∃ packet x, packets[k]? = some packet ∧ xs[k]? = some x ∧ packet.read = x.said := by
  have hget : (packets.map Packet.read)[k]? = (xs.map Submission.said)[k]? := by rw [h]
  rw [List.getElem?_map, List.getElem?_map] at hget
  cases hx : xs[k]? with
  | none =>
      rw [hx, Option.map_none, Option.map_eq_none_iff] at hget
      exact Or.inl ⟨hget, rfl⟩
  | some x =>
      rw [hx, Option.map_some, Option.map_eq_some_iff] at hget
      rcases hget with ⟨packet, hpacket, hread⟩
      exact Or.inr ⟨packet, x, hpacket, rfl, hread⟩

/-- The two systems take the same steps. -/
theorem carries_step {a : SessionAction ι α} (hunits : ∀ i, ShortUnits (dev i))
    (hcarries : n.Carries s) (hsizes : s.SizesFit) (hfits : s.EditsFit a) :
    Option.Rel Carries (n.step dev a) (s.step dev a) := by
  cases a with
  | join i =>
      rcases hcarries.endpoint i with ⟨hjoined, hvc, hdelivered, houtbox, hparses⟩
      simp only [step, Session.step, hjoined]
      split_ifs
      · exact .none
      · exact .some (hcarries.set ⟨rfl, hvc, hdelivered, houtbox, hparses⟩ hcarries.order
          hcarries.parses)
  | edit i edit =>
      rcases hcarries.endpoint i with ⟨hjoined, hvc, hdelivered, houtbox, hparses⟩
      simp only [step, Session.step, hjoined, hvc, Option.bind_eq_bind]
      split_ifs
      · cases hedit : (s.client i).vc.userEdit (dev i) edit with
        | none => exact .none
        | some result =>
            rcases result with ⟨vc, event⟩
            have hevent : event.Fits :=
              (userEdit_spec hedit).event_fits (hunits i) (hsizes i) hfits
            rcases parseEvent_of_messageOf hevent with ⟨data, hdata, hparsed, hparse⟩
            simp only [Option.bind_some, hdata]
            refine .some (hcarries.set ⟨rfl, rfl, hdelivered, ?_, ?_⟩ hcarries.order
              hcarries.parses)
            · simp [houtbox, Packet.read, Submission.said, Session.submission, hparse]
            · exact forall_mem_concat hparses hparsed
      · exact .none
  | select i range =>
      rcases hcarries.endpoint i with ⟨hjoined, hvc, hdelivered, houtbox, hparses⟩
      simp only [step, Session.step, hjoined, hvc]
      split_ifs
      · exact .some (hcarries.set ⟨rfl, rfl, hdelivered, houtbox, hparses⟩ hcarries.order
          hcarries.parses)
      · exact .none
  | publish i index =>
      rcases hcarries.endpoint i with ⟨hjoined, hvc, hdelivered, houtbox, hparses⟩
      simp only [step, Session.step, Option.bind_eq_bind]
      rcases read_cases houtbox index with ⟨hp, hx⟩ | ⟨packet, x, hp, hx, hread⟩
      · rw [hp, hx]
        exact .none
      · rw [hp, hx, Option.bind_some, Option.bind_some]
        refine .some (hcarries.set ⟨hjoined, hvc, hdelivered, ?_, ?_⟩ ?_ ?_)
        · rw [← List.eraseIdx_map, ← List.eraseIdx_map, houtbox]
        · exact fun y hy => hparses y (List.mem_of_mem_eraseIdx hy)
        · rw [List.map_append, List.map_append, hcarries.order, List.map_singleton,
            List.map_singleton, hread]
        · exact forall_mem_concat hcarries.parses (hparses packet (List.mem_of_getElem? hp))
  | deliver i =>
      rcases hcarries.endpoint i with ⟨hjoined, hvc, hdelivered, houtbox, hparses⟩
      simp only [step, Session.step, hjoined, hvc, hdelivered, Option.bind_eq_bind]
      split_ifs
      · rcases read_cases hcarries.order (s.client i).delivered with
          ⟨hp, hx⟩ | ⟨packet, x, hp, hx, hread⟩
        · rw [hp, hx]
          exact .none
        · rcases Prod.ext_iff.mp hread with ⟨hauthor, hevent⟩
          have hauthor : packet.author = x.author := hauthor
          have hevent : parseEvent packet.eventType packet.data = x.event := hevent
          rw [hp, hx, Option.bind_some, Option.bind_some, hauthor, hevent]
          cases (s.client i).vc.receivedEvent (dev i) (submissionRegistrationID i x.author)
              x.event with
          | none => exact .none
          | some vc =>
              exact .some (hcarries.set ⟨rfl, rfl, rfl, houtbox, hparses⟩ hcarries.order
                hcarries.parses)
      · exact .none

/-! ## Runs -/

/-- A network beside a session that was reached by a run. -/
def Beside (dev : ι → Device α UInt8) (view : ι → UITextView α) (n : Network ι α)
    (s : Session ι α UInt8) : Prop :=
  n.Carries s ∧ s.SizesFit ∧
    ∃ as, Run (Session.step dev) anyAction (Session.start view) as s

theorem beside_start (dev : ι → Device α UInt8) (view : ι → UITextView α) :
    Beside dev view (start view) (Session.start view) :=
  ⟨carries_start view, Session.sizesFit_start view, [], .nil⟩

/-- A step that both take leaves them beside each other. -/
theorem Beside.step {view : ι → UITextView α} {a : SessionAction ι α} (h : Beside dev view n s)
    (hfits : s.EditsFit a) (hcarries : n'.Carries s') (hs : s.step dev a = some s') :
    Beside dev view n' s' := by
  rcases h with ⟨-, hsizes, as, hrun⟩
  have hcounter := fun i => (Session.folded_of_run hrun i).counter
  exact ⟨hcarries, Session.sizesFit_step hsizes hcounter hfits hs, as ++ [a],
    .snoc hrun trivial hs⟩

omit [DecidableEq ι] in
theorem editsFit_iff (h : n.Carries s) (a : SessionAction ι α) : n.EditsFit a ↔ s.EditsFit a := by
  cases a with
  | edit i edit => rw [EditsFit, Session.EditsFit, (h.endpoint i).vc]
  | join i => exact Iff.rfl
  | select i range => exact Iff.rfl
  | publish i index => exact Iff.rfl
  | deliver i => exact Iff.rfl

/-- Every run of the network is a run of the session. -/
theorem beside_of_run {view : ι → UITextView α} {as : List (SessionAction ι α)}
    (hunits : ∀ i, ShortUnits (dev i))
    (hrun : Run (step dev) EditsFit (start view) as n) :
    ∃ s, Run (Session.step dev) Session.EditsFit (Session.start view) as s ∧
      Beside dev view n s := by
  refine hrun.lockstep (Beside dev view) (beside_start dev view) ?_
  intro n a n' s hbeside hok hstep
  have hfits := (editsFit_iff hbeside.1 a).mp hok
  have hrel := carries_step hunits hbeside.1 hbeside.2.1 hfits
  rw [hstep] at hrel
  cases hs : s.step dev a with
  | none => rw [hs] at hrel; cases hrel
  | some s' =>
      rw [hs] at hrel
      cases hrel with
      | some hcarries => exact ⟨hfits, s', rfl, hbeside.step hfits hcarries hs⟩

/-- Every run of the session is a run of the network. -/
theorem beside_of_session_run {view : ι → UITextView α} {as : List (SessionAction ι α)}
    (hunits : ∀ i, ShortUnits (dev i))
    (hrun : Run (Session.step dev) Session.EditsFit (Session.start view) as s) :
    ∃ n, Run (step dev) EditsFit (start view) as n ∧ Beside dev view n s := by
  refine hrun.lockstep (fun s n => Beside dev view n s) (beside_start dev view) ?_
  intro s a s' n hbeside hok hs
  have hrel := carries_step hunits hbeside.1 hbeside.2.1 hok
  rw [hs] at hrel
  cases hstep : n.step dev a with
  | none => rw [hstep] at hrel; cases hrel
  | some n' =>
      rw [hstep] at hrel
      cases hrel with
      | some hcarries =>
          exact ⟨(editsFit_iff hbeside.1 a).mpr hok, n', rfl, hbeside.step hok hcarries hs⟩

/-- Under edits that fit, the network and the session take the same actions, with the same texts,
counters and positions, and every packet is parsed as the broadcast that it carries. -/
theorem runs_carry (dev : ι → Device α UInt8) (view : ι → UITextView α)
    (hunits : ∀ i, ShortUnits (dev i)) (as : List (SessionAction ι α)) :
    (∀ n, Run (step dev) EditsFit (start view) as n →
      ∃ s, Run (Session.step dev) Session.EditsFit (Session.start view) as s ∧ n.Carries s) ∧
    ∀ s, Run (Session.step dev) Session.EditsFit (Session.start view) as s →
      ∃ n, Run (step dev) EditsFit (start view) as n ∧ n.Carries s := by
  constructor
  · intro n hrun
    rcases beside_of_run hunits hrun with ⟨s, hs, hbeside⟩
    exact ⟨s, hs, hbeside.1⟩
  · intro s hrun
    rcases beside_of_session_run hunits hrun with ⟨n, hn, hbeside⟩
    exact ⟨n, hn, hbeside.1⟩

theorem shortUnits_latin1Device : ShortUnits latin1Device := by
  intro char
  have hlt := UInt16.toNat_lt char
  change (utf8Point char.toNat).length ≤ 3
  rw [utf8Point]
  split_ifs
  · exact Nat.le_succ_of_le (Nat.le_succ 1)
  · exact Nat.le_succ 2
  · exact Nat.le_refl 3

/-- Two participants type one character each, and both are handed both packets. -/
theorem runs_carry_typing :
    ∃ as, ∃ n : Network Bool Unichar,
      Run (step fun _ => latin1Device) EditsFit (start fun _ => viewOf []) as n ∧
        (∀ i, (n.endpoint i).delivered = 2 ∧ (n.endpoint i).vc.myTextView.text = [97, 98]) ∧
        n.order.map Packet.read =
          [(true, insertEvent latin1Device 0 97), (false, insertEvent latin1Device 1 98)] := by
  let as : List (SessionAction Bool Unichar) :=
    [.join true, .join false, .edit true (.insert 0 97), .publish true 0, .deliver true,
      .deliver false, .edit false (.insert 1 98), .publish false 0, .deliver true, .deliver false]
  obtain ⟨s, hs, htrue, hfalse, horder⟩ : ∃ s : Session Bool Unichar UInt8,
      replay (fun s a => if s.EditsFit a then s.step (fun _ => latin1Device) a else none)
        (Session.start fun _ => viewOf []) as = some s ∧
      ((s.client true).delivered = 2 ∧ (s.client true).vc.myTextView.text = [97, 98]) ∧
      ((s.client false).delivered = 2 ∧ (s.client false).vc.myTextView.text = [97, 98]) ∧
      s.order.map Submission.said =
        [(true, insertEvent latin1Device 0 97), (false, insertEvent latin1Device 1 98)] :=
    ⟨_, rfl, ⟨rfl, rfl⟩, ⟨rfl, rfl⟩, rfl⟩
  rcases (runs_carry _ _ (fun _ => shortUnits_latin1Device) as).2 s (Run.of_guarded_replay hs) with
    ⟨n, hn, hcarries⟩
  refine ⟨as, n, hn, fun i => ?_, by rw [hcarries.order, horder]⟩
  rw [(hcarries.endpoint i).vc, (hcarries.endpoint i).delivered]
  cases i with
  | true => exact htrue
  | false => exact hfalse

/-- The events that participant `i` has been handed. -/
def receivedEvents (n : Network ι α) (i : ι) : List (Event UInt8) :=
  (n.order.take (n.endpoint i).delivered).map fun packet =>
    parseEvent packet.eventType packet.data

/-- Over bytes too, every side string is the fold of the events handed over, and participants at
the same position with nothing outstanding show the same text. -/
theorem texts_agree (dev : ι → Device α UInt8) (view : ι → UITextView α)
    (hunits : ∀ i, ShortUnits (dev i)) (hopen : ∀ i j, (view i).text = (view j).text)
    (hdecode : ∀ i j, (dev i).stringWithCString = (dev j).stringWithCString)
    (as : List (SessionAction ι α)) (n : Network ι α)
    (hrun : Run (step dev) EditsFit (start view) as n) :
    (∀ i, replay (applyEvent (dev i).stringWithCString) (view i).text (n.receivedEvents i) =
        some (n.endpoint i).vc.sideString) ∧
      ∀ i j, (n.endpoint i).delivered = (n.endpoint j).delivered →
        (n.endpoint i).vc.brCounter = 0 → (n.endpoint j).vc.brCounter = 0 →
        (n.endpoint i).vc.myTextView.text = (n.endpoint j).vc.myTextView.text := by
  rcases beside_of_run hunits hrun with ⟨s, hs, hcarries, -⟩
  have hreceived : ∀ i, n.receivedEvents i = s.receivedEvents i := by
    intro i
    have horder := congrArg (fun l => (l.take (s.client i).delivered).map Prod.snd) hcarries.order
    simp only [← List.map_take, List.map_map] at horder
    rw [receivedEvents, Session.receivedEvents, (hcarries.endpoint i).delivered]
    exact horder
  have hfolded : ∀ i, replay (applyEvent (dev i).stringWithCString) (view i).text
      (n.receivedEvents i) = some (n.endpoint i).vc.sideString := by
    intro i
    rw [hreceived, (hcarries.endpoint i).vc]
    exact (Session.folded_of_run hs i).folded
  refine ⟨hfolded, ?_⟩
  intro i j hdelivered hi hj
  rw [(hcarries.endpoint i).vc] at hi ⊢
  rw [(hcarries.endpoint j).vc] at hj ⊢
  rw [(Session.folded_of_run hs i).synced hi, (Session.folded_of_run hs j).synced hj]
  have hsame : n.receivedEvents i = n.receivedEvents j := by
    rw [receivedEvents, receivedEvents, hdelivered]
  have hfold := hfolded i
  rw [hopen i j, hdecode i j, hsame, hfolded j, (hcarries.endpoint i).vc,
    (hcarries.endpoint j).vc] at hfold
  exact (Option.some.inj hfold).symm

/-- Two participants type at the same place, and both are handed both packets. -/
theorem texts_agree_typing :
    ∃ as, ∃ n : Network Bool Unichar,
      Run (step fun _ => latin1Device) EditsFit (start fun _ => viewOf []) as n ∧
        (n.endpoint true).vc.myTextView.text = [98, 97] ∧
        (n.endpoint true).vc.myTextView.text = (n.endpoint false).vc.myTextView.text := by
  let as : List (SessionAction Bool Unichar) :=
    [.join true, .join false, .edit true (.insert 0 97), .edit false (.insert 0 98),
      .publish true 0, .publish false 0, .deliver true, .deliver false, .deliver true,
      .deliver false]
  obtain ⟨s, hs, htext, hdelivered, hcounter⟩ : ∃ s : Session Bool Unichar UInt8,
      replay (fun s a => if s.EditsFit a then s.step (fun _ => latin1Device) a else none)
        (Session.start fun _ => viewOf []) as = some s ∧
      (s.client true).vc.myTextView.text = [98, 97] ∧
      (s.client true).delivered = (s.client false).delivered ∧
      ∀ i, (s.client i).vc.brCounter = 0 := ⟨_, rfl, rfl, rfl, by rintro (_ | _) <;> rfl⟩
  rcases beside_of_session_run (fun _ => shortUnits_latin1Device) (Run.of_guarded_replay hs) with
    ⟨n, hn, hcarries, -⟩
  refine ⟨as, n, hn, by rw [(hcarries.endpoint true).vc, htext], ?_⟩
  refine (texts_agree _ _ (fun _ => shortUnits_latin1Device) (fun _ _ => rfl) (fun _ _ => rfl) _ n
    hn).2 true false ?_ ?_ ?_
  · rw [(hcarries.endpoint true).delivered, (hcarries.endpoint false).delivered, hdelivered]
  · rw [(hcarries.endpoint true).vc, hcounter]
  · rw [(hcarries.endpoint false).vc, hcounter]

end Network

end WeWrite
