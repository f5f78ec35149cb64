import WeWrite.Editor.Text

/-!
# The editor's view controller

`ViewController` keeps two copies of the document: the text view, which the user types
into, and `sideString`, which takes every event in the order of the session.  `brCounter`
counts the editor's own broadcasts that have not come back.  This module has the state,
the four mutators, the handler of received events and the handler of local edits, in the
order of the source.

The handlers run on the main queue one after the other, so each is one function from
state to state.  Left out are logging, scrolling, the buttons, and the way back to the dialogs
when the session has ended.  A message is its three fields here; `Wire.Network` has its bytes.

Main results:

- Theorem `insertSide_sideString` and its three siblings: what each mutator does to the
  text it is named after is one of the two splices.
-/

namespace WeWrite

variable {α γ : Type}

/-! ## Messages and events -/

/-- `textChange::textChangeMessage`, by the values its accessors return. -/
structure TextChangeMessage (γ : Type) where
  cursorLocation : Int
  contentModified : List γ
  numChars : Int
deriving DecidableEq, Repr

/-- The event types the editor sends.  A receiver tests for `Insert` only, so a third type would be
received as `Delete` is. -/
inductive EventType where
  | insert
  | delete
deriving DecidableEq, Repr

/-- An event of the session: its type and its parsed data. -/
structure Event (γ : Type) where
  eventType : EventType
  data : TextChangeMessage γ
deriving DecidableEq, Repr

/-! ## State -/

/-- The properties of `ViewController` that its text handling uses. -/
structure ViewController (α : Type) where
  myTextView : UITextView α
  textSize : Int
  sideString : NSString α
  sideCursorLoc : Int
  brCounter : Int
  selectedRange : NSRange
deriving DecidableEq, Repr

namespace ViewController

/-- `viewDidLoad`: the editor opens on the text its view was loaded with. -/
def viewDidLoad (myTextView : UITextView α) : ViewController α where
  myTextView := myTextView
  textSize := 0
  sideString := myTextView.text
  sideCursorLoc := 0
  brCounter := 0
  selectedRange := myTextView.selectedRange

/-! ## Universal mods -/

/-- `insertSide:atLocation:amount:`. -/
def insertSide (vc : ViewController α) (text : NSString α) (location numChars : Int) :
    Option (ViewController α) := do
  let sideString ← insertString vc.sideString text location numChars
  let sideCursorLoc :=
    if location - numChars ≤ vc.sideCursorLoc then vc.sideCursorLoc + numChars
    else vc.sideCursorLoc
  some { vc with sideString := sideString, sideCursorLoc := sideCursorLoc }

/-- `deleteSide:amount:`. -/
def deleteSide (vc : ViewController α) (location numChars : Int) :
    Option (ViewController α) := do
  let sideString ← deleteString vc.sideString location numChars
  let sideCursorLoc :=
    if location < vc.sideCursorLoc ∧ vc.sideCursorLoc < location + numChars then
      vc.sideCursorLoc - (vc.sideCursorLoc - location)
    else if location < vc.sideCursorLoc then vc.sideCursorLoc - numChars
    else vc.sideCursorLoc
  some { vc with sideString := sideString, sideCursorLoc := sideCursorLoc }

/-- `insertMain:atLocation:amount:`. -/
def insertMain (dev : Device α γ) (vc : ViewController α) (text : NSString α)
    (location numChars : Int) : Option (ViewController α) := do
  let selectedRange := vc.myTextView.selectedRange
  let newText ← insertString vc.myTextView.text text location numChars
  let myTextView := (vc.myTextView.setText dev newText).setSelectedRange dev selectedRange
  -- the moved selection goes to the property only, after the view has been given the old one
  let newRange :=
    if location - numChars < selectedRange.location then
      { selectedRange with location := selectedRange.location + numChars }
    else selectedRange
  some { vc with
    myTextView := myTextView
    textSize := newText.length
    selectedRange := newRange }

/-- `deleteMain:amount:`. -/
def deleteMain (dev : Device α γ) (vc : ViewController α) (location numChars : Int) :
    Option (ViewController α) := do
  let selectedRange := vc.myTextView.selectedRange
  let newText ← deleteString vc.myTextView.text location numChars
  let myTextView := (vc.myTextView.setText dev newText).setSelectedRange dev selectedRange
  let newRange :=
    if location < selectedRange.location ∧ selectedRange.location < location + numChars then
      { selectedRange with
        location := selectedRange.location - (selectedRange.location - location) }
    else if location < selectedRange.location then
      -- the source subtracts the location from itself here
      { selectedRange with location := selectedRange.location - selectedRange.location }
    else selectedRange
  some { vc with
    myTextView := myTextView
    textSize := newText.length
    selectedRange := newRange }

/-! ## Receiving broadcasts -/

/-- The two side mutators behind the test of the event type: everything that is not an
`Insert` is handled as a deletion. -/
def applySide (dev : Device α γ) (vc : ViewController α) (event : Event γ) :
    Option (ViewController α) :=
  if event.eventType = .insert then
    vc.insertSide (dev.stringWithCString event.data.contentModified)
      event.data.cursorLocation event.data.numChars
  else
    vc.deleteSide event.data.cursorLocation event.data.numChars

/-- The two main mutators behind the test of the event type. -/
def applyMain (dev : Device α γ) (vc : ViewController α) (event : Event γ) :
    Option (ViewController α) :=
  if event.eventType = .insert then
    vc.insertMain dev (dev.stringWithCString event.data.contentModified)
      event.data.cursorLocation event.data.numChars
  else
    vc.deleteMain dev event.data.cursorLocation event.data.numChars

/-- `client:receivedEventWithOrderID:submissionRegistrationID:eventType:data:`. -/
def receivedEvent (dev : Device α γ) (vc : ViewController α) (submissionRegistrationID : Int)
    (event : Event γ) : Option (ViewController α) :=
  if submissionRegistrationID ≠ -1 then do
    -- Self submission received
    let vc ← applySide dev { vc with brCounter := vc.brCounter - 1 } event
    let newRange := { vc.myTextView.selectedRange with location := event.data.cursorLocation }
    let vc := { vc with selectedRange := newRange }
    if vc.brCounter = 0 then
      some { vc with
        myTextView := (vc.myTextView.setText dev vc.sideString).setSelectedRange dev newRange }
    else
      some vc
  else if vc.brCounter = 0 then do
    -- Outside submission, reflected in original and side
    let vc ← applyMain dev vc event
    applySide dev vc event
  else
    -- Outside submission, reflected only in side
    applySide dev vc event

/-! ## Sending broadcasts -/

/-- `sendBroadcastInsert`: the event handed to `broadcast:eventType:`. -/
def sendBroadcastInsert (dev : Device α γ) (vc : ViewController α) : Option (Event γ) := do
  let charToSend ← characterAtIndex vc.myTextView.text (vc.myTextView.selectedRange.location - 1)
  some {
    eventType := .insert
    data := {
      contentModified := dev.utf8String [charToSend]
      cursorLocation := vc.myTextView.selectedRange.location
      numChars := (vc.textSize - vc.myTextView.text.length).natAbs } }

/-- `sendBroadcastDelete`: the event handed to `broadcast:eventType:`. -/
def sendBroadcastDelete (vc : ViewController α) : Event γ where
  eventType := .delete
  data := {
    contentModified := []
    cursorLocation := vc.myTextView.selectedRange.location
    numChars := (vc.textSize - vc.myTextView.text.length).natAbs }

/-- `textViewDidChange:`, called with the changed text already in the view.  The counter
goes up before the send, and the result of the send is not looked at. -/
def textViewDidChange (dev : Device α γ) (vc : ViewController α) :
    Option (ViewController α × Event γ) :=
  if vc.textSize < vc.myTextView.text.length then do
    -- Adding text
    let vc := { vc with brCounter := vc.brCounter + 1 }
    let event ← sendBroadcastInsert dev vc
    some ({ vc with textSize := vc.myTextView.text.length }, event)
  else
    -- Deleting Text
    let vc := { vc with brCounter := vc.brCounter + 1 }
    let event := sendBroadcastDelete vc
    some ({ vc with textSize := vc.myTextView.text.length }, event)

end ViewController

/-! ## Local edits -/

/-- What a user does to the text of the view. -/
inductive Edit (α : Type) where
  /-- Type one character at a caret position. -/
  | insert (location : Nat) (char : α)
  /-- Delete a contiguous range: backspace, or a selection. -/
  | delete (location count : Nat)
  /-- Any other change, by the view it leaves. -/
  | replace (view : UITextView α)
deriving DecidableEq, Repr

/-- The view after an edit; `none` when the text has no such position. -/
def Edit.perform (text : NSString α) : Edit α → Option (UITextView α)
  | .insert location char =>
      if location ≤ text.length then
        some ⟨Splice.insertAt location [char] text, ⟨location + 1, 0⟩⟩
      else none
  | .delete location count =>
      if 0 < count ∧ location + count ≤ text.length then
        some ⟨Splice.removeAt location count text, ⟨location, 0⟩⟩
      else none
  | .replace view => some view

/-- A local edit: the text view changes and calls `textViewDidChange:`. -/
def ViewController.userEdit (dev : Device α γ) (vc : ViewController α) (edit : Edit α) :
    Option (ViewController α × Event γ) := do
  let view ← edit.perform vc.myTextView.text
  textViewDidChange dev { vc with myTextView := view }

/-! ## The string effect of an event -/

/-- What an event does to a string, when its content is decoded by `decode`. -/
def applyEvent (decode : List γ → NSString α) (s : NSString α) (event : Event γ) :
    Option (NSString α) :=
  if event.eventType = .insert then
    insertString s (decode event.data.contentModified) event.data.cursorLocation
      event.data.numChars
  else
    deleteString s event.data.cursorLocation event.data.numChars

namespace ViewController

theorem insertSide_sideString (vc : ViewController α) (text : NSString α)
    (location numChars : Int) :
    (vc.insertSide text location numChars).map sideString =
      insertString vc.sideString text location numChars := by
  unfold insertSide
  cases insertString vc.sideString text location numChars <;> rfl

theorem deleteSide_sideString (vc : ViewController α) (location numChars : Int) :
    (vc.deleteSide location numChars).map sideString =
      deleteString vc.sideString location numChars := by
  unfold deleteSide
  cases deleteString vc.sideString location numChars <;> rfl

theorem insertMain_text (dev : Device α γ) (vc : ViewController α) (text : NSString α)
    (location numChars : Int) :
    (vc.insertMain dev text location numChars).map (·.myTextView.text) =
      insertString vc.myTextView.text text location numChars := by
  unfold insertMain
  cases insertString vc.myTextView.text text location numChars <;> rfl

theorem deleteMain_text (dev : Device α γ) (vc : ViewController α) (location numChars : Int) :
    (vc.deleteMain dev location numChars).map (·.myTextView.text) =
      deleteString vc.myTextView.text location numChars := by
  unfold deleteMain
  cases deleteString vc.myTextView.text location numChars <;> rfl

end ViewController

end WeWrite
