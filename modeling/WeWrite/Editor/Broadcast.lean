import WeWrite.Editor.Handlers

/-!
# What a broadcast says

A broadcast describes an edit by its type, the caret behind it and a count.  When the cached
size is the length of the text view, these are the ones of the edit, and applying the event
to the text the author had is performing the edit, on every device that reads the typed
character as it was meant, with one exception: a deletion that leaves exactly one unit
behind its range is applied by the end branch, which takes that unit too.

Main results:

- Theorem `announced_of_tracks`: with a right cache, an edit is announced as itself.
- Theorems `applyEvent_insertEvent` and `applyEvent_deleteEvent`: when such an event applies,
  and what it leaves.
- Theorem `applyEvent_announced`: applying the event to the author's text performs the edit.
-/

namespace WeWrite

open Splice ViewController

variable {α γ : Type}

/-! ## The event of an edit -/

/-- The `Insert` of one character typed at `location`. -/
def insertEvent (dev : Device α γ) (location : Nat) (char : α) : Event γ where
  eventType := .insert
  data := {
    cursorLocation := location + 1
    contentModified := dev.utf8String [char]
    numChars := 1 }

/-- The `Delete` of `count` units from `location` on. -/
def deleteEvent (location count : Nat) : Event γ where
  eventType := .delete
  data := { cursorLocation := location, contentModified := [], numChars := count }

/-- The event is the one that announces the edit with its own size. -/
def Announced (dev : Device α γ) : Edit α → Event γ → Prop
  | .insert location char, event => event = insertEvent dev location char
  | .delete location count, event => event = deleteEvent location count
  | .replace _, _ => False

/-- The edit is one typed character or one deleted range. -/
def Edit.IsTyping : Edit α → Prop
  | .replace _ => False
  | _ => True

theorem Event.ext_data {event : Event γ} {type : EventType} {data : TextChangeMessage γ}
    (htype : event.eventType = type) (hlocation : event.data.cursorLocation = data.cursorLocation)
    (hcontent : event.data.contentModified = data.contentModified)
    (hcount : event.data.numChars = data.numChars) : event = ⟨type, data⟩ := by
  rcases event with ⟨type', location', content', count'⟩
  rcases data with ⟨location, content, count⟩
  simp_all

/-- With a right cache, an edit is announced as itself. -/
theorem announced_of_tracks {dev : Device α γ} {edit : Edit α} {event : Event γ}
    {vc vc' : ViewController α} (htyping : edit.IsTyping)
    (hsize : vc.textSize = vc.myTextView.text.length)
    (hedited : Edited dev edit event vc vc') : Announced dev edit event := by
  have hsize' := hedited.textSize
  have hcount := hedited.numChars
  cases edit with
  | insert location char =>
      rcases hedited.typed (Int.le_of_eq hsize) with ⟨htype, hcontent, hlocation, hlength⟩
      exact Event.ext_data htype hlocation hcontent (by simp only; omega)
  | delete location count =>
      have hview := hedited.view
      have hlocation := hedited.location
      simp only [Edit.perform] at hview
      split_ifs at hview with hle
      have hview := Option.some.inj hview
      rw [← hview] at hsize' hlocation
      rw [length_removeAt hle.2] at hsize'
      rcases hedited.notGrown (by omega) with ⟨htype, hcontent⟩
      exact Event.ext_data htype hlocation hcontent (by simp only; omega)
  | replace view => exact htyping.elim

/-! ## Applying an announced edit -/

/-- An `Insert` whose character is read as `text`. -/
theorem applyEvent_insertEvent {dev : Device α γ} {decode : List γ → NSString α}
    {location : Nat} {char : α} {s s' : NSString α} :
    applyEvent decode s (insertEvent dev location char) = some s' ↔
      location ≤ s.length ∧ s' = insertAt location (decode (dev.utf8String [char])) s := by
  have hpos : ((location : Int) + 1 - 1).toNat = location := by omega
  simp only [applyEvent, insertEvent, if_true, insertString_eq_some_iff, hpos]
  constructor
  · rintro ⟨-, hle, rfl⟩
    exact ⟨by omega, rfl⟩
  · rintro ⟨hle, rfl⟩
    exact ⟨by omega, by omega, rfl⟩

/-- A `Delete` outside the end branch. -/
theorem applyEvent_deleteEvent {decode : List γ → NSString α} {location count : Nat}
    {s s' : NSString α} (hend : ¬ atEndBranch s.length location count) :
    applyEvent decode s (deleteEvent location count) = some s' ↔
      location + count ≤ s.length ∧ s' = removeAt location count s := by
  have hpos : ((location : Int) + count).toNat = location + count := by omega
  simp only [applyEvent, deleteEvent, reduceCtorEq, if_false, deleteString_eq_some_iff hend, hpos,
    Int.toNat_natCast]
  constructor
  · rintro ⟨-, -, -, hle, rfl⟩
    exact ⟨by omega, rfl⟩
  · rintro ⟨hle, rfl⟩
    exact ⟨by omega, by omega, by omega, by omega, rfl⟩

/-! ## Performing an edit by applying its event -/

/-- The text after an edit. -/
def performText (text : NSString α) (edit : Edit α) : Option (NSString α) :=
  (edit.perform text).map UITextView.text

theorem performText_insert {location : Nat} {char : α} {text text' : NSString α} :
    performText text (.insert location char) = some text' ↔
      location ≤ text.length ∧ text' = insertAt location [char] text := by
  simp only [performText, Edit.perform]
  split_ifs with hle <;> simp [hle, eq_comm]

theorem performText_delete {location count : Nat} {text text' : NSString α} :
    performText text (.delete location count) = some text' ↔
      0 < count ∧ location + count ≤ text.length ∧ text' = removeAt location count text := by
  simp only [performText, Edit.perform]
  split_ifs with hle
  · simp [hle.1, hle.2, eq_comm]
  · simp only [Option.map_none, reduceCtorEq, false_iff]
    rintro ⟨hpos, hrange, -⟩
    exact hle ⟨hpos, hrange⟩

theorem performText_of_edited {dev : Device α γ} {edit : Edit α} {event : Event γ}
    {vc vc' : ViewController α} (hedited : Edited dev edit event vc vc') :
    performText vc.myTextView.text edit = some vc'.myTextView.text := by
  rw [performText, hedited.view, Option.map_some]

/-- The edit is not a deletion, away from the start, that leaves exactly one unit behind its
range. -/
def SparesLastUnit (text : NSString α) : Edit α → Prop
  | .delete location count => ¬ atEndBranch text.length location count
  | _ => True

/-- The typed character, if there is one, is read as itself. -/
def ReadAsTyped (decode : List γ → NSString α) (dev : Device α γ) : Edit α → Prop
  | .insert _ char => decode (dev.utf8String [char]) = [char]
  | _ => True

/-- Applying the event to the text the author had performs the edit. -/
theorem applyEvent_announced {dev : Device α γ} {decode : List γ → NSString α} {edit : Edit α}
    {event : Event γ} {text text' : NSString α} (hannounced : Announced dev edit event)
    (hread : ReadAsTyped decode dev edit) (hspares : SparesLastUnit text edit)
    (hperform : performText text edit = some text') :
    applyEvent decode text event = some text' := by
  cases edit with
  | insert location char =>
      obtain rfl := hannounced
      rw [applyEvent_insertEvent, hread]
      exact performText_insert.mp hperform
  | delete location count =>
      obtain rfl := hannounced
      rw [applyEvent_deleteEvent hspares]
      exact (performText_delete.mp hperform).2
  | replace view => exact hannounced.elim

end WeWrite
