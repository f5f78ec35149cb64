import WeWrite.Editor.Controller
import WeWrite.Library.Runs

/-!
# What the handlers do

One specification for each handler of the view controller, in terms of the two texts, the
counter and the cached size.  Later modules cite these and do not unfold the handlers.

Main results:

- Theorem `receivedEvent_own`: an own echo always goes to the side string, and reaches the
  text view exactly when it brings the counter to zero.
- Theorem `receivedEvent_remote`: an event of another client goes to the side string, and
  to the text view exactly when the counter is zero.
- Theorem `receivedEvent_eq_none_iff`: when the handler raises.
- Theorem `userEdit_spec`: what a local edit changes, and the event it broadcasts.
- Theorem `Edited.typed`: how a keystroke is broadcast.
- Theorem `replay_sideString`: folding the side mutators over a list of events folds
  `applyEvent` over the string.
-/

namespace WeWrite

open Transition

variable {α γ : Type}

namespace ViewController

/-! ## The side and main mutators -/

/-- A side mutator has applied `event`: nothing but the side string and its cursor moved. -/
structure SideApplied (decode : List γ → NSString α) (event : Event γ)
    (vc vc' : ViewController α) : Prop where
  side : applyEvent decode vc.sideString event = some vc'.sideString
  view : vc'.myTextView = vc.myTextView
  textSize : vc'.textSize = vc.textSize
  counter : vc'.brCounter = vc.brCounter

/-- A main mutator has applied `event`: the text and its cached size moved together. -/
structure MainApplied (decode : List γ → NSString α) (event : Event γ)
    (vc vc' : ViewController α) : Prop where
  text : applyEvent decode vc.myTextView.text event = some vc'.myTextView.text
  textSize : vc'.textSize = vc'.myTextView.text.length
  side : vc'.sideString = vc.sideString
  counter : vc'.brCounter = vc.brCounter

theorem applySide_spec {dev : Device α γ} {vc vc' : ViewController α} {event : Event γ}
    (h : applySide dev vc event = some vc') :
    SideApplied dev.stringWithCString event vc vc' := by
  unfold applySide at h
  split_ifs at h with htype
  · simp only [insertSide, Option.bind_eq_bind, Option.bind_eq_some_iff,
      Option.some.injEq] at h
    rcases h with ⟨side, hside, rfl⟩
    exact ⟨by rw [applyEvent, if_pos htype, hside], rfl, rfl, rfl⟩
  · simp only [deleteSide, Option.bind_eq_bind, Option.bind_eq_some_iff,
      Option.some.injEq] at h
    rcases h with ⟨side, hside, rfl⟩
    exact ⟨by rw [applyEvent, if_neg htype, hside], rfl, rfl, rfl⟩

theorem applyMain_spec {dev : Device α γ} {vc vc' : ViewController α} {event : Event γ}
    (h : applyMain dev vc event = some vc') :
    MainApplied dev.stringWithCString event vc vc' := by
  unfold applyMain at h
  split_ifs at h with htype
  · simp only [insertMain, Option.bind_eq_bind, Option.bind_eq_some_iff,
      Option.some.injEq] at h
    rcases h with ⟨text, htext, rfl⟩
    exact ⟨by rw [applyEvent, if_pos htype, htext]; rfl, rfl, rfl, rfl⟩
  · simp only [deleteMain, Option.bind_eq_bind, Option.bind_eq_some_iff,
      Option.some.injEq] at h
    rcases h with ⟨text, htext, rfl⟩
    exact ⟨by rw [applyEvent, if_neg htype, htext]; rfl, rfl, rfl, rfl⟩

/-- A side mutator does to the side string what its event does to a string. -/
theorem applySide_sideString (dev : Device α γ) (vc : ViewController α) (event : Event γ) :
    (applySide dev vc event).map sideString =
      applyEvent dev.stringWithCString vc.sideString event := by
  unfold applySide applyEvent
  split_ifs with htype
  · exact insertSide_sideString vc _ _ _
  · exact deleteSide_sideString vc _ _

/-- A side mutator raises exactly when its event does not apply to the side string. -/
theorem applySide_eq_none_iff {dev : Device α γ} {vc : ViewController α} {event : Event γ} :
    applySide dev vc event = none ↔
      applyEvent dev.stringWithCString vc.sideString event = none := by
  rw [← applySide_sideString, Option.map_eq_none_iff]

/-- A main mutator raises exactly when its event does not apply to the text. -/
theorem applyMain_eq_none_iff {dev : Device α γ} {vc : ViewController α} {event : Event γ} :
    applyMain dev vc event = none ↔
      applyEvent dev.stringWithCString vc.myTextView.text event = none := by
  unfold applyMain applyEvent
  split_ifs with htype
  · rw [← insertMain_text dev, Option.map_eq_none_iff]
  · rw [← deleteMain_text dev, Option.map_eq_none_iff]

/-- Folding the side mutators over events folds their string effect over the side string. -/
theorem replay_sideString (dev : Device α γ) (vc : ViewController α) (events : List (Event γ)) :
    (replay (applySide dev) vc events).map sideString =
      replay (applyEvent dev.stringWithCString) vc.sideString events := by
  induction events generalizing vc with
  | nil => rfl
  | cons event events ih =>
      rw [replay_cons, replay_cons]
      cases happly : applySide dev vc event with
      | none => rw [applySide_eq_none_iff.mp happly]; rfl
      | some vc' =>
          rw [(applySide_spec happly).side]
          exact ih vc'

/-! ## Receiving -/

/-- What an own echo changes. -/
structure ReceivedOwn (decode : List γ → NSString α) (event : Event γ)
    (vc vc' : ViewController α) : Prop where
  side : applyEvent decode vc.sideString event = some vc'.sideString
  counter : vc'.brCounter = vc.brCounter - 1
  text : vc'.myTextView.text =
    if vc'.brCounter = 0 then vc'.sideString else vc.myTextView.text
  textSize : vc'.textSize = vc.textSize

/-- What an event of another client changes. -/
structure ReceivedRemote (decode : List γ → NSString α) (event : Event γ)
    (vc vc' : ViewController α) : Prop where
  side : applyEvent decode vc.sideString event = some vc'.sideString
  counter : vc'.brCounter = vc.brCounter
  shown : vc.brCounter = 0 →
    applyEvent decode vc.myTextView.text event = some vc'.myTextView.text ∧
      vc'.textSize = vc'.myTextView.text.length
  hidden : vc.brCounter ≠ 0 → vc'.myTextView = vc.myTextView ∧ vc'.textSize = vc.textSize

theorem receivedEvent_own {dev : Device α γ} {vc vc' : ViewController α} {event : Event γ}
    {submissionRegistrationID : Int} (hid : submissionRegistrationID ≠ -1)
    (h : receivedEvent dev vc submissionRegistrationID event = some vc') :
    ReceivedOwn dev.stringWithCString event vc vc' := by
  simp only [receivedEvent, if_pos hid, Option.bind_eq_bind, Option.bind_eq_some_iff] at h
  rcases h with ⟨vc₁, happly, h⟩
  rcases applySide_spec happly with ⟨hside, hview, hsize, hcounter⟩
  have hcounter₁ : vc₁.brCounter = vc.brCounter - 1 := hcounter
  split_ifs at h with hzero
  · cases h
    exact ⟨hside, hcounter₁, by simp [hzero], hsize⟩
  · cases h
    refine ⟨hside, hcounter₁, ?_, hsize⟩
    simp only [if_neg hzero, hview]

theorem receivedEvent_remote {dev : Device α γ} {vc vc' : ViewController α} {event : Event γ}
    (h : receivedEvent dev vc (-1) event = some vc') :
    ReceivedRemote dev.stringWithCString event vc vc' := by
  simp only [receivedEvent, ne_eq, not_true_eq_false, if_false] at h
  split_ifs at h with hzero
  · simp only [Option.bind_eq_bind, Option.bind_eq_some_iff] at h
    rcases h with ⟨vc₁, hmain, h⟩
    rcases applyMain_spec hmain with ⟨htext, hsize₁, hside₁, hcounter₁⟩
    rcases applySide_spec h with ⟨hside, hview, hsize, hcounter⟩
    refine ⟨by rw [← hside₁]; exact hside, by rw [hcounter, hcounter₁], fun _ => ?_,
      fun hne => (hne hzero).elim⟩
    rw [hview, hsize]
    exact ⟨htext, hsize₁⟩
  · rcases applySide_spec h with ⟨hside, hview, hsize, hcounter⟩
    exact ⟨hside, hcounter, fun heq => (hzero heq).elim, fun _ => ⟨hview, hsize⟩⟩

/-- An own echo that leaves the counter above zero leaves the text view alone. -/
theorem ReceivedOwn.text_of_counter_ne {decode : List γ → NSString α} {event : Event γ}
    {vc vc' : ViewController α} (h : ReceivedOwn decode event vc vc') (hne : vc'.brCounter ≠ 0) :
    vc'.myTextView.text = vc.myTextView.text := by
  rw [h.text, if_neg hne]

/-- An event of another client that finds the counter above zero leaves the text view alone. -/
theorem ReceivedRemote.text_of_counter_ne {decode : List γ → NSString α} {event : Event γ}
    {vc vc' : ViewController α} (h : ReceivedRemote decode event vc vc')
    (hne : vc'.brCounter ≠ 0) : vc'.myTextView.text = vc.myTextView.text := by
  rw [h.counter] at hne
  rw [(h.hidden hne).1]

/-- The handler raises exactly when the event does not apply to the side string, or is to be
shown at once and does not apply to the text view. -/
theorem receivedEvent_eq_none_iff {dev : Device α γ} {vc : ViewController α} {event : Event γ}
    {submissionRegistrationID : Int} :
    receivedEvent dev vc submissionRegistrationID event = none ↔
      applyEvent dev.stringWithCString vc.sideString event = none ∨
        (submissionRegistrationID = -1 ∧ vc.brCounter = 0 ∧
          applyEvent dev.stringWithCString vc.myTextView.text event = none) := by
  unfold receivedEvent
  by_cases hid : submissionRegistrationID = -1
  · simp only [hid, ne_eq, not_true_eq_false, if_false, true_and]
    split_ifs with hzero
    · simp only [hzero, true_and]
      cases hmain : applyMain dev vc event with
      | none => simp [applyMain_eq_none_iff.mp hmain]
      | some vc₁ =>
          rcases applyMain_spec hmain with ⟨htext, -, hside₁, -⟩
          simp only [Option.bind_eq_bind, Option.bind_some, applySide_eq_none_iff, hside₁,
            htext, reduceCtorEq, or_false]
    · simp [applySide_eq_none_iff, hzero]
  · simp only [ne_eq, hid, not_false_eq_true, if_true, false_and, or_false]
    cases happly : applySide dev { vc with brCounter := vc.brCounter - 1 } event with
    | none => simpa using applySide_eq_none_iff.mp happly
    | some vc₁ =>
        have hside := (applySide_spec happly).side
        simp only [Option.bind_eq_bind, Option.bind_some]
        split_ifs <;> simp [hside]

/-! ## Local edits -/

/-- What a local edit changes, and the event it broadcasts. -/
structure Edited (dev : Device α γ) (edit : Edit α) (event : Event γ)
    (vc vc' : ViewController α) : Prop where
  view : edit.perform vc.myTextView.text = some vc'.myTextView
  side : vc'.sideString = vc.sideString
  counter : vc'.brCounter = vc.brCounter + 1
  textSize : vc'.textSize = vc'.myTextView.text.length
  location : event.data.cursorLocation = vc'.myTextView.selectedRange.location
  numChars : event.data.numChars = (vc.textSize - vc'.textSize).natAbs
  grown : vc.textSize < vc'.textSize → event.eventType = .insert ∧
    ∃ char, characterAtIndex vc'.myTextView.text
        (vc'.myTextView.selectedRange.location - 1) = some char ∧
      event.data.contentModified = dev.utf8String [char]
  notGrown : ¬ vc.textSize < vc'.textSize →
    event.eventType = .delete ∧ event.data.contentModified = []

theorem userEdit_spec {dev : Device α γ} {vc vc' : ViewController α} {edit : Edit α}
    {event : Event γ} (h : vc.userEdit dev edit = some (vc', event)) :
    Edited dev edit event vc vc' := by
  simp only [userEdit, textViewDidChange, Option.bind_eq_bind, Option.bind_eq_some_iff] at h
  rcases h with ⟨view, hview, h⟩
  split_ifs at h with hgrown
  · simp only [sendBroadcastInsert, Option.bind_eq_bind, Option.bind_eq_some_iff,
      Option.some.injEq, Prod.mk.injEq] at h
    rcases h with ⟨ev, ⟨char, hchar, rfl⟩, rfl, rfl⟩
    exact ⟨hview, rfl, rfl, rfl, rfl, rfl, fun _ => ⟨rfl, char, hchar, rfl⟩,
      fun hnot => (hnot hgrown).elim⟩
  · simp only [sendBroadcastDelete, Option.some.injEq, Prod.mk.injEq] at h
    rcases h with ⟨rfl, rfl⟩
    exact ⟨hview, rfl, rfl, rfl, rfl, rfl, fun hlt => (hgrown hlt).elim, fun _ => ⟨rfl, rfl⟩⟩

/-- A typed character is broadcast as one `Insert` of itself, unless the cached size exceeds
the length of the text. -/
theorem Edited.typed {dev : Device α γ} {location : Nat} {char : α} {event : Event γ}
    {vc vc' : ViewController α} (hedited : Edited dev (.insert location char) event vc vc')
    (hcache : vc.textSize ≤ vc.myTextView.text.length) :
    event.eventType = .insert ∧ event.data.contentModified = dev.utf8String [char] ∧
      event.data.cursorLocation = location + 1 ∧
      vc'.myTextView.text.length = vc.myTextView.text.length + 1 := by
  have hview := hedited.view
  simp only [Edit.perform] at hview
  split_ifs at hview with hle
  have hview := Option.some.inj hview
  have hlength : vc'.myTextView.text.length = vc.myTextView.text.length + 1 := by
    simp [← hview]
  have hgrown : vc.textSize < vc'.textSize := by
    rw [hedited.textSize, hlength]
    omega
  rcases hedited.grown hgrown with ⟨htype, typed, htyped, hcontent⟩
  have hself : typed = char := by
    rw [← hview] at htyped
    simpa [characterAtIndex, Splice.getElem?_insertAt_self hle] using htyped.symm
  rw [hself] at hcontent
  exact ⟨htype, hcontent, by rw [hedited.location, ← hview], hlength⟩

/-- A local edit raises exactly when it looks grown and leaves no character in front of the
caret. -/
theorem userEdit_eq_none_iff {dev : Device α γ} {vc : ViewController α} {edit : Edit α}
    {view : UITextView α} (hview : edit.perform vc.myTextView.text = some view) :
    vc.userEdit dev edit = none ↔
      vc.textSize < view.text.length ∧
        characterAtIndex view.text (view.selectedRange.location - 1) = none := by
  simp only [userEdit, textViewDidChange, sendBroadcastInsert, hview, Option.bind_eq_bind,
    Option.bind_some]
  split_ifs with hgrown
  · cases characterAtIndex view.text (view.selectedRange.location - 1) <;> simp [hgrown]
  · simp [hgrown]

/-- Typing a character never raises, whatever the cached size is. -/
theorem exists_userEdit_insert (dev : Device α γ) (vc : ViewController α) {location : Nat}
    (char : α) (hlocation : location ≤ vc.myTextView.text.length) :
    ∃ result, vc.userEdit dev (.insert location char) = some result := by
  have hview : (Edit.insert location char).perform vc.myTextView.text =
      some ⟨Splice.insertAt location [char] vc.myTextView.text, ⟨location + 1, 0⟩⟩ := by
    rw [Edit.perform, if_pos hlocation]
  cases hedit : vc.userEdit dev (.insert location char) with
  | some result => exact ⟨result, rfl⟩
  | none =>
      rcases (userEdit_eq_none_iff hview).mp hedit with ⟨-, hchar⟩
      simp [characterAtIndex, Splice.getElem?_insertAt_self hlocation] at hchar

end ViewController

end WeWrite
