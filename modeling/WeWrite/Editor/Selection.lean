import WeWrite.Editor.TextSize

/-!
# The ranges given to the text view

Three places write the selection of the text view: `insertMain` and `deleteMain` write back
the one they found, and the last own echo writes the location its message carries with the
length of the selection it finds.  The text has changed in between.

Main results:

- Theorem `ViewController.receivedEvent_myTextView`: which range a received event writes, and
  what the text view makes of it.
- Theorem `Editor.selections_inside_iff`: the ranges written in a run lie inside the text
  exactly when every deletion of another client leaves the selection its room, and so does
  every last own echo.
-/

namespace WeWrite

open Transition ViewController

variable {α γ : Type}

/-- A range inside a text of length `length`. -/
structure NSRange.Inside (range : NSRange) (length : Nat) : Prop where
  location : 0 ≤ range.location
  extent : 0 ≤ range.length
  bound : range.location + range.length ≤ length

instance (range : NSRange) (length : Nat) : Decidable (range.Inside length) :=
  decidable_of_iff
    (0 ≤ range.location ∧ 0 ≤ range.length ∧ range.location + range.length ≤ length)
    ⟨fun h => ⟨h.1, h.2.1, h.2.2⟩, fun h => ⟨h.location, h.extent, h.bound⟩⟩

/-- Given a range inside its text, a text view takes it as it is. -/
def TakesInside (dev : Device α γ) : Prop :=
  ∀ text range, NSRange.Inside range text.length → dev.takenSelection text range = range

theorem latin1Device_takesInside : TakesInside latin1Device := by
  intro text range hinside
  rcases hinside with ⟨hlocation, hextent, hbound⟩
  have hloc : min (max range.location 0) (text.length : Int) = range.location := by omega
  have hlen : min range.length (text.length - range.location) = range.length := by omega
  simp only [latin1Device, hloc, hlen]

/-! ## The range a received event writes -/

namespace ViewController

/-- The range that the handler of `event` passes to `setSelectedRange:` of the text view. -/
def selectionSet (vc : ViewController α) (submissionRegistrationID : Int) (event : Event γ) :
    Option NSRange :=
  if submissionRegistrationID ≠ -1 then
    if vc.brCounter - 1 = 0 then
      some { vc.myTextView.selectedRange with location := event.data.cursorLocation }
    else none
  else if vc.brCounter = 0 then some vc.myTextView.selectedRange
  else none

/-- The view a text view becomes when it is given `text` and, if there is one, a range. -/
def shownView (dev : Device α γ) (view : UITextView α) (text : NSString α) :
    Option NSRange → UITextView α
  | none => view
  | some range => ⟨text, dev.takenSelection text range⟩

/-- The main mutators write back the selection they find. -/
theorem applyMain_myTextView {dev : Device α γ} {vc vc' : ViewController α} {event : Event γ}
    (h : applyMain dev vc event = some vc') :
    vc'.myTextView = ⟨vc'.myTextView.text,
      dev.takenSelection vc'.myTextView.text vc.myTextView.selectedRange⟩ := by
  unfold applyMain at h
  split_ifs at h with htype
  · simp only [insertMain, Option.bind_eq_bind, Option.bind_eq_some_iff,
      Option.some.injEq] at h
    rcases h with ⟨text, -, rfl⟩
    rfl
  · simp only [deleteMain, Option.bind_eq_bind, Option.bind_eq_some_iff,
      Option.some.injEq] at h
    rcases h with ⟨text, -, rfl⟩
    rfl

/-- A received event leaves the text view alone, or gives it a text and one range. -/
theorem receivedEvent_myTextView {dev : Device α γ} {vc vc' : ViewController α}
    {event : Event γ} {submissionRegistrationID : Int}
    (h : receivedEvent dev vc submissionRegistrationID event = some vc') :
    vc'.myTextView = shownView dev vc.myTextView vc'.myTextView.text
      (vc.selectionSet submissionRegistrationID event) := by
  unfold receivedEvent at h
  unfold selectionSet
  by_cases hid : submissionRegistrationID = -1
  · simp only [hid, ne_eq, not_true_eq_false, if_false] at h ⊢
    by_cases hzero : vc.brCounter = 0
    · simp only [if_pos hzero, Option.bind_eq_bind, Option.bind_eq_some_iff] at h ⊢
      rcases h with ⟨vc₁, hmain, hside⟩
      rw [(applySide_spec hside).view]
      exact applyMain_myTextView hmain
    · simp only [if_neg hzero] at h ⊢
      exact (applySide_spec h).view
  · simp only [ne_eq, hid, not_false_eq_true, if_true, Option.bind_eq_bind,
      Option.bind_eq_some_iff] at h ⊢
    rcases h with ⟨vc₁, hside, h⟩
    rcases applySide_spec hside with ⟨-, hview, -, hcounter⟩
    have hcounter₁ : vc₁.brCounter = vc.brCounter - 1 := hcounter
    by_cases hzero : vc₁.brCounter = 0
    · have hzero' : vc.brCounter - 1 = 0 := by omega
      rw [if_pos hzero] at h
      rw [if_pos hzero', ← Option.some.inj h, hview]
      rfl
    · have hzero' : ¬ vc.brCounter - 1 = 0 := by omega
      rw [if_neg hzero] at h
      rw [if_neg hzero', ← Option.some.inj h]
      exact hview

end ViewController

/-! ## The place of an event -/

/-- How many units a deletion takes out of a string of length `length`. -/
def deletedUnits (length : Nat) (location numChars : Int) : Int :=
  if atEndBranch length location numChars then numChars + 1 else numChars

theorem lengthAfter_insert {decode : List γ → NSString α} {length : Nat} {event : Event γ}
    (htype : event.eventType = .insert) :
    lengthAfter decode length event = length + (decode event.data.contentModified).length := by
  rw [lengthAfter, if_pos htype]

theorem lengthAfter_delete {decode : List γ → NSString α} {length : Nat} {event : Event γ}
    (htype : event.eventType ≠ .insert) :
    lengthAfter decode length event =
      length - deletedUnits length event.data.cursorLocation event.data.numChars := by
  rw [lengthAfter, if_neg htype, deletedUnits]
  split_ifs with hend
  · have htest := hend.2
    omega
  · rfl

/-- A position lies inside the text that an event leaves. -/
theorem add_le_lengthAfter_iff {decode : List γ → NSString α} {length : Nat} {event : Event γ}
    {location extent : Int} :
    location + extent ≤ lengthAfter decode length event ↔
      if event.eventType = .insert then
        location + extent ≤ length + (decode event.data.contentModified).length
      else
        location + extent +
            deletedUnits length event.data.cursorLocation event.data.numChars ≤ length := by
  split_ifs with htype
  · rw [lengthAfter_insert htype]
  · rw [lengthAfter_delete htype]
    omega

/-- An event that applies has its location inside the text, if it does not count below zero. -/
theorem cursorLocation_nonneg {decode : List γ → NSString α} {s s' : NSString α}
    {event : Event γ} (h : applyEvent decode s event = some s') (hnum : 0 ≤ event.data.numChars) :
    0 ≤ event.data.cursorLocation := by
  unfold applyEvent at h
  split_ifs at h with htype
  · rcases insertString_eq_some_iff.mp h with ⟨h0, -, -⟩
    omega
  · by_cases hend : atEndBranch s.length event.data.cursorLocation event.data.numChars
    · rw [deleteString_of_atEndBranch hend] at h
      exact (substringToIndex_eq_some_iff.mp h).1
    · exact ((deleteString_eq_some_iff hend).mp h).1

/-- A deletion that applies leaves everything in front of its location. -/
theorem cursorLocation_le_of_delete {decode : List γ → NSString α} {s s' : NSString α}
    {event : Event γ} (htype : event.eventType ≠ .insert)
    (h : applyEvent decode s event = some s') : event.data.cursorLocation ≤ s'.length := by
  have hlength := length_applyEvent h
  rw [lengthAfter, if_neg htype] at hlength
  rw [applyEvent, if_neg htype] at h
  split_ifs at hlength with hend
  · omega
  · rcases (deleteString_eq_some_iff hend).mp h with ⟨-, -, -, hrange, -⟩
    omega

/-! ## Selections along a run -/

namespace Editor

variable {dev : Device α γ} {s s' : Editor α γ}

/-- The selection of the text view lies inside its text. -/
def ValidSelection (s : Editor α γ) : Prop :=
  s.vc.myTextView.selectedRange.Inside s.vc.myTextView.text.length

/-- The range that a step passes to `setSelectedRange:` of the text view. -/
def selectionSetBy (s : Editor α γ) : EditorAction α γ → Option NSRange
  | .echo index => (s.outstanding[index]?).bind (s.vc.selectionSet ownSubmissionID)
  | .remote event => s.vc.selectionSet (-1) event
  | _ => none

/-- A received event gives the text view its text and the range of the step, if there is one. -/
theorem receive_myTextView {a : EditorAction α γ} (hreceive : IsReceive a)
    (hstep : s.step dev a = some s') :
    s'.vc.myTextView =
      shownView dev s.vc.myTextView s'.vc.myTextView.text (s.selectionSetBy a) := by
  cases a with
  | edit edit accepted => exact hreceive.elim
  | select range => exact hreceive.elim
  | echo index =>
      simp only [step, Option.bind_eq_bind, Option.bind_eq_some_iff, Option.some.injEq] at hstep
      rcases hstep with ⟨event, hevent, vc, hvc, rfl⟩
      rw [selectionSetBy, hevent]
      exact receivedEvent_myTextView hvc
  | remote event =>
      simp only [step, Option.bind_eq_bind, Option.bind_eq_some_iff, Option.some.injEq] at hstep
      rcases hstep with ⟨vc, hvc, rfl⟩
      exact receivedEvent_myTextView hvc

/-- A step from a valid selection writes no range outside the text it leaves. -/
def SelectsInside (dev : Device α γ) (s : Editor α γ) (a : EditorAction α γ) : Prop :=
  s.ValidSelection → ∀ s' range, s.step dev a = some s' → s.selectionSetBy a = some range →
    range.Inside s'.vc.myTextView.text.length

/-- A step from a valid selection leaves it its room.  A deletion of another client that is
shown takes no more units than stand behind the selection.  The last own echo finds a
selection no longer than what will stand behind the location of its event. -/
def SelectionFits (dev : Device α γ) (s : Editor α γ) : EditorAction α γ → Prop
  | .echo index =>
      s.ValidSelection → s.vc.brCounter = 1 → ∀ event, s.outstanding[index]? = some event →
        if event.eventType = .insert then
          event.data.cursorLocation + s.vc.myTextView.selectedRange.length ≤
            s.vc.sideString.length + (dev.stringWithCString event.data.contentModified).length
        else
          event.data.cursorLocation + s.vc.myTextView.selectedRange.length +
              deletedUnits s.vc.sideString.length event.data.cursorLocation event.data.numChars ≤
            s.vc.sideString.length
  | .remote event =>
      s.ValidSelection → s.vc.brCounter = 0 → event.eventType ≠ .insert →
        s.vc.myTextView.selectedRange.location + s.vc.myTextView.selectedRange.length +
            deletedUnits s.vc.myTextView.text.length event.data.cursorLocation
              event.data.numChars ≤
          s.vc.myTextView.text.length
  | _ => True

/-- No outstanding broadcast counts below zero. -/
def CountsUp (s : Editor α γ) : Prop :=
  ∀ event ∈ s.outstanding, 0 ≤ event.data.numChars

theorem countsUp_step {a : EditorAction α γ} (hcounts : CountsUp s)
    (hstep : s.step dev a = some s') : CountsUp s' := by
  cases a with
  | edit edit accepted =>
      rcases step_edit hstep with ⟨vc, event, hedited, rfl⟩
      have hevent : 0 ≤ event.data.numChars := by
        rw [hedited.numChars]
        omega
      cases accepted with
      | true => exact forall_mem_concat hcounts hevent
      | false => exact hcounts
  | select range =>
      obtain rfl : _ = s' := by simpa [step] using hstep
      exact hcounts
  | echo index =>
      rcases step_echo hstep with ⟨event, vc, -, -, rfl⟩
      intro e he
      exact hcounts e (List.mem_of_mem_eraseIdx he)
  | remote event =>
      rcases step_remote hstep with ⟨vc, -, rfl⟩
      exact hcounts

theorem countsUp_of_run {view : UITextView α} {ok : Editor α γ → EditorAction α γ → Prop}
    {as : List (EditorAction α γ)} (hrun : Run (step dev) ok (start view) as s) : CountsUp s :=
  hrun.invariant CountsUp (by simp [CountsUp, start]) fun _ _ _ hcounts _ hstep =>
    countsUp_step hcounts hstep

/-- The last own echo writes the location of its event, with the length of the selection. -/
theorem selectionSetBy_echo {index : Nat} {event : Event γ}
    (hevent : s.outstanding[index]? = some event) :
    s.selectionSetBy (.echo index) = if s.vc.brCounter - 1 = 0 then
      some ⟨event.data.cursorLocation, s.vc.myTextView.selectedRange.length⟩ else none := by
  rw [selectionSetBy, hevent]
  rfl

/-- What the last own echo writes lies inside exactly when the selection fits behind its
location. -/
theorem echo_selectsInside_iff {index : Nat} (hcounts : CountsUp s)
    (hstep : s.step dev (.echo index) = some s') :
    SelectsInside dev s (.echo index) ↔ SelectionFits dev s (.echo index) := by
  rcases step_echo hstep with ⟨event, vc, hevent, hown, rfl⟩
  have h0 := cursorLocation_nonneg hown.side (hcounts event (List.mem_of_getElem? hevent))
  have hset := selectionSetBy_echo hevent
  have hlength : vc.brCounter = 0 → (vc.myTextView.text.length : Int) =
      lengthAfter dev.stringWithCString s.vc.sideString.length event := by
    intro hzero
    rw [hown.text, if_pos hzero, length_applyEvent hown.side]
  have hcounter := hown.counter
  constructor
  · intro hinside hvalid hone event' hevent'
    obtain rfl : event = event' := Option.some.inj (hevent.symm.trans hevent')
    have hrange := hinside hvalid _ _ hstep (by rw [hset, if_pos (by omega)])
    rw [← add_le_lengthAfter_iff, ← hlength (by omega)]
    exact hrange.bound
  · intro hfits hvalid s'' range hstep' hrange
    obtain rfl := Option.some.inj (hstep.symm.trans hstep')
    rw [hset] at hrange
    split_ifs at hrange with hone
    have hroom := hfits hvalid (by omega) event hevent
    rw [← add_le_lengthAfter_iff, ← hlength (by omega)] at hroom
    rw [← Option.some.inj hrange]
    exact ⟨h0, hvalid.extent, hroom⟩

/-- What an event of another client writes lies inside exactly when it is no deletion, or
takes no more than stands behind the selection. -/
theorem remote_selectsInside_iff {event : Event γ}
    (hstep : s.step dev (.remote event) = some s') :
    SelectsInside dev s (.remote event) ↔ SelectionFits dev s (.remote event) := by
  rcases step_remote hstep with ⟨vc, hremote, rfl⟩
  have hset : s.selectionSetBy (.remote event) =
      if s.vc.brCounter = 0 then some s.vc.myTextView.selectedRange else none := rfl
  have hlength : s.vc.brCounter = 0 → (vc.myTextView.text.length : Int) =
      lengthAfter dev.stringWithCString s.vc.myTextView.text.length event := by
    intro hzero
    exact length_applyEvent (hremote.shown hzero).1
  constructor
  · intro hinside hvalid hzero htype
    have hrange := hinside hvalid _ _ hstep (by rw [hset, if_pos hzero])
    have hbound := hrange.bound
    rw [hlength hzero, add_le_lengthAfter_iff, if_neg htype] at hbound
    exact hbound
  · intro hfits hvalid s'' range hstep' hrange
    obtain rfl := Option.some.inj (hstep.symm.trans hstep')
    rw [hset] at hrange
    split_ifs at hrange with hzero
    rw [← Option.some.inj hrange]
    refine ⟨hvalid.location, hvalid.extent, ?_⟩
    rw [hlength hzero, add_le_lengthAfter_iff]
    have hvalid' := hvalid.bound
    split_ifs with htype
    · omega
    · exact hfits hvalid hzero htype

theorem selectsInside_step_iff {a : EditorAction α γ} (hcounts : CountsUp s)
    (hstep : s.step dev a = some s') : SelectsInside dev s a ↔ SelectionFits dev s a := by
  cases a with
  | edit edit accepted => simp [SelectsInside, SelectionFits, selectionSetBy]
  | select range => simp [SelectsInside, SelectionFits, selectionSetBy]
  | echo index => exact echo_selectsInside_iff hcounts hstep
  | remote event => exact remote_selectsInside_iff hstep

/-- In a run of any actions: every range written to the text view from a valid selection lies
inside the text at that moment, exactly when every deletion of another client that is shown,
and every last own echo, finds a selection that keeps its room. -/
theorem selections_inside_iff (dev : Device α γ) (view : UITextView α)
    (as : List (EditorAction α γ)) (s : Editor α γ) :
    Run (step dev) (SelectsInside dev) (start view) as s ↔
      Run (step dev) (SelectionFits dev) (start view) as s :=
  Run.guard_iff fun _ _ _ _ hrun hstep => selectsInside_step_iff (countsUp_of_run hrun) hstep

/-- The caret stands behind the only character when another client deletes it. -/
theorem caret_behind_deleted_text :
    ¬ ∀ (as : List (EditorAction Unichar UInt8)) (s : Editor Unichar UInt8) a,
      Run (step latin1Device) anyAction (start (viewOf [97])) as s → IsReceive a →
        SelectsInside latin1Device s a := by
  intro h
  have hvalid : ValidSelection (start (γ := UInt8) (viewOf [97])) := by
    unfold ValidSelection
    decide
  have hinside := h [] _ (.remote ⟨.delete, ⟨0, [], 1⟩⟩) .nil trivial hvalid _ _ rfl rfl
  revert hinside
  decide

end Editor

end WeWrite
