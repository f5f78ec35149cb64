import WeWrite.Editor.Selection

/-!
# The caret under edits of other clients

`insertMain` and `deleteMain` save the caret, replace the text, write the saved caret back,
and only then move their copy of it along with the edit.  The moved copy stays in a property
of the controller; the text view keeps the old position.

Main results:

- Theorem `ViewController.shown_caret`: the text view is given the caret it had.
- Theorem `ViewController.remote_caret_iff`: for which carets and events the old position is
  the place of the caret in the new text.
- Theorem `ViewController.cut_caret_iff`: when a text view that cuts such a position to its
  text finds the place.
- Theorem `ViewController.remote_caret_of_cut_iff`: with such a text view, the text, the caret and
  the event decide it.
-/

namespace WeWrite

open ViewController

variable {α γ : Type}

/-- `c'` is where a caret at `c` has to go under `event`: along with the text behind an
insertion, to the front of a deleted range from within it, and along with the text behind
such a range.  At the place of an insertion it may go to either side. -/
def MovedCaret (decode : List γ → NSString α) (event : Event γ) (c c' : Int) : Prop :=
  if event.eventType = .insert then
    let p := event.data.cursorLocation - event.data.numChars
    let m := (decode event.data.contentModified).length
    (c < p → c' = c) ∧ (p < c → c' = c + m) ∧ (c = p → c' = c ∨ c' = c + m)
  else
    let p := event.data.cursorLocation
    let m := event.data.numChars
    (c ≤ p → c' = c) ∧ (p < c ∧ c ≤ p + m → c' = p) ∧ (p + m < c → c' = c - m)

theorem movedCaret_insert_iff {decode : List γ → NSString α} {event : Event γ} {c c' : Int}
    (htype : event.eventType = .insert) :
    MovedCaret decode event c c' ↔
      (c < event.data.cursorLocation - event.data.numChars → c' = c) ∧
        (event.data.cursorLocation - event.data.numChars < c →
          c' = c + (decode event.data.contentModified).length) ∧
        (c = event.data.cursorLocation - event.data.numChars →
          c' = c ∨ c' = c + (decode event.data.contentModified).length) := by
  rw [MovedCaret, if_pos htype]

theorem movedCaret_delete_iff {decode : List γ → NSString α} {event : Event γ} {c c' : Int}
    (htype : event.eventType ≠ .insert) :
    MovedCaret decode event c c' ↔
      (c ≤ event.data.cursorLocation → c' = c) ∧
        (event.data.cursorLocation < c ∧ c ≤ event.data.cursorLocation + event.data.numChars →
          c' = event.data.cursorLocation) ∧
        (event.data.cursorLocation + event.data.numChars < c →
          c' = c - event.data.numChars) := by
  rw [MovedCaret, if_neg htype]

/-- Staying at `c` is right under an insertion in front of which `c` stands, or of nothing. -/
theorem movedCaret_insert_self_iff {decode : List γ → NSString α} {event : Event γ} {c : Int}
    (htype : event.eventType = .insert) :
    MovedCaret decode event c c ↔
      c ≤ event.data.cursorLocation - event.data.numChars ∨
        decode event.data.contentModified = [] := by
  rw [movedCaret_insert_iff htype, ← List.length_eq_zero_iff]
  omega

/-- Staying at `c` is right under a deletion in front of which `c` stands, or of nothing. -/
theorem movedCaret_delete_self_iff {decode : List γ → NSString α} {event : Event γ} {c : Int}
    (htype : event.eventType ≠ .insert) (hnum : 0 ≤ event.data.numChars) :
    MovedCaret decode event c c ↔
      c ≤ event.data.cursorLocation ∨ event.data.numChars = 0 := by
  rw [movedCaret_delete_iff htype]
  omega

/-- Behind the location of a deletion the caret moves along with the text, as far as the
location. -/
theorem movedCaret_delete_behind_iff {decode : List γ → NSString α} {event : Event γ}
    {c c' : Int} (htype : event.eventType ≠ .insert) (hbehind : event.data.cursorLocation < c) :
    MovedCaret decode event c c' ↔
      c' = max event.data.cursorLocation (c - event.data.numChars) := by
  rw [movedCaret_delete_iff htype]
  omega

namespace ViewController

/-- A shown event gives the text view its new text and the caret it had. -/
theorem shown_caret {dev : Device α γ} {vc vc' : ViewController α} {event : Event γ} {c : Int}
    (hzero : vc.brCounter = 0) (hcaret : vc.myTextView.selectedRange = ⟨c, 0⟩)
    (h : receivedEvent dev vc (-1) event = some vc') :
    vc'.myTextView.selectedRange = dev.takenSelection vc'.myTextView.text ⟨c, 0⟩ := by
  have hset : vc.selectionSet (-1) event = some ⟨c, 0⟩ := by
    simp [selectionSet, hzero, hcaret]
  rw [receivedEvent_myTextView h, hset]
  rfl

/-- A text view that is given a caret inside its text keeps it. -/
theorem takenCaret_eq {dev : Device α γ} (hdev : TakesInside dev) {text : NSString α} {c : Int}
    (h0 : 0 ≤ c) (hc : c ≤ text.length) : (dev.takenSelection text ⟨c, 0⟩).location = c := by
  rw [hdev text ⟨c, 0⟩ ⟨h0, Int.le_refl 0, by simpa using hc⟩]

/-- A text view that cuts a caret behind its text to the end of the text finds the right place
for the end of the old text and for everything in a range that reached it, and in the end branch
for everything but the end of the old text. -/
theorem cut_caret_iff {dev : Device α γ} {s s' : NSString α} {event : Event γ} {c : Int}
    (hcut : (dev.takenSelection s' ⟨c, 0⟩).location = s'.length)
    (htype : event.eventType ≠ .insert) (hc : c ≤ s.length)
    (h : applyEvent dev.stringWithCString s event = some s') :
    (dev.takenSelection s' ⟨c, 0⟩).location =
        max event.data.cursorLocation (c - event.data.numChars) ↔
      if atEndBranch s.length event.data.cursorLocation event.data.numChars then
        c < s.length
      else
        c = s.length ∨ event.data.cursorLocation + event.data.numChars = s.length := by
  rw [hcut]
  have hlength := length_applyEvent h
  have hfront := cursorLocation_le_of_delete htype h
  rw [lengthAfter, if_neg htype] at hlength
  split_ifs at hlength ⊢ with hend
  · have htest := hend.2
    omega
  · omega

/-- The caret that a text view has after a shown event, by the text that it has then. -/
theorem moved_shown_caret_iff {dev : Device α γ} (hdev : TakesInside dev)
    {vc vc' : ViewController α} {event : Event γ} {c : Int} (hzero : vc.brCounter = 0)
    (hcaret : vc.myTextView.selectedRange = ⟨c, 0⟩) (h0 : 0 ≤ c)
    (hc : c ≤ vc.myTextView.text.length) (hnum : 0 ≤ event.data.numChars)
    (h : receivedEvent dev vc (-1) event = some vc') :
    MovedCaret dev.stringWithCString event c vc'.myTextView.selectedRange.location ↔
      if event.eventType = .insert then
        c ≤ event.data.cursorLocation - event.data.numChars ∨
          dev.stringWithCString event.data.contentModified = []
      else
        c ≤ event.data.cursorLocation ∨
          (event.data.numChars = 0 ∧ c ≤ vc'.myTextView.text.length) ∨
          (vc'.myTextView.text.length < c ∧
            (dev.takenSelection vc'.myTextView.text ⟨c, 0⟩).location =
              max event.data.cursorLocation (c - event.data.numChars)) := by
  have htext := ((receivedEvent_remote h).shown hzero).1
  have hlength := length_applyEvent htext
  rw [shown_caret hzero hcaret h]
  split_ifs with htype
  · rw [lengthAfter_insert htype] at hlength
    rw [takenCaret_eq hdev h0 (by omega), movedCaret_insert_self_iff htype]
  · have hfront := cursorLocation_le_of_delete htype htext
    by_cases hshort : (vc'.myTextView.text.length : Int) < c
    · -- the text has become too short, so the deletion took something in front of the caret
      rw [movedCaret_delete_behind_iff htype (by omega)]
      constructor
      · intro hmoved
        exact Or.inr (Or.inr ⟨hshort, hmoved⟩)
      · rintro (hle | ⟨-, hle⟩ | ⟨-, hmoved⟩)
        · omega
        · omega
        · exact hmoved
    · rw [takenCaret_eq hdev h0 (by omega), movedCaret_delete_self_iff htype hnum]
      constructor
      · rintro (hle | hnone)
        · exact Or.inl hle
        · exact Or.inr (Or.inl ⟨hnone, by omega⟩)
      · rintro (hle | ⟨hnone, -⟩ | ⟨hshort', -⟩)
        · exact Or.inl hle
        · exact Or.inr hnone
        · exact (hshort hshort').elim

/-- The caret that a text view has after an event of another client stands at its place in
the text exactly when an insertion put something in front of it only if it was nothing, and a
deletion took something in front of it only if the text became too short for the caret and the
text view itself found the right place. -/
theorem remote_caret_iff (dev : Device α γ) (hdev : TakesInside dev) (vc vc' : ViewController α)
    (event : Event γ) (c : Int) (hzero : vc.brCounter = 0)
    (hcaret : vc.myTextView.selectedRange = ⟨c, 0⟩) (h0 : 0 ≤ c)
    (hc : c ≤ vc.myTextView.text.length) (hnum : 0 ≤ event.data.numChars)
    (h : receivedEvent dev vc (-1) event = some vc') :
    MovedCaret dev.stringWithCString event c vc'.myTextView.selectedRange.location ↔
      if event.eventType = .insert then
        c ≤ event.data.cursorLocation - event.data.numChars ∨
          dev.stringWithCString event.data.contentModified = []
      else
        c ≤ event.data.cursorLocation ∨
          (event.data.numChars = 0 ∧
            c ≤ lengthAfter dev.stringWithCString vc.myTextView.text.length event) ∨
          ∃ text, applyEvent dev.stringWithCString vc.myTextView.text event = some text ∧
            text.length < c ∧ (dev.takenSelection text ⟨c, 0⟩).location =
              max event.data.cursorLocation (c - event.data.numChars) := by
  have htext := ((receivedEvent_remote h).shown hzero).1
  have hview : (∃ text, applyEvent dev.stringWithCString vc.myTextView.text event = some text ∧
      text.length < c ∧ (dev.takenSelection text ⟨c, 0⟩).location =
        max event.data.cursorLocation (c - event.data.numChars)) ↔
      vc'.myTextView.text.length < c ∧
        (dev.takenSelection vc'.myTextView.text ⟨c, 0⟩).location =
          max event.data.cursorLocation (c - event.data.numChars) := by
    constructor
    · rintro ⟨text, htext', hshort, hmoved⟩
      obtain rfl := Option.some.inj (htext.symm.trans htext')
      exact ⟨hshort, hmoved⟩
    · rintro ⟨hshort, hmoved⟩
      exact ⟨_, htext, hshort, hmoved⟩
  rw [moved_shown_caret_iff hdev hzero hcaret h0 hc hnum h, hview, length_applyEvent htext]

/-- The caret in front of `a`, and another client types a `b` behind it. -/
theorem remote_caret_iff_behind :
    ∃ vc', receivedEvent latin1Device (viewDidLoad ⟨[97], ⟨0, 0⟩⟩) (-1) ⟨.insert, ⟨2, [98], 1⟩⟩ =
        some vc' ∧ vc'.myTextView.text = [97, 98] ∧
      MovedCaret latin1Device.stringWithCString ⟨.insert, ⟨2, [98], 1⟩⟩ 0
        vc'.myTextView.selectedRange.location := by
  refine ⟨_, rfl, rfl, ?_⟩
  rw [remote_caret_iff latin1Device latin1Device_takesInside (viewDidLoad ⟨[97], ⟨0, 0⟩⟩) _
    ⟨.insert, ⟨2, [98], 1⟩⟩ 0 rfl rfl (by decide) (by decide) (by decide) rfl, if_pos rfl]
  exact Or.inl (by decide)

/-- The caret behind `a`, and another client types a `b` in front of it: the caret ends up
between the two. -/
theorem caret_left_behind :
    ¬ ∀ (vc vc' : ViewController Unichar) (event : Event UInt8) (c : Int), vc.brCounter = 0 →
      vc.myTextView.selectedRange = ⟨c, 0⟩ → 0 ≤ c → c ≤ vc.myTextView.text.length →
      0 ≤ event.data.numChars → receivedEvent latin1Device vc (-1) event = some vc' →
      MovedCaret latin1Device.stringWithCString event c vc'.myTextView.selectedRange.location := by
  intro h
  have hmoved := h (viewDidLoad (viewOf [97])) _ ⟨.insert, ⟨1, [98], 1⟩⟩ 1 rfl rfl (by decide)
    (by decide) (by decide) rfl
  have hbehind := ((movedCaret_insert_iff rfl).mp hmoved).2.1 (by decide)
  revert hbehind
  decide

/-! ## A text view that cuts -/

/-- A text view that cuts a caret behind its text to the end of the text, and takes every other
range inside it as it is. -/
structure CutsCaret (dev : Device α γ) : Prop where
  inside : TakesInside dev
  cut : ∀ (text : NSString α) (c : Int), text.length < c →
    (dev.takenSelection text ⟨c, 0⟩).location = text.length

theorem latin1Device_cutsCaret : CutsCaret latin1Device where
  inside := latin1Device_takesInside
  cut text c hc := by
    simp only [latin1Device]
    omega

/-- With such a text view, whether the caret stands at its place is decided by the text, the caret
and the event alone. -/
theorem remote_caret_of_cut_iff (dev : Device α γ) (hdev : CutsCaret dev)
    (vc vc' : ViewController α) (event : Event γ) (c : Int) (hzero : vc.brCounter = 0)
    (hcaret : vc.myTextView.selectedRange = ⟨c, 0⟩) (h0 : 0 ≤ c)
    (hc : c ≤ vc.myTextView.text.length) (hnum : 0 ≤ event.data.numChars)
    (h : receivedEvent dev vc (-1) event = some vc') :
    MovedCaret dev.stringWithCString event c vc'.myTextView.selectedRange.location ↔
      if event.eventType = .insert then
        c ≤ event.data.cursorLocation - event.data.numChars ∨
          dev.stringWithCString event.data.contentModified = []
      else
        c ≤ event.data.cursorLocation ∨
          (event.data.numChars = 0 ∧
            c ≤ lengthAfter dev.stringWithCString vc.myTextView.text.length event) ∨
          (lengthAfter dev.stringWithCString vc.myTextView.text.length event < c ∧
            if atEndBranch vc.myTextView.text.length event.data.cursorLocation
                event.data.numChars then
              c < vc.myTextView.text.length
            else
              c = vc.myTextView.text.length ∨
                event.data.cursorLocation + event.data.numChars = vc.myTextView.text.length) := by
  have htext := ((receivedEvent_remote h).shown hzero).1
  rw [moved_shown_caret_iff hdev.inside hzero hcaret h0 hc hnum h, ← length_applyEvent htext]
  split_ifs with htype hend
  · rfl
  · refine or_congr_right (or_congr_right (and_congr_right fun hshort => ?_))
    rw [cut_caret_iff (hdev.cut _ c hshort) htype hc htext, if_pos hend]
  · refine or_congr_right (or_congr_right (and_congr_right fun hshort => ?_))
    rw [cut_caret_iff (hdev.cut _ c hshort) htype hc htext, if_neg hend]

end ViewController

end WeWrite
