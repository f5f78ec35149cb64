import WeWrite.Editor.Selection

/-!
# The caret under own echoes

Every own echo sets the controller's selection to the location its message carries, which is
where the caret stood right after the keystroke, and the last one gives that location to the
text view.  A user who has moved the caret meanwhile finds it moved back.

The session here has one participant, who types single characters and moves the caret while
the echoes of earlier keystrokes are on their way.

Main results:

- Theorem `Editor.caretInv_step`: what the controller knows of the caret, from what the user
  has done.
- Theorem `Editor.echoes_keep_caret_iff`: the echoes of a run leave the caret alone exactly
  when, at each last one, it stands where the last keystroke left it.
-/

namespace WeWrite

open Transition ViewController

variable {α γ : Type}

namespace Editor

/-! ## One participant at work -/

/-- The only participant of a session types characters that are read as at least one unit, and
moves the caret inside the text; the echoes come back in order. -/
def TypesAlone (dev : Device α γ) (s : Editor α γ) : EditorAction α γ → Prop
  | .edit (.insert _ char) accepted =>
      accepted = true ∧ dev.stringWithCString (dev.utf8String [char]) ≠ []
  | .edit _ _ => False
  | .select range => range.length = 0 ∧ range.Inside s.vc.myTextView.text.length
  | .echo index => index = 0
  | .remote _ => False

/-- What the user knows: how many keystrokes have not been echoed, where the last one left the
caret, and where the caret is. -/
structure UserCaret where
  pending : Nat
  typed : Int
  caret : Int
deriving DecidableEq, Repr

/-- An edit leaves the caret behind the character it typed. -/
def UserCaret.next (u : UserCaret) : EditorAction α γ → UserCaret
  | .edit (.insert location _) _ => ⟨u.pending + 1, location + 1, location + 1⟩
  | .select range => { u with caret := range.location }
  | .echo _ => { u with pending := u.pending - 1 }
  | _ => u

/-- What the user knows after some actions. -/
def userCaret (view : UITextView α) (as : List (EditorAction α γ)) : UserCaret :=
  as.foldl UserCaret.next ⟨0, 0, view.selectedRange.location⟩

theorem userCaret_concat (view : UITextView α) (as : List (EditorAction α γ))
    (a : EditorAction α γ) : userCaret view (as ++ [a]) = (userCaret view as).next a := by
  rw [userCaret, List.foldl_append]
  rfl

/-- The echo `a` leaves the caret of the text view where it is. -/
def EchoKeepsCaret (dev : Device α γ) (view : UITextView α) (done : List (EditorAction α γ))
    (a : EditorAction α γ) : Prop :=
  ∀ index s s', a = .echo index → Run (step dev) anyAction (start view) done s →
    s.step dev a = some s' →
    s'.vc.myTextView.selectedRange.location = s.vc.myTextView.selectedRange.location

/-- If `a` is the last pending echo, the user has the caret where the last keystroke left it. -/
def CaretAtKeystroke (view : UITextView α) (done : List (EditorAction α γ))
    (a : EditorAction α γ) : Prop :=
  ∀ index, a = .echo index → (userCaret view done).pending = 1 →
    (userCaret view done).caret = (userCaret view done).typed

/-! ## What the controller knows of the caret -/

/-- As long as no echo has moved the caret, the text view has it where the user has it, and the
last outstanding message carries the place where the last keystroke left it. -/
structure CaretInv (dev : Device α γ) (u : UserCaret) (s : Editor α γ) : Prop where
  counter : s.vc.brCounter = s.outstanding.length
  pending : s.outstanding.length = u.pending
  caret : s.vc.myTextView.selectedRange.location = u.caret
  flat : s.outstanding ≠ [] → s.vc.myTextView.selectedRange.length = 0
  typed : s.outstanding ≠ [] → 0 ≤ u.typed ∧ u.typed ≤ s.vc.myTextView.text.length
  last : ∀ event, s.outstanding.getLast? = some event → event.data.cursorLocation = u.typed
  inserts : ∀ event ∈ s.outstanding, event.eventType = .insert ∧
    dev.stringWithCString event.data.contentModified ≠ []
  room : s.vc.myTextView.text.length ≤ s.vc.sideString.length + s.outstanding.length
  cache : s.vc.textSize ≤ s.vc.myTextView.text.length

variable {dev : Device α γ} {u : UserCaret} {s s' : Editor α γ}

theorem caretInv_start (dev : Device α γ) (view : UITextView α) :
    CaretInv dev ⟨0, 0, view.selectedRange.location⟩ (start view) where
  counter := rfl
  pending := rfl
  caret := rfl
  flat h := (h rfl).elim
  typed h := (h rfl).elim
  last event h := by cases h
  inserts event h := by cases h
  room := Nat.le_refl _
  cache := by simp [start, viewDidLoad]

theorem caretInv_insert {location : Nat} {char : α} (hinv : CaretInv dev u s)
    (hread : dev.stringWithCString (dev.utf8String [char]) ≠ [])
    (hstep : s.step dev (.edit (.insert location char) true) = some s') :
    CaretInv dev ⟨u.pending + 1, location + 1, location + 1⟩ s' := by
  rcases step_edit hstep with ⟨vc, event, hedited, rfl⟩
  rcases hedited.typed hinv.cache with ⟨htype, hcontent, hlocation, hlength⟩
  have hview := hedited.view
  simp only [Edit.perform] at hview
  split_ifs at hview with hle
  have hview := Option.some.inj hview
  have hselected : vc.myTextView.selectedRange = ⟨location + 1, 0⟩ := by rw [← hview]
  refine ⟨?_, ?_, ?_, fun _ => ?_, fun _ => ?_, ?_, ?_, ?_, ?_⟩
  · simp only [if_true, List.length_append, List.length_singleton]
    rw [hedited.counter, hinv.counter]
    omega
  · simp [hinv.pending]
  · simp [hselected]
  · simp [hselected]
  · simp only [if_true, hlength]
    omega
  · intro e he
    obtain rfl : event = e := by simpa using he
    exact hlocation
  · exact forall_mem_concat hinv.inserts ⟨htype, by rwa [hcontent]⟩
  · have hroom := hinv.room
    simp only [if_true, List.length_append, List.length_singleton, hlength, hedited.side]
    omega
  · simp only [if_true, hedited.textSize]
    exact Int.le_refl _

theorem caretInv_select {range : NSRange} (hinv : CaretInv dev u s) (hflat : range.length = 0)
    (hstep : s.step dev (.select range) = some s') :
    CaretInv dev { u with caret := range.location } s' := by
  obtain rfl : _ = s' := by simpa [step] using hstep
  exact ⟨hinv.counter, hinv.pending, rfl, fun _ => hflat, hinv.typed, hinv.last, hinv.inserts,
    hinv.room, hinv.cache⟩

/-- An echo delivers the first outstanding broadcast. -/
theorem step_first_echo (h : s.step dev (.echo 0) = some s') :
    ∃ event, s.outstanding = event :: s'.outstanding ∧
      ReceivedOwn dev.stringWithCString event s.vc s'.vc := by
  rcases step_echo h with ⟨event, vc, hevent, hown, rfl⟩
  cases hout : s.outstanding with
  | nil => simp [hout] at hevent
  | cons first rest =>
      obtain rfl : first = event := by simpa [hout] using hevent
      exact ⟨first, by simp, hown⟩

/-- An insertion of at least one unit makes the side string longer. -/
theorem side_grows {event : Event γ} {vc vc' : ViewController α}
    (hown : ReceivedOwn dev.stringWithCString event vc vc') (htype : event.eventType = .insert)
    (hread : dev.stringWithCString event.data.contentModified ≠ []) :
    vc.sideString.length + 1 ≤ vc'.sideString.length := by
  have hlength := length_applyEvent hown.side
  rw [lengthAfter_insert htype] at hlength
  have hpos := List.length_pos_of_ne_nil hread
  omega

/-- The last pending echo puts the caret where the last keystroke left it. -/
theorem last_echo_selectedRange (hdev : TakesInside dev) (hinv : CaretInv dev u s)
    (hone : u.pending = 1) (hstep : s.step dev (.echo 0) = some s') :
    s'.vc.myTextView.selectedRange = ⟨u.typed, 0⟩ := by
  have hview := receive_myTextView (a := .echo 0) trivial hstep
  rcases step_first_echo hstep with ⟨event, hout, hown⟩
  have hcount : s.outstanding.length = 1 := by rw [hinv.pending, hone]
  have hcounter : s.vc.brCounter = 1 := by rw [hinv.counter, hcount]; rfl
  have hnonempty : s.outstanding ≠ [] := by simp [hout]
  have hlast : s.outstanding.getLast? = some event := by
    rw [List.getLast?_eq_getElem?, hcount, hout]
    rfl
  have hset : s.selectionSetBy (.echo 0) = some ⟨u.typed, 0⟩ := by
    rw [selectionSetBy_echo (by rw [hout]; rfl), if_pos (by omega), hinv.flat hnonempty,
      hinv.last event hlast]
  -- the last keystroke left the caret in a text that the side string has caught up with
  have htext := hown.text
  rw [if_pos (by rw [hown.counter]; omega)] at htext
  rcases hinv.inserts event (by simp [hout]) with ⟨htype, hread⟩
  have hgrows := side_grows hown htype hread
  rcases hinv.typed hnonempty with ⟨h0, htyped⟩
  have hroom := hinv.room
  rw [hview, hset, shownView]
  refine hdev _ _ ⟨h0, Int.le_refl 0, ?_⟩
  rw [htext]
  simp only
  omega

/-- Every other echo leaves the text view alone. -/
theorem earlier_echo_myTextView (hinv : CaretInv dev u s) (hone : u.pending ≠ 1)
    (hstep : s.step dev (.echo 0) = some s') : s'.vc.myTextView = s.vc.myTextView := by
  have hview := receive_myTextView (a := .echo 0) trivial hstep
  rcases step_first_echo hstep with ⟨event, hout, -⟩
  have hcounter := hinv.counter
  rw [hinv.pending] at hcounter
  rw [selectionSetBy_echo (by rw [hout]; rfl), if_neg (by omega)] at hview
  exact hview

/-- As long as an echo leaves the caret alone, the controller keeps in step with the user. -/
theorem caretInv_echo (hinv : CaretInv dev u s)
    (hkeep : s'.vc.myTextView.selectedRange.location = u.caret)
    (hstep : s.step dev (.echo 0) = some s') :
    CaretInv dev { u with pending := u.pending - 1 } s' := by
  rcases step_first_echo hstep with ⟨event, hout, hown⟩
  have hlength : s.outstanding.length = s'.outstanding.length + 1 := by rw [hout]; simp
  have hpending := hinv.pending
  have hroom := hinv.room
  have hcache := hinv.cache
  have hcounter : s'.vc.brCounter = s'.outstanding.length := by
    rw [hown.counter, hinv.counter]
    omega
  have hinserts : ∀ e ∈ s'.outstanding, e ∈ s.outstanding := by
    intro e he
    rw [hout]
    exact List.mem_cons_of_mem event he
  rcases hinv.inserts event (by simp [hout]) with ⟨htype, hread⟩
  have hgrows := side_grows hown htype hread
  by_cases hone : u.pending = 1
  · -- nothing is outstanding, and the text is the side string
    have hempty : s'.outstanding = [] := List.eq_nil_of_length_eq_zero (by omega)
    have htext := hown.text
    rw [if_pos (by rw [hcounter, hempty]; rfl)] at htext
    refine ⟨hcounter, by simp only; omega, hkeep, fun h => (h hempty).elim,
      fun h => (h hempty).elim, ?_, fun e he => hinv.inserts e (hinserts e he), ?_, ?_⟩
    · intro e he
      simp [hempty] at he
    · rw [htext]
      omega
    · rw [htext, hown.textSize]
      omega
  · have hview := earlier_echo_myTextView hinv hone hstep
    have hnonempty : s.outstanding ≠ [] := by simp [hout]
    refine ⟨hcounter, by simp only; omega, hkeep, fun _ => ?_, fun _ => ?_, ?_,
      fun e he => hinv.inserts e (hinserts e he), ?_, ?_⟩
    · rw [hview]
      exact hinv.flat hnonempty
    · rw [hview]
      exact hinv.typed hnonempty
    · intro e he
      apply hinv.last
      rw [hout, List.getLast?_cons, he]
      rfl
    · rw [hview]
      omega
    · rw [hview, hown.textSize]
      exact hcache

/-! ## The echoes of a run -/

theorem caretInv_step {a : EditorAction α γ} (hinv : CaretInv dev u s) (hok : TypesAlone dev s a)
    (hkeep : ∀ index, a = .echo index → s'.vc.myTextView.selectedRange.location =
      s.vc.myTextView.selectedRange.location)
    (hstep : s.step dev a = some s') : CaretInv dev (u.next a) s' := by
  cases a with
  | edit edit accepted =>
      cases edit with
      | insert location char =>
          rcases hok with ⟨rfl, hread⟩
          exact caretInv_insert hinv hread hstep
      | delete location count => exact hok.elim
      | replace view => exact hok.elim
  | select range => exact caretInv_select hinv hok.1 hstep
  | echo index =>
      obtain rfl : index = 0 := hok
      exact caretInv_echo hinv ((hkeep 0 rfl).trans hinv.caret) hstep
  | remote event => exact hok.elim

/-- An echo leaves the caret alone exactly when it is not the last one, or finds the caret where
the last keystroke left it. -/
theorem echoKeepsCaret_iff (hdev : TakesInside dev) {view : UITextView α}
    {done : List (EditorAction α γ)} {a : EditorAction α γ}
    (hrun : Run (step dev) anyAction (start view) done s)
    (hinv : CaretInv dev (userCaret view done) s) (hok : TypesAlone dev s a)
    (hstep : s.step dev a = some s') :
    EchoKeepsCaret dev view done a ↔ CaretAtKeystroke view done a := by
  constructor
  · rintro hkeep index rfl hone
    obtain rfl : index = 0 := hok
    have hcaret := hkeep 0 s s' rfl hrun hstep
    rw [last_echo_selectedRange hdev hinv hone hstep, hinv.caret] at hcaret
    exact hcaret.symm
  · rintro hcaret index s₁ s₂ rfl hrun₁ hstep₁
    obtain rfl : index = 0 := hok
    obtain rfl := hrun.unique hrun₁
    by_cases hone : (userCaret view done).pending = 1
    · rw [last_echo_selectedRange hdev hinv hone hstep₁, hinv.caret]
      exact (hcaret 0 rfl hone).symm
    · rw [earlier_echo_myTextView hinv hone hstep₁]

/-- One participant types single characters and moves the caret: no echo of the run moves the
caret exactly when, at each last pending echo, it stands where the last keystroke left it. -/
theorem echoes_keep_caret_iff (dev : Device α γ) (hdev : TakesInside dev) (view : UITextView α)
    (as : List (EditorAction α γ)) (s : Editor α γ)
    (hrun : Run (step dev) (TypesAlone dev) (start view) as s) :
    EachAfter (EchoKeepsCaret dev view) as ↔ EachAfter (CaretAtKeystroke view) as := by
  have key : (EachAfter (EchoKeepsCaret dev view) as ↔ EachAfter (CaretAtKeystroke view) as) ∧
      (EachAfter (EchoKeepsCaret dev view) as → CaretInv dev (userCaret view as) s) := by
    induction hrun with
    | nil => exact ⟨by simp, fun _ => caretInv_start dev view⟩
    | @snoc as s s' a hrun hok hstep ih =>
        rcases ih with ⟨hiff, hinv⟩
        rw [eachAfter_concat, eachAfter_concat, ← hiff, userCaret_concat]
        constructor
        · apply and_congr_right
          intro hkept
          exact echoKeepsCaret_iff hdev hrun.any (hinv hkept) hok hstep
        · rintro ⟨hkept, hkeep⟩
          refine caretInv_step (hinv hkept) hok ?_ hstep
          intro index ha
          exact hkeep index s s' ha hrun.any hstep
  exact key.1

/-- A keystroke and its echo, with the caret left where it is. -/
theorem echoes_keep_caret_iff_typing :
    ∃ s, Run (step latin1Device) (TypesAlone latin1Device) (start (viewOf []))
        ([] ++ [.edit (.insert 0 97) true] ++ [.echo 0]) s ∧
      EachAfter (EchoKeepsCaret latin1Device (viewOf []))
        ([] ++ [.edit (.insert 0 97) true] ++ [.echo 0]) := by
  have hrun : Run (step latin1Device) (TypesAlone latin1Device) (start (viewOf []))
      ([] ++ [.edit (.insert 0 97) true] ++ [.echo 0]) _ :=
    .snoc (.snoc .nil ⟨rfl, by decide⟩ rfl) rfl rfl
  refine ⟨_, hrun, ?_⟩
  rw [echoes_keep_caret_iff latin1Device latin1Device_takesInside _ _ _ hrun, eachAfter_concat,
    eachAfter_concat]
  refine ⟨⟨eachAfter_nil _, ?_⟩, ?_⟩
  · intro index ha
    cases ha
  · intro index _ _
    rfl

/-- The user types a character and moves the caret in front of it; the echo puts it back behind
the character. -/
theorem echo_moves_caret :
    ¬ ∀ (as : List (EditorAction Unichar UInt8)) (s : Editor Unichar UInt8),
      Run (step latin1Device) (TypesAlone latin1Device) (start (viewOf [])) as s →
        EachAfter (EchoKeepsCaret latin1Device (viewOf [])) as := by
  intro h
  have hmoved : Run (step latin1Device) (TypesAlone latin1Device) (start (viewOf []))
      ([] ++ [.edit (.insert 0 97) true] ++ [.select ⟨0, 0⟩]) _ :=
    .snoc (.snoc .nil ⟨rfl, by decide⟩ rfl) ⟨rfl, by decide⟩ rfl
  have hechoed : Run (step latin1Device) (TypesAlone latin1Device) (start (viewOf []))
      ([] ++ [.edit (.insert 0 97) true] ++ [.select ⟨0, 0⟩] ++ [.echo 0]) _ :=
    .snoc hmoved rfl rfl
  have hkept := (eachAfter_concat.mp (h _ _ hechoed)).2
  have hcaret := hkept 0 _ _ rfl hmoved.any rfl
  revert hcaret
  decide

end Editor

end WeWrite
