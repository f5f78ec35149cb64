import WeWrite.Editor.Handlers
import WeWrite.Editor.Encoding

/-!
# One editor and its environment

An editor takes local edits, caret moves, echoes of its own broadcasts and events of other
clients, in any order.  The environment decides whether a broadcast is accepted, which
outstanding broadcast comes back next, and what the others send.

Main results:

- Theorem `Editor.inv_of_run`: in every reachable state the counter is the number of
  broadcasts that are outstanding or have failed, a zero counter means that the text view
  shows the side string, and the side string is the fold of the events received.
- Theorem `Editor.counter_and_no_lost_update`: with every broadcast accepted, a received
  event changes the text view only when every local edit is among the events applied.
- Theorem `Editor.in_step_iff_no_failure`: the editor keeps in step with the session exactly
  as long as none of its broadcasts has failed.
-/

namespace WeWrite

open Transition ViewController

variable {α γ : Type}

/-- A view controller with the broadcasts it has under way.  `accepted`, `received` and
`failed` are history: the own broadcasts the service took, the events handled, and the
number of broadcasts that returned -1. -/
structure Editor (α γ : Type) where
  vc : ViewController α
  outstanding : List (Event γ)
  accepted : List (Event γ)
  received : List (Event γ)
  failed : Nat

/-- What can happen to an editor. -/
inductive EditorAction (α γ : Type) where
  /-- A local edit, whose broadcast is accepted or returns -1. -/
  | edit (edit : Edit α) (accepted : Bool)
  /-- The user moves the caret or selects. -/
  | select (range : NSRange)
  /-- An outstanding broadcast comes back. -/
  | echo (index : Nat)
  /-- An event of another client arrives. -/
  | remote (event : Event γ)

/-- The registration id under which an own broadcast comes back; the handler only compares
it with -1. -/
def ownSubmissionID : Int := 0

namespace Editor

/-- The editor right after `viewDidLoad`. -/
def start (view : UITextView α) : Editor α γ where
  vc := viewDidLoad view
  outstanding := []
  accepted := []
  received := []
  failed := 0

/-- One step of the editor; `none` when the action is impossible or raises. -/
def step (dev : Device α γ) (s : Editor α γ) : EditorAction α γ → Option (Editor α γ)
  | .edit edit accepted => do
      let (vc, event) ← s.vc.userEdit dev edit
      if accepted then
        some { s with
          vc := vc
          outstanding := s.outstanding ++ [event]
          accepted := s.accepted ++ [event] }
      else
        some { s with vc := vc, failed := s.failed + 1 }
  | .select range =>
      some { s with
        vc := { s.vc with myTextView := { s.vc.myTextView with selectedRange := range } } }
  | .echo index => do
      let event ← s.outstanding[index]?
      let vc ← s.vc.receivedEvent dev ownSubmissionID event
      some { s with
        vc := vc
        outstanding := s.outstanding.eraseIdx index
        received := s.received ++ [event] }
  | .remote event => do
      let vc ← s.vc.receivedEvent dev (-1) event
      some { s with vc := vc, received := s.received ++ [event] }

/-! ## What a step does -/

variable {dev : Device α γ} {s s' : Editor α γ}

theorem step_edit {edit : Edit α} {accepted : Bool}
    (h : s.step dev (.edit edit accepted) = some s') :
    ∃ vc event, Edited dev edit event s.vc vc ∧
      s' = if accepted then
          { s with
            vc := vc
            outstanding := s.outstanding ++ [event]
            accepted := s.accepted ++ [event] }
        else { s with vc := vc, failed := s.failed + 1 } := by
  simp only [step, Option.bind_eq_bind, Option.bind_eq_some_iff] at h
  rcases h with ⟨⟨vc, event⟩, hedit, h⟩
  refine ⟨vc, event, userEdit_spec hedit, ?_⟩
  split_ifs at h ⊢ <;> simpa using h.symm

theorem step_echo {index : Nat} (h : s.step dev (.echo index) = some s') :
    ∃ event vc, s.outstanding[index]? = some event ∧
      ReceivedOwn dev.stringWithCString event s.vc vc ∧
      s' = { s with
        vc := vc
        outstanding := s.outstanding.eraseIdx index
        received := s.received ++ [event] } := by
  simp only [step, Option.bind_eq_bind, Option.bind_eq_some_iff, Option.some.injEq] at h
  rcases h with ⟨event, hevent, vc, hvc, rfl⟩
  exact ⟨event, vc, hevent, receivedEvent_own (by decide) hvc, rfl⟩

theorem step_remote {event : Event γ} (h : s.step dev (.remote event) = some s') :
    ∃ vc, ReceivedRemote dev.stringWithCString event s.vc vc ∧
      s' = { s with vc := vc, received := s.received ++ [event] } := by
  simp only [step, Option.bind_eq_bind, Option.bind_eq_some_iff, Option.some.injEq] at h
  rcases h with ⟨vc, hvc, rfl⟩
  exact ⟨vc, receivedEvent_remote hvc, rfl⟩

/-! ## The invariant of an editor -/

/-- What holds of an editor that was opened on `text`. -/
structure Inv (dev : Device α γ) (text : NSString α) (s : Editor α γ) : Prop where
  counter : s.vc.brCounter = s.outstanding.length + s.failed
  synced : s.vc.brCounter = 0 → s.vc.myTextView.text = s.vc.sideString
  folded : replay (applyEvent dev.stringWithCString) text s.received = some s.vc.sideString
  kept : s.accepted.Subperm (s.outstanding ++ s.received)

theorem inv_start (dev : Device α γ) (view : UITextView α) : Inv dev view.text (start view) where
  counter := rfl
  synced _ := rfl
  folded := rfl
  kept := List.Subperm.refl []

/-- One more event folded. -/
theorem folded_concat {decode : List γ → NSString α} {text side side' : NSString α}
    {received : List (Event γ)} {event : Event γ}
    (hfold : replay (applyEvent decode) text received = some side)
    (hside : applyEvent decode side event = some side') :
    replay (applyEvent decode) text (received ++ [event]) = some side' := by
  rw [replay_concat, hfold, Option.bind_some, hside]

/-- An echo moves one event from the outstanding to the received ones. -/
theorem outstanding_received_perm {outstanding received : List (Event γ)} {index : Nat}
    {event : Event γ} (hevent : outstanding[index]? = some event) :
    (outstanding.eraseIdx index ++ (received ++ [event])).Perm (outstanding ++ received) := by
  rcases List.getElem?_eq_some_iff.mp hevent with ⟨hlt, rfl⟩
  have herase : (outstanding[index] :: outstanding.eraseIdx index).Perm outstanding :=
    List.getElem_cons_eraseIdx_perm hlt
  have hmove : (outstanding.eraseIdx index ++ (received ++ [outstanding[index]])).Perm
      ((outstanding[index] :: outstanding.eraseIdx index) ++ received) := by
    rw [← List.append_assoc]
    exact List.perm_append_comm
  exact hmove.trans (herase.append_right received)

theorem inv_step {text : NSString α} {a : EditorAction α γ} (hinv : Inv dev text s)
    (hstep : s.step dev a = some s') : Inv dev text s' := by
  rcases hinv with ⟨hcounter, hsynced, hfolded, hkept⟩
  cases a with
  | edit edit accepted =>
      rcases step_edit hstep with ⟨vc, event, hedited, rfl⟩
      have hpos : vc.brCounter ≠ 0 := by
        rw [hedited.counter, hcounter]
        omega
      cases accepted with
      | true =>
          refine ⟨?_, fun hzero => (hpos hzero).elim, ?_, ?_⟩
          · simp only [if_true, List.length_append, List.length_singleton]
            rw [hedited.counter, hcounter]
            omega
          · simpa only [if_true, hedited.side] using hfolded
          · have hone : (s.accepted ++ [event]).Subperm (s.outstanding ++ s.received ++ [event]) :=
              (List.subperm_append_right [event]).mpr hkept
            have hperm : (s.outstanding ++ s.received ++ [event]).Perm
                (s.outstanding ++ [event] ++ s.received) := by
              rw [List.append_assoc, List.append_assoc]
              exact List.perm_append_comm.append_left _
            exact hone.trans hperm.subperm
      | false =>
          refine ⟨?_, fun hzero => (hpos hzero).elim, ?_, hkept⟩
          · simp only [Bool.false_eq_true, if_false]
            rw [hedited.counter, hcounter]
            omega
          · simpa only [Bool.false_eq_true, if_false, hedited.side] using hfolded
  | select range =>
      obtain rfl : _ = s' := by simpa [step] using hstep
      exact ⟨hcounter, hsynced, hfolded, hkept⟩
  | echo index =>
      rcases step_echo hstep with ⟨event, vc, hevent, hown, rfl⟩
      refine ⟨?_, fun hzero => ?_, folded_concat hfolded hown.side, ?_⟩
      · have hlt : index < s.outstanding.length := (List.getElem?_eq_some_iff.mp hevent).1
        have hlen := List.length_eraseIdx_add_one hlt
        simp only
        rw [hown.counter, hcounter]
        omega
      · have htext := hown.text
        rwa [if_pos hzero] at htext
      · exact hkept.trans (outstanding_received_perm hevent).symm.subperm
  | remote event =>
      rcases step_remote hstep with ⟨vc, hremote, rfl⟩
      refine ⟨by simpa [hremote.counter] using hcounter, fun hzero => ?_,
        folded_concat hfolded hremote.side, ?_⟩
      · -- both copies held the same text, and take the same event
        have hzero' : s.vc.brCounter = 0 := by rw [← hremote.counter]; exact hzero
        have htext := (hremote.shown hzero').1
        rw [hsynced hzero', hremote.side] at htext
        exact (Option.some.inj htext).symm
      · have hmore : (s.outstanding ++ s.received).Subperm
            (s.outstanding ++ (s.received ++ [event])) := by
          rw [← List.append_assoc]
          exact (List.sublist_append_left _ _).subperm
        exact hkept.trans hmore

/-- The invariant holds in every reachable state, whatever the environment does. -/
theorem inv_of_run {view : UITextView α} {ok : Editor α γ → EditorAction α γ → Prop}
    {as : List (EditorAction α γ)} (hrun : Run (step dev) ok (start view) as s) :
    Inv dev view.text s :=
  hrun.invariant (Inv dev view.text) (inv_start dev view) fun _ _ _ hinv _ hstep =>
    inv_step hinv hstep

/-! ## With every broadcast accepted -/

/-- The environment accepts every broadcast. -/
def AllAccepted (_ : Editor α γ) : EditorAction α γ → Prop
  | .edit _ accepted => accepted = true
  | _ => True

/-- The actions by which the editor receives an event. -/
def IsReceive : EditorAction α γ → Prop
  | .echo _ | .remote _ => True
  | _ => False

/-- A local edit whose broadcast returned -1. -/
def isFailedEdit : EditorAction α γ → Bool
  | .edit _ accepted => !accepted
  | _ => false

/-- `failed` counts the failed edits of the run. -/
theorem failed_eq_countP {view : UITextView α} {ok : Editor α γ → EditorAction α γ → Prop}
    {as : List (EditorAction α γ)} (hrun : Run (step dev) ok (start view) as s) :
    s.failed = as.countP isFailedEdit := by
  induction hrun with
  | nil => rfl
  | @snoc as s s' a _ _ hstep ih =>
      rw [List.countP_append, ← ih, List.countP_singleton]
      cases a with
      | edit edit accepted =>
          rcases step_edit hstep with ⟨vc, event, -, rfl⟩
          cases accepted <;> rfl
      | select range =>
          obtain rfl : _ = s' := by simpa [step] using hstep
          rfl
      | echo index =>
          rcases step_echo hstep with ⟨event, vc, -, -, rfl⟩
          rfl
      | remote event =>
          rcases step_remote hstep with ⟨vc, -, rfl⟩
          rfl

/-- Nothing has failed when every edit of the run was accepted. -/
theorem failed_eq_zero_iff {view : UITextView α} {ok : Editor α γ → EditorAction α γ → Prop}
    {as : List (EditorAction α γ)} (hrun : Run (step dev) ok (start view) as s) :
    s.failed = 0 ↔ ∀ edit accepted, .edit edit accepted ∈ as → accepted = true := by
  rw [failed_eq_countP hrun, List.countP_eq_zero]
  constructor
  · intro hnone edit accepted hmem
    simpa [isFailedEdit] using hnone _ hmem
  · intro hall a ha
    cases a with
    | edit edit accepted => simpa [isFailedEdit] using hall edit accepted ha
    | select range => exact Bool.false_ne_true
    | echo index => exact Bool.false_ne_true
    | remote event => exact Bool.false_ne_true

theorem failed_eq_zero {view : UITextView α} {as : List (EditorAction α γ)}
    (hrun : Run (step dev) AllAccepted (start view) as s) : s.failed = 0 := by
  rw [failed_eq_zero_iff hrun]
  intro edit accepted hmem
  exact hrun.forall_mem (P := AllAccepted s) (fun _ _ hok => hok) _ hmem

/-- The local edits of a list of actions. -/
def editsOf (as : List (EditorAction α γ)) : List (Edit α) :=
  as.filterMap fun
    | .edit edit _ => some edit
    | _ => none

theorem editsOf_concat (as : List (EditorAction α γ)) (a : EditorAction α γ) :
    editsOf (as ++ [a]) = editsOf as ++ editsOf [a] := by
  simp [editsOf]

/-- The event is what some view controller broadcasts for the edit. -/
def BroadcastOf (dev : Device α γ) (edit : Edit α) (event : Event γ) : Prop :=
  ∃ vc vc', Edited dev edit event vc vc'

/-- With every broadcast accepted, there is one accepted event for each edit, in the sequence in
which the edits were made. -/
theorem accepted_of_run {view : UITextView α} {as : List (EditorAction α γ)}
    (hrun : Run (step dev) AllAccepted (start view) as s) :
    List.Forall₂ (BroadcastOf dev) (editsOf as) s.accepted := by
  induction hrun with
  | nil => exact .nil
  | @snoc as s s' a _ hok hstep ih =>
      rw [editsOf_concat]
      cases a with
      | edit edit accepted =>
          obtain rfl : accepted = true := hok
          rcases step_edit hstep with ⟨vc, event, hedited, rfl⟩
          exact List.rel_append ih (.cons ⟨s.vc, vc, hedited⟩ .nil)
      | select range =>
          obtain rfl : _ = s' := by simpa [step] using hstep
          simpa [editsOf] using ih
      | echo index =>
          rcases step_echo hstep with ⟨event, vc, -, -, rfl⟩
          simpa [editsOf] using ih
      | remote event =>
          rcases step_remote hstep with ⟨vc, -, rfl⟩
          simpa [editsOf] using ih

/-- A received event that changes the text view leaves the counter at zero. -/
theorem counter_eq_zero_of_text_ne {a : EditorAction α γ} (hreceive : IsReceive a)
    (hstep : s.step dev a = some s') (hne : s'.vc.myTextView.text ≠ s.vc.myTextView.text) :
    s'.vc.brCounter = 0 := by
  cases a with
  | edit _ _ => exact hreceive.elim
  | select _ => exact hreceive.elim
  | echo index =>
      rcases step_echo hstep with ⟨event, vc, -, hown, rfl⟩
      by_contra hzero
      exact hne (hown.text_of_counter_ne hzero)
  | remote event =>
      rcases step_remote hstep with ⟨vc, hremote, rfl⟩
      by_contra hzero
      exact hne (hremote.text_of_counter_ne hzero)

/-- With every broadcast accepted and echoed once: the counter is the number of own
broadcasts not yet received back, a zero counter means equal texts, and a received event
changes the text view only in a step after which the counter is zero and every own
broadcast, one for each edit of the run, is among the events folded into the side string. -/
theorem counter_and_no_lost_update (dev : Device α γ) (view : UITextView α)
    (as : List (EditorAction α γ)) (s : Editor α γ)
    (hrun : Run (step dev) AllAccepted (start view) as s) :
    s.vc.brCounter = s.outstanding.length ∧
      (s.vc.brCounter = 0 → s.vc.myTextView.text = s.vc.sideString) ∧
      ∀ a s', AllAccepted s a → IsReceive a → s.step dev a = some s' →
        s'.vc.myTextView.text ≠ s.vc.myTextView.text →
        s'.vc.brCounter = 0 ∧ s'.outstanding = [] ∧
          List.Forall₂ (BroadcastOf dev) (editsOf as) s'.accepted ∧
          s'.accepted.Subperm s'.received ∧
          replay (applyEvent dev.stringWithCString) view.text s'.received =
            some s'.vc.sideString := by
  have hinv := inv_of_run hrun
  have hfailed := failed_eq_zero hrun
  refine ⟨by rw [hinv.counter, hfailed]; simp, hinv.synced, ?_⟩
  intro a s' hok hreceive hstep hne
  have hrun' : Run (step dev) AllAccepted (start view) (as ++ [a]) s' := .snoc hrun hok hstep
  have hinv' := inv_of_run hrun'
  have hzero := counter_eq_zero_of_text_ne hreceive hstep hne
  have hempty : s'.outstanding = [] := by
    have hcount := hinv'.counter
    rw [hzero, failed_eq_zero hrun'] at hcount
    exact List.eq_nil_of_length_eq_zero (by omega)
  have haccepted := accepted_of_run hrun'
  have hnone : editsOf [a] = [] := by
    cases a with
    | edit _ _ => exact hreceive.elim
    | select _ => exact hreceive.elim
    | echo index => rfl
    | remote event => rfl
  rw [editsOf_concat, hnone, List.append_nil] at haccepted
  have hkept := hinv'.kept
  rw [hempty, List.nil_append] at hkept
  exact ⟨hzero, hempty, haccepted, hkept, hinv'.folded⟩

/-- One own keystroke is outstanding while another client's insertion arrives; its echo then
changes the text view. -/
theorem counter_and_no_lost_update_typing :
    ∃ s s', Run (step latin1Device) AllAccepted (start (viewOf []))
        ([] ++ [.edit (.insert 0 97) true] ++ [.remote ⟨.insert, ⟨1, [98], 1⟩⟩]) s ∧
      s.vc.brCounter = s.outstanding.length ∧ s.outstanding.length = 1 ∧
      s.step latin1Device (.echo 0) = some s' ∧ s.vc.myTextView.text = [97] ∧
      s'.vc.myTextView.text = [97, 98] ∧ s'.vc.brCounter = 0 ∧ s'.accepted.Subperm s'.received := by
  have hrun : Run (step latin1Device) AllAccepted (start (viewOf []))
      ([] ++ [.edit (.insert 0 97) true] ++ [.remote ⟨.insert, ⟨1, [98], 1⟩⟩]) _ :=
    .snoc (.snoc .nil rfl rfl) trivial rfl
  rcases counter_and_no_lost_update _ _ _ _ hrun with ⟨hcounter, -, hchanged⟩
  rcases hchanged (.echo 0) _ trivial trivial rfl (by decide) with ⟨hzero, -, -, hkept, -⟩
  exact ⟨_, _, hrun, hcounter, rfl, rfl, rfl, rfl, hzero, hkept⟩

/-! ## With failing broadcasts -/

/-- The editor is in step with its session: the counter is the number of accepted broadcasts
not yet received back, and with none outstanding both copies agree and events of other
clients are shown. -/
def InStep (dev : Device α γ) (s : Editor α γ) : Prop :=
  s.vc.brCounter = s.outstanding.length ∧
    (s.outstanding = [] →
      s.vc.brCounter = 0 ∧ s.vc.myTextView.text = s.vc.sideString ∧
        ∀ event s', s.step dev (.remote event) = some s' →
          applyEvent dev.stringWithCString s.vc.myTextView.text event =
            some s'.vc.myTextView.text)

/-- The editor is in step exactly as long as none of its broadcasts has failed. -/
theorem in_step_iff_no_failure (dev : Device α γ) (view : UITextView α)
    (as : List (EditorAction α γ)) (s : Editor α γ)
    (hrun : Run (step dev) anyAction (start view) as s) :
    InStep dev s ↔ ∀ edit accepted, .edit edit accepted ∈ as → accepted = true := by
  have hinv := inv_of_run hrun
  rw [← failed_eq_zero_iff hrun]
  constructor
  · rintro ⟨hcounter, -⟩
    rw [hinv.counter] at hcounter
    omega
  · intro hzero
    have hcounter : s.vc.brCounter = s.outstanding.length := by
      rw [hinv.counter, hzero]
      simp
    refine ⟨hcounter, fun hempty => ?_⟩
    have hbr : s.vc.brCounter = 0 := by simp [hcounter, hempty]
    refine ⟨hbr, hinv.synced hbr, ?_⟩
    intro event s' hstep
    rcases step_remote hstep with ⟨vc, hremote, rfl⟩
    exact (hremote.shown hbr).1

/-- A run with an accepted keystroke is in step. -/
theorem in_step_iff_no_failure_typing :
    ∃ s, Run (step latin1Device) anyAction (start (viewOf []))
        ([] ++ [.edit (.insert 0 97) true]) s ∧ InStep latin1Device s := by
  have hrun : Run (step latin1Device) anyAction (start (viewOf []))
      ([] ++ [.edit (.insert 0 97) true]) _ := .snoc .nil trivial rfl
  refine ⟨_, hrun, (in_step_iff_no_failure _ _ _ _ hrun).mpr ?_⟩
  simp

/-- One failed keystroke: nothing is outstanding and the counter stays at one. -/
theorem failed_broadcast_not_in_step :
    ¬ ∀ (as : List (EditorAction Unichar UInt8)) (s : Editor Unichar UInt8),
      Run (step latin1Device) anyAction (start (viewOf [])) as s → InStep latin1Device s := by
  intro h
  have hrun : Run (step latin1Device) anyAction (start (viewOf []))
      ([] ++ [.edit (.insert 0 97) false]) _ := .snoc .nil trivial rfl
  rcases h _ _ hrun with ⟨hcounter, -⟩
  revert hcounter
  decide

end Editor

end WeWrite
