import Mathlib.Logic.Function.Basic
import WeWrite.Editor.SingleEditor

/-!
# A session of several editors

The service takes the broadcasts of all clients, puts them in one total order, and hands
every client that has joined the events of that order one after the other, the author's own
with its registration id and everybody else's with -1.  Clients are at different positions
of the order.  A broadcast waits at its author until the service publishes it; the service
may publish the waiting broadcasts of one client in any sequence, and `InOrder` is the guard
under which it keeps the sequence in which they were sent.

Each submission carries, as history, the edit it came from, the text its author saw before
the edit, and how much of the order that text showed.

Main results:

- Theorems `Session.step_edit`, `step_publish`, `step_deliver` and their two siblings: what
  each action changes.
- Theorem `Session.inv_of_run`: positions are within the order and authors are recorded.
-/

namespace WeWrite

open Transition ViewController

variable {ι α γ : Type} [DecidableEq ι]

/-! ## State and actions -/

/-- A broadcast under way, with the history of the edit it came from. -/
structure Submission (ι α γ : Type) where
  author : ι
  event : Event γ
  /-- The edit that was broadcast. -/
  edit : Edit α
  /-- The text of the author's view before the edit. -/
  before : NSString α
  /-- How many events of the order the author's view showed, apart from its own edits. -/
  shown : Nat

/-- A participant of the session. -/
structure Client (ι α γ : Type) where
  joined : Bool
  vc : ViewController α
  /-- How many events of the order have been handed to this client. -/
  delivered : Nat
  /-- Broadcasts that the service has accepted and not yet published. -/
  outbox : List (Submission ι α γ)
  /-- History: how many events of the order the text view shows, apart from own edits. -/
  shown : Nat

/-- A session: its clients, the order of the published events, and as history the edits in
the sequence in which they were made. -/
structure Session (ι α γ : Type) where
  client : ι → Client ι α γ
  order : List (Submission ι α γ)
  edits : List (Edit α)

/-- What can happen in a session. -/
inductive SessionAction (ι α : Type) where
  /-- A client joins; it will be handed the order from its first event. -/
  | join (i : ι)
  /-- A local edit. -/
  | edit (i : ι) (edit : Edit α)
  /-- A user moves the caret or selects. -/
  | select (i : ι) (range : NSRange)
  /-- The service publishes a waiting broadcast. -/
  | publish (i : ι) (index : Nat)
  /-- A client is handed the next event. -/
  | deliver (i : ι)

/-- The registration id that comes with an event. -/
def submissionRegistrationID (i author : ι) : Int :=
  if author = i then ownSubmissionID else -1

namespace Session

/-- Nobody has joined, and the editor of client `i` opens on `view i`. -/
def start (view : ι → UITextView α) : Session ι α γ where
  client i :=
    { joined := false, vc := viewDidLoad (view i), delivered := 0, outbox := [], shown := 0 }
  order := []
  edits := []

/-- Replace one client. -/
def setClient (s : Session ι α γ) (i : ι) (c : Client ι α γ) : Session ι α γ :=
  { s with client := Function.update s.client i c }

@[simp]
theorem setClient_client_self (s : Session ι α γ) (i : ι) (c : Client ι α γ) :
    (s.setClient i c).client i = c := by
  simp [setClient]

theorem setClient_client_of_ne (s : Session ι α γ) {i j : ι} (c : Client ι α γ) (h : j ≠ i) :
    (s.setClient i c).client j = s.client j := by
  simp [setClient, h]

/-- A part of the client that is left as it was is the same for every client. -/
theorem setClient_client_congr {β : Type} (f : Client ι α γ → β) (s : Session ι α γ) {j : ι}
    {c : Client ι α γ} (hc : f c = f (s.client j)) (i : ι) :
    f ((s.setClient j c).client i) = f (s.client i) := by
  by_cases hij : i = j
  · subst hij
    rw [setClient_client_self, hc]
  · rw [setClient_client_of_ne s c hij]

@[simp]
theorem setClient_order (s : Session ι α γ) (i : ι) (c : Client ι α γ) :
    (s.setClient i c).order = s.order :=
  rfl

/-- The submission of an edit that client `i` makes now. -/
def submission (s : Session ι α γ) (i : ι) (edit : Edit α) (event : Event γ) :
    Submission ι α γ where
  author := i
  event := event
  edit := edit
  before := (s.client i).vc.myTextView.text
  shown := (s.client i).shown

/-- One step of the session; `none` when the action is impossible or raises. -/
def step (dev : ι → Device α γ) (s : Session ι α γ) : SessionAction ι α → Option (Session ι α γ)
  | .join i =>
      if (s.client i).joined then none
      else some (s.setClient i { s.client i with joined := true })
  | .edit i edit =>
      if (s.client i).joined then do
        let (vc, event) ← (s.client i).vc.userEdit (dev i) edit
        let client := { s.client i with
          vc := vc
          outbox := (s.client i).outbox ++ [s.submission i edit event] }
        some { s.setClient i client with edits := s.edits ++ [edit] }
      else none
  | .select i range =>
      if (s.client i).joined then
        let view := { (s.client i).vc.myTextView with selectedRange := range }
        some (s.setClient i { s.client i with vc := { (s.client i).vc with myTextView := view } })
      else none
  | .publish i index => do
      let submission ← (s.client i).outbox[index]?
      let client := { s.client i with outbox := (s.client i).outbox.eraseIdx index }
      some { s.setClient i client with order := s.order ++ [submission] }
  | .deliver i =>
      if (s.client i).joined then do
        let submission ← s.order[(s.client i).delivered]?
        let vc ← (s.client i).vc.receivedEvent (dev i)
          (submissionRegistrationID i submission.author) submission.event
        let delivered := (s.client i).delivered + 1
        some (s.setClient i { s.client i with
          vc := vc
          delivered := delivered
          shown := if vc.brCounter = 0 then delivered else (s.client i).shown })
      else none

/-! ## What a step does -/

variable {dev : ι → Device α γ} {s s' : Session ι α γ}

theorem step_join {i : ι} (h : s.step dev (.join i) = some s') :
    s' = s.setClient i { s.client i with joined := true } := by
  simp only [step] at h
  split_ifs at h with hjoined
  exact (Option.some.inj h).symm

theorem step_edit {i : ι} {edit : Edit α} (h : s.step dev (.edit i edit) = some s') :
    ∃ vc event, (s.client i).vc.userEdit (dev i) edit = some (vc, event) ∧
      s' = { s.setClient i { s.client i with
          vc := vc
          outbox := (s.client i).outbox ++ [s.submission i edit event] } with
        edits := s.edits ++ [edit] } := by
  simp only [step, Option.bind_eq_bind] at h
  split_ifs at h with hjoined
  rcases Option.bind_eq_some_iff.mp h with ⟨⟨vc, event⟩, hedit, h⟩
  exact ⟨vc, event, hedit, (Option.some.inj h).symm⟩

/-- A client that has joined can make every edit that does not raise. -/
theorem exists_step_edit {i : ι} {edit : Edit α} (hjoined : (s.client i).joined = true)
    {result : ViewController α × Event γ}
    (hedit : (s.client i).vc.userEdit (dev i) edit = some result) :
    ∃ s', s.step dev (.edit i edit) = some s' := by
  simp only [step, if_pos hjoined, hedit, Option.bind_eq_bind, Option.bind_some]
  exact ⟨_, rfl⟩

theorem step_select {i : ι} {range : NSRange} (h : s.step dev (.select i range) = some s') :
    s' = s.setClient i { s.client i with
      vc := { (s.client i).vc with
        myTextView := { (s.client i).vc.myTextView with selectedRange := range } } } := by
  simp only [step] at h
  split_ifs at h with hjoined
  exact (Option.some.inj h).symm

/-- Only a client that has joined edits. -/
theorem joined_of_step_edit {i : ι} {edit : Edit α} (h : s.step dev (.edit i edit) = some s') :
    (s.client i).joined = true := by
  by_contra hjoined
  simp only [step, if_neg hjoined] at h
  cases h

/-- Only a client that has joined selects. -/
theorem joined_of_step_select {i : ι} {range : NSRange}
    (h : s.step dev (.select i range) = some s') : (s.client i).joined = true := by
  by_contra hjoined
  simp only [step, if_neg hjoined] at h
  cases h

theorem step_publish {i : ι} {index : Nat} (h : s.step dev (.publish i index) = some s') :
    ∃ submission, (s.client i).outbox[index]? = some submission ∧
      s' = { s.setClient i { s.client i with
          outbox := (s.client i).outbox.eraseIdx index } with
        order := s.order ++ [submission] } := by
  simp only [step, Option.bind_eq_bind, Option.bind_eq_some_iff, Option.some.injEq] at h
  rcases h with ⟨submission, hsub, rfl⟩
  exact ⟨submission, hsub, rfl⟩

theorem step_deliver {i : ι} (h : s.step dev (.deliver i) = some s') :
    ∃ submission vc, s.order[(s.client i).delivered]? = some submission ∧
      (s.client i).vc.receivedEvent (dev i) (submissionRegistrationID i submission.author)
        submission.event = some vc ∧
      s' = s.setClient i { s.client i with
        vc := vc
        delivered := (s.client i).delivered + 1
        shown := if vc.brCounter = 0 then (s.client i).delivered + 1
          else (s.client i).shown } := by
  simp only [step, Option.bind_eq_bind] at h
  split_ifs at h with hjoined
  rcases Option.bind_eq_some_iff.mp h with ⟨submission, hsub, h⟩
  rcases Option.bind_eq_some_iff.mp h with ⟨vc, hvc, h⟩
  exact ⟨submission, vc, hsub, hvc, (Option.some.inj h).symm⟩

/-- What a delivery does to the view controller: the author's echo, or an event of another
client. -/
def Received (decode : List γ → NSString α) (i : ι) (submission : Submission ι α γ)
    (vc vc' : ViewController α) : Prop :=
  (submission.author = i ∧ ReceivedOwn decode submission.event vc vc') ∨
    (submission.author ≠ i ∧ ReceivedRemote decode submission.event vc vc')

omit [DecidableEq ι] in
theorem Received.side {decode : List γ → NSString α} {i : ι} {submission : Submission ι α γ}
    {vc vc' : ViewController α} (h : Received decode i submission vc vc') :
    applyEvent decode vc.sideString submission.event = some vc'.sideString := by
  rcases h with ⟨-, hown⟩ | ⟨-, hremote⟩
  · exact hown.side
  · exact hremote.side

omit [DecidableEq ι] in
/-- A delivery that leaves the counter above zero leaves the text view alone. -/
theorem Received.text_of_counter_ne {decode : List γ → NSString α} {i : ι}
    {submission : Submission ι α γ} {vc vc' : ViewController α}
    (h : Received decode i submission vc vc') (hne : vc'.brCounter ≠ 0) :
    vc'.myTextView.text = vc.myTextView.text := by
  rcases h with ⟨-, hown⟩ | ⟨-, hremote⟩
  · exact hown.text_of_counter_ne hne
  · exact hremote.text_of_counter_ne hne

theorem received_of_receivedEvent {device : Device α γ} {i : ι} {submission : Submission ι α γ}
    {vc vc' : ViewController α}
    (h : vc.receivedEvent device (submissionRegistrationID i submission.author)
      submission.event = some vc') :
    Received device.stringWithCString i submission vc vc' := by
  unfold submissionRegistrationID at h
  split_ifs at h with hauthor
  · exact Or.inl ⟨hauthor, receivedEvent_own (by decide) h⟩
  · exact Or.inr ⟨hauthor, receivedEvent_remote h⟩

/-! ## Raised exceptions -/

/-- Handing client `i` its next event raises a range exception. -/
def DeliverRaises (dev : ι → Device α γ) (s : Session ι α γ) (i : ι) : Prop :=
  (s.client i).joined = true ∧ ∃ submission, s.order[(s.client i).delivered]? = some submission ∧
    (s.client i).vc.receivedEvent (dev i) (submissionRegistrationID i submission.author)
      submission.event = none

/-- Making this edit at client `i` raises a range exception. -/
def EditRaises (dev : ι → Device α γ) (s : Session ι α γ) (i : ι) (edit : Edit α) : Prop :=
  (s.client i).joined = true ∧
    ∃ view, edit.perform (s.client i).vc.myTextView.text = some view ∧
      (s.client i).vc.userEdit (dev i) edit = none

/-! ## Guards -/

/-- The service publishes the broadcasts of one client in the sequence they were sent. -/
def InOrder (_ : Session ι α γ) : SessionAction ι α → Prop
  | .publish _ index => index = 0
  | _ => True

/-- Users only type single characters and delete contiguous ranges. -/
def TypingOnly (_ : Session ι α γ) : SessionAction ι α → Prop
  | .edit _ (.replace _) => False
  | _ => True

/-! ## Positions and authors -/

/-- Every position is within the order, and every waiting broadcast is its client's own. -/
structure Inv (s : Session ι α γ) : Prop where
  delivered : ∀ i, (s.client i).delivered ≤ s.order.length
  author : ∀ i, ∀ x ∈ (s.client i).outbox, x.author = i

omit [DecidableEq ι] in
theorem inv_start (view : ι → UITextView α) : Inv (start view : Session ι α γ) where
  delivered _ := Nat.le_refl 0
  author _ := by simp [start]

/-- Replacing one client keeps a property of all clients that the new client has. -/
theorem forall_setClient {P : ι → Client ι α γ → Prop} {i : ι} {c : Client ι α γ}
    (hall : ∀ j, P j (s.client j)) (hi : P i c) (j : ι) : P j ((s.setClient i c).client j) := by
  by_cases hj : j = i
  · subst hj
    simpa using hi
  · rw [setClient_client_of_ne s c hj]
    exact hall j

theorem inv_step {a : SessionAction ι α} (hinv : Inv s) (hstep : s.step dev a = some s') :
    Inv s' := by
  rcases hinv with ⟨hdelivered, hauthor⟩
  cases a with
  | join i =>
      obtain rfl := step_join hstep
      exact ⟨forall_setClient (P := fun _ c => c.delivered ≤ _) hdelivered (hdelivered i),
        forall_setClient (P := fun j c => ∀ x ∈ c.outbox, x.author = j) hauthor (hauthor i)⟩
  | edit i edit =>
      rcases step_edit hstep with ⟨vc, event, -, rfl⟩
      exact ⟨forall_setClient (P := fun _ c => c.delivered ≤ _) hdelivered (hdelivered i),
        forall_setClient (P := fun j c => ∀ x ∈ c.outbox, x.author = j) hauthor
          (forall_mem_concat (hauthor i) rfl)⟩
  | select i range =>
      obtain rfl := step_select hstep
      exact ⟨forall_setClient (P := fun _ c => c.delivered ≤ _) hdelivered (hdelivered i),
        forall_setClient (P := fun j c => ∀ x ∈ c.outbox, x.author = j) hauthor (hauthor i)⟩
  | publish i index =>
      rcases step_publish hstep with ⟨x, -, rfl⟩
      have hgrow : ∀ j, (s.client j).delivered ≤ (s.order ++ [x]).length := fun j => by
        have := hdelivered j
        simp only [List.length_append, List.length_singleton]
        omega
      exact ⟨forall_setClient (P := fun _ c => c.delivered ≤ _) hgrow (hgrow i),
        forall_setClient (P := fun j c => ∀ x ∈ c.outbox, x.author = j) hauthor
          fun y hy => hauthor i y (List.mem_of_mem_eraseIdx hy)⟩
  | deliver i =>
      rcases step_deliver hstep with ⟨x, vc, hx, -, rfl⟩
      have hlt : (s.client i).delivered < s.order.length := (List.getElem?_eq_some_iff.mp hx).1
      exact ⟨forall_setClient (P := fun _ c => c.delivered ≤ _) hdelivered hlt,
        forall_setClient (P := fun j c => ∀ x ∈ c.outbox, x.author = j) hauthor (hauthor i)⟩

theorem inv_of_run {view : ι → UITextView α} {ok : Session ι α γ → SessionAction ι α → Prop}
    {as : List (SessionAction ι α)} (hrun : Run (step dev) ok (start view) as s) : Inv s :=
  hrun.invariant Inv (inv_start view) fun _ _ _ hinv _ hstep => inv_step hinv hstep

/-- What the guard says of edits holds of every submission. -/
theorem edit_of_run {view : ι → UITextView α} {ok : Session ι α γ → SessionAction ι α → Prop}
    {P : Edit α → Prop} (hok : ∀ s i edit, ok s (.edit i edit) → P edit)
    {as : List (SessionAction ι α)} (hrun : Run (step dev) ok (start view) as s) :
    (∀ x ∈ s.order, P x.edit) ∧ ∀ i, ∀ x ∈ (s.client i).outbox, P x.edit := by
  refine hrun.invariant (fun s => (∀ x ∈ s.order, P x.edit) ∧
    ∀ i, ∀ x ∈ (s.client i).outbox, P x.edit) ⟨by simp [start], by simp [start]⟩ ?_
  rintro s a s' ⟨horder, houtbox⟩ ha hstep
  have hsame : ∀ {j : ι} {c : Client ι α γ}, (∀ x ∈ c.outbox, P x.edit) →
      ∀ i, ∀ x ∈ ((s.setClient j c).client i).outbox, P x.edit := fun hc =>
    forall_setClient (P := fun _ c => ∀ x ∈ c.outbox, P x.edit) houtbox hc
  cases a with
  | join j =>
      obtain rfl := step_join hstep
      exact ⟨horder, hsame (houtbox j)⟩
  | edit j edit =>
      rcases step_edit hstep with ⟨vc, event, -, rfl⟩
      exact ⟨horder, hsame (forall_mem_concat (houtbox j) (hok s j edit ha))⟩
  | select j range =>
      obtain rfl := step_select hstep
      exact ⟨horder, hsame (houtbox j)⟩
  | publish j index =>
      rcases step_publish hstep with ⟨x, hx, rfl⟩
      exact ⟨forall_mem_concat horder (houtbox j x (List.mem_of_getElem? hx)),
        hsame fun y hy => houtbox j y (List.mem_of_mem_eraseIdx hy)⟩
  | deliver j =>
      rcases step_deliver hstep with ⟨x, vc, -, -, rfl⟩
      exact ⟨horder, hsame (houtbox j)⟩

/-! ## Who takes part -/

/-- Only the devices of clients that have joined take part in a step. -/
theorem step_congr_dev {dev' : ι → Device α γ}
    (hsame : ∀ i, (s.client i).joined = true → dev' i = dev i) (a : SessionAction ι α) :
    s.step dev' a = s.step dev a := by
  cases a with
  | edit i edit =>
      simp only [step]
      split_ifs with hjoined
      · rw [hsame i hjoined]
      · rfl
  | deliver i =>
      simp only [step]
      split_ifs with hjoined
      · rw [hsame i hjoined]
      · rfl
  | _ => rfl

/-- Nobody joins but by the step that does it. -/
theorem joined_of_step {a : SessionAction ι α} (hstep : s.step dev a = some s') {j : ι}
    (hjoined : (s'.client j).joined = true) : (s.client j).joined = true ∨ a = .join j := by
  cases a with
  | join i =>
      obtain rfl := step_join hstep
      by_cases hij : j = i
      · subst hij
        exact Or.inr rfl
      · rw [setClient_client_of_ne s _ hij] at hjoined
        exact Or.inl hjoined
  | edit i edit =>
      rcases step_edit hstep with ⟨vc, event, -, rfl⟩
      exact Or.inl ((setClient_client_congr Client.joined s (by rfl) j).symm.trans hjoined)
  | select i range =>
      obtain rfl := step_select hstep
      exact Or.inl ((setClient_client_congr Client.joined s (by rfl) j).symm.trans hjoined)
  | publish i index =>
      rcases step_publish hstep with ⟨x, -, rfl⟩
      exact Or.inl ((setClient_client_congr Client.joined s (by rfl) j).symm.trans hjoined)
  | deliver i =>
      rcases step_deliver hstep with ⟨x, vc, -, -, rfl⟩
      exact Or.inl ((setClient_client_congr Client.joined s (by rfl) j).symm.trans hjoined)

end Session

end WeWrite
