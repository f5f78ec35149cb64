import WeWrite.Library.Runs

/-!
# From the dialogs to the editor

`ViewController2` creates or joins a session and, from the completion handler, segues to
`ViewController`, whose `viewDidLoad` makes itself the delegate of the client and at its end
resumes the events.  While it is not paused, the client hands every event that reaches the
device to its delegate, and `ViewController2` does not implement the receive method.

The session goes on meanwhile: others join, broadcast, and their events reach the device at
any time after the service has let it in.  The completions modelled are the successful ones;
a failed request lets nobody in.

Main results:

- Theorem `Entry.inv_of_run`: where every event that has reached the device is.
- Theorem `Entry.nothing_lost_iff`: no event is lost exactly when the session was joined, or
  none of its events reached the device before the delegate was set.
- Theorem `Entry.creator_loses_event`: a run in which the creator loses one.
-/

namespace WeWrite

open Transition

variable {E : Type}

/-! ## The client and the three entry paths -/

/-- The two view controllers that become the delegate of the client. -/
inductive ClientDelegate where
  | viewController2
  | viewController
deriving DecidableEq, Repr

/-- Whether the delegate implements
`client:receivedEventWithOrderID:submissionRegistrationID:eventType:data:`. -/
def ClientDelegate.implementsReceivedEvent : ClientDelegate → Bool
  | .viewController2 => false
  | .viewController => true

/-- What of a `CollabrifyClient` decides where an event goes. -/
structure CollabrifyClient (E : Type) where
  delegate : ClientDelegate
  eventsArePaused : Bool
  pendingEvents : List E
deriving DecidableEq, Repr

/-- The three ways into a session. -/
inductive EntryPath where
  /-- `createSessionWithName:...` from the dialog with a password. -/
  | createWithPassword
  /-- `createSessionWithName:...` from the dialog without a password. -/
  | createWithoutPassword
  /-- `joinSessionWithID:...` in `joinSession:`. -/
  | join
deriving DecidableEq, Repr

/-- The `startPaused:` argument. -/
def EntryPath.startPaused : EntryPath → Bool
  | .createWithPassword => false
  | .createWithoutPassword => false
  | .join => true

/-- How far a participant has come. -/
inductive Stage where
  /-- In the dialogs of `ViewController2`. -/
  | dialogs
  /-- The service has let the device in; the completion handler has not run. -/
  | entered
  /-- The completion handler has performed the segue. -/
  | segued
  /-- `viewDidLoad` has made `ViewController` the delegate. -/
  | loading
  /-- `viewDidLoad` has resumed the events. -/
  | editing
deriving DecidableEq, Repr

/-- The delegate has been set by `ViewController`. -/
def Stage.loaded : Stage → Bool
  | .loading | .editing => true
  | _ => false

/-- Between being let in and resuming the events. -/
def Stage.inEntry : Stage → Bool
  | .entered | .segued | .loading => true
  | _ => false

theorem Stage.inEntry_of_not_loaded {stage : Stage} (hdialogs : stage ≠ .dialogs)
    (hloaded : stage.loaded = false) : stage.inEntry = true := by
  cases stage with
  | dialogs => exact (hdialogs rfl).elim
  | entered => rfl
  | segued => rfl
  | loading => cases hloaded
  | editing => cases hloaded

/-! ## State and actions -/

/-- A participant on its way into a session, and the session.  `handed` and `dropped` are
history: the events that `ViewController` has received and those that nobody has. -/
structure Entry (E : Type) where
  client : CollabrifyClient E
  stage : Stage
  others : Nat
  order : List E
  /-- How many events of the order have reached the device. -/
  arrived : Nat
  handed : List E
  dropped : List E

/-- What can happen meanwhile. -/
inductive EntryAction (E : Type) where
  /-- The service creates the session, or lets the participant join. -/
  | enter
  /-- Another participant joins. -/
  | otherJoins
  /-- A participant broadcasts. -/
  | broadcast (event : E)
  /-- The next event of the order reaches the device. -/
  | arrive
  /-- The completion handler runs without an error and performs the segue. -/
  | completion
  /-- `viewDidLoad` sets the delegate. -/
  | setDelegate
  /-- `viewDidLoad` resumes the events. -/
  | resumeEvents
deriving DecidableEq

namespace Entry

/-- In the dialogs.  A session to join has its creator already; a session to create does not
exist. -/
def start (path : EntryPath) : Entry E where
  client := { delegate := .viewController2, eventsArePaused := false, pendingEvents := [] }
  stage := .dialogs
  others := if path = .join then 1 else 0
  order := []
  arrived := 0
  handed := []
  dropped := []

/-- The client hands events to its delegate. -/
def hand (s : Entry E) (events : List E) : Entry E :=
  if s.client.delegate.implementsReceivedEvent then { s with handed := s.handed ++ events }
  else { s with dropped := s.dropped ++ events }

/-- One step; `none` when the action is impossible. -/
def step (path : EntryPath) (s : Entry E) : EntryAction E → Option (Entry E)
  | .enter =>
      if s.stage = .dialogs then
        some { s with
          stage := .entered
          client := { s.client with eventsArePaused := path.startPaused } }
      else none
  | .otherJoins =>
      if path = .join ∨ s.stage ≠ .dialogs then some { s with others := s.others + 1 } else none
  | .broadcast event =>
      if 0 < s.others ∨ s.stage = .editing then some { s with order := s.order ++ [event] }
      else none
  | .arrive =>
      if s.stage ≠ .dialogs then do
        let event ← s.order[s.arrived]?
        let s := { s with arrived := s.arrived + 1 }
        if s.client.eventsArePaused then
          some { s with
            client := { s.client with pendingEvents := s.client.pendingEvents ++ [event] } }
        else
          some (s.hand [event])
      else none
  | .completion =>
      if s.stage = .entered then some { s with stage := .segued } else none
  | .setDelegate =>
      if s.stage = .segued then
        some { s with stage := .loading, client := { s.client with delegate := .viewController } }
      else none
  | .resumeEvents =>
      if s.stage = .loading then
        let resumed := { s with
          stage := .editing
          client := { s.client with eventsArePaused := false, pendingEvents := [] } }
        some (resumed.hand s.client.pendingEvents)
      else none

/-! ## Where the events are -/

variable {path : EntryPath} {s s' : Entry E}

/-- Every event that has reached the device was dropped, then handed over, or still waits. -/
structure Inv (path : EntryPath) (s : Entry E) : Prop where
  kept : s.dropped ++ s.handed ++ s.client.pendingEvents = s.order.take s.arrived
  arrived : s.arrived ≤ s.order.length
  delegate : s.client.delegate = if s.stage.loaded then .viewController else .viewController2
  paused : s.client.eventsArePaused = (path.startPaused && s.stage.inEntry)
  pending : s.client.eventsArePaused = false → s.client.pendingEvents = []
  handed : s.stage.loaded = false → s.handed = []

theorem inv_start (path : EntryPath) : Inv path (start path : Entry E) where
  kept := rfl
  arrived := Nat.le_refl 0
  delegate := rfl
  paused := by simp [start, Stage.inEntry]
  pending _ := rfl
  handed _ := rfl

/-! ## What a step does -/

theorem step_enter (h : s.step path .enter = some s') :
    s.stage = .dialogs ∧ s' = { s with
      stage := .entered
      client := { s.client with eventsArePaused := path.startPaused } } := by
  simp only [step] at h
  split_ifs at h with hstage
  exact ⟨hstage, (Option.some.inj h).symm⟩

theorem step_otherJoins (h : s.step path .otherJoins = some s') :
    s' = { s with others := s.others + 1 } := by
  simp only [step] at h
  split_ifs at h with hexists
  exact (Option.some.inj h).symm

theorem step_broadcast {event : E} (h : s.step path (.broadcast event) = some s') :
    s' = { s with order := s.order ++ [event] } := by
  simp only [step] at h
  split_ifs at h with hsender
  exact (Option.some.inj h).symm

/-- The next event reaches the device: it waits, is handed over, or is dropped. -/
theorem step_arrive (hinv : Inv path s) (h : s.step path .arrive = some s') :
    ∃ event, s.order[s.arrived]? = some event ∧ s.stage ≠ .dialogs ∧
      s' = if s.client.eventsArePaused then
          { s with
            arrived := s.arrived + 1
            client := { s.client with pendingEvents := s.client.pendingEvents ++ [event] } }
        else if s.stage.loaded then
          { s with arrived := s.arrived + 1, handed := s.handed ++ [event] }
        else { s with arrived := s.arrived + 1, dropped := s.dropped ++ [event] } := by
  simp only [step, Option.bind_eq_bind] at h
  by_cases hstage : s.stage = .dialogs
  · simp [hstage] at h
  rw [if_pos hstage] at h
  rcases Option.bind_eq_some_iff.mp h with ⟨event, hevent, h⟩
  refine ⟨event, hevent, hstage, ?_⟩
  have hdelegate := hinv.delegate
  by_cases hpaused : s.client.eventsArePaused = true
  · rw [if_pos hpaused] at h ⊢
    exact (Option.some.inj h).symm
  · rw [if_neg hpaused] at h ⊢
    rw [← Option.some.inj h]
    by_cases hloaded : s.stage.loaded = true
    · simp [hand, hdelegate, hloaded, ClientDelegate.implementsReceivedEvent]
    · simp [hand, hdelegate, hloaded, ClientDelegate.implementsReceivedEvent]

theorem step_completion (h : s.step path .completion = some s') :
    s.stage = .entered ∧ s' = { s with stage := .segued } := by
  simp only [step] at h
  split_ifs at h with hstage
  exact ⟨hstage, (Option.some.inj h).symm⟩

theorem step_setDelegate (h : s.step path .setDelegate = some s') :
    s.stage = .segued ∧ s' = { s with
      stage := .loading
      client := { s.client with delegate := .viewController } } := by
  simp only [step] at h
  split_ifs at h with hstage
  exact ⟨hstage, (Option.some.inj h).symm⟩

/-- Resuming hands over what has waited. -/
theorem step_resumeEvents (hinv : Inv path s) (h : s.step path .resumeEvents = some s') :
    s.stage = .loading ∧ s' = { s with
      stage := .editing
      client := { s.client with eventsArePaused := false, pendingEvents := [] }
      handed := s.handed ++ s.client.pendingEvents } := by
  simp only [step] at h
  split_ifs at h with hstage
  have hdelegate := hinv.delegate
  rw [hstage] at hdelegate
  refine ⟨hstage, ?_⟩
  simpa [hand, hdelegate, Stage.loaded, ClientDelegate.implementsReceivedEvent] using h.symm

theorem inv_step {a : EntryAction E} (hinv : Inv path s) (hstep : s.step path a = some s') :
    Inv path s' := by
  rcases id hinv with ⟨hkept, harrived, hdelegate, hpaused, hpending, hhanded⟩
  cases a with
  | enter =>
      rcases step_enter hstep with ⟨hstage, rfl⟩
      rw [hstage] at hdelegate hpaused hhanded
      refine ⟨hkept, harrived, hdelegate, by simp [Stage.inEntry], fun _ => hpending ?_, hhanded⟩
      simp [hpaused, Stage.inEntry]
  | otherJoins =>
      obtain rfl := step_otherJoins hstep
      exact ⟨hkept, harrived, hdelegate, hpaused, hpending, hhanded⟩
  | broadcast event =>
      obtain rfl := step_broadcast hstep
      refine ⟨?_, ?_, hdelegate, hpaused, hpending, hhanded⟩
      · rw [hkept]
        exact (List.take_append_of_le_length harrived).symm
      · simp only [List.length_append, List.length_singleton]
        omega
  | arrive =>
      rcases step_arrive hinv hstep with ⟨event, hevent, hstage, rfl⟩
      have hlt : s.arrived < s.order.length := (List.getElem?_eq_some_iff.mp hevent).1
      have htake : s.order.take (s.arrived + 1) = s.order.take s.arrived ++ [event] := by
        rw [List.take_add_one, hevent]
        rfl
      split_ifs with hp hl
      · refine ⟨?_, hlt, hdelegate, hpaused, fun h => ?_, hhanded⟩
        · rw [htake, ← hkept]
          simp
        · simp [hp] at h
      · have hnone := hpending (by simpa using hp)
        refine ⟨?_, hlt, hdelegate, hpaused, hpending, fun h => ?_⟩
        · rw [htake, ← hkept, hnone]
          simp
        · simp [hl] at h
      · -- nothing has been handed over before, so the dropped ones come first
        have hnone := hpending (by simpa using hp)
        have hempty := hhanded (by simpa using hl)
        refine ⟨?_, hlt, hdelegate, hpaused, hpending, hhanded⟩
        rw [htake, ← hkept, hnone, hempty]
        simp
  | completion =>
      rcases step_completion hstep with ⟨hstage, rfl⟩
      rw [hstage] at hdelegate hpaused hhanded
      exact ⟨hkept, harrived, hdelegate, hpaused, hpending, hhanded⟩
  | setDelegate =>
      rcases step_setDelegate hstep with ⟨hstage, rfl⟩
      rw [hstage] at hpaused
      exact ⟨hkept, harrived, rfl, hpaused, hpending, fun h => by cases h⟩
  | resumeEvents =>
      rcases step_resumeEvents hinv hstep with ⟨hstage, rfl⟩
      rw [hstage] at hdelegate
      refine ⟨?_, harrived, hdelegate, by simp [Stage.inEntry], fun _ => rfl, fun h => by cases h⟩
      rw [← hkept]
      simp

theorem inv_of_run {as : List (EntryAction E)} {ok : Entry E → EntryAction E → Prop}
    (hrun : Run (step path) ok (start path) as s) : Inv path s :=
  hrun.invariant (Inv path) (inv_start path) fun _ _ _ hinv _ hstep => inv_step hinv hstep

/-- What has been handed over stays handed over, and what has been dropped stays dropped. -/
theorem history_step {a : EntryAction E} (hinv : Inv path s) (hstep : s.step path a = some s') :
    s.handed <+: s'.handed ∧ s.dropped <+: s'.dropped := by
  have hsame := List.prefix_refl s.handed
  have hsame' := List.prefix_refl s.dropped
  cases a with
  | enter =>
      rcases step_enter hstep with ⟨-, rfl⟩
      exact ⟨hsame, hsame'⟩
  | otherJoins =>
      obtain rfl := step_otherJoins hstep
      exact ⟨hsame, hsame'⟩
  | broadcast event =>
      obtain rfl := step_broadcast hstep
      exact ⟨hsame, hsame'⟩
  | arrive =>
      rcases step_arrive hinv hstep with ⟨event, -, -, rfl⟩
      split_ifs with hpaused hloaded
      · exact ⟨hsame, hsame'⟩
      · exact ⟨List.prefix_append s.handed [event], hsame'⟩
      · exact ⟨hsame, List.prefix_append s.dropped [event]⟩
  | completion =>
      rcases step_completion hstep with ⟨-, rfl⟩
      exact ⟨hsame, hsame'⟩
  | setDelegate =>
      rcases step_setDelegate hstep with ⟨-, rfl⟩
      exact ⟨hsame, hsame'⟩
  | resumeEvents =>
      rcases step_resumeEvents hinv hstep with ⟨-, rfl⟩
      exact ⟨List.prefix_append s.handed _, hsame'⟩

/-- Only resuming the events opens the editor. -/
theorem editing_step {a : EntryAction E} (hne : a ≠ .resumeEvents) (hinv : Inv path s)
    (hstep : s.step path a = some s') : s'.stage = .editing ↔ s.stage = .editing := by
  cases a with
  | enter =>
      rcases step_enter hstep with ⟨hstage, rfl⟩
      simp [hstage]
  | otherJoins =>
      obtain rfl := step_otherJoins hstep
      exact Iff.rfl
  | broadcast event =>
      obtain rfl := step_broadcast hstep
      exact Iff.rfl
  | arrive =>
      rcases step_arrive hinv hstep with ⟨event, -, -, rfl⟩
      split_ifs <;> exact Iff.rfl
  | completion =>
      rcases step_completion hstep with ⟨hstage, rfl⟩
      simp [hstage]
  | setDelegate =>
      rcases step_setDelegate hstep with ⟨hstage, rfl⟩
      simp [hstage]
  | resumeEvents => exact absurd rfl hne

/-- A participant who is let in, comes further or is reached by an event leaves the order and the
others alone. -/
theorem own_step {a : EntryAction E} (hjoins : a ≠ .otherJoins)
    (hbroadcast : ∀ event, a ≠ .broadcast event) (hinv : Inv path s)
    (hstep : s.step path a = some s') :
    (s.stage = .dialogs ↔ a = .enter) ∧ s'.stage ≠ .dialogs ∧ s'.others = s.others ∧
      s'.order = s.order := by
  cases a with
  | enter =>
      rcases step_enter hstep with ⟨hstage, rfl⟩
      simp [hstage]
  | otherJoins => exact absurd rfl hjoins
  | broadcast event => exact absurd rfl (hbroadcast event)
  | arrive =>
      rcases step_arrive hinv hstep with ⟨event, -, hstage, rfl⟩
      split_ifs <;> simp [hstage]
  | completion =>
      rcases step_completion hstep with ⟨hstage, rfl⟩
      simp [hstage]
  | setDelegate =>
      rcases step_setDelegate hstep with ⟨hstage, rfl⟩
      simp [hstage]
  | resumeEvents =>
      rcases step_resumeEvents hinv hstep with ⟨hstage, rfl⟩
      simp [hstage]

/-- Nobody goes back to the dialogs. -/
theorem stage_ne_dialogs_step {a : EntryAction E} (hinv : Inv path s) (hstage : s.stage ≠ .dialogs)
    (hstep : s.step path a = some s') : s'.stage ≠ .dialogs := by
  by_cases hjoins : a = .otherJoins
  · subst hjoins
    obtain rfl := step_otherJoins hstep
    exact hstage
  · by_cases hbroadcast : ∃ event, a = .broadcast event
    · rcases hbroadcast with ⟨event, rfl⟩
      obtain rfl := step_broadcast hstep
      exact hstage
    · push Not at hbroadcast
      exact (own_step hjoins hbroadcast hinv hstep).2.1

/-- Whoever has been let in can open the editor before an event reaches the device. -/
theorem exists_load (path : EntryPath) (hstage : s.stage = .entered) :
    ∃ e₁ e₂ e₃, s.step path .completion = some e₁ ∧ e₁.step path .setDelegate = some e₂ ∧
      e₂.step path .resumeEvents = some e₃ ∧ e₃.arrived = s.arrived := by
  simp only [step, if_pos hstage, Option.some.injEq, exists_and_left, exists_eq_left', ↓reduceIte]
  unfold hand
  split_ifs
  · rfl
  · rfl

/-- In the editor the next event can reach the device, and is handed over. -/
theorem exists_arrive {event : E} (hinv : Inv path s) (hstage : s.stage = .editing)
    (hevent : s.order[s.arrived]? = some event) :
    ∃ e, s.step path .arrive = some e ∧ e.arrived = s.arrived + 1 ∧
      e.handed = s.handed ++ [event] ∧ e.dropped = s.dropped := by
  have hpaused : s.client.eventsArePaused = false := by
    rw [hinv.paused, hstage]
    simp [Stage.inEntry]
  have hdelegate : s.client.delegate = .viewController := by
    rw [hinv.delegate, hstage]
    rfl
  simp [step, hand, hstage, hevent, hpaused, hdelegate, ClientDelegate.implementsReceivedEvent]

/-- What the editor has been handed are events of the order, from the one after the last that was
dropped. -/
theorem Inv.handed_prefix (hinv : Inv path s) :
    s.handed <+: s.order.drop s.dropped.length := by
  have hwhole : s.order = s.dropped ++ (s.handed ++ (s.client.pendingEvents ++
      s.order.drop s.arrived)) := by
    rw [← List.append_assoc, ← List.append_assoc, hinv.kept, List.take_append_drop]
  rw [hwhole, List.drop_left]
  exact List.prefix_append _ _

/-- In the editor nothing is held back. -/
theorem Inv.pending_of_editing (hinv : Inv path s) (hstage : s.stage = .editing) :
    s.client.pendingEvents = [] := by
  apply hinv.pending
  rw [hinv.paused, hstage]
  simp [Stage.inEntry]

/-! ## Which events are dropped -/

/-- Events reach the device only after the delegate has been set. -/
def NoEarlyArrival (as : List (EntryAction E)) : Prop :=
  ∀ before after, as = before ++ .arrive :: after → .setDelegate ∈ before

theorem noEarlyArrival_concat {as : List (EntryAction E)} {a : EntryAction E} :
    NoEarlyArrival (as ++ [a]) ↔ NoEarlyArrival as ∧ (a = .arrive → .setDelegate ∈ as) := by
  constructor
  · intro h
    refine ⟨fun before after has => ?_, fun ha => ?_⟩
    · exact h before (after ++ [a]) (by rw [has]; simp)
    · exact h as [] (by rw [ha])
  · rintro ⟨has, ha⟩ before after heq
    rcases List.eq_nil_or_concat after with rfl | ⟨after', b, rfl⟩
    · rcases List.append_inj' heq rfl with ⟨rfl, hlast⟩
      exact ha (List.head_eq_of_cons_eq hlast)
    · rw [List.concat_eq_append, ← List.cons_append, ← List.append_assoc] at heq
      exact has before after' (List.append_inj' heq rfl).1

/-- The delegate has been set when the run says so, and events were dropped when one reached
the device of a creator before that. -/
theorem loaded_and_dropped {as : List (EntryAction E)} {ok : Entry E → EntryAction E → Prop}
    (hrun : Run (step path) ok (start path) as s) :
    (s.stage.loaded = true ↔ .setDelegate ∈ as) ∧
      (s.dropped = [] ↔ path = .join ∨ NoEarlyArrival as) := by
  induction hrun with
  | nil =>
      refine ⟨by simp [start, Stage.loaded], ?_⟩
      simp [start, NoEarlyArrival]
  | @snoc as s s' a hrun _ hstep ih =>
      rcases ih with ⟨hloaded, hdropped⟩
      have hinv := inv_of_run hrun
      rw [List.mem_append, List.mem_singleton, ← hloaded, noEarlyArrival_concat, ← hloaded]
      cases a with
      | enter =>
          rcases step_enter hstep with ⟨hstage, rfl⟩
          exact ⟨by simp [hstage, Stage.loaded], by simpa using hdropped⟩
      | otherJoins =>
          obtain rfl := step_otherJoins hstep
          exact ⟨by simp, by simpa using hdropped⟩
      | broadcast event =>
          obtain rfl := step_broadcast hstep
          exact ⟨by simp, by simpa using hdropped⟩
      | arrive =>
          rcases step_arrive hinv hstep with ⟨event, -, hstage, rfl⟩
          by_cases hp : s.client.eventsArePaused = true
          · -- only a participant who joined is paused
            have hjoin : path = .join := by
              have hpaused := hinv.paused
              rw [hp] at hpaused
              cases path <;> simp [EntryPath.startPaused] at hpaused ⊢
            rw [if_pos hp]
            exact ⟨by simp, by simpa [hjoin] using hdropped.mpr (Or.inl hjoin)⟩
          · rw [if_neg hp]
            by_cases hl : s.stage.loaded = true
            · rw [if_pos hl]
              exact ⟨by simp, by simpa [hl] using hdropped⟩
            · rw [if_neg hl]
              have hcreator : path ≠ .join := by
                rintro rfl
                have hpaused := hinv.paused
                rw [Stage.inEntry_of_not_loaded hstage (by simpa using hl)] at hpaused
                exact hp hpaused
              exact ⟨by simp, by simp [hl, hcreator]⟩
      | completion =>
          rcases step_completion hstep with ⟨hstage, rfl⟩
          exact ⟨by simp [hstage, Stage.loaded], by simpa using hdropped⟩
      | setDelegate =>
          rcases step_setDelegate hstep with ⟨hstage, rfl⟩
          exact ⟨by simp [Stage.loaded], by simpa using hdropped⟩
      | resumeEvents =>
          rcases step_resumeEvents hinv hstep with ⟨hstage, rfl⟩
          exact ⟨by simp [hstage, Stage.loaded], by simpa using hdropped⟩

/-! ## What is lost -/

/-- What `ViewController` has received, then what the client holds back, then what has not
reached the device, is the whole order; and in the editor nothing is held back. -/
structure NothingLost (s : Entry E) : Prop where
  kept : s.handed ++ s.client.pendingEvents ++ s.order.drop s.arrived = s.order
  editing : s.stage = .editing → s.handed = s.order.take s.arrived

theorem nothingLost_iff_dropped (hinv : Inv path s) : NothingLost s ↔ s.dropped = [] := by
  have hkept := hinv.kept
  constructor
  · rintro ⟨hwhole, -⟩
    have hlength := congrArg List.length hkept
    have hlength' := congrArg List.length hwhole
    have harrived := hinv.arrived
    simp only [List.length_append, List.length_take, List.length_drop] at hlength hlength'
    exact List.eq_nil_of_length_eq_zero (by omega)
  · intro hnone
    rw [hnone, List.nil_append] at hkept
    refine ⟨by rw [hkept, List.take_append_drop], fun hstage => ?_⟩
    have hpending := hinv.pending (by rw [hinv.paused, hstage]; simp [Stage.inEntry])
    rw [← hkept, hpending, List.append_nil]

/-- On every path into a session, no event is lost exactly when the session was joined, or
events reached the device only after the delegate had been set. -/
theorem nothing_lost_iff (path : EntryPath) (as : List (EntryAction E)) (s : Entry E)
    (hrun : Run (step path) anyAction (start path) as s) :
    NothingLost s ↔ path = .join ∨ NoEarlyArrival as := by
  rw [nothingLost_iff_dropped (inv_of_run hrun)]
  exact (loaded_and_dropped hrun).2

/-- A participant joins; an event reaches the device before the editor is open. -/
theorem nothing_lost_iff_join :
    ∃ s : Entry Nat, Run (step .join) anyAction (start .join)
        [.enter, .broadcast 7, .arrive, .completion, .setDelegate, .resumeEvents] s ∧
      s.handed = [7] ∧ NothingLost s := by
  let as : List (EntryAction Nat) :=
    [.enter, .broadcast 7, .arrive, .completion, .setDelegate, .resumeEvents]
  obtain ⟨s, hs, hhanded⟩ : ∃ s : Entry Nat, replay (step .join) (start .join) as = some s ∧
      s.handed = [7] := ⟨_, rfl, rfl⟩
  have hrun := Run.of_replay hs
  exact ⟨s, hrun, hhanded, (nothing_lost_iff _ _ _ hrun).mpr (Or.inl rfl)⟩

/-- The creator of a session without a password loses the event of a participant who joins
and types before the editor of the creator has loaded. -/
theorem creator_loses_event :
    ¬ ∀ (path : EntryPath) (as : List (EntryAction Nat)) (s : Entry Nat),
      Run (step path) anyAction (start path) as s → NothingLost s := by
  intro h
  let as : List (EntryAction Nat) :=
    [.enter, .otherJoins, .broadcast 7, .arrive, .completion, .setDelegate, .resumeEvents]
  obtain ⟨s, hs, hstage, hhanded, horder⟩ : ∃ s : Entry Nat,
      replay (step .createWithoutPassword) (start .createWithoutPassword) as = some s ∧
        s.stage = .editing ∧ s.handed = [] ∧ s.order.take s.arrived = [7] :=
    ⟨_, rfl, rfl, rfl, rfl⟩
  have hlost := (h _ as s (Run.of_replay hs)).editing hstage
  rw [hhanded, horder] at hlost
  cases hlost

end Entry

end WeWrite
