import WeWrite.Entry.Dialogs
import WeWrite.Library.Runs

/-!
# The entry screen in use

A user opens dialogs and answers them in any order, as often as they like, and the service
answers the requests in any order, with any outcome.  Everything that a handler or a block
starts is under way until it is answered.

Every alert and every listing belongs to one attempt of the user: the answers that led to it,
and the session that its listing found.  The source does not keep this; it keeps one session
for all attempts.

Main results:

- Theorem `EntryScreen.segues_eq`: the segues of a run, from its actions.
- Theorem `EntryScreen.enters_in_session_iff`: every segue of a run follows a request that
  succeeded exactly when no request to join failed otherwise than by its password.
-/

namespace WeWrite

open Transition ViewController2

/-! ## What is under way -/

/-- What the user has done in one attempt: the alerts answered, and the session that the listing
found under the name. -/
structure Attempt where
  answers : List AlertAnswer
  found : Option CollabrifySession
deriving DecidableEq, Repr

/-- Nothing done yet. -/
def Attempt.new : Attempt :=
  ⟨[], none⟩

/-- One more alert answered. -/
def Attempt.answered (attempt : Attempt) (answer : AlertAnswer) : Attempt :=
  { attempt with answers := attempt.answers ++ [answer] }

/-- The listing of the attempt has found a session, or none. -/
def Attempt.listed (attempt : Attempt) (found : Option CollabrifySession) : Attempt :=
  { attempt with found := found }

/-- Something under way, with the attempt it belongs to. -/
structure Underway (T : Type) where
  what : T
  attempt : Attempt
deriving DecidableEq, Repr

/-- A request to join a session. -/
structure JoinCall where
  sessionID : Int
  password : NSString Unichar
  attempt : Attempt
deriving DecidableEq, Repr

/-- What starts something. -/
inductive Cause where
  /-- The user taps a button or answers an alert. -/
  | user
  /-- A listing completes. -/
  | listed
  /-- A request to create a session completes. -/
  | created (error : Option CollabrifyError)
  /-- A request to join a session completes. -/
  | joined (error : Option CollabrifyError)
deriving DecidableEq, Repr

/-- The completion of a request to create or to join a session that succeeded. -/
def Cause.Succeeded : Cause → Prop
  | .created error | .joined error => error = none
  | .user | .listed => False

/-- `ViewController2` with its alerts on the screen and its requests not yet answered.
`returned`, `joinCalls` and `segues` are history: the sessions that successful listings have
returned, the requests to join, and what performed a segue. -/
structure EntryScreen where
  vc : ViewController2
  alerts : List (Underway UIAlertView)
  listings : List (Underway ListCompletion)
  creates : Nat
  joins : Nat
  returned : List CollabrifySession
  joinCalls : List JoinCall
  segues : List Cause

/-- What can happen. -/
inductive EntryScreenAction where
  | createGroupClick (hasNetworkConnection : Bool)
  | joinGroupClicked (hasNetworkConnection : Bool)
  /-- The user answers an alert. -/
  | clickedButton (index buttonIndex : Nat) (texts : List (NSString Unichar))
  /-- A listing completes: with an error and no list, or with a list. -/
  | listed (index : Nat) (outcome : Except CollabrifyError (List CollabrifySession))
  | created (error : Option CollabrifyError)
  | joined (error : Option CollabrifyError)

namespace EntryScreen

/-- `viewDidLoad`. -/
def start : EntryScreen where
  vc := viewDidLoad
  alerts := []
  listings := []
  creates := 0
  joins := 0
  returned := []
  joinCalls := []
  segues := []

/-- Something is started on behalf of an attempt. -/
def carryOut (s : EntryScreen) (cause : Cause) (attempt : Attempt) : Option Started → EntryScreen
  | none => s
  | some (.showAlert alert) => { s with alerts := s.alerts ++ [⟨alert, attempt⟩] }
  | some (.listSessions _ completion) => { s with listings := s.listings ++ [⟨completion, attempt⟩] }
  | some (.createSession _ _ _ _ _) => { s with creates := s.creates + 1 }
  | some (.joinSession sessionID password _) =>
      { s with
        joins := s.joins + 1
        joinCalls := s.joinCalls ++ [⟨sessionID, password, attempt⟩] }
  | some (.segue _) => { s with segues := s.segues ++ [cause] }

/-- The session that a listing finds for its attempt. -/
def foundBy (sessionList : Option (List CollabrifySession)) :
    ListCompletion → Option CollabrifySession
  | .join response =>
      sessionList.bind fun sessions =>
        sessions.find? fun session => session.sessionName = response
  | .createWithPassword _ _ | .createWithoutPassword _ => none

/-- One step; `none` when the action is impossible. -/
def step (s : EntryScreen) : EntryScreenAction → Option EntryScreen
  | .createGroupClick hasNetworkConnection =>
      some (s.carryOut .user .new (createGroupClick hasNetworkConnection))
  | .joinGroupClicked hasNetworkConnection =>
      some (s.carryOut .user .new (joinGroupClicked hasNetworkConnection))
  | .clickedButton index buttonIndex texts => do
      let alert ← s.alerts[index]?
      let answer : AlertAnswer := ⟨alert.what, buttonIndex, texts⟩
      let s' := { s with alerts := s.alerts.eraseIdx index }
      if answer.Possible then
        if alert.what.delegated then
          some (s'.carryOut .user (alert.attempt.answered answer) (s.vc.clickedButtonAtIndex answer))
        else some s'
      else none
  | .listed index outcome => do
      let listing ← s.listings[index]?
      let sessionList := outcome.toOption
      let attempt := listing.attempt.listed (foundBy sessionList listing.what)
      let (vc, started) := s.vc.listed sessionList listing.what
      let s' := { s with
        vc := vc
        listings := s.listings.eraseIdx index
        returned := s.returned ++ sessionList.getD [] }
      some (s'.carryOut .listed attempt started)
  | .created error =>
      if 0 < s.creates then
        let s' := { s with creates := s.creates - 1 }
        some (s'.carryOut (.created error) .new (created error))
      else none
  | .joined error =>
      if 0 < s.joins then
        let s' := { s with joins := s.joins - 1 }
        some (s'.carryOut (.joined error) .new (joined error))
      else none

/-! ## What a step does -/

variable {s s' : EntryScreen}

theorem step_clickedButton {index buttonIndex : Nat} {texts : List (NSString Unichar)}
    (h : s.step (.clickedButton index buttonIndex texts) = some s') :
    ∃ alert, s.alerts[index]? = some alert ∧
      s' = carryOut { s with alerts := s.alerts.eraseIdx index } .user
        (alert.attempt.answered ⟨alert.what, buttonIndex, texts⟩)
        (if alert.what.delegated then s.vc.clickedButtonAtIndex ⟨alert.what, buttonIndex, texts⟩
          else none) := by
  simp only [step, Option.bind_eq_bind, Option.bind_eq_some_iff] at h
  rcases h with ⟨alert, halert, h⟩
  refine ⟨alert, halert, ?_⟩
  split_ifs at h ⊢ with hpossible hdelegated
  · exact (Option.some.inj h).symm
  · exact (Option.some.inj h).symm

theorem step_listed {index : Nat}
    {outcome : Except CollabrifyError (List CollabrifySession)}
    (h : s.step (.listed index outcome) = some s') :
    ∃ listing vc started, s.listings[index]? = some listing ∧
      ListingStarts s.vc listing.what outcome.toOption vc started ∧
      s' = carryOut
        { s with
          vc := vc
          listings := s.listings.eraseIdx index
          returned := s.returned ++ outcome.toOption.getD [] }
        .listed (listing.attempt.listed (foundBy outcome.toOption listing.what)) (some started) := by
  simp only [step, Option.bind_eq_bind, Option.bind_eq_some_iff, Option.some.injEq] at h
  rcases h with ⟨listing, hlisting, h⟩
  exact ⟨listing, _, _, hlisting, listed_spec s.vc outcome.toOption listing.what, h.symm⟩

theorem step_created {error : Option CollabrifyError} (h : s.step (.created error) = some s') :
    s' = carryOut { s with creates := s.creates - 1 } (.created error) .new (created error) := by
  simp only [step] at h
  split_ifs at h with hpending
  exact (Option.some.inj h).symm

theorem step_joined {error : Option CollabrifyError} (h : s.step (.joined error) = some s') :
    s' = carryOut { s with joins := s.joins - 1 } (.joined error) .new (joined error) := by
  simp only [step] at h
  split_ifs at h with hpending
  exact (Option.some.inj h).symm

/-! ## The segues of a run -/

/-- The segue that is among what is started. -/
def seguesStarted (cause : Cause) : Option Started → List Cause
  | some (.segue _) => [cause]
  | _ => []

@[simp]
theorem carryOut_segues (s : EntryScreen) (cause : Cause) (attempt : Attempt)
    (started : Option Started) :
    (s.carryOut cause attempt started).segues = s.segues ++ seguesStarted cause started := by
  cases started with
  | none => simp [carryOut, seguesStarted]
  | some what => cases what <;> simp [carryOut, seguesStarted]

/-- The segue that an action performs. -/
def seguesOf : EntryScreenAction → List Cause
  | .created error => seguesStarted (.created error) (ViewController2.created error)
  | .joined error => seguesStarted (.joined error) (ViewController2.joined error)
  | _ => []

/-- No answer to an alert performs a segue. -/
theorem seguesStarted_clickedButtonAtIndex (cause : Cause) (vc : ViewController2)
    (answer : AlertAnswer) : seguesStarted cause (vc.clickedButtonAtIndex answer) = [] := by
  cases hstarted : vc.clickedButtonAtIndex answer with
  | none => rfl
  | some started =>
      cases clickedButtonAtIndex_spec hstarted with
      | creatingAlert alert _ => rfl
      | creatingList tags completion _ => rfl
      | joinList _ _ => rfl
      | join _ => rfl

/-- No listing performs a segue. -/
theorem seguesStarted_listed {cause : Cause} {vc vc' : ViewController2}
    {completion : ListCompletion} {sessionList : Option (List CollabrifySession)}
    {started : Started} (h : ListingStarts vc completion sessionList vc' started) :
    seguesStarted cause (some started) = [] := by
  cases h with
  | creatingAlert _ _ => rfl
  | create _ _ groupName password _ => rfl
  | joinFailed response => rfl
  | joinAsked response sessions session _ _ => rfl
  | joinOpen response sessions session _ _ => rfl
  | joinNotFound response sessions _ => rfl

theorem step_segues {a : EntryScreenAction} (h : s.step a = some s') :
    s'.segues = s.segues ++ seguesOf a := by
  cases a with
  | createGroupClick hasNetworkConnection =>
      obtain rfl := Option.some.inj h
      cases hasNetworkConnection <;> simp [createGroupClick, seguesStarted, seguesOf]
  | joinGroupClicked hasNetworkConnection =>
      obtain rfl := Option.some.inj h
      cases hasNetworkConnection <;> simp [joinGroupClicked, seguesStarted, seguesOf]
  | clickedButton index buttonIndex texts =>
      rcases step_clickedButton h with ⟨alert, -, rfl⟩
      rw [carryOut_segues]
      split_ifs
      · rw [seguesStarted_clickedButtonAtIndex]
        rfl
      · rfl
  | listed index outcome =>
      rcases step_listed h with ⟨listing, vc, started, -, hstarts, rfl⟩
      rw [carryOut_segues, seguesStarted_listed hstarts]
      rfl
  | created error =>
      rw [step_created h, carryOut_segues]
      rfl
  | joined error =>
      rw [step_joined h, carryOut_segues]
      rfl

/-- The segues of a run are those of its actions. -/
theorem segues_eq {ok : EntryScreen → EntryScreenAction → Prop} {as : List EntryScreenAction}
    (hrun : Run step ok start as s) : s.segues = as.flatMap seguesOf := by
  induction hrun with
  | nil => rfl
  | snoc _ _ hstep ih =>
      rw [step_segues hstep, ih, List.flatMap_append, List.flatMap_singleton]

theorem seguesOf_created (error : Option CollabrifyError) :
    seguesOf (.created error) = if error = none then [.created none] else [] := by
  cases error <;> rfl

theorem seguesOf_joined (error : Option CollabrifyError) :
    seguesOf (.joined error) =
      if errorType error = CollabrifyServerSideErrorInvalidSessionPassword then []
      else [.joined error] := by
  simp only [seguesOf, ViewController2.joined]
  split_ifs <;> rfl

/-- An action performs no segue outside a session unless it is a failed join whose error is not
the one about the password. -/
theorem seguesOf_succeeded_iff {a : EntryScreenAction} :
    (∀ cause ∈ seguesOf a, cause.Succeeded) ↔
      ∀ error, a = .joined (some error) →
        error.type = CollabrifyServerSideErrorInvalidSessionPassword := by
  cases a with
  | createGroupClick hasNetworkConnection => simp [seguesOf]
  | joinGroupClicked hasNetworkConnection => simp [seguesOf]
  | clickedButton index buttonIndex texts => simp [seguesOf]
  | listed index outcome => simp [seguesOf]
  | created error =>
      rw [seguesOf_created]
      split_ifs <;> simp [Cause.Succeeded]
  | joined error =>
      rw [seguesOf_joined]
      cases error with
      | none =>
          -- a missing error has the type zero
          rw [if_neg (by decide)]
          simp [Cause.Succeeded]
      | some error =>
          simp only [errorType]
          split_ifs with hpassword
          · simp [hpassword]
          · simp [Cause.Succeeded, hpassword]

/-- In every run, the segue to the editor is performed only from the completion of a request
that succeeded, exactly when every error of a request to join is the one about the password. -/
theorem enters_in_session_iff (as : List EntryScreenAction) (s : EntryScreen)
    (hrun : Run step anyAction start as s) :
    (∀ cause ∈ s.segues, cause.Succeeded) ↔
      ∀ error, .joined (some error) ∈ as →
        error.type = CollabrifyServerSideErrorInvalidSessionPassword := by
  rw [segues_eq hrun]
  constructor
  · intro hall error hmem
    refine seguesOf_succeeded_iff.mp ?_ error rfl
    intro cause hcause
    exact hall cause (List.mem_flatMap.mpr ⟨_, hmem, hcause⟩)
  · intro hpassword cause hcause
    rcases List.mem_flatMap.mp hcause with ⟨a, ha, hcause⟩
    refine seguesOf_succeeded_iff.mpr ?_ cause hcause
    rintro error rfl
    exact hpassword error ha

/-- A user asks for the group `g`, which has no password; the request to join it completes with
`error`. -/
def joinOpenGroup (error : Option CollabrifyError) : List EntryScreenAction :=
  [] ++ [.joinGroupClicked true] ++ [.clickedButton 0 0 [[103]]] ++
    [.listed 0 (.ok [⟨7, [103], false⟩])] ++ [.joined error]

/-- The request succeeds. -/
theorem enters_in_session_iff_join :
    ∃ s, Run step anyAction start (joinOpenGroup none) s ∧ s.segues = [.joined none] ∧
      ∀ cause ∈ s.segues, cause.Succeeded := by
  have hrun : Run step anyAction start (joinOpenGroup none) _ :=
    .snoc (.snoc (.snoc (.snoc .nil trivial rfl) trivial rfl) trivial rfl) trivial rfl
  refine ⟨_, hrun, rfl, (enters_in_session_iff _ _ hrun).mpr ?_⟩
  intro error hmem
  simp [joinOpenGroup] at hmem

/-- The session has ended meanwhile, and the request fails with an error about its ID. -/
theorem failed_join_enters :
    ¬ ∀ (as : List EntryScreenAction) (s : EntryScreen), Run step anyAction start as s →
      ∀ cause ∈ s.segues, cause.Succeeded := by
  intro h
  have hrun : Run step anyAction start (joinOpenGroup (some ⟨25⟩)) _ :=
    .snoc (.snoc (.snoc (.snoc .nil trivial rfl) trivial rfl) trivial rfl) trivial rfl
  have hentered := h _ _ hrun (.joined (some ⟨25⟩)) (List.mem_singleton.mpr rfl)
  cases hentered

end EntryScreen

end WeWrite
