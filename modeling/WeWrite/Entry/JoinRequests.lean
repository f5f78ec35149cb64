import WeWrite.Entry.DialogRuns

/-!
# Which session is joined

A user who wants to join a group types its name, and its password if it has one, and may cancel
in both dialogs.  The listing in between finds the session and puts it into the one property
that all attempts share; the request to join reads it from there.

Main results:

- Theorem `EntryScreen.joinInv_of_run`: what every open dialog and every listing of the join flow
  knows of its attempt.
- Theorem `EntryScreen.joins_target_iff`: in a run every request to join is the one that the user
  asked for exactly when no listing of a join fails, and every password dialog is answered with
  Join while the shared property still holds the session of its attempt.
-/

namespace WeWrite

open Transition ViewController2

/-! ## Attempts -/

/-- What the user typed into the first text field of the first alert titled like `alert`. -/
def Attempt.typedInto (attempt : Attempt) (alert : UIAlertView) : Option (NSString Unichar) :=
  (attempt.answers.find? fun answer => answer.alertView.title = alert.title).map
    (·.textFieldAtIndex 0)

theorem Attempt.typedInto_answered (attempt : Attempt) (answer : AlertAnswer)
    (alert : UIAlertView) :
    (attempt.answered answer).typedInto alert = (attempt.typedInto alert).or
      (if answer.alertView.title = alert.title then some (answer.textFieldAtIndex 0) else none) := by
  rw [typedInto, answered, List.find?_append, Option.map_or]
  by_cases htitle : answer.alertView.title = alert.title
  · simp [typedInto, htitle]
  · simp [typedInto, htitle]

/-- The user has typed `name` as the name of a group to join, and has pressed the first button
of every alert. -/
structure Attempt.AskedFor (attempt : Attempt) (name : NSString Unichar) : Prop where
  typedName : attempt.typedInto joinGroupAlert = some name
  noPassword : attempt.typedInto joinSessionWithPassword = none
  joined : ∀ answer ∈ attempt.answers, answer.buttonIndex = 0

/-- What a listing finds changes nothing of what the user has done. -/
theorem Attempt.AskedFor.listed {attempt : Attempt} {name : NSString Unichar}
    (h : attempt.AskedFor name) (found : Option CollabrifySession) :
    (attempt.listed found).AskedFor name :=
  ⟨h.typedName, h.noPassword, h.joined⟩

/-- A request to join is the one the user asked for: its session was returned to its attempt
under the name typed there, the first button, Join, was pressed in every dialog, and the password
is the one typed, or empty for a session that has none. -/
structure JoinCall.Right (call : JoinCall) (returned : List CollabrifySession) : Prop where
  session : ∃ session ∈ returned, call.attempt.found = some session ∧
    call.sessionID = session.sessionID ∧
    call.attempt.typedInto joinGroupAlert = some session.sessionName ∧
    (call.attempt.typedInto joinSessionWithPassword = none → session.isPasswordProtected = false)
  joined : ∀ answer ∈ call.attempt.answers, answer.buttonIndex = 0
  password : call.password = (call.attempt.typedInto joinSessionWithPassword).getD []

namespace EntryScreen

/-! ## The invariant of the join flow -/

/-- What an alert of the join flow knows of its attempt: nothing was answered before the dialog
for the name, and the dialog for a password belongs to a session that was found. -/
structure AlertFits (returned : List CollabrifySession) (alert : UIAlertView) (attempt : Attempt) :
    Prop where
  name : alert.title = joinGroupAlert.title → attempt = .new
  password : alert.title = joinSessionWithPassword.title → alert = joinSessionWithPassword ∧
    ∃ session ∈ returned, attempt.found = some session ∧ attempt.AskedFor session.sessionName

theorem AlertFits.mono {returned returned' : List CollabrifySession} {alert : UIAlertView}
    {attempt : Attempt} (h : AlertFits returned alert attempt) (hsub : returned ⊆ returned') :
    AlertFits returned' alert attempt := by
  refine ⟨h.name, fun htitle => ?_⟩
  rcases h.password htitle with ⟨halert, session, hmem, hfound⟩
  exact ⟨halert, session, hsub hmem, hfound⟩

/-- An alert outside the join flow belongs to any attempt. -/
theorem alertFits_of_other {returned : List CollabrifySession} {alert : UIAlertView}
    {attempt : Attempt} (hother : ¬ alert.IsJoinDialog) : AlertFits returned alert attempt where
  name htitle := (hother (Or.inl htitle)).elim
  password htitle := (hother (Or.inr htitle)).elim

/-- A listing of the join flow belongs to an attempt with its name. -/
def ListingFits (completion : ListCompletion) (attempt : Attempt) : Prop :=
  ∀ response, completion = .join response → attempt.AskedFor response

/-- What is under way in the join flow fits its attempt, and what a listing found for an attempt
had been returned. -/
structure JoinInv (s : EntryScreen) : Prop where
  alerts : ∀ alert ∈ s.alerts, AlertFits s.returned alert.what alert.attempt
  listings : ∀ listing ∈ s.listings, ListingFits listing.what listing.attempt
  calls : ∀ call ∈ s.joinCalls, ∀ session, call.attempt.found = some session →
    session ∈ s.returned

/-- What is started fits the attempt it is started for. -/
def StartedFits (returned : List CollabrifySession) (attempt : Attempt) : Option Started → Prop
  | some (.showAlert alert) => AlertFits returned alert attempt
  | some (.listSessions _ completion) => ListingFits completion attempt
  | some (.joinSession _ _ _) =>
      ∀ session, attempt.found = some session → session ∈ returned
  | some (.createSession _ _ _ _ _) | some (.segue _) | none => True

theorem joinInv_carryOut {s : EntryScreen} {cause : Cause} {attempt : Attempt}
    {started : Option Started} (hinv : JoinInv s) (hfits : StartedFits s.returned attempt started) :
    JoinInv (s.carryOut cause attempt started) := by
  cases started with
  | none => exact hinv
  | some what =>
      cases what with
      | showAlert alert => exact ⟨forall_mem_concat hinv.alerts hfits, hinv.listings, hinv.calls⟩
      | listSessions tags completion =>
          exact ⟨hinv.alerts, forall_mem_concat hinv.listings hfits, hinv.calls⟩
      | createSession name tags password limit paused =>
          exact ⟨hinv.alerts, hinv.listings, hinv.calls⟩
      | joinSession sessionID password paused =>
          exact ⟨hinv.alerts, hinv.listings, forall_mem_concat hinv.calls hfits⟩
      | segue identifier => exact ⟨hinv.alerts, hinv.listings, hinv.calls⟩

variable {s s' : EntryScreen}

/-- Answering the dialog for the name makes the attempt one for that name. -/
theorem askedFor_answered {answer : AlertAnswer}
    (htitle : answer.alertView.title = joinGroupAlert.title) (hbutton : answer.buttonIndex = 0) :
    (Attempt.new.answered answer).AskedFor (answer.textFieldAtIndex 0) where
  typedName := by
    rw [Attempt.typedInto_answered, if_pos htitle]
    rfl
  noPassword := by
    rw [Attempt.typedInto_answered, if_neg (by rw [htitle]; decide)]
    rfl
  joined := by simpa [Attempt.new, Attempt.answered] using hbutton

/-- What an answered alert starts fits the attempt with that answer. -/
theorem startedFits_clickedButtonAtIndex {returned : List CollabrifySession}
    {vc : ViewController2} {answer : AlertAnswer} {attempt : Attempt}
    (hfits : AlertFits returned answer.alertView attempt) :
    StartedFits returned (attempt.answered answer) (vc.clickedButtonAtIndex answer) := by
  cases hstarted : vc.clickedButtonAtIndex answer with
  | none => trivial
  | some started =>
      cases clickedButtonAtIndex_spec hstarted with
      | creatingAlert alert hother => exact alertFits_of_other hother
      | creatingList tags completion hother =>
          intro response hjoin
          exact (hother response hjoin).elim
      | joinList htitle hbutton =>
          rintro response hjoin
          cases hjoin
          rw [hfits.name htitle]
          exact askedFor_answered htitle hbutton
      | join htitle =>
          rcases (hfits.password htitle).2 with ⟨session, hmem, hfound, -⟩
          intro session' hfound'
          obtain rfl := Option.some.inj (hfound.symm.trans hfound')
          exact hmem

/-- The session that a listing finds has the name it was asked for. -/
theorem mem_and_name_of_find? {sessions : List CollabrifySession} {response : NSString Unichar}
    {session : CollabrifySession}
    (hfound : sessions.find? (fun session => session.sessionName = response) = some session) :
    session ∈ sessions ∧ session.sessionName = response :=
  ⟨List.mem_of_find?_eq_some hfound, by simpa using List.find?_some hfound⟩

/-- What a listing starts fits its attempt, with the session that it found. -/
theorem startedFits_listed {returned : List CollabrifySession} {vc vc' : ViewController2}
    {completion : ListCompletion} {attempt : Attempt}
    {sessionList : Option (List CollabrifySession)} {started : Started}
    (hfits : ListingFits completion attempt)
    (h : ListingStarts vc completion sessionList vc' started) :
    StartedFits (returned ++ sessionList.getD [])
      (attempt.listed (foundBy sessionList completion)) (some started) := by
  cases h with
  | creatingAlert _ _ hother => exact alertFits_of_other (by decide)
  | create _ _ groupName password hother => trivial
  | joinFailed response =>
      intro session hfound
      cases hfound
  | joinAsked response sessions session hfound hprotected =>
      rcases mem_and_name_of_find? hfound with ⟨hmem, hname⟩
      have hasked := hfits response rfl
      refine ⟨fun htitle => absurd htitle (by decide), fun _ => ⟨rfl, session, ?_, hfound, ?_⟩⟩
      · exact List.mem_append_right _ hmem
      · rw [hname]
        exact hasked.listed _
  | joinOpen response sessions session hfound hopen =>
      intro session' hfound'
      obtain rfl := Option.some.inj (hfound.symm.trans hfound')
      exact List.mem_append_right _ (mem_and_name_of_find? hfound).1
  | joinNotFound response sessions hnone => exact alertFits_of_other (by decide)

theorem joinInv_start : JoinInv start where
  alerts alert h := by cases h
  listings listing h := by cases h
  calls call h := by cases h

theorem joinInv_step {a : EntryScreenAction} (hinv : JoinInv s) (hstep : s.step a = some s') :
    JoinInv s' := by
  cases a with
  | createGroupClick hasNetworkConnection =>
      obtain rfl := Option.some.inj hstep
      apply joinInv_carryOut hinv
      cases hasNetworkConnection <;> exact alertFits_of_other (by decide)
  | joinGroupClicked hasNetworkConnection =>
      obtain rfl := Option.some.inj hstep
      apply joinInv_carryOut hinv
      cases hasNetworkConnection with
      | false => exact alertFits_of_other (by decide)
      | true => exact ⟨fun _ => rfl, fun htitle => absurd htitle (by decide)⟩
  | clickedButton index buttonIndex texts =>
      rcases step_clickedButton hstep with ⟨alert, halert, rfl⟩
      apply joinInv_carryOut
      · refine ⟨fun other hother => ?_, hinv.listings, hinv.calls⟩
        exact hinv.alerts other (List.mem_of_mem_eraseIdx hother)
      · split_ifs with hdelegated
        · exact startedFits_clickedButtonAtIndex (hinv.alerts alert (List.mem_of_getElem? halert))
        · trivial
  | listed index outcome =>
      rcases step_listed hstep with ⟨listing, vc, started, hlisting, hstarts, rfl⟩
      have hsub := List.subset_append_left s.returned (outcome.toOption.getD [])
      apply joinInv_carryOut
      · refine ⟨fun alert halert => ?_, fun other hother => ?_, fun call hcall session hfound => ?_⟩
        · exact (hinv.alerts alert halert).mono hsub
        · exact hinv.listings other (List.mem_of_mem_eraseIdx hother)
        · exact hsub (hinv.calls call hcall session hfound)
      · exact startedFits_listed (hinv.listings listing (List.mem_of_getElem? hlisting)) hstarts
  | created error =>
      rw [step_created hstep]
      apply joinInv_carryOut
      · exact ⟨hinv.alerts, hinv.listings, hinv.calls⟩
      · cases error <;> trivial
  | joined error =>
      rw [step_joined hstep]
      apply joinInv_carryOut
      · exact ⟨hinv.alerts, hinv.listings, hinv.calls⟩
      · unfold ViewController2.joined
        split_ifs
        · exact alertFits_of_other (by decide)
        · trivial

theorem joinInv_of_run {ok : EntryScreen → EntryScreenAction → Prop}
    {as : List EntryScreenAction} (hrun : Run step ok start as s) : JoinInv s :=
  hrun.invariant JoinInv joinInv_start fun _ _ _ hinv _ hstep => joinInv_step hinv hstep

/-! ## The requests of a run -/

/-- The request to join that is among what is started. -/
def callsStarted (attempt : Attempt) : Option Started → List JoinCall
  | some (.joinSession sessionID password _) => [⟨sessionID, password, attempt⟩]
  | _ => []

@[simp]
theorem carryOut_joinCalls (s : EntryScreen) (cause : Cause) (attempt : Attempt)
    (started : Option Started) :
    (s.carryOut cause attempt started).joinCalls = s.joinCalls ++ callsStarted attempt started := by
  cases started with
  | none => simp [carryOut, callsStarted]
  | some what => cases what <;> simp [carryOut, callsStarted]

@[simp]
theorem carryOut_returned (s : EntryScreen) (cause : Cause) (attempt : Attempt)
    (started : Option Started) : (s.carryOut cause attempt started).returned = s.returned := by
  cases started with
  | none => rfl
  | some what => cases what <;> rfl

/-- The step keeps requests on their targets: the listing of a join does not fail, and a password
dialog is answered with Join, while the shared session has the ID of the one that the attempt of
the dialog found. -/
def KeepsTarget (s : EntryScreen) : EntryScreenAction → Prop
  | .listed index (.error _) =>
      ∀ listing, s.listings[index]? = some listing → ∀ response, listing.what ≠ .join response
  | .clickedButton index buttonIndex _ =>
      ∀ alert, s.alerts[index]? = some alert → alert.what.title = joinSessionWithPassword.title →
        buttonIndex = 0 ∧ alert.attempt.found.map (·.sessionID) = some s.vc.sessionID
  | _ => True

/-- Only a password dialog starts a request when it is answered. -/
theorem callsStarted_clickedButtonAtIndex {vc : ViewController2} {answer : AlertAnswer}
    {attempt : Attempt} (htitle : answer.alertView.title ≠ joinSessionWithPassword.title) :
    callsStarted attempt (vc.clickedButtonAtIndex answer) = [] := by
  cases hstarted : vc.clickedButtonAtIndex answer with
  | none => rfl
  | some started =>
      cases clickedButtonAtIndex_spec hstarted with
      | creatingAlert alert _ => rfl
      | creatingList tags completion _ => rfl
      | joinList _ _ => rfl
      | join hpassword => exact (htitle hpassword).elim

/-- The request that a password dialog starts is right exactly when Join was pressed and the
shared session is the one found. -/
theorem password_call_right_iff {returned : List CollabrifySession} {vc : ViewController2}
    {answer : AlertAnswer} {attempt : Attempt}
    (hfits : AlertFits returned answer.alertView attempt)
    (htitle : answer.alertView.title = joinSessionWithPassword.title) :
    JoinCall.Right ⟨vc.sessionID, answer.textFieldAtIndex 0, attempt.answered answer⟩ returned ↔
      answer.buttonIndex = 0 ∧ attempt.found.map (·.sessionID) = some vc.sessionID := by
  rcases (hfits.password htitle).2 with ⟨session, hmem, hfound, hasked⟩
  have hname : (attempt.answered answer).typedInto joinGroupAlert = some session.sessionName := by
    rw [Attempt.typedInto_answered, hasked.typedName]
    rfl
  have hpassword : (attempt.answered answer).typedInto joinSessionWithPassword =
      some (answer.textFieldAtIndex 0) := by
    rw [Attempt.typedInto_answered, hasked.noPassword, if_pos htitle]
    rfl
  rw [hfound, Option.map_some, Option.some.injEq]
  constructor
  · rintro ⟨⟨session', -, hfound', hid, -⟩, hjoined, -⟩
    obtain rfl := Option.some.inj (hfound.symm.trans hfound')
    exact ⟨hjoined answer (by simp [Attempt.answered]), hid.symm⟩
  · rintro ⟨hbutton, hid⟩
    refine ⟨⟨session, hmem, hfound, hid.symm, hname, ?_⟩,
      forall_mem_concat hasked.joined hbutton, ?_⟩
    · intro hnone
      simp [hpassword] at hnone
    · rw [hpassword]
      rfl

/-- The request that a listing starts is right exactly when the listing did not fail. -/
theorem listing_calls_right_iff {returned : List CollabrifySession} {vc vc' : ViewController2}
    {completion : ListCompletion} {attempt : Attempt}
    {sessionList : Option (List CollabrifySession)} {started : Started}
    (hfits : ListingFits completion attempt)
    (h : ListingStarts vc completion sessionList vc' started) :
    (∀ call ∈ callsStarted (attempt.listed (foundBy sessionList completion)) (some started),
        call.Right (returned ++ sessionList.getD [])) ↔
      (sessionList = none → ∀ response, completion ≠ .join response) := by
  cases h with
  | creatingAlert _ _ hother => exact iff_of_true (by simp [callsStarted]) fun _ => hother
  | create _ _ groupName password hother =>
      exact iff_of_true (by simp [callsStarted]) fun _ => hother
  | joinFailed response =>
      refine iff_of_false (fun hright => ?_) (by simp)
      rcases (hright _ (List.mem_singleton.mpr rfl)).session with ⟨session, -, hfound, -⟩
      cases hfound
  | joinAsked response sessions session hfound hprotected =>
      exact iff_of_true (by simp [callsStarted]) (by simp)
  | joinOpen response sessions session hfound hopen =>
      refine iff_of_true (fun call hcall => ?_) (by simp)
      obtain rfl := List.mem_singleton.mp hcall
      rcases mem_and_name_of_find? hfound with ⟨hmem, hname⟩
      have hasked := (hfits response rfl).listed (some session)
      refine ⟨⟨session, List.mem_append_right _ hmem, hfound, rfl, ?_, fun _ => hopen⟩,
        hasked.joined, ?_⟩
      · rw [hname]
        exact hasked.typedName
      · exact (congrArg (·.getD []) hasked.noPassword).symm
  | joinNotFound response sessions hnone => exact iff_of_true (by simp [callsStarted]) (by simp)

/-- The requests that a step makes are right exactly when it keeps requests on their targets. -/
theorem new_calls_right_iff {a : EntryScreenAction} (hinv : JoinInv s)
    (hstep : s.step a = some s') :
    ∃ calls, s'.joinCalls = s.joinCalls ++ calls ∧
      ((∀ call ∈ calls, call.Right s'.returned) ↔ KeepsTarget s a) := by
  cases a with
  | createGroupClick hasNetworkConnection =>
      obtain rfl := Option.some.inj hstep
      refine ⟨[], ?_, iff_of_true (by simp) trivial⟩
      cases hasNetworkConnection <;> simp [createGroupClick, callsStarted]
  | joinGroupClicked hasNetworkConnection =>
      obtain rfl := Option.some.inj hstep
      refine ⟨[], ?_, iff_of_true (by simp) trivial⟩
      cases hasNetworkConnection <;> simp [joinGroupClicked, callsStarted]
  | clickedButton index buttonIndex texts =>
      rcases step_clickedButton hstep with ⟨alert, halert, rfl⟩
      have hfits := hinv.alerts alert (List.mem_of_getElem? halert)
      rw [carryOut_joinCalls, carryOut_returned]
      refine ⟨_, rfl, ?_⟩
      by_cases htitle : alert.what.title = joinSessionWithPassword.title
      · have hdelegated : alert.what.delegated = true := by rw [(hfits.password htitle).1]; rfl
        rw [if_pos hdelegated, clickedButtonAtIndex_password htitle]
        simp only [joinSession, callsStarted, List.mem_singleton, forall_eq]
        rw [password_call_right_iff hfits htitle]
        simp [KeepsTarget, halert, htitle]
      · refine iff_of_true ?_ ?_
        · split_ifs
          · rw [callsStarted_clickedButtonAtIndex htitle]
            simp
          · simp [callsStarted]
        · intro alert' halert' htitle'
          obtain rfl := Option.some.inj (halert.symm.trans halert')
          exact (htitle htitle').elim
  | listed index outcome =>
      rcases step_listed hstep with ⟨listing, vc, started, hlisting, hstarts, rfl⟩
      have hfits := hinv.listings listing (List.mem_of_getElem? hlisting)
      rw [carryOut_joinCalls, carryOut_returned]
      refine ⟨_, rfl, ?_⟩
      rw [listing_calls_right_iff hfits hstarts]
      cases outcome with
      | ok sessions => simp [KeepsTarget, Except.toOption]
      | error error => simp [KeepsTarget, Except.toOption, hlisting]
  | created error =>
      rw [step_created hstep]
      refine ⟨[], ?_, iff_of_true (by simp) trivial⟩
      cases error <;> simp [ViewController2.created, callsStarted]
  | joined error =>
      rw [step_joined hstep]
      refine ⟨[], ?_, iff_of_true (by simp) trivial⟩
      unfold ViewController2.joined
      split_ifs <;> simp [callsStarted]

theorem returned_subset_step {a : EntryScreenAction} (hstep : s.step a = some s') :
    s.returned ⊆ s'.returned := by
  cases a with
  | createGroupClick hasNetworkConnection =>
      obtain rfl := Option.some.inj hstep
      rw [carryOut_returned]
      exact List.Subset.refl _
  | joinGroupClicked hasNetworkConnection =>
      obtain rfl := Option.some.inj hstep
      rw [carryOut_returned]
      exact List.Subset.refl _
  | clickedButton index buttonIndex texts =>
      rcases step_clickedButton hstep with ⟨alert, -, rfl⟩
      rw [carryOut_returned]
      exact List.Subset.refl _
  | listed index outcome =>
      rcases step_listed hstep with ⟨listing, vc, started, -, -, rfl⟩
      rw [carryOut_returned]
      exact List.subset_append_left _ _
  | created error =>
      rw [step_created hstep, carryOut_returned]
      exact List.Subset.refl _
  | joined error =>
      rw [step_joined hstep, carryOut_returned]
      exact List.Subset.refl _

/-- What further listings return makes no earlier request right or wrong. -/
theorem call_right_iff_of_step {a : EntryScreenAction} (hinv : JoinInv s)
    (hstep : s.step a = some s') {call : JoinCall} (hcall : call ∈ s.joinCalls) :
    call.Right s'.returned ↔ call.Right s.returned := by
  constructor
  · rintro ⟨⟨session, -, hfound, htarget⟩, hjoined, hpassword⟩
    exact ⟨⟨session, hinv.calls call hcall session hfound, hfound, htarget⟩, hjoined, hpassword⟩
  · rintro ⟨⟨session, hmem, htarget⟩, hjoined, hpassword⟩
    exact ⟨⟨session, returned_subset_step hstep hmem, htarget⟩, hjoined, hpassword⟩

/-- In every run, the requests to join are those that the user asked for exactly when no listing
of a join fails, and every password dialog is answered with Join, at a moment when the shared
session has the ID of the one that its attempt found. -/
theorem joins_target_iff (as : List EntryScreenAction) (s : EntryScreen)
    (hrun : Run step anyAction start as s) :
    (∀ call ∈ s.joinCalls, call.Right s.returned) ↔ Run step KeepsTarget start as s := by
  induction hrun with
  | nil => exact iff_of_true (by simp [start]) .nil
  | @snoc as s s' a hrun _ hstep ih =>
      have hinv := joinInv_of_run hrun
      rcases new_calls_right_iff hinv hstep with ⟨calls, hcalls, hnew⟩
      have hold : (∀ call ∈ s.joinCalls, call.Right s'.returned) ↔
          ∀ call ∈ s.joinCalls, call.Right s.returned :=
        forall₂_congr fun call hcall => call_right_iff_of_step hinv hstep hcall
      rw [hrun.concat_iff hstep, ← ih, ← hnew, ← hold, hcalls, List.forall_mem_append]

/-- A user asks for the group `g`, which has the password `p`, and answers the dialog for the
password with the button `buttonIndex`. -/
def joinProtectedGroup (buttonIndex : Nat) : List EntryScreenAction :=
  [] ++ [.joinGroupClicked true] ++ [.clickedButton 0 0 [[103]]] ++
    [.listed 0 (.ok [⟨7, [103], true⟩])] ++ [.clickedButton 0 buttonIndex [[112]]]

/-- The password is typed and Join is pressed. -/
theorem joins_target_iff_password :
    ∃ s, Run step anyAction start (joinProtectedGroup 0) s ∧ s.joinCalls.length = 1 ∧
      ∀ call ∈ s.joinCalls, call.Right s.returned := by
  have hkeeps : Run step KeepsTarget start (joinProtectedGroup 0) _ :=
    .snoc (.snoc (.snoc (.snoc .nil trivial rfl) (fun alert halert htitle => ?_) rfl) trivial rfl)
      (fun alert halert htitle => ?_) rfl
  · exact ⟨_, hkeeps.any, rfl, (joins_target_iff _ _ hkeeps.any).mpr hkeeps⟩
  · cases halert
    exact absurd htitle (by decide)
  · cases halert
    exact ⟨rfl, rfl⟩

/-- Cancel in the dialog for the password joins the group all the same. -/
theorem cancelled_password_joins :
    ¬ ∀ (as : List EntryScreenAction) (s : EntryScreen), Run step anyAction start as s →
      ∀ call ∈ s.joinCalls, call.Right s.returned := by
  intro h
  have hrun : Run step anyAction start (joinProtectedGroup 1) _ :=
    .snoc (.snoc (.snoc (.snoc .nil trivial rfl) trivial rfl) trivial rfl) trivial rfl
  have hright := h _ _ hrun _ (List.mem_singleton.mpr rfl)
  have hbutton := hright.joined _ (List.mem_cons_of_mem _ (List.mem_singleton.mpr rfl))
  cases hbutton

end EntryScreen

end WeWrite
