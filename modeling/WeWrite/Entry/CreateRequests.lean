import WeWrite.Entry.DialogRuns

/-!
# Which group is created

A user who wants a new group says whether it has a password, and types its name, and its password
if it has one; a blank field is reported and leads back to the same dialog.  The listing in
between looks for a group of that name, and the group is created if there is none.

`CreatingScreen` is the entry screen with one more history: the requests to create a session, with
the list that the listing of their attempt returned.

Main results:

- Theorem `CreatingScreen.createInv_of_run`: what every open dialog and every listing of the
  create flow knows of its attempt.
- Theorem `CreatingScreen.creates_what_was_asked`: in every run every request to create a group is
  the one that the user asked for, under a name that the listing did not return.
-/

namespace WeWrite

open Transition ViewController2

/-! ## Attempts -/

/-- The first alert that was answered is the one about a password, and the answer was Yes
exactly if `yes`. -/
def Attempt.Chose (attempt : Attempt) (yes : Bool) : Prop :=
  ∃ answer, attempt.answers.head? = some answer ∧ answer.alertView = passwordAlert ∧
    (answer.buttonIndex = 0 ↔ yes = true)

theorem Attempt.Chose.answered {attempt : Attempt} {yes : Bool} (h : attempt.Chose yes)
    (answer : AlertAnswer) : (attempt.answered answer).Chose yes := by
  rcases h with ⟨first, hfirst, hchoice⟩
  refine ⟨first, ?_, hchoice⟩
  rw [Attempt.answered, List.head?_append, hfirst]
  rfl

/-- Answering the alert about a password first is the choice. -/
theorem chose_answered {answer : AlertAnswer} {yes : Bool}
    (halert : answer.alertView = passwordAlert) (hchoice : answer.buttonIndex = 0 ↔ yes = true) :
    (Attempt.new.answered answer).Chose yes :=
  ⟨answer, rfl, halert, hchoice⟩

/-- The user has chosen whether there is a password, and has pressed Done last, with that name and
that password in the text fields, neither of them blank. -/
structure Attempt.Requested (attempt : Attempt) (name : NSString Unichar)
    (password : Option (NSString Unichar)) : Prop where
  choice : attempt.Chose password.isSome
  typed : ∃ answer, attempt.answers.getLast? = some answer ∧ answer.buttonIndex = 0 ∧
    answer.textFieldAtIndex 0 = name ∧
    ∀ typedPassword, password = some typedPassword → answer.textFieldAtIndex 1 = typedPassword
  name_ne : name ≠ []
  password_ne : ∀ typedPassword, password = some typedPassword → typedPassword ≠ []

/-- What a listing finds changes nothing of what the user has done. -/
theorem Attempt.Requested.listed {attempt : Attempt} {name : NSString Unichar}
    {password : Option (NSString Unichar)} (h : attempt.Requested name password)
    (found : Option CollabrifySession) : (attempt.listed found).Requested name password :=
  ⟨h.choice, h.typed, h.name_ne, h.password_ne⟩

/-- The group that a listing is made for. -/
def ListCompletion.group : ListCompletion → Option (NSString Unichar × Option (NSString Unichar))
  | .createWithPassword groupName password => some (groupName, some password)
  | .createWithoutPassword groupName => some (groupName, none)
  | .join _ => none

/-! ## Requests to create a session -/

/-- A request to create a session.  `sessionList` is history: what the listing of its attempt
returned. -/
structure CreateCall where
  name : NSString Unichar
  tags : List String
  password : Option (NSString Unichar)
  participantLimit : Nat
  startPaused : Bool
  attempt : Attempt
  sessionList : Option (List CollabrifySession)

/-- The request to create a session that is among what is started. -/
def createsStarted (attempt : Attempt) (sessionList : Option (List CollabrifySession)) :
    Option Started → List CreateCall
  | some (.createSession name tags password participantLimit startPaused) =>
      [⟨name, tags, password, participantLimit, startPaused, attempt, sessionList⟩]
  | _ => []

/-- A request to create a session is the one that the user asked for: its name and its password
are the ones typed, and the listing succeeded and returned no session of that name. -/
structure CreateCall.Right (call : CreateCall) : Prop where
  requested : call.attempt.Requested call.name call.password
  free : ∃ sessions, call.sessionList = some sessions ∧
    ∀ session ∈ sessions, session.sessionName ≠ call.name
  tags : call.tags = ["jhjk"]
  participantLimit : call.participantLimit = 500
  startPaused : call.startPaused = false

/-- The entry screen with the requests to create a session. -/
structure CreatingScreen where
  screen : EntryScreen
  createCalls : List CreateCall

namespace CreatingScreen

/-- `viewDidLoad`. -/
def start : CreatingScreen where
  screen := .start
  createCalls := []

/-- The requests to create a session that an action makes. -/
def createsOf (s : EntryScreen) : EntryScreenAction → List CreateCall
  | .createGroupClick hasNetworkConnection =>
      createsStarted .new none (createGroupClick hasNetworkConnection)
  | .joinGroupClicked hasNetworkConnection =>
      createsStarted .new none (joinGroupClicked hasNetworkConnection)
  | .clickedButton index buttonIndex texts =>
      match s.alerts[index]? with
      | none => []
      | some alert =>
          let answer : AlertAnswer := ⟨alert.what, buttonIndex, texts⟩
          createsStarted (alert.attempt.answered answer) none
            (if alert.what.delegated then s.vc.clickedButtonAtIndex answer else none)
  | .listed index outcome =>
      match s.listings[index]? with
      | none => []
      | some listing =>
          createsStarted (listing.attempt.listed (EntryScreen.foundBy outcome.toOption listing.what))
            outcome.toOption (s.vc.listed outcome.toOption listing.what).2
  | .created error => createsStarted .new none (created error)
  | .joined error => createsStarted .new none (joined error)

/-- One step. -/
def step (s : CreatingScreen) (a : EntryScreenAction) : Option CreatingScreen := do
  let screen ← s.screen.step a
  some { screen := screen, createCalls := s.createCalls ++ createsOf s.screen a }

/-- Every run of the entry screen is a run with this history. -/
theorem exists_run {as : List EntryScreenAction} {screen : EntryScreen}
    (hrun : Run EntryScreen.step anyAction .start as screen) :
    ∃ s, Run step anyAction start as s ∧ s.screen = screen := by
  refine hrun.lockstep (fun screen (s : CreatingScreen) => s.screen = screen) rfl ?_
  rintro screen a screen' s rfl - hstep
  refine ⟨trivial, ⟨screen', s.createCalls ++ createsOf s.screen a⟩, ?_, rfl⟩
  rw [step, hstep]
  rfl

theorem step_eq_some {s s' : CreatingScreen} {a : EntryScreenAction} (h : s.step a = some s') :
    s.screen.step a = some s'.screen ∧ s'.createCalls = s.createCalls ++ createsOf s.screen a := by
  simp only [step, Option.bind_eq_bind, Option.bind_eq_some_iff, Option.some.injEq] at h
  rcases h with ⟨screen, hscreen, rfl⟩
  exact ⟨hscreen, rfl⟩

/-! ## The invariant of the create flow -/

/-- The message for blank fields in the dialog with a password. -/
def bothBlankMessage : String :=
  "Please do not leave any fields blank. Enter a group name and password."

/-- What an alert of the create flow knows of its attempt: nothing was answered before the alert
about a password, and the dialogs behind it are the ones for the answer that it got. -/
structure AlertFits (alert : UIAlertView) (attempt : Attempt) : Prop where
  configuration : alert.title = passwordAlert.title → alert = passwordAlert ∧ attempt = .new
  withPassword : alert.title = (groupNameAndPasswordAlert "").title → attempt.Chose true
  withoutPassword : alert.title = groupNameAlert.title → attempt.Chose false
  blank : alert.title = (blankError "").title →
    attempt.Chose (decide (alert.message = bothBlankMessage))

/-- A listing of the create flow belongs to an attempt that asked for its group. -/
def ListingFits (completion : ListCompletion) (attempt : Attempt) : Prop :=
  ∀ name password, completion.group = some (name, password) → attempt.Requested name password

/-- What is started fits the attempt it is started for. -/
def StartedFits (attempt : Attempt) : Option Started → Prop
  | some (.showAlert alert) => AlertFits alert attempt
  | some (.listSessions _ completion) => ListingFits completion attempt
  | _ => True

/-- What is under way in the create flow fits its attempt, and every request is right. -/
structure CreateInv (s : CreatingScreen) : Prop where
  tags : s.screen.vc.tags = ["jhjk"]
  alerts : ∀ alert ∈ s.screen.alerts, AlertFits alert.what alert.attempt
  listings : ∀ listing ∈ s.screen.listings, ListingFits listing.what listing.attempt
  calls : ∀ call ∈ s.createCalls, call.Right

/-- An alert outside the create flow belongs to any attempt. -/
theorem alertFits_of_other {alert : UIAlertView} (attempt : Attempt)
    (hconfiguration : alert.title ≠ passwordAlert.title)
    (hwith : alert.title ≠ (groupNameAndPasswordAlert "").title)
    (hwithout : alert.title ≠ groupNameAlert.title) (hblank : alert.title ≠ (blankError "").title) :
    AlertFits alert attempt where
  configuration htitle := (hconfiguration htitle).elim
  withPassword htitle := (hwith htitle).elim
  withoutPassword htitle := (hwithout htitle).elim
  blank htitle := (hblank htitle).elim

theorem alertFits_groupNameAndPasswordAlert {attempt : Attempt} (message : String)
    (h : attempt.Chose true) : AlertFits (groupNameAndPasswordAlert message) attempt where
  configuration htitle := absurd htitle (by simp [groupNameAndPasswordAlert, passwordAlert])
  withPassword _ := h
  withoutPassword htitle := absurd htitle (by simp [groupNameAndPasswordAlert, groupNameAlert])
  blank htitle :=
    absurd htitle (by simp [groupNameAndPasswordAlert, blankError, noticeAlert])

theorem alertFits_groupNameAlert {attempt : Attempt} (h : attempt.Chose false) :
    AlertFits groupNameAlert attempt where
  configuration htitle := absurd htitle (by decide)
  withPassword htitle := absurd htitle (by decide)
  withoutPassword _ := h
  blank htitle := absurd htitle (by decide)

theorem alertFits_blankError {attempt : Attempt} {message : String} {yes : Bool}
    (h : attempt.Chose yes) (hmessage : decide (message = bothBlankMessage) = yes) :
    AlertFits (blankError message) attempt where
  configuration htitle := absurd htitle (by simp [blankError, noticeAlert, passwordAlert])
  withPassword htitle :=
    absurd htitle (by simp [groupNameAndPasswordAlert, blankError, noticeAlert])
  withoutPassword htitle := absurd htitle (by simp [blankError, noticeAlert, groupNameAlert])
  blank _ := by
    change attempt.Chose (decide (message = bothBlankMessage))
    rw [hmessage]
    exact h

/-- What an answered alert starts fits the attempt with that answer. -/
theorem startedFits_clickedButtonAtIndex {vc : ViewController2} {answer : AlertAnswer}
    {attempt : Attempt} (hfits : AlertFits answer.alertView attempt) :
    StartedFits (attempt.answered answer) (vc.clickedButtonAtIndex answer) := by
  have hlast : (attempt.answered answer).answers.getLast? = some answer := List.getLast?_concat
  unfold clickedButtonAtIndex
  dsimp only
  split_ifs with hconfiguration hyes hboth hbutton hblank hname hbutton hblank hblank
    hmessage hjoin hbutton hpassword
  · -- Yes in the alert about a password
    rcases hfits.configuration hconfiguration with ⟨halert, rfl⟩
    exact alertFits_groupNameAndPasswordAlert _ (chose_answered halert (by simp [hyes]))
  · -- No in the alert about a password
    rcases hfits.configuration hconfiguration with ⟨halert, rfl⟩
    exact alertFits_groupNameAlert (chose_answered halert (by simp [hyes]))
  · trivial
  · -- a blank field next to the password
    exact alertFits_blankError ((hfits.withPassword hboth).answered answer) (by decide)
  · -- a name and a password
    rcases not_or.mp hblank with ⟨hname, hpassword⟩
    rintro name password hgroup
    simp only [ListCompletion.group, Option.some.injEq, Prod.mk.injEq] at hgroup
    rcases hgroup with ⟨rfl, rfl⟩
    refine ⟨(hfits.withPassword hboth).answered answer, ⟨answer, hlast, ?_, rfl, ?_⟩, hname, ?_⟩
    · simpa using hbutton
    · rintro typedPassword htyped
      exact Option.some.inj htyped
    · rintro typedPassword htyped
      obtain rfl := Option.some.inj htyped
      exact hpassword
  · trivial
  · -- a blank name
    exact alertFits_blankError ((hfits.withoutPassword hname).answered answer) (by decide)
  · -- a name
    rintro name password hgroup
    simp only [ListCompletion.group, Option.some.injEq, Prod.mk.injEq] at hgroup
    rcases hgroup with ⟨rfl, rfl⟩
    refine ⟨(hfits.withoutPassword hname).answered answer, ⟨answer, hlast, ?_, rfl, ?_⟩, hblank, ?_⟩
    · simpa using hbutton
    · rintro typedPassword htyped
      cases htyped
    · rintro typedPassword htyped
      cases htyped
  · -- blank fields reported, with a password
    have hchose := hfits.blank hblank
    rw [decide_eq_true (show answer.alertView.message = bothBlankMessage from hmessage)] at hchose
    exact alertFits_groupNameAndPasswordAlert _ (hchose.answered answer)
  · -- blank fields reported, without one
    have hchose := hfits.blank hblank
    have hother : ¬ answer.alertView.message = bothBlankMessage := hmessage
    rw [decide_eq_false hother] at hchose
    exact alertFits_groupNameAlert (hchose.answered answer)
  · trivial
  · -- the listing of the join flow
    intro name password hgroup
    cases hgroup
  · trivial
  · trivial

/-- The list that a listing looked through has no session of the name. -/
theorem free_of_indexOfSession {sessionList : Option (List CollabrifySession)}
    {name : NSString Unichar} (h : indexOfSession sessionList name = none) :
    ∃ sessions, sessionList = some sessions ∧ ∀ session ∈ sessions, session.sessionName ≠ name := by
  cases sessionList with
  | none => cases h
  | some sessions =>
      refine ⟨sessions, rfl, ?_⟩
      have hnone := List.findIdx?_eq_none_iff.mp h
      intro session hmem
      simpa using hnone session hmem

/-- What the listing for a new group starts, and the request that it may make. -/
theorem createListed_right (vc : ViewController2) (sessionList : Option (List CollabrifySession))
    {attempt : Attempt} {name : NSString Unichar} {password : Option (NSString Unichar)}
    (htags : vc.tags = ["jhjk"]) (hrequested : attempt.Requested name password) :
    StartedFits attempt (some (vc.createListed name password sessionList)) ∧
      ∀ call ∈ createsStarted attempt sessionList
        (some (vc.createListed name password sessionList)), call.Right := by
  unfold createListed
  cases hindex : indexOfSession sessionList name with
  | some result =>
      refine ⟨alertFits_of_other attempt (by decide) (by decide) (by decide) (by decide), ?_⟩
      intro call hcall
      cases hcall
  | none =>
      refine ⟨trivial, ?_⟩
      intro call hcall
      obtain rfl := List.mem_singleton.mp hcall
      exact ⟨hrequested, free_of_indexOfSession hindex, htags, rfl, rfl⟩

/-- What the listing of the join flow starts. -/
theorem joinListed_starts (vc : ViewController2) (attempt : Attempt)
    (response : NSString Unichar) (sessionList : Option (List CollabrifySession)) :
    StartedFits attempt (some (vc.joinListed response sessionList).2) ∧
      createsStarted attempt sessionList (some (vc.joinListed response sessionList).2) = [] ∧
      (vc.joinListed response sessionList).1.tags = vc.tags := by
  have hspec := joinListed_spec vc response sessionList
  revert hspec
  generalize (vc.joinListed response sessionList).1 = vc'
  generalize (vc.joinListed response sessionList).2 = started
  intro hspec
  cases hspec with
  | creatingAlert _ _ hother => exact (hother response rfl).elim
  | create _ _ groupName password hother => exact (hother response rfl).elim
  | joinFailed _ => exact ⟨trivial, rfl, rfl⟩
  | joinAsked _ sessions session hfound hprotected =>
      exact ⟨alertFits_of_other attempt (by decide) (by decide) (by decide) (by decide), rfl, rfl⟩
  | joinOpen _ sessions session hfound hopen => exact ⟨trivial, rfl, rfl⟩
  | joinNotFound _ sessions hnone =>
      exact ⟨alertFits_of_other attempt (by decide) (by decide) (by decide) (by decide), rfl, rfl⟩

/-- What a completed listing starts fits its attempt, and a request to create a group is right. -/
theorem listed_right (vc : ViewController2) (sessionList : Option (List CollabrifySession))
    {completion : ListCompletion} {attempt : Attempt} (htags : vc.tags = ["jhjk"])
    (hfits : ListingFits completion attempt) :
    StartedFits attempt (some (vc.listed sessionList completion).2) ∧
      (∀ call ∈ createsStarted attempt sessionList (some (vc.listed sessionList completion).2),
        call.Right) ∧
      (vc.listed sessionList completion).1.tags = vc.tags := by
  cases completion with
  | createWithPassword groupName password =>
      rcases createListed_right vc sessionList htags
        (hfits groupName (some password) rfl) with ⟨hstarted, hcalls⟩
      exact ⟨hstarted, hcalls, rfl⟩
  | createWithoutPassword groupName =>
      rcases createListed_right vc sessionList htags
        (hfits groupName none rfl) with ⟨hstarted, hcalls⟩
      exact ⟨hstarted, hcalls, rfl⟩
  | join response =>
      rcases joinListed_starts vc attempt response sessionList with ⟨hstarted, hcalls, htags'⟩
      refine ⟨hstarted, ?_, htags'⟩
      intro call hcall
      rw [listed, hcalls] at hcall
      cases hcall

/-- No answered alert makes a request to create a session. -/
theorem createsStarted_clickedButtonAtIndex {vc : ViewController2} {answer : AlertAnswer}
    {attempt : Attempt} : createsStarted attempt none (vc.clickedButtonAtIndex answer) = [] := by
  cases hstarted : vc.clickedButtonAtIndex answer with
  | none => rfl
  | some started => cases clickedButtonAtIndex_spec hstarted <;> rfl

/-! ## Runs -/

/-- Starting something that fits keeps the invariant, with the requests that are right. -/
theorem createInv_carryOut {s : CreatingScreen} {screen : EntryScreen} {cause : Cause}
    {attempt : Attempt} {started : Option Started} {calls : List CreateCall}
    (htags : screen.vc.tags = ["jhjk"])
    (halerts : ∀ alert ∈ screen.alerts, AlertFits alert.what alert.attempt)
    (hlistings : ∀ listing ∈ screen.listings, ListingFits listing.what listing.attempt)
    (hinv : CreateInv s) (hfits : StartedFits attempt started)
    (hcalls : ∀ call ∈ calls, call.Right) :
    CreateInv ⟨screen.carryOut cause attempt started, s.createCalls ++ calls⟩ := by
  have hall := List.forall_mem_append.mpr ⟨hinv.calls, hcalls⟩
  cases started with
  | none => exact ⟨htags, halerts, hlistings, hall⟩
  | some what =>
      cases what with
      | showAlert alert => exact ⟨htags, forall_mem_concat halerts hfits, hlistings, hall⟩
      | listSessions tags completion =>
          exact ⟨htags, halerts, forall_mem_concat hlistings hfits, hall⟩
      | createSession name tags password limit paused => exact ⟨htags, halerts, hlistings, hall⟩
      | joinSession sessionID password paused => exact ⟨htags, halerts, hlistings, hall⟩
      | segue identifier => exact ⟨htags, halerts, hlistings, hall⟩

theorem createInv_start : CreateInv start where
  tags := rfl
  alerts alert h := by cases h
  listings listing h := by cases h
  calls call h := by cases h

theorem createInv_step {s s' : CreatingScreen} {a : EntryScreenAction} (hinv : CreateInv s)
    (hstep : s.step a = some s') : CreateInv s' := by
  rcases s' with ⟨screen', calls'⟩
  rcases step_eq_some hstep with ⟨hscreen, hcalls⟩
  simp only at hscreen hcalls
  subst hcalls
  have hnetwork : ∀ attempt, AlertFits networkAlert attempt := fun attempt =>
    alertFits_of_other attempt (by decide) (by decide) (by decide) (by decide)
  cases a with
  | createGroupClick hasNetworkConnection =>
      obtain rfl := Option.some.inj hscreen
      apply createInv_carryOut hinv.tags hinv.alerts hinv.listings hinv
      · cases hasNetworkConnection with
        | false => exact hnetwork _
        | true =>
            exact ⟨fun _ => ⟨rfl, rfl⟩, fun htitle => absurd htitle (by decide),
              fun htitle => absurd htitle (by decide), fun htitle => absurd htitle (by decide)⟩
      · cases hasNetworkConnection <;> simp [createsOf, createsStarted, createGroupClick]
  | joinGroupClicked hasNetworkConnection =>
      obtain rfl := Option.some.inj hscreen
      apply createInv_carryOut hinv.tags hinv.alerts hinv.listings hinv
      · cases hasNetworkConnection with
        | false => exact hnetwork _
        | true => exact alertFits_of_other _ (by decide) (by decide) (by decide) (by decide)
      · cases hasNetworkConnection <;> simp [createsOf, createsStarted, joinGroupClicked]
  | clickedButton index buttonIndex texts =>
      rcases EntryScreen.step_clickedButton hscreen with ⟨alert, halert, rfl⟩
      refine createInv_carryOut hinv.tags ?_ hinv.listings hinv ?_ ?_
      · exact fun other hother => hinv.alerts other (List.mem_of_mem_eraseIdx hother)
      · split_ifs with hdelegated
        · exact startedFits_clickedButtonAtIndex (hinv.alerts alert (List.mem_of_getElem? halert))
        · trivial
      · simp only [createsOf, halert]
        split_ifs with hdelegated
        · simp [createsStarted_clickedButtonAtIndex]
        · simp [createsStarted]
  | listed index outcome =>
      simp only [EntryScreen.step, Option.bind_eq_bind, Option.bind_eq_some_iff,
        Option.some.injEq] at hscreen
      rcases hscreen with ⟨listing, hlisting, rfl⟩
      have hfits : ListingFits listing.what (listing.attempt.listed
          (EntryScreen.foundBy outcome.toOption listing.what)) := fun name password hgroup =>
        (hinv.listings listing (List.mem_of_getElem? hlisting) name password hgroup).listed _
      rcases listed_right s.screen.vc outcome.toOption hinv.tags hfits with
        ⟨hstarted, hright, htags⟩
      refine createInv_carryOut (htags.trans hinv.tags) hinv.alerts ?_ hinv hstarted ?_
      · exact fun other hother => hinv.listings other (List.mem_of_mem_eraseIdx hother)
      · simpa only [createsOf, hlisting] using hright
  | created error =>
      rw [EntryScreen.step_created hscreen]
      refine createInv_carryOut hinv.tags hinv.alerts hinv.listings hinv ?_ ?_
      · cases error <;> trivial
      · cases error <;> simp [createsOf, createsStarted, ViewController2.created]
  | joined error =>
      rw [EntryScreen.step_joined hscreen]
      refine createInv_carryOut hinv.tags hinv.alerts hinv.listings hinv ?_ ?_
      · unfold ViewController2.joined
        split_ifs
        · exact alertFits_of_other _ (by decide) (by decide) (by decide) (by decide)
        · trivial
      · simp only [createsOf, ViewController2.joined]
        split_ifs <;> simp [createsStarted]

theorem createInv_of_run {as : List EntryScreenAction} {s : CreatingScreen}
    (hrun : Run step anyAction start as s) : CreateInv s :=
  hrun.invariant CreateInv createInv_start fun _ _ _ hinv _ hstep => createInv_step hinv hstep

/-- A listing for a new group that succeeds without its name makes the request. -/
theorem createsOf_listed {s : EntryScreen} {index : Nat} {sessions : List CollabrifySession}
    {listing : Underway ListCompletion} {name : NSString Unichar}
    {password : Option (NSString Unichar)} (hlisting : s.listings[index]? = some listing)
    (hgroup : listing.what.group = some (name, password))
    (hfree : ∀ session ∈ sessions, session.sessionName ≠ name) :
    ∃ call, createsOf s (.listed index (.ok sessions)) = [call] ∧ call.name = name ∧
      call.password = password := by
  have hindex : indexOfSession (some sessions) name = none :=
    List.findIdx?_eq_none_iff.mpr (by simpa using hfree)
  rcases listing with ⟨completion, attempt⟩
  cases completion with
  | createWithPassword groupName typedPassword =>
      simp only [ListCompletion.group, Option.some.injEq, Prod.mk.injEq] at hgroup
      rcases hgroup with ⟨rfl, rfl⟩
      simp only [createsOf, hlisting, listed, createListed, Except.toOption, hindex]
      exact ⟨_, rfl, rfl, rfl⟩
  | createWithoutPassword groupName =>
      simp only [ListCompletion.group, Option.some.injEq, Prod.mk.injEq] at hgroup
      rcases hgroup with ⟨rfl, rfl⟩
      simp only [createsOf, hlisting, listed, createListed, Except.toOption, hindex]
      exact ⟨_, rfl, rfl, rfl⟩
  | join response => cases hgroup

/-- In every run every request to create a group is the one that the user asked for, under a name
that the listing of the same attempt did not return; and whenever a listing for a new group
succeeds without its name, the group is requested. -/
theorem creates_what_was_asked (as : List EntryScreenAction) (s : CreatingScreen)
    (hrun : Run step anyAction start as s) :
    (∀ call ∈ s.createCalls, call.Right) ∧
      ∀ index sessions s' listing name password,
        s.step (.listed index (.ok sessions)) = some s' →
        s.screen.listings[index]? = some listing → listing.what.group = some (name, password) →
        (∀ session ∈ sessions, session.sessionName ≠ name) →
        ∃ call, s'.createCalls = s.createCalls ++ [call] ∧ call.name = name ∧
          call.password = password := by
  refine ⟨(createInv_of_run hrun).calls, ?_⟩
  intro index sessions s' listing name password hstep hlisting hgroup hfree
  rcases createsOf_listed hlisting hgroup hfree with ⟨call, hcall, hname, hpassword⟩
  refine ⟨call, ?_, hname, hpassword⟩
  rw [(step_eq_some hstep).2, hcall]

/-- A user creates a group with a password, and leaves the password blank at first. -/
def createProtectedGroup (name password : NSString Unichar) : List EntryScreenAction :=
  [.createGroupClick true, .clickedButton 0 0 [], .clickedButton 0 0 [name, []],
    .clickedButton 0 0 [], .clickedButton 0 0 [name, password], .listed 0 (.ok [])]

/-- The group is requested once, with the password. -/
theorem creates_what_was_asked_password :
    ∃ s, Run step anyAction start (createProtectedGroup [97] [98]) s ∧
      s.createCalls.length = 1 ∧ ∀ call ∈ s.createCalls, call.Right ∧ call.password = some [98] := by
  obtain ⟨s, hs, hlength, hpassword⟩ : ∃ s,
      replay step start (createProtectedGroup [97] [98]) = some s ∧ s.createCalls.length = 1 ∧
        s.createCalls.map (·.password) = [some [98]] := ⟨_, rfl, rfl, rfl⟩
  have hrun := Run.of_replay hs
  refine ⟨s, hrun, hlength, ?_⟩
  intro call hcall
  refine ⟨(creates_what_was_asked _ s hrun).1 call hcall, ?_⟩
  have hmem := List.mem_map_of_mem (f := (·.password)) hcall
  rw [hpassword] at hmem
  exact List.mem_singleton.mp hmem

end CreatingScreen

end WeWrite
