import WeWrite.Editor.Encoding
import WeWrite.Entry.SessionEntry

/-!
# The dialogs of the entry screen

`ViewController2` leads a user into a session by a chain of alerts and requests to the
service.  Every alert has the view controller as its delegate, and one handler tells them
apart by their titles; the answer of the service to a request runs the block that was given
with it.  This module has the alerts, the handler and the blocks, in the order of the source.

A block is the data that it captures, and a handler returns what it starts: each of them
starts at most one alert, request or segue.  A message to `nil` returns zero, `NO` or `nil`, as
in Objective-C.  Left out are logging, placeholders, and the fields of a session and of an
error that nothing here reads.

Main results:

- Theorem `clickedButtonAtIndex_spec`: what an answered alert starts.
- Theorem `listed_spec`: what a completed listing starts.
- Theorem `startPaused_of_request`: every request to enter a session has the `startPaused:` of its
  way in.
-/

namespace WeWrite

/-! ## Alerts -/

/-- `UIAlertViewStyle`. -/
inductive UIAlertViewStyle where
  | default
  | plainTextInput
  | secureTextInput
  | loginAndPasswordInput
deriving DecidableEq, Repr

/-- How many text fields an alert has. -/
def UIAlertViewStyle.textFieldCount : UIAlertViewStyle → Nat
  | .default => 0
  | .plainTextInput | .secureTextInput => 1
  | .loginAndPasswordInput => 2

/-- `UIAlertView`; `delegated` says whether `delegate` is the view controller or `nil`. -/
structure UIAlertView where
  title : String
  message : String
  delegated : Bool
  cancelButtonTitle : String
  otherButtonTitles : List String
  alertViewStyle : UIAlertViewStyle
deriving DecidableEq, Repr

/-- The buttons have indices from 0 on, the cancel button first. -/
def UIAlertView.buttonCount (alert : UIAlertView) : Nat :=
  alert.otherButtonTitles.length + 1

/-- An answer to an alert: the button, and the texts of the text fields. -/
structure AlertAnswer where
  alertView : UIAlertView
  buttonIndex : Nat
  texts : List (NSString Unichar)
deriving DecidableEq, Repr

/-- `[alertView textFieldAtIndex:index].text`. -/
def AlertAnswer.textFieldAtIndex (answer : AlertAnswer) (index : Nat) : NSString Unichar :=
  answer.texts.getD index []

/-- The alert has that button and those text fields. -/
def AlertAnswer.Possible (answer : AlertAnswer) : Prop :=
  answer.buttonIndex < answer.alertView.buttonCount ∧
    answer.texts.length = answer.alertView.alertViewStyle.textFieldCount

instance (answer : AlertAnswer) : Decidable answer.Possible :=
  inferInstanceAs (Decidable (_ ∧ _))

def networkAlert : UIAlertView where
  title := "Cannot Access Internet"
  message := "Please check your connection and try again."
  delegated := false
  cancelButtonTitle := "Okay"
  otherButtonTitles := []
  alertViewStyle := .default

def passwordAlert : UIAlertView where
  title := "Select a Configuration"
  message := "Would you like to password protect access to your group?"
  delegated := true
  cancelButtonTitle := "Yes"
  otherButtonTitles := ["No"]
  alertViewStyle := .default

def joinGroupAlert : UIAlertView where
  title := "Enter the Group Name"
  message := "Please enter the name of the group you wish to join."
  delegated := true
  cancelButtonTitle := "Join"
  otherButtonTitles := ["Cancel"]
  alertViewStyle := .plainTextInput

/-- The alert for the name and the password of a new group.  It is shown with two spellings of
its message. -/
def groupNameAndPasswordAlert (message : String) : UIAlertView where
  title := "Enter a Group Name and Password"
  message := message
  delegated := true
  cancelButtonTitle := "Done"
  otherButtonTitles := ["Cancel"]
  alertViewStyle := .loginAndPasswordInput

/-- The alert for the name of a new group. -/
def groupNameAlert : UIAlertView where
  title := "Enter a Group Name"
  message := "Please enter a name for your group."
  delegated := true
  cancelButtonTitle := "Done"
  otherButtonTitles := ["Cancel"]
  alertViewStyle := .plainTextInput

/-- An alert with a single button `Okay`. -/
def noticeAlert (title message : String) : UIAlertView where
  title := title
  message := message
  delegated := true
  cancelButtonTitle := "Okay"
  otherButtonTitles := []
  alertViewStyle := .default

/-- `displayBlankError:`. -/
def blankError (message : String) : UIAlertView :=
  noticeAlert "Error: Blank Fields" message

def sessionPresentError : UIAlertView :=
  noticeAlert "Group Name Already In Use" "Please provide a different group name."

def sessionNotFound : UIAlertView :=
  noticeAlert "Group Not Found" "This group has not been created."

def joinSessionWithPassword : UIAlertView where
  title := "Enter Group Password"
  message := "Please enter the password for the group."
  delegated := true
  cancelButtonTitle := "Join"
  otherButtonTitles := ["Cancel"]
  alertViewStyle := .secureTextInput

def passwordInvalidError : UIAlertView :=
  noticeAlert "Invalid Password" "The password you have entered invalid"

/-- The alerts in which the join flow asks for a name and for a password. -/
def UIAlertView.IsJoinDialog (alert : UIAlertView) : Prop :=
  alert.title = joinGroupAlert.title ∨ alert.title = joinSessionWithPassword.title

instance (alert : UIAlertView) : Decidable alert.IsJoinDialog :=
  inferInstanceAs (Decidable (_ ∨ _))

/-! ## Sessions, errors and requests -/

/-- The fields of a `CollabrifySession` that the dialogs read. -/
structure CollabrifySession where
  sessionID : Int
  sessionName : NSString Unichar
  isPasswordProtected : Bool
deriving DecidableEq, Repr

/-- `CollabrifyErrorType`, an open enumeration of integers. -/
abbrev CollabrifyErrorType := Int

/-- `CollabrifyErrorType_NOT_SET`, the zero that a message to `nil` returns. -/
def CollabrifyServerSideErrorNotSet : CollabrifyErrorType := 0

def CollabrifyServerSideErrorInvalidSessionPassword : CollabrifyErrorType := 27

/-- A `CollabrifyError`; a missing error is `none`. -/
structure CollabrifyError where
  type : CollabrifyErrorType
deriving DecidableEq, Repr

/-- `[error type]`. -/
def errorType : Option CollabrifyError → CollabrifyErrorType
  | none => CollabrifyServerSideErrorNotSet
  | some error => error.type

/-- The three blocks given to `listSessionsWithTags:completionHandler:`. -/
inductive ListCompletion where
  | createWithPassword (groupName password : NSString Unichar)
  | createWithoutPassword (groupName : NSString Unichar)
  | join (response : NSString Unichar)
deriving DecidableEq, Repr

/-- What a handler or a block starts. -/
inductive Started where
  /-- `[alert show]`. -/
  | showAlert (alert : UIAlertView)
  /-- `listSessionsWithTags:completionHandler:`. -/
  | listSessions (tags : List String) (completion : ListCompletion)
  /-- `createSessionWithName:tags:password:participantLimit:startPaused:completionHandler:`. -/
  | createSession (name : NSString Unichar) (tags : List String)
      (password : Option (NSString Unichar)) (participantLimit : Nat) (startPaused : Bool)
  /-- `joinSessionWithID:password:startPaused:completionHandler:`. -/
  | joinSession (sessionID : Int) (password : NSString Unichar) (startPaused : Bool)
  /-- `performSegueWithIdentifier:sender:`. -/
  | segue (identifier : String)
deriving DecidableEq, Repr

/-! ## The view controller -/

/-- The properties of `ViewController2` that the dialogs use. -/
structure ViewController2 where
  session : Option CollabrifySession
  tags : List String
deriving DecidableEq, Repr

namespace ViewController2

/-- `viewDidLoad`. -/
def viewDidLoad : ViewController2 where
  session := none
  tags := ["jhjk"]

/-- `[self session].sessionID`, zero for `nil`. -/
def sessionID (vc : ViewController2) : Int :=
  (vc.session.map (·.sessionID)).getD 0

/-- `joinSession:`, up to its request. -/
def joinSession (vc : ViewController2) (password : NSString Unichar) : Started :=
  .joinSession vc.sessionID password true

/-- The completion block of `joinSession:`. -/
def joined (error : Option CollabrifyError) : Started :=
  if errorType error = CollabrifyServerSideErrorInvalidSessionPassword then
    .showAlert passwordInvalidError
  else
    .segue "VC2toVC"

/-- `createGroupClick:`. -/
def createGroupClick (hasNetworkConnection : Bool) : Started :=
  if !hasNetworkConnection then .showAlert networkAlert else .showAlert passwordAlert

/-- `joinGroupClicked:`. -/
def joinGroupClicked (hasNetworkConnection : Bool) : Started :=
  if !hasNetworkConnection then .showAlert networkAlert else .showAlert joinGroupAlert

/-- `[sessionList indexOfObjectPassingTest:]` with the test for a name; `none` is `NSNotFound`.
A message to a `nil` list returns the index 0. -/
def indexOfSession (sessionList : Option (List CollabrifySession)) (name : NSString Unichar) :
    Option Nat :=
  match sessionList with
  | none => some 0
  | some sessions => sessions.findIdx? fun session => session.sessionName = name

/-- The block that both ways of creating a group give to the listing. -/
def createListed (vc : ViewController2) (groupName : NSString Unichar)
    (password : Option (NSString Unichar)) (sessionList : Option (List CollabrifySession)) :
    Started :=
  match indexOfSession sessionList groupName with
  | some _ => .showAlert sessionPresentError
  | none => .createSession groupName vc.tags password 500 false

/-- The completion block of both requests to create a session. -/
def created : Option CollabrifyError → Option Started
  | some _ => none
  | none => some (.segue "VC2toVC")

/-- The block that joining a group gives to the listing. -/
def joinListed (vc : ViewController2) (response : NSString Unichar)
    (sessionList : Option (List CollabrifySession)) : ViewController2 × Started :=
  match indexOfSession sessionList response with
  | some result =>
      -- `sessionList[result]` of a `nil` list is `nil`
      let vc := { vc with session := sessionList.bind fun sessions => sessions[result]? }
      if (vc.session.map (·.isPasswordProtected)).getD false then
        (vc, .showAlert joinSessionWithPassword)
      else
        (vc, vc.joinSession [])
  | none => (vc, .showAlert sessionNotFound)

/-- The block given to a listing.  None of them looks at the error. -/
def listed (vc : ViewController2) (sessionList : Option (List CollabrifySession)) :
    ListCompletion → ViewController2 × Started
  | .createWithPassword groupName password =>
      (vc, vc.createListed groupName (some password) sessionList)
  | .createWithoutPassword groupName => (vc, vc.createListed groupName none sessionList)
  | .join response => vc.joinListed response sessionList

/-- `alertView:clickedButtonAtIndex:`. -/
def clickedButtonAtIndex (vc : ViewController2) (answer : AlertAnswer) : Option Started :=
  if answer.alertView.title = "Select a Configuration" then
    if answer.buttonIndex = 0 then
      some (.showAlert (groupNameAndPasswordAlert
        "Please enter a name for your group and a access password."))
    else
      some (.showAlert groupNameAlert)
  else if answer.alertView.title = "Enter a Group Name and Password" then
    if answer.buttonIndex ≠ 0 then none
    else
      let groupName := answer.textFieldAtIndex 0
      let password := answer.textFieldAtIndex 1
      if groupName = [] ∨ password = [] then
        some (.showAlert (blankError
          "Please do not leave any fields blank. Enter a group name and password."))
      else
        some (.listSessions ["jhjk"] (.createWithPassword groupName password))
  else if answer.alertView.title = "Enter a Group Name" then
    if answer.buttonIndex ≠ 0 then none
    else
      let groupName := answer.textFieldAtIndex 0
      if groupName = [] then
        some (.showAlert (blankError "Please do not leave any fields blank. Enter a group name."))
      else
        some (.listSessions ["jhjk"] (.createWithoutPassword groupName))
  else if answer.alertView.title = "Error: Blank Fields" then
    if answer.alertView.message =
        "Please do not leave any fields blank. Enter a group name and password." then
      some (.showAlert (groupNameAndPasswordAlert
        "Please enter a name for your group and an access password."))
    else
      some (.showAlert groupNameAlert)
  else if answer.alertView.title = "Enter the Group Name" then
    if answer.buttonIndex ≠ 0 then none
    else some (.listSessions ["jhjk"] (.join (answer.textFieldAtIndex 0)))
  else if answer.alertView.title = "Enter Group Password" then
    -- the button is not looked at here
    some (vc.joinSession (answer.textFieldAtIndex 0))
  else
    none

/-! ## What they start -/

/-- What an answered alert starts: an alert or a listing on the way to a new group, the listing
of the join flow, or a join. -/
inductive ClickStarts (vc : ViewController2) (answer : AlertAnswer) : Started → Prop where
  | creatingAlert (alert : UIAlertView) (hother : ¬ alert.IsJoinDialog) :
      ClickStarts vc answer (.showAlert alert)
  | creatingList (tags : List String) (completion : ListCompletion)
      (hother : ∀ response, completion ≠ .join response) :
      ClickStarts vc answer (.listSessions tags completion)
  | joinList (htitle : answer.alertView.title = joinGroupAlert.title)
      (hbutton : answer.buttonIndex = 0) :
      ClickStarts vc answer (.listSessions ["jhjk"] (.join (answer.textFieldAtIndex 0)))
  | join (htitle : answer.alertView.title = joinSessionWithPassword.title) :
      ClickStarts vc answer (vc.joinSession (answer.textFieldAtIndex 0))

theorem clickedButtonAtIndex_spec {vc : ViewController2} {answer : AlertAnswer}
    {started : Started} (h : vc.clickedButtonAtIndex answer = some started) :
    ClickStarts vc answer started := by
  unfold clickedButtonAtIndex at h
  dsimp only at h
  split_ifs at h with hconfiguration hyes hboth hbutton hblank hname hbutton hblank hblank
    hmessage hjoin hbutton hpassword
  all_goals obtain rfl := Option.some.inj h
  · exact .creatingAlert _ (by decide)
  · exact .creatingAlert _ (by decide)
  · exact .creatingAlert _ (by decide)
  · exact .creatingList _ _ (by simp)
  · exact .creatingAlert _ (by decide)
  · exact .creatingList _ _ (by simp)
  · exact .creatingAlert _ (by decide)
  · exact .creatingAlert _ (by decide)
  · exact .joinList hjoin (by simpa using hbutton)
  · exact .join hpassword

/-- The password alert starts a join whichever button was pressed. -/
theorem clickedButtonAtIndex_password {vc : ViewController2} {answer : AlertAnswer}
    (htitle : answer.alertView.title = joinSessionWithPassword.title) :
    vc.clickedButtonAtIndex answer = some (vc.joinSession (answer.textFieldAtIndex 0)) := by
  simp [clickedButtonAtIndex, htitle, joinSessionWithPassword]

/-- What a completed listing starts.  For a new group it is a notice, or the request to create
it.  For a join it is a join of nothing if the listing failed, and otherwise a question or a join
for the first session of that name, or a notice. -/
inductive ListingStarts (vc : ViewController2) :
    ListCompletion → Option (List CollabrifySession) → ViewController2 → Started → Prop where
  | creatingAlert (completion : ListCompletion) (sessionList : Option (List CollabrifySession))
      (hother : ∀ response, completion ≠ .join response) :
      ListingStarts vc completion sessionList vc (.showAlert sessionPresentError)
  | create (completion : ListCompletion) (sessionList : Option (List CollabrifySession))
      (groupName : NSString Unichar) (password : Option (NSString Unichar))
      (hother : ∀ response, completion ≠ .join response) :
      ListingStarts vc completion sessionList vc
        (.createSession groupName vc.tags password 500 false)
  | joinFailed (response : NSString Unichar) :
      ListingStarts vc (.join response) none { vc with session := none } (.joinSession 0 [] true)
  | joinAsked (response : NSString Unichar) (sessions : List CollabrifySession)
      (session : CollabrifySession)
      (hfound : sessions.find? (fun session => session.sessionName = response) = some session)
      (hprotected : session.isPasswordProtected = true) :
      ListingStarts vc (.join response) (some sessions) { vc with session := some session }
        (.showAlert joinSessionWithPassword)
  | joinOpen (response : NSString Unichar) (sessions : List CollabrifySession)
      (session : CollabrifySession)
      (hfound : sessions.find? (fun session => session.sessionName = response) = some session)
      (hopen : session.isPasswordProtected = false) :
      ListingStarts vc (.join response) (some sessions) { vc with session := some session }
        (.joinSession session.sessionID [] true)
  | joinNotFound (response : NSString Unichar) (sessions : List CollabrifySession)
      (hnone : sessions.find? (fun session => session.sessionName = response) = none) :
      ListingStarts vc (.join response) (some sessions) vc (.showAlert sessionNotFound)

theorem createListed_spec (vc : ViewController2) (completion : ListCompletion)
    (groupName : NSString Unichar) (password : Option (NSString Unichar))
    (sessionList : Option (List CollabrifySession))
    (hother : ∀ response, completion ≠ .join response) :
    ListingStarts vc completion sessionList vc
      (vc.createListed groupName password sessionList) := by
  unfold createListed
  cases indexOfSession sessionList groupName with
  | some result => exact .creatingAlert _ _ hother
  | none => exact .create _ _ _ _ hother

theorem joinListed_spec (vc : ViewController2) (response : NSString Unichar)
    (sessionList : Option (List CollabrifySession)) :
    ListingStarts vc (.join response) sessionList (vc.joinListed response sessionList).1
      (vc.joinListed response sessionList).2 := by
  cases sessionList with
  | none => exact .joinFailed response
  | some sessions =>
      have hfind : sessions.find? (fun session => session.sessionName = response) =
          (sessions.findIdx? fun session => session.sessionName = response).bind (sessions[·]?) :=
        List.find?_eq_bind_findIdx?_getElem?
      cases hindex : sessions.findIdx? fun session => session.sessionName = response with
      | none =>
          rw [hindex] at hfind
          have hnotFound :
              vc.joinListed response (some sessions) = (vc, .showAlert sessionNotFound) := by
            simp only [joinListed, indexOfSession, hindex]
          rw [hnotFound]
          exact .joinNotFound response sessions hfind
      | some result =>
          rcases List.findIdx?_eq_some_iff_getElem.mp hindex with ⟨hlt, -⟩
          have hresult : sessions[result]? = some sessions[result] := List.getElem?_eq_getElem hlt
          rw [hindex, Option.bind_some, hresult] at hfind
          by_cases hprotected : sessions[result].isPasswordProtected = true
          · have hasked : vc.joinListed response (some sessions) =
                ({ vc with session := some sessions[result] },
                  .showAlert joinSessionWithPassword) := by
              simp [joinListed, indexOfSession, hindex, hresult, hprotected]
            rw [hasked]
            exact .joinAsked response sessions _ hfind hprotected
          · have hjoined : vc.joinListed response (some sessions) =
                ({ vc with session := some sessions[result] },
                  .joinSession sessions[result].sessionID [] true) := by
              simp [joinListed, indexOfSession, hindex, hresult, hprotected, joinSession, sessionID]
            rw [hjoined]
            exact .joinOpen response sessions _ hfind (by simpa using hprotected)

theorem listed_spec (vc : ViewController2) (sessionList : Option (List CollabrifySession))
    (completion : ListCompletion) :
    ListingStarts vc completion sessionList (vc.listed sessionList completion).1
      (vc.listed sessionList completion).2 := by
  cases completion with
  | createWithPassword groupName password =>
      exact createListed_spec vc _ groupName (some password) sessionList (by simp)
  | createWithoutPassword groupName =>
      exact createListed_spec vc _ groupName none sessionList (by simp)
  | join response => exact joinListed_spec vc response sessionList

/-! ## The ways into a session -/

/-- The way into a session that a request asks for, with its `startPaused:`. -/
def wayIn : Started → Option (EntryPath × Bool)
  | .createSession _ _ (some _) _ startPaused => some (.createWithPassword, startPaused)
  | .createSession _ _ none _ startPaused => some (.createWithoutPassword, startPaused)
  | .joinSession _ _ startPaused => some (.join, startPaused)
  | .showAlert _ | .listSessions _ _ | .segue _ => none

theorem startPaused_of_click {vc : ViewController2} {answer : AlertAnswer} {started : Started}
    (h : ClickStarts vc answer started) {path : EntryPath} {startPaused : Bool}
    (hway : wayIn started = some (path, startPaused)) : startPaused = path.startPaused := by
  cases h with
  | creatingAlert alert _ => cases hway
  | creatingList tags completion _ => cases hway
  | joinList _ _ => cases hway
  | join _ =>
      cases hway
      rfl

theorem startPaused_of_listing {vc vc' : ViewController2} {completion : ListCompletion}
    {sessionList : Option (List CollabrifySession)} {started : Started}
    (h : ListingStarts vc completion sessionList vc' started) {path : EntryPath}
    {startPaused : Bool} (hway : wayIn started = some (path, startPaused)) :
    startPaused = path.startPaused := by
  cases h with
  | creatingAlert _ _ _ => cases hway
  | create _ _ groupName password _ =>
      cases password with
      | none =>
          cases hway
          rfl
      | some password =>
          cases hway
          rfl
  | joinFailed response =>
      cases hway
      rfl
  | joinAsked response sessions session _ _ => cases hway
  | joinOpen response sessions session _ _ =>
      cases hway
      rfl
  | joinNotFound response sessions _ => cases hway

/-- Whatever alert is answered and whatever listing completes: a request to enter a session that is
started has the `startPaused:` of its way in. -/
theorem startPaused_of_request (vc : ViewController2) {path : EntryPath} {startPaused : Bool} :
    (∀ answer started, vc.clickedButtonAtIndex answer = some started →
        wayIn started = some (path, startPaused) → startPaused = path.startPaused) ∧
      ∀ sessionList completion,
        wayIn (vc.listed sessionList completion).2 = some (path, startPaused) →
        startPaused = path.startPaused := by
  constructor
  · intro answer started hstarted
    exact startPaused_of_click (clickedButtonAtIndex_spec hstarted)
  · intro sessionList completion
    exact startPaused_of_listing (listed_spec vc sessionList completion)

end ViewController2

end WeWrite
