import WeWrite.Session.Agreement

/-!
# Sessions in which everybody only types

Every edit of the session is one character at some caret, and every device reads it as that
character.  The broadcasts of one client may be published in any sequence.

The decision between `Insert` and `Delete` compares the cached size with the new length, and
the cache can be stale.  It never exceeds the length of the text, because a text view is
never longer than the side string together with the own broadcasts still to come back, so
the `setText:` of a last echo does not shrink the view below the cache.

ASCII characters typed into an empty text are the case in which the devices need not decode
alike.

Main results:

- Theorem `Session.submitted_perm_editsBy`: in every session each edit is submitted once.
- Theorem `Session.typingInv_of_run`: every broadcast is an `Insert` of the typed character.
- Theorems `Session.replay_keystrokes_sublist` and `Session.replay_keystrokes_perm`: folding
  keystrokes adds exactly the characters that were typed.
- Theorem `Session.no_keystroke_lost`: no keystroke is lost or duplicated.
-/

namespace WeWrite

open Transition ViewController

variable {ι : Type}

/-- The characters an edit types. -/
def Edit.typed {α : Type} : Edit α → List α
  | .insert _ char => [char]
  | _ => []

namespace Session

/-! ## Every edit is submitted once -/

section Submitted

variable {α γ : Type} [DecidableEq ι] {dev : ι → Device α γ} {s s' : Session ι α γ}

/-- All broadcasts of client `i`, published or waiting. -/
def submitted (s : Session ι α γ) (i : ι) : List (Submission ι α γ) :=
  s.ownFrom i 0

/-- The edits that client `i` makes in a list of actions. -/
def editsBy (i : ι) (as : List (SessionAction ι α)) : List (Edit α) :=
  as.filterMap fun
    | .edit j edit => if j = i then some edit else none
    | _ => none

theorem editsBy_concat (i : ι) (as : List (SessionAction ι α)) (a : SessionAction ι α) :
    editsBy i (as ++ [a]) = editsBy i as ++ editsBy i [a] := by
  simp [editsBy]

theorem submitted_congr {i : ι} (horder : s'.order = s.order)
    (houtbox : (s'.client i).outbox = (s.client i).outbox) : s'.submitted i = s.submitted i := by
  rw [submitted, submitted, ownFrom, ownFrom, horder, houtbox]

/-- Publishing and delivering lose no broadcast and make none; an edit of the client itself
makes one. -/
theorem submitted_step {i : ι} {a : SessionAction ι α} (hinv : Inv s)
    (hstep : s.step dev a = some s') :
    ((s'.submitted i).map Submission.edit).Perm
      ((s.submitted i).map Submission.edit ++ editsBy i [a]) := by
  cases a with
  | join j =>
      obtain rfl := step_join hstep
      rw [submitted_congr (by rfl) (setClient_client_congr Client.outbox s (by rfl) i)]
      simp [editsBy]
  | edit j edit =>
      rcases step_edit hstep with ⟨vc, event, -, rfl⟩
      by_cases hij : j = i
      · subst hij
        simp [submitted, ownFrom, submission, editsBy]
      · simp [submitted, ownFrom, setClient_client_of_ne s _ (Ne.symm hij), editsBy, hij]
  | select j range =>
      obtain rfl := step_select hstep
      rw [submitted_congr (by rfl) (setClient_client_congr Client.outbox s (by rfl) i)]
      simp [editsBy]
  | publish j index =>
      rcases step_publish hstep with ⟨x, hx, rfl⟩
      have hnone : editsBy i [SessionAction.publish (α := α) j index] = [] := rfl
      rw [hnone, List.append_nil]
      apply List.Perm.map
      by_cases hij : j = i
      · subst hij
        simpa [submitted, ownFrom] using ownFrom_publish_self hinv (Nat.zero_le _) hx
      · have hauthor : x.author ≠ i := by
          rw [hinv.author j x (List.mem_of_getElem? hx)]
          exact hij
        have hfilter := filter_drop_publish hauthor (Nat.zero_le s.order.length)
        simp only [List.drop_zero] at hfilter
        simp [submitted, ownFrom, setClient_client_of_ne s _ (Ne.symm hij), -List.filter_append,
          hfilter]
  | deliver j =>
      rcases step_deliver hstep with ⟨x, vc, hx, -, rfl⟩
      rw [submitted_congr (by rfl) (setClient_client_congr Client.outbox s (by rfl) i)]
      simp [editsBy]

/-- In every session, what a client has submitted are exactly its edits. -/
theorem submitted_perm_editsBy {view : ι → UITextView α}
    {ok : Session ι α γ → SessionAction ι α → Prop} {as : List (SessionAction ι α)}
    (hrun : Run (step dev) ok (start view) as s) (i : ι) :
    ((s.submitted i).map Submission.edit).Perm (editsBy i as) := by
  induction hrun with
  | nil => exact List.Perm.refl []
  | snoc hrun _ hstep ih =>
      rw [editsBy_concat]
      exact (submitted_step (inv_of_run hrun) hstep).trans (ih.append_right _)

end Submitted

/-! ## Keystrokes -/

section Typing

variable {α γ : Type} {dev : ι → Device α γ} {s s' : Session ι α γ}

/-- A submission is one typed character, broadcast as one `Insert` at its place, which every
device reads as that character. -/
def SentAsTyped (dev : ι → Device α γ) (x : Submission ι α γ) : Prop :=
  ∃ location char, x.edit = .insert location char ∧ x.event.eventType = .insert ∧
    x.event.data.contentModified = (dev x.author).utf8String [char] ∧
    x.event.data.cursorLocation = location + 1 ∧
    ∀ j, (dev j).stringWithCString x.event.data.contentModified = [char]

/-- What a keystroke does to a string: it puts its character in, wherever that is. -/
theorem SentAsTyped.apply {x : Submission ι α γ} (hx : SentAsTyped dev x) {j : ι}
    {t t' : NSString α} (happly : applyEvent (dev j).stringWithCString t x.event = some t') :
    ∃ place, t' = Splice.insertAt place x.edit.typed t := by
  rcases hx with ⟨location, char, hedit, htype, -, -, hread⟩
  rw [applyEvent, if_pos htype, hread j] at happly
  rcases insertString_eq_some_iff.mp happly with ⟨-, -, rfl⟩
  exact ⟨_, by rw [hedit]; rfl⟩

/-- A keystroke makes the string one longer. -/
theorem SentAsTyped.length_apply {x : Submission ι α γ} (hx : SentAsTyped dev x) {j : ι}
    {t t' : NSString α} (happly : applyEvent (dev j).stringWithCString t x.event = some t') :
    t'.length = t.length + 1 := by
  rcases hx.apply happly with ⟨place, rfl⟩
  rcases hx with ⟨location, char, hedit, -⟩
  rw [hedit]
  simp [Edit.typed]

/-- Folding keystrokes keeps the sequence of what was there. -/
theorem replay_keystrokes_sublist {j : ι} {xs : List (Submission ι α γ)}
    (hxs : ∀ x ∈ xs, SentAsTyped dev x) {t t' : NSString α}
    (hreplay : replay (applyEvent (dev j).stringWithCString) t (xs.map Submission.event) =
      some t') : t.Sublist t' := by
  induction xs using List.reverseRecOn generalizing t' with
  | nil =>
      cases hreplay
      exact List.Sublist.refl t
  | append_singleton xs x ih =>
      rw [List.map_append, List.map_singleton, replay_concat] at hreplay
      rcases Option.bind_eq_some_iff.mp hreplay with ⟨t₁, ht₁, hlast⟩
      have hbefore := ih (fun y hy => hxs y (List.mem_append_left _ hy)) ht₁
      rcases (hxs x (by simp)).apply hlast with ⟨place, rfl⟩
      exact hbefore.trans (Splice.sublist_insertAt _ _ _)

/-- Folding keystrokes adds exactly the characters that were typed. -/
theorem replay_keystrokes_perm {j : ι} {xs : List (Submission ι α γ)}
    (hxs : ∀ x ∈ xs, SentAsTyped dev x) {t t' : NSString α}
    (hreplay : replay (applyEvent (dev j).stringWithCString) t (xs.map Submission.event) =
      some t') : t'.Perm (t ++ xs.flatMap fun x => x.edit.typed) := by
  induction xs using List.reverseRecOn generalizing t' with
  | nil =>
      cases hreplay
      simp
  | append_singleton xs x ih =>
      rw [List.map_append, List.map_singleton, replay_concat] at hreplay
      rcases Option.bind_eq_some_iff.mp hreplay with ⟨t₁, ht₁, hlast⟩
      have hbefore := ih (fun y hy => hxs y (List.mem_append_left _ hy)) ht₁
      rcases (hxs x (by simp)).apply hlast with ⟨place, rfl⟩
      have hafter : (Splice.insertAt place x.edit.typed t₁).Perm (t₁ ++ x.edit.typed) :=
        (Splice.insertAt_perm _ _ _).trans List.perm_append_comm
      simpa using hafter.trans (hbefore.append_right _)

/-! ## The cached size never exceeds the text -/

/-- The bounds at one client: the cache against the text, and the text against the side
string and the echoes still to come. -/
structure TypingClient (dev : ι → Device α γ) (c : Client ι α γ) : Prop where
  nonneg : 0 ≤ c.vc.textSize
  cache : c.vc.textSize ≤ c.vc.myTextView.text.length
  view : c.vc.myTextView.text.length ≤ c.vc.sideString.length + c.vc.brCounter
  waiting : ∀ x ∈ c.outbox, SentAsTyped dev x

/-- What holds of a session in which everybody only types. -/
structure TypingInv (dev : ι → Device α γ) (s : Session ι α γ) : Prop where
  client : ∀ i, TypingClient dev (s.client i)
  published : ∀ x ∈ s.order, SentAsTyped dev x

theorem typingInv_start (dev : ι → Device α γ) (view : ι → UITextView α) :
    TypingInv dev (start view : Session ι α γ) where
  client i := by
    refine ⟨Int.le_refl 0, ?_, ?_, by simp [start]⟩ <;> simp [start, viewDidLoad]
  published := by simp [start]

/-- A keystroke that arrives keeps the bounds. -/
theorem TypingClient.received {c : Client ι α γ} (hc : TypingClient dev c) {i : ι}
    {x : Submission ι α γ} (hx : SentAsTyped dev x) {vc : ViewController α}
    (hreceived : Received (dev i).stringWithCString i x c.vc vc) (delivered shown : Nat) :
    TypingClient dev { c with vc := vc, delivered := delivered, shown := shown } := by
  rcases hc with ⟨hnonneg, hcache, hview, hwaiting⟩
  have hside := hx.length_apply hreceived.side
  rcases hreceived with ⟨-, hown⟩ | ⟨-, hremote⟩
  · have hcounter := hown.counter
    have htext := hown.text
    refine ⟨by rw [hown.textSize]; exact hnonneg, ?_, ?_, hwaiting⟩ <;>
      simp only [hown.textSize] <;> rw [htext] <;> split_ifs <;> omega
  · have hcounter := hremote.counter
    by_cases hzero : c.vc.brCounter = 0
    · rcases hremote.shown hzero with ⟨htext, hsize⟩
      have hlength := hx.length_apply htext
      exact ⟨by simp only; omega, by simp only; omega, by simp only; omega, hwaiting⟩
    · rcases hremote.hidden hzero with ⟨hsame, hsize⟩
      exact ⟨by simp only; omega, by simp only [hsame]; omega, by simp only [hsame]; omega,
        hwaiting⟩

variable [DecidableEq ι]

/-- Users only type characters that every device reads as typed. -/
def TypesReadable (dev : ι → Device α γ) (_ : Session ι α γ) : SessionAction ι α → Prop
  | .edit i (.insert _ char) =>
      ∀ j, (dev j).stringWithCString ((dev i).utf8String [char]) = [char]
  | .edit _ _ => False
  | _ => True

theorem typingInv_step {a : SessionAction ι α} (hinv : TypingInv dev s)
    (hok : TypesReadable dev s a) (hstep : s.step dev a = some s') : TypingInv dev s' := by
  rcases hinv with ⟨hclient, hpublished⟩
  cases a with
  | join i =>
      obtain rfl := step_join hstep
      rcases hclient i with ⟨hnonneg, hcache, hview, hwaiting⟩
      exact ⟨forall_setClient (P := fun _ => TypingClient dev) hclient
        ⟨hnonneg, hcache, hview, hwaiting⟩, hpublished⟩
  | edit i edit =>
      rcases step_edit hstep with ⟨vc, event, hedit, rfl⟩
      have hedited := userEdit_spec hedit
      cases edit with
      | insert location char =>
          rcases hclient i with ⟨hnonneg, hcache, hview, hwaiting⟩
          rcases hedited.typed hcache with ⟨htype, hcontent, hlocation, hlength⟩
          have hread : ∀ j, (dev j).stringWithCString event.data.contentModified = [char] := by
            intro j
            rw [hcontent]
            exact hok j
          have hside := hedited.side
          have hcounter := hedited.counter
          have hsize := hedited.textSize
          refine ⟨forall_setClient (P := fun _ => TypingClient dev) hclient
            ⟨by simp only; omega, by simp only; omega, ?_, ?_⟩, hpublished⟩
          · simp only [hside]
            omega
          · exact forall_mem_concat hwaiting
              ⟨location, char, rfl, htype, hcontent, hlocation, hread⟩
      | delete location count => exact hok.elim
      | replace view => exact hok.elim
  | select i range =>
      obtain rfl := step_select hstep
      rcases hclient i with ⟨hnonneg, hcache, hview, hwaiting⟩
      exact ⟨forall_setClient (P := fun _ => TypingClient dev) hclient
        ⟨hnonneg, hcache, hview, hwaiting⟩, hpublished⟩
  | publish i index =>
      rcases step_publish hstep with ⟨x, hx, rfl⟩
      rcases hclient i with ⟨hnonneg, hcache, hview, hwaiting⟩
      exact ⟨forall_setClient (P := fun _ => TypingClient dev) hclient
        ⟨hnonneg, hcache, hview, fun y hy => hwaiting y (List.mem_of_mem_eraseIdx hy)⟩,
        forall_mem_concat hpublished (hwaiting x (List.mem_of_getElem? hx))⟩
  | deliver i =>
      rcases step_deliver hstep with ⟨x, vc, hx, hvc, rfl⟩
      exact ⟨forall_setClient (P := fun _ => TypingClient dev) hclient
        ((hclient i).received (hpublished x (List.mem_of_getElem? hx))
          (received_of_receivedEvent hvc) _ _), hpublished⟩

theorem typingInv_of_run {ok : Session ι α γ → SessionAction ι α → Prop}
    {view : ι → UITextView α} (hok : ∀ s a, ok s a → TypesReadable dev s a)
    {as : List (SessionAction ι α)} (hrun : Run (step dev) ok (start view) as s) :
    TypingInv dev s :=
  hrun.invariant (TypingInv dev) (typingInv_start dev view) fun _ _ _ hinv ha hstep =>
    typingInv_step hinv (hok _ _ ha) hstep

end Typing

/-! ## ASCII keystrokes -/

/-- The characters an event carries, when its content is ASCII. -/
def carried (event : Event UInt8) : NSString Unichar :=
  event.data.contentModified.map UInt8.toUInt16

/-- A submission is one typed character, broadcast as one `Insert` of that character. -/
def IsKeystroke (x : Submission ι Unichar UInt8) : Prop :=
  ∃ location char, AsciiChar char ∧ x.edit = .insert location char ∧
    x.event.eventType = .insert ∧ x.event.data.contentModified = utf8Bytes [char]

/-- A keystroke carries what was typed. -/
theorem IsKeystroke.carried_event {x : Submission ι Unichar UInt8} (hx : IsKeystroke x) :
    carried x.event = x.edit.typed := by
  rcases hx with ⟨location, char, hchar, hedit, -, hcontent⟩
  rw [carried, hcontent, utf8Bytes_ascii hchar, List.map_singleton, toUInt16_ofNat_ascii hchar,
    hedit]
  rfl

variable {dev : ι → Device Unichar UInt8} {s : Session ι Unichar UInt8}

/-- Users only type ASCII characters. -/
def TypesAscii (_ : Session ι Unichar UInt8) : SessionAction ι Unichar → Prop
  | .edit _ (.insert _ char) => AsciiChar char
  | .edit _ _ => False
  | _ => True

/-- Devices that extend ASCII read every ASCII character as typed. -/
theorem TypesAscii.typesReadable (hdev : ∀ i, ExtendsAscii (dev i))
    {a : SessionAction ι Unichar} (ha : TypesAscii s a) : TypesReadable dev s a := by
  cases a with
  | edit i edit =>
      cases edit with
      | insert location char =>
          intro j
          rw [(hdev i).utf8 char ha, (hdev j).read_utf8Bytes ha]
      | delete location count => exact ha
      | replace view => exact ha
  | _ => trivial

/-- What was sent as typed, of an ASCII character, is a keystroke. -/
theorem SentAsTyped.isKeystroke (hdev : ∀ i, ExtendsAscii (dev i))
    {x : Submission ι Unichar UInt8} (hx : SentAsTyped dev x)
    (hascii : ∃ location char, AsciiChar char ∧ x.edit = .insert location char) :
    IsKeystroke x := by
  rcases hx with ⟨location, char, hedit, htype, hcontent, -⟩
  rcases hascii with ⟨location', char', hchar, hedit'⟩
  rw [hedit] at hedit'
  cases hedit'
  refine ⟨location, char, hchar, hedit, htype, ?_⟩
  rw [hcontent, (hdev x.author).utf8 char hchar]

variable [DecidableEq ι]

/-- When everybody only types ASCII characters, all broadcasts are keystrokes. -/
theorem isKeystroke_of_run (hdev : ∀ i, ExtendsAscii (dev i)) {view : ι → UITextView Unichar}
    {as : List (SessionAction ι Unichar)} (hrun : Run (step dev) TypesAscii (start view) as s) :
    (∀ x ∈ s.order, IsKeystroke x) ∧ ∀ i, ∀ x ∈ (s.client i).outbox, IsKeystroke x := by
  have hinv : TypingInv dev s :=
    typingInv_of_run (fun _ _ ha => ha.typesReadable hdev) hrun
  have hedits := edit_of_run
    (P := fun edit => ∃ location char, AsciiChar char ∧ edit = .insert location char) (by
      intro s i edit hok
      cases edit with
      | insert location char => exact ⟨location, char, hok, rfl⟩
      | delete location count => exact hok.elim
      | replace view => exact hok.elim) hrun
  exact ⟨fun x hx => (hinv.published x hx).isKeystroke hdev (hedits.1 x hx),
    fun i x hx => ((hinv.client i).waiting x hx).isKeystroke hdev (hedits.2 i x hx)⟩

/-! ## No keystroke is lost or duplicated -/

/-- When everybody only types ASCII characters from an empty text: a keystroke never raises;
each client's broadcasts are exactly its keystrokes, each one `Insert` of the typed
character; every side string is a permutation of the characters carried by the events
delivered, and so is every text view with a zero counter. -/
theorem no_keystroke_lost (dev : ι → Device Unichar UInt8) (hdev : ∀ i, ExtendsAscii (dev i))
    (view : ι → UITextView Unichar) (hopen : ∀ i, (view i).text = [])
    (as : List (SessionAction ι Unichar)) (s : Session ι Unichar UInt8)
    (hrun : Run (step dev) TypesAscii (start view) as s) (i : ι) :
    (∀ location char, (s.client i).joined = true →
        location ≤ (s.client i).vc.myTextView.text.length →
        ∃ s', s.step dev (.edit i (.insert location char)) = some s') ∧
      ((s.submitted i).map Submission.edit).Perm (editsBy i as) ∧
      (∀ x ∈ s.submitted i, IsKeystroke x) ∧
      (s.client i).vc.sideString.Perm ((s.receivedEvents i).flatMap carried) ∧
      ((s.client i).vc.brCounter = 0 →
        (s.client i).vc.myTextView.text.Perm ((s.receivedEvents i).flatMap carried)) := by
  rcases isKeystroke_of_run hdev hrun with ⟨hpublished, hwaiting⟩
  have hinv : TypingInv dev s :=
    typingInv_of_run (fun _ _ ha => ha.typesReadable hdev) hrun
  have hfolded := folded_of_run hrun i
  have hside : (s.client i).vc.sideString.Perm ((s.receivedEvents i).flatMap carried) := by
    have hreplay := hfolded.folded
    rw [hopen i] at hreplay
    have hperm := replay_keystrokes_perm
      (fun x hx => hinv.published x (List.mem_of_mem_take hx)) hreplay
    rw [List.nil_append] at hperm
    rw [receivedEvents, List.flatMap_map]
    refine hperm.trans (List.Perm.of_eq ?_)
    exact List.flatMap_congr fun x hx =>
      (hpublished x (List.mem_of_mem_take hx)).carried_event.symm
  refine ⟨?_, submitted_perm_editsBy hrun i, ?_, hside, ?_⟩
  · intro location char hjoined hlocation
    rcases exists_userEdit_insert (dev i) (s.client i).vc char hlocation with ⟨result, hresult⟩
    exact exists_step_edit hjoined hresult
  · intro x hx
    rcases List.mem_append.mp hx with hx | hx
    · exact hpublished x (List.mem_of_mem_filter hx)
    · exact hwaiting i x hx
  · intro hzero
    rw [hfolded.synced hzero]
    exact hside

/-- Two clients type; the echo of the first makes its cache stale. -/
theorem no_keystroke_lost_stale :
    ∃ as, ∃ s : Session Bool Unichar UInt8,
      Run (step fun _ => latin1Device) TypesAscii (start fun _ => viewOf []) as s ∧
        (s.client true).vc.textSize < (s.client true).vc.myTextView.text.length ∧
        (s.client true).vc.sideString.Perm ((s.receivedEvents true).flatMap carried) := by
  let as : List (SessionAction Bool Unichar) :=
    [.join true, .join false, .edit true (.insert 0 97), .edit false (.insert 0 98),
      .publish false 0, .publish true 0, .deliver true, .deliver true]
  obtain ⟨s, hs, hstale⟩ : ∃ s, replay (step fun _ => latin1Device)
      (start fun _ => viewOf [] : Session Bool Unichar UInt8) as = some s ∧
        (s.client true).vc.textSize < (s.client true).vc.myTextView.text.length :=
    ⟨_, rfl, by decide⟩
  have hrun : Run (step fun _ => latin1Device) TypesAscii (start fun _ => viewOf []) as s := by
    apply Run.of_replay_of_forall hs
    simp [as, TypesAscii, AsciiChar]
  exact ⟨as, s, hrun, hstale, (no_keystroke_lost _ (fun _ => latin1Device_extendsAscii) _
    (fun _ => rfl) as s hrun true).2.2.2.1⟩

end Session

end WeWrite
