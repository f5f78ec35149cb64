import WeWrite.Entry.SessionEntry
import WeWrite.Session.Model

/-!
# Entering a session that goes on

In `Session` a client joins in one step, and from then on each delivery is one step.  What happens
takes longer.  The service lets a device in, the completion handler performs the segue, the editor
loads and becomes the delegate, and at the end of `viewDidLoad` the events are resumed.  An event
reaches the device at any time, is handed to the delegate of that time or waits, and what the
editor is handed is put on the main queue, which handles it some time later.  Meanwhile the others
edit.

`EnteringSession` is the session with all that.  A client that has joined is one whose editor is
open.  A group that a participant has created is entered by nobody else before.

Main results:

- Theorem `EnteringSession.runs_are_session_runs`: as long as no event has been dropped, what can
  be seen of the session are the runs of `Session`.
- Theorem `EnteringSession.sides_are_folds`: what every editor shows, and who misses events.
-/

namespace WeWrite

open Transition ViewController

variable {ι α γ : Type} [DecidableEq ι]

/-! ## State and actions -/

/-- The group: which of the participants has created it, if it is one of them, and whether it has
a password. -/
structure Group (ι : Type) where
  creator : Option ι
  hasPassword : Bool

/-- The way of a participant into the group. -/
def Group.path (group : Group ι) (i : ι) : EntryPath :=
  if group.creator = some i then
    if group.hasPassword then .createWithPassword else .createWithoutPassword
  else .join

/-- A session and the way of each participant into it.  What a participant has been handed and
has not handled waits on its main queue. -/
structure EnteringSession (ι α γ : Type) where
  session : Session ι α γ
  entry : ι → Entry (Submission ι α γ)

/-- What can happen. -/
inductive EnteringAction (ι α : Type) where
  /-- The service lets a device in. -/
  | enter (i : ι)
  /-- The completion handler performs the segue. -/
  | completion (i : ι)
  /-- `viewDidLoad` sets the delegate. -/
  | setDelegate (i : ι)
  /-- `viewDidLoad` resumes the events, and the editor is open. -/
  | resumeEvents (i : ι)
  /-- The next event of the order reaches a device. -/
  | arrive (i : ι)
  /-- The main queue handles the next event that was handed over. -/
  | handle (i : ι)
  /-- A local edit. -/
  | edit (i : ι) (edit : Edit α)
  /-- A user moves the caret or selects. -/
  | select (i : ι) (range : NSRange)
  /-- The service publishes a waiting broadcast. -/
  | publish (i : ι) (index : Nat)

namespace EnteringSession

/-- Everybody is in the dialogs. -/
def start (group : Group ι) (view : ι → UITextView α) : EnteringSession ι α γ where
  session := .start view
  entry i := .start (group.path i)

/-- Replace the way of one participant. -/
def setEntry (s : EnteringSession ι α γ) (i : ι) (e : Entry (Submission ι α γ)) :
    EnteringSession ι α γ :=
  { s with entry := Function.update s.entry i e }

/-- A step on the way of one participant. -/
def stepEntry (group : Group ι) (s : EnteringSession ι α γ) (i : ι)
    (a : EntryAction (Submission ι α γ)) : Option (EnteringSession ι α γ) := do
  let e ← (s.entry i).step (group.path i) a
  some (s.setEntry i e)

/-- The creator has created the group, or it was there before. -/
def groupExists (group : Group ι) (s : EnteringSession ι α γ) : Bool :=
  match group.creator with
  | none => true
  | some creator => (s.entry creator).stage != .dialogs

/-- One step; `none` when the action is impossible or raises. -/
def step (group : Group ι) (dev : ι → Device α γ) (s : EnteringSession ι α γ) :
    EnteringAction ι α → Option (EnteringSession ι α γ)
  | .enter i =>
      if group.creator = some i ∨ s.groupExists group then do
        let e ← (s.entry i).step (group.path i) .enter
        some { s with
          entry := fun j =>
            if j = i then e else { s.entry j with others := (s.entry j).others + 1 } }
      else none
  | .completion i => s.stepEntry group i .completion
  | .setDelegate i => s.stepEntry group i .setDelegate
  | .resumeEvents i => do
      let session ← s.session.step dev (.join i)
      { s with session := session }.stepEntry group i .resumeEvents
  | .arrive i => s.stepEntry group i .arrive
  | .handle i =>
      if (s.session.client i).joined then do
        let submission ← (s.entry i).handed[(s.session.client i).delivered]?
        let vc ← (s.session.client i).vc.receivedEvent (dev i)
          (submissionRegistrationID i submission.author) submission.event
        let delivered := (s.session.client i).delivered + 1
        some { s with
          session := s.session.setClient i { s.session.client i with
            vc := vc
            delivered := delivered
            shown := if vc.brCounter = 0 then delivered else (s.session.client i).shown } }
      else none
  | .edit i edit => do
      let session ← s.session.step dev (.edit i edit)
      some { s with session := session }
  | .select i range => do
      let session ← s.session.step dev (.select i range)
      some { s with session := session }
  | .publish i index => do
      let session ← s.session.step dev (.publish i index)
      some {
        session := session
        entry := fun j => { s.entry j with order := session.order } }

/-! ## What a step does -/

variable {group : Group ι} {dev : ι → Device α γ} {s s' : EnteringSession ι α γ}

@[simp]
theorem setEntry_entry_self (s : EnteringSession ι α γ) (i : ι)
    (e : Entry (Submission ι α γ)) : (s.setEntry i e).entry i = e := by
  simp [setEntry]

theorem setEntry_entry_of_ne (s : EnteringSession ι α γ) {i j : ι}
    (e : Entry (Submission ι α γ)) (h : j ≠ i) : (s.setEntry i e).entry j = s.entry j := by
  simp [setEntry, h]

theorem stepEntry_eq_some {i : ι} {a : EntryAction (Submission ι α γ)}
    (h : s.stepEntry group i a = some s') :
    ∃ e, (s.entry i).step (group.path i) a = some e ∧ s' = s.setEntry i e := by
  simp only [stepEntry, Option.bind_eq_bind, Option.bind_eq_some_iff, Option.some.injEq] at h
  rcases h with ⟨e, he, rfl⟩
  exact ⟨e, he, rfl⟩

/-- One participant enters, and everybody else has one more beside it. -/
theorem step_enter {i : ι} (h : s.step group dev (.enter i) = some s') :
    (group.creator = some i ∨ s.groupExists group = true) ∧ s'.session = s.session ∧
      (s.entry i).step (group.path i) .enter = some (s'.entry i) ∧
      ∀ j, j ≠ i → s'.entry j = { s.entry j with others := (s.entry j).others + 1 } := by
  simp only [step] at h
  split_ifs at h with hexists
  simp only [Option.bind_eq_bind, Option.bind_eq_some_iff, Option.some.injEq] at h
  rcases h with ⟨e, he, rfl⟩
  refine ⟨hexists, rfl, by simpa using he, fun j hj => ?_⟩
  simp [hj]

theorem step_resumeEvents {i : ι} (h : s.step group dev (.resumeEvents i) = some s') :
    ∃ session e, s.session.step dev (.join i) = some session ∧
      (s.entry i).step (group.path i) .resumeEvents = some e ∧
      s' = { s with session := session }.setEntry i e := by
  simp only [step, Option.bind_eq_bind, Option.bind_eq_some_iff] at h
  rcases h with ⟨session, hsession, h⟩
  rcases stepEntry_eq_some h with ⟨e, he, rfl⟩
  exact ⟨session, e, hsession, he, rfl⟩

theorem step_handle {i : ι} (h : s.step group dev (.handle i) = some s') :
    (s.session.client i).joined = true ∧
    ∃ submission vc, (s.entry i).handed[(s.session.client i).delivered]? = some submission ∧
      (s.session.client i).vc.receivedEvent (dev i)
        (submissionRegistrationID i submission.author) submission.event = some vc ∧
      s' = { s with
        session := s.session.setClient i { s.session.client i with
          vc := vc
          delivered := (s.session.client i).delivered + 1
          shown := if vc.brCounter = 0 then (s.session.client i).delivered + 1
            else (s.session.client i).shown } } := by
  simp only [step, Option.bind_eq_bind] at h
  split_ifs at h with hjoined
  rcases Option.bind_eq_some_iff.mp h with ⟨submission, hsub, h⟩
  rcases Option.bind_eq_some_iff.mp h with ⟨vc, hvc, h⟩
  exact ⟨hjoined, submission, vc, hsub, hvc, (Option.some.inj h).symm⟩

theorem step_edit {i : ι} {edit : Edit α} (h : s.step group dev (.edit i edit) = some s') :
    ∃ session, s.session.step dev (.edit i edit) = some session ∧
      s' = { s with session := session } := by
  simp only [step, Option.bind_eq_bind, Option.bind_eq_some_iff, Option.some.injEq] at h
  rcases h with ⟨session, hsession, rfl⟩
  exact ⟨session, hsession, rfl⟩

theorem step_select {i : ι} {range : NSRange}
    (h : s.step group dev (.select i range) = some s') :
    ∃ session, s.session.step dev (.select i range) = some session ∧
      s' = { s with session := session } := by
  simp only [step, Option.bind_eq_bind, Option.bind_eq_some_iff, Option.some.injEq] at h
  rcases h with ⟨session, hsession, rfl⟩
  exact ⟨session, hsession, rfl⟩

theorem step_publish {i : ι} {index : Nat}
    (h : s.step group dev (.publish i index) = some s') :
    ∃ session, s.session.step dev (.publish i index) = some session ∧
      s' = ⟨session, fun j => { s.entry j with order := session.order }⟩ := by
  simp only [step, Option.bind_eq_bind, Option.bind_eq_some_iff, Option.some.injEq] at h
  rcases h with ⟨session, hsession, rfl⟩
  exact ⟨session, hsession, rfl⟩

/-! ## Each way into the group -/

omit [DecidableEq ι] in
theorem groupExists_iff {group : Group ι} {s : EnteringSession ι α γ} :
    s.groupExists group = true ↔
      ∀ creator, group.creator = some creator → (s.entry creator).stage ≠ .dialogs := by
  unfold groupExists
  cases group.creator with
  | none => simp
  | some creator => simp

theorem path_eq_join_iff {group : Group ι} {i : ι} :
    group.path i = .join ↔ group.creator ≠ some i := by
  unfold Group.path
  split_ifs with hcreator hpassword
  · simp [hcreator]
  · simp [hcreator]
  · simp [hcreator]

/-- The way of a participant fits its client. -/
structure Fits (group : Group ι) (order : List (Submission ι α γ)) (i : ι) (c : Client ι α γ)
    (e : Entry (Submission ι α γ)) : Prop where
  entry : e.Inv (group.path i)
  order : e.order = order
  joined : c.joined = true ↔ e.stage = .editing
  outbox : c.joined = false → c.outbox = []
  delivered : c.delivered ≤ e.handed.length

/-- The ways of the participants fit the session and each other. -/
structure Inv (group : Group ι) (s : EnteringSession ι α γ) : Prop where
  fits : ∀ i, Fits group s.session.order i (s.session.client i) (s.entry i)
  /-- A participant without others is the creator, and alone. -/
  others : ∀ i, (s.entry i).others = 0 →
    group.creator = some i ∧ ∀ j, j ≠ i → (s.entry j).stage = .dialogs

theorem inv_start (group : Group ι) (view : ι → UITextView α) :
    Inv group (start group view : EnteringSession ι α γ) where
  fits i :=
    { entry := Entry.inv_start (group.path i)
      order := rfl
      joined := by simp [start, Session.start, Entry.start]
      outbox := fun _ => rfl
      delivered := Nat.zero_le _ }
  others i hothers := by
    refine ⟨?_, fun _ _ => rfl⟩
    by_contra hcreator
    have hjoin : group.path i = .join := path_eq_join_iff.mpr hcreator
    simp [start, Entry.start, hjoin] at hothers

/-- Whoever waits in the dialogs while another one enters had others already. -/
theorem expects {i j : ι} (hij : i ≠ j)
    (hexists : group.creator = some j ∨ s.groupExists group = true) :
    group.path i = .join ∨ (s.entry i).stage ≠ .dialogs := by
  by_cases hcreator : group.creator = some i
  · right
    rcases hexists with hj | hexists
    · rw [hcreator] at hj
      exact absurd (Option.some.inj hj) hij
    · exact groupExists_iff.mp hexists i hcreator
  · exact Or.inl (path_eq_join_iff.mpr hcreator)

/-- Whoever broadcasts is in the editor, or among the others, for everybody. -/
theorem Inv.hears (hinv : Inv group s) {j : ι} (hj : (s.session.client j).outbox ≠ []) (i : ι) :
    0 < (s.entry i).others ∨ (s.entry i).stage = .editing := by
  have hjoined : (s.session.client j).joined = true := by
    by_contra hnot
    exact hj ((hinv.fits j).outbox (by simpa using hnot))
  have hediting := (hinv.fits j).joined.mp hjoined
  by_cases hij : j = i
  · subst hij
    exact Or.inr hediting
  · left
    by_contra hnone
    have hdialogs := (hinv.others i (by omega)).2 j hij
    rw [hediting] at hdialogs
    cases hdialogs

/-- A step on the way of one participant is none on the ways of the others. -/
theorem setEntry_step {j : ι} {b : EntryAction (Submission ι α γ)}
    {e : Entry (Submission ι α γ)} (session : Session ι α γ) (i : ι)
    (he : (s.entry j).step (group.path j) b = some e) :
    ({ s with session := session }.setEntry j e).entry i = s.entry i ∧ j ≠ i ∨
      (s.entry i).step (group.path i) b =
        some (({ s with session := session }.setEntry j e).entry i) ∧ j = i := by
  by_cases hij : i = j
  · subst hij
    exact Or.inr ⟨by simpa using he, rfl⟩
  · exact Or.inl ⟨setEntry_entry_of_ne _ e hij, Ne.symm hij⟩

/-- A step is at most one step on each way, and an arrival or a delegate only on the way of its
participant. -/
theorem entry_step {a : EnteringAction ι α} (hinv : Inv group s)
    (hstep : s.step group dev a = some s') (i : ι) :
    s'.entry i = s.entry i ∧ a ≠ .arrive i ∧ a ≠ .setDelegate i ∨
      ∃ b, (s.entry i).step (group.path i) b = some (s'.entry i) ∧
        (b = .arrive ↔ a = .arrive i) ∧ (b = .setDelegate ↔ a = .setDelegate i) ∧
        (b = .resumeEvents ↔ a = .resumeEvents i) := by
  cases a with
  | enter j =>
      rcases step_enter hstep with ⟨hexists, -, he, hothers⟩
      by_cases hij : i = j
      · subst hij
        exact Or.inr ⟨.enter, he, by simp, by simp, by simp⟩
      · refine Or.inr ⟨.otherJoins, ?_, by simp, by simp, by simp⟩
        rw [hothers i hij]
        simp only [Entry.step, if_pos (expects hij hexists)]
  | completion j =>
      rcases stepEntry_eq_some hstep with ⟨e, he, rfl⟩
      rcases setEntry_step s.session i he with ⟨hsame, -⟩ | ⟨hs, rfl⟩
      · exact Or.inl ⟨hsame, by simp, by simp⟩
      · exact Or.inr ⟨_, hs, by simp, by simp, by simp⟩
  | setDelegate j =>
      rcases stepEntry_eq_some hstep with ⟨e, he, rfl⟩
      rcases setEntry_step s.session i he with ⟨hsame, hij⟩ | ⟨hs, rfl⟩
      · exact Or.inl ⟨hsame, by simp, by simpa using hij⟩
      · exact Or.inr ⟨_, hs, by simp, by simp, by simp⟩
  | resumeEvents j =>
      rcases step_resumeEvents hstep with ⟨session, e, -, he, rfl⟩
      rcases setEntry_step session i he with ⟨hsame, -⟩ | ⟨hs, rfl⟩
      · exact Or.inl ⟨hsame, by simp, by simp⟩
      · exact Or.inr ⟨_, hs, by simp, by simp, by simp⟩
  | arrive j =>
      rcases stepEntry_eq_some hstep with ⟨e, he, rfl⟩
      rcases setEntry_step s.session i he with ⟨hsame, hij⟩ | ⟨hs, rfl⟩
      · exact Or.inl ⟨hsame, by simpa using hij, by simp⟩
      · exact Or.inr ⟨_, hs, by simp, by simp, by simp⟩
  | handle j =>
      rcases step_handle hstep with ⟨-, submission, vc, -, -, rfl⟩
      exact Or.inl ⟨rfl, by simp, by simp⟩
  | edit j edit =>
      rcases step_edit hstep with ⟨session, -, rfl⟩
      exact Or.inl ⟨rfl, by simp, by simp⟩
  | select j range =>
      rcases step_select hstep with ⟨session, -, rfl⟩
      exact Or.inl ⟨rfl, by simp, by simp⟩
  | publish j index =>
      rcases step_publish hstep with ⟨session, hsession, rfl⟩
      rcases Session.step_publish hsession with ⟨x, hx, rfl⟩
      have hheard := hinv.hears (List.ne_nil_of_mem (List.mem_of_getElem? hx)) i
      refine Or.inr ⟨.broadcast x, ?_, by simp, by simp, by simp⟩
      simp only [Entry.step, if_pos hheard, (hinv.fits i).order]

/-! ### The invariant -/

/-- A participant who has been let in comes further, or its client changes. -/
theorem Inv.set {i : ι} {c : Client ι α γ} {e : Entry (Submission ι α γ)} (hinv : Inv group s)
    (hclient : s'.session.client = Function.update s.session.client i c)
    (hentry : s'.entry = Function.update s.entry i e)
    (horder : s'.session.order = s.session.order) (hfits : Fits group s.session.order i c e)
    (hstage : (s.entry i).stage ≠ .dialogs) (hothers : e.others = (s.entry i).others) :
    Inv group s' := by
  rcases hinv with ⟨hall, halone⟩
  refine ⟨fun j => ?_, fun j hj => ?_⟩
  · rw [hclient, hentry, horder]
    by_cases hij : j = i
    · subst hij
      simpa using hfits
    · simpa [hij] using hall j
  · rw [hentry] at hj ⊢
    have hj' : (s.entry j).others = 0 := by
      by_cases hij : j = i
      · subst hij
        simpa [hothers] using hj
      · simpa [hij] using hj
    rcases halone j hj' with ⟨hcreator, hdialogs⟩
    -- the participant is not in the dialogs, so it is the one that has no others
    have hij : i = j := by
      by_contra hij
      exact hstage (hdialogs i hij)
    subst hij
    refine ⟨hcreator, fun k hk => ?_⟩
    simpa [hk] using hdialogs k hk

/-- A step on the way of a participant that does not open the editor. -/
theorem Fits.step {order : List (Submission ι α γ)} {i : ι} {c : Client ι α γ}
    {e e' : Entry (Submission ι α γ)} {b : EntryAction (Submission ι α γ)}
    (hfits : Fits group order i c e) (hne : b ≠ .resumeEvents)
    (hstep : e.step (group.path i) b = some e') : Fits group e'.order i c e' where
  entry := Entry.inv_step hfits.entry hstep
  order := rfl
  joined := hfits.joined.trans (Entry.editing_step hne hfits.entry hstep).symm
  outbox := hfits.outbox
  delivered := Nat.le_trans hfits.delivered (Entry.history_step hfits.entry hstep).1.length_le

/-- A step that does not open the editor of a participant keeps its way fitting its client. -/
theorem Inv.fits_step {a : EnteringAction ι α} (hinv : Inv group s)
    (hstep : s.step group dev a = some s') {i : ι} (hne : a ≠ .resumeEvents i) :
    Fits group (s'.entry i).order i (s.session.client i) (s'.entry i) := by
  rcases entry_step hinv hstep i with ⟨hsame, -⟩ | ⟨b, hb, -, -, hresume⟩
  · rw [hsame, (hinv.fits i).order]
    exact hinv.fits i
  · exact (hinv.fits i).step (mt hresume.mp hne) hb

theorem inv_stepEntry {i : ι} {b : EntryAction (Submission ι α γ)} (hinv : Inv group s)
    (hb : b = .completion ∨ b = .setDelegate ∨ b = .arrive)
    (hstep : s.stepEntry group i b = some s') : Inv group s' := by
  rcases stepEntry_eq_some hstep with ⟨e, he, rfl⟩
  have hfits := hinv.fits i
  have hown : b ≠ .resumeEvents ∧ (s.entry i).stage ≠ .dialogs ∧ e.others = (s.entry i).others ∧
      e.order = (s.entry i).order := by
    rcases hb with rfl | rfl | rfl
    all_goals
      rcases Entry.own_step (by simp) (by simp) hfits.entry he with ⟨hd, -, hothers, horder⟩
      exact ⟨by simp, by simp [hd], hothers, horder⟩
  rcases hown with ⟨hne, hstage, hothers, horder⟩
  refine hinv.set (Function.update_eq_self i s.session.client).symm rfl rfl ?_ hstage hothers
  rw [← hfits.order, ← horder]
  exact hfits.step hne he

theorem inv_enter {i : ι} (hinv : Inv group s) (hstep : s.step group dev (.enter i) = some s') :
    Inv group s' := by
  have hfits := fun j => hinv.fits_step hstep (i := j) (by simp)
  rcases step_enter hstep with ⟨-, hsession, he, hothers⟩
  rcases Entry.own_step (by simp) (by simp) (hinv.fits i).entry he with ⟨-, -, hown, horder⟩
  refine ⟨fun j => ?_, fun j hj => ?_⟩
  · have hsame : (s'.entry j).order = s'.session.order := by
      rw [hsession]
      by_cases hji : j = i
      · subst hji
        rw [horder, (hinv.fits j).order]
      · rw [hothers j hji, (hinv.fits j).order]
    rw [← hsame, hsession]
    exact hfits j
  · -- everybody but the one who enters has others now
    have hji : j = i := by
      by_contra hji
      rw [hothers j hji] at hj
      cases hj
    subst hji
    rw [hown] at hj
    rcases hinv.others j hj with ⟨hcreator, halone⟩
    refine ⟨hcreator, fun k hk => ?_⟩
    rw [hothers k hk]
    exact halone k hk

theorem inv_publish {i : ι} {index : Nat} (hinv : Inv group s)
    (hstep : s.step group dev (.publish i index) = some s') : Inv group s' := by
  have hfits := fun j => hinv.fits_step hstep (i := j) (by simp)
  rcases step_publish hstep with ⟨session, hsession, rfl⟩
  rcases Session.step_publish hsession with ⟨x, hx, rfl⟩
  refine ⟨?_, hinv.others⟩
  refine Session.forall_setClient (P := fun j c => Fits group _ j c _) hfits ?_
  rcases hfits i with ⟨hentry, horder, hopen, houtbox, hdelivered⟩
  refine ⟨hentry, horder, hopen, fun hjoined => ?_, hdelivered⟩
  simp [houtbox hjoined]

theorem inv_step {a : EnteringAction ι α} (hinv : Inv group s)
    (hstep : s.step group dev a = some s') : Inv group s' := by
  have hediting : ∀ {i}, (s.session.client i).joined = true → (s.entry i).stage ≠ .dialogs := by
    intro i hjoined
    rw [(hinv.fits i).joined.mp hjoined]
    simp
  have hsame : ∀ i, s.entry = Function.update s.entry i (s.entry i) := fun i =>
    (Function.update_eq_self i s.entry).symm
  cases a with
  | enter i => exact inv_enter hinv hstep
  | completion i => exact inv_stepEntry hinv (by simp) hstep
  | setDelegate i => exact inv_stepEntry hinv (by simp) hstep
  | resumeEvents i =>
      rcases step_resumeEvents hstep with ⟨session, e, hsession, he, rfl⟩
      obtain rfl := Session.step_join hsession
      have hfits := hinv.fits i
      rcases Entry.own_step (by simp) (by simp) hfits.entry he with ⟨hd, -, hothers, horder⟩
      rcases Entry.step_resumeEvents hfits.entry he with ⟨-, he'⟩
      refine hinv.set rfl rfl rfl ⟨Entry.inv_step hfits.entry he, horder.trans hfits.order, ?_, ?_,
        Nat.le_trans hfits.delivered (Entry.history_step hfits.entry he).1.length_le⟩
        (by simp [hd]) hothers
      · simp [he']
      · simp
  | arrive i => exact inv_stepEntry hinv (by simp) hstep
  | handle i =>
      rcases step_handle hstep with ⟨hjoined, x, vc, hx, -, rfl⟩
      rcases hinv.fits i with ⟨hentry, horder, hopen, houtbox, -⟩
      exact hinv.set rfl (hsame i) rfl ⟨hentry, horder, hopen, houtbox,
        (List.getElem?_eq_some_iff.mp hx).1⟩ (hediting hjoined) rfl
  | edit i edit =>
      rcases step_edit hstep with ⟨session, hsession, rfl⟩
      have hjoined := Session.joined_of_step_edit hsession
      rcases Session.step_edit hsession with ⟨vc, event, -, rfl⟩
      rcases hinv.fits i with ⟨hentry, horder, hopen, -, hdelivered⟩
      refine hinv.set rfl (hsame i) rfl ⟨hentry, horder, hopen, ?_, hdelivered⟩
        (hediting hjoined) rfl
      simp [hjoined]
  | select i range =>
      rcases step_select hstep with ⟨session, hsession, rfl⟩
      have hjoined := Session.joined_of_step_select hsession
      obtain rfl := Session.step_select hsession
      rcases hinv.fits i with ⟨hentry, horder, hopen, houtbox, hdelivered⟩
      exact hinv.set rfl (hsame i) rfl ⟨hentry, horder, hopen, houtbox, hdelivered⟩
        (hediting hjoined) rfl
  | publish i index => exact inv_publish hinv hstep

variable {view : ι → UITextView α} {as : List (EnteringAction ι α)}

theorem inv_of_run (hrun : Run (step group dev) anyAction (start group view) as s) :
    Inv group s :=
  hrun.invariant (Inv group) (inv_start group view) fun _ _ _ hinv _ hstep => inv_step hinv hstep

/-! ## Who misses events -/

/-- Events reach the device of a participant only after its editor has become the delegate. -/
def LoadsFirst (i : ι) : List (EnteringAction ι α) → Prop :=
  EachAfter fun before a => a = .arrive i → .setDelegate i ∈ before

/-- The way of a participant is a run of its own, with the arrivals and the delegate of the whole
run. -/
theorem entry_run (hrun : Run (step group dev) anyAction (start group view) as s) (i : ι) :
    ∃ bs, Run (Entry.step (group.path i)) anyAction (Entry.start (group.path i)) bs (s.entry i) ∧
      (.setDelegate ∈ bs ↔ .setDelegate i ∈ as) ∧
      (Entry.NoEarlyArrival bs ↔ LoadsFirst i as) := by
  induction hrun with
  | nil =>
      refine ⟨[], .nil, by simp, ?_⟩
      simp [Entry.NoEarlyArrival, LoadsFirst]
  | @snoc as s s' a hrun _ hstep ih =>
      rcases ih with ⟨bs, hbs, hset, hearly⟩
      have hconcat : LoadsFirst i (as ++ [a]) ↔
          LoadsFirst i as ∧ (a = .arrive i → .setDelegate i ∈ as) := eachAfter_concat
      rw [hconcat, List.mem_append, List.mem_singleton]
      rcases entry_step (inv_of_run hrun) hstep i with
        ⟨hsame, harrive, hdelegate⟩ | ⟨b, hb, harrive, hdelegate, -⟩
      · refine ⟨bs, by rw [hsame]; exact hbs, ?_, ?_⟩
        · simpa [Ne.symm hdelegate] using hset
        · simpa [harrive] using hearly
      · refine ⟨bs ++ [b], .snoc hbs trivial hb, ?_, ?_⟩
        · have hlast : .setDelegate = b ↔ .setDelegate i = a := by
            rw [eq_comm, hdelegate, eq_comm]
          rw [List.mem_append, List.mem_singleton, hset, hlast]
        · rw [Entry.noEarlyArrival_concat, hearly, hset, harrive]

/-- Only the creator misses events, and only those that reach its device before its editor has
become the delegate. -/
theorem dropped_eq_nil_iff (hrun : Run (step group dev) anyAction (start group view) as s)
    (i : ι) : (s.entry i).dropped = [] ↔ group.creator ≠ some i ∨ LoadsFirst i as := by
  rcases entry_run hrun i with ⟨bs, hbs, -, hearly⟩
  rw [(Entry.loaded_and_dropped hbs).2, path_eq_join_iff, hearly]

/-! ## What can be seen of it -/

/-- What an action is in `Session`: a participant joins when its events are resumed, and what its
main queue handles is delivered. -/
def visible : EnteringAction ι α → Option (SessionAction ι α)
  | .resumeEvents i => some (.join i)
  | .handle i => some (.deliver i)
  | .edit i edit => some (.edit i edit)
  | .select i range => some (.select i range)
  | .publish i index => some (.publish i index)
  | _ => none

/-- No event has been dropped. -/
def Lossless (s : EnteringSession ι α γ) : Prop :=
  ∀ i, (s.entry i).dropped = []

/-- What has been handed to the editors stays handed over, and what has been dropped stays
dropped. -/
theorem history_step {a : EnteringAction ι α} (hinv : Inv group s)
    (hstep : s.step group dev a = some s') (i : ι) :
    (s.entry i).handed <+: (s'.entry i).handed ∧ (s.entry i).dropped <+: (s'.entry i).dropped := by
  rcases entry_step hinv hstep i with ⟨hsame, -⟩ | ⟨b, hb, -⟩
  · rw [hsame]
    exact ⟨List.prefix_refl _, List.prefix_refl _⟩
  · exact Entry.history_step (hinv.fits i).entry hb

/-- A dropped event stays dropped. -/
theorem lossless_of_step {a : EnteringAction ι α} (hinv : Inv group s)
    (hstep : s.step group dev a = some s') (hs' : Lossless s') : Lossless s := by
  intro i
  have hprefix := (history_step hinv hstep i).2
  rw [hs' i] at hprefix
  exact List.prefix_nil.mp hprefix

/-- What a participant that has missed nothing handles next is the next event of the order. -/
theorem Inv.next {i : ι} {x : Submission ι α γ} (hinv : Inv group s)
    (hnone : (s.entry i).dropped = [])
    (hx : (s.entry i).handed[(s.session.client i).delivered]? = some x) :
    s.session.order[(s.session.client i).delivered]? = some x := by
  have hprefix := (hinv.fits i).entry.handed_prefix
  rw [hnone, (hinv.fits i).order, List.length_nil, List.drop_zero] at hprefix
  rcases hprefix with ⟨rest, horder⟩
  rw [← horder, List.getElem?_append_left (List.getElem?_eq_some_iff.mp hx).1]
  exact hx

/-- A step that drops nothing is a step of `Session`, or cannot be seen there. -/
theorem visible_step {a : EnteringAction ι α} (hinv : Inv group s)
    (hstep : s.step group dev a = some s') (hlossless : Lossless s) :
    visible a = none ∧ s'.session = s.session ∨
      ∃ b, visible a = some b ∧ s.session.step dev b = some s'.session := by
  cases a with
  | enter i => exact Or.inl ⟨rfl, (step_enter hstep).2.1⟩
  | completion i =>
      rcases stepEntry_eq_some hstep with ⟨e, -, rfl⟩
      exact Or.inl ⟨rfl, rfl⟩
  | setDelegate i =>
      rcases stepEntry_eq_some hstep with ⟨e, -, rfl⟩
      exact Or.inl ⟨rfl, rfl⟩
  | resumeEvents i =>
      rcases step_resumeEvents hstep with ⟨session, e, hsession, -, rfl⟩
      exact Or.inr ⟨_, rfl, hsession⟩
  | arrive i =>
      rcases stepEntry_eq_some hstep with ⟨e, -, rfl⟩
      exact Or.inl ⟨rfl, rfl⟩
  | handle i =>
      rcases step_handle hstep with ⟨hjoined, x, vc, hx, hvc, rfl⟩
      refine Or.inr ⟨_, rfl, ?_⟩
      have hnext := hinv.next (hlossless i) hx
      simp only [Session.step, if_pos hjoined, hnext, hvc, Option.bind_eq_bind, Option.bind_some]
  | edit i edit =>
      rcases step_edit hstep with ⟨session, hsession, rfl⟩
      exact Or.inr ⟨_, rfl, hsession⟩
  | select i range =>
      rcases step_select hstep with ⟨session, hsession, rfl⟩
      exact Or.inr ⟨_, rfl, hsession⟩
  | publish i index =>
      rcases step_publish hstep with ⟨session, hsession, rfl⟩
      exact Or.inr ⟨_, rfl, hsession⟩

/-- What can be seen of a run that drops nothing is a run of `Session`. -/
theorem session_run (hrun : Run (step group dev) anyAction (start group view) as s)
    (hlossless : Lossless s) :
    Run (Session.step dev) anyAction (.start view) (as.filterMap visible) s.session := by
  refine hrun.project EnteringSession.session visible Lossless ?_ ?_ hlossless
  · intro as s a s' hrun hstep
    exact lossless_of_step (inv_of_run hrun) hstep
  · intro as s a s' hrun _ hstep hs'
    have hinv := inv_of_run hrun
    rcases visible_step hinv hstep (lossless_of_step hinv hstep hs') with hhidden | ⟨b, hb, hs⟩
    · exact Or.inl hhidden
    · exact Or.inr ⟨b, hb, trivial, hs⟩

/-! ### Every run of `Session` -/

/-- The group stays. -/
theorem groupExists_step {a : EnteringAction ι α} (hinv : Inv group s)
    (hexists : s.groupExists group = true) (hstep : s.step group dev a = some s') :
    s'.groupExists group = true := by
  refine groupExists_iff.mpr fun creator hcreator => ?_
  have hstage := groupExists_iff.mp hexists creator hcreator
  rcases entry_step hinv hstep creator with ⟨hsame, -⟩ | ⟨b, hb, -⟩
  · rw [hsame]
    exact hstage
  · exact Entry.stage_ne_dialogs_step (hinv.fits creator).entry hstage hb

theorem groupExists_of_run {as : List (EnteringAction ι α)} (hinv : Inv group s)
    (hexists : s.groupExists group = true) (hrun : Run (step group dev) anyAction s as s') :
    s'.groupExists group = true := by
  refine (hrun.invariant (fun s => Inv group s ∧ s.groupExists group = true) ⟨hinv, hexists⟩ ?_).2
  rintro s a s' ⟨hinv, hexists⟩ - hstep
  exact ⟨inv_step hinv hstep, groupExists_step hinv hexists hstep⟩

/-- Nothing is under way: what has reached a device has been handled there, and whoever has not
joined is in the dialogs, or has just been let in. -/
structure Quiet (group : Group ι) (s : EnteringSession ι α γ) : Prop where
  inv : Inv group s
  lossless : Lossless s
  handled : ∀ i, (s.entry i).arrived = (s.session.client i).delivered
  stage : ∀ i, (s.session.client i).joined = false →
    (s.entry i).stage = .dialogs ∨ (s.entry i).stage = .entered

theorem Quiet.handed {i : ι} (hquiet : Quiet group s)
    (hjoined : (s.session.client i).joined = true) :
    (s.entry i).handed = s.session.order.take (s.entry i).arrived := by
  have hfits := hquiet.inv.fits i
  have hkept := hfits.entry.kept
  rw [hquiet.lossless i, hfits.entry.pending_of_editing (hfits.joined.mp hjoined), hfits.order]
    at hkept
  simpa using hkept

/-- Nothing has reached the device of whoever has not joined. -/
theorem Quiet.arrived_eq_zero {i : ι} (hquiet : Quiet group s)
    (hjoined : (s.session.client i).joined = false) : (s.entry i).arrived = 0 := by
  have hfits := hquiet.inv.fits i
  have hloaded : (s.entry i).stage.loaded = false := by
    rcases hquiet.stage i hjoined with hstage | hstage
    all_goals
      rw [hstage]
      rfl
  have hdelivered := hfits.delivered
  rw [hfits.entry.handed hloaded, List.length_nil] at hdelivered
  rw [hquiet.handled i]
  omega

/-- Somebody is let in while nothing is under way. -/
theorem Quiet.enter {i : ι} (dev : ι → Device α γ) (hquiet : Quiet group s)
    (hstage : (s.entry i).stage = .dialogs)
    (hexists : group.creator = some i ∨ s.groupExists group = true) :
    ∃ s', s.step group dev (.enter i) = some s' ∧ Quiet group s' ∧
      s'.groupExists group = true ∧ s'.session = s.session ∧ (s'.entry i).stage = .entered := by
  have henter : ∃ s', s.step group dev (.enter i) = some s' := by
    simp [step, hexists, Entry.step, hstage]
  rcases henter with ⟨s', hs'⟩
  rcases step_enter hs' with ⟨-, hsession, he, hothers⟩
  rcases Entry.step_enter he with ⟨-, he'⟩
  have hinv' := inv_step hquiet.inv hs'
  have hstage' : (s'.entry i).stage = .entered := by rw [he']
  have hsame : ∀ j, (s'.entry j).dropped = (s.entry j).dropped ∧
      (s'.entry j).arrived = (s.entry j).arrived := by
    intro j
    by_cases hj : j = i
    · subst hj
      rw [he']
      exact ⟨rfl, rfl⟩
    · rw [hothers j hj]
      exact ⟨rfl, rfl⟩
  refine ⟨s', hs', ⟨hinv', ?_, ?_, ?_⟩, ?_, hsession, hstage'⟩
  · intro j
    rw [(hsame j).1]
    exact hquiet.lossless j
  · intro j
    rw [(hsame j).2, hsession]
    exact hquiet.handled j
  · intro j hj
    rw [hsession] at hj
    by_cases hji : j = i
    · subst hji
      exact Or.inr hstage'
    · rw [hothers j hji]
      exact hquiet.stage j hj
  · refine groupExists_iff.mpr fun creator hcreator => ?_
    by_cases hci : creator = i
    · subst hci
      rw [hstage']
      simp
    · rw [hothers creator hci]
      rcases hexists with hi | hexists
      · rw [hcreator] at hi
        exact absurd (Option.some.inj hi) hci
      · exact groupExists_iff.mp hexists creator hcreator

/-- An open editor that has handled all that has reached its device changes. -/
theorem Quiet.set {i : ι} {c : Client ι α γ} {e : Entry (Submission ι α γ)}
    (hquiet : Quiet group s) (hinv : Inv group s')
    (hclient : s'.session.client = Function.update s.session.client i c)
    (hentry : s'.entry = Function.update s.entry i e) (hdropped : e.dropped = [])
    (hhandled : e.arrived = c.delivered) (hjoined : c.joined = true) : Quiet group s' where
  inv := hinv
  lossless j := by
    rw [hentry]
    by_cases hj : j = i
    · subst hj
      simpa using hdropped
    · simpa [hj] using hquiet.lossless j
  handled j := by
    rw [hentry, hclient]
    by_cases hj : j = i
    · subst hj
      simpa using hhandled
    · simpa [hj] using hquiet.handled j
  stage j hclosed := by
    rw [hclient] at hclosed
    rw [hentry]
    by_cases hj : j = i
    · subst hj
      simp [hjoined] at hclosed
    · rw [Function.update_of_ne hj] at hclosed ⊢
      exact hquiet.stage j hclosed

/-- Whoever has just been let in opens the editor while nothing is under way. -/
theorem Quiet.load {i : ι} {session : Session ι α γ} (hquiet : Quiet group s)
    (hstage : (s.entry i).stage = .entered)
    (hsession : s.session.step dev (.join i) = some session) :
    ∃ s', Run (step group dev) anyAction s [.completion i, .setDelegate i, .resumeEvents i] s' ∧
      Quiet group s' ∧ s'.session = session := by
  rcases Entry.exists_load (group.path i) hstage with ⟨e₁, e₂, e₃, he₁, he₂, he₃, harrived⟩
  let s₁ := s.setEntry i e₁
  let s₂ := s₁.setEntry i e₂
  let s₃ := { s₂ with session := session }.setEntry i e₃
  have hs₁ : s.step group dev (.completion i) = some s₁ := by
    simp [step, stepEntry, he₁, s₁]
  have hs₂ : s₁.step group dev (.setDelegate i) = some s₂ := by
    simp [step, stepEntry, he₂, s₁, s₂]
  have hs₃ : s₂.step group dev (.resumeEvents i) = some s₃ := by
    have hjoin : s₂.session.step dev (.join i) = some session := hsession
    simp [step, stepEntry, hjoin, he₃, s₂, s₃]
  have hinv : Inv group s₃ := inv_step (inv_step (inv_step hquiet.inv hs₁) hs₂) hs₃
  have hzero : e₃.arrived = 0 := by
    rw [harrived]
    apply hquiet.arrived_eq_zero
    by_contra hjoined
    rw [(hquiet.inv.fits i).joined.mp (by simpa using hjoined)] at hstage
    cases hstage
  have hdropped : e₃.dropped = [] := by
    -- nothing had reached the device, so nothing can have been dropped
    have hkept := (hinv.fits i).entry.kept
    simp only [s₃, setEntry_entry_self, hzero, List.take_zero, List.append_eq_nil_iff] at hkept
    exact hkept.1.1
  obtain rfl := Session.step_join hsession
  refine ⟨s₃, ((Run.nil.snoc trivial hs₁).snoc trivial hs₂).snoc trivial hs₃,
    hquiet.set hinv rfl (by simp [s₃, s₂, s₁, setEntry]) hdropped ?_ rfl, rfl⟩
  exact harrived.trans (hquiet.handled i)

/-- Somebody joins while nothing is under way. -/
theorem Quiet.join {i : ι} {session : Session ι α γ} (hquiet : Quiet group s)
    (hexists : s.groupExists group = true)
    (hsession : s.session.step dev (.join i) = some session) :
    ∃ as s', Run (step group dev) anyAction s as s' ∧ as.filterMap visible = [.join i] ∧
      Quiet group s' ∧ s'.session = session := by
  have hclosed : (s.session.client i).joined = false := by
    by_contra hjoined
    rw [Bool.not_eq_false] at hjoined
    simp [Session.step, hjoined] at hsession
  rcases hquiet.stage i hclosed with hstage | hstage
  · rcases hquiet.enter dev hstage (Or.inr hexists) with ⟨s₁, hs₁, hquiet₁, -, hsame, hstage₁⟩
    rw [← hsame] at hsession
    rcases hquiet₁.load hstage₁ hsession with ⟨s', hrun, hquiet', hs'⟩
    exact ⟨_, s', (Run.nil.snoc trivial hs₁).append hrun, rfl, hquiet', hs'⟩
  · rcases hquiet.load hstage hsession with ⟨s', hrun, hquiet', hs'⟩
    exact ⟨_, s', hrun, rfl, hquiet', hs'⟩

/-- The next event reaches a device and is handled there while nothing else is under way. -/
theorem Quiet.deliver {i : ι} {session : Session ι α γ} (hquiet : Quiet group s)
    (hsession : s.session.step dev (.deliver i) = some session) :
    ∃ s', Run (step group dev) anyAction s [.arrive i, .handle i] s' ∧
      Quiet group s' ∧ s'.session = session := by
  have hjoined : (s.session.client i).joined = true := by
    by_contra hjoined
    simp [Session.step, hjoined] at hsession
  rcases Session.step_deliver hsession with ⟨x, vc, hx, hvc, rfl⟩
  have hfits := hquiet.inv.fits i
  have hx' : (s.entry i).order[(s.entry i).arrived]? = some x := by
    rw [hfits.order, hquiet.handled i]
    exact hx
  rcases Entry.exists_arrive hfits.entry (hfits.joined.mp hjoined) hx' with
    ⟨e, he, harrived, hhanded, hdropped⟩
  let s₁ := s.setEntry i e
  have hs₁ : s.step group dev (.arrive i) = some s₁ := by
    simp [step, stepEntry, he, s₁]
  have hlength : (s.entry i).handed.length = (s₁.session.client i).delivered := by
    have hlt := (List.getElem?_eq_some_iff.mp hx).1
    have hhandled : (s.entry i).arrived = (s₁.session.client i).delivered := hquiet.handled i
    rw [hquiet.handed hjoined, List.length_take, hhandled]
    exact Nat.min_eq_left (Nat.le_of_lt hlt)
  have hnext : (s₁.entry i).handed[(s₁.session.client i).delivered]? = some x := by
    rw [setEntry_entry_self, hhanded, ← hlength]
    exact List.getElem?_concat_length
  let s₂ := { s₁ with
    session := s.session.setClient i { s.session.client i with
      vc := vc
      delivered := (s.session.client i).delivered + 1
      shown := if vc.brCounter = 0 then (s.session.client i).delivered + 1
        else (s.session.client i).shown } }
  have hs₂ : s₁.step group dev (.handle i) = some s₂ := by
    have hjoined₁ : (s₁.session.client i).joined = true := hjoined
    have hvc₁ : (s₁.session.client i).vc.receivedEvent (dev i)
        (submissionRegistrationID i x.author) x.event = some vc := hvc
    simp only [step, if_pos hjoined₁, hnext, hvc₁, Option.bind_eq_bind, Option.bind_some]
    rfl
  refine ⟨s₂, (Run.nil.snoc trivial hs₁).snoc trivial hs₂,
    hquiet.set (inv_step (inv_step hquiet.inv hs₁) hs₂) rfl rfl ?_ ?_ hjoined, rfl⟩
  · exact hdropped.trans (hquiet.lossless i)
  · rw [harrived, hquiet.handled i]

/-- Whatever `Session` does next can be done while nothing is under way. -/
theorem Quiet.follow {b : SessionAction ι α} {session : Session ι α γ} (hquiet : Quiet group s)
    (hexists : s.groupExists group = true) (hsession : s.session.step dev b = some session) :
    ∃ as s', Run (step group dev) anyAction s as s' ∧ as.filterMap visible = [b] ∧
      Quiet group s' ∧ s'.session = session := by
  have hsame : ∀ i, s.entry = Function.update s.entry i (s.entry i) := fun i =>
    (Function.update_eq_self i s.entry).symm
  cases b with
  | join i => exact hquiet.join hexists hsession
  | deliver i =>
      rcases hquiet.deliver hsession with ⟨s', hrun, hquiet', hs'⟩
      exact ⟨_, s', hrun, rfl, hquiet', hs'⟩
  | edit i edit =>
      have hs' : s.step group dev (.edit i edit) = some { s with session := session } := by
        simp [step, hsession]
      have hjoined := Session.joined_of_step_edit hsession
      rcases Session.step_edit hsession with ⟨vc, event, -, rfl⟩
      exact ⟨_, _, Run.nil.snoc trivial hs', rfl, hquiet.set (inv_step hquiet.inv hs') rfl (hsame i)
        (hquiet.lossless i) (hquiet.handled i) hjoined, rfl⟩
  | select i range =>
      have hs' : s.step group dev (.select i range) = some { s with session := session } := by
        simp [step, hsession]
      have hjoined := Session.joined_of_step_select hsession
      obtain rfl := Session.step_select hsession
      exact ⟨_, _, Run.nil.snoc trivial hs', rfl, hquiet.set (inv_step hquiet.inv hs') rfl (hsame i)
        (hquiet.lossless i) (hquiet.handled i) hjoined, rfl⟩
  | publish i index =>
      have hs' : s.step group dev (.publish i index) =
          some ⟨session, fun j => { s.entry j with order := session.order }⟩ := by
        simp [step, hsession]
      have hinv' := inv_step hquiet.inv hs'
      rcases Session.step_publish hsession with ⟨x, -, rfl⟩
      refine ⟨_, _, Run.nil.snoc trivial hs', rfl, ⟨hinv', hquiet.lossless, ?_, ?_⟩, rfl⟩
      · exact Session.forall_setClient (P := fun j c => (s.entry j).arrived = c.delivered)
          hquiet.handled (hquiet.handled i)
      · exact Session.forall_setClient (P := fun j c => c.joined = false →
          (s.entry j).stage = .dialogs ∨ (s.entry j).stage = .entered) hquiet.stage
          (hquiet.stage i)

/-- The creator creates the group, if it is not there. -/
theorem exists_group (group : Group ι) (dev : ι → Device α γ) (view : ι → UITextView α) :
    ∃ as s, Run (step group dev) anyAction (start group view) as s ∧ as.filterMap visible = [] ∧
      Quiet group s ∧ s.groupExists group = true ∧ s.session = .start view := by
  have hquiet : Quiet group (start group view : EnteringSession ι α γ) :=
    ⟨inv_start group view, fun _ => rfl, fun _ => rfl, fun _ _ => Or.inl rfl⟩
  cases hcreator : group.creator with
  | none =>
      refine ⟨[], _, .nil, rfl, hquiet, ?_, rfl⟩
      simp [groupExists, hcreator]
  | some creator =>
      rcases hquiet.enter dev rfl (Or.inl hcreator) with ⟨s, hs, hquiet', hexists, hsame, -⟩
      exact ⟨[.enter creator], s, Run.nil.snoc trivial hs, rfl, hquiet', hexists, hsame⟩

/-- As long as no event has been dropped, what can be seen of the runs are the runs of `Session`:
who has joined, what every editor shows and sends, and what the service has published. -/
theorem runs_are_session_runs (group : Group ι) (dev : ι → Device α γ) (view : ι → UITextView α)
    (bs : List (SessionAction ι α)) (t : Session ι α γ) :
    Run (Session.step dev) anyAction (.start view) bs t ↔
      ∃ as s, Run (step group dev) anyAction (start group view) as s ∧ Lossless s ∧
        as.filterMap visible = bs ∧ s.session = t := by
  constructor
  · intro hrun
    rcases exists_group group dev view with ⟨as₁, s₁, hrun₁, hhidden, hquiet, hexists, hstart⟩
    let R (t : Session ι α γ) (s : EnteringSession ι α γ) : Prop :=
      s.session = t ∧ Quiet group s ∧ s.groupExists group = true
    have hfollow : ∀ t b t' s, R t s → anyAction t b → t.step dev b = some t' →
        ∃ as s', Run (step group dev) anyAction s as s' ∧ as.filterMap visible = [b] ∧ R t' s' := by
      rintro t b t' s ⟨rfl, hquiet, hexists⟩ - hstep
      rcases hquiet.follow hexists hstep with ⟨as, s', has, hvisible, hquiet', hsession⟩
      exact ⟨as, s', has, hvisible, hsession, hquiet', groupExists_of_run hquiet.inv hexists has⟩
    rcases hrun.expand R visible ⟨hstart, hquiet, hexists⟩ hfollow with
      ⟨as₂, s, hrun₂, hvisible, hsession, hquiet', -⟩
    refine ⟨as₁ ++ as₂, s, hrun₁.append hrun₂, hquiet'.lossless, ?_, hsession⟩
    rw [List.filterMap_append, hhidden, hvisible, List.nil_append]
  · rintro ⟨as, s, hrun, hlossless, rfl, rfl⟩
    exact session_run hrun hlossless

/-! ## What the editors show -/

/-- The events that the main queue of a participant has handled. -/
def handled (s : EnteringSession ι α γ) (i : ι) : List (Event γ) :=
  ((s.entry i).handed.map Submission.event).take (s.session.client i).delivered

/-- A step after which a participant has handled as many events as before. -/
theorem handled_of_step {a : EnteringAction ι α} {i : ι} (hinv : Inv group s)
    (hstep : s.step group dev a = some s')
    (hdelivered : (s'.session.client i).delivered = (s.session.client i).delivered) :
    s'.handled i = s.handled i := by
  have hprefix := ((history_step hinv hstep i).1).map Submission.event
  have hlength := (hinv.fits i).delivered
  rw [← List.length_map Submission.event] at hlength
  rcases hprefix with ⟨rest, hrest⟩
  unfold handled
  rw [hdelivered, ← hrest, List.take_append_of_le_length hlength]

/-- Only what a participant handles changes its side string, and the number of events it has
handled. -/
theorem side_step {a : EnteringAction ι α} (hstep : s.step group dev a = some s') (i : ι) :
    (s'.session.client i).delivered = (s.session.client i).delivered ∧
        (s'.session.client i).vc.sideString = (s.session.client i).vc.sideString ∨
      ∃ x, (s.entry i).handed[(s.session.client i).delivered]? = some x ∧
        (s'.entry i).handed = (s.entry i).handed ∧
        (s'.session.client i).delivered = (s.session.client i).delivered + 1 ∧
        applyEvent (dev i).stringWithCString (s.session.client i).vc.sideString x.event =
          some (s'.session.client i).vc.sideString := by
  have hset : ∀ {j : ι} {c : Client ι α γ},
      c.delivered = (s.session.client j).delivered ∧
        c.vc.sideString = (s.session.client j).vc.sideString →
      ((s.session.setClient j c).client i).delivered = (s.session.client i).delivered ∧
        ((s.session.setClient j c).client i).vc.sideString =
          (s.session.client i).vc.sideString := fun hc =>
    ⟨Session.setClient_client_congr Client.delivered s.session hc.1 i,
      Session.setClient_client_congr (fun c => c.vc.sideString) s.session hc.2 i⟩
  cases a with
  | enter j =>
      left
      rw [(step_enter hstep).2.1]
      exact ⟨rfl, rfl⟩
  | completion j =>
      rcases stepEntry_eq_some hstep with ⟨e, -, rfl⟩
      exact Or.inl ⟨rfl, rfl⟩
  | setDelegate j =>
      rcases stepEntry_eq_some hstep with ⟨e, -, rfl⟩
      exact Or.inl ⟨rfl, rfl⟩
  | resumeEvents j =>
      rcases step_resumeEvents hstep with ⟨session, e, hsession, -, rfl⟩
      obtain rfl := Session.step_join hsession
      exact Or.inl (hset ⟨rfl, rfl⟩)
  | arrive j =>
      rcases stepEntry_eq_some hstep with ⟨e, -, rfl⟩
      exact Or.inl ⟨rfl, rfl⟩
  | handle j =>
      rcases step_handle hstep with ⟨-, x, vc, hx, hvc, rfl⟩
      by_cases hij : i = j
      · subst hij
        refine Or.inr ⟨x, hx, rfl, ?_⟩
        rw [Session.setClient_client_self]
        exact ⟨rfl, (Session.received_of_receivedEvent hvc).side⟩
      · left
        rw [Session.setClient_client_of_ne _ _ hij]
        exact ⟨rfl, rfl⟩
  | edit j edit =>
      rcases step_edit hstep with ⟨session, hsession, rfl⟩
      rcases Session.step_edit hsession with ⟨vc, event, hedit, rfl⟩
      exact Or.inl (hset ⟨rfl, (userEdit_spec hedit).side⟩)
  | select j range =>
      rcases step_select hstep with ⟨session, hsession, rfl⟩
      obtain rfl := Session.step_select hsession
      exact Or.inl (hset ⟨rfl, rfl⟩)
  | publish j index =>
      rcases step_publish hstep with ⟨session, hsession, rfl⟩
      rcases Session.step_publish hsession with ⟨x, -, rfl⟩
      exact Or.inl (hset ⟨rfl, rfl⟩)

/-- The side string of every participant is the fold of what its main queue has handled. -/
theorem side_of_run (hrun : Run (step group dev) anyAction (start group view) as s) (i : ι) :
    replay (applyEvent (dev i).stringWithCString) (view i).text (s.handled i) =
      some (s.session.client i).vc.sideString := by
  induction hrun with
  | nil => rfl
  | @snoc as s s' a hrun _ hstep ih =>
      rcases side_step hstep i with ⟨hdelivered, hside⟩ | ⟨x, hx, hhanded, hdelivered, hside⟩
      · rw [handled_of_step (inv_of_run hrun) hstep hdelivered, hside]
        exact ih
      · have hevent : ((s.entry i).handed.map Submission.event)[(s.session.client i).delivered]? =
            some x.event := by
          rw [List.getElem?_map, hx]
          rfl
        unfold handled at ih ⊢
        rw [hhanded, hdelivered, replay_take_succ hevent, ih]
        exact hside

/-- The side string of every participant is the fold of the order over the text its editor opened
on, as far as it has been delivered, but for the events at its start that were dropped.  Nothing
was, exactly when the participant has not created the group, or its editor had become the delegate
before the first event reached its device. -/
theorem sides_are_folds (group : Group ι) (dev : ι → Device α γ) (view : ι → UITextView α)
    (as : List (EnteringAction ι α)) (s : EnteringSession ι α γ)
    (hrun : Run (step group dev) anyAction (start group view) as s) (i : ι) :
    (s.entry i).dropped <+: s.session.order ∧
      replay (applyEvent (dev i).stringWithCString) (view i).text
          (((s.session.order.drop (s.entry i).dropped.length).take
            (s.session.client i).delivered).map Submission.event) =
        some (s.session.client i).vc.sideString ∧
      ((s.entry i).dropped = [] ↔ group.creator ≠ some i ∨ LoadsFirst i as) := by
  have hfits := (inv_of_run hrun).fits i
  refine ⟨?_, ?_, dropped_eq_nil_iff hrun i⟩
  · have hkept := hfits.entry.kept
    rw [List.append_assoc, hfits.order] at hkept
    exact (hkept ▸ List.prefix_append _ _).trans (List.take_prefix _ _)
  · rcases hfits.entry.handed_prefix with ⟨rest, hrest⟩
    rw [← side_of_run hrun i, handled, ← List.map_take, ← hfits.order, ← hrest,
      List.take_append_of_le_length hfits.delivered]

/-- The creator misses what another participant types before its editor has become the delegate,
and shows only what follows. -/
theorem sides_are_folds_late :
    ∃ as, ∃ s : EnteringSession Bool Unichar UInt8,
      Run (step ⟨some true, false⟩ fun _ => latin1Device) anyAction
          (start ⟨some true, false⟩ fun _ => viewOf []) as s ∧
        (s.session.client true).vc.sideString = [98] ∧
        (s.session.client false).vc.sideString = [98, 97] ∧ ¬ LoadsFirst true as := by
  let group : Group Bool := ⟨some true, false⟩
  let as : List (EnteringAction Bool Unichar) :=
    [.enter true, .enter false, .completion false, .setDelegate false, .resumeEvents false,
      .edit false (.insert 0 97), .publish false 0, .arrive true, .completion true,
      .setDelegate true, .resumeEvents true, .arrive false, .handle false,
      .edit false (.insert 0 98), .publish false 0, .arrive true, .handle true, .arrive false,
      .handle false]
  obtain ⟨s, hs, htrue, hfalse, hdropped⟩ : ∃ s, replay (step group fun _ => latin1Device)
      (start group fun _ => viewOf [] : EnteringSession Bool Unichar UInt8) as = some s ∧
      (s.session.client true).vc.sideString = [98] ∧
      (s.session.client false).vc.sideString = [98, 97] ∧
      (s.entry true).dropped.length = 1 := ⟨_, rfl, rfl, rfl, rfl⟩
  have hrun := Run.of_replay hs
  rcases sides_are_folds group _ _ as s hrun true with ⟨-, -, hmissed⟩
  refine ⟨as, s, hrun, htrue, hfalse, fun hfirst => ?_⟩
  rw [hmissed.mpr (Or.inr hfirst)] at hdropped
  cases hdropped

end EnteringSession

end WeWrite
