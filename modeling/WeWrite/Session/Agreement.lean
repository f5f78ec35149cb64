import WeWrite.Session.Model

/-!
# Agreement of the replicas

Every client of a session is an editor of the kind that `Editor.step` describes: what the
service still owes it are its outstanding broadcasts, publishing only reorders them, and
being handed the next event of the order is an echo or an event of another client.  Its
invariant carries over, and two clients at the same position of the order have folded the
same events.

Main results:

- Theorem `Session.exists_editor_run`: every client of a session behaves as one editor whose
  broadcasts are all accepted.
- Theorem `Session.replicas_agree`: the side string is the fold of the events delivered, and
  two clients at the same position with nothing outstanding show the same text.
-/

namespace WeWrite

open Transition ViewController

variable {ι α γ : Type} [DecidableEq ι]

namespace Session

variable {dev : ι → Device α γ} {s s' : Session ι α γ}

/-! ## What the service owes a client -/

/-- Client `i` sent this submission. -/
def ownedBy (i : ι) (x : Submission ι α γ) : Bool :=
  x.author = i

@[simp]
theorem ownedBy_iff {i : ι} {x : Submission ι α γ} : ownedBy i x = true ↔ x.author = i := by
  simp [ownedBy]

/-- The events handed to client `i` so far. -/
def receivedEvents (s : Session ι α γ) (i : ι) : List (Event γ) :=
  (s.order.take (s.client i).delivered).map Submission.event

/-- The broadcasts of client `i` that are not among the first `n` events of the order: the
published ones in their order, then the waiting ones. -/
def ownFrom (s : Session ι α γ) (i : ι) (n : Nat) : List (Submission ι α γ) :=
  (s.order.drop n).filter (ownedBy i) ++ (s.client i).outbox

/-- The broadcasts of client `i` that have not come back to it. -/
def pending (s : Session ι α γ) (i : ι) : List (Submission ι α γ) :=
  s.ownFrom i (s.client i).delivered

/-- One more event of the order is left out. -/
theorem ownFrom_succ {i : ι} {n : Nat} {x : Submission ι α γ} (hx : s.order[n]? = some x) :
    s.ownFrom i n = if x.author = i then x :: s.ownFrom i (n + 1) else s.ownFrom i (n + 1) := by
  have hdrop : s.order.drop n = x :: s.order.drop (n + 1) := by
    rcases List.getElem?_eq_some_iff.mp hx with ⟨hlt, rfl⟩
    exact List.drop_eq_getElem_cons hlt
  simp only [ownFrom, hdrop, List.filter_cons, ownedBy_iff]
  split_ifs <;> rfl

/-- Publishing moves a broadcast behind the ones that are already published. -/
theorem ownFrom_publish_self {i : ι} {n index : Nat} {x : Submission ι α γ} (hinv : Inv s)
    (hn : n ≤ s.order.length) (hx : (s.client i).outbox[index]? = some x) :
    (((s.order ++ [x]).drop n).filter (ownedBy i) ++
        (s.client i).outbox.eraseIdx index).Perm (s.ownFrom i n) := by
  rcases List.getElem?_eq_some_iff.mp hx with ⟨hlt, rfl⟩
  have hown : ownedBy i (s.client i).outbox[index] = true :=
    ownedBy_iff.mpr (hinv.author i _ (List.getElem_mem hlt))
  rw [List.drop_append_of_le_length hn, List.filter_append, List.filter_singleton, hown,
    List.append_assoc, ownFrom]
  exact (List.getElem_cons_eraseIdx_perm hlt).append_left _

omit [DecidableEq ι] in
theorem exists_cons_of_getElem?_zero {xs : List (Submission ι α γ)} {x : Submission ι α γ}
    (hx : xs[0]? = some x) : ∃ rest, xs = x :: rest := by
  cases xs with
  | nil => simp at hx
  | cons y rest => exact ⟨rest, by simpa using hx⟩

/-- Published in the sequence they were sent, the broadcasts of a client keep it. -/
theorem ownFrom_publish_first {i : ι} {n : Nat} {x : Submission ι α γ} (hinv : Inv s)
    (hn : n ≤ s.order.length) (hx : (s.client i).outbox[0]? = some x) :
    ((s.order ++ [x]).drop n).filter (ownedBy i) ++ (s.client i).outbox.eraseIdx 0 =
      s.ownFrom i n := by
  rcases exists_cons_of_getElem?_zero hx with ⟨rest, hrest⟩
  have hown : ownedBy i x = true :=
    ownedBy_iff.mpr (hinv.author i x (by rw [hrest]; exact List.mem_cons_self))
  rw [List.drop_append_of_le_length hn, List.filter_append, List.filter_singleton, hown,
    List.append_assoc, ownFrom, hrest]
  rfl

/-- A broadcast of another client changes nothing. -/
theorem filter_drop_publish {i : ι} {n : Nat} {x : Submission ι α γ} (hx : x.author ≠ i)
    (hn : n ≤ s.order.length) :
    ((s.order ++ [x]).drop n).filter (ownedBy i) = (s.order.drop n).filter (ownedBy i) := by
  have hother : ownedBy i x = false := by simpa [ownedBy] using hx
  rw [List.drop_append_of_le_length hn, List.filter_append, List.filter_singleton, hother,
    cond_false, List.append_nil]

/-! ## A client is an editor -/

/-- Client `i` of `s` is the editor `e`. -/
structure Refines (s : Session ι α γ) (i : ι) (e : Editor α γ) : Prop where
  vc : e.vc = (s.client i).vc
  outstanding : e.outstanding.Perm ((s.pending i).map Submission.event)
  received : e.received = s.receivedEvents i

/-- An action of another client that leaves the order as it is does not concern client `i`. -/
theorem Refines.of_ne {i j : ι} {c : Client ι α γ} {e : Editor α γ} (href : Refines s i e)
    (hij : i ≠ j) (edits : List (Edit α)) :
    Refines { s.setClient j c with edits := edits } i e := by
  have hclient : (s.setClient j c).client i = s.client i := setClient_client_of_ne s c hij
  rcases href with ⟨hvc, hout, hrec⟩
  refine ⟨by rw [hvc, hclient], ?_, ?_⟩
  · simpa only [pending, ownFrom, setClient_order, hclient] using hout
  · simpa only [receivedEvents, setClient_order, hclient] using hrec

theorem refines_edit {i : ι} {edit : Edit α} {vc : ViewController α} {event : Event γ}
    {e : Editor α γ} (href : Refines s i e)
    (hedit : (s.client i).vc.userEdit (dev i) edit = some (vc, event)) :
    ∃ e', e.step (dev i) (.edit edit true) = some e' ∧
      Refines { s.setClient i { s.client i with
          vc := vc
          outbox := (s.client i).outbox ++ [s.submission i edit event] } with
        edits := s.edits ++ [edit] } i e' := by
  rcases href with ⟨hvc, hout, hrec⟩
  let e' : Editor α γ := { e with
    vc := vc
    outstanding := e.outstanding ++ [event]
    accepted := e.accepted ++ [event] }
  have hstep : e.step (dev i) (.edit edit true) = some e' := by
    simp [Editor.step, hvc, hedit, e']
  refine ⟨e', hstep, by simp [e'], ?_, ?_⟩
  · have hmore := hout.append_right [event]
    simpa [pending, ownFrom, submission] using hmore
  · simpa [receivedEvents] using hrec

theorem refines_publish {i j : ι} {index : Nat} {x : Submission ι α γ} {e : Editor α γ}
    (hinv : Inv s) (href : Refines s i e) (hx : (s.client j).outbox[index]? = some x) :
    Refines { s.setClient j { s.client j with
        outbox := (s.client j).outbox.eraseIdx index } with
      order := s.order ++ [x] } i e := by
  rcases href with ⟨hvc, hout, hrec⟩
  have hreceived : (s.order ++ [x]).take (s.client i).delivered =
      s.order.take (s.client i).delivered :=
    List.take_append_of_le_length (hinv.delivered i)
  by_cases hij : i = j
  · subst hij
    refine ⟨by simpa using hvc, ?_, by simpa [receivedEvents, hreceived] using hrec⟩
    have hperm := (ownFrom_publish_self hinv (hinv.delivered i) hx).map Submission.event
    simpa [pending, ownFrom] using hout.trans hperm.symm
  · have hclient := setClient_client_of_ne s
      { s.client j with outbox := (s.client j).outbox.eraseIdx index } hij
    have hauthor : x.author ≠ i := by
      rw [hinv.author j x (List.mem_of_getElem? hx)]
      exact fun h => hij h.symm
    refine ⟨by rw [hvc, hclient], ?_, ?_⟩
    · simpa only [pending, ownFrom, hclient, filter_drop_publish hauthor (hinv.delivered i)]
        using hout
    · simpa only [receivedEvents, hclient, hreceived] using hrec

/-- Handing client `i` the next event is an echo or a remote event of its editor. -/
theorem refines_deliver {i : ι} {x : Submission ι α γ} {vc : ViewController α} {shown : Nat}
    {e : Editor α γ} (href : Refines s i e)
    (hx : s.order[(s.client i).delivered]? = some x)
    (hvc' : (s.client i).vc.receivedEvent (dev i) (submissionRegistrationID i x.author)
      x.event = some vc) :
    ∃ a e', Editor.AllAccepted e a ∧ e.step (dev i) a = some e' ∧
      Refines (s.setClient i { s.client i with
        vc := vc
        delivered := (s.client i).delivered + 1
        shown := shown }) i e' := by
  rcases href with ⟨hvc, hout, hrec⟩
  have hreceived : (s.order.take ((s.client i).delivered + 1)).map Submission.event =
      s.receivedEvents i ++ [x.event] := by
    rw [List.take_add_one, hx, List.map_append]
    rfl
  rw [pending, ownFrom_succ hx] at hout
  by_cases hauthor : x.author = i
  · -- the event is the editor's own: it is outstanding at some index
    rw [if_pos hauthor, List.map_cons] at hout
    have hmem : x.event ∈ e.outstanding := hout.mem_iff.mpr List.mem_cons_self
    rcases List.mem_iff_getElem.mp hmem with ⟨k, hk, hget⟩
    have hget? : e.outstanding[k]? = some x.event := by rw [List.getElem?_eq_getElem hk, hget]
    rw [submissionRegistrationID, if_pos hauthor] at hvc'
    let e' : Editor α γ := { e with
      vc := vc
      outstanding := e.outstanding.eraseIdx k
      received := e.received ++ [x.event] }
    have hstep : e.step (dev i) (.echo k) = some e' := by
      simp [Editor.step, hvc, hget?, hvc', e']
    refine ⟨.echo k, e', trivial, hstep, by simp [e'], ?_, ?_⟩
    · have herase : (x.event :: e.outstanding.eraseIdx k).Perm e.outstanding := by
        rw [← hget]
        exact List.getElem_cons_eraseIdx_perm hk
      simpa [e', pending, ownFrom] using (herase.trans hout).cons_inv
    · simp [e', receivedEvents, hreceived, hrec]
  · rw [if_neg hauthor] at hout
    rw [submissionRegistrationID, if_neg hauthor] at hvc'
    let e' : Editor α γ := { e with vc := vc, received := e.received ++ [x.event] }
    have hstep : e.step (dev i) (.remote x.event) = some e' := by
      simp [Editor.step, hvc, hvc', e']
    refine ⟨.remote x.event, e', trivial, hstep, by simp [e'], ?_, ?_⟩
    · simpa [e', pending, ownFrom] using hout
    · simp [e', receivedEvents, hreceived, hrec]

/-- One step of the session is at most one step of the editor of client `i`. -/
theorem refines_step {i : ι} {a : SessionAction ι α} {e : Editor α γ} (hinv : Inv s)
    (href : Refines s i e) (hstep : s.step dev a = some s') :
    ∃ bs e', Run (Editor.step (dev i)) Editor.AllAccepted e bs e' ∧ Refines s' i e' := by
  cases a with
  | join j =>
      obtain rfl := step_join hstep
      refine ⟨[], e, .nil, ?_⟩
      by_cases hij : i = j
      · subst hij
        rcases href with ⟨hvc, hout, hrec⟩
        exact ⟨by simpa using hvc, by simpa [pending, ownFrom] using hout,
          by simpa [receivedEvents] using hrec⟩
      · exact href.of_ne hij s.edits
  | edit j edit =>
      rcases step_edit hstep with ⟨vc, event, hedit, rfl⟩
      by_cases hij : i = j
      · subst hij
        rcases refines_edit href hedit with ⟨e', he', href'⟩
        refine ⟨[] ++ [.edit edit true], e', ?_, href'⟩
        exact .snoc .nil rfl he'
      · exact ⟨[], e, .nil, href.of_ne hij _⟩
  | select j range =>
      obtain rfl := step_select hstep
      by_cases hij : i = j
      · subst hij
        rcases href with ⟨hvc, hout, hrec⟩
        let view := { e.vc.myTextView with selectedRange := range }
        let e' : Editor α γ := { e with vc := { e.vc with myTextView := view } }
        have he' : e.step (dev i) (.select range) = some e' := rfl
        refine ⟨[] ++ [.select range], e', ?_, ?_, ?_, ?_⟩
        · exact .snoc .nil trivial he'
        · simp [e', view, hvc]
        · simpa [pending, ownFrom] using hout
        · simpa [receivedEvents] using hrec
      · exact ⟨[], e, .nil, href.of_ne hij s.edits⟩
  | publish j index =>
      rcases step_publish hstep with ⟨x, hx, rfl⟩
      exact ⟨[], e, .nil, refines_publish hinv href hx⟩
  | deliver j =>
      rcases step_deliver hstep with ⟨x, vc, hx, hvc, rfl⟩
      by_cases hij : i = j
      · subst hij
        rcases refines_deliver href hx hvc with ⟨b, e', hok, he', href'⟩
        exact ⟨[] ++ [b], e', .snoc .nil hok he', href'⟩
      · exact ⟨[], e, .nil, href.of_ne hij s.edits⟩

/-- Every client of a session is an editor whose broadcasts are all accepted. -/
theorem exists_editor_run {view : ι → UITextView α}
    {ok : Session ι α γ → SessionAction ι α → Prop} {as : List (SessionAction ι α)}
    (hrun : Run (step dev) ok (start view) as s) (i : ι) :
    ∃ bs e, Run (Editor.step (dev i)) Editor.AllAccepted (Editor.start (view i)) bs e ∧
      Refines s i e := by
  have hsim : ∃ bs e, Run (Editor.step (dev i)) Editor.AllAccepted (Editor.start (view i)) bs e ∧
      Inv s ∧ Refines s i e := by
    refine hrun.simulate (fun s e => Inv s ∧ Refines s i e)
      ⟨inv_start view, rfl, List.Perm.refl _, rfl⟩ ?_
    rintro s a s' e ⟨hinv, href⟩ - hstep
    rcases refines_step hinv href hstep with ⟨bs, e', hbs, href'⟩
    exact ⟨bs, e', hbs, inv_step hinv hstep, href'⟩
  rcases hsim with ⟨bs, e, hbs, -, href⟩
  exact ⟨bs, e, hbs, href⟩

/-! ## What each client has folded and counted -/

/-- The invariant of the editors, read off at client `i`. -/
structure Folded (dev : ι → Device α γ) (view : ι → UITextView α) (s : Session ι α γ) (i : ι) :
    Prop where
  counter : (s.client i).vc.brCounter = (s.pending i).length
  synced : (s.client i).vc.brCounter = 0 →
    (s.client i).vc.myTextView.text = (s.client i).vc.sideString
  folded : replay (applyEvent (dev i).stringWithCString) (view i).text (s.receivedEvents i) =
    some (s.client i).vc.sideString

theorem folded_of_run {view : ι → UITextView α}
    {ok : Session ι α γ → SessionAction ι α → Prop} {as : List (SessionAction ι α)}
    (hrun : Run (step dev) ok (start view) as s) (i : ι) : Folded dev view s i := by
  rcases exists_editor_run hrun i with ⟨bs, e, hbs, hvc, hout, hrec⟩
  have hinv := Editor.inv_of_run hbs
  have hcounter := hinv.counter
  have hsynced := hinv.synced
  have hfolded := hinv.folded
  rw [Editor.failed_eq_zero hbs, hout.length_eq, List.length_map] at hcounter
  rw [hvc] at hcounter hsynced hfolded
  rw [hrec] at hfolded
  exact ⟨by simpa using hcounter, hsynced, hfolded⟩

/-- Every client's side string is the fold of the side mutators over the events delivered to
it, and any two clients at the same position of the order with a zero counter show the same
text, which is that fold. -/
theorem replicas_agree (dev : ι → Device α γ) (view : ι → UITextView α)
    (hopen : ∀ i j, (view i).text = (view j).text)
    (hdecode : ∀ i j, (dev i).stringWithCString = (dev j).stringWithCString)
    (as : List (SessionAction ι α)) (s : Session ι α γ)
    (hrun : Run (step dev) anyAction (start view) as s) :
    (∀ i, (replay (applySide (dev i)) (viewDidLoad (view i)) (s.receivedEvents i)).map
        sideString = some (s.client i).vc.sideString) ∧
      ∀ i j, (s.client i).delivered = (s.client j).delivered →
        (s.client i).vc.brCounter = 0 → (s.client j).vc.brCounter = 0 →
        (s.client i).vc.myTextView.text = (s.client j).vc.myTextView.text ∧
          (replay (applySide (dev i)) (viewDidLoad (view i)) (s.receivedEvents i)).map
            sideString = some (s.client i).vc.myTextView.text := by
  have hside : ∀ i, (replay (applySide (dev i)) (viewDidLoad (view i)) (s.receivedEvents i)).map
      sideString = some (s.client i).vc.sideString := fun i => by
    rw [replay_sideString]
    exact (folded_of_run hrun i).folded
  refine ⟨hside, ?_⟩
  intro i j hdelivered hi hj
  have hfi := folded_of_run hrun i
  have hfj := folded_of_run hrun j
  have hreceived : s.receivedEvents i = s.receivedEvents j := by
    rw [receivedEvents, receivedEvents, hdelivered]
  have hsame : some (s.client i).vc.sideString = some (s.client j).vc.sideString := by
    rw [← hfi.folded, ← hfj.folded, hopen i j, hdecode i j, hreceived]
  rw [hfi.synced hi, hfj.synced hj]
  exact ⟨Option.some.inj hsame, hside i⟩

/-- Two clients type at the same place, and both receive both events. -/
theorem replicas_agree_typing :
    ∃ as, ∃ s : Session Bool Unichar UInt8,
      Run (step fun _ => latin1Device) anyAction (start fun _ => viewOf []) as s ∧
        (s.client true).vc.myTextView.text = [98, 97] ∧
        (s.client true).vc.myTextView.text = (s.client false).vc.myTextView.text := by
  let as : List (SessionAction Bool Unichar) :=
    [.join true, .join false, .edit true (.insert 0 97), .edit false (.insert 0 98),
      .publish true 0, .publish false 0, .deliver true, .deliver false, .deliver true,
      .deliver false]
  obtain ⟨s, hs⟩ : ∃ s, replay (step fun _ => latin1Device)
      (start fun _ => viewOf [] : Session Bool Unichar UInt8) as = some s := ⟨_, rfl⟩
  have hrun := Run.of_replay hs
  refine ⟨as, s, hrun, ?_, ?_⟩
  · cases hs
    rfl
  · refine ((replicas_agree _ _ (fun _ _ => rfl) (fun _ _ => rfl) as s hrun).2 true false
      ?_ ?_ ?_).1 <;> cases hs <;> rfl

end Session

end WeWrite
