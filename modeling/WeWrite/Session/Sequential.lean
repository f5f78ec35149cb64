import WeWrite.Editor.Broadcast
import WeWrite.Session.Agreement

/-!
# Sessions without conflicts

A client edits only when it has been handed every broadcast of every other client; its own
may be under way.  Then each event is applied, everywhere, to exactly the text its author
had, and the session performs the edits one after the other.

At most one client has broadcasts waiting, so the order followed by them is one log, from
the text the editors opened on to the text after all edits.  What a client has yet to be
handed starts with its own broadcasts, and these lead from its side string to its text view.

Main results:

- Theorem `Session.seqInv_of_run`: the invariant of such a session.
- Theorem `Session.exists_run_of_members`: what the devices of clients outside the session read
  does not matter.
- Theorem `Session.fidelity_without_conflicts`: with everything delivered, every text view
  shows the text after all edits, and no echo changes a text view.
- Theorem `Session.end_branch_breaks_fidelity`: one deletion that leaves one unit behind its
  range breaks this with a single client.
-/

namespace WeWrite

open Transition ViewController

variable {ι α γ : Type} [DecidableEq ι]

namespace Session

variable {dev : ι → Device α γ} {s s' : Session ι α γ} {text : NSString α}

/-! ## The guards -/

/-- Client `i` has been handed every broadcast of every other client. -/
def SeesAll (s : Session ι α γ) (i : ι) : Prop :=
  (∀ j, j ≠ i → (s.client j).outbox = []) ∧
    ∀ x ∈ s.order.drop (s.client i).delivered, x.author = i

/-- Clients type and delete ranges, only when they see all broadcasts of the others; the
service keeps the sequence of each client's broadcasts. -/
def NoConflict (s : Session ι α γ) (a : SessionAction ι α) : Prop :=
  InOrder s a ∧ TypingOnly s a ∧
    match a with
    | .edit i _ => SeesAll s i
    | _ => True

/-- Every member reads a typed character as it was meant, and no deletion away from the start
leaves exactly one unit behind its range. -/
def KeepsText (dev : ι → Device α γ) (member : ι → Prop) (s : Session ι α γ) :
    SessionAction ι α → Prop
  | .edit i edit => (∀ j, member j → ReadAsTyped (dev j).stringWithCString (dev i) edit) ∧
      SparesLastUnit (s.client i).vc.myTextView.text edit
  | _ => True

/-! ## The invariant -/

/-- On every device, the event leads from `t` to `t'`. -/
def Applies (dev : ι → Device α γ) (t : NSString α) (x : Submission ι α γ) (t' : NSString α) :
    Prop :=
  ∀ j, applyEvent (dev j).stringWithCString t x.event = some t'

/-- The edits, performed one after the other. -/
def sequentialText (s : Session ι α γ) (text : NSString α) : Option (NSString α) :=
  replay performText text s.edits

/-- What client `i` still has to be handed: events of its own, which with its waiting ones
lead from its side string to its text view, and then events of others, and these only when
it has nothing waiting. -/
structure Owed (dev : ι → Device α γ) (order : List (Submission ι α γ)) (i : ι)
    (c : Client ι α γ) (own foreign : List (Submission ι α γ)) : Prop where
  split : order.drop c.delivered = own ++ foreign
  own_author : ∀ x ∈ own, x.author = i
  foreign_author : ∀ x ∈ foreign, x.author ≠ i
  waits : foreign ≠ [] → c.outbox = []
  view : Chain (Applies dev) c.vc.sideString (own ++ c.outbox) c.vc.myTextView.text
  count : c.vc.brCounter = (own ++ c.outbox).length

/-- The invariant at one client. -/
structure SeqClient (dev : ι → Device α γ) (text : NSString α)
    (order : List (Submission ι α γ)) (i : ι) (c : Client ι α γ) : Prop where
  base : Chain (Applies dev) text (order.take c.delivered) c.vc.sideString
  owed : ∃ own foreign, Owed dev order i c own foreign
  tracks : c.vc.textSize = c.vc.myTextView.text.length

/-- The invariant of a session without conflicts. -/
structure SeqInv (dev : ι → Device α γ) (text : NSString α) (s : Session ι α γ) : Prop where
  log : ∃ writer, (∀ j, j ≠ writer → (s.client j).outbox = []) ∧
    ∃ final, s.sequentialText text = some final ∧
      Chain (Applies dev) text (s.order ++ (s.client writer).outbox) final
  client : ∀ i, SeqClient dev text s.order i (s.client i)

omit [DecidableEq ι] in
theorem Applies.unique (i : ι) {t t₁ t₂ : NSString α} {x : Submission ι α γ}
    (h₁ : Applies dev t x t₁) (h₂ : Applies dev t x t₂) : t₁ = t₂ :=
  Option.some.inj ((h₁ i).symm.trans (h₂ i))

omit [DecidableEq ι] in
theorem chain_unique (i : ι) {t t₁ t₂ : NSString α} {log : List (Submission ι α γ)}
    (h₁ : Chain (Applies dev) t log t₁) (h₂ : Chain (Applies dev) t log t₂) : t₁ = t₂ := by
  refine h₁.unique ?_ h₂
  intro t x t₁ t₂ hx₁ hx₂
  exact hx₁.unique i hx₂

omit [DecidableEq ι] in
/-- A client that has been handed all events of others is owed its own only. -/
theorem Owed.foreign_eq_nil {order : List (Submission ι α γ)} {i : ι} {c : Client ι α γ}
    {own foreign : List (Submission ι α γ)} (howed : Owed dev order i c own foreign)
    (hsees : ∀ x ∈ order.drop c.delivered, x.author = i) : foreign = [] := by
  rw [List.eq_nil_iff_forall_not_mem]
  intro x hx
  refine howed.foreign_author x hx (hsees x ?_)
  rw [howed.split]
  exact List.mem_append_right own hx

omit [DecidableEq ι] in
theorem seqInv_start [Nonempty ι] {view : ι → UITextView α} (hopen : ∀ i, (view i).text = []) :
    SeqInv dev [] (start view : Session ι α γ) where
  log := ⟨Classical.arbitrary ι, fun _ _ => rfl, [], rfl, rfl⟩
  client i := by
    refine ⟨(hopen i).symm, ⟨[], [], rfl, by simp, by simp, by simp, rfl, rfl⟩, ?_⟩
    simp [start, viewDidLoad, hopen i]

omit [DecidableEq ι] in
/-- A client that sees all broadcasts of the others shows the text after all edits. -/
theorem SeqInv.text_of_seesAll {i : ι} (hinv : SeqInv dev text s) (hsees : SeesAll s i) :
    s.sequentialText text = some (s.client i).vc.myTextView.text ∧
      Chain (Applies dev) text (s.order ++ (s.client i).outbox)
        (s.client i).vc.myTextView.text := by
  rcases hinv with ⟨⟨writer, hwriter, final, hfinal, hlog⟩, hclient⟩
  rcases hclient i with ⟨hbase, ⟨own, foreign, howed⟩, -⟩
  have hlog' : Chain (Applies dev) text (s.order ++ (s.client i).outbox) final := by
    by_cases hi : i = writer
    · rw [hi]
      exact hlog
    · rw [hwriter i hi]
      rw [hsees.1 writer (Ne.symm hi)] at hlog
      exact hlog
  have hview : Chain (Applies dev) text (s.order ++ (s.client i).outbox)
      (s.client i).vc.myTextView.text := by
    have hsplit := howed.split
    rw [howed.foreign_eq_nil hsees.2, List.append_nil] at hsplit
    rw [← List.take_append_drop (s.client i).delivered s.order, List.append_assoc, hsplit]
    exact chain_append.mpr ⟨_, hbase, howed.view⟩
  obtain rfl := chain_unique i hlog' hview
  exact ⟨hfinal, hlog'⟩

/-! ## Local edits -/

theorem seqInv_edit {i : ι} {edit : Edit α} {vc : ViewController α} {event : Event γ}
    (hinv : SeqInv dev text s) (htyping : edit.IsTyping) (hsees : SeesAll s i)
    (hread : ∀ j, ReadAsTyped (dev j).stringWithCString (dev i) edit)
    (hspares : SparesLastUnit (s.client i).vc.myTextView.text edit)
    (hedited : Edited (dev i) edit event (s.client i).vc vc) :
    SeqInv dev text { s.setClient i { s.client i with
        vc := vc
        outbox := (s.client i).outbox ++ [s.submission i edit event] } with
      edits := s.edits ++ [edit] } := by
  have hperform := performText_of_edited hedited
  rcases hinv.text_of_seesAll hsees with ⟨hseq, hlog⟩
  rcases hinv.client i with ⟨hbase, ⟨own, foreign, howed⟩, htracks⟩
  have hevent : Applies dev (s.client i).vc.myTextView.text (s.submission i edit event)
      vc.myTextView.text := fun j =>
    applyEvent_announced (announced_of_tracks htyping htracks hedited) (hread j) hspares hperform
  have hnone : foreign = [] := howed.foreign_eq_nil hsees.2
  subst hnone
  refine ⟨⟨i, ?_, vc.myTextView.text, ?_, ?_⟩, ?_⟩
  · intro j hj
    simpa [setClient_client_of_ne s _ hj] using hsees.1 j hj
  · have hmore : replay performText text s.edits = some (s.client i).vc.myTextView.text := hseq
    simp only [sequentialText, replay_concat, hmore, Option.bind_some, hperform]
  · simp only [setClient_order, setClient_client_self, ← List.append_assoc]
    exact chain_append.mpr ⟨_, hlog, chain_singleton.mpr hevent⟩
  · refine forall_setClient (P := SeqClient dev text s.order) hinv.client ⟨?_, ?_, ?_⟩
    · simpa only [hedited.side] using hbase
    · refine ⟨own, [], howed.split, howed.own_author, by simp, by simp, ?_, ?_⟩
      · simp only [hedited.side, ← List.append_assoc]
        exact chain_append.mpr ⟨_, howed.view, chain_singleton.mpr hevent⟩
      · simp only [hedited.counter, howed.count, ← List.append_assoc, List.length_append,
          List.length_singleton]
        push_cast
        rfl
    · exact hedited.textSize

/-! ## Publishing -/

omit [DecidableEq ι] in
/-- The writer's next broadcast is published: it stays among its own events. -/
theorem Owed.publish_own {order rest : List (Submission ι α γ)} {i : ι} {c : Client ι α γ}
    {own foreign : List (Submission ι α γ)} {x : Submission ι α γ}
    (howed : Owed dev order i c own foreign) (hdelivered : c.delivered ≤ order.length)
    (hrest : c.outbox = x :: rest) (hauthor : x.author = i) :
    Owed dev (order ++ [x]) i { c with outbox := rest } (own ++ [x]) [] := by
  have hnone : foreign = [] := by
    by_contra hne
    have hout := howed.waits hne
    rw [hrest] at hout
    cases hout
  subst hnone
  have hview := howed.view
  have hcount := howed.count
  rw [hrest] at hview hcount
  refine ⟨?_, ?_, by simp, by simp, by simpa using hview, by simpa using hcount⟩
  · simp only [List.drop_append_of_le_length hdelivered, howed.split, List.append_nil]
  · exact forall_mem_concat howed.own_author hauthor

omit [DecidableEq ι] in
/-- A broadcast of another client is published: it joins the events of others. -/
theorem Owed.publish_foreign {order : List (Submission ι α γ)} {i : ι} {c : Client ι α γ}
    {own foreign : List (Submission ι α γ)} {x : Submission ι α γ}
    (howed : Owed dev order i c own foreign) (hdelivered : c.delivered ≤ order.length)
    (hout : c.outbox = []) (hauthor : x.author ≠ i) :
    Owed dev (order ++ [x]) i c own (foreign ++ [x]) := by
  refine ⟨?_, howed.own_author, ?_, fun _ => hout, howed.view, howed.count⟩
  · rw [List.drop_append_of_le_length hdelivered, howed.split, List.append_assoc]
  · exact forall_mem_concat howed.foreign_author hauthor

theorem seqInv_publish {i : ι} {x : Submission ι α γ} (hinv : SeqInv dev text s) (hpos : Inv s)
    (hx : (s.client i).outbox[0]? = some x) :
    SeqInv dev text { s.setClient i { s.client i with
        outbox := (s.client i).outbox.eraseIdx 0 } with order := s.order ++ [x] } := by
  rcases hinv with ⟨⟨writer, hwriter, final, hfinal, hlog⟩, hclient⟩
  rcases exists_cons_of_getElem?_zero hx with ⟨rest, hrest⟩
  have hauthor : x.author = i := hpos.author i x (by rw [hrest]; exact List.mem_cons_self)
  have hi : i = writer := by
    by_contra hne
    rw [hwriter i hne] at hrest
    cases hrest
  subst hi
  refine ⟨⟨i, ?_, final, hfinal, ?_⟩, fun j => ?_⟩
  · intro j hj
    simpa [setClient_client_of_ne s _ hj] using hwriter j hj
  · simpa [hrest] using hlog
  · rcases hclient j with ⟨hbase, ⟨own, foreign, howed⟩, htracks⟩
    have htake : (s.order ++ [x]).take (s.client j).delivered =
        s.order.take (s.client j).delivered :=
      List.take_append_of_le_length (hpos.delivered j)
    rw [← htake] at hbase
    by_cases hj : j = i
    · subst hj
      have howed' := howed.publish_own (hpos.delivered j) hrest hauthor
      simp only [setClient_client_self, hrest, List.eraseIdx_cons_zero]
      exact ⟨hbase, ⟨_, _, howed'⟩, htracks⟩
    · have hne : x.author ≠ j := by
        rw [hauthor]
        exact Ne.symm hj
      have howed' := howed.publish_foreign (hpos.delivered j) (hwriter j hj) hne
      simp only [setClient_client_of_ne s _ hj]
      exact ⟨hbase, ⟨_, _, howed'⟩, htracks⟩

/-! ## Deliveries -/

omit [DecidableEq ι] in
/-- An own event comes back: the text view stays as it is, with the last one because nothing
is left between the side string and the view. -/
theorem Owed.echo {order : List (Submission ι α γ)} {i : ι} {c : Client ι α γ}
    {own foreign : List (Submission ι α γ)} {x : Submission ι α γ} {vc : ViewController α}
    (howed : Owed dev order i c own foreign)
    (hdrop : order.drop c.delivered = x :: order.drop (c.delivered + 1))
    (hauthor : x.author = i) (happlies : Applies dev c.vc.sideString x vc.sideString)
    (hown : ReceivedOwn (dev i).stringWithCString x.event c.vc vc) (shown : Nat) :
    vc.myTextView.text = c.vc.myTextView.text ∧
      Owed dev order i { c with vc := vc, delivered := c.delivered + 1, shown := shown }
        own.tail foreign := by
  rcases howed with ⟨horder, hauthors, hforeign, hwaits, hview, hcount⟩
  cases own with
  | nil =>
      refine ((hforeign x ?_) hauthor).elim
      rw [List.nil_append] at horder
      rw [← horder, hdrop]
      exact List.mem_cons_self
  | cons y own =>
      rw [hdrop, List.cons_append, List.cons.injEq] at horder
      rcases horder with ⟨rfl, horder⟩
      rw [List.cons_append] at hview hcount
      rw [List.length_cons] at hcount
      rcases hview with ⟨t, ht, hview⟩
      obtain rfl := happlies.unique i ht
      have hcounter := hown.counter
      have htext : vc.myTextView.text = c.vc.myTextView.text := by
        rw [hown.text]
        split_ifs with hzero
        · have hnil : own ++ c.outbox = [] := List.eq_nil_of_length_eq_zero (by omega)
          rw [hnil] at hview
          exact hview
        · rfl
      refine ⟨htext, horder, fun z hz => hauthors z (List.mem_cons_of_mem _ hz), hforeign, hwaits,
        ?_, ?_⟩
      · simpa only [List.tail_cons, htext] using hview
      · simp only [List.tail_cons]
        omega

omit [DecidableEq ι] in
/-- An event of another client arrives with nothing of the client's own under way: both
copies take it. -/
theorem Owed.remote {order : List (Submission ι α γ)} {i : ι} {c : Client ι α γ}
    {own foreign : List (Submission ι α γ)} {x : Submission ι α γ} {vc : ViewController α}
    (howed : Owed dev order i c own foreign)
    (hdrop : order.drop c.delivered = x :: order.drop (c.delivered + 1))
    (hauthor : x.author ≠ i)
    (hremote : ReceivedRemote (dev i).stringWithCString x.event c.vc vc) (shown : Nat) :
    vc.textSize = vc.myTextView.text.length ∧
      Owed dev order i { c with vc := vc, delivered := c.delivered + 1, shown := shown }
        [] foreign.tail := by
  rcases howed with ⟨horder, hauthors, hforeign, hwaits, hview, hcount⟩
  cases own with
  | cons y own =>
      rw [hdrop, List.cons_append, List.cons.injEq] at horder
      rcases horder with ⟨rfl, -⟩
      exact (hauthor (hauthors x List.mem_cons_self)).elim
  | nil =>
      rw [List.nil_append, hdrop] at horder
      subst horder
      have hout : c.outbox = [] := hwaits (List.cons_ne_nil _ _)
      rw [hout, List.nil_append] at hview hcount
      rcases hremote.shown hcount with ⟨htext, hsize⟩
      have hsame : vc.sideString = vc.myTextView.text := by
        have hside := hremote.side
        have hshown : c.vc.sideString = c.vc.myTextView.text := hview
        rw [hshown, htext] at hside
        exact (Option.some.inj hside).symm
      refine ⟨hsize, rfl, by simp, fun z hz => hforeign z (List.mem_cons_of_mem _ hz),
        fun _ => hout, ?_, ?_⟩
      · simp only [hout, List.append_nil]
        exact hsame
      · simpa only [hremote.counter, hout, List.append_nil] using hcount

omit [DecidableEq ι] in
theorem SeqClient.received {i : ι} {c : Client ι α γ} {x : Submission ι α γ}
    {vc : ViewController α} {final : NSString α} {order : List (Submission ι α γ)}
    (hc : SeqClient dev text order i c) (hlog : Chain (Applies dev) text order final)
    (hx : order[c.delivered]? = some x)
    (hreceived : Received (dev i).stringWithCString i x c.vc vc) (shown : Nat) :
    SeqClient dev text order i
        { c with vc := vc, delivered := c.delivered + 1, shown := shown } ∧
      (x.author = i → vc.myTextView.text = c.vc.myTextView.text) := by
  rcases hc with ⟨hbase, ⟨own, foreign, howed⟩, htracks⟩
  rcases List.getElem?_eq_some_iff.mp hx with ⟨hlt, hget⟩
  have hdrop : order.drop c.delivered = x :: order.drop (c.delivered + 1) := by
    rw [List.drop_eq_getElem_cons hlt, hget]
  -- the event leads from the side string to the next one on every device
  have happlies : Applies dev c.vc.sideString x vc.sideString := by
    rw [← List.take_append_drop c.delivered order, hdrop, chain_append] at hlog
    rcases hlog with ⟨t, ht, t', hx', -⟩
    obtain rfl := chain_unique i ht hbase
    have hside : vc.sideString = t' := by
      have h := hreceived.side
      rw [hx' i] at h
      exact (Option.some.inj h).symm
    rw [hside]
    exact hx'
  have hbase' : Chain (Applies dev) text (order.take (c.delivered + 1)) vc.sideString := by
    rw [List.take_add_one, hx]
    exact chain_append.mpr ⟨_, hbase, chain_singleton.mpr happlies⟩
  rcases hreceived with ⟨hauthor, hown⟩ | ⟨hauthor, hremote⟩
  · rcases howed.echo hdrop hauthor happlies hown shown with ⟨htext, howed'⟩
    refine ⟨⟨hbase', ⟨_, _, howed'⟩, ?_⟩, fun _ => htext⟩
    simp only [hown.textSize, htext]
    exact htracks
  · rcases howed.remote hdrop hauthor hremote shown with ⟨hsize, howed'⟩
    exact ⟨⟨hbase', ⟨_, _, howed'⟩, hsize⟩, fun h => (hauthor h).elim⟩

/-! ## Whole runs -/

/-- Replacing a client by one with the same waiting broadcasts. -/
theorem seqInv_setClient {i : ι} {c : Client ι α γ} (hinv : SeqInv dev text s)
    (houtbox : c.outbox = (s.client i).outbox) (hc : SeqClient dev text s.order i c) :
    SeqInv dev text (s.setClient i c) := by
  rcases hinv with ⟨⟨writer, hwriter, final, hfinal, hlog⟩, hclient⟩
  have hsame := setClient_client_congr Client.outbox s houtbox
  refine ⟨⟨writer, fun j hj => ?_, final, hfinal, ?_⟩,
    forall_setClient (P := SeqClient dev text s.order) hclient hc⟩
  · rw [hsame j]
    exact hwriter j hj
  · rw [hsame writer]
    exact hlog

theorem seqInv_step {a : SessionAction ι α} (hinv : SeqInv dev text s) (hpos : Inv s)
    (hok : NoConflict s a) (hkeeps : KeepsText dev (fun _ => True) s a)
    (hstep : s.step dev a = some s') :
    SeqInv dev text s' := by
  rcases hok with ⟨hinorder, htyping, hsees⟩
  cases a with
  | join i =>
      obtain rfl := step_join hstep
      rcases hinv.client i with ⟨hbase, ⟨own, foreign, howed⟩, htracks⟩
      rcases howed with ⟨hsplit, hown, hforeign, hwaits, hview, hcount⟩
      exact seqInv_setClient hinv rfl
        ⟨hbase, ⟨own, foreign, hsplit, hown, hforeign, hwaits, hview, hcount⟩, htracks⟩
  | edit i edit =>
      rcases step_edit hstep with ⟨vc, event, hedit, rfl⟩
      refine seqInv_edit hinv ?_ hsees (fun j => hkeeps.1 j trivial) hkeeps.2
        (userEdit_spec hedit)
      cases edit with
      | insert location char => trivial
      | delete location count => trivial
      | replace view => exact htyping
  | select i range =>
      obtain rfl := step_select hstep
      rcases hinv.client i with ⟨hbase, ⟨own, foreign, howed⟩, htracks⟩
      rcases howed with ⟨hsplit, hown, hforeign, hwaits, hview, hcount⟩
      exact seqInv_setClient hinv rfl
        ⟨hbase, ⟨own, foreign, hsplit, hown, hforeign, hwaits, hview, hcount⟩, htracks⟩
  | publish i index =>
      rcases step_publish hstep with ⟨x, hx, rfl⟩
      obtain rfl : index = 0 := hinorder
      exact seqInv_publish hinv hpos hx
  | deliver i =>
      rcases step_deliver hstep with ⟨x, vc, hx, hvc, rfl⟩
      rcases hinv.log with ⟨writer, -, final, -, hlog⟩
      rcases chain_append.mp hlog with ⟨published, hpublished, -⟩
      exact seqInv_setClient hinv rfl ((hinv.client i).received hpublished hx
        (received_of_receivedEvent hvc) _).1

theorem seqInv_of_run [Nonempty ι] {view : ι → UITextView α} (hopen : ∀ i, (view i).text = [])
    {as : List (SessionAction ι α)}
    (hrun : Run (step dev) (fun s a => NoConflict s a ∧ KeepsText dev (fun _ => True) s a)
      (start view) as s) : SeqInv dev [] s := by
  refine (hrun.invariant (fun s => SeqInv dev [] s ∧ Inv s)
    ⟨seqInv_start hopen, inv_start view⟩ ?_).1
  rintro s a s' ⟨hinv, hpos⟩ ⟨hok, hkeeps⟩ hstep
  exact ⟨seqInv_step hinv hpos hok hkeeps hstep, inv_step hpos hstep⟩

/-! ## Devices outside the session -/

omit [DecidableEq ι] in
/-- Outside the session every device can be taken for one of a member. -/
theorem exists_members_only (dev : ι → Device α γ) (member : ι → Prop) :
    ∃ dev' : ι → Device α γ, (∀ i, member i → dev' i = dev i) ∧
      ∀ i j, member i → ∃ k, member k ∧ dev' j = dev k := by
  classical
  by_cases hnone : ∃ i, member i
  · rcases hnone with ⟨i, hi⟩
    refine ⟨fun j => if member j then dev j else dev i, fun j hj => if_pos hj, fun _ j _ => ?_⟩
    by_cases hj : member j
    · exact ⟨j, hj, if_pos hj⟩
    · exact ⟨i, hi, if_neg hj⟩
  · exact ⟨dev, fun _ _ => rfl, fun i _ hi => (hnone ⟨i, hi⟩).elim⟩

/-- A run in which the members read what is typed is one in which everybody does. -/
theorem exists_run_of_members {view : ι → UITextView α} {as : List (SessionAction ι α)}
    (hrun : Run (step dev) (fun s a => NoConflict s a ∧ KeepsText dev (fun j => .join j ∈ as) s a)
      (start view) as s) :
    ∃ dev' : ι → Device α γ,
      Run (step dev') (fun s a => NoConflict s a ∧ KeepsText dev' (fun _ => True) s a)
        (start view) as s ∧ ∀ i, (s.client i).joined = true → dev' i = dev i := by
  rcases exists_members_only dev (fun j => .join j ∈ as) with ⟨dev', hsame, hothers⟩
  have hstart : (start view : Session ι α γ) = start view ∧
      ∀ i, ((start view : Session ι α γ).client i).joined = true → .join i ∈ as :=
    ⟨rfl, by simp [start]⟩
  obtain ⟨t, hrun', rfl, hjoined⟩ : ∃ t,
      Run (step dev') (fun s a => NoConflict s a ∧ KeepsText dev' (fun _ => True) s a)
        (start view) as t ∧ s = t ∧ ∀ i, (s.client i).joined = true → .join i ∈ as := by
    refine hrun.guard_mem.lockstep
      (fun s t => s = t ∧ ∀ i, (s.client i).joined = true → .join i ∈ as) hstart ?_
    rintro s a s' t ⟨rfl, hjoined⟩ ⟨⟨hok, hkeeps⟩, hmem⟩ hstep
    have hdev : ∀ i, (s.client i).joined = true → dev' i = dev i :=
      fun i hi => hsame i (hjoined i hi)
    refine ⟨⟨hok, ?_⟩, s', (step_congr_dev hdev a).trans hstep, rfl, fun i hi => ?_⟩
    · cases a with
      | edit i edit =>
          have hi := hjoined i (joined_of_step_edit hstep)
          refine ⟨fun j _ => ?_, hkeeps.2⟩
          rcases hothers i j hi with ⟨k, hk, hj⟩
          rw [hj, hsame i hi]
          exact hkeeps.1 k hk
      | _ => trivial
    · rcases joined_of_step hstep hi with hi | rfl
      · exact hjoined i hi
      · exact hmem
  exact ⟨dev', hrun', fun i hi => hsame i (hjoined i hi)⟩

/-! ## Fidelity -/

/-- From empty editors, with every typed character read as typed by every client of the session
and no deletion away from the start leaving exactly one unit behind its range: once everything is
delivered, every text view shows the text after all edits; and no echo changes a text view. -/
theorem fidelity_without_conflicts (dev : ι → Device α γ) (view : ι → UITextView α)
    (hopen : ∀ i, (view i).text = []) (as : List (SessionAction ι α)) (s : Session ι α γ)
    (hrun : Run (step dev) (fun s a => NoConflict s a ∧ KeepsText dev (fun j => .join j ∈ as) s a)
      (start view) as s) (i : ι) :
    ((∀ j, (s.client j).outbox = []) → (s.client i).delivered = s.order.length →
        s.sequentialText [] = some (s.client i).vc.myTextView.text) ∧
      ∀ x s', s.order[(s.client i).delivered]? = some x → x.author = i →
        s.step dev (.deliver i) = some s' →
        (s'.client i).vc.myTextView.text = (s.client i).vc.myTextView.text := by
  have : Nonempty ι := ⟨i⟩
  rcases exists_run_of_members hrun with ⟨dev', hrun', hsame⟩
  have hinv : SeqInv dev' [] s := seqInv_of_run hopen hrun'
  constructor
  · intro hquiet hall
    have hsees : SeesAll s i := by
      refine ⟨fun j _ => hquiet j, ?_⟩
      simp [hall]
    exact (hinv.text_of_seesAll hsees).1
  · intro x s' hx hauthor hstep
    rw [← step_congr_dev hsame] at hstep
    rcases hinv.log with ⟨writer, -, final, -, hlog⟩
    rcases chain_append.mp hlog with ⟨published, hpublished, -⟩
    rcases step_deliver hstep with ⟨y, vc, hy, hvc, rfl⟩
    obtain rfl : x = y := Option.some.inj (hx.symm.trans hy)
    have htext := ((hinv.client i).received hpublished hy (received_of_receivedEvent hvc)
      0).2 hauthor
    simpa using htext

theorem seesAll_unit (s : Session Unit α γ) : SeesAll s () :=
  ⟨fun _ h => (h rfl).elim, fun _ _ => rfl⟩

/-- One client types `ab` and deletes the first character. -/
theorem fidelity_without_conflicts_single :
    ∃ as, ∃ s : Session Unit Unichar UInt8,
      Run (step fun _ => latin1Device)
          (fun s a => NoConflict s a ∧
            KeepsText (fun _ => latin1Device) (fun j => .join j ∈ as) s a)
          (start fun _ => viewOf []) as s ∧
        s.sequentialText [] = some (s.client ()).vc.myTextView.text ∧
        (s.client ()).vc.myTextView.text = [98] := by
  let as : List (SessionAction Unit Unichar) :=
    [.join (), .edit () (.insert 0 97), .edit () (.insert 1 98), .edit () (.delete 0 1),
      .publish () 0, .publish () 0, .publish () 0, .deliver (), .deliver (), .deliver ()]
  obtain ⟨s, hs, hquiet, hall, htext⟩ : ∃ s, replay (step fun _ => latin1Device)
      (start fun _ => viewOf [] : Session Unit Unichar UInt8) as = some s ∧
        (∀ j, (s.client j).outbox = []) ∧ (s.client ()).delivered = s.order.length ∧
        (s.client ()).vc.myTextView.text = [98] := ⟨_, rfl, fun _ => rfl, rfl, rfl⟩
  have hrun : Run (step fun _ => latin1Device)
      (fun s a => NoConflict s a ∧ KeepsText (fun _ => latin1Device) (fun j => .join j ∈ as) s a)
      (start fun _ => viewOf []) as s := by
    apply Run.of_replay_of_forall hs
    have h97 : latin1Device.stringWithCString (latin1Device.utf8String [97]) = [97] := rfl
    have h98 : latin1Device.stringWithCString (latin1Device.utf8String [98]) = [98] := rfl
    simp [as, NoConflict, InOrder, TypingOnly, KeepsText, seesAll_unit, ReadAsTyped,
      SparesLastUnit, atEndBranch, h97, h98]
  exact ⟨as, s, hrun, (fidelity_without_conflicts _ _ (fun _ => rfl) as s hrun ()).1 hquiet hall,
    htext⟩

/-- One client types `abc` and deletes the `b`: the echo also removes the `c`. -/
theorem end_branch_breaks_fidelity :
    ¬ ∀ (as : List (SessionAction Unit Unichar)) (s : Session Unit Unichar UInt8),
      Run (step fun _ => latin1Device) NoConflict (start fun _ => viewOf []) as s → ∀ i,
        (∀ j, (s.client j).outbox = []) → (s.client i).delivered = s.order.length →
          s.sequentialText [] = some (s.client i).vc.myTextView.text := by
  intro h
  let as : List (SessionAction Unit Unichar) :=
    [.join (), .edit () (.insert 0 97), .edit () (.insert 1 98), .edit () (.insert 2 99),
      .edit () (.delete 1 1), .publish () 0, .publish () 0, .publish () 0, .publish () 0,
      .deliver (), .deliver (), .deliver (), .deliver ()]
  obtain ⟨s, hs, hquiet, hall, hseq, htext⟩ : ∃ s, replay (step fun _ => latin1Device)
      (start fun _ => viewOf [] : Session Unit Unichar UInt8) as = some s ∧
        (∀ j, (s.client j).outbox = []) ∧ (s.client ()).delivered = s.order.length ∧
        s.sequentialText [] = some [97, 99] ∧ (s.client ()).vc.myTextView.text = [97] :=
    ⟨_, rfl, fun _ => rfl, rfl, rfl, rfl⟩
  have hrun : Run (step fun _ => latin1Device) NoConflict (start fun _ => viewOf []) as s := by
    apply Run.of_replay_of_forall hs
    simp [as, NoConflict, InOrder, TypingOnly, seesAll_unit]
  have hclaim := h as s hrun () hquiet hall
  rw [hseq, htext] at hclaim
  revert hclaim
  decide

end Session

end WeWrite
