import WeWrite.Editor.Broadcast
import WeWrite.Session.Agreement

/-!
# Where a text view comes from

All devices decode alike, and the service publishes the broadcasts of each client in the
sequence they were sent.  Then there is one string for each position of the order, the fold
of the events up to it, and the side string of a client is the one at its position.

A text view was last refreshed from the string at `shown`; since then its user's own edits,
and nothing else, have changed it.  The same holds of the text that an author had before
each of its edits, and the edits in between are its own events in the order from `shown` on.

Main results:

- Theorem `Session.sideAt_delivered`: a side string is the string at its client's position.
- Theorem `Session.history_of_run`: where text views and the texts before published edits come
  from, in every reachable state.
- Theorems `Session.Faithful.apply_insert` and `Session.Faithful.apply_delete`: what a broadcast
  does that is the one of its edit.
-/

namespace WeWrite

open Transition Splice ViewController

variable {ι α γ : Type} [DecidableEq ι]

namespace Session

variable {dev : ι → Device α γ} {decode : List γ → NSString α} {text : NSString α}
  {s s' : Session ι α γ}

/-! ## The strings of the order -/

/-- The effect of a submission on a string. -/
def applySubmission (decode : List γ → NSString α) (t : NSString α) (x : Submission ι α γ) :
    Option (NSString α) :=
  applyEvent decode t x.event

omit [DecidableEq ι] in
theorem replay_applySubmission (t : NSString α) (xs : List (Submission ι α γ)) :
    replay (applySubmission decode) t xs =
      replay (applyEvent decode) t (xs.map Submission.event) := by
  induction xs generalizing t with
  | nil => rfl
  | cons x xs ih =>
      rw [List.map_cons, replay_cons, replay_cons]
      congr 1
      funext t'
      exact ih t'

/-- The string after the first `n` events of the order. -/
def sideAt (decode : List γ → NSString α) (text : NSString α) (s : Session ι α γ) (n : Nat) :
    Option (NSString α) :=
  replay (applySubmission decode) text (s.order.take n)

omit [DecidableEq ι] in
theorem sideAt_congr {n : Nat} (h : s'.order.take n = s.order.take n) :
    sideAt decode text s' n = sideAt decode text s n := by
  rw [sideAt, sideAt, h]

omit [DecidableEq ι] in
theorem sideAt_succ {n : Nat} {x : Submission ι α γ} (hx : s.order[n]? = some x) :
    sideAt decode text s (n + 1) = (sideAt decode text s n).bind fun t =>
      applySubmission decode t x :=
  replay_take_succ hx

omit [DecidableEq ι] in
theorem take_eq_append_segment {m n : Nat} (hmn : m ≤ n) :
    s.order.take n = s.order.take m ++ (s.order.take n).drop m := by
  have htake : (s.order.take n).take m = s.order.take m := by
    rw [List.take_take, Nat.min_eq_left hmn]
  rw [← htake, List.take_append_drop]

omit [DecidableEq ι] in
/-- A string at a later position has passed through every earlier one. -/
theorem exists_sideAt_of_le {m n : Nat} (hmn : m ≤ n) {t : NSString α}
    (hn : sideAt decode text s n = some t) : ∃ t', sideAt decode text s m = some t' := by
  rw [sideAt, take_eq_append_segment hmn] at hn
  rcases exists_of_replay_append hn with ⟨t', ht', -⟩
  exact ⟨t', ht'⟩

omit [DecidableEq ι] in
/-- Between two positions the events in between are replayed. -/
theorem sideAt_of_le {m n : Nat} (hmn : m ≤ n) {t : NSString α}
    (hm : sideAt decode text s m = some t) :
    sideAt decode text s n =
      replay (applySubmission decode) t ((s.order.take n).drop m) := by
  have hsplit := take_eq_append_segment (s := s) hmn
  have hm' : replay (applySubmission decode) text (s.order.take m) = some t := hm
  rw [sideAt, hsplit, replay_append, hm', Option.bind_some, ← hsplit]

omit [DecidableEq ι] in
/-- An entry of the order between two positions, with what has been replayed before it. -/
theorem sideAt_segment {m n : Nat} {t t' : NSString α} {xs ys : List (Submission ι α γ)}
    {x : Submission ι α γ} (hm : sideAt decode text s m = some t)
    (hseg : (s.order.take n).drop m = xs ++ x :: ys)
    (hxs : replay (applySubmission decode) t xs = some t') :
    s.order[m + xs.length]? = some x ∧ m + xs.length < n ∧
      sideAt decode text s (m + xs.length) = some t' := by
  have hget : (s.order.take n)[m + xs.length]? = some x := by
    rw [← List.getElem?_drop, hseg]
    simp
  have hlt : m + xs.length < n := by
    have hlen := (List.getElem?_eq_some_iff.mp hget).1
    rw [List.length_take] at hlen
    omega
  have hxs' : (s.order.take (m + xs.length)).drop m = xs := by
    have hcut : s.order.take (m + xs.length) = (s.order.take n).take (m + xs.length) := by
      rw [List.take_take, Nat.min_eq_left (Nat.le_of_lt hlt)]
    rw [hcut, List.drop_take, hseg, Nat.add_sub_cancel_left]
    simp
  refine ⟨?_, hlt, ?_⟩
  · rwa [List.getElem?_take_of_lt hlt] at hget
  · rw [sideAt_of_le (Nat.le_add_right _ _) hm, hxs', hxs]

/-- The side string of a client is the one at its position. -/
theorem sideAt_delivered {view : ι → UITextView α} (hopen : ∀ i, (view i).text = text)
    (hdecode : ∀ i, (dev i).stringWithCString = decode)
    {ok : Session ι α γ → SessionAction ι α → Prop} {as : List (SessionAction ι α)}
    (hrun : Run (step dev) ok (start view) as s) (i : ι) :
    sideAt decode text s (s.client i).delivered = some (s.client i).vc.sideString := by
  have hfolded := (folded_of_run hrun i).folded
  rw [hopen i, hdecode i] at hfolded
  rw [sideAt, replay_applySubmission]
  exact hfolded

/-! ## Own edits since the last refresh -/

/-- The author's text was `t` before the edit and `t'` after it. -/
def Made (t : NSString α) (x : Submission ι α γ) (t' : NSString α) : Prop :=
  x.before = t ∧ performText t x.edit = some t'

/-- The text of client `i` comes from the string at `shown` by its own edits since then. -/
structure Refreshed (decode : List γ → NSString α) (text : NSString α) (s : Session ι α γ)
    (i : ι) : Prop where
  shown : (s.client i).shown ≤ (s.client i).delivered
  waiting : ∀ x ∈ (s.client i).outbox, x.shown = (s.client i).shown
  chain : ∃ base, sideAt decode text s (s.client i).shown = some base ∧
    Chain Made base (s.ownFrom i (s.client i).shown) (s.client i).vc.myTextView.text

/-- The edit published at `n` was performed on its author's text, which came from the string at
the submission's `shown` by the author's own edits in between. -/
structure Published (decode : List γ → NSString α) (text : NSString α) (s : Session ι α γ)
    (n : Nat) (x : Submission ι α γ) : Prop where
  shown : x.shown ≤ n
  performed : ∃ after, performText x.before x.edit = some after
  chain : ∃ base, sideAt decode text s x.shown = some base ∧
    Chain Made base (((s.order.take n).drop x.shown).filter (ownedBy x.author)) x.before

/-- Where the texts of a session come from. -/
structure History (decode : List γ → NSString α) (text : NSString α) (s : Session ι α γ) :
    Prop where
  client : ∀ i, Refreshed decode text s i
  published : ∀ n x, s.order[n]? = some x → Published decode text s n x

theorem history_start {view : ι → UITextView α} (hopen : ∀ i, (view i).text = text) :
    History decode text (start view : Session ι α γ) where
  client i := ⟨Nat.le_refl 0, by simp [start], text, rfl, (hopen i).symm⟩
  published n x hx := by simp [start] at hx

/-- Nothing but the client itself and the order decides where its text comes from. -/
theorem Refreshed.congr {i : ι} (h : Refreshed decode text s i) (horder : s'.order = s.order)
    (hshown : (s'.client i).shown = (s.client i).shown)
    (hdelivered : (s.client i).delivered ≤ (s'.client i).delivered)
    (houtbox : (s'.client i).outbox = (s.client i).outbox)
    (htext : (s'.client i).vc.myTextView.text = (s.client i).vc.myTextView.text) :
    Refreshed decode text s' i := by
  rcases h with ⟨hle, hwaiting, base, hbase, hchain⟩
  refine ⟨by omega, by rw [houtbox, hshown]; exact hwaiting, base, ?_, ?_⟩
  · rw [hshown]
    exact (sideAt_congr (by rw [horder])).trans hbase
  · rw [htext, hshown, ownFrom, horder, houtbox]
    exact hchain

theorem Published.congr {n : Nat} {x : Submission ι α γ} (h : Published decode text s n x)
    (horder : s'.order.take n = s.order.take n) : Published decode text s' n x := by
  rcases h with ⟨hle, hperformed, base, hbase, hchain⟩
  have hshown : s'.order.take x.shown = s.order.take x.shown := by
    have hcut : ∀ r : Session ι α γ, r.order.take x.shown = (r.order.take n).take x.shown :=
      fun r => by rw [List.take_take, Nat.min_eq_left hle]
    rw [hcut s', hcut s, horder]
  exact ⟨hle, hperformed, base, by rw [sideAt_congr hshown, hbase], by rw [horder]; exact hchain⟩

/-! ## The steps -/

/-- Replacing a client by one with the same text, positions and waiting broadcasts. -/
theorem history_setClient {i : ι} {c : Client ι α γ} (hist : History decode text s)
    (hshown : c.shown = (s.client i).shown) (hdelivered : c.delivered = (s.client i).delivered)
    (houtbox : c.outbox = (s.client i).outbox)
    (htext : c.vc.myTextView.text = (s.client i).vc.myTextView.text) :
    History decode text (s.setClient i c) := by
  refine ⟨fun j => (hist.client j).congr rfl ?_ ?_ ?_ ?_, fun n x hx =>
    (hist.published n x hx).congr rfl⟩
  · exact setClient_client_congr Client.shown s hshown j
  · exact Nat.le_of_eq (setClient_client_congr Client.delivered s hdelivered j).symm
  · exact setClient_client_congr Client.outbox s houtbox j
  · exact setClient_client_congr (fun c => c.vc.myTextView.text) s htext j

theorem history_edit {i : ι} {edit : Edit α} {vc : ViewController α} {event : Event γ}
    (hist : History decode text s) (hedited : Edited (dev i) edit event (s.client i).vc vc) :
    History decode text { s.setClient i { s.client i with
        vc := vc
        outbox := (s.client i).outbox ++ [s.submission i edit event] } with
      edits := s.edits ++ [edit] } := by
  refine ⟨fun j => ?_, fun n x hx => (hist.published n x hx).congr rfl⟩
  by_cases hj : j = i
  · subst hj
    rcases hist.client j with ⟨hle, hwaiting, base, hbase, hchain⟩
    refine ⟨by simpa using hle, ?_, base, by simpa [sideAt] using hbase, ?_⟩
    · simp only [setClient_client_self]
      exact forall_mem_concat hwaiting rfl
    · simp only [ownFrom, setClient_client_self, setClient_order, ← List.append_assoc]
      refine chain_append.mpr ⟨_, hchain, chain_singleton.mpr ⟨rfl, ?_⟩⟩
      exact performText_of_edited hedited
  · refine (hist.client j).congr rfl ?_ ?_ ?_ ?_ <;> simp [setClient_client_of_ne s _ hj]

/-- Publishing keeps where the text of client `j` comes from. -/
theorem Refreshed.publish {i j : ι} {x : Submission ι α γ} (h : Refreshed decode text s j)
    (hinv : Inv s) (hx : (s.client i).outbox[0]? = some x) :
    Refreshed decode text { s.setClient i { s.client i with
        outbox := (s.client i).outbox.eraseIdx 0 } with order := s.order ++ [x] } j := by
  rcases h with ⟨hle, hwaiting, base, hbase, hchain⟩
  have hlen : (s.client j).shown ≤ s.order.length := Nat.le_trans hle (hinv.delivered j)
  have htake : (s.order ++ [x]).take (s.client j).shown = s.order.take (s.client j).shown :=
    List.take_append_of_le_length hlen
  by_cases hj : j = i
  · subst hj
    refine ⟨by simpa using hle, ?_, base, by simpa [sideAt, htake] using hbase, ?_⟩
    · intro y hy
      simp only [setClient_client_self] at hy ⊢
      exact hwaiting y (List.mem_of_mem_eraseIdx hy)
    · simp only [ownFrom, setClient_client_self]
      rw [ownFrom_publish_first hinv hlen hx]
      exact hchain
  · have hother : x.author ≠ j := by
      rw [hinv.author i x (List.mem_of_getElem? hx)]
      exact Ne.symm hj
    refine ⟨?_, ?_, base, ?_, ?_⟩ <;> simp only [ownFrom, sideAt, setClient_client_of_ne s _ hj]
    · exact hle
    · exact hwaiting
    · rw [htake]
      exact hbase
    · rw [filter_drop_publish hother hlen]
      exact hchain

/-- A waiting broadcast that is published first was made on the text that its client's own
edits, published since the last refresh, had led to. -/
theorem Refreshed.published_first {i : ι} {x : Submission ι α γ} (h : Refreshed decode text s i)
    (hinv : Inv s) (hx : (s.client i).outbox[0]? = some x) (horder : s'.order = s.order ++ [x]) :
    Published decode text s' s.order.length x := by
  rcases h with ⟨hle, hwaiting, base, hbase, hchain⟩
  rcases exists_cons_of_getElem?_zero hx with ⟨rest, hrest⟩
  have hshown : x.shown = (s.client i).shown := hwaiting x (List.mem_of_getElem? hx)
  have hlen : x.shown ≤ s.order.length := by
    rw [hshown]
    exact Nat.le_trans hle (hinv.delivered i)
  have htake : ∀ n, n ≤ s.order.length → s'.order.take n = s.order.take n := fun n hn => by
    rw [horder]
    exact List.take_append_of_le_length hn
  rw [ownFrom, hrest, ← hshown] at hchain
  rw [← hshown] at hbase
  rcases chain_append.mp hchain with ⟨t, ht, t', ⟨hbefore, hperform⟩, -⟩
  refine ⟨hlen, ⟨t', by rw [hbefore]; exact hperform⟩, base, ?_, ?_⟩
  · rw [sideAt_congr (htake _ hlen)]
    exact hbase
  · rw [hbefore, htake _ (Nat.le_refl _), List.take_length,
      hinv.author i x (List.mem_of_getElem? hx)]
    exact ht

theorem history_publish {i : ι} {x : Submission ι α γ} (hist : History decode text s)
    (hinv : Inv s) (hx : (s.client i).outbox[0]? = some x) :
    History decode text { s.setClient i { s.client i with
        outbox := (s.client i).outbox.eraseIdx 0 } with order := s.order ++ [x] } := by
  refine ⟨fun j => (hist.client j).publish hinv hx, fun n y hy => ?_⟩
  simp only at hy
  rcases Nat.lt_or_ge n s.order.length with hlt | hge
  · rw [List.getElem?_append_left hlt] at hy
    exact (hist.published n y hy).congr (List.take_append_of_le_length (Nat.le_of_lt hlt))
  · -- the new entry
    obtain ⟨rfl, rfl⟩ : n = s.order.length ∧ y = x := by
      rw [List.getElem?_append_right hge] at hy
      have hzero : n - s.order.length = 0 := by
        have := (List.getElem?_eq_some_iff.mp hy).1
        simpa using this
      rw [hzero] at hy
      exact ⟨by omega, by simpa using hy.symm⟩
    exact (hist.client i).published_first hinv hx rfl

/-- A client with a zero counter has nothing under way, and its text is the string at its
position. -/
theorem refreshed_of_counter_eq_zero {view : ι → UITextView α} {i : ι}
    (hfolded : Folded dev view s i) (hzero : (s.client i).vc.brCounter = 0)
    (hshown : (s.client i).shown = (s.client i).delivered)
    (hside : sideAt decode text s (s.client i).delivered = some (s.client i).vc.sideString) :
    Refreshed decode text s i := by
  have hpending : s.pending i = [] := by
    have hcounter := hfolded.counter
    rw [hzero] at hcounter
    exact List.eq_nil_of_length_eq_zero (by omega)
  have hwaiting : (s.client i).outbox = [] := (List.append_eq_nil_iff.mp hpending).2
  refine ⟨Nat.le_of_eq hshown, by simp [hwaiting], _, by rw [hshown]; exact hside, ?_⟩
  have hown : s.ownFrom i (s.client i).shown = [] := by rw [hshown]; exact hpending
  rw [hown]
  exact (hfolded.synced hzero).symm

/-- A delivery either leaves the text view to its user's edits, or refreshes it with
nothing under way. -/
theorem history_deliver {view : ι → UITextView α} {i : ι} {x : Submission ι α γ}
    {vc : ViewController α} (hist : History decode text s)
    (hreceived : Received (dev i).stringWithCString i x (s.client i).vc vc)
    (hs' : s' = s.setClient i { s.client i with
      vc := vc
      delivered := (s.client i).delivered + 1
      shown := if vc.brCounter = 0 then (s.client i).delivered + 1 else (s.client i).shown })
    (hfolded : Folded dev view s' i)
    (hside : sideAt decode text s' (s'.client i).delivered = some (s'.client i).vc.sideString) :
    History decode text s' := by
  have horder : s'.order = s.order := by rw [hs', setClient_order]
  have hclient : s'.client i = { s.client i with
      vc := vc
      delivered := (s.client i).delivered + 1
      shown := if vc.brCounter = 0 then (s.client i).delivered + 1 else (s.client i).shown } := by
    rw [hs', setClient_client_self]
  refine ⟨fun j => ?_, fun n y hy => ?_⟩
  · by_cases hj : j = i
    · subst hj
      by_cases hzero : vc.brCounter = 0
      · refine refreshed_of_counter_eq_zero hfolded ?_ ?_ hside <;> rw [hclient]
        · exact hzero
        · exact if_pos hzero
      · refine (hist.client j).congr horder ?_ ?_ ?_ ?_ <;> rw [hclient]
        · exact if_neg hzero
        · exact Nat.le_succ _
        · exact hreceived.text_of_counter_ne hzero
    · have hother : s'.client j = s.client j := by rw [hs', setClient_client_of_ne s _ hj]
      exact (hist.client j).congr horder (by rw [hother]) (Nat.le_of_eq (by rw [hother]))
        (by rw [hother]) (by rw [hother])
  · rw [horder] at hy
    exact (hist.published n y hy).congr (by rw [horder])

/-- Where the texts come from, in every reachable state. -/
theorem history_of_run {view : ι → UITextView α} (hopen : ∀ i, (view i).text = text)
    (hdecode : ∀ i, (dev i).stringWithCString = decode)
    {ok : Session ι α γ → SessionAction ι α → Prop} (hinorder : ∀ s a, ok s a → InOrder s a)
    {as : List (SessionAction ι α)} (hrun : Run (step dev) ok (start view) as s) :
    History decode text s := by
  induction hrun with
  | nil => exact history_start hopen
  | @snoc as s s' a hrun hok hstep hist =>
      cases a with
      | join i =>
          obtain rfl := step_join hstep
          exact history_setClient hist rfl rfl rfl rfl
      | edit i edit =>
          rcases step_edit hstep with ⟨vc, event, hedit, rfl⟩
          exact history_edit hist (userEdit_spec hedit)
      | select i range =>
          obtain rfl := step_select hstep
          exact history_setClient hist rfl rfl rfl rfl
      | publish i index =>
          rcases step_publish hstep with ⟨x, hx, rfl⟩
          obtain rfl : index = 0 := hinorder s _ hok
          exact history_publish hist (inv_of_run hrun) hx
      | deliver i =>
          rcases step_deliver hstep with ⟨x, vc, -, hvc, hs'⟩
          have hrun' := Run.snoc hrun hok hstep
          exact history_deliver hist (received_of_receivedEvent hvc) hs'
            (folded_of_run hrun' i) (sideAt_delivered hopen hdecode hrun' i)

/-! ## Faithful broadcasts -/

/-- The broadcast at position `n` is the one of its edit: it has the edit's type and count,
and a deletion is not applied by the end branch. -/
structure Faithful (dev : ι → Device α γ) (decode : List γ → NSString α) (text : NSString α)
    (s : Session ι α γ) (n : Nat) (x : Submission ι α γ) : Prop where
  announced : Announced (dev x.author) x.edit x.event
  spares : ∀ side, sideAt decode text s n = some side → SparesLastUnit side x.edit

section Faithful

omit [DecidableEq ι]

variable {n : Nat} {x : Submission ι α γ} {side side' : NSString α}

/-- A keystroke that was broadcast as one is faithful. -/
theorem Faithful.of_insert {location : Nat} {char : α} (hedit : x.edit = .insert location char)
    (hevent : x.event = insertEvent (dev x.author) location char) :
    Faithful dev decode text s n x where
  announced := by
    rw [hedit]
    exact hevent
  spares side _ := by
    rw [hedit]
    trivial

/-- A faithful keystroke inserts what is read of its character. -/
theorem Faithful.apply_insert (hx : Faithful dev decode text s n x) {location : Nat} {char : α}
    (hedit : x.edit = .insert location char) :
    applySubmission decode side x = some side' ↔
      location ≤ side.length ∧
        side' = insertAt location (decode ((dev x.author).utf8String [char])) side := by
  have hannounced := hx.announced
  rw [hedit] at hannounced
  have hevent : x.event = insertEvent (dev x.author) location char := hannounced
  rw [applySubmission, hevent]
  exact applyEvent_insertEvent

/-- A faithful deletion removes its range. -/
theorem Faithful.apply_delete (hx : Faithful dev decode text s n x) {location count : Nat}
    (hedit : x.edit = .delete location count) (hside : sideAt decode text s n = some side) :
    applySubmission decode side x = some side' ↔
      location + count ≤ side.length ∧ side' = removeAt location count side := by
  have hannounced := hx.announced
  have hspared := hx.spares side hside
  rw [hedit] at hannounced hspared
  have hevent : x.event = deleteEvent location count := hannounced
  rw [applySubmission, hevent]
  exact applyEvent_deleteEvent hspared

/-- Only typed characters and deleted ranges are broadcast faithfully. -/
theorem Faithful.edit_ne_replace (hx : Faithful dev decode text s n x) (view : UITextView α) :
    x.edit ≠ .replace view := by
  intro hedit
  have hannounced := hx.announced
  rw [hedit] at hannounced
  exact hannounced

end Faithful

end Session

end WeWrite
