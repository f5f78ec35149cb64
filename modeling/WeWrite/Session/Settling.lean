import Mathlib.Algebra.BigOperators.Group.Finset.Basic
import Mathlib.Data.Fintype.Basic
import WeWrite.Session.Agreement

/-!
# How a session comes to rest

When the users stop editing, what is left is the service's work: publishing the broadcasts that
wait and handing out the events of the order.  Every such step is one less to be made, whichever
it is, so the number of steps left does not depend on how the service schedules them, and they
end where nothing is left to do or where a delivery raises.

Main results:

- Theorem `Session.remaining_step`: a step of the service takes one off what remains.
- Theorem `Session.atRest_of_stuck`: where no step is possible and none raises, nothing waits and
  everyone has everything.
- Theorem `Session.comes_to_rest`: the number of steps, and the texts at the end.
-/

namespace WeWrite

open Transition ViewController

variable {ι α γ : Type} [DecidableEq ι]

namespace Session

variable {dev : ι → Device α γ} {s s' : Session ι α γ}

/-! ## The steps of the service -/

/-- Only the service acts. -/
def ServiceOnly (_ : Session ι α γ) : SessionAction ι α → Prop
  | .publish _ _ | .deliver _ => True
  | _ => False

/-- No step of the service is possible. -/
def Stuck (dev : ι → Device α γ) (s : Session ι α γ) : Prop :=
  ∀ a, s.ServiceOnly a → s.step dev a = none

/-- How many events of an order of length `n` a client still has to be handed. -/
def behind (n : Nat) (c : Client ι α γ) : Nat :=
  if c.joined then n - c.delivered else 0

/-- Each waiting broadcast is one step and one delivery to every client that has joined. -/
def remaining [Fintype ι] (s : Session ι α γ) : Nat :=
  (∑ i, (s.client i).outbox.length) * (1 + ∑ i, (s.client i).joined.toNat) +
    ∑ i, behind s.order.length (s.client i)

/-! ## One step -/

/-- A sum over the clients after one of them has been replaced. -/
theorem sum_setClient [Fintype ι] (f : Client ι α γ → Nat) (s : Session ι α γ) (i : ι)
    (c : Client ι α γ) :
    (∑ j, f ((s.setClient i c).client j)) + f (s.client i) =
      (∑ j, f (s.client j)) + f c := by
  have hsame : ∑ j ∈ Finset.univ.erase i, f ((s.setClient i c).client j) =
      ∑ j ∈ Finset.univ.erase i, f (s.client j) := by
    refine Finset.sum_congr rfl fun j hj => ?_
    rw [setClient_client_of_ne s c (Finset.ne_of_mem_erase hj)]
  rw [← Finset.add_sum_erase _ _ (Finset.mem_univ i), setClient_client_self, hsame,
    ← Finset.add_sum_erase _ _ (Finset.mem_univ i)]
  omega

/-- A count that the new client has in common with the old one keeps its sum. -/
theorem sum_setClient_of_eq [Fintype ι] {f : Client ι α γ → Nat} {i : ι} {c : Client ι α γ}
    (h : f c = f (s.client i)) :
    ∑ j, f ((s.setClient i c).client j) = ∑ j, f (s.client j) :=
  Finset.sum_congr rfl fun j _ => setClient_client_congr f s h j

omit [DecidableEq ι] in
/-- An event that is published is one more for every client that has joined. -/
theorem behind_succ {n : Nat} {c : Client ι α γ} (h : c.delivered ≤ n) :
    behind (n + 1) c = behind n c + c.joined.toNat := by
  cases hjoined : c.joined
  · simp [behind, hjoined]
  · simp only [behind, hjoined, if_true, Bool.toNat_true]
    omega

theorem remaining_publish [Fintype ι] {i : ι} {index : Nat} (hinv : Inv s)
    (hstep : s.step dev (.publish i index) = some s') : s.remaining = s'.remaining + 1 := by
  rcases step_publish hstep with ⟨x, hx, rfl⟩
  have hlt := (List.getElem?_eq_some_iff.mp hx).1
  generalize hc : ({ s.client i with outbox := (s.client i).outbox.eraseIdx index } :
    Client ι α γ) = c
  have hwaiting := sum_setClient (fun c => c.outbox.length) s i c
  have hjoined : ∑ j, ((s.setClient i c).client j).joined.toNat = ∑ j, (s.client j).joined.toNat :=
    sum_setClient_of_eq (f := fun c => c.joined.toNat) (by rw [← hc])
  have hlength : (s.client i).outbox.length = c.outbox.length + 1 := by
    simp only [← hc, List.length_eraseIdx, if_pos hlt]
    omega
  have hbehind : ∑ j, behind (s.order ++ [x]).length ((s.setClient i c).client j) =
      ∑ j, behind s.order.length (s.client j) + ∑ j, (s.client j).joined.toNat := by
    have hsame := sum_setClient_of_eq (s := s) (i := i) (c := c)
      (f := behind (s.order ++ [x]).length) (by rw [← hc]; rfl)
    rw [hsame, List.length_append, List.length_singleton, ← Finset.sum_add_distrib]
    exact Finset.sum_congr rfl fun j _ => behind_succ (hinv.delivered j)
  have hone : ∑ j, (s.client j).outbox.length =
      ∑ j, ((s.setClient i c).client j).outbox.length + 1 := by
    omega
  simp only [remaining]
  rw [hbehind, hjoined, hone, Nat.add_mul]
  omega

theorem remaining_deliver [Fintype ι] {i : ι} (hstep : s.step dev (.deliver i) = some s') :
    s.remaining = s'.remaining + 1 := by
  have hi : (s.client i).joined = true := by
    by_contra hnot
    simp [step, hnot] at hstep
  rcases step_deliver hstep with ⟨x, vc, hx, -, rfl⟩
  have hlt : (s.client i).delivered < s.order.length := (List.getElem?_eq_some_iff.mp hx).1
  generalize hc : ({ s.client i with
    vc := vc
    delivered := (s.client i).delivered + 1
    shown := if vc.brCounter = 0 then (s.client i).delivered + 1 else (s.client i).shown } :
      Client ι α γ) = c
  have hbehind := sum_setClient (behind s.order.length) s i c
  have hone : behind s.order.length (s.client i) = behind s.order.length c + 1 := by
    simp only [behind, ← hc, hi, if_true]
    omega
  simp only [remaining, setClient_order]
  rw [sum_setClient_of_eq (f := fun c => c.outbox.length) (by rw [← hc]),
    sum_setClient_of_eq (f := fun c => c.joined.toNat) (by rw [← hc])]
  omega

/-- A step of the service takes one off what remains. -/
theorem remaining_step [Fintype ι] {a : SessionAction ι α} (hinv : Inv s)
    (hservice : s.ServiceOnly a) (hstep : s.step dev a = some s') :
    s.remaining = s'.remaining + 1 := by
  cases a with
  | publish i index => exact remaining_publish hinv hstep
  | deliver i => exact remaining_deliver hstep
  | join i => exact hservice.elim
  | edit i edit => exact hservice.elim
  | select i range => exact hservice.elim

/-! ## Where the steps end -/

/-- No broadcast waits, and every client that has joined has been handed the whole order. -/
structure AtRest (s : Session ι α γ) : Prop where
  waiting : ∀ i, (s.client i).outbox = []
  delivered : ∀ i, (s.client i).joined = true → (s.client i).delivered = s.order.length

/-- Where no step is possible and no delivery raises, the session is at rest. -/
theorem atRest_of_stuck (hinv : Inv s) (hstuck : s.Stuck dev)
    (hraises : ∀ i, ¬ DeliverRaises dev s i) : s.AtRest where
  waiting i := by
    have hnone := hstuck (.publish i 0) trivial
    simp only [step, Option.bind_eq_bind] at hnone
    cases houtbox : (s.client i).outbox with
    | nil => rfl
    | cons x rest => simp [houtbox] at hnone
  delivered i hjoined := by
    have hnone := hstuck (.deliver i) trivial
    simp only [step, if_pos hjoined, Option.bind_eq_bind] at hnone
    refine Nat.le_antisymm (hinv.delivered i) ?_
    cases hx : s.order[(s.client i).delivered]? with
    | none => exact List.getElem?_eq_none_iff.mp hx
    | some x =>
        rw [hx, Option.bind_some] at hnone
        cases hvc : (s.client i).vc.receivedEvent (dev i)
            (submissionRegistrationID i x.author) x.event with
        | none => exact (hraises i ⟨hjoined, x, hx, hvc⟩).elim
        | some vc => simp [hvc] at hnone

theorem AtRest.pending {i : ι} (h : s.AtRest) (hjoined : (s.client i).joined = true) :
    s.pending i = [] := by
  rw [Session.pending, ownFrom, h.waiting i, h.delivered i hjoined, List.drop_length,
    List.filter_nil, List.append_nil]

/-- At rest every client that has joined shows the fold of the whole order. -/
theorem AtRest.text {view : ι → UITextView α} {as : List (SessionAction ι α)} {i : ι}
    (h : s.AtRest) (hrun : Run (step dev) anyAction (start view) as s)
    (hjoined : (s.client i).joined = true) :
    (s.client i).vc.brCounter = 0 ∧
      replay (applyEvent (dev i).stringWithCString) (view i).text (s.order.map Submission.event) =
        some (s.client i).vc.myTextView.text := by
  rcases folded_of_run hrun i with ⟨hcounter, hsynced, hfolded⟩
  have hzero : (s.client i).vc.brCounter = 0 := by
    rw [hcounter, h.pending hjoined]
    rfl
  refine ⟨hzero, ?_⟩
  rw [hsynced hzero, ← hfolded, receivedEvents, h.delivered i hjoined, List.take_length]

/-- From every state of every run the service has exactly `remaining` steps to make, in whichever
sequence it makes them.  Some such sequence ends where it can make no more, and every one that
ends there leaves a delivery that raises, or leaves every client that has joined with the same
text, which is the fold of the whole order, and with nothing outstanding. -/
theorem comes_to_rest [Fintype ι] (dev : ι → Device α γ) (view : ι → UITextView α)
    (hopen : ∀ i j, (view i).text = (view j).text)
    (hdecode : ∀ i j, (dev i).stringWithCString = (dev j).stringWithCString)
    (as : List (SessionAction ι α)) (s : Session ι α γ)
    (hrun : Run (step dev) anyAction (start view) as s) :
    (∀ bs s', Run (step dev) ServiceOnly s bs s' → bs.length + s'.remaining = s.remaining) ∧
      (∃ bs s', Run (step dev) ServiceOnly s bs s' ∧ s'.Stuck dev) ∧
      ∀ bs s', Run (step dev) ServiceOnly s bs s' → s'.Stuck dev →
        (∃ i, DeliverRaises dev s' i) ∨
          (s'.AtRest ∧ ∀ i, (s'.client i).joined = true →
            (s'.client i).vc.brCounter = 0 ∧
            replay (applyEvent (dev i).stringWithCString) (view i).text
                (s'.order.map Submission.event) = some (s'.client i).vc.myTextView.text ∧
            ∀ j, (s'.client j).joined = true →
              (s'.client i).vc.myTextView.text = (s'.client j).vc.myTextView.text) := by
  have hstep : ∀ s a s', Inv s → s.ServiceOnly a → step dev s a = some s' →
      Inv s' ∧ s.remaining = s'.remaining + 1 := fun s a s' hinv hok hs =>
    ⟨inv_step hinv hs, remaining_step hinv hok hs⟩
  have hinv := inv_of_run hrun
  refine ⟨fun bs s' hbs => (hbs.length_add_measure Inv remaining hinv hstep).2,
    exists_maximal_run Inv remaining hinv hstep, ?_⟩
  intro bs s' hbs hstuck
  by_cases hraises : ∃ i, DeliverRaises dev s' i
  · exact Or.inl hraises
  · right
    have hrun' := hrun.append hbs.any
    have hrest := atRest_of_stuck (inv_of_run hrun') hstuck fun i hi => hraises ⟨i, hi⟩
    refine ⟨hrest, ?_⟩
    intro i hi
    rcases hrest.text hrun' hi with ⟨hcounter, htext⟩
    refine ⟨hcounter, htext, ?_⟩
    intro j hj
    have htext' := (hrest.text hrun' hj).2
    rw [hopen i j, hdecode i j, htext'] at htext
    exact (Option.some.inj htext).symm

/-- Two clients have typed and nothing has been published: six steps are left, and they end with
both characters on both sides. -/
theorem comes_to_rest_typing :
    ∃ as, ∃ s : Session Bool Unichar UInt8,
      Run (step fun _ => latin1Device) anyAction (start fun _ => viewOf []) as s ∧
        s.remaining = 6 ∧
        ∃ bs s', Run (step fun _ => latin1Device) ServiceOnly s bs s' ∧
          (s'.client true).vc.myTextView.text = [98, 97] ∧
          (s'.client false).vc.myTextView.text = [98, 97] := by
  let as : List (SessionAction Bool Unichar) :=
    [.join true, .join false, .edit true (.insert 0 97), .edit false (.insert 0 98)]
  let bs : List (SessionAction Bool Unichar) :=
    [.publish true 0, .publish false 0, .deliver true, .deliver false, .deliver true,
      .deliver false]
  obtain ⟨s, s', hs, hs', hremaining, htext, htext'⟩ : ∃ s s' : Session Bool Unichar UInt8,
      replay (step fun _ => latin1Device) (start fun _ => viewOf []) as = some s ∧
        replay (step fun _ => latin1Device) s bs = some s' ∧ s'.remaining = 0 ∧
        (s'.client true).vc.myTextView.text = [98, 97] ∧
        (s'.client false).vc.myTextView.text = [98, 97] := ⟨_, _, rfl, rfl, rfl, rfl, rfl⟩
  have hrun := Run.of_replay hs
  have hservice : Run (step fun _ => latin1Device) ServiceOnly s bs s' := by
    refine Run.of_replay_of_forall hs' ?_
    intro a ha s
    simp only [bs, List.mem_cons, List.not_mem_nil, or_false] at ha
    rcases ha with rfl | rfl | rfl | rfl | rfl | rfl <;> trivial
  have hcount := (comes_to_rest _ _ (fun _ _ => rfl) (fun _ _ => rfl) as s hrun).1 bs s' hservice
  rw [hremaining] at hcount
  exact ⟨as, s, hrun, hcount.symm, bs, s', hservice, htext, htext'⟩

end Session

end WeWrite
