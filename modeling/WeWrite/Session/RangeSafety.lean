import WeWrite.Session.History
import WeWrite.Editor.Encoding

/-!
# When no index is out of range

Positions are absolute and nobody transforms them, so an index can leave the string it is
applied to.  This module shows that deletions of others which the author had not been shown
are what it takes: insertions of others only make the string longer, and the author's own
edits change both strings by the same amount.

A broadcast is taken here as its author meant it.  What a miscounted event, a character that
a device reads as nothing, or the end branch of a deletion do is not part of the statement.

Main results:

- Theorem `Session.length_before_le`: the text before an edit is no longer than the string
  its event is applied to.
- Theorem `Session.no_range_exception`: then no client raises.
- Theorem `Session.unseen_deletion_raises`: one deletion of another client is enough to raise.
-/

namespace WeWrite

open Transition Splice ViewController

variable {ι α γ : Type} [DecidableEq ι]

namespace Session

variable {dev : ι → Device α γ} {decode : List γ → NSString α} {text : NSString α}
  {s : Session ι α γ}

/-! ## The condition -/

/-- A typed character is read as some text. -/
def Readable (dev : ι → Device α γ) (decode : List γ → NSString α) (x : Submission ι α γ) :
    Prop :=
  ∀ location char, x.edit = .insert location char →
    decode ((dev x.author).utf8String [char]) ≠ []

/-- Every deletion of another client before position `n` was shown in the text that the author
of `x` edited. -/
def SeenDeletions (s : Session ι α γ) (n : Nat) (x : Submission ι α γ) : Prop :=
  ∀ k y location count, s.order[k]? = some y → k < n → y.author ≠ x.author →
    y.edit = .delete location count → k < x.shown

/-! ## Lengths -/

omit [DecidableEq ι] in
/-- A faithful event that is applied changes the length of the string by at least as much as
its edit changed the length of the author's text. -/
theorem Faithful.length_le {n : Nat} {x : Submission ι α γ}
    (hx : Faithful dev decode text s n x) (hreadable : Readable dev decode x)
    {t t' side side' : NSString α}
    (hperform : performText t x.edit = some t') (hside : sideAt decode text s n = some side)
    (happly : applySubmission decode side x = some side') (hle : t.length ≤ side.length) :
    t'.length ≤ side'.length := by
  cases hedit : x.edit with
  | insert location char =>
      rw [hedit] at hperform
      rcases performText_insert.mp hperform with ⟨-, rfl⟩
      rcases (hx.apply_insert hedit).mp happly with ⟨-, rfl⟩
      have hpos := List.length_pos_iff.mpr (hreadable location char hedit)
      simp only [length_insertAt, List.length_singleton]
      omega
  | delete location count =>
      rw [hedit] at hperform
      rcases performText_delete.mp hperform with ⟨-, hrange, rfl⟩
      rcases (hx.apply_delete hedit hside).mp happly with ⟨hrange', rfl⟩
      rw [length_removeAt hrange, length_removeAt hrange']
      omega
  | replace view => exact (hx.edit_ne_replace view hedit).elim

omit [DecidableEq ι] in
/-- A faithful event that is not a deletion makes the string longer. -/
theorem Faithful.length_le_of_ne_delete {n : Nat} {x : Submission ι α γ}
    (hx : Faithful dev decode text s n x) (hne : ∀ location count, x.edit ≠ .delete location count)
    {side side' : NSString α} (happly : applySubmission decode side x = some side') :
    side.length ≤ side'.length := by
  cases hedit : x.edit with
  | insert location char =>
      rcases (hx.apply_insert hedit).mp happly with ⟨-, rfl⟩
      simp
  | delete location count => exact (hne location count hedit).elim
  | replace view => exact (hx.edit_ne_replace view hedit).elim

/-- The text before a published edit is no longer than the string its event is applied to, when
its author had seen the deletions of others before it, and the events in between are
faithful. -/
theorem length_before_le {n : Nat} {x : Submission ι α γ} {side : NSString α}
    (hpublished : Published decode text s n x) (hside : sideAt decode text s n = some side)
    (hfaithful : ∀ k y, x.shown ≤ k → k < n → s.order[k]? = some y →
      Faithful dev decode text s k y ∧ (y.author = x.author → Readable dev decode y))
    (hseen : SeenDeletions s n x) : x.before.length ≤ side.length := by
  rcases hpublished with ⟨hshown, -, base, hbase, hchain⟩
  rw [sideAt_of_le hshown hbase] at hside
  refine Chain.interleave (fun _ t t' => t.length ≤ t'.length) (Nat.le_refl _) ?_ ?_ hchain hside
  · intro done y rest t t' u u' hlog hdone hmine hle hmade hstep
    rcases sideAt_segment hbase hlog hdone with ⟨hy, hlt, hu⟩
    rcases hfaithful _ y (Nat.le_add_right _ _) hlt hy with ⟨hfaithful, hreadable⟩
    exact hfaithful.length_le (hreadable (by simpa [ownedBy] using hmine)) hmade.2 hu hstep hle
  · intro done y rest t u u' hlog hdone hmine hle hstep
    rcases sideAt_segment hbase hlog hdone with ⟨hy, hlt, -⟩
    have hother : y.author ≠ x.author := by simpa [ownedBy] using hmine
    have hne : ∀ location count, y.edit ≠ .delete location count := by
      intro location count hedit
      have := hseen _ y location count hy hlt hother hedit
      omega
    have hfaithful := (hfaithful _ y (Nat.le_add_right _ _) hlt hy).1
    exact Nat.le_trans hle (hfaithful.length_le_of_ne_delete hne hstep)

omit [DecidableEq ι] in
/-- A faithful event applies to every string that is as long as its author's text. -/
theorem Faithful.exists_apply {n : Nat} {x : Submission ι α γ}
    (hx : Faithful dev decode text s n x) {side after : NSString α}
    (hperform : performText x.before x.edit = some after)
    (hside : sideAt decode text s n = some side) (hle : x.before.length ≤ side.length) :
    ∃ side', applySubmission decode side x = some side' := by
  cases hedit : x.edit with
  | insert location char =>
      rw [hedit] at hperform
      rcases performText_insert.mp hperform with ⟨hrange, -⟩
      exact ⟨_, (hx.apply_insert hedit).mpr ⟨by omega, rfl⟩⟩
  | delete location count =>
      rw [hedit] at hperform
      rcases performText_delete.mp hperform with ⟨-, hrange, -⟩
      exact ⟨_, (hx.apply_delete hedit hside).mpr ⟨by omega, rfl⟩⟩
  | replace view => exact (hx.edit_ne_replace view hedit).elim

/-! ## No client raises -/

omit [DecidableEq ι] in
/-- Typing never raises, and neither does a deletion with a right cache. -/
theorem not_editRaises {i : ι} {edit : Edit α} (htyping : edit.IsTyping)
    (hsize : (∃ location char, edit = .insert location char) ∨
      (s.client i).vc.textSize = (s.client i).vc.myTextView.text.length) :
    ¬ EditRaises dev s i edit := by
  rintro ⟨-, view, hview, hnone⟩
  cases edit with
  | insert location char =>
      have hlocation : location ≤ (s.client i).vc.myTextView.text.length := by
        by_contra hlt
        simp [Edit.perform, hlt] at hview
      rcases exists_userEdit_insert (dev i) (s.client i).vc char hlocation with ⟨result, hresult⟩
      rw [hresult] at hnone
      cases hnone
  | delete location count =>
      rcases hsize with ⟨location', char, hedit⟩ | hsize
      · cases hedit
      · have hperform : performText (s.client i).vc.myTextView.text (.delete location count) =
            some view.text := by rw [performText, hview, Option.map_some]
        rcases performText_delete.mp hperform with ⟨-, hrange, htext⟩
        rcases (userEdit_eq_none_iff hview).mp hnone with ⟨hgrown, -⟩
        rw [htext, length_removeAt hrange] at hgrown
        omega
  | replace view' => exact htyping.elim

/-- With devices that decode alike and in-order broadcasts: client `i` does not raise on the next
event, if its author had seen the deletions of others before it, and the events from those that
the author was shown up to the next one are faithful; and it raises on no keystroke, nor on a
deletion with a right cache. -/
theorem no_range_exception (dev : ι → Device α γ) (decode : List γ → NSString α)
    (hdecode : ∀ i, (dev i).stringWithCString = decode) (view : ι → UITextView α)
    (text : NSString α) (hopen : ∀ i, (view i).text = text) (as : List (SessionAction ι α))
    (s : Session ι α γ)
    (hrun : Run (step dev) (fun s a => InOrder s a ∧ TypingOnly s a) (start view) as s) (i : ι) :
    (∀ x, s.order[(s.client i).delivered]? = some x →
        SeenDeletions s (s.client i).delivered x →
        (∀ k y, x.shown ≤ k → k ≤ (s.client i).delivered → s.order[k]? = some y →
          Faithful dev decode text s k y ∧ (y.author = x.author → Readable dev decode y)) →
        ¬ DeliverRaises dev s i) ∧
      ∀ edit : Edit α, edit.IsTyping →
        ((∃ location char, edit = .insert location char) ∨
          (s.client i).vc.textSize = (s.client i).vc.myTextView.text.length) →
        ¬ EditRaises dev s i edit := by
  refine ⟨?_, fun edit => not_editRaises⟩
  rintro x hx hseen hall ⟨-, x', hx', hnone⟩
  obtain rfl : x = x' := Option.some.inj (hx.symm.trans hx')
  have hist := history_of_run hopen hdecode (fun _ _ h => h.1) hrun
  have hside := sideAt_delivered hopen hdecode hrun i
  have hpublished := hist.published _ x hx
  have hfaithful := (hall _ x hpublished.shown (Nat.le_refl _) hx).1
  have hle := length_before_le hpublished hside
    (fun k y hshown hk => hall k y hshown (Nat.le_of_lt hk)) hseen
  rcases hpublished.performed with ⟨after, hperform⟩
  rcases hfaithful.exists_apply hperform hside hle with ⟨side', happly⟩
  rw [applySubmission] at happly
  rw [receivedEvent_eq_none_iff, hdecode i, happly] at hnone
  rcases hnone with hraise | ⟨-, hzero, hraise⟩
  · cases hraise
  · -- a view that takes the event at once shows the side string
    rw [(folded_of_run hrun i).synced hzero, happly] at hraise
    cases hraise

/-- One client deletes what the other one is shown, and types in front of what the other one types
next: that event does not raise there. -/
theorem no_range_exception_typing :
    ∃ as, ∃ s : Session Bool Unichar UInt8,
      Run (step fun _ => latin1Device) (fun s a => InOrder s a ∧ TypingOnly s a)
          (start fun _ => viewOf []) as s ∧
        s.order.map (fun y => (y.author, y.edit, y.shown)) =
          [(true, .insert 0 97, 0), (true, .insert 1 98, 0), (true, .delete 1 1, 2),
            (true, .insert 0 99, 3), (false, .insert 1 100, 3)] ∧
        (s.client true).delivered = 4 ∧ ¬ DeliverRaises (fun _ => latin1Device) s true := by
  let as : List (SessionAction Bool Unichar) :=
    [.join true, .join false, .edit true (.insert 0 97), .edit true (.insert 1 98),
      .publish true 0, .publish true 0, .deliver true, .deliver true, .deliver false,
      .deliver false, .edit true (.delete 1 1), .publish true 0, .deliver true, .deliver false,
      .edit true (.insert 0 99), .edit false (.insert 1 100), .publish true 0, .publish false 0,
      .deliver true]
  obtain ⟨s, hs, x₀, x₁, x₂, x₃, x, horder, hlog, hevent₃, hevent, hdelivered⟩ :
      ∃ s, replay (step fun _ => latin1Device)
        (start fun _ => viewOf [] : Session Bool Unichar UInt8) as = some s ∧
          ∃ x₀ x₁ x₂ x₃ x, s.order = [x₀, x₁, x₂, x₃, x] ∧
            s.order.map (fun y => (y.author, y.edit, y.shown)) =
              [(true, .insert 0 97, 0), (true, .insert 1 98, 0), (true, .delete 1 1, 2),
                (true, .insert 0 99, 3), (false, .insert 1 100, 3)] ∧
            x₃.event = insertEvent latin1Device 0 99 ∧ x.event = insertEvent latin1Device 1 100 ∧
            (s.client true).delivered = 4 :=
    ⟨_, rfl, _, _, _, _, _, rfl, rfl, rfl, rfl, rfl⟩
  have hrun : Run (step fun _ => latin1Device) (fun s a => InOrder s a ∧ TypingOnly s a)
      (start fun _ => viewOf []) as s :=
    Run.of_replay_of_forall hs (by simp [as, InOrder, TypingOnly])
  have hentries := hlog
  simp only [horder, List.map_cons, List.map_nil, List.cons.injEq, Prod.mk.injEq, and_true]
    at hentries
  rcases hentries with ⟨⟨-, hedit₀, -⟩, ⟨-, hedit₁, -⟩, -, ⟨-, hedit₃, -⟩, hauthor, hedit, hshown⟩
  have htyped : ∀ {y : Submission Bool Unichar UInt8} {location : Nat} {char : Unichar} {k : Nat},
      y.edit = .insert location char → y.event = insertEvent latin1Device location char →
      latin1Device.stringWithCString (latin1Device.utf8String [char]) ≠ [] →
      Faithful (fun _ => latin1Device) latin1Device.stringWithCString [] s k y ∧
        Readable (fun _ => latin1Device) latin1Device.stringWithCString y := by
    intro y location char k hy hyevent hread
    refine ⟨Faithful.of_insert hy hyevent, ?_⟩
    intro location' char' hinsert
    rw [hy] at hinsert
    cases hinsert
    exact hread
  refine ⟨as, s, hrun, hlog, hdelivered, ?_⟩
  refine (no_range_exception _ latin1Device.stringWithCString (fun _ => rfl) _ [] (fun _ => rfl)
    as s hrun true).1 x (by rw [hdelivered, horder]; rfl) ?_ ?_
  · -- the only deletion was shown
    intro k y location count hy hk hother hdelete
    rw [hdelivered] at hk
    rw [horder] at hy
    rw [hshown]
    obtain rfl | rfl | rfl | rfl : k = 0 ∨ k = 1 ∨ k = 2 ∨ k = 3 := by omega
    · obtain rfl : x₀ = y := Option.some.inj hy
      rw [hedit₀] at hdelete
      cases hdelete
    · obtain rfl : x₁ = y := Option.some.inj hy
      rw [hedit₁] at hdelete
      cases hdelete
    · omega
    · obtain rfl : x₃ = y := Option.some.inj hy
      rw [hedit₃] at hdelete
      cases hdelete
  · intro k y hk hk' hy
    rw [hshown] at hk
    rw [hdelivered] at hk'
    rw [horder] at hy
    obtain rfl | rfl : k = 3 ∨ k = 4 := by omega
    · obtain rfl : x₃ = y := Option.some.inj hy
      exact (htyped hedit₃ hevent₃ (by decide)).imp_right fun h _ => h
    · obtain rfl : x = y := Option.some.inj hy
      exact (htyped hedit hevent (by decide)).imp_right fun h _ => h

/-- Both clients show `ab`; one deletes both characters while the other deletes the `b`. -/
theorem unseen_deletion_raises :
    ¬ ∀ (as : List (SessionAction Bool Unichar)) (s : Session Bool Unichar UInt8),
      Run (step fun _ => latin1Device) (fun s a => InOrder s a ∧ TypingOnly s a)
          (start fun _ => viewOf []) as s →
        ∀ i, ¬ DeliverRaises (fun _ => latin1Device) s i := by
  intro h
  let as : List (SessionAction Bool Unichar) :=
    [.join true, .join false, .edit true (.insert 0 97), .edit true (.insert 1 98),
      .publish true 0, .publish true 0, .deliver true, .deliver true, .deliver false,
      .deliver false, .edit true (.delete 0 2), .edit false (.delete 1 1), .publish true 0,
      .publish false 0, .deliver false]
  obtain ⟨s, hs, hraises⟩ : ∃ s, replay (step fun _ => latin1Device)
      (start fun _ => viewOf [] : Session Bool Unichar UInt8) as = some s ∧
        DeliverRaises (fun _ => latin1Device) s false := ⟨_, rfl, rfl, _, rfl, rfl⟩
  have hrun : Run (step fun _ => latin1Device) (fun s a => InOrder s a ∧ TypingOnly s a)
      (start fun _ => viewOf []) as s :=
    Run.of_replay_of_forall hs (by simp [as, InOrder, TypingOnly])
  exact h as s hrun false hraises

end Session

end WeWrite
