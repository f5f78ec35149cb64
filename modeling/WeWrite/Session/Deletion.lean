import WeWrite.Session.Frontier
import WeWrite.Editor.Encoding

/-!
# What concurrent deletions remove

A deletion is broadcast as a position and a count in its author's text, and cuts that range
out of whatever string the order has reached.  It cuts what its author deleted as long as no
edit of another client, which the author had not been shown, was made in front of the end of
the range.  Where that is depends on the events since the author was last shown the order.

Main results:

- Theorem `Session.Grows.of_run`: the order is only extended and positions only go forward.
- Theorem `Session.mem_removed_of_gone`: what one deletion takes away its author deleted.
- Theorem `Session.deletions_remove_what_was_deleted`: the same over whole runs.
- Theorem `Session.same_character_deleted_twice`: two users deleting the same character remove
  another one with it.
-/

namespace WeWrite

open Transition Splice ViewController

variable {ι α γ : Type} [DecidableEq ι]

namespace Session

variable {dev : ι → Device α γ} {decode : List γ → NSString α} {text : NSString α}
  {s s' : Session ι α γ}

/-! ## Later states -/

/-- The order is an extension, and no client is at an earlier position. -/
structure Grows (s s' : Session ι α γ) : Prop where
  order : s.order <+: s'.order
  delivered : ∀ i, (s.client i).delivered ≤ (s'.client i).delivered

theorem Grows.step {a : SessionAction ι α} (hstep : s.step dev a = some s') : Grows s s' := by
  have hsame : ∀ {i : ι} {c : Client ι α γ}, (s.client i).delivered ≤ c.delivered →
      ∀ j, (s.client j).delivered ≤ ((s.setClient i c).client j).delivered := fun hc =>
    forall_setClient (P := fun j c => (s.client j).delivered ≤ c.delivered)
      (fun _ => Nat.le_refl _) hc
  cases a with
  | join i =>
      obtain rfl := step_join hstep
      exact ⟨List.prefix_refl _, hsame (Nat.le_refl _)⟩
  | edit i edit =>
      rcases step_edit hstep with ⟨vc, event, -, rfl⟩
      exact ⟨List.prefix_refl _, hsame (Nat.le_refl _)⟩
  | select i range =>
      obtain rfl := step_select hstep
      exact ⟨List.prefix_refl _, hsame (Nat.le_refl _)⟩
  | publish i index =>
      rcases step_publish hstep with ⟨x, -, rfl⟩
      exact ⟨List.prefix_append _ _, hsame (Nat.le_refl _)⟩
  | deliver i =>
      rcases step_deliver hstep with ⟨x, vc, -, -, rfl⟩
      exact ⟨List.prefix_refl _, hsame (Nat.le_succ _)⟩

theorem Grows.of_run {ok : Session ι α γ → SessionAction ι α → Prop}
    {as : List (SessionAction ι α)} (hrun : Run (Session.step dev) ok s as s') : Grows s s' := by
  refine hrun.invariant (Grows s) ⟨List.prefix_refl _, fun _ => Nat.le_refl _⟩ ?_
  rintro s₁ a s₂ ⟨horder, hdelivered⟩ - hstep
  rcases Grows.step hstep with ⟨horder', hdelivered'⟩
  exact ⟨horder.trans horder', fun i => Nat.le_trans (hdelivered i) (hdelivered' i)⟩

omit [DecidableEq ι] in
/-- A string at a position that the earlier state had reached is the same in both. -/
theorem Grows.sideAt_eq (h : Grows s s') {n : Nat} (hn : n ≤ s.order.length) :
    sideAt decode text s' n = sideAt decode text s n := by
  rcases h.order with ⟨rest, hrest⟩
  apply sideAt_congr
  rw [← hrest, List.take_append_of_le_length hn]

/-! ## One deletion -/

/-- The deletion at position `n` has nothing to be moved by: it is faithful, the events that its
author had not been shown mean the same everywhere, and its range ends in front of every one of
them that another client made. -/
structure Unshifted (dev : ι → Device α γ) (decode : List γ → NSString α) (text : NSString α)
    (s : Session ι α γ) (n : Nat) (y : Submission ι α γ) (location count : Nat) : Prop
    extends Faithful dev decode text s n y where
  meant : ∀ k z, y.shown ≤ k → k < n → s.order[k]? = some z → AsMeant dev decode text s k z
  within : Within (s.unshownFrontier n y) (location + count)

/-- A character that such a deletion takes out of the string was in the range its author deleted. -/
theorem mem_removed_of_gone {n location count : Nat} {y : Submission ι α γ} {x : α}
    {side side' : NSString α} (hpublished : Published decode text s n y)
    (hy : Unshifted dev decode text s n y location count) (hedit : y.edit = .delete location count)
    (hside : sideAt decode text s n = some side)
    (hstep : applySubmission decode side y = some side') (hx : x ∈ side) (hgone : x ∉ side') :
    x ∈ (y.before.drop location).take count := by
  rcases (hy.toFaithful.apply_delete hedit hside).mp hstep with ⟨-, rfl⟩
  have hrange : x ∈ (side.drop location).take count := mem_range_of_not_mem_removeAt hx hgone
  have hagree := agree_before hpublished hside hy.meant
  have hwithin := hy.within
  cases hfrontier : s.unshownFrontier n y with
  | none =>
      rw [hfrontier] at hagree
      obtain rfl : y.before = side := hagree
      exact hrange
  | some b =>
      rw [hfrontier] at hagree hwithin
      rw [range_eq_of_take_eq hagree (hwithin b rfl)]
      exact hrange

omit [DecidableEq ι] in
/-- An event that inserts takes nothing out of the string. -/
theorem mem_of_insert {y : Submission ι α γ} {x : α} {side side' : NSString α}
    (htype : y.event.eventType = .insert) (hstep : applySubmission decode side y = some side')
    (hx : x ∈ side) : x ∈ side' := by
  rw [applySubmission, applyEvent, if_pos htype] at hstep
  rcases insertString_eq_some_iff.mp hstep with ⟨-, -, rfl⟩
  exact (sublist_insertAt _ _ _).subset hx

/-! ## Whole runs -/

/-- Of the events handed to client `i` between two states, let every typed character be broadcast
as an `Insert`, and every deletion have nothing to be moved by: a character that was in the side
string and is later missing was deleted from some user's text by one of these deletions. -/
theorem deletions_remove_what_was_deleted (dev : ι → Device α γ) (decode : List γ → NSString α)
    (hdecode : ∀ i, (dev i).stringWithCString = decode) (view : ι → UITextView α)
    (text : NSString α) (hopen : ∀ i, (view i).text = text)
    (as bs : List (SessionAction ι α)) (s s' : Session ι α γ)
    (hrun : Run (step dev) (fun s a => InOrder s a ∧ TypingOnly s a) (start view) as s)
    (hlater : Run (step dev) (fun s a => InOrder s a ∧ TypingOnly s a) s bs s') (i : ι)
    (hinserts : ∀ k y location char, (s.client i).delivered ≤ k → k < (s'.client i).delivered →
      s'.order[k]? = some y → y.edit = .insert location char → y.event.eventType = .insert)
    (hdeletes : ∀ k y location count, (s.client i).delivered ≤ k →
      k < (s'.client i).delivered → s'.order[k]? = some y → y.edit = .delete location count →
      Unshifted dev decode text s' k y location count)
    (x : α) (hx : x ∈ (s.client i).vc.sideString) (hgone : x ∉ (s'.client i).vc.sideString) :
    ∃ k y location count, (s.client i).delivered ≤ k ∧ k < (s'.client i).delivered ∧
      s'.order[k]? = some y ∧ y.edit = .delete location count ∧
      x ∈ (y.before.drop location).take count := by
  have hrun' := hrun.append hlater
  have hist := history_of_run hopen hdecode (fun _ _ h => h.1) hrun'
  have htyping : ∀ y ∈ s'.order, y.edit.IsTyping := by
    refine (edit_of_run (P := Edit.IsTyping) ?_ hrun').1
    rintro s i edit ⟨-, hok⟩
    cases edit with
    | replace view => exact hok
    | _ => trivial
  have hgrows := Grows.of_run hlater
  have hbefore : sideAt decode text s' (s.client i).delivered =
      some (s.client i).vc.sideString := by
    rw [hgrows.sideAt_eq ((inv_of_run hrun).delivered i)]
    exact sideAt_delivered hopen hdecode hrun i
  have hafter := sideAt_delivered hopen hdecode hrun' i
  by_contra hnone
  rw [sideAt_of_le (hgrows.delivered i) hbefore] at hafter
  -- no event in between takes the character away
  refine hgone (replay_invariant (fun _ u => x ∈ u) hx ?_ hafter)
  intro done y rest u u' hlog hdone hmem hstep
  rcases sideAt_segment hbefore hlog hdone with ⟨hy, hlt, hu⟩
  by_contra hmissing
  cases hedit : y.edit with
  | insert location char =>
      have htype := hinserts _ y location char (Nat.le_add_right _ _) hlt hy hedit
      exact hmissing (mem_of_insert htype hstep hmem)
  | delete location count =>
      have hunshifted := hdeletes _ y location count (Nat.le_add_right _ _) hlt hy hedit
      refine hnone ⟨_, y, location, count, Nat.le_add_right _ _, hlt, hy, hedit, ?_⟩
      exact mem_removed_of_gone (hist.published _ y hy) hunshifted hedit hu hstep hmem hmissing
  | replace view =>
      have htyped := htyping y (List.mem_of_getElem? hy)
      rw [hedit] at htyped
      exact htyped

/-- Both clients show `abc`; one types behind it while the other deletes the `a`, and what was
typed is published first: the `a` that disappears is the one that was deleted. -/
theorem deletions_remove_what_was_deleted_behind :
    ∃ as bs, ∃ s s' : Session Bool Unichar UInt8,
      Run (step fun _ => latin1Device) (fun s a => InOrder s a ∧ TypingOnly s a)
          (start fun _ => viewOf []) as s ∧
        Run (step fun _ => latin1Device) (fun s a => InOrder s a ∧ TypingOnly s a) s bs s' ∧
        (s.client true).vc.sideString = [97, 98, 99] ∧
        (s'.client true).vc.sideString = [98, 99, 100] ∧
        s'.order.map (fun y => (y.author, y.edit, y.shown)) =
          [(true, .insert 0 97, 0), (true, .insert 1 98, 0), (true, .insert 2 99, 0),
            (true, .insert 3 100, 3), (false, .delete 0 1, 3)] ∧
        ∃ k y location count, (s.client true).delivered ≤ k ∧ k < (s'.client true).delivered ∧
          s'.order[k]? = some y ∧ y.edit = .delete location count ∧
          97 ∈ (y.before.drop location).take count := by
  let as : List (SessionAction Bool Unichar) :=
    [.join true, .join false, .edit true (.insert 0 97), .edit true (.insert 1 98),
      .edit true (.insert 2 99), .publish true 0, .publish true 0, .publish true 0,
      .deliver true, .deliver true, .deliver true, .deliver false, .deliver false, .deliver false]
  let bs : List (SessionAction Bool Unichar) :=
    [.edit true (.insert 3 100), .edit false (.delete 0 1), .publish true 0, .publish false 0,
      .deliver true, .deliver true]
  obtain ⟨s, hs, s', hs', x₀, x₁, x₂, z, y, horder, hlog, hzevent, hyevent, hfrontier, hfirst,
      hlast, htext, htext'⟩ :
      ∃ s, replay (step fun _ => latin1Device)
        (start fun _ => viewOf [] : Session Bool Unichar UInt8) as = some s ∧
          ∃ s', replay (step fun _ => latin1Device) s bs = some s' ∧
            ∃ x₀ x₁ x₂ z y, s'.order = [x₀, x₁, x₂, z, y] ∧
              s'.order.map (fun y => (y.author, y.edit, y.shown)) =
                [(true, .insert 0 97, 0), (true, .insert 1 98, 0), (true, .insert 2 99, 0),
                  (true, .insert 3 100, 3), (false, .delete 0 1, 3)] ∧
              z.event = insertEvent latin1Device 3 100 ∧ y.event = deleteEvent 0 1 ∧
              s'.unshownFrontier 4 y = some 3 ∧ (s.client true).delivered = 3 ∧
              (s'.client true).delivered = 5 ∧ (s.client true).vc.sideString = [97, 98, 99] ∧
              (s'.client true).vc.sideString = [98, 99, 100] :=
    ⟨_, rfl, _, rfl, _, _, _, _, _, rfl, rfl, rfl, rfl, rfl, rfl, rfl, rfl, rfl⟩
  have hrun : Run (step fun _ => latin1Device) (fun s a => InOrder s a ∧ TypingOnly s a)
      (start fun _ => viewOf []) as s :=
    Run.of_replay_of_forall hs (by simp [as, InOrder, TypingOnly])
  have hlater : Run (step fun _ => latin1Device) (fun s a => InOrder s a ∧ TypingOnly s a)
      s bs s' := Run.of_replay_of_forall hs' (by simp [bs, InOrder, TypingOnly])
  have hentries := hlog
  simp only [horder, List.map_cons, List.map_nil, List.cons.injEq, Prod.mk.injEq, and_true]
    at hentries
  rcases hentries with ⟨-, -, -, ⟨-, hzedit, -⟩, -, hyedit, hyshown⟩
  -- what the author of the deletion had not been shown
  have hmeant : AsMeant (fun _ => latin1Device) latin1Device.stringWithCString [] s' 3 z :=
    ⟨Faithful.of_insert hzedit hzevent, by rw [hzedit]; rfl⟩
  refine ⟨as, bs, s, s', hrun, hlater, htext, htext', hlog, ?_⟩
  refine deletions_remove_what_was_deleted _ latin1Device.stringWithCString (fun _ => rfl) _ []
    (fun _ => rfl) as bs s s' hrun hlater true ?_ ?_ 97 (by rw [htext]; decide)
    (by rw [htext']; decide)
  · intro k w location char hk hk' hw hinsert
    rw [hfirst] at hk
    rw [hlast] at hk'
    rw [horder] at hw
    obtain rfl | rfl : k = 3 ∨ k = 4 := by omega
    · obtain rfl : z = w := Option.some.inj hw
      rw [hzevent]
      rfl
    · obtain rfl : y = w := Option.some.inj hw
      rw [hyedit] at hinsert
      cases hinsert
  · intro k w location count hk hk' hw hdelete
    rw [hfirst] at hk
    rw [hlast] at hk'
    rw [horder] at hw
    obtain rfl | rfl : k = 3 ∨ k = 4 := by omega
    · obtain rfl : z = w := Option.some.inj hw
      rw [hzedit] at hdelete
      cases hdelete
    · obtain rfl : y = w := Option.some.inj hw
      rw [hyedit] at hdelete
      cases hdelete
      refine ⟨⟨by rw [hyedit]; exact hyevent, fun _ _ => ?_⟩, ?_, ?_⟩
      · rw [hyedit]
        exact fun h => h.1 rfl
      · intro l v hl hl' hv
        rw [hyshown] at hl
        rw [horder] at hv
        obtain rfl : l = 3 := by omega
        obtain rfl : z = v := Option.some.inj hv
        exact hmeant
      · rw [hfrontier]
        simp [Within]

/-- Both clients show `ab` and both delete the `a`: the `b` is gone too. -/
theorem same_character_deleted_twice :
    ¬ ∀ (as bs : List (SessionAction Bool Unichar)) (s s' : Session Bool Unichar UInt8),
      Run (step fun _ => latin1Device) (fun s a => InOrder s a ∧ TypingOnly s a)
          (start fun _ => viewOf []) as s →
        Run (step fun _ => latin1Device) (fun s a => InOrder s a ∧ TypingOnly s a) s bs s' →
        ∀ i x, x ∈ (s.client i).vc.sideString → x ∉ (s'.client i).vc.sideString →
          ∃ (k : Nat) (y : Submission Bool Unichar UInt8) (location count : Nat),
            k < (s'.client i).delivered ∧ s'.order[k]? = some y ∧
              y.edit = .delete location count ∧ x ∈ (y.before.drop location).take count := by
  intro h
  let as : List (SessionAction Bool Unichar) :=
    [.join true, .join false, .edit true (.insert 0 97), .edit true (.insert 1 98),
      .publish true 0, .publish true 0, .deliver true, .deliver true, .deliver false,
      .deliver false]
  let bs : List (SessionAction Bool Unichar) :=
    [.edit true (.delete 0 1), .edit false (.delete 0 1), .publish true 0, .publish false 0,
      .deliver true, .deliver true]
  obtain ⟨s, hs, s', hs', horder, htext, htext'⟩ :
      ∃ s, replay (step fun _ => latin1Device)
        (start fun _ => viewOf [] : Session Bool Unichar UInt8) as = some s ∧
          ∃ s', replay (step fun _ => latin1Device) s bs = some s' ∧
            s'.order.map (fun y => (y.edit, y.before)) =
              [(.insert 0 97, []), (.insert 1 98, [97]), (.delete 0 1, [97, 98]),
                (.delete 0 1, [97, 98])] ∧
            (s.client true).vc.sideString = [97, 98] ∧ (s'.client true).vc.sideString = [] :=
    ⟨_, rfl, _, rfl, rfl, rfl, rfl⟩
  have hrun : Run (step fun _ => latin1Device) (fun s a => InOrder s a ∧ TypingOnly s a)
      (start fun _ => viewOf []) as s :=
    Run.of_replay_of_forall hs (by simp [as, InOrder, TypingOnly])
  have hlater : Run (step fun _ => latin1Device) (fun s a => InOrder s a ∧ TypingOnly s a)
      s bs s' := Run.of_replay_of_forall hs' (by simp [bs, InOrder, TypingOnly])
  rcases h as bs s s' hrun hlater true 98 (by rw [htext]; decide) (by rw [htext']; decide) with
      ⟨k, y, location, count, -, hy, hedit, hmem⟩
  have hpair : (y.edit, y.before) ∈ s'.order.map (fun y => (y.edit, y.before)) :=
    List.mem_map_of_mem (List.mem_of_getElem? hy)
  rw [horder, hedit] at hpair
  simp only [List.mem_cons, Prod.mk.injEq, reduceCtorEq, false_and, Edit.delete.injEq,
    List.not_mem_nil, or_false, false_or, or_self] at hpair
  rcases hpair with ⟨⟨rfl, rfl⟩, hbefore⟩
  rw [hbefore] at hmem
  revert hmem
  decide

end Session

end WeWrite
