import WeWrite.Session.Frontier
import WeWrite.Session.Typing

/-!
# Where concurrent insertions go

A keystroke is broadcast with its absolute position in the author's text and inserted at that
position of whatever string the order has reached.  Insertions of others that the author had
not been shown may have moved the characters around it.  They move them back only, so what
the author typed in front of a character stays in front of it; what was typed behind a
character can be overtaken by it.

Where a keystroke goes depends on the events since the author was last shown the order.  When
their counts are one, they mean the same everywhere; what came before and what comes after only
has to be typed, and then a string never loses a character.

Main results:

- Theorem `Session.precedes_insert`: on which side of a character a keystroke goes in.
- Theorem `Session.exists_place`: where a character of the author's text is by then.
- Theorem `Session.placement_of_insertions`: the same for every later text view.
- Theorem `Session.insertion_overtaken`: one unseen insertion in front of a character moves it
  behind the keystroke that was typed behind it.
-/

namespace WeWrite

open Transition Splice ViewController

variable {ι α γ : Type}

/-- `a` stands before `b`. -/
def Precedes (l : List α) (a b : α) : Prop :=
  [a, b].Sublist l

theorem Precedes.mono {l l' : List α} {a b : α} (h : Precedes l a b) (hl : l.Sublist l') :
    Precedes l' a b :=
  h.trans hl

namespace Session

/-- Users only type single characters. -/
def InsertsOnly (_ : Session ι α γ) : SessionAction ι α → Prop
  | .edit _ (.insert _ _) => True
  | .edit _ _ => False
  | _ => True

variable {dev : ι → Device α γ} {decode : List γ → NSString α} {text : NSString α}
  {s : Session ι α γ}

/-! ## Typed broadcasts -/

/-- A typed character that was counted as one means the same everywhere. -/
theorem SentAsTyped.asMeant (hdecode : ∀ i, (dev i).stringWithCString = decode) {n : Nat}
    {x : Submission ι α γ} (hx : SentAsTyped dev x) (hcount : x.event.data.numChars = 1) :
    AsMeant dev decode text s n x := by
  rcases hx with ⟨location, char, hedit, htype, hcontent, hlocation, hread⟩
  have hevent : x.event = insertEvent (dev x.author) location char :=
    Event.ext_data htype hlocation hcontent hcount
  have hchar := hread x.author
  rw [hcontent, hdecode] at hchar
  refine ⟨Faithful.of_insert hedit hevent, ?_⟩
  rw [hedit]
  exact hchar

/-- When everybody only types, nothing is lost between two positions. -/
theorem sideAt_sublist (hdecode : ∀ i, (dev i).stringWithCString = decode) (j : ι) {m n : Nat}
    {t t' : NSString α} (htyped : ∀ x ∈ s.order, SentAsTyped dev x) (hmn : m ≤ n)
    (hm : sideAt decode text s m = some t) (hn : sideAt decode text s n = some t') :
    t.Sublist t' := by
  rw [sideAt_of_le hmn hm, replay_applySubmission, ← hdecode j] at hn
  exact replay_keystrokes_sublist
    (fun x hx => htyped x (List.mem_of_mem_take (List.mem_of_mem_drop hx))) hn

/-- When everybody only types, a string holds what it started from and every character typed
since. -/
theorem sideAt_perm (hdecode : ∀ i, (dev i).stringWithCString = decode) (j : ι) {n : Nat}
    {t : NSString α} (htyped : ∀ x ∈ s.order, SentAsTyped dev x)
    (hn : sideAt decode text s n = some t) :
    t.Perm (text ++ (s.order.take n).flatMap fun y => y.edit.typed) := by
  rw [sideAt, replay_applySubmission, ← hdecode j] at hn
  exact replay_keystrokes_perm (fun x hx => htyped x (List.mem_of_mem_take hx)) hn

/-! ## Where a keystroke goes in -/

/-- Inserted at `location`, a character stands before what stood there or further back, and
behind what stood in front. -/
theorem precedes_insert {n r location : Nat} {x : Submission ι α γ} {char other : α}
    {side side' : NSString α} (hmeant : AsMeant dev decode text s n x)
    (hx : s.order[n]? = some x) (hedit : x.edit = .insert location char)
    (hside : sideAt decode text s n = some side)
    (hside' : sideAt decode text s (n + 1) = some side') (hr : side[r]? = some other) :
    if location ≤ r then Precedes side' char other else Precedes side' other char := by
  rw [sideAt_succ hx, hside, Option.bind_some] at hside'
  rcases hmeant.apply_insert hedit hside' with ⟨-, rfl⟩
  split_ifs with hle
  · exact pair_sublist_insertAt_of_le hle hr
  · exact pair_sublist_insertAt_of_lt (by omega) hr

variable [DecidableEq ι]

/-- A character of the author's text stands at the same place of the string or further back,
and at the same place when no unshown edit of another client went in front of it. -/
theorem exists_place {n q : Nat} {x : Submission ι α γ} {other : α} {side : NSString α}
    (hpublished : Published decode text s n x) (hside : sideAt decode text s n = some side)
    (hmeant : ∀ k y, x.shown ≤ k → k < n → s.order[k]? = some y → AsMeant dev decode text s k y)
    (hinsert : ∀ y ∈ s.order, ∃ location char, y.edit = .insert location char)
    (hq : x.before[q]? = some other) :
    ∃ r, q ≤ r ∧ side[r]? = some other ∧ (Within (s.unshownFrontier n x) (q + 1) → r = q) := by
  by_cases hwithin : Within (s.unshownFrontier n x) (q + 1)
  · have hagree := agree_before hpublished hside hmeant
    refine ⟨q, Nat.le_refl q, ?_, fun _ => rfl⟩
    cases hfrontier : s.unshownFrontier n x with
    | none =>
        rw [hfrontier] at hagree
        obtain rfl : x.before = side := hagree
        exact hq
    | some b =>
        rw [hfrontier] at hagree hwithin
        have htake : x.before.take b = side.take b := hagree
        have hlt : q < b := hwithin b rfl
        rw [← List.getElem?_take_of_lt hlt, ← htake, List.getElem?_take_of_lt hlt, hq]
  · rcases lag_before hpublished hside hmeant hinsert q other hq with ⟨r, hqr, hr⟩
    exact ⟨r, hqr, hr, fun h => (hwithin h).elim⟩

/-! ## Every later text view -/

/-- When everybody only types characters that the devices read as typed, let `char` be typed at
`location` of a text that holds `other` at `q`, and let every event be counted as one from those
that the author had been shown up to that keystroke.  In the text of client `j`, once it has been
handed the keystroke and shows the side string, every character stands once, and
a keystroke typed in front of `other` stands before it;
a keystroke typed behind `other` stands behind it, when every unshown insertion of another
client went in behind `other`;
and in general the place of `other` in the string that the keystroke is applied to decides. -/
theorem placement_of_insertions (dev : ι → Device α γ) (decode : List γ → NSString α)
    (hdecode : ∀ i, (dev i).stringWithCString = decode) (view : ι → UITextView α)
    (text : NSString α) (hopen : ∀ i, (view i).text = text) (as : List (SessionAction ι α))
    (s : Session ι α γ)
    (hrun : Run (step dev) (fun s a => InOrder s a ∧ TypesReadable dev s a) (start view) as s)
    (hidentity : (text ++ s.order.flatMap fun y => y.edit.typed).Nodup)
    (j : ι) (hzero : (s.client j).vc.brCounter = 0)
    (n : Nat) (x : Submission ι α γ) (hx : s.order[n]? = some x)
    (hn : n < (s.client j).delivered)
    (hcount : ∀ k y, x.shown ≤ k → k ≤ n → s.order[k]? = some y → y.event.data.numChars = 1)
    (location : Nat) (char : α) (hedit : x.edit = .insert location char) (q : Nat) (other : α)
    (hq : x.before[q]? = some other) :
    (s.client j).vc.myTextView.text.Nodup ∧
      (location ≤ q → Precedes (s.client j).vc.myTextView.text char other) ∧
      (q < location → Within (s.unshownFrontier n x) (q + 1) →
        Precedes (s.client j).vc.myTextView.text other char) ∧
      ∃ side r, sideAt decode text s n = some side ∧ side[r]? = some other ∧
        if location ≤ r then Precedes (s.client j).vc.myTextView.text char other
        else Precedes (s.client j).vc.myTextView.text other char := by
  have hist := history_of_run hopen hdecode (fun _ _ h => h.1) hrun
  have htyped : ∀ y ∈ s.order, SentAsTyped dev y :=
    (typingInv_of_run (fun _ _ h => h.2) hrun).published
  have hinsert : ∀ y ∈ s.order, ∃ location char, y.edit = .insert location char := by
    intro y hy
    rcases htyped y hy with ⟨location, char, hinsert, -⟩
    exact ⟨location, char, hinsert⟩
  have hmeant : ∀ k y, x.shown ≤ k → k ≤ n → s.order[k]? = some y →
      AsMeant dev decode text s k y := fun k y hshown hk hy =>
    (htyped y (List.mem_of_getElem? hy)).asMeant hdecode (hcount k y hshown hk hy)
  have htext : sideAt decode text s (s.client j).delivered =
      some (s.client j).vc.myTextView.text := by
    rw [(folded_of_run hrun j).synced hzero]
    exact sideAt_delivered hopen hdecode hrun j
  -- the strings just before and just after the keystroke exist, because client `j` is past it
  obtain ⟨side', hside'⟩ : ∃ side', sideAt decode text s (n + 1) = some side' :=
    exists_sideAt_of_le hn htext
  obtain ⟨side, hside⟩ : ∃ side, sideAt decode text s n = some side :=
    exists_sideAt_of_le (Nat.le_of_lt hn) htext
  have hpublished := hist.published n x hx
  have hgrow := sideAt_sublist hdecode j htyped hn hside' htext
  rcases exists_place hpublished hside (fun k y hshown hk => hmeant k y hshown (Nat.le_of_lt hk))
    hinsert hq with ⟨r, hqr, hr, hsame⟩
  have hplace := precedes_insert (hmeant n x hpublished.shown (Nat.le_refl n) hx) hx hedit hside
    hside' hr
  have hfinal : if location ≤ r then Precedes (s.client j).vc.myTextView.text char other
      else Precedes (s.client j).vc.myTextView.text other char := by
    split_ifs at hplace ⊢ with hle
    · exact hplace.mono hgrow
    · exact hplace.mono hgrow
  refine ⟨?_, ?_, ?_, side, r, hside, hr, hfinal⟩
  · have hperm := sideAt_perm hdecode j htyped htext
    rw [← List.take_append_drop (s.client j).delivered s.order, List.flatMap_append,
      ← List.append_assoc] at hidentity
    exact hperm.nodup_iff.mpr (hidentity.sublist (List.sublist_append_left _ _))
  · intro hle
    rwa [if_pos (by omega)] at hfinal
  · intro hlt hwithin
    rwa [if_neg (by have := hsame hwithin; omega)] at hfinal

/-- Both clients show `x`; one types `y` behind it while the other types `c` behind it, and `y` is
published first: `c` still stands behind `x`. -/
theorem placement_of_insertions_behind :
    ∃ as, ∃ s : Session Bool Unichar UInt8,
      Run (step fun _ => latin1Device)
          (fun s a => InOrder s a ∧ TypesReadable (fun _ => latin1Device) s a)
          (start fun _ => viewOf []) as s ∧
        s.order.map (fun y => (y.author, y.edit, y.shown)) =
          [(true, .insert 0 120, 0), (false, .insert 1 121, 1), (true, .insert 1 99, 1)] ∧
        Precedes (s.client true).vc.myTextView.text 120 99 := by
  let as : List (SessionAction Bool Unichar) :=
    [.join true, .join false, .edit true (.insert 0 120), .publish true 0, .deliver true,
      .deliver false, .edit true (.insert 1 99), .edit false (.insert 1 121), .publish false 0,
      .publish true 0, .deliver true, .deliver true]
  obtain ⟨s, hs, x₀, y, x, horder, hlog, hy, hx, hbefore, hfrontier, hdelivered, hzero,
      hidentity⟩ :
      ∃ s, replay (step fun _ => latin1Device)
        (start fun _ => viewOf [] : Session Bool Unichar UInt8) as = some s ∧
          ∃ x₀ y x, s.order = [x₀, y, x] ∧
            s.order.map (fun y => (y.author, y.edit, y.shown)) =
              [(true, .insert 0 120, 0), (false, .insert 1 121, 1), (true, .insert 1 99, 1)] ∧
            y.event = insertEvent latin1Device 1 121 ∧ x.event = insertEvent latin1Device 1 99 ∧
            x.before = [120] ∧ s.unshownFrontier 2 x = some 1 ∧ (s.client true).delivered = 3 ∧
            (s.client true).vc.brCounter = 0 ∧
            (s.order.flatMap fun z => z.edit.typed) = [120, 121, 99] :=
    ⟨_, rfl, _, _, _, rfl, rfl, rfl, rfl, rfl, rfl, rfl, rfl, rfl⟩
  have hrun : Run (step fun _ => latin1Device)
      (fun s a => InOrder s a ∧ TypesReadable (fun _ => latin1Device) s a)
      (start fun _ => viewOf []) as s := by
    have hascii : Run (step fun _ => latin1Device) (fun s a => InOrder s a ∧ TypesAscii s a)
        (start fun _ => viewOf []) as s :=
      Run.of_replay_of_forall hs (by simp [as, InOrder, TypesAscii, AsciiChar])
    exact hascii.mono fun s a ha =>
      ⟨ha.1, ha.2.typesReadable fun _ => latin1Device_extendsAscii⟩
  have hentries := hlog
  simp only [horder, List.map_cons, List.map_nil, List.cons.injEq, Prod.mk.injEq, and_true]
    at hentries
  rcases hentries with ⟨-, -, -, hedit, hshown⟩
  refine ⟨as, s, hrun, hlog, ?_⟩
  refine (placement_of_insertions _ latin1Device.stringWithCString (fun _ => rfl) _ []
    (fun _ => rfl) as s hrun (by rw [hidentity]; decide) true hzero 2 x (by rw [horder]; rfl)
    (by omega) ?_ 1 99 hedit 0 120 (by rw [hbefore]; rfl)).2.2.1 (by omega) ?_
  · intro k z hk hk' hz
    rw [hshown] at hk
    rw [horder] at hz
    obtain rfl | rfl : k = 1 ∨ k = 2 := by omega
    · obtain rfl : y = z := Option.some.inj hz
      rw [hy]
      rfl
    · obtain rfl : x = z := Option.some.inj hz
      rw [hx]
      rfl
  · rw [hfrontier]
    simp [Within]

/-- Both clients show `x`; one types `y` in front of it while the other types `c` behind it:
then `c` stands before `x`. -/
theorem insertion_overtaken :
    ¬ ∀ (as : List (SessionAction Bool Unichar)) (s : Session Bool Unichar UInt8),
      Run (step fun _ => latin1Device) (fun s a => InOrder s a ∧ InsertsOnly s a)
          (start fun _ => viewOf []) as s →
        (s.order.flatMap fun y => y.edit.typed).Nodup →
        ∀ j, (s.client j).vc.brCounter = 0 →
        ∀ n x, s.order[n]? = some x → n < (s.client j).delivered →
        ∀ location char, x.edit = .insert location char →
        ∀ (q : Nat) other, x.before[q]? = some other →
          (location ≤ q → Precedes (s.client j).vc.myTextView.text char other) ∧
            (q < location → Precedes (s.client j).vc.myTextView.text other char) := by
  intro h
  let as : List (SessionAction Bool Unichar) :=
    [.join true, .join false, .edit true (.insert 0 120), .publish true 0, .deliver true,
      .deliver false, .edit true (.insert 1 99), .edit false (.insert 0 121), .publish false 0,
      .publish true 0, .deliver true, .deliver true]
  obtain ⟨s, hs, x, hx, hdelivered, hedit, hbefore, hzero, hidentity, htext⟩ :
      ∃ s, replay (step fun _ => latin1Device)
        (start fun _ => viewOf [] : Session Bool Unichar UInt8) as = some s ∧
          ∃ x, s.order[2]? = some x ∧ (s.client true).delivered = 3 ∧ x.edit = .insert 1 99 ∧
            x.before = [120] ∧ (s.client true).vc.brCounter = 0 ∧
            (s.order.flatMap fun y => y.edit.typed) = [120, 121, 99] ∧
            (s.client true).vc.myTextView.text = [121, 99, 120] :=
    ⟨_, rfl, _, rfl, rfl, rfl, rfl, rfl, rfl, rfl⟩
  have hrun : Run (step fun _ => latin1Device) (fun s a => InOrder s a ∧ InsertsOnly s a)
      (start fun _ => viewOf []) as s :=
    Run.of_replay_of_forall hs (by simp [as, InOrder, InsertsOnly])
  have hclaim := (h as s hrun (by rw [hidentity]; decide) true hzero 2 x hx (by omega) 1 99 hedit
    0 120 (by rw [hbefore]; rfl)).2 (by omega)
  rw [htext] at hclaim
  revert hclaim
  unfold Precedes
  decide

end Session

end WeWrite
