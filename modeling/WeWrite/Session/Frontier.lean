import WeWrite.Library.Divergence
import WeWrite.Session.History

/-!
# How far an author and the order agree

The text that an author had before an edit and the string that the edit's event is applied to
are two copies under one log: both start from the string the author was last shown, the
author's text takes its own edits and the string takes everything the service has published
since.  The general results about such copies apply once every event does to the string what
its edit did to the author's text.

Main results:

- Theorem `Session.agree_before`: both agree up to the frontier of the events in between.
- Theorem `Session.lag_before`: when everybody only types, a character of the author's text
  stands in the string at the same place or further back.
-/

namespace WeWrite

open Transition Splice ViewController

variable {ι α γ : Type}

/-- An edit as an edit of a list by position. -/
def Edit.op? : Edit α → Option (Op α)
  | .insert location char => some (.insert location [char])
  | .delete location count => some (.remove location count)
  | .replace _ => none

theorem Edit.apply_op {edit : Edit α} {o : Op α} (hop : edit.op? = some o) {t t' : NSString α}
    (hperform : performText t edit = some t') : o.apply t = some t' := by
  cases edit with
  | insert location char =>
      obtain rfl := Option.some.inj hop
      exact Op.apply_insert.mpr (performText_insert.mp hperform)
  | delete location count =>
      obtain rfl := Option.some.inj hop
      exact Op.apply_remove.mpr (performText_delete.mp hperform).2
  | replace view => cases hop

namespace Session

variable {dev : ι → Device α γ} {decode : List γ → NSString α} {text : NSString α}
  {s : Session ι α γ}

/-- The broadcast at position `n` means the same everywhere: it is faithful, and a typed
character is read as typed. -/
structure AsMeant (dev : ι → Device α γ) (decode : List γ → NSString α) (text : NSString α)
    (s : Session ι α γ) (n : Nat) (x : Submission ι α γ) : Prop
    extends Faithful dev decode text s n x where
  read : ReadAsTyped decode (dev x.author) x.edit

/-- A keystroke that means the same everywhere inserts its character. -/
theorem AsMeant.apply_insert {n : Nat} {x : Submission ι α γ}
    (hx : AsMeant dev decode text s n x) {location : Nat} {char : α}
    (hedit : x.edit = .insert location char) {side side' : NSString α}
    (happly : applySubmission decode side x = some side') :
    location ≤ side.length ∧ side' = insertAt location [char] side := by
  have hread := hx.read
  rw [hedit] at hread
  have hchar : decode ((dev x.author).utf8String [char]) = [char] := hread
  rw [hx.toFaithful.apply_insert hedit, hchar] at happly
  exact happly

/-- An event that means the same everywhere does to the string what its edit does. -/
theorem AsMeant.apply_op {n : Nat} {x : Submission ι α γ} (hx : AsMeant dev decode text s n x)
    {o : Op α} (hop : x.edit.op? = some o) {side side' : NSString α}
    (hside : sideAt decode text s n = some side)
    (happly : applySubmission decode side x = some side') : o.apply side = some side' := by
  cases hedit : x.edit with
  | insert location char =>
      rw [hedit] at hop
      obtain rfl := Option.some.inj hop
      exact Op.apply_insert.mpr (hx.apply_insert hedit happly)
  | delete location count =>
      rw [hedit] at hop
      obtain rfl := Option.some.inj hop
      exact Op.apply_remove.mpr ((hx.toFaithful.apply_delete hedit hside).mp happly)
  | replace view => exact (hx.edit_ne_replace view hedit).elim

variable [DecidableEq ι]

/-- The events ordered before position `n` that the author of `x` had not been shown, its own
among them. -/
def unshown (s : Session ι α γ) (n : Nat) (x : Submission ι α γ) : List (Submission ι α γ) :=
  (s.order.take n).drop x.shown

/-- The frontier between the author's text before `x` and the string at position `n`: the
lowest place of an unshown edit of another client, moved along by the author's own edits. -/
def unshownFrontier (s : Session ι α γ) (n : Nat) (x : Submission ι α γ) : Option Nat :=
  frontier (ownedBy x.author) (fun y => y.edit.op?) (s.unshown n x)

/-- The author's text and the string agree up to the frontier, when the events in between mean the
same everywhere. -/
theorem agree_before {n : Nat} {x : Submission ι α γ} {side : NSString α}
    (hpublished : Published decode text s n x) (hside : sideAt decode text s n = some side)
    (hmeant : ∀ k y, x.shown ≤ k → k < n → s.order[k]? = some y → AsMeant dev decode text s k y) :
    AgreeUpTo (s.unshownFrontier n x) x.before side := by
  rcases hpublished with ⟨hshown, -, base, hbase, hchain⟩
  rw [sideAt_of_le hshown hbase] at hside
  refine agreeUpTo_frontier ?_ ?_ hchain hside
  · intro y _ t t' o hop hmade
    exact Edit.apply_op hop hmade.2
  · intro done y rest t t' o hlog hdone hop hstep
    rcases sideAt_segment hbase hlog hdone with ⟨hy, hlt, ht⟩
    exact (hmeant _ y (Nat.le_add_right _ _) hlt hy).apply_op hop ht hstep

/-- When everybody only types, a character of the author's text stands in the string at the
same place or further back. -/
theorem lag_before {n : Nat} {x : Submission ι α γ} {side : NSString α}
    (hpublished : Published decode text s n x) (hside : sideAt decode text s n = some side)
    (hmeant : ∀ k y, x.shown ≤ k → k < n → s.order[k]? = some y → AsMeant dev decode text s k y)
    (hinsert : ∀ y ∈ s.order, ∃ location char, y.edit = .insert location char) :
    Lag x.before side := by
  rcases hpublished with ⟨hshown, -, base, hbase, hchain⟩
  have hop : ∀ y ∈ (s.order.take n).drop x.shown, ∃ i xs, y.edit.op? = some (.insert i xs) := by
    intro y hy
    rcases hinsert y (List.mem_of_mem_take (List.mem_of_mem_drop hy)) with ⟨location, char, hedit⟩
    exact ⟨location, [char], by rw [hedit]; rfl⟩
  rw [sideAt_of_le hshown hbase] at hside
  refine lag_of_inserts hop ?_ ?_ hchain hside
  · intro y _ t t' o hyop hmade
    exact Edit.apply_op hyop hmade.2
  · intro done y rest t t' o hlog hdone hyop hstep
    rcases sideAt_segment hbase hlog hdone with ⟨hy, hlt, ht⟩
    exact (hmeant _ y (Nat.le_add_right _ _) hlt hy).apply_op hyop ht hstep

end Session

end WeWrite
