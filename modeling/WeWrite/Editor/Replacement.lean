import WeWrite.Editor.Handlers
import WeWrite.Editor.Encoding

/-!
# Replacements and their broadcasts

Everything a user does to the text replaces a range of it by a string: typing, backspace,
paste, typing over a selection.  What is broadcast is a length difference, the caret, and at
most one unit.  This module says for which replacements that is enough to repeat them.

Main results:

- Theorem `insertion_repeats_iff` and `deletion_repeats_iff`: when an insertion of one unit,
  and a deletion, have the effect of a replacement.
- Theorem `ViewController.broadcast_repeats_iff`: the broadcast of a replacement has its effect
  exactly when the replacement adds one unit to the end of its range, or cuts an end off it.
-/

namespace WeWrite

open ViewController

variable {α γ : Type}

/-! ## Replacements -/

/-- The text with the `k` units from `i` on replaced by `s`. -/
def replaceCharacters (t : NSString α) (i k : Nat) (s : NSString α) : NSString α :=
  t.take i ++ s ++ t.drop (i + k)

/-- A user replaces the `k` units from `i` on by `s`, which leaves the caret behind `s`. -/
def Edit.replaceRange (t : NSString α) (i k : Nat) (s : NSString α) : Edit α :=
  .replace ⟨replaceCharacters t i k s, ⟨i + s.length, 0⟩⟩

/-- Typing a character replaces nothing by it. -/
theorem perform_insert_eq {t : NSString α} {location : Nat} (char : α)
    (hlocation : location ≤ t.length) :
    (Edit.insert location char).perform t = (Edit.replaceRange t location 0 [char]).perform t := by
  rw [Edit.perform, if_pos hlocation]
  rfl

/-- Deleting a range replaces it by nothing. -/
theorem perform_delete_eq {t : NSString α} {location count : Nat} (hcount : 0 < count)
    (hrange : location + count ≤ t.length) :
    (Edit.delete location count).perform t =
      (Edit.replaceRange t location count []).perform t := by
  rw [Edit.perform, if_pos ⟨hcount, hrange⟩]
  simp [Edit.replaceRange, Edit.perform, replaceCharacters, Splice.removeAt]

/-- A replacement that one unit at the end of the range, or one deletion, can express: the
range grows by one unit at its end, or loses an end, and the end branch of a deletion is not
taken. -/
def Expressible (t : NSString α) (i k : Nat) (s : NSString α) : Prop :=
  if k < s.length then ∃ char, s = (t.drop i).take k ++ [char]
  else s <+: (t.drop i).take k ∧ ¬ atEndBranch t.length (i + s.length) (k - s.length)

/-- A typed character can be expressed. -/
theorem expressible_insert (t : NSString α) (i : Nat) (char : α) : Expressible t i 0 [char] :=
  ⟨char, rfl⟩

/-- The deletion of a range can be expressed outside the end branch. -/
theorem expressible_delete_iff {t : NSString α} {i k : Nat} :
    Expressible t i k [] ↔ ¬ atEndBranch t.length i k := by
  simp [Expressible]

theorem length_replaceCharacters {t : NSString α} {i k : Nat} (s : NSString α)
    (hrange : i + k ≤ t.length) :
    (replaceCharacters t i k s).length = t.length - k + s.length := by
  simp only [replaceCharacters, List.length_append, List.length_take, List.length_drop]
  omega

theorem exists_getLast? {s : NSString α} (hpos : 0 < s.length) :
    ∃ char, s.getLast? = some char :=
  ⟨s.getLast (List.ne_nil_of_length_pos hpos), List.getLast?_eq_some_getLast _⟩

/-- The unit in front of the caret is the last one of what was put in. -/
theorem characterAtIndex_replaceCharacters {t s : NSString α} {i k : Nat} {char : α}
    (hi : i ≤ t.length) (hchar : s.getLast? = some char) :
    characterAtIndex (replaceCharacters t i k s) (i + s.length - 1) = some char := by
  have hpos : 0 < s.length := by
    apply List.length_pos_of_ne_nil
    rintro rfl
    cases hchar
  have hlen : (t.take i).length = i := by simp; omega
  have hindex : ((i : Int) + s.length - 1).toNat = i + (s.length - 1) := by omega
  rw [characterAtIndex, if_pos (by omega), hindex, replaceCharacters, List.append_assoc,
    List.getElem?_append_right (by omega), hlen, Nat.add_sub_cancel_left,
    List.getElem?_append_left (by omega), ← hchar, List.getLast?_eq_getElem?]

/-! ## One unit, and one deletion -/

/-- Inserting `char` at the end of the range has the effect of the replacement exactly when the
replacement adds `char` to its range. -/
theorem insertion_repeats_iff {t s : NSString α} {i k : Nat} {char : α} :
    Splice.insertAt (i + k) [char] t = replaceCharacters t i k s ↔
      s = (t.drop i).take k ++ [char] := by
  rw [Splice.insertAt, replaceCharacters, List.append_left_inj, List.take_add,
    List.append_assoc, List.append_right_inj]
  exact eq_comm

/-- A deletion behind what was put in has the effect of the replacement exactly when the
replacement cuts off an end of its range, and the end branch is not taken. -/
theorem deletion_repeats_iff {t s : NSString α} {i k : Nat} (hrange : i + k ≤ t.length)
    (hle : s.length ≤ k) :
    deleteString t (i + s.length) (k - s.length) = some (replaceCharacters t i k s) ↔
      s <+: (t.drop i).take k ∧ ¬ atEndBranch t.length (i + s.length) (k - s.length) := by
  have hlength := length_replaceCharacters s hrange
  by_cases hend : atEndBranch t.length (i + s.length) (k - s.length)
  · -- the end branch leaves one unit too few
    rw [deleteString_of_atEndBranch hend, substringToIndex_eq_some_iff]
    have htest := hend.2
    constructor
    · rintro ⟨-, -, hcut⟩
      rw [hcut, List.length_take] at hlength
      omega
    · rintro ⟨-, hnot⟩
      exact (hnot hend).elim
  · have hlocation : ((i : Int) + s.length).toNat = i + s.length := by omega
    have hbehind : ((i : Int) + s.length + (k - s.length)).toNat = i + k := by omega
    have htake : ((t.drop i).take k).take s.length = (t.drop i).take s.length := by
      rw [List.take_take, Nat.min_eq_left hle]
    rw [deleteString_eq_some_iff hend, hlocation, hbehind, replaceCharacters, List.append_left_inj,
      List.take_add, List.append_right_inj, List.prefix_iff_eq_take, htake]
    constructor
    · rintro ⟨-, -, -, -, heq⟩
      exact ⟨heq, hend⟩
    · rintro ⟨heq, -⟩
      exact ⟨by omega, by omega, by omega, by omega, heq⟩

/-! ## The broadcast of a replacement -/

namespace ViewController

/-- What the broadcast of a replacement says. -/
structure SentReplacement (dev : Device α γ) (i k : Nat) (s : NSString α) (event : Event γ)
    (vc vc' : ViewController α) : Prop where
  text : vc'.myTextView.text = replaceCharacters vc.myTextView.text i k s
  side : vc'.sideString = vc.sideString
  location : event.data.cursorLocation = i + s.length
  grown : k < s.length → event.eventType = .insert ∧ event.data.numChars = s.length - k ∧
    ∃ char, s.getLast? = some char ∧ event.data.contentModified = dev.utf8String [char]
  notGrown : s.length ≤ k → event.eventType = .delete ∧ event.data.numChars = k - s.length

/-- A replacement is broadcast as the insertion of the unit in front of the caret, or as a
deletion behind the caret. -/
theorem userEdit_replaceRange (dev : Device α γ) (vc : ViewController α) (i k : Nat)
    (s : NSString α) (hcache : vc.textSize = vc.myTextView.text.length)
    (hrange : i + k ≤ vc.myTextView.text.length) :
    ∃ vc' event, vc.userEdit dev (.replaceRange vc.myTextView.text i k s) = some (vc', event) ∧
      SentReplacement dev i k s event vc vc' := by
  have hview : (Edit.replaceRange vc.myTextView.text i k s).perform vc.myTextView.text =
      some ⟨replaceCharacters vc.myTextView.text i k s, ⟨i + s.length, 0⟩⟩ := rfl
  have hlength := length_replaceCharacters s hrange
  cases hedit : vc.userEdit dev (.replaceRange vc.myTextView.text i k s) with
  | none =>
      -- the text has grown, so something was put in front of the caret
      rcases (userEdit_eq_none_iff hview).mp hedit with ⟨hgrown, hchar⟩
      simp only [hcache] at hgrown hchar
      rcases exists_getLast? (s := s) (by omega) with ⟨char, hlast⟩
      rw [characterAtIndex_replaceCharacters (by omega) hlast] at hchar
      cases hchar
  | some result =>
      rcases result with ⟨vc', event⟩
      have hedited := userEdit_spec hedit
      have hview' := Option.some.inj (hview.symm.trans hedited.view)
      have hsize : vc'.textSize = vc.myTextView.text.length - k + s.length := by
        rw [hedited.textSize, ← hview', hlength]
        omega
      have hcaret : event.data.cursorLocation = i + s.length := by
        rw [hedited.location, ← hview']
      have hnum := hedited.numChars
      refine ⟨vc', event, rfl, by rw [← hview'], hedited.side, hcaret, fun hgrown => ?_,
        fun hnot => ?_⟩
      · rcases hedited.grown (by omega) with ⟨htype, char, hchar, hcontent⟩
        rcases exists_getLast? (s := s) (by omega) with ⟨last, hlast⟩
        rw [← hview', characterAtIndex_replaceCharacters (by omega) hlast] at hchar
        exact ⟨htype, by omega, char, by rw [hlast, hchar], hcontent⟩
      · exact ⟨(hedited.notGrown (by omega)).1, by omega⟩

/-- A user replaces a range of the text by a string: the broadcast has the same effect on the
old text exactly when the replacement adds one unit to the end of its range, or cuts an end off
it without taking the end branch. -/
theorem broadcast_repeats_iff (dev : Device α γ) (vc : ViewController α) (i k : Nat)
    (s : NSString α) (hside : vc.sideString = vc.myTextView.text)
    (hcache : vc.textSize = vc.myTextView.text.length)
    (hrange : i + k ≤ vc.myTextView.text.length)
    (hread : ∀ char, s.getLast? = some char →
      dev.stringWithCString (dev.utf8String [char]) = [char]) :
    ∃ vc' event, vc.userEdit dev (.replaceRange vc.myTextView.text i k s) = some (vc', event) ∧
      vc'.myTextView.text = replaceCharacters vc.myTextView.text i k s ∧
      ((applySide dev vc' event).map sideString = some vc'.myTextView.text ↔
        Expressible vc.myTextView.text i k s) := by
  rcases userEdit_replaceRange dev vc i k s hcache hrange with ⟨vc', event, hedit, hsent⟩
  refine ⟨vc', event, hedit, hsent.text, ?_⟩
  rw [applySide_sideString, hsent.text, hsent.side, hside, applyEvent, Expressible, hsent.location]
  by_cases hgrown : k < s.length
  · rcases hsent.grown hgrown with ⟨htype, hnum, char, hlast, hcontent⟩
    have hplace : ((i : Int) + s.length - (s.length - k)).toNat = i + k := by omega
    rw [if_pos htype, if_pos hgrown, hcontent, hread char hlast, hnum, insertString_eq_some_iff,
      hplace, eq_comm (a := replaceCharacters _ _ _ _), insertion_repeats_iff]
    constructor
    · rintro ⟨-, -, hadds⟩
      exact ⟨char, hadds⟩
    · rintro ⟨added, hadds⟩
      obtain rfl : added = char := by
        rw [hadds, List.getLast?_concat] at hlast
        exact Option.some.inj hlast
      exact ⟨by omega, by omega, hadds⟩
  · rcases hsent.notGrown (by omega) with ⟨htype, hnum⟩
    rw [if_neg (by rw [htype]; decide), if_neg hgrown, hnum]
    exact deletion_repeats_iff hrange (by omega)

/-- Typing a `b` behind `a`. -/
theorem broadcast_repeats_iff_typing :
    ∃ vc' event,
      userEdit latin1Device { viewDidLoad (viewOf [97]) with textSize := 1 }
          (.replaceRange [97] 1 0 [98]) = some (vc', event) ∧
        (applySide latin1Device vc' event).map sideString = some vc'.myTextView.text := by
  have hread : ∀ char, [98].getLast? = some char →
      latin1Device.stringWithCString (latin1Device.utf8String [char]) = [char] := by
    intro char hlast
    obtain rfl := Option.some.inj hlast
    rfl
  rcases broadcast_repeats_iff latin1Device { viewDidLoad (viewOf [97]) with textSize := 1 } 1 0
    [98] rfl rfl (by decide) hread with ⟨vc', event, hedit, -, hiff⟩
  exact ⟨vc', event, hedit, hiff.mpr (expressible_insert _ 1 98)⟩

/-- Pasting `ab` into the empty text broadcasts two characters by count and one by content. -/
theorem paste_is_broken_up :
    ¬ ∀ (vc : ViewController Unichar) (i k : Nat) (s : NSString Unichar),
      vc.sideString = vc.myTextView.text → vc.textSize = vc.myTextView.text.length →
      vc.brCounter = 0 → i + k ≤ vc.myTextView.text.length → 0 < k + s.length →
      ∃ vc' event,
        vc.userEdit latin1Device (.replaceRange vc.myTextView.text i k s) = some (vc', event) ∧
          (applySide latin1Device vc' event).map sideString = some vc'.myTextView.text := by
  intro h
  rcases h (viewDidLoad (viewOf [])) 0 0 [97, 98] rfl rfl rfl (by decide) (by decide) with
    ⟨vc', event, hedit, hsame⟩
  cases hedit
  revert hsame
  decide

end ViewController

end WeWrite
