import WeWrite.Editor.Encoding

/-!
# The four mutators

An insertion and a deletion are each written out twice, for the side string and for the
text view, and each copy also moves a cursor: `sideCursorLoc` on the one side, the property
`selectedRange` on the other.  This module says which splice a deletion is, and when the two
copies move their cursors alike.

Main results:

- Theorem `ViewController.delete_splices_iff`: a deletion removes exactly its range unless it
  takes the end branch.
- Theorem `ViewController.cursors_agree_iff`: for which cursors the two copies of an
  insertion, and of a deletion, agree.
-/

namespace WeWrite

variable {α γ : Type}

/-! ## Deletions -/

/-- `s'` is `s` without the `numChars` units from `location` on: the length drops by that
number, and nothing changes when it is zero. -/
structure SplicedOut (s s' : NSString α) (location numChars : Int) : Prop where
  splice : s' = s.take location.toNat ++ s.drop (location + numChars).toNat
  length : (s'.length : Int) = s.length - numChars
  nothing : numChars = 0 → s' = s

theorem splicedOut_of_splice {s s' : NSString α} {location numChars : Int} (h0 : 0 ≤ location)
    (hnum : 0 ≤ numChars) (hrange : location + numChars ≤ s.length)
    (hsplice : s' = s.take location.toNat ++ s.drop (location + numChars).toNat) :
    SplicedOut s s' location numChars := by
  refine ⟨hsplice, ?_, ?_⟩
  · rw [hsplice, List.length_append, List.length_take, List.length_drop]
    omega
  · rintro rfl
    rw [hsplice, Int.add_zero, List.take_append_drop]

/-- A range inside the string is removed exactly outside the end branch. -/
theorem deleteString_splices_iff {s : NSString α} {location numChars : Int} (h0 : 0 ≤ location)
    (hnum : 0 ≤ numChars) (hrange : location + numChars ≤ s.length) :
    (∃ s', deleteString s location numChars = some s' ∧ SplicedOut s s' location numChars) ↔
      ¬ atEndBranch s.length location numChars := by
  constructor
  · rintro ⟨s', hs', hspliced⟩ hend
    -- the end branch leaves `location` units, one too few
    rw [deleteString_of_atEndBranch hend, substringToIndex_eq_some_iff] at hs'
    rcases hs' with ⟨-, -, hs'⟩
    have hlength := hspliced.length
    rw [hs', List.length_take] at hlength
    have htest := hend.2
    omega
  · intro hend
    have hs' := (deleteString_eq_some_iff hend).mpr ⟨h0, by omega, by omega, hrange, rfl⟩
    exact ⟨_, hs', splicedOut_of_splice h0 hnum hrange rfl⟩

namespace ViewController

/-- For every range inside the string: `deleteSide` removes it from the side string, and
`deleteMain` from the text view, exactly when the end branch is not taken. -/
theorem delete_splices_iff (dev : Device α γ) (vc : ViewController α) (location numChars : Int)
    (h0 : 0 ≤ location) (hnum : 0 ≤ numChars) :
    (location + numChars ≤ vc.sideString.length →
        ((∃ vc', vc.deleteSide location numChars = some vc' ∧
            SplicedOut vc.sideString vc'.sideString location numChars) ↔
          ¬ atEndBranch vc.sideString.length location numChars)) ∧
      (location + numChars ≤ vc.myTextView.text.length →
        ((∃ vc', vc.deleteMain dev location numChars = some vc' ∧
            SplicedOut vc.myTextView.text vc'.myTextView.text location numChars) ↔
          ¬ atEndBranch vc.myTextView.text.length location numChars)) := by
  constructor
  · intro hrange
    rw [← deleteString_splices_iff h0 hnum hrange, ← deleteSide_sideString]
    simp [Option.map_eq_some_iff]
  · intro hrange
    rw [← deleteString_splices_iff h0 hnum hrange, ← deleteMain_text dev]
    simp [Option.map_eq_some_iff]

/-- Deleting the first two characters of `abc`. -/
theorem delete_splices_iff_start :
    (∃ vc', (viewDidLoad (viewOf [97, 98, 99])).deleteSide 0 2 = some vc' ∧
        SplicedOut [97, 98, 99] vc'.sideString 0 2) ∧
      ∃ vc', (viewDidLoad (viewOf [97, 98, 99])).deleteMain latin1Device 0 2 = some vc' ∧
        SplicedOut [97, 98, 99] vc'.myTextView.text 0 2 := by
  have hboth := delete_splices_iff latin1Device (viewDidLoad (viewOf [97, 98, 99])) 0 2
    (by decide) (by decide)
  exact ⟨(hboth.1 (by decide)).mpr (by decide), (hboth.2 (by decide)).mpr (by decide)⟩

/-- Deleting nothing in front of the last character of `ab` removes it. -/
theorem empty_deletion_removes :
    ¬ ∀ (vc : ViewController Unichar) (location numChars : Int), 0 ≤ location → 0 ≤ numChars →
      location + numChars ≤ vc.sideString.length →
      ∃ vc', vc.deleteSide location numChars = some vc' ∧
        SplicedOut vc.sideString vc'.sideString location numChars := by
  intro h
  rcases h (viewDidLoad (viewOf [97, 98])) 1 0 (by decide) (by decide) (by decide) with
    ⟨vc', hvc', hspliced⟩
  have hside : (some vc').map sideString = some [97] := by rw [← hvc']; rfl
  have hkept := hspliced.nothing rfl
  rw [Option.some.inj hside] at hkept
  cases hkept

/-! ## Cursors -/

/-- The two copies of an insertion move a cursor alike unless it stands at the insertion. -/
theorem insert_cursors_agree_iff (dev : Device α γ) (vc : ViewController α) (text : NSString α)
    (location : Int) (hsame : vc.myTextView.text = vc.sideString)
    (hcaret : vc.myTextView.selectedRange.location = vc.sideCursorLoc)
    (h0 : 0 ≤ location - text.length) (hrange : location - text.length ≤ vc.sideString.length) :
    ∃ main side, vc.insertMain dev text location text.length = some main ∧
      vc.insertSide text location text.length = some side ∧
      (main.selectedRange.location = side.sideCursorLoc ↔
        vc.sideCursorLoc ≠ location - text.length ∨ text = []) := by
  have hs' : insertString vc.sideString text location text.length = some _ :=
    insertString_eq_some_iff.mpr ⟨h0, hrange, rfl⟩
  simp only [insertMain, insertSide, hsame, hs', hcaret, Option.bind_eq_bind, Option.bind_some]
  refine ⟨_, _, rfl, rfl, ?_⟩
  rw [← List.length_eq_zero_iff]
  split_ifs with hmain hside hside
  · exact iff_of_true rfl (Or.inl (by omega))
  · omega
  · -- the cursor stands at the insertion: only the side copy moves it
    simp only
    omega
  · exact iff_of_true hcaret (Or.inl (by omega))

/-- The two copies of a deletion move a cursor alike unless it stands at the end of the range
or behind it, and does not go to the start of the text. -/
theorem delete_cursors_agree_iff (dev : Device α γ) (vc : ViewController α)
    (location numChars : Int) (hsame : vc.myTextView.text = vc.sideString)
    (hcaret : vc.myTextView.selectedRange.location = vc.sideCursorLoc) (h0 : 0 ≤ location)
    (hnum : 0 < numChars) (hrange : location + numChars ≤ vc.sideString.length) :
    ∃ main side, vc.deleteMain dev location numChars = some main ∧
      vc.deleteSide location numChars = some side ∧
      (main.selectedRange.location = side.sideCursorLoc ↔
        vc.sideCursorLoc < location + numChars ∨
          (location = 0 ∧ vc.sideCursorLoc = numChars)) := by
  obtain ⟨s', hs'⟩ : ∃ s', deleteString vc.sideString location numChars = some s' := by
    by_cases hend : atEndBranch vc.sideString.length location numChars
    · rw [deleteString_of_atEndBranch hend]
      exact ⟨_, substringToIndex_eq_some_iff.mpr ⟨h0, by omega, rfl⟩⟩
    · exact ⟨_, (deleteString_eq_some_iff hend).mpr ⟨h0, by omega, by omega, hrange, rfl⟩⟩
  simp only [deleteMain, deleteSide, hsame, hs', hcaret, Option.bind_eq_bind, Option.bind_some]
  refine ⟨_, _, rfl, rfl, ?_⟩
  split_ifs with hinside hbehind
  · exact iff_of_true rfl (Or.inl hinside.2)
  · -- behind the range: the main copy goes to the start of the text
    simp only
    omega
  · exact iff_of_true hcaret (Or.inl (by omega))

/-- With one text on both sides and one cursor `c`: the property that `insertMain` leaves is
the cursor that `insertSide` leaves exactly when `c` is not where a nonempty text goes in; the
one that `deleteMain` leaves is the one that `deleteSide` leaves exactly when `c` stands in
front of the end of the range, or at its end with the range at the start of the text. -/
theorem cursors_agree_iff (dev : Device α γ) (vc : ViewController α) (c : Int)
    (hsame : vc.myTextView.text = vc.sideString)
    (hmain : vc.myTextView.selectedRange.location = c) (hside : vc.sideCursorLoc = c) :
    (∀ (text : NSString α) (location : Int), 0 ≤ location - text.length →
        location - text.length ≤ vc.sideString.length →
        ∃ main side, vc.insertMain dev text location text.length = some main ∧
          vc.insertSide text location text.length = some side ∧
          (main.selectedRange.location = side.sideCursorLoc ↔
            c ≠ location - text.length ∨ text = [])) ∧
      ∀ location numChars : Int, 0 ≤ location → 0 < numChars →
        location + numChars ≤ vc.sideString.length →
        ∃ main side, vc.deleteMain dev location numChars = some main ∧
          vc.deleteSide location numChars = some side ∧
          (main.selectedRange.location = side.sideCursorLoc ↔
            c < location + numChars ∨ (location = 0 ∧ c = numChars)) := by
  have hcaret : vc.myTextView.selectedRange.location = vc.sideCursorLoc := by rw [hmain, hside]
  subst hside
  exact ⟨fun text location => insert_cursors_agree_iff dev vc text location hsame hcaret,
    fun location numChars => delete_cursors_agree_iff dev vc location numChars hsame hcaret⟩

/-- The caret in front of `ab`: another client types a `c` behind it, or deletes the `b`. -/
theorem cursors_agree_iff_front :
    ∃ vc : ViewController Unichar, vc.myTextView.text = [97, 98] ∧
      (∃ main side, vc.insertMain latin1Device [99] 3 1 = some main ∧
        vc.insertSide [99] 3 1 = some side ∧
        main.selectedRange.location = side.sideCursorLoc) ∧
      ∃ main side, vc.deleteMain latin1Device 1 1 = some main ∧
        vc.deleteSide 1 1 = some side ∧ main.selectedRange.location = side.sideCursorLoc := by
  let vc : ViewController Unichar := viewDidLoad ⟨[97, 98], ⟨0, 0⟩⟩
  rcases cursors_agree_iff latin1Device vc 0 rfl rfl rfl with ⟨hinsert, hdelete⟩
  rcases hinsert [99] 3 (by decide) (by decide) with ⟨main, side, hmain, hside, hiff⟩
  rcases hdelete 1 1 (by decide) (by decide) (by decide) with ⟨main', side', hmain', hside', hiff'⟩
  exact ⟨vc, rfl, ⟨main, side, hmain, hside, hiff.mpr (by decide)⟩,
    main', side', hmain', hside', hiff'.mpr (by decide)⟩

/-- The caret behind `ab` with the `a` deleted by another client: the one copy puts the cursor
at the start, the other behind the `b`. -/
theorem delete_cursors_differ :
    ¬ ∀ (vc : ViewController Unichar) (c location numChars : Int),
      vc.myTextView.text = vc.sideString → vc.myTextView.selectedRange.location = c →
      vc.sideCursorLoc = c → 0 ≤ c → c ≤ vc.sideString.length → 0 ≤ location → 0 < numChars →
      location + numChars ≤ vc.sideString.length →
      ∀ main side, vc.deleteMain latin1Device location numChars = some main →
        vc.deleteSide location numChars = some side →
        main.selectedRange.location = side.sideCursorLoc := by
  intro h
  have hequal := h { viewDidLoad (viewOf [97, 98]) with sideCursorLoc := 2 } 2 0 1 rfl rfl rfl
    (by decide) (by decide) (by decide) (by decide) (by decide) _ _ rfl rfl
  revert hequal
  decide

end ViewController

end WeWrite
