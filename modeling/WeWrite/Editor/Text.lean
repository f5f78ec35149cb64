import WeWrite.Library.Splice

/-!
# Strings, selections and the text view

The editor works on `NSString` values through three indexed operations that raise
`NSRangeException`, and shows them in a `UITextView`.  A string is the list of its UTF-16
units; the unit type is a parameter, so that a unit may also carry an identity.  A raised
exception is `none`.

Positions and counts are `Int`, whether the source types them `int`, `NSInteger`,
`NSUInteger` or `int64_t`: they are bounded by the length of a text in memory, so no
conversion between these types changes a value, and a negative value handed to an
`NSUInteger` parameter is out of range for every string, as it is here.

The module also has the two three-way splices that `insertSide`/`insertMain` and
`deleteSide`/`deleteMain` each write out twice.

Main results:

- Theorem `insertString_eq_some_iff`: the three branches of an insertion compute one
  splice, and raise exactly when its position lies outside the string.
- Theorem `deleteString_eq_some_iff`: a deletion computes its splice in the start branch
  and in the middle branch, and cuts everything behind its location in the end branch.
-/

namespace WeWrite

open Splice

variable {α γ : Type}

/-! ## Strings -/

/-- An `NSString` as the list of its UTF-16 units. -/
abbrev NSString (α : Type) := List α

/-- `substringToIndex:`. -/
def substringToIndex (s : NSString α) (index : Int) : Option (NSString α) :=
  if 0 ≤ index ∧ index ≤ s.length then some (s.take index.toNat) else none

/-- `substringFromIndex:`. -/
def substringFromIndex (s : NSString α) (index : Int) : Option (NSString α) :=
  if 0 ≤ index ∧ index ≤ s.length then some (s.drop index.toNat) else none

/-- `characterAtIndex:`. -/
def characterAtIndex (s : NSString α) (index : Int) : Option α :=
  if 0 ≤ index then s[index.toNat]? else none

theorem substringToIndex_eq_some_iff {s t : NSString α} {index : Int} :
    substringToIndex s index = some t ↔
      0 ≤ index ∧ index ≤ s.length ∧ t = s.take index.toNat := by
  unfold substringToIndex
  split <;> rename_i h
  · simp [h.1, h.2, eq_comm]
  · simp only [reduceCtorEq, false_iff]
    rintro ⟨h0, hlen, -⟩
    exact h ⟨h0, hlen⟩

theorem substringFromIndex_eq_some_iff {s t : NSString α} {index : Int} :
    substringFromIndex s index = some t ↔
      0 ≤ index ∧ index ≤ s.length ∧ t = s.drop index.toNat := by
  unfold substringFromIndex
  split <;> rename_i h
  · simp [h.1, h.2, eq_comm]
  · simp only [reduceCtorEq, false_iff]
    rintro ⟨h0, hlen, -⟩
    exact h ⟨h0, hlen⟩

/-! ## The two splices -/

/-- The insertion of `insertSide:atLocation:amount:` and `insertMain:atLocation:amount:`.
`location` is the caret behind the inserted text, so the text goes to
`location - numChars`. -/
def insertString (s text : NSString α) (location numChars : Int) : Option (NSString α) :=
  if location - numChars = 0 then
    -- Text is at start
    some (text ++ s)
  else if location - numChars = s.length then
    -- Text is at end
    some (s ++ text)
  else do
    -- Text is in middle
    let front ← substringToIndex s (location - numChars)
    let back ← substringFromIndex s (location - numChars)
    some (front ++ text ++ back)

/-- The end test of `deleteSide:amount:` and `deleteMain:amount:`: the branch is taken
when exactly one unit stands behind the deleted range. -/
def atEndBranch (length : Nat) (location numChars : Int) : Prop :=
  location ≠ 0 ∧ location = length - numChars - 1

instance (length : Nat) (location numChars : Int) :
    Decidable (atEndBranch length location numChars) :=
  inferInstanceAs (Decidable (_ ∧ _))

/-- The deletion of `deleteSide:amount:` and `deleteMain:amount:`. -/
def deleteString (s : NSString α) (location numChars : Int) : Option (NSString α) :=
  if location = 0 then
    -- Delete is at start
    substringFromIndex s numChars
  else if location = s.length - numChars - 1 then
    -- Delete is at end
    substringToIndex s location
  else do
    -- Text is in middle
    let front ← substringToIndex s location
    let back ← substringFromIndex s (location + numChars)
    some (front ++ back)

/-- The three branches of an insertion compute one splice; it raises exactly when its
position is outside the string. -/
theorem insertString_eq_some_iff {s text s' : NSString α} {location numChars : Int} :
    insertString s text location numChars = some s' ↔
      0 ≤ location - numChars ∧ location - numChars ≤ s.length ∧
        s' = insertAt (location - numChars).toNat text s := by
  unfold insertString
  split_ifs with hstart hend
  · rw [hstart]
    simp [eq_comm]
  · have hnat : (location - numChars).toNat = s.length := by omega
    rw [hnat, insertAt_length]
    simp only [Option.some.injEq]
    constructor
    · rintro rfl
      exact ⟨by omega, by omega, rfl⟩
    · rintro ⟨-, -, rfl⟩
      rfl
  · simp only [Option.bind_eq_bind, Option.bind_eq_some_iff, substringToIndex_eq_some_iff,
      substringFromIndex_eq_some_iff, Option.some.injEq]
    constructor
    · rintro ⟨front, ⟨h0, hlen, rfl⟩, back, ⟨-, -, rfl⟩, rfl⟩
      exact ⟨h0, hlen, rfl⟩
    · rintro ⟨h0, hlen, rfl⟩
      exact ⟨_, ⟨h0, hlen, rfl⟩, _, ⟨h0, hlen, rfl⟩, rfl⟩

/-- Outside the end branch a deletion is the removal of its range; it raises exactly when
one of the two bounds of the range is outside the string. -/
theorem deleteString_eq_some_iff {s s' : NSString α} {location numChars : Int}
    (hend : ¬ atEndBranch s.length location numChars) :
    deleteString s location numChars = some s' ↔
      0 ≤ location ∧ location ≤ s.length ∧ 0 ≤ location + numChars ∧
        location + numChars ≤ s.length ∧
        s' = s.take location.toNat ++ s.drop (location + numChars).toNat := by
  unfold deleteString
  split_ifs with hstart htest
  · subst hstart
    simp [substringFromIndex_eq_some_iff]
  · exact (hend ⟨hstart, htest⟩).elim
  · simp only [Option.bind_eq_bind, Option.bind_eq_some_iff, substringToIndex_eq_some_iff,
      substringFromIndex_eq_some_iff, Option.some.injEq]
    constructor
    · rintro ⟨front, ⟨h0, hlen, rfl⟩, back, ⟨h0', hlen', rfl⟩, rfl⟩
      exact ⟨h0, hlen, h0', hlen', rfl⟩
    · rintro ⟨h0, hlen, h0', hlen', rfl⟩
      exact ⟨_, ⟨h0, hlen, rfl⟩, _, ⟨h0', hlen', rfl⟩, rfl⟩

/-- In the end branch a deletion cuts everything behind its location, the unit behind the
range included. -/
theorem deleteString_of_atEndBranch {s : NSString α} {location numChars : Int}
    (hend : atEndBranch s.length location numChars) :
    deleteString s location numChars = substringToIndex s location := by
  rw [deleteString, if_neg hend.1, if_pos hend.2]

/-! ## Selections, the text view and the device -/

/-- `NSRange`. -/
structure NSRange where
  location : Int
  length : Int
deriving DecidableEq, Repr

/-- The parts of a `UITextView` that the controller reads and writes. -/
structure UITextView (α : Type) where
  text : NSString α
  selectedRange : NSRange
deriving DecidableEq, Repr

/-- What the controller uses of Foundation and UIKit on one device.  The two string
conversions need not be inverse to each other: the first is always UTF-8, the second
follows the locale. -/
structure Device (α γ : Type) where
  /-- The bytes that `UTF8String` gives and `std::string` copies. -/
  utf8String : NSString α → List γ
  /-- `stringWithCString:encoding:` under `defaultCStringEncoding`, as `%@` renders it. -/
  stringWithCString : List γ → NSString α
  /-- The selection a text view has after `setText:`. -/
  selectionAfterSetText : NSString α → NSRange → NSRange
  /-- The selection a text view takes when it is given a range. -/
  takenSelection : NSString α → NSRange → NSRange

/-- `setText:`. -/
def UITextView.setText (dev : Device α γ) (view : UITextView α) (text : NSString α) :
    UITextView α where
  text := text
  selectedRange := dev.selectionAfterSetText text view.selectedRange

/-- `setSelectedRange:` of the text view. -/
def UITextView.setSelectedRange (dev : Device α γ) (view : UITextView α) (range : NSRange) :
    UITextView α where
  text := view.text
  selectedRange := dev.takenSelection view.text range

@[simp]
theorem UITextView.setText_text (dev : Device α γ) (view : UITextView α) (text : NSString α) :
    (view.setText dev text).text = text :=
  rfl

@[simp]
theorem UITextView.setSelectedRange_text (dev : Device α γ) (view : UITextView α)
    (range : NSRange) : (view.setSelectedRange dev range).text = view.text :=
  rfl

end WeWrite
