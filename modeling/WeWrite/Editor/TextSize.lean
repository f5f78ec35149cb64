import WeWrite.Editor.SingleEditor

/-!
# The cached text size

`textSize` is the length the text view had when it was last written down, and a local edit
is classified and counted by comparing it with the new length.  User edits, `insertMain` and
`deleteMain` write it down; the `setText:` of the last own echo does not.

Main results:

- Theorem `length_applyEvent`: the length an event leaves, from the length it finds.
- Theorem `Editor.tracks_step_iff`: the one step that can spoil the cache.
- Theorem `Editor.text_size_tracks_iff`: the cache is right in every state of a run, and
  every edit is announced with its size, exactly when the editor opened empty and no last
  own echo changed the length of the text view.
-/

namespace WeWrite

open Transition ViewController

variable {α γ : Type}

/-! ## Lengths -/

/-- The length of a string of length `length` after `event`. -/
def lengthAfter (decode : List γ → NSString α) (length : Nat) (event : Event γ) : Int :=
  if event.eventType = .insert then
    length + (decode event.data.contentModified).length
  else if atEndBranch length event.data.cursorLocation event.data.numChars then
    event.data.cursorLocation
  else
    length - event.data.numChars

theorem length_applyEvent {decode : List γ → NSString α} {s s' : NSString α} {event : Event γ}
    (h : applyEvent decode s event = some s') :
    (s'.length : Int) = lengthAfter decode s.length event := by
  unfold applyEvent at h
  unfold lengthAfter
  split_ifs at h ⊢ with htype hend
  · rcases insertString_eq_some_iff.mp h with ⟨-, -, rfl⟩
    simp
  · rw [deleteString_of_atEndBranch hend] at h
    rcases substringToIndex_eq_some_iff.mp h with ⟨h0, hlen, rfl⟩
    rw [List.length_take]
    omega
  · rcases (deleteString_eq_some_iff hend).mp h with ⟨h0, hlen, h0', hlen', rfl⟩
    rw [List.length_append, List.length_take, List.length_drop]
    omega

namespace Editor

variable {dev : Device α γ} {s s' : Editor α γ}

/-- The cached size is the length of the text view. -/
def Tracks (s : Editor α γ) : Prop :=
  s.vc.textSize = s.vc.myTextView.text.length

/-- Local edits are announced with their size: what is broadcast has the type and the count
of the change of length, and an edit that leaves the caret behind a character, or does not
grow the text, is broadcast. -/
structure Announces (dev : Device α γ) (s : Editor α γ) : Prop where
  grown : ∀ edit vc event, s.vc.userEdit dev edit = some (vc, event) →
    s.vc.myTextView.text.length < vc.myTextView.text.length →
      event.eventType = .insert ∧ event.data.numChars =
        vc.myTextView.text.length - s.vc.myTextView.text.length
  shrunk : ∀ edit vc event, s.vc.userEdit dev edit = some (vc, event) →
    vc.myTextView.text.length < s.vc.myTextView.text.length →
      event.eventType = .delete ∧ event.data.numChars =
        s.vc.myTextView.text.length - vc.myTextView.text.length
  sent : ∀ edit view, edit.perform s.vc.myTextView.text = some view →
    (0 < view.selectedRange.location ∧ view.selectedRange.location ≤ view.text.length) ∨
      view.text.length ≤ s.vc.myTextView.text.length →
    ∃ vc event, s.vc.userEdit dev edit = some (vc, event)

theorem announces_of_tracks (htracks : Tracks s) : Announces dev s where
  grown edit vc event h hlt := by
    have hedited := userEdit_spec h
    have hsize := hedited.textSize
    unfold Tracks at htracks
    refine ⟨(hedited.grown (by omega)).1, ?_⟩
    rw [hedited.numChars]
    omega
  shrunk edit vc event h hlt := by
    have hedited := userEdit_spec h
    have hsize := hedited.textSize
    unfold Tracks at htracks
    refine ⟨(hedited.notGrown (by omega)).1, ?_⟩
    rw [hedited.numChars]
    omega
  sent edit view hview hcaret := by
    cases hedit : s.vc.userEdit dev edit with
    | some result => exact ⟨result.1, result.2, rfl⟩
    | none =>
        rcases (userEdit_eq_none_iff hview).mp hedit with ⟨hlt, hchar⟩
        unfold Tracks at htracks
        rcases hcaret with ⟨hpos, hle⟩ | hle
        · -- the caret stands behind a character of the text
          rw [characterAtIndex, if_pos (by omega), List.getElem?_eq_none_iff] at hchar
          omega
        · omega

/-! ## The step that can spoil the cache -/

/-- An own echo that brings the counter to zero replaces the text view by a side string of
the same length. -/
def KeepsLength (dev : Device α γ) (s : Editor α γ) : EditorAction α γ → Prop
  | .echo index =>
      s.vc.brCounter = 1 → ∀ event, s.outstanding[index]? = some event →
        lengthAfter dev.stringWithCString s.vc.sideString.length event =
          s.vc.myTextView.text.length
  | _ => True

/-- From a right cache, a step leads to a right cache exactly when it keeps the length. -/
theorem tracks_step_iff {a : EditorAction α γ} (htracks : Tracks s)
    (hstep : s.step dev a = some s') : Tracks s' ↔ KeepsLength dev s a := by
  cases a with
  | edit edit accepted =>
      rcases step_edit hstep with ⟨vc, event, hedited, rfl⟩
      cases accepted <;> simpa [Tracks, KeepsLength] using hedited.textSize
  | select range =>
      obtain rfl : _ = s' := by simpa [step] using hstep
      simpa [Tracks, KeepsLength] using htracks
  | echo index =>
      rcases step_echo hstep with ⟨event, vc, hevent, hown, rfl⟩
      have hlength := length_applyEvent hown.side
      unfold Tracks at htracks
      simp only [Tracks, KeepsLength, hown.textSize, htracks, hown.text, hevent,
        Option.some.injEq, forall_eq']
      split_ifs with hzero
      · have hone : s.vc.brCounter = 1 := by rw [hown.counter] at hzero; omega
        rw [← hlength]
        simp only [hone, forall_true_left]
        exact eq_comm
      · have hne : s.vc.brCounter ≠ 1 := by rw [hown.counter] at hzero; omega
        simp [hne]
  | remote event =>
      rcases step_remote hstep with ⟨vc, hremote, rfl⟩
      by_cases hzero : s.vc.brCounter = 0
      · simpa [Tracks, KeepsLength] using (hremote.shown hzero).2
      · rcases hremote.hidden hzero with ⟨hview, hsize⟩
        simpa [Tracks, KeepsLength, hview, hsize] using htracks

/-- In every state of a run the cache is right and edits are announced with their size,
exactly when the editor opened on the empty text and every last own echo kept the length
of the text view. -/
theorem text_size_tracks_iff (dev : Device α γ) (view : UITextView α)
    (as : List (EditorAction α γ)) (s : Editor α γ)
    (hrun : Run (step dev) anyAction (start view) as s) :
    (∀ as' s', as' <+: as → Run (step dev) anyAction (start view) as' s' →
        Tracks s' ∧ Announces dev s') ↔
      view.text = [] ∧ Run (step dev) (KeepsLength dev) (start view) as s := by
  constructor
  · intro hall
    constructor
    · have hstart : Tracks (start view) := (hall [] _ List.nil_prefix .nil).1
      have hlen : (0 : Int) = view.text.length := hstart
      exact List.eq_nil_of_length_eq_zero (by omega)
    · induction hrun with
      | nil => exact .nil
      | @snoc as s₁ s₂ a hrun _ hs ih =>
          have hfst : as <+: as ++ [a] := List.prefix_append as [a]
          have htracks₁ : Tracks s₁ := (hall as s₁ hfst hrun).1
          have htracks₂ : Tracks s₂ :=
            (hall (as ++ [a]) s₂ (List.prefix_refl _) (.snoc hrun trivial hs)).1
          refine .snoc (ih ?_) ((tracks_step_iff htracks₁ hs).mp htracks₂) hs
          intro as' s' has' hrun'
          exact hall as' s' (has'.trans hfst) hrun'
  · rintro ⟨hempty, hkeeps⟩ as' s' ⟨bs, rfl⟩ hrun'
    rcases hkeeps.initial with ⟨s₁, hkeeps₁⟩
    obtain rfl : s₁ = s' := hkeeps₁.unique hrun'
    have htracks : Tracks s₁ := by
      apply hkeeps₁.invariant Tracks
      · simp [Tracks, start, viewDidLoad, hempty]
      · intro s a s' htracks hok hstep
        exact (tracks_step_iff htracks hstep).mpr hok
    exact ⟨htracks, announces_of_tracks htracks⟩

/-- Typing one character and receiving its echo keeps the cache right. -/
theorem text_size_tracks_iff_typing :
    ∃ s, Run (step latin1Device) anyAction (start (viewOf []))
        ([] ++ [.edit (.insert 0 97) true] ++ [.echo 0]) s ∧ Tracks s := by
  obtain ⟨s, hkeeps⟩ : ∃ s, Run (step latin1Device) (KeepsLength latin1Device)
      (start (viewOf [])) ([] ++ [.edit (.insert 0 97) true] ++ [.echo 0]) s := by
    refine ⟨_, .snoc (.snoc .nil trivial rfl) (fun _ event hevent => ?_) rfl⟩
    cases hevent
    decide
  refine ⟨_, hkeeps.any, ?_⟩
  exact ((text_size_tracks_iff _ _ _ _ hkeeps.any).mpr ⟨rfl, hkeeps⟩ _ _
    (List.prefix_refl _) hkeeps.any).1

/-- A keystroke is outstanding when another client's insertion arrives; the echo then
replaces a text of one character by one of two, and the cache still says one. -/
theorem text_size_stale_after_echo :
    ¬ ∀ (as : List (EditorAction Unichar UInt8)) (s : Editor Unichar UInt8),
      Run (step latin1Device) anyAction (start (viewOf [])) as s →
        Tracks s ∧ Announces latin1Device s := by
  intro h
  have hrun : Run (step latin1Device) anyAction (start (viewOf []))
      ([] ++ [.edit (.insert 0 97) true] ++ [.remote ⟨.insert, ⟨1, [98], 1⟩⟩] ++ [.echo 0]) _ :=
    .snoc (.snoc (.snoc .nil trivial rfl) trivial rfl) trivial rfl
  rcases h _ _ hrun with ⟨htracks, -⟩
  revert htracks
  unfold Tracks
  decide

end Editor

end WeWrite
