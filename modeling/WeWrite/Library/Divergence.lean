import WeWrite.Library.Runs
import WeWrite.Library.Splice

/-!
# Two copies of a list under one log

A local copy takes its own entries of a log only, a shared copy takes all of them, and an
entry edits a copy by absolute position, whatever that copy holds.  The copies then diverge.
This module says how far they still agree.

The frontier is the position in front of which nothing foreign has touched the shared copy:
a foreign edit moves it down to its own position, an own edit in front of it shifts it along.

Main results:

- Theorem `agreeUpTo_frontier`: the copies agree up to the frontier.
- Theorem `lag_of_inserts`: when entries only insert, every entry of the local copy stands at
  its position of the shared copy or further back.
-/

namespace Splice

open Transition

variable {α A : Type*}

/-! ## Edits by position -/

/-- An edit of a list by absolute position. -/
inductive Op (α : Type*) where
  | insert (i : Nat) (xs : List α)
  | remove (i k : Nat)

/-- The list after an edit; `none` when its range is outside the list. -/
def Op.apply (l : List α) : Op α → Option (List α)
  | .insert i xs => if i ≤ l.length then some (insertAt i xs l) else none
  | .remove i k => if i + k ≤ l.length then some (removeAt i k l) else none

/-- The position at which an edit starts. -/
def Op.place : Op α → Nat
  | .insert i _ => i
  | .remove i _ => i

/-- Where the end of a common initial segment goes when both lists take the edit. -/
def Op.shift (b : Nat) : Op α → Nat
  | .insert i xs => if i ≤ b then b + xs.length else b
  | .remove i k => if i + k ≤ b then b - k else min b i

theorem Op.apply_insert {i : Nat} {xs l l' : List α} :
    (Op.insert i xs).apply l = some l' ↔ i ≤ l.length ∧ l' = insertAt i xs l := by
  simp only [Op.apply]
  split_ifs with h <;> simp [h, eq_comm]

theorem Op.apply_remove {i k : Nat} {l l' : List α} :
    (Op.remove i k : Op α).apply l = some l' ↔ i + k ≤ l.length ∧ l' = removeAt i k l := by
  simp only [Op.apply]
  split_ifs with h <;> simp [h, eq_comm]

/-- An edit does not touch what stands in front of it. -/
theorem Op.take_apply {o : Op α} {l l' : List α} (h : o.apply l = some l') {m : Nat}
    (hm : m ≤ o.place) : l'.take m = l.take m := by
  cases o with
  | insert i xs =>
      rcases Op.apply_insert.mp h with ⟨hi, rfl⟩
      exact take_insertAt_of_le hm hi
  | remove i k =>
      rcases Op.apply_remove.mp h with ⟨hi, rfl⟩
      exact take_removeAt_of_le hm (by omega)

/-- Two lists that agree on an initial segment agree on the shifted one after the same
edit. -/
theorem Op.take_shift {o : Op α} {l₁ l₂ l₁' l₂' : List α} (h₁ : o.apply l₁ = some l₁')
    (h₂ : o.apply l₂ = some l₂') {b : Nat} (hb : l₁.take b = l₂.take b) :
    l₁'.take (o.shift b) = l₂'.take (o.shift b) := by
  cases o with
  | insert i xs =>
      rcases Op.apply_insert.mp h₁ with ⟨hi₁, rfl⟩
      rcases Op.apply_insert.mp h₂ with ⟨hi₂, rfl⟩
      simp only [Op.shift]
      split_ifs with hib
      · rw [take_insertAt_add hib hi₁, take_insertAt_add hib hi₂, hb]
      · rw [take_insertAt_of_le (by omega) hi₁, take_insertAt_of_le (by omega) hi₂, hb]
  | remove i k =>
      rcases Op.apply_remove.mp h₁ with ⟨hi₁, rfl⟩
      rcases Op.apply_remove.mp h₂ with ⟨hi₂, rfl⟩
      simp only [Op.shift]
      split_ifs with hib
      · rw [take_removeAt_sub hib (by omega), take_removeAt_sub hib (by omega), hb]
      · rw [take_removeAt_of_le (by omega) (by omega), take_removeAt_of_le (by omega) (by omega)]
        exact take_eq_of_le hb (by omega)

/-! ## The frontier -/

/-- Two lists agree up to a bound; without a bound they are equal. -/
def AgreeUpTo : Option Nat → List α → List α → Prop
  | none, l, l' => l = l'
  | some b, l, l' => l.take b = l'.take b

/-- `n` does not exceed the bound. -/
def Within (bound : Option Nat) (n : Nat) : Prop :=
  ∀ b ∈ bound, n ≤ b

instance (bound : Option Nat) (n : Nat) : Decidable (Within bound n) :=
  match bound with
  | none => .isTrue (by simp [Within])
  | some b => decidable_of_iff (n ≤ b) (by simp [Within])

/-- The frontier after one more entry.  Of an entry that is not an edit by position nothing
is known, and the copies need not agree anywhere behind it. -/
def frontierStep (own : Bool) (bound : Option Nat) : Option (Op α) → Option Nat
  | none => some 0
  | some o =>
      if own then bound.map o.shift
      else some (match bound with
        | none => o.place
        | some b => min b o.place)

/-- How far the two copies agree after a log. -/
def frontier (mine : A → Bool) (op : A → Option (Op α)) (log : List A) : Option Nat :=
  log.foldl (fun bound x => frontierStep (mine x) bound (op x)) none

theorem frontier_concat (mine : A → Bool) (op : A → Option (Op α)) (log : List A) (x : A) :
    frontier mine op (log ++ [x]) = frontierStep (mine x) (frontier mine op log) (op x) := by
  simp [frontier]

theorem AgreeUpTo.own {bound : Option Nat} {o : Op α} {l₁ l₂ l₁' l₂' : List α}
    (h : AgreeUpTo bound l₁ l₂) (h₁ : o.apply l₁ = some l₁') (h₂ : o.apply l₂ = some l₂') :
    AgreeUpTo (bound.map o.shift) l₁' l₂' := by
  cases bound with
  | none =>
      obtain rfl : l₁ = l₂ := h
      exact Option.some.inj (h₁.symm.trans h₂)
  | some b => exact Op.take_shift h₁ h₂ h

theorem AgreeUpTo.foreign {bound : Option Nat} {o : Op α} {l₁ l₂ l₂' : List α}
    (h : AgreeUpTo bound l₁ l₂) (h₂ : o.apply l₂ = some l₂') :
    AgreeUpTo (frontierStep false bound (some o)) l₁ l₂' := by
  cases bound with
  | none =>
      obtain rfl : l₁ = l₂ := h
      exact (Op.take_apply h₂ (Nat.le_refl _)).symm
  | some b =>
      have hb : l₁.take b = l₂.take b := h
      change l₁.take (min b o.place) = l₂'.take (min b o.place)
      rw [Op.take_apply h₂ (Nat.min_le_right _ _)]
      exact take_eq_of_le hb (Nat.min_le_left _ _)

/-! ## Insertions only -/

/-- Every entry of the local copy stands in the shared one, at its position or further back. -/
def Lag (l₁ l₂ : List α) : Prop :=
  ∀ (q : Nat) (x : α), l₁[q]? = some x → ∃ r, q ≤ r ∧ l₂[r]? = some x

theorem Lag.refl (l : List α) : Lag l l :=
  fun q _ hx => ⟨q, Nat.le_refl q, hx⟩

/-- A foreign insertion moves entries of the shared copy back only. -/
theorem Lag.foreign {l₁ l₂ : List α} (h : Lag l₁ l₂) {i : Nat} {xs : List α}
    (hi : i ≤ l₂.length) : Lag l₁ (insertAt i xs l₂) := by
  intro q x hx
  rcases h q x hx with ⟨r, hqr, hr⟩
  rcases Nat.lt_or_ge r i with hlt | hge
  · exact ⟨r, hqr, by rw [getElem?_insertAt_of_lt hlt hi, hr]⟩
  · exact ⟨r + xs.length, by omega, by rw [getElem?_insertAt_add hge hi, hr]⟩

/-- An insertion at the same position of both copies keeps the distance. -/
theorem Lag.own {l₁ l₂ : List α} (h : Lag l₁ l₂) {i : Nat} {xs : List α}
    (hi₁ : i ≤ l₁.length) (hi₂ : i ≤ l₂.length) :
    Lag (insertAt i xs l₁) (insertAt i xs l₂) := by
  intro q x hx
  rcases Nat.lt_or_ge q i with hlt | hge
  · rw [getElem?_insertAt_of_lt hlt hi₁] at hx
    exact h.foreign hi₂ q x hx
  · rcases Nat.lt_or_ge q (i + xs.length) with hmid | hback
    · -- the entry is in the inserted segment
      have hq : i + (q - i) = q := by omega
      have hj : q - i < xs.length := by omega
      refine ⟨q, Nat.le_refl q, ?_⟩
      rw [← hq, getElem?_insertAt_mid hj hi₁] at hx
      rw [← hq, getElem?_insertAt_mid hj hi₂, hx]
    · have hq : q - xs.length + xs.length = q := by omega
      rw [← hq, getElem?_insertAt_add (by omega) hi₁] at hx
      rcases h _ x hx with ⟨r, hqr, hr⟩
      exact ⟨r + xs.length, by omega, by rw [getElem?_insertAt_add (by omega) hi₂, hr]⟩

/-! ## Copies under a log -/

section Copies

variable {step : List α → A → Option (List α)} {own : List α → A → List α → Prop}
  {mine : A → Bool} {op : A → Option (Op α)} {log : List A} {l₀ local' shared : List α}

/-- The copies agree up to the frontier of the log. -/
theorem agreeUpTo_frontier
    (hown : ∀ x ∈ log, ∀ l l' o, op x = some o → own l x l' → o.apply l = some l')
    (hstep : ∀ done x rest l l' o, log = done ++ x :: rest → replay step l₀ done = some l →
      op x = some o → step l x = some l' → o.apply l = some l')
    (hchain : Chain own l₀ (log.filter mine) local') (hreplay : replay step l₀ log = some shared) :
    AgreeUpTo (frontier mine op log) local' shared := by
  refine Chain.interleave (fun done l₁ l₂ => AgreeUpTo (frontier mine op done) l₁ l₂) rfl ?_ ?_
    hchain hreplay
  · intro done x rest l₁ l₁' l₂ l₂' hlog hdone hmine hagree hx₁ hx₂
    rw [frontier_concat, hmine]
    cases hop : op x with
    | none => exact (List.take_zero).trans (List.take_zero).symm
    | some o =>
        have hmem : x ∈ log := by simp [hlog]
        exact hagree.own (hown x hmem _ _ o hop hx₁) (hstep done x rest _ _ o hlog hdone hop hx₂)
  · intro done x rest l₁ l₂ l₂' hlog hdone hmine hagree hx₂
    rw [frontier_concat, hmine]
    cases hop : op x with
    | none => exact (List.take_zero).trans (List.take_zero).symm
    | some o => exact hagree.foreign (hstep done x rest _ _ o hlog hdone hop hx₂)

/-- When entries only insert, the shared copy only lags behind. -/
theorem lag_of_inserts (hinsert : ∀ x ∈ log, ∃ i xs, op x = some (.insert i xs))
    (hown : ∀ x ∈ log, ∀ l l' o, op x = some o → own l x l' → o.apply l = some l')
    (hstep : ∀ done x rest l l' o, log = done ++ x :: rest → replay step l₀ done = some l →
      op x = some o → step l x = some l' → o.apply l = some l')
    (hchain : Chain own l₀ (log.filter mine) local') (hreplay : replay step l₀ log = some shared) :
    Lag local' shared := by
  refine Chain.interleave (fun _ l₁ l₂ => Lag l₁ l₂) (Lag.refl l₀) ?_ ?_ hchain hreplay
  · intro done x rest l₁ l₁' l₂ l₂' hlog hdone hmine hlag hx₁ hx₂
    have hmem : x ∈ log := by simp [hlog]
    rcases hinsert x hmem with ⟨i, xs, hop⟩
    rcases Op.apply_insert.mp (hown x hmem _ _ _ hop hx₁) with ⟨hi₁, rfl⟩
    rcases Op.apply_insert.mp (hstep done x rest _ _ _ hlog hdone hop hx₂) with ⟨hi₂, rfl⟩
    exact hlag.own hi₁ hi₂
  · intro done x rest l₁ l₂ l₂' hlog hdone hmine hlag hx₂
    rcases hinsert x (by simp [hlog]) with ⟨i, xs, hop⟩
    rcases Op.apply_insert.mp (hstep done x rest _ _ _ hlog hdone hop hx₂) with ⟨hi₂, rfl⟩
    exact hlag.foreign hi₂

end Copies

end Splice
