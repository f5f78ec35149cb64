import Mathlib.Computability.DFA

/-!
# Longest accepted prefixes

A scanner for a code reads word after word and stops where no word continues.  As an automaton
it accepts in the state in which it started, so after an accepted prefix it goes on as from the
start, and what it has to find is the longest accepted prefix.

Main results:

- Theorem `Returns.mem_accepts_iff`: such an automaton accepts exactly the sequences of words of a
  code, if it accepts the words and every accepted list starts with one.
- Theorem `LongestPrefix.append`: an accepted list in front moves the longest prefix on.
- Theorem `LongestPrefix.extend`: what no accepted prefix reaches into changes nothing.
-/

namespace Scanning

variable {β σ τ : Type}

/-! ## Automata that return to their start -/

/-- The automaton accepts in its start state and nowhere else. -/
def Returns (M : DFA β σ) : Prop :=
  M.accept = {M.start}

variable {M : DFA β σ}

/-- What is accepted leads back to the first state. -/
theorem Returns.mem_accepts (h : Returns M) (w : List β) :
    w ∈ M.accepts ↔ M.eval w = M.start := by
  rw [M.mem_accepts, h, Set.mem_singleton_iff]

/-- The empty word is accepted. -/
theorem Returns.nil_mem (h : Returns M) : [] ∈ M.accepts := by
  rw [h.mem_accepts, M.eval_nil]

/-- After an accepted list the automaton goes on as from the start. -/
theorem Returns.append_mem_iff (h : Returns M) {u : List β} (hu : u ∈ M.accepts) (v : List β) :
    u ++ v ∈ M.accepts ↔ v ∈ M.accepts := by
  rw [h.mem_accepts] at hu
  rw [h.mem_accepts, h.mem_accepts, DFA.eval, M.evalFrom_of_append]
  change M.evalFrom (M.eval u) v = M.start ↔ M.evalFrom M.start v = M.start
  rw [hu]

variable {word : τ → List β}

/-- Words one behind the other are accepted. -/
theorem Returns.flatMap_mem (h : Returns M) (hwords : ∀ t, word t ∈ M.accepts) (ts : List τ) :
    ts.flatMap word ∈ M.accepts := by
  induction ts with
  | nil => exact h.nil_mem
  | cons t ts ih =>
      rw [List.flatMap_cons]
      exact (h.append_mem_iff (hwords t) _).mpr ih

/-- The automaton of a code: it accepts the words, and every accepted list starts with one. -/
theorem Returns.mem_accepts_iff (h : Returns M) (hwords : ∀ t, word t ∈ M.accepts)
    (hne : ∀ t, word t ≠ [])
    (hstarts : ∀ w ∈ M.accepts, w ≠ [] → ∃ t v, w = word t ++ v) (w : List β) :
    w ∈ M.accepts ↔ ∃ ts : List τ, w = ts.flatMap word := by
  constructor
  · intro hw
    -- every word is taken off the front
    induction hlen : w.length using Nat.strong_induction_on generalizing w with
    | h n ih =>
        by_cases hnil : w = []
        · exact ⟨[], by rw [hnil, List.flatMap_nil]⟩
        · rcases hstarts w hw hnil with ⟨t, v, rfl⟩
          have hv := (h.append_mem_iff (hwords t) v).mp hw
          have hpos := List.length_pos_of_ne_nil (hne t)
          rw [List.length_append] at hlen
          rcases ih v.length (by omega) v hv rfl with ⟨ts, rfl⟩
          exact ⟨t :: ts, by rw [List.flatMap_cons]⟩
  · rintro ⟨ts, rfl⟩
    exact h.flatMap_mem hwords ts

/-! ## The longest prefix -/

/-- The longest prefix of `w` that the language has is the one of length `n`. -/
structure LongestPrefix (L : Language β) (w : List β) (n : Nat) : Prop where
  le : n ≤ w.length
  mem : w.take n ∈ L
  longest : ∀ m ≤ w.length, w.take m ∈ L → m ≤ n

namespace LongestPrefix

variable {L : Language β} {w : List β} {n : Nat}

/-- The longest prefix of nothing. -/
theorem nil (hnil : [] ∈ L) : LongestPrefix L [] 0 where
  le := Nat.le_refl 0
  mem := hnil
  longest _ hm _ := hm

/-- There is one longest prefix. -/
theorem unique (h : LongestPrefix L w n) {n' : Nat} (h' : LongestPrefix L w n') : n = n' :=
  Nat.le_antisymm (h'.longest n h.le h.mem) (h.longest n' h'.le h'.mem)

/-- It is the whole list exactly if the language has the list. -/
theorem eq_length_iff (h : LongestPrefix L w n) : n = w.length ↔ w ∈ L := by
  constructor
  · rintro rfl
    have hmem := h.mem
    rwa [List.take_length] at hmem
  · intro hw
    refine Nat.le_antisymm h.le (h.longest w.length (Nat.le_refl _) ?_)
    rwa [List.take_length]

/-- A list in front that the language cancels moves the longest prefix on. -/
theorem append (h : LongestPrefix L w n) {u : List β} (hu : ∀ v, u ++ v ∈ L ↔ v ∈ L) :
    LongestPrefix L (u ++ w) (u.length + n) where
  le := by
    rw [List.length_append]
    exact Nat.add_le_add_left h.le _
  mem := by
    rw [List.take_length_add_append]
    exact (hu _).mpr h.mem
  longest m hm hmem := by
    rw [List.length_append] at hm
    by_cases hle : m ≤ u.length
    · exact hle.trans (Nat.le_add_right _ _)
    · obtain ⟨k, rfl⟩ := Nat.exists_eq_add_of_le (Nat.le_of_not_le hle)
      rw [List.take_length_add_append] at hmem
      exact Nat.add_le_add_left (h.longest k (by omega) ((hu _).mp hmem)) _

/-- More behind a list changes nothing if no prefix that reaches into it is in the language. -/
theorem extend (h : LongestPrefix L w n) {v : List β}
    (hv : ∀ m, 0 < m → m ≤ v.length → w ++ v.take m ∉ L) : LongestPrefix L (w ++ v) n where
  le := by
    rw [List.length_append]
    exact h.le.trans (Nat.le_add_right _ _)
  mem := by
    rw [List.take_append_of_le_length h.le]
    exact h.mem
  longest m hm hmem := by
    rw [List.length_append] at hm
    by_cases hle : m ≤ w.length
    · rw [List.take_append_of_le_length hle] at hmem
      exact h.longest m hle hmem
    · obtain ⟨k, rfl⟩ := Nat.exists_eq_add_of_le (Nat.le_of_not_le hle)
      rw [List.take_length_add_append] at hmem
      exact absurd hmem (hv k (by omega) (by omega))

/-- A list no prefix of which is in the language has that in common with its prefixes. -/
theorem of_append {u v : List β} (h : LongestPrefix L (u ++ v) 0) : LongestPrefix L u 0 where
  le := Nat.zero_le _
  mem := by
    have hmem := h.mem
    rwa [List.take_zero] at hmem
  longest m hm hmem := by
    apply h.longest m
    · rw [List.length_append]
      exact hm.trans (Nat.le_add_right _ _)
    · rwa [List.take_append_of_le_length hm]

/-- Behind the longest prefix no prefix of the rest is in a language that cancels it. -/
theorem rest (h : LongestPrefix L w n) (hcancel : ∀ v, w.take n ++ v ∈ L ↔ v ∈ L) :
    LongestPrefix L (w.drop n) 0 where
  le := Nat.zero_le _
  mem := by
    rw [List.take_zero, ← hcancel, List.append_nil]
    exact h.mem
  longest m hm hmem := by
    rw [List.length_drop] at hm
    rw [← hcancel, ← List.take_add] at hmem
    have hle := h.longest (n + m) (by have := h.le; omega) hmem
    omega

end LongestPrefix

end Scanning
