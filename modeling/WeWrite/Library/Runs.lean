import Mathlib.Data.List.Induction

/-!
# Guarded runs and replay of partial step functions

A system is a partial step function `step : σ → A → Option σ`; `none` says that the
action is not possible, or that it fails, in that state.  This module fixes the two
ways in which such a function is iterated and the induction rules that go with them.

Main results:

- Theorem `Run.invariant`: what holds at the start and is preserved by every guarded
  step holds after every guarded run.
- Theorem `Run.simulate`: a forward simulation carries runs to runs.
- Theorem `Run.lockstep`: its special case where both systems take the same actions.
- Theorem `Run.of_replay`: executing a list of actions yields a run.
- Theorem `Run.project`: the visible part of a run is a run of the system without hidden steps.
- Theorem `Run.expand`: a run is the visible part of one with hidden steps.
- Theorem `Run.length_add_measure`: a measure that every step takes one off counts the steps.
- Theorem `replay_take_succ`: replaying one more entry of a log is one more step.
- Theorem `Chain.interleave`: a relation between a local state that takes only its own
  entries and a shared state that takes all of them.
- Theorem `replay_invariant`: its special case without a local state.
-/

namespace Transition

variable {σ τ A B : Type*}

/-- What holds of every entry of a log and of one more entry holds of the longer log. -/
theorem forall_mem_concat {P : A → Prop} {log : List A} {a : A} (hlog : ∀ x ∈ log, P x)
    (ha : P a) : ∀ x ∈ log ++ [a], P x :=
  List.forall_mem_append.mpr ⟨hlog, List.forall_mem_singleton.mpr ha⟩

/-! ## Entries of a log with what came before them -/

/-- `P` holds of every entry of `log` with the part of the log in front of it. -/
def EachAfter (P : List A → A → Prop) (log : List A) : Prop :=
  ∀ done a, done ++ [a] <+: log → P done a

@[simp]
theorem eachAfter_nil (P : List A → A → Prop) : EachAfter P [] := by
  intro done a hpre
  exact absurd (List.prefix_nil.mp hpre) (by simp)

theorem eachAfter_concat {P : List A → A → Prop} {log : List A} {a : A} :
    EachAfter P (log ++ [a]) ↔ EachAfter P log ∧ P log a := by
  constructor
  · intro hall
    exact ⟨fun done b hpre => hall done b (hpre.trans (List.prefix_append log [a])),
      hall log a (List.prefix_refl _)⟩
  · rintro ⟨hlog, hlast⟩ done b hpre
    rcases List.prefix_concat_iff.mp hpre with heq | hpre
    · rcases List.append_inj' heq rfl with ⟨rfl, hb⟩
      obtain rfl : b = a := by simpa using hb
      exact hlast
    · exact hlog done b hpre

/-! ## Replay: the left fold of a partial step -/

/-- Apply the entries of `log` to `s` from left to right. -/
def replay (step : σ → A → Option σ) (s : σ) (log : List A) : Option σ :=
  log.foldlM step s

@[simp]
theorem replay_nil (step : σ → A → Option σ) (s : σ) : replay step s [] = some s :=
  rfl

@[simp]
theorem replay_cons (step : σ → A → Option σ) (s : σ) (a : A) (log : List A) :
    replay step s (a :: log) = (step s a).bind fun s' => replay step s' log :=
  rfl

theorem replay_append (step : σ → A → Option σ) (s : σ) (xs ys : List A) :
    replay step s (xs ++ ys) = (replay step s xs).bind fun s' => replay step s' ys := by
  induction xs generalizing s with
  | nil => rfl
  | cons a xs ih =>
      rw [List.cons_append, replay_cons, replay_cons, Option.bind_assoc]
      congr 1
      funext s'
      exact ih s'

theorem replay_concat (step : σ → A → Option σ) (s : σ) (xs : List A) (a : A) :
    replay step s (xs ++ [a]) = (replay step s xs).bind fun s' => step s' a := by
  rw [replay_append]
  congr 1
  funext s'
  simp

/-- Replaying a list that extends another passes through the state of the shorter one. -/
theorem exists_of_replay_append {step : σ → A → Option σ} {s s'' : σ} {xs ys : List A}
    (h : replay step s (xs ++ ys) = some s'') :
    ∃ s', replay step s xs = some s' ∧ replay step s' ys = some s'' := by
  rw [replay_append] at h
  exact Option.bind_eq_some_iff.mp h

/-- Replaying one more entry of a log is one more step. -/
theorem replay_take_succ {step : σ → A → Option σ} {s : σ} {log : List A} {n : Nat} {a : A}
    (ha : log[n]? = some a) :
    replay step s (log.take (n + 1)) =
      (replay step s (log.take n)).bind fun s' => step s' a := by
  have hn : n < log.length := by
    by_contra hlen
    rw [List.getElem?_eq_none (by omega)] at ha
    cases ha
  have htake : log.take (n + 1) = log.take n ++ [a] := by
    rw [List.take_add_one, ha]
    rfl
  rw [htake, replay_concat]

/-! ## Guarded runs -/

/-- `Run step ok s₀ as s`: from `s₀` the actions `as`, each allowed by `ok` in the state
in which it is taken, lead to `s`. -/
inductive Run (step : σ → A → Option σ) (ok : σ → A → Prop) (s₀ : σ) : List A → σ → Prop where
  | nil : Run step ok s₀ [] s₀
  | snoc {as : List A} {s s' : σ} {a : A} :
      Run step ok s₀ as s → ok s a → step s a = some s' → Run step ok s₀ (as ++ [a]) s'

/-- The guard that allows every action. -/
def anyAction : σ → A → Prop :=
  fun _ _ => True

variable {step : σ → A → Option σ} {ok ok' : σ → A → Prop} {s₀ s : σ} {as : List A}

/-- An invariant of the start that every guarded step preserves holds after every run. -/
theorem Run.invariant (I : σ → Prop) (hstart : I s₀)
    (hstep : ∀ s a s', I s → ok s a → step s a = some s' → I s')
    (hrun : Run step ok s₀ as s) : I s := by
  induction hrun with
  | nil => exact hstart
  | snoc _ hok hs ih => exact hstep _ _ _ ih hok hs

/-- A run under a guard is a run under every weaker guard. -/
theorem Run.mono (hok : ∀ s a, ok s a → ok' s a) (hrun : Run step ok s₀ as s) :
    Run step ok' s₀ as s := by
  induction hrun with
  | nil => exact .nil
  | snoc _ ha hs ih => exact .snoc ih (hok _ _ ha) hs

/-- Forgetting the guard. -/
theorem Run.any (hrun : Run step ok s₀ as s) : Run step anyAction s₀ as s :=
  hrun.mono fun _ _ _ => trivial

/-- Every action of a run is one of its list. -/
theorem Run.guard_mem (hrun : Run step ok s₀ as s) :
    Run step (fun s a => ok s a ∧ a ∈ as) s₀ as s := by
  induction hrun with
  | nil => exact .nil
  | snoc _ ha hs ih =>
      refine .snoc (ih.mono fun s b hb => ⟨hb.1, List.mem_append_left _ hb.2⟩) ⟨ha, ?_⟩ hs
      exact List.mem_append_right _ (List.mem_singleton.mpr rfl)

/-- What the guard says of each action holds of every action of a run. -/
theorem Run.forall_mem {P : A → Prop} (hok : ∀ s a, ok s a → P a) (hrun : Run step ok s₀ as s) :
    ∀ a ∈ as, P a := by
  induction hrun with
  | nil => simp
  | snoc _ ha _ ih => exact forall_mem_concat ih (hok _ _ ha)

/-- A run under a guard is a run under every guard that its steps meet as well. -/
theorem Run.of_step (hok : ∀ as s a s', Run step anyAction s₀ as s → step s a = some s' →
      ok s a → ok' s a) (hrun : Run step ok s₀ as s) : Run step ok' s₀ as s := by
  induction hrun with
  | nil => exact .nil
  | snoc hrun ha hs ih => exact .snoc ih (hok _ _ _ _ hrun.any hs ha) hs

/-- Two guards that agree on the steps of every run guard the same runs. -/
theorem Run.guard_iff (hok : ∀ as s a s', Run step anyAction s₀ as s → step s a = some s' →
      (ok s a ↔ ok' s a)) : Run step ok s₀ as s ↔ Run step ok' s₀ as s := by
  constructor
  · exact Run.of_step fun as s a s' hrun hs => (hok as s a s' hrun hs).mp
  · exact Run.of_step fun as s a s' hrun hs => (hok as s a s' hrun hs).mpr

/-- Runs compose. -/
theorem Run.append {s' : σ} {bs : List A} (hrun : Run step ok s₀ as s)
    (hrun' : Run step ok s bs s') : Run step ok s₀ (as ++ bs) s' := by
  induction hrun' with
  | nil => simpa using hrun
  | snoc _ ha hs ih =>
      rw [← List.append_assoc]
      exact .snoc ih ha hs

/-- The list of actions determines the state that a run reaches. -/
theorem Run.replay_eq (hrun : Run step ok s₀ as s) : replay step s₀ as = some s := by
  induction hrun with
  | nil => rfl
  | snoc _ _ hs ih => rw [replay_concat, ih, Option.bind_some, hs]

/-- Every initial part of a run is a run. -/
theorem Run.initial {xs ys : List A} (hrun : Run step ok s₀ (xs ++ ys) s) :
    ∃ s', Run step ok s₀ xs s' := by
  generalize has : xs ++ ys = as at hrun
  induction hrun generalizing ys with
  | nil =>
      rcases List.append_eq_nil_iff.mp has with ⟨rfl, -⟩
      exact ⟨s₀, .nil⟩
  | @snoc as s₁ s₂ a hrun ha hs ih =>
      rcases List.eq_nil_or_concat ys with rfl | ⟨ys', y, rfl⟩
      · rw [List.append_nil] at has
        exact ⟨s₂, has ▸ .snoc hrun ha hs⟩
      · rw [List.concat_eq_append, ← List.append_assoc] at has
        exact ih (List.append_inj' has rfl).1

/-- Two runs of the same actions reach the same state. -/
theorem Run.unique {s' : σ} (hrun : Run step ok s₀ as s) (hrun' : Run step ok' s₀ as s') :
    s = s' := by
  have heq : some s = some s' := by rw [← hrun.replay_eq, ← hrun'.replay_eq]
  exact Option.some.inj heq

/-- A guarded run with one more action is a guarded run and a guarded step. -/
theorem Run.concat_iff {s' : σ} {a : A} (hrun : Run step anyAction s₀ as s)
    (hs : step s a = some s') :
    Run step ok s₀ (as ++ [a]) s' ↔ Run step ok s₀ as s ∧ ok s a := by
  constructor
  · intro hconcat
    generalize has : as ++ [a] = bs at hconcat
    cases hconcat with
    | nil => simp at has
    | snoc hrun' ha' hs' =>
        rcases List.append_inj' has rfl with ⟨rfl, ha⟩
        obtain rfl : a = _ := by simpa using ha
        obtain rfl := hrun.unique hrun'
        exact ⟨hrun', ha'⟩
  · rintro ⟨hguarded, ha⟩
    exact .snoc hguarded ha hs

/-- Executing actions that the guard allows in every state yields a guarded run. -/
theorem Run.of_replay_of_forall (h : replay step s₀ as = some s) (hok : ∀ a ∈ as, ∀ s, ok s a) :
    Run step ok s₀ as s := by
  induction as using List.reverseRecOn generalizing s with
  | nil =>
      cases h
      exact .nil
  | append_singleton as a ih =>
      rw [replay_concat] at h
      rcases Option.bind_eq_some_iff.mp h with ⟨s₁, hs₁, hlast⟩
      have hrun := ih hs₁ fun b hb => hok b (List.mem_append_left _ hb)
      exact .snoc hrun (hok a (by simp) s₁) hlast

/-- Executing a list of actions yields a run. -/
theorem Run.of_replay (h : replay step s₀ as = some s) : Run step anyAction s₀ as s :=
  Run.of_replay_of_forall h fun _ _ _ => trivial

/-- Executing actions and testing the guard before each of them yields a guarded run. -/
theorem Run.of_guarded_replay [∀ s a, Decidable (ok s a)]
    (h : replay (fun s a => if ok s a then step s a else none) s₀ as = some s) :
    Run step ok s₀ as s := by
  induction as using List.reverseRecOn generalizing s with
  | nil =>
      cases h
      exact .nil
  | append_singleton as a ih =>
      rw [replay_concat] at h
      rcases Option.bind_eq_some_iff.mp h with ⟨s₁, hs₁, hlast⟩
      split_ifs at hlast with hok
      exact .snoc (ih hs₁) hok hlast

/-- A forward simulation carries every run of the one system to a run of the other. -/
theorem Run.simulate {step' : τ → B → Option τ} {ok₂ : τ → B → Prop} {t₀ : τ}
    (R : σ → τ → Prop) (hstart : R s₀ t₀)
    (hsim : ∀ s a s' t, R s t → ok s a → step s a = some s' →
      ∃ bs t', Run step' ok₂ t bs t' ∧ R s' t')
    (hrun : Run step ok s₀ as s) :
    ∃ bs t, Run step' ok₂ t₀ bs t ∧ R s t := by
  induction hrun with
  | nil => exact ⟨[], t₀, .nil, hstart⟩
  | snoc _ hok hs ih =>
      rcases ih with ⟨bs, t, hbs, hR⟩
      rcases hsim _ _ _ _ hR hok hs with ⟨cs, t', hcs, hR'⟩
      exact ⟨bs ++ cs, t', hbs.append hcs, hR'⟩

/-- A system that can take every guarded step of another one has its guarded runs. -/
theorem Run.lockstep {step' : τ → A → Option τ} {ok₂ : τ → A → Prop} {t₀ : τ} (R : σ → τ → Prop)
    (hstart : R s₀ t₀)
    (hstep : ∀ s a s' t, R s t → ok s a → step s a = some s' →
      ok₂ t a ∧ ∃ t', step' t a = some t' ∧ R s' t')
    (hrun : Run step ok s₀ as s) : ∃ t, Run step' ok₂ t₀ as t ∧ R s t := by
  induction hrun with
  | nil => exact ⟨t₀, .nil, hstart⟩
  | snoc _ hok hs ih =>
      rcases ih with ⟨t, hrun', hR⟩
      rcases hstep _ _ _ _ hR hok hs with ⟨hok', t', hs', hR'⟩
      exact ⟨t', .snoc hrun' hok' hs', hR'⟩

/-! ## Hidden steps -/

/-- A system whose visible steps are steps of another one, and whose hidden steps change nothing
there, has the visible part of each of its runs in common with it.  `P` may be needed of the
states on the way, if a state has it wherever the next one does. -/
theorem Run.project {step' : τ → B → Option τ} {ok₂ : τ → B → Prop} (f : σ → τ)
    (visible : A → Option B) (P : σ → Prop)
    (hback : ∀ as s a s', Run step ok s₀ as s → step s a = some s' → P s' → P s)
    (hstep : ∀ as s a s', Run step ok s₀ as s → ok s a → step s a = some s' → P s' →
      visible a = none ∧ f s' = f s ∨
        ∃ b, visible a = some b ∧ ok₂ (f s) b ∧ step' (f s) b = some (f s'))
    (hrun : Run step ok s₀ as s) (hP : P s) :
    Run step' ok₂ (f s₀) (as.filterMap visible) (f s) := by
  induction hrun with
  | nil => exact .nil
  | snoc hrun hok hs ih =>
      have ih := ih (hback _ _ _ _ hrun hs hP)
      rw [List.filterMap_append]
      rcases hstep _ _ _ _ hrun hok hs hP with ⟨hhidden, hsame⟩ | ⟨b, hb, hok', hs'⟩
      · rw [List.filterMap_cons_none hhidden, List.filterMap_nil, List.append_nil, hsame]
        exact ih
      · rw [List.filterMap_cons_some hb, List.filterMap_nil]
        exact .snoc ih hok' hs'

/-- A system that can follow every step of another one, with hidden steps around it, has a run for
each of its runs. -/
theorem Run.expand {step' : τ → B → Option τ} {ok₂ : τ → B → Prop} {t₀ t : τ} {bs : List B}
    (R : τ → σ → Prop) (visible : A → Option B) (hstart : R t₀ s₀)
    (hstep : ∀ t b t' s, R t s → ok₂ t b → step' t b = some t' →
      ∃ as s', Run step ok s as s' ∧ as.filterMap visible = [b] ∧ R t' s')
    (hrun : Run step' ok₂ t₀ bs t) :
    ∃ as s, Run step ok s₀ as s ∧ as.filterMap visible = bs ∧ R t s := by
  induction hrun with
  | nil => exact ⟨[], s₀, .nil, rfl, hstart⟩
  | snoc _ hok hs ih =>
      rcases ih with ⟨as, s, has, hbs, hR⟩
      rcases hstep _ _ _ _ hR hok hs with ⟨cs, s', hcs, hb, hR'⟩
      exact ⟨as ++ cs, s', has.append hcs, by rw [List.filterMap_append, hbs, hb], hR'⟩

/-! ## Runs that use up a measure -/

/-- When every guarded step takes one off a measure, the measure counts the steps that are left. -/
theorem Run.length_add_measure (I : σ → Prop) (m : σ → Nat) (hstart : I s₀)
    (hstep : ∀ s a s', I s → ok s a → step s a = some s' → I s' ∧ m s = m s' + 1)
    (hrun : Run step ok s₀ as s) : I s ∧ as.length + m s = m s₀ := by
  induction hrun with
  | nil => exact ⟨hstart, Nat.zero_add _⟩
  | snoc _ hok hs ih =>
      rcases ih with ⟨hI, hlength⟩
      rcases hstep _ _ _ hI hok hs with ⟨hI', hm⟩
      refine ⟨hI', ?_⟩
      rw [List.length_append, List.length_singleton]
      omega

/-- When every guarded step takes one off a measure, some run ends where no step is left. -/
theorem exists_maximal_run (I : σ → Prop) (m : σ → Nat) (hstart : I s₀)
    (hstep : ∀ s a s', I s → ok s a → step s a = some s' → I s' ∧ m s = m s' + 1) :
    ∃ as s, Run step ok s₀ as s ∧ ∀ a, ok s a → step s a = none := by
  induction hm : m s₀ generalizing s₀ with
  | zero =>
      refine ⟨[], s₀, .nil, ?_⟩
      intro a hok
      cases hs : step s₀ a with
      | none => rfl
      | some s' =>
          have hdrop := (hstep s₀ a s' hstart hok hs).2
          omega
  | succ k ih =>
      by_cases hstuck : ∀ a, ok s₀ a → step s₀ a = none
      · exact ⟨[], s₀, .nil, hstuck⟩
      · push Not at hstuck
        rcases hstuck with ⟨a, hok, hne⟩
        rcases Option.ne_none_iff_exists'.mp hne with ⟨s₁, hs⟩
        rcases hstep s₀ a s₁ hstart hok hs with ⟨hI, hdrop⟩
        rcases ih hI (by omega) with ⟨as, s, hrun, hlast⟩
        exact ⟨[] ++ [a] ++ as, s, (Run.nil.snoc hok hs).append hrun, hlast⟩

/-! ## A local state beside a shared one -/

/-- `Chain own t log t'`: the entries of `log`, taken one after the other by the relation
`own`, lead from `t` to `t'`. -/
def Chain (own : τ → A → τ → Prop) : τ → List A → τ → Prop
  | t, [], t' => t = t'
  | t, x :: xs, t' => ∃ t₁, own t x t₁ ∧ Chain own t₁ xs t'

@[simp]
theorem chain_nil (own : τ → A → τ → Prop) (t t' : τ) : Chain own t [] t' ↔ t = t' :=
  Iff.rfl

/-- A chain over a concatenation passes through a state between its two parts. -/
theorem chain_append {own : τ → A → τ → Prop} {t t' : τ} {xs ys : List A} :
    Chain own t (xs ++ ys) t' ↔ ∃ t₁, Chain own t xs t₁ ∧ Chain own t₁ ys t' := by
  induction xs generalizing t with
  | nil => simp
  | cons x xs ih =>
      simp only [List.cons_append, Chain, ih]
      constructor
      · rintro ⟨t₁, hx, t₂, hxs, hys⟩
        exact ⟨t₂, ⟨t₁, hx, hxs⟩, hys⟩
      · rintro ⟨t₂, ⟨t₁, hx, hxs⟩, hys⟩
        exact ⟨t₁, hx, t₂, hxs, hys⟩

@[simp]
theorem chain_singleton {own : τ → A → τ → Prop} {t t' : τ} {x : A} :
    Chain own t [x] t' ↔ own t x t' := by
  simp [Chain]

/-- A chain of a functional relation has one end. -/
theorem Chain.unique {own : τ → A → τ → Prop}
    (hown : ∀ t x t₁ t₂, own t x t₁ → own t x t₂ → t₁ = t₂) {t t₁ t₂ : τ} {log : List A}
    (h₁ : Chain own t log t₁) (h₂ : Chain own t log t₂) : t₁ = t₂ := by
  induction log generalizing t with
  | nil => exact h₁.symm.trans h₂
  | cons x xs ih =>
      rcases h₁ with ⟨u₁, hx₁, hxs₁⟩
      rcases h₂ with ⟨u₂, hx₂, hxs₂⟩
      obtain rfl := hown t x u₁ u₂ hx₁ hx₂
      exact ih hxs₁ hxs₂

/-- A local state takes only its own entries of a log, a shared state takes all of them.
A relation between the two that survives an own entry taken by both and a foreign entry
taken by the shared state alone holds at the end.  The relation may speak about the part
of the log that has been taken. -/
theorem Chain.interleave {step : σ → A → Option σ} {own : τ → A → τ → Prop} {mine : A → Bool}
    {log : List A} {s₀ s : σ} {t₀ t : τ} (Rel : List A → τ → σ → Prop)
    (hstart : Rel [] t₀ s₀)
    (hmine : ∀ done x rest t t' s s', log = done ++ x :: rest → replay step s₀ done = some s →
      mine x = true → Rel done t s → own t x t' → step s x = some s' → Rel (done ++ [x]) t' s')
    (hother : ∀ done x rest t s s', log = done ++ x :: rest → replay step s₀ done = some s →
      mine x = false → Rel done t s → step s x = some s' → Rel (done ++ [x]) t s')
    (hchain : Chain own t₀ (log.filter mine) t) (hreplay : replay step s₀ log = some s) :
    Rel log t s := by
  -- the induction follows the log from its end, so that what was taken is an initial part
  have key : ∀ done rest t s, log = done ++ rest → Chain own t₀ (done.filter mine) t →
      replay step s₀ done = some s → Rel done t s := by
    intro done
    induction done using List.reverseRecOn with
    | nil =>
        intro rest t s _ hc hr
        cases hr
        obtain rfl : t₀ = t := by simpa using hc
        exact hstart
    | append_singleton done x ih =>
        intro rest t s hlog hc hr
        have hlog' : log = done ++ x :: rest := by simpa using hlog
        rcases exists_of_replay_append hr with ⟨s₁, hs₁, hlast⟩
        have hstep : step s₁ x = some s := by simpa using hlast
        rw [List.filter_append, chain_append] at hc
        rcases hc with ⟨t₁, ht₁, hx₁⟩
        have hrel : Rel done t₁ s₁ := ih (x :: rest) t₁ s₁ hlog' ht₁ hs₁
        cases hx : mine x with
        | true =>
            have hown : own t₁ x t := by simpa [hx] using hx₁
            exact hmine done x rest t₁ t s₁ s hlog' hs₁ hx hrel hown hstep
        | false =>
            obtain rfl : t₁ = t := by simpa [hx] using hx₁
            exact hother done x rest t₁ s₁ s hlog' hs₁ hx hrel hstep
  exact key log [] t s (by simp) hchain hreplay

/-- What each step of a replay preserves, knowing what has been replayed, holds at its end. -/
theorem replay_invariant {step : σ → A → Option σ} {log : List A} {s₀ s : σ}
    (P : List A → σ → Prop) (hstart : P [] s₀)
    (hstep : ∀ done x rest s s', log = done ++ x :: rest → replay step s₀ done = some s →
      P done s → step s x = some s' → P (done ++ [x]) s')
    (hreplay : replay step s₀ log = some s) : P log s := by
  have hnone : log.filter (fun _ => false) = [] := List.filter_eq_nil_iff.mpr (by simp)
  have hchain : Chain (fun (_ : Unit) (_ : A) (_ : Unit) => False) ()
      (log.filter fun _ => false) () := by rw [hnone, chain_nil]
  refine Chain.interleave (fun done _ s => P done s) hstart ?_ ?_ hchain hreplay
  · intro done x rest t t' s s' _ _ hmine
    cases hmine
  · intro done x rest t s s' hlog hdone _ hP hs
    exact hstep done x rest s s' hlog hdone hP hs

end Transition
