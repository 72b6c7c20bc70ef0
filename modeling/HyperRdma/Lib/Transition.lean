import Mathlib.Data.List.Basic
import Mathlib.Tactic.Common

/-!
# Guarded runs of a labelled transition system

A system is a partial step function: at most one successor for each label, and
none where the label is not enabled. `Reach` closes the initial states under
the enabled steps which a guard admits. The guard `fun _ _ => True` gives the
states of all runs; any other guard restricts a run step by step, by a
condition on the state before the step.
-/

namespace HyperRdma.Transition

variable {σ τ ι κ : Type*}

/-- The states on runs from `init` whose every step meets the guard `ok`. -/
inductive Reach (step : ι → σ → Option σ) (ok : σ → ι → Prop) (init : σ → Prop) : σ → Prop
  | start {s} (h : init s) : Reach step ok init s
  | next {s i s'} (run : Reach step ok init s) (g : ok s i) (h : step i s = some s') :
      Reach step ok init s'

/-- The guard that admits every step. -/
def free : σ → ι → Prop := fun _ _ => True

variable {step : ι → σ → Option σ} {ok : σ → ι → Prop} {init : σ → Prop}

/-- What holds initially and is preserved by every admitted step holds of the whole run. -/
theorem Reach.invariant {P : σ → Prop} (hinit : ∀ s, init s → P s)
    (hstep : ∀ s i s', P s → ok s i → step i s = some s' → P s')
    {s : σ} (run : Reach step ok init s) : P s := by
  induction run with
  | start h => exact hinit _ h
  | next _ g h ih => exact hstep _ _ _ ih g h

/-- The invariant rule, with facts already known of every state of the run. -/
theorem Reach.invariant_of {P Q : σ → Prop} (known : ∀ s, Reach step ok init s → Q s)
    (hinit : ∀ s, init s → P s)
    (hstep : ∀ s i s', Q s → Q s' → P s → ok s i → step i s = some s' → P s')
    {s : σ} (run : Reach step ok init s) : P s := by
  induction run with
  | start h => exact hinit _ h
  | next run g h ih => exact hstep _ _ _ (known _ run) (known _ (run.next g h)) ih g h

/-- Runs with a stronger guard, or fewer initial states, are runs. -/
theorem Reach.mono {ok' : σ → ι → Prop} {init' : σ → Prop}
    (hok : ∀ s i, ok s i → ok' s i) (hinit : ∀ s, init s → init' s)
    {s : σ} (run : Reach step ok init s) : Reach step ok' init' s := by
  induction run with
  | start h => exact .start (hinit _ h)
  | next _ g h ih => exact ih.next (hok _ _ g) h

/-- A guard may use what is known of every state of the run. -/
theorem Reach.strengthen {ok' : σ → ι → Prop} {Q : σ → Prop}
    (known : ∀ s, Reach step ok init s → Q s) (hok : ∀ s i, Q s → ok s i → ok' s i)
    {s : σ} (run : Reach step ok init s) : Reach step ok' init s := by
  induction run with
  | start h => exact .start h
  | next run g h ih => exact ih.next (hok _ _ (known _ run) g) h

/-- Runs compose. -/
theorem Reach.trans {s₁ s : σ} (run₁ : Reach step ok init s₁) (run : Reach step ok (· = s₁) s) :
    Reach step ok init s := by
  induction run with
  | start h => exact h ▸ run₁
  | next _ g h ih => exact ih.next g h

/-- Every run starts in one initial state. -/
theorem Reach.origin {s : σ} (run : Reach step ok init s) :
    ∃ s₀, init s₀ ∧ Reach step ok (· = s₀) s := by
  induction run with
  | @start s h => exact ⟨s, h, .start rfl⟩
  | next _ g h ih =>
      obtain ⟨s₀, h₀, run⟩ := ih
      exact ⟨s₀, h₀, run.next g h⟩

/-- If wherever the goal is missed some admitted step lowers a rank, the goal can be reached
from every state of a run. -/
theorem Reach.eventually {goal : σ → Prop} (rank : σ → ℕ)
    (hstep : ∀ s, Reach step ok init s → ¬goal s →
      ∃ i s', ok s i ∧ step i s = some s' ∧ rank s' < rank s)
    {s : σ} (run : Reach step ok init s) : ∃ t, Reach step ok (· = s) t ∧ goal t := by
  induction hr : rank s using Nat.strongRecOn generalizing s with
  | ind n ih =>
      by_cases hgoal : goal s
      · exact ⟨s, .start rfl, hgoal⟩
      obtain ⟨i, u, g, hu, hlt⟩ := hstep s run hgoal
      obtain ⟨t, ht, hgoal'⟩ := ih (rank u) (hr ▸ hlt) (run.next g hu) rfl
      have first : Reach step ok (· = s) u := .next (.start rfl) g hu
      exact ⟨t, first.trans ht, hgoal'⟩

/-- No admitted step changes the state. -/
def Stuck (step : ι → σ → Option σ) (ok : σ → ι → Prop) (s : σ) : Prop :=
  ∀ i s', ok s i → step i s = some s' → s' = s

theorem Stuck.eq_of_reach {s t : σ} (h : Stuck step ok s) (run : Reach step ok (· = s) t) :
    t = s := by
  induction run with
  | start ht => exact ht
  | next _ g hs ih =>
      subst ih
      exact h _ _ g hs

/-- Forward simulation: if each admitted step is matched by no step or by one admitted
step of another system, the image of a run is a run there. -/
theorem Reach.simulate {step' : κ → τ → Option τ} {ok' : τ → κ → Prop} {init' : τ → Prop}
    (f : σ → τ) (hinit : ∀ s, init s → init' (f s))
    (hstep : ∀ s i s', ok s i → step i s = some s' →
      f s' = f s ∨ ∃ k, ok' (f s) k ∧ step' k (f s) = some (f s'))
    {s : σ} (run : Reach step ok init s) : Reach step' ok' init' (f s) := by
  induction run with
  | start h => exact .start (hinit _ h)
  | @next s i s' _ g h ih =>
      rcases hstep s i s' g h with heq | ⟨k, gk, hk⟩
      · exact heq ▸ ih
      · exact ih.next gk hk

/-- The run along a list of labels, each of which has to be enabled. -/
def exec (step : ι → σ → Option σ) : List ι → σ → Option σ
  | [], s => some s
  | i :: is, s => (step i s).bind (exec step is)

/-- Where each of the chosen labels lowers a rank, a run along such labels is no longer than the
rank it begins with. -/
theorem exec_length_le {P : σ → Prop} {g : ι → Bool} (rank : σ → ℕ)
    (hstep : ∀ s i s', P s → g i = true → step i s = some s' → P s' ∧ rank s' < rank s)
    {is : List ι} {s t : σ} (hs : P s) (his : ∀ i ∈ is, g i = true)
    (h : exec step is s = some t) : P t ∧ is.length + rank t ≤ rank s := by
  induction is generalizing s with
  | nil =>
      obtain rfl := Option.some.inj h
      exact ⟨hs, by simp⟩
  | cons i is ih =>
      obtain ⟨u, hu, ht⟩ := Option.bind_eq_some_iff.mp h
      obtain ⟨hu', hlt⟩ := hstep s i u hs (his i (by simp)) hu
      obtain ⟨ht', hle⟩ := ih hu' (fun j hj => his j (by simp [hj])) ht
      refine ⟨ht', ?_⟩
      rw [List.length_cons]
      omega

/-- None of the chosen labels is enabled. -/
def Halted (step : ι → σ → Option σ) (g : ι → Bool) (s : σ) : Prop :=
  ∀ i, g i = true → step i s = none

/-- There some run along such labels comes to a halt. -/
theorem exec_halts {P : σ → Prop} {g : ι → Bool} (rank : σ → ℕ)
    (hstep : ∀ s i s', P s → g i = true → step i s = some s' → P s' ∧ rank s' < rank s)
    {s : σ} (hs : P s) :
    ∃ is t, (∀ i ∈ is, g i = true) ∧ exec step is s = some t ∧ Halted step g t := by
  induction hr : rank s using Nat.strongRecOn generalizing s with
  | ind n ih =>
      by_cases hhalt : Halted step g s
      · exact ⟨[], s, by simp, rfl, hhalt⟩
      obtain ⟨i, hi, hne⟩ : ∃ i, g i = true ∧ step i s ≠ none := by
        simpa [Halted] using hhalt
      obtain ⟨u, hu⟩ := Option.ne_none_iff_exists'.mp hne
      obtain ⟨hu', hlt⟩ := hstep s i u hs hi hu
      obtain ⟨is, t, his, ht, hhalt'⟩ := ih (rank u) (hr ▸ hlt) hu' rfl
      refine ⟨i :: is, t, ?_, ?_, hhalt'⟩
      · intro j hj
        rcases List.mem_cons.mp hj with rfl | hj
        · exact hi
        · exact his j hj
      · rw [exec, hu]
        exact ht

/-- The run along a list of labels in which a label that is not enabled changes nothing. -/
def drive (step : ι → σ → Option σ) : List ι → σ → σ
  | [], s => s
  | i :: is, s => drive step is ((step i s).getD s)

/-- The steps which a computable guard admits. -/
def restrict (g : σ → ι → Bool) (step : ι → σ → Option σ) (i : ι) (s : σ) : Option σ :=
  if g s i then step i s else none

/-- Executing a list of labels, each admitted by the guard, leads to a state on a run. -/
theorem Reach.exec_any {s : σ} (g : σ → ι → Bool) (p : σ → Bool) (is : List ι)
    (run : Reach step ok init s) (hg : ∀ s i, g s i = true → ok s i)
    (h : (exec (restrict g step) is s).any p = true) :
    ∃ t, Reach step ok init t ∧ p t = true := by
  induction is generalizing s with
  | nil => exact ⟨s, run, h⟩
  | cons i is ih =>
      simp only [exec, restrict] at h
      split at h
      next hi =>
        cases hs : step i s with
        | none => simp [hs] at h
        | some u =>
            simp only [hs, Option.bind_some] at h
            exact ih (run.next (hg s i hi) hs) h
      · simp at h

/-- A list of labels, all of them admitted in every state, carries a run on. -/
theorem Reach.exec {s t : σ} (run : Reach step ok init s) (is : List ι)
    (hok : ∀ i ∈ is, ∀ s, ok s i) (h : exec step is s = some t) : Reach step ok init t := by
  induction is generalizing s with
  | nil =>
      obtain rfl := Option.some.inj h
      exact run
  | cons i is ih =>
      obtain ⟨u, hu, ht⟩ := Option.bind_eq_some_iff.mp h
      exact ih (run.next (hok i (by simp) s) hu) (fun j hj => hok j (by simp [hj])) ht

/-- Every state along a driven run is reachable, by the steps the guard admits. -/
theorem Reach.drive {s : σ} (g : σ → ι → Bool) (is : List ι) (run : Reach step ok init s)
    (hg : ∀ s i, g s i = true → ok s i) :
    Reach step ok init (drive (restrict g step) is s) := by
  induction is generalizing s with
  | nil => exact run
  | cons i is ih =>
      simp only [Transition.drive]
      cases h : restrict g step i s with
      | none => exact ih run
      | some t =>
          simp only [restrict, Option.ite_none_right_eq_some] at h
          exact ih (run.next (hg s i h.1) h.2)

/-- The system with a history: `note` says what each step adds to it. -/
def recorded {α : Type*} (step : ι → σ → Option σ) (note : σ → ι → List α) (i : ι)
    (p : σ × List α) : Option (σ × List α) :=
  (step i p.1).map fun s => (s, p.2 ++ note p.1 i)

section Recorded

variable {α β : Type*} {note : σ → ι → List α} {ok : σ × List α → ι → Prop}
  {init : σ × List α → Prop} {p : σ × List α}

/-- A run with a history whose steps keep a property, and with it a reading of the state, ends
with the reading it began with. -/
theorem Reach.recorded_stays {P : σ → Prop} {f : σ → β} {q : σ × List α}
    (hstep : ∀ p i s', P p.1 → ok p i → step i p.1 = some s' → P s' ∧ f s' = f p.1)
    (hp : P p.1) (run : Reach (recorded step note) ok (· = p) q) :
    P q.1 ∧ f q.1 = f p.1 := by
  refine run.invariant (P := fun q => P q.1 ∧ f q.1 = f p.1) ?_ ?_
  · rintro _ rfl
    exact ⟨hp, rfl⟩
  · intro q i q' ⟨hq, hget⟩ g h
    obtain ⟨s', hs, rfl⟩ := Option.map_eq_some_iff.mp h
    obtain ⟨hs', hget'⟩ := hstep q i s' hq g hs
    exact ⟨hs', hget'.trans hget⟩

/-- What each step changes by what it adds to the history is the fold of the history. -/
theorem Reach.recorded_fold {get : σ → β} {f : β → α → β} {b : β}
    (hinit : ∀ p, init p → get p.1 = b ∧ p.2 = [])
    (hstep : ∀ i s s', step i s = some s' → get s' = (note s i).foldl f (get s))
    (run : Reach (recorded step note) ok init p) : get p.1 = p.2.foldl f b := by
  refine run.invariant (P := fun p => get p.1 = p.2.foldl f b) ?_ ?_
  · intro p hp
    obtain ⟨hb, hnil⟩ := hinit p hp
    rw [hb, hnil]
    rfl
  · intro p i p' ih _ h
    obtain ⟨s', hs, rfl⟩ := Option.map_eq_some_iff.mp h
    rw [hstep i p.1 s' hs, ih, List.foldl_append]

/-- What holds after each step that adds a marked item, and is kept by all, holds from the first
marked item on. -/
theorem Reach.recorded_since {Q : σ → Prop} {marked : α → Bool}
    (hinit : ∀ p, init p → p.2 = [])
    (hkeep : ∀ i s s', step i s = some s' → Q s → Q s')
    (hmark : ∀ p i s', ok p i → step i p.1 = some s' → (note p.1 i).any marked = true → Q s')
    (run : Reach (recorded step note) ok init p) (h : p.2.any marked = true) : Q p.1 := by
  refine run.invariant (P := fun p => p.2.any marked = true → Q p.1) ?_ ?_ h
  · intro p hp hany
    rw [hinit p hp] at hany
    cases hany
  · intro p i p' ih g h hany
    obtain ⟨s', hs, rfl⟩ := Option.map_eq_some_iff.mp h
    rw [List.any_append, Bool.or_eq_true] at hany
    rcases hany with hany | hany
    · exact hkeep i p.1 s' hs (ih hany)
    · exact hmark p i s' g hs hany

end Recorded

/-- Two copies of the system under one label; a copy in which it is not enabled stays. -/
def paired (step : ι → σ → Option σ) (i : ι) (p : σ × σ) : Option (σ × σ) :=
  some ((step i p.1).getD p.1, (step i p.2).getD p.2)

theorem Reach.paired_fst {ok' : σ × σ → ι → Prop} {s t : σ} (hok : ∀ p i, ok' p i → ok p.1 i)
    {p : σ × σ} (run : Reach (paired step) ok' (· = (s, t)) p) : Reach step ok (· = s) p.1 := by
  refine run.simulate Prod.fst ?_ ?_
  · rintro _ rfl
    rfl
  intro p i p' g h
  obtain rfl := Option.some.inj h
  cases hs : step i p.1 with
  | none => exact .inl (by simp)
  | some s' => exact .inr ⟨i, hok p i g, by simpa using hs⟩

theorem Reach.paired_snd {ok' : σ × σ → ι → Prop} {s t : σ} (hok : ∀ p i, ok' p i → ok p.2 i)
    {p : σ × σ} (run : Reach (paired step) ok' (· = (s, t)) p) : Reach step ok (· = t) p.2 := by
  refine run.simulate Prod.snd ?_ ?_
  · rintro _ rfl
    rfl
  intro p i p' g h
  obtain rfl := Option.some.inj h
  cases hs : step i p.2 with
  | none => exact .inl (by simp)
  | some s' => exact .inr ⟨i, hok p i g, by simpa using hs⟩

/-- Two runs under the same labels keep a relation which every admitted pair of steps keeps. -/
theorem Reach.related {ok' : σ × σ → ι → Prop} {R : σ → σ → Prop} {s t : σ} (h : R s t)
    (hstep : ∀ i p, Reach (paired step) ok' (· = (s, t)) p → R p.1 p.2 → ok' p i →
      Option.Rel R (step i p.1) (step i p.2))
    {p : σ × σ} (run : Reach (paired step) ok' (· = (s, t)) p) : R p.1 p.2 := by
  induction run with
  | start h₀ =>
      rw [h₀]
      exact h
  | @next p i p' run g hp ih =>
      obtain rfl := Option.some.inj hp
      have hrel := hstep i p run ih g
      cases h₁ : step i p.1 with
      | none =>
          rw [h₁] at hrel
          cases h₂ : step i p.2 with
          | none => exact ih
          | some t' =>
              rw [h₂] at hrel
              cases hrel
      | some s' =>
          rw [h₁] at hrel
          cases h₂ : step i p.2 with
          | none =>
              rw [h₂] at hrel
              cases hrel
          | some t' =>
              rw [h₂] at hrel
              cases hrel with
              | some hr => exact hr

/-! ## Related outcomes -/

variable {α β γ δ : Type*} {R : α → β → Prop} {S : γ → δ → Prop}

theorem rel_bind {o : Option α} {p : Option β} {f : α → Option γ} {g : β → Option δ}
    (h : Option.Rel R o p) (hfg : ∀ a b, R a b → Option.Rel S (f a) (g b)) :
    Option.Rel S (o.bind f) (p.bind g) := by
  cases h with
  | none => exact .none
  | some hab => exact hfg _ _ hab

/-- What follows from two related outcomes, by cases on both at once. -/
@[elab_as_elim]
theorem rel_cases {M : Option α → Option β → Prop} {o : Option α} {p : Option β}
    (h : Option.Rel R o p) (none : M none none) (some : ∀ a b, R a b → M (some a) (some b)) :
    M o p := by
  cases h with
  | none => exact none
  | some hab => exact some _ _ hab

theorem rel_map {o : Option α} {p : Option β} {f : α → γ} {g : β → δ} (h : Option.Rel R o p)
    (hfg : ∀ a b, R a b → S (f a) (g b)) : Option.Rel S (o.map f) (p.map g) := by
  cases h with
  | none => exact .none
  | some hab => exact .some (hfg _ _ hab)

end HyperRdma.Transition
