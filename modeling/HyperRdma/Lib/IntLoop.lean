import Mathlib.Algebra.Order.Ring.Int
import Mathlib.Tactic.Common
import Mathlib.Tactic.Ring

/-!
# Counting loops with a signed counter and an unsigned bound

`for (int i = 0; i < n; i++)` with an unsigned `n` of the same width converts the
counter for the comparison, while the increment is the signed one: it is
undefined at the largest value of the type. The loop ends by its condition
exactly when the bound does not exceed that value.
-/

namespace HyperRdma.IntLoop

variable {σ : Type*}

/-- A loop before a test of its condition, past its end, or stopped by an increment that left
the counter's type; `used` records the counter in each round so far. -/
inductive Loop (σ : Type*)
  | test (i : Int) (used : List Int) (s : σ)
  | done (used : List Int) (s : σ)
  | overflow (used : List Int) (s : σ)

/-- The counter values with which the body has run. -/
def Loop.used : Loop σ → List Int
  | .test _ used _ | .done used _ | .overflow used _ => used

/-- The increment has left the counter's type. -/
def Loop.overflowed : Loop σ → Prop
  | .overflow _ _ => True
  | _ => False

/-- The largest value of a signed type of `w` bits. -/
def intMax (w : Nat) : Int := 2 ^ (w - 1) - 1

/-- One round: test, body and increment. -/
def step (w n : Nat) (body : Int → σ → σ) : Loop σ → Loop σ
  | .test i used s =>
      if i % 2 ^ w < n then
        if i < intMax w then .test (i + 1) (used ++ [i]) (body i s)
        else .overflow (used ++ [i]) (body i s)
      else .done used s
  | l => l

/-- The loop after `k` rounds. -/
def run (w n : Nat) (body : Int → σ → σ) : Nat → Loop σ → Loop σ
  | 0, l => l
  | k + 1, l => step w n body (run w n body k l)

/-- The effect of the rounds `0` to `k - 1`. -/
def rounds (body : Int → σ → σ) (s : σ) : Nat → σ
  | 0 => s
  | k + 1 => body k (rounds body s k)

/-- The counter values `0` to `k - 1`. -/
def counters (k : Nat) : List Int := (List.range k).map Int.ofNat

/-- What is asked of a loop: the counter keeps to its type, the body runs with counters below
the bound alone, and the loop ends in a state with a property. -/
structure Counts (w n : Nat) (body : Int → σ → σ) (s : σ) (result : σ → Prop) : Prop where
  stays : ∀ k, ¬ (run w n body k (.test 0 [] s)).overflowed
  indices : ∀ k, ∀ i ∈ (run w n body k (.test 0 [] s)).used, 0 ≤ i ∧ i < n
  ends : ∃ k used s', run w n body k (.test 0 [] s) = .done used s' ∧ result s'

variable {w n : Nat} {body : Int → σ → σ} {s : σ}

theorem counters_succ (k : Nat) : counters (k + 1) = counters k ++ [(k : Int)] := by
  simp [counters, List.range_succ]

theorem mem_counters {k : Nat} {i : Int} (h : i ∈ counters k) : 0 ≤ i ∧ i < k := by
  obtain ⟨j, hj, rfl⟩ := List.mem_map.mp h
  have hlt := List.mem_range.mp hj
  exact ⟨Int.natCast_nonneg j, by simpa using hlt⟩

/-- A counter of the signed type converts to itself. -/
theorem emod_eq_of_le_intMax {k : Nat} (h : (k : Int) ≤ intMax w) : (k : Int) % 2 ^ w = k := by
  have hpow : (2 : Int) ^ (w - 1) ≤ 2 ^ w := by
    gcongr
    · norm_num
    · omega
  apply Int.emod_eq_of_lt
  · omega
  · simp only [intMax] at h
    omega

/-- While the counter is at most the bound and in its type, one round has run for each of its
values. -/
theorem run_eq_test {k : Nat} (hn : k ≤ n) (hk : (k : Int) ≤ intMax w) :
    run w n body k (.test 0 [] s) = .test k (counters k) (rounds body s k) := by
  induction k with
  | zero => rfl
  | succ k ih =>
      have hlt : (k : Int) < intMax w := by
        rw [Nat.cast_succ] at hk
        omega
      have hmod := emod_eq_of_le_intMax (w := w) hlt.le
      have hbound : (k : Int) < n := by omega
      calc
        run w n body (k + 1) (.test 0 [] s)
            = step w n body (.test k (counters k) (rounds body s k)) := by
              rw [run, ih (by omega) hlt.le]
        _ = .test (k + 1 : Nat) (counters (k + 1)) (rounds body s (k + 1)) := by
              simp [step, hmod, hbound, hlt, counters_succ, rounds]

/-- Past its end the loop stays where it is. -/
theorem run_final {k : Nat} {l : Loop σ} (hl : ∀ i used s, l ≠ .test i used s) :
    run w n body k l = l := by
  induction k with
  | zero => rfl
  | succ k ih =>
      rw [run, ih]
      cases l with
      | test i used s => exact absurd rfl (hl i used s)
      | done | overflow => rfl

theorem run_add (k j : Nat) (l : Loop σ) :
    run w n body (k + j) l = run w n body j (run w n body k l) := by
  induction j with
  | zero => rfl
  | succ j ih => rw [Nat.add_succ, run, ih, run]

/-- A bound within the signed type is reached, and ends the loop. -/
theorem run_eq_done (hn : (n : Int) ≤ intMax w) :
    run w n body (n + 1) (.test 0 [] s) = .done (counters n) (rounds body s n) := by
  rw [run, run_eq_test le_rfl hn]
  simp [step, emod_eq_of_le_intMax hn]

/-- A bound beyond the signed type lets the counter run to the end of its type. -/
theorem run_overflowed (hn : intMax w < n) (hw : 0 ≤ intMax w) :
    (run w n body ((intMax w).toNat + 1) (.test 0 [] s)).overflowed := by
  have hcast : ((intMax w).toNat : Int) = intMax w := Int.toNat_of_nonneg hw
  have hmod : intMax w % 2 ^ w = intMax w := by
    rw [← hcast]
    exact emod_eq_of_le_intMax hcast.le
  rw [run, run_eq_test (by omega) hcast.le]
  simp [step, hcast, hmod, hn, Loop.overflowed]

/-- A loop that keeps its counter in the type has its bound there. -/
theorem Counts.bound {result : σ → Prop} (h : Counts w n body s result) (hw : 0 ≤ intMax w) :
    (n : Int) ≤ intMax w := by
  by_contra hn
  exact h.stays _ (run_overflowed (by omega) hw)

/-- The loop does what is asked of it exactly when its bound lies within the counter's type. -/
theorem counts_iff {result : σ → Prop} (hw : 0 ≤ intMax w)
    (hresult : (n : Int) ≤ intMax w → result (rounds body s n)) :
    Counts w n body s result ↔ (n : Int) ≤ intMax w := by
  constructor
  · intro h
    exact h.bound hw
  · intro hn
    have state : ∀ k, (∃ j ≤ n, run w n body k (.test 0 [] s) =
        .test j (counters j) (rounds body s j)) ∨
        run w n body k (.test 0 [] s) = .done (counters n) (rounds body s n) := by
      intro k
      rcases Nat.lt_or_ge n k with hk | hk
      · right
        obtain ⟨j, rfl⟩ := Nat.exists_eq_add_of_le hk
        rw [run_add, run_eq_done hn]
        exact run_final fun _ _ _ => by simp
      · exact .inl ⟨k, hk, run_eq_test hk (by omega)⟩
    refine ⟨?_, ?_, n + 1, _, _, run_eq_done hn, hresult hn⟩
    · intro k
      rcases state k with ⟨j, -, h⟩ | h <;> simp [h, Loop.overflowed]
    · intro k i hi
      rcases state k with ⟨j, hj, h⟩ | h
      · rw [h] at hi
        have hbounds := mem_counters hi
        exact ⟨hbounds.1, by omega⟩
      · rw [h] at hi
        exact mem_counters hi

end HyperRdma.IntLoop
