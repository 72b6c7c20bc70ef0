import HyperRdma.Lib.Transition

/-!
# A transfer of items one at a time

A sender posts an item once the receiver has opened the transfer and the item
before has been confirmed; an item is delivered only to a receiver that has
taken in the one before. Confirmation follows delivery, and so does the taking
in, but neither waits for the other.
-/

namespace HyperRdma.StopAndWait

open Transition

/-- How far a transfer has come. -/
structure Transfer where
  opened : Bool
  posted : Nat
  delivered : Nat
  learned : Nat
  confirmed : Nat
  deriving DecidableEq

inductive Act
  | enable
  | post
  | deliver
  | learn
  | confirm
  deriving DecidableEq

def Transfer.fresh : Transfer := ⟨false, 0, 0, 0, 0⟩

/-- The step of a transfer of `n` items. -/
def step (n : Nat) (a : Act) (t : Transfer) : Option Transfer :=
  match a with
  | .enable => if t.opened then none else some { t with opened := true }
  | .post =>
      if t.opened ∧ t.posted < n ∧ t.posted = t.confirmed then
        some { t with posted := t.posted + 1 }
      else none
  | .deliver =>
      if t.delivered < t.posted ∧ t.delivered = t.learned then
        some { t with delivered := t.delivered + 1 }
      else none
  | .learn =>
      if t.learned < t.delivered then some { t with learned := t.learned + 1 } else none
  | .confirm =>
      if t.confirmed < t.delivered then some { t with confirmed := t.confirmed + 1 } else none

/-- Neither end is more than one item behind what has been delivered. -/
structure Inv (n : Nat) (t : Transfer) : Prop where
  closed : t.opened = false → t.posted = 0
  posted_le : t.posted ≤ n
  window : t.posted ≤ t.confirmed + 1
  confirmed_le : t.confirmed ≤ t.delivered
  delivered_le : t.delivered ≤ t.posted
  credit : t.delivered ≤ t.learned + 1
  learned_le : t.learned ≤ t.delivered

theorem Inv.step {n : Nat} {a : Act} {t t' : Transfer} (inv : Inv n t)
    (h : step n a t = some t') : Inv n t' := by
  obtain ⟨hclosed, hn, hwindow, hconfirmed, hdelivered, hcredit, hlearned⟩ := inv
  cases a with
  | enable =>
      simp only [StopAndWait.step, Option.ite_none_left_eq_some, Option.some.injEq] at h
      obtain ⟨-, rfl⟩ := h
      exact ⟨by simp, hn, hwindow, hconfirmed, hdelivered, hcredit, hlearned⟩
  | post =>
      simp only [StopAndWait.step, Option.ite_none_right_eq_some, Option.some.injEq] at h
      obtain ⟨⟨hopen, hlt, hsame⟩, rfl⟩ := h
      refine ⟨by simp [hopen], hlt, ?_, hconfirmed, ?_, hcredit, hlearned⟩
      · exact hsame ▸ Nat.le_refl _
      · exact Nat.le_succ_of_le hdelivered
  | deliver =>
      simp only [StopAndWait.step, Option.ite_none_right_eq_some, Option.some.injEq] at h
      obtain ⟨⟨hlt, hsame⟩, rfl⟩ := h
      refine ⟨hclosed, hn, hwindow, ?_, hlt, ?_, ?_⟩
      · exact Nat.le_succ_of_le hconfirmed
      · exact hsame ▸ Nat.le_refl _
      · exact Nat.le_succ_of_le hlearned
  | learn =>
      simp only [StopAndWait.step, Option.ite_none_right_eq_some, Option.some.injEq] at h
      obtain ⟨hlt, rfl⟩ := h
      exact ⟨hclosed, hn, hwindow, hconfirmed, hdelivered, Nat.le_succ_of_le hcredit, hlt⟩
  | confirm =>
      simp only [StopAndWait.step, Option.ite_none_right_eq_some, Option.some.injEq] at h
      obtain ⟨hlt, rfl⟩ := h
      exact ⟨hclosed, hn, Nat.le_succ_of_le hwindow, hlt, hdelivered, hcredit, hlearned⟩

theorem reach_inv {n : Nat} {ok : Transfer → Act → Prop} {t : Transfer}
    (run : Reach (step n) ok (· = .fresh) t) : Inv n t := by
  refine run.invariant ?_ fun _ _ _ inv _ h => inv.step h
  rintro _ rfl
  constructor <;> simp [Transfer.fresh]

/-- The sender is at most two items ahead of the receiver. -/
theorem Inv.ahead {n : Nat} {t : Transfer} (inv : Inv n t) : t.posted ≤ t.learned + 2 := by
  have hwindow := inv.window
  have hconfirmed := inv.confirmed_le
  have hcredit := inv.credit
  omega

end HyperRdma.StopAndWait
