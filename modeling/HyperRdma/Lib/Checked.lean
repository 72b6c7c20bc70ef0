import Mathlib.Data.Finset.Basic
import Mathlib.Data.Finset.Dedup

/-!
# Calls that may fail

A program hands the handles which earlier calls return to later ones. A call
whose failure ends the program leaves no null handle behind; the failure of any
other call does. One pass over the program finds the handles which some pattern
of failing calls lets it hand on while they are null.
-/

namespace HyperRdma.Checked

/-- A call, with the handles it is given, the handle it returns, and whether its failure ends the
program. -/
structure Stmt (κ ρ : Type*) where
  call : κ
  uses : List ρ
  makes : Option ρ
  checked : Bool

variable {κ ρ : Type*} [DecidableEq ρ]

/-- The handles that a program assigns. -/
def made (ss : List (Stmt κ ρ)) : Finset ρ := (ss.filterMap Stmt.makes).toFinset

/-- The null handles after a call. -/
def Stmt.result (s : Stmt κ ρ) (failed : Bool) (null : Finset ρ) : Finset ρ :=
  match s.makes with
  | none => null
  | some r => if failed then insert r null else null.erase r

/-- The null handles that a program hands on, where `fails` says which of its calls fail. -/
def nulls (fails : Stmt κ ρ → Bool) : Finset ρ → List (Stmt κ ρ) → List ρ
  | _, [] => []
  | null, s :: ss =>
      s.uses.filter (· ∈ null) ++
        if fails s && s.checked then [] else nulls fails (s.result (fails s) null) ss

/-- The handles that may be null where they are handed on, where `may` says which calls may
fail. -/
def suspects (may : Stmt κ ρ → Bool) : Finset ρ → List (Stmt κ ρ) → List ρ
  | _, [] => []
  | null, s :: ss =>
      s.uses.filter (· ∈ null) ++ suspects may (s.result (may s && !s.checked) null) ss

theorem Stmt.result_subset (s : Stmt κ ρ) {failed failed' : Bool} {null null' : Finset ρ}
    (hfailed : failed = true → failed' = true) (hnull : null ⊆ null') :
    s.result failed null ⊆ s.result failed' null' := by
  unfold Stmt.result
  split
  · exact hnull
  next r _ =>
    cases failed with
    | true =>
        rw [hfailed rfl]
        exact Finset.insert_subset_insert r hnull
    | false =>
        have herase : null.erase r ⊆ null'.erase r := Finset.erase_subset_erase r hnull
        cases failed' with
        | true =>
            calc
              null.erase r ⊆ null'.erase r := herase
              _ ⊆ null' := Finset.erase_subset r null'
              _ ⊆ insert r null' := Finset.subset_insert r null'
        | false => exact herase

/-- The pass finds every null handle that is handed on. -/
theorem nulls_subset {fails may : Stmt κ ρ → Bool} {ss : List (Stmt κ ρ)}
    (hmay : ∀ s ∈ ss, fails s = true → may s = true) {null null' : Finset ρ}
    (hnull : null ⊆ null') : nulls fails null ss ⊆ suspects may null' ss := by
  induction ss generalizing null null' with
  | nil => exact List.Subset.refl _
  | cons s ss ih =>
      intro r hr
      rcases List.mem_append.mp hr with hr | hr
      · apply List.mem_append_left
        obtain ⟨huse, hin⟩ := List.mem_filter.mp hr
        exact List.mem_filter.mpr ⟨huse, decide_eq_true (hnull (of_decide_eq_true hin))⟩
      · apply List.mem_append_right
        split at hr
        · cases hr
        next hgo =>
          refine ih (fun s hs => hmay s (by simp [hs])) (s.result_subset ?_ hnull) hr
          intro hfails
          have hs := hmay s (by simp) hfails
          simpa [hfails, hs] using hgo

/-- Where the calls that fail are those which may and which nothing checks, the pass is the run. -/
theorem nulls_unchecked (may : Stmt κ ρ → Bool) (null : Finset ρ) (ss : List (Stmt κ ρ)) :
    nulls (fun s => may s && !s.checked) null ss = suspects may null ss := by
  induction ss generalizing null with
  | nil => rfl
  | cons s ss ih =>
      simp only [nulls, suspects, ih]
      cases may s <;> cases s.checked <;> rfl

/-- The pass is exact: it finds the handles which some pattern of failing calls lets the program
hand on while they are null. -/
theorem mem_suspects_iff (may : Stmt κ ρ → Bool) (null : Finset ρ) (ss : List (Stmt κ ρ)) (r : ρ) :
    r ∈ suspects may null ss ↔
      ∃ fails : Stmt κ ρ → Bool, (∀ s, fails s = true → may s = true) ∧ r ∈ nulls fails null ss := by
  constructor
  · intro hr
    refine ⟨fun s => may s && !s.checked, ?_, ?_⟩
    · intro s hs
      exact (Bool.and_eq_true_iff.mp hs).1
    · rwa [nulls_unchecked]
  · rintro ⟨fails, hmay, hr⟩
    exact nulls_subset (fun s _ => hmay s) (Finset.Subset.refl _) hr

end HyperRdma.Checked
