import HyperRdma.Lib.IntLoop
import HyperRdma.RdmaUtils
import Mathlib.Logic.Function.Basic

/-!
# Building and printing an `RdmaTest`

The constructor of `DataStruct.cpp` fills the array in a loop over `int i`, and
the client's `main` prints the received array in a loop over `int j`; both
compare the counter with the object's `uint32_t size`.
-/

namespace HyperRdma

open IntLoop

namespace RdmaTest

/-- The loop of a counter `int` over the `uint32_t size`. -/
abbrev Loops {σ : Type*} (size : UInt32) (body : Int → σ → σ) (s : σ) (result : σ → Prop) : Prop :=
  Counts 32 size.toNat body s result

/-- The assignments of the constructor before its loop, to an object in memory `found`. -/
def construct (found : RdmaTest) (size a b : UInt32) : RdmaTest :=
  { found with size := size, a := a, b := b }

/-- `this->data_buf[i] = i`. -/
def fillBody (i : Int) (o : RdmaTest) : RdmaTest :=
  { o with data := Function.update o.data i.toNat (UInt32.ofInt i) }

/-- `std::cout << data.data_buf[j]`, as the words printed so far. -/
def printBody (o : RdmaTest) (j : Int) (out : List UInt32) : List UInt32 :=
  out ++ [o.data j.toNat]

/-- What the constructor is to leave. -/
structure Constructed (size a b : UInt32) (o : RdmaTest) : Prop where
  size_eq : o.size = size
  a_eq : o.a = a
  b_eq : o.b = b
  data : ∀ i < size.toNat, o.data i = UInt32.ofNat i

theorem ofInt_natCast (k : Nat) : UInt32.ofInt (k : Int) = UInt32.ofNat k := by
  have hmod : ((k : Int) % 2 ^ 32).toNat = k % 2 ^ 32 := by omega
  rw [UInt32.ofInt, hmod]
  exact UInt32.ofNat_mod_size

/-- Filling touches the array alone, and in order. -/
theorem rounds_fillBody (o : RdmaTest) (k : Nat) :
    rounds fillBody o k =
      { o with data := fun i => if i < k then UInt32.ofNat i else o.data i } := by
  induction k with
  | zero => simp [rounds]
  | succ k ih =>
      have hdata : Function.update (fun i => if i < k then UInt32.ofNat i else o.data i) k
          (UInt32.ofInt k) = fun i => if i < k + 1 then UInt32.ofNat i else o.data i := by
        funext i
        by_cases hik : i = k
        · simp [hik, ofInt_natCast]
        · have hlt : i < k + 1 ↔ i < k := by omega
          simp [hik, hlt]
      rw [rounds, ih]
      simp [fillBody, hdata]

theorem rounds_printBody (o : RdmaTest) (k : Nat) :
    rounds (printBody o) [] k = (List.range k).map o.data := by
  induction k with
  | zero => rfl
  | succ k ih => simp [rounds, ih, printBody, List.range_succ]

theorem constructed_rounds (found : RdmaTest) (size a b : UInt32) :
    Constructed size a b (rounds fillBody (construct found size a b) size.toNat) := by
  rw [rounds_fillBody]
  refine ⟨rfl, rfl, rfl, ?_⟩
  intro i hi
  simp [hi]

/-- A `size` is at most the largest `int`. -/
theorem le_intMax_iff (size : UInt32) : (size.toNat : Int) ≤ intMax 32 ↔ size.toNat < 2 ^ 31 := by
  simp only [intMax]
  omega

/-- The constructor's loop, and the traversal of a received object, keep their counters in the
range of `int`, use indices below the size alone and do their work exactly when the size fits
an `int`. -/
theorem loops_iff (found o : RdmaTest) (size a b : UInt32) :
    (Loops size fillBody (construct found size a b) (Constructed size a b) ↔
        size.toNat < 2 ^ 31) ∧
      (Loops o.size (printBody o) [] (· = (List.range o.size.toNat).map o.data) ↔
        o.size.toNat < 2 ^ 31) := by
  have hpos : (0 : Int) ≤ intMax 32 := by decide
  constructor
  · rw [← le_intMax_iff]
    exact counts_iff hpos fun _ => constructed_rounds found size a b
  · rw [← le_intMax_iff]
    exact counts_iff hpos fun _ => rounds_printBody o _

/-- With the first size beyond `int`, both counters leave their type. -/
theorem loops_overflow :
    ¬ Loops 0x80000000 fillBody (construct sample 0x80000000 1 1)
        (Constructed 0x80000000 1 1) ∧
      ¬ Loops 0x80000000 (printBody { sample with size := 0x80000000 }) [] fun _ => True := by
  have hmax : ¬ ((0x80000000 : UInt32).toNat : Int) ≤ intMax 32 := by decide
  constructor
  · intro h
    exact hmax (h.bound (by decide))
  · intro h
    exact hmax (h.bound (by decide))

end RdmaTest

end HyperRdma
