import Mathlib.Algebra.Order.Ring.Int
import Mathlib.Data.List.Induction
import Mathlib.Tactic.Common

/-!
# Numbers as byte sequences

`encodeBe n x` is the `n`-byte big-endian image of `x` and `decodeBe` reads such
an image back. Decoding an encoding gives the number modulo `256 ^ n`, so the
pair is a round trip for numbers that fit. The little-endian image is the same
sequence reversed.
-/

namespace HyperRdma.ByteOrder

/-- The `n` low-order bytes of `x`, most significant byte first. -/
def encodeBe : Nat → Nat → List UInt8
  | 0, _ => []
  | n + 1, x => encodeBe n (x / 256) ++ [UInt8.ofNat (x % 256)]

/-- The number whose big-endian image the bytes are. -/
def decodeBe (bs : List UInt8) : Nat :=
  bs.foldl (fun acc b => acc * 256 + b.toNat) 0

/-- The `n` low-order bytes of `x`, least significant byte first. -/
def encodeLe (n x : Nat) : List UInt8 := (encodeBe n x).reverse

/-- The number whose little-endian image the bytes are. -/
def decodeLe (bs : List UInt8) : Nat := decodeBe bs.reverse

@[simp] theorem encodeBe_length (n x : Nat) : (encodeBe n x).length = n := by
  induction n generalizing x with
  | zero => rfl
  | succ n ih => simp [encodeBe, ih]

@[simp] theorem encodeLe_length (n x : Nat) : (encodeLe n x).length = n := by
  simp [encodeLe]

theorem decodeBe_concat (bs : List UInt8) (b : UInt8) :
    decodeBe (bs ++ [b]) = decodeBe bs * 256 + b.toNat := by
  simp [decodeBe]

/-- Decoding keeps exactly the bytes which the encoding wrote. -/
theorem decodeBe_encodeBe (n x : Nat) : decodeBe (encodeBe n x) = x % 256 ^ n := by
  induction n generalizing x with
  | zero => simp [encodeBe, decodeBe, Nat.mod_one]
  | succ n ih =>
      calc
        decodeBe (encodeBe (n + 1) x) = x / 256 % 256 ^ n * 256 + x % 256 := by
          simp [encodeBe, decodeBe_concat, ih]
        _ = x % 256 ^ (n + 1) := by
          rw [Nat.pow_succ', Nat.mod_mul]
          omega

theorem decodeBe_encodeBe_of_lt {n x : Nat} (h : x < 256 ^ n) :
    decodeBe (encodeBe n x) = x := by
  rw [decodeBe_encodeBe, Nat.mod_eq_of_lt h]

/-- Encoding restores the bytes which were decoded. -/
theorem encodeBe_decodeBe (bs : List UInt8) : encodeBe bs.length (decodeBe bs) = bs := by
  induction bs using List.reverseRecOn with
  | nil => rfl
  | append_singleton bs b ih =>
      have hb : b.toNat < 256 := b.toNat_lt
      have hdiv : (decodeBe bs * 256 + b.toNat) / 256 = decodeBe bs := by omega
      have hmod : (decodeBe bs * 256 + b.toNat) % 256 = b.toNat := by omega
      rw [List.length_append, List.length_singleton, decodeBe_concat, encodeBe, hdiv, hmod, ih,
        UInt8.ofNat_toNat]

theorem decodeBe_lt (bs : List UInt8) : decodeBe bs < 256 ^ bs.length := by
  induction bs using List.reverseRecOn with
  | nil => simp [decodeBe]
  | append_singleton bs b ih =>
      have hb : b.toNat < 256 := b.toNat_lt
      rw [List.length_append, List.length_singleton, decodeBe_concat, Nat.pow_succ]
      omega

theorem decodeLe_encodeLe_of_lt {n x : Nat} (h : x < 256 ^ n) :
    decodeLe (encodeLe n x) = x := by
  simp only [decodeLe, encodeLe, List.reverse_reverse, decodeBe_encodeBe_of_lt h]

/-- An `n`-byte big-endian field, as its bytes lie in memory. -/
@[ext] structure Be (n : Nat) where
  bytes : List UInt8
  length_eq : bytes.length = n
  deriving DecidableEq

/-- The field that holds the `n` low-order bytes of `x`. -/
def Be.ofNat (n x : Nat) : Be n := ⟨encodeBe n x, encodeBe_length n x⟩

/-- The number a field holds. -/
def Be.toNat {n : Nat} (x : Be n) : Nat := decodeBe x.bytes

theorem Be.toNat_ofNat_of_lt {n x : Nat} (h : x < 256 ^ n) : (Be.ofNat n x).toNat = x :=
  decodeBe_encodeBe_of_lt h

theorem Be.toNat_lt {n : Nat} (x : Be n) : x.toNat < 256 ^ n := by
  have h := decodeBe_lt x.bytes
  rwa [x.length_eq] at h

theorem Be.ofNat_toNat {n : Nat} (x : Be n) : Be.ofNat n x.toNat = x := by
  ext1
  have h := encodeBe_decodeBe x.bytes
  rwa [x.length_eq] at h

end HyperRdma.ByteOrder
