import Mathlib.Algebra.Order.Ring.Int
import Mathlib.Data.List.Basic
import Mathlib.Data.List.GetD
import Mathlib.Tactic.Common

/-!
# Block memory with gather and scatter

A memory gives each block a byte at every offset. Reading and writing a range
of one block are the primitive operations; a transfer through a list of
segments gathers their bytes in order, or scatters a byte sequence over them.
-/

namespace HyperRdma.Memory

variable {β : Type*} [DecidableEq β]

/-- The contents of each block, by offset. -/
abbrev Mem (β : Type*) := β → Nat → UInt8

/-- A range of one block. -/
structure Segment (β : Type*) where
  block : β
  off : Nat
  len : Nat

/-- Store the bytes `bs` into block `b` from offset `off` on. -/
def store (m : Mem β) (b : β) (off : Nat) (bs : List UInt8) : Mem β :=
  fun b' k => if b' = b ∧ off ≤ k ∧ k < off + bs.length then bs.getD (k - off) 0 else m b' k

omit [DecidableEq β] in
/-- The `n` bytes of block `b` from offset `off` on. -/
def load (m : Mem β) (b : β) (off n : Nat) : List UInt8 :=
  (List.range n).map fun k => m b (off + k)

/-- The bytes of all segments, in order. -/
def gather (m : Mem β) : List (Segment β) → List UInt8
  | [] => []
  | s :: ss => load m s.block s.off s.len ++ gather m ss

/-- Fill the segments in order with consecutive bytes of `bs`. -/
def scatter (m : Mem β) : List (Segment β) → List UInt8 → Mem β
  | [], _ => m
  | s :: ss, bs => scatter (store m s.block s.off (bs.take s.len)) ss (bs.drop s.len)

/-- The number of bytes a list of segments holds. -/
def total (ss : List (Segment β)) : Nat := (ss.map Segment.len).sum

omit [DecidableEq β] in
@[simp] theorem load_length (m : Mem β) (b : β) (off n : Nat) : (load m b off n).length = n := by
  simp [load]

omit [DecidableEq β] in
@[simp] theorem gather_length (m : Mem β) (ss : List (Segment β)) :
    (gather m ss).length = total ss := by
  induction ss with
  | nil => rfl
  | cons s ss ih => simp [gather, total, ih]

@[simp] theorem store_other (m : Mem β) {b b' : β} (h : b' ≠ b) (off : Nat) (bs : List UInt8) :
    store m b off bs b' = m b' := by
  funext k
  simp [store, h]

theorem store_inside (m : Mem β) (b : β) (off : Nat) (bs : List UInt8) {k : Nat}
    (h : k < bs.length) : store m b off bs b (off + k) = bs[k] := by
  simp [store, h]

theorem store_outside (m : Mem β) (b : β) (off : Nat) (bs : List UInt8) {k : Nat}
    (h : k < off ∨ off + bs.length ≤ k) : store m b off bs b k = m b k := by
  simp only [store]
  rw [if_neg]
  omega

omit [DecidableEq β] in
/-- Reading depends on the range alone. -/
theorem load_congr {m m' : Mem β} {b b' : β} {off off' n : Nat}
    (h : ∀ k < n, m b (off + k) = m' b' (off' + k)) : load m b off n = load m' b' off' n := by
  apply List.map_congr_left
  intro k hk
  exact h k (List.mem_range.mp hk)

omit [DecidableEq β] in
theorem load_add (m : Mem β) (b : β) (off n k : Nat) :
    load m b off (n + k) = load m b off n ++ load m b (off + n) k := by
  simp [load, List.range_add, Function.comp_def, Nat.add_assoc]

omit [DecidableEq β] in
theorem load_take (m : Mem β) (b : β) (off : Nat) {n k : Nat} (h : k ≤ n) :
    (load m b off n).take k = load m b off k := by
  simp [load, ← List.map_take, List.take_range, Nat.min_eq_left h]

theorem load_store_same (m : Mem β) (b : β) (off : Nat) (bs : List UInt8) :
    load (store m b off bs) b off bs.length = bs := by
  apply List.ext_getElem
  · simp
  · intro k _ hk
    simpa [load] using store_inside m b off bs hk

/-- A beginning of what has been stored. -/
theorem load_store_take (m : Mem β) (b : β) (off : Nat) {bs : List UInt8} {n : Nat}
    (h : n ≤ bs.length) : load (store m b off bs) b off n = bs.take n := by
  rw [← load_take _ _ _ h, load_store_same]

theorem load_store_disjoint (m : Mem β) (b : β) (off n off' : Nat) (bs : List UInt8)
    (h : off + n ≤ off' ∨ off' + bs.length ≤ off) :
    load (store m b off' bs) b off n = load m b off n := by
  apply load_congr
  intro k hk
  apply store_outside
  omega

/-- Scattering leaves every block alone which no segment names. -/
theorem scatter_other (m : Mem β) (ss : List (Segment β)) (bs : List UInt8) {b : β}
    (h : ∀ s ∈ ss, s.block ≠ b) : scatter m ss bs b = m b := by
  induction ss generalizing m bs with
  | nil => rfl
  | cons s ss ih =>
      have hs : b ≠ s.block := fun he => h s (by simp) he.symm
      rw [scatter, ih _ _ fun t ht => h t (by simp [ht]), store_other _ hs]

theorem scatter_singleton (m : Mem β) (s : Segment β) (bs : List UInt8)
    (h : bs.length = s.len) : scatter m [s] bs = store m s.block s.off bs := by
  simp [scatter, ← h]

/-- Two segments of different blocks: the first one takes the bytes in front. -/
theorem scatter_pair_fst (m : Mem β) {s t : Segment β} (hne : s.block ≠ t.block)
    (bs : List UInt8) {k : Nat} (hk : k < s.len) (hbs : k < bs.length) :
    scatter m [s, t] bs s.block (s.off + k) = bs[k] := by
  have hlen : k < (bs.take s.len).length := by
    rw [List.length_take]
    omega
  simp only [scatter]
  rw [store_other _ hne, store_inside _ _ _ _ hlen, List.getElem_take]

/-- The second one takes those that follow. -/
theorem scatter_pair_snd (m : Mem β) {s t : Segment β} (bs : List UInt8) {k : Nat}
    (hk : k < t.len) (hbs : s.len + k < bs.length) :
    scatter m [s, t] bs t.block (t.off + k) = bs[s.len + k] := by
  have hlen : k < ((bs.drop s.len).take t.len).length := by
    rw [List.length_take, List.length_drop]
    omega
  simp only [scatter]
  rw [store_inside _ _ _ _ hlen, List.getElem_take, List.getElem_drop]

/-- Behind the second segment its block is as before. -/
theorem scatter_pair_behind (m : Mem β) {s t : Segment β} (hne : s.block ≠ t.block)
    (bs : List UInt8) {k : Nat} (hk : t.off + t.len ≤ k) :
    scatter m [s, t] bs t.block k = m t.block k := by
  have hlen : ((bs.drop s.len).take t.len).length ≤ t.len := List.length_take_le _ _
  simp only [scatter]
  rw [store_outside _ _ _ _ (by omega), store_other _ hne.symm]

omit [DecidableEq β] in
/-- A range that agrees with a part of a byte sequence. -/
theorem load_eq_take_drop (m : Mem β) (b : β) (off : Nat) {n i : Nat} {bs : List UInt8}
    (hn : i + n ≤ bs.length)
    (h : ∀ (k : Nat) (hk : k < n), m b (off + k) = bs[i + k]) :
    load m b off n = (bs.drop i).take n := by
  apply List.ext_getElem
  · rw [load_length, List.length_take, List.length_drop]
    omega
  · intro k hk _
    rw [load_length] at hk
    simp [load, h k hk]

/-- Storing what is there already changes nothing. -/
theorem store_load (m : Mem β) (b : β) (off n : Nat) : store m b off (load m b off n) = m := by
  funext b' k
  by_cases h : b' = b ∧ off ≤ k ∧ k < off + n
  · obtain ⟨rfl, hle, hlt⟩ := h
    have hk : k = off + (k - off) := by omega
    rw [hk, store_inside _ _ _ _ (by rw [load_length]; omega)]
    simp [load]
  · simp [store, h]

theorem scatter_gather (m : Mem β) (ss : List (Segment β)) : scatter m ss (gather m ss) = m := by
  induction ss with
  | nil => rfl
  | cons s ss ih =>
      have hlen : (load m s.block s.off s.len).length = s.len := load_length ..
      rw [gather, scatter, List.take_left' hlen, List.drop_left' hlen, store_load, ih]

/-- What a store leaves in its block depends on that block alone. -/
theorem store_congr {m m' : Mem β} {b : β} (h : m b = m' b) (off : Nat) (bs : List UInt8) :
    store m b off bs b = store m' b off bs b := by
  funext k
  simp only [store, h]

/-- Storing in two parts. -/
theorem store_append (m : Mem β) (b : β) (off : Nat) (bs cs : List UInt8) :
    store (store m b off bs) b (off + bs.length) cs = store m b off (bs ++ cs) := by
  funext b' k
  simp only [store, List.length_append]
  by_cases hb : b' = b
  · simp only [hb, true_and]
    by_cases hlt : k < off + bs.length
    · rw [if_neg (by omega)]
      by_cases hoff : off ≤ k
      · rw [if_pos (by omega), if_pos (by omega), List.getD_append _ _ _ _ (by omega)]
      · rw [if_neg (by omega), if_neg (by omega)]
    · by_cases hk : k < off + bs.length + cs.length
      · rw [if_pos (by omega), if_pos (by omega), List.getD_append_right _ _ _ _ (by omega),
          Nat.sub_sub]
      · rw [if_neg (by omega), if_neg (by omega), if_neg (by omega)]
  · simp [hb]

/-- Storing at the end of what has been stored from the start of a block on. -/
theorem store_grow {m m₀ : Mem β} {b : β} {bs : List UInt8} {off : Nat} (cs : List UInt8)
    (h : m b = store m₀ b 0 bs b) (hoff : off = bs.length) :
    store m b off cs b = store m₀ b 0 (bs ++ cs) b := by
  rw [store_congr h, hoff, ← store_append, Nat.zero_add]

end HyperRdma.Memory
