/-
  Lib.Gf2 — 32-bit words as vectors over GF(2): addition is exclusive or.

  A linear map is given by its values on the bits (`Linear.eq_combine`). `kernel` finds, by
  elimination, words whose combinations are all the words such a map sends to zero.
  - `mem_kernel`: a word that a linear map sends to zero is a combination of its kernel.
-/

import Mathlib.Data.Nat.Bitwise

namespace Lib.Gf2

/-! ## Words and their bits -/

def bit (x : UInt32) (i : Nat) : Bool := x.toNat.testBit i

@[simp] theorem bit_xor (x y : UInt32) (i : Nat) : bit (x ^^^ y) i = (bit x i ^^ bit y i) := by
  simp only [bit, UInt32.toNat_xor, Nat.testBit_xor]

@[simp] theorem bit_zero (i : Nat) : bit 0 i = false := Nat.zero_testBit i

theorem bit_ge (x : UInt32) {i : Nat} (h : 32 ≤ i) : bit x i = false :=
  Nat.testBit_lt_two_pow (Nat.lt_of_lt_of_le x.toNat_lt (Nat.pow_le_pow_right (by decide) h))

theorem eq_of_bit {x y : UInt32} (h : ∀ i < 32, bit x i = bit y i) : x = y := by
  refine UInt32.toNat_inj.mp (Nat.eq_of_testBit_eq fun i => ?_)
  by_cases hi : i < 32
  · exact h i hi
  · exact (bit_ge x (by omega)).trans (bit_ge y (by omega)).symm

theorem xor_cancel (x y : UInt32) : x ^^^ y ^^^ y = x := by
  rw [UInt32.xor_assoc, UInt32.xor_self, UInt32.xor_zero]

theorem xor_eq_zero {x y : UInt32} : x ^^^ y = 0 ↔ x = y := by
  constructor
  · intro h
    rw [← xor_cancel x y, h, UInt32.zero_xor]
  · rintro rfl
    exact UInt32.xor_self

/-- The word of one bit. -/
def unit (i : Nat) : UInt32 := UInt32.ofNat (2 ^ i)

theorem bit_unit {i : Nat} (hi : i < 32) (j : Nat) : bit (unit i) j = decide (i = j) := by
  rw [bit, unit, UInt32.toNat_ofNat', Nat.mod_eq_of_lt (Nat.pow_lt_pow_right (by decide) hi), Nat.testBit_two_pow]

/-! ## Linear maps -/

def Linear (f : UInt32 → UInt32) : Prop := ∀ x y, f (x ^^^ y) = f x ^^^ f y

/-- The values of `f` at the bits of `x` below `n`, added up. -/
def combine (f : Nat → UInt32) : Nat → UInt32 → UInt32
  | 0, _ => 0
  | n + 1, x => if bit x n then combine f n x ^^^ f n else combine f n x

theorem combine_congr {f g : Nat → UInt32} {n : Nat} {x : UInt32} (h : ∀ i < n, f i = g i) :
    combine f n x = combine g n x := by
  induction n with
  | zero => rfl
  | succ n ih => simp only [combine, ih fun i hi => h i (by omega), h n (by omega)]

theorem Linear.map_zero {f : UInt32 → UInt32} (hf : Linear f) : f 0 = 0 := by
  have h := hf 0 0
  rwa [UInt32.xor_self, UInt32.xor_self] at h

theorem xor_xor_xor_comm (a b c d : UInt32) : a ^^^ b ^^^ (c ^^^ d) = a ^^^ c ^^^ (b ^^^ d) := by
  ac_rfl

theorem Linear.iterate {f : UInt32 → UInt32} (hf : Linear f) (n : Nat) : Linear f^[n] := by
  induction n with
  | zero => exact fun x y => rfl
  | succ n ih =>
    intro x y
    rw [Function.iterate_succ_apply, hf, ih, Function.iterate_succ_apply, Function.iterate_succ_apply]

theorem shiftLeft_linear (k : UInt32) : Linear fun x => x <<< k := by
  intro x y
  refine UInt32.toBitVec_inj.mp ?_
  simp [BitVec.shiftLeft_xor_distrib]

theorem shiftRight_linear (k : UInt32) : Linear fun x => x >>> k := by
  intro x y
  refine UInt32.toBitVec_inj.mp ?_
  simp [BitVec.ushiftRight_xor_distrib]

theorem Linear.injective {f : UInt32 → UInt32} (hf : Linear f) (h : ∀ x, f x = 0 → x = 0) : Function.Injective f := by
  intro x y hxy
  refine xor_eq_zero.mp (h _ ?_)
  rw [hf, hxy, UInt32.xor_self]

theorem Linear.map_combine {f : UInt32 → UInt32} (hf : Linear f) (g : Nat → UInt32) (n : Nat) (x : UInt32) :
    f (combine g n x) = combine (fun i => f (g i)) n x := by
  induction n with
  | zero => exact hf.map_zero
  | succ n ih =>
    simp only [combine]
    split
    · rw [hf, ih]
    · exact ih

theorem bit_combine_unit {n : Nat} (hn : n ≤ 32) (x : UInt32) (i : Nat) :
    bit (combine unit n x) i = (decide (i < n) && bit x i) := by
  induction n with
  | zero => simp [combine]
  | succ n ih =>
    have hin : (decide (i < n + 1) && bit x i) = ((decide (i < n) && bit x i) ^^ (decide (n = i) && bit x n)) := by
      by_cases hi : n = i
      · subst hi
        simp
      · have : i < n + 1 ↔ i < n := by omega
        simp [this, hi]
    rw [hin]
    simp only [combine]
    split
    · rename_i hb
      rw [bit_xor, ih (by omega), bit_unit (by omega), hb, Bool.and_true]
    · rename_i hb
      rw [ih (by omega), Bool.eq_false_iff.mpr hb, Bool.and_false, Bool.xor_false]

/-- A word is the sum of its bits. -/
theorem combine_unit (x : UInt32) : combine unit 32 x = x := by
  refine eq_of_bit fun i hi => ?_
  rw [bit_combine_unit (Nat.le_refl _)]
  simp [hi]

theorem Linear.eq_combine {f : UInt32 → UInt32} (hf : Linear f) (x : UInt32) :
    f x = combine (fun i => f (unit i)) 32 x := by
  rw [← hf.map_combine, combine_unit]

/-! ## Words of bytes -/

theorem two_pow_mul_xor {a b k : Nat} (h : b < 2 ^ k) : 2 ^ k * a ^^^ b = 2 ^ k * a + b := by
  refine Nat.eq_of_testBit_eq fun i => ?_
  rw [Nat.testBit_xor, Nat.testBit_two_pow_mul, Nat.testBit_two_pow_mul_add _ h]
  by_cases hi : i < k
  · rw [if_pos hi]
    simp [Nat.not_le.mpr hi]
  · have hb : b.testBit i = false :=
      Nat.testBit_lt_two_pow (Nat.lt_of_lt_of_le h (Nat.pow_le_pow_right (by decide) (by omega)))
    rw [if_neg hi, hb]
    simp [Nat.not_lt.mp hi]

/-- Byte `k` of a word, the lowest first. -/
def byte (x : UInt32) (k : Nat) : UInt8 := (x >>> UInt32.ofNat (8 * k)).toUInt8

theorem byte_xor (x y : UInt32) (k : Nat) : byte (x ^^^ y) k = byte x k ^^^ byte y k := by
  have hshift := shiftRight_linear (UInt32.ofNat (8 * k)) x y
  simp only at hshift
  rw [byte, hshift, UInt32.toUInt8_xor]
  rfl

def bytes (x : UInt32) : List UInt8 := [byte x 0, byte x 1, byte x 2, byte x 3]

/-- Four bytes are the bytes of a word. -/
theorem exists_bytes (a b c d : UInt8) : ∃ x, bytes x = [a, b, c, d] := by
  let n := a.toNat + 2 ^ 8 * b.toNat + 2 ^ 16 * c.toNat + 2 ^ 24 * d.toNat
  have ha := a.toNat_lt
  have hb := b.toNat_lt
  have hc := c.toNat_lt
  have hd := d.toNat_lt
  have hn : (UInt32.ofNat n).toNat = n := UInt32.toNat_ofNat_of_lt' (by simp only [n, UInt32.size]; omega)
  have hbyte : ∀ k, k < 4 → (byte (UInt32.ofNat n) k).toNat = n / 2 ^ (8 * k) % 2 ^ 8 := by
    intro k hk
    have hshift : (UInt32.ofNat (8 * k)).toNat % 32 = 8 * k := by
      rw [UInt32.toNat_ofNat']
      omega
    rw [byte, UInt32.toNat_toUInt8, UInt32.toNat_shiftRight, hn, hshift, Nat.shiftRight_eq_div_pow]
  refine ⟨UInt32.ofNat n, ?_⟩
  simp only [bytes, List.cons.injEq, and_true, ← UInt8.toNat_inj]
  rw [hbyte 0 (by decide), hbyte 1 (by decide), hbyte 2 (by decide), hbyte 3 (by decide)]
  simp only [n]
  omega

/-! ## Elimination -/

/-- A word and what a linear map makes of it. -/
abbrev Pair := UInt32 × UInt32

def Pair.add (a b : Pair) : Pair := (a.1 ^^^ b.1, a.2 ^^^ b.2)

theorem Pair.add_cancel (a b : Pair) : (a.add b).add b = a := by
  simp only [Pair.add, xor_cancel]

theorem Pair.add_right_comm (a b c : Pair) : (a.add b).add c = (a.add c).add b := by
  simp only [Pair.add, UInt32.xor_assoc, UInt32.xor_comm b.1, UInt32.xor_comm b.2]

/-- The sums of some of these pairs. -/
def Comb : List Pair → Pair → Prop
  | [], z => z = (0, 0)
  | q :: qs, z => Comb qs z ∨ Comb qs (z.add q)

/-- Clear bit `i` of a value with the pair `q`. -/
def Pair.clear (i : Nat) (q r : Pair) : Pair := if bit r.2 i then r.add q else r

/-- Drop the first pair with bit `i` in its value and clear that bit from those after it. -/
def clear (i : Nat) : List Pair → List Pair
  | [] => []
  | q :: qs => if bit q.2 i then qs.map (Pair.clear i q) else q :: clear i qs

def clearBelow : Nat → List Pair → List Pair
  | 0, qs => qs
  | n + 1, qs => clearBelow n (clear n qs)

/-- The bits below `n` and their values. -/
def basis (f : Nat → UInt32) : Nat → List Pair
  | 0 => []
  | n + 1 => (unit n, f n) :: basis f n

/-- What elimination leaves of the bits: pairs with the value zero. -/
def kernel (f : Nat → UInt32) : List Pair := clearBelow 32 (basis f 32)

section
variable {q z : Pair} {qs : List Pair} {i : Nat}

theorem Pair.clear_add (z r : Pair) :
    Pair.clear i q (z.add r) = (Pair.clear i q z).add (Pair.clear i q r) := by
  have hbit : bit (z.add r).2 i = (bit z.2 i ^^ bit r.2 i) := bit_xor _ _ _
  unfold Pair.clear
  rw [hbit]
  rcases hz : bit z.2 i <;> rcases hr : bit r.2 i
  · rfl
  · simp only [Bool.false_xor, if_true, Bool.false_eq_true, if_false, Pair.add, UInt32.xor_assoc]
  · simp only [Bool.xor_false, if_true, Bool.false_eq_true, if_false]
    exact Pair.add_right_comm z r q
  · -- both were cleared with `q`, which goes out
    simp only [Bool.xor_self, Bool.false_eq_true, if_false, if_true]
    rw [← Pair.add_cancel (z.add r) q]
    simp only [Pair.add, UInt32.xor_assoc, UInt32.xor_comm q.1, UInt32.xor_comm q.2]

theorem comb_map_clear (h : Comb qs z) : Comb (qs.map (Pair.clear i q)) (Pair.clear i q z) := by
  induction qs generalizing z with
  | nil =>
    have hz : z = (0, 0) := h
    rw [hz]
    show Pair.clear i q (0, 0) = (0, 0)
    simp [Pair.clear]
  | cons r qs ih =>
    rcases h with h | h
    · exact Or.inl (ih h)
    · refine Or.inr ?_
      rw [← Pair.clear_add]
      exact ih h

/-- A sum whose value lacks the bit needs no pair that was dropped for it. -/
theorem comb_clear (hz : bit z.2 i = false) (h : Comb qs z) : Comb (clear i qs) z := by
  induction qs generalizing z with
  | nil => exact h
  | cons q qs ih =>
    unfold clear
    by_cases hq : bit q.2 i = true
    · rw [if_pos hq]
      have hself : ∀ y : Pair, bit y.2 i = false → Pair.clear i q y = y := fun y hy => by simp [Pair.clear, hy]
      rcases h with h | h
      · rw [← hself z hz]
        exact comb_map_clear h
      · have hadd : bit (z.add q).2 i = true := by simp [Pair.add, hz, hq]
        have hclear : Pair.clear i q (z.add q) = z := by rw [Pair.clear, if_pos hadd, Pair.add_cancel]
        rw [← hclear]
        exact comb_map_clear h
    · rw [if_neg hq]
      rw [Bool.not_eq_true] at hq
      rcases h with h | h
      · exact Or.inl (ih hz h)
      · exact Or.inr (ih (by simp [Pair.add, hz, hq]) h)

theorem comb_clearBelow {x : UInt32} (n : Nat) (h : Comb qs (x, 0)) : Comb (clearBelow n qs) (x, 0) := by
  induction n generalizing qs with
  | zero => exact h
  | succ n ih => exact ih (comb_clear (bit_zero n) h)

theorem comb_basis (f : Nat → UInt32) (n : Nat) (x : UInt32) : Comb (basis f n) (combine unit n x, combine f n x) := by
  induction n with
  | zero => rfl
  | succ n ih =>
    simp only [combine]
    split
    · refine Or.inr ?_
      rw [Pair.add, xor_cancel, xor_cancel]
      exact ih
    · exact Or.inl ih

attribute [irreducible] clearBelow basis

theorem mem_kernel {f : UInt32 → UInt32} (hf : Linear f) {x : UInt32} (hx : f x = 0) :
    Comb (kernel fun i => f (unit i)) (x, 0) := by
  have h := comb_basis (fun i => f (unit i)) 32 x
  rw [combine_unit, ← hf.eq_combine, hx] at h
  exact comb_clearBelow 32 h

end

end Lib.Gf2
