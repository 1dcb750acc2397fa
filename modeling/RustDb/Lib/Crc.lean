/-
  Lib.Crc — a reflected CRC of 32 bits over bytes, for any generator.

  A step is linear, and undone by none but zero when the generator has its highest bit. The
  register after `n` steps is a product with what `n` steps make of the highest bit, so many
  steps are a few products (`iterate_eq_mul`, `power_eq`).
  - `run_xor`: the register over the difference of two messages is the difference of theirs.
  - `run_zeros`: zeros are steps.
-/

import RustDb.Lib.Gf2

namespace Lib.Crc

open Lib.Gf2

variable {p : UInt32}

/-! ## One step -/

/-- One bit shifted out; `p` is the generator without its highest term, reflected. -/
def step (p s : UInt32) : UInt32 := if s &&& 1 = 1 then (s >>> 1) ^^^ p else s >>> 1

theorem bit_shiftRight_one (s : UInt32) (i : Nat) : bit (s >>> 1) i = bit s (i + 1) := by
  have h : (s >>> 1).toNat = s.toNat >>> 1 := by rw [UInt32.toNat_shiftRight]; rfl
  rw [bit, bit, h, Nat.testBit_shiftRight, Nat.add_comm]

theorem and_one_iff (s : UInt32) : s &&& 1 = 1 ↔ bit s 0 = true := by
  rw [← UInt32.toNat_inj, UInt32.toNat_and, bit, Nat.testBit_zero, decide_eq_true_iff, ← Nat.and_one_is_mod]
  rfl

theorem bit_step (s : UInt32) (i : Nat) : bit (step p s) i = (bit s (i + 1) ^^ (bit s 0 && bit p i)) := by
  unfold step
  by_cases h : s &&& 1 = 1
  · rw [if_pos h, bit_xor, bit_shiftRight_one, (and_one_iff s).mp h, Bool.true_and]
  · rw [if_neg h, bit_shiftRight_one, Bool.eq_false_iff.mpr ((and_one_iff s).not.mp h), Bool.false_and, Bool.xor_false]

theorem step_linear (p : UInt32) : Linear (step p) := by
  intro x y
  refine eq_of_bit fun i _ => ?_
  rw [bit_xor, bit_step, bit_step, bit_step, bit_xor, bit_xor]
  cases bit x 0 <;> cases bit y 0 <;> cases bit p i <;> cases bit x (i + 1) <;> cases bit y (i + 1) <;> rfl

theorem step_injective (hp : bit p 31 = true) : Function.Injective (step p) := by
  refine (step_linear p).injective fun x hx => eq_of_bit fun i _ => ?_
  have hbit : ∀ j, bit x (j + 1) = (bit x 0 && bit p j) := by
    intro j
    have h := bit_step (p := p) x j
    rw [hx, bit_zero] at h
    simpa using h
  -- the highest bit of the result is the lowest of `x`
  have hlow : bit x 0 = false := by
    have h := hbit 31
    rw [bit_ge x (Nat.le_refl 32), hp, Bool.and_true] at h
    exact h.symm
  rw [bit_zero]
  cases i with
  | zero => exact hlow
  | succ i => rw [hbit, hlow, Bool.false_and]

theorem step_unit {i : Nat} (h : i + 1 < 32) : step p (unit (i + 1)) = unit i := by
  refine eq_of_bit fun j _ => ?_
  rw [bit_step, bit_unit h, bit_unit h, bit_unit (by omega)]
  simp

theorem iterate_unit : ∀ {k i : Nat}, i + k < 32 → (step p)^[k] (unit (i + k)) = unit i
  | 0, _, _ => rfl
  | k + 1, i, h => by
    rw [Function.iterate_succ_apply, ← Nat.add_assoc, step_unit (by omega)]
    exact iterate_unit (by omega)

/-! ## Many steps -/

/-- The product: each bit of `x` moves `y` as far as it stands below the highest. -/
def mul (p x y : UInt32) : UInt32 := combine (fun i => (step p)^[31 - i] y) 32 x

theorem iterate_eq_mul (p : UInt32) (n : Nat) (x : UInt32) : (step p)^[n] x = mul p x ((step p)^[n] (unit 31)) := by
  rw [((step_linear p).iterate n).eq_combine x, mul]
  refine combine_congr fun i hi => ?_
  have hunit := @iterate_unit p (31 - i) i (by omega)
  rw [show i + (31 - i) = 31 by omega] at hunit
  rw [← hunit, ← Function.iterate_add_apply, ← Function.iterate_add_apply, Nat.add_comm]

/-- What as many steps as the number of these digits, highest first, make of the highest bit. -/
def power (p : UInt32) (bs : List Bool) : UInt32 :=
  bs.foldl (fun x b => if b then step p (mul p x x) else mul p x x) (unit 31)

/-- The number of these digits. -/
def number (bs : List Bool) : Nat := bs.foldl (fun n b => if b then 2 * n + 1 else 2 * n) 0

theorem power_eq (p : UInt32) (bs : List Bool) : power p bs = (step p)^[number bs] (unit 31) := by
  have h : ∀ (bs : List Bool) (n : Nat), bs.foldl (fun x b => if b then step p (mul p x x) else mul p x x)
      ((step p)^[n] (unit 31)) = (step p)^[bs.foldl (fun n b => if b then 2 * n + 1 else 2 * n) n] (unit 31) := by
    intro bs
    induction bs with
    | nil => exact fun n => rfl
    | cons b bs ih =>
      intro n
      have hdouble : mul p ((step p)^[n] (unit 31)) ((step p)^[n] (unit 31)) = (step p)^[2 * n] (unit 31) := by
        rw [← iterate_eq_mul, ← Function.iterate_add_apply, Nat.two_mul]
      rw [List.foldl_cons, List.foldl_cons, hdouble, ← ih]
      cases b with
      | false => rfl
      | true =>
        rw [if_pos rfl, if_pos rfl, Function.iterate_succ_apply']
  exact h bs 0

/-! ## Over bytes -/

/-- The register after these bytes. -/
def run (p s : UInt32) (bs : List UInt8) : UInt32 := bs.foldl (fun s b => (step p)^[8] (s ^^^ b.toUInt32)) s

theorem run_append (s : UInt32) (as bs : List UInt8) : run p s (as ++ bs) = run p (run p s as) bs := List.foldl_append

theorem run_cons (s : UInt32) (b : UInt8) (bs : List UInt8) :
    run p s (b :: bs) = run p ((step p)^[8] (s ^^^ b.toUInt32)) bs := rfl

/-- Byte by byte, the difference of two messages. -/
def diff (as bs : List UInt8) : List UInt8 := List.zipWith (· ^^^ ·) as bs

theorem zeros_diff (bs : List UInt8) : diff (List.replicate bs.length 0) bs = bs := by
  induction bs with
  | nil => rfl
  | cons b bs ih =>
    rw [diff] at ih ⊢
    rw [List.length_cons, List.replicate_succ, List.zipWith_cons_cons, ih, UInt8.zero_xor]

theorem run_xor {as bs : List UInt8} (h : as.length = bs.length) (s t : UInt32) :
    run p (s ^^^ t) (diff as bs) = run p s as ^^^ run p t bs := by
  induction as generalizing bs s t with
  | nil =>
    cases List.eq_nil_of_length_eq_zero h.symm
    rfl
  | cons a as ih =>
    cases bs with
    | nil => cases h
    | cons b bs =>
      have hlin := (step_linear p).iterate 8 (s ^^^ a.toUInt32) (t ^^^ b.toUInt32)
      rw [diff, List.zipWith_cons_cons, run_cons, run_cons, run_cons, UInt8.toUInt32_xor, xor_xor_xor_comm, hlin]
      exact ih (Nat.succ.inj h) _ _

theorem run_zeros (s : UInt32) (n : Nat) : run p s (List.replicate n 0) = (step p)^[8 * n] s := by
  induction n generalizing s with
  | zero => rfl
  | succ n ih =>
    rw [List.replicate_succ, run_cons, ih, ← Function.iterate_add_apply]
    have hzero : s ^^^ (0 : UInt8).toUInt32 = s := UInt32.xor_zero
    rw [hzero, Nat.mul_succ]

/-- What the register held before passes through all the steps. -/
theorem run_eq (s : UInt32) (bs : List UInt8) : run p s bs = (step p)^[8 * bs.length] s ^^^ run p 0 bs := by
  have h := run_xor (p := p) (show (List.replicate bs.length 0).length = bs.length by simp) s 0
  rwa [zeros_diff, UInt32.xor_zero, run_zeros] at h

end Lib.Crc
