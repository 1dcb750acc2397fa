/-
  Lib.Text — what a standard library does with text, over lists of characters:
  trimming, letter case, and reading integers, booleans and floats.

  A float is its binary64 pattern; `nearest64` rounds a decimal to the nearest one, ties to
  even. The table of upper cases is a parameter, with what is used of it as its laws.
  - `trim_of_plain`: what holds no whitespace is not trimmed; a text that reads as a number
    holds none (`plain_of_parseInt64`, `parseFloat_some`).
  - `toUppercase_eq_iff`: for a word of `Capital` letters, comparing upper cases and
    comparing without regard to ASCII case are the same.
  - `parseFloat_some`: which texts read as a NaN.
-/

import Mathlib

namespace Lib.Text

/-! ## Whitespace -/

/-- The Unicode property White_Space. -/
def isWhitespace (c : Char) : Bool :=
  let n := c.toNat
  (0x9 ≤ n && n ≤ 0xD) || n == 0x20 || n == 0x85 || n == 0xA0 || n == 0x1680 || (0x2000 ≤ n && n ≤ 0x200A) ||
    n == 0x2028 || n == 0x2029 || n == 0x202F || n == 0x205F || n == 0x3000

def trim (s : List Char) : List Char := (s.dropWhile isWhitespace).rdropWhile isWhitespace

/-- No whitespace in it. -/
def Plain (s : List Char) : Prop := ∀ c ∈ s, isWhitespace c = false

theorem trim_of_plain {s : List Char} (h : Plain s) : trim s = s := by
  have hdrop : s.dropWhile isWhitespace = s := by
    rw [List.dropWhile_eq_self_iff]
    intro hl
    simp [h _ (List.getElem_mem hl)]
  rw [trim, hdrop, List.rdropWhile_eq_self_iff]
  intro hl
  simp [h _ (List.getLast_mem hl)]

theorem plain_append {s t : List Char} : Plain (s ++ t) ↔ Plain s ∧ Plain t := by
  simp only [Plain, List.forall_mem_append]

theorem plain_cons {c : Char} {s : List Char} : Plain (c :: s) ↔ isWhitespace c = false ∧ Plain s := by
  simp only [Plain, List.forall_mem_cons]

theorem plain_nil : Plain [] := fun _ h => absurd h List.not_mem_nil

/-- A text that is given holds no whitespace by evaluation. -/
theorem plain_of_all {s : List Char} (h : s.all (fun c => !isWhitespace c) = true) : Plain s := by
  intro c hc
  have hw := List.all_eq_true.mp h c hc
  rwa [Bool.not_eq_true'] at hw

theorem isWhitespace_of_word {c : Char} (h : 33 ≤ c.toNat) (h' : c.toNat < 128) : isWhitespace c = false := by
  simp only [isWhitespace, Bool.or_eq_false_iff, Bool.and_eq_false_iff, decide_eq_false_iff_not, beq_eq_false_iff_ne]
  omega

/-! ## Letter case -/

theorem toNat_toLower (c : Char) :
    c.toLower.toNat = if 65 ≤ c.toNat ∧ c.toNat ≤ 90 then c.toNat + 32 else c.toNat := by
  unfold Char.toLower
  have hA : 'A'.val.toNat = 65 := rfl
  have hZ : 'Z'.val.toNat = 90 := rfl
  simp only [ge_iff_le, UInt32.le_iff_toNat_le, hA, hZ, Char.toNat]
  split
  · rename_i h
    show (c.val + 32).toNat = _
    have h32 : (32 : UInt32).toNat = 32 := rfl
    rw [UInt32.toNat_add]
    omega
  · rfl

theorem toNat_toUpper (c : Char) :
    c.toUpper.toNat = if 97 ≤ c.toNat ∧ c.toNat ≤ 122 then c.toNat - 32 else c.toNat := by
  unfold Char.toUpper
  have ha : 'a'.val.toNat = 97 := rfl
  have hz : 'z'.val.toNat = 122 := rfl
  simp only [UInt32.le_iff_toNat_le, ha, hz, Char.toNat]
  split
  · rename_i h
    -- to subtract 32 is to add its complement
    show (c.val + 4294967264).toNat = _
    have h32 : (4294967264 : UInt32).toNat = 4294967264 := rfl
    rw [UInt32.toNat_add]
    omega
  · rfl

/-- ASCII lower case. -/
def lower (s : List Char) : List Char := s.map Char.toLower

theorem isWhitespace_toLower (c : Char) : isWhitespace c.toLower = isWhitespace c := by
  by_cases h : 65 ≤ c.toNat ∧ c.toNat ≤ 90
  · have hlow := toNat_toLower c
    rw [if_pos h] at hlow
    rw [isWhitespace_of_word (by omega) (by omega), isWhitespace_of_word (by omega) (by omega)]
  · have hlow := toNat_toLower c
    rw [if_neg h] at hlow
    rw [Char.toNat_inj.mp hlow]

theorem plain_of_lower {s : List Char} (h : Plain (lower s)) : Plain s := by
  intro c hc
  rw [← isWhitespace_toLower]
  exact h _ (List.mem_map_of_mem hc)

/-- The upper case of each character. Of those outside ASCII it is used that none is written
    in ASCII without an F, an I or an S (the ligatures, the dotless i, the sharp and long s). -/
structure UpperCase where
  upper : Char → List Char
  ascii : ∀ c, c.toNat < 128 → upper c = [c.toUpper]
  beyond : ∀ c, 128 ≤ c.toNat → ∃ d ∈ upper c, 128 ≤ d.toNat ∨ d = 'F' ∨ d = 'I' ∨ d = 'S'

/-- The table of the ASCII letters, which leaves every other character alone. -/
def UpperCase.ofAscii : UpperCase where
  upper c := [c.toUpper]
  ascii _ _ := rfl
  beyond c h := by
    refine ⟨c.toUpper, List.mem_singleton_self _, Or.inl ?_⟩
    have hup := toNat_toUpper c
    rw [if_neg (by omega)] at hup
    omega

def UpperCase.toUppercase (u : UpperCase) (s : List Char) : List Char := s.flatMap u.upper

/-- A capital letter that is part of no upper case but its own and its small letter's. -/
def Capital (d : Char) : Prop := (65 ≤ d.toNat ∧ d.toNat ≤ 90) ∧ d ≠ 'F' ∧ d ≠ 'I' ∧ d ≠ 'S'

theorem Capital.toUpper_eq_iff {d c : Char} (hd : Capital d) : c.toUpper = d ↔ c.toLower = d.toLower := by
  have hcap := hd.1
  rw [← Char.toNat_inj, ← Char.toNat_inj, toNat_toUpper, toNat_toLower, toNat_toLower, if_pos hcap]
  split <;> split <;> omega

theorem UpperCase.toUppercase_eq_iff (u : UpperCase) {s w : List Char} (hw : ∀ d ∈ w, Capital d) :
    u.toUppercase s = w ↔ lower s = lower w := by
  induction s generalizing w with
  | nil =>
    cases w with
    | nil => exact ⟨fun _ => rfl, fun _ => rfl⟩
    | cons d w => simp [toUppercase, lower]
  | cons c s ih =>
    rw [toUppercase, List.flatMap_cons]
    by_cases hc : c.toNat < 128
    · rw [u.ascii c hc]
      cases w with
      | nil => simp [lower]
      | cons d w =>
        obtain ⟨hd, hw⟩ := List.forall_mem_cons.mp hw
        have hrest := ih hw
        rw [toUppercase] at hrest
        simp only [List.singleton_append, List.cons.injEq, lower, List.map_cons, hd.toUpper_eq_iff] at hrest ⊢
        rw [hrest]
    · -- a character outside ASCII is written with none of the letters of `w`
      obtain ⟨d, hd, hout⟩ := u.beyond c (by omega)
      constructor
      · intro he
        obtain ⟨hcap, hF, hI, hS⟩ := hw d (he ▸ List.mem_append_left _ hd)
        rcases hout with hout | hout | hout | hout
        · omega
        · exact absurd hout hF
        · exact absurd hout hI
        · exact absurd hout hS
      · intro he
        cases w with
        | nil => cases he
        | cons d w =>
          have hcap := (hw d List.mem_cons_self).1
          have hlow := (List.cons.inj he).1
          rw [← Char.toNat_inj, toNat_toLower, toNat_toLower, if_neg (by omega), if_pos hcap] at hlow
          omega

/-! ## Numbers -/

/-- The digits of a number, most significant first. -/
def value (s : List Char) : Nat := s.foldl (fun n c => 10 * n + (c.toNat - '0'.toNat)) 0

/-- One digit or more, and nothing else. -/
def digits (s : List Char) : Option Nat := if s.isEmpty || !s.all Char.isDigit then none else some (value s)

/-- A sign, and what it stands before; no sign is a plus. -/
def signed : List Char → Bool × List Char
  | '-' :: s => (true, s)
  | '+' :: s => (false, s)
  | s => (false, s)

/-- `i64::from_str`. -/
def parseInt64 (s : List Char) : Option Int64 :=
  match digits (signed s).2 with
  | none => none
  | some n =>
    if (signed s).1 then if n ≤ 2 ^ 63 then some (Int64.ofInt (-n)) else none
    else if n < 2 ^ 63 then some (Int64.ofNat n) else none

/-- `bool::from_str`. -/
def parseBool (s : List Char) : Option Bool :=
  if s = "true".toList then some true else if s = "false".toList then some false else none

theorem isWhitespace_of_isDigit {c : Char} (h : c.isDigit) : isWhitespace c = false := by
  obtain ⟨h0, h9⟩ := Char.isDigit_iff_toNat.mp h
  have : '0'.toNat = 48 := rfl
  have : '9'.toNat = 57 := rfl
  exact isWhitespace_of_word (by omega) (by omega)

theorem plain_of_digits {s : List Char} {n : Nat} (h : digits s = some n) : Plain s := by
  unfold digits at h
  split at h
  · cases h
  · rename_i hd
    intro c hc
    simp only [Bool.or_eq_true, Bool.not_eq_true', not_or, Bool.not_eq_false, List.all_eq_true] at hd
    exact isWhitespace_of_isDigit (hd.2 c hc)

theorem plain_of_signed {s : List Char} (h : Plain (signed s).2) : Plain s := by
  unfold signed at h
  split at h
  · exact plain_cons.mpr ⟨rfl, h⟩
  · exact plain_cons.mpr ⟨rfl, h⟩
  · exact h

theorem plain_of_parseInt64 {s : List Char} {n : Int64} (h : parseInt64 s = some n) : Plain s := by
  unfold parseInt64 at h
  rcases hd : digits (signed s).2 with _ | m
  · rw [hd] at h
    cases h
  · exact plain_of_signed (plain_of_digits hd)

/-! ## Floats -/

/-- The pattern of infinity. A pattern that is greater, but for its sign, is a NaN. -/
def infBits : Nat := 0x7FF0000000000000

def nanBits : Nat := 0x7FF8000000000000

def isNan (bits : UInt64) : Bool := infBits < bits.toNat % 2 ^ 63

/-- Equality of floats: no NaN equals anything, and the two zeros are equal. -/
def floatEq (a b : UInt64) : Bool :=
  !isNan a && !isNan b && (a == b || (a.toNat % 2 ^ 63 == 0 && b.toNat % 2 ^ 63 == 0))

theorem floatEq_self (a : UInt64) : floatEq a a = !isNan a := by simp [floatEq]

/-- The quotient of `num` and `den`, over `2 ^ e`. -/
def scale (num den : Nat) (e : Int) : Nat × Nat := (num * 2 ^ (-e).toNat, den * 2 ^ e.toNat)

/-- The greatest `e` with `2 ^ e ≤ num / den`. -/
def floorLog2 (num den : Nat) : Int :=
  let e : Int := num.log2 - den.log2
  let (n, d) := scale num den e
  if n < d then e - 1 else e

def roundHalfEven (num den : Nat) : Nat :=
  let q := num / den
  let r := num % den
  if 2 * r < den ∨ (2 * r = den ∧ q % 2 = 0) then q else q + 1

/-- The binary64 nearest to `m * 10 ^ e`. Exponent and fraction are one number, so a fraction
    rounded up to a power of two carries into the exponent, and past the last is infinity. -/
def nearest64 (m : Nat) (e : Int) : Nat :=
  if m = 0 then 0
  else
    let num := m * 10 ^ e.toNat
    let den := 10 ^ (-e).toNat
    let ulp := max (floorLog2 num den - 52) (-1074)
    let (n, d) := scale num den ulp
    min ((ulp + 1074).toNat * 2 ^ 52 + roundHalfEven n d) infBits

/-- The exponent of a number, if it has one; nothing may follow. -/
def exponent : List Char → Option Int
  | [] => some 0
  | c :: s =>
    if c.toLower = 'e' then (digits (signed s).2).map fun (n : Nat) => if (signed s).1 then -(n : Int) else n
    else none

/-- What stands before and after the point; no point is a point with nothing after it. -/
def point (s : List Char) : List Char × List Char :=
  match s with
  | '.' :: s => (s.takeWhile Char.isDigit, s.dropWhile Char.isDigit)
  | s => ([], s)

/-- A number without its sign: digits on one side of the point at least, and an exponent. -/
def decimal (s : List Char) : Option Nat :=
  let whole := s.takeWhile Char.isDigit
  let (fraction, rest) := point (s.dropWhile Char.isDigit)
  if whole.isEmpty && fraction.isEmpty then none
  else (exponent rest).map fun e => nearest64 (value (whole ++ fraction)) (e - fraction.length)

/-- `inf` and `nan` in any case, and numbers. -/
def magnitude (s : List Char) : Option Nat :=
  if lower s = "inf".toList ∨ lower s = "infinity".toList then some infBits
  else if lower s = "nan".toList then some nanBits
  else decimal s

/-- `f64::from_str`. -/
def parseFloat (s : List Char) : Option UInt64 :=
  (magnitude (signed s).2).map fun bits => if (signed s).1 then UInt64.ofNat (2 ^ 63 + bits) else UInt64.ofNat bits

theorem nearest64_le (m : Nat) (e : Int) : nearest64 m e ≤ infBits := by
  unfold nearest64
  split
  · exact Nat.zero_le _
  · exact Nat.min_le_right _ _

theorem plain_of_exponent {s : List Char} {e : Int} (h : exponent s = some e) : Plain s := by
  unfold exponent at h
  split at h
  · exact plain_nil
  · rename_i c s
    split at h
    · rename_i hc
      obtain ⟨n, hn, -⟩ := Option.map_eq_some_iff.mp h
      refine plain_cons.mpr ⟨?_, plain_of_signed (plain_of_digits hn)⟩
      rw [← isWhitespace_toLower, hc]
      rfl
    · cases h

theorem plain_of_point {s : List Char} (h : Plain (point s).2) : Plain s := by
  unfold point at h
  split at h
  · rename_i s
    refine plain_cons.mpr ⟨rfl, ?_⟩
    rw [← @List.takeWhile_append_dropWhile _ Char.isDigit s]
    exact plain_append.mpr ⟨fun c hc => isWhitespace_of_isDigit (List.mem_takeWhile_imp hc), h⟩
  · exact h

theorem decimal_some {s : List Char} {bits : Nat} (h : decimal s = some bits) : Plain s ∧ bits ≤ infBits := by
  unfold decimal at h
  simp only at h
  split at h
  · cases h
  · obtain ⟨e, he, rfl⟩ := Option.map_eq_some_iff.mp h
    refine ⟨?_, nearest64_le _ _⟩
    rw [← @List.takeWhile_append_dropWhile _ Char.isDigit s]
    exact plain_append.mpr ⟨fun c hc => isWhitespace_of_isDigit (List.mem_takeWhile_imp hc),
      plain_of_point (plain_of_exponent he)⟩

theorem magnitude_some {s : List Char} {bits : Nat} (h : magnitude s = some bits) :
    Plain s ∧ bits < 2 ^ 63 ∧ (infBits < bits ↔ lower s = "nan".toList) := by
  unfold magnitude at h
  split at h
  · rename_i hs
    cases h
    refine ⟨plain_of_lower ?_, by decide, iff_of_false (Nat.lt_irrefl _) ?_⟩
    · rcases hs with hs | hs <;> rw [hs] <;> exact plain_of_all rfl
    · intro hn
      rcases hs with hs | hs <;> rw [hn] at hs <;> revert hs <;> decide
  · split at h
    · rename_i hs
      cases h
      refine ⟨plain_of_lower ?_, by decide, iff_of_true (by decide) hs⟩
      rw [hs]
      exact plain_of_all rfl
    · rename_i hs
      obtain ⟨hplain, hle⟩ := decimal_some h
      refine ⟨hplain, Nat.lt_of_le_of_lt hle (by decide), iff_of_false (Nat.not_lt.mpr hle) hs⟩

/-- The texts that read as a NaN. -/
def SpellsNan (s : List Char) : Prop := lower (signed s).2 = "nan".toList

instance (s : List Char) : Decidable (SpellsNan s) := inferInstanceAs (Decidable (_ = _))

theorem parseFloat_of_spellsNan {s : List Char} (h : SpellsNan s) : ∃ bits, parseFloat s = some bits := by
  have hinf : ¬ (lower (signed s).2 = "inf".toList ∨ lower (signed s).2 = "infinity".toList) := by
    rw [h]
    decide
  rw [parseFloat, magnitude, if_neg hinf, if_pos (show lower (signed s).2 = "nan".toList from h)]
  exact ⟨_, rfl⟩

theorem parseFloat_some {s : List Char} {bits : UInt64} (h : parseFloat s = some bits) :
    Plain s ∧ (isNan bits = true ↔ SpellsNan s) := by
  obtain ⟨n, hn, rfl⟩ := Option.map_eq_some_iff.mp h
  obtain ⟨hplain, hlt, hnan⟩ := magnitude_some hn
  refine ⟨plain_of_signed hplain, ?_⟩
  rw [SpellsNan, ← hnan, isNan, decide_eq_true_iff]
  -- the sign is the highest bit
  have hmod : (if (signed s).1 then UInt64.ofNat (2 ^ 63 + n) else UInt64.ofNat n).toNat % 2 ^ 63 = n := by
    split <;> rw [UInt64.toNat_ofNat'] <;> omega
  rw [hmod]

end Lib.Text
