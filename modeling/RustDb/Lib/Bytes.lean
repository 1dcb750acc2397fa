/-
  Lib.Bytes — fixed-width big-endian numbers, LEB128 numbers and strings as byte lists,
  and readers that consume a byte list from the front.

  Every writer `w` and reader `r` of a pair satisfies `r (w x ++ rest) = ok (x, rest)`:
  - `ofBE_toBE`: a number below `256 ^ w` is read back from its `w` big-endian bytes.
  - `read_encode`: LEB128, for every number of at most 64 bits.
  - `strOfBytes_strBytes`: a string is read back from its UTF-8 bytes.
-/

import Mathlib.Data.List.Basic
import Mathlib.Tactic.Ring

namespace Lib.Bytes

/-! ## Readers -/

/-- A reader takes bytes off the front of its input, or fails. -/
abbrev Reader (ε α : Type) := StateT (List UInt8) (Except ε) α

/-- Exactly `n` bytes, or `e` when fewer are left. -/
def readExact {ε : Type} (e : ε) (n : Nat) : Reader ε (List UInt8) := fun bs =>
  if n ≤ bs.length then .ok (bs.take n, bs.drop n) else .error e

def mapError {ε ε' α : Type} (f : ε → ε') (r : Reader ε α) : Reader ε' α := fun bs =>
  match r bs with
  | .ok x => .ok x
  | .error e => .error (f e)

section
variable {ε ε' α β : Type}

@[simp] theorem bind_run (r : Reader ε α) (f : α → Reader ε β) (bs : List UInt8) :
    (r >>= f) bs = match r bs with | .ok (a, rest) => f a rest | .error e => .error e := by
  show (r bs >>= fun p => f p.1 p.2) = _
  cases r bs <;> rfl

theorem bind_eq_ok {r : Reader ε α} {f : α → Reader ε β} {bs : List UInt8} {x : β × List UInt8} :
    (r >>= f) bs = .ok x ↔ ∃ a rest, r bs = .ok (a, rest) ∧ f a rest = .ok x := by
  rw [bind_run]
  cases h : r bs with
  | error e => simp
  | ok y => exact ⟨fun h' => ⟨_, _, rfl, h'⟩, fun ⟨_, _, h1, h2⟩ => by cases h1; exact h2⟩

@[simp] theorem pure_run (a : α) (bs : List UInt8) : (pure a : Reader ε α) bs = .ok (a, bs) := rfl

@[simp] theorem throw_run (e : ε) (bs : List UInt8) : (throw e : Reader ε α) bs = .error e := rfl

theorem readExact_append (e : ε) {n : Nat} {as : List UInt8} (h : as.length = n) (rest : List UInt8) :
    readExact e n (as ++ rest) = .ok (as, rest) := by
  simp [readExact, ← h]

theorem readExact_ok {e : ε} {n : Nat} {bs as rest : List UInt8} (h : readExact e n bs = .ok (as, rest)) :
    bs = as ++ rest ∧ as.length = n := by
  unfold readExact at h
  split at h
  · cases h; simp; omega
  · cases h

theorem mapError_ok {f : ε → ε'} {r : Reader ε α} {bs : List UInt8} {x : α × List UInt8} (h : r bs = .ok x) :
    mapError f r bs = .ok x := by simp [mapError, h]

theorem mapError_eq_ok {f : ε → ε'} {r : Reader ε α} {bs : List UInt8} {x : α × List UInt8} :
    mapError f r bs = .ok x ↔ r bs = .ok x := by
  unfold mapError; cases r bs <;> simp

/-- The same reader `n` times. -/
def readMany (r : Reader ε α) : Nat → Reader ε (List α)
  | 0 => pure []
  | n + 1 => do
    let a ← r
    let as ← readMany r n
    pure (a :: as)

/-- A list is read back from its elements' bytes, one after the other. -/
theorem readMany_flatMap {r : Reader ε α} {w : α → List UInt8} {as : List α}
    (h : ∀ a ∈ as, ∀ rest, r (w a ++ rest) = .ok (a, rest)) (rest : List UInt8) :
    readMany r as.length (as.flatMap w ++ rest) = .ok (as, rest) := by
  induction as with
  | nil => rfl
  | cons a as ih =>
    have ih := ih (fun b hb => h b (List.mem_cons_of_mem a hb))
    simp only [List.length_cons, List.flatMap_cons, List.append_assoc, readMany, bind_run, h a (List.mem_cons_self ..), ih,
      pure_run]

/-- What every read returns, every element read has. -/
theorem readMany_ok {r : Reader ε α} {P : α → Prop} (hr : ∀ bs a rest, r bs = .ok (a, rest) → P a) :
    ∀ {n : Nat} {bs : List UInt8} {as : List α} {rest : List UInt8}, readMany r n bs = .ok (as, rest) →
      as.length = n ∧ ∀ a ∈ as, P a
  | 0, _, _, _, h => by cases h; simp
  | n + 1, bs, as, rest, h => by
    simp only [readMany, bind_run] at h
    cases hb : r bs with
    | error e => simp [hb] at h
    | ok x =>
      simp only [hb] at h
      cases hb' : readMany r n x.2 with
      | error e => simp [hb'] at h
      | ok y =>
        simp only [hb', pure_run, Except.ok.injEq, Prod.mk.injEq] at h
        obtain ⟨hlen, hall⟩ := readMany_ok hr hb'
        obtain ⟨rfl, -⟩ := h
        refine ⟨by simp [hlen], ?_⟩
        rintro a (_ | ⟨_, ha⟩)
        · exact hr _ _ _ hb
        · exact hall a ha

end

/-! ## Big-endian numbers -/

/-- The `w` low bytes of `n`, most significant first. -/
def toBE : Nat → Nat → List UInt8
  | 0, _ => []
  | w + 1, n => UInt8.ofNat (n / 256 ^ w) :: toBE w n

def ofBE (bs : List UInt8) : Nat := bs.foldl (fun acc b => acc * 256 + b.toNat) 0

@[simp] theorem length_toBE : ∀ w n : Nat, (toBE w n).length = w
  | 0, _ => rfl
  | w + 1, n => by simp [toBE, length_toBE w n]

theorem ofBE_aux (bs : List UInt8) : ∀ acc : Nat,
    bs.foldl (fun acc b => acc * 256 + b.toNat) acc = acc * 256 ^ bs.length + ofBE bs := by
  induction bs with
  | nil => simp [ofBE]
  | cons b bs ih =>
    intro acc
    simp only [ofBE, List.foldl_cons, List.length_cons, Nat.zero_mul, Nat.zero_add]
    rw [ih, ih b.toNat, Nat.pow_succ]
    ring_nf

theorem ofBE_cons (b : UInt8) (bs : List UInt8) : ofBE (b :: bs) = b.toNat * 256 ^ bs.length + ofBE bs := by
  simp only [ofBE, List.foldl_cons, Nat.zero_mul, Nat.zero_add]
  exact ofBE_aux bs _

theorem ofBE_toBE_mod : ∀ w n : Nat, ofBE (toBE w n) = n % 256 ^ w
  | 0, n => by simp [toBE, ofBE, Nat.mod_one]
  | w + 1, n => by
    rw [toBE, ofBE_cons, length_toBE, ofBE_toBE_mod w n, Nat.pow_succ, Nat.mod_mul]
    have : (UInt8.ofNat (n / 256 ^ w)).toNat = n / 256 ^ w % 256 := UInt8.toNat_ofNat'
    rw [this, Nat.mul_comm, Nat.add_comm]

theorem ofBE_toBE {w n : Nat} (h : n < 256 ^ w) : ofBE (toBE w n) = n := by
  rw [ofBE_toBE_mod, Nat.mod_eq_of_lt h]

/-! ## LEB128 -/

/-- Seven payload bits a byte, least significant first; every byte but the last has its
    high bit set. `fuel` bounds the number of bytes. -/
def encodeFuel : Nat → Nat → List UInt8
  | 0, _ => []
  | fuel + 1, n => if n < 128 then [UInt8.ofNat n] else UInt8.ofNat (n % 128 + 128) :: encodeFuel fuel (n / 128)

/-- A 64-bit number takes at most ten bytes. -/
def encode (n : Nat) : List UInt8 := encodeFuel 10 n

def sizeFuel : Nat → Nat → Nat
  | 0, _ => 0
  | fuel + 1, n => if n < 128 then 1 else 1 + sizeFuel fuel (n / 128)

/-- The number of bytes `encode` writes. -/
def size (n : Nat) : Nat := sizeFuel 10 n

inductive LebError where
  | eof
  | unterminated
  deriving DecidableEq, Repr

/-- Reads at most `fuel` more bytes; the next one carries the bits from `shift` up. The tenth
    byte has room for one bit, and a number with more is taken for one that was cut off. After
    ten bytes the number must have ended: a further byte is refused, whatever it is. -/
def readFuel : Nat → Nat → Nat → List UInt8 → Except LebError (Nat × List UInt8)
  | 0, _, _, _ :: _ => .error .unterminated
  | _, _, _, [] => .error .eof
  | fuel + 1, shift, acc, b :: bs =>
    if b.toNat < 128 then
      if fuel = 0 ∧ 2 ≤ b.toNat then .error .eof else .ok (acc + b.toNat * 2 ^ shift, bs)
    else readFuel fuel (shift + 7) (acc + b.toNat % 128 * 2 ^ shift) bs

def read : List UInt8 → Except LebError (Nat × List UInt8) := readFuel 10 0 0

theorem length_encodeFuel : ∀ fuel n : Nat, (encodeFuel fuel n).length = sizeFuel fuel n
  | 0, _ => rfl
  | fuel + 1, n => by
    simp only [encodeFuel, sizeFuel]
    split
    · rfl
    · rw [List.length_cons, length_encodeFuel fuel]; omega

@[simp] theorem length_encode (n : Nat) : (encode n).length = size n := length_encodeFuel 10 n

theorem size_pos (n : Nat) : 0 < size n := by
  unfold size sizeFuel; split <;> omega

theorem size_eq_two {n : Nat} (h : 128 ≤ n) (h' : n < 16384) : size n = 2 := by
  have h1 : ¬ n < 128 := by omega
  have h2 : n / 128 < 128 := by omega
  simp [size, sizeFuel, h1, h2]

theorem readFuel_encodeFuel : ∀ (fuel shift acc n : Nat) (rest : List UInt8), shift + 7 * fuel = 63 →
    n * 2 ^ shift < 2 ^ 64 →
    readFuel (fuel + 1) shift acc (encodeFuel (fuel + 1) n ++ rest) = .ok (acc + n * 2 ^ shift, rest) := by
  intro fuel
  induction fuel with
  | zero =>
    intro shift acc n rest hshift hn
    obtain rfl : shift = 63 := by omega
    have hbit : n < 2 := by omega
    have hbyte : (UInt8.ofNat n).toNat = n := by
      rw [UInt8.toNat_ofNat']
      omega
    rw [encodeFuel, if_pos (by omega), List.singleton_append, readFuel, hbyte, if_pos (by omega), if_neg (by omega)]
  | succ fuel ih =>
    intro shift acc n rest hshift hn
    rw [encodeFuel]
    by_cases hlast : n < 128
    · have hbyte : (UInt8.ofNat n).toNat = n := by
        rw [UInt8.toNat_ofNat']
        omega
      rw [if_pos hlast, List.singleton_append, readFuel, hbyte, if_pos hlast, if_neg (by omega)]
    · have hbyte : (UInt8.ofNat (n % 128 + 128)).toNat = n % 128 + 128 := by
        rw [UInt8.toNat_ofNat']
        omega
      have hsplit : n * 2 ^ shift = n % 128 * 2 ^ shift + n / 128 * 2 ^ (shift + 7) := by
        calc n * 2 ^ shift = (n % 128 + 128 * (n / 128)) * 2 ^ shift := by rw [Nat.mod_add_div]
          _ = n % 128 * 2 ^ shift + n / 128 * 2 ^ (shift + 7) := by rw [Nat.pow_add]; ring
      rw [if_neg hlast, List.cons_append, readFuel, hbyte, if_neg (by omega), Nat.add_mod_right, Nat.mod_mod,
        ih (shift + 7) _ (n / 128) rest (by omega) (by omega), hsplit, Nat.add_assoc]

/-- A 64-bit number is read back, whatever follows it. -/
theorem read_encode {n : Nat} (h : n < 2 ^ 64) (rest : List UInt8) : read (encode n ++ rest) = .ok (n, rest) := by
  have hread := readFuel_encodeFuel 9 0 0 n rest rfl (by omega)
  rwa [Nat.zero_add, Nat.pow_zero, Nat.mul_one] at hread

/-- What the bytes read so far carry lies below `shift`; the tenth byte adds bit 63 at most. -/
theorem readFuel_ok : ∀ (fuel shift acc : Nat) {bs rest : List UInt8} {n : Nat}, shift + 7 * fuel = 70 → acc < 2 ^ shift →
    readFuel fuel shift acc bs = .ok (n, rest) → n < 2 ^ 64 ∧ ∃ as, as ≠ [] ∧ bs = as ++ rest := by
  intro fuel
  induction fuel with
  | zero =>
    intro _ _ bs _ _ _ _ h
    cases bs <;> cases h
  | succ fuel ih =>
    intro shift acc bs rest n hshift hacc h
    cases bs with
    | nil => cases h
    | cons b bs =>
      have hbelow : ∀ low, low < 128 → acc + low * 2 ^ shift < 2 ^ (shift + 7) := by
        intro low hlow
        have hmul : low * 2 ^ shift ≤ 127 * 2 ^ shift := Nat.mul_le_mul_right _ (by omega)
        rw [Nat.pow_add]
        omega
      simp only [readFuel] at h
      by_cases hlast : b.toNat < 128
      · rw [if_pos hlast] at h
        by_cases hover : fuel = 0 ∧ 2 ≤ b.toNat
        · rw [if_pos hover] at h
          cases h
        · rw [if_neg hover] at h
          cases h
          refine ⟨?_, [b], List.cons_ne_nil _ _, rfl⟩
          rcases Nat.eq_zero_or_pos fuel with rfl | hpos
          · obtain rfl : shift = 63 := by omega
            have hbit : b.toNat < 2 := by omega
            omega
          · calc acc + b.toNat * 2 ^ shift < 2 ^ (shift + 7) := hbelow _ hlast
              _ ≤ 2 ^ 64 := Nat.pow_le_pow_right (by decide) (by omega)
      · rw [if_neg hlast] at h
        obtain ⟨hlt, as, -, rfl⟩ := ih (shift + 7) _ (by omega) (hbelow _ (Nat.mod_lt _ (by decide))) h
        exact ⟨hlt, b :: as, List.cons_ne_nil _ _, rfl⟩

/-- A number read is below `2 ^ 64` and takes at least one byte off the front. -/
theorem read_ok {bs rest : List UInt8} {n : Nat} (h : read bs = .ok (n, rest)) :
    n < 2 ^ 64 ∧ ∃ as, as ≠ [] ∧ bs = as ++ rest := readFuel_ok 10 0 0 rfl (by decide) h

/-- Ten bytes with more bits than 64. -/
example : read (131 :: List.replicate 8 128 ++ [126]) = .error .eof := by decide

/-! ## Strings -/

def strBytes (s : String) : List UInt8 := s.toByteArray.data.toList

/-- The string with these UTF-8 bytes, if they are valid. -/
def strOfBytes (bs : List UInt8) : Option String := String.fromUTF8? ⟨bs.toArray⟩

@[simp] theorem length_strBytes (s : String) : (strBytes s).length = s.utf8ByteSize := by
  show s.toByteArray.data.toList.length = s.toByteArray.data.size
  simp

@[simp] theorem strOfBytes_strBytes (s : String) : strOfBytes (strBytes s) = some s := by
  have h : (⟨(strBytes s).toArray⟩ : ByteArray) = s.toByteArray := by simp [strBytes]
  simp only [strOfBytes, h, String.fromUTF8?]
  rw [dif_pos s.isValidUTF8]
  rfl

theorem strOfBytes_eq_some {bs : List UInt8} {s : String} (h : strOfBytes bs = some s) : strBytes s = bs := by
  unfold strOfBytes String.fromUTF8? at h
  split at h
  · cases h; rfl
  · cases h

end Lib.Bytes
