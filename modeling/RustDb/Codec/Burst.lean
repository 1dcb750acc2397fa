/-
  RustDb.Codec.Burst — changes of at most four bytes in a row, and the checksum that stands
  in the middle of what it covers.

  A changed page still matches its checksum when the register over the changes, the checksum
  cut out, is the change of the checksum. That is a sum of one term for each byte (`weigh`).
  In a window on one side of the checksum the terms are those of a burst, and no burst sums
  to zero. In a window over its edge they are not, and elimination finds what does.
  - `deserialize_detects_iff`: every such change is reported, but for four.
-/

import RustDb.Codec.Errors
import RustDb.Lib.Crc

namespace RustDb

open Lib.Bytes Lib.Gf2 Lib.Crc

/-- CRC-32's generator, reflected. -/
def poly : UInt32 := 0xEDB88320

theorem crc32_eq (bs : List UInt8) : crc32 bs = ~~~ run poly 0xFFFFFFFF bs := rfl

theorem exists_four {bs : List UInt8} (h : bs.length = 4) : ∃ a b c d, bs = [a, b, c, d] := by
  match bs, h with
  | [a, b, c, d], _ => exact ⟨a, b, c, d, rfl⟩

namespace Page

/-! ## What a byte adds -/

/-- What a change of byte `i` of a page adds to the difference of its checksums. -/
def column (i : Nat) (b : UInt8) : UInt32 :=
  if i < checksumOffset then (step poly)^[8 * (pageSize - 4 - i)] b.toUInt32
  else if i < checksumOffset + 4 then b.toUInt32 <<< UInt32.ofNat (8 * (checksumOffset + 3 - i))
  else (step poly)^[8 * (pageSize - i)] b.toUInt32

/-- What changes of the bytes from `i` on add up to. -/
def weigh : Nat → List UInt8 → UInt32
  | _, [] => 0
  | i, b :: bs => column i b ^^^ weigh (i + 1) bs

theorem weigh_append (i : Nat) (as bs : List UInt8) : weigh i (as ++ bs) = weigh i as ^^^ weigh (i + as.length) bs := by
  induction as generalizing i with
  | nil => simp [weigh]
  | cons a as ih =>
    rw [List.cons_append, weigh, weigh, ih, UInt32.xor_assoc, List.length_cons, Nat.add_right_comm, Nat.add_assoc]

theorem column_xor (i : Nat) (a b : UInt8) : column i (a ^^^ b) = column i a ^^^ column i b := by
  unfold column
  rw [UInt8.toUInt32_xor]
  split
  · exact (step_linear poly).iterate _ _ _
  · split
    · exact shiftLeft_linear _ _ _
    · exact (step_linear poly).iterate _ _ _

theorem column_zero (i : Nat) : column i 0 = 0 := by
  have h := column_xor i 0 0
  rwa [UInt8.xor_self, UInt32.xor_self] at h

theorem weigh_zeros (i n : Nat) : weigh i (List.replicate n 0) = 0 := by
  induction n generalizing i with
  | zero => rfl
  | succ n ih => rw [List.replicate_succ, weigh, column_zero, ih, UInt32.xor_zero]

/-- Bytes that are `k` from the end of what the checksum covers weigh what they run to. -/
theorem weigh_run {k : Nat} : ∀ {i : Nat} {bs : List UInt8},
    (∀ j < bs.length, ∀ b, column (i + j) b = (step poly)^[8 * (k + (bs.length - j))] b.toUInt32) →
    weigh i bs = (step poly)^[8 * k] (run poly 0 bs)
  | i, [], _ => ((step_linear poly).iterate _).map_zero.symm
  | i, b :: bs, h => by
    have hb := h 0 (Nat.succ_pos _) b
    have hrest : weigh (i + 1) bs = (step poly)^[8 * k] (run poly 0 bs) := weigh_run fun j hj c => by
      have hc := h (j + 1) (Nat.succ_lt_succ hj) c
      rw [← Nat.add_assoc, Nat.add_right_comm] at hc
      rw [hc, List.length_cons, Nat.add_sub_add_right]
    rw [Nat.add_zero, List.length_cons, Nat.sub_zero] at hb
    rw [weigh, hb, hrest, run_cons, UInt32.zero_xor, run_eq ((step poly)^[8] b.toUInt32) bs, (step_linear poly).iterate,
      ← Function.iterate_add_apply, ← Function.iterate_add_apply]
    congr 2
    omega

/-! ## A whole page -/

/-- The checksum's bytes weigh what they say. -/
theorem weigh_checksum (a b c d : UInt8) : weigh checksumOffset [a, b, c, d] = UInt32.ofNat (ofBE [a, b, c, d]) := by
  have hb := b.toNat_lt
  have hc := c.toNat_lt
  have hd := d.toNat_lt
  have hbe : ofBE [a, b, c, d] = 2 ^ 24 * a.toNat ^^^ (2 ^ 16 * b.toNat ^^^ (2 ^ 8 * c.toNat ^^^ d.toNat)) := by
    have h8 : 2 ^ 8 * c.toNat ^^^ d.toNat = 2 ^ 8 * c.toNat + d.toNat := two_pow_mul_xor hd
    have h16 : 2 ^ 16 * b.toNat ^^^ (2 ^ 8 * c.toNat + d.toNat) = 2 ^ 16 * b.toNat + (2 ^ 8 * c.toNat + d.toNat) :=
      two_pow_mul_xor (by omega)
    rw [h8, h16, two_pow_mul_xor (by omega)]
    simp only [ofBE, List.foldl_cons, List.foldl_nil]
    omega
  have hshift : ∀ (x : UInt8) (k : Nat), k < 32 → x.toUInt32 <<< UInt32.ofNat k = UInt32.ofNat (2 ^ k * x.toNat) := by
    intro x k hk
    have hmod : k % 2 ^ 32 % 32 = k := by omega
    rw [← UInt32.toNat_inj, UInt32.toNat_shiftLeft, UInt32.toNat_ofNat', UInt32.toNat_ofNat', hmod, Nat.shiftLeft_eq,
      Nat.mul_comm]
    rfl
  have hlow : d.toUInt32 = UInt32.ofNat d.toNat := by
    have hd32 : d.toUInt32.toNat = d.toNat := rfl
    rw [← UInt32.toNat_inj, UInt32.toNat_ofNat']
    omega
  simp only [weigh, column, const_checksumOffset, UInt32.xor_zero]
  rw [hbe, UInt32.ofNat_xor, UInt32.ofNat_xor, UInt32.ofNat_xor, ← hshift a 24 (by decide), ← hshift b 16 (by decide),
    ← hshift c 8 (by decide), ← hlow]
  simp

/-- The register over changes, the checksum cut out, and the change of the checksum. -/
theorem weigh_page {ds : List UInt8} (h : ds.length = pageSize) :
    weigh 0 ds = run poly 0 (checkedBytes ds) ^^^ UInt32.ofNat (ofBE ((ds.drop checksumOffset).take 4)) := by
  rw [const_pageSize] at h
  have hsplit : ds = ds.take 17 ++ ((ds.drop 17).take 4 ++ ds.drop 21) := by
    rw [show ds.drop 21 = (ds.drop 17).drop 4 by rw [List.drop_drop], List.take_append_drop, List.take_append_drop]
  have hfront : (ds.take 17).length = 17 := by rw [List.length_take]; omega
  have hmid : ((ds.drop 17).take 4).length = 4 := by rw [List.length_take, List.length_drop]; omega
  have hback : (ds.drop 21).length = 4075 := by rw [List.length_drop]; omega
  have h1 : weigh 0 (ds.take 17) = (step poly)^[8 * 4075] (run poly 0 (ds.take 17)) := weigh_run fun j hj b => by
    rw [hfront] at hj ⊢
    rw [column, const_checksumOffset, const_pageSize, if_pos (by omega)]
    congr 2
    omega
  have h2 : weigh 17 ((ds.drop 17).take 4) = UInt32.ofNat (ofBE ((ds.drop 17).take 4)) := by
    obtain ⟨a, b, c, d, habcd⟩ := exists_four hmid
    rw [habcd]
    exact weigh_checksum a b c d
  have h3 : weigh 21 (ds.drop 21) = run poly 0 (ds.drop 21) := weigh_run (k := 0) fun j hj b => by
    rw [hback] at hj ⊢
    rw [column, const_checksumOffset, const_pageSize, if_neg (by omega), if_neg (by omega)]
    congr 2
    omega
  conv => lhs; rw [hsplit]
  rw [weigh_append, weigh_append, hfront, hmid, Nat.zero_add, h1, h2, h3, checkedBytes, run_append,
    run_eq (run poly 0 (ds.take checksumOffset)), const_checksumOffset, hback, UInt32.xor_assoc,
    UInt32.xor_comm (UInt32.ofNat _)]

/-! ## Windows of four bytes -/

/-- What a change `x` of the four bytes from `s` on adds up to. -/
def syndrome (s : Nat) (x : UInt32) : UInt32 := weigh s (bytes x)

theorem syndrome_linear (s : Nat) : Linear (syndrome s) := by
  intro x y
  simp only [syndrome, bytes, weigh, byte_xor, column_xor, UInt32.xor_zero]
  ac_rfl

/-- No burst runs to zero. -/
theorem run_bytes {x : UInt32} (h : run poly 0 (bytes x) = 0) : x = 0 := by
  have hlin : Linear fun x => run poly 0 (bytes x) := by
    intro x y
    have hxy := run_xor (p := poly) (show (bytes x).length = (bytes y).length from rfl) 0 0
    simp only [bytes, byte_xor]
    exact hxy
  have hker : kernel (fun i => run poly 0 (bytes (unit i))) = [] := by decide +kernel
  have hcomb := mem_kernel hlin h
  rw [hker] at hcomb
  exact congrArg Prod.fst hcomb

/-- What 4073 bytes of zeros make of the highest bit. -/
def far : UInt32 := 0x7FF14B33

theorem far_eq : (step poly)^[8 * 4073] (unit 31) = far := by
  have hpower := power_eq poly
    [true, true, true, true, true, true, true, false, true, false, false, true, false, false, false]
  have hnumber : number [true, true, true, true, true, true, true, false, true, false, false, true, false, false, false] =
      8 * 4073 := by decide
  rw [hnumber] at hpower
  rw [← hpower]
  decide +kernel

/-- `column` near the checksum, where it can be computed. -/
def nearColumn (i : Nat) (b : UInt8) : UInt32 :=
  if i < 17 then mul poly b.toUInt32 ((step poly)^[8 * (19 - i)] far)
  else if i < 21 then b.toUInt32 <<< UInt32.ofNat (8 * (20 - i))
  else mul poly b.toUInt32 ((step poly)^[8 * (23 - i)] far)

theorem column_eq_near {i : Nat} (h : 14 ≤ i) (h' : i < 24) (b : UInt8) : column i b = nearColumn i b := by
  have hfar : ∀ n, (step poly)^[n + 8 * 4073] (unit 31) = (step poly)^[n] far := by
    intro n
    rw [Function.iterate_add_apply, far_eq]
  rw [column, nearColumn, const_checksumOffset, const_pageSize]
  by_cases h17 : i < 17
  · have hlen : 8 * (4096 - 4 - i) = 8 * (19 - i) + 8 * 4073 := by omega
    rw [if_pos h17, if_pos h17, iterate_eq_mul, hlen, hfar]
  by_cases h21 : i < 21
  · rw [if_neg h17, if_neg h17, if_pos h21, if_pos h21]
  · have hlen : 8 * (4096 - i) = 8 * (23 - i) + 8 * 4073 := by omega
    rw [if_neg h17, if_neg h17, if_neg h21, if_neg h21, iterate_eq_mul, hlen, hfar]

def nearSyndrome (s : Nat) (x : UInt32) : UInt32 :=
  nearColumn s (byte x 0) ^^^ (nearColumn (s + 1) (byte x 1) ^^^
  (nearColumn (s + 2) (byte x 2) ^^^ nearColumn (s + 3) (byte x 3)))

theorem syndrome_eq_near {s : Nat} (h : 14 ≤ s) (h' : s ≤ 20) (x : UInt32) : syndrome s x = nearSyndrome s x := by
  simp only [syndrome, nearSyndrome, bytes, weigh, UInt32.xor_zero]
  rw [column_eq_near h (by omega), column_eq_near (by omega) (by omega), column_eq_near (by omega) (by omega),
    column_eq_near (by omega) (by omega)]

/-- Elimination in a window near the checksum. -/
theorem comb_near {s : Nat} (h : 14 ≤ s) (h' : s ≤ 20) {x : UInt32} (hx : syndrome s x = 0) :
    Comb (kernel fun i => nearSyndrome s (unit i)) (x, 0) := by
  have hcomb := mem_kernel (syndrome_linear s) hx
  have hnear : (fun i => syndrome s (unit i)) = fun i => nearSyndrome s (unit i) := funext fun i => syndrome_eq_near h h' _
  rwa [hnear] at hcomb

/-- The windows in which some change sums to zero, and those changes: one over the front edge
    of the checksum, and three, each the sum of the other two, over its back edge. -/
def cancelling : List (Nat × List UInt8) :=
  [(14, [0x06, 0x55, 0x15, 0xA9]), (19, [0x49, 0x77, 0xB4, 0x07]), (19, [0xDB, 0x99, 0xDC, 0x08]),
  (19, [0x92, 0xEE, 0x68, 0x0F])]

theorem comb_nil {x : UInt32} (h : Comb [] (x, 0)) : x = 0 := congrArg Prod.fst h

theorem comb_one {k x : UInt32} (h : Comb [(k, 0)] (x, 0)) : x = 0 ∨ x = k := by
  rcases h with h | h
  · exact Or.inl (comb_nil h)
  · exact Or.inr (xor_eq_zero.mp (congrArg Prod.fst h))

theorem comb_two {k l x : UInt32} (h : Comb [(k, 0), (l, 0)] (x, 0)) : x = 0 ∨ x = l ∨ x = k ∨ x = k ^^^ l := by
  rcases h with h | h
  · rcases comb_one h with h | h
    · exact Or.inl h
    · exact Or.inr (Or.inl h)
  · have hx : Comb [(l, 0)] (x ^^^ k, 0) := by simpa [Pair.add] using h
    rcases comb_one hx with h | h
    · exact Or.inr (Or.inr (Or.inl (xor_eq_zero.mp h)))
    · refine Or.inr (Or.inr (Or.inr ?_))
      rw [← h, UInt32.xor_comm x, ← UInt32.xor_assoc, UInt32.xor_self, UInt32.zero_xor]

/-- In a window on one side of the checksum, `k` bytes before the end of what it covers. -/
theorem syndrome_side {s k : Nat} (h : ∀ j < 4, ∀ b, column (s + j) b = (step poly)^[8 * (k + (4 - j))] b.toUInt32)
    {x : UInt32}
    (hx : syndrome s x = 0) : x = 0 := by
  have hrun : syndrome s x = (step poly)^[8 * k] (run poly 0 (bytes x)) := weigh_run h
  have hinj := (step_injective (p := poly) (by decide)).iterate (8 * k)
  rw [hrun] at hx
  exact run_bytes (hinj (hx.trans ((step_linear poly).iterate _).map_zero.symm))

theorem kernel_front : kernel (fun i => nearSyndrome 14 (unit i)) = [(0xA9155506, 0)] := by decide +kernel

theorem kernel_back : kernel (fun i => nearSyndrome 19 (unit i)) = [(0x0F68EE92, 0), (0x07B47749, 0)] := by decide +kernel

theorem kernel_empty {s : Nat} (h : s = 15 ∨ s = 16 ∨ s = 17 ∨ s = 18 ∨ s = 20) :
    kernel (fun i => nearSyndrome s (unit i)) = [] := by
  rcases h with rfl | rfl | rfl | rfl | rfl <;> decide +kernel

theorem syndrome_eq_zero {s : Nat} (hs : s + 4 ≤ pageSize) {x : UInt32} (hx : syndrome s x = 0) :
    x = 0 ∨ (s, bytes x) ∈ cancelling := by
  rw [const_pageSize] at hs
  by_cases hbefore : s + 4 ≤ 17
  · refine Or.inl (syndrome_side (k := 4088 - s) (fun j hj b => ?_) hx)
    rw [column, const_checksumOffset, const_pageSize, if_pos (by omega)]
    congr 2
    omega
  by_cases hafter : 21 ≤ s
  · refine Or.inl (syndrome_side (k := 4092 - s) (fun j hj b => ?_) hx)
    rw [column, const_checksumOffset, const_pageSize, if_neg (by omega), if_neg (by omega)]
    congr 2
    omega
  have hcomb := comb_near (show 14 ≤ s by omega) (show s ≤ 20 by omega) hx
  by_cases h14 : s = 14
  · subst h14
    rw [kernel_front] at hcomb
    rcases comb_one hcomb with rfl | rfl
    · exact Or.inl rfl
    · exact Or.inr (by decide)
  by_cases h19 : s = 19
  · subst h19
    rw [kernel_back] at hcomb
    rcases comb_two hcomb with rfl | rfl | rfl | rfl
    · exact Or.inl rfl
    · exact Or.inr (by decide)
    · exact Or.inr (by decide)
    · exact Or.inr (by decide)
  · rw [kernel_empty (by omega)] at hcomb
    exact Or.inl (comb_nil hcomb)

theorem weigh_cancelling {c : Nat × List UInt8} (hc : c ∈ cancelling) : weigh c.1 c.2 = 0 := by
  have hnear : ∀ {s : Nat}, 14 ≤ s → s ≤ 20 → ∀ a b c d, weigh s [a, b, c, d] =
      nearColumn s a ^^^ (nearColumn (s + 1) b ^^^ (nearColumn (s + 2) c ^^^ nearColumn (s + 3) d)) := by
    intro s h h' a b c d
    simp only [weigh, UInt32.xor_zero]
    rw [column_eq_near h (by omega), column_eq_near (by omega) (by omega), column_eq_near (by omega) (by omega),
      column_eq_near (by omega) (by omega)]
  simp only [cancelling, List.mem_cons, List.not_mem_nil, or_false] at hc
  rcases hc with rfl | rfl | rfl | rfl <;> rw [hnear (by decide) (by decide)] <;> decide +kernel

/-- The changes in a window that a page's checksum does not show. -/
theorem weigh_eq_zero_iff {s : Nat} (hs : s + 4 ≤ pageSize) {m : List UInt8} (hm : m.length = 4) :
    weigh s m = 0 ↔ m = List.replicate 4 0 ∨ (s, m) ∈ cancelling := by
  obtain ⟨a, b, c, d, rfl⟩ := exists_four hm
  obtain ⟨x, hx⟩ := exists_bytes a b c d
  constructor
  · intro h
    rw [← hx] at h ⊢
    rcases syndrome_eq_zero hs h with rfl | hc
    · exact Or.inl rfl
    · exact Or.inr hc
  · rintro (h | h)
    · rw [h, weigh_zeros]
    · exact weigh_cancelling h

/-! ## What is written matches -/

theorem bind_eq_ok {ε α β : Type} {x : Except ε α} {f : α → Except ε β} {b : β} (h : (x >>= f) = .ok b) :
    ∃ a, x = .ok a ∧ f a = .ok b := by
  rcases x with e | a
  · cases h
  · exact ⟨a, rfl, h⟩

section
variable {writer writer' : Cursor}

theorem length_writeAll {bs : List UInt8} (h : writer.writeAll bs = .ok writer') :
    writer'.buf.length = writer.buf.length := by
  unfold Cursor.writeAll at h
  split at h
  · cases h
    simp only [List.length_append, List.length_take, List.length_drop]
    omega
  · cases h

theorem length_writeHeader {self : Page} (h : self.writeHeader writer = .ok writer') :
    writer'.buf.length = writer.buf.length := by
  unfold writeHeader at h
  obtain ⟨w₁, h₁, h⟩ := bind_eq_ok h
  obtain ⟨w₂, h₂, h⟩ := bind_eq_ok h
  obtain ⟨w₃, h₃, h⟩ := bind_eq_ok h
  obtain ⟨w₄, h₄, h⟩ := bind_eq_ok h
  have hfour : w₄.buf.length = writer.buf.length := by
    rw [length_writeAll h₄, length_writeAll h₃, length_writeAll h₂, length_writeAll h₁]
  simp only at h
  split at h
  · -- a leaf's pointers
    obtain ⟨w₅, h₅, h⟩ := bind_eq_ok h
    obtain ⟨w₆, h₆, h⟩ := bind_eq_ok h
    rw [length_writeAll h, length_writeAll h₆, length_writeAll h₅, hfour]
  · rw [length_writeAll h, hfour]

theorem length_writeEntries {α : Type} {serialize : α → PageResult (List UInt8)} {entries : List α}
    {slotOffset dataOffset : Nat}
    {offsets : Nat × Nat} (h : writeEntries serialize entries writer slotOffset dataOffset = .ok (writer', offsets)) :
    writer'.buf.length = writer.buf.length := by
  induction entries generalizing writer slotOffset dataOffset with
  | nil =>
    cases h
    rfl
  | cons entry rest ih =>
    unfold writeEntries at h
    obtain ⟨buffer, -, h⟩ := bind_eq_ok h
    split at h
    · cases h
    · obtain ⟨w₁, h₁, h⟩ := bind_eq_ok h
      obtain ⟨w₂, h₂, h⟩ := bind_eq_ok h
      have hentry : w₁.buf.length = writer.buf.length := @length_writeAll (writer.seek (dataOffset - buffer.length)) _ _ h₁
      have hslot : w₂.buf.length = w₁.buf.length := @length_writeAll (w₁.seek slotOffset) _ _ h₂
      rw [ih h, hslot, hentry]

theorem length_writeChildren {children : List PageId} {pos pos' : Nat}
    (h : writeChildren children writer pos = .ok (writer', pos')) : writer'.buf.length = writer.buf.length := by
  induction children generalizing writer pos with
  | nil =>
    cases h
    rfl
  | cons child rest ih =>
    unfold writeChildren at h
    obtain ⟨w₁, h₁, h⟩ := bind_eq_ok h
    have hchild : w₁.buf.length = writer.buf.length := @length_writeAll (writer.seek pos) _ _ h₁
    rw [ih h, hchild]

theorem length_writeBody {self : Page} {headerEnd : Nat} (h : self.writeBody writer headerEnd = .ok writer') :
    writer'.buf.length = writer.buf.length := by
  unfold writeBody at h
  split at h
  · obtain ⟨⟨w, offsets⟩, hw, h⟩ := bind_eq_ok h
    cases h
    exact length_writeEntries hw
  · obtain ⟨⟨w₁, slotOffset⟩, h₁, h⟩ := bind_eq_ok h
    obtain ⟨⟨w₂, offsets⟩, h₂, h⟩ := bind_eq_ok h
    cases h
    rw [length_writeEntries h₂, length_writeChildren h₁]
  · exact length_writeAll h
  · obtain ⟨w₁, h₁, h⟩ := bind_eq_ok h
    obtain ⟨w₂, h₂, h⟩ := bind_eq_ok h
    obtain ⟨w₃, h₃, h⟩ := bind_eq_ok h
    obtain ⟨w₄, h₄, h⟩ := bind_eq_ok h
    obtain ⟨w₅, h₅, h⟩ := bind_eq_ok h
    rw [length_writeAll h, length_writeAll h₅, length_writeAll h₄, length_writeAll h₃, length_writeAll h₂,
      length_writeAll h₁]

end

/-- A page is written in `PAGE_SIZE` bytes under the checksum of them. -/
theorem asRawPage_matches {P : Platform} {self : Page} {raw : List UInt8} (h : asRawPage P self = .ok raw) :
    raw.length = pageSize ∧ ChecksumMatches P raw := by
  unfold asRawPage at h
  split at h
  · cases h
  · obtain ⟨header, hheader, h⟩ := bind_eq_ok h
    obtain ⟨cursor, hbody, h⟩ := bind_eq_ok h
    cases h
    have hlen : cursor.buf.length = pageSize := by
      rw [length_writeBody hbody, length_writeHeader hheader, List.length_replicate]
    have hfront : (cursor.buf.take checksumOffset).length = checksumOffset := by
      rw [List.length_take, hlen]
      decide
    rw [List.append_assoc]
    refine ⟨?_, pageChecksum_sealed hfront (cursor.buf.drop (checksumOffset + 4))⟩
    rw [List.length_append, List.length_append, hfront, length_toBE, List.length_drop, hlen]
    decide

/-! ## Detection -/

theorem weigh_diff {as bs : List UInt8} (h : as.length = bs.length) (i : Nat) :
    weigh i (diff as bs) = weigh i as ^^^ weigh i bs := by
  induction as generalizing bs i with
  | nil =>
    cases List.eq_nil_of_length_eq_zero h.symm
    simp [diff, weigh]
  | cons a as ih =>
    cases bs with
    | nil => cases h
    | cons b bs =>
      have hrest := ih (Nat.succ.inj h) (i + 1)
      rw [diff] at hrest ⊢
      rw [List.zipWith_cons_cons, weigh, weigh, weigh, hrest, column_xor, xor_xor_xor_comm]

/-- A page matches its checksum when it weighs what the register's first value comes to. -/
theorem matches_iff {P : Platform} (hP : P.crc = crc32) {buf : List UInt8} (hbuf : buf.length = pageSize) :
    ChecksumMatches P buf ↔ weigh 0 buf = ~~~ (step poly)^[8 * 4092] 0xFFFFFFFF := by
  have hlen : (checkedBytes buf).length = 4092 := by
    rw [const_pageSize] at hbuf
    rw [checkedBytes, const_checksumOffset, List.length_append, List.length_take, List.length_drop]
    omega
  rw [ChecksumMatches, pageChecksum, hP, crc32_eq, run_eq, hlen, weigh_page hbuf, ← UInt32.not_xor]
  constructor
  · intro h
    rw [← h, UInt32.xor_comm, xor_cancel]
  · intro h
    rw [← h, UInt32.xor_comm, ← UInt32.xor_assoc, UInt32.xor_self, UInt32.zero_xor]

/-- How the bytes of the window at `s` differ. -/
def changes (raw buf : List UInt8) (s : Nat) : List UInt8 := diff ((raw.drop s).take 4) ((buf.drop s).take 4)

/-- A page, as what stands before a window, in it and after it. -/
theorem window_split (bs : List UInt8) (s : Nat) : bs = bs.take s ++ ((bs.drop s).take 4 ++ bs.drop (s + 4)) := by
  rw [← List.drop_drop, List.take_append_drop, List.take_append_drop]

section
variable {raw buf : List UInt8} {s : Nat}

/-- Bytes that differ in a window only. -/
theorem outside_eq (h : ∀ i, i < s ∨ s + 4 ≤ i → buf[i]? = raw[i]?) :
    buf.take s = raw.take s ∧ buf.drop (s + 4) = raw.drop (s + 4) := by
  constructor
  · refine List.ext_getElem? fun i => ?_
    simp only [List.getElem?_take]
    split
    · exact h i (Or.inl ‹_›)
    · rfl
  · refine List.ext_getElem? fun i => ?_
    simp only [List.getElem?_drop]
    exact h _ (Or.inr (Nat.le_add_right _ _))

theorem weigh_window (hraw : raw.length = pageSize) (hbuf : buf.length = pageSize) (hs : s + 4 ≤ pageSize)
    (hfront : buf.take s = raw.take s) (hback : buf.drop (s + 4) = raw.drop (s + 4)) :
    weigh 0 raw ^^^ weigh 0 buf = weigh s (changes raw buf s) := by
  have hsplit : ∀ bs : List UInt8, bs.length = pageSize →
      weigh 0 bs = weigh 0 (bs.take s) ^^^ (weigh s ((bs.drop s).take 4) ^^^ weigh (s + 4) (bs.drop (s + 4))) := by
    intro bs hbs
    have h1 : (bs.take s).length = s := by rw [List.length_take]; omega
    have h2 : ((bs.drop s).take 4).length = 4 := by rw [List.length_take, List.length_drop]; omega
    conv => lhs; rw [window_split bs s]
    rw [weigh_append, weigh_append, h1, h2, Nat.zero_add]
  have hlen : ((raw.drop s).take 4).length = ((buf.drop s).take 4).length := by
    rw [List.length_take, List.length_take, List.length_drop, List.length_drop, hraw, hbuf]
  rw [changes, weigh_diff hlen, hsplit raw hraw, hsplit buf hbuf, hfront, hback, xor_xor_xor_comm, UInt32.xor_self,
    UInt32.zero_xor, xor_xor_xor_comm, UInt32.xor_self, UInt32.xor_zero]

theorem length_changes (hraw : raw.length = pageSize) (hbuf : buf.length = pageSize) (hs : s + 4 ≤ pageSize) :
    (changes raw buf s).length = 4 := by
  rw [changes, diff, List.length_zipWith, List.length_take, List.length_take, List.length_drop, List.length_drop]
  omega

theorem eq_of_diff_zero {as bs : List UInt8} (h : as.length = bs.length) (hz : diff as bs = List.replicate as.length 0) :
    as = bs := by
  induction as generalizing bs with
  | nil => exact (List.eq_nil_of_length_eq_zero h.symm).symm
  | cons a as ih =>
    cases bs with
    | nil => cases h
    | cons b bs =>
      rw [diff, List.zipWith_cons_cons, List.length_cons, List.replicate_succ] at hz
      obtain ⟨hab, hrest⟩ := List.cons.inj hz
      rw [UInt8.xor_eq_zero_iff.mp hab, ih (Nat.succ.inj h) hrest]

/-- What is written, with four bytes in a row changed in some way, reads as a page with a
    wrong checksum, but for four changes over the edges of the checksum. -/
theorem deserialize_detects_iff {P : Platform} (hP : P.crc = crc32) {self : Page} (hself : asRawPage P self = .ok raw)
    (hbuf : buf.length = pageSize) (hne : buf ≠ raw) (hs : s + 4 ≤ pageSize)
    (hwindow : ∀ i, i < s ∨ s + 4 ≤ i → buf[i]? = raw[i]?) :
    deserialize P buf = .error (.err (.corrupt none .checkSumMismatch)) ↔ (s, changes raw buf s) ∉ cancelling := by
  obtain ⟨hraw, hsum⟩ := asRawPage_matches hself
  obtain ⟨hfront, hback⟩ := outside_eq hwindow
  have hlen : ((raw.drop s).take 4).length = 4 := by
    rw [List.length_take, List.length_drop]
    omega
  have hsome : changes raw buf s ≠ List.replicate 4 0 := by
    intro hz
    have hmid : (raw.drop s).take 4 = (buf.drop s).take 4 := by
      refine eq_of_diff_zero ?_ (by rw [hlen]; exact hz)
      rw [hlen, List.length_take, List.length_drop]
      omega
    refine hne ?_
    rw [window_split buf s, hfront, ← hmid, hback]
    exact (window_split raw s).symm
  rw [deserialize_checkSum_iff hbuf, not_iff_not, matches_iff hP hbuf, ← (matches_iff hP hraw).mp hsum]
  have hzero := weigh_eq_zero_iff hs (length_changes hraw hbuf hs)
  rw [← weigh_window hraw hbuf hs hfront hback, xor_eq_zero] at hzero
  constructor
  · intro h
    exact (hzero.mp h.symm).resolve_left hsome
  · intro h
    exact (hzero.mpr (Or.inr h)).symm

/-! ### A free page -/

/-- The bytes of a page with four of them changed. -/
def flip (raw : List UInt8) (s : Nat) (m : List UInt8) : List UInt8 :=
  raw.take s ++ (diff ((raw.drop s).take 4) m ++ raw.drop (s + 4))

theorem diff_diff {as bs : List UInt8} (h : as.length = bs.length) : diff as (diff as bs) = bs := by
  induction as generalizing bs with
  | nil => exact (List.eq_nil_of_length_eq_zero h.symm).symm
  | cons a as ih =>
    cases bs with
    | nil => cases h
    | cons b bs =>
      have hrest := ih (Nat.succ.inj h)
      rw [diff, diff] at hrest
      rw [diff, diff, List.zipWith_cons_cons, List.zipWith_cons_cons, hrest, ← UInt8.xor_assoc, UInt8.xor_self,
        UInt8.zero_xor]

section
variable {m : List UInt8} (hraw : raw.length = pageSize) (hs : s + 4 ≤ pageSize) (hm : m.length = 4)

include hraw hs hm

theorem length_window : (raw.take s).length = s ∧ ((raw.drop s).take 4).length = 4 ∧
    (diff ((raw.drop s).take 4) m).length = 4 := by
  have h1 : (raw.take s).length = s := by rw [List.length_take]; omega
  have h2 : ((raw.drop s).take 4).length = 4 := by rw [List.length_take, List.length_drop]; omega
  exact ⟨h1, h2, by rw [diff, List.length_zipWith, h2, hm]; rfl⟩

theorem length_flip : (flip raw s m).length = pageSize := by
  obtain ⟨h1, -, h3⟩ := length_window hraw hs hm
  rw [flip, List.length_append, List.length_append, h1, h3, List.length_drop]
  omega

theorem changes_flip : changes raw (flip raw s m) s = m := by
  obtain ⟨h1, h2, h3⟩ := length_window hraw hs hm
  rw [changes, flip, List.drop_left' h1, List.take_left' h3, diff_diff (h2.trans hm.symm)]

theorem flip_outside {i : Nat} (hi : i < s ∨ s + 4 ≤ i) : (flip raw s m)[i]? = raw[i]? := by
  obtain ⟨h1, h2, h3⟩ := length_window hraw hs hm
  conv => rhs; rw [window_split raw s]
  rcases hi with hi | hi
  · rw [flip, List.getElem?_append_left (by omega), List.getElem?_append_left (by omega)]
  · rw [flip, List.getElem?_append_right (by omega), List.getElem?_append_right (by omega),
      List.getElem?_append_right (by omega), List.getElem?_append_right (by omega), h1, h2, h3]

theorem flip_ne (hne : m ≠ List.replicate 4 0) : flip raw s m ≠ raw := by
  intro he
  have hself : changes raw raw s = List.replicate 4 0 := by
    obtain ⟨-, h2, -⟩ := length_window hraw hs hm
    obtain ⟨a, b, c, d, habcd⟩ := exists_four h2
    simp [changes, diff, habcd]
  have hm' := changes_flip hraw hs hm
  rw [he, hself] at hm'
  exact hne hm'.symm

end

theorem smallLeaf_raw : ∃ raw, asRawPage .standard smallLeaf = .ok raw ∧ raw.length = pageSize := by
  have hfit : FieldsFit smallLeaf.body := by
    show ∀ r ∈ _, _
    decide
  obtain ⟨raw, hraw, hlen, -⟩ := @roundtrip .standard pageSize (Nat.le_refl pageSize) smallLeaf
    ⟨(checkInvariants_iff _).mp smallLeaf_valid, hfit⟩
  exact ⟨raw, hraw, hlen⟩

/-- The first byte of a page changed. -/
theorem deserialize_detects_first : ∃ raw, asRawPage .standard smallLeaf = .ok raw ∧ flip raw 0 [1, 0, 0, 0] ≠ raw ∧
    deserialize .standard (flip raw 0 [1, 0, 0, 0]) = .error (.err (.corrupt none .checkSumMismatch)) := by
  obtain ⟨raw, hraw, hlen⟩ := smallLeaf_raw
  have hs : 0 + 4 ≤ pageSize := by decide
  have hne := flip_ne hlen hs (show [1, 0, 0, 0].length = 4 from rfl) (by decide)
  refine ⟨raw, hraw, hne, (deserialize_detects_iff rfl hraw (length_flip hlen hs rfl) hne hs fun i hi =>
    flip_outside hlen hs rfl hi).mpr ?_⟩
  rw [changes_flip hlen hs rfl]
  decide

/-- Three bytes of the LSN and the first of the checksum changed. -/
theorem deserialize_misses_front : ∃ raw buf, asRawPage .standard smallLeaf = .ok raw ∧ buf.length = pageSize ∧ buf ≠ raw ∧
    (∀ i, i < 14 ∨ 14 + 4 ≤ i → buf[i]? = raw[i]?) ∧
    deserialize .standard buf ≠ .error (.err (.corrupt none .checkSumMismatch)) := by
  obtain ⟨raw, hraw, hlen⟩ := smallLeaf_raw
  have hs : 14 + 4 ≤ pageSize := by decide
  let m : List UInt8 := [0x06, 0x55, 0x15, 0xA9]
  have hm : m.length = 4 := rfl
  have hbuf := length_flip hlen hs hm
  refine ⟨raw, flip raw 14 m, hraw, hbuf, flip_ne hlen hs hm (by decide), fun i hi => flip_outside hlen hs hm hi, ?_⟩
  obtain ⟨hfront, hback⟩ := outside_eq fun i hi => flip_outside hlen hs hm hi
  have hweigh := weigh_window hlen hbuf hs hfront hback
  have hzero : weigh 14 m = 0 := @weigh_cancelling (14, m) List.mem_cons_self
  rw [changes_flip hlen hs hm, hzero, xor_eq_zero] at hweigh
  rw [Ne, deserialize_checkSum_iff hbuf, not_not, matches_iff rfl hbuf, ← hweigh]
  exact (matches_iff rfl hlen).mp (asRawPage_matches hraw).2

end

end Page

end RustDb
