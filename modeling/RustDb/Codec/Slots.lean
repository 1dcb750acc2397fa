/-
  RustDb.Codec.Slots — what `Page::read_slot_ranges` accepts.

  Only neighbours are compared, in the order of their starts. Every range is non-empty, so
  to end before the next one begins is transitive along that order, and the comparison says
  the same of every pair: a slot array is accepted exactly when its ranges lie in the data
  area and no two of them meet.
-/

import RustDb.Codec.Safety
import Mathlib

namespace RustDb

open Lib.Bytes Decoder

/-- The slot at index `i` of an array at the front of `bs`. -/
def SlotEntry.at (bs : List UInt8) (i : Nat) : SlotEntry :=
  ⟨UInt16.ofNat (ofBE ((bs.drop (i * slotEntrySize)).take 2)),
    UInt16.ofNat (ofBE ((bs.drop (i * slotEntrySize + 2)).take 2))⟩

namespace Page

/-- The range of slot `i` of an array at position `pos`. -/
def slotRange (raw : RawPage) (pos i : Nat) : Nat × Nat := (SlotEntry.at (raw.1.drop pos) i).range

/-- The bytes of a range. -/
abbrev rangeBytes (r : Nat × Nat) : Set Nat := Set.Ico r.1 r.2

/-! ## The slots read -/

theorem deserialize_slot {bs : List UInt8} (h : slotEntrySize ≤ bs.length) :
    (SlotEntry.deserialize.expect : Decoder CorruptionKind SlotEntry) bs =
      .ok (SlotEntry.at bs 0, bs.drop slotEntrySize) := by
  rw [const_slotEntrySize] at h ⊢
  have h1 := beNat_enough (ε := IoError) (show 2 ≤ bs.length by omega)
  have h2 := beNat_enough (ε := IoError) (show 2 ≤ (bs.drop 2).length by rw [List.length_drop]; omega)
  have hread : SlotEntry.deserialize bs = .ok (SlotEntry.at bs 0, bs.drop 4) := by
    simp only [SlotEntry.deserialize, bind_run, h1, h2, pure_run, List.drop_drop]
    unfold SlotEntry.at
    rw [Nat.zero_mul, List.drop_zero, Nat.zero_add]
  simp only [Decoder.expect, mapError_ok hread]

theorem slotAt_drop (bs : List UInt8) (i : Nat) : SlotEntry.at (bs.drop slotEntrySize) i = SlotEntry.at bs (i + 1) := by
  unfold SlotEntry.at
  rw [List.drop_drop, List.drop_drop, Nat.add_mul, Nat.one_mul, Nat.add_comm slotEntrySize,
    Nat.add_comm slotEntrySize, Nat.add_right_comm]

theorem readMany_slots {count : Nat} {bs : List UInt8} (h : count * slotEntrySize ≤ bs.length) :
    readMany (SlotEntry.deserialize.expect : Decoder CorruptionKind SlotEntry) count bs =
      .ok ((List.range count).map (SlotEntry.at bs), bs.drop (count * slotEntrySize)) := by
  induction count generalizing bs with
  | zero => rw [Nat.zero_mul, List.drop_zero]; rfl
  | succ count ih =>
    rw [Nat.add_mul, Nat.one_mul] at h
    have hrest := @ih (bs.drop slotEntrySize) (by rw [List.length_drop]; omega)
    have hmap : (List.range count).map (SlotEntry.at (bs.drop slotEntrySize)) =
        (List.range count).map fun i => SlotEntry.at bs (i + 1) :=
      List.map_congr_left fun i _ => slotAt_drop bs i
    simp only [readMany, bind_run, deserialize_slot (show slotEntrySize ≤ bs.length by omega), hrest, pure_run]
    rw [List.range_succ_eq_map, List.map_cons, List.map_map, hmap, List.drop_drop, Nat.add_mul, Nat.one_mul,
      Nat.add_comm slotEntrySize]
    rfl

/-! ## The checks -/

theorem invalidRange_iff {dataStart i : Nat} {rs : List (Nat × Nat)} :
    invalidRange dataStart i rs = none ↔ ∀ r ∈ rs, r.1 < r.2 ∧ dataStart ≤ r.1 ∧ r.2 ≤ pageSize := by
  induction rs generalizing i with
  | nil => simp [invalidRange]
  | cons r rs ih =>
    rw [List.forall_mem_cons, invalidRange]
    by_cases hbad : r.2 ≤ r.1 ∨ r.1 < dataStart ∨ r.2 > pageSize
    · rw [if_pos hbad]
      constructor
      · intro h
        cases h
      · intro h
        omega
    · rw [if_neg hbad, ih]
      constructor
      · intro h
        exact ⟨by omega, h⟩
      · intro h
        exact h.2

theorem overlappingSlots_isChain {l : List (Nat × Nat × Nat)} (h : overlappingSlots l = none) :
    l.IsChain fun a b => a.2.2 ≤ b.2.1 := by
  induction l with
  | nil => exact .nil
  | cons a l ih =>
    rcases l with _ | ⟨b, rest⟩
    · exact .singleton a
    · rw [overlappingSlots] at h
      by_cases hover : b.2.1 < a.2.2
      · rw [if_pos hover] at h
        cases h
      · rw [if_neg hover] at h
        exact List.isChain_cons_cons.mpr ⟨Nat.le_of_not_lt hover, ih h⟩

/-- Non-empty, and over before a non-empty range begins. -/
def Before (a b : Nat × Nat × Nat) : Prop := a.2.1 < a.2.2 ∧ a.2.2 ≤ b.2.1 ∧ b.2.1 < b.2.2

instance : Trans Before Before Before :=
  ⟨fun hab hbc => ⟨hab.1, by have := hab.2.1; have := hab.2.2; have := hbc.2.1; omega, hbc.2.2⟩⟩

/-- Neighbours that do not overlap, among non-empty ranges, leave no pair that does. -/
theorem pairwise_of_overlappingSlots {l : List (Nat × Nat × Nat)} (hne : ∀ a ∈ l, a.2.1 < a.2.2)
    (h : overlappingSlots l = none) : l.Pairwise Before := by
  have hchain : l.IsChain Before := by
    refine (overlappingSlots_isChain h).imp_of_mem_imp ?_
    intro a b ha hb hab
    exact ⟨hne a ha, hab, hne b hb⟩
  exact List.isChain_iff_pairwise.mp hchain

theorem enumerateFrom_snd {α : Type} (i : Nat) (as : List α) : (enumerateFrom i as).map Prod.snd = as := by
  induction as generalizing i with
  | nil => rfl
  | cons a as ih => rw [enumerateFrom, List.map_cons, ih]

/-- The check of the sorted neighbours, for every pair in slot order. -/
theorem overlappingSlots_iff {rs : List (Nat × Nat)} (hne : ∀ r ∈ rs, r.1 < r.2) :
    overlappingSlots ((enumerateFrom 0 rs).mergeSort fun a b => decide (a.2.1 ≤ b.2.1)) = none ↔
      rs.Pairwise fun a b => a.2 ≤ b.1 ∨ b.2 ≤ a.1 := by
  constructor
  · intro h
    have hperm := List.mergeSort_perm (enumerateFrom 0 rs) fun a b => decide (a.2.1 ≤ b.2.1)
    have hbefore := pairwise_of_overlappingSlots (fun a ha => hne _ (mem_enumerateFrom (hperm.subset ha))) h
    have heither := (hbefore.imp (S := fun a b => a.2.2 ≤ b.2.1 ∨ b.2.2 ≤ a.2.1) fun hab => Or.inl hab.2.1).perm hperm
      fun hab => hab.symm
    rw [← enumerateFrom_snd 0 rs, List.pairwise_map]
    exact heither
  · exact overlappingSlots_sorted hne

theorem disjoint_iff {a b : Nat × Nat} (ha : a.1 < a.2) (hb : b.1 < b.2) :
    Disjoint (rangeBytes a) (rangeBytes b) ↔ a.2 ≤ b.1 ∨ b.2 ≤ a.1 := by
  rw [Set.Ico_disjoint_Ico]
  omega

/-! ## The slot array -/

/-- What the checks make of the slot array at `pos`. -/
theorem readSlotRanges_checked (raw : RawPage) {pos count : Nat} (hslots : pos + count * slotEntrySize ≤ pageSize) :
    readSlotRanges isizeMax count (raw.1.drop pos) =
      (match invalidRange (pos + count * slotEntrySize) 0 ((List.range count).map (slotRange raw pos)) with
        | some kind => err kind
        | none =>
          match overlappingSlots ((enumerateFrom 0 ((List.range count).map (slotRange raw pos))).mergeSort
              fun a b => decide (a.2.1 ≤ b.2.1)) with
          | some kind => err kind
          | none => pure ((List.range count).map (slotRange raw pos)) :
        Decoder CorruptionKind (List (Nat × Nat))) (raw.1.drop (pos + count * slotEntrySize)) := by
  have hlen : (raw.1.drop pos).length = pageSize - pos := by rw [List.length_drop, raw.2]
  have hread := @readMany_slots count (raw.1.drop pos) (by rw [hlen]; omega)
  have hcap : count ≤ isizeMax := by
    rw [const_slotEntrySize] at hslots
    have hpage : pageSize ≤ isizeMax := by decide
    omega
  have hranges : ((List.range count).map (SlotEntry.at (raw.1.drop pos))).map SlotEntry.range =
      (List.range count).map (slotRange raw pos) := List.map_map ..
  have halloc : ((List.range count).map (slotRange raw pos)).length ≤ isizeMax := by
    rw [List.length_map, List.length_range]
    exact hcap
  have hstart : pageSize - (raw.1.drop (pos + count * slotEntrySize)).length = pos + count * slotEntrySize := by
    rw [List.length_drop, raw.2]
    omega
  rw [readSlotRanges_run hcap hread, hranges, List.drop_drop, hstart]
  cases invalidRange (pos + count * slotEntrySize) 0 ((List.range count).map (slotRange raw pos)) with
  | some kind => rfl
  | none => exact alloc_bind_run halloc _ _

theorem forall_mem_ranges {raw : RawPage} {pos count : Nat} {p : Nat × Nat → Prop} :
    (∀ r ∈ (List.range count).map (slotRange raw pos), p r) ↔ ∀ i < count, p (slotRange raw pos i) := by
  simp only [List.forall_mem_map, List.mem_range]

theorem pairwise_ranges {raw : RawPage} {pos count : Nat} {R : Nat × Nat → Nat × Nat → Prop} (hsymm : ∀ a b, R a b → R b a) :
    ((List.range count).map (slotRange raw pos)).Pairwise R ↔
      ∀ i < count, ∀ j < count, i ≠ j → R (slotRange raw pos i) (slotRange raw pos j) := by
  rw [List.pairwise_map]
  constructor
  · intro h i hi j hj hij
    have hlt (a b : Nat) (hb : b < count) (hab : a < b) : R (slotRange raw pos a) (slotRange raw pos b) := by
      have := List.pairwise_iff_getElem.mp h a b (by rw [List.length_range]; omega) (by rwa [List.length_range]) hab
      rwa [List.getElem_range, List.getElem_range] at this
    rcases Nat.lt_or_gt_of_ne hij with hij | hij
    · exact hlt i j hj hij
    · exact hsymm _ _ (hlt j i hi hij)
  · intro h
    refine List.Pairwise.imp_of_mem (fun {a b} ha hb hab => ?_) List.pairwise_lt_range
    exact h a (List.mem_range.mp ha) b (List.mem_range.mp hb) (Nat.ne_of_lt hab)

/-- A slot array is accepted when each of its ranges is non-empty and lies in the data area,
    and no two of them meet; its ranges come in slot order. -/
theorem readSlotRanges_ok_iff (raw : RawPage) {pos count : Nat} (hslots : pos + count * slotEntrySize ≤ pageSize) :
    ((∃ ranges rest, readSlotRanges isizeMax count (raw.1.drop pos) = .ok (ranges, rest)) ↔
      (∀ i < count, (slotRange raw pos i).1 < (slotRange raw pos i).2 ∧
        pos + count * slotEntrySize ≤ (slotRange raw pos i).1 ∧ (slotRange raw pos i).2 ≤ pageSize) ∧
      ∀ i < count, ∀ j < count, i ≠ j → Disjoint (rangeBytes (slotRange raw pos i)) (rangeBytes (slotRange raw pos j))) ∧
    (∀ ranges rest, readSlotRanges isizeMax count (raw.1.drop pos) = .ok (ranges, rest) →
      ranges = (List.range count).map (slotRange raw pos) ∧ rest = raw.1.drop (pos + count * slotEntrySize)) ∧
    ∀ e, readSlotRanges isizeMax count (raw.1.drop pos) = .error e → ∃ kind, e = .err kind := by
  rw [readSlotRanges_checked raw hslots]
  have hvalid : invalidRange (pos + count * slotEntrySize) 0 ((List.range count).map (slotRange raw pos)) = none ↔ _ :=
    invalidRange_iff.trans forall_mem_ranges
  rcases hbad : invalidRange (pos + count * slotEntrySize) 0 ((List.range count).map (slotRange raw pos)) with _ | kind
  · have hin := hvalid.mp hbad
    have hne := forall_mem_ranges (p := fun r => r.1 < r.2) |>.mpr fun i hi => (hin i hi).1
    have hmeet : overlappingSlots ((enumerateFrom 0 ((List.range count).map (slotRange raw pos))).mergeSort
        fun a b => decide (a.2.1 ≤ b.2.1)) = none ↔ ∀ i < count, ∀ j < count, i ≠ j →
          Disjoint (rangeBytes (slotRange raw pos i)) (rangeBytes (slotRange raw pos j)) := by
      rw [overlappingSlots_iff hne, pairwise_ranges fun a b hab => hab.symm]
      refine forall₂_congr fun i hi => forall₂_congr fun j hj => ?_
      rw [disjoint_iff (hin i hi).1 (hin j hj).1]
    rcases hover : overlappingSlots ((enumerateFrom 0 ((List.range count).map (slotRange raw pos))).mergeSort
        fun a b => decide (a.2.1 ≤ b.2.1)) with _ | kind
    · refine ⟨⟨fun _ => ⟨hin, hmeet.mp hover⟩, fun _ => ⟨_, _, rfl⟩⟩, ?_, ?_⟩
      · intro ranges rest h
        cases h
        exact ⟨rfl, rfl⟩
      · intro e h
        cases h
    · refine ⟨⟨?_, fun h => ?_⟩, ?_, ?_⟩
      · rintro ⟨ranges, rest, h⟩
        cases h
      · cases hover.symm.trans (hmeet.mpr h.2)
      · intro ranges rest h
        cases h
      · intro e h
        cases h
        exact ⟨kind, rfl⟩
  · refine ⟨⟨?_, fun h => ?_⟩, ?_, ?_⟩
    · rintro ⟨ranges, rest, h⟩
      cases h
    · cases hbad.symm.trans (hvalid.mpr h.1)
    · intro ranges rest h
      cases h
    · intro e h
      cases h
      exact ⟨kind, rfl⟩

/-- Two slots, the data of the second right behind that of the first. -/
def twoSlots : RawPage := ⟨[0, 8, 0, 1, 0, 9, 0, 2] ++ List.replicate (pageSize - 8) 0,
  by rw [List.length_append, List.length_replicate]; rfl⟩

theorem readSlotRanges_ok_iff_two : ∃ ranges rest, readSlotRanges isizeMax 2 (twoSlots.1.drop 0) = .ok (ranges, rest) := by
  have hzero : slotRange twoSlots 0 0 = (8, 9) := rfl
  have hone : slotRange twoSlots 0 1 = (9, 11) := rfl
  refine (@readSlotRanges_ok_iff twoSlots 0 2 (by decide)).1.mpr ⟨fun i hi => ?_, fun i hi j hj hij => ?_⟩
  · have hcases : i = 0 ∨ i = 1 := by omega
    rcases hcases with rfl | rfl
    · rw [hzero]
      decide
    · rw [hone]
      decide
  · have hcases : (i = 0 ∧ j = 1) ∨ (i = 1 ∧ j = 0) := by omega
    rcases hcases with ⟨rfl, rfl⟩ | ⟨rfl, rfl⟩
    · rw [hzero, hone]
      exact (disjoint_iff (by decide) (by decide)).mpr (Or.inl (by decide))
    · rw [hzero, hone]
      exact (disjoint_iff (by decide) (by decide)).mpr (Or.inr (by decide))

end Page

end RustDb
