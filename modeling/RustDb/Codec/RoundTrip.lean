/-
  RustDb.Codec.RoundTrip — what `as_raw_page` writes, `deserialize` reads back.

  A written page is `front ++ checksum ++ rest`: 17 bytes of tag, id and LSN, and after the
  checksum the pointers, the item count and the body. Slots and entries approach each
  other from the two ends of the body; `GapBuf` is the buffer with `front` written from
  below and `back` from above, and the zeros between them.

  - `roundtrip`: an `Encodable` page is written, and read back as itself.
  - `deserialize_encodable`: a page that was read is `Encodable`.
-/

import RustDb.Codec.Page

namespace RustDb

open Lib.Bytes Decoder

/-! ## Buffers -/

/-- `front` from below, `back` from above, zeros between. -/
def GapBuf (front back : List UInt8) : List UInt8 :=
  front ++ (List.replicate (pageSize - front.length - back.length) 0 ++ back)

theorem length_GapBuf {front back : List UInt8} (h : front.length + back.length ≤ pageSize) :
    (GapBuf front back).length = pageSize := by
  simp only [GapBuf, List.length_append, List.length_replicate]; omega

theorem Cursor.writeAll_eq (pre mid post bs : List UInt8) (h : bs.length = mid.length) :
    writeAll ⟨pre ++ (mid ++ post), pre.length⟩ bs = .ok ⟨pre ++ (bs ++ post), (pre ++ bs).length⟩ := by
  have hle : pre.length + bs.length ≤ (pre ++ (mid ++ post)).length := by simp only [List.length_append]; omega
  have hdrop : (pre ++ (mid ++ post)).drop (pre.length + bs.length) = post := by
    rw [h, ← List.append_assoc, List.drop_left' (by simp)]
  rw [writeAll, if_pos hle, hdrop, List.take_left]
  simp only [List.append_assoc, List.length_append]

/-- Writing at the lower edge of the gap. -/
theorem Cursor.writeAll_front (front back bs : List UInt8) (h : front.length + bs.length + back.length ≤ pageSize) :
    writeAll ⟨GapBuf front back, front.length⟩ bs = .ok ⟨GapBuf (front ++ bs) back, (front ++ bs).length⟩ := by
  have hrep : List.replicate (pageSize - front.length - back.length) (0 : UInt8) =
      List.replicate bs.length 0 ++ List.replicate (pageSize - (front ++ bs).length - back.length) 0 := by
    rw [List.replicate_append_replicate]
    congr 1
    simp only [List.length_append]; omega
  rw [GapBuf, hrep, List.append_assoc, writeAll_eq _ _ _ _ (by simp)]
  simp only [GapBuf, List.append_assoc]

/-- Writing at the upper edge of the gap. -/
theorem Cursor.writeAll_back (front back bs : List UInt8) (h : front.length + bs.length + back.length ≤ pageSize) :
    writeAll ⟨GapBuf front back, pageSize - back.length - bs.length⟩ bs =
      .ok ⟨GapBuf front (bs ++ back), pageSize - back.length⟩ := by
  have hrep : List.replicate (pageSize - front.length - back.length) (0 : UInt8) =
      List.replicate (pageSize - front.length - (bs ++ back).length) 0 ++ List.replicate bs.length 0 := by
    rw [List.replicate_append_replicate]
    congr 1
    simp only [List.length_append]; omega
  have hpre : (front ++ List.replicate (pageSize - front.length - (bs ++ back).length) (0 : UInt8)).length =
      pageSize - back.length - bs.length := by
    simp only [List.length_append, List.length_replicate]; omega
  have hpos : (front ++ List.replicate (pageSize - front.length - (bs ++ back).length) (0 : UInt8) ++ bs).length =
      pageSize - back.length := by
    rw [List.length_append, hpre]; omega
  have hw := writeAll_eq (front ++ List.replicate (pageSize - front.length - (bs ++ back).length) (0 : UInt8))
    (List.replicate bs.length 0) back bs (by simp)
  rw [hpre, hpos] at hw
  rw [GapBuf, hrep, List.append_assoc, ← List.append_assoc front, hw, GapBuf, List.append_assoc]

namespace Page

/-! ## The header -/

/-- The bytes before the checksum. -/
def front (self : Page) : List UInt8 :=
  self.pageTypeTag :: (self.pageId.serialize ++ PageLsn.serialize self.lastUpdate)

/-- The sibling pointers, on a leaf. -/
def pointers (self : Page) : List UInt8 :=
  match self.body with
  | .leaf _ next prev => serializeOption PageId.serialize next ++ serializeOption PageId.serialize prev
  | _ => []

/-- The header with a blank checksum. -/
def header (self : Page) : List UInt8 :=
  self.front ++ (toBE 4 0 ++ (self.pointers ++ toBE 2 (UInt16.ofNat self.numItems).toNat))

@[simp] theorem length_front (self : Page) : self.front.length = checksumOffset := by
  simp [front, const_pageIdSize, const_checksumOffset]

theorem length_pointers_le (self : Page) : self.pointers.length ≤ 18 := by
  have hid := const_pageIdSize
  unfold pointers
  split
  · rename_i next prev _
    have h1 := PageId.length_serializeOption_le next
    have h2 := PageId.length_serializeOption_le prev
    simp only [List.length_append]; omega
  · simp

theorem length_header (self : Page) : self.header.length = 23 + self.pointers.length := by
  simp only [header, List.length_append, length_front, length_toBE, const_checksumOffset]; omega

theorem writeHeader_eq (self : Page) :
    self.writeHeader ⟨GapBuf [] [], 0⟩ = .ok ⟨GapBuf self.header [], self.header.length⟩ := by
  have hptr := self.length_pointers_le
  have hlen := const_pageSize
  have hblank : (self.front ++ toBE 4 0).length = 21 := by
    simp only [List.length_append, length_front, length_toBE, const_checksumOffset]
  have hstart : self.writeHeader ⟨GapBuf [] [], 0⟩ = (do
      let writer ← match self.body with
        | .leaf _ next prev => do
          let writer ← Cursor.writeAll ⟨GapBuf (self.front ++ toBE 4 0) [], (self.front ++ toBE 4 0).length⟩
            (serializeOption PageId.serialize next)
          writer.writeAll (serializeOption PageId.serialize prev)
        | _ => .ok ⟨GapBuf (self.front ++ toBE 4 0) [], (self.front ++ toBE 4 0).length⟩
      writer.writeAll (toBE 2 (UInt16.ofNat self.numItems).toNat)) := by
    have h0 : Cursor.writeAll ⟨GapBuf [] [], 0⟩ [self.pageTypeTag] =
        .ok ⟨GapBuf [self.pageTypeTag] [], [self.pageTypeTag].length⟩ :=
      Cursor.writeAll_front [] [] [self.pageTypeTag] (by simp [hlen])
    simp only [writeHeader, bind, Except.bind, h0]
    rw [Cursor.writeAll_front _ _ _ (by simp [const_pageIdSize, hlen])]
    simp only
    rw [Cursor.writeAll_front _ _ _ (by simp [const_pageIdSize, hlen])]
    simp only
    rw [Cursor.writeAll_front _ _ _ (by simp [const_pageIdSize, hlen])]
    rfl
  have hend : Cursor.writeAll ⟨GapBuf (self.front ++ toBE 4 0 ++ self.pointers) [],
      (self.front ++ toBE 4 0 ++ self.pointers).length⟩ (toBE 2 (UInt16.ofNat self.numItems).toNat) =
      .ok ⟨GapBuf self.header [], self.header.length⟩ := by
    rw [Cursor.writeAll_front _ _ _
      (by rw [List.length_append, hblank, length_toBE, List.length_nil]; omega)]
    simp only [header, List.append_assoc]
  rw [hstart]
  rcases self with ⟨id, lsn, ⟨records, next, prev⟩ | _ | _ | _⟩
  · have hn := PageId.length_serializeOption_le next
    have hp := PageId.length_serializeOption_le prev
    have hid := const_pageIdSize
    simp only [bind, Except.bind]
    rw [Cursor.writeAll_front _ _ _ (by rw [hblank, List.length_nil]; omega)]
    simp only
    rw [Cursor.writeAll_front _ _ _ (by rw [List.length_append, hblank, List.length_nil]; omega)]
    simp only [List.append_assoc _ (serializeOption PageId.serialize next)]
    exact hend
  all_goals
    simp only [bind, Except.bind]
    rw [← hend]
    simp only [pointers, List.append_nil]

/-! ## Children, slots and entries -/

theorem writeChildren_eq : ∀ (children : List PageId) (front : List UInt8) (pos : Nat),
    front.length + children.length * pageIdSize ≤ pageSize → ∃ pos',
    writeChildren children ⟨GapBuf front [], pos⟩ front.length =
      .ok (⟨GapBuf (front ++ children.flatMap PageId.serialize) [], pos'⟩,
        (front ++ children.flatMap PageId.serialize).length)
  | [], front, pos, _ => ⟨pos, by simp [writeChildren]⟩
  | child :: rest, front, pos, h => by
    simp only [List.length_cons, Nat.add_mul, Nat.one_mul] at h
    have hw := Cursor.writeAll_front front [] child.serialize
      (by rw [PageId.length_serialize, List.length_nil]; omega)
    have hlen : (front ++ child.serialize).length = front.length + pageIdSize := by
      rw [List.length_append, PageId.length_serialize]
    obtain ⟨pos', ih⟩ := writeChildren_eq rest (front ++ child.serialize) (front ++ child.serialize).length
      (by rw [hlen]; omega)
    refine ⟨pos', ?_⟩
    rw [hlen, ← hlen] at ih
    simp only [writeChildren, Cursor.seek, bind, Except.bind, hw, ← hlen, ih, List.flatMap_cons, List.append_assoc]

/-- The slots of entries laid down below `d`. -/
def slotsFrom : Nat → List (List UInt8) → List SlotEntry
  | _, [] => []
  | d, e :: es => ⟨UInt16.ofNat (d - e.length), UInt16.ofNat e.length⟩ :: slotsFrom (d - e.length) es

/-- Their ranges. -/
def rangesFrom : Nat → List (List UInt8) → List (Nat × Nat)
  | _, [] => []
  | d, e :: es => (d - e.length, d) :: rangesFrom (d - e.length) es

/-- The data area, last entry first. -/
def dataArea (es : List (List UInt8)) : List UInt8 := es.reverse.flatten

@[simp] theorem dataArea_cons (e : List UInt8) (es : List (List UInt8)) : dataArea (e :: es) = dataArea es ++ e := by
  simp [dataArea]

@[simp] theorem length_slotsFrom : ∀ (d : Nat) (es : List (List UInt8)), (slotsFrom d es).length = es.length
  | _, [] => rfl
  | d, e :: es => by simp [slotsFrom, length_slotsFrom]

theorem length_slots (slots : List SlotEntry) : (slots.flatMap SlotEntry.serialize).length =
    slots.length * slotEntrySize := by
  induction slots with
  | nil => simp
  | cons s ss ih => simp only [List.flatMap_cons, List.length_append, SlotEntry.length_serialize, ih, List.length_cons]; ring

/-- Entries are laid down from `back` downwards, their slots from `front` upwards; the offsets
    returned are the two edges of the gap that is left. -/
theorem writeEntries_eq {α : Type} {serialize : α → PageResult (List UInt8)} :
    ∀ {vals : List α} {es : List (List UInt8)}, List.Forall₂ (fun v e => serialize v = .ok e) vals es →
    ∀ (front back : List UInt8) (pos : Nat),
      front.length + es.length * slotEntrySize + ((dataArea es).length + back.length) ≤ pageSize →
    ∃ pos', writeEntries serialize vals ⟨GapBuf front back, pos⟩ front.length (pageSize - back.length) =
      .ok (⟨GapBuf (front ++ (slotsFrom (pageSize - back.length) es).flatMap SlotEntry.serialize) (dataArea es ++ back),
        pos'⟩, front.length + es.length * slotEntrySize, pageSize - back.length - (dataArea es).length)
  | _, _, .nil, front, back, pos, _ => ⟨pos, by simp [writeEntries, slotsFrom, dataArea]⟩
  | v :: vals, e :: es, .cons hv hvs, front, back, pos, h => by
    simp only [List.length_cons, Nat.add_mul, Nat.one_mul, dataArea_cons, List.length_append] at h
    have hlt : ¬ pageSize - back.length < e.length := by omega
    have hdata := Cursor.writeAll_back front back e (by omega)
    let slot : SlotEntry := ⟨UInt16.ofNat (pageSize - back.length - e.length), UInt16.ofNat e.length⟩
    have hslot := Cursor.writeAll_front front (e ++ back) slot.serialize
      (by rw [SlotEntry.length_serialize, List.length_append]; omega)
    have hlen : (front ++ slot.serialize).length = front.length + slotEntrySize := by
      rw [List.length_append, SlotEntry.length_serialize]
    have hback : pageSize - (e ++ back).length = pageSize - back.length - e.length := by rw [List.length_append]; omega
    obtain ⟨pos', ih⟩ := writeEntries_eq hvs (front ++ slot.serialize) (e ++ back) (front ++ slot.serialize).length
      (by rw [hlen, List.length_append]; omega)
    rw [hback] at ih
    have hslots : (front ++ slot.serialize).length + es.length * slotEntrySize =
        front.length + (e :: es).length * slotEntrySize := by
      rw [hlen, List.length_cons, Nat.add_mul, Nat.one_mul, Nat.add_assoc, Nat.add_comm slotEntrySize]
    have hgap : pageSize - back.length - e.length - (dataArea es).length =
        pageSize - back.length - (dataArea (e :: es)).length := by
      rw [dataArea_cons, List.length_append]
      omega
    rw [hslots, hgap] at ih
    refine ⟨pos', ?_⟩
    simp only [writeEntries, Cursor.seek, bind, Except.bind, hv, if_neg hlt, hdata]
    rw [hslot]
    simp only [← hlen, ih, slotsFrom, List.flatMap_cons, dataArea_cons, List.append_assoc]
    rfl

/-! ### Reading the slots back -/

theorem map_range_slotsFrom : ∀ {d : Nat} {es : List (List UInt8)}, d ≤ pageSize → (dataArea es).length ≤ d →
    (slotsFrom d es).map SlotEntry.range = rangesFrom d es
  | _, [], _, _ => rfl
  | d, e :: es, hd, h => by
    have hsize := const_pageSize
    simp only [dataArea_cons, List.length_append] at h
    have h1 : (UInt16.ofNat (d - e.length)).toNat = d - e.length := by
      rw [UInt16.toNat_ofNat']; omega
    have h2 : (UInt16.ofNat e.length).toNat = e.length := by
      rw [UInt16.toNat_ofNat']; omega
    have hend : d - e.length + e.length = d := by omega
    simp only [slotsFrom, rangesFrom, List.map_cons, SlotEntry.range, h1, h2, hend,
      map_range_slotsFrom (Nat.le_trans (Nat.sub_le d e.length) hd) (show (dataArea es).length ≤ d - e.length by omega)]

/-- Every range is non-empty and lies in the data area; each lies above those after it. -/
theorem rangesFrom_spec : ∀ {d : Nat} {es : List (List UInt8)}, (∀ e ∈ es, e ≠ []) → (dataArea es).length ≤ d →
    (∀ r ∈ rangesFrom d es, r.1 < r.2 ∧ d - (dataArea es).length ≤ r.1 ∧ r.2 ≤ d) ∧
      (rangesFrom d es).Pairwise fun a b => b.2 ≤ a.1
  | _, [], _, _ => by simp [rangesFrom]
  | d, e :: es, hne, h => by
    simp only [dataArea_cons, List.length_append] at h
    have hpos : 0 < e.length := List.length_pos_of_ne_nil (hne e (List.mem_cons_self ..))
    obtain ⟨hall, hpair⟩ := rangesFrom_spec (fun x hx => hne x (List.mem_cons_of_mem e hx))
      (show (dataArea es).length ≤ d - e.length by omega)
    simp only [rangesFrom, dataArea_cons, List.length_append]
    refine ⟨?_, List.pairwise_cons.mpr ⟨fun r hr => (hall r hr).2.2, hpair⟩⟩
    rintro r (_ | ⟨_, hr⟩)
    · exact ⟨by omega, by omega, Nat.le_refl d⟩
    · have := hall r hr
      exact ⟨this.1, by omega, by omega⟩

theorem invalidRange_none {dataStart : Nat} : ∀ {i : Nat} {rs : List (Nat × Nat)},
    (∀ r ∈ rs, r.1 < r.2 ∧ dataStart ≤ r.1 ∧ r.2 ≤ pageSize) → invalidRange dataStart i rs = none
  | _, [], _ => rfl
  | i, r :: rs, h => by
    have hr := h r (List.mem_cons_self ..)
    rw [invalidRange, if_neg (by omega), invalidRange_none fun x hx => h x (List.mem_cons_of_mem r hx)]

theorem mem_enumerateFrom {α : Type} : ∀ {i : Nat} {as : List α} {x : Nat × α}, x ∈ enumerateFrom i as → x.2 ∈ as
  | _, [], _, h => by cases h
  | i, a :: as, x, h => by
    rcases List.mem_cons.mp h with rfl | h
    · exact List.mem_cons_self ..
    · exact List.mem_cons_of_mem a (mem_enumerateFrom h)

theorem pairwise_enumerateFrom {α : Type} {R : α → α → Prop} : ∀ {i : Nat} {as : List α}, as.Pairwise R →
    (enumerateFrom i as).Pairwise fun x y => R x.2 y.2
  | _, [], _ => List.Pairwise.nil
  | i, a :: as, h => by
    obtain ⟨ha, has⟩ := List.pairwise_cons.mp h
    exact List.pairwise_cons.mpr ⟨fun x hx => ha _ (mem_enumerateFrom hx), pairwise_enumerateFrom has⟩

theorem overlappingSlots_none : ∀ {l : List (Nat × Nat × Nat)}, (l.Pairwise fun a b => a.2.2 ≤ b.2.1) →
    overlappingSlots l = none
  | [], _ => rfl
  | [_], _ => rfl
  | a :: b :: rest, h => by
    obtain ⟨ha, hrest⟩ := List.pairwise_cons.mp h
    rw [overlappingSlots, if_neg (Nat.not_lt.mpr (ha b (List.mem_cons_self ..))), overlappingSlots_none hrest]

/-- Disjoint ranges sorted by their starts end before the next begins. -/
theorem overlappingSlots_sorted {rs : List (Nat × Nat)} (hne : ∀ r ∈ rs, r.1 < r.2)
    (hdisj : rs.Pairwise fun a b => a.2 ≤ b.1 ∨ b.2 ≤ a.1) :
    overlappingSlots ((enumerateFrom 0 rs).mergeSort fun a b => decide (a.2.1 ≤ b.2.1)) = none := by
  have hperm := List.mergeSort_perm (enumerateFrom 0 rs) fun a b => decide (a.2.1 ≤ b.2.1)
  have hsorted : ((enumerateFrom 0 rs).mergeSort fun a b => decide (a.2.1 ≤ b.2.1)).Pairwise
      fun a b => decide (a.2.1 ≤ b.2.1) = true :=
    List.pairwise_mergeSort (fun a b c h1 h2 => by simp only [decide_eq_true_eq] at *; omega)
      (fun a b => by simp only [Bool.or_eq_true, decide_eq_true_eq]; omega) (enumerateFrom 0 rs)
  have hdisj' := (pairwise_enumerateFrom (i := 0) hdisj).perm hperm.symm fun h => h.symm
  apply overlappingSlots_none
  refine List.Pairwise.imp_of_mem ?_ (hsorted.and hdisj')
  intro a b _ hb ⟨hle, hab⟩
  have hb' := hne b.2 (mem_enumerateFrom (hperm.subset hb))
  simp only [decide_eq_true_eq] at hle
  omega

theorem readSlotRanges_slots {cap : Nat} {es : List (List UInt8)} {rest : List UInt8} (hcap : es.length ≤ cap)
    (hne : ∀ e ∈ es, e ≠ []) (hrest : (dataArea es).length ≤ rest.length) (hle : rest.length ≤ pageSize) :
    readSlotRanges cap es.length ((slotsFrom pageSize es).flatMap SlotEntry.serialize ++ rest) =
      .ok (rangesFrom pageSize es, rest) := by
  obtain ⟨hall, hpair⟩ := rangesFrom_spec hne (hrest.trans hle)
  have hread := readMany_flatMap (r := (SlotEntry.deserialize.expect : Decoder CorruptionKind SlotEntry))
    (fun s (_ : s ∈ slotsFrom pageSize es) rest => mapError_ok (SlotEntry.roundtrip s rest)) rest
  rw [length_slotsFrom] at hread
  have hlen : (rangesFrom pageSize es).length = es.length := by
    rw [← map_range_slotsFrom (Nat.le_refl _) (hrest.trans hle), List.length_map, length_slotsFrom]
  have hinv : invalidRange (pageSize - rest.length) 0 (rangesFrom pageSize es) = none :=
    invalidRange_none fun r hr => ⟨(hall r hr).1, by have := (hall r hr).2.1; omega, (hall r hr).2.2⟩
  have hover := overlappingSlots_sorted (fun r hr => (hall r hr).1) (hpair.imp Or.inr)
  rw [readSlotRanges_run hcap hread, map_range_slotsFrom (Nat.le_refl _) (hrest.trans hle)]
  simp only [hinv, bind_run, alloc_run (hlen ▸ hcap), hover, pure_run]

theorem slice_eq (a e back : List UInt8) :
    slice (a ++ (e ++ back)) (a.length, (a ++ e).length) = .ok e := by
  have hle : a.length ≤ (a ++ e).length ∧ (a ++ e).length ≤ (a ++ (e ++ back)).length := by
    simp only [List.length_append]; omega
  rw [slice, if_pos hle, ← List.append_assoc, List.take_left, List.drop_left]

theorem decodeSlots_eq {ε α : Type} {deserialize : Decoder ε α} (decodeError : Nat → CorruptionKind) :
    ∀ {vals : List α} {es : List (List UInt8)}, List.Forall₂ (fun v e => deserialize e = .ok (v, [])) vals es →
    ∀ (a back : List UInt8) (slot : Nat),
      decodeSlots deserialize decodeError (a ++ (dataArea es ++ back)) slot (rangesFrom (a ++ dataArea es).length es) =
        .ok vals
  | _, _, .nil, _, _, _ => rfl
  | v :: vals, e :: es, .cons hv hvs, a, back, slot => by
    have hstart : (a ++ dataArea (e :: es)).length - e.length = (a ++ dataArea es).length := by
      simp only [dataArea_cons, List.length_append]; omega
    have hend : (a ++ dataArea (e :: es)).length = (a ++ dataArea es ++ e).length := by
      rw [dataArea_cons, List.append_assoc]
    have hbuf : a ++ (dataArea (e :: es) ++ back) = (a ++ dataArea es) ++ (e ++ back) := by
      simp only [dataArea_cons, List.append_assoc]
    have hslice := slice_eq (a ++ dataArea es) e back
    have hrest := decodeSlots_eq decodeError hvs a (e ++ back) (slot + 1)
    rw [← List.append_assoc] at hrest
    simp only [rangesFrom, hstart, hbuf, decodeSlots, bind, Except.bind]
    rw [hend, hslice]
    simp only [decodeSlot, hv, List.isEmpty_nil, if_true, hrest]

/-! ## Entries -/

theorem exists_forall₂ {α β : Type} {R : α → β → Prop} : ∀ {as : List α}, (∀ a ∈ as, ∃ b, R a b) →
    ∃ bs, List.Forall₂ R as bs
  | [], _ => ⟨[], .nil⟩
  | a :: as, h => by
    obtain ⟨b, hb⟩ := h a (List.mem_cons_self ..)
    obtain ⟨bs, hbs⟩ := exists_forall₂ fun x hx => h x (List.mem_cons_of_mem a hx)
    exact ⟨b :: bs, .cons hb hbs⟩

theorem length_dataArea {α : Type} {size : α → Nat} {c : Nat} {vals : List α} {es : List (List UInt8)}
    (h : List.Forall₂ (fun v e => e.length + c = size v) vals es) :
    (dataArea es).length + es.length * c = (vals.map size).sum := by
  induction h with
  | nil => simp [dataArea]
  | cons hv _ ih =>
    simp only [dataArea_cons, List.length_append, List.length_cons, Nat.add_mul, Nat.one_mul, List.map_cons, List.sum_cons]
    omega

theorem ne_nil_of_forall₂ {α : Type} {R : α → List UInt8 → Prop} {vals : List α} {es : List (List UInt8)}
    (hR : ∀ v e, R v e → e ≠ []) (h : List.Forall₂ R vals es) : ∀ e ∈ es, e ≠ [] := by
  induction h with
  | nil => simp
  | cons hv _ ih =>
    rintro e (_ | ⟨_, he⟩)
    · exact hR _ _ hv
    · exact ih e he

/-- One entry: what it is written as, and that this is read back in full. -/
structure Encodes {α ε : Type} (serialize : α → PageResult (List UInt8)) (deserialize : Decoder ε α) (v : α)
    (e : List UInt8) : Prop where
  written : serialize v = .ok e
  read : deserialize e = .ok (v, [])
  ne_nil : e ≠ []

/-- The slots and entries after `head` are written into `area` and read back from it,
    whatever bytes stand in `head`'s place. -/
theorem entries_roundtrip {α ε : Type} {serialize : α → PageResult (List UInt8)} {deserialize : Decoder ε α}
    (decodeError : Nat → CorruptionKind) {vals : List α} {es : List (List UInt8)} {cap : Nat}
    (h : List.Forall₂ (Encodes serialize deserialize) vals es) (hcap : vals.length ≤ cap) (head : List UInt8) (pos : Nat)
    (hfit : head.length + es.length * slotEntrySize + (dataArea es).length ≤ pageSize) :
    ∃ area ranges rest pos' offsets,
      writeEntries serialize vals ⟨GapBuf head [], pos⟩ head.length pageSize = .ok (⟨head ++ area, pos'⟩, offsets) ∧
      (head ++ area).length = pageSize ∧
      readSlotRanges cap vals.length area = .ok (ranges, rest) ∧ ranges.length = vals.length ∧
      ∀ head' : List UInt8, head'.length = head.length →
        decodeSlots deserialize decodeError (head' ++ area) 0 ranges = .ok vals := by
  have hcount : vals.length = es.length := h.length_eq
  have hne := ne_nil_of_forall₂ (fun _ _ h => Encodes.ne_nil h) h
  let slots := (slotsFrom pageSize es).flatMap SlotEntry.serialize
  let zeros := List.replicate (pageSize - (head ++ slots).length - (dataArea es).length) (0 : UInt8)
  have hslots : slots.length = es.length * slotEntrySize := by rw [length_slots, length_slotsFrom]
  obtain ⟨pos', hw⟩ := writeEntries_eq (h.imp fun _ _ h => h.written) head [] pos
    (by rw [List.length_nil]; omega)
  rw [List.length_nil, Nat.sub_zero, List.append_nil] at hw
  have hbuf : GapBuf (head ++ slots) (dataArea es) = head ++ (slots ++ (zeros ++ dataArea es)) := by
    simp only [GapBuf, zeros, List.append_assoc]
  have hlen : (head ++ (slots ++ (zeros ++ dataArea es))).length = pageSize := by
    rw [← hbuf, length_GapBuf (by rw [List.length_append, hslots]; omega)]
  have hahead : (dataArea es).length ≤ (zeros ++ dataArea es).length ∧ (zeros ++ dataArea es).length ≤ pageSize := by
    simp only [List.length_append] at hlen ⊢; omega
  have hranges := readSlotRanges_slots (hcount ▸ hcap) hne hahead.1 hahead.2
  rw [← hcount] at hranges
  refine ⟨slots ++ (zeros ++ dataArea es), rangesFrom pageSize es, zeros ++ dataArea es, pos',
    (head.length + es.length * slotEntrySize, pageSize - (dataArea es).length), ?_, hlen,
    hranges, ?_, fun head' hhead => ?_⟩
  · rw [hw]
    exact congrArg (fun b => Except.ok (Cursor.mk b pos', _)) hbuf
  · rw [hcount, ← map_range_slotsFrom (Nat.le_refl _) (hahead.1.trans hahead.2), List.length_map, length_slotsFrom]
  · have hdec := decodeSlots_eq decodeError (h.imp fun _ _ h => h.read) (head' ++ (slots ++ zeros)) [] 0
    have hwhole : (head' ++ (slots ++ zeros) ++ dataArea es).length = pageSize := by
      rw [← hlen]; simp only [List.length_append, hhead, Nat.add_assoc]
    rw [hwhole, List.append_nil] at hdec
    simpa only [List.append_assoc] using hdec

/-! ## Bodies -/

/-- The body was written after the header and is read back from `rest`, whatever the
    checksum between them. -/
structure BodyWritten (P : Platform) (cap : Nat) (self : Page) (rest : List UInt8) : Prop where
  written : ∃ pos, self.writeBody ⟨GapBuf self.header [], self.header.length⟩ self.header.length =
    .ok ⟨self.front ++ (toBE 4 0 ++ rest), pos⟩
  length : (self.front ++ (toBE 4 0 ++ rest)).length = pageSize
  read : ∀ crc : List UInt8, crc.length = 4 → ∃ rest', deserializeRest P cap (self.front ++ (crc ++ rest))
    self.pageTypeTag self.pageId rest = .ok (self.body, rest')

variable {P : Platform} {cap : Nat}

theorem deserializePointer_append (id : PageId) (ptr : Option PageId) (rest : List UInt8) :
    deserializePointer id (serializeOption PageId.serialize ptr ++ rest) = .ok (ptr, rest) :=
  mapError_ok (serializeOption_roundtrip PageId.roundtrip ptr rest)

theorem beNat_numItems {ε : Type} [FromIo ε] {n : Nat} (h : n < 65536) (rest : List UInt8) :
    (beNat 2 : Decoder ε Nat) (toBE 2 (UInt16.ofNat n).toNat ++ rest) = .ok (n, rest) := by
  have hn : (UInt16.ofNat n).toNat = n := by rw [UInt16.toNat_ofNat']; omega
  rw [hn]
  exact beNat_append h rest

theorem deserializeRest_leaf {id : PageId} {next prev : Option PageId} {n : Nat} (h : n ≤ maxLeafItems)
    (buf rest : List UInt8) :
    deserializeRest P cap buf leafTag id (serializeOption PageId.serialize next ++
      (serializeOption PageId.serialize prev ++ (toBE 2 (UInt16.ofNat n).toNat ++ rest))) =
    deserializeBody P cap buf leafTag id n next prev rest := by
  have hmax : maxItems leafTag = some maxLeafItems := rfl
  have hn : n < 65536 := by rw [const_maxLeafItems] at h; omega
  simp only [deserializeRest, if_true, bind_run, deserializePointer_append, pure_run, beNat_numItems hn, hmax,
    if_neg (Nat.not_lt.mpr h)]

theorem deserializeRest_other {tag : UInt8} {id : PageId} {n max : Nat} (htag : ¬ tag = leafTag)
    (hmax : maxItems tag = some max) (h : n ≤ max) (hlt : max < 65536) (buf rest : List UInt8) :
    deserializeRest P cap buf tag id (toBE 2 (UInt16.ofNat n).toNat ++ rest) =
      deserializeBody P cap buf tag id n none none rest := by
  simp only [deserializeRest, if_neg htag, bind_run, pure_run, beNat_numItems (Nat.lt_of_le_of_lt h hlt), hmax,
    if_neg (Nat.not_lt.mpr h)]

theorem leaf_count {records : List Row} (hv : LeafValid records) : records.length ≤ maxLeafItems := by
  have h7 := @Lib.SortedList.length_mul_le_sum (records.map leafEntrySize) 7 (by
    rintro x hx
    obtain ⟨r, hr, rfl⟩ := List.mem_map.mp hx
    exact leafEntrySize_ge (hv.rows r hr).hasKey)
  have hle : (records.map leafEntrySize).sum ≤ leafUsable := hv.size
  rw [List.length_map] at h7
  rw [leafUsable, const_pageSize, const_maxLeafHeaderSize] at hle
  rw [const_maxLeafItems]
  omega

theorem internal_count {keys : List Key} (hv : KeysValid keys) : keys.length ≤ maxInternalItems := by
  have h14 := @Lib.SortedList.length_mul_le_sum (keys.map internalEntrySize) 14 (by
    rintro x hx
    obtain ⟨k, -, rfl⟩ := List.mem_map.mp hx
    exact internalEntrySize_ge k)
  have hle : (keys.map internalEntrySize).sum ≤ internalUsable := hv.size
  rw [List.length_map] at h14
  rw [internalUsable, const_pageSize, const_maxInternalHeaderSize, const_pageIdSize] at hle
  rw [const_maxInternalItems]
  omega

/-- The rows of a leaf are written in as many bytes as they are counted. -/
theorem leaf_entries {records : List Row} (hv : LeafValid records) (hf : ∀ r ∈ records, r.fields.length ≤ maxNumFields) :
    ∃ es, List.Forall₂ (fun r e => Row.serialize r = .ok e) records es ∧
      (dataArea es).length + es.length * slotEntrySize = rowsSize records := by
  obtain ⟨es, hes⟩ : ∃ es, List.Forall₂ (fun r e => Row.serialize r = .ok e) records es := exists_forall₂ fun r hr =>
    Row.exists_serialize (hf r hr) (by
      have := (hv.rows r hr).row
      rw [leafEntrySize, const_maxLeafEntrySize, const_slotEntrySize] at this
      have := const_maxFieldLen
      omega)
  have hsizes : List.Forall₂ (fun r (e : List UInt8) => e.length + slotEntrySize = leafEntrySize r) records es :=
    hes.imp fun r e h => by rw [Row.length_serialize h]; rfl
  exact ⟨es, hes, length_dataArea hsizes⟩

/-- The keys of an internal page are written in as many bytes as they are counted. -/
theorem internal_entries {keys : List Key} (hv : KeysValid keys) :
    ∃ es, List.Forall₂ (fun k e => Key.serialize k = .ok e) keys es ∧
      (dataArea es).length + es.length * (slotEntrySize + pageIdSize) = keysSize keys := by
  obtain ⟨es, hes⟩ : ∃ es, List.Forall₂ (fun k e => Key.serialize k = .ok e) keys es := exists_forall₂ fun k hk =>
    Key.exists_serialize (by
      have := hv.fits k hk
      rw [KeyFits, internalEntrySize, const_maxInternalEntrySize, const_slotEntrySize, const_pageIdSize] at this
      have := const_maxFieldLen
      omega)
  have hsizes : List.Forall₂ (fun k (e : List UInt8) => e.length + (slotEntrySize + pageIdSize) = internalEntrySize k)
      keys es := hes.imp fun k e h => by rw [Key.length_serialize h, ← Nat.add_assoc]; rfl
  exact ⟨es, hes, length_dataArea hsizes⟩

theorem bodyWritten_leaf (hcap : pageSize ≤ cap) {id : PageId} {lsn : PageLsn} {records : List Row}
    {next prev : Option PageId} (hv : LeafValid records) (hf : ∀ r ∈ records, r.fields.length ≤ maxNumFields) :
    ∃ rest, BodyWritten P cap ⟨id, lsn, .leaf records next prev⟩ rest := by
  have hsize := const_pageSize
  have hmax : maxFieldLen ≤ cap := by rw [const_maxFieldLen]; omega
  obtain ⟨es, hes, hsum⟩ := leaf_entries hv hf
  have henc : List.Forall₂ (Encodes serializeRow (Row.deserialize P cap)) records es := hes.imp fun r e h => {
    written := by rw [serializeRow, h]
    read := by have := Row.roundtrip (P := P) hmax h []; rwa [List.append_nil] at this
    ne_nil := by obtain ⟨-, bs, rfl, -⟩ := Row.serialize_ok h; simp }
  have hdata : (dataArea es).length + es.length * slotEntrySize ≤ leafUsable := hsum.trans_le hv.size
  have hitems := leaf_count hv
  rw [leafUsable, const_maxLeafHeaderSize] at hdata
  let self : Page := ⟨id, lsn, .leaf records next prev⟩
  have hptr := self.length_pointers_le
  have hheader := self.length_header
  obtain ⟨area, ranges, ahead, pos', offsets, hw, hlen, hranges, hcount, hdec⟩ := entries_roundtrip .corruptRow henc
    (show records.length ≤ cap by rw [const_maxLeafItems] at hitems; omega) self.header self.header.length (by omega)
  have hbuf : self.header ++ area =
      self.front ++ (toBE 4 0 ++ (self.pointers ++ (toBE 2 (UInt16.ofNat records.length).toNat ++ area))) := by
    simp only [header, self, numItems, List.append_assoc]
  refine ⟨self.pointers ++ (toBE 2 (UInt16.ofNat records.length).toNat ++ area), ⟨pos', ?_⟩, hbuf ▸ hlen,
    fun crc hcrc => ⟨ahead, ?_⟩⟩
  · rw [← hbuf]
    simp only [writeBody, bind, Except.bind]
    rw [hw]
  · have hhead : (self.front ++ (crc ++ (self.pointers ++ toBE 2 (UInt16.ofNat records.length).toNat))).length =
        self.header.length := by
      simp only [header, self, numItems, List.length_append, hcrc, length_toBE]
    have hdec' := hdec _ hhead
    simp only [List.append_assoc] at hdec'
    have halloc : ranges.length ≤ cap := by rw [hcount]; rw [const_maxLeafItems] at hitems; omega
    show deserializeRest P cap _ leafTag id _ = _
    simp only [pointers, self, List.append_assoc, deserializeRest_leaf hitems, deserializeBody, if_true] at hdec' ⊢
    apply mapError_ok
    simp only [deserializeLeaf, bind_run, hranges, alloc_run halloc, fromResult, hdec', pure_run]

theorem bodyWritten_internal (hcap : pageSize ≤ cap) {id : PageId} {lsn : PageLsn} {keys : List Key}
    {children : List PageId} (hchildren : children.length = keys.length + 1) (hv : KeysValid keys) :
    ∃ rest, BodyWritten P cap ⟨id, lsn, .internal keys children⟩ rest := by
  have hsize := const_pageSize
  have hmax : maxFieldLen ≤ cap := by rw [const_maxFieldLen]; omega
  obtain ⟨es, hes, hsum⟩ := internal_entries hv
  have henc : List.Forall₂ (Encodes serializeKey (Key.deserialize P cap)) keys es := hes.imp fun k e h => {
    written := by rw [serializeKey, h]
    read := by have := Key.roundtrip (P := P) hmax h []; rwa [List.append_nil] at this
    ne_nil := by
      have := Key.length_serialize h
      have := k.two_le_encodedSize
      rintro rfl; simp only [List.length_nil] at *; omega }
  have hdata : (dataArea es).length + es.length * (slotEntrySize + pageIdSize) ≤ internalUsable := hsum.trans_le hv.size
  have hitems := internal_count hv
  have hes_len : keys.length = es.length := hes.length_eq
  rw [internalUsable, const_maxInternalHeaderSize, const_slotEntrySize, const_pageIdSize] at hdata
  rw [const_maxInternalItems] at hitems
  let self : Page := ⟨id, lsn, .internal keys children⟩
  have hheader : self.header.length = 23 := self.length_header
  have hclen : (children.flatMap PageId.serialize).length = children.length * 8 := by
    rw [List.length_flatMap, List.map_congr_left (g := fun _ => 8) fun c _ => PageId.length_serialize c]
    simp
  obtain ⟨cpos, hwc⟩ := writeChildren_eq children self.header self.header.length (by rw [const_pageIdSize]; omega)
  obtain ⟨area, ranges, ahead, pos', offsets, hw, hlen, hranges, hcount, hdec⟩ := entries_roundtrip .corruptKey henc
    (show keys.length ≤ cap by omega) (self.header ++ children.flatMap PageId.serialize) cpos
    (by rw [List.length_append, hheader, hclen, const_slotEntrySize]; omega)
  have hbuf : self.header ++ children.flatMap PageId.serialize ++ area = self.front ++
      (toBE 4 0 ++ (toBE 2 (UInt16.ofNat keys.length).toNat ++ (children.flatMap PageId.serialize ++ area))) := by
    simp only [header, self, numItems, pointers, List.append_assoc, List.nil_append]
  refine ⟨toBE 2 (UInt16.ofNat keys.length).toNat ++ (children.flatMap PageId.serialize ++ area), ⟨pos', ?_⟩, hbuf ▸ hlen,
    fun crc hcrc => ⟨ahead, ?_⟩⟩
  · rw [← hbuf]
    simp only [writeBody, bind, Except.bind]
    rw [hwc]
    simp only
    rw [hw]
  · have hhead : (self.front ++ (crc ++ (toBE 2 (UInt16.ofNat keys.length).toNat ++
        children.flatMap PageId.serialize))).length = (self.header ++ children.flatMap PageId.serialize).length := by
      simp only [header, self, numItems, pointers, List.length_append, hcrc, length_toBE, List.length_nil]; omega
    have hdec' := hdec _ hhead
    simp only [List.append_assoc] at hdec'
    have halloc : ranges.length ≤ cap := by omega
    have hread := readMany_flatMap (r := (PageId.deserialize.expect : Decoder CorruptionKind PageId))
      (fun c (_ : c ∈ children) rest => mapError_ok (PageId.roundtrip c rest)) area
    rw [hchildren] at hread
    have hother : maxItems internalTag = some maxInternalItems := rfl
    show deserializeRest P cap _ internalTag id _ = _
    rw [deserializeRest_other (by decide) hother (by rw [const_maxInternalItems]; exact hitems) (by decide),
      deserializeBody, if_neg (by decide), if_pos rfl]
    apply mapError_ok
    simp only [deserializeInternal, bind_run, alloc_run (show keys.length + 1 ≤ cap by omega), hread, hranges,
      alloc_run halloc, fromResult]
    simp only [self] at hdec' ⊢
    simp only [hdec', pure_run]

/-- The buffer of a page whose body is written straight out. -/
theorem exists_gapBuf (self : Page) (bytes : List UInt8) (h : self.header.length + bytes.length ≤ pageSize) :
    ∃ k, GapBuf (self.header ++ bytes) [] = self.front ++
        (toBE 4 0 ++ (self.pointers ++ (toBE 2 (UInt16.ofNat self.numItems).toNat ++ (bytes ++ List.replicate k 0)))) ∧
      (GapBuf (self.header ++ bytes) []).length = pageSize := by
  refine ⟨pageSize - (self.header ++ bytes).length, ?_, length_GapBuf ?_⟩
  · rw [GapBuf, List.length_nil, Nat.sub_zero, List.append_nil]
    generalize List.replicate (pageSize - (self.header ++ bytes).length) (0 : UInt8) = zeros
    simp only [header, List.append_assoc]
  · rw [List.length_append, List.length_nil]; omega

theorem bodyWritten_free {id : PageId} {lsn : PageLsn} {next : Option PageId} :
    ∃ rest, BodyWritten P cap ⟨id, lsn, .free next⟩ rest := by
  have hsize := const_pageSize
  have hid := const_pageIdSize
  let self : Page := ⟨id, lsn, .free next⟩
  have hheader : self.header.length = 23 := self.length_header
  have hnext := PageId.length_serializeOption_le next
  have hw := Cursor.writeAll_front self.header [] (serializeOption PageId.serialize next)
    (by rw [hheader, List.length_nil]; omega)
  obtain ⟨k, hbuf, hlen⟩ := exists_gapBuf self (serializeOption PageId.serialize next) (by omega)
  refine ⟨toBE 2 (UInt16.ofNat 0).toNat ++ (serializeOption PageId.serialize next ++ List.replicate k 0),
    ⟨(self.header ++ serializeOption PageId.serialize next).length, ?_⟩, hbuf ▸ hlen, fun crc _ => ⟨List.replicate k 0, ?_⟩⟩
  · exact hw.trans (congrArg (fun b => Except.ok (Cursor.mk b _)) hbuf)
  · have hother : maxItems freeTag = some 0 := rfl
    show deserializeRest P cap _ freeTag id _ = _
    rw [deserializeRest_other (by decide) hother (Nat.le_refl 0) (by decide), deserializeBody, if_neg (by decide),
      if_neg (by decide), if_pos rfl]
    simp only [bind_run, deserializePointer_append, pure_run]

/-- What the meta page's body is written as. -/
def metaBytes (rootId : PageId) (pageCount : UInt32) (freeListHead : Option PageId) (schema : Schema)
    (tableName : String) : List UInt8 :=
  rootId.serialize ++ (toBE 4 pageCount.toNat ++ (serializeOption PageId.serialize freeListHead ++ (schema.serialize ++
    (encode tableName.utf8ByteSize ++ strBytes tableName))))

section
variable {id : PageId} {lsn : PageLsn} {rootId : PageId} {pageCount : UInt32} {freeListHead : Option PageId}
  {schema : Schema} {tableName : String}

theorem writeBody_meta (h : usedSize ⟨id, lsn, .metaPage rootId pageCount freeListHead schema tableName⟩ ≤ pageSize) :
    let self : Page := ⟨id, lsn, .metaPage rootId pageCount freeListHead schema tableName⟩
    self.header.length + (metaBytes rootId pageCount freeListHead schema tableName).length ≤ pageSize ∧
    ∃ pos, self.writeBody ⟨GapBuf self.header [], self.header.length⟩ self.header.length =
      .ok ⟨GapBuf (self.header ++ metaBytes rootId pageCount freeListHead schema tableName) [], pos⟩ := by
  intro self
  have hheader : self.header.length = 23 := self.length_header
  have hflh := PageId.length_serializeOption_le freeListHead
  simp only [usedSize, const_maxInternalHeaderSize] at h
  have hid := const_pageIdSize
  have h1 : rootId.serialize.length = pageIdSize := PageId.length_serialize rootId
  have h2 : (toBE 4 pageCount.toNat).length = 4 := length_toBE 4 _
  have h3 : schema.serialize.length = schema.encodedSize := Schema.length_serialize schema
  have h4 : (encode tableName.utf8ByteSize).length = size tableName.utf8ByteSize := length_encode _
  have h5 : (strBytes tableName).length = tableName.utf8ByteSize := length_strBytes tableName
  generalize self.header = header at hheader ⊢
  refine ⟨by simp only [metaBytes, List.length_append]; omega, ?_⟩
  simp only [writeBody, self, bind, Except.bind]
  rw [Cursor.writeAll_front _ _ _ (by simp only [List.length_nil]; omega)]
  simp only
  rw [Cursor.writeAll_front _ _ _ (by simp only [List.length_append, List.length_nil]; omega)]
  simp only
  rw [Cursor.writeAll_front _ _ _ (by simp only [List.length_append, List.length_nil]; omega)]
  simp only
  rw [Cursor.writeAll_front _ _ _ (by simp only [List.length_append, List.length_nil]; omega)]
  simp only
  rw [Cursor.writeAll_front _ _ _ (by simp only [List.length_append, List.length_nil]; omega)]
  simp only
  rw [Cursor.writeAll_front _ _ _ (by simp only [List.length_append, List.length_nil]; omega)]
  exact ⟨_, by simp only [metaBytes, List.append_assoc]; rfl⟩

theorem deserializeMetaFields_append (hcap : maxFieldLen ≤ cap) (hnames : schema.NamesFit) (rest : List UInt8) :
    deserializeMetaFields P cap id (rootId.serialize ++ (toBE 4 pageCount.toNat ++
      (serializeOption PageId.serialize freeListHead ++ (schema.serialize ++ rest)))) =
      .ok ((rootId, pageCount, freeListHead, schema), rest) := by
  have hcount : pageCount.toNat < 256 ^ 4 := pageCount.toNat_lt
  simp only [deserializeMetaFields, mapErr, bind_run, mapError_ok (PageId.roundtrip rootId _), beNat_append hcount,
    deserializePointer_append, mapError_ok (Schema.roundtrip hcap hnames _), pure_run, UInt32.ofNat_toNat]

/-- A schema with a name that is too long is refused. -/
theorem deserializeMetaFields_tooLong (hcap : maxFieldLen ≤ cap) (hnames : ¬ schema.NamesFit)
    (hlt : ∀ c ∈ schema.columns, c.name.utf8ByteSize < 2 ^ 64) (rest : List UInt8) :
    deserializeMetaFields P cap id (rootId.serialize ++ (toBE 4 pageCount.toNat ++
      (serializeOption PageId.serialize freeListHead ++ (schema.serialize ++ rest)))) =
      .error (.err (.corrupt (some id) .badSchema)) := by
  have hcount : pageCount.toNat < 256 ^ 4 := pageCount.toNat_lt
  obtain ⟨e, he⟩ := Schema.deserialize_tooLong (P := P) hcap hnames hlt rest
  simp only [deserializeMetaFields, mapErr, bind_run, mapError_ok (PageId.roundtrip rootId _), beNat_append hcount,
    deserializePointer_append]
  simp only [mapError, he, Fail.map]

/-- Reading the body of a written meta page comes down to reading its fields. -/
theorem deserializeRest_meta (buf rest : List UInt8) :
    deserializeRest P cap buf metaTag id (toBE 2 (UInt16.ofNat 0).toNat ++ rest) = deserializeMeta P cap id rest := by
  have hother : maxItems metaTag = some 0 := rfl
  rw [deserializeRest_other (by decide) hother (Nat.le_refl 0) (by decide), deserializeBody, if_neg (by decide),
    if_neg (by decide), if_neg (by decide), if_pos rfl]

/-- The body of a meta page is read back, whatever follows the name. -/
theorem deserializeMeta_append (hcap : pageSize ≤ cap) (hnames : schema.NamesFit)
    (h : usedSize ⟨id, lsn, .metaPage rootId pageCount freeListHead schema tableName⟩ ≤ pageSize) (rest : List UInt8) :
    deserializeMeta P cap id (metaBytes rootId pageCount freeListHead schema tableName ++ rest) =
      .ok (.metaPage rootId pageCount freeListHead schema tableName, rest) := by
  have hsize := const_pageSize
  have hmax : maxFieldLen ≤ cap := by rw [const_maxFieldLen]; omega
  have hname : tableName.utf8ByteSize ≤ pageSize := by simp only [usedSize] at h; omega
  have hname64 : tableName.utf8ByteSize < 2 ^ 64 := by omega
  simp only [metaBytes, List.append_assoc, deserializeMeta, bind_run, deserializeMetaFields_append hmax hnames,
    varint_append P hname64, alloc_run (hname.trans hcap), bytes_append (length_strBytes tableName), utf8_strBytes,
    pure_run]

theorem bodyWritten_meta (hcap : pageSize ≤ cap) (hnames : schema.NamesFit)
    (h : usedSize ⟨id, lsn, .metaPage rootId pageCount freeListHead schema tableName⟩ ≤ pageSize) :
    ∃ rest, BodyWritten P cap ⟨id, lsn, .metaPage rootId pageCount freeListHead schema tableName⟩ rest := by
  let self : Page := ⟨id, lsn, .metaPage rootId pageCount freeListHead schema tableName⟩
  obtain ⟨hfit, pos, hw⟩ := writeBody_meta h
  obtain ⟨k, hbuf, hlen⟩ := exists_gapBuf self _ hfit
  refine ⟨toBE 2 (UInt16.ofNat 0).toNat ++ (metaBytes rootId pageCount freeListHead schema tableName ++
    List.replicate k 0), ⟨pos, ?_⟩, hbuf ▸ hlen, fun crc _ => ⟨List.replicate k 0, ?_⟩⟩
  · exact hw.trans (congrArg (fun b => Except.ok (Cursor.mk b pos)) hbuf)
  · exact (deserializeRest_meta _ _).trans (deserializeMeta_append hcap hnames h _)

end

/-! ## Whole pages -/

/-- Some bytes before the checksum, the checksum, and the bytes after it. -/
def sealed (P : Platform) (front rest : List UInt8) : List UInt8 :=
  front ++ (toBE 4 (P.crc (front ++ rest)).toNat ++ rest)

theorem checkedBytes_append {front crc : List UInt8} (hf : front.length = checksumOffset) (hc : crc.length = 4)
    (rest : List UInt8) :
    checkedBytes (front ++ (crc ++ rest)) = front ++ rest := by
  have hdrop : (front ++ (crc ++ rest)).drop (checksumOffset + 4) = rest := by
    rw [← List.append_assoc, List.drop_left' (by rw [List.length_append, hf, hc])]
  rw [checkedBytes, List.take_left' hf, hdrop]

theorem drop_sealed {front : List UInt8} (hf : front.length = checksumOffset) (rest : List UInt8) :
    (sealed P front rest).drop (checksumOffset + 4) = rest := by
  rw [sealed, ← List.append_assoc, List.drop_left' (by rw [List.length_append, hf, length_toBE])]

/-- The checksum stored in a sealed page is the one computed over it. -/
theorem pageChecksum_sealed {front : List UInt8} (hf : front.length = checksumOffset) (rest : List UInt8) :
    pageChecksum P (sealed P front rest) = UInt32.ofNat (ofBE (((sealed P front rest).drop checksumOffset).take 4)) := by
  have hcrc : (P.crc (front ++ rest)).toNat < 256 ^ 4 := (P.crc (front ++ rest)).toNat_lt
  have hsum : ((sealed P front rest).drop checksumOffset).take 4 = toBE 4 (P.crc (front ++ rest)).toNat := by
    rw [sealed, List.drop_left' hf, List.take_left' (length_toBE 4 _)]
  rw [hsum, ofBE_toBE hcrc, UInt32.ofNat_toNat, pageChecksum, sealed, checkedBytes_append hf (length_toBE 4 _) rest]

theorem deserializeHeader_front (self : Page) (rest : List UInt8) :
    deserializeHeader (self.front ++ rest) = .ok ((self.pageTypeTag, self.pageId, self.lastUpdate), rest) := by
  simp only [deserializeHeader, front, List.cons_append, List.append_assoc, bind_run, byte_cons, mapErr,
    mapError_ok (PageId.roundtrip self.pageId _), mapError_ok (PageLsn.roundtrip self.lastUpdate _), pure_run]

/-- Reading a sealed page whose checksum was computed over it. -/
theorem deserializeWithin_sealed (self : Page) (rest : List UInt8) :
    deserializeWithin P cap (sealed P self.front rest) =
      (do
        let (body, _) ← deserializeRest P cap (sealed P self.front rest) self.pageTypeTag self.pageId rest
        let page : Page := ⟨self.pageId, self.lastUpdate, body⟩
        match page.checkInvariants with
        | .error kind => .err (.corrupt (some self.pageId) kind)
        | .ok () => .ok page : PageResult Page) := by
  have hsum := pageChecksum_sealed (P := P) self.length_front rest
  have hdrop := drop_sealed (P := P) self.length_front rest
  simp only [deserializeWithin, ← hsum, ne_eq, not_true_eq_false, if_false, hdrop]
  have hheader : deserializeHeader (sealed P self.front rest) = .ok ((self.pageTypeTag, self.pageId, self.lastUpdate), _) :=
    deserializeHeader_front self _
  exact congrArg (· >>= _) hheader

theorem asRawPage_sealed {self : Page} {rest : List UInt8} {pos : Nat} (hv : self.Valid)
    (hw : self.writeBody ⟨GapBuf self.header [], self.header.length⟩ self.header.length =
      .ok ⟨self.front ++ (toBE 4 0 ++ rest), pos⟩) :
    asRawPage P self = .ok (sealed P self.front rest) := by
  have hchecked := checkedBytes_append self.length_front (length_toBE 4 0) rest
  have hdrop : (self.front ++ (toBE 4 0 ++ rest)).drop (checksumOffset + 4) = rest := by
    rw [← List.append_assoc, List.drop_left' (by rw [List.length_append, length_front, length_toBE])]
  have hstart : GapBuf [] [] = List.replicate pageSize 0 := by simp [GapBuf]
  simp only [asRawPage, (checkInvariants_iff self).mpr hv, bind, Except.bind, ← hstart, writeHeader_eq, hw, pageChecksum,
    hchecked, hdrop, List.take_left' self.length_front, sealed, List.append_assoc]

/-- The rows' field counts fit a byte, and the column names are short enough to be read. -/
def FieldsFit : PageBody → Prop
  | .leaf records _ _ => ∀ r ∈ records, r.fields.length ≤ maxNumFields
  | .metaPage _ _ _ schema _ => schema.NamesFit
  | _ => True

/-- A page that can be written and read back. -/
def Encodable (self : Page) : Prop := self.Valid ∧ FieldsFit self.body

theorem Encodable.bodyWritten (hcap : pageSize ≤ cap) {self : Page} (h : self.Encodable) :
    ∃ rest, BodyWritten P cap self rest := by
  rcases self with ⟨id, lsn, ⟨records, next, prev⟩ | ⟨keys, children⟩ | ⟨rootId, pageCount, flh, schema, name⟩ | next⟩
  · exact bodyWritten_leaf hcap h.1 h.2
  · exact bodyWritten_internal hcap h.1.1 h.1.2
  · exact bodyWritten_meta hcap h.2 h.1.1
  · exact bodyWritten_free

/-- An encodable page is written in `PAGE_SIZE` bytes and read back as itself. -/
theorem roundtrip (hcap : pageSize ≤ cap) {self : Page} (h : self.Encodable) :
    ∃ raw, asRawPage P self = .ok raw ∧ raw.length = pageSize ∧ deserializeWithin P cap raw = .ok self := by
  obtain ⟨rest, ⟨pos, hw⟩, hlen, hread⟩ := Encodable.bodyWritten (P := P) hcap h
  obtain ⟨rest', hbody⟩ := hread (toBE 4 (P.crc (self.front ++ rest)).toNat) (length_toBE 4 _)
  refine ⟨sealed P self.front rest, asRawPage_sealed h.1 hw, ?_, ?_⟩
  · simp only [List.length_append, length_toBE] at hlen
    simp only [sealed, List.length_append, length_toBE, hlen]
  · have hself : (⟨self.pageId, self.lastUpdate, self.body⟩ : Page) = self := rfl
    rw [deserializeWithin_sealed]
    simp only [sealed] at hbody ⊢
    simp only [bind, Except.bind, hbody, hself, (checkInvariants_iff self).mpr h.1]

/-! ## What was read can be written -/

theorem decodeSlots_ok {ε α : Type} {deserialize : Decoder ε α} {decodeError : Nat → CorruptionKind} {Q : α → Prop}
    (hQ : ∀ bs v rest, deserialize bs = .ok (v, rest) → Q v) {buf : List UInt8} :
    ∀ {slot : Nat} {ranges : List (Nat × Nat)} {vals : List α},
      decodeSlots deserialize decodeError buf slot ranges = .ok vals → ∀ v ∈ vals, Q v
  | _, [], _, h => by cases h; simp
  | slot, range :: rest, vals, h => by
    simp only [decodeSlots, bind, Except.bind] at h
    cases hs : slice buf range with
    | error e => simp [hs] at h
    | ok bs =>
      cases hv : decodeSlot deserialize bs slot decodeError with
      | error e => simp [hs, hv] at h
      | ok v =>
        cases hvs : decodeSlots deserialize decodeError buf (slot + 1) rest with
        | error e => simp [hs, hv, hvs] at h
        | ok vals' =>
          simp only [hs, hv, hvs, Except.ok.injEq] at h
          subst h
          rintro w (_ | ⟨_, hw⟩)
          · unfold decodeSlot at hv
            split at hv
            · cases hv
            · rename_i hd
              split at hv
              · cases hv; exact hQ _ _ _ hd
              · cases hv
          · exact decodeSlots_ok hQ hvs w hw

theorem fromResult_ok {ε α : Type} {x : Except (Fail ε) α} {bs rest : List UInt8} {a : α}
    (h : fromResult x bs = .ok (a, rest)) : x = .ok a := by
  unfold fromResult at h
  cases x with
  | ok b => cases h; rfl
  | error e => cases h

theorem deserializeBody_ok {buf bs rest : List UInt8} {tag : UInt8} {id : PageId} {n : Nat} {next prev : Option PageId}
    {body : PageBody} (h : deserializeBody P cap buf tag id n next prev bs = .ok (body, rest)) : FieldsFit body := by
  unfold deserializeBody at h
  by_cases h1 : tag = leafTag
  · rw [if_pos h1] at h
    have h := mapError_eq_ok.mp h
    obtain ⟨ranges, bs1, -, h⟩ := bind_eq_ok.mp h
    obtain ⟨_, bs2, -, h⟩ := bind_eq_ok.mp h
    obtain ⟨records, bs3, hrecords, h⟩ := bind_eq_ok.mp h
    cases h
    exact decodeSlots_ok (fun _ _ _ => Row.deserialize_ok) (fromResult_ok hrecords)
  rw [if_neg h1] at h
  by_cases h2 : tag = internalTag
  · rw [if_pos h2] at h
    have h := mapError_eq_ok.mp h
    obtain ⟨_, bs1, -, h⟩ := bind_eq_ok.mp h
    obtain ⟨children, bs2, -, h⟩ := bind_eq_ok.mp h
    obtain ⟨ranges, bs3, -, h⟩ := bind_eq_ok.mp h
    obtain ⟨_, bs4, -, h⟩ := bind_eq_ok.mp h
    obtain ⟨keys, bs5, -, h⟩ := bind_eq_ok.mp h
    cases h
    trivial
  rw [if_neg h2] at h
  by_cases h3 : tag = freeTag
  · rw [if_pos h3] at h
    obtain ⟨ptr, bs1, -, h⟩ := bind_eq_ok.mp h
    cases h
    trivial
  rw [if_neg h3] at h
  by_cases h4 : tag = metaTag
  · rw [if_pos h4] at h
    obtain ⟨⟨rootId, pageCount, flh, schema⟩, bs1, hfields, h⟩ := bind_eq_ok.mp h
    obtain ⟨nameLen, bs2, -, h⟩ := bind_eq_ok.mp h
    obtain ⟨_, bs3, -, h⟩ := bind_eq_ok.mp h
    obtain ⟨nameBuffer, bs4, -, h⟩ := bind_eq_ok.mp h
    obtain ⟨tableName, bs5, -, h⟩ := bind_eq_ok.mp h
    cases h
    obtain ⟨_, bs6, -, hfields⟩ := bind_eq_ok.mp hfields
    obtain ⟨_, bs7, -, hfields⟩ := bind_eq_ok.mp hfields
    obtain ⟨_, bs8, -, hfields⟩ := bind_eq_ok.mp hfields
    obtain ⟨_, bs9, hschema, hfields⟩ := bind_eq_ok.mp hfields
    cases hfields
    exact Schema.deserialize_ok (mapError_eq_ok.mp hschema)
  · rw [if_neg h4] at h; cases h

theorem deserializeRest_ok {buf bs rest : List UInt8} {tag : UInt8} {id : PageId} {body : PageBody}
    (h : deserializeRest P cap buf tag id bs = .ok (body, rest)) : FieldsFit body := by
  have items : ∀ {next prev : Option PageId} {bs : List UInt8},
      deserializeItems P cap buf tag id next prev bs = .ok (body, rest) → FieldsFit body := by
    intro next prev bs h
    unfold deserializeItems at h
    obtain ⟨n, bs2, -, h⟩ := bind_eq_ok.mp h
    cases hmax : maxItems tag with
    | none => simp only [hmax] at h; cases h
    | some max =>
      simp only [hmax] at h
      by_cases hn : n > max
      · rw [if_pos hn] at h; cases h
      · rw [if_neg hn] at h; exact deserializeBody_ok h
  rw [deserializeRest_eq] at h
  by_cases htag : tag = leafTag
  · rw [if_pos htag] at h
    obtain ⟨np, bs1, -, h⟩ := bind_eq_ok.mp h
    obtain ⟨pp, bs2, -, h⟩ := bind_eq_ok.mp h
    exact items h
  · rw [if_neg htag] at h
    exact items h

/-- A page that was read can be written again. -/
theorem deserialize_encodable {buf : List UInt8} {self : Page} (h : deserializeWithin P cap buf = .ok self) :
    self.Encodable := by
  unfold deserializeWithin at h
  simp only at h
  by_cases hcrc : pageChecksum P buf = UInt32.ofNat (ofBE ((buf.drop checksumOffset).take 4))
  · rw [if_neg (by simpa using hcrc)] at h
    simp only [bind, Except.bind] at h
    cases hheader : deserializeHeader buf with
    | error e => simp [hheader] at h
    | ok x =>
      obtain ⟨⟨tag, id, lsn⟩, bs⟩ := x
      simp only [hheader] at h
      cases hbody : deserializeRest P cap buf tag id (buf.drop (checksumOffset + 4)) with
      | error e => simp [hbody] at h
      | ok y =>
        obtain ⟨body, rest⟩ := y
        simp only [hbody] at h
        split at h
        · cases h
        · rename_i hinv
          cases h
          exact ⟨(checkInvariants_iff _).mp hinv, deserializeRest_ok hbody⟩
  · rw [if_pos hcrc] at h; cases h

theorem deserialize_eq {buf : List UInt8} (h : buf.length = pageSize) :
    deserialize P buf = deserializeWithin P isizeMax buf := by
  rw [deserialize, if_neg (by omega), List.take_of_length_le (by omega)]

/-- `asRawPage` and `deserialize` are inverse on leaf, internal and free pages. -/
theorem deserialize_asRawPage (P : Platform) (self : Page) (hinv : self.checkInvariants = .ok ())
    (hmeta : self.isMeta = false)
    (hfields : ∀ records, self.records? = some records → ∀ r ∈ records, r.fields.length ≤ 255) :
    ∃ raw, asRawPage P self = .ok raw ∧ raw.length = pageSize ∧ deserialize P raw = .ok self := by
  have hfit : FieldsFit self.body := by
    rcases self with ⟨id, lsn, ⟨records, next, prev⟩ | _ | _ | _⟩
    · exact hfields records rfl
    · trivial
    · cases hmeta
    · trivial
  obtain ⟨raw, hraw, hlen, hread⟩ := roundtrip (P := P) (show pageSize ≤ isizeMax by decide)
      ⟨(checkInvariants_iff self).mp hinv, hfit⟩
  exact ⟨raw, hraw, hlen, (deserialize_eq hlen).trans hread⟩

/-- A leaf of two rows. -/
def smallLeaf : Page :=
  ⟨⟨⟨1⟩, 2⟩, some ⟨7, by decide⟩, .leaf [⟨[.integer 1, .float 0, .null]⟩, ⟨[.integer 2, .boolean true]⟩]
  (some ⟨⟨1⟩, 3⟩) none⟩

theorem smallLeaf_valid : smallLeaf.checkInvariants = .ok () := by
  rw [checkInvariants_iff]
  refine ⟨?_, ?_, by decide⟩
  · rintro r (_ | ⟨_, _ | ⟨_, hr⟩⟩)
    · exact ⟨rfl, by decide, by decide⟩
    · exact ⟨rfl, by decide, by decide⟩
    · cases hr
  · refine List.pairwise_cons.mpr ⟨?_, List.pairwise_singleton _ _⟩
    rintro k (_ | ⟨_, hk⟩)
    · exact Key.integer_lt_integer.mpr (by decide)
    · cases hk

theorem deserialize_asRawPage_small : ∃ raw, asRawPage .standard smallLeaf = .ok raw ∧ raw.length = pageSize ∧
    deserialize .standard raw = .ok smallLeaf :=
  deserialize_asRawPage .standard smallLeaf smallLeaf_valid rfl (by
    intro records h
    cases h
    decide)

section
variable {id : PageId} {lsn : PageLsn} {rootId : PageId} {pageCount : UInt32} {freeListHead : Option PageId}
    {schema : Schema}
  {tableName : String} {raw : List UInt8}

theorem valid_of_asRawPage {self : Page} (hraw : asRawPage P self = .ok raw) : self.Valid := by
  rw [← checkInvariants_iff]
  cases hinv : self.checkInvariants with
  | ok _ => rfl
  | error kind =>
    simp only [asRawPage, hinv] at hraw
    cases hraw

/-- A valid meta page is written. -/
theorem exists_asRawPage_meta (P : Platform) (hvalid : Valid
    ⟨id, lsn, .metaPage rootId pageCount freeListHead schema tableName⟩) :
    ∃ k, asRawPage P ⟨id, lsn, .metaPage rootId pageCount freeListHead schema tableName⟩ =
        .ok (sealed P (front ⟨id, lsn, .metaPage rootId pageCount freeListHead schema tableName⟩)
          (toBE 2 (UInt16.ofNat 0).toNat ++ (metaBytes rootId pageCount freeListHead schema tableName ++
            List.replicate k 0))) ∧
      (sealed P (front ⟨id, lsn, .metaPage rootId pageCount freeListHead schema tableName⟩)
          (toBE 2 (UInt16.ofNat 0).toNat ++ (metaBytes rootId pageCount freeListHead schema tableName ++
            List.replicate k 0))).length = pageSize := by
  obtain ⟨hfit, pos, hw⟩ := writeBody_meta hvalid.1
  obtain ⟨k, hbuf, hlen⟩ := exists_gapBuf _ _ hfit
  refine ⟨k, asRawPage_sealed hvalid (hw.trans (congrArg (fun b => Except.ok (Cursor.mk b pos)) hbuf)), ?_⟩
  have hpointers : (⟨id, lsn, .metaPage rootId pageCount freeListHead schema tableName⟩ : Page).pointers = [] := rfl
  rw [hbuf, hpointers] at hlen
  simpa only [sealed, List.nil_append, List.length_append, length_toBE] using hlen

/-- A meta page with a column name that is too long is written, and refused when it is read. -/
theorem deserialize_meta_tooLong (hnames : ¬ schema.NamesFit)
    (hraw : asRawPage P ⟨id, lsn, .metaPage rootId pageCount freeListHead schema tableName⟩ = .ok raw) :
    deserialize P raw = .err (.corrupt (some id) .badSchema) := by
  have hvalid := valid_of_asRawPage hraw
  have hsize := hvalid.1
  have hlt : ∀ c ∈ schema.columns, c.name.utf8ByteSize < 2 ^ 64 := by
    intro c hc
    have hmem : c.encodedSize ≤ (schema.columns.map Column.encodedSize).sum := List.le_sum_of_mem (List.mem_map_of_mem hc)
    simp only [usedSize, Schema.encodedSize, const_pageSize] at hsize
    simp only [Column.encodedSize] at hmem
    omega
  obtain ⟨k, hsealed, hlen⟩ := exists_asRawPage_meta P hvalid
  cases hraw.symm.trans hsealed
  have hmeta : ∀ rest, deserializeMeta P isizeMax id (metaBytes rootId pageCount freeListHead schema tableName ++ rest) =
      .error (.err (.corrupt (some id) .badSchema)) := by
    intro rest
    have hfields := @deserializeMetaFields_tooLong P isizeMax id rootId pageCount freeListHead schema (by decide) hnames
      hlt (encode tableName.utf8ByteSize ++ (strBytes tableName ++ rest))
    simp only [metaBytes, List.append_assoc, deserializeMeta, bind_run, hfields]
  refine (deserialize_eq hlen).trans ?_
  rw [deserializeWithin_sealed]
  show (deserializeRest P isizeMax _ metaTag id (toBE 2 (UInt16.ofNat 0).toNat ++ _) >>= _) = _
  rw [deserializeRest_meta, hmeta]
  rfl

/-- A meta page that is written is read back as itself exactly when its column names are short
    enough to be read. -/
theorem deserialize_meta_iff (hraw : asRawPage P ⟨id, lsn, .metaPage rootId pageCount freeListHead schema tableName⟩ =
    .ok raw) :
    deserialize P raw = .ok ⟨id, lsn, .metaPage rootId pageCount freeListHead schema tableName⟩ ↔ schema.NamesFit := by
  constructor
  · intro hread
    by_contra hnames
    cases hread.symm.trans (deserialize_meta_tooLong hnames hraw)
  · intro hnames
    have hencodable : Encodable ⟨id, lsn, .metaPage rootId pageCount freeListHead schema tableName⟩ :=
        ⟨valid_of_asRawPage hraw, hnames⟩
    obtain ⟨raw', hraw', hlen, hread⟩ := roundtrip (P := P) (show pageSize ≤ isizeMax by decide) hencodable
    cases hraw.symm.trans hraw'
    exact (deserialize_eq hlen).trans hread

/-! ### A meta page with other bytes after its name -/

/-- A valid meta page is read, whatever bytes follow its name. -/
theorem deserialize_followed (hvalid : Valid ⟨id, lsn, .metaPage rootId pageCount freeListHead schema tableName⟩)
    (hnames : schema.NamesFit) {rest : List UInt8}
    (hlen : (sealed P (front ⟨id, lsn, .metaPage rootId pageCount freeListHead schema tableName⟩)
      (toBE 2 (UInt16.ofNat 0).toNat ++ (metaBytes rootId pageCount freeListHead schema tableName ++ rest))).length =
        pageSize) :
    deserialize P (sealed P (front ⟨id, lsn, .metaPage rootId pageCount freeListHead schema tableName⟩)
      (toBE 2 (UInt16.ofNat 0).toNat ++ (metaBytes rootId pageCount freeListHead schema tableName ++ rest))) =
      .ok ⟨id, lsn, .metaPage rootId pageCount freeListHead schema tableName⟩ := by
  have hmeta := deserializeMeta_append (P := P) (show pageSize ≤ isizeMax by decide) hnames hvalid.1 rest
  refine (deserialize_eq hlen).trans ?_
  rw [deserializeWithin_sealed]
  show (deserializeRest P isizeMax _ metaTag id (toBE 2 (UInt16.ofNat 0).toNat ++ _) >>= _) = _
  rw [deserializeRest_meta, hmeta]
  simp only [bind, Except.bind, (checkInvariants_iff _).mpr hvalid]

end

/-- A small meta page. -/
def idMeta : Page := emptyPage ⟨⟨1⟩, 0⟩ (.metaPage ⟨⟨1⟩, 1⟩ 2 none idSchema (String.singleton 'a'))

theorem idMeta_valid : idMeta.Valid := (checkInvariants_iff idMeta).mp (by decide +kernel)

theorem idSchema_namesFit : idSchema.NamesFit := by
  intro c hc
  rw [show c = idColumn from List.mem_singleton.mp hc]
  decide

/-- What follows the checksum of the small meta page, before what follows its name. -/
def idMetaBytes : List UInt8 :=
  toBE 2 (UInt16.ofNat 0).toNat ++ metaBytes ⟨⟨1⟩, 1⟩ 2 none idSchema (String.singleton 'a')

theorem length_idMetaBytes : idMetaBytes.length = 22 := by
  decide +kernel

/-- The small meta page with its last bytes set. -/
def followedPage : RawPage := ⟨sealed .standard idMeta.front (idMetaBytes ++ List.replicate 4053 0xAB), by
  simp only [sealed, List.length_append, length_toBE, length_front, length_idMetaBytes, List.length_replicate,
    const_pageSize, const_checksumOffset]⟩

theorem deserialize_followedPage : deserialize .standard followedPage.1 = .ok idMeta := by
  have hread := @deserialize_followed .standard ⟨⟨1⟩, 0⟩ none ⟨⟨1⟩, 1⟩ 2 none idSchema (String.singleton 'a') idMeta_valid
    idSchema_namesFit (List.replicate 4053 0xAB)
  rw [← List.append_assoc] at hread
  exact hread followedPage.2

/-- Every accepted buffer is read as a page that can be written, and writing it after
    reading is idempotent. -/
theorem asRawPage_deserialize (P : Platform) (buf : RawPage) (self : Page) (h : deserialize P buf.1 = .ok self) :
    ∃ raw, asRawPage P self = .ok raw ∧ raw.length = pageSize ∧ deserialize P raw = .ok self ∧
      ∀ again, deserialize P raw = .ok again → asRawPage P again = .ok raw := by
  rw [deserialize_eq buf.2] at h
  obtain ⟨raw, hraw, hlen, hread⟩ := roundtrip (P := P) (show pageSize ≤ isizeMax by decide) (deserialize_encodable h)
  have hread := (deserialize_eq hlen).trans hread
  refine ⟨raw, hraw, hlen, hread, fun again hagain => ?_⟩
  rw [hread] at hagain
  cases hagain
  exact hraw

/-- The buffer is not the one that its page is written as. -/
theorem asRawPage_deserialize_followed : ∃ raw, asRawPage .standard idMeta = .ok raw ∧ raw ≠ followedPage.1 ∧
    deserialize .standard raw = .ok idMeta := by
  obtain ⟨raw, hraw, -, hread, -⟩ := asRawPage_deserialize .standard followedPage idMeta deserialize_followedPage
  refine ⟨raw, hraw, ?_, hread⟩
  obtain ⟨k, hsealed, -⟩ := exists_asRawPage_meta .standard idMeta_valid
  rintro rfl
  have hdrop := congrArg (List.drop (checksumOffset + 4)) (Except.ok.inj (hraw.symm.trans hsealed))
  rw [← List.append_assoc, followedPage, drop_sealed idMeta.length_front, drop_sealed (length_front _)] at hdrop
  have hlast := List.append_cancel_left hdrop
  have h0 : (0xAB : UInt8) ∈ List.replicate k 0 := hlast ▸ List.mem_replicate.mpr ⟨by decide, rfl⟩
  exact absurd (List.eq_of_mem_replicate h0) (by decide)

end Page

end RustDb
