/-
  RustDb.Codec.Sizes — the sizes that `encoded_size` and `free_space` count are those the
  encoder writes.

  Every insert, split and merge decides by `free_space`, which knows nothing of the encoder.
  On a page that passes `check_invariants` the gap that `write_body` leaves between the slot
  array and the data area is `free_space`, and what a missing sibling saves of the header;
  and no offset or length is too large for the `u16` of its slot.
-/

import RustDb.Codec.RoundTrip

namespace RustDb

open Lib.Bytes

/-- `Option::<PageId>::encoded_size`. -/
def optionEncodedSize : Option PageId → Nat
  | some _ => pageIdSize + 1
  | none => 1

theorem length_serializeOption (id : Option PageId) :
    (serializeOption PageId.serialize id).length = optionEncodedSize id := by
  cases id with
  | none => rfl
  | some id => rw [serializeOption, List.length_cons, PageId.length_serialize, optionEncodedSize]

namespace Page

/-! ## The offsets -/

/-- `Page::write_body` with the `slot_offset` and the `data_offset` that it returns. -/
def writeBodyOffsets (self : Page) (writer : Cursor) (headerEnd : Nat) : PageResult (Cursor × Nat × Nat) :=
  match self.body with
  | .leaf records _ _ => writeEntries serializeRow records writer headerEnd pageSize
  | .internal keys children => do
    let (writer, slotOffset) ← writeChildren children writer headerEnd
    writeEntries serializeKey keys writer slotOffset pageSize
  | _ => do
    let writer ← self.writeBody writer headerEnd
    .ok (writer, 0, 0)

/-- `writeBody` is `writeBodyOffsets` without the offsets. -/
theorem writeBody_eq_map (self : Page) (writer : Cursor) (headerEnd : Nat) :
    self.writeBody writer headerEnd = (self.writeBodyOffsets writer headerEnd).map Prod.fst := by
  have hplain (body : PageResult Cursor) : body = (body >>= fun w => .ok (w, 0, 0)).map
      (Prod.fst : Cursor × Nat × Nat → _) := by
    rcases body with e | w
    · rfl
    · rfl
  rcases self with ⟨id, lsn, ⟨records, next, prev⟩ | ⟨keys, children⟩ | _ | _⟩
  · show (writeEntries serializeRow records writer headerEnd pageSize >>= fun x => .ok x.1) =
      (writeEntries serializeRow records writer headerEnd pageSize).map Prod.fst
    rcases writeEntries serializeRow records writer headerEnd pageSize with e | x
    · rfl
    · rfl
  · show (writeChildren children writer headerEnd >>= fun w => writeEntries serializeKey keys w.1 w.2 pageSize >>=
        fun x => .ok x.1) =
      (writeChildren children writer headerEnd >>= fun w => writeEntries serializeKey keys w.1 w.2 pageSize).map Prod.fst
    rcases writeChildren children writer headerEnd with e | ⟨w, slotOffset⟩
    · rfl
    · show (writeEntries serializeKey keys w slotOffset pageSize >>= fun x => .ok x.1) =
        (writeEntries serializeKey keys w slotOffset pageSize).map Prod.fst
      rcases writeEntries serializeKey keys w slotOffset pageSize with e | x
      · rfl
      · rfl
  · exact hplain _
  · exact hplain _

/-- The siblings that a leaf does not have. -/
def noneSiblings (self : Page) : Nat :=
  match self.body with
  | .leaf _ next prev => (if next.isNone then 1 else 0) + if prev.isNone then 1 else 0
  | _ => 0

/-- What the rows or the keys of a page are written as. -/
def Entries (self : Page) (entries : List (List UInt8)) : Prop :=
  match self.body with
  | .leaf records _ _ => List.Forall₂ (fun r e => Row.serialize r = .ok e) records entries
  | .internal keys _ => List.Forall₂ (fun k e => Key.serialize k = .ok e) keys entries
  | _ => entries = []

/-- A buffer holds the slots of `entries` up to `slotOffset` and the entries from `dataOffset`
    on, and each slot has the offset and the length of its entry. -/
structure LaidOut (entries : List (List UInt8)) (slotOffset dataOffset : Nat) (buf : List UInt8) : Prop where
  area : ∃ (start gap : List UInt8) (slots : List SlotEntry),
      buf = start ++ (slots.flatMap SlotEntry.serialize ++ (gap ++ dataArea entries)) ∧
    start.length + slots.length * slotEntrySize = slotOffset ∧ slotOffset + gap.length = dataOffset ∧
    slots.map SlotEntry.range = rangesFrom pageSize entries
  whole : buf.length = pageSize

theorem length_pointers (self : Page) (h : self.isLeaf = true) :
    self.pointers.length + pageIdSize * self.noneSiblings = 18 := by
  rcases self with ⟨id, lsn, ⟨records, next, prev⟩ | _ | _ | _⟩
  · have hid := const_pageIdSize
    unfold pointers noneSiblings
    simp only [List.length_append, length_serializeOption]
    cases next <;> cases prev <;> simp only [optionEncodedSize, hid] <;> rfl
  · cases h
  · cases h
  · cases h

/-- The entries of a page written between `head` and the end of the page. -/
theorem writeEntries_laidOut {α : Type} {serialize : α → PageResult (List UInt8)} {vals : List α} {es : List (List UInt8)}
    (h : List.Forall₂ (fun v e => serialize v = .ok e) vals es) (head : List UInt8) (pos : Nat)
    (hfit : head.length + es.length * slotEntrySize + (dataArea es).length ≤ pageSize) :
    ∃ cursor, writeEntries serialize vals ⟨GapBuf head [], pos⟩ head.length pageSize =
        .ok (cursor, head.length + es.length * slotEntrySize, pageSize - (dataArea es).length) ∧
      LaidOut es (head.length + es.length * slotEntrySize) (pageSize - (dataArea es).length) cursor.buf := by
  obtain ⟨pos', hw⟩ := writeEntries_eq h head [] pos (by rw [List.length_nil]; omega)
  rw [List.length_nil, Nat.sub_zero, List.append_nil] at hw
  have hslots : ((slotsFrom pageSize es).flatMap SlotEntry.serialize).length = es.length * slotEntrySize := by
    rw [length_slots, length_slotsFrom]
  let gap := List.replicate (pageSize - (head ++ (slotsFrom pageSize es).flatMap SlotEntry.serialize).length -
    (dataArea es).length) (0 : UInt8)
  refine ⟨_, hw, ⟨⟨head, gap, slotsFrom pageSize es, ?_, ?_, ?_, ?_⟩, ?_⟩⟩
  · exact List.append_assoc ..
  · rw [length_slotsFrom]
  · rw [List.length_replicate, List.length_append, hslots]
    omega
  · exact map_range_slotsFrom (Nat.le_refl _) (by omega)
  · exact length_GapBuf (by rw [List.length_append, hslots]; omega)

theorem writeBody_leaf_offsets {id : PageId} {lsn : PageLsn} {records : List Row} {next prev : Option PageId}
    (hv : LeafValid records) (hf : ∀ r ∈ records, r.fields.length ≤ maxNumFields) :
    let self : Page := ⟨id, lsn, .leaf records next prev⟩
    ∃ es cursor slotOffset, List.Forall₂ (fun r e => Row.serialize r = .ok e) records es ∧
      self.writeBodyOffsets ⟨GapBuf self.header [], self.header.length⟩ self.header.length =
        .ok (cursor, slotOffset, slotOffset + (leafUsable - rowsSize records + pageIdSize * self.noneSiblings)) ∧
      LaidOut es slotOffset (slotOffset + (leafUsable - rowsSize records + pageIdSize * self.noneSiblings)) cursor.buf := by
  intro self
  obtain ⟨es, hes, hsum⟩ := leaf_entries hv hf
  have hsize := hv.size
  have hptr : self.pointers.length + pageIdSize * self.noneSiblings = 18 := self.length_pointers rfl
  have hheader := self.length_header
  have hpage := const_pageSize
  unfold leafUsable at hsize
  rw [const_maxLeafHeaderSize] at hsize
  obtain ⟨cursor, hw, hlaid⟩ := writeEntries_laidOut
      (hes.imp fun r e h => show serializeRow r = .ok e by rw [serializeRow, h])
    self.header self.header.length (by omega)
  have hgap : pageSize - (dataArea es).length = self.header.length + es.length * slotEntrySize +
      (leafUsable - rowsSize records + pageIdSize * self.noneSiblings) := by
    unfold leafUsable
    rw [const_maxLeafHeaderSize]
    omega
  rw [hgap] at hw hlaid
  exact ⟨es, cursor, _, hes, hw, hlaid⟩

theorem writeBody_internal_offsets {id : PageId} {lsn : PageLsn} {keys : List Key} {children : List PageId}
    (hchildren : children.length = keys.length + 1) (hv : KeysValid keys) :
    let self : Page := ⟨id, lsn, .internal keys children⟩
    ∃ es cursor slotOffset, List.Forall₂ (fun k e => Key.serialize k = .ok e) keys es ∧
      self.writeBodyOffsets ⟨GapBuf self.header [], self.header.length⟩ self.header.length =
        .ok (cursor, slotOffset, slotOffset + (internalUsable - keysSize keys)) ∧
      LaidOut es slotOffset (slotOffset + (internalUsable - keysSize keys)) cursor.buf := by
  intro self
  obtain ⟨es, hes, hsum⟩ := internal_entries hv
  have hsize := hv.size
  have hheader : self.header.length = 23 := self.length_header
  have hpage := const_pageSize
  have hlen := hes.length_eq
  unfold internalUsable at hsize
  rw [const_maxInternalHeaderSize] at hsize
  rw [const_slotEntrySize, const_pageIdSize] at hsum
  rw [const_pageIdSize] at hsize
  have hclen : (self.header ++ children.flatMap PageId.serialize).length = 23 + children.length * 8 := by
    rw [List.length_append, hheader, List.length_flatMap, List.map_congr_left (g := fun _ => 8) fun c _ =>
      PageId.length_serialize c]
    simp
  obtain ⟨cpos, hwc⟩ := writeChildren_eq children self.header self.header.length (by rw [const_pageIdSize]; omega)
  obtain ⟨cursor, hw, hlaid⟩ := writeEntries_laidOut
      (hes.imp fun k e h => show serializeKey k = .ok e by rw [serializeKey, h])
    (self.header ++ children.flatMap PageId.serialize) cpos (by rw [hclen, const_slotEntrySize]; omega)
  have hgap : pageSize - (dataArea es).length = (self.header ++ children.flatMap PageId.serialize).length +
      es.length * slotEntrySize + (internalUsable - keysSize keys) := by
    unfold internalUsable
    rw [const_maxInternalHeaderSize, hclen, const_slotEntrySize, const_pageIdSize]
    omega
  rw [hgap] at hw hlaid
  refine ⟨es, cursor, _, hes, ?_, hlaid⟩
  simp only [writeBodyOffsets, self, bind, Except.bind]
  rw [hwc]
  exact hw

/-- A leaf or internal page is written with `free_space` between its slots and its entries,
    and what its missing siblings save. -/
theorem write_offsets {self : Page} (hc : self.checkInvariants = .ok ())
    (hkind : self.isLeaf = true ∨ self.isInternal = true)
    (hfields : ∀ records, self.records? = some records → ∀ r ∈ records, r.fields.length ≤ maxNumFields) {f : Nat}
    (hf : self.freeSpace = some f) :
    ∃ entries header cursor slotOffset dataOffset,
      self.writeHeader ⟨List.replicate pageSize 0, 0⟩ = .ok header ∧
      self.writeBodyOffsets header header.pos = .ok (cursor, slotOffset, dataOffset) ∧
      dataOffset = slotOffset + (f + pageIdSize * self.noneSiblings) ∧
      self.Entries entries ∧ LaidOut entries slotOffset dataOffset cursor.buf ∧
      (UInt16.ofNat self.numItems).toNat = self.numItems := by
  have hblank : GapBuf [] [] = List.replicate pageSize 0 := by
    rw [GapBuf, List.length_nil, List.nil_append, List.append_nil]
    rfl
  have hheader := self.writeHeader_eq
  rw [hblank] at hheader
  have hv := (checkInvariants_iff self).mp hc
  rcases self with ⟨id, lsn, ⟨records, next, prev⟩ | ⟨keys, children⟩ | _ | _⟩
  · have hleaf : LeafValid records := hv
    obtain ⟨es, cursor, slotOffset, hes, hw, hlaid⟩ :=
      @writeBody_leaf_offsets id lsn records next prev hleaf (hfields records rfl)
    rw [freeSpace_leaf id lsn next prev hleaf.size] at hf
    cases hf
    have hcount : records.length ≤ maxLeafItems := leaf_count hleaf
    refine ⟨es, _, cursor, slotOffset, _, hheader, hw, rfl, hes, hlaid, ?_⟩
    rw [const_maxLeafItems] at hcount
    rw [UInt16.toNat_ofNat']
    exact Nat.mod_eq_of_lt (show records.length < _ by omega)
  · have hkeys : KeysValid keys := hv.2
    obtain ⟨es, cursor, slotOffset, hes, hw, hlaid⟩ := @writeBody_internal_offsets id lsn keys children hv.1 hkeys
    rw [freeSpace_internal id lsn children hkeys.size] at hf
    cases hf
    have hcount : keys.length ≤ maxInternalItems := internal_count hkeys
    refine ⟨es, _, cursor, slotOffset, _, hheader, hw, rfl, hes, hlaid, ?_⟩
    rw [const_maxInternalItems] at hcount
    rw [UInt16.toNat_ofNat']
    exact Nat.mod_eq_of_lt (show keys.length < _ by omega)
  · rcases hkind with h | h
    · cases h
    · cases h
  · rcases hkind with h | h
    · cases h
    · cases h

/-- Everything is written in as many bytes as `encoded_size` and `free_space` count. -/
theorem sizes_agree :
    (∀ (v : RowValue) bs, v.serialize = .ok bs → bs.length = v.encodedSize) ∧
    (∀ (r : Row) bs, r.serialize = .ok bs → bs.length = r.encodedSize) ∧
    (∀ (k : Key) bs, k.serialize = .ok bs → bs.length = k.encodedSize) ∧
    (∀ c : Column, c.serialize.length = c.encodedSize) ∧
    (∀ s : Schema, s.serialize.length = s.encodedSize) ∧
    (∀ id : Option PageId, (serializeOption PageId.serialize id).length = optionEncodedSize id) ∧
    ∀ self : Page, self.checkInvariants = .ok () → (self.isLeaf = true ∨ self.isInternal = true) →
      (∀ records, self.records? = some records → ∀ r ∈ records, r.fields.length ≤ maxNumFields) →
      ∀ f, self.freeSpace = some f →
      ∃ entries header cursor slotOffset dataOffset,
        self.writeHeader ⟨List.replicate pageSize 0, 0⟩ = .ok header ∧
        self.writeBodyOffsets header header.pos = .ok (cursor, slotOffset, dataOffset) ∧
        dataOffset = slotOffset + (f + pageIdSize * self.noneSiblings) ∧
        self.Entries entries ∧ LaidOut entries slotOffset dataOffset cursor.buf ∧
        (UInt16.ofNat self.numItems).toNat = self.numItems := by
  refine ⟨fun _ _ h => RowValue.length_serialize h, fun _ _ h => Row.length_serialize h, fun _ _ h => Key.length_serialize h,
    Column.length_serialize, Schema.length_serialize, length_serializeOption, ?_⟩
  intro self hc hkind hfields f hf
  exact write_offsets hc hkind hfields hf

theorem sizes_agree_small : ∃ entries header cursor slotOffset dataOffset,
    smallLeaf.writeHeader ⟨List.replicate pageSize 0, 0⟩ = .ok header ∧
    smallLeaf.writeBodyOffsets header header.pos = .ok (cursor, slotOffset, dataOffset) ∧
    dataOffset = slotOffset + (4015 + pageIdSize) ∧ LaidOut entries slotOffset dataOffset cursor.buf := by
  obtain ⟨-, -, -, -, -, -, hwrite⟩ := sizes_agree
  obtain ⟨entries, header, cursor, slotOffset, dataOffset, hheader, hbody, hgap, -, hlaid, -⟩ :=
    hwrite smallLeaf smallLeaf_valid (Or.inl rfl) (by intro records h; cases h; decide) 4015 (by decide)
  exact ⟨entries, header, cursor, slotOffset, dataOffset, hheader, hbody, hgap, hlaid⟩

end Page

end RustDb
