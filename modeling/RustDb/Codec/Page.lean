/-
  RustDb.Codec.Page — `Page::as_raw_page` and `Page::deserialize` (`page/codec.rs`, and
  `read_slot_ranges`, `decode_slot` of `page/mod.rs`).

  A page is written through a cursor over a buffer of `PAGE_SIZE` bytes: the header, then
  children and slots growing up and the data area growing down. It is read from a cursor
  over the whole buffer, whose position is `PAGE_SIZE` less the bytes still ahead.
-/

import RustDb.Codec.Fields

namespace RustDb

open Lib.Bytes

/-- `RawPage`. -/
abbrev RawPage := { raw : List UInt8 // raw.length = pageSize }

/-- What `Page::page_checksum` is computed over: everything but the checksum. -/
def checkedBytes (raw : List UInt8) : List UInt8 := raw.take checksumOffset ++ raw.drop (checksumOffset + 4)

/-- `Page::page_checksum`. -/
def Page.pageChecksum (P : Platform) (raw : List UInt8) : UInt32 := P.crc (checkedBytes raw)

/-! ## Writing -/

/-- A `Cursor` over a page's buffer. -/
structure Cursor where
  buf : List UInt8
  pos : Nat

namespace Cursor

/-- `write_all`; past the end of the buffer it fails with `WriteZero`. -/
def writeAll (self : Cursor) (bs : List UInt8) : PageResult Cursor :=
  if self.pos + bs.length ≤ self.buf.length then
    .ok ⟨self.buf.take self.pos ++ bs ++ self.buf.drop (self.pos + bs.length), self.pos + bs.length⟩
  else .err (.ioError .other)

/-- `seek(SeekFrom::Start(pos))`. -/
def seek (self : Cursor) (pos : Nat) : Cursor := { self with pos := pos }

end Cursor

namespace Page

/-- `Page::page_type_tag`. -/
def pageTypeTag (self : Page) : UInt8 :=
  match self.body with
  | .leaf .. => leafTag
  | .internal .. => internalTag
  | .metaPage .. => metaTag
  | .free _ => freeTag

/-- `Page::write_header`. -/
def writeHeader (self : Page) (writer : Cursor) : PageResult Cursor := do
  let writer ← writer.writeAll [self.pageTypeTag]
  let writer ← writer.writeAll self.pageId.serialize
  let writer ← writer.writeAll (PageLsn.serialize self.lastUpdate)
  -- place holder for the checksum
  let writer ← writer.writeAll (toBE 4 0)
  let writer ← match self.body with
    | .leaf _ next prev => do
      let writer ← writer.writeAll (serializeOption PageId.serialize next)
      writer.writeAll (serializeOption PageId.serialize prev)
    | _ => .ok writer
  writer.writeAll (toBE 2 (UInt16.ofNat self.numItems).toNat)

/-- The loop of `write_body` over rows and over keys: the slot at `slotOffset`, the entry
    below `dataOffset`. An entry longer than `dataOffset` wraps the offset past the buffer,
    where the write fails. -/
def writeEntries {α : Type} (serialize : α → PageResult (List UInt8)) :
    List α → Cursor → Nat → Nat → PageResult (Cursor × Nat × Nat)
  | [], writer, slotOffset, dataOffset => .ok (writer, slotOffset, dataOffset)
  | entry :: rest, writer, slotOffset, dataOffset => do
    let buffer ← serialize entry
    if dataOffset < buffer.length then .err (.ioError .other)
    else do
      let dataOffset := dataOffset - buffer.length
      let writer ← (writer.seek dataOffset).writeAll buffer
      let slotEntry : SlotEntry := ⟨UInt16.ofNat dataOffset, UInt16.ofNat buffer.length⟩
      let writer ← (writer.seek slotOffset).writeAll slotEntry.serialize
      writeEntries serialize rest writer (slotOffset + slotEntrySize) dataOffset

/-- The loop of `write_body` over the children. -/
def writeChildren : List PageId → Cursor → Nat → PageResult (Cursor × Nat)
  | [], writer, childrenPos => .ok (writer, childrenPos)
  | child :: rest, writer, childrenPos => do
    let writer ← (writer.seek childrenPos).writeAll child.serialize
    writeChildren rest writer (childrenPos + pageIdSize)

/-- `record.serialize(..)?`. -/
def serializeRow (r : Row) : PageResult (List UInt8) :=
  match r.serialize with | .ok bs => .ok bs | .error e => .err (.value e)

/-- `key.serialize(..)?`. -/
def serializeKey (k : Key) : PageResult (List UInt8) :=
  match k.serialize with | .ok bs => .ok bs | .error e => .err (.key e)

/-- `Page::write_body`; the offsets it returns are only used by tests. -/
def writeBody (self : Page) (writer : Cursor) (headerEnd : Nat) : PageResult Cursor :=
  match self.body with
  | .leaf records _ _ => do
    let (writer, _) ← writeEntries serializeRow records writer headerEnd pageSize
    .ok writer
  | .internal keys children => do
    let (writer, slotOffset) ← writeChildren children writer headerEnd
    let (writer, _) ← writeEntries serializeKey keys writer slotOffset pageSize
    .ok writer
  | .free next => writer.writeAll (serializeOption PageId.serialize next)
  | .metaPage rootId pageCount freeListHead schema tableName => do
    let writer ← writer.writeAll rootId.serialize
    let writer ← writer.writeAll (toBE 4 pageCount.toNat)
    let writer ← writer.writeAll (serializeOption PageId.serialize freeListHead)
    let writer ← writer.writeAll schema.serialize
    let writer ← writer.writeAll (encode tableName.utf8ByteSize)
    writer.writeAll (strBytes tableName)

/-- `Page::as_raw_page`. -/
def asRawPage (P : Platform) (self : Page) : PageResult (List UInt8) :=
  match self.checkInvariants with
  | .error kind => .err (.corrupt (some self.pageId) kind)
  | .ok () => do
    let cursor ← self.writeHeader ⟨List.replicate pageSize 0, 0⟩
    let cursor ← self.writeBody cursor cursor.pos
    let crc := pageChecksum P cursor.buf
    .ok (cursor.buf.take checksumOffset ++ toBE 4 crc.toNat ++ cursor.buf.drop (checksumOffset + 4))

/-! ## Reading -/

open Decoder

section
variable (P : Platform) (cap : Nat)

/-- The first range that is empty or leaves the data area. -/
def invalidRange (dataStart : Nat) : Nat → List (Nat × Nat) → Option CorruptionKind
  | _, [] => none
  | i, r :: rs =>
    if r.2 ≤ r.1 ∨ r.1 < dataStart ∨ r.2 > pageSize then some (.invalidRange i r.1 r.2)
    else invalidRange dataStart (i + 1) rs

/-- The first of the ranges sorted by start that ends after the next one begins. -/
def overlappingSlots : List (Nat × Nat × Nat) → Option CorruptionKind
  | a :: b :: rest => if b.2.1 < a.2.2 then some (.overlappingSlots a.1 b.1) else overlappingSlots (b :: rest)
  | _ => none

/-- `enumerate`. -/
def enumerateFrom {α : Type} : Nat → List α → List (Nat × α)
  | _, [] => []
  | i, a :: as => (i, a) :: enumerateFrom (i + 1) as

/-- `Page::read_slot_ranges`, over a cursor with `PAGE_SIZE` bytes in all. -/
def readSlotRanges (count : Nat) : Decoder CorruptionKind (List (Nat × Nat)) := do
  alloc cap count
  let slots ← readMany SlotEntry.deserialize.expect count
  let ranges := slots.map SlotEntry.range
  let ahead ← get
  let dataStart := pageSize - ahead.length
  match invalidRange dataStart 0 ranges with
  | some kind => err kind
  | none => do
    alloc cap ranges.length
    let byStart := (enumerateFrom 0 ranges).mergeSort fun a b => decide (a.2.1 ≤ b.2.1)
    match overlappingSlots byStart with
    | some kind => err kind
    | none => pure ranges

/-- The slots were read: what is left to check. -/
theorem readSlotRanges_run {cap count : Nat} {bs rest : List UInt8} {slots : List SlotEntry} (hcap : count ≤ cap)
    (h : readMany (SlotEntry.deserialize.expect : Decoder CorruptionKind SlotEntry) count bs = .ok (slots, rest)) :
    readSlotRanges cap count bs = (match invalidRange (pageSize - rest.length) 0 (slots.map SlotEntry.range) with
      | some kind => err kind
      | none => do
        alloc cap (slots.map SlotEntry.range).length
        match overlappingSlots ((enumerateFrom 0 (slots.map SlotEntry.range)).mergeSort
            fun a b => decide (a.2.1 ≤ b.2.1)) with
        | some kind => err kind
        | none => pure (slots.map SlotEntry.range) : Decoder CorruptionKind (List (Nat × Nat))) rest := by
  simp only [readSlotRanges, bind_run, alloc_run hcap, h]
  rfl

/-- `Page::decode_slot`. -/
def decodeSlot {ε α : Type} (deserialize : Decoder ε α) (bytes : List UInt8) (slot : Nat)
    (decodeError : Nat → CorruptionKind) : Except (Fail CorruptionKind) α :=
  match deserialize bytes with
  | .error e => .error (Fail.map (fun _ => decodeError slot) e)
  | .ok (value, remaining) => if remaining.isEmpty then .ok value else .error (.err (.trailingBytes slot))

/-- `&buf[range]`. -/
def slice (buf : List UInt8) (range : Nat × Nat) : Except (Fail CorruptionKind) (List UInt8) :=
  if range.1 ≤ range.2 ∧ range.2 ≤ buf.length then .ok ((buf.take range.2).drop range.1) else .error .panic

/-- The slots decoded in order, up to the first that fails. -/
def decodeSlots {ε α : Type} (deserialize : Decoder ε α) (decodeError : Nat → CorruptionKind) (buf : List UInt8) :
    Nat → List (Nat × Nat) → Except (Fail CorruptionKind) (List α)
  | _, [] => .ok []
  | slot, range :: rest => do
    let bytes ← slice buf range
    let value ← decodeSlot deserialize bytes slot decodeError
    let values ← decodeSlots deserialize decodeError buf (slot + 1) rest
    .ok (value :: values)

/-- The most items a page with this tag may hold. -/
def maxItems (tag : UInt8) : Option Nat :=
  if tag = metaTag then some 0
  else if tag = freeTag then some 0
  else if tag = internalTag then some maxInternalItems
  else if tag = leafTag then some maxLeafItems
  else none

/-- The `LEAF_TAG` arm. -/
def deserializeLeaf (buf : List UInt8) (numItems : Nat) (next prev : Option PageId) :
    Decoder CorruptionKind PageBody := do
  let ranges ← readSlotRanges cap numItems
  alloc cap ranges.length
  let records ← fromResult (decodeSlots (Row.deserialize P cap) .corruptRow buf 0 ranges)
  pure (.leaf records next prev)

/-- The `INTERNAL_TAG` arm. -/
def deserializeInternal (buf : List UInt8) (numItems : Nat) : Decoder CorruptionKind PageBody := do
  alloc cap (numItems + 1)
  let children ← readMany PageId.deserialize.expect (numItems + 1)
  let ranges ← readSlotRanges cap numItems
  alloc cap ranges.length
  let keys ← fromResult (decodeSlots (Key.deserialize P cap) .corruptKey buf 0 ranges)
  pure (.internal keys children)

/-- `Option::<PageId>::deserialize` of a pointer of page `pageId`. -/
def deserializePointer (pageId : PageId) : Decoder PageError (Option PageId) :=
  (deserializeOption PageId.deserialize).mapErr fun _ => .corrupt (some pageId) .invalidPointerTag

/-- The `META_TAG` arm up to the schema. -/
def deserializeMetaFields (pageId : PageId) : Decoder PageError (PageId × UInt32 × Option PageId × Schema) := do
  let rootId ← PageId.deserialize.mapErr fun _ => .corrupt (some pageId) .invalidPointerTag
  let pageCount ← beNat 4
  let freeListHead ← deserializePointer pageId
  let schema ← (Schema.deserialize P cap).mapErr fun _ => .corrupt (some pageId) .badSchema
  pure (rootId, UInt32.ofNat pageCount, freeListHead, schema)

/-- The `META_TAG` arm: the name's length is not checked before its buffer is allocated. -/
def deserializeMeta (pageId : PageId) : Decoder PageError PageBody := do
  let (rootId, pageCount, freeListHead, schema) ← deserializeMetaFields P cap pageId
  let nameLen ← varint P
  alloc cap nameLen
  let nameBuffer ← bytes nameLen
  let tableName ← utf8 .utf8Error nameBuffer
  pure (.metaPage rootId pageCount freeListHead schema tableName)

/-- The body, chosen by its tag. -/
def deserializeBody (buf : List UInt8) (tag : UInt8) (pageId : PageId) (numItems : Nat)
    (nextPage prevPage : Option PageId) : Decoder PageError PageBody :=
  if tag = leafTag then (deserializeLeaf P cap buf numItems nextPage prevPage).mapErr (.corrupt (some pageId))
  else if tag = internalTag then (deserializeInternal P cap buf numItems).mapErr (.corrupt (some pageId))
  else if tag = freeTag then do
    let next ← deserializePointer pageId
    pure (.free next)
  else if tag = metaTag then deserializeMeta P cap pageId
  else throw .panic

/-- What follows the checksum. -/
def deserializeRest (buf : List UInt8) (tag : UInt8) (pageId : PageId) : Decoder PageError PageBody := do
  let (nextPage, prevPage) ← if tag = leafTag then do
      let np ← deserializePointer pageId
      let pp ← deserializePointer pageId
      pure (np, pp)
    else pure (none, none)
  let numItems ← beNat 2
  match maxItems tag with
  | none => err (.corrupt none (.invalidTag tag))
  | some max =>
    if numItems > max then err (.corrupt (some pageId) (.tooManyItems numItems))
    else deserializeBody P cap buf tag pageId numItems nextPage prevPage

/-- What follows a leaf's siblings. -/
def deserializeItems (buf : List UInt8) (tag : UInt8) (pageId : PageId) (nextPage prevPage : Option PageId) :
    Decoder PageError PageBody := do
  let numItems ← beNat 2
  match maxItems tag with
  | none => err (.corrupt none (.invalidTag tag))
  | some max =>
    if numItems > max then err (.corrupt (some pageId) (.tooManyItems numItems))
    else deserializeBody P cap buf tag pageId numItems nextPage prevPage

theorem deserializeRest_eq (buf : List UInt8) (tag : UInt8) (pageId : PageId) : deserializeRest P cap buf tag pageId =
    if tag = leafTag then do
      let np ← deserializePointer pageId
      let pp ← deserializePointer pageId
      deserializeItems P cap buf tag pageId np pp
    else deserializeItems P cap buf tag pageId none none := rfl

/-- The tag, the page id and the LSN. -/
def deserializeHeader : Decoder PageError (UInt8 × PageId × PageLsn) := do
  let tag ← byte
  let pageId ← PageId.deserialize.mapErr .ioError
  let lastUpdate ← PageLsn.deserialize.mapErr .lsnError
  pure (tag, pageId, lastUpdate)

/-- `Page::deserialize` of a whole buffer, with vectors of at most `cap` elements. -/
def deserializeWithin (buf : List UInt8) : PageResult Page :=
  let checksum := UInt32.ofNat (ofBE ((buf.drop checksumOffset).take 4))
  if pageChecksum P buf ≠ checksum then .err (.corrupt none .checkSumMismatch)
  else do
    let ((tag, pageId, lastUpdate), _) ← deserializeHeader buf
    let (body, _) ← deserializeRest P cap buf tag pageId (buf.drop (checksumOffset + 4))
    let page : Page := ⟨pageId, lastUpdate, body⟩
    match page.checkInvariants with
    | .error kind => .err (.corrupt (some pageId) kind)
    | .ok () => .ok page

/-- `Page::deserialize`. -/
def deserialize (buf : List UInt8) : PageResult Page :=
  if buf.length < pageSize then .err (.ioError .unexpectedEof) else deserializeWithin P isizeMax (buf.take pageSize)

end

end Page

end RustDb
