/-
  RustDb.Codec.Safety — what `Page::deserialize` does on any buffer of `PAGE_SIZE` bytes.

  Every `expect`, slice and allocation is guarded by a check before it, but one: the meta
  arm allocates the table name's buffer from a length it has not compared with anything.

  - `deserializeWithin_safe_iff`: with vectors of at most `cap ≥ PAGE_SIZE` elements,
    reading ends in a page or an `Err` exactly when the buffer does not carry such a length
    above `cap`.
  - `deserialize_panics`: a buffer that does carry one.
-/

import RustDb.Codec.RoundTrip

namespace RustDb

open Lib.Bytes

/-! ## Reading from a given input -/

namespace Decoder

variable {ε ε' α β : Type}

/-- Reading `bs` ends in a value or an `Err`, and leaves no more input than there was. -/
def SafeOn (r : Decoder ε α) (bs : List UInt8) : Prop :=
  match r bs with | .ok (_, rest) => rest.length ≤ bs.length | .error e => ∃ e', e = .err e'

theorem SafeOn.not_panic {r : Decoder ε α} {bs : List UInt8} (h : r.SafeOn bs) {e : Fail ε} (he : r bs = .error e) :
    ∃ e', e = .err e' := by
  unfold SafeOn at h
  rwa [he] at h

theorem SafeOn.bind {r : Decoder ε α} {f : α → Decoder ε β} {bs : List UInt8} (hr : r.SafeOn bs)
    (hf : ∀ a rest, r bs = .ok (a, rest) → (f a).SafeOn rest) : SafeOn (r >>= f) bs := by
  unfold SafeOn at hr ⊢
  simp only [bind_run]
  cases hb : r bs with
  | error e => simpa [hb] using hr
  | ok x =>
    have h2 := hf x.1 x.2 hb
    simp only [hb] at hr
    unfold SafeOn at h2
    cases hb' : f x.1 x.2 with
    | error e => simpa [hb'] using h2
    | ok y => simp only [hb'] at h2 ⊢; omega

theorem SafeOn.mapErr {f : ε → ε'} {r : Decoder ε α} {bs : List UInt8} (h : r.SafeOn bs) : (r.mapErr f).SafeOn bs := by
  unfold SafeOn Decoder.mapErr mapError at *
  cases hb : r bs with
  | ok x => simpa [hb] using h
  | error e => simp only [hb] at h ⊢; obtain ⟨e', rfl⟩ := h; exact ⟨f e', rfl⟩

theorem Total.safeOn {r : Decoder ε α} (h : r.Total) (bs : List UInt8) : r.SafeOn bs := h bs

/-- Fixed-width items read with `expect` from an input that holds them all. -/
theorem readMany_expect {r : Decoder ε α} {w : Nat}
    (hr : ∀ bs : List UInt8, w ≤ bs.length → ∃ a rest, r bs = .ok (a, rest) ∧ rest.length + w = bs.length) :
    ∀ {n : Nat} {bs : List UInt8}, n * w ≤ bs.length →
      ∃ as rest, readMany (r.expect : Decoder ε' α) n bs = .ok (as, rest) ∧ as.length = n ∧ rest.length + n * w = bs.length
  | 0, bs, _ => ⟨[], bs, rfl, rfl, by omega⟩
  | n + 1, bs, h => by
    rw [Nat.add_mul, Nat.one_mul] at h
    obtain ⟨a, rest, ha, hlen⟩ := hr bs (by omega)
    obtain ⟨as, rest', has, hn, hlen'⟩ := readMany_expect hr (show n * w ≤ rest.length by omega)
    refine ⟨a :: as, rest', ?_, by simp [hn], by rw [Nat.add_mul, Nat.one_mul]; omega⟩
    simp only [readMany, bind_run, Decoder.expect, mapError_ok ha]
    simp only [Decoder.expect] at has
    simp only [has, pure_run]

theorem beNat_enough [FromIo ε] {w : Nat} {bs : List UInt8} (h : w ≤ bs.length) :
    (beNat w : Decoder ε Nat) bs = .ok (ofBE (bs.take w), bs.drop w) := by
  have hb : (bytes w : Decoder ε _) bs = .ok (bs.take w, bs.drop w) := by
    simp only [bytes, readExact, if_pos h]
  simp only [beNat, bind_run, hb, pure_run]

end Decoder

open Decoder

theorem SlotEntry.deserialize_enough {bs : List UInt8} (h : slotEntrySize ≤ bs.length) :
    ∃ s rest, SlotEntry.deserialize bs = .ok (s, rest) ∧ rest.length + slotEntrySize = bs.length := by
  rw [const_slotEntrySize] at h ⊢
  have h1 := beNat_enough (ε := IoError) (show 2 ≤ bs.length by omega)
  have h2 := beNat_enough (ε := IoError) (show 2 ≤ (bs.drop 2).length by rw [List.length_drop]; omega)
  refine ⟨_, _, by simp only [deserialize, bind_run, h1, h2, pure_run]; rfl, ?_⟩
  simp only [List.length_drop]; omega

theorem PageId.deserialize_enough {bs : List UInt8} (h : pageIdSize ≤ bs.length) :
    ∃ id rest, PageId.deserialize bs = .ok (id, rest) ∧ rest.length + pageIdSize = bs.length := by
  rw [const_pageIdSize] at h ⊢
  have h1 := beNat_enough (ε := IoError) (show 4 ≤ bs.length by omega)
  have h2 := beNat_enough (ε := IoError) (show 4 ≤ (bs.drop 4).length by rw [List.length_drop]; omega)
  refine ⟨_, _, by simp only [deserialize, bind_run, h1, h2, pure_run]; rfl, ?_⟩
  simp only [List.length_drop]; omega

namespace Page

variable {P : Platform} {cap : Nat}

/-! ## Slots -/

theorem invalidRange_eq_none {dataStart : Nat} : ∀ {i : Nat} {rs : List (Nat × Nat)}, invalidRange dataStart i rs = none →
    ∀ r ∈ rs, r.1 < r.2 ∧ r.2 ≤ pageSize
  | _, [], _ => by simp
  | i, r :: rs, h => by
    rw [invalidRange] at h
    split at h
    · cases h
    · rename_i hr
      rintro x (_ | ⟨_, hx⟩)
      · omega
      · exact invalidRange_eq_none h x hx

/-- The slots fit the page, so none of the `expect`s fails; and the ranges returned lie in it. -/
theorem readSlotRanges_safe {cap count : Nat} {bs : List UInt8} (hcap : count ≤ cap)
    (h : count * slotEntrySize ≤ bs.length) :
    (readSlotRanges cap count).SafeOn bs ∧
      ∀ ranges rest, readSlotRanges cap count bs = .ok (ranges, rest) →
        ranges.length = count ∧ ∀ r ∈ ranges, r.1 < r.2 ∧ r.2 ≤ pageSize := by
  obtain ⟨slots, rest, hslots, hcount, hlen⟩ : ∃ slots rest,
      readMany (SlotEntry.deserialize.expect : Decoder CorruptionKind SlotEntry) count bs = .ok (slots, rest) ∧
        slots.length = count ∧ rest.length + count * slotEntrySize = bs.length :=
    readMany_expect (fun _ => SlotEntry.deserialize_enough) h
  have halloc : (slots.map SlotEntry.range).length ≤ cap := by rw [List.length_map, hcount]; exact hcap
  unfold SafeOn
  rw [readSlotRanges_run hcap hslots]
  cases hinv : invalidRange (pageSize - rest.length) 0 (slots.map SlotEntry.range) with
  | some kind => exact ⟨⟨kind, rfl⟩, fun ranges rest' h' => by cases h'⟩
  | none =>
    simp only [bind_run, alloc_run halloc]
    cases overlappingSlots ((enumerateFrom 0 (slots.map SlotEntry.range)).mergeSort
        fun a b => decide (a.2.1 ≤ b.2.1)) with
    | some kind => exact ⟨⟨kind, rfl⟩, fun ranges rest' h' => by cases h'⟩
    | none =>
      refine ⟨show rest.length ≤ bs.length by omega, fun ranges rest' h' => ?_⟩
      cases h'
      exact ⟨by rw [List.length_map, hcount], invalidRange_eq_none hinv⟩

theorem decodeSlots_safe {ε α : Type} {deserialize : Decoder ε α} (ht : deserialize.Total)
    (decodeError : Nat → CorruptionKind) {buf : List UInt8} :
    ∀ {slot : Nat} {ranges : List (Nat × Nat)}, (∀ r ∈ ranges, r.1 < r.2 ∧ r.2 ≤ buf.length) →
    ∀ e, decodeSlots deserialize decodeError buf slot ranges = .error e → ∃ e', e = .err e'
  | _, [], _, e, h => by cases h
  | slot, r :: rs, hr, e, h => by
    obtain ⟨h1, h2⟩ := hr r (List.mem_cons_self ..)
    have hs : slice buf r = .ok ((buf.take r.2).drop r.1) := if_pos ⟨by omega, h2⟩
    have htot := ht ((buf.take r.2).drop r.1)
    simp only [decodeSlots, bind, Except.bind, hs, decodeSlot] at h
    cases hd : deserialize ((buf.take r.2).drop r.1) with
    | error e' =>
      simp only [hd, Except.error.injEq] at h htot
      obtain ⟨e'', rfl⟩ := htot
      exact ⟨_, h.symm⟩
    | ok x =>
      obtain ⟨v, remaining⟩ := x
      simp only [hd] at h
      by_cases hrem : remaining.isEmpty = true
      · simp only [hrem, if_true] at h
        cases hrest : decodeSlots deserialize decodeError buf (slot + 1) rs with
        | error e' =>
          simp only [hrest, Except.error.injEq] at h
          exact h ▸ decodeSlots_safe ht decodeError (fun x hx => hr x (List.mem_cons_of_mem r hx)) e' hrest
        | ok vs => simp [hrest] at h
      · simp only [hrem, Bool.false_eq_true, if_false, Except.error.injEq] at h
        exact ⟨_, h.symm⟩

theorem fromResult_safe {ε α : Type} {x : Except (Fail ε) α} (h : ∀ e, x = .error e → ∃ e', e = .err e')
    (bs : List UInt8) : (fromResult x).SafeOn bs := by
  unfold SafeOn fromResult
  cases x with
  | ok a => exact Nat.le_refl _
  | error e => exact h e rfl

/-! ## Bodies -/

theorem deserializeLeaf_safe (hcap : pageSize ≤ cap) {buf bs : List UInt8} (hbuf : buf.length = pageSize) {n : Nat}
    (hn : n ≤ maxLeafItems) (h : n * slotEntrySize ≤ bs.length) (next prev : Option PageId) :
    (deserializeLeaf P cap buf n next prev).SafeOn bs := by
  have hsize := const_pageSize
  have hmax : maxFieldLen ≤ cap := by rw [const_maxFieldLen]; omega
  rw [const_maxLeafItems] at hn
  obtain ⟨hsafe, hranges⟩ := readSlotRanges_safe (show n ≤ cap by omega) h
  refine hsafe.bind fun ranges rest hr => ?_
  obtain ⟨hlen, hall⟩ := hranges ranges rest hr
  refine ((total_alloc (by omega)).safeOn rest).bind fun _ rest' _ => ?_
  refine (fromResult_safe (decodeSlots_safe (Row.total hmax) .corruptRow (by rw [hbuf]; exact hall)) rest').bind
    fun records rest'' _ => (total_pure _).safeOn rest''

theorem deserializeInternal_safe (hcap : pageSize ≤ cap) {buf bs : List UInt8} (hbuf : buf.length = pageSize) {n : Nat}
    (hn : n ≤ maxInternalItems) (h : (n + 1) * pageIdSize + n * slotEntrySize ≤ bs.length) :
    (deserializeInternal P cap buf n).SafeOn bs := by
  have hsize := const_pageSize
  have hmax : maxFieldLen ≤ cap := by rw [const_maxFieldLen]; omega
  rw [const_maxInternalItems] at hn
  obtain ⟨children, rest, hchildren, -, hlen⟩ : ∃ children rest,
      readMany (PageId.deserialize.expect : Decoder CorruptionKind PageId) (n + 1) bs = .ok (children, rest) ∧
        children.length = n + 1 ∧ rest.length + (n + 1) * pageIdSize = bs.length :=
    readMany_expect (fun _ => PageId.deserialize_enough) (by omega)
  refine ((total_alloc (by omega)).safeOn bs).bind fun _ bs' hbs' => ?_
  have hbs : bs' = bs := by rw [alloc_run (by omega)] at hbs'; cases hbs'; rfl
  subst hbs
  have hsafeChildren : SafeOn (readMany (PageId.deserialize.expect : Decoder CorruptionKind PageId) (n + 1)) bs' := by
    unfold SafeOn
    rw [hchildren]
    show rest.length ≤ bs'.length
    omega
  refine hsafeChildren.bind fun cs rest1 hr => ?_
  rw [hchildren] at hr
  cases hr
  obtain ⟨hsafe, hranges⟩ := readSlotRanges_safe (show n ≤ cap by omega)
    (show n * slotEntrySize ≤ rest.length by omega)
  refine hsafe.bind fun ranges rest2 hr => ?_
  obtain ⟨hlen', hall⟩ := hranges ranges rest2 hr
  refine ((total_alloc (by omega)).safeOn rest2).bind fun _ rest3 _ => ?_
  refine (fromResult_safe (decodeSlots_safe (Key.total hmax) .corruptKey (by rw [hbuf]; exact hall)) rest3).bind
    fun keys rest4 _ => (total_pure _).safeOn rest4

theorem total_deserializePointer (id : PageId) : (deserializePointer id).Total :=
  (total_deserializeOption PageId.total).mapErr

theorem total_deserializeMetaFields (hcap : maxFieldLen ≤ cap) (id : PageId) : (deserializeMetaFields P cap id).Total :=
  PageId.total.mapErr.bind fun _ => (total_beNat 4).bind fun _ => (total_deserializePointer id).bind fun _ =>
    (Schema.total hcap).mapErr.bind fun _ => total_pure _

/-! ## The table name's length -/

/-- The buffer is a meta page with a matching checksum, and its table name claims `n` bytes. -/
structure ClaimsNameLength (P : Platform) (cap : Nat) (buf : List UInt8) (n : Nat) : Prop where
  checksum : pageChecksum P buf = UInt32.ofNat (ofBE ((buf.drop checksumOffset).take 4))
  tag : buf.head? = some metaTag
  numItems : ofBE ((buf.drop 21).take 2) = 0
  fields : ∃ id x rest rest', deserializeMetaFields P cap id (buf.drop 23) = .ok (x, rest) ∧
    P.readVarint rest = .ok (n, rest')

/-- Whether the fields can be read does not depend on the page id the errors carry. -/
theorem deserializeMetaFields_congr {id : PageId} {bs rest : List UInt8} {x : PageId × UInt32 × Option PageId × Schema}
    (h : deserializeMetaFields P cap id bs = .ok (x, rest)) (id' : PageId) :
    deserializeMetaFields P cap id' bs = .ok (x, rest) := by
  obtain ⟨rootId, bs1, h1, h⟩ := bind_eq_ok.mp h
  obtain ⟨pageCount, bs2, h2, h⟩ := bind_eq_ok.mp h
  obtain ⟨flh, bs3, h3, h⟩ := bind_eq_ok.mp h
  obtain ⟨schema, bs4, h4, h⟩ := bind_eq_ok.mp h
  refine bind_eq_ok.mpr ⟨rootId, bs1, mapError_ok (mapError_eq_ok.mp h1), ?_⟩
  refine bind_eq_ok.mpr ⟨pageCount, bs2, h2, ?_⟩
  refine bind_eq_ok.mpr ⟨flh, bs3, mapError_ok (mapError_eq_ok.mp h3), ?_⟩
  exact bind_eq_ok.mpr ⟨schema, bs4, mapError_ok (mapError_eq_ok.mp h4), h⟩

/-- The meta arm panics exactly on a name length above `cap`. -/
theorem deserializeMeta_safe_iff (hcap : maxFieldLen ≤ cap) {id : PageId} {bs : List UInt8} :
    (deserializeMeta P cap id).SafeOn bs ↔
      ∀ x rest n rest', deserializeMetaFields P cap id bs = .ok (x, rest) → P.readVarint rest = .ok (n, rest') →
      n ≤ cap := by
  constructor
  · intro h x rest n rest' hfields hn
    by_contra hlt
    have hpanic : deserializeMeta P cap id bs = .error .panic := by
      simp only [deserializeMeta, bind_run, hfields, varint, hn, alloc, if_neg hlt]
    obtain ⟨e', he'⟩ := h.not_panic hpanic
    cases he'
  · intro h
    refine ((total_deserializeMetaFields hcap id).safeOn bs).bind fun x rest hfields => ?_
    refine ((total_varint P).safeOn rest).bind fun n rest' hn => ?_
    have hread : P.readVarint rest = .ok (n, rest') := by
      unfold varint at hn
      cases hb : P.readVarint rest with
      | ok y => simp only [hb, Except.ok.injEq] at hn; rw [hn]
      | error e => simp [hb] at hn
    refine ((total_alloc (h x rest n rest' hfields hread)).safeOn rest').bind fun _ rest1 _ => ?_
    refine ((total_bytes n).safeOn rest1).bind fun buf rest2 _ => ?_
    exact ((total_utf8 _ buf).bind fun _ => total_pure _).safeOn rest2

/-! ## Whole buffers -/

theorem deserializePointer_consumes {id : PageId} {bs rest : List UInt8} {ptr : Option PageId}
    (hptr : deserializePointer id bs = .ok (ptr, rest)) : bs.length ≤ rest.length + 9 := by
  obtain ⟨tag, bs1, htag, h⟩ := bind_eq_ok.mp (mapError_eq_ok.mp hptr)
  obtain ⟨one, bs2, hone, htag⟩ := bind_eq_ok.mp htag
  cases htag
  obtain ⟨rfl, hlen⟩ := readExact_ok hone
  simp only [List.length_append, hlen]
  generalize one.headD 0 = tag at h
  by_cases h0 : tag = 0
  · rw [if_pos h0] at h; cases h; omega
  rw [if_neg h0] at h
  by_cases h1 : tag = 1
  · rw [if_pos h1] at h
    obtain ⟨id', bs3, hid, h⟩ := bind_eq_ok.mp h
    cases h
    by_cases henough : pageIdSize ≤ bs1.length
    · obtain ⟨id'', rest', hid', hlen'⟩ := PageId.deserialize_enough henough
      rw [hid'] at hid
      cases hid
      rw [const_pageIdSize] at hlen'
      omega
    · rw [const_pageIdSize] at henough; omega
  · rw [if_neg h1] at h; cases h

theorem deserializeBody_safe (hcap : pageSize ≤ cap) {buf bs : List UInt8} (hbuf : buf.length = pageSize) {tag : UInt8}
    {id : PageId} {n max : Nat} (hmax : maxItems tag = some max) (hn : n ≤ max) (hlen : 3600 ≤ bs.length)
    (next prev : Option PageId) (hmeta : tag = metaTag → (deserializeMeta P cap id).SafeOn bs) :
    (deserializeBody P cap buf tag id n next prev).SafeOn bs := by
  unfold deserializeBody
  by_cases h1 : tag = leafTag
  · rw [if_pos h1]
    have hm : maxItems leafTag = some maxLeafItems := rfl
    rw [h1, hm] at hmax
    cases hmax
    exact (deserializeLeaf_safe hcap hbuf hn (by rw [const_maxLeafItems] at hn; rw [const_slotEntrySize]; omega)
      next prev).mapErr
  rw [if_neg h1]
  by_cases h2 : tag = internalTag
  · rw [if_pos h2]
    have hm : maxItems internalTag = some maxInternalItems := rfl
    rw [h2, hm] at hmax
    cases hmax
    exact (deserializeInternal_safe hcap hbuf hn
      (by rw [const_maxInternalItems] at hn; rw [const_slotEntrySize, const_pageIdSize]; omega)).mapErr
  rw [if_neg h2]
  by_cases h3 : tag = freeTag
  · rw [if_pos h3]
    exact ((total_deserializePointer id).bind fun _ => total_pure _).safeOn bs
  rw [if_neg h3]
  by_cases h4 : tag = metaTag
  · rw [if_pos h4]; exact hmeta h4
  · simp only [maxItems, if_neg h1, if_neg h2, if_neg h3, if_neg h4] at hmax
    cases hmax

/-- Everything after the checksum is safe to read, but for a meta page's name. -/
theorem deserializeRest_safe (hcap : pageSize ≤ cap) {buf bs : List UInt8} (hbuf : buf.length = pageSize)
    (hbs : bs.length = pageSize - checksumOffset - 4) {tag : UInt8} {id : PageId}
    (hmeta : tag = metaTag → ofBE (bs.take 2) = 0 → (deserializeMeta P cap id).SafeOn (bs.drop 2)) :
    (deserializeRest P cap buf tag id).SafeOn bs := by
  rw [const_pageSize, const_checksumOffset] at hbs
  have items : ∀ (next prev : Option PageId) (bs : List UInt8), 3602 ≤ bs.length →
      (tag = metaTag → ofBE (bs.take 2) = 0 → (deserializeMeta P cap id).SafeOn (bs.drop 2)) →
      (deserializeItems P cap buf tag id next prev).SafeOn bs := by
    intro next prev bs hlen hmeta
    unfold deserializeItems
    have hnum := beNat_enough (ε := PageError) (show 2 ≤ bs.length by omega)
    refine ((total_beNat 2).safeOn bs).bind fun n rest hn => ?_
    rw [hnum] at hn
    cases hn
    cases hmax : maxItems tag with
    | none => exact (total_err _).safeOn _
    | some max =>
      simp only
      by_cases hgt : ofBE (bs.take 2) > max
      · rw [if_pos hgt]; exact (total_err _).safeOn _
      · rw [if_neg hgt]
        refine deserializeBody_safe hcap hbuf hmax (by omega) (by rw [List.length_drop]; omega) next prev fun htag => ?_
        have h0 : maxItems metaTag = some 0 := rfl
        rw [htag, h0] at hmax
        cases hmax
        exact hmeta htag (by omega)
  rw [deserializeRest_eq]
  by_cases htag : tag = leafTag
  · rw [if_pos htag]
    refine ((total_deserializePointer id).safeOn bs).bind fun np rest1 h1 => ?_
    refine ((total_deserializePointer id).safeOn rest1).bind fun pp rest2 h2 => ?_
    have hl1 := deserializePointer_consumes h1
    have hl2 := deserializePointer_consumes h2
    exact items np pp rest2 (by omega) fun hmeta' => by rw [htag] at hmeta'; cases hmeta'
  · rw [if_neg htag]
    exact items none none bs (by omega) hmeta

/-- The header of a whole buffer is always read. -/
theorem deserializeHeader_whole {buf : List UInt8} (hbuf : buf.length = pageSize) :
    ∃ tag id lsn rest, deserializeHeader buf = .ok ((tag, id, lsn), rest) ∧ buf.head? = some tag := by
  rw [const_pageSize] at hbuf
  obtain ⟨tag, bs, rfl⟩ : ∃ tag bs, buf = tag :: bs := List.exists_cons_of_length_pos (by omega)
  rw [List.length_cons] at hbuf
  obtain ⟨id, rest, hid, hlen⟩ := PageId.deserialize_enough (show pageIdSize ≤ bs.length by rw [const_pageIdSize]; omega)
  rw [const_pageIdSize] at hlen
  have hval := beNat_enough (ε := LsnError) (show 8 ≤ rest.length by omega)
  have hlsn : ∃ lsn, PageLsn.deserialize rest = .ok (lsn, rest.drop 8) := by
    simp only [PageLsn.deserialize, bind_run, hval]
    by_cases h0 : UInt64.ofNat (ofBE (rest.take 8)) = 0
    · exact ⟨none, by rw [if_pos h0]; rfl⟩
    · exact ⟨some ⟨_, h0⟩, by rw [if_neg h0, Lsn.new, dif_neg h0]; rfl⟩
  obtain ⟨lsn, hlsn⟩ := hlsn
  refine ⟨tag, id, lsn, rest.drop 8, ?_, rfl⟩
  simp only [deserializeHeader, bind_run, byte_cons, mapErr, mapError_ok hid, mapError_ok hlsn, pure_run]

/-- A table name that claims more than `cap` bytes makes the reader ask for them. -/
theorem deserializeWithin_panics {buf : List UInt8} (hbuf : buf.length = pageSize) {n : Nat} (hn : cap < n)
    (h : ClaimsNameLength P cap buf n) : deserializeWithin P cap buf = .error .panic := by
  obtain ⟨hcrc, htag, hitems, id', x, rest1, rest2, hfields, hread⟩ := h
  obtain ⟨tag, id, lsn, rest, hheader, hhead⟩ := deserializeHeader_whole hbuf
  rw [hhead] at htag
  cases htag
  have hdrop : (buf.drop (checksumOffset + 4)).drop 2 = buf.drop 23 := by rw [List.drop_drop]; rfl
  have hmeta : deserializeMeta P cap id (buf.drop 23) = .error .panic := by
    simp only [deserializeMeta, bind_run, deserializeMetaFields_congr hfields id, varint, hread, alloc,
      if_neg (Nat.not_le.mpr hn)]
  have hrest : deserializeRest P cap buf metaTag id (buf.drop (checksumOffset + 4)) = .error .panic := by
    have hnum := beNat_enough (ε := PageError) (show 2 ≤ (buf.drop (checksumOffset + 4)).length by
      rw [List.length_drop, hbuf, const_pageSize, const_checksumOffset]; omega)
    have hitems' : ofBE ((buf.drop (checksumOffset + 4)).take 2) = 0 := hitems
    have h0 : maxItems metaTag = some 0 := rfl
    rw [hitems', hdrop] at hnum
    simp only [deserializeRest, if_neg (show ¬ metaTag = leafTag by decide), bind_run, pure_run, hnum, h0]
    rw [if_neg (Nat.lt_irrefl 0), deserializeBody, if_neg (by decide), if_neg (by decide), if_neg (by decide), if_pos rfl,
      hmeta]
  simp only [deserializeWithin, ← hcrc, ne_eq, not_true_eq_false, if_false, bind, Except.bind, hheader, hrest]

/-- Without such a name, no check is missing. -/
theorem deserializeWithin_safe (hcap : pageSize ≤ cap) {buf : List UInt8} (hbuf : buf.length = pageSize)
    (hno : ∀ n, ClaimsNameLength P cap buf n → n ≤ cap) {e : Fail PageError} (he : deserializeWithin P cap buf = .error e) :
    ∃ e', e = .err e' := by
  obtain ⟨tag, id, lsn, rest, hheader, hhead⟩ := deserializeHeader_whole hbuf
  have hdrop : (buf.drop (checksumOffset + 4)).drop 2 = buf.drop 23 := by rw [List.drop_drop]; rfl
  unfold deserializeWithin at he
  simp only at he
  by_cases hcrc : pageChecksum P buf = UInt32.ofNat (ofBE ((buf.drop checksumOffset).take 4))
  · rw [if_neg (by simpa using hcrc)] at he
    simp only [bind, Except.bind, hheader] at he
    have hsafe : (deserializeRest P cap buf tag id).SafeOn (buf.drop (checksumOffset + 4)) := by
      refine deserializeRest_safe hcap hbuf (by rw [List.length_drop, hbuf]; omega) fun htag hitems => ?_
      rw [hdrop, deserializeMeta_safe_iff (le_trans (by decide) hcap)]
      intro x rest1 n rest2 hfields hread
      exact hno n ⟨hcrc, by rw [hhead, htag], hitems, id, x, rest1, rest2, hfields, hread⟩
    cases hbody : deserializeRest P cap buf tag id (buf.drop (checksumOffset + 4)) with
    | error e' =>
      simp only [hbody, Except.error.injEq] at he
      exact he ▸ hsafe.not_panic hbody
    | ok y =>
      simp only [hbody] at he
      split at he
      · cases he; exact ⟨_, rfl⟩
      · cases he
  · rw [if_pos hcrc] at he
    cases he
    exact ⟨_, rfl⟩

/-- With vectors of at most `cap` elements, reading a buffer ends in a page that passes
    `check_invariants` or in an `Err`, exactly when the buffer is not a meta page whose
    table name claims more than `cap` bytes. -/
theorem deserializeWithin_safe_iff (P : Platform) (cap : Nat) (hcap : pageSize ≤ cap) (buf : RawPage) :
    ((∀ e, deserializeWithin P cap buf.1 = .error e → ∃ e', e = .err e') ∧
      ∀ self, deserializeWithin P cap buf.1 = .ok self → self.checkInvariants = .ok ()) ↔
    ¬ ∃ n, cap < n ∧ ClaimsNameLength P cap buf.1 n := by
  constructor
  · rintro ⟨hsafe, -⟩ ⟨n, hn, h⟩
    obtain ⟨e', he'⟩ := hsafe _ (deserializeWithin_panics buf.2 hn h)
    cases he'
  · intro hno
    refine ⟨fun e he => ?_, fun self hself => (checkInvariants_iff self).mpr (deserialize_encodable hself).1⟩
    exact deserializeWithin_safe hcap buf.2 (fun n h => Nat.not_lt.mp fun hn => hno ⟨n, hn, h⟩) he

/-- A meta page whose name is one byte long. -/
theorem deserializeWithin_safe_iff_followed :
    (∀ e, deserializeWithin .standard pageSize followedPage.1 = .error e → ∃ e', e = .err e') ∧
      ∀ self, deserializeWithin .standard pageSize followedPage.1 = .ok self → self.checkInvariants = .ok () := by
  refine (deserializeWithin_safe_iff .standard pageSize (Nat.le_refl _) followedPage).mpr ?_
  rintro ⟨n, hn, h⟩
  obtain ⟨id, x, rest, rest', hfields, hread⟩ := h.fields
  have hdrop : followedPage.1.drop 23 = metaBytes ⟨⟨1⟩, 1⟩ 2 none idSchema (String.singleton 'a') ++
      List.replicate 4053 0xAB := by
    rw [show 23 = checksumOffset + 4 + 2 from rfl, ← List.drop_drop, followedPage, drop_sealed idMeta.length_front,
      idMetaBytes, List.append_assoc, List.drop_left' (length_toBE 2 _)]
  simp only [hdrop, metaBytes, List.append_assoc, deserializeMetaFields_append (show maxFieldLen ≤ pageSize by decide)
    idSchema_namesFit, Except.ok.injEq, Prod.mk.injEq] at hfields
  obtain ⟨-, rfl⟩ := hfields
  rw [Platform.standard.readVarint_encode _ (by decide)] at hread
  cases hread
  exact absurd hn (by decide)

/-! ### A name of `2 ^ 63` bytes -/

/-- The front of a meta page. -/
def metaFront : List UInt8 := metaTag :: ((PageId.mk ⟨0⟩ 0).serialize ++ PageLsn.serialize none)

/-- A meta page's fields and the length of its name, but no name. -/
def hugeNameRest : List UInt8 :=
  toBE 2 0 ++ ((PageId.mk ⟨0⟩ 1).serialize ++ (toBE 4 (2 : UInt32).toNat ++ (serializeOption PageId.serialize none ++
    (idSchema.serialize ++ (encode (2 ^ 63) ++ List.replicate 4045 0)))))

theorem length_hugeNameRest : hugeNameRest.length = 4075 := by
  have h1 : idSchema.serialize.length = 5 := by rw [Schema.length_serialize]; decide
  have h2 : (encode (2 ^ 63)).length = 10 := by rw [length_encode]; decide
  simp only [hugeNameRest, List.length_append, length_toBE, PageId.length_serialize, serializeOption, List.length_cons,
    List.length_nil, h1, h2, List.length_replicate, const_pageIdSize]

def hugeNamePage : RawPage := ⟨sealed .standard metaFront hugeNameRest, by
  simp only [sealed, metaFront, List.length_append, List.length_cons, length_toBE, length_hugeNameRest,
    PageId.length_serialize, PageLsn.length_serialize, const_pageIdSize, const_pageSize]⟩

/-- A buffer the code can be handed (a meta page with a matching checksum) whose name asks
    for `2 ^ 63` bytes: `vec![0u8; name_len]` panics, and no smaller bound holds either. -/
theorem deserialize_panics : deserialize .standard hugeNamePage.1 = .error .panic ∧
    ∀ cap, pageSize ≤ cap → cap ≤ isizeMax → deserializeWithin .standard cap hugeNamePage.1 = .error .panic := by
  have hfront : metaFront.length = checksumOffset := by
    simp only [metaFront, List.length_cons, List.length_append, PageId.length_serialize, PageLsn.length_serialize]; rfl
  have hpanic : ∀ cap, pageSize ≤ cap → cap ≤ isizeMax →
      deserializeWithin .standard cap hugeNamePage.1 = .error .panic := by
    intro cap hcap hle
    have hval : hugeNamePage.1 = sealed .standard metaFront hugeNameRest := rfl
    have hrest : hugeNamePage.1.drop (checksumOffset + 4) = hugeNameRest := by rw [hval, drop_sealed hfront]
    have hcrc : pageChecksum .standard hugeNamePage.1 =
        UInt32.ofNat (ofBE ((hugeNamePage.1.drop checksumOffset).take 4)) := by rw [hval, ← pageChecksum_sealed hfront]
    have htag : hugeNamePage.1.head? = some metaTag := by rw [hval]; rfl
    have hfields : deserializeMetaFields .standard cap ⟨⟨0⟩, 0⟩ (hugeNameRest.drop 2) =
        .ok ((⟨⟨0⟩, 1⟩, 2, none, idSchema), encode (2 ^ 63) ++ List.replicate 4045 0) := by
      rw [hugeNameRest, List.drop_left' (length_toBE 2 0)]
      exact deserializeMetaFields_append (le_trans (by decide) hcap) idSchema_namesFit _
    have hdrop : hugeNamePage.1.drop 23 = hugeNameRest.drop 2 := by
      rw [show 23 = checksumOffset + 4 + 2 from rfl, ← List.drop_drop, hrest]
    have hitems : ofBE ((hugeNamePage.1.drop 21).take 2) = 0 := by
      rw [show 21 = checksumOffset + 4 from rfl, hrest, hugeNameRest, List.take_left' (length_toBE 2 0),
        ofBE_toBE (by decide)]
    have hread := Platform.standard.readVarint_encode (2 ^ 63) (by decide) (List.replicate 4045 0)
    have hlt : cap < 2 ^ 63 := by unfold isizeMax at hle; omega
    exact deserializeWithin_panics hugeNamePage.2 hlt
      ⟨hcrc, htag, hitems, _, _, _, _, by rw [hdrop]; exact hfields, hread⟩
  exact ⟨(deserialize_eq hugeNamePage.2).trans (hpanic isizeMax (by decide) (Nat.le_refl _)), hpanic⟩

end Page

end RustDb
