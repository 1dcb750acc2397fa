/-
  RustDb.Codec.Errors — which errors `Page::deserialize` reports of a buffer whose checksum
  matches.

  Every nested decoder's error is mapped to a corruption, and the plain reads of the header
  cannot fail on `PAGE_SIZE` bytes. The exception is the table name of a meta page: its
  length, its bytes and its encoding are read with `?`, so that a bad name comes out as an
  I/O or a UTF-8 error, or as a panic of the allocation.

  - `deserialize_corrupt_iff`: a buffer reads as a page or as corrupt exactly when it is not
    a meta page, readable up to its name, whose name cannot be read.
  - `deserialize_checkSum_iff`: the checksum's error is its own alone.
  - `deserialize_zeros`: a hole in a file is no page.
-/

import RustDb.Codec.Safety

namespace RustDb

open Lib.Bytes

namespace Decoder

variable {ε α β : Type} {bs : List UInt8}

/-- A corruption other than the checksum's. -/
def Corruption (e : PageError) : Prop := (∃ id kind, e = .corrupt id kind) ∧ e ≠ .corrupt none .checkSumMismatch

theorem corruption_some (id : PageId) (kind : CorruptionKind) : Corruption (.corrupt (some id) kind) :=
  ⟨⟨_, _, rfl⟩, fun h => by cases h⟩

theorem corruption_tag (tag : UInt8) : Corruption (.corrupt none (.invalidTag tag)) :=
  ⟨⟨_, _, rfl⟩, fun h => by cases h⟩

/-- Reading `bs` fails only with a corruption. -/
def CorruptOn (r : Decoder PageError α) (bs : List UInt8) : Prop :=
  ∀ e, r bs = .error e → ∃ e', e = .err e' ∧ Corruption e'

theorem corruptOn_ok {r : Decoder PageError α} {x : α × List UInt8} (h : r bs = .ok x) : r.CorruptOn bs := by
  intro e he
  cases h.symm.trans he

theorem corruptOn_err {e : PageError} (h : Corruption e) : CorruptOn (err e : Decoder PageError α) bs := by
  intro e' he
  cases he
  exact ⟨e, rfl, h⟩

theorem CorruptOn.bind {r : Decoder PageError α} {f : α → Decoder PageError β} (hr : r.CorruptOn bs)
    (hf : ∀ a rest, r bs = .ok (a, rest) → (f a).CorruptOn rest) : CorruptOn (r >>= f) bs := by
  intro e he
  simp only [bind_run] at he
  rcases hrun : r bs with e' | ⟨a, rest⟩
  · rw [hrun] at he
    cases he
    exact hr e hrun
  · rw [hrun] at he
    exact hf a rest hrun e he

/-- `map_err` to a corruption. -/
theorem SafeOn.corruptOn {r : Decoder ε α} {f : ε → PageError} (h : r.SafeOn bs)
    (hf : ∀ e, Corruption (f e)) : (r.mapErr f).CorruptOn bs := by
  intro e he
  unfold Decoder.mapErr mapError at he
  rcases hrun : r bs with e' | x
  · obtain ⟨e'', rfl⟩ := h.not_panic hrun
    rw [hrun] at he
    cases he
    exact ⟨f e'', rfl, hf e''⟩
  · rw [hrun] at he
    cases he

end Decoder

open Decoder

namespace Page

variable {P : Platform} {cap : Nat}

/-! ## The table name -/

/-- A table name stands at the front of `bs`: its length, and so many bytes of UTF-8. -/
def NameAt (P : Platform) (bs : List UInt8) : Prop :=
  ∃ n rest, P.readVarint bs = .ok (n, rest) ∧ n ≤ rest.length ∧ (strOfBytes (rest.take n)).isSome = true

/-- The buffer is a meta page that can be read up to its table name, and no name follows. -/
structure BadName (P : Platform) (cap : Nat) (buf : List UInt8) : Prop where
  tag : buf.head? = some metaTag
  numItems : ofBE ((buf.drop 21).take 2) = 0
  name : ∃ id x rest, deserializeMetaFields P cap id (buf.drop 23) = .ok (x, rest) ∧ ¬ NameAt P rest

theorem deserializeMeta_name {id : PageId} {bs rest : List UInt8} {x : PageId × UInt32 × Option PageId × Schema}
    (hfields : deserializeMetaFields P cap id bs = .ok (x, rest)) (hcap : rest.length ≤ cap) (hname : NameAt P rest) :
    ∃ y, deserializeMeta P cap id bs = .ok y := by
  obtain ⟨n, rest', hread, hlen, hutf8⟩ := hname
  obtain ⟨s, hs⟩ := Option.isSome_iff_exists.mp hutf8
  obtain ⟨-, as, -, hsplit⟩ := P.readVarint_ok _ _ _ hread
  have hn : n ≤ cap := by
    have := congrArg List.length hsplit
    rw [List.length_append] at this
    omega
  refine ⟨(.metaPage x.1 x.2.1 x.2.2.1 x.2.2.2 s, rest'.drop n), ?_⟩
  simp only [deserializeMeta, bind_run, hfields, varint, hread, alloc_run hn, bytes, readExact, if_pos hlen, utf8, hs,
    pure_run]

/-- A name that cannot be read is not reported as a corruption. -/
theorem deserializeMeta_no_name {id : PageId} {bs rest : List UInt8} {x : PageId × UInt32 × Option PageId × Schema}
    (hfields : deserializeMetaFields P cap id bs = .ok (x, rest)) (hname : ¬ NameAt P rest) :
    ∃ e, deserializeMeta P cap id bs = .error e ∧ ∀ id kind, e ≠ .err (.corrupt id kind) := by
  simp only [deserializeMeta, bind_run, hfields, varint]
  rcases hread : P.readVarint rest with e | ⟨n, rest'⟩
  · exact ⟨_, rfl, fun id kind h => by cases h⟩
  simp only
  by_cases hn : n ≤ cap
  · simp only [alloc_run hn, bytes, readExact]
    by_cases hlen : n ≤ rest'.length
    · simp only [if_pos hlen, utf8]
      rcases hs : strOfBytes (rest'.take n) with _ | s
      · exact ⟨_, rfl, fun id kind h => by cases h⟩
      · exact absurd ⟨n, rest', hread, hlen, by rw [hs]; rfl⟩ hname
    · simp only [if_neg hlen]
      exact ⟨_, rfl, fun id kind h => by cases h⟩
  · simp only [alloc, if_neg hn]
    exact ⟨_, rfl, fun id kind h => by cases h⟩

/-! ## Bodies -/

theorem deserializePointer_corruptOn (id : PageId) (bs : List UInt8) : (deserializePointer id).CorruptOn bs :=
  ((total_deserializeOption PageId.total).safeOn bs).corruptOn fun _ => corruption_some _ _

theorem beNat_corruptOn {w : Nat} {bs : List UInt8} (h : w ≤ bs.length) : (beNat w : Decoder PageError Nat).CorruptOn bs :=
  corruptOn_ok (beNat_enough h)

theorem deserializeMetaFields_corruptOn (hcap : maxFieldLen ≤ cap) (id : PageId) {bs : List UInt8} (hlen : 12 ≤ bs.length) :
    (deserializeMetaFields P cap id).CorruptOn bs := by
  unfold deserializeMetaFields
  refine ((PageId.total.safeOn bs).corruptOn fun _ => corruption_some _ _).bind fun rootId rest hroot => ?_
  have hrest : 4 ≤ rest.length := by
    obtain ⟨root', rest', hread, hlen'⟩ := PageId.deserialize_enough
        (show pageIdSize ≤ bs.length by rw [const_pageIdSize]; omega)
    have hok : PageId.deserialize bs = .ok (rootId, rest) := mapError_eq_ok.mp hroot
    cases hread.symm.trans hok
    rw [const_pageIdSize] at hlen'
    omega
  refine (beNat_corruptOn hrest).bind fun pageCount rest1 _ => ?_
  refine (deserializePointer_corruptOn id rest1).bind fun freeListHead rest2 _ => ?_
  refine (((Schema.total hcap).safeOn rest2).corruptOn fun _ => corruption_some _ _).bind fun schema rest3 _ => ?_
  exact corruptOn_ok rfl

theorem deserializeMeta_corruptOn (hcap : pageSize ≤ cap) {id : PageId} {bs : List UInt8} (hlen : 12 ≤ bs.length)
    (hle : bs.length ≤ pageSize)
    (hname : ∀ x rest, deserializeMetaFields P cap id bs = .ok (x, rest) → NameAt P rest) :
    (deserializeMeta P cap id).CorruptOn bs := by
  have hmax : maxFieldLen ≤ cap := le_trans (by decide) hcap
  rcases hfields : deserializeMetaFields P cap id bs with e | ⟨x, rest⟩
  · intro e' he'
    simp only [deserializeMeta, bind_run, hfields] at he'
    cases he'
    exact deserializeMetaFields_corruptOn hmax id hlen _ hfields
  · have hrest : rest.length ≤ bs.length := by
      have hsafe := (total_deserializeMetaFields (P := P) hmax id).safeOn bs
      unfold SafeOn at hsafe
      rwa [hfields] at hsafe
    obtain ⟨y, hy⟩ := deserializeMeta_name hfields (by omega) (hname x rest hfields)
    exact corruptOn_ok hy

theorem deserializeBody_corruptOn (hcap : pageSize ≤ cap) {buf bs : List UInt8} (hbuf : buf.length = pageSize) {tag : UInt8}
    {id : PageId} {n max : Nat} (hmax : maxItems tag = some max) (hn : n ≤ max) (hlen : 3600 ≤ bs.length)
    (next prev : Option PageId) (hmeta : tag = metaTag → (deserializeMeta P cap id).CorruptOn bs) :
    (deserializeBody P cap buf tag id n next prev).CorruptOn bs := by
  unfold deserializeBody
  by_cases h1 : tag = leafTag
  · rw [if_pos h1]
    have hm : maxItems leafTag = some maxLeafItems := rfl
    rw [h1, hm] at hmax
    cases hmax
    exact (deserializeLeaf_safe hcap hbuf hn (by rw [const_maxLeafItems] at hn; rw [const_slotEntrySize]; omega)
      next prev).corruptOn fun _ => corruption_some _ _
  rw [if_neg h1]
  by_cases h2 : tag = internalTag
  · rw [if_pos h2]
    have hm : maxItems internalTag = some maxInternalItems := rfl
    rw [h2, hm] at hmax
    cases hmax
    exact (deserializeInternal_safe hcap hbuf hn
      (by rw [const_maxInternalItems] at hn; rw [const_slotEntrySize, const_pageIdSize]; omega)).corruptOn
        fun _ => corruption_some _ _
  rw [if_neg h2]
  by_cases h3 : tag = freeTag
  · rw [if_pos h3]
    exact (deserializePointer_corruptOn id bs).bind fun _ _ _ => corruptOn_ok rfl
  rw [if_neg h3]
  by_cases h4 : tag = metaTag
  · rw [if_pos h4]
    exact hmeta h4
  · simp only [maxItems, if_neg h1, if_neg h2, if_neg h3, if_neg h4] at hmax
    cases hmax

theorem deserializeItems_corruptOn (hcap : pageSize ≤ cap) {buf bs : List UInt8} (hbuf : buf.length = pageSize) {tag : UInt8}
    {id : PageId} (hlen : 3602 ≤ bs.length) (next prev : Option PageId)
    (hmeta : tag = metaTag → ofBE (bs.take 2) = 0 → (deserializeMeta P cap id).CorruptOn (bs.drop 2)) :
    (deserializeItems P cap buf tag id next prev).CorruptOn bs := by
  unfold deserializeItems
  have hnum := beNat_enough (ε := PageError) (show 2 ≤ bs.length by omega)
  refine (corruptOn_ok hnum).bind fun n rest hn => ?_
  cases hnum.symm.trans hn
  rcases hmax : maxItems tag with _ | max
  · exact corruptOn_err (corruption_tag tag)
  · simp only
    by_cases hgt : ofBE (bs.take 2) > max
    · rw [if_pos hgt]
      exact corruptOn_err (corruption_some _ _)
    · rw [if_neg hgt]
      refine deserializeBody_corruptOn hcap hbuf hmax (by omega) (by rw [List.length_drop]; omega) next prev fun htag => ?_
      have h0 : maxItems metaTag = some 0 := rfl
      rw [htag, h0] at hmax
      cases hmax
      exact hmeta htag (by omega)

theorem deserializeRest_corruptOn (hcap : pageSize ≤ cap) {buf bs : List UInt8} (hbuf : buf.length = pageSize)
    (hbs : bs.length = pageSize - checksumOffset - 4) {tag : UInt8} {id : PageId}
    (hmeta : tag = metaTag → ofBE (bs.take 2) = 0 → (deserializeMeta P cap id).CorruptOn (bs.drop 2)) :
    (deserializeRest P cap buf tag id).CorruptOn bs := by
  rw [const_pageSize, const_checksumOffset] at hbs
  rw [deserializeRest_eq]
  by_cases htag : tag = leafTag
  · rw [if_pos htag]
    refine (deserializePointer_corruptOn id bs).bind fun np rest1 h1 => ?_
    refine (deserializePointer_corruptOn id rest1).bind fun pp rest2 h2 => ?_
    have hl1 := deserializePointer_consumes h1
    have hl2 := deserializePointer_consumes h2
    exact deserializeItems_corruptOn hcap hbuf (by omega) np pp fun hmeta' => by rw [htag] at hmeta'; cases hmeta'
  · rw [if_neg htag]
    exact deserializeItems_corruptOn hcap hbuf (by omega) none none hmeta

/-! ## Whole buffers -/

/-- The checksum stored in a buffer is the one computed over it. -/
def ChecksumMatches (P : Platform) (buf : List UInt8) : Prop :=
  pageChecksum P buf = UInt32.ofNat (ofBE ((buf.drop checksumOffset).take 4))

/-- Past the checksum and the header. -/
theorem deserializeWithin_rest {buf rest : List UInt8} {tag : UInt8} {id : PageId} {lsn : PageLsn}
    (hsum : ChecksumMatches P buf)
    (hheader : deserializeHeader buf = .ok ((tag, id, lsn), rest)) :
    deserializeWithin P cap buf =
      (match deserializeRest P cap buf tag id (buf.drop (checksumOffset + 4)) with
      | .error e => .error e
      | .ok (body, _) =>
        match Page.checkInvariants ⟨id, lsn, body⟩ with
        | .error kind => .err (.corrupt (some id) kind)
        | .ok () => .ok ⟨id, lsn, body⟩) := by
  unfold ChecksumMatches at hsum
  simp only [deserializeWithin, ← hsum, ne_eq, not_true_eq_false, if_false, bind, Except.bind, hheader]
  rcases deserializeRest P cap buf tag id (buf.drop (checksumOffset + 4)) with e | ⟨body, rest'⟩
  · rfl
  · rfl

theorem drop_items (buf : List UInt8) : (buf.drop (checksumOffset + 4)).drop 2 = buf.drop 23 := by
  rw [List.drop_drop]
  rfl

/-- A meta page fails the way its body does. -/
theorem deserializeWithin_meta {buf : List UInt8} (hbuf : buf.length = pageSize) (hsum : ChecksumMatches P buf)
    (htag : buf.head? = some metaTag) (hitems : ofBE ((buf.drop 21).take 2) = 0) :
    ∃ id, ∀ e, deserializeMeta P cap id (buf.drop 23) = .error e → deserializeWithin P cap buf = .error e := by
  obtain ⟨tag, id, lsn, rest, hheader, hhead⟩ := deserializeHeader_whole hbuf
  rw [hhead] at htag
  cases htag
  refine ⟨id, fun e hmeta => ?_⟩
  have hnum := beNat_enough (ε := PageError) (show 2 ≤ (buf.drop (checksumOffset + 4)).length by
    rw [List.length_drop, hbuf, const_pageSize, const_checksumOffset]; omega)
  have hitems' : ofBE ((buf.drop (checksumOffset + 4)).take 2) = 0 := hitems
  have h0 : maxItems metaTag = some 0 := rfl
  rw [hitems', drop_items] at hnum
  have hrest : deserializeRest P cap buf metaTag id (buf.drop (checksumOffset + 4)) = .error e := by
    simp only [deserializeRest, if_neg (show ¬ metaTag = leafTag by decide), bind_run, pure_run, hnum, h0]
    rw [if_neg (Nat.lt_irrefl 0), deserializeBody, if_neg (by decide), if_neg (by decide), if_neg (by decide), if_pos rfl,
      hmeta]
  rw [deserializeWithin_rest hsum hheader, hrest]

/-- A meta page without a name is not reported as corrupt. -/
theorem deserializeWithin_badName {buf : List UInt8} (hbuf : buf.length = pageSize) (hsum : ChecksumMatches P buf)
    (hbad : BadName P cap buf) :
    ∃ e, deserializeWithin P cap buf = .error e ∧ ∀ id kind, e ≠ .err (.corrupt id kind) := by
  obtain ⟨htag, hitems, id', x, rest, hfields, hname⟩ := hbad
  obtain ⟨id, hbody⟩ := deserializeWithin_meta hbuf hsum htag hitems
  obtain ⟨e, hmeta, hnot⟩ := deserializeMeta_no_name (deserializeMetaFields_congr hfields id) hname
  exact ⟨e, hbody e hmeta, hnot⟩

/-- Any other buffer reads as a page or as corrupt. -/
theorem deserializeWithin_corrupt (hcap : pageSize ≤ cap) {buf : List UInt8} (hbuf : buf.length = pageSize)
    (hsum : ChecksumMatches P buf) (hgood : ¬ BadName P cap buf) :
    (∃ self, deserializeWithin P cap buf = .ok self) ∨ ∃ e, deserializeWithin P cap buf = .err e ∧ Corruption e := by
  obtain ⟨tag, id, lsn, rest, hheader, hhead⟩ := deserializeHeader_whole hbuf
  have hbody : (deserializeRest P cap buf tag id).CorruptOn (buf.drop (checksumOffset + 4)) := by
    refine deserializeRest_corruptOn hcap hbuf (by rw [List.length_drop, hbuf]; omega) fun htag hitems => ?_
    have hsize := const_pageSize
    have hlen : ((buf.drop (checksumOffset + 4)).drop 2).length = pageSize - 23 := by rw [drop_items, List.length_drop, hbuf]
    refine deserializeMeta_corruptOn hcap (by omega) (by omega) fun x rest1 hfields => ?_
    by_contra hname
    exact hgood ⟨by rw [hhead, htag], hitems, id, x, rest1, by rw [← drop_items]; exact hfields, hname⟩
  rw [deserializeWithin_rest hsum hheader]
  rcases hrest : deserializeRest P cap buf tag id (buf.drop (checksumOffset + 4)) with e | ⟨body, rest'⟩
  · obtain ⟨e', rfl, hcorrupt⟩ := hbody e hrest
    exact Or.inr ⟨e', rfl, hcorrupt⟩
  · simp only
    rcases Page.checkInvariants ⟨id, lsn, body⟩ with kind | ⟨⟩
    · exact Or.inr ⟨_, rfl, corruption_some id kind⟩
    · exact Or.inl ⟨_, rfl⟩

/-- A buffer with a matching checksum reads as a page or as corrupt, exactly when it is not a
    meta page that is readable up to a table name that is not. -/
theorem deserialize_corrupt_iff (P : Platform) (buf : RawPage) (hsum : ChecksumMatches P buf.1) :
    ((∃ self, deserialize P buf.1 = .ok self) ∨ ∃ id kind, deserialize P buf.1 = .err (.corrupt id kind)) ↔
      ¬ BadName P isizeMax buf.1 := by
  have hcap : pageSize ≤ isizeMax := by decide
  rw [deserialize_eq buf.2]
  constructor
  · intro h hbad
    obtain ⟨e, he, hnot⟩ := deserializeWithin_badName buf.2 hsum hbad
    rcases h with ⟨self, hok⟩ | ⟨id, kind, hcorrupt⟩
    · cases he.symm.trans hok
    · rw [hcorrupt] at he
      cases he
      exact hnot id kind rfl
  · intro hgood
    rcases deserializeWithin_corrupt hcap buf.2 hsum hgood with hok | ⟨e, he, ⟨id, kind, rfl⟩, -⟩
    · exact Or.inl hok
    · exact Or.inr ⟨id, kind, he⟩

/-- The checksum's own error is reported exactly of a checksum that does not match. -/
theorem deserialize_checkSum_iff {buf : List UInt8} (hbuf : buf.length = pageSize) :
    deserialize P buf = .error (.err (.corrupt none .checkSumMismatch)) ↔ ¬ ChecksumMatches P buf := by
  rw [deserialize_eq hbuf]
  constructor
  · intro h hsum
    by_cases hbad : BadName P isizeMax buf
    · obtain ⟨e, he, hnot⟩ := deserializeWithin_badName hbuf hsum hbad
      rw [h] at he
      cases he
      exact hnot _ _ rfl
    · rcases deserializeWithin_corrupt (by decide) hbuf hsum hbad with ⟨self, hok⟩ | ⟨e, he, -, hne⟩
      · cases h.symm.trans hok
      · rw [h] at he
        cases he
        exact hne rfl
  · intro hsum
    simp only [deserializeWithin, if_pos (show pageChecksum P buf ≠ _ from hsum)]

/-- A page of zeros is refused, since no page has its tag. -/
theorem deserialize_zeros (P : Platform) (page : Page) : deserialize P (List.replicate pageSize 0) ≠ .ok page := by
  have hlen : (List.replicate pageSize (0 : UInt8)).length = pageSize := List.length_replicate
  rw [deserialize_eq hlen]
  obtain ⟨tag, id, lsn, rest, hheader, htag⟩ := deserializeHeader_whole hlen
  obtain rfl : 0 = tag := Option.some.inj htag
  intro h
  unfold deserializeWithin at h
  simp only at h
  split at h
  · cases h
  · simp only [bind, Except.bind, hheader] at h
    have henough : 2 ≤ ((List.replicate pageSize (0 : UInt8)).drop (checksumOffset + 4)).length := by
      rw [List.length_drop, hlen, const_pageSize, const_checksumOffset]
      omega
    have hnum := Decoder.beNat_enough (ε := PageError) henough
    have hrest : deserializeRest P isizeMax (List.replicate pageSize 0) 0 id
        ((List.replicate pageSize 0).drop (checksumOffset + 4)) = .error (.err (.corrupt none (.invalidTag 0))) := by
      simp only [deserializeRest, if_neg (show ¬ (0 : UInt8) = leafTag by decide), bind_run, pure_run, hnum]
      rfl
    rw [hrest] at h
    cases h

/-! ### A name that is cut off -/

/-- A meta page's fields and the length of its name, which is more than what follows. -/
def cutNameRest : List UInt8 :=
  toBE 2 0 ++ ((PageId.mk ⟨0⟩ 1).serialize ++ (toBE 4 (2 : UInt32).toNat ++ (serializeOption PageId.serialize none ++
    (idSchema.serialize ++ (encode 5000 ++ List.replicate 4053 0)))))

theorem length_cutNameRest : cutNameRest.length = 4075 := by
  have h1 : idSchema.serialize.length = 5 := by rw [Schema.length_serialize]; decide
  have h2 : (encode 5000).length = 2 := by rw [length_encode]; decide
  simp only [cutNameRest, List.length_append, length_toBE, PageId.length_serialize, serializeOption, List.length_cons,
    List.length_nil, h1, h2, List.length_replicate, const_pageIdSize]

def cutNamePage : RawPage := ⟨sealed .standard metaFront cutNameRest, by
  simp only [sealed, metaFront, List.length_append, List.length_cons, length_toBE, length_cutNameRest,
    PageId.length_serialize, PageLsn.length_serialize, const_pageIdSize, const_pageSize]⟩

theorem length_metaFront : metaFront.length = checksumOffset := by
  simp only [metaFront, List.length_cons, List.length_append, PageId.length_serialize, PageLsn.length_serialize]
  rfl

theorem drop_cutNamePage : cutNamePage.1.drop (checksumOffset + 4) = cutNameRest := drop_sealed length_metaFront _

theorem cutNamePage_matches : ChecksumMatches .standard cutNamePage.1 := pageChecksum_sealed length_metaFront _

theorem cutNamePage_items : ofBE ((cutNamePage.1.drop 21).take 2) = 0 := by
  rw [show 21 = checksumOffset + 4 from rfl, drop_cutNamePage, cutNameRest, List.take_left' (length_toBE 2 0),
    ofBE_toBE (by decide)]

theorem cutNamePage_fields (id : PageId) : deserializeMetaFields .standard isizeMax id (cutNamePage.1.drop 23) =
    .ok ((⟨⟨0⟩, 1⟩, 2, none, idSchema), encode 5000 ++ List.replicate 4053 0) := by
  rw [← drop_items, drop_cutNamePage, cutNameRest, List.drop_left' (length_toBE 2 0)]
  exact deserializeMetaFields_append (by decide) idSchema_namesFit _

theorem read_cutName : Platform.standard.readVarint (encode 5000 ++ List.replicate 4053 0) =
    .ok (5000, List.replicate 4053 0) :=
  Platform.standard.readVarint_encode 5000 (by decide) _

theorem deserialize_corrupt_iff_cut :
    ¬ ((∃ self, deserialize .standard cutNamePage.1 = .ok self) ∨
      ∃ id kind, deserialize .standard cutNamePage.1 = .err (.corrupt id kind)) := by
  intro h
  refine (deserialize_corrupt_iff .standard cutNamePage cutNamePage_matches).mp h
    ⟨rfl, cutNamePage_items, ⟨⟨0⟩, 0⟩, _, _, cutNamePage_fields _, ?_⟩
  rintro ⟨n, rest, hread, hlen, -⟩
  rw [read_cutName] at hread
  cases hread
  rw [List.length_replicate] at hlen
  exact absurd hlen (by decide)

/-- A meta page with a matching checksum whose name is cut off reads as an I/O error. -/
theorem cutName_ioError : ChecksumMatches .standard cutNamePage.1 ∧
    deserialize .standard cutNamePage.1 = .err (.ioError .unexpectedEof) := by
  obtain ⟨id, hbody⟩ := @deserializeWithin_meta .standard isizeMax _ cutNamePage.2 cutNamePage_matches rfl cutNamePage_items
  have hmeta : deserializeMeta .standard isizeMax id (cutNamePage.1.drop 23) = .error (.err (.ioError .unexpectedEof)) := by
    simp only [deserializeMeta, bind_run, cutNamePage_fields, varint, read_cutName,
      alloc_run (show 5000 ≤ isizeMax by decide), bytes, readExact, List.length_replicate,
      if_neg (show ¬ 5000 ≤ 4053 by decide)]
    rfl
  exact ⟨cutNamePage_matches, (deserialize_eq cutNamePage.2).trans (hbody _ hmeta)⟩

end Page

end RustDb
