/-
  RustDb.Page.Basic — the in-memory page, its size accounting and `check_invariants`
  (`page/mod.rs`, `page/error.rs`, `page/invariants.rs`).

  A changing operation returns its result together with the page it leaves, also when
  it fails. `debug_check_invariants` is compiled out of release builds and is left out:
  that every operation keeps `check_invariants` is proved instead.

  - `checkInvariants_iff`: `check_invariants` accepts exactly the pages that are `Valid`.
  - `valid_leaf_budget` / `valid_internal_budget`: what a valid page's entries add up to.
-/

import RustDb.Schema
import RustDb.Lib.SortedList

namespace RustDb

open Lib.Bytes (size)

/-! ## Errors -/

inductive BorrowFailReason where
  | emptyBorrow (id : PageId)
  | keysOutOfOrder (k : Key)
  | pointerMismatch (expected got : Option PageId)
  deriving DecidableEq, Repr

inductive MergeFailReason where
  | pointerMismatch (expected got : Option PageId)
  | keys
  deriving DecidableEq, Repr

inductive CorruptionKind where
  | invalidTag (tag : UInt8)
  | invalidRange (slot start stop : Nat)
  | corruptRow (slot : Nat)
  | corruptKey (slot : Nat)
  | childCountMismatch (keys children : Nat)
  | missingKey
  | invalidKey (v : RowValue)
  | unsortedKeys (i : Nat)
  | exceedsCapacity
  | checkSumMismatch
  | invalidPointerTag
  | overlappingSlots (first second : Nat)
  | trailingBytes (slot : Nat)
  | tooManyItems (n : Nat)
  | rowTooLarge (slot : Nat)
  | keyTooLarge (slot : Nat)
  | pageNumOutOfRange (n : Nat)
  | badSchema
  | tableNameTooLong (n : Nat)
  deriving DecidableEq, Repr

inductive PageError where
  | ioError (e : IoError)
  | lsnError (e : LsnError)
  | value (e : RowValueError)
  | key (e : KeyError)
  | schema (e : SchemaError)
  | tooSmallToSplit (id : PageId)
  | pageFull
  | duplicateKey
  | wrongPageType
  | invariantViolated
  | corrupt (pageId : Option PageId) (kind : CorruptionKind)
  | invalidMerge (r : MergeFailReason)
  | invalidBorrow (r : BorrowFailReason)
  | staleLsnUpdate (old new : Lsn)
  | missingKey (searchKey newKey : Key)
  | keyNotInOrder (k : Key)
  | notFreeListHead (head : Option PageId) (got : PageId)
  | alreadyFree (id : PageId)
  | pageOutOfRange (id : PageId)
  | wrongTable (id : PageId)
  | reservedPage
  | utf8Error
  deriving DecidableEq, Repr

abbrev PageResult (α : Type) := Except (Fail PageError) α

/-- An `Err`. -/
abbrev PageResult.err {α : Type} (e : PageError) : PageResult α := .error (.err e)

/-! ## Pages -/

inductive PageBody where
  | leaf (records : List Row) (next prev : Option PageId)
  | internal (keys : List Key) (children : List PageId)
  | metaPage (rootId : PageId) (pageCount : UInt32) (freeListHead : Option PageId) (schema : Schema)
      (tableName : String)
  | free (next : Option PageId)
  deriving DecidableEq, Repr

structure Page where
  pageId : PageId
  lastUpdate : PageLsn
  body : PageBody
  deriving DecidableEq, Repr

namespace Page

/-- `Page::make_free`. -/
def makeFree (self : Page) : Page := { self with body := .free none }

def isLeaf (self : Page) : Bool := match self.body with | .leaf .. => true | _ => false
def isInternal (self : Page) : Bool := match self.body with | .internal .. => true | _ => false
def isMeta (self : Page) : Bool := match self.body with | .metaPage .. => true | _ => false
def isFree (self : Page) : Bool := match self.body with | .free _ => true | _ => false

/-- `Page::empty_page`. -/
def emptyPage (pageId : PageId) (body : PageBody) : Page := ⟨pageId, none, body⟩

/-- `Page::empty_leaf`. -/
def emptyLeaf (pageId : PageId) : Page := emptyPage pageId (.leaf [] none none)

/-- `Page::new_root`. -/
def newRoot (pageId left : PageId) (separator : Key) (right : PageId) : Page :=
  ⟨pageId, none, .internal [separator] [left, right]⟩

/-- `Page::num_items`. -/
def numItems (self : Page) : Nat :=
  match self.body with
  | .leaf records _ _ => records.length
  | .internal keys _ => keys.length
  | .free _ | .metaPage .. => 0

def rowsSize (records : List Row) : Nat := (records.map leafEntrySize).sum

def keysSize (keys : List Key) : Nat := (keys.map internalEntrySize).sum

/-- `Page::entries_size`. -/
def entriesSize (self : Page) : Nat :=
  match self.body with
  | .internal keys _ => keysSize keys
  | .leaf records _ _ => rowsSize records
  | _ => 0

/-- The bytes `free_space` counts as used. -/
def usedSize (self : Page) : Nat :=
  (match self.body with | .leaf .. => maxLeafHeaderSize | _ => maxInternalHeaderSize) +
  match self.body with
  | .internal keys _ => keysSize keys + pageIdSize
  | .leaf records _ _ => rowsSize records
  | .free _ => 1 + pageIdSize
  | .metaPage _ _ _ schema tableName =>
    pageIdSize + 4 + (1 + pageIdSize) + schema.encodedSize + size tableName.utf8ByteSize + tableName.utf8ByteSize

/-- `Page::free_space`. -/
def freeSpace (self : Page) : Option Nat :=
  if self.usedSize ≤ pageSize then some (pageSize - self.usedSize) else none

/-- `Page::is_underfull`. -/
def isUnderfull (self : Page) : Bool :=
  match self.body with
  | .leaf .. => self.entriesSize < leafUnderfullBytes
  | .internal .. => self.entriesSize < internalUnderfullBytes
  | _ => false

/-- `Page::is_delete_safe`. -/
def isDeleteSafe (self : Page) : Bool :=
  match self.body with
  | .internal .. =>
    self.freeSpace.any (· ≥ maxInternalEntrySize) && self.entriesSize ≥ internalUnderfullBytes + maxInternalEntrySize
  | .leaf .. => self.entriesSize ≥ leafUnderfullBytes + maxLeafEntrySize
  | _ => false

/-- `Page::children`, `Page::records`: the lists the iterators run over. -/
def children? (self : Page) : Option (List PageId) := match self.body with | .internal _ cs => some cs | _ => none
def records? (self : Page) : Option (List Row) := match self.body with | .leaf rs _ _ => some rs | _ => none

/-! ## `check_invariants` -/

/-- The leaf loop: `i` is the slot, `prev` the key before it. -/
def checkRecords : Nat → Option Key → List Row → Except CorruptionKind Unit
  | _, _, [] => .ok ()
  | i, prev, record :: rest =>
    if leafEntrySize record > maxLeafEntrySize then .error (.rowTooLarge i)
    else match record.fields with
      | [] => .error .missingKey
      | first :: _ =>
        match Key.tryFrom first with
        | .error _ => .error (.invalidKey first)
        | .ok key =>
          if internalEntrySize key > maxInternalEntrySize then .error (.keyTooLarge i)
          else if prev.any (fun p => p ≥ key) then .error (.unsortedKeys i)
          else checkRecords (i + 1) (some key) rest

/-- `windows(2).position(|w| w[0] >= w[1])`. -/
def unsortedWindow : Nat → List Key → Option Nat
  | i, a :: b :: rest => if a ≥ b then some i else unsortedWindow (i + 1) (b :: rest)
  | _, _ => none

/-- `Page::check_invariants`. -/
def checkInvariants (self : Page) : Except CorruptionKind Unit :=
  if self.freeSpace.isNone then .error .exceedsCapacity
  else match self.body with
    | .leaf records _ _ => checkRecords 0 none records
    | .internal keys children =>
      if children.length ≠ keys.length + 1 then .error (.childCountMismatch keys.length children.length)
      else match keys.findIdx? (fun k => internalEntrySize k > maxInternalEntrySize) with
        | some slot => .error (.keyTooLarge slot)
        | none =>
          match unsortedWindow 0 keys with
          | some i => .error (.unsortedKeys (i + 1))
          | none => .ok ()
    | .metaPage _ pageCount freeListHead _ tableName =>
      match freeListHead.filter (fun flh => flh.pageNum ≥ pageCount) with
      | some flh => .error (.pageNumOutOfRange flh.pageNum.toNat)
      | none =>
        if tableName.utf8ByteSize > 65535 then .error (.tableNameTooLong tableName.utf8ByteSize) else .ok ()
    | .free _ => .ok ()

/-! ## Validity -/

/-- A row a leaf may hold. -/
structure RowFits (r : Row) : Prop where
  hasKey : r.key?.isSome
  row : leafEntrySize r ≤ maxLeafEntrySize
  key : internalEntrySize r.key ≤ maxInternalEntrySize

theorem fullRow_fits (n : Int64) : RowFits (fullRow n) where
  hasKey := rfl
  row := (size_fullRow n).le
  key := (by decide : (21 : Nat) ≤ 1016)

def KeyFits (k : Key) : Prop := internalEntrySize k ≤ maxInternalEntrySize

structure LeafValid (records : List Row) : Prop where
  rows : ∀ r ∈ records, RowFits r
  sorted : (records.map Row.key).Pairwise (· < ·)
  size : rowsSize records ≤ leafUsable

structure KeysValid (keys : List Key) : Prop where
  fits : ∀ k ∈ keys, KeyFits k
  sorted : keys.Pairwise (· < ·)
  size : keysSize keys ≤ internalUsable

/-- What `check_invariants` checks. -/
def Valid (self : Page) : Prop :=
  match self.body with
  | .leaf records _ _ => LeafValid records
  | .internal keys children => children.length = keys.length + 1 ∧ KeysValid keys
  | .metaPage _ pageCount freeListHead _ tableName =>
    self.usedSize ≤ pageSize ∧ (∀ flh, freeListHead = some flh → flh.pageNum < pageCount) ∧ tableName.utf8ByteSize ≤ 65535
  | .free _ => True

theorem freeSpace_isNone (self : Page) : self.freeSpace.isNone = true ↔ ¬ self.usedSize ≤ pageSize := by
  unfold freeSpace; split <;> simp_all

theorem checkRecords_iff : ∀ (i : Nat) (prev : Option Key) (rs : List Row),
    checkRecords i prev rs = .ok () ↔
      (∀ r ∈ rs, RowFits r) ∧ (rs.map Row.key).Pairwise (· < ·) ∧ ∀ p, prev = some p → ∀ r ∈ rs, p < r.key
  | _, _, [] => by simp [checkRecords]
  | i, prev, r :: rs => by
    have ih := checkRecords_iff (i + 1) (some r.key) rs
    simp only [checkRecords]
    constructor
    · intro h
      split at h
      · cases h
      rename_i hsize
      rcases hf : r.fields with _ | ⟨first, rest⟩
      · simp [hf] at h
      cases hk : Key.tryFrom first with
      | error e => simp [hf, hk] at h
      | ok key =>
        simp only [hf, hk] at h
        have hkey? : r.key? = some key := by simp [Row.key?, hf, hk, Except.toOption]
        have hkey := Row.key_of_key? hkey?
        split at h
        · cases h
        rename_i hks
        split at h
        · cases h
        rename_i hprev
        rw [← hkey] at h
        obtain ⟨h1, h2, h3⟩ := ih.mp h
        have hlt : ∀ p, prev = some p → p < r.key := by
          intro p hp
          simpa [hp, hkey] using hprev
        refine ⟨?_, ?_, ?_⟩
        · rintro x (_ | ⟨_, hx⟩)
          · exact ⟨by simp [hkey?], by omega, by rw [hkey]; omega⟩
          · exact h1 x hx
        · simp only [List.map_cons, List.pairwise_cons, List.mem_map, forall_exists_index, and_imp,
            forall_apply_eq_imp_iff₂]
          exact ⟨fun x hx => h3 _ rfl x hx, h2⟩
        · rintro p hp x (_ | ⟨_, hx⟩)
          · exact hlt p hp
          · exact (hlt p hp).trans (h3 _ rfl x hx)
    · rintro ⟨h1, h2, h3⟩
      have hr := h1 r (by simp)
      obtain ⟨vs, hf⟩ := Row.fields_of_key? (Row.key?_eq hr.hasKey)
      have hprev : ¬ (prev.any (fun p => decide (p ≥ r.key))) = true := by
        rcases prev with _ | p
        · simp
        · simpa using h3 p rfl r (by simp)
      simp only [hf, Key.tryFrom_toRowValue, gt_iff_lt, Nat.not_lt.mpr hr.row, Nat.not_lt.mpr hr.key, if_false, hprev,
        Bool.false_eq_true]
      rw [ih]
      simp only [List.map_cons, List.pairwise_cons, List.mem_map, forall_exists_index, and_imp,
        forall_apply_eq_imp_iff₂] at h2
      exact ⟨fun x hx => h1 x (by simp [hx]), h2.2, fun p hp x hx => by cases hp; exact h2.1 x hx⟩

theorem unsortedWindow_iff : ∀ (i : Nat) (ks : List Key), unsortedWindow i ks = none ↔ ks.Pairwise (· < ·)
  | _, [] => by simp [unsortedWindow]
  | _, [k] => by simp [unsortedWindow]
  | i, a :: b :: ks => by
    have ih := unsortedWindow_iff (i + 1) (b :: ks)
    simp only [unsortedWindow]
    split
    · rename_i hab
      simp only [reduceCtorEq, List.pairwise_cons, List.mem_cons, forall_eq_or_imp, false_iff]
      exact fun h => absurd h.1.1 (not_lt.mpr hab)
    · rename_i hab
      rw [ih]
      have hlt : a < b := not_le.mp hab
      simp only [List.pairwise_cons, List.mem_cons, forall_eq_or_imp]
      exact ⟨fun h => ⟨⟨hlt, fun x hx => hlt.trans (h.1 x hx)⟩, h⟩, fun h => h.2⟩

theorem checkInvariants_iff (self : Page) : self.checkInvariants = .ok () ↔ self.Valid := by
  have hcap := freeSpace_isNone self
  have hconst := const_pageSize
  have hleaf := const_maxLeafHeaderSize
  have hint := const_maxInternalHeaderSize
  have hid := const_pageIdSize
  unfold checkInvariants Valid
  rcases self with ⟨id, lsn, _ | _ | _ | _⟩
  · rename_i records next prev
    have hused : Page.usedSize ⟨id, lsn, .leaf records next prev⟩ ≤ pageSize ↔ rowsSize records ≤ leafUsable := by
      simp only [usedSize, leafUsable]; omega
    simp only [hcap, hused]
    split
    · rename_i h
      exact ⟨fun h' => (by cases h'), fun h' => absurd h'.size h⟩
    · rename_i h
      rw [checkRecords_iff]
      exact ⟨fun ⟨h1, h2, _⟩ => ⟨h1, h2, by simpa using h⟩, fun h' => ⟨h'.rows, h'.sorted, by simp⟩⟩
  · rename_i keys children
    have hused : Page.usedSize ⟨id, lsn, .internal keys children⟩ ≤ pageSize ↔ keysSize keys ≤ internalUsable := by
      simp only [usedSize, internalUsable]; omega
    simp only [hcap, hused]
    split
    · rename_i h
      exact ⟨fun h' => (by cases h'), fun h' => absurd h'.2.size h⟩
    · rename_i h
      split
      · rename_i hlen
        exact ⟨fun h' => (by cases h'), fun h' => absurd h'.1 hlen⟩
      · rename_i hlen
        split
        · rename_i slot hslot
          refine ⟨fun h' => (by cases h'), fun h' => ?_⟩
          obtain ⟨hlt, hbig, -⟩ := List.findIdx?_eq_some_iff_getElem.mp hslot
          have := h'.2.fits _ (List.getElem_mem hlt)
          simp only [gt_iff_lt, decide_eq_true_eq] at hbig
          exact absurd this (Nat.not_le.mpr hbig)
        · rename_i hnone
          have hfits : ∀ k ∈ keys, KeyFits k := by
            intro k hk
            have := List.findIdx?_eq_none_iff.mp hnone k hk
            simpa [KeyFits] using this
          split
          · rename_i i hi
            refine ⟨fun h' => (by cases h'), fun h' => ?_⟩
            rw [(unsortedWindow_iff 0 keys).mpr h'.2.sorted] at hi
            cases hi
          · rename_i hi
            exact ⟨fun _ => ⟨by simpa using hlen, hfits, (unsortedWindow_iff 0 keys).mp hi, by simpa using h⟩, fun _ => rfl⟩
  · rename_i rootId pageCount flh schema name
    simp only [hcap]
    split
    · rename_i h
      exact ⟨fun h' => (by cases h'), fun h' => absurd h'.1 h⟩
    · rename_i h
      split
      · rename_i f hf
        refine ⟨fun h' => (by cases h'), fun h' => ?_⟩
        rw [Option.filter_eq_some_iff] at hf
        have hlt := h'.2.1 f hf.1
        have hge : f.pageNum ≥ pageCount := by simpa using hf.2
        exact absurd hlt (by simpa using hge)
      · rename_i hf
        have hrange : ∀ f, flh = some f → f.pageNum < pageCount := by
          intro f hf'
          simpa [hf', Option.filter] using hf
        split
        · rename_i hname
          exact ⟨fun h' => (by cases h'), fun h' => absurd h'.2.2 (by omega)⟩
        · rename_i hname
          exact ⟨fun _ => ⟨by simpa using h, hrange, by omega⟩, fun _ => rfl⟩
  · have hused : Page.usedSize ⟨id, lsn, .free ‹_›⟩ ≤ pageSize := by
      simp only [usedSize]; omega
    simp [hcap, hused]

/-! ## Sizes -/

@[simp] theorem rowsSize_nil : rowsSize [] = 0 := rfl
@[simp] theorem rowsSize_cons (r : Row) (rs : List Row) : rowsSize (r :: rs) = leafEntrySize r + rowsSize rs := by
  simp [rowsSize]
@[simp] theorem rowsSize_append (rs rs' : List Row) : rowsSize (rs ++ rs') = rowsSize rs + rowsSize rs' := by
  simp [rowsSize]
@[simp] theorem keysSize_nil : keysSize [] = 0 := rfl
@[simp] theorem keysSize_cons (k : Key) (ks : List Key) : keysSize (k :: ks) = internalEntrySize k + keysSize ks := by
  simp [keysSize]
@[simp] theorem keysSize_append (ks ks' : List Key) : keysSize (ks ++ ks') = keysSize ks + keysSize ks' := by
  simp [keysSize]

theorem freeSpace_leaf (id : PageId) (lsn : PageLsn) {records : List Row} (next prev : Option PageId)
    (h : rowsSize records ≤ leafUsable) :
    freeSpace ⟨id, lsn, .leaf records next prev⟩ = some (leafUsable - rowsSize records) := by
  have hconst := const_pageSize
  have hleaf := const_maxLeafHeaderSize
  have hused : usedSize ⟨id, lsn, .leaf records next prev⟩ = maxLeafHeaderSize + rowsSize records := rfl
  unfold leafUsable at h ⊢
  simp only [freeSpace, hused]
  rw [if_pos (by omega)]
  congr 1; omega

theorem freeSpace_internal (id : PageId) (lsn : PageLsn) {keys : List Key} (children : List PageId)
    (h : keysSize keys ≤ internalUsable) :
    freeSpace ⟨id, lsn, .internal keys children⟩ = some (internalUsable - keysSize keys) := by
  have hconst := const_pageSize
  have hint := const_maxInternalHeaderSize
  have hid := const_pageIdSize
  have hused : usedSize ⟨id, lsn, .internal keys children⟩ = maxInternalHeaderSize + (keysSize keys + pageIdSize) := rfl
  unfold internalUsable at h ⊢
  simp only [freeSpace, hused]
  rw [if_pos (by omega)]
  congr 1; omega

end Page

end RustDb
