/-
  RustDb.Page.Leaf — the operations on leaf pages (`page/leaf.rs`).

  Each operation is followed by what it does on a valid leaf, stated on the record list
  split around the key: `records = a ++ b` with the keys of `a` below it and those of
  `b` above. A leaf operation that fails leaves the pages as they were.
-/

import RustDb.Page.Basic

namespace RustDb

open Lib.SortedList

namespace Page

/-! ## Searching -/

/-- `records.binary_search_by(|r| r.cmp_key(key))`; `none` is `cmp_key`'s panic. The model
    compares every row, the source only those it probes. -/
def searchRecords (records : List Row) (key : Key) : Option (Except Nat Nat) := searchBy (·.cmpKey key) records

theorem searchRecords_eq {records : List Row} (h : ∀ r ∈ records, r.key?.isSome) (key : Key) :
    searchRecords records key = some (search (records.map Row.key) key) :=
  searchBy_eq fun r hr => by rw [Row.cmpKey_eq, Row.key?_eq (h r hr), Option.map_some]

/-- A row list split around a key that it holds. -/
theorem records_found {records : List Row} (h : LeafValid records) {key : Key} {i : Nat}
    (hi : search (records.map Row.key) key = .ok i) :
    ∃ a r b, records = a ++ r :: b ∧ a.length = i ∧ r.key = key ∧ (∀ x ∈ a, x.key < key) ∧ (∀ x ∈ b, key < x.key) := by
  obtain ⟨ka, kb, he, hlen, ha, hb⟩ := search_ok h.sorted hi
  obtain ⟨a, c, rfl, rfl, hc⟩ := List.map_eq_append_iff.mp he
  obtain ⟨r, b, rfl, hr, rfl⟩ := List.map_eq_cons_iff.mp hc
  refine ⟨a, r, b, rfl, by simpa using hlen, hr, fun x hx => ha _ (List.mem_map_of_mem hx), fun x hx => ?_⟩
  exact hb _ (List.mem_map_of_mem hx)

theorem records_gap {records : List Row} (h : LeafValid records) {key : Key} (hk : ∀ r ∈ records, r.key ≠ key) :
    ∃ a b, records = a ++ b ∧ (∀ x ∈ a, x.key < key) ∧ (∀ x ∈ b, key < x.key) := by
  obtain ⟨ka, kb, he, ha, hb⟩ := sorted_gap h.sorted (show key ∉ records.map Row.key by simpa using hk)
  obtain ⟨a, b, rfl, rfl, rfl⟩ := List.map_eq_append_iff.mp he
  exact ⟨a, b, rfl, fun x hx => ha _ (List.mem_map_of_mem hx), fun x hx => hb _ (List.mem_map_of_mem hx)⟩

theorem search_records_mid {a b : List Row} {r : Row} (hs : ((a ++ r :: b).map Row.key).Pairwise (· < ·)) :
    search ((a ++ r :: b).map Row.key) r.key = .ok a.length := by
  rw [List.map_append, List.map_cons] at hs ⊢
  rw [search_mid hs, List.length_map]

theorem search_records_gap {a b : List Row} {key : Key} (hs : ((a ++ b).map Row.key).Pairwise (· < ·))
    (ha : ∀ x ∈ a, x.key < key) (hb : ∀ x ∈ b, key < x.key) :
    search ((a ++ b).map Row.key) key = .error a.length := by
  rw [List.map_append] at hs ⊢
  rw [search_gap hs (by simpa using ha) (by simpa using hb), List.length_map]

/-! ## Reading -/

/-- `Page::leaf_get`. -/
def leafGet (self : Page) (key : Key) : PageResult (Option Row) :=
  match self.body with
  | .leaf records _ _ =>
    match searchRecords records key with
    | none => .error .panic
    | some (.ok i) => .ok records[i]?
    | some (.error _) => .ok none
  | _ => .err .wrongPageType

/-- `Page::leaf_records_from`, with the rows its iterator yields. -/
def leafRecordsFrom (self : Page) (startKey : Key) : PageResult (List Row) :=
  match self.body with
  | .leaf records _ _ =>
    match records.mapM (·.cmpKey startKey) with
    | none => .error .panic
    | some os => .ok (records.drop (os.findIdx (fun o => decide (o ≠ .lt))))
  | _ => .err .wrongPageType

/-- `Page::next`, `Page::prev`. -/
def next (self : Page) : PageResult (Option PageId) :=
  match self.body with | .leaf _ next _ => .ok next | _ => .err .wrongPageType
def prev (self : Page) : PageResult (Option PageId) :=
  match self.body with | .leaf _ _ prev => .ok prev | _ => .err .wrongPageType

/-- `Page::set_next`, `Page::set_prev`. -/
def setNext (self : Page) (new : Option PageId) : PageResult Unit × Page :=
  match self.body with
  | .leaf records _ prev => (.ok (), { self with body := .leaf records new prev })
  | _ => (.err .wrongPageType, self)
def setPrev (self : Page) (new : Option PageId) : PageResult Unit × Page :=
  match self.body with
  | .leaf records next _ => (.ok (), { self with body := .leaf records next new })
  | _ => (.err .wrongPageType, self)

/-- On a valid leaf, `leaf_get` answers the row with the key. -/
theorem leafGet_found {id : PageId} {lsn : PageLsn} {a b : List Row} {r : Row} {nx pv : Option PageId}
    (h : LeafValid (a ++ r :: b)) : leafGet ⟨id, lsn, .leaf (a ++ r :: b) nx pv⟩ r.key = .ok (some r) := by
  simp only [leafGet, searchRecords_eq fun x hx => (h.rows x hx).hasKey, search_records_mid h.sorted]
  simp

theorem leafGet_absent {id : PageId} {lsn : PageLsn} {records : List Row} {nx pv : Option PageId} {key : Key}
    (h : LeafValid records) (hk : ∀ r ∈ records, r.key ≠ key) :
    leafGet ⟨id, lsn, .leaf records nx pv⟩ key = .ok none := by
  simp only [leafGet, searchRecords_eq fun x hx => (h.rows x hx).hasKey]
  cases hi : search (records.map Row.key) key with
  | ok i =>
    obtain ⟨a, r, b, rfl, -, hr, -⟩ := records_found h hi
    exact absurd hr (hk r (by simp))
  | error i => rfl

/-! ## Inserting -/

/-- `Page::can_insert`. -/
def canInsert (self : Page) (row : Row) : Bool :=
  if !self.isLeaf then false
  else match self.freeSpace with
    | none => false
    | some s => leafEntrySize row ≤ s

/-- `Page::leaf_insert`. -/
def leafInsert (self : Page) (validatedRow : ValidatedRow) : PageResult Unit × Page :=
  match self.body with
  | .leaf records next prev =>
    let newKey := validatedRow.primaryKey
    let canInsert := self.canInsert validatedRow.row
    match searchRecords records newKey with
    | none => (.error .panic, self)
    | some (.ok _) => (.err .duplicateKey, self)
    | some (.error i) =>
      if !canInsert then (.err .pageFull, self)
      else (.ok (), { self with body := .leaf (records.insertIdx i validatedRow.row) next prev })
  | _ => (.err .wrongPageType, self)

theorem canInsert_leaf {id : PageId} {lsn : PageLsn} {records : List Row} {nx pv : Option PageId} (row : Row)
    (h : rowsSize records ≤ leafUsable) :
    canInsert ⟨id, lsn, .leaf records nx pv⟩ row = decide (rowsSize records + leafEntrySize row ≤ leafUsable) := by
  simp only [canInsert, isLeaf, Bool.not_true, Bool.false_eq_true, if_false, freeSpace_leaf id lsn nx pv h]
  rw [decide_eq_decide]; omega

theorem insertIdx_append {α : Type} (a b : List α) (x : α) : (a ++ b).insertIdx a.length x = a ++ x :: b := by
  induction a with
  | nil => simp
  | cons y a ih => simpa using ih

theorem leafInsert_fits {id : PageId} {lsn : PageLsn} {a b : List Row} {nx pv : Option PageId} {v : ValidatedRow}
    (h : LeafValid (a ++ b)) (ha : ∀ x ∈ a, x.key < v.row.key) (hb : ∀ x ∈ b, v.row.key < x.key)
    (hfit : rowsSize (a ++ b) + leafEntrySize v.row ≤ leafUsable) :
    leafInsert ⟨id, lsn, .leaf (a ++ b) nx pv⟩ v = (.ok (), ⟨id, lsn, .leaf (a ++ v.row :: b) nx pv⟩) := by
  simp only [leafInsert, searchRecords_eq fun x hx => (h.rows x hx).hasKey, v.primaryKey_eq,
    search_records_gap h.sorted ha hb, canInsert_leaf v.row h.size, hfit, decide_true, Bool.not_true,
    Bool.false_eq_true, if_false, insertIdx_append]

theorem leafInsert_full {id : PageId} {lsn : PageLsn} {records : List Row} {nx pv : Option PageId} {v : ValidatedRow}
    (h : LeafValid records) (hk : ∀ r ∈ records, r.key ≠ v.row.key)
    (hfull : ¬ rowsSize records + leafEntrySize v.row ≤ leafUsable) :
    leafInsert ⟨id, lsn, .leaf records nx pv⟩ v = (.err .pageFull, ⟨id, lsn, .leaf records nx pv⟩) := by
  simp only [leafInsert, searchRecords_eq fun x hx => (h.rows x hx).hasKey, v.primaryKey_eq,
    canInsert_leaf v.row h.size, hfull, decide_false]
  cases hi : search (records.map Row.key) v.row.key with
  | ok i =>
    obtain ⟨a, r, b, rfl, -, hr, -⟩ := records_found h hi
    exact absurd hr (hk r (by simp))
  | error i => simp

theorem leafInsert_duplicate {id : PageId} {lsn : PageLsn} {records : List Row} {nx pv : Option PageId}
    {v : ValidatedRow} (h : LeafValid records) (hk : ∃ r ∈ records, r.key = v.row.key) :
    leafInsert ⟨id, lsn, .leaf records nx pv⟩ v = (.err .duplicateKey, ⟨id, lsn, .leaf records nx pv⟩) := by
  obtain ⟨r, hr, hrk⟩ := hk
  obtain ⟨a, b, rfl⟩ := List.append_of_mem hr
  simp only [leafInsert, searchRecords_eq fun x hx => (h.rows x hx).hasKey, v.primaryKey_eq, ← hrk,
    search_records_mid h.sorted]

theorem leafValid_insert {a b : List Row} {r : Row} (h : LeafValid (a ++ b)) (hr : RowFits r)
    (ha : ∀ x ∈ a, x.key < r.key) (hb : ∀ x ∈ b, r.key < x.key)
    (hfit : rowsSize (a ++ b) + leafEntrySize r ≤ leafUsable) : LeafValid (a ++ r :: b) where
  rows x hx := by
    rcases List.mem_append.mp hx with hx | hx
    · exact h.rows x (List.mem_append_left _ hx)
    · rcases List.mem_cons.mp hx with rfl | hx
      · exact hr
      · exact h.rows x (List.mem_append_right _ hx)
  sorted := by
    have hs := h.sorted
    rw [List.map_append] at hs
    rw [List.map_append, List.map_cons]
    exact pairwise_insert hs (by simpa using ha) (by simpa using hb)
  size := by simp only [rowsSize_append, rowsSize_cons] at hfit ⊢; omega

theorem rowFits_validated (v : ValidatedRow) : RowFits v.row := ⟨v.hasKey, v.leafSize, v.keySize⟩

/-! ## Removing -/

/-- `Page::leaf_remove`. -/
def leafRemove (self : Page) (key : Key) : PageResult (Option Row) × Page :=
  match self.body with
  | .leaf records next prev =>
    match searchRecords records key with
    | none => (.error .panic, self)
    | some (.ok i) => (.ok records[i]?, { self with body := .leaf (records.eraseIdx i) next prev })
    | some (.error _) => (.ok none, self)
  | _ => (.err .wrongPageType, self)

theorem eraseIdx_append {α : Type} (a b : List α) (x : α) : (a ++ x :: b).eraseIdx a.length = a ++ b := by
  induction a with
  | nil => simp
  | cons y a ih => simpa using ih

theorem leafRemove_found {id : PageId} {lsn : PageLsn} {a b : List Row} {r : Row} {nx pv : Option PageId}
    (h : LeafValid (a ++ r :: b)) :
    leafRemove ⟨id, lsn, .leaf (a ++ r :: b) nx pv⟩ r.key = (.ok (some r), ⟨id, lsn, .leaf (a ++ b) nx pv⟩) := by
  simp only [leafRemove, searchRecords_eq fun x hx => (h.rows x hx).hasKey, search_records_mid h.sorted, eraseIdx_append]
  simp

theorem leafRemove_absent {id : PageId} {lsn : PageLsn} {records : List Row} {nx pv : Option PageId} {key : Key}
    (h : LeafValid records) (hk : ∀ r ∈ records, r.key ≠ key) :
    leafRemove ⟨id, lsn, .leaf records nx pv⟩ key = (.ok none, ⟨id, lsn, .leaf records nx pv⟩) := by
  simp only [leafRemove, searchRecords_eq fun x hx => (h.rows x hx).hasKey]
  cases hi : search (records.map Row.key) key with
  | ok i =>
    obtain ⟨a, r, b, rfl, -, hr, -⟩ := records_found h hi
    exact absurd hr (hk r (by simp))
  | error i => rfl

theorem rowsSize_sublist {records records' : List Row} (h : records'.Sublist records) :
    rowsSize records' ≤ rowsSize records := by
  induction h with
  | slnil => exact Nat.le_refl _
  | cons r _ ih => rw [rowsSize_cons]; omega
  | cons_cons r _ ih => rw [rowsSize_cons, rowsSize_cons]; omega

/-- Part of a valid leaf's rows, in order, are a valid leaf's rows. -/
theorem LeafValid.sublist {records records' : List Row} (h : LeafValid records) (hs : records'.Sublist records) :
    LeafValid records' where
  rows r hr := h.rows r (hs.subset hr)
  sorted := h.sorted.sublist (hs.map _)
  size := (rowsSize_sublist hs).trans h.size

/-! ## Merging and borrowing -/

/-- `Page::leaf_can_merge_with`. -/
def leafCanMergeWith (self right : Page) : Bool :=
  if !self.isLeaf || !right.isLeaf then false
  else self.freeSpace.any (· ≥ right.entriesSize)

/-- `Page::leaf_merge_from_right`: the result, this page, and the right page. -/
def leafMergeFromRight (self right : Page) : PageResult PageId × Page × Page :=
  match self.body, right.body with
  | .leaf records next prev, .leaf rightRecords rightNext _ =>
    if !self.leafCanMergeWith right then (.err .pageFull, self, right)
    else
      let rightId := right.pageId
      let merged := (.ok rightId, { self with body := .leaf (records ++ rightRecords) rightNext prev }, right.makeFree)
      if next = some rightId then
        match records.getLast?, rightRecords.head? with
        | some leftMax, some rightMin =>
          match leftMax.key?, rightMin.key? with
          | some leftKey, some rightKey =>
            if rightKey ≤ leftKey then (.err (.invalidMerge .keys), self, right) else merged
          | _, _ => (.error .panic, self, right)
        | _, _ => merged
      else (.err (.invalidMerge (.pointerMismatch next (some rightId))), self, right)
  | _, _ => (.err .wrongPageType, self, right)

/-- `Page::leaf_borrow_from_right`. -/
def leafBorrowFromRight (self right : Page) : PageResult Key × Page × Page :=
  match self.body, right.body with
  | .leaf records next prev, .leaf rightRecords rightNext rightPrev =>
    if next ≠ some right.pageId then
      (.err (.invalidBorrow (.pointerMismatch next (some right.pageId))), self, right)
    else match rightRecords with
      | [] => (.err (.invalidBorrow (.emptyBorrow right.pageId)), self, right)
      | borrowRec :: rest =>
        match borrowRec.key? with
        | none => (.error .panic, self, right)
        | some borrowedKey =>
          match records.getLast?.map (fun r => Row.cmpKey r borrowedKey) with
          | some none => (.error .panic, self, right)
          | some (some Ordering.eq) | some (some Ordering.gt) =>
            (.err (.invalidBorrow (.keysOutOfOrder borrowedKey)), self, right)
          | some (some Ordering.lt) | none =>
            if (borrowRec :: rest).length < 2 then
              (.err (.invalidBorrow (.emptyBorrow right.pageId)), self, right)
            else if !self.freeSpace.any (· ≥ leafEntrySize borrowRec) then (.err .pageFull, self, right)
            else
              let right' := { right with body := .leaf rest rightNext rightPrev }
              match rest.head?.bind Row.key? with
              | none => (.error .panic, self, right')
              | some promotedKey =>
                (.ok promotedKey, { self with body := .leaf (records ++ [borrowRec]) next prev }, right')
  | _, _ => (.err .wrongPageType, self, right)

/-- `Page::leaf_borrow_from_left`. -/
def leafBorrowFromLeft (self left : Page) : PageResult Key × Page × Page :=
  match self.body, left.body with
  | .leaf records next prev, .leaf leftRecords leftNext leftPrev =>
    if prev ≠ some left.pageId then
      (.err (.invalidBorrow (.pointerMismatch prev (some left.pageId))), self, left)
    else match leftRecords.getLast? with
      | none => (.err (.invalidBorrow (.emptyBorrow left.pageId)), self, left)
      | some borrowRec =>
        match borrowRec.key? with
        | none => (.error .panic, self, left)
        | some borrowedKey =>
          match records.head?.map (fun r => Row.cmpKey r borrowedKey) with
          | some none => (.error .panic, self, left)
          | some (some Ordering.eq) | some (some Ordering.lt) =>
            (.err (.invalidBorrow (.keysOutOfOrder borrowedKey)), self, left)
          | some (some Ordering.gt) | none =>
            if leftRecords.length < 2 then
              (.err (.invalidBorrow (.emptyBorrow left.pageId)), self, left)
            else if !self.freeSpace.any (· ≥ leafEntrySize borrowRec) then (.err .pageFull, self, left)
            else
              (.ok borrowedKey, { self with body := .leaf (borrowRec :: records) next prev },
                { left with body := .leaf leftRecords.dropLast leftNext leftPrev })
  | _, _ => (.err .wrongPageType, self, left)

theorem leafCanMergeWith_leaf {id id' : PageId} {lsn lsn' : PageLsn} {rs rs' : List Row}
    {nx pv nx' pv' : Option PageId} (h : rowsSize rs ≤ leafUsable) :
    leafCanMergeWith ⟨id, lsn, .leaf rs nx pv⟩ ⟨id', lsn', .leaf rs' nx' pv'⟩ =
      decide (rowsSize rs + rowsSize rs' ≤ leafUsable) := by
  simp only [leafCanMergeWith, isLeaf, Bool.not_true, Bool.or_self, Bool.false_eq_true, if_false,
    freeSpace_leaf id lsn nx pv h, Option.any_some]
  rw [Bool.eq_iff_iff, decide_eq_true_iff, decide_eq_true_iff]
  show rowsSize rs' ≤ leafUsable - rowsSize rs ↔ _
  omega

theorem leafValid_append {rs rs' : List Row} (h : LeafValid rs) (h' : LeafValid rs')
    (hlt : ∀ x ∈ rs, ∀ y ∈ rs', x.key < y.key) (hfit : rowsSize rs + rowsSize rs' ≤ leafUsable) :
    LeafValid (rs ++ rs') where
  rows r hr := (List.mem_append.mp hr).elim (h.rows r) (h'.rows r)
  sorted := by
    rw [List.map_append, List.pairwise_append]
    exact ⟨h.sorted, h'.sorted, by simpa using hlt⟩
  size := by rw [rowsSize_append]; exact hfit

theorem leafMergeFromRight_ok {id id' : PageId} {lsn lsn' : PageLsn} {rs rs' : List Row}
    {pv nx' pv' : Option PageId} (h : LeafValid rs) (h' : LeafValid rs')
    (hlt : ∀ x ∈ rs, ∀ y ∈ rs', x.key < y.key) (hfit : rowsSize rs + rowsSize rs' ≤ leafUsable) :
    leafMergeFromRight ⟨id, lsn, .leaf rs (some id') pv⟩ ⟨id', lsn', .leaf rs' nx' pv'⟩ =
      (.ok id', ⟨id, lsn, .leaf (rs ++ rs') nx' pv⟩, ⟨id', lsn', .free none⟩) := by
  simp only [leafMergeFromRight, leafCanMergeWith_leaf h.size, hfit, decide_true, Bool.not_true, Bool.false_eq_true,
    if_false, if_true, makeFree]
  rcases hl : rs.getLast? with _ | x <;> rcases hr : rs'.head? with _ | y <;> try rfl
  have hx := List.mem_of_getLast? hl
  have hy := List.mem_of_mem_head? hr
  simp only [Row.key?_eq (h.rows x hx).hasKey, Row.key?_eq (h'.rows y hy).hasKey, not_le.mpr (hlt x hx y hy), if_false]

theorem leafBorrowFromRight_ok {id id' : PageId} {lsn lsn' : PageLsn} {rs rest : List Row} {r r2 : Row}
    {pv nx' pv' : Option PageId} (h : LeafValid rs) (h' : LeafValid (r :: r2 :: rest))
    (hlt : ∀ x ∈ rs, x.key < r.key) (hfit : rowsSize rs + leafEntrySize r ≤ leafUsable) :
    leafBorrowFromRight ⟨id, lsn, .leaf rs (some id') pv⟩ ⟨id', lsn', .leaf (r :: r2 :: rest) nx' pv'⟩ =
      (.ok r2.key, ⟨id, lsn, .leaf (rs ++ [r]) (some id') pv⟩, ⟨id', lsn', .leaf (r2 :: rest) nx' pv'⟩) := by
  have hr := Row.key?_eq (h'.rows r (by simp)).hasKey
  have hr2 := Row.key?_eq (h'.rows r2 (by simp)).hasKey
  have hlast : ∀ x ∈ rs, x.cmpKey r.key = some .lt := fun x hx => by
    rw [Row.cmpKey_eq, Row.key?_eq (h.rows x hx).hasKey, Option.map_some, compare_lt_iff_lt.mpr (hlt x hx)]
  have hspace : leafUsable - rowsSize rs ≥ leafEntrySize r := by omega
  simp only [leafBorrowFromRight, ne_eq, not_true, if_false, hr, freeSpace_leaf id lsn (some id') pv h.size,
    Option.any_some, hspace, decide_true, Bool.not_true, Bool.false_eq_true, List.head?_cons, Option.bind_some, hr2]
  rcases hl : rs.getLast? with _ | x
  · simp
  · simp [hlast x (List.mem_of_getLast? hl)]

theorem leafBorrowFromLeft_ok {id id' : PageId} {lsn lsn' : PageLsn} {rs rest : List Row} {r : Row}
    {nx nx' pv' : Option PageId} (h : LeafValid rs) (h' : LeafValid (rest ++ [r])) (hne : rest ≠ [])
    (hlt : ∀ x ∈ rs, r.key < x.key) (hfit : rowsSize rs + leafEntrySize r ≤ leafUsable) :
    leafBorrowFromLeft ⟨id, lsn, .leaf rs nx (some id')⟩ ⟨id', lsn', .leaf (rest ++ [r]) nx' pv'⟩ =
      (.ok r.key, ⟨id, lsn, .leaf (r :: rs) nx (some id')⟩, ⟨id', lsn', .leaf rest nx' pv'⟩) := by
  have hr := Row.key?_eq (h'.rows r (by simp)).hasKey
  have hfirst : ∀ x ∈ rs, x.cmpKey r.key = some .gt := fun x hx => by
    rw [Row.cmpKey_eq, Row.key?_eq (h.rows x hx).hasKey, Option.map_some, compare_gt_iff_gt.mpr (hlt x hx)]
  have hspace : leafUsable - rowsSize rs ≥ leafEntrySize r := by omega
  have hlen : ¬ (rest ++ [r]).length < 2 := by
    have := List.length_pos_of_ne_nil hne
    simp only [List.length_append, List.length_singleton]; omega
  simp only [leafBorrowFromLeft, ne_eq, not_true, if_false, List.getLast?_concat, hr,
    freeSpace_leaf id lsn nx (some id') h.size, Option.any_some, hspace, decide_true, Bool.not_true, Bool.false_eq_true,
    hlen, List.dropLast_concat]
  rcases hl : rs.head? with _ | x
  · simp
  · simp [hfirst x (List.mem_of_mem_head? hl)]

end Page

end RustDb
