/-
  RustDb.Page.Internal — the operations on internal pages (`page/internal.rs`).

  A `ChildIndex` and a `KeyIndex` are their positions. Each operation is followed by what
  it does on a valid page, stated on the keys split where the operation acts,
  `keys = a ++ b`, and on the children split at the same position, `children = ca ++ c :: cb`
  with `ca` as long as `a`: `c` is the child between `a` and `b`.
-/

import RustDb.Page.Leaf

namespace RustDb

open Lib.SortedList

namespace Page

theorem keysSize_sublist {keys keys' : List Key} (h : keys'.Sublist keys) : keysSize keys' ≤ keysSize keys := by
  induction h with
  | slnil => exact Nat.le_refl _
  | cons k _ ih => rw [keysSize_cons]; omega
  | cons_cons k _ ih => rw [keysSize_cons, keysSize_cons]; omega

theorem KeysValid.sublist {keys keys' : List Key} (h : KeysValid keys) (hs : keys'.Sublist keys) : KeysValid keys' where
  fits k hk := h.fits k (hs.subset hk)
  sorted := h.sorted.sublist hs
  size := (keysSize_sublist hs).trans h.size

theorem keysValid_insert {a b : List Key} {k : Key} (h : KeysValid (a ++ b)) (hk : KeyFits k)
    (ha : ∀ x ∈ a, x < k) (hb : ∀ x ∈ b, k < x) (hfit : keysSize (a ++ b) + internalEntrySize k ≤ internalUsable) :
    KeysValid (a ++ k :: b) where
  fits x hx := by
    rcases List.mem_append.mp hx with hx | hx
    · exact h.fits x (List.mem_append_left _ hx)
    · rcases List.mem_cons.mp hx with rfl | hx
      · exact hk
      · exact h.fits x (List.mem_append_right _ hx)
  sorted := pairwise_insert h.sorted ha hb
  size := by simp only [keysSize_append, keysSize_cons] at hfit ⊢; omega

theorem keysValid_singleton {k : Key} (hk : KeyFits k) : KeysValid [k] where
  fits x hx := by rwa [List.mem_singleton.mp hx]
  sorted := List.pairwise_singleton _ k
  size := by rw [keysSize_cons, keysSize_nil]; exact Nat.le_trans hk (by decide)

theorem keysValid_append {a b : List Key} (h : KeysValid a) (h' : KeysValid b) (hlt : ∀ x ∈ a, ∀ y ∈ b, x < y)
    (hfit : keysSize a + keysSize b ≤ internalUsable) : KeysValid (a ++ b) where
  fits k hk := (List.mem_append.mp hk).elim (h.fits k) (h'.fits k)
  sorted := List.pairwise_append.mpr ⟨h.sorted, h'.sorted, hlt⟩
  size := by rw [keysSize_append]; exact hfit

/-! ## Finding a child -/

/-- `Page::find_child_index`; `children[i]` may be out of range. -/
def findChildIndex (self : Page) (searchKey : Key) : PageResult (Option (Nat × PageId)) :=
  match self.body with
  | .internal keys children =>
    let i := match search keys searchKey with
      | .ok i => i + 1
      | .error i => i
    match children[i]? with
    | some c => .ok (some (i, c))
    | none => .error .panic
  | _ => .ok none

/-- `Page::find_child`. -/
def findChild (self : Page) (searchKey : Key) : PageResult (Option PageId) :=
  (self.findChildIndex searchKey).map (·.map Prod.snd)

/-- `Page::child_at`. -/
def childAt (self : Page) (idx : Nat) : Option PageId :=
  match self.body with
  | .internal _ children => children[idx]?
  | _ => none

/-- `Page::key_at`. -/
def keyAt (self : Page) (idx : Nat) : Option Key :=
  match self.body with
  | .internal keys _ => keys[idx]?
  | _ => none

theorem getElem?_mid {α : Type} {a b : List α} {x : α} {n : Nat} (h : a.length = n) : (a ++ x :: b)[n]? = some x := by
  simp [← h]

/-- The children of a valid page around a cut of its keys. -/
theorem children_gap {a b : List Key} {cs : List PageId} (h : cs.length = (a ++ b).length + 1) :
    ∃ ca c cb, cs = ca ++ c :: cb ∧ ca.length = a.length ∧ cb.length = b.length := by
  rw [List.length_append] at h
  have hd : (cs.drop a.length).length = b.length + 1 := by rw [List.length_drop]; omega
  obtain ⟨c, cb, hc⟩ := List.exists_cons_of_length_eq_add_one hd
  refine ⟨cs.take a.length, c, cb, by rw [← hc, List.take_append_drop], by rw [List.length_take]; omega, ?_⟩
  rw [hc, List.length_cons] at hd
  omega

/-- The child between the keys at most `key` and those above it. -/
theorem findChildIndex_eq {id : PageId} {lsn : PageLsn} {a b : List Key} {ca cb : List PageId} {c : PageId} {key : Key}
    (hs : (a ++ b).Pairwise (· < ·)) (ha : ∀ x ∈ a, x ≤ key) (hb : ∀ x ∈ b, key < x) (hlen : ca.length = a.length) :
    findChildIndex ⟨id, lsn, .internal (a ++ b) (ca ++ c :: cb)⟩ key = .ok (some (a.length, c)) := by
  have hi : (match search (a ++ b) key with | .ok i => i + 1 | .error i => i) = a.length := by
    rcases List.eq_nil_or_concat a with rfl | ⟨a', k, rfl⟩
    · rw [search_gap hs (by simp) hb]
    · rw [List.concat_eq_append] at hs ha ⊢
      have hk := ha k (by simp)
      rcases hk.lt_or_eq with hlt | rfl
      · rw [search_gap hs ?_ hb]
        intro x hx
        rcases List.mem_append.mp hx with hx' | hx'
        · have hs' := (List.pairwise_append.mp (List.pairwise_append.mp hs).1).2.2
          exact (hs' x hx' k (by simp)).trans hlt
        · rw [List.mem_singleton.mp hx']; exact hlt
      · rw [List.append_assoc, List.singleton_append] at hs ⊢
        rw [search_mid hs]
        simp
  simp only [findChildIndex, hi, getElem?_mid hlen]

theorem findChild_eq {id : PageId} {lsn : PageLsn} {a b : List Key} {ca cb : List PageId} {c : PageId} {key : Key}
    (hs : (a ++ b).Pairwise (· < ·)) (ha : ∀ x ∈ a, x ≤ key) (hb : ∀ x ∈ b, key < x) (hlen : ca.length = a.length) :
    findChild ⟨id, lsn, .internal (a ++ b) (ca ++ c :: cb)⟩ key = .ok (some c) := by
  rw [findChild, findChildIndex_eq hs ha hb hlen]
  rfl

/-! ## Inserting a separator -/

/-- `Page::internal_insert`; `children.insert` may be out of range. -/
def internalInsert (self : Page) (separator : Key) (rightChild : PageId) : PageResult Unit × Page :=
  if internalEntrySize separator > maxInternalEntrySize then
    (.err (.schema (.keyTooLong (internalEntrySize separator))), self)
  else
    let canInsert := self.freeSpace.any (· ≥ internalEntrySize separator)
    match self.body with
    | .internal keys children =>
      match search keys separator with
      | .ok _ => (.err .duplicateKey, self)
      | .error i =>
        if !canInsert then (.err .pageFull, self)
        else
          let keys := keys.insertIdx i separator
          if i + 1 ≤ children.length then
            (.ok (), { self with body := .internal keys (children.insertIdx (i + 1) rightChild) })
          else (.error .panic, { self with body := .internal keys children })
    | _ => (.err .wrongPageType, self)

/-- `Page::can_insert_separator`. -/
def canInsertSeparator (self : Page) (key : Key) : Bool :=
  if !self.isInternal then false
  else match self.freeSpace with
    | none => false
    | some s => internalEntrySize key ≤ s

/-- `Page::is_split_safe`. -/
def isSplitSafe (self : Page) : Bool :=
  if !self.isInternal then false
  else match self.freeSpace with
    | none => false
    | some s => maxInternalEntrySize ≤ s

theorem canInsertSeparator_internal {id : PageId} {lsn : PageLsn} {keys : List Key} {children : List PageId} (k : Key)
    (h : keysSize keys ≤ internalUsable) :
    canInsertSeparator ⟨id, lsn, .internal keys children⟩ k =
      decide (keysSize keys + internalEntrySize k ≤ internalUsable) := by
  simp only [canInsertSeparator, isInternal, Bool.not_true, Bool.false_eq_true, if_false,
    freeSpace_internal id lsn children h]
  rw [decide_eq_decide]; omega

theorem isSplitSafe_internal {id : PageId} {lsn : PageLsn} {keys : List Key} {children : List PageId}
    (h : keysSize keys ≤ internalUsable) :
    isSplitSafe ⟨id, lsn, .internal keys children⟩ =
      decide (keysSize keys + maxInternalEntrySize ≤ internalUsable) := by
  have hmax : maxInternalEntrySize ≤ internalUsable := by decide
  simp only [isSplitSafe, isInternal, Bool.not_true, Bool.false_eq_true, if_false, freeSpace_internal id lsn children h]
  rw [decide_eq_decide]; omega

theorem insertIdx_mid {α : Type} {a b : List α} {c x : α} {n : Nat} (h : a.length = n) :
    (a ++ c :: b).insertIdx (n + 1) x = a ++ c :: x :: b := by
  have hsplit : a ++ c :: b = (a ++ [c]) ++ b := by simp
  rw [hsplit, show n + 1 = (a ++ [c]).length by simp [h], insertIdx_append]
  simp

theorem internalInsert_fits {id : PageId} {lsn : PageLsn} {a b : List Key} {ca cb : List PageId} {c right : PageId}
    {sep : Key} (h : KeysValid (a ++ b)) (hsep : KeyFits sep) (ha : ∀ x ∈ a, x < sep) (hb : ∀ x ∈ b, sep < x)
    (hlen : ca.length = a.length) (hfit : keysSize (a ++ b) + internalEntrySize sep ≤ internalUsable) :
    internalInsert ⟨id, lsn, .internal (a ++ b) (ca ++ c :: cb)⟩ sep right =
      (.ok (), ⟨id, lsn, .internal (a ++ sep :: b) (ca ++ c :: right :: cb)⟩) := by
  have hspace : internalUsable - keysSize (a ++ b) ≥ internalEntrySize sep := by omega
  have hpos : a.length + 1 ≤ (ca ++ c :: cb).length := by simp; omega
  simp only [internalInsert, gt_iff_lt, Nat.not_lt.mpr hsep, if_false, search_gap h.sorted ha hb,
    freeSpace_internal id lsn _ h.size, Option.any_some, hspace, decide_true, Bool.not_true, Bool.false_eq_true, hpos,
    if_true, insertIdx_append, insertIdx_mid hlen]

theorem internalInsert_duplicate {id : PageId} {lsn : PageLsn} {keys : List Key} {children : List PageId} {sep : Key}
    (right : PageId) (h : KeysValid keys) (hsep : KeyFits sep) (hk : sep ∈ keys) :
    internalInsert ⟨id, lsn, .internal keys children⟩ sep right =
      (.err .duplicateKey, ⟨id, lsn, .internal keys children⟩) := by
  obtain ⟨a, b, rfl⟩ := List.append_of_mem hk
  simp only [internalInsert, gt_iff_lt, Nat.not_lt.mpr hsep, if_false, search_mid h.sorted]

theorem internalInsert_full {id : PageId} {lsn : PageLsn} {a b : List Key} {cs : List PageId} {sep : Key} (right : PageId)
    (h : KeysValid (a ++ b)) (hsep : KeyFits sep) (ha : ∀ x ∈ a, x < sep) (hb : ∀ x ∈ b, sep < x)
    (hfull : ¬ keysSize (a ++ b) + internalEntrySize sep ≤ internalUsable) :
    internalInsert ⟨id, lsn, .internal (a ++ b) cs⟩ sep right = (.err .pageFull, ⟨id, lsn, .internal (a ++ b) cs⟩) := by
  have hsize := h.size
  have hspace : ¬ internalUsable - keysSize (a ++ b) ≥ internalEntrySize sep := by omega
  simp only [internalInsert, gt_iff_lt, Nat.not_lt.mpr hsep, if_false, search_gap h.sorted ha hb,
    freeSpace_internal id lsn _ h.size, Option.any_some, hspace, decide_false, Bool.not_false, if_true]

/-! ## Removing and replacing a separator -/

/-- `Page::internal_remove`; `children.remove` may be out of range. -/
def internalRemove (self : Page) (key : Key) : PageResult (Option (Key × PageId)) × Page :=
  match self.body with
  | .internal keys children =>
    match search keys key with
    | .ok i =>
      let keys' := keys.eraseIdx i
      match keys[i]?, children[i + 1]? with
      | some k, some c => (.ok (some (k, c)), { self with body := .internal keys' (children.eraseIdx (i + 1)) })
      | _, _ => (.error .panic, { self with body := .internal keys' children })
    | .error _ => (.ok none, self)
  | _ => (.err .wrongPageType, self)

/-- `Page::internal_replace_key`. -/
def internalReplaceKey (self : Page) (old new : Key) : PageResult Unit × Page :=
  let fits := self.freeSpace.any fun free => free + internalEntrySize old ≥ internalEntrySize new
  match self.body with
  | .internal keys children =>
    match search keys old with
    | .error _ => (.err (.missingKey old new), self)
    | .ok idx =>
      let aboveLeft := idx = 0 ∨ keys[idx - 1]?.any (· < new)
      let belowRight := idx + 1 = keys.length ∨ keys[idx + 1]?.any (new < ·)
      if ¬ (aboveLeft ∧ belowRight) then (.err (.keyNotInOrder new), self)
      else if !fits then (.err .pageFull, self)
      else (.ok (), { self with body := .internal (keys.set idx new) children })
  | _ => (.err .wrongPageType, self)

theorem eraseIdx_mid {α : Type} {a b : List α} {c d : α} {n : Nat} (h : a.length = n) :
    (a ++ c :: d :: b).eraseIdx (n + 1) = a ++ c :: b := by
  have hsplit : a ++ c :: d :: b = (a ++ [c]) ++ d :: b := by simp
  rw [hsplit, show n + 1 = (a ++ [c]).length by simp [h], eraseIdx_append]
  simp

theorem internalRemove_found {id : PageId} {lsn : PageLsn} {a b : List Key} {ca cb : List PageId} {c d : PageId}
    {sep : Key} (h : KeysValid (a ++ sep :: b)) (hlen : ca.length = a.length) :
    internalRemove ⟨id, lsn, .internal (a ++ sep :: b) (ca ++ c :: d :: cb)⟩ sep =
      (.ok (some (sep, d)), ⟨id, lsn, .internal (a ++ b) (ca ++ c :: cb)⟩) := by
  have hget : (ca ++ c :: d :: cb)[a.length + 1]? = some d := by simp [← hlen]
  simp only [internalRemove, search_mid h.sorted, getElem?_mid rfl, hget, eraseIdx_append, eraseIdx_mid hlen]

/-- Between its neighbours, a separator can be replaced exactly if the page has the room. -/
theorem internalReplaceKey_eq {id : PageId} {lsn : PageLsn} {a b : List Key} {children : List PageId} {old new : Key}
    (h : KeysValid (a ++ old :: b)) (ha : ∀ x ∈ a, x < new) (hb : ∀ x ∈ b, new < x) :
    internalReplaceKey ⟨id, lsn, .internal (a ++ old :: b) children⟩ old new =
      if keysSize (a ++ new :: b) ≤ internalUsable then (.ok (), ⟨id, lsn, .internal (a ++ new :: b) children⟩)
      else (.err .pageFull, ⟨id, lsn, .internal (a ++ old :: b) children⟩) := by
  have hleft : a.length = 0 ∨ (a ++ old :: b)[a.length - 1]?.any (· < new) = true := by
    rcases List.eq_nil_or_concat a with rfl | ⟨a', k, rfl⟩
    · simp
    · right
      have hk := ha k (by simp)
      simp [hk]
  have hright : a.length + 1 = (a ++ old :: b).length ∨ (a ++ old :: b)[a.length + 1]?.any (new < ·) = true := by
    rcases b with _ | ⟨k, b⟩
    · simp
    · right
      have hk := hb k (by simp)
      simp [hk]
  have hset : (a ++ old :: b).set a.length new = a ++ new :: b := by simp
  have hsize := h.size
  have hfits : decide (internalUsable - keysSize (a ++ old :: b) + internalEntrySize old ≥ internalEntrySize new) =
      decide (keysSize (a ++ new :: b) ≤ internalUsable) := by
    simp only [keysSize_append, keysSize_cons] at hsize ⊢
    rw [decide_eq_decide]; omega
  simp only [internalReplaceKey, search_mid h.sorted, hleft, hright, and_self, not_true, if_false,
    freeSpace_internal id lsn _ h.size, Option.any_some, hfits, hset]
  by_cases hfit : keysSize (a ++ new :: b) ≤ internalUsable
  · simp only [hfit, decide_true, Bool.not_true, Bool.false_eq_true, if_false, if_true]
  · simp only [hfit, decide_false, Bool.not_false, if_true, if_false]

/-- A key outside its neighbours is refused. -/
theorem internalReplaceKey_unordered {id : PageId} {lsn : PageLsn} {a b : List Key} {children : List PageId}
    {old new : Key} (h : KeysValid (a ++ old :: b)) (hne : ¬ ((∀ x ∈ a, x < new) ∧ ∀ x ∈ b, new < x)) :
    internalReplaceKey ⟨id, lsn, .internal (a ++ old :: b) children⟩ old new =
      (.err (.keyNotInOrder new), ⟨id, lsn, .internal (a ++ old :: b) children⟩) := by
  have hsorted := List.pairwise_append.mp h.sorted
  have hcond : ¬ ((a.length = 0 ∨ (a ++ old :: b)[a.length - 1]?.any (· < new) = true) ∧
      (a.length + 1 = (a ++ old :: b).length ∨ (a ++ old :: b)[a.length + 1]?.any (new < ·) = true)) := by
    rintro ⟨hleft, hright⟩
    refine hne ⟨?_, ?_⟩
    · rcases List.eq_nil_or_concat a with rfl | ⟨a, m, rfl⟩
      · simp
      · have hm : m < new := by simpa using hleft
        refine fun x hx => (lt_of_ends hsorted.1 (List.pairwise_singleton _ new) (fun x hx y hy => ?_)) x hx new (by simp)
        cases hy
        rw [List.concat_eq_append, List.getLast?_concat] at hx
        cases hx
        exact hm
    · rcases b with _ | ⟨m, b⟩
      · simp
      · have hm : new < m := by simpa using hright
        refine fun x hx => (lt_of_ends (List.pairwise_singleton _ new) (List.pairwise_cons.mp hsorted.2.1).2
          (fun x hx y hy => ?_)) new (by simp) x hx
        cases hx
        cases hy
        exact hm
  simp only [internalReplaceKey, search_mid h.sorted, hcond, not_false_iff, if_true]

theorem keysValid_replace {a b : List Key} {old new : Key} (h : KeysValid (a ++ old :: b)) (hnew : KeyFits new)
    (ha : ∀ x ∈ a, x < new) (hb : ∀ x ∈ b, new < x) (hfit : keysSize (a ++ new :: b) ≤ internalUsable) :
    KeysValid (a ++ new :: b) := by
  have hab : KeysValid (a ++ b) := h.sublist (List.Sublist.append (List.Sublist.refl a) (List.sublist_cons_self old b))
  refine keysValid_insert hab hnew ha hb ?_
  simp only [keysSize_append, keysSize_cons] at hfit ⊢
  omega

/-! ## Merging -/

/-- `Page::internal_can_merge_with`. -/
def internalCanMergeWith (self right : Page) (separator : Key) : Bool :=
  if !self.isInternal || !right.isInternal then false
  else self.freeSpace.any (· ≥ right.entriesSize + internalEntrySize separator)

/-- `Page::internal_merge_from_right`: the result, this page, and the right page. -/
def internalMergeFromRight (self right : Page) (separator : Key) : PageResult PageId × Page × Page :=
  match self.body, right.body with
  | .internal keys children, .internal rightKeys rightChildren =>
    if !self.internalCanMergeWith right separator then (.err .pageFull, self, right)
    else if rightKeys.head?.any (· ≤ separator) then (.err (.invalidMerge .keys), self, right)
    else if keys.getLast?.any (· ≥ separator) then (.err (.invalidMerge .keys), self, right)
    else
      (.ok right.pageId,
        { self with body := .internal (keys ++ separator :: rightKeys) (children ++ rightChildren) }, right.makeFree)
  | _, _ => (.err .wrongPageType, self, right)

theorem internalCanMergeWith_internal {id id' : PageId} {lsn lsn' : PageLsn} {ks ks' : List Key} {cs cs' : List PageId}
    {sep : Key} (h : keysSize ks ≤ internalUsable) :
    internalCanMergeWith ⟨id, lsn, .internal ks cs⟩ ⟨id', lsn', .internal ks' cs'⟩ sep =
      decide (keysSize ks + internalEntrySize sep + keysSize ks' ≤ internalUsable) := by
  have hpos := internalEntrySize_ge sep
  simp only [internalCanMergeWith, isInternal, Bool.not_true, Bool.or_self, Bool.false_eq_true, if_false,
    freeSpace_internal id lsn cs h, Option.any_some]
  rw [Bool.eq_iff_iff, decide_eq_true_iff, decide_eq_true_iff]
  show keysSize ks' + internalEntrySize sep ≤ internalUsable - keysSize ks ↔ _
  omega

theorem internalMergeFromRight_ok {id id' : PageId} {lsn lsn' : PageLsn} {ks ks' : List Key} {cs cs' : List PageId}
    {sep : Key} (h : KeysValid ks) (hl : ∀ x ∈ ks, x < sep) (hr : ∀ x ∈ ks', sep < x)
    (hfit : keysSize ks + internalEntrySize sep + keysSize ks' ≤ internalUsable) :
    internalMergeFromRight ⟨id, lsn, .internal ks cs⟩ ⟨id', lsn', .internal ks' cs'⟩ sep =
      (.ok id', ⟨id, lsn, .internal (ks ++ sep :: ks') (cs ++ cs')⟩, ⟨id', lsn', .free none⟩) := by
  have hfirst : ks'.head?.any (fun x => decide (x ≤ sep)) = false := by
    rcases hx : ks'.head? with _ | x
    · rfl
    · simpa using hr x (List.mem_of_mem_head? hx)
  have hlast : ks.getLast?.any (fun x => decide (x ≥ sep)) = false := by
    rcases hx : ks.getLast? with _ | x
    · rfl
    · simpa using hl x (List.mem_of_getLast? hx)
  simp only [internalMergeFromRight, internalCanMergeWith_internal h.size, hfit, decide_true, Bool.not_true,
    Bool.false_eq_true, if_false, hfirst, hlast, makeFree]

/-! ## Borrowing -/

/-- `Page::internal_borrow_from_right`. -/
def internalBorrowFromRight (self right : Page) (parentSep : Key) : PageResult Key × Page × Page :=
  match self.body, right.body with
  | .internal keys children, .internal rightKeys rightChildren =>
    match rightKeys with
    | [] => (.err (.invalidBorrow (.emptyBorrow right.pageId)), self, right)
    | borrowKey :: restKeys =>
      if keys.getLast?.any (· ≥ parentSep) then (.err (.invalidBorrow (.keysOutOfOrder parentSep)), self, right)
      else if borrowKey ≤ parentSep then (.err (.invalidBorrow (.keysOutOfOrder parentSep)), self, right)
      else if !self.freeSpace.any (· ≥ internalEntrySize parentSep) then (.err .pageFull, self, right)
      else match rightChildren with
        | [] => (.error .panic, self, { right with body := .internal restKeys [] })
        | stolenChild :: restChildren =>
          (.ok borrowKey, { self with body := .internal (keys ++ [parentSep]) (children ++ [stolenChild]) },
            { right with body := .internal restKeys restChildren })
  | _, _ => (.err .wrongPageType, self, right)

/-- `Page::internal_borrow_from_left`. -/
def internalBorrowFromLeft (self left : Page) (parentSep : Key) : PageResult Key × Page × Page :=
  match self.body, left.body with
  | .internal keys children, .internal leftKeys leftChildren =>
    match leftKeys.getLast? with
    | none => (.err (.invalidBorrow (.emptyBorrow left.pageId)), self, left)
    | some borrowKey =>
      if keys.head?.any (· ≤ parentSep) then (.err (.invalidBorrow (.keysOutOfOrder parentSep)), self, left)
      else if borrowKey ≥ parentSep then (.err (.invalidBorrow (.keysOutOfOrder parentSep)), self, left)
      else if !self.freeSpace.any (· ≥ internalEntrySize parentSep) then (.err .pageFull, self, left)
      else match leftChildren.getLast? with
        | none => (.error .panic, self, { left with body := .internal leftKeys.dropLast [] })
        | some stolenChild =>
          (.ok borrowKey, { self with body := .internal (parentSep :: keys) (stolenChild :: children) },
            { left with body := .internal leftKeys.dropLast leftChildren.dropLast })
  | _, _ => (.err .wrongPageType, self, left)

theorem internalBorrowFromRight_ok {id id' : PageId} {lsn lsn' : PageLsn} {ks rest : List Key} {cs restC : List PageId}
    {k sep : Key} {c : PageId} (h : KeysValid ks) (hl : ∀ x ∈ ks, x < sep) (hk : sep < k)
    (hfit : keysSize ks + internalEntrySize sep ≤ internalUsable) :
    internalBorrowFromRight ⟨id, lsn, .internal ks cs⟩ ⟨id', lsn', .internal (k :: rest) (c :: restC)⟩ sep =
      (.ok k, ⟨id, lsn, .internal (ks ++ [sep]) (cs ++ [c])⟩, ⟨id', lsn', .internal rest restC⟩) := by
  have hlast : ks.getLast?.any (fun x => decide (x ≥ sep)) = false := by
    rcases hx : ks.getLast? with _ | x
    · rfl
    · simpa using hl x (List.mem_of_getLast? hx)
  have hspace : internalUsable - keysSize ks ≥ internalEntrySize sep := by omega
  simp only [internalBorrowFromRight, hlast, Bool.false_eq_true, if_false, not_le.mpr hk,
    freeSpace_internal id lsn cs h.size, Option.any_some, hspace, decide_true, Bool.not_true]

theorem internalBorrowFromLeft_ok {id id' : PageId} {lsn lsn' : PageLsn} {ks rest : List Key} {cs restC : List PageId}
    {k sep : Key} {c : PageId} (h : KeysValid ks) (hr : ∀ x ∈ ks, sep < x) (hk : k < sep)
    (hfit : keysSize ks + internalEntrySize sep ≤ internalUsable) :
    internalBorrowFromLeft ⟨id, lsn, .internal ks cs⟩ ⟨id', lsn', .internal (rest ++ [k]) (restC ++ [c])⟩ sep =
      (.ok k, ⟨id, lsn, .internal (sep :: ks) (c :: cs)⟩, ⟨id', lsn', .internal rest restC⟩) := by
  have hfirst : ks.head?.any (fun x => decide (x ≤ sep)) = false := by
    rcases hx : ks.head? with _ | x
    · rfl
    · simpa using hr x (List.mem_of_mem_head? hx)
  have hspace : internalUsable - keysSize ks ≥ internalEntrySize sep := by omega
  simp only [internalBorrowFromLeft, List.getLast?_concat, hfirst, Bool.false_eq_true, if_false, ge_iff_le,
    not_le.mpr hk, freeSpace_internal id lsn cs h.size, Option.any_some, hspace, decide_true, Bool.not_true,
    List.dropLast_concat]

end Page

end RustDb
