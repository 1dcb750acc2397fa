/-
  RustDb.Page.Intact — what stays true of a page whatever becomes of the call that writes it.

  A page is `Intact` for a table when it and the pages it names are the table's, a leaf or an
  inner page passes `check_invariants`, and its keys satisfy `P`, a predicate of the reader's
  choice. Each page operation leaves intact pages when it is given intact pages, also where it
  fails; what it answers is the table's and within `P` too.
  - `Intact.splitPage`, `Intact.leafInsert`, `Intact.internalInsert`, ...
  - `Intact.mergeFromRight`, `intact_bulkBorrowFromRight`, `intact_bulkBorrowFromLeft`.
-/

import RustDb.Page.Siblings
import RustDb.Page.Separators
import RustDb.Page.Meta

namespace RustDb

open Lib.SortedList

namespace Page

/-- The page is the table's and names pages of the table only; a leaf or an inner page passes the
    check, with keys that satisfy `P`. -/
def Intact (tbl : TableId) (P : Key → Prop) (self : Page) : Prop :=
  self.pageId.tableId = tbl ∧
  match self.body with
  | .leaf records next prev => LeafValid records ∧ (∀ r ∈ records, P r.key) ∧
      (∀ id ∈ next, id.tableId = tbl) ∧ ∀ id ∈ prev, id.tableId = tbl
  | .internal keys children => (children.length = keys.length + 1 ∧ KeysValid keys) ∧ (∀ k ∈ keys, P k) ∧
      ∀ c ∈ children, c.tableId = tbl
  | .metaPage rootId _ freeListHead _ _ => rootId.tableId = tbl ∧ ∀ id ∈ freeListHead, id.tableId = tbl
  | .free next => ∀ id ∈ next, id.tableId = tbl

section
variable {tbl : TableId} {P : Key → Prop} {self : Page} {id : PageId} {lsn : PageLsn} {records : List Row}
  {nx pv : Option PageId} {ks : List Key} {cs : List PageId} {key sep : Key}

theorem Intact.table (h : self.Intact tbl P) : self.pageId.tableId = tbl := h.1

/-- Only a meta page that is intact may fail the check. -/
theorem Intact.passes (h : self.Intact tbl P) (hm : self.isMeta = false) : self.checkInvariants = .ok () := by
  rw [checkInvariants_iff]
  obtain ⟨id, lsn, _ | _ | _ | _⟩ := self
  · exact h.2.1
  · exact h.2.1
  · cases hm
  · trivial

/-! ## Reading -/

/-- Every child that a lookup leads to is a page of the table. -/
theorem Intact.child (h : self.Intact tbl P) {i : Nat} {c : PageId} (hc : self.findChildIndex key = .ok (some (i, c))) :
    c.tableId = tbl := by
  obtain ⟨id, lsn, _ | ⟨keys, children⟩ | _ | _⟩ := self
  · cases hc
  · simp only [findChildIndex] at hc
    split at hc
    · rename_i heq
      cases hc
      exact h.2.2.2 c (List.mem_of_getElem? heq)
    · cases hc
  · cases hc
  · cases hc

theorem Intact.findChild (h : self.Intact tbl P) {c : PageId} (hc : self.findChild key = .ok (some c)) :
    c.tableId = tbl := by
  rw [Page.findChild] at hc
  rcases hi : self.findChildIndex key with e | _ | ⟨i, c'⟩
  · rw [hi] at hc
    cases hc
  · rw [hi] at hc
    cases hc
  · rw [hi] at hc
    cases hc
    exact h.child hi

/-- So are all children, -/
theorem Intact.children (h : self.Intact tbl P) {cs : List PageId} (hc : self.children? = some cs) :
    ∀ c ∈ cs, c.tableId = tbl := by
  obtain ⟨id, lsn, _ | ⟨keys, children⟩ | _ | _⟩ := self
  · cases hc
  · cases hc
    exact h.2.2.2
  · cases hc
  · cases hc

/-- and the one at a place among them. -/
theorem Intact.childAt (h : self.Intact tbl P) {i : Nat} {c : PageId} (hc : self.childAt i = some c) : c.tableId = tbl := by
  obtain ⟨id, lsn, _ | ⟨keys, children⟩ | _ | _⟩ := self
  · cases hc
  · exact h.2.2.2 c (List.mem_of_getElem? hc)
  · cases hc
  · cases hc

/-- A separator of an intact page fits, and satisfies `P`. -/
theorem Intact.keyAt (h : self.Intact tbl P) {i : Nat} (hk : self.keyAt i = some key) : KeyFits key ∧ P key := by
  obtain ⟨id, lsn, _ | ⟨keys, children⟩ | _ | _⟩ := self
  · cases hk
  · have hmem := List.mem_of_getElem? hk
    exact ⟨h.2.1.2.fits key hmem, h.2.2.1 key hmem⟩
  · cases hk
  · cases hk

/-- The leaf to the right of an intact leaf is a page of the table. -/
theorem Intact.next (h : self.Intact tbl P) {nx : Option PageId} (hn : self.next = .ok nx) :
    ∀ id ∈ nx, id.tableId = tbl := by
  obtain ⟨id, lsn, _ | _ | _ | _⟩ := self
  · cases hn
    exact h.2.2.2.1
  · cases hn
  · cases hn
  · cases hn

/-! ## Entries -/

/-- Where the key is there already or the row does not fit, the leaf is as before; otherwise it has the
    row in its place. -/
theorem Intact.leafInsert (h : self.Intact tbl P) (v : ValidatedRow) (hv : P v.row.key) :
    (self.leafInsert v).2.Intact tbl P := by
  obtain ⟨id, lsn, ⟨records, next, prev⟩ | _ | _ | _⟩ := self
  · obtain ⟨hid, hvalid, hP, hlinks⟩ := h
    have hrecords : LeafValid records := hvalid
    by_cases hdup : ∃ r ∈ records, r.key = v.row.key
    · rw [leafInsert_duplicate hrecords hdup]
      exact ⟨hid, hvalid, hP, hlinks⟩
    have hnew : ∀ r ∈ records, r.key ≠ v.row.key := fun r hr he => hdup ⟨r, hr, he⟩
    by_cases hfit : rowsSize records + leafEntrySize v.row ≤ leafUsable
    · obtain ⟨a, b, rfl, ha, hb⟩ := records_gap hrecords hnew
      rw [leafInsert_fits hrecords ha hb hfit]
      refine ⟨hid, leafValid_insert hrecords (rowFits_validated v) ha hb hfit, fun r hr => ?_, hlinks⟩
      rcases List.mem_append.mp hr with hr | hr
      · exact hP r (List.mem_append_left _ hr)
      · rcases List.mem_cons.mp hr with rfl | hr
        · exact hv
        · exact hP r (List.mem_append_right _ hr)
    · rw [leafInsert_full hrecords hnew hfit]
      exact ⟨hid, hvalid, hP, hlinks⟩
  all_goals exact h

/-- A leaf without one of its rows is valid still. -/
theorem Intact.leafRemove (h : self.Intact tbl P) (key : Key) : (self.leafRemove key).2.Intact tbl P := by
  obtain ⟨id, lsn, ⟨records, next, prev⟩ | _ | _ | _⟩ := self
  · obtain ⟨hid, hvalid, hP, hlinks⟩ := h
    have hrecords : LeafValid records := hvalid
    by_cases hfound : ∃ r ∈ records, r.key = key
    · obtain ⟨r, hr, rfl⟩ := hfound
      obtain ⟨a, b, rfl⟩ := List.append_of_mem hr
      rw [leafRemove_found hrecords]
      have hsub : (a ++ b).Sublist (a ++ r :: b) := List.Sublist.append_left (List.sublist_cons_self r b) a
      exact ⟨hid, hrecords.sublist hsub, fun x hx => hP x (hsub.subset hx), hlinks⟩
    · rw [leafRemove_absent hrecords fun r hr he => hfound ⟨r, hr, he⟩]
      exact ⟨hid, hvalid, hP, hlinks⟩
  all_goals exact h

/-- A link to a page of the table. -/
theorem Intact.setPrev (h : self.Intact tbl P) {new : Option PageId} (hnew : ∀ id ∈ new, id.tableId = tbl) :
    (self.setPrev new).2.Intact tbl P := by
  obtain ⟨id, lsn, _ | _ | _ | _⟩ := self
  · exact ⟨h.1, h.2.1, h.2.2.1, h.2.2.2.1, hnew⟩
  all_goals exact h

theorem Intact.setNext (h : self.Intact tbl P) {new : Option PageId} (hnew : ∀ id ∈ new, id.tableId = tbl) :
    (self.setNext new).2.Intact tbl P := by
  obtain ⟨id, lsn, _ | _ | _ | _⟩ := self
  · exact ⟨h.1, h.2.1, h.2.2.1, hnew, h.2.2.2.2⟩
  all_goals exact h

/-- A separator and the child on its right: taken as far as they fit, refused otherwise. -/
theorem Intact.internalInsert (h : self.Intact tbl P) (hsep : P sep) {right : PageId} (hright : right.tableId = tbl) :
    (self.internalInsert sep right).2.Intact tbl P := by
  obtain ⟨id, lsn, _ | ⟨keys, children⟩ | _ | _⟩ := self
  rotate_left
  · obtain ⟨hid, ⟨hlen, hkeys⟩, hP, hchildren⟩ := h
    rcases @internalInsert_cases id lsn _ _ hkeys hlen sep right with
      ⟨e, he⟩ | ⟨a, b, ca, c, cb, rfl, rfl, hca, hcb, hfits, ha, hb, hfit, he⟩
    · rw [he]
      exact ⟨hid, ⟨hlen, hkeys⟩, hP, hchildren⟩
    · rw [he]
      refine ⟨hid, ⟨?_, keysValid_insert hkeys hfits ha hb hfit⟩, fun k hk => ?_, fun x hx => ?_⟩
      · simp only [List.length_append, List.length_cons] at hlen ⊢
        omega
      · simp only [List.mem_append, List.mem_cons] at hk
        rcases hk with hk | rfl | hk
        · exact hP k (List.mem_append_left _ hk)
        · exact hsep
        · exact hP k (List.mem_append_right _ hk)
      · simp only [List.mem_append, List.mem_cons] at hx
        rcases hx with hx | rfl | rfl | hx
        · exact hchildren x (by simp [hx])
        · exact hchildren x (by simp)
        · exact hright
        · exact hchildren x (by simp [hx])
  all_goals
    rw [Page.internalInsert]
    split <;> exact h

/-- A separator goes with the child on its right. -/
theorem Intact.internalRemove (h : self.Intact tbl P) (key : Key) : (self.internalRemove key).2.Intact tbl P := by
  obtain ⟨id, lsn, _ | ⟨keys, children⟩ | _ | _⟩ := self
  rotate_left
  · obtain ⟨hid, ⟨hlen, hkeys⟩, hP, hchildren⟩ := h
    rcases @internalRemove_cases id lsn _ _ hkeys hlen key with he | ⟨a, b, ca, c, d, cb, rfl, rfl, hca, hcb, he⟩
    · rw [he]
      exact ⟨hid, ⟨hlen, hkeys⟩, hP, hchildren⟩
    · rw [he]
      have hsub : (a ++ b).Sublist (a ++ key :: b) := List.Sublist.append_left (List.sublist_cons_self key b) a
      refine ⟨hid, ⟨?_, hkeys.sublist hsub⟩, fun k hk => hP k (hsub.subset hk), fun x hx => hchildren x ?_⟩
      · simp only [List.length_append, List.length_cons] at hlen ⊢
        omega
      · simp only [List.mem_append, List.mem_cons] at hx ⊢
        rcases hx with hx | hx | hx <;> simp [hx]
  all_goals exact h

/-- A key put in a separator's place fits. -/
theorem Intact.internalReplaceKey (h : self.Intact tbl P) (old : Key) (hfits : KeyFits sep) (hsep : P sep) :
    (self.internalReplaceKey old sep).2.Intact tbl P := by
  obtain ⟨id, lsn, _ | ⟨keys, children⟩ | _ | _⟩ := self
  rotate_left
  · obtain ⟨hid, ⟨hlen, hkeys⟩, hP, hchildren⟩ := h
    rcases @internalReplaceKey_cases id lsn _ children hkeys old sep with ⟨e, he⟩ | ⟨a, b, rfl, ha, hb, hfit, he⟩
    · rw [he]
      exact ⟨hid, ⟨hlen, hkeys⟩, hP, hchildren⟩
    · rw [he]
      refine ⟨hid, ⟨by simpa using hlen, keysValid_replace hkeys hfits ha hb hfit⟩, fun k hk => ?_, hchildren⟩
      rcases List.mem_append.mp hk with hk | hk
      · exact hP k (List.mem_append_left _ hk)
      · rcases List.mem_cons.mp hk with rfl | hk
        · exact hsep
        · exact hP k (by simp [hk])
  all_goals exact h

/-! ## Splitting -/

/-- The pages that calls make anew. -/
theorem intact_empty (hid : id.tableId = tbl) : (emptyLeaf id).Intact tbl P :=
  ⟨hid, ⟨by simp, by simp, Nat.zero_le _⟩, by simp, by simp, by simp⟩

theorem intact_free (hid : id.tableId = tbl) : (emptyPage id (.free none)).Intact tbl P :=
  ⟨hid, fun _ hx => by cases hx⟩

theorem Intact.makeFree (h : self.Intact tbl P) : self.makeFree.Intact tbl P := ⟨h.1, fun _ hx => by cases hx⟩

/-- A new root over two pages. -/
theorem intact_newRoot {left right : PageId} (hid : id.tableId = tbl) (hleft : left.tableId = tbl)
    (hright : right.tableId = tbl)
    (hfits : KeyFits sep) (hsep : P sep) : (newRoot id left sep right).Intact tbl P :=
  ⟨hid, ⟨rfl, keysValid_singleton hfits⟩, by simpa using hsep, by simp [hleft, hright]⟩

/-- Both halves of a cut page, and the key between them. -/
theorem Halves.intact {new : PageId} {left right : Page} (hh : Halves new self sep left right) (h : self.Intact tbl P)
    (hnew : new.tableId = tbl) (hl : left.checkInvariants = .ok ()) (hr : right.checkInvariants = .ok ()) :
    left.Intact tbl P ∧ right.Intact tbl P ∧ KeyFits sep ∧ P sep := by
  rw [checkInvariants_iff] at hl hr
  cases hh with
  | leaf ha =>
    obtain ⟨hid, hvalid, hP, hnext, hprev⟩ := h
    refine ⟨⟨hid, hl, fun r hr => hP r (by simp [hr]), by simpa using hnew, hprev⟩,
      ⟨hnew, hr, fun r hr => hP r (List.mem_append_right _ hr), hnext, by simpa using hid⟩, ?_, hP _ (by simp)⟩
    exact (LeafValid.rows hvalid _ (by simp)).key
  | internal ha hb hca hlt hgt =>
    obtain ⟨hid, ⟨hlen, hkeys⟩, hP, hchildren⟩ := h
    exact ⟨⟨hid, hl, fun k hk => hP k (by simp [hk]), fun c hc => hchildren c (by simp [hc])⟩,
      ⟨hnew, hr, fun k hk => hP k (by simp [hk]), fun c hc => hchildren c (by simp [hc])⟩, hkeys.fits _ (by simp),
      hP _ (by simp)⟩

/-- A page that is too small to be cut stays; of one that is cut both halves are intact, and the key
    promoted is one the page had. -/
theorem Intact.splitPage (h : self.Intact tbl P) {new : PageId} (hnew : new.tableId = tbl) :
    (self.splitPage new).2.Intact tbl P ∧ ∀ sep right, (self.splitPage new).1 = .ok (sep, right) →
      right.Intact tbl P ∧ KeyFits sep ∧ P sep := by
  by_cases hs : self.Splittable
  · have hm : self.isMeta = false := by
      obtain ⟨id, lsn, _ | _ | _ | _⟩ := self
      · rfl
      · rfl
      · cases hs
      · rfl
    obtain ⟨sep, right, left, he, hh, hl, hr⟩ := splitPage_halves new (h.passes hm) hs
    obtain ⟨hleft, hright, hsep⟩ := hh.intact h hnew hl hr
    rw [he]
    refine ⟨hleft, fun sep' right' he' => ?_⟩
    cases he'
    exact ⟨hright, hsep⟩
  · obtain ⟨e, he⟩ := splitPage_small new hs
    rw [he]
    exact ⟨h, fun sep right he' => by cases he'⟩

/-! ## Merging and borrowing -/

/-- What two neighbours are left as, and the separator between them. -/
def BothIntact (tbl : TableId) (P : Key → Prop) (x : PageResult Key × Page × Page) : Prop :=
  x.2.1.Intact tbl P ∧ x.2.2.Intact tbl P ∧ ∀ sep, x.1 = .ok sep → KeyFits sep ∧ P sep

section
variable {left right left' right' : Page} {sep' : Key}

/-- A merge that is refused leaves both pages; one that succeeds joins them on the left and frees the
    right one. -/
theorem Merges.intact {x : PageResult PageId × Page × Page} (hm : Merges left right sep x) (hl : left.Intact tbl P)
    (hr : right.Intact tbl P) (hsep : P sep) : x.2.1.Intact tbl P ∧ x.2.2.Intact tbl P := by
  obtain ⟨_ | id, left', right'⟩ := x
  · obtain ⟨rfl, rfl⟩ := hm
    exact ⟨hl, hr⟩
  · obtain ⟨-, rfl, hvalid, hjoined⟩ := hm
    refine ⟨?_, hr.makeFree⟩
    rw [checkInvariants_iff] at hvalid
    cases hjoined with
    | leaf hself hright =>
      obtain ⟨id₁, lsn₁, body₁⟩ := left
      obtain ⟨id₂, lsn₂, body₂⟩ := right
      cases hself
      cases hright
      refine ⟨hl.1, hvalid, fun r hr' => ?_, hr.2.2.2.1, hl.2.2.2.2⟩
      exact (List.mem_append.mp hr').elim (hl.2.2.1 r) (hr.2.2.1 r)
    | internal hself hright =>
      obtain ⟨id₁, lsn₁, body₁⟩ := left
      obtain ⟨id₂, lsn₂, body₂⟩ := right
      cases hself
      cases hright
      refine ⟨hl.1, hvalid, fun k hk => ?_, fun c hc => ?_⟩
      · rcases List.mem_append.mp hk with hk | hk
        · exact hl.2.2.1 k hk
        · rcases List.mem_cons.mp hk with rfl | hk
          · exact hsep
          · exact hr.2.2.1 k hk
      · exact (List.mem_append.mp hc).elim (hl.2.2.2 c) (hr.2.2.2 c)

/-- Whatever the two pages are: two inner pages, two leaves, or a pair that is refused. -/
theorem Intact.mergeFromRight (hl : left.Intact tbl P) (hr : right.Intact tbl P) (hfits : KeyFits sep) (hsep : P sep) :
    (left.mergeFromRight right sep).2.1.Intact tbl P ∧ (left.mergeFromRight right sep).2.2.Intact tbl P := by
  by_cases hm : left.isMeta = true ∨ right.isMeta = true
  · have hsame : ∃ e, left.mergeFromRight right sep = (.error e, left, right) := by
      obtain ⟨id, lsn, _ | _ | _ | _⟩ := left <;> obtain ⟨id', lsn', _ | _ | _ | _⟩ := right <;> first
        | exact ⟨_, rfl⟩
        | simp [isMeta] at hm
    obtain ⟨e, he⟩ := hsame
    rw [he]
    exact ⟨hl, hr⟩
  · rw [not_or, Bool.not_eq_true, Bool.not_eq_true] at hm
    rw [Page.mergeFromRight]
    split
    · exact (internalMergeFromRight_merges (hl.passes hm.1) (hr.passes hm.2) hfits).intact hl hr hsep
    · exact (leafMergeFromRight_merges sep (hl.passes hm.1) (hr.passes hm.2)).intact hl hr hsep

/-- An entry moved between intact pages; the new separator is a key of theirs. -/
theorem Moved.intact (hm : Moved left right sep left' right' sep') (hl : left.Intact tbl P) (hr : right.Intact tbl P)
    (hfits : KeyFits sep) (hsep : P sep) (hl' : left'.checkInvariants = .ok ()) (hr' : right'.checkInvariants = .ok ())
    (hkey : ∀ rs nx pv ds nx' pv', left.body = .leaf rs nx pv → right.body = .leaf ds nx' pv' → ∃ r ∈ rs ++ ds,
    r.key = sep') :
    left'.Intact tbl P ∧ right'.Intact tbl P ∧ KeyFits sep' ∧ P sep' := by
  rw [checkInvariants_iff] at hl' hr'
  obtain ⟨id₁, lsn₁, body₁⟩ := left
  obtain ⟨id₂, lsn₂, body₂⟩ := right
  cases hm with
  | @leaf rs ds rs' ds' nx pv nx' pv' _ hleft hright hrows hlo hhi =>
    cases hleft
    cases hright
    have hall : ∀ r ∈ rs ++ ds, RowFits r ∧ P r.key := fun r hr' =>
      (List.mem_append.mp hr').elim (fun h => ⟨hl.2.1.rows r h, hl.2.2.1 r h⟩) fun h => ⟨hr.2.1.rows r h, hr.2.2.1 r h⟩
    obtain ⟨r, hmem, rfl⟩ := hkey _ _ _ _ _ _ rfl rfl
    refine ⟨⟨hl.1, hl', fun r hr' => (hall r ?_).2, hl.2.2.2⟩, ⟨hr.1, hr', fun r hr' => (hall r ?_).2, hr.2.2.2⟩,
      (hall r hmem).1.key, (hall r hmem).2⟩
    · rw [← hrows]
      exact List.mem_append_left _ hr'
    · rw [← hrows]
      exact List.mem_append_right _ hr'
  | @internal ks ds ks' ds' cs es cs' es' _ hleft hright hkeys hkids hlo hhi =>
    cases hleft
    cases hright
    have hall : ∀ k ∈ ks ++ sep :: ds, KeyFits k ∧ P k := by
      intro k hk
      rcases List.mem_append.mp hk with hk | hk
      · exact ⟨hl.2.1.2.fits k hk, hl.2.2.1 k hk⟩
      · rcases List.mem_cons.mp hk with rfl | hk
        · exact ⟨hfits, hsep⟩
        · exact ⟨hr.2.1.2.fits k hk, hr.2.2.1 k hk⟩
    have hids : ∀ c ∈ cs ++ es, c.tableId = tbl := fun c hc => (List.mem_append.mp hc).elim (hl.2.2.2 c) (hr.2.2.2 c)
    rw [← hkeys] at hall
    rw [← hkids] at hids
    exact ⟨⟨hl.1, hl', fun k hk => (hall k (by simp [hk])).2, fun c hc => hids c (by simp [hc])⟩,
      ⟨hr.1, hr', fun k hk => (hall k (by simp [hk])).2, fun c hc => hids c (by simp [hc])⟩, hall sep' (by simp)⟩

/-- The new separator between two leaves is the first key on the right. -/
theorem leafBorrowFromRight_sep (h : (left.leafBorrowFromRight right).1 = .ok sep) :
    ∃ rs nx pv, right.body = .leaf rs nx pv ∧ ∃ r ∈ rs, r.key? = some sep := by
  unfold leafBorrowFromRight at h
  repeat' split at h
  all_goals try cases h
  all_goals
    rename_i hhead
    obtain ⟨r, hr, hkey⟩ := Option.bind_eq_some_iff.mp hhead
    exact ⟨_, _, _, by assumption, r, List.mem_cons_of_mem _ (List.mem_of_mem_head? hr), hkey⟩

theorem leafBorrowFromLeft_sep (h : (right.leafBorrowFromLeft left).1 = .ok sep) :
    ∃ rs nx pv, left.body = .leaf rs nx pv ∧ ∃ r ∈ rs, r.key? = some sep := by
  unfold leafBorrowFromLeft at h
  repeat' split at h
  all_goals try cases h
  all_goals exact ⟨_, _, _, by assumption, _, List.mem_of_mem_getLast? (by assumption), by assumption⟩

/-- A borrow moves one entry, or leaves both pages. -/
theorem Borrows.intact {res : PageResult Key} (hb : Borrows left right sep left' right' res) (hl : left.Intact tbl P)
    (hr : right.Intact tbl P) (hfits : KeyFits sep) (hsep : P sep)
    (hkey : ∀ sep', res = .ok sep' → ∀ rs nx pv ds nx' pv', left.body = .leaf rs nx pv → right.body = .leaf ds nx' pv' →
      ∃ r ∈ rs ++ ds, r.key = sep') :
    left'.Intact tbl P ∧ right'.Intact tbl P ∧ ∀ sep', res = .ok sep' → KeyFits sep' ∧ P sep' := by
  rcases res with e | sep'
  · obtain ⟨rfl, rfl⟩ := hb
    exact ⟨hl, hr, fun sep' he => by cases he⟩
  · obtain ⟨hl', hr', hm⟩ := hb
    obtain ⟨hli, hri, hsep'⟩ := hm.intact hl hr hfits hsep hl' hr' (hkey sep' rfl)
    refine ⟨hli, hri, fun x hx => ?_⟩
    cases hx
    exact hsep'

theorem not_isInternal_leaf {rs : List Row} (h : self.isInternal = true) : self.body ≠ .leaf rs nx pv := by
  intro hb
  rw [isInternal, hb] at h
  cases h

/-- One entry from the right, -/
theorem intact_borrowFromRight (hl : left.Intact tbl P) (hr : right.Intact tbl P) (hfits : KeyFits sep) (hsep : P sep) :
    BothIntact tbl P (left.borrowFromRight right sep) := by
  by_cases hm : left.isMeta = true ∨ right.isMeta = true
  · have hsame : ∃ e, left.borrowFromRight right sep = (.error e, left, right) := by
      obtain ⟨id, lsn, _ | _ | _ | _⟩ := left <;> obtain ⟨id', lsn', _ | _ | _ | _⟩ := right <;> first
        | exact ⟨_, rfl⟩
        | simp [isMeta] at hm
    obtain ⟨e, he⟩ := hsame
    rw [he]
    exact ⟨hl, hr, fun sep' h => by cases h⟩
  rw [not_or, Bool.not_eq_true, Bool.not_eq_true] at hm
  rw [borrowFromRight]
  split
  · rename_i hinternal
    exact (internalBorrowFromRight_borrows (hl.passes hm.1) (hr.passes hm.2) hfits).intact hl hr hfits hsep
      fun _ _ _ _ _ _ _ _ hbody => absurd hbody (not_isInternal_leaf hinternal)
  · refine (leafBorrowFromRight_borrows sep (hl.passes hm.1) (hr.passes hm.2)).intact hl hr hfits hsep ?_
    intro sep' he rs nx pv ds nx' pv' hleft hright
    obtain ⟨ds', nx'', pv'', hright', r, hmem, hk⟩ := leafBorrowFromRight_sep he
    cases hright.symm.trans hright'
    exact ⟨r, List.mem_append_right _ hmem, Row.key_of_key? hk⟩

/-- or from the left. -/
theorem intact_borrowFromLeft (hr : right.Intact tbl P) (hl : left.Intact tbl P) (hfits : KeyFits sep) (hsep : P sep) :
    BothIntact tbl P (right.borrowFromLeft left sep) := by
  by_cases hm : right.isMeta = true ∨ left.isMeta = true
  · have hsame : ∃ e, right.borrowFromLeft left sep = (.error e, right, left) := by
      obtain ⟨id, lsn, _ | _ | _ | _⟩ := right <;> obtain ⟨id', lsn', _ | _ | _ | _⟩ := left <;> first
        | exact ⟨_, rfl⟩
        | simp [isMeta] at hm
    obtain ⟨e, he⟩ := hsame
    rw [he]
    exact ⟨hr, hl, fun sep' h => by cases h⟩
  rw [not_or, Bool.not_eq_true, Bool.not_eq_true] at hm
  rw [borrowFromLeft]
  split
  · rename_i hinternal
    obtain ⟨hli, hri, hsep'⟩ := (internalBorrowFromLeft_borrows (hr.passes hm.1) (hl.passes hm.2) hfits).intact hl hr
        hfits hsep
      fun _ _ _ _ _ _ _ _ _ hbody => absurd hbody (not_isInternal_leaf hinternal)
    exact ⟨hri, hli, hsep'⟩
  · obtain ⟨hli, hri, hsep'⟩ := (leafBorrowFromLeft_borrows sep (hr.passes hm.1) (hl.passes hm.2)).intact hl hr hfits
      hsep (by
      intro sep' he rs nx pv ds nx' pv' hleft hright
      obtain ⟨ds', nx'', pv'', hleft', r, hmem, hk⟩ := leafBorrowFromLeft_sep he
      cases hleft.symm.trans hleft'
      exact ⟨r, List.mem_append_left _ hmem, Row.key_of_key? hk⟩)
    exact ⟨hri, hli, hsep'⟩

/-! ### Bulk borrows -/

variable {borrow : Page → Page → Key → PageResult Key × Page × Page} {donor : Page}

/-- One entry after the other while the page is underfull: induction on the rounds, each from intact
    pages to intact pages. -/
theorem intact_bulkBorrowLoop
    (hborrow : ∀ self donor sep, self.Intact tbl P → donor.Intact tbl P → KeyFits sep → P sep →
    BothIntact tbl P (borrow self donor sep)) :
    ∀ (fuel : Nat) (self donor : Page) (sep : Key), self.Intact tbl P → donor.Intact tbl P → KeyFits sep → P sep →
      BothIntact tbl P (bulkBorrowLoop borrow fuel self donor sep)
  | 0, self, donor, sep, hs, hd, _, _ => ⟨hs, hd, fun _ h => by cases h⟩
  | fuel + 1, self, donor, sep, hs, hd, hfits, hsep => by
    have hstop : ∀ s d : Page, s.Intact tbl P → d.Intact tbl P → BothIntact tbl P (.ok sep, s, d) := fun s d h h' =>
      ⟨h, h', fun x hx => by cases hx; exact ⟨hfits, hsep⟩⟩
    by_cases hlt : self.entriesSize < donor.entriesSize
    · have hmove := hborrow self donor sep hs hd hfits hsep
      simp only [bulkBorrowLoop, if_pos hlt]
      split
      · rename_i newSep s d he
        rw [he] at hmove
        obtain ⟨hs', hd', hnew⟩ := hmove
        obtain ⟨hf, hp⟩ := hnew newSep rfl
        exact intact_bulkBorrowLoop hborrow fuel s d newSep hs' hd' hf hp
      · rename_i s d he
        rw [he] at hmove
        exact hstop s d hmove.1 hmove.2.1
      · rename_i s d he
        rw [he] at hmove
        exact hstop s d hmove.1 hmove.2.1
      · rename_i e s d _ _ he
        rw [he] at hmove
        exact ⟨hmove.1, hmove.2.1, fun _ h => by cases h⟩
    · simp only [bulkBorrowLoop, if_neg hlt]
      exact hstop self donor hs hd

/-- The bulk borrow of either side. -/
theorem intact_bulkBorrow
    (hborrow : ∀ self donor sep, self.Intact tbl P → donor.Intact tbl P → KeyFits sep → P sep →
    BothIntact tbl P (borrow self donor sep))
    (hs : self.Intact tbl P) (hd : donor.Intact tbl P) (hfits : KeyFits sep) (hsep : P sep) :
    BothIntact tbl P (bulkBorrow borrow self donor sep) := by
  have hmove := hborrow self donor sep hs hd hfits hsep
  unfold bulkBorrow
  split
  · rename_i newSep s d he
    rw [he] at hmove
    obtain ⟨hs', hd', hnew⟩ := hmove
    obtain ⟨hf, hp⟩ := hnew newSep rfl
    exact intact_bulkBorrowLoop hborrow _ s d newSep hs' hd' hf hp
  · rename_i e s d he
    rw [he] at hmove
    exact ⟨hmove.1, hmove.2.1, fun _ h => by cases h⟩

theorem intact_bulkBorrowFromRight (hl : left.Intact tbl P) (hr : right.Intact tbl P) (hfits : KeyFits sep) (hsep : P sep) :
    BothIntact tbl P (left.bulkBorrowFromRight right sep) :=
  intact_bulkBorrow (fun _ _ _ => intact_borrowFromRight) hl hr hfits hsep

theorem intact_bulkBorrowFromLeft (hr : right.Intact tbl P) (hl : left.Intact tbl P) (hfits : KeyFits sep) (hsep : P sep) :
    BothIntact tbl P (right.bulkBorrowFromLeft left sep) :=
  intact_bulkBorrow (fun _ _ _ => intact_borrowFromLeft) hr hl hfits hsep

end

/-! ## The meta page and free pages -/

/-- The meta page names pages of its table. -/
theorem Intact.metaRoot (h : self.Intact tbl P) {root : PageId} (hr : self.metaGetRootId = .ok root) :
    root.tableId = tbl := by
  obtain ⟨id, lsn, _ | _ | _ | _⟩ := self
  · cases hr
  · cases hr
  · cases hr
    exact h.2.1
  · cases hr

theorem Intact.metaHead (h : self.Intact tbl P) {head : Option PageId} (hr : self.metaGetFreeListHead = .ok head) :
    ∀ id ∈ head, id.tableId = tbl := by
  obtain ⟨id, lsn, _ | _ | _ | _⟩ := self
  · cases hr
  · cases hr
  · cases hr
    exact h.2.2
  · cases hr

/-- The meta page is changed in one field at a time. -/
theorem Intact.metaSetRootId (h : self.Intact tbl P) {root : PageId} (hroot : root.tableId = tbl) :
    (self.metaSetRootId root).2.Intact tbl P := by
  obtain ⟨id, lsn, _ | _ | _ | _⟩ := self
  · exact h
  · exact h
  · exact ⟨h.1, hroot, h.2.2⟩
  · exact h

theorem Intact.metaSetPageCount (h : self.Intact tbl P) (n : UInt32) : (self.metaSetPageCount n).2.Intact tbl P := by
  obtain ⟨id, lsn, _ | _ | _ | _⟩ := self <;> exact h

theorem Intact.metaSetFreeListHead (h : self.Intact tbl P) {head : Option PageId} (hhead : ∀ id ∈ head, id.tableId = tbl) :
    (self.metaSetFreeListHead head).2.Intact tbl P := by
  obtain ⟨id, lsn, _ | _ | _ | _⟩ := self
  · exact h
  · exact h
  · exact ⟨h.1, h.2.1, hhead⟩
  · exact h

/-- The number of the new page is the file's next; the table is the meta page's. -/
theorem Intact.metaBumpPageCount (h : self.Intact tbl P) : self.metaBumpPageCount.2.Intact tbl P ∧
    ∀ id, self.metaBumpPageCount.1 = .ok id → id.tableId = tbl := by
  obtain ⟨id, lsn, _ | _ | _ | _⟩ := self
  · exact ⟨h, fun _ he => by cases he⟩
  · exact ⟨h, fun _ he => by cases he⟩
  · refine ⟨h, fun id' he => ?_⟩
    cases he
    exact h.2.1
  · exact ⟨h, fun _ he => by cases he⟩

/-- The page after the head becomes the head. -/
theorem Intact.freeListPop {freed : Page} (h : self.Intact tbl P) (hf : freed.Intact tbl P) :
    (self.freeListPop freed).2.Intact tbl P := by
  obtain ⟨id, lsn, _ | _ | ⟨root, count, head, schema, name⟩ | _⟩ := self <;>
    obtain ⟨id', lsn', _ | _ | _ | nx⟩ := freed <;> try exact h
  rw [Page.freeListPop]
  dsimp only
  split
  · exact h
  · exact ⟨h.1, h.2.1, hf.2⟩

/-- The page becomes the head and leads to the old one, also where it was the head's successor already. -/
theorem Intact.freeListPush {freed : Page} (h : self.Intact tbl P) (hf : freed.Intact tbl P) :
    (self.freeListPush freed).2.1.Intact tbl P ∧ (self.freeListPush freed).2.2.Intact tbl P := by
  obtain ⟨id, lsn, _ | _ | ⟨root, count, head, schema, name⟩ | _⟩ := self <;>
    obtain ⟨id', lsn', _ | _ | _ | nx⟩ := freed <;> try exact ⟨h, hf⟩
  rw [Page.freeListPush]
  dsimp only
  repeat' split
  all_goals try exact ⟨h, hf⟩
  exact ⟨⟨h.1, h.2.1, by simpa using hf.1⟩, hf.1, h.2.2⟩

end

end Page

end RustDb
