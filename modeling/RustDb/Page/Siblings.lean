/-
  RustDb.Page.Siblings — what splitting, merging and borrowing make of two neighbouring
  pages, stated for any valid pages.

  - `splitPage_spec`: a split keeps everything in order in two valid halves, and what a
    page refused for lack of space fits in the half it belongs to.
  - `siblings_rebalance`: of two siblings one of which is underfull, either they merge or
    the bulk borrow succeeds and leaves both with entries.
  - `mergeAndBorrow_spec`: every merge and every borrow either changes nothing or keeps
    the sequence of entries and leaves valid pages.
  - `splitPage_inverse`: a merge undoes a split, and a borrow undoes the opposite borrow.
-/

import RustDb.Page.Borrow

namespace RustDb

open Lib.SortedList

namespace Page

/-! ## Splitting -/

/-- The page `split_page` accepts. -/
def Splittable (self : Page) : Prop :=
  match self.body with
  | .leaf records _ _ => 2 ≤ records.length
  | .internal keys _ => 3 ≤ keys.length
  | _ => False

/-- A leaf with two rows, and what it splits into. -/
def twoRows : Page := ⟨⟨⟨1⟩, 1⟩, none, .leaf [⟨[.integer 1]⟩, ⟨[.integer 2]⟩] none none⟩
def firstRow : Page := ⟨⟨⟨1⟩, 1⟩, none, .leaf [⟨[.integer 1]⟩] (some ⟨⟨1⟩, 2⟩) none⟩
def secondRow : Page := ⟨⟨⟨1⟩, 2⟩, none, .leaf [⟨[.integer 2]⟩] none (some ⟨⟨1⟩, 1⟩)⟩

/-- A page, the key promoted out of it, and its two halves in order. -/
inductive Halves (new : PageId) : Page → Key → Page → Page → Prop
  | leaf {id : PageId} {lsn : PageLsn} {a b : List Row} {r : Row} {nx pv : Option PageId} (ha : a ≠ []) :
      Halves new ⟨id, lsn, .leaf (a ++ r :: b) nx pv⟩ r.key ⟨id, lsn, .leaf a (some new) pv⟩
        ⟨new, none, .leaf (r :: b) nx (some id)⟩
  | internal {id : PageId} {lsn : PageLsn} {a b : List Key} {k : Key} {ca cb : List PageId} (ha : a ≠ []) (hb : b ≠ [])
      (hca : ca.length = a.length + 1) (hlt : ∀ x ∈ a, x < k) (hgt : ∀ x ∈ b, k < x) :
      Halves new ⟨id, lsn, .internal (a ++ k :: b) (ca ++ cb)⟩ k ⟨id, lsn, .internal a ca⟩
        ⟨new, none, .internal b cb⟩

/-- An internal page promotes one of its keys. -/
theorem Halves.sep_mem {new id : PageId} {lsn : PageLsn} {ks : List Key} {cs : List PageId} {sep : Key} {left right : Page}
    (h : Halves new ⟨id, lsn, .internal ks cs⟩ sep left right) : sep ∈ ks := by
  cases h
  simp

theorem splitPage_halves {self : Page} (new : PageId) (hv : self.checkInvariants = .ok ()) (hs : self.Splittable) :
    ∃ sep right left, self.splitPage new = (.ok (sep, right), left) ∧ Halves new self sep left right ∧
      left.checkInvariants = .ok () ∧ right.checkInvariants = .ok () := by
  rw [checkInvariants_iff] at hv
  simp only [checkInvariants_iff]
  obtain ⟨id, lsn, rs | ⟨ks, cs⟩ | _ | _⟩ := self
  · obtain ⟨a, r, b, rfl, ha, -, -, hsplit⟩ := (@splitPage_leafCut id new lsn _ _ _) hv hs
    exact ⟨_, _, _, hsplit, .leaf ha, hv.sublist (List.sublist_append_left _ _), hv.sublist (List.sublist_append_right _ _)⟩
  · obtain ⟨hlen, hv⟩ := hv
    obtain ⟨a, k, b, ca, cb, rfl, rfl, hca, ha, hb, -, -, hsplit⟩ := (@splitPage_internalCut id new lsn _ _) hv hlen hs
    have hsorted := List.pairwise_append.mp hv.sorted
    have hcb : cb.length = b.length + 1 := by
      simp only [List.length_append, List.length_cons] at hlen; omega
    refine ⟨_, _, _, hsplit, .internal ha hb hca (fun x hx => hsorted.2.2 x hx k List.mem_cons_self)
      (List.pairwise_cons.mp hsorted.2.1).1, ⟨hca, hv.sublist (List.sublist_append_left _ _)⟩, hcb, ?_⟩
    exact hv.sublist ((List.sublist_cons_self k b).trans (List.sublist_append_right _ _))
  · cases hs
  · cases hs

theorem splitPage_small {self : Page} (new : PageId) (hs : ¬ self.Splittable) :
    ∃ e, self.splitPage new = (.error e, self) := by
  obtain ⟨id, lsn, rs | ⟨ks, cs⟩ | _ | _⟩ := self
  · exact ⟨.err (.tooSmallToSplit id), if_pos (Nat.not_le.mp hs)⟩
  · exact ⟨.err (.tooSmallToSplit id), if_pos (Nat.not_le.mp hs)⟩
  · exact ⟨_, rfl⟩
  · exact ⟨_, rfl⟩

theorem splitPage_ok {self left right : Page} {new : PageId} {sep : Key} (hv : self.checkInvariants = .ok ())
    (h : self.splitPage new = (.ok (sep, right), left)) : Halves new self sep left right ∧
      left.checkInvariants = .ok () ∧ right.checkInvariants = .ok () := by
  by_cases hs : self.Splittable
  · obtain ⟨sep', right', left', he, hh⟩ := splitPage_halves new hv hs
    rw [he] at h
    cases h
    exact hh
  · obtain ⟨e, he⟩ := splitPage_small new hs
    rw [he] at h
    cases h

/-- A leaf that cannot take a row of admitted size splits, and both halves can. -/
theorem splitPage_roomForRow {self : Page} (new : PageId) (hv : self.checkInvariants = .ok ()) (hleaf : self.isLeaf = true)
    {row : Row} (hrow : leafEntrySize row ≤ maxLeafEntrySize) (hfull : self.canInsert row = false) :
    self.Splittable ∧ ∃ sep right left, self.splitPage new = (.ok (sep, right), left) ∧
      left.canInsert row = true ∧ right.canInsert row = true := by
  rw [checkInvariants_iff] at hv
  obtain ⟨id, lsn, ⟨rs, nx, pv⟩ | _ | _ | _⟩ := self
  · rw [canInsert_leaf row hv.size, decide_eq_false_iff_not] at hfull
    have hmax : leafUsable < rowsSize rs + maxLeafEntrySize := by omega
    obtain ⟨a, r, b, rfl, -, ha, hb, hsplit⟩ := (@splitPage_leaf id new lsn _ nx pv) hv hmax
    refine ⟨two_le_length_of_full hv hmax, _, _, _, hsplit, ?_, ?_⟩
    · rw [canInsert_leaf row (by omega), decide_eq_true_iff]; omega
    · rw [canInsert_leaf row (by omega), decide_eq_true_iff]; omega
  all_goals cases hleaf

/-- A leaf that refuses a validated row for lack of space splits, and the half that the row
    belongs to takes it. -/
theorem splitPage_takesRow {self : Page} (new : PageId) (hv : self.checkInvariants = .ok ()) {v : ValidatedRow}
    (hfull : (self.leafInsert v).1 = .err .pageFull) :
    self.Splittable ∧ ∃ sep right left, self.splitPage new = (.ok (sep, right), left) ∧
      ((if v.row.key < sep then left else right).leafInsert v).1 = .ok () := by
  rw [checkInvariants_iff] at hv
  obtain ⟨id, lsn, ⟨rs, nx, pv⟩ | _ | _ | _⟩ := self
  · by_cases hk : ∃ r ∈ rs, r.key = v.row.key
    · rw [leafInsert_duplicate hv hk] at hfull
      cases hfull
    · have habs : ∀ r ∈ rs, r.key ≠ v.row.key := fun r hr he => hk ⟨r, hr, he⟩
      obtain ⟨a, b, rfl, ha, hb⟩ := records_gap hv habs
      by_cases hfit : rowsSize (a ++ b) + leafEntrySize v.row ≤ leafUsable
      · rw [leafInsert_fits hv ha hb hfit] at hfull
        cases hfull
      · have hrow := v.leafSize
        have hmax : leafUsable < rowsSize (a ++ b) + maxLeafEntrySize := by omega
        obtain ⟨sep, v₁, v₂, lp, r₂, -, -, -, -, -, -, -, ⟨r, hr, hrk⟩, -, hsplit, hins⟩ :=
          (@splitPage_leafInsert id new lsn _ _ nx pv _) hv ha hb hfit
        have hne : v.row.key ≠ sep := fun he => habs r hr (hrk.trans he.symm)
        refine ⟨two_le_length_of_full hv hmax, sep, _, lp, hsplit, ?_⟩
        rcases hins with ⟨hle, hins, -⟩ | ⟨hgt, -, hins⟩
        · rw [if_pos (lt_of_le_of_ne hle hne), hins]
        · rw [if_neg fun hlt => hgt hlt.le, hins]
  all_goals cases hfull

/-- An internal page that refuses a separator for lack of space splits, and the half that
    the separator belongs to takes it. -/
theorem splitPage_takesSeparator {self : Page} (new : PageId) (hv : self.checkInvariants = .ok ()) {key : Key}
    {child : PageId} (hfull : (self.internalInsert key child).1 = .err .pageFull) :
    self.Splittable ∧ ∃ sep right left, self.splitPage new = (.ok (sep, right), left) ∧
      ((if key < sep then left else right).internalInsert key child).1 = .ok () := by
  have hvalid := hv
  rw [checkInvariants_iff] at hv
  obtain ⟨id, lsn, _ | ⟨ks, cs⟩ | _ | _⟩ := self
  rotate_left
  · obtain ⟨hlen, hv⟩ := hv
    have hfits : KeyFits key := by
      by_contra hbig
      rw [internalInsert, if_pos (Nat.not_le.mp hbig)] at hfull
      cases hfull
    by_cases hk : key ∈ ks
    · rw [internalInsert_duplicate child hv hfits hk] at hfull
      cases hfull
    · obtain ⟨a, b, rfl, ha, hb⟩ := sorted_gap hv.sorted hk
      obtain ⟨ca, c, cb, rfl, hca, hcb⟩ := children_gap hlen
      by_cases hfit : keysSize (a ++ b) + internalEntrySize key ≤ internalUsable
      · rw [internalInsert_fits hv hfits ha hb hca hfit] at hfull
        cases hfull
      · have hmax : internalUsable < keysSize (a ++ b) + maxInternalEntrySize := by
          have hle : internalEntrySize key ≤ maxInternalEntrySize := hfits
          omega
        obtain ⟨k, v₁, v₂, c₁, c₂, lp, rp, hkeys, -, -, -, -, -, -, -, -, -, hsplit, hins⟩ :=
          (@splitPage_insert id new child lsn _ _ _ _ c _) hv hca hcb hfits ha hb hfit
        have hne : key ≠ k := by
          rintro rfl
          exact hk (splitPage_ok hvalid hsplit).1.sep_mem
        refine ⟨three_le_length_of_full hv hmax, k, rp, lp, hsplit, ?_⟩
        rcases hins with ⟨hlt, hins, -⟩ | ⟨hge, hins, -⟩
        · rw [if_neg (lt_asymm hlt), hins]
        · rw [if_pos (lt_of_le_of_ne (not_lt.mp hge) hne), hins]
  all_goals
    rw [internalInsert] at hfull
    split at hfull <;> cases hfull

/-- `split_page` on a valid page: the halves keep everything in order, and what the page had
    no room for fits in the half it belongs to. -/
theorem splitPage_spec {self : Page} (new : PageId) (hv : self.checkInvariants = .ok ()) :
    (self.Splittable → ∃ sep right left, self.splitPage new = (.ok (sep, right), left) ∧
      Halves new self sep left right ∧ left.checkInvariants = .ok () ∧ right.checkInvariants = .ok ()) ∧
    (self.isLeaf = true → ∀ row, leafEntrySize row ≤ maxLeafEntrySize → self.canInsert row = false →
      self.Splittable ∧ ∃ sep right left, self.splitPage new = (.ok (sep, right), left) ∧
        left.canInsert row = true ∧ right.canInsert row = true) ∧
    (∀ v, (self.leafInsert v).1 = .err .pageFull →
      self.Splittable ∧ ∃ sep right left, self.splitPage new = (.ok (sep, right), left) ∧
        ((if v.row.key < sep then left else right).leafInsert v).1 = .ok ()) ∧
    (∀ key child, (self.internalInsert key child).1 = .err .pageFull →
      self.Splittable ∧ ∃ sep right left, self.splitPage new = (.ok (sep, right), left) ∧
        ((if key < sep then left else right).internalInsert key child).1 = .ok ()) :=
  ⟨splitPage_halves new hv, fun hleaf _ hrow hfull => splitPage_roomForRow new hv hleaf hrow hfull,
    fun _ hfull => splitPage_takesRow new hv hfull, fun _ _ hfull => splitPage_takesSeparator new hv hfull⟩

theorem splitPage_spec_twoRows : ∃ sep right left, twoRows.splitPage ⟨⟨1⟩, 2⟩ = (.ok (sep, right), left) ∧
    Halves ⟨⟨1⟩, 2⟩ twoRows sep left right := by
  obtain ⟨sep, right, left, h, hh, -⟩ := (splitPage_spec ⟨⟨1⟩, 2⟩ (show twoRows.checkInvariants = .ok () by decide)).1
    (show 2 ≤ 2 by decide)
  exact ⟨sep, right, left, h, hh⟩

/-! ## Two neighbours and their separator -/

/-- Two pages side by side under one parent, with the separator between them. -/
inductive Siblings : Page → Key → Page → Prop
  | leaf {id id' : PageId} {lsn lsn' : PageLsn} {rs rs' : List Row} {pv nx' : Option PageId} {sep : Key}
      (hlt : ∀ x ∈ rs, ∀ y ∈ rs', x.key < y.key) :
      Siblings ⟨id, lsn, .leaf rs (some id') pv⟩ sep ⟨id', lsn', .leaf rs' nx' (some id)⟩
  | internal {id id' : PageId} {lsn lsn' : PageLsn} {ks ks' : List Key} {cs cs' : List PageId} {sep : Key}
      (hsep : KeyFits sep) (hl : ∀ x ∈ ks, x < sep) (hr : ∀ x ∈ ks', sep < x) :
      Siblings ⟨id, lsn, .internal ks cs⟩ sep ⟨id', lsn', .internal ks' cs'⟩

/-- Entries went from one page to the other, through the separator if they are keys: the
    sequence of entries is the same, and the new separator divides the two pages. -/
inductive Moved (left right : Page) (sep : Key) : Page → Page → Key → Prop
  | leaf {rs ds rs' ds' : List Row} {nx pv nx' pv' : Option PageId} {sep' : Key} (hleft : left.body = .leaf rs nx pv)
      (hright : right.body = .leaf ds nx' pv') (hrows : rs' ++ ds' = rs ++ ds) (hl : ∀ r ∈ rs', r.key < sep')
      (hr : ∀ r ∈ ds', sep' ≤ r.key) :
      Moved left right sep { left with body := .leaf rs' nx pv } { right with body := .leaf ds' nx' pv' } sep'
  | internal {ks ds ks' ds' : List Key} {cs es cs' es' : List PageId} {sep' : Key} (hleft : left.body = .internal ks cs)
      (hright : right.body = .internal ds es) (hkeys : ks' ++ sep' :: ds' = ks ++ sep :: ds) (hkids : cs' ++ es' = cs ++ es)
      (hl : ∀ k ∈ ks', k < sep') (hr : ∀ k ∈ ds', sep' < k) :
      Moved left right sep { left with body := .internal ks' cs' } { right with body := .internal ds' es' } sep'

/-- Where a leaf's row sequence is cut, the key after the cut divides it. -/
theorem divides_rows {a b : List Row} {d : Row} (hs : ((a ++ d :: b).map Row.key).Pairwise (· < ·)) :
    (∀ x ∈ a, x.key < d.key) ∧ ∀ x ∈ d :: b, d.key ≤ x.key := by
  rw [List.map_append, List.map_cons, List.pairwise_append, List.pairwise_cons] at hs
  refine ⟨fun x hx => hs.2.2 _ (List.mem_map_of_mem hx) _ List.mem_cons_self, fun x hx => ?_⟩
  rcases List.mem_cons.mp hx with rfl | hx
  · exact le_rfl
  · exact (hs.2.1.1 _ (List.mem_map_of_mem hx)).le

theorem divides_keys {a b : List Key} {k : Key} (hs : (a ++ k :: b).Pairwise (· < ·)) :
    (∀ x ∈ a, x < k) ∧ ∀ x ∈ b, k < x :=
  ⟨fun x hx => (List.pairwise_append.mp hs).2.2 x hx k List.mem_cons_self,
    (List.pairwise_cons.mp (List.pairwise_append.mp hs).2.1).1⟩

theorem pairwise_rows {rs ds : List Row} (h : LeafValid rs) (h' : LeafValid ds) (hlt : ∀ x ∈ rs, ∀ y ∈ ds, x.key < y.key) :
    ((rs ++ ds).map Row.key).Pairwise (· < ·) := by
  rw [List.map_append, List.pairwise_append]
  exact ⟨h.sorted, h'.sorted, by simpa using hlt⟩

theorem pairwise_keys {ks ds : List Key} {sep : Key} (h : KeysValid ks) (h' : KeysValid ds) (hl : ∀ x ∈ ks, x < sep)
    (hr : ∀ x ∈ ds, sep < x) : (ks ++ sep :: ds).Pairwise (· < ·) := by
  refine List.pairwise_append.mpr ⟨h.sorted, List.pairwise_cons.mpr ⟨hr, h'.sorted⟩, fun x hx y hy => ?_⟩
  rcases List.mem_cons.mp hy with rfl | hy
  · exact hl x hx
  · exact (hl x hx).trans (hr y hy)

/-! ## Rebalancing -/

/-- Both pages are valid, have entries, and share what they held. -/
structure Rebalanced (left right : Page) (sep : Key) (left' right' : Page) (sep' : Key) : Prop where
  leftValid : left'.checkInvariants = .ok ()
  rightValid : right'.checkInvariants = .ok ()
  leftItems : 1 ≤ left'.numItems
  rightItems : 1 ≤ right'.numItems
  moved : Moved left right sep left' right' sep'

theorem mergeFromRight_siblings {left right : Page} {sep : Key} (hl : left.checkInvariants = .ok ())
    (hr : right.checkInvariants = .ok ()) (hs : Siblings left sep right) (hcan : left.canMergeWith right sep = true) :
    ∃ left' right', left.mergeFromRight right sep = (.ok right.pageId, left', right') := by
  rw [checkInvariants_iff] at hl hr
  cases hs with
  | leaf hlt =>
    rw [canMergeWith, isInternal, if_neg Bool.false_ne_true, leafCanMergeWith_leaf hl.size, decide_eq_true_iff] at hcan
    exact ⟨_, _, leafMergeFromRight_ok hl hr hlt hcan⟩
  | internal hsep hlt hgt =>
    rw [canMergeWith, isInternal, if_pos rfl, internalCanMergeWith_internal hl.2.size, decide_eq_true_iff] at hcan
    exact ⟨_, _, internalMergeFromRight_ok hl.2 hlt hgt hcan⟩

theorem bulkBorrowFromRight_siblings {left right : Page} {sep : Key} (hl : left.checkInvariants = .ok ())
    (hr : right.checkInvariants = .ok ()) (hs : Siblings left sep right) (hcan : left.canMergeWith right sep = false)
    (hunder : left.isUnderfull = true) : ∃ sep' left' right',
    left.bulkBorrowFromRight right sep = (.ok sep', left', right') ∧
      Rebalanced left right sep left' right' sep' := by
  rw [checkInvariants_iff] at hl hr
  cases hs with
  | @leaf id id' lsn lsn' rs rs' pv nx' sep hlt =>
    rw [canMergeWith, isInternal, if_neg Bool.false_ne_true, leafCanMergeWith_leaf hl.size, decide_eq_false_iff_not] at hcan
    obtain ⟨a, d, b, rfl, ha, -, hva, he⟩ :=
      bulkBorrowFromRight_leaf hl hr hlt (of_decide_eq_true hunder) (Nat.not_le.mp hcan)
    have hsorted := pairwise_rows hl hr hlt
    rw [← List.append_assoc] at hsorted
    obtain ⟨hlo, hhi⟩ := divides_rows hsorted
    refine ⟨_, _, _, he, (checkInvariants_iff _).mpr hva,
      (checkInvariants_iff _).mpr (hr.sublist (List.sublist_append_right a _)), ?_, ?_, ?_⟩
    · have := List.length_pos_of_ne_nil ha
      simp only [numItems, List.length_append]; omega
    · simp only [numItems, List.length_cons]; omega
    · exact .leaf rfl rfl (List.append_assoc _ _ _) hlo hhi
  | @internal id id' lsn lsn' ks ks' cs cs' sep hsep hlt hgt =>
    rw [canMergeWith, isInternal, if_pos rfl, internalCanMergeWith_internal hl.2.size, decide_eq_false_iff_not] at hcan
    obtain ⟨a, k, b, ca, cb, hkeys, rfl, hlen, ha, hb, -, hva, he⟩ :=
      bulkBorrowFromRight_internal hl.2 hr.2 hsep hlt hgt hr.1 (of_decide_eq_true hunder) (Nat.not_le.mp hcan)
    have hsorted := pairwise_keys hl.2 hr.2 hlt hgt
    rw [hkeys, ← List.append_assoc] at hsorted
    obtain ⟨hlo, hhi⟩ := divides_keys hsorted
    have hvb : KeysValid b := by
      rcases a with _ | ⟨x, a⟩
      · exact absurd rfl ha
      · rw [List.cons_append, List.cons.injEq] at hkeys
        rw [hkeys.2] at hr
        exact hr.2.sublist ((List.sublist_cons_self k b).trans (List.sublist_append_right a _))
    have hlens := congrArg List.length hkeys
    have hkids := hr.1
    simp only [List.length_cons, List.length_append] at hlens hkids
    refine ⟨_, _, _, he, (checkInvariants_iff _).mpr ⟨?_, hva⟩, (checkInvariants_iff _).mpr ⟨?_, hvb⟩, ?_, ?_, ?_⟩
    · simp only [List.length_append, hl.1]; omega
    · omega
    · have := List.length_pos_of_ne_nil ha
      simp only [numItems, List.length_append]; omega
    · exact List.length_pos_of_ne_nil hb
    · exact .internal rfl rfl (by rw [List.append_assoc, ← hkeys]) (List.append_assoc _ _ _) hlo hhi

theorem bulkBorrowFromLeft_siblings {left right : Page} {sep : Key} (hl : left.checkInvariants = .ok ())
    (hr : right.checkInvariants = .ok ()) (hs : Siblings left sep right) (hcan : left.canMergeWith right sep = false)
    (hunder : right.isUnderfull = true) : ∃ sep' left' right',
    right.bulkBorrowFromLeft left sep = (.ok sep', right', left') ∧
      Rebalanced left right sep left' right' sep' := by
  rw [checkInvariants_iff] at hl hr
  cases hs with
  | @leaf id id' lsn lsn' rs rs' pv nx' sep hlt =>
    rw [canMergeWith, isInternal, if_neg Bool.false_ne_true, leafCanMergeWith_leaf hl.size, decide_eq_false_iff_not] at hcan
    obtain ⟨b, d, a, rfl, hb, -, hva, he⟩ :=
      bulkBorrowFromLeft_leaf hr hl hlt (of_decide_eq_true hunder) (by omega)
    have hsorted := pairwise_rows hl hr hlt
    rw [List.append_assoc, List.cons_append] at hsorted
    obtain ⟨hlo, hhi⟩ := divides_rows hsorted
    refine ⟨_, _, _, he, (checkInvariants_iff _).mpr (hl.sublist (List.sublist_append_left b _)),
      (checkInvariants_iff _).mpr hva, ?_, ?_, ?_⟩
    · exact List.length_pos_of_ne_nil hb
    · simp only [numItems, List.length_append, List.length_cons]; omega
    · exact .leaf rfl rfl (by simp) hlo hhi
  | @internal id id' lsn lsn' ks ks' cs cs' sep hsep hlt hgt =>
    rw [canMergeWith, isInternal, if_pos rfl, internalCanMergeWith_internal hl.2.size, decide_eq_false_iff_not] at hcan
    obtain ⟨b, k, a, cb, ca, hkeys, rfl, hlen, ha, hb, -, hva, he⟩ :=
      bulkBorrowFromLeft_internal hr.2 hl.2 hsep hlt hgt hl.1 (of_decide_eq_true hunder) (by omega)
    have hall : ks ++ sep :: ks' = b ++ k :: (a ++ ks') := by
      rw [← List.singleton_append, ← List.append_assoc, hkeys]; simp
    have hsorted := pairwise_keys hl.2 hr.2 hlt hgt
    rw [hall] at hsorted
    obtain ⟨hlo, hhi⟩ := divides_keys hsorted
    have hvb : KeysValid b := by
      rcases List.eq_nil_or_concat a with rfl | ⟨m, x, rfl⟩
      · exact absurd rfl ha
      · rw [List.concat_eq_append, ← List.cons_append, ← List.append_assoc] at hkeys
        rw [(List.append_inj' hkeys rfl).1] at hl
        exact hl.2.sublist (List.sublist_append_left b _)
    have hlens := congrArg List.length hkeys
    have hkids := hl.1
    simp only [List.length_cons, List.length_append, List.length_nil] at hlens hkids
    refine ⟨_, _, _, he, (checkInvariants_iff _).mpr ⟨?_, hvb⟩, (checkInvariants_iff _).mpr ⟨?_, hva⟩, ?_, ?_, ?_⟩
    · omega
    · simp only [List.length_append, hr.1]; omega
    · exact List.length_pos_of_ne_nil hb
    · have := List.length_pos_of_ne_nil ha
      simp only [numItems, List.length_append]; omega
    · exact .internal rfl rfl hall.symm (by simp) hlo hhi

theorem canMergeWith_underfull {left right : Page} {sep : Key} (hl : left.checkInvariants = .ok ())
    (hs : Siblings left sep right) (hleft : left.isUnderfull = true) (hright : right.isUnderfull = true) :
    left.canMergeWith right sep = true := by
  rw [checkInvariants_iff] at hl
  cases hs with
  | leaf hlt =>
    have h1 := of_decide_eq_true hleft
    have h2 := of_decide_eq_true hright
    rw [canMergeWith, isInternal, if_neg Bool.false_ne_true, leafCanMergeWith_leaf hl.size, decide_eq_true_iff]
    simp only [entriesSize, const_leafUnderfullBytes] at h1 h2
    have hus : leafUsable = 4055 := rfl
    omega
  | @internal _ _ _ _ _ _ _ _ sep hsep hlt hgt =>
    have h1 := of_decide_eq_true hleft
    have h2 := of_decide_eq_true hright
    rw [canMergeWith, isInternal, if_pos rfl, internalCanMergeWith_internal hl.2.size, decide_eq_true_iff]
    simp only [entriesSize, const_internalUnderfullBytes] at h1 h2
    have hus : internalUsable = 4065 := rfl
    have hmax : internalEntrySize sep ≤ 1016 := hsep
    omega

/-- What `rebalance` relies on: an underfull page and its sibling merge, or the bulk borrow
    succeeds and leaves two valid pages with entries. -/
theorem siblings_rebalance {left right : Page} {sep : Key} (hl : left.checkInvariants = .ok ())
    (hr : right.checkInvariants = .ok ()) (hs : Siblings left sep right) :
    (left.canMergeWith right sep = true → ∃ left' right',
    left.mergeFromRight right sep = (.ok right.pageId, left', right')) ∧
    (left.canMergeWith right sep = false → left.isUnderfull = true →
      ∃ sep' left' right', left.bulkBorrowFromRight right sep = (.ok sep', left', right') ∧
        Rebalanced left right sep left' right' sep') ∧
    (left.canMergeWith right sep = false → right.isUnderfull = true →
      ∃ sep' left' right', right.bulkBorrowFromLeft left sep = (.ok sep', right', left') ∧
        Rebalanced left right sep left' right' sep') ∧
    (left.isUnderfull = true → right.isUnderfull = true → left.canMergeWith right sep = true) :=
  ⟨mergeFromRight_siblings hl hr hs, bulkBorrowFromRight_siblings hl hr hs, bulkBorrowFromLeft_siblings hl hr hs,
    canMergeWith_underfull hl hs⟩

/-- A leaf of rows of the greatest size. -/
def fullLeaf (pageNum : UInt32) (next prev : Option PageId) (ns : List Int64) : Page :=
  ⟨⟨⟨1⟩, pageNum⟩, none, .leaf (ns.map fullRow) next prev⟩

theorem rowsSize_fullRows (ns : List Int64) : rowsSize (ns.map fullRow) = ns.length * maxLeafEntrySize := by
  induction ns with
  | nil => rfl
  | cons n ns ih => rw [List.map_cons, rowsSize_cons, size_fullRow, ih, List.length_cons, Nat.succ_mul, Nat.add_comm]

theorem fullLeaf_valid {pageNum : UInt32} {next prev : Option PageId} {ns : List Int64} (hsorted : ns.Pairwise (· < ·))
    (hfew : ns.length ≤ 4) : (fullLeaf pageNum next prev ns).checkInvariants = .ok () := by
  refine (checkInvariants_iff _).mpr ⟨fun r hr => ?_, ?_, ?_⟩
  · obtain ⟨n, -, rfl⟩ := List.mem_map.mp hr
    exact fullRow_fits n
  · rw [List.map_map, List.pairwise_map]
    exact hsorted.imp fun h => Key.integer_lt_integer.mpr h
  · rw [rowsSize_fullRows, const_maxLeafEntrySize]
    have husable : leafUsable = 4055 := rfl
    omega

/-- A page of one row beside a full one, on either side. -/
theorem siblings_rebalance_rows : (∃ left' right',
    firstRow.mergeFromRight secondRow (.integer 2) = (.ok ⟨⟨1⟩, 2⟩, left', right')) ∧
    (∃ sep' left' right', (fullLeaf 1 (some ⟨⟨1⟩, 2⟩) none [1]).bulkBorrowFromRight
      (fullLeaf 2 none (some ⟨⟨1⟩, 1⟩) [2, 3, 4, 5]) (.integer 2) = (.ok sep', left', right')) ∧
    ∃ sep' left' right', (fullLeaf 2 none (some ⟨⟨1⟩, 1⟩) [5]).bulkBorrowFromLeft
      (fullLeaf 1 (some ⟨⟨1⟩, 2⟩) none [1, 2, 3, 4]) (.integer 5) = (.ok sep', right', left') := by
  have h := siblings_rebalance (show firstRow.checkInvariants = .ok () by decide)
    (show secondRow.checkInvariants = .ok () by decide)
    (show Siblings firstRow (.integer 2) secondRow from .leaf (by decide))
  have hbeside {ns ms : List Int64} {sep : Key} (hsorted : (ns ++ ms).Pairwise (· < ·)) :
      Siblings (fullLeaf 1 (some ⟨⟨1⟩, 2⟩) none ns) sep (fullLeaf 2 none (some ⟨⟨1⟩, 1⟩) ms) := by
    refine .leaf fun x hx y hy => ?_
    obtain ⟨n, hn, rfl⟩ := List.mem_map.mp hx
    obtain ⟨m, hm, rfl⟩ := List.mem_map.mp hy
    exact Key.integer_lt_integer.mpr ((List.pairwise_append.mp hsorted).2.2 n hn m hm)
  have hunder (pageNum : UInt32) (next prev : Option PageId) (n : Int64) :
      (fullLeaf pageNum next prev [n]).isUnderfull = true := by
    show decide (rowsSize ([n].map fullRow) < leafUnderfullBytes) = true
    rw [rowsSize_fullRows, const_maxLeafEntrySize, const_leafUnderfullBytes, decide_eq_true_iff, List.length_singleton]
    omega
  have hfull {ns ms : List Int64} {sep : Key} (hns : ns.length ≤ 4) (hlen : ns.length + ms.length = 5) :
      (fullLeaf 1 (some ⟨⟨1⟩, 2⟩) none ns).canMergeWith (fullLeaf 2 none (some ⟨⟨1⟩, 1⟩) ms) sep = false := by
    have husable : leafUsable = 4055 := rfl
    have hsize : rowsSize (ns.map fullRow) ≤ leafUsable := by
      rw [rowsSize_fullRows, const_maxLeafEntrySize]
      omega
    rw [fullLeaf, fullLeaf, canMergeWith, isInternal, if_neg Bool.false_ne_true, leafCanMergeWith_leaf hsize,
      decide_eq_false_iff_not, rowsSize_fullRows, rowsSize_fullRows, const_maxLeafEntrySize]
    omega
  have hright := siblings_rebalance (fullLeaf_valid (by decide) (by decide)) (fullLeaf_valid (by decide) (by decide))
    (@hbeside [1] [2, 3, 4, 5] (.integer 2) (by decide))
  have hleft := siblings_rebalance (fullLeaf_valid (by decide) (by decide)) (fullLeaf_valid (by decide) (by decide))
    (@hbeside [1, 2, 3, 4] [5] (.integer 5) (by decide))
  refine ⟨h.1 (h.2.2.2 (by decide) (by decide)), ?_, ?_⟩
  · obtain ⟨sep', left', right', hb, -⟩ := hright.2.1 (hfull (by decide) rfl) (hunder _ _ _ _)
    exact ⟨sep', left', right', hb⟩
  · obtain ⟨sep', left', right', hb, -⟩ := hleft.2.2.1 (hfull (by decide) rfl) (hunder _ _ _ _)
    exact ⟨sep', left', right', hb⟩

/-! ## Merges and borrows, whatever they answer -/

/-- The page a merge leaves. -/
inductive Joined (self right : Page) (sep : Key) : Page → Prop
  | leaf {rs ds : List Row} {nx pv nx' pv' : Option PageId} (hself : self.body = .leaf rs nx pv)
      (hright : right.body = .leaf ds nx' pv') : Joined self right sep { self with body := .leaf (rs ++ ds) nx' pv }
  | internal {ks ds : List Key} {cs es : List PageId} (hself : self.body = .internal ks cs)
      (hright : right.body = .internal ds es) :
      Joined self right sep { self with body := .internal (ks ++ sep :: ds) (cs ++ es) }

/-- A merge that fails changes nothing; one that succeeds hands back the right page freed. -/
def Merges (self right : Page) (sep : Key) : PageResult PageId × Page × Page → Prop
  | (.error _, self', right') => self' = self ∧ right' = right
  | (.ok id, self', right') => id = right.pageId ∧ right' = { right with body := .free none } ∧
      self'.checkInvariants = .ok () ∧ Joined self right sep self'

/-- A borrow that fails changes nothing; one that succeeds moves an entry. -/
def Borrows (left right : Page) (sep : Key) (left' right' : Page) : PageResult Key → Prop
  | .error _ => left' = left ∧ right' = right
  | .ok sep' => left'.checkInvariants = .ok () ∧ right'.checkInvariants = .ok () ∧ Moved left right sep left' right' sep'

theorem freeSpace_any_leaf {id : PageId} {lsn : PageLsn} {rs : List Row} {nx pv : Option PageId}
    (hrs : rowsSize rs ≤ leafUsable)
    (n : Nat) : ((freeSpace ⟨id, lsn, .leaf rs nx pv⟩).any fun fs => decide (fs ≥ n)) =
      decide (rowsSize rs + n ≤ leafUsable) := by
  rw [freeSpace_leaf id lsn nx pv hrs, Option.any_some, decide_eq_decide]
  omega

theorem freeSpace_any_internal {id : PageId} {lsn : PageLsn} {ks : List Key} {cs : List PageId}
    (hks : keysSize ks ≤ internalUsable) (n : Nat) :
    ((freeSpace ⟨id, lsn, .internal ks cs⟩).any fun fs => decide (fs ≥ n)) =
      decide (keysSize ks + n ≤ internalUsable) := by
  rw [freeSpace_internal id lsn cs hks, Option.any_some, decide_eq_decide]
  omega

theorem rows_lt_of_ends {rs ds : List Row} (h : LeafValid rs) (h' : LeafValid ds)
    (hends : ∀ x, rs.getLast? = some x → ∀ y, ds.head? = some y → x.key < y.key) : ∀ x ∈ rs, ∀ y ∈ ds, x.key < y.key := by
  have hkeys := lt_of_ends h.sorted h'.sorted (by
    intro x hx y hy
    rw [List.getLast?_map, Option.map_eq_some_iff] at hx
    rw [List.head?_map, Option.map_eq_some_iff] at hy
    obtain ⟨x, hx, rfl⟩ := hx
    obtain ⟨y, hy, rfl⟩ := hy
    exact hends x hx y hy)
  exact fun x hx y hy => hkeys _ (List.mem_map_of_mem hx) _ (List.mem_map_of_mem hy)

theorem keys_above {ks : List Key} {k : Key} (hs : ks.Pairwise (· < ·))
    (h : ¬ (ks.head?.any fun x => decide (x ≤ k)) = true) : ∀ x ∈ ks, k < x := by
  refine fun x hx => lt_of_ends (List.pairwise_singleton _ k) hs (fun x hx y hy => ?_) k (by simp) x hx
  cases hx
  simpa [hy] using h

theorem keys_below {ks : List Key} {k : Key} (hs : ks.Pairwise (· < ·))
    (h : ¬ (ks.getLast?.any fun x => decide (x ≥ k)) = true) : ∀ x ∈ ks, x < k := by
  refine fun x hx => lt_of_ends hs (List.pairwise_singleton _ k) (fun x hx y hy => ?_) x hx k (by simp)
  cases hy
  simpa [hx] using h

theorem leafMergeFromRight_merges {self right : Page} (sep : Key) (hs : self.checkInvariants = .ok ())
    (hr : right.checkInvariants = .ok ()) : Merges self right sep (self.leafMergeFromRight right) := by
  rw [checkInvariants_iff] at hs hr
  obtain ⟨id, lsn, ⟨rs, nx, pv⟩ | _ | _ | _⟩ := self
  · obtain ⟨id', lsn', ⟨ds, nx', pv'⟩ | _ | _ | _⟩ := right
    · have hsize : LeafValid rs := hs
      by_cases hcan : rowsSize rs + rowsSize ds ≤ leafUsable
      · by_cases hnext : nx = some id'
        · subst hnext
          by_cases hlt : ∀ x ∈ rs, ∀ y ∈ ds, x.key < y.key
          · rw [leafMergeFromRight_ok hs hr hlt hcan]
            exact ⟨rfl, rfl, (checkInvariants_iff _).mpr (leafValid_append hs hr hlt hcan), .leaf rfl rfl⟩
          · -- the ends that meet are out of order
            obtain ⟨x, hx, y, hy, hxy⟩ : ∃ x, rs.getLast? = some x ∧ ∃ y, ds.head? = some y ∧ y.key ≤ x.key := by
              by_contra hno
              refine hlt (rows_lt_of_ends hs hr fun x hx y hy => ?_)
              by_contra hxy
              exact hno ⟨x, hx, y, hy, not_lt.mp hxy⟩
            have hkx := Row.key?_eq (hsize.rows x (List.mem_of_getLast? hx)).hasKey
            have hky := Row.key?_eq ((show LeafValid ds from hr).rows y (List.mem_of_mem_head? hy)).hasKey
            simp only [leafMergeFromRight, leafCanMergeWith_leaf hsize.size, hcan, decide_true, Bool.not_true,
              Bool.false_eq_true, if_false, if_true, hx, hy, hkx, hky, hxy]
            exact ⟨rfl, rfl⟩
        · simp only [leafMergeFromRight, leafCanMergeWith_leaf hsize.size, hcan, decide_true, Bool.not_true,
            Bool.false_eq_true, if_false, hnext]
          exact ⟨rfl, rfl⟩
      · simp only [leafMergeFromRight, leafCanMergeWith_leaf hsize.size, hcan, decide_false, Bool.not_false, if_true]
        exact ⟨rfl, rfl⟩
    all_goals exact ⟨rfl, rfl⟩
  all_goals exact ⟨rfl, rfl⟩

theorem internalMergeFromRight_merges {self right : Page} {sep : Key} (hs : self.checkInvariants = .ok ())
    (hr : right.checkInvariants = .ok ()) (hsep : KeyFits sep) :
    Merges self right sep (self.internalMergeFromRight right sep) := by
  rw [checkInvariants_iff] at hs hr
  obtain ⟨id, lsn, _ | ⟨ks, cs⟩ | _ | _⟩ := self
  rotate_left
  · obtain ⟨id', lsn', _ | ⟨ds, es⟩ | _ | _⟩ := right
    rotate_left
    · obtain ⟨hcs, hks⟩ := hs
      obtain ⟨hes, hds⟩ := hr
      simp only [internalMergeFromRight, internalCanMergeWith_internal hks.size]
      by_cases hcan : keysSize ks + internalEntrySize sep + keysSize ds ≤ internalUsable
      · simp only [hcan, decide_true, Bool.not_true, Bool.false_eq_true, if_false]
        split
        · exact ⟨rfl, rfl⟩
        split
        · exact ⟨rfl, rfl⟩
        rename_i hfirst hlast
        have hr := keys_above hds.sorted hfirst
        have hl := keys_below hks.sorted hlast
        have hpos := internalEntrySize_ge sep
        refine ⟨rfl, rfl, (checkInvariants_iff _).mpr ⟨?_, ?_⟩, .internal rfl rfl⟩
        · simp only [List.length_append, List.length_cons, hcs, hes]; omega
        · have hjoin := keysValid_append hks hds (fun x hx y hy => (hl x hx).trans (hr y hy)) (by omega)
          exact keysValid_insert hjoin hsep hl hr (by rw [keysSize_append]; omega)
      · simp only [hcan, decide_false, Bool.not_false, if_true]
        exact ⟨rfl, rfl⟩
    all_goals exact ⟨rfl, rfl⟩
  all_goals exact ⟨rfl, rfl⟩

/-- How the receiver's last row compares with a key above all its rows, or not. -/
theorem lastCmp_lt {rs : List Row} {k : Key} (h : LeafValid rs) (hlt : ∀ x ∈ rs, x.key < k) :
    rs.getLast?.map (fun x => x.cmpKey k) = none ∨ rs.getLast?.map (fun x => x.cmpKey k) = some (some .lt) := by
  rcases hx : rs.getLast? with _ | x
  · exact Or.inl rfl
  · have hmem := List.mem_of_getLast? hx
    right
    rw [Option.map_some, Row.cmpKey_eq, Row.key?_eq (h.rows x hmem).hasKey, Option.map_some,
      compare_lt_iff_lt.mpr (hlt x hmem)]

theorem lastCmp_ge {rs : List Row} {k : Key} (h : LeafValid rs) (hlt : ¬ ∀ x ∈ rs, x.key < k) :
    rs.getLast?.map (fun x => x.cmpKey k) = some (some .eq) ∨ rs.getLast?.map (fun x => x.cmpKey k) = some (some .gt) := by
  rcases List.eq_nil_or_concat rs with rfl | ⟨a, x, rfl⟩
  · exact absurd (by simp) hlt
  rw [List.concat_eq_append] at h hlt ⊢
  have hkx : k ≤ x.key := by
    by_contra hxk
    refine hlt fun y hy => ?_
    rcases List.mem_append.mp hy with hy | hy
    · exact ((divides_rows (b := []) h.sorted).1 y hy).trans (not_le.mp hxk)
    · rw [List.mem_singleton.mp hy]; exact not_le.mp hxk
  rw [List.getLast?_concat, Option.map_some, Row.cmpKey_eq, Row.key?_eq (h.rows x (by simp)).hasKey, Option.map_some]
  rcases hkx.eq_or_lt with rfl | hlt
  · left; rw [compare_eq_iff_eq.mpr rfl]
  · right; rw [compare_gt_iff_gt.mpr hlt]

/-- The same for the first row and a key below all rows. -/
theorem firstCmp_gt {rs : List Row} {k : Key} (h : LeafValid rs) (hlt : ∀ x ∈ rs, k < x.key) :
    rs.head?.map (fun x => x.cmpKey k) = none ∨ rs.head?.map (fun x => x.cmpKey k) = some (some .gt) := by
  rcases hx : rs.head? with _ | x
  · exact Or.inl rfl
  · have hmem := List.mem_of_mem_head? hx
    right
    rw [Option.map_some, Row.cmpKey_eq, Row.key?_eq (h.rows x hmem).hasKey, Option.map_some,
      compare_gt_iff_gt.mpr (hlt x hmem)]

theorem firstCmp_le {rs : List Row} {k : Key} (h : LeafValid rs) (hlt : ¬ ∀ x ∈ rs, k < x.key) :
    rs.head?.map (fun x => x.cmpKey k) = some (some .eq) ∨ rs.head?.map (fun x => x.cmpKey k) = some (some .lt) := by
  rcases rs with _ | ⟨x, b⟩
  · exact absurd (by simp) hlt
  have hxk : x.key ≤ k := by
    by_contra hkx
    refine hlt fun y hy => (not_le.mp hkx).trans_le ?_
    exact (divides_rows (a := []) h.sorted).2 y hy
  rw [List.head?_cons, Option.map_some, Row.cmpKey_eq, Row.key?_eq (h.rows x (by simp)).hasKey, Option.map_some]
  rcases hxk.eq_or_lt with rfl | hlt
  · left; rw [compare_eq_iff_eq.mpr rfl]
  · right; rw [compare_lt_iff_lt.mpr hlt]

section
variable {id id' : PageId} {lsn lsn' : PageLsn} {rs rest : List Row} {nx pv nx' pv' : Option PageId}

/-- `leaf_borrow_from_right` from a valid right neighbour that has a row. -/
theorem leafBorrowFromRight_cons {r : Row} (h : LeafValid rs) (h' : LeafValid (r :: rest)) :
    (∃ e, leafBorrowFromRight ⟨id, lsn, .leaf rs (some id') pv⟩ ⟨id', lsn', .leaf (r :: rest) nx' pv'⟩ =
      (.error e, ⟨id, lsn, .leaf rs (some id') pv⟩, ⟨id', lsn', .leaf (r :: rest) nx' pv'⟩)) ∨
    ((∀ x ∈ rs, x.key < r.key) ∧ rest ≠ [] ∧ rowsSize rs + leafEntrySize r ≤ leafUsable) := by
  have hrk := Row.key?_eq (h'.rows r (by simp)).hasKey
  by_cases hlt : ∀ x ∈ rs, x.key < r.key
  · rcases rest with _ | ⟨r2, rest⟩
    · left
      refine ⟨.err (.invalidBorrow (.emptyBorrow id')), ?_⟩
      rcases lastCmp_lt h hlt with hlast | hlast <;>
        simp only [leafBorrowFromRight, ne_eq, not_true, if_false, hrk, hlast, List.length_singleton, Nat.one_lt_ofNat,
          if_true]
    · by_cases hfit : rowsSize rs + leafEntrySize r ≤ leafUsable
      · exact Or.inr ⟨hlt, List.cons_ne_nil _ _, hfit⟩
      · left
        refine ⟨.err .pageFull, ?_⟩
        have hlen : ¬ (r :: r2 :: rest).length < 2 := by simp
        rcases lastCmp_lt h hlt with hlast | hlast <;>
          simp only [leafBorrowFromRight, ne_eq, not_true, if_false, hrk, hlast, hlen, freeSpace_any_leaf h.size, hfit,
            decide_false, Bool.not_false, if_true]
  · left
    refine ⟨.err (.invalidBorrow (.keysOutOfOrder r.key)), ?_⟩
    rcases lastCmp_ge h hlt with hlast | hlast <;>
      simp only [leafBorrowFromRight, ne_eq, not_true, if_false, hrk, hlast]

/-- `leaf_borrow_from_left` from a valid left neighbour that has a row. -/
theorem leafBorrowFromLeft_concat {r : Row} (h : LeafValid rs) (h' : LeafValid (rest ++ [r])) :
    (∃ e, leafBorrowFromLeft ⟨id, lsn, .leaf rs nx (some id')⟩ ⟨id', lsn', .leaf (rest ++ [r]) nx' pv'⟩ =
      (.error e, ⟨id, lsn, .leaf rs nx (some id')⟩, ⟨id', lsn', .leaf (rest ++ [r]) nx' pv'⟩)) ∨
    ((∀ x ∈ rs, r.key < x.key) ∧ rest ≠ [] ∧ rowsSize rs + leafEntrySize r ≤ leafUsable) := by
  have hrk := Row.key?_eq (h'.rows r (by simp)).hasKey
  by_cases hlt : ∀ x ∈ rs, r.key < x.key
  · rcases rest with _ | ⟨r2, rest⟩
    · left
      refine ⟨.err (.invalidBorrow (.emptyBorrow id')), ?_⟩
      rcases firstCmp_gt h hlt with hfirst | hfirst <;>
        simp only [leafBorrowFromLeft, ne_eq, not_true, if_false, List.nil_append, List.getLast?_singleton, hrk, hfirst,
          List.length_singleton, Nat.one_lt_ofNat, if_true]
    · by_cases hfit : rowsSize rs + leafEntrySize r ≤ leafUsable
      · exact Or.inr ⟨hlt, List.cons_ne_nil _ _, hfit⟩
      · left
        refine ⟨.err .pageFull, ?_⟩
        have hlen : ¬ (r2 :: rest ++ [r]).length < 2 := by simp
        rcases firstCmp_gt h hlt with hfirst | hfirst <;>
          simp only [leafBorrowFromLeft, ne_eq, not_true, if_false, List.getLast?_concat, hrk, hfirst, hlen,
            freeSpace_any_leaf h.size, hfit, decide_false, Bool.not_false, if_true]
  · left
    refine ⟨.err (.invalidBorrow (.keysOutOfOrder r.key)), ?_⟩
    rcases firstCmp_le h hlt with hfirst | hfirst <;>
      simp only [leafBorrowFromLeft, ne_eq, not_true, if_false, List.getLast?_concat, hrk, hfirst]

end

theorem leafBorrowFromRight_borrows {self right : Page} (sep : Key) (hs : self.checkInvariants = .ok ())
    (hr : right.checkInvariants = .ok ()) :
    Borrows self right sep (self.leafBorrowFromRight right).2.1 (self.leafBorrowFromRight right).2.2
      (self.leafBorrowFromRight right).1 := by
  rw [checkInvariants_iff] at hs hr
  obtain ⟨id, lsn, ⟨rs, nx, pv⟩ | _ | _ | _⟩ := self
  · obtain ⟨id', lsn', ⟨ds, nx', pv'⟩ | _ | _ | _⟩ := right
    · have hrs : LeafValid rs := hs
      have hds : LeafValid ds := hr
      by_cases hnext : nx = some id'
      · subst hnext
        rcases ds with _ | ⟨r, rest⟩
        · simp only [leafBorrowFromRight, ne_eq, not_true, if_false]
          exact ⟨rfl, rfl⟩
        rcases (@leafBorrowFromRight_cons id id' lsn lsn' _ _ pv nx' pv' _) hs hds with ⟨e, he⟩ | ⟨hlt, hrest, hfit⟩
        · rw [he]
          exact ⟨rfl, rfl⟩
        obtain ⟨r2, rest, rfl⟩ := List.exists_cons_of_ne_nil hrest
        rw [leafBorrowFromRight_ok hs hds hlt hfit]
        have hva : LeafValid (rs ++ [r]) :=
          leafValid_insert (by simpa using hrs) (hds.rows r (by simp)) hlt (by simp) (by simpa using hfit)
        have hsorted := pairwise_rows hrs hds fun x hx y hy => by
          rcases List.mem_cons.mp hy with rfl | hy
          · exact hlt x hx
          · exact (hlt x hx).trans ((List.pairwise_cons.mp hds.sorted).1 _ (List.mem_map_of_mem hy))
        rw [← List.singleton_append, ← List.append_assoc] at hsorted
        obtain ⟨hlo, hhi⟩ := divides_rows hsorted
        exact ⟨(checkInvariants_iff _).mpr hva, (checkInvariants_iff _).mpr (hds.sublist (List.sublist_cons_self r _)),
          .leaf rfl rfl (by simp) hlo hhi⟩
      · simp only [leafBorrowFromRight, ne_eq, hnext, not_false_iff, if_true]
        exact ⟨rfl, rfl⟩
    all_goals exact ⟨rfl, rfl⟩
  all_goals exact ⟨rfl, rfl⟩

theorem leafBorrowFromLeft_borrows {self left : Page} (sep : Key) (hs : self.checkInvariants = .ok ())
    (hl : left.checkInvariants = .ok ()) :
    Borrows left self sep (self.leafBorrowFromLeft left).2.2 (self.leafBorrowFromLeft left).2.1
      (self.leafBorrowFromLeft left).1 := by
  rw [checkInvariants_iff] at hs hl
  obtain ⟨id, lsn, ⟨rs, nx, pv⟩ | _ | _ | _⟩ := self
  · obtain ⟨id', lsn', ⟨ds, nx', pv'⟩ | _ | _ | _⟩ := left
    · have hrs : LeafValid rs := hs
      have hds : LeafValid ds := hl
      by_cases hprev : pv = some id'
      · subst hprev
        rcases List.eq_nil_or_concat ds with rfl | ⟨rest, r, rfl⟩
        · simp only [leafBorrowFromLeft, ne_eq, not_true, if_false, List.getLast?_nil]
          exact ⟨rfl, rfl⟩
        rw [List.concat_eq_append] at hds ⊢
        rcases (@leafBorrowFromLeft_concat id id' lsn lsn' _ _ nx nx' pv' _) hs hds with ⟨e, he⟩ | ⟨hlt, hrest, hfit⟩
        · rw [he]
          exact ⟨rfl, rfl⟩
        rw [leafBorrowFromLeft_ok hs hds hrest hlt hfit]
        have hva : LeafValid (r :: rs) :=
          leafValid_insert (a := []) (by simpa using hrs) (hds.rows r (by simp)) (by simp) hlt (by simpa using hfit)
        have hrest' := (divides_rows (b := []) hds.sorted).1
        have hsorted : ((rest ++ r :: rs).map Row.key).Pairwise (· < ·) :=
          pairwise_rows (hds.sublist (List.sublist_append_left rest _)) hva fun x hx y hy => by
            rcases List.mem_cons.mp hy with rfl | hy
            · exact hrest' x hx
            · exact (hrest' x hx).trans (hlt y hy)
        obtain ⟨hlo, hhi⟩ := divides_rows hsorted
        exact ⟨(checkInvariants_iff _).mpr (hds.sublist (List.sublist_append_left rest _)), (checkInvariants_iff _).mpr hva,
          .leaf rfl rfl (by simp) hlo hhi⟩
      · simp only [leafBorrowFromLeft, ne_eq, hprev, not_false_iff, if_true]
        exact ⟨rfl, rfl⟩
    all_goals exact ⟨rfl, rfl⟩
  all_goals exact ⟨rfl, rfl⟩

theorem internalBorrowFromRight_borrows {self right : Page} {sep : Key} (hs : self.checkInvariants = .ok ())
    (hr : right.checkInvariants = .ok ()) (hsep : KeyFits sep) :
    Borrows self right sep (self.internalBorrowFromRight right sep).2.1 (self.internalBorrowFromRight right sep).2.2
      (self.internalBorrowFromRight right sep).1 := by
  rw [checkInvariants_iff] at hs hr
  obtain ⟨id, lsn, _ | ⟨ks, cs⟩ | _ | _⟩ := self
  rotate_left
  · obtain ⟨id', lsn', _ | ⟨ds, es⟩ | _ | _⟩ := right
    rotate_left
    · obtain ⟨hcs, hks⟩ := hs
      obtain ⟨hes, hds⟩ := hr
      rcases ds with _ | ⟨k, rest⟩
      · exact ⟨rfl, rfl⟩
      obtain ⟨e, es, rfl⟩ := List.exists_cons_of_length_eq_add_one hes
      simp only [internalBorrowFromRight, freeSpace_any_internal hks.size]
      by_cases hlast : (ks.getLast?.any fun x => decide (x ≥ sep)) = true
      · rw [if_pos hlast]; exact ⟨rfl, rfl⟩
      rw [if_neg hlast]
      by_cases hk : k ≤ sep
      · rw [if_pos hk]; exact ⟨rfl, rfl⟩
      rw [if_neg hk]
      by_cases hfit : keysSize ks + internalEntrySize sep ≤ internalUsable
      · have hl := keys_below hks.sorted hlast
        have hva : KeysValid (ks ++ [sep]) := keysValid_insert (by simpa using hks) hsep hl (by simp) (by simpa using hfit)
        have hgt : ∀ x ∈ ks ++ [sep], x < k := by
          intro x hx
          rcases List.mem_append.mp hx with hx | hx
          · exact (hl x hx).trans (not_le.mp hk)
          · rw [List.mem_singleton.mp hx]; exact not_le.mp hk
        simp only [hfit, decide_true, Bool.not_true, Bool.false_eq_true, if_false]
        refine ⟨(checkInvariants_iff _).mpr ⟨by simp [hcs], hva⟩, (checkInvariants_iff _).mpr ⟨by simpa using hes, ?_⟩,
          .internal rfl rfl (by simp) (by simp) hgt (List.pairwise_cons.mp hds.sorted).1⟩
        exact hds.sublist (List.sublist_cons_self k rest)
      · simp only [hfit, decide_false, Bool.not_false, if_true]
        exact ⟨rfl, rfl⟩
    all_goals exact ⟨rfl, rfl⟩
  all_goals exact ⟨rfl, rfl⟩

theorem internalBorrowFromLeft_borrows {self left : Page} {sep : Key} (hs : self.checkInvariants = .ok ())
    (hl : left.checkInvariants = .ok ()) (hsep : KeyFits sep) :
    Borrows left self sep (self.internalBorrowFromLeft left sep).2.2 (self.internalBorrowFromLeft left sep).2.1
      (self.internalBorrowFromLeft left sep).1 := by
  rw [checkInvariants_iff] at hs hl
  obtain ⟨id, lsn, _ | ⟨ks, cs⟩ | _ | _⟩ := self
  rotate_left
  · obtain ⟨id', lsn', _ | ⟨ds, es⟩ | _ | _⟩ := left
    rotate_left
    · obtain ⟨hcs, hks⟩ := hs
      obtain ⟨hes, hds⟩ := hl
      rcases List.eq_nil_or_concat ds with rfl | ⟨rest, k, rfl⟩
      · exact ⟨rfl, rfl⟩
      rcases List.eq_nil_or_concat es with rfl | ⟨es, e, rfl⟩
      · simp at hes
      rw [List.concat_eq_append] at hds
      simp only [List.concat_eq_append, List.length_append, List.length_singleton, Nat.add_right_cancel_iff] at hes
      simp only [internalBorrowFromLeft, freeSpace_any_internal hks.size, List.concat_eq_append, List.getLast?_concat,
        List.dropLast_concat]
      by_cases hfirst : (ks.head?.any fun x => decide (x ≤ sep)) = true
      · rw [if_pos hfirst]; exact ⟨rfl, rfl⟩
      rw [if_neg hfirst]
      by_cases hk : k ≥ sep
      · rw [if_pos hk]; exact ⟨rfl, rfl⟩
      rw [if_neg hk]
      by_cases hfit : keysSize ks + internalEntrySize sep ≤ internalUsable
      · have hr := keys_above hks.sorted hfirst
        have hva : KeysValid (sep :: ks) :=
          keysValid_insert (a := []) (by simpa using hks) hsep (by simp) hr (by simpa using hfit)
        have hgt : ∀ x ∈ sep :: ks, k < x := by
          intro x hx
          rcases List.mem_cons.mp hx with rfl | hx
          · exact not_le.mp hk
          · exact (not_le.mp hk).trans (hr x hx)
        simp only [hfit, decide_true, Bool.not_true, Bool.false_eq_true, if_false]
        refine ⟨(checkInvariants_iff _).mpr ⟨hes, hds.sublist (List.sublist_append_left rest _)⟩,
          (checkInvariants_iff _).mpr ⟨by simp [hcs], hva⟩,
          .internal rfl rfl (by simp) (by simp) (divides_keys (b := []) hds.sorted).1 hgt⟩
      · simp only [hfit, decide_false, Bool.not_false, if_true]
        exact ⟨rfl, rfl⟩
    all_goals exact ⟨rfl, rfl⟩
  all_goals exact ⟨rfl, rfl⟩

/-- Every merge and every borrow, on any valid pages: nothing changes, or nothing is lost. -/
theorem mergeAndBorrow_spec {self other : Page} (hs : self.checkInvariants = .ok ()) (ho : other.checkInvariants = .ok ())
    {sep : Key} (hsep : KeyFits sep) :
    Merges self other sep (self.leafMergeFromRight other) ∧
    Merges self other sep (self.internalMergeFromRight other sep) ∧
    Borrows self other sep (self.leafBorrowFromRight other).2.1 (self.leafBorrowFromRight other).2.2
      (self.leafBorrowFromRight other).1 ∧
    Borrows other self sep (self.leafBorrowFromLeft other).2.2 (self.leafBorrowFromLeft other).2.1
      (self.leafBorrowFromLeft other).1 ∧
    Borrows self other sep (self.internalBorrowFromRight other sep).2.1 (self.internalBorrowFromRight other sep).2.2
      (self.internalBorrowFromRight other sep).1 ∧
    Borrows other self sep (self.internalBorrowFromLeft other sep).2.2 (self.internalBorrowFromLeft other sep).2.1
      (self.internalBorrowFromLeft other sep).1 :=
  ⟨leafMergeFromRight_merges sep hs ho, internalMergeFromRight_merges hs ho hsep, leafBorrowFromRight_borrows sep hs ho,
    leafBorrowFromLeft_borrows sep hs ho, internalBorrowFromRight_borrows hs ho hsep,
    internalBorrowFromLeft_borrows hs ho hsep⟩

theorem mergeAndBorrow_spec_rows : Merges firstRow secondRow (.integer 2) (firstRow.leafMergeFromRight secondRow) :=
  (mergeAndBorrow_spec (show firstRow.checkInvariants = .ok () by decide)
    (show secondRow.checkInvariants = .ok () by decide) (show KeyFits (.integer 2) by unfold KeyFits; decide)).1

/-! ## Inverse pairs -/

/-- Merging the halves of a split gives the page back. -/
theorem mergeFromRight_halves {new : PageId} {self left right : Page} {sep : Key} (hv : self.checkInvariants = .ok ())
    (h : Halves new self sep left right) :
    left.mergeFromRight right sep = (.ok new, self, ⟨new, none, .free none⟩) := by
  rw [checkInvariants_iff] at hv
  cases h with
  | @leaf id lsn a b r nx pv ha =>
    have hv : LeafValid (a ++ r :: b) := hv
    obtain ⟨hlo, hhi⟩ := divides_rows hv.sorted
    have hsize := hv.size
    rw [rowsSize_append] at hsize
    exact leafMergeFromRight_ok (hv.sublist (List.sublist_append_left a _)) (hv.sublist (List.sublist_append_right a _))
      (fun x hx y hy => (hlo x hx).trans_le (hhi y hy)) hsize
  | @internal id lsn a b k ca cb ha hb hca hlt hgt =>
    have hkeys := hv.2
    have hsize := hkeys.size
    rw [keysSize_append, keysSize_cons, ← Nat.add_assoc] at hsize
    exact internalMergeFromRight_ok (hkeys.sublist (List.sublist_append_left a _)) hlt hgt hsize

/-- What the left half borrows from the right one, the right one borrows back. -/
theorem borrowFromLeft_halves {new : PageId} {self left right left' right' : Page} {sep sep' : Key}
    (hv : self.checkInvariants = .ok ()) (h : Halves new self sep left right)
    (hb : left.borrowFromRight right sep = (.ok sep', left', right')) :
    right'.borrowFromLeft left' sep' = (.ok sep, right, left) := by
  rw [checkInvariants_iff] at hv
  cases h with
  | @leaf id lsn a b r nx pv ha =>
    have hv : LeafValid (a ++ r :: b) := hv
    have hva := hv.sublist (List.sublist_append_left a _)
    have hvb := hv.sublist (List.sublist_append_right a _)
    rw [borrowFromRight, isInternal, if_neg Bool.false_ne_true] at hb
    rcases (@leafBorrowFromRight_cons id new lsn none a b pv nx (some id) r) hva hvb with ⟨e, he⟩ | ⟨hlt, hrest, hfit⟩
    · rw [he] at hb
      cases hb
    obtain ⟨r2, rest, rfl⟩ := List.exists_cons_of_ne_nil hrest
    rw [leafBorrowFromRight_ok hva hvb hlt hfit] at hb
    cases hb
    have hval : LeafValid (a ++ [r]) := hv.sublist (List.Sublist.append_left (List.singleton_sublist.mpr (by simp)) a)
    have hsize := hvb.size
    rw [rowsSize_cons, Nat.add_comm] at hsize
    exact leafBorrowFromLeft_ok (hvb.sublist (List.sublist_cons_self r _)) hval ha
      (fun x hx => (List.pairwise_cons.mp hvb.sorted).1 _ (List.mem_map_of_mem hx)) hsize
  | @internal id lsn a b k ca cb ha hbne hca hlt hgt =>
    obtain ⟨hlen, hkeys⟩ := hv
    have hvb : KeysValid b := hkeys.sublist ((List.sublist_cons_self sep b).trans (List.sublist_append_right a _))
    have hva : KeysValid a := hkeys.sublist (List.sublist_append_left a _)
    obtain ⟨k2, rest, rfl⟩ := List.exists_cons_of_ne_nil hbne
    have hcb : cb.length = rest.length + 1 + 1 := by
      simp only [List.length_append, List.length_cons] at hlen; omega
    obtain ⟨c, cb, rfl⟩ := List.exists_cons_of_length_eq_add_one hcb
    have hsize := hkeys.size
    rw [keysSize_append, keysSize_cons] at hsize
    have hk2 := hgt k2 (by simp)
    rw [borrowFromRight, isInternal, if_pos rfl] at hb
    rw [internalBorrowFromRight_ok hva hlt hk2 (by omega)] at hb
    cases hb
    have hrest := List.pairwise_cons.mp hvb.sorted
    rw [keysSize_cons] at hsize
    exact internalBorrowFromLeft_ok (hvb.sublist (List.sublist_cons_self _ _)) hrest.1 hk2 (by omega)

/-- Split and merge, and borrow and borrow back, are inverse pairs on every valid page. -/
theorem splitPage_inverse {self left right : Page} {new : PageId} {sep : Key} (hv : self.checkInvariants = .ok ())
    (hs : self.splitPage new = (.ok (sep, right), left)) :
    left.mergeFromRight right sep = (.ok new, self, ⟨new, none, .free none⟩) ∧
    ∀ sep' left' right', left.borrowFromRight right sep = (.ok sep', left', right') →
      right'.borrowFromLeft left' sep' = (.ok sep, right, left) := by
  obtain ⟨hh, -, -⟩ := splitPage_ok hv hs
  exact ⟨mergeFromRight_halves hv hh, fun _ _ _ hb => borrowFromLeft_halves hv hh hb⟩

theorem splitPage_inverse_twoRows :
    firstRow.mergeFromRight secondRow (.integer 2) = (.ok ⟨⟨1⟩, 2⟩, twoRows, ⟨⟨⟨1⟩, 2⟩, none, .free none⟩) :=
  (splitPage_inverse (show twoRows.checkInvariants = .ok () by decide)
    (show twoRows.splitPage ⟨⟨1⟩, 2⟩ = (.ok (.integer 2, secondRow), firstRow) by rfl)).1

end Page

end RustDb
