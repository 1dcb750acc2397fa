/-
  RustDb.Page.Borrow — merging and borrowing between siblings of either kind: the
  dispatching functions of `page/mod.rs` and the two bulk borrows.

  A bulk borrow moves entries one by one while the receiver is the smaller page. Between
  two siblings that cannot be merged no move is ever refused, so it stops exactly where
  the receiver first holds at least as many bytes as the donor (`Balanced`):
  - `bulkBorrowFromRight_leaf` / `bulkBorrowFromLeft_leaf`
  - `bulkBorrowFromRight_internal` / `bulkBorrowFromLeft_internal`
-/

import RustDb.Page.Split

namespace RustDb

namespace Page

/-! ## Dispatch -/

/-- `Page::can_merge_with`. -/
def canMergeWith (self other : Page) (separator : Key) : Bool :=
  if self.isInternal then self.internalCanMergeWith other separator else self.leafCanMergeWith other

/-- `Page::merge_from_right`. -/
def mergeFromRight (self right : Page) (separator : Key) : PageResult PageId × Page × Page :=
  if self.isInternal then self.internalMergeFromRight right separator else self.leafMergeFromRight right

/-- `Page::borrow_from_right`. -/
def borrowFromRight (self right : Page) (parentSep : Key) : PageResult Key × Page × Page :=
  if self.isInternal then self.internalBorrowFromRight right parentSep else self.leafBorrowFromRight right

/-- `Page::borrow_from_left`. -/
def borrowFromLeft (self left : Page) (parentSep : Key) : PageResult Key × Page × Page :=
  if self.isInternal then self.internalBorrowFromLeft left parentSep else self.leafBorrowFromLeft left

/-! ## Bulk borrows -/

section
variable (borrow : Page → Page → Key → PageResult Key × Page × Page)

/-- The `while` loop of the bulk borrows. -/
def bulkBorrowLoop : Nat → Page → Page → Key → PageResult Key × Page × Page
  | 0, self, donor, _ => (.error .outOfFuel, self, donor)
  | fuel + 1, self, donor, sep =>
    if self.entriesSize < donor.entriesSize then
      match borrow self donor sep with
      | (.ok newSep, self, donor) => bulkBorrowLoop fuel self donor newSep
      | (.error (.err .pageFull), self, donor) => (.ok sep, self, donor)
      | (.error (.err (.invalidBorrow _)), self, donor) => (.ok sep, self, donor)
      | (.error e, self, donor) => (.error e, self, donor)
    else (.ok sep, self, donor)

/-- What the two bulk borrows share: a first move that has to succeed, then the loop. A
    move takes an entry off the donor, so the loop makes at most as many as it has. -/
def bulkBorrow (self donor : Page) (parentSep : Key) : PageResult Key × Page × Page :=
  match borrow self donor parentSep with
  | (.ok sep, self, donor) => bulkBorrowLoop borrow (donor.numItems + 1) self donor sep
  | (.error e, self, donor) => (.error e, self, donor)

end

/-- `Page::bulk_borrow_from_right`. -/
def bulkBorrowFromRight (self right : Page) (parentSep : Key) : PageResult Key × Page × Page :=
  bulkBorrow borrowFromRight self right parentSep

/-- `Page::bulk_borrow_from_left`. -/
def bulkBorrowFromLeft (self left : Page) (parentSep : Key) : PageResult Key × Page × Page :=
  bulkBorrow borrowFromLeft self left parentSep

section
variable {borrow : Page → Page → Key → PageResult Key × Page × Page} {I : Page → Page → Key → Prop}

/-- An invariant under which a smaller receiver can always take one more entry holds where
    the loop stops, and there the receiver is no longer the smaller page. -/
theorem bulkBorrowLoop_ok
    (step : ∀ self donor sep, I self donor sep → self.entriesSize < donor.entriesSize →
      ∃ sep' self' donor', borrow self donor sep = (.ok sep', self', donor') ∧ I self' donor' sep' ∧
        donor'.numItems < donor.numItems) :
    ∀ (fuel : Nat) (self donor : Page) (sep : Key), I self donor sep → donor.numItems < fuel →
      ∃ sep' self' donor', bulkBorrowLoop borrow fuel self donor sep = (.ok sep', self', donor') ∧
        I self' donor' sep' ∧ donor'.entriesSize ≤ self'.entriesSize
  | 0, _, _, _, _, hfuel => absurd hfuel (Nat.not_lt_zero _)
  | fuel + 1, self, donor, sep, hI, hfuel => by
    by_cases hlt : self.entriesSize < donor.entriesSize
    · obtain ⟨sep₁, self₁, donor₁, he, hI₁, hn⟩ := step self donor sep hI hlt
      obtain ⟨sep₂, self₂, donor₂, he₂, h₂⟩ := bulkBorrowLoop_ok step fuel self₁ donor₁ sep₁ hI₁ (by omega)
      exact ⟨sep₂, self₂, donor₂, by simp only [bulkBorrowLoop, hlt, if_true, he, he₂], h₂⟩
    · exact ⟨sep, self, donor, by simp only [bulkBorrowLoop, hlt, if_false], hI, by omega⟩

theorem bulkBorrow_ok {self donor : Page} {sep : Key}
    (step : ∀ self donor sep, I self donor sep → self.entriesSize < donor.entriesSize →
      ∃ sep' self' donor', borrow self donor sep = (.ok sep', self', donor') ∧ I self' donor' sep' ∧
        donor'.numItems < donor.numItems)
    (hI : I self donor sep) (hlt : self.entriesSize < donor.entriesSize) :
    ∃ sep' self' donor', bulkBorrow borrow self donor sep = (.ok sep', self', donor') ∧
      I self' donor' sep' ∧ donor'.entriesSize ≤ self'.entriesSize := by
  obtain ⟨sep₁, self₁, donor₁, he, hI₁, -⟩ := step self donor sep hI hlt
  obtain ⟨sep₂, self₂, donor₂, he₂, h₂⟩ := bulkBorrowLoop_ok step (donor₁.numItems + 1) self₁ donor₁ sep₁ hI₁ (by omega)
  exact ⟨sep₂, self₂, donor₂, by simp only [bulkBorrow, he, he₂], h₂⟩

end

/-! ## Where a bulk borrow stops -/

/-- Given in the order in which they move: with the entries `moved` added to its `size`
    bytes the receiver is no longer smaller than `rest`, and one entry less was not
    enough. -/
def Balanced {α : Type} (w : α → Nat) (size : Nat) (moved rest : List α) : Prop :=
  (rest.map w).sum ≤ size + (moved.map w).sum ∧
    ∀ m x, moved = m ++ [x] → size + (m.map w).sum < ((x :: rest).map w).sum

/-- There is only one place to stop. -/
theorem Balanced.unique {α : Type} {w : α → Nat} {size : Nat} {m r m' r' : List α} (h : Balanced w size m r)
    (h' : Balanced w size m' r') (he : m ++ r = m' ++ r') : m = m' ∧ r = r' := by
  have key : ∀ {m r m' r' : List α}, Balanced w size m r → Balanced w size m' r' → ∀ c, m' = m ++ c → r = c ++ r' →
      c = [] := by
    rintro m r m' r' h h' c rfl rfl
    rcases List.eq_nil_or_concat c with rfl | ⟨c, x, rfl⟩
    · rfl
    · rw [List.concat_eq_append] at h h'
      have h1 := h.1
      have h2 := h'.2 (m ++ c) x (by simp)
      simp only [List.map_append, List.map_cons, List.map_nil, List.sum_append, List.sum_cons, List.sum_nil] at h1 h2
      omega
  rcases List.append_eq_append_iff.mp he with ⟨c, hc, hc'⟩ | ⟨c, hc, hc'⟩
  · have := key h h' c hc hc'
    subst this
    simp at hc hc'
    exact ⟨hc.symm, hc'⟩
  · have := key h' h c hc hc'
    subst this
    simp at hc hc'
    exact ⟨hc, hc'.symm⟩

/-- As `Balanced`, for keys that move through the parent: `sep` is left there, and before
    the last move it was still the donor's. -/
def BalancedAround {α : Type} (w : α → Nat) (size : Nat) (moved : List α) (sep : α) (rest : List α) : Prop :=
  (rest.map w).sum ≤ size + (moved.map w).sum ∧
    ∀ m x, moved = m ++ [x] → size + (m.map w).sum < ((sep :: rest).map w).sum

theorem BalancedAround.unique {α : Type} {w : α → Nat} {size : Nat} {m r m' r' : List α} {s s' : α}
    (h : BalancedAround w size m s r) (h' : BalancedAround w size m' s' r') (he : m ++ s :: r = m' ++ s' :: r') :
    m = m' ∧ s = s' ∧ r = r' := by
  have key : ∀ {m r m' r' : List α} {s s' : α}, BalancedAround w size m s r → BalancedAround w size m' s' r' →
      ∀ c, m' = m ++ c → s :: r = c ++ s' :: r' → c = [] := by
    rintro m r m' r' s s' h h' c rfl hc
    rcases List.eq_nil_or_concat c with rfl | ⟨c, x, rfl⟩
    · rfl
    · rw [List.concat_eq_append] at h' hc
      have h1 := h.1
      have h2 := h'.2 (m ++ c) x (by simp)
      have h3 : ((s' :: r').map w).sum ≤ (r.map w).sum := by
        rcases c with _ | ⟨y, c⟩ <;> simp only [List.nil_append, List.cons_append, List.cons.injEq] at hc
        · simp [hc.2]
        · simp [hc.2]; omega
      simp only [List.map_append, List.sum_append] at h1 h2
      omega
  rcases List.append_eq_append_iff.mp he with ⟨c, hc, hc'⟩ | ⟨c, hc, hc'⟩
  · have := key h h' c hc hc'
    subst this
    simp at hc hc'
    exact ⟨hc.symm, hc'⟩
  · have := key h' h c hc hc'
    subst this
    simp at hc hc'
    exact ⟨hc, hc'.1.symm, hc'.2.symm⟩

/-! ## Leaves -/

section
variable {id id' : PageId} {lsn lsn' : PageLsn} {rs ds : List Row} {nx pv nx' pv' : Option PageId} {sep : Key}

theorem borrow_leaf_room {S D e : Nat} (hunder : S + D < leafUnderfullBytes + leafUsable) (hlt : S < D)
    (he : e ≤ maxLeafEntrySize) : S + e ≤ leafUsable := by
  have h1 := const_leafUnderfullBytes
  have h2 : leafUsable = 4055 := rfl
  have h3 := const_maxLeafEntrySize
  omega

/-- A leaf that cannot be merged into an underfull one has rows to spare. -/
theorem borrow_leaf_two {S : Nat} {ds : List Row} (hds : LeafValid ds) (hno : leafUsable < S + rowsSize ds)
    (hlt : S < rowsSize ds) : ∃ r r2 rest, ds = r :: r2 :: rest := by
  have h2 : leafUsable = 4055 := rfl
  have h3 := const_maxLeafEntrySize
  rcases ds with _ | ⟨r, _ | ⟨r2, rest⟩⟩
  · simp at hlt
  · have := (hds.rows r (by simp)).row
    simp at hlt hno; omega
  · exact ⟨r, r2, rest, rfl⟩

theorem bulkBorrowFromRight_leaf (hrs : LeafValid rs) (hds : LeafValid ds) (hlt : ∀ x ∈ rs, ∀ y ∈ ds, x.key < y.key)
    (hunder : rowsSize rs < leafUnderfullBytes) (hno : leafUsable < rowsSize rs + rowsSize ds) :
    ∃ a d b, ds = a ++ d :: b ∧ a ≠ [] ∧ Balanced leafEntrySize (rowsSize rs) a (d :: b) ∧ LeafValid (rs ++ a) ∧
      bulkBorrowFromRight ⟨id, lsn, .leaf rs (some id') pv⟩ ⟨id', lsn', .leaf ds nx' pv'⟩ sep =
        (.ok d.key, ⟨id, lsn, .leaf (rs ++ a) (some id') pv⟩, ⟨id', lsn', .leaf (d :: b) nx' pv'⟩) := by
  have hD := hds.size
  -- the rows moved so far, and that the receiver was smaller before the last of them
  let I : Page → Page → Key → Prop := fun self donor sep' => ∃ a b, ds = a ++ b ∧ LeafValid (rs ++ a) ∧
    self = ⟨id, lsn, .leaf (rs ++ a) (some id') pv⟩ ∧ donor = ⟨id', lsn', .leaf b nx' pv'⟩ ∧
    (∀ m x, a = m ++ [x] → rowsSize rs + rowsSize m < rowsSize (x :: b)) ∧
    (a ≠ [] → ∃ d b', b = d :: b' ∧ sep' = d.key)
  have step : ∀ self donor sep', I self donor sep' → self.entriesSize < donor.entriesSize →
      ∃ sep₁ self₁ donor₁, borrowFromRight self donor sep' = (.ok sep₁, self₁, donor₁) ∧ I self₁ donor₁ sep₁ ∧
        donor₁.numItems < donor.numItems := by
    rintro _ _ sep' ⟨a, b, rfl, hva, rfl, rfl, -, -⟩ hsize
    change rowsSize (rs ++ a) < rowsSize b at hsize
    rw [rowsSize_append] at hno hD
    have hb := hds.sublist (List.sublist_append_right a b)
    obtain ⟨r, r2, rest, rfl⟩ :=
      borrow_leaf_two (S := rowsSize (rs ++ a)) hb (by rw [rowsSize_append]; omega) hsize
    have hfit : rowsSize (rs ++ a) + leafEntrySize r ≤ leafUsable :=
      borrow_leaf_room (D := rowsSize (r :: r2 :: rest)) (by rw [rowsSize_append]; omega) hsize
        (hb.rows r (by simp)).row
    have hrow : ∀ x ∈ rs ++ a, x.key < r.key := by
      intro x hx
      rcases List.mem_append.mp hx with hx | hx
      · exact hlt x hx r (by simp)
      · have := hds.sorted
        rw [List.map_append, List.pairwise_append] at this
        exact this.2.2 _ (List.mem_map_of_mem hx) _ (by simp)
    have hva' := leafValid_insert (a := rs ++ a) (b := []) (r := r) (by simpa using hva) (hb.rows r (by simp)) hrow
      (by simp) (by simpa using hfit)
    refine ⟨r2.key, ⟨id, lsn, .leaf (rs ++ a ++ [r]) (some id') pv⟩, ⟨id', lsn', .leaf (r2 :: rest) nx' pv'⟩,
      leafBorrowFromRight_ok hva hb hrow hfit,
      ⟨a ++ [r], r2 :: rest, by simp, by simpa using hva', by simp, rfl, ?_, fun _ => ⟨r2, rest, rfl, rfl⟩⟩, ?_⟩
    · intro m x hmx
      obtain ⟨rfl, hx⟩ := List.append_inj' hmx rfl
      simp only [List.cons.injEq, and_true] at hx
      subst hx
      rw [rowsSize_append] at hsize
      exact hsize
    · simp [numItems]
  have hI : I ⟨id, lsn, .leaf rs (some id') pv⟩ ⟨id', lsn', .leaf ds nx' pv'⟩ sep :=
    ⟨[], ds, rfl, by simpa using hrs, by simp, rfl, fun m x h => absurd h (by simp), fun h => absurd rfl h⟩
  have hlt0 : rowsSize rs < rowsSize ds := by
    have h1 := const_leafUnderfullBytes
    have h2 : leafUsable = 4055 := rfl
    omega
  obtain ⟨sep', self', donor', he, ⟨a, b, rfl, hva, rfl, rfl, hmin, hsep⟩, hstop⟩ := bulkBorrow_ok step hI hlt0
  change rowsSize b ≤ rowsSize (rs ++ a) at hstop
  have hane : a ≠ [] := by
    rintro rfl
    simp at hstop hlt0; omega
  obtain ⟨d, b', rfl, rfl⟩ := hsep hane
  exact ⟨a, d, b', rfl, hane, ⟨by rw [rowsSize_append] at hstop; exact hstop, hmin⟩, hva, he⟩

theorem bulkBorrowFromLeft_leaf (hrs : LeafValid rs) (hds : LeafValid ds) (hlt : ∀ x ∈ ds, ∀ y ∈ rs, x.key < y.key)
    (hunder : rowsSize rs < leafUnderfullBytes) (hno : leafUsable < rowsSize rs + rowsSize ds) :
    ∃ b d a, ds = b ++ d :: a ∧ b ≠ [] ∧ Balanced leafEntrySize (rowsSize rs) (d :: a).reverse b.reverse ∧
      LeafValid (d :: a ++ rs) ∧
      bulkBorrowFromLeft ⟨id, lsn, .leaf rs nx (some id')⟩ ⟨id', lsn', .leaf ds nx' pv'⟩ sep =
        (.ok d.key, ⟨id, lsn, .leaf (d :: a ++ rs) nx (some id')⟩, ⟨id', lsn', .leaf b nx' pv'⟩) := by
  have hD := hds.size
  let I : Page → Page → Key → Prop := fun self donor sep' => ∃ b a, ds = b ++ a ∧ b ≠ [] ∧ LeafValid (a ++ rs) ∧
    self = ⟨id, lsn, .leaf (a ++ rs) nx (some id')⟩ ∧ donor = ⟨id', lsn', .leaf b nx' pv'⟩ ∧
    (∀ x m, a = x :: m → rowsSize rs + rowsSize m < leafEntrySize x + rowsSize b ∧ sep' = x.key)
  have step : ∀ self donor sep', I self donor sep' → self.entriesSize < donor.entriesSize →
      ∃ sep₁ self₁ donor₁, borrowFromLeft self donor sep' = (.ok sep₁, self₁, donor₁) ∧ I self₁ donor₁ sep₁ ∧
        donor₁.numItems < donor.numItems := by
    rintro _ _ sep' ⟨b, a, rfl, hbne, hva, rfl, rfl, -⟩ hsize
    change rowsSize (a ++ rs) < rowsSize b at hsize
    rw [rowsSize_append] at hno hD
    have hb := hds.sublist (List.sublist_append_left b a)
    obtain ⟨rest, r, rfl⟩ : ∃ rest r, b = rest ++ [r] := by
      rcases List.eq_nil_or_concat b with rfl | ⟨rest, r, rfl⟩
      · exact absurd rfl hbne
      · exact ⟨rest, r, by simp⟩
    have hrest : rest ≠ [] := by
      obtain ⟨r1, r2, l, hl⟩ :=
        borrow_leaf_two (S := rowsSize (a ++ rs)) hb (by rw [rowsSize_append]; omega) hsize
      rintro rfl
      simp at hl
    have hfit : rowsSize (a ++ rs) + leafEntrySize r ≤ leafUsable :=
      borrow_leaf_room (D := rowsSize (rest ++ [r])) (by rw [rowsSize_append]; omega) hsize
        (hb.rows r (by simp)).row
    have hrow : ∀ x ∈ a ++ rs, r.key < x.key := by
      intro x hx
      rcases List.mem_append.mp hx with hx | hx
      · have := hds.sorted
        rw [List.map_append, List.pairwise_append] at this
        exact this.2.2 _ (by simp) _ (List.mem_map_of_mem hx)
      · exact hlt r (by simp) x hx
    have hva' := leafValid_insert (a := []) (b := a ++ rs) (r := r) (by simpa using hva) (hb.rows r (by simp))
      (by simp) hrow (by simpa using hfit)
    refine ⟨r.key, ⟨id, lsn, .leaf (r :: (a ++ rs)) nx (some id')⟩, ⟨id', lsn', .leaf rest nx' pv'⟩,
      leafBorrowFromLeft_ok hva hb hrest hrow hfit,
      ⟨rest, r :: a, by simp, hrest, by simpa using hva', by simp, rfl, ?_⟩, ?_⟩
    · rintro x m ⟨⟩
      simp only [rowsSize_append, rowsSize_cons, rowsSize_nil] at hsize
      exact ⟨by omega, rfl⟩
    · simp [numItems]
  have hlt0 : rowsSize rs < rowsSize ds := by
    have h1 := const_leafUnderfullBytes
    have h2 : leafUsable = 4055 := rfl
    omega
  have hI : I ⟨id, lsn, .leaf rs nx (some id')⟩ ⟨id', lsn', .leaf ds nx' pv'⟩ sep :=
    ⟨ds, [], by simp, by rintro rfl; simp at hlt0, by simpa using hrs, by simp, rfl, fun x m h => absurd h (by simp)⟩
  obtain ⟨sep', self', donor', he, ⟨b, a, rfl, hbne, hva, rfl, rfl, hmin⟩, hstop⟩ := bulkBorrow_ok step hI hlt0
  change rowsSize b ≤ rowsSize (a ++ rs) at hstop
  rcases a with _ | ⟨d, a⟩
  · simp at hstop hlt0; omega
  obtain ⟨hlast, rfl⟩ := hmin d a rfl
  refine ⟨b, d, a, rfl, hbne, ⟨?_, ?_⟩, hva, he⟩
  · simp only [List.map_reverse, List.sum_reverse]
    rw [rowsSize_append] at hstop
    have : rowsSize (d :: a) = ((d :: a).map leafEntrySize).sum := rfl
    have : rowsSize b = (b.map leafEntrySize).sum := rfl
    omega
  · intro m x hmx
    rw [List.reverse_cons] at hmx
    obtain ⟨rfl, hx⟩ := List.append_inj' hmx rfl
    simp only [List.cons.injEq, and_true] at hx
    subst hx
    simpa [List.sum_reverse, rowsSize] using hlast

end

/-! ## Internal pages -/

section
variable {id id' : PageId} {lsn lsn' : PageLsn} {ks ds : List Key} {cs dcs : List PageId} {sep : Key}

theorem borrow_internal_room {S D e T : Nat} (hT : T < internalUnderfullBytes + maxInternalEntrySize + internalUsable)
    (hsum : S + e + D = T) (hlt : S < D) (he : e ≤ maxInternalEntrySize) : S + e ≤ internalUsable := by
  have h1 := const_internalUnderfullBytes
  have h2 : internalUsable = 4065 := rfl
  have h3 := const_maxInternalEntrySize
  omega

/-- An internal page that cannot be merged into a smaller one has keys to spare. -/
theorem borrow_internal_two {S e : Nat} {ds : List Key} (hds : ∀ k ∈ ds, KeyFits k) (he : e ≤ maxInternalEntrySize)
    (hno : internalUsable < S + e + keysSize ds) (hlt : S < keysSize ds) : ∃ k k2 rest, ds = k :: k2 :: rest := by
  have h2 : internalUsable = 4065 := rfl
  have h3 := const_maxInternalEntrySize
  rcases ds with _ | ⟨k, _ | ⟨k2, rest⟩⟩
  · simp at hlt
  · have hk : internalEntrySize k ≤ maxInternalEntrySize := hds k (by simp)
    simp at hlt hno; omega
  · exact ⟨k, k2, rest, rfl⟩

theorem borrow_internal_initial {S e D : Nat} (hunder : S < internalUnderfullBytes) (he : e ≤ maxInternalEntrySize)
    (hno : internalUsable < S + e + D) : S < D := by
  have h1 := const_internalUnderfullBytes
  have h2 : internalUsable = 4065 := rfl
  have h3 := const_maxInternalEntrySize
  omega

theorem bulkBorrowFromRight_internal (hks : KeysValid ks) (hds : KeysValid ds) (hsep : KeyFits sep)
    (hl : ∀ x ∈ ks, x < sep) (hr : ∀ x ∈ ds, sep < x) (hdc : dcs.length = ds.length + 1)
    (hunder : keysSize ks < internalUnderfullBytes)
    (hno : internalUsable < keysSize ks + internalEntrySize sep + keysSize ds) :
    ∃ a k b ca cb, sep :: ds = a ++ k :: b ∧ dcs = ca ++ cb ∧ ca.length = a.length ∧ a ≠ [] ∧ b ≠ [] ∧
      BalancedAround internalEntrySize (keysSize ks) a k b ∧ KeysValid (ks ++ a) ∧
      bulkBorrowFromRight ⟨id, lsn, .internal ks cs⟩ ⟨id', lsn', .internal ds dcs⟩ sep =
        (.ok k, ⟨id, lsn, .internal (ks ++ a) (cs ++ ca)⟩, ⟨id', lsn', .internal b cb⟩) := by
  have hD := hds.size
  have hsorted : (sep :: ds).Pairwise (· < ·) := List.pairwise_cons.mpr ⟨hr, hds.sorted⟩
  have hfits : ∀ k ∈ sep :: ds, KeyFits k := by simpa using ⟨hsep, hds.fits⟩
  have hmax : internalEntrySize sep ≤ maxInternalEntrySize := hsep
  have hlt0 := borrow_internal_initial hunder hmax hno
  -- the keys moved so far, around the present separator
  let I : Page → Page → Key → Prop := fun self donor sep' => ∃ a b ca cb, sep :: ds = a ++ sep' :: b ∧
    dcs = ca ++ cb ∧ ca.length = a.length ∧ b ≠ [] ∧ KeysValid (ks ++ a) ∧
    self = ⟨id, lsn, .internal (ks ++ a) (cs ++ ca)⟩ ∧ donor = ⟨id', lsn', .internal b cb⟩ ∧
    (∀ m x, a = m ++ [x] → keysSize ks + keysSize m < keysSize (sep' :: b))
  have step : ∀ self donor sep', I self donor sep' → self.entriesSize < donor.entriesSize →
      ∃ sep₁ self₁ donor₁, borrowFromRight self donor sep' = (.ok sep₁, self₁, donor₁) ∧ I self₁ donor₁ sep₁ ∧
        donor₁.numItems < donor.numItems := by
    rintro _ _ sep' ⟨a, b, ca, cb, hsplit, rfl, hlen, -, hva, rfl, rfl, -⟩ hsize
    change keysSize (ks ++ a) < keysSize b at hsize
    have htotal : internalEntrySize sep + keysSize ds = keysSize a + (internalEntrySize sep' + keysSize b) := by
      have := congrArg keysSize hsplit
      simpa using this
    have hsep' := hfits sep' (by rw [hsplit]; simp)
    have hbfits : ∀ k ∈ b, KeyFits k := fun k hk => hfits k (by rw [hsplit]; simp [hk])
    rw [hsplit] at hsorted
    have hsa := List.pairwise_append.mp hsorted
    rw [keysSize_append] at hsize
    obtain ⟨k, k2, rest, rfl⟩ := borrow_internal_two hbfits hsep' (by omega) hsize
    have hfit : keysSize (ks ++ a) + internalEntrySize sep' ≤ internalUsable := by
      rw [keysSize_append]
      exact borrow_internal_room (T := keysSize ks + internalEntrySize sep + keysSize ds) (by omega) (by omega) hsize
        hsep'
    have hrow : ∀ x ∈ ks ++ a, x < sep' := by
      intro x hx
      rcases List.mem_append.mp hx with hx | hx
      · have hle : sep ≤ sep' := by
          have : sep' ∈ sep :: ds := by rw [hsplit]; simp
          rcases List.mem_cons.mp this with h | h
          · exact h.ge
          · exact (hr sep' h).le
        exact (hl x hx).trans_le hle
      · exact hsa.2.2 x hx sep' (by simp)
    have hk : sep' < k := (List.pairwise_cons.mp hsa.2.1).1 k (by simp)
    have hva' := keysValid_insert (a := ks ++ a) (b := []) (k := sep') (by simpa using hva) hsep' hrow (by simp)
      (by simpa using hfit)
    obtain ⟨c, cb, rfl⟩ : ∃ c cb', cb = c :: cb' := by
      rcases cb with _ | ⟨c, cb⟩
      · have := congrArg List.length hsplit
        simp at this hdc; omega
      · exact ⟨c, cb, rfl⟩
    refine ⟨k, ⟨id, lsn, .internal (ks ++ a ++ [sep']) (cs ++ ca ++ [c])⟩, ⟨id', lsn', .internal (k2 :: rest) cb⟩,
      internalBorrowFromRight_ok hva hrow hk hfit,
      ⟨a ++ [sep'], k2 :: rest, ca ++ [c], cb, by simpa using hsplit, by simp, by simpa using hlen, by simp,
        by simpa using hva', by simp, rfl, ?_⟩, ?_⟩
    · intro m x hmx
      obtain ⟨rfl, hx⟩ := List.append_inj' hmx rfl
      exact hsize
    · simp [numItems]
  have hI : I ⟨id, lsn, .internal ks cs⟩ ⟨id', lsn', .internal ds dcs⟩ sep :=
    ⟨[], ds, [], dcs, rfl, rfl, rfl, by rintro rfl; simp at hlt0, by simpa using hks, by simp, rfl,
      fun m x h => absurd h (by simp)⟩
  obtain ⟨sep', self', donor', he, ⟨a, b, ca, cb, hsplit, rfl, hlen, hbne, hva, rfl, rfl, hmin⟩, hstop⟩ :=
    bulkBorrow_ok step hI hlt0
  change keysSize b ≤ keysSize (ks ++ a) at hstop
  have hane : a ≠ [] := by
    rintro rfl
    simp only [List.nil_append, List.cons.injEq] at hsplit
    simp [hsplit.2] at hstop hlt0; omega
  exact ⟨a, sep', b, ca, cb, hsplit, rfl, hlen, hane, hbne,
    ⟨by rw [keysSize_append] at hstop; exact hstop, hmin⟩, hva, he⟩

theorem bulkBorrowFromLeft_internal (hks : KeysValid ks) (hds : KeysValid ds) (hsep : KeyFits sep)
    (hl : ∀ x ∈ ds, x < sep) (hr : ∀ x ∈ ks, sep < x) (hdc : dcs.length = ds.length + 1)
    (hunder : keysSize ks < internalUnderfullBytes)
    (hno : internalUsable < keysSize ks + internalEntrySize sep + keysSize ds) :
    ∃ b k a cb ca, ds ++ [sep] = b ++ k :: a ∧ dcs = cb ++ ca ∧ ca.length = a.length ∧ a ≠ [] ∧ b ≠ [] ∧
      BalancedAround internalEntrySize (keysSize ks) a.reverse k b.reverse ∧ KeysValid (a ++ ks) ∧
      bulkBorrowFromLeft ⟨id, lsn, .internal ks cs⟩ ⟨id', lsn', .internal ds dcs⟩ sep =
        (.ok k, ⟨id, lsn, .internal (a ++ ks) (ca ++ cs)⟩, ⟨id', lsn', .internal b cb⟩) := by
  have hD := hds.size
  have hsorted : (ds ++ [sep]).Pairwise (· < ·) :=
    List.pairwise_append.mpr ⟨hds.sorted, List.pairwise_singleton _ _, by simpa using hl⟩
  have hfits : ∀ k ∈ ds ++ [sep], KeyFits k := by
    intro k hk
    rcases List.mem_append.mp hk with hk | hk
    · exact hds.fits k hk
    · rw [List.mem_singleton.mp hk]; exact hsep
  have hmax : internalEntrySize sep ≤ maxInternalEntrySize := hsep
  have hlt0 := borrow_internal_initial hunder hmax hno
  let I : Page → Page → Key → Prop := fun self donor sep' => ∃ b a cb ca, ds ++ [sep] = b ++ sep' :: a ∧
    dcs = cb ++ ca ∧ ca.length = a.length ∧ b ≠ [] ∧ KeysValid (a ++ ks) ∧
    self = ⟨id, lsn, .internal (a ++ ks) (ca ++ cs)⟩ ∧ donor = ⟨id', lsn', .internal b cb⟩ ∧
    (∀ x m, a = x :: m → keysSize ks + keysSize m < internalEntrySize sep' + keysSize b)
  have step : ∀ self donor sep', I self donor sep' → self.entriesSize < donor.entriesSize →
      ∃ sep₁ self₁ donor₁, borrowFromLeft self donor sep' = (.ok sep₁, self₁, donor₁) ∧ I self₁ donor₁ sep₁ ∧
        donor₁.numItems < donor.numItems := by
    rintro _ _ sep' ⟨b, a, cb, ca, hsplit, rfl, hlen, hbne, hva, rfl, rfl, -⟩ hsize
    change keysSize (a ++ ks) < keysSize b at hsize
    have htotal : keysSize ds + internalEntrySize sep = keysSize b + (internalEntrySize sep' + keysSize a) := by
      have := congrArg keysSize hsplit
      simpa using this
    have hsep' := hfits sep' (by rw [hsplit]; simp)
    have hbfits : ∀ k ∈ b, KeyFits k := fun k hk => hfits k (by rw [hsplit]; simp [hk])
    rw [hsplit] at hsorted
    have hsa := List.pairwise_append.mp hsorted
    rw [keysSize_append] at hsize
    obtain ⟨rest, k, rfl⟩ : ∃ rest k, b = rest ++ [k] := by
      rcases List.eq_nil_or_concat b with rfl | ⟨rest, k, rfl⟩
      · exact absurd rfl hbne
      · exact ⟨rest, k, by simp⟩
    have hrest : rest ≠ [] := by
      obtain ⟨k1, k2, l, hkl⟩ := borrow_internal_two hbfits hsep' (by omega) hsize
      rintro rfl
      simp at hkl
    have hfit : keysSize (a ++ ks) + internalEntrySize sep' ≤ internalUsable := by
      rw [keysSize_append]
      exact borrow_internal_room (T := keysSize ks + internalEntrySize sep + keysSize ds) (by omega) (by omega) hsize
        hsep'
    have hrow : ∀ x ∈ a ++ ks, sep' < x := by
      intro x hx
      rcases List.mem_append.mp hx with hx | hx
      · exact (List.pairwise_cons.mp hsa.2.1).1 x hx
      · have hle : sep' ≤ sep := by
          have : sep' ∈ ds ++ [sep] := by rw [hsplit]; simp
          rcases List.mem_append.mp this with h | h
          · exact (hl sep' h).le
          · exact (List.mem_singleton.mp h).le
        exact hle.trans_lt (hr x hx)
    have hk : k < sep' := hsa.2.2 k (by simp) sep' (by simp)
    have hva' := keysValid_insert (a := []) (b := a ++ ks) (k := sep') (by simpa using hva) hsep' (by simp) hrow
      (by simpa using hfit)
    obtain ⟨cb, c, rfl⟩ : ∃ cb' c, cb = cb' ++ [c] := by
      rcases List.eq_nil_or_concat cb with rfl | ⟨cb, c, rfl⟩
      · have := congrArg List.length hsplit
        simp at this hdc; omega
      · exact ⟨cb, c, by simp⟩
    refine ⟨k, ⟨id, lsn, .internal (sep' :: (a ++ ks)) (c :: (ca ++ cs))⟩, ⟨id', lsn', .internal rest cb⟩,
      internalBorrowFromLeft_ok hva hrow hk hfit,
      ⟨rest, sep' :: a, cb, c :: ca, by simpa using hsplit, by simp, by simpa using hlen, hrest,
        by simpa using hva', by simp, rfl, ?_⟩, ?_⟩
    · rintro x m ⟨⟩
      simp only [keysSize_append, keysSize_cons, keysSize_nil] at hsize
      omega
    · simp [numItems]
  have hI : I ⟨id, lsn, .internal ks cs⟩ ⟨id', lsn', .internal ds dcs⟩ sep :=
    ⟨ds, [], dcs, [], rfl, by simp, rfl, by rintro rfl; simp at hlt0, by simpa using hks, by simp, rfl,
      fun x m h => absurd h (by simp)⟩
  obtain ⟨sep', self', donor', he, ⟨b, a, cb, ca, hsplit, rfl, hlen, hbne, hva, rfl, rfl, hmin⟩, hstop⟩ :=
    bulkBorrow_ok step hI hlt0
  change keysSize b ≤ keysSize (a ++ ks) at hstop
  have hane : a ≠ [] := by
    rintro rfl
    have := (List.append_inj' hsplit rfl).1
    subst this
    simp at hstop hlt0; omega
  refine ⟨b, sep', a, cb, ca, hsplit, rfl, hlen, hane, hbne, ⟨?_, ?_⟩, hva, he⟩
  · simp only [List.map_reverse, List.sum_reverse]
    rw [keysSize_append] at hstop
    have : keysSize a = (a.map internalEntrySize).sum := rfl
    have : keysSize b = (b.map internalEntrySize).sum := rfl
    omega
  · intro m x hmx
    rcases a with _ | ⟨y, a⟩
    · exact absurd rfl hane
    rw [List.reverse_cons] at hmx
    obtain ⟨rfl, hx⟩ := List.append_inj' hmx rfl
    simpa [List.sum_reverse, keysSize] using hmin y a rfl

end

end Page

end RustDb
