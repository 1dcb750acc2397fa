/-
  RustDb.Vacuum — `Table::vacuum`: the rows of the whole tree packed anew into leaves, levels
  of internal pages over them until one page is left, and the file swapped for these pages.
  Page numbers wrap at `2 ^ 32` as in a release build.

  Proved: the leaves and every level above them are the bins of a packing (`Lib.Pack`), on
  consecutive page numbers (`fillLeaves_eq`, `fillInternals_eq`), and the loop over the
  levels ends with one page, over any list of keys of admitted size.
-/

import RustDb.BTree.Get
import RustDb.Lib.Pack
import Mathlib.Data.List.Forall2
import Mathlib.Data.List.Nodup
import Mathlib.Logic.Relation

namespace RustDb

open Lib.SearchTree Lib.Pack Call

namespace Table

/-! ## The pages of the new file -/

abbrev Built (α : Type) := Except (Fail TableError) α

/-- The result of a page operation, `?`. -/
def built {α : Type} (r : PageResult α) : Built α := r.mapError (Fail.map .page)

/-- `.expect(..)`. -/
def expected {α : Type} (o : Option α) : Built α := o.elim (throw .panic) pure

variable (t : Table)

/-- `Table::get_page_id`. -/
def getPageId (pageNum : UInt32) : PageId := ⟨t.metaId.tableId, pageNum⟩

/-- A row of the scan, validated, put into a leaf. -/
def addRow (leaf : Page) (row : Row) : Built Page := do
  let validatedRow ← (t.schema.validateRow row).mapError fun e => .err (.schema e)
  built (leaf.leafInsert validatedRow).1
  return (leaf.leafInsert validatedRow).2

/-- The loop over the rows, from the leaf being filled on. -/
def fillLeaves : List Row → Page → UInt32 → Built (List Page × UInt32)
  | [], currPage, nextPageNum => return ([currPage], nextPageNum)
  | row :: rows, currPage, nextPageNum =>
    if currPage.canInsert row then do
      fillLeaves rows (← t.addRow currPage row) nextPageNum
    else do
      let fresh := Page.emptyLeaf (t.getPageId nextPageNum)
      let rest ← fillLeaves rows (← t.addRow fresh row) (nextPageNum + 1)
      return (currPage :: rest.1, rest.2)

/-- The leaves linked to their neighbours. -/
def linkLeaves : Option PageId → List Page → Built (List Page)
  | _, [] => return []
  | prev, leaf :: leaves => do
    built (leaf.setPrev prev).1
    let leaf := (leaf.setPrev prev).2
    built (leaf.setNext (leaves.head?.map Page.pageId)).1
    let leaf := (leaf.setNext (leaves.head?.map Page.pageId)).2
    return leaf :: (← linkLeaves (some leaf.pageId) leaves)

/-- `Table::first_key`. -/
def firstKey (page : Page) : Built Key := do
  let records ← expected page.records?
  let row ← expected records.head?
  expected row.key?

/-- `Table::new_internal`, without the `+= 1`. -/
def newInternal (pageNum : UInt32) (rightChild : PageId) : Page :=
  Page.emptyPage (t.getPageId pageNum) (.internal [] [rightChild])

/-- A level: the first key under each page, and the page. -/
abbrev LevelList := List (Key × PageId)

/-- The loop of `build_internal_level`, from the page being filled on: the level it builds,
    its pages, and the next page number. -/
def fillInternals : LevelList → Key → Page → UInt32 → Built (LevelList × List Page × UInt32)
  | [], lowKey, page, nextPageNum => return ([(lowKey, page.pageId)], [page], nextPageNum)
  | entry :: rest, lowKey, page, nextPageNum =>
    if page.canInsertSeparator entry.1 then do
      built (page.internalInsert entry.1 entry.2).1
      fillInternals rest lowKey (page.internalInsert entry.1 entry.2).2 nextPageNum
    else do
      let fresh := t.newInternal nextPageNum entry.2
      let above ← fillInternals rest entry.1 fresh (nextPageNum + 1)
      return ((lowKey, page.pageId) :: above.1, page :: above.2.1, above.2.2)

/-- `Table::build_internal_level`. -/
def buildInternalLevel (children : LevelList) (nextPageNum : UInt32) : Built (LevelList × List Page × UInt32) := do
  let first ← expected children.head?
  let page := t.newInternal nextPageNum first.2
  t.fillInternals children.tail first.1 page (nextPageNum + 1)

/-- The loop over the levels; `level[0]` may be out of range. -/
def buildLevels : Nat → LevelList → UInt32 → List Page → Built (PageId × UInt32 × List Page)
  | 0, _, _, _ => throw .outOfFuel
  | fuel + 1, level, nextPageNum, internals =>
    if 1 < level.length then do
      let above ← t.buildInternalLevel level nextPageNum
      buildLevels fuel above.1 above.2.2 (internals ++ above.2.1)
    else do
      let first ← expected level.head?
      return (first.2, nextPageNum, internals)

/-- The new tree: its root, the next page number, and its pages, inner ones first. -/
def pack (fuel : Nat) (rows : List Row) : Built (PageId × UInt32 × List Page) := do
  let filled ← t.fillLeaves rows (Page.emptyLeaf (t.getPageId 1)) 2
  let leaves ← linkLeaves none filled.1
  let level ← leaves.mapM fun leaf => do return ((← firstKey leaf), leaf.pageId)
  let tree ← t.buildLevels fuel level filled.2 []
  return (tree.1, tree.2.1, tree.2.2 ++ leaves)

/-- `Table::vacuum`. -/
def vacuum (fuel : Nat) : TB Unit := unwinding do
  let rows ← (BTree.getAll t fuel fun _ => true).mapErr .btree
  let tree ← ExceptT.mk (pure (t.pack fuel rows))
  let metaPage ← bpm (fetchRead t.metaId)
  drop t.metaId
  page .page (metaPage.metaSetRootId tree.1).1
  let metaPage := (metaPage.metaSetRootId tree.1).2
  page .page (metaPage.metaSetPageCount tree.2.1).1
  let metaPage := (metaPage.metaSetPageCount tree.2.1).2
  let _ ← page .page (metaPage.metaSetFreeListHead none).1
  let metaPage := (metaPage.metaSetFreeListHead none).2
  bpm (swapFile (metaPage :: tree.2.2))

/-! ## Page numbers -/

/-- The page ids from page number `n` on. -/
def pageIds (n : UInt32) : Nat → List PageId
  | 0 => []
  | k + 1 => t.getPageId n :: pageIds (n + 1) k

/-- Things on consecutive pages, from page number `n` on. -/
def numbered {α : Type} (n : UInt32) : List α → List (PageId × α)
  | [] => []
  | a :: as => (t.getPageId n, a) :: numbered (n + 1) as

section
variable {t} {α β : Type} {n : UInt32}

@[simp] theorem built_ok (a : α) : built (.ok a) = .ok a := rfl

@[simp] theorem ok_bind (a : α) (f : α → Built β) : ((.ok a : Built α) >>= f) = f a := rfl

@[simp] theorem error_bind (e : Fail TableError) (f : α → Built β) : ((.error e : Built α) >>= f) = .error e := rfl

theorem add_one_add (n : UInt32) (k : Nat) : n + 1 + UInt32.ofNat k = n + UInt32.ofNat (k + 1) := by
  rw [UInt32.add_assoc, UInt32.ofNat_add, UInt32.add_comm 1]
  rfl

theorem pageIds_length (n : UInt32) (k : Nat) : (t.pageIds n k).length = k := by
  induction k generalizing n with
  | zero => rfl
  | succ k ih => rw [pageIds, List.length_cons, ih]

theorem pageIds_append (n : UInt32) (k m : Nat) :
    t.pageIds n k ++ t.pageIds (n + UInt32.ofNat k) m = t.pageIds n (k + m) := by
  induction k generalizing n with
  | zero => simp [pageIds]
  | succ k ih =>
    rw [pageIds, List.cons_append, ← add_one_add, ih, Nat.add_right_comm]
    rfl

theorem numbered_fst (n : UInt32) (as : List α) : (t.numbered n as).map Prod.fst = t.pageIds n as.length := by
  induction as generalizing n with
  | nil => rfl
  | cons a as ih => rw [numbered, List.map_cons, ih, List.length_cons, pageIds]

theorem numbered_snd (n : UInt32) (as : List α) : (t.numbered n as).map Prod.snd = as := by
  induction as generalizing n with
  | nil => rfl
  | cons a as ih => rw [numbered, List.map_cons, ih]

theorem numbered_length (n : UInt32) (as : List α) : (t.numbered n as).length = as.length := by
  rw [← List.length_map Prod.snd, numbered_snd]

end

/-! ## Leaves -/

/-- A leaf not yet linked. -/
def leafPage (cell : PageId × List Row) : Page := ⟨cell.1, none, .leaf cell.2 none none⟩

/-- The leaves' rows, the first of which has those of `done`. -/
abbrev leafBins (done rows : List Row) : List (List Row) :=
  bins Page.leafEntrySize Page.leafEntrySize leafUsable (Page.rowsSize done) done rows

section
variable {t} {id : PageId} {done rows : List Row} {row : Row}

theorem addRow_fits {v : ValidatedRow} (hv : t.schema.validateRow row = .ok v) (hdone : Page.LeafValid done)
    (hlt : ∀ x ∈ done, x.key < row.key) (hfit : Page.rowsSize done + Page.leafEntrySize row ≤ leafUsable) :
    t.addRow (leafPage (id, done)) row = .ok (leafPage (id, done ++ [row])) ∧ Page.LeafValid (done ++ [row]) := by
  have hrow := Schema.validateRow_ok hv
  subst hrow
  have hdone' : Page.LeafValid (done ++ []) := by rwa [List.append_nil]
  have hinsert := @Page.leafInsert_fits id none done [] none none v hdone' hlt (by simp) (by rwa [List.append_nil])
  rw [List.append_nil] at hinsert
  refine ⟨?_, Page.leafValid_insert hdone' (Page.rowFits_validated v) hlt (by simp) (by rwa [List.append_nil])⟩
  rw [addRow, hv]
  show (built (Page.leafInsert (leafPage (id, done)) v).1 >>= fun _ => pure (Page.leafInsert (leafPage (id, done)) v).2) = _
  rw [leafPage, hinsert]
  rfl

theorem sorted_split {a b : List Row} {r : Row} (h : ((a ++ r :: b).map Row.key).Pairwise (· < ·)) :
    (∀ x ∈ a, x.key < r.key) ∧ (((a ++ [r]) ++ b).map Row.key).Pairwise (· < ·) ∧
    ((r :: b).map Row.key).Pairwise (· < ·) := by
  refine ⟨fun x hx => ?_, by simpa using h, ?_⟩
  · rw [List.map_append, List.map_cons, List.pairwise_append] at h
    exact h.2.2 _ (List.mem_map_of_mem hx) _ List.mem_cons_self
  · rw [List.map_append, List.pairwise_append] at h
    exact h.2.1

theorem leafValid_nil : Page.LeafValid [] := ⟨by simp, List.Pairwise.nil, by simp⟩

/-- What filling leaves comes to, from page `n` with the rows `done` on. -/
theorem fillLeaves_eq {rows done : List Row} {n : UInt32} (hvalid : ∀ r ∈ rows, ∃ v, t.schema.validateRow r = .ok v)
    (hdone : Page.LeafValid done) (hsorted : ((done ++ rows).map Row.key).Pairwise (· < ·)) :
    t.fillLeaves rows (leafPage (t.getPageId n, done)) (n + 1) =
        .ok ((t.numbered n (leafBins done rows)).map leafPage, n + UInt32.ofNat (leafBins done rows).length) ∧
      ∀ bin ∈ leafBins done rows, Page.LeafValid bin := by
  induction rows generalizing done n with
  | nil =>
    refine ⟨rfl, fun bin hbin => ?_⟩
    rw [List.mem_singleton.mp hbin]
    exact hdone
  | cons row rows ih =>
    obtain ⟨v, hv⟩ := hvalid row List.mem_cons_self
    obtain ⟨hlt, hsorted', hrest⟩ := sorted_split hsorted
    have hvalid' : ∀ r ∈ rows, ∃ v, t.schema.validateRow r = .ok v := fun r hr => hvalid r (List.mem_cons_of_mem _ hr)
    have hcan : (leafPage (t.getPageId n, done)).canInsert row =
        decide (Page.rowsSize done + Page.leafEntrySize row ≤ leafUsable) :=
      Page.canInsert_leaf row hdone.size
    unfold fillLeaves
    by_cases hfit : Page.rowsSize done + Page.leafEntrySize row ≤ leafUsable
    · obtain ⟨hadd, hdone'⟩ := @addRow_fits t (t.getPageId n) done row v hv hdone hlt hfit
      have hsize : Page.rowsSize (done ++ [row]) = Page.rowsSize done + Page.leafEntrySize row := by
        rw [Page.rowsSize_append, Page.rowsSize_cons, Page.rowsSize_nil, Nat.add_zero]
      have hstep := @ih (done ++ [row]) n hvalid' hdone' hsorted'
      simp only [leafBins, hsize] at hstep
      simp only [hcan, hfit, decide_true, if_true, hadd, ok_bind, leafBins, bins_fits hfit]
      exact hstep
    · have hmax := (Page.rowFits_validated v).row
      rw [Schema.validateRow_ok hv] at hmax
      obtain ⟨hadd, hdone'⟩ := @addRow_fits t (t.getPageId (n + 1)) [] row v hv leafValid_nil (by simp)
        (by rw [Page.rowsSize_nil, Nat.zero_add]; exact hmax.trans (by decide))
      have hsize : Page.rowsSize [row] = Page.leafEntrySize row := by
        rw [Page.rowsSize_cons, Page.rowsSize_nil, Nat.add_zero]
      have hfresh : Page.emptyLeaf (t.getPageId (n + 1)) = leafPage (t.getPageId (n + 1), []) := rfl
      rw [List.nil_append] at hadd hdone'
      obtain ⟨hstep, hbins⟩ := @ih [row] (n + 1) hvalid' hdone' hrest
      simp only [leafBins, hsize] at hstep hbins
      simp only [hcan, hfit, decide_false, Bool.false_eq_true, if_false, hfresh, hadd, ok_bind, hstep, leafBins,
        bins_full hfit]
      refine ⟨?_, List.forall_mem_cons.mpr ⟨hdone, hbins⟩⟩
      rw [numbered, List.map_cons, List.length_cons, ← add_one_add]
      rfl

end

/-! ## Internal pages -/

/-- An internal page over a run of a level, separated by its keys. -/
def innerPage (cell : PageId × LevelList) : Page :=
  ⟨cell.1, none, .internal (cell.2.tail.map Prod.fst) (cell.2.map Prod.snd)⟩

/-- What an entry costs beside others. -/
abbrev entrySize (e : Key × PageId) : Nat := Page.internalEntrySize e.1

/-- The runs of a level, the first of which starts with `done`. -/
abbrev levelBins (done rest : LevelList) : List LevelList :=
  bins entrySize (fun _ => 0) internalUsable (Page.keysSize (done.tail.map Prod.fst)) done rest

/-- The entries that start a run after the first one. -/
abbrev levelStarts (done rest : LevelList) : LevelList :=
  starts entrySize (fun _ => 0) internalUsable (Page.keysSize (done.tail.map Prod.fst)) rest

/-- The entry of the level above, for a page that starts with an entry. -/
def lowEntry (cell : PageId × (Key × PageId)) : Key × PageId := (cell.2.1, cell.1)

section
variable {t} {id : PageId} {keys : List Key} {first e : Key × PageId} {es rest : LevelList} {n : UInt32}

theorem keysValid_nil : Page.KeysValid [] := ⟨by simp, List.Pairwise.nil, by simp⟩

/-- A separator, and the child to its right, put behind the others. -/
theorem internalInsert_last {id : PageId} {keys : List Key} {children : List PageId} {child : PageId} {key : Key}
    (hkeys : Page.KeysValid keys) (hkey : Page.KeyFits key) (hlt : ∀ x ∈ keys, x < key)
    (hlen : children.length = keys.length + 1)
    (hfit : Page.keysSize keys + Page.internalEntrySize key ≤ internalUsable) :
    Page.internalInsert ⟨id, none, .internal keys children⟩ key child =
      (.ok (), ⟨id, none, .internal (keys ++ [key]) (children ++ [child])⟩) ∧ Page.KeysValid (keys ++ [key]) := by
  have hkeys' : Page.KeysValid (keys ++ []) := by rwa [List.append_nil]
  rcases List.eq_nil_or_concat children with rfl | ⟨before, last, rfl⟩
  · cases hlen
  rw [List.concat_eq_append, List.length_append, List.length_singleton] at hlen
  have hinsert := @Page.internalInsert_fits id none keys [] before [] last child key hkeys' hkey hlt (by simp)
    (Nat.succ_injective hlen) (by rwa [List.append_nil])
  rw [List.append_nil] at hinsert
  rw [List.concat_eq_append, hinsert, List.append_assoc]
  exact ⟨rfl, Page.keysValid_insert hkeys' hkey hlt (by simp) (by rwa [List.append_nil])⟩

/-- What packing a level comes to, from page `n` over the entries of `first :: es` on. -/
theorem fillInternals_eq (hfits : ∀ e ∈ rest, Page.KeyFits e.1) (hkeys : Page.KeysValid (es.map Prod.fst))
    (hsorted : ((first :: (es ++ rest)).map Prod.fst).Pairwise (· < ·)) :
    t.fillInternals rest first.1 (innerPage (t.getPageId n, first :: es)) (n + 1) =
        .ok ((t.numbered n (first :: levelStarts (first :: es) rest)).map lowEntry,
          (t.numbered n (levelBins (first :: es) rest)).map innerPage,
          n + UInt32.ofNat (levelBins (first :: es) rest).length) ∧
      ∀ bin ∈ levelBins (first :: es) rest, Page.KeysValid (bin.tail.map Prod.fst) := by
  induction rest generalizing first es n with
  | nil =>
    refine ⟨rfl, fun bin hbin => ?_⟩
    rw [List.mem_singleton.mp hbin]
    exact hkeys
  | cons e rest ih =>
    have hfits' : ∀ e ∈ rest, Page.KeyFits e.1 := fun x hx => hfits x (List.mem_cons_of_mem _ hx)
    have hfit := hfits e List.mem_cons_self
    have hcan : (innerPage (t.getPageId n, first :: es)).canInsertSeparator e.1 =
        decide (Page.keysSize (es.map Prod.fst) + entrySize e ≤ internalUsable) :=
      Page.canInsertSeparator_internal e.1 hkeys.size
    have htail : ((es ++ e :: rest).map Prod.fst).Pairwise (· < ·) := (List.pairwise_cons.mp hsorted).2
    rw [List.map_append, List.pairwise_append] at htail
    obtain ⟨-, hrest, hlt⟩ := htail
    unfold fillInternals
    by_cases hroom : Page.keysSize (es.map Prod.fst) + entrySize e ≤ internalUsable
    · obtain ⟨hinsert, hkeys'⟩ := @internalInsert_last (t.getPageId n) (es.map Prod.fst) ((first :: es).map Prod.snd) e.2 e.1
        hkeys hfit (fun x hx => hlt x hx _ List.mem_cons_self) (by simp) hroom
      have hpage : Page.internalInsert (innerPage (t.getPageId n, first :: es)) e.1 e.2 =
          (.ok (), innerPage (t.getPageId n, first :: (es ++ [e]))) := by
        rw [innerPage, List.tail_cons, hinsert, innerPage]
        simp
      have hmap : (es ++ [e]).map Prod.fst = es.map Prod.fst ++ [e.1] := by simp
      have hsize : Page.keysSize ((es ++ [e]).map Prod.fst) = Page.keysSize (es.map Prod.fst) + entrySize e := by
        rw [hmap, Page.keysSize_append, Page.keysSize_cons, Page.keysSize_nil, Nat.add_zero]
      have hstep := @ih first (es ++ [e]) n hfits' (hmap ▸ hkeys') (by simpa using hsorted)
      simp only [levelBins, levelStarts, List.tail_cons, hsize] at hstep
      simp only [hcan, hroom, decide_true, if_true, hpage, built_ok, ok_bind, levelBins, levelStarts, List.tail_cons,
        bins_fits hroom, starts_fits hroom]
      exact hstep
    · have hfresh : t.newInternal (n + 1) e.2 = innerPage (t.getPageId (n + 1), [e]) := rfl
      obtain ⟨hstep, hbins⟩ := @ih e [] (n + 1) hfits' keysValid_nil hrest
      simp only [levelBins, levelStarts, List.tail_cons, List.map_nil, Page.keysSize_nil] at hstep hbins
      simp only [hcan, hroom, decide_false, Bool.false_eq_true, if_false, hfresh, hstep, ok_bind, levelBins, levelStarts,
        List.tail_cons, bins_full hroom, starts_full hroom]
      refine ⟨?_, List.forall_mem_cons.mpr ⟨hkeys, hbins⟩⟩
      rw [List.length_cons, ← add_one_add]
      rfl

end

/-! ## Levels -/

/-- The entries of a level that start a page above it. -/
abbrev levelHeads (children : LevelList) : LevelList := heads entrySize (fun _ => 0) internalUsable children

/-- The runs of a level, one for each page above it. -/
def levelRuns : LevelList → List LevelList
  | [] => []
  | first :: rest => levelBins [first] rest

/-- A level of `pages` over `children`, on page numbers from `n` on. -/
structure LevelOver (n : UInt32) (children level : LevelList) (pages : List Page) : Prop where
  runs : ∃ runs : List LevelList, runs.flatten = children ∧ (∀ run ∈ runs, run ≠ []) ∧
    pages.map Page.body = runs.map (fun run => .internal (run.tail.map Prod.fst) (run.map Prod.snd)) ∧
    level.map (fun e => some e.1) = runs.map (fun run => run.head?.map Prod.fst)
  below : (pages.flatMap fun page => page.children?.getD []) = children.map Prod.snd
  ids : level.map Prod.snd = pages.map Page.pageId
  numbers : pages.map Page.pageId = t.pageIds n pages.length
  sorted : (level.map Prod.fst).Pairwise (· < ·)
  shorter : 1 < children.length → level.length < children.length

/-- A pass of the loop over the levels: the level, the next page number, the pages built. -/
def LevelStep (s s' : LevelList × UInt32 × List Page) : Prop :=
  1 < s.1.length ∧ ∃ pages, t.buildInternalLevel s.1 s.2.1 = .ok (s'.1, pages, s'.2.1) ∧ s'.2.2 = s.2.2 ++ pages

section
variable {t} {children : LevelList} {n : UInt32}

theorem levelRuns_flatten (children : LevelList) : (levelRuns children).flatten = children := by
  cases children with
  | nil => rfl
  | cons first rest => exact bins_flatten _ [first] rest

theorem levelRuns_heads (children : LevelList) : (levelRuns children).map List.head? = (levelHeads children).map some := by
  cases children with
  | nil => rfl
  | cons first rest => exact bins_heads _ (List.cons_ne_nil first []) rest

theorem levelRuns_length (children : LevelList) : (levelRuns children).length = (levelHeads children).length := by
  rw [← List.length_map List.head?, levelRuns_heads, List.length_map]

theorem levelHeads_keys (hsorted : (children.map Prod.fst).Pairwise (· < ·)) :
    ((levelHeads children).map Prod.fst).Pairwise (· < ·) := hsorted.sublist ((heads_sublist children).map Prod.fst)

/-- Any two separators fit an empty page, so a level is shorter than the one below. -/
theorem levelHeads_lt (hfits : ∀ e ∈ children, Page.KeyFits e.1) (hlen : 1 < children.length) :
    (levelHeads children).length < children.length := by
  refine heads_length_lt (fun x _ y hy => ?_) hlen
  rw [Nat.zero_add]
  exact Nat.le_trans (hfits y hy) (by decide)

theorem buildInternalLevel_eq (hne : children ≠ []) (hfits : ∀ e ∈ children, Page.KeyFits e.1)
    (hsorted : (children.map Prod.fst).Pairwise (· < ·)) :
    t.buildInternalLevel children n =
        .ok ((t.numbered n (levelHeads children)).map lowEntry, (t.numbered n (levelRuns children)).map innerPage,
          n + UInt32.ofNat (levelRuns children).length) ∧
      ∀ run ∈ levelRuns children, Page.KeysValid (run.tail.map Prod.fst) := by
  obtain ⟨first, rest, rfl⟩ := List.exists_cons_of_ne_nil hne
  exact @fillInternals_eq t first [] rest n (fun e he => hfits e (List.mem_cons_of_mem _ he)) keysValid_nil hsorted

theorem map_lowEntry_fst (n : UInt32) (es : LevelList) :
    ((t.numbered n es).map lowEntry).map Prod.fst = es.map Prod.fst := by
  rw [List.map_map, ← numbered_snd (t := t) n es, List.map_map, numbered_snd]
  rfl

theorem map_lowEntry_snd (n : UInt32) (es : LevelList) :
    ((t.numbered n es).map lowEntry).map Prod.snd = t.pageIds n es.length := by
  rw [List.map_map, ← numbered_fst]
  rfl

/-- `build_internal_level`, over any level with keys of admitted size, in order. -/
theorem buildInternalLevel_spec (hne : children ≠ []) (hfits : ∀ e ∈ children, Page.KeyFits e.1)
    (hsorted : (children.map Prod.fst).Pairwise (· < ·)) :
    ∃ level pages, t.buildInternalLevel children n = .ok (level, pages, n + UInt32.ofNat pages.length) ∧
      t.LevelOver n children level pages ∧ level ≠ [] ∧ ∀ e ∈ level, Page.KeyFits e.1 := by
  obtain ⟨hbuild, -⟩ := @buildInternalLevel_eq t children n hne hfits hsorted
  have hpages : ((t.numbered n (levelRuns children)).map innerPage).length = (levelRuns children).length := by
    rw [List.length_map, numbered_length]
  have hids : ((t.numbered n (levelRuns children)).map innerPage).map Page.pageId = t.pageIds n
      (levelRuns children).length := by
    rw [List.map_map, ← numbered_fst]
    rfl
  have hkeys : ((t.numbered n (levelHeads children)).map lowEntry).map Prod.fst = (levelHeads children).map Prod.fst :=
    map_lowEntry_fst n _
  refine ⟨_, _, by rw [hbuild, hpages],
    ⟨⟨levelRuns children, levelRuns_flatten children, ?_, ?_, ?_⟩, ?_, ?_, ?_, ?_, ?_⟩, ?_, ?_⟩
  · obtain ⟨first, rest, rfl⟩ := List.exists_cons_of_ne_nil hne
    exact fun run hrun => bins_ne_nil (List.cons_ne_nil first []) hrun
  · rw [List.map_map]
    conv_rhs => rw [← numbered_snd (t := t) n (levelRuns children), List.map_map]
    rfl
  · calc ((t.numbered n (levelHeads children)).map lowEntry).map (fun e => some e.1)
        = (((t.numbered n (levelHeads children)).map lowEntry).map Prod.fst).map some := (List.map_map ..).symm
      _ = ((levelHeads children).map some).map (Option.map Prod.fst) := by rw [hkeys, List.map_map, List.map_map]; rfl
      _ = (levelRuns children).map (fun run => run.head?.map Prod.fst) := by rw [← levelRuns_heads, List.map_map]; rfl
  · calc (((t.numbered n (levelRuns children)).map innerPage).flatMap fun page => page.children?.getD [])
        = ((t.numbered n (levelRuns children)).map Prod.snd).flatMap (List.map Prod.snd) := by
          rw [List.flatMap_map, List.flatMap_map]
          rfl
      _ = children.map Prod.snd := by rw [numbered_snd, ← List.map_flatMap, List.flatMap_id', levelRuns_flatten]
  · rw [map_lowEntry_snd, hids, levelRuns_length]
  · rw [hids, hpages]
  · rw [hkeys]
    exact levelHeads_keys hsorted
  · intro hlen
    rw [List.length_map, numbered_length]
    exact levelHeads_lt hfits hlen
  · intro hnil
    have hlen := congrArg List.length hnil
    rw [List.length_map, numbered_length] at hlen
    exact heads_ne_nil hne (List.length_eq_zero_iff.mp hlen)
  · intro e he
    have hkey : e.1 ∈ (levelHeads children).map Prod.fst := hkeys ▸ List.mem_map_of_mem he
    obtain ⟨e', he', hfst⟩ := List.mem_map.mp hkey
    exact hfst ▸ hfits e' ((heads_sublist children).subset he')

/-- The loop over the levels ends, with one page left. -/
theorem buildLevels_run (hne : children ≠ []) (hfits : ∀ e ∈ children, Page.KeyFits e.1)
    (hsorted : (children.map Prod.fst).Pairwise (· < ·)) (n : UInt32) (internals : List Page) :
    ∃ low root next internals', (∀ fuel, children.length ≤ fuel →
        t.buildLevels fuel children n internals = .ok (root, next, internals')) ∧
      Relation.ReflTransGen t.LevelStep (children, n, internals) ([(low, root)], next, internals') := by
  induction hlen : children.length using Nat.strong_induction_on generalizing children n internals with
  | _ len ih =>
    subst hlen
    by_cases hmore : 1 < children.length
    · obtain ⟨level, pages, hbuild, hover, hlevel, hkeys⟩ := @buildInternalLevel_spec t children n hne hfits hsorted
      obtain ⟨low, root, next, internals', hloop, hsteps⟩ :=
        ih level.length (hover.shorter hmore) hlevel hkeys hover.sorted (n + UInt32.ofNat pages.length)
        (internals ++ pages) rfl
      refine ⟨low, root, next, internals', fun fuel hfuel => ?_, .head ⟨hmore, pages, hbuild, rfl⟩ hsteps⟩
      obtain ⟨fuel, rfl⟩ : ∃ k, fuel = k + 1 := ⟨fuel - 1, by omega⟩
      unfold buildLevels
      rw [if_pos hmore, hbuild, ok_bind]
      exact hloop fuel (by have := hover.shorter hmore; omega)
    · obtain ⟨first, rest, rfl⟩ := List.exists_cons_of_ne_nil hne
      obtain rfl : rest = [] := List.length_eq_zero_iff.mp (by rw [List.length_cons] at hmore; omega)
      refine ⟨first.1, first.2, n, internals, fun fuel hfuel => ?_, .refl⟩
      obtain ⟨fuel, rfl⟩ : ∃ k, fuel = k + 1 := ⟨fuel - 1, by rw [List.length_singleton] at hfuel; omega⟩
      unfold buildLevels
      rw [if_neg hmore]
      rfl

/-- A level is packed over any list of keys of admitted size, and levels over levels until
    one page is left. -/
theorem buildInternalLevel_packs (hne : children ≠ []) (hfits : ∀ e ∈ children, Page.KeyFits e.1)
    (hsorted : (children.map Prod.fst).Pairwise (· < ·)) (n : UInt32) :
    (∃ level pages, t.buildInternalLevel children n = .ok (level, pages, n + UInt32.ofNat pages.length) ∧
      t.LevelOver n children level pages) ∧
    ∀ internals, ∃ low root next internals', (∀ fuel, children.length ≤ fuel →
        t.buildLevels fuel children n internals = .ok (root, next, internals')) ∧
      Relation.ReflTransGen t.LevelStep (children, n, internals) ([(low, root)], next, internals') := by
  obtain ⟨level, pages, hbuild, hover, -, -⟩ := @buildInternalLevel_spec t children n hne hfits hsorted
  exact ⟨⟨level, pages, hbuild, hover⟩, fun internals => buildLevels_run hne hfits hsorted n internals⟩

theorem buildInternalLevel_packs_two :
    ∃ level pages, BTree.smallTable.buildInternalLevel
        [(.integer 1, ⟨⟨1⟩, 1⟩), (.integer 5, ⟨⟨1⟩, 2⟩)] 3 = .ok (level, pages, 3 + UInt32.ofNat pages.length) ∧
      BTree.smallTable.LevelOver 3 [(.integer 1, ⟨⟨1⟩, 1⟩), (.integer 5, ⟨⟨1⟩, 2⟩)] level pages :=
  (buildInternalLevel_packs (List.cons_ne_nil _ _) (by unfold Page.KeyFits; decide) (by decide) 3).1

end

end Table

end RustDb
