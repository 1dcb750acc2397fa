/-
  RustDb.Vacuum.Run — `Table::vacuum` on a table that can be read, and the tree of the new
  file.

  `exec_vacuum` and `exec_vacuum_error` say what a run comes to: the pages of the rows'
  packed tree under a new meta page, or a panic where there is no row (`first_key` expects
  one). While the page numbers fit, the new file holds that tree (`PackedTree.inStore`).
  Proved from there:
  - `vacuum_correct_iff`: vacuum succeeds and changes no answer exactly when there is a row
    and the page count fits; without rows it panics;
  - `vacuum_structural_iff`: the tree it leaves has the shape that `rebalance` expects
    exactly when the last page of every level takes a second child.
-/

import Mathlib
import RustDb.Vacuum.Tree

namespace RustDb

open Lib.SearchTree Lib.Pack Call BTree

/-! ## A freshly written file -/

section
variable {pages before : List Page} {p : Page} {id : PageId}

/-- A page is read back when no page after it has its id. -/
theorem Store.ofPages_mem (hnodup : (pages.map Page.pageId).Nodup) (hp : p ∈ pages) :
    (Store.ofPages pages).page p.pageId = some p := by
  show pages.reverse.find? (·.pageId = p.pageId) = some p
  have hnodup' : (pages.reverse.map Page.pageId).Nodup := by
    rw [List.map_reverse]
    exact List.nodup_reverse.mpr hnodup
  obtain ⟨a, b, hab⟩ := List.append_of_mem (List.mem_reverse.mpr hp)
  rw [hab, List.map_append, List.map_cons, List.nodup_append] at hnodup'
  rw [hab, List.find?_append, List.find?_eq_none.mpr, Option.none_or, List.find?_cons_of_pos (by simp)]
  intro x hx
  simpa using hnodup'.2.2 x.pageId (List.mem_map_of_mem hx) p.pageId List.mem_cons_self

/-- Under an id that later pages have, one of them is read. -/
theorem Store.ofPages_later (hid : id ∈ pages.map Page.pageId) :
    ∃ p ∈ pages, (Store.ofPages (before ++ pages)).page id = some p := by
  obtain ⟨p, hp, rfl⟩ := List.mem_map.mp hid
  have hsome : (pages.reverse.find? (·.pageId = p.pageId)).isSome := by
    rw [List.find?_isSome]
    exact ⟨p, List.mem_reverse.mpr hp, by simp⟩
  obtain ⟨q, hq⟩ := Option.isSome_iff_exists.mp hsome
  refine ⟨q, Store.mem_of_page hq, ?_⟩
  show (before ++ pages).reverse.find? (·.pageId = p.pageId) = some q
  rw [List.reverse_append, List.find?_append, hq]
  rfl

end

namespace Table

section
variable {t : Table} {n : UInt32} {id : PageId} {k : Nat}

theorem mem_pageIds : id ∈ t.pageIds n k ↔ ∃ i < k, id = t.getPageId (n + UInt32.ofNat i) := by
  induction k generalizing n with
  | zero => simp [pageIds]
  | succ k ih =>
    rw [pageIds, List.mem_cons, ih]
    constructor
    · rintro (rfl | ⟨i, hi, rfl⟩)
      · exact ⟨0, Nat.succ_pos k, by rw [show n + UInt32.ofNat 0 = n from UInt32.add_zero n]⟩
      · exact ⟨i + 1, Nat.succ_lt_succ hi, by rw [add_one_add]⟩
    · rintro ⟨i, hi, rfl⟩
      cases i with
      | zero => exact Or.inl (by rw [show n + UInt32.ofNat 0 = n from UInt32.add_zero n])
      | succ i => exact Or.inr ⟨i, Nat.lt_of_succ_lt_succ hi, by rw [add_one_add]⟩

/-- Page numbers from 1 on, while they do not wrap. -/
theorem mem_pageIds_one (hk : k < 2 ^ 32) :
    id ∈ t.pageIds 1 k ↔ id.tableId = t.metaId.tableId ∧ 0 < id.pageNum.toNat ∧ id.pageNum.toNat ≤ k := by
  have hnum : ∀ i < k, (1 + UInt32.ofNat i).toNat = i + 1 := by
    intro i hi
    rw [UInt32.toNat_add, UInt32.toNat_ofNat_of_lt' (by show i < 2 ^ 32; omega)]
    show (1 + i) % 2 ^ 32 = i + 1
    omega
  rw [mem_pageIds]
  constructor
  · rintro ⟨i, hi, rfl⟩
    refine ⟨rfl, ?_⟩
    show 0 < (1 + UInt32.ofNat i).toNat ∧ (1 + UInt32.ofNat i).toNat ≤ k
    rw [hnum i hi]
    omega
  · rintro ⟨htable, hpos, hle⟩
    refine ⟨id.pageNum.toNat - 1, by omega, ?_⟩
    have hpage : 1 + UInt32.ofNat (id.pageNum.toNat - 1) = id.pageNum := by
      refine UInt32.toNat_inj.mp ?_
      rw [hnum _ (by omega)]
      omega
    rw [hpage, getPageId, ← htable]

theorem pageIds_nodup (hk : k < 2 ^ 32) : (t.pageIds 1 k).Nodup := by
  induction k with
  | zero => exact List.nodup_nil
  | succ k ih =>
    rw [← pageIds_append 1 k 1, List.nodup_append]
    refine ⟨ih (by omega), by simp [pageIds], ?_⟩
    intro a ha b hb hab
    rw [mem_pageIds_one (by omega)] at ha
    obtain rfl : b = t.getPageId (1 + UInt32.ofNat k) := List.mem_singleton.mp hb
    rw [hab] at ha
    have hle : (1 + UInt32.ofNat k).toNat ≤ k := ha.2.2
    rw [UInt32.toNat_add, UInt32.toNat_ofNat_of_lt' (by show k < 2 ^ 32; omega)] at hle
    have hmod : (1 + k) % 2 ^ 32 = k + 1 := by omega
    have : (1 + k) % 2 ^ 32 ≤ k := hle
    omega

/-- Numbers that wrap come by the meta page's. -/
theorem zero_mem_pageIds (hk : 2 ^ 32 ≤ k) : t.getPageId 0 ∈ t.pageIds 1 k :=
  mem_pageIds.mpr ⟨2 ^ 32 - 1, by omega, rfl⟩

end

/-! ## One tree under a root -/

section
variable {σ : Store} {L : PageId → List Row → Prop} {N : PageId → List Key → List PageId → Prop}

theorem nodeAt_inj {id : PageId} {keys keys' : List Key} {children children' : List PageId} (h : nodeAt σ id keys children)
    (h' : nodeAt σ id keys' children') : keys = keys' ∧ children = children' := by
  obtain ⟨lsn, h⟩ := h
  obtain ⟨lsn', h'⟩ := h'
  rw [h, Option.some.injEq, Page.mk.injEq] at h'
  exact PageBody.internal.inj h'.2.2

/-- A store holds one tree under a root: what holds of its pages holds of them in any tree. -/
theorem all_of_root : ∀ {h h' : Nat} {T : PageTree h} {T' : PageTree h'}, T.All (leafAt σ) (nodeAt σ) →
    T'.All (leafAt σ) (nodeAt σ) → T.rootId = T'.rootId → T.All L N → T'.All L N
  | 0, 0, T, T' => T.casesZero fun id rows => T'.casesZero fun id' rows' hT hT' hroot hall => by
    obtain rfl : id = id' := hroot
    obtain rfl : rows = rows' := leafAt.inj hT hT'
    exact hall
  | 0, h' + 1, T, T' => T.casesZero fun id rows => T'.casesSucc fun id' keys kids hT hT' hroot _ => by
    obtain rfl : id = id' := hroot
    exact absurd (Tree.all_inner.mp hT').1 (leafAt.not_node hT)
  | h + 1, 0, T, T' => T.casesSucc fun id keys kids => T'.casesZero fun id' rows hT hT' hroot _ => by
    obtain rfl : id = id' := hroot
    exact absurd (Tree.all_inner.mp hT).1 (leafAt.not_node hT')
  | h + 1, h' + 1, T, T' => T.casesSucc fun id keys kids => T'.casesSucc fun id' keys' kids' hT hT' hroot hall => by
    obtain rfl : id = id' := hroot
    obtain ⟨hnode, hkids⟩ := Tree.all_inner.mp hT
    obtain ⟨hnode', hkids'⟩ := Tree.all_inner.mp hT'
    obtain ⟨hid, hall⟩ := Tree.all_inner.mp hall
    obtain ⟨rfl, hchildren⟩ := nodeAt_inj hnode hnode'
    refine Tree.all_inner.mpr ⟨hchildren ▸ hid, fun kid' hkid' => ?_⟩
    have hmem : kid'.rootId ∈ kids.map Tree.rootId := hchildren ▸ List.mem_map_of_mem hkid'
    obtain ⟨kid, hkid, heq⟩ := List.mem_map.mp hmem
    exact all_of_root (hkids kid hkid) (hkids' kid' hkid') heq (hall kid hkid)

end

/-! ## The new file holds the packed tree -/

/-- The pages of the new file. -/
def newFile (metaPage : Page) (inner : List Page) (cells : List (PageId × List Row)) : List Page :=
  metaPage :: (inner ++ linkedPages none cells)

section
variable {t : Table} {rows : List Row} {h : Nat} {T : PageTree h} {inner : List Page} {cells : List (PageId × List Row)}
  {m : Page}

/-- The links of the leaves, and a page for each. -/
theorem linkedPages_spec {σ : Store} {prev : Option PageId} (hσ : ∀ p ∈ linkedPages prev cells, σ.page p.pageId = some p) :
    Linked σ prev (cells.map Prod.fst) none ∧ ∀ cell ∈ cells, leafAt σ cell.1 cell.2 := by
  induction cells generalizing prev with
  | nil => exact ⟨trivial, by simp⟩
  | cons cell cells ih =>
    obtain ⟨hcell, hcells⟩ := List.forall_mem_cons.mp hσ
    obtain ⟨hlinked, hleaves⟩ := ih hcells
    refine ⟨⟨⟨none, cell.2, hcell.trans ?_⟩, hlinked⟩, List.forall_mem_cons.mpr ⟨⟨none, _, _, hcell⟩, hleaves⟩⟩
    cases cells <;> rfl

theorem linkedPages_valid {prev : Option PageId} (hcells : ∀ cell ∈ cells, Page.LeafValid cell.2) :
    ∀ p ∈ linkedPages prev cells, p.isMeta = false ∧ p.checkInvariants = .ok () := by
  induction cells generalizing prev with
  | nil => simp [linkedPages]
  | cons cell cells ih =>
    obtain ⟨hcell, hcells⟩ := List.forall_mem_cons.mp hcells
    exact List.forall_mem_cons.mpr ⟨⟨rfl, (Page.checkInvariants_iff _).mpr hcell⟩, ih hcells⟩

theorem PackedTree.filePages (hT : t.PackedTree rows T inner cells) :
    ((inner ++ linkedPages none cells).map Page.pageId).Perm (t.pageIds 1 (packedPages rows)) ∧
      ∀ p ∈ inner ++ linkedPages none cells, p.isMeta = false ∧ p.checkInvariants = .ok () := by
  refine ⟨?_, fun p hp => (List.mem_append.mp hp).elim (hT.valid p) ?_⟩
  · rw [List.map_append, linkedPages_ids, ← hT.numbers]
    exact List.perm_append_comm
  · exact linkedPages_valid (fun cell hcell => (hT.filled cell hcell).1) p

theorem PackedTree.ids_perm (hT : t.PackedTree rows T inner cells) : T.ids.Perm (t.pageIds 1 (packedPages rows)) := by
  refine hT.ids.trans ?_
  rw [← hT.numbers]
  exact List.perm_append_comm

/-- While the numbers fit, every page is read back. -/
theorem PackedTree.readBack (hT : t.PackedTree rows T inner cells) (hzero : t.metaId.pageNum = 0) (hm : m.pageId = t.metaId)
    (hcount : packedPages rows < 2 ^ 32) : ∀ p ∈ newFile m inner cells, (Store.ofPages (newFile m inner cells)).page
    p.pageId = some p := by
  intro p hp
  refine Store.ofPages_mem ?_ hp
  have hperm := hT.filePages.1
  rw [newFile, List.map_cons, List.nodup_cons, hperm.nodup_iff, hperm.mem_iff, hm]
  refine ⟨fun hmem => ?_, pageIds_nodup hcount⟩
  have hpos := ((mem_pageIds_one hcount).mp hmem).2.1
  rw [hzero] at hpos
  exact absurd hpos (by decide)

/-- Once they wrap, a page of the tree is written over the meta page. -/
theorem PackedTree.metaLost (hT : t.PackedTree rows T inner cells) (hzero : t.metaId.pageNum = 0)
    (hcount : ¬ packedPages rows < 2 ^ 32) : ∃ p, (Store.ofPages (newFile m inner cells)).page t.metaId = some p ∧
    p.isMeta = false := by
  have hmeta : t.metaId = t.getPageId 0 := by
    rw [getPageId, ← hzero]
  have hmem : t.metaId ∈ (inner ++ linkedPages none cells).map Page.pageId := by
    rw [hT.filePages.1.mem_iff, hmeta]
    exact zero_mem_pageIds (Nat.le_of_not_lt hcount)
  obtain ⟨p, hp, hpage⟩ := @Store.ofPages_later _ [m] _ hmem
  exact ⟨p, hpage, (hT.filePages.2 p hp).1⟩

/-- The tree whose pages a store holds. -/
structure InStore (σ : Store) {h : Nat} (T : PageTree h) : Prop where
  pages : T.All (leafAt σ) (nodeAt σ)
  passes : ∀ id ∈ T.ids, ∃ p, σ.page id = some p ∧ p.checkInvariants = .ok ()
  links : Linked σ none T.leaves none

/-- A tree over linked leaves and pages that are all read back. -/
theorem inStore_of_readBack (hread : ∀ p ∈ newFile m inner cells, (Store.ofPages (newFile m inner cells)).page
    p.pageId = some p)
    (hall : T.All (fun id rows => (id, rows) ∈ cells) fun id keys children => ⟨id, none, .internal keys children⟩ ∈ inner)
    (hcells : T.cells = cells) (hids : ∀ id ∈ T.ids, id ∈ (inner ++ linkedPages none cells).map Page.pageId)
    (hvalid : ∀ p ∈ inner ++ linkedPages none cells, p.isMeta = false ∧ p.checkInvariants = .ok ()) :
    InStore (Store.ofPages (newFile m inner cells)) T := by
  have hleaves := @linkedPages_spec _ (Store.ofPages (newFile m inner cells)) none fun p hp =>
    hread p (List.mem_cons_of_mem _ (List.mem_append_right _ hp))
  refine ⟨?_, fun id hid => ?_, ?_⟩
  · refine hall.imp (fun id rows _ hcell => hleaves.2 _ hcell) fun id keys children _ hp => ⟨none, ?_⟩
    exact hread _ (List.mem_cons_of_mem _ (List.mem_append_left _ hp))
  · obtain ⟨p, hp, rfl⟩ := List.mem_map.mp (hids id hid)
    exact ⟨p, hread p (List.mem_cons_of_mem _ hp), (hvalid p hp).2⟩
  · rw [← Tree.map_cells, hcells]
    exact hleaves.1

theorem PackedTree.inStore (hT : t.PackedTree rows T inner cells) (hzero : t.metaId.pageNum = 0) (hm : m.pageId = t.metaId)
    (hcount : packedPages rows < 2 ^ 32) : InStore (Store.ofPages (newFile m inner cells)) T := by
  refine inStore_of_readBack (hT.readBack hzero hm hcount) hT.all hT.leaves (fun id hid => ?_) hT.filePages.2
  rwa [hT.filePages.1.mem_iff, ← hT.ids_perm.mem_iff]

end

/-! ## Twenty-one rows with keys of the greatest size -/

def wordSchema : Schema := ⟨[⟨"w", .string, false⟩], by decide, by decide, by decide, by decide⟩

def wordTable : Table := ⟨⟨⟨1⟩, 0⟩, wordSchema, "t"⟩

/-- The letters of each leaf; every row is one letter over and over. -/
def wordLetters : List (List Char) :=
  [['a', 'b', 'c', 'd'], ['e', 'f', 'g', 'h'], ['i', 'j', 'k', 'l'], ['m', 'n', 'o', 'p'], ['q', 'r', 's', 't'], ['u']]

def wordCells : List (PageId × List Row) := wordTable.numbered 1 (wordLetters.map fun cs => cs.map longRow)

def wordLeft : PageTree 1 := nodeOver (⟨⟨1⟩, 7⟩, (wordCells.take 3).map leafTree)
def wordRight : PageTree 1 := nodeOver (⟨⟨1⟩, 8⟩, (wordCells.drop 3).map leafTree)
def wordTree : PageTree 2 := nodeOver (⟨⟨1⟩, 9⟩, [wordLeft, wordRight])

def wordMeta : Page := Page.emptyPage ⟨⟨1⟩, 0⟩ (.metaPage ⟨⟨1⟩, 9⟩ 10 none wordSchema "t")

def wordPages : List Page := newFile wordMeta [nodePage wordTree, nodePage wordLeft, nodePage wordRight] wordCells

section
variable {cs : List Char}

theorem longRows_sorted (hs : cs.Pairwise (· < ·)) : ((cs.map longRow).map Row.key).Pairwise (· < ·) := by
  rw [List.map_map]
  exact hs.map _ fun _ _ => longKey_lt

theorem longRows_valid (hc : ∀ c ∈ cs, c.utf8Size = 1) (hs : cs.Pairwise (· < ·)) (hlen : cs.length ≤ 4) :
    Page.LeafValid (cs.map longRow) := by
  have hsize : Page.rowsSize (cs.map longRow) = cs.length * 1009 := by
    clear hs hlen
    induction cs with
    | nil => rfl
    | cons c cs ih =>
      obtain ⟨hc, hcs⟩ := List.forall_mem_cons.mp hc
      rw [List.map_cons, Page.rowsSize_cons, ih hcs, size_longRow hc, List.length_cons]
      omega
  refine ⟨fun r hr => ?_, longRows_sorted hs, ?_⟩
  · obtain ⟨c, hmem, rfl⟩ := List.mem_map.mp hr
    exact longRow_fits (hc c hmem)
  · have husable : leafUsable = 4055 := rfl
    omega

theorem longKeys_valid (hc : ∀ c ∈ cs, c.utf8Size = 1) (hs : cs.Pairwise (· < ·)) (hlen : cs.length ≤ 4) :
    Page.KeysValid (cs.map longKey) := by
  have hsize : Page.keysSize (cs.map longKey) = cs.length * 1016 := by
    clear hs hlen
    induction cs with
    | nil => rfl
    | cons c cs ih =>
      obtain ⟨hc, hcs⟩ := List.forall_mem_cons.mp hc
      have hmax : maxInternalEntrySize = 1016 := rfl
      rw [List.map_cons, Page.keysSize_cons, ih hcs, size_longKey hc, List.length_cons]
      omega
  refine ⟨fun k hk => ?_, hs.map _ fun _ _ => longKey_lt, ?_⟩
  · obtain ⟨c, hmem, rfl⟩ := List.mem_map.mp hk
    exact (size_longKey (hc c hmem)).le
  · have husable : internalUsable = 4065 := rfl
    omega

theorem validateRow_long {c : Char} (hc : c.utf8Size = 1) : ∃ v, wordSchema.validateRow (longRow c) = .ok v := by
  have hrow : ¬ Page.leafEntrySize (longRow c) > maxLeafEntrySize := not_lt.mpr (longRow_fits hc).row
  have hfield : ¬ (longString c 1001).utf8ByteSize > maxFieldLen := by
    rw [size_longString hc]
    decide
  have hcols : Schema.checkColumns 0 wordSchema.columns (longRow c).fields = .ok () := if_neg hfield
  unfold Schema.validateRow
  rw [dif_neg (by simp [wordSchema, longRow]), dif_neg hrow]
  split
  · next hkey => cases hkey
  · next key hkey =>
    obtain rfl : longKey c = key := Option.some.inj hkey
    rw [dif_neg (not_lt.mpr (size_longKey hc).le), hcols]
    exact ⟨_, rfl⟩

theorem ascii_of_all (h : cs.all (fun c => c.utf8Size == 1) = true) : ∀ c ∈ cs, c.utf8Size = 1 := fun c hc =>
  eq_of_beq (List.all_eq_true.mp h c hc)

theorem wordLetters_ascii : ∀ cs ∈ wordLetters, ∀ c ∈ cs, c.utf8Size = 1 := by
  have hall : ∀ cs ∈ wordLetters, cs.all (fun c => c.utf8Size == 1) = true := by decide
  exact fun cs hcs => ascii_of_all (hall cs hcs)

theorem wordLetters_sorted : wordLetters.flatten.Pairwise (· < ·) := by decide

theorem wordTree_rows : wordTree.rows = wordLetters.flatten.map longRow := rfl

theorem wordCell_valid : ∀ cell ∈ wordCells, Page.LeafValid cell.2 ∧ cell.2 ≠ [] := by
  intro cell hcell
  have hrows : cell.2 ∈ wordLetters.map fun cs => cs.map longRow := by
    rw [← numbered_snd (t := wordTable) 1 (wordLetters.map fun cs => cs.map longRow)]
    exact List.mem_map_of_mem hcell
  obtain ⟨cs, hcs, heq⟩ := List.mem_map.mp hrows
  have hshape : ∀ cs ∈ wordLetters, cs.Pairwise (· < ·) ∧ cs.length ≤ 4 ∧ cs ≠ [] := by decide
  obtain ⟨hs, hlen, hne⟩ := hshape cs hcs
  rw [← heq]
  exact ⟨longRows_valid (wordLetters_ascii cs hcs) hs hlen, fun h => hne (List.map_eq_nil_iff.mp h)⟩

theorem wordLeaves_side : Side (wordCells.map leafTree) := by
  have hrows : (wordCells.map leafTree).flatMap Tree.rows = wordLetters.flatten.map longRow := rfl
  refine ⟨fun T hT => ?_, fun T hT => ?_, ?_, ?_⟩
  · obtain ⟨cell, hcell, rfl⟩ := List.mem_map.mp hT
    exact (wordCell_valid cell hcell).2
  · obtain ⟨cell, hcell, rfl⟩ := List.mem_map.mp hT
    exact (wordCell_valid cell hcell).1.sorted
  · rw [hrows]
    exact longRows_sorted wordLetters_sorted
  · rw [hrows]
    intro r hr
    obtain ⟨c, hc, rfl⟩ := List.mem_map.mp hr
    obtain ⟨cs, hcs, hc⟩ := List.mem_flatten.mp hc
    exact (longRow_fits (wordLetters_ascii cs hcs c hc)).key

theorem wordTree_bounds : wordTree.RowBounds Row.key := by
  have hsides : Side ((wordCells.take 3).map leafTree) ∧ Side ((wordCells.drop 3).map leafTree) :=
    Side.of_append (by rw [← List.map_append, List.take_append_drop]; exact wordLeaves_side)
  have hrows : [wordLeft, wordRight].flatMap Tree.rows = wordLetters.flatten.map longRow := rfl
  have hleaves : (wordCells.map leafTree).flatMap Tree.rows = wordLetters.flatten.map longRow := rfl
  have hsorted := wordLeaves_side.sorted
  have hfits := wordLeaves_side.fits
  rw [hleaves, ← hrows] at hsorted hfits
  have hside : Side [wordLeft, wordRight] := by
    refine ⟨?_, ?_, hsorted, hfits⟩
    · simp only [List.forall_mem_cons, List.not_mem_nil, false_imp_iff, implies_true, and_true]
      exact ⟨List.cons_ne_nil _ _, List.cons_ne_nil _ _⟩
    · simp only [List.forall_mem_cons, List.not_mem_nil, false_imp_iff, implies_true, and_true]
      exact ⟨hsides.1.node (List.cons_ne_nil _ _), hsides.2.node (List.cons_ne_nil _ _)⟩
  exact hside.node (List.cons_ne_nil _ _)

theorem wordPages_readBack : ∀ p ∈ wordPages, (Store.ofPages wordPages).page p.pageId = some p := fun p hp =>
  Store.ofPages_mem (by decide) hp

theorem wordTree_all : wordTree.All (fun id rows => (id, rows) ∈ wordCells) fun id keys children =>
    ⟨id, none, .internal keys children⟩ ∈ [nodePage wordTree, nodePage wordLeft, nodePage wordRight] := by
  have hleaves : ∀ (part : List (PageId × List Row)), (∀ cell ∈ part, cell ∈ wordCells) → ∀ T ∈ part.map leafTree,
      T.All (fun id rows => (id, rows) ∈ wordCells) fun id keys children =>
        ⟨id, none, .internal keys children⟩ ∈ [nodePage wordTree, nodePage wordLeft, nodePage wordRight] := by
    intro part hpart T hT
    obtain ⟨cell, hcell, rfl⟩ := List.mem_map.mp hT
    exact hpart cell hcell
  refine Tree.all_inner.mpr ⟨List.mem_cons_self, ?_⟩
  simp only [List.forall_mem_cons, List.not_mem_nil, false_imp_iff, implies_true, and_true]
  exact ⟨Tree.all_inner.mpr ⟨List.mem_cons_of_mem _ List.mem_cons_self, hleaves _ fun _ h => List.mem_of_mem_take h⟩,
    Tree.all_inner.mpr ⟨List.mem_cons_of_mem _ (List.mem_cons_of_mem _ List.mem_cons_self), hleaves _ fun _ h =>
    List.mem_of_mem_drop h⟩⟩

theorem wordInner_valid : ∀ p ∈ [nodePage wordTree, nodePage wordLeft, nodePage wordRight],
    p.isMeta = false ∧ p.checkInvariants = .ok () := by
  have hkeys : ∀ cs ∈ [['m'], ['e', 'i'], ['q', 'u']], Page.KeysValid (cs.map longKey) := by
    intro cs hcs
    have hshape : ∀ cs ∈ [['m'], ['e', 'i'], ['q', 'u']], cs.all (fun c => c.utf8Size == 1) = true ∧ cs.Pairwise (· < ·) ∧
        cs.length ≤ 4 := by decide
    obtain ⟨hc, hs, hlen⟩ := hshape cs hcs
    exact longKeys_valid (ascii_of_all hc) hs hlen
  simp only [List.forall_mem_cons, List.not_mem_nil, false_imp_iff, implies_true, and_true] at hkeys ⊢
  exact ⟨⟨rfl, (Page.checkInvariants_iff _).mpr ⟨rfl, hkeys.1⟩⟩, ⟨rfl, (Page.checkInvariants_iff _).mpr ⟨rfl, hkeys.2.1⟩⟩,
    rfl, (Page.checkInvariants_iff _).mpr ⟨rfl, hkeys.2.2⟩⟩

theorem wordTable_wellFormed : WellFormed wordTable (Store.ofPages wordPages) wordTree 10 [] := by
  have hvalid : ∀ p ∈ [nodePage wordTree, nodePage wordLeft, nodePage wordRight] ++ linkedPages none wordCells,
      p.isMeta = false ∧ p.checkInvariants = .ok () := fun p hp =>
    (List.mem_append.mp hp).elim (wordInner_valid p) (linkedPages_valid (fun cell hcell => (wordCell_valid cell hcell).1) p)
  have hin : InStore (Store.ofPages wordPages) wordTree :=
    inStore_of_readBack wordPages_readBack wordTree_all rfl (by decide) hvalid
  have hmeta : wordTable.MetaRep (Store.ofPages wordPages) ⟨⟨1⟩, 9⟩ 10 [] :=
    ⟨⟨none, wordSchema, "t", rfl, by decide +kernel, by simp, by decide +kernel⟩, trivial⟩
  have hkeyed : Keyed wordTree := by
    have hleaf : ∀ T ∈ wordCells.map leafTree, Keyed T := fun T hT => by
      obtain ⟨cell, -, rfl⟩ := List.mem_map.mp hT
      trivial
    refine Tree.all_inner.mpr ⟨List.cons_ne_nil _ _, ?_⟩
    simp only [List.forall_mem_cons, List.not_mem_nil, false_imp_iff, implies_true, and_true]
    refine ⟨Tree.all_inner.mpr ⟨List.cons_ne_nil _ _, fun T hT => hleaf T ?_⟩,
      Tree.all_inner.mpr ⟨List.cons_ne_nil _ _, fun T hT => hleaf T ?_⟩⟩
    · exact List.map_subset _ (List.take_subset 3 _) hT
    · exact List.map_subset _ (List.drop_subset 3 _) hT
  have hrows : wordTree.Nonempty := wordTree_all.imp (fun _ _ _ hcell => (wordCell_valid _ hcell).2) fun _ _ _ _ _ => trivial
  exact {
    root := hmeta
    pages := hin.pages
    passes := fun id hid => by
      rw [List.append_nil] at hid
      rcases List.mem_cons.mp hid with rfl | hid
      · obtain ⟨lsn, schema, name, hp, hv⟩ := hmeta.metaPage
        exact ⟨_, hp, (Page.checkInvariants_iff _).mpr hv⟩
      · exact hin.passes id hid
    bounds := wordTree_bounds
    keyed := hkeyed
    rowsBelow := hrows.below
    links := hin.links
    owned := ⟨rfl, by decide, by decide, by decide, by decide⟩ }

/-- Six leaves of four rows each but the last. -/
theorem word_leafKeys : leafKeys wordTree.rows = ['a', 'e', 'i', 'm', 'q', 'u'].map longKey := by
  have hsize : ∀ c ∈ wordLetters.flatten, (Page.leafEntrySize ∘ longRow) c = 1009 ∧ (Page.leafEntrySize ∘ longRow) c =
      1009 := by
    intro c hc
    obtain ⟨cs, hcs, hc⟩ := List.mem_flatten.mp hc
    exact ⟨size_longRow (wordLetters_ascii cs hcs c hc), size_longRow (wordLetters_ascii cs hcs c hc)⟩
  rw [leafKeys, wordTree_rows, heads_map, heads_congr hsize, List.map_map]
  rfl

theorem longKey_costs (h : cs.all (fun c => c.utf8Size == 1) = true) : ∀ c ∈ cs,
    (Page.internalEntrySize ∘ longKey) c = 1016 ∧ ((fun _ => 0) ∘ longKey : Char → Nat) c = 0 :=
  fun c hc => ⟨size_longKey (ascii_of_all h c hc), rfl⟩

/-- Six leaves, two inner pages over them and the root. -/
theorem word_packed : packedPages wordTree.rows = 9 := by
  have hlevel : heads Page.internalEntrySize (fun _ => 0) internalUsable (['a', 'e', 'i', 'm', 'q', 'u'].map longKey) =
      ['a', 'u'].map longKey := by
    rw [heads_map, heads_congr (longKey_costs (by decide))]
    rfl
  have hroot : heads Page.internalEntrySize (fun _ => 0) internalUsable (['a', 'u'].map longKey) = ['a'].map longKey := by
    rw [heads_map, heads_congr (longKey_costs (by decide))]
    rfl
  have hlevels : levelsOver wordTree.rows = [['a', 'u'].map longKey, ['a'].map longKey] := by
    rw [levelsOver, word_leafKeys, keyLevels, show wordTree.rows.length = 18 + 1 + 1 + 1 from rfl, levels_more (by decide),
      hlevel, levels_more (by decide), hroot, levels_one (by decide)]
  rw [packedPages, hlevels, word_leafKeys]
  rfl

/-- Five leaves fill an inner page, so the sixth is left alone. -/
theorem word_lone : ¬ LastPaired wordTree.rows := by
  intro hpaired
  refine hpaired (leafKeys wordTree.rows) List.mem_cons_self ?_ ?_
  · rw [word_leafKeys]
    decide
  · rw [word_leafKeys, lastRoom, last_map, last_congr (longKey_costs (by decide))]
    rfl

theorem wordRows_validated : ∀ r ∈ wordTree.rows, ∃ v, wordTable.schema.validateRow r = .ok v := by
  intro r hr
  rw [wordTree_rows] at hr
  obtain ⟨c, hc, rfl⟩ := List.mem_map.mp hr
  obtain ⟨cs, hcs, hc⟩ := List.mem_flatten.mp hc
  exact validateRow_long (wordLetters_ascii cs hcs c hc)

end

/-! ## A run -/

section
variable {t : Table} {σ : Store} {h : Nat} {T : PageTree h} {fuel : Nat}

theorem pack_empty : t.pack fuel [] = .error .panic := rfl

theorem metaPage_of_root {root : PageId} (hroot : t.namedRoot (.idle σ) = some root) :
    ∃ lsn count head schema name, σ.page t.metaId = some ⟨t.metaId, lsn, .metaPage root count head schema name⟩ := by
  rcases hpage : σ.page t.metaId with _ | ⟨id, lsn, body⟩
  · simp [Table.namedRoot, hpage] at hroot
  obtain rfl : id = t.metaId := σ.named hpage
  cases body <;> simp_all [Table.namedRoot, Page.metaGetRootId, Except.toOption]

theorem exec_scan (hr : Readable t σ T) (hh : h < fuel) (hl : T.leaves.length ≤ fuel) :
    ∃ tr, Exec ((BTree.getAll t fuel fun _ => true).mapErr TableError.btree) (.idle σ) tr (.ok T.rows) (.idle σ) := by
  obtain ⟨tr, hscan⟩ := exec_getRange hr hh hl .unbounded .unbounded fun _ => true
  have hall : T.rows.filter (wanted .unbounded .unbounded fun _ => true) = T.rows :=
    List.filter_eq_self.mpr fun r _ => by simp [wanted, Bound.contains, Bound.fromStart, Bound.toEnd]
  rw [hall] at hscan
  exact ⟨tr, hscan.mapErr_ok _⟩

/-- A run whose rows are packed into `pages` under `root`. -/
theorem exec_vacuum (hr : Readable t σ T) (hh : h < fuel) (hl : T.leaves.length ≤ fuel) {lsn : PageLsn} {root₀ root : PageId}
    {count next : UInt32} {head : Option PageId} {schema : Schema} {name : String} {pages : List Page}
    (hmeta : σ.page t.metaId = some ⟨t.metaId, lsn, .metaPage root₀ count head schema name⟩)
    (hpack : t.pack fuel T.rows = .ok (root, next, pages)) : ∃ tr,
    Exec (t.vacuum fuel) (.idle σ) tr (.ok ())
      (.idle (Store.ofPages (⟨t.metaId, lsn, .metaPage root next none schema name⟩ :: pages))) := by
  obtain ⟨tr, hscan⟩ := exec_scan hr hh hl
  have hswap : Exec (bpm (swapFile (⟨t.metaId, lsn, .metaPage root next none schema name⟩ :: pages))) (.idle σ) _ (.ok ())
      (.idle (Store.ofPages (⟨t.metaId, lsn, .metaPage root next none schema name⟩ :: pages))) :=
    Exec.mapErr_ok _ (Lib.Prog.Exec.request rfl)
  have htree : Exec (ExceptT.mk (pure (t.pack fuel T.rows))) (.idle σ) [] (.ok (root, next, pages)) (.idle σ) := by
    rw [hpack]
    exact exec_pure _ _
  have hfetch : Exec (bpm (fetchRead t.metaId)) (.idle σ) _ (.ok _) (.reading σ t.metaId) :=
    Exec.mapErr_ok _ (exec_fetchRead_idle hmeta)
  exact ⟨_, Exec.unwinding_ok (Exec.bind hscan (Exec.bind htree (Exec.bind hfetch
    (Exec.bind (exec_drop_reading σ t.metaId) hswap))))⟩

theorem exec_vacuum_error (hr : Readable t σ T) (hh : h < fuel) (hl : T.leaves.length ≤ fuel) {e : Fail TableError}
    (hpack : t.pack fuel T.rows = .error e) : ∃ tr, Exec (t.vacuum fuel) (.idle σ) tr (.error e) (.idle σ) := by
  obtain ⟨tr, hscan⟩ := exec_scan hr hh hl
  have hfail : Exec (ExceptT.mk (pure (t.pack fuel T.rows))) (.idle σ) [] (.error e) (.idle σ) := by
    rw [hpack]
    exact exec_throw e _
  exact ⟨_, @Exec.unwinding_error _ _ _ (.idle σ) (.idle σ) _ e (Exec.bind hscan (Exec.bind_error hfail))⟩

/-- A run over a table with rows. -/
theorem vacuum_run (hr : Readable t σ T) (hvalid : ∀ r ∈ T.rows, ∃ v, t.schema.validateRow r = .ok v) (hne : T.rows ≠ [])
    (hh : h < fuel) (hl : T.leaves.length ≤ fuel) (hrows : T.rows.length ≤ fuel) :
    ∃ h', ∃ T' : PageTree h', ∃ inner cells lsn schema name, t.PackedTree T.rows T' inner cells ∧
      (t.vacuum fuel).eval (.idle σ) = some (.ok (), .idle (Store.ofPages (newFile
        ⟨t.metaId, lsn, .metaPage T'.rootId (UInt32.ofNat (packedPages T.rows + 1)) none schema name⟩ inner cells))) := by
  obtain ⟨h', T', inner, cells, hpack, hT⟩ := pack_tree hvalid hr.bounds.sorted hne
  obtain ⟨lsn, count, head, schema, name, hmeta⟩ := metaPage_of_root hr.root
  obtain ⟨tr, hrun⟩ := exec_vacuum hr hh hl hmeta (hpack fuel hrows)
  exact ⟨h', T', inner, cells, lsn, schema, name, hT, hrun.eval⟩

end

/-! ## Answers -/

/-- Every `get` and every `get_range` returns the same in both stores. -/
def SameAnswers (t : Table) (fuel : Nat) (σ σ' : Store) : Prop :=
  (∀ key, ∃ found, (BTree.get t fuel key).eval (.idle σ) = some (.ok found, .idle σ) ∧
    (BTree.get t fuel key).eval (.idle σ') = some (.ok found, .idle σ')) ∧
  ∀ start stop filterFn, ∃ rows, (BTree.getRange t fuel start stop filterFn).eval (.idle σ) = some (.ok rows, .idle σ) ∧
    (BTree.getRange t fuel start stop filterFn).eval (.idle σ') = some (.ok rows, .idle σ')

/-- A file of a tree alone: its pages are numbered from 1 to `page_count - 1`, each once, and
    no page is free. -/
structure FullFile (t : Table) (σ : Store) {h : Nat} (T : PageTree h) : Prop where
  metaPage : ∃ m, σ.page t.metaId = some m ∧ m.metaGetPageCount = .ok (T.ids.length + 1) ∧ m.metaGetFreeListHead = .ok none
  nodup : T.ids.Nodup
  ids : ∀ id, id ∈ T.ids ↔ id.tableId = t.metaId.tableId ∧ 0 < id.pageNum.toNat ∧ id.pageNum.toNat ≤ T.ids.length

section
variable {t : Table} {σ σ' : Store} {h h' : Nat} {T : PageTree h} {T' : PageTree h'} {rows : List Row} {inner : List Page}
  {cells : List (PageId × List Row)} {fuel : Nat} {lsn : PageLsn} {schema : Schema} {name : String} {next : UInt32}

theorem sameAnswers (hr : Readable t σ T) (hr' : Readable t σ' T') (hrows : T'.rows = T.rows) (hh : h < fuel)
    (hh' : h' < fuel)
    (hl : T.leaves.length ≤ fuel) (hl' : T'.leaves.length ≤ fuel) : t.SameAnswers fuel σ σ' := by
  constructor
  · intro key
    obtain ⟨tr, hget⟩ := exec_get hr hh key
    obtain ⟨tr', hget'⟩ := exec_get hr' hh' key
    rw [hrows] at hget'
    exact ⟨_, hget.eval, hget'.eval⟩
  · intro start stop filterFn
    obtain ⟨tr, hrange⟩ := exec_getRange hr hh hl start stop filterFn
    obtain ⟨tr', hrange'⟩ := exec_getRange hr' hh' hl' start stop filterFn
    rw [hrows] at hrange'
    exact ⟨_, hrange.eval, hrange'.eval⟩

theorem readable_of_inStore (hroot : t.namedRoot (.idle σ) = some T.rootId) (hin : InStore σ T)
    (hbounds : T.RowBounds Row.key) :
    Readable t σ T where
  root := hroot
  pages := hin.pages
  passes := hin.passes
  bounds := hbounds
  links a id b hab := by
    have hl := hin.links
    rw [hab, linked_mid] at hl
    obtain ⟨lsn, rows, hp⟩ := hl.2.1
    refine ⟨lsn, rows, lastOr none a, hp.trans ?_⟩
    cases b <;> rfl

theorem PackedTree.length_ids (hT : t.PackedTree rows T inner cells) : T.ids.length = packedPages rows := by
  rw [hT.ids_perm.length_eq, pageIds_length]

/-- The new file, while the page numbers fit. -/
theorem PackedTree.readable (hT : t.PackedTree rows T inner cells) (hzero : t.metaId.pageNum = 0)
    (hcount : packedPages rows < 2 ^ 32) :
    Readable t (Store.ofPages (newFile ⟨t.metaId, lsn, .metaPage T.rootId next none schema name⟩ inner cells)) T := by
  have hmeta := hT.readBack (m := ⟨t.metaId, lsn, .metaPage T.rootId next none schema name⟩) hzero rfl hcount _
      List.mem_cons_self
  refine readable_of_inStore ?_ (hT.inStore hzero rfl hcount) hT.bounds
  show ((Store.ofPages (newFile _ inner cells)).page t.metaId).bind _ = _
  rw [hmeta]
  rfl

/-- Once the page numbers wrap, the meta page is lost. -/
theorem PackedTree.fits_of_root {m : Page} (hT : t.PackedTree rows T inner cells) (hzero : t.metaId.pageNum = 0)
    (hroot : (t.namedRoot (.idle (Store.ofPages (newFile m inner cells)))).isSome) : packedPages rows < 2 ^ 32 := by
  by_contra hcount
  obtain ⟨p, hp, hbody⟩ := hT.metaLost (m := m) hzero hcount
  simp only [Table.namedRoot, World.writing_store, hp, Option.bind_some] at hroot
  cases hb : p.body <;> simp_all [Page.metaGetRootId, Page.isMeta, Except.toOption]

/-- `vacuum` succeeds, changes no answer and leaves a file of its tree alone exactly when the
    table holds a row and the page count fits; without rows it panics and writes nothing. -/
theorem vacuum_correct_iff (hr : Readable t σ T) (hzero : t.metaId.pageNum = 0)
    (hvalid : ∀ r ∈ T.rows, ∃ v, t.schema.validateRow r = .ok v) (hh : h < fuel) (hl : T.leaves.length ≤ fuel)
    (hrows : T.rows.length ≤ fuel) :
    ((∃ σ', (t.vacuum fuel).eval (.idle σ) = some (.ok (), .idle σ') ∧ t.SameAnswers fuel σ σ' ∧
      ∃ h', ∃ T' : PageTree h', Readable t σ' T' ∧ Linked σ' none T'.leaves none ∧ t.FullFile σ' T') ↔
      T.rows ≠ [] ∧ packedPages T.rows + 1 < 2 ^ 32) ∧
    (T.rows = [] → (t.vacuum fuel).eval (.idle σ) = some (.error .panic, .idle σ)) := by
  have hpanic : T.rows = [] → (t.vacuum fuel).eval (.idle σ) = some (.error .panic, .idle σ) := fun hnil => by
    obtain ⟨tr, hrun⟩ := exec_vacuum_error hr hh hl (hnil ▸ pack_empty)
    exact hrun.eval
  refine ⟨⟨?_, ?_⟩, hpanic⟩
  · rintro ⟨σ', hrun, -, h', T', hr', -, hfile⟩
    have hne : T.rows ≠ [] := by
      intro hnil
      rw [hpanic hnil] at hrun
      cases hrun
    obtain ⟨h'', T'', inner, cells, lsn, schema, name, hT, heval⟩ := vacuum_run hr hvalid hne hh hl hrows
    rw [hrun, Option.some.injEq, Prod.mk.injEq] at heval
    obtain rfl : σ' = _ := congrArg World.store heval.2
    have hcount := hT.fits_of_root hzero (Option.isSome_iff_exists.mpr ⟨_, hr'.root⟩)
    refine ⟨hne, ?_⟩
    -- a count of 0 is no tree's
    obtain ⟨m, hm, hpages, -⟩ := hfile.metaPage
    have hnew := hT.readBack (m := ⟨t.metaId, lsn, .metaPage T''.rootId (UInt32.ofNat (packedPages T.rows + 1)) none
        schema name⟩)
      hzero rfl hcount _ List.mem_cons_self
    obtain rfl : _ = m := Option.some.inj (hnew.symm.trans hm)
    have hlen : (UInt32.ofNat (packedPages T.rows + 1)).toNat = T'.ids.length + 1 := Except.ok.inj hpages
    by_contra hlast
    have hwrap : packedPages T.rows + 1 = 2 ^ 32 := by omega
    rw [hwrap] at hlen
    cases hlen
  · rintro ⟨hne, hcount⟩
    obtain ⟨h', T', inner, cells, lsn, schema, name, hT, heval⟩ := vacuum_run hr hvalid hne hh hl hrows
    have hcount' : packedPages T.rows < 2 ^ 32 := by omega
    have hr' : Readable t (Store.ofPages (newFile
        ⟨t.metaId, lsn, .metaPage T'.rootId (UInt32.ofNat (packedPages T.rows + 1)) none schema name⟩ inner cells)) T' :=
      hT.readable hzero hcount'
    have hheight := hT.height
    have hleaves : T'.leaves.length ≤ fuel := by
      rw [← Tree.map_cells, hT.leaves, List.length_map]
      exact hT.short.trans hrows
    refine ⟨_, heval, sameAnswers hr hr' hT.holds hh (by omega) hl hleaves, h', T', hr',
        (hT.inStore hzero rfl hcount').links,
      ⟨⟨_, hT.readBack hzero rfl hcount' _ List.mem_cons_self, ?_, rfl⟩, ?_, fun id => ?_⟩⟩
    · rw [hT.length_ids]
      exact congrArg Except.ok (UInt32.toNat_ofNat_of_lt' hcount)
    · exact hT.ids_perm.nodup_iff.mpr (pageIds_nodup hcount')
    · rw [hT.length_ids, hT.ids_perm.mem_iff, mem_pageIds_one hcount']

theorem vacuum_correct_iff_words : ∃ σ', (wordTable.vacuum 21).eval (.idle (Store.ofPages wordPages)) =
    some (.ok (), .idle σ') ∧ wordTable.SameAnswers 21 (Store.ofPages wordPages) σ' ∧
    ∃ h', ∃ T' : PageTree h', Readable wordTable σ' T' ∧ Linked σ' none T'.leaves none ∧ wordTable.FullFile σ' T' :=
  (vacuum_correct_iff wordTable_wellFormed.sound.readable rfl wordRows_validated (by decide) (by decide) (by decide)).1.mpr
    ⟨List.cons_ne_nil _ _, by rw [word_packed]; decide⟩

end

/-! ## The shape that `rebalance` expects -/

/-- The invariant that delete relies on: leaves at one depth (by the type), rows between the
    separators, linked leaves, rows in every leaf below the root, a key in every inner page,
    and so a sibling for every page below the root. -/
structure Structural (t : Table) (σ : Store) {h : Nat} (T : PageTree h) : Prop where
  root : t.namedRoot (.idle σ) = some T.rootId
  pages : T.All (leafAt σ) (nodeAt σ)
  bounds : T.RowBounds Row.key
  links : Linked σ none T.leaves none
  rowsBelow : T.NonemptyBelow
  keyed : Keyed T
  siblings : T.All (fun _ _ => True) fun id _ children => ∀ p, σ.page id = some p → ∀ i < children.length,
    ∃ s, pickSibling p i = .ok (some s)

section
variable {t : Table} {σ σ' : Store} {h h' : Nat} {T : PageTree h} {T' : PageTree h'} {rows : List Row} {inner : List Page}
  {cells : List (PageId × List Row)} {fuel : Nat} {lsn : PageLsn} {schema : Schema} {name : String} {next : UInt32}

/-- Every child of an internal page with a key has a sibling. -/
theorem pickSibling_some {id : PageId} {keys : List Key} {children : List PageId} (hlen : children.length = keys.length + 1)
    (hne : keys ≠ []) {i : Nat} (hi : i < children.length) :
    ∃ s, pickSibling ⟨id, lsn, .internal keys children⟩ i = .ok (some s) := by
  have hpos := List.length_pos_iff.mpr hne
  by_cases hright : i + 1 < children.length
  · have hkey : i < keys.length := by omega
    refine ⟨⟨children[i + 1], keys[i], .right⟩, ?_⟩
    simp only [pickSibling, Page.childAt, Page.keyAt, List.getElem?_eq_getElem hright, List.getElem?_eq_getElem hkey]
  · have hleft : i - 1 < children.length := by omega
    have hkey : i - 1 < keys.length := by omega
    have hzero : i ≠ 0 := by omega
    refine ⟨⟨children[i - 1], keys[i - 1], .left⟩, ?_⟩
    simp only [pickSibling, Page.childAt, Page.keyAt, List.getElem?_eq_none (Nat.le_of_not_lt hright), if_neg hzero,
      List.getElem?_eq_getElem hleft, List.getElem?_eq_getElem hkey]

theorem siblings_of_keyed (hpages : T.All (leafAt σ) (nodeAt σ)) (hpasses : ∀ id ∈ T.ids, ∃ p, σ.page id = some p ∧
    p.checkInvariants = .ok ())
    (hkeyed : Keyed T) : T.All (fun _ _ => True) fun id _ children => ∀ p, σ.page id = some p → ∀ i < children.length,
      ∃ s, pickSibling p i = .ok (some s) := by
  refine (hpages.and hkeyed).imp (fun _ _ _ _ => trivial) fun id keys children hid hnode p hp i hi => ?_
  obtain ⟨⟨lsn, hpage⟩, hne⟩ := hnode
  have hlen := (keysValid_of_passes ⟨lsn, hpage⟩ (hpasses id hid)).1
  obtain rfl : _ = p := Option.some.inj (hpage.symm.trans hp)
  exact pickSibling_some hlen hne hi

theorem PackedTree.nonempty (hT : t.PackedTree rows T inner cells) : T.Nonempty :=
  hT.all.imp (fun _ _ _ hcell => (hT.filled _ hcell).2) fun _ _ _ _ _ => trivial

/-- The new file holds a tree of that shape exactly when the page numbers fit and no level
    leaves its last page a single child. -/
theorem PackedTree.structural_iff (hT : t.PackedTree rows T inner cells) (hzero : t.metaId.pageNum = 0) :
    (∃ h', ∃ T' : PageTree h', t.Structural
      (Store.ofPages (newFile ⟨t.metaId, lsn, .metaPage T.rootId next none schema name⟩ inner cells)) T') ↔
    packedPages rows < 2 ^ 32 ∧ LastPaired rows := by
  constructor
  · rintro ⟨h', T', hs⟩
    have hcount := hT.fits_of_root hzero (Option.isSome_iff_exists.mpr ⟨_, hs.root⟩)
    have hr : Readable t (Store.ofPages (newFile ⟨t.metaId, lsn, .metaPage T.rootId next none schema name⟩ inner cells)) T :=
      hT.readable hzero hcount
    refine ⟨hcount, hT.keyed.mp (all_of_root hs.pages hr.pages ?_ hs.keyed)⟩
    exact Option.some.inj (hs.root.symm.trans hr.root)
  · rintro ⟨hcount, hpaired⟩
    have hr : Readable t (Store.ofPages (newFile ⟨t.metaId, lsn, .metaPage T.rootId next none schema name⟩ inner cells)) T :=
      hT.readable hzero hcount
    have hkeyed := hT.keyed.mpr hpaired
    exact ⟨h, T, hr.root, hr.pages, hr.bounds, (hT.inStore hzero rfl hcount).links, hT.nonempty.below, hkeyed,
      siblings_of_keyed hr.pages hr.passes hkeyed⟩

/-- `vacuum` leaves a tree of the shape that `rebalance` expects exactly when the page numbers
    fit and no level leaves its last page a single child. -/
theorem vacuum_structural_iff (hr : Readable t σ T) (hzero : t.metaId.pageNum = 0)
    (hvalid : ∀ r ∈ T.rows, ∃ v, t.schema.validateRow r = .ok v) (hne : T.rows ≠ []) (hh : h < fuel)
    (hl : T.leaves.length ≤ fuel) (hrows : T.rows.length ≤ fuel) :
    (∃ σ', (t.vacuum fuel).eval (.idle σ) = some (.ok (), .idle σ') ∧ ∃ h', ∃ T' : PageTree h', t.Structural σ' T') ↔
    packedPages T.rows < 2 ^ 32 ∧ LastPaired T.rows := by
  obtain ⟨h', T', inner, cells, lsn, schema, name, hT, heval⟩ := vacuum_run hr hvalid hne hh hl hrows
  rw [← @PackedTree.structural_iff _ _ _ _ _ _ lsn schema name (UInt32.ofNat (packedPages T.rows + 1)) hT hzero]
  constructor
  · rintro ⟨σ', hrun, hs⟩
    rw [heval, Option.some.injEq, Prod.mk.injEq] at hrun
    obtain rfl : _ = σ' := congrArg World.store hrun.2
    exact hs
  · intro hs
    exact ⟨_, heval, hs⟩

/-- Twenty-one long rows: `vacuum` leaves an inner page with a single child. -/
theorem vacuum_structural_iff_words : ∃ σ', (wordTable.vacuum 21).eval (.idle (Store.ofPages wordPages)) =
    some (.ok (), .idle σ') ∧ ¬ ∃ h', ∃ T' : PageTree h', wordTable.Structural σ' T' := by
  have hr := wordTable_wellFormed.sound.readable
  obtain ⟨h', T', inner, cells, lsn, schema, name, -, heval⟩ := @vacuum_run wordTable _ 2 wordTree 21 hr wordRows_validated
    (List.cons_ne_nil _ _) (by decide) (by decide) (by decide)
  exact ⟨_, heval, fun hs => word_lone ((vacuum_structural_iff hr rfl wordRows_validated (List.cons_ne_nil _ _) (by decide)
    (by decide) (by decide)).mp ⟨_, heval, hs⟩).2⟩

end

end Table

end RustDb
