/-
  RustDb.Vacuum.Tree — the tree that packed pages hold.

  A level is a list of trees side by side, each with rows. Packing it puts a node over every
  run, separated by the first keys under its later children (`nodeOver`), and the trees of
  the level above are side by side again (`Side.above`). So the loop over the levels ends
  with one tree over the leaves (`buildLevels_tree`), whatever the sizes of the keys.

  `TreeOver` says how: the rows and leaves stay, every inner page is one of the pages built,
  and a page has a key unless it was left over for the last child of its level
  (`keyed_iff`).
-/

import RustDb.Vacuum

namespace RustDb

open Lib.SearchTree Lib.Pack

namespace Table

open BTree (PageTree)

/-! ## Trees side by side -/

/-- The key of the first row of a tree. -/
def low {h : Nat} (T : PageTree h) : Key := (T.rows.headD ⟨[]⟩).key

/-- A tree's entry in its level. -/
def entry {h : Nat} (T : PageTree h) : Key × PageId := (low T, T.rootId)

/-- A node over a run of trees. -/
def nodeOver {h : Nat} (cell : PageId × List (PageTree h)) : PageTree (h + 1) :=
  Tree.inner cell.1 (cell.2.tail.map low) cell.2

/-- The page of an inner node. -/
def nodePage {h : Nat} (T : PageTree (h + 1)) : Page := ⟨T.nodeId, none, .internal T.keys (T.kids.map Tree.rootId)⟩

/-- The runs of a level of trees. -/
def treeRuns {h : Nat} : List (PageTree h) → List (List (PageTree h))
  | [] => []
  | T :: ts => bins (entrySize ∘ entry) (fun _ => 0) internalUsable 0 [T] ts

/-- The level above, on page numbers from `n` on. -/
def levelAbove (t : Table) {h : Nat} (n : UInt32) (ts : List (PageTree h)) : List (PageTree (h + 1)) :=
  (t.numbered n (treeRuns ts)).map nodeOver

/-- Trees side by side, with rows in order and keys of admitted size. -/
structure Side {h : Nat} (ts : List (PageTree h)) : Prop where
  rows : ∀ T ∈ ts, T.rows ≠ []
  bounds : ∀ T ∈ ts, T.RowBounds Row.key
  sorted : ((ts.flatMap Tree.rows).map Row.key).Pairwise (· < ·)
  fits : ∀ r ∈ ts.flatMap Tree.rows, Page.KeyFits r.key

section
variable {t : Table} {α β : Type} {h : Nat} {n : UInt32} {ts cs : List (PageTree h)} {c T : PageTree h}

theorem numbered_map (f : α → β) (n : UInt32) (as : List α) :
    t.numbered n (as.map f) = (t.numbered n as).map fun x => (x.1, f x.2) := by
  induction as generalizing n with
  | nil => rfl
  | cons a as ih => rw [List.map_cons, numbered, numbered, ih, List.map_cons]

theorem low_eq (hrows : T.rows ≠ []) : ∃ r rest, T.rows = r :: rest ∧ low T = r.key := by
  obtain ⟨r, rest, hT⟩ := List.exists_cons_of_ne_nil hrows
  refine ⟨r, rest, hT, ?_⟩
  rw [low, hT]
  rfl

theorem low_mem (hrows : T.rows ≠ []) : low T ∈ T.rows.map Row.key := by
  obtain ⟨r, rest, hT, hlow⟩ := low_eq hrows
  rw [hT, hlow]
  exact List.mem_cons_self

theorem low_le (hrows : T.rows ≠ []) (hsorted : (T.rows.map Row.key).Pairwise (· < ·)) : ∀ r ∈ T.rows, low T ≤ r.key := by
  obtain ⟨r, rest, hT, hlow⟩ := low_eq hrows
  rw [hT, List.map_cons, List.pairwise_cons] at hsorted
  intro x hx
  rw [hT] at hx
  rw [hlow]
  rcases List.mem_cons.mp hx with rfl | hx
  · exact le_refl _
  · exact (hsorted.1 _ (List.mem_map_of_mem hx)).le

theorem lows_sublist (hrows : ∀ T ∈ ts, T.rows ≠ []) : (ts.map low).Sublist ((ts.flatMap Tree.rows).map Row.key) := by
  induction ts with
  | nil => exact List.Sublist.refl _
  | cons T ts ih =>
    obtain ⟨hT, hts⟩ := List.forall_mem_cons.mp hrows
    obtain ⟨r, rest, hrow, hlow⟩ := low_eq hT
    rw [List.map_cons, List.flatMap_cons, hrow, List.map_append, List.map_cons, List.cons_append, hlow]
    exact ((ih hts).trans (List.sublist_append_right _ _)).cons_cons _

theorem Side.lows (hs : Side ts) : (ts.map low).Pairwise (· < ·) := hs.sorted.sublist (lows_sublist hs.rows)

theorem Side.entries_sorted (hs : Side ts) : ((ts.map entry).map Prod.fst).Pairwise (· < ·) := by
  rw [List.map_map]
  exact hs.lows

theorem Side.entries_fit (hs : Side ts) : ∀ e ∈ ts.map entry, Page.KeyFits e.1 := by
  intro e he
  obtain ⟨T, hT, rfl⟩ := List.mem_map.mp he
  obtain ⟨r, hr, hkey⟩ := List.mem_map.mp (low_mem (hs.rows T hT))
  show Page.KeyFits (low T)
  rw [← hkey]
  exact hs.fits r (List.mem_flatMap.mpr ⟨T, hT, hr⟩)

theorem Side.of_append {a b : List (PageTree h)} (hs : Side (a ++ b)) : Side a ∧ Side b := by
  obtain ⟨hrows, hbounds, hsorted, hfits⟩ := hs
  rw [List.flatMap_append, List.map_append, List.pairwise_append] at hsorted
  rw [List.flatMap_append] at hfits
  exact ⟨⟨fun T hT => hrows T (List.mem_append_left _ hT), fun T hT => hbounds T (List.mem_append_left _ hT),
      hsorted.1, fun r hr => hfits r (List.mem_append_left _ hr)⟩,
    ⟨fun T hT => hrows T (List.mem_append_right _ hT), fun T hT => hbounds T (List.mem_append_right _ hT),
      hsorted.2.1, fun r hr => hfits r (List.mem_append_right _ hr)⟩⟩

theorem Side.of_flatten {runs : List (List (PageTree h))} (hs : Side runs.flatten) : ∀ run ∈ runs, Side run := by
  induction runs with
  | nil => intro run hrun; cases hrun
  | cons run runs ih =>
    rw [List.flatten_cons] at hs
    exact List.forall_mem_cons.mpr ⟨hs.of_append.1, ih hs.of_append.2⟩

/-- Each tree lies between the first keys of its neighbours. -/
theorem lows_chain {lo : Option Key} (hs : Side (c :: cs)) (hlo : ∀ r ∈ c.rows, ∀ l, lo = some l → l ≤ r.key) :
    Chain (fun lo hi (kid : PageTree h) => ∀ r ∈ kid.rows, Within lo hi r.key) lo (cs.map low) (c :: cs) none := by
  induction cs generalizing c lo with
  | nil => exact fun r hr => ⟨hlo r hr, by simp⟩
  | cons c' cs ih =>
    have hs' : Side (c' :: cs) := (@Side.of_append h [c] (c' :: cs) hs).2
    have hc' := hs.rows c' (by simp)
    have hlt := hs.sorted
    rw [List.flatMap_cons, List.map_append, List.pairwise_append] at hlt
    refine ⟨fun r hr => ⟨hlo r hr, fun u hu => ?_⟩, ih hs' fun r hr l hl => ?_⟩
    · cases hu
      refine hlt.2.2 _ (List.mem_map_of_mem hr) _ ?_
      rw [List.flatMap_cons, List.map_append]
      exact List.mem_append_left _ (low_mem hc')
    · cases hl
      exact low_le hc' (hs'.bounds c' List.mem_cons_self).sorted r hr

/-- A node over trees side by side, separated by their first keys. -/
theorem Side.node {id : PageId} (hs : Side ts) (hne : ts ≠ []) : (nodeOver (id, ts)).RowBounds Row.key := by
  obtain ⟨c, cs, rfl⟩ := List.exists_cons_of_ne_nil hne
  have hcs : Side cs := (@Side.of_append h [c] cs hs).2
  exact Tree.rowBounds_inner.mpr ⟨hcs.lows, lows_chain hs (by simp), hs.bounds⟩

/-! ## The level above -/

theorem treeRuns_flatten (ts : List (PageTree h)) : (treeRuns ts).flatten = ts := by
  cases ts with
  | nil => rfl
  | cons T ts => exact bins_flatten _ [T] ts

theorem treeRuns_ne_nil {run : List (PageTree h)} (hrun : run ∈ treeRuns ts) : run ≠ [] := by
  cases ts with
  | nil => cases hrun
  | cons T ts => exact bins_ne_nil (List.cons_ne_nil T []) hrun

/-- The runs of a level's entries are those of its trees. -/
theorem treeRuns_entries (ts : List (PageTree h)) : levelRuns (ts.map entry) = (treeRuns ts).map (List.map entry) := by
  cases ts with
  | nil => rfl
  | cons T ts => exact bins_map entry 0 [T] ts

theorem Side.run (hs : Side ts) {run : List (PageTree h)} (hrun : run ∈ treeRuns ts) : Side run :=
  Side.of_flatten (by rwa [treeRuns_flatten]) run hrun

theorem low_nodeOver {id : PageId} (hs : Side ts) (hne : ts ≠ []) :
    (ts.map entry).head?.map Prod.fst = some (low (nodeOver (id, ts))) := by
  obtain ⟨c, cs, rfl⟩ := List.exists_cons_of_ne_nil hne
  obtain ⟨r, rest, hrow, hlow⟩ := low_eq (hs.rows c List.mem_cons_self)
  have hrows : (nodeOver (id, c :: cs)).rows = r :: (rest ++ cs.flatMap Tree.rows) := by
    rw [nodeOver, Tree.rows_inner, List.flatMap_cons, hrow]
    rfl
  show some (low c) = _
  rw [hlow, low, hrows]
  rfl

/-- The level that `build_internal_level` answers lists the trees above. -/
theorem levelAbove_entries (hs : Side ts) : (t.numbered n (levelHeads (ts.map entry))).map lowEntry =
    (t.levelAbove n ts).map entry := by
  have hkeys : (levelHeads (ts.map entry)).map Prod.fst = (treeRuns ts).map fun run => low (nodeOver (t.metaId, run)) := by
    refine List.map_injective_iff.mpr (Option.some_injective Key) ?_
    calc ((levelHeads (ts.map entry)).map Prod.fst).map some
        = ((levelHeads (ts.map entry)).map some).map (Option.map Prod.fst) := by rw [List.map_map, List.map_map]; rfl
      _ = (treeRuns ts).map fun run => (run.map entry).head?.map Prod.fst := by
        rw [← levelRuns_heads, treeRuns_entries, List.map_map, List.map_map]; rfl
      _ = ((treeRuns ts).map fun run => low (nodeOver (t.metaId, run))).map some := by
        rw [List.map_map]
        exact List.map_congr_left fun run hrun => low_nodeOver (hs.run hrun) (treeRuns_ne_nil hrun)
  have hleft : (t.numbered n (levelHeads (ts.map entry))).map lowEntry =
      (t.numbered n ((levelHeads (ts.map entry)).map Prod.fst)).map fun x => (x.2, x.1) := by
    rw [numbered_map, List.map_map]
    rfl
  rw [hleft, hkeys, numbered_map, levelAbove, List.map_map, List.map_map]
  rfl

theorem levelAbove_pages (ts : List (PageTree h)) :
    (t.numbered n (levelRuns (ts.map entry))).map innerPage = (t.levelAbove n ts).map nodePage := by
  rw [treeRuns_entries, numbered_map, levelAbove, List.map_map, List.map_map]
  refine List.map_congr_left fun x _ => ?_
  simp only [Function.comp_apply, innerPage, nodePage, nodeOver, Tree.nodeId_inner, Tree.keys_inner, Tree.kids_inner,
    ← List.map_tail, List.map_map]
  rfl

theorem levelAbove_kids (ts : List (PageTree h)) : (t.levelAbove n ts).flatMap Tree.kids = ts := by
  have hkids : (t.levelAbove n ts).map Tree.kids = treeRuns ts := by
    rw [levelAbove, List.map_map]
    exact numbered_snd n (treeRuns ts)
  rw [List.flatMap_def, hkids, treeRuns_flatten]

theorem levelAbove_rows (ts : List (PageTree h)) : (t.levelAbove n ts).flatMap Tree.rows = ts.flatMap Tree.rows := by
  calc (t.levelAbove n ts).flatMap Tree.rows = ((t.levelAbove n ts).flatMap Tree.kids).flatMap Tree.rows :=
      List.flatMap_assoc.symm
    _ = ts.flatMap Tree.rows := by rw [levelAbove_kids]

theorem levelAbove_cells (ts : List (PageTree h)) : (t.levelAbove n ts).flatMap Tree.cells = ts.flatMap Tree.cells := by
  calc (t.levelAbove n ts).flatMap Tree.cells = ((t.levelAbove n ts).flatMap Tree.kids).flatMap Tree.cells :=
      List.flatMap_assoc.symm
    _ = ts.flatMap Tree.cells := by rw [levelAbove_kids]

theorem levelAbove_ids (ts : List (PageTree h)) :
    ((t.levelAbove n ts).flatMap Tree.ids).Perm (((t.levelAbove n ts).map nodePage).map Page.pageId ++
    ts.flatMap Tree.ids) := by
  have hperm := List.map_append_flatMap_perm (t.levelAbove n ts) Tree.nodeId fun U => U.kids.flatMap Tree.ids
  rw [← List.flatMap_assoc, levelAbove_kids] at hperm
  rw [List.map_map]
  exact hperm.symm

theorem levelAbove_numbers (ts : List (PageTree h)) :
    ((t.levelAbove n ts).map nodePage).map Page.pageId = t.pageIds n ((t.levelAbove n ts).map nodePage).length := by
  rw [List.length_map, levelAbove, List.length_map, numbered_length, ← numbered_fst, List.map_map, List.map_map]
  rfl

theorem mem_levelAbove {U : PageTree (h + 1)} (hU : U ∈ t.levelAbove n ts) :
    ∃ id, ∃ run ∈ treeRuns ts, U = nodeOver (id, run) := by
  obtain ⟨x, hx, rfl⟩ := List.mem_map.mp hU
  exact ⟨x.1, x.2, numbered_snd (t := t) n (treeRuns ts) ▸ List.mem_map_of_mem hx, rfl⟩

theorem Side.above (hs : Side ts) : Side (t.levelAbove n ts) := by
  refine ⟨fun U hU => ?_, fun U hU => ?_, ?_, ?_⟩
  · obtain ⟨id, run, hrun, rfl⟩ := mem_levelAbove hU
    obtain ⟨c, cs, rfl⟩ := List.exists_cons_of_ne_nil (treeRuns_ne_nil hrun)
    have hc := (hs.run hrun).rows c List.mem_cons_self
    rw [nodeOver, Tree.rows_inner, List.flatMap_cons]
    exact List.append_ne_nil_of_left_ne_nil hc _
  · obtain ⟨id, run, hrun, rfl⟩ := mem_levelAbove hU
    exact (hs.run hrun).node (treeRuns_ne_nil hrun)
  · rw [levelAbove_rows]
    exact hs.sorted
  · rw [levelAbove_rows]
    exact hs.fits

theorem levelAbove_lows (hs : Side ts) : (t.levelAbove n ts).map low =
    heads Page.internalEntrySize (fun _ => 0) internalUsable (ts.map low) := by
  have hentries := congrArg (List.map Prod.fst) (@levelAbove_entries t h n ts hs)
  rw [map_lowEntry_fst, List.map_map] at hentries
  rw [show (t.levelAbove n ts).map low = (t.levelAbove n ts).map (Prod.fst ∘ entry) from rfl, ← hentries, levelHeads,
    heads_map,
    heads_map, List.map_map]
  rfl

theorem levelAbove_short (hs : Side ts) (hmore : 1 < ts.length) : (t.levelAbove n ts).length < ts.length := by
  have hlt := levelHeads_lt hs.entries_fit (by rwa [List.length_map])
  rwa [← numbered_length (t := t) n (levelHeads (ts.map entry)), ← List.length_map lowEntry, levelAbove_entries hs,
    List.length_map, List.length_map] at hlt

theorem levelAbove_ne_nil (hne : ts ≠ []) : t.levelAbove n ts ≠ [] := by
  intro h
  have hkids := @levelAbove_kids t _ n ts
  rw [h] at hkids
  exact hne hkids.symm

/-- `build_internal_level` over trees side by side. -/
theorem buildInternalLevel_trees (hs : Side ts) (hne : ts ≠ []) : t.buildInternalLevel (ts.map entry) n =
      .ok ((t.levelAbove n ts).map entry, (t.levelAbove n ts).map nodePage,
      n + UInt32.ofNat ((t.levelAbove n ts).map nodePage).length) ∧
    ∀ U ∈ t.levelAbove n ts, Page.KeysValid U.keys := by
  obtain ⟨hbuild, hvalid⟩ := @buildInternalLevel_eq t (ts.map entry) n (by simpa using hne) hs.entries_fit hs.entries_sorted
  have hlen : (levelRuns (ts.map entry)).length = ((t.levelAbove n ts).map nodePage).length := by
    rw [← levelAbove_pages, List.length_map, numbered_length]
  refine ⟨by rw [hbuild, levelAbove_entries hs, levelAbove_pages, hlen], fun U hU => ?_⟩
  obtain ⟨id, run, hrun, rfl⟩ := mem_levelAbove hU
  have hkeys := hvalid (run.map entry) (treeRuns_entries ts ▸ List.mem_map_of_mem hrun)
  rw [← List.map_tail, List.map_map] at hkeys
  exact hkeys

/-! ## Pages with a key -/

/-- Every inner node has a key. -/
def Keyed {h : Nat} (T : PageTree h) : Prop := T.All (fun _ _ => True) fun _ keys _ => keys ≠ []

/-- What the last page over a level of keys takes beside its first child. -/
abbrev lastRoom (keys : List Key) : Nat := last Page.internalEntrySize (fun _ => 0) internalUsable keys

/-- The levels over a level of keys. -/
abbrev keyLevels (fuel : Nat) (keys : List Key) : List (List Key) :=
  levels Page.internalEntrySize (fun _ => 0) internalUsable fuel keys

theorem keyed_above (hs : Side ts) (hne : ts ≠ []) :
    (∀ U ∈ t.levelAbove n ts, Keyed U) ↔ lastRoom (ts.map low) ≠ 0 ∧ ∀ T ∈ ts, Keyed T := by
  have hpair : (∀ run ∈ treeRuns ts, 2 ≤ run.length) ↔ lastRoom (ts.map low) ≠ 0 := by
    obtain ⟨c, cs, rfl⟩ := List.exists_cons_of_ne_nil hne
    have hfit : ∀ T ∈ cs, Page.KeyFits (low T) := fun T hT =>
      hs.entries_fit (entry T) (List.mem_map_of_mem (List.mem_cons_of_mem _ hT))
    rw [lastRoom, last_map]
    refine bins_paired (fun T _ => ?_) (fun T hT => Nat.le_trans (hfit T hT) (by decide)) (List.cons_ne_nil c []) (by simp)
    exact Nat.lt_of_lt_of_le (by decide) (Page.internalEntrySize_ge (low T))
  have hkey : ∀ run ∈ treeRuns ts, 2 ≤ run.length ↔ run.tail.map low ≠ [] := by
    intro run hrun
    obtain ⟨c, cs, rfl⟩ := List.exists_cons_of_ne_nil (treeRuns_ne_nil hrun)
    rw [List.tail_cons, ne_eq, List.map_eq_nil_iff, ← List.length_eq_zero_iff, List.length_cons]
    omega
  have hkids : ∀ T ∈ ts, ∃ run ∈ treeRuns ts, T ∈ run := by
    intro T hT
    rw [← treeRuns_flatten ts] at hT
    exact List.mem_flatten.mp hT
  rw [← hpair]
  constructor
  · intro hkeyed
    have hrun : ∀ run ∈ treeRuns ts, ∃ id, Keyed (nodeOver (id, run)) := by
      intro run hrun
      rw [← numbered_snd (t := t) n (treeRuns ts)] at hrun
      obtain ⟨x, hx, rfl⟩ := List.mem_map.mp hrun
      exact ⟨x.1, hkeyed _ (List.mem_map_of_mem hx)⟩
    refine ⟨fun run hr => ?_, fun T hT => ?_⟩
    · obtain ⟨id, hnode⟩ := hrun run hr
      exact (hkey run hr).mpr (Tree.all_inner.mp hnode).1
    · obtain ⟨run, hr, hT⟩ := hkids T hT
      obtain ⟨id, hnode⟩ := hrun run hr
      exact (Tree.all_inner.mp hnode).2 T hT
  · intro ⟨hlong, hkeyed⟩ U hU
    obtain ⟨id, run, hrun, rfl⟩ := mem_levelAbove hU
    refine Tree.all_inner.mpr ⟨(hkey run hrun).mp (hlong run hrun), fun T hT => hkeyed T ?_⟩
    rw [← treeRuns_flatten ts]
    exact List.mem_flatten.mpr ⟨run, hrun, hT⟩

/-! ## The tree over a level -/

/-- A tree over a level `ts`, on `pages` numbered from `n` on. -/
structure TreeOver (t : Table) {h h' : Nat} (n : UInt32) (ts : List (PageTree h)) (T : PageTree h')
    (pages : List Page) : Prop where
  height : h' < h + ts.length
  side : Side [T]
  rows : T.rows = ts.flatMap Tree.rows
  cells : T.cells = ts.flatMap Tree.cells
  ids : T.ids.Perm (pages.map Page.pageId ++ ts.flatMap Tree.ids)
  numbers : pages.map Page.pageId = t.pageIds n pages.length
  count : ∀ fuel, ts.length ≤ fuel → pages.length = ((keyLevels fuel (ts.map low)).map List.length).sum
  valid : ∀ p ∈ pages, p.isMeta = false ∧ p.checkInvariants = .ok ()
  all : ∀ L N, (∀ T ∈ ts, T.All L N) → (∀ id keys children, ⟨id, none, .internal keys children⟩ ∈ pages →
      N id keys children) →
    T.All L N
  keyed : ∀ fuel, ts.length ≤ fuel → (Keyed T ↔
    (∀ T ∈ ts, Keyed T) ∧ ∀ keys ∈ ts.map low :: keyLevels fuel (ts.map low), 1 < keys.length → lastRoom keys ≠ 0)

theorem treeOver_one (hs : Side [T]) : t.TreeOver n [T] T [] where
  height := Nat.lt_succ_self h
  side := hs
  rows := by simp
  cells := by simp
  ids := by simp
  numbers := rfl
  count fuel _ := by rw [keyLevels, levels_one (by simp)]; rfl
  valid := by simp
  all L N hts _ := hts T List.mem_cons_self
  keyed fuel _ := by rw [keyLevels, levels_one (by simp)]; simp

theorem TreeOver.step {h' : Nat} {T : PageTree h'} {pages : List Page} (hs : Side ts) (hmore : 1 < ts.length)
    (hT : t.TreeOver (n + UInt32.ofNat ((t.levelAbove n ts).map nodePage).length) (t.levelAbove n ts) T pages) :
    t.TreeOver n ts T ((t.levelAbove n ts).map nodePage ++ pages) := by
  have hne : ts ≠ [] := List.ne_nil_of_length_pos (by omega)
  have hmap : 1 < (ts.map low).length := by rwa [List.length_map]
  have hshort := levelAbove_short (t := t) (n := n) hs hmore
  have hlevels : ∀ fuel, ts.length ≤ fuel → ∃ fuel', (t.levelAbove n ts).length ≤ fuel' ∧
      keyLevels fuel (ts.map low) = (t.levelAbove n ts).map low :: keyLevels fuel' ((t.levelAbove n ts).map low) := by
    intro fuel hfuel
    obtain ⟨fuel, rfl⟩ : ∃ k, fuel = k + 1 := ⟨fuel - 1, by omega⟩
    exact ⟨fuel, by omega, by rw [keyLevels, levels_more hmap, levelAbove_lows hs]⟩
  have hheight := hT.height
  refine ⟨by omega, hT.side, by rw [hT.rows, levelAbove_rows], by rw [hT.cells, levelAbove_cells], ?_, ?_, ?_, ?_, ?_, ?_⟩
  · rw [List.map_append, List.append_assoc]
    exact (hT.ids.trans ((levelAbove_ids ts).append_left _)).trans (List.perm_append_comm_assoc _ _ _)
  · rw [List.map_append, levelAbove_numbers, hT.numbers, pageIds_append, List.length_append]
  · intro fuel hfuel
    obtain ⟨fuel', hfuel', hlevels⟩ := hlevels fuel hfuel
    rw [hlevels, List.map_cons, List.sum_cons, ← hT.count fuel' hfuel', List.length_append, List.length_map, List.length_map]
  · intro p hp
    rcases List.mem_append.mp hp with hp | hp
    · obtain ⟨U, hU, rfl⟩ := List.mem_map.mp hp
      have hkeys := (@buildInternalLevel_trees t h n ts hs hne).2 U hU
      obtain ⟨id, run, hrun, rfl⟩ := mem_levelAbove hU
      obtain ⟨c, cs, rfl⟩ := List.exists_cons_of_ne_nil (treeRuns_ne_nil hrun)
      exact ⟨rfl, (Page.checkInvariants_iff _).mpr ⟨by simp [nodeOver], hkeys⟩⟩
    · exact hT.valid p hp
  · intro L N hts hpages
    refine hT.all L N (fun U hU => ?_) fun id keys children hp => hpages id keys children (List.mem_append_right _ hp)
    have hpage : nodePage U ∈ (t.levelAbove n ts).map nodePage := List.mem_map_of_mem hU
    obtain ⟨id, run, hrun, rfl⟩ := mem_levelAbove hU
    refine Tree.all_inner.mpr ⟨hpages _ _ _ (List.mem_append_left _ hpage), fun T hT => hts T ?_⟩
    rw [← treeRuns_flatten ts]
    exact List.mem_flatten.mpr ⟨run, hrun, hT⟩
  · intro fuel hfuel
    obtain ⟨fuel', hfuel', hlevels⟩ := hlevels fuel hfuel
    rw [hlevels, hT.keyed fuel' hfuel', keyed_above hs hne, List.forall_mem_cons (a := ts.map low)]
    refine ⟨fun h => ⟨h.1.2, fun _ => h.1.1, h.2⟩, fun h => ⟨⟨h.2.1 hmap, h.1⟩, h.2.2⟩⟩

/-- The loop over the levels ends with one tree over the level. -/
theorem buildLevels_tree (hs : Side ts) (hne : ts ≠ []) (n : UInt32) (internals : List Page) :
    ∃ h', ∃ T : PageTree h', ∃ pages, (∀ fuel, ts.length ≤ fuel → t.buildLevels fuel (ts.map entry) n internals =
        .ok (T.rootId, n + UInt32.ofNat pages.length, internals ++ pages)) ∧ t.TreeOver n ts T pages := by
  induction hlen : ts.length using Nat.strong_induction_on generalizing h n internals with
  | _ len ih =>
    subst hlen
    by_cases hmore : 1 < ts.length
    · have hshort := levelAbove_short (t := t) (n := n) hs hmore
      have habove : t.levelAbove n ts ≠ [] := levelAbove_ne_nil hne
      obtain ⟨h', T, pages, hloop, hT⟩ := ih _ hshort hs.above habove
          (n + UInt32.ofNat ((t.levelAbove n ts).map nodePage).length)
        (internals ++ (t.levelAbove n ts).map nodePage) rfl
      refine ⟨h', T, (t.levelAbove n ts).map nodePage ++ pages, fun fuel hfuel => ?_, hT.step hs hmore⟩
      obtain ⟨fuel, rfl⟩ : ∃ k, fuel = k + 1 := ⟨fuel - 1, by omega⟩
      unfold buildLevels
      rw [if_pos (by rwa [List.length_map]), (buildInternalLevel_trees hs hne).1, ok_bind]
      refine (hloop fuel (by omega)).trans ?_
      rw [UInt32.add_assoc, ← UInt32.ofNat_add, ← List.length_append, List.append_assoc]
    · obtain ⟨T, rest, rfl⟩ := List.exists_cons_of_ne_nil hne
      obtain rfl : rest = [] := List.length_eq_zero_iff.mp (by rw [List.length_cons] at hmore; omega)
      refine ⟨h, T, [], fun fuel hfuel => ?_, treeOver_one hs⟩
      obtain ⟨fuel, rfl⟩ : ∃ k, fuel = k + 1 := ⟨fuel - 1, by rw [List.length_singleton] at hfuel; omega⟩
      unfold buildLevels
      have hzero : n + UInt32.ofNat 0 = n := UInt32.add_zero n
      rw [if_neg (by simp), List.append_nil, List.length_nil, hzero]
      rfl

end

/-! ## Leaves -/

/-- A leaf as a tree. -/
def leafTree (cell : PageId × List Row) : PageTree 0 := Tree.leaf cell.1 cell.2

/-- The leaves, each linked to the one before and the one after it. -/
def linkedPages : Option PageId → List (PageId × List Row) → List Page
  | _, [] => []
  | prev, cell :: cells => ⟨cell.1, none, .leaf cell.2 (cells.head?.map Prod.fst) prev⟩ :: linkedPages (some cell.1) cells

/-- The first key of each leaf that the rows are packed into. -/
def leafKeys (rows : List Row) : List Key := (heads Page.leafEntrySize Page.leafEntrySize leafUsable rows).map Row.key

section
variable {t : Table} {rows : List Row} {row : Row} {cells : List (PageId × List Row)}

theorem linkLeaves_eq (prev : Option PageId) (cells : List (PageId × List Row)) :
    linkLeaves prev (cells.map leafPage) = .ok (linkedPages prev cells) := by
  induction cells generalizing prev with
  | nil => rfl
  | cons cell cells ih =>
    have hhead : (cells.map leafPage).head?.map Page.pageId = cells.head?.map Prod.fst := by
      cases cells <;> rfl
    show (linkLeaves (some cell.1) (cells.map leafPage) >>= fun rest =>
      pure (⟨cell.1, none, .leaf cell.2 ((cells.map leafPage).head?.map Page.pageId) prev⟩ :: rest)) = _
    rw [ih, hhead]
    rfl

theorem linkedPages_ids (prev : Option PageId) (cells : List (PageId × List Row)) :
    (linkedPages prev cells).map Page.pageId = cells.map Prod.fst := by
  induction cells generalizing prev with
  | nil => rfl
  | cons cell cells ih => rw [linkedPages, List.map_cons, ih, List.map_cons]

/-- `first_key` of a leaf with rows. -/
theorem firstKey_leaf {id : PageId} {lsn : PageLsn} {next prev : Option PageId} (hkey : ∀ r ∈ rows, r.key?.isSome)
    (hne : rows ≠ []) : firstKey ⟨id, lsn, .leaf rows next prev⟩ = .ok (low (leafTree (id, rows))) := by
  obtain ⟨r, rest, rfl⟩ := List.exists_cons_of_ne_nil hne
  show expected r.key? = .ok r.key
  rw [Row.key?_eq (hkey r List.mem_cons_self)]
  rfl

/-- The lowest level, under the loop over the levels. -/
theorem firstKeys_eq (prev : Option PageId) (hcells : ∀ cell ∈ cells, (∀ r ∈ cell.2, r.key?.isSome) ∧ cell.2 ≠ []) :
    ((linkedPages prev cells).mapM fun leaf => do return ((← firstKey leaf), leaf.pageId) : Built LevelList) =
      .ok ((cells.map leafTree).map entry) := by
  induction cells generalizing prev with
  | nil => rfl
  | cons cell cells ih =>
    obtain ⟨⟨hkey, hne⟩, hcells⟩ := List.forall_mem_cons.mp hcells
    rw [linkedPages, List.mapM_cons, firstKey_leaf hkey hne, ih (some cell.1) hcells]
    rfl

/-- The bins of the leaves, from a first leaf that takes the first row. -/
theorem leafBins_cons (hrow : Page.RowFits row) : leafBins [] (row :: rows) = leafBins [row] rows := by
  have hfit : Page.rowsSize [] + Page.leafEntrySize row ≤ leafUsable := by
    rw [Page.rowsSize_nil, Nat.zero_add]
    exact hrow.row.trans (by decide)
  rw [leafBins, bins_fits hfit, leafBins, Page.rowsSize_cons, Page.rowsSize_nil, Nat.add_comm, List.nil_append]

theorem leafBins_ne_nil (hfit : ∀ r ∈ rows, Page.RowFits r) (hne : rows ≠ []) : ∀ bin ∈ leafBins [] rows, bin ≠ [] := by
  obtain ⟨row, rest, rfl⟩ := List.exists_cons_of_ne_nil hne
  rw [leafBins_cons (hfit row List.mem_cons_self)]
  exact fun bin hbin => bins_ne_nil (List.cons_ne_nil row []) hbin

theorem leafTrees_rows (n : UInt32) (rows : List Row) :
    ((t.numbered n (leafBins [] rows)).map leafTree).flatMap Tree.rows = rows := by
  rw [List.flatMap_map]
  show (t.numbered n (leafBins [] rows)).flatMap Prod.snd = rows
  rw [List.flatMap_def, numbered_snd]
  exact bins_flatten _ [] rows

theorem leafTrees_lows (n : UInt32) (hfit : ∀ r ∈ rows, Page.RowFits r) (hne : rows ≠ []) :
    ((t.numbered n (leafBins [] rows)).map leafTree).map low = leafKeys rows := by
  have hlow : ((t.numbered n (leafBins [] rows)).map leafTree).map low = (leafBins [] rows).map fun bin =>
      (bin.headD ⟨[]⟩).key := by
    conv_rhs => rw [← numbered_snd (t := t) n (leafBins [] rows), List.map_map]
    rw [List.map_map]
    rfl
  obtain ⟨row, rest, rfl⟩ := List.exists_cons_of_ne_nil hne
  rw [hlow, leafBins_cons (hfit row List.mem_cons_self)]
  have hheads : (leafBins [row] rest).map List.head? =
      (heads Page.leafEntrySize Page.leafEntrySize leafUsable (row :: rest)).map some := by
    rw [leafBins, bins_heads _ (List.cons_ne_nil row []), Page.rowsSize_cons, Page.rowsSize_nil, Nat.add_zero]
    rfl
  calc (leafBins [row] rest).map (fun bin => (bin.headD ⟨[]⟩).key)
      = ((leafBins [row] rest).map List.head?).map fun r => (r.getD ⟨[]⟩).key := by
        rw [List.map_map]
        exact List.map_congr_left fun bin _ => by cases bin <;> rfl
    _ = leafKeys (row :: rest) := by
        rw [hheads, List.map_map]
        rfl

end

/-! ## The new file -/

/-- The levels of keys over the leaves that the rows are packed into. -/
def levelsOver (rows : List Row) : List (List Key) := keyLevels rows.length (leafKeys rows)

/-- The number of pages that the rows are packed into. -/
def packedPages (rows : List Row) : Nat := (leafKeys rows).length + ((levelsOver rows).map List.length).sum

/-- The last page of every level takes a second child. -/
def LastPaired (rows : List Row) : Prop := ∀ keys ∈ leafKeys rows :: levelsOver rows, 1 < keys.length → lastRoom keys ≠ 0

instance (rows : List Row) : Decidable (LastPaired rows) := inferInstanceAs (Decidable (∀ keys ∈ _, _))

/-- The pages of a packed tree, inner ones first. -/
structure PackedTree (t : Table) (rows : List Row) {h : Nat} (T : PageTree h) (inner : List Page)
    (cells : List (PageId × List Row)) :
    Prop where
  height : h < rows.length
  holds : T.rows = rows
  bounds : T.RowBounds Row.key
  leaves : T.cells = cells
  short : cells.length ≤ rows.length
  filled : ∀ cell ∈ cells, Page.LeafValid cell.2 ∧ cell.2 ≠ []
  ids : T.ids.Perm (inner.map Page.pageId ++ cells.map Prod.fst)
  numbers : (cells.map Prod.fst ++ inner.map Page.pageId) = t.pageIds 1 (packedPages rows)
  valid : ∀ p ∈ inner, p.isMeta = false ∧ p.checkInvariants = .ok ()
  all : T.All (fun id rows => (id, rows) ∈ cells) fun id keys children => ⟨id, none, .internal keys children⟩ ∈ inner
  keyed : Keyed T ↔ LastPaired rows

section
variable {t : Table} {rows : List Row}

theorem rowFits_of_valid (hvalid : ∀ r ∈ rows, ∃ v, t.schema.validateRow r = .ok v) : ∀ r ∈ rows, Page.RowFits r := by
  intro r hr
  obtain ⟨v, hv⟩ := hvalid r hr
  rw [← Schema.validateRow_ok hv]
  exact Page.rowFits_validated v

/-- What packing rows into a new file comes to. -/
theorem pack_tree (hvalid : ∀ r ∈ rows, ∃ v, t.schema.validateRow r = .ok v) (hsorted : (rows.map Row.key).Pairwise (· < ·))
    (hne : rows ≠ []) : ∃ h, ∃ T : PageTree h, ∃ inner cells, (∀ fuel, rows.length ≤ fuel →
        t.pack fuel rows = .ok (T.rootId, UInt32.ofNat (packedPages rows + 1), inner ++ linkedPages none cells)) ∧
      t.PackedTree rows T inner cells := by
  have hfit := rowFits_of_valid hvalid
  obtain ⟨hfill, hbins⟩ := @fillLeaves_eq t rows [] 1 hvalid leafValid_nil (by simpa using hsorted)
  have hlows := leafTrees_lows (t := t) 1 hfit hne
  have hcells : ∀ cell ∈ t.numbered 1 (leafBins [] rows), Page.LeafValid cell.2 ∧ cell.2 ≠ [] := by
    intro cell hcell
    have hbin : cell.2 ∈ leafBins [] rows := numbered_snd (t := t) 1 (leafBins [] rows) ▸ List.mem_map_of_mem hcell
    exact ⟨hbins _ hbin, leafBins_ne_nil hfit hne _ hbin⟩
  have hts : (t.numbered 1 (leafBins [] rows)).map leafTree ≠ [] := by
    intro h
    rw [h] at hlows
    exact heads_ne_nil hne (List.map_eq_nil_iff.mp hlows.symm)
  have hcount : ((t.numbered 1 (leafBins [] rows)).map leafTree).length = (leafKeys rows).length := by
    rw [← hlows, List.length_map low]
  have hle : (leafKeys rows).length ≤ rows.length := by
    rw [leafKeys, List.length_map]
    exact (heads_sublist rows).length_le
  have hside : Side ((t.numbered 1 (leafBins [] rows)).map leafTree) := by
    refine ⟨?_, ?_, ?_, ?_⟩
    · intro T hT
      obtain ⟨cell, hcell, rfl⟩ := List.mem_map.mp hT
      exact (hcells cell hcell).2
    · intro T hT
      obtain ⟨cell, hcell, rfl⟩ := List.mem_map.mp hT
      exact (hcells cell hcell).1.sorted
    · rwa [leafTrees_rows]
    · rw [leafTrees_rows]
      exact fun r hr => (hfit r hr).key
  obtain ⟨h, T, inner, hloop, hT⟩ := buildLevels_tree (t := t) hside hts (1 + UInt32.ofNat (leafBins [] rows).length) []
  have hpages : packedPages rows = (leafBins [] rows).length + inner.length := by
    rw [packedPages, levelsOver, hT.count rows.length (by omega), hlows, ← hcount, List.length_map, numbered_length]
  refine ⟨h, T, inner, t.numbered 1 (leafBins [] rows), fun fuel hfuel => ?_, ?_, ?_, ?_, ?_, ?_, hcells, ?_, ?_, hT.valid,
    ?_, ?_⟩
  · have hkeys : ∀ cell ∈ t.numbered 1 (leafBins [] rows), (∀ r ∈ cell.2, r.key?.isSome) ∧ cell.2 ≠ [] := fun cell hcell =>
      ⟨fun r hr => ((hcells cell hcell).1.rows r hr).hasKey, (hcells cell hcell).2⟩
    have hnext : UInt32.ofNat (packedPages rows + 1) =
        1 + UInt32.ofNat (leafBins [] rows).length + UInt32.ofNat inner.length := by
      rw [hpages, UInt32.ofNat_add, UInt32.ofNat_add, UInt32.add_comm, UInt32.add_assoc]
      rfl
    have hstart : t.fillLeaves rows (Page.emptyLeaf (t.getPageId 1)) 2 = _ := hfill
    rw [pack, hstart, ok_bind, linkLeaves_eq, ok_bind, firstKeys_eq none hkeys, ok_bind, hloop fuel (by omega), ok_bind,
      hnext]
    rfl
  · have hheight := hT.height
    omega
  · rw [hT.rows, leafTrees_rows]
  · exact hT.side.bounds T List.mem_cons_self
  · rw [hT.cells, List.flatMap_map]
    exact List.flatMap_singleton' _
  · rw [← List.length_map leafTree]
    omega
  · have hleaves : ((t.numbered 1 (leafBins [] rows)).map leafTree).flatMap Tree.ids =
        (t.numbered 1 (leafBins [] rows)).map Prod.fst := by
      rw [List.flatMap_map]
      exact List.flatMap_pure_eq_map ..
    rw [← hleaves]
    exact hT.ids
  · rw [numbered_fst, hT.numbers, pageIds_append, hpages]
  · refine hT.all _ _ (fun T hT => ?_) fun _ _ _ hp => hp
    obtain ⟨cell, hcell, rfl⟩ := List.mem_map.mp hT
    exact hcell
  · rw [hT.keyed rows.length (by omega), hlows]
    refine and_iff_right fun T hT => ?_
    obtain ⟨cell, -, rfl⟩ := List.mem_map.mp hT
    trivial

end

end Table

end RustDb
