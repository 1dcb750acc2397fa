/-
  RustDb.BTree.Get — `get` and `get_range` on a tree that can be read.

  A reader holds one latch at a time, hand over hand (`World.reading`). The descents end at
  the leaf with the key or the start bound: every row before that leaf is below it, and for
  `get` every row after it is above (`exec_getDescend`, `exec_rangeDescend`). The walk along
  the next links then collects what `Bound.contains` and the filter let through
  (`exec_walkLeaves`).
-/

import RustDb.BTree.Rep

namespace RustDb

open Lib.SearchTree Call

/-- The world in which the caller holds exactly one read guard. -/
def World.reading (σ : Store) (id : PageId) : World := (World.idle σ).setLatch id (.readers 1)

theorem World.latch_idle (σ : Store) (id : PageId) : (World.idle σ).latch id = .readers 0 := by simp [World.writing_latch]

theorem World.latch_reading {σ : Store} {id x : PageId} (h : x ≠ id) : (World.reading σ id).latch x = .readers 0 := by
  simp [World.reading, World.setLatch, World.writing_latch, h]

theorem exec_fetchRead_idle {σ : Store} {id : PageId} {p : Page} (hp : σ.page id = some p) :
    Exec (Call.fetchRead id) (.idle σ) [.reading σ id] (.ok p) (.reading σ id) :=
  exec_fetchRead hp (World.latch_idle σ id)

theorem exec_drop_reading {ε : Type} (σ : Store) (id : PageId) :
    Exec (Call.drop id : Call ε Unit) (.reading σ id) [.idle σ] (.ok ()) (.idle σ) := by
  have h := (@exec_drop_reader ε id) (w := .reading σ id) (n := 0) (by simp [World.reading, World.setLatch])
  rwa [World.reading, World.setLatch_setLatch, World.setLatch_self (World.latch_idle σ id)] at h

namespace BTree

theorem exec_bpm {α : Type} {p : Call BpmError α} {w w' : World} {tr : List World} {a : α}
    (h : Exec p w tr (.ok a) w') : Exec (bpm p) w tr (.ok a) w' := h.mapErr_ok _

/-- A reader moves on: the next page is latched before the one it has is released. -/
theorem exec_readOn {α : Type} {σ : Store} {id next : PageId} {q : Page} {k : Page → BT α} {tr : List World}
    {r : Except (Fail BTreeError) α} {w : World} (hq : σ.page next = some q)
    (hk : Exec (k q) (.reading σ next) tr r w) :
    ∃ tr', Exec (do let child ← bpm (fetchRead next); drop id; k child) (.reading σ id) tr' r w := by
  by_cases hne : next = id
  · subst hne
    have hfetch := exec_fetchRead (w := .reading σ next) (n := 1) hq
      (by simp [World.reading, World.setLatch])
    have hdrop := (@exec_drop_reader BTreeError next) (w := (World.reading σ next).setLatch next (.readers 2)) (n := 1)
        (by simp [World.setLatch])
    have hw : ((World.reading σ next).setLatch next (.readers 2)).setLatch next (.readers 1) = World.reading σ next := by
      rw [World.setLatch_setLatch, World.reading, World.setLatch_setLatch]
    rw [hw] at hdrop
    exact ⟨_, (exec_bpm hfetch).bind (hdrop.bind hk)⟩
  · have hfetch := exec_fetchRead (w := .reading σ id) (n := 0) hq (World.latch_reading hne)
    have hdrop := (@exec_drop_reader BTreeError id) (w := (World.reading σ id).setLatch next (.readers 1)) (n := 0)
        (by simp [World.reading, World.setLatch, Ne.symm hne])
    have hw : ((World.reading σ id).setLatch next (.readers 1)).setLatch id (.readers 0) = World.reading σ next := by
      simp only [World.reading, World.setLatch, World.writing, World.mk.injEq, true_and]
      funext x
      by_cases hx : x = id
      · subst hx; simp [Ne.symm hne]
      · simp [hx]
    rw [hw] at hdrop
    exact ⟨_, (exec_bpm hfetch).bind (hdrop.bind hk)⟩

section
variable {t : Table} {σ : Store} {h : Nat} {T : PageTree h}

theorem Readable.root_ne_meta (hr : Readable t σ T) : T.rootId ≠ t.metaId := by
  intro he
  obtain ⟨p, hp, hbody⟩ := rootPage hr.pages
  have hroot := hr.root
  simp only [Table.namedRoot, World.writing_store, ← he, hp, Option.bind_some] at hroot
  cases hb : p.body <;> simp_all [Page.metaGetRootId, Page.isMeta, Except.toOption]

theorem exec_getRootRead {p : Page} {id : PageId} {fuel : Nat} (hroot : t.namedRoot (.idle σ) = some id)
    (hp : σ.page id = some p) (hne : id ≠ t.metaId) (hfuel : 0 < fuel) :
    ∃ tr, Exec (getRootRead t fuel) (.idle σ) tr (.ok p) (.reading σ id) := by
  obtain ⟨fuel, rfl⟩ : ∃ n, fuel = n + 1 := ⟨fuel - 1, by omega⟩
  have hid := Table.exec_rootId hroot (World.latch_idle σ t.metaId)
  have hnow := Table.exec_rootId (t := t) (w := .reading σ id) hroot (World.latch_reading hne.symm)
  have hret : Exec (if id = id then pure p else do drop id; getRootRead t fuel) (.reading σ id) [] (.ok p)
      (.reading σ id) := by
    rw [if_pos rfl]
    exact exec_pure _ _
  exact ⟨_, hid.expect_ok.bind ((exec_bpm (exec_fetchRead_idle hp)).bind (hnow.expect_ok.bind hret))⟩

/-! ## Descents -/

/-- A key's way down from an inner page. -/
theorem route_step {id : PageId} {keys : List Key} {kids : List (PageTree h)} {key : Key}
    (hpages : (Tree.inner id keys kids).All (leafAt σ) (nodeAt σ)) (hb : (Tree.inner id keys kids).RowBounds Row.key) :
    ∃ lsn ca kid cb, kids = ca ++ kid :: cb ∧ σ.page id = some ⟨id, lsn, .internal keys (kids.map Tree.rootId)⟩ ∧
      Page.findChild ⟨id, lsn, .internal keys (kids.map Tree.rootId)⟩ key = .ok (some kid.rootId) ∧
      (∀ r ∈ ca.flatMap Tree.rows, r.key < key) ∧ ∀ r ∈ cb.flatMap Tree.rows, key < r.key := by
  obtain ⟨⟨lsn, hp⟩, -⟩ := Tree.all_inner.mp hpages
  obtain ⟨a, b, ca, kid, cb, rfl, rfl, hlen, ha, hb', hleft, hright⟩ := hb.route key
  refine ⟨lsn, ca, kid, cb, rfl, hp, ?_, hleft, hright⟩
  rw [List.map_append, List.map_cons]
  exact Page.findChild_eq (Tree.rowBounds_inner.mp hb).1 ha hb' (by simpa using hlen)

/-- The reader's leaf, and the leaves before and after it. -/
structure AtLeaf (σ : Store) (T : PageTree h) (X : List (PageId × List Row)) (p : Page) (rows : List Row)
    (Y : List (PageId × List Row)) : Prop where
  page : σ.page p.pageId = some p
  leaf : ∃ next prev, p.body = .leaf rows next prev
  cells : T.cells = X ++ (p.pageId, rows) :: Y

theorem AtLeaf.up {id : PageId} {keys : List Key} {ca cb : List (PageTree h)} {kid : PageTree h}
    {X Y : List (PageId × List Row)} {p : Page} {rows : List Row} (ha : AtLeaf σ kid X p rows Y) :
    AtLeaf σ (Tree.inner id keys (ca ++ kid :: cb)) (ca.flatMap Tree.cells ++ X) p rows (Y ++ cb.flatMap Tree.cells) where
  page := ha.page
  leaf := ha.leaf
  cells := by simp [ha.cells]

theorem exec_getDescend (key : Key) : ∀ {h : Nat} {T : PageTree h} {p : Page} {fuel : Nat}, h < fuel →
    T.All (leafAt σ) (nodeAt σ) → T.RowBounds Row.key → σ.page T.rootId = some p →
    ∃ q rows X Y tr, Exec (getDescend key fuel p) (.reading σ T.rootId) tr (.ok q) (.reading σ q.pageId) ∧
      AtLeaf σ T X q rows Y ∧ (∀ r ∈ X.flatMap Prod.snd, r.key < key) ∧ ∀ r ∈ Y.flatMap Prod.snd, key < r.key
  | 0, T, p, fuel, hfuel => T.casesZero fun id rows hpages _ hp => by
    obtain ⟨fuel, rfl⟩ : ∃ n, fuel = n + 1 := ⟨fuel - 1, by omega⟩
    obtain ⟨lsn, next, prev, hleaf⟩ := Tree.all_leaf.mp hpages
    obtain rfl : _ = p := Option.some.inj (hleaf.symm.trans hp)
    exact ⟨_, rows, [], [], [], exec_pure _ _, ⟨hleaf, ⟨next, prev, rfl⟩, rfl⟩, by simp, by simp⟩
  | h + 1, T, p, fuel, hfuel => T.casesSucc fun id keys kids hpages hb hp => by
    obtain ⟨fuel, rfl⟩ : ∃ n, fuel = n + 1 := ⟨fuel - 1, by omega⟩
    obtain ⟨lsn, ca, kid, cb, rfl, hnode, hfind, hleft, hright⟩ := (@route_step _ _ _ _ _ key) hpages hb
    obtain rfl : _ = p := Option.some.inj (hnode.symm.trans hp)
    have hkid : kid ∈ ca ++ kid :: cb := by simp
    have hpkid := (Tree.all_inner.mp hpages).2 kid hkid
    obtain ⟨pkid, hpk, -⟩ := rootPage hpkid
    obtain ⟨q, rows, X, Y, tr, hexec, hat, hX, hY⟩ := exec_getDescend key (T := kid) (show h < fuel by omega) hpkid
      ((Tree.rowBounds_inner.mp hb).2.2 kid hkid) hpk
    obtain ⟨tr', hexec'⟩ := exec_readOn hpk hexec
    refine ⟨q, rows, _, _, tr', ?_, hat.up, ?_, ?_⟩
    · rw [getDescend]
      simpa only [Page.isInternal, if_true, hfind, Call.page_ok, pure_bind, Tree.rootId_inner] using hexec'
    · rw [List.flatMap_append, Tree.flatMap_cells_kids]
      exact fun r hr => (List.mem_append.mp hr).elim (hleft r) (hX r)
    · rw [List.flatMap_append, Tree.flatMap_cells_kids]
      exact fun r hr => (List.mem_append.mp hr).elim (hY r) (hright r)

/-! ## Bounds -/

/-- The keys a start bound lets through. -/
def Bound.fromStart : Bound → Key → Bool
  | .included s, k => s ≤ k
  | .excluded s, k => s < k
  | .unbounded, _ => true

/-- The keys an end bound lets through. -/
def Bound.toEnd : Bound → Key → Bool
  | .included e, k => k ≤ e
  | .excluded e, k => k < e
  | .unbounded, _ => true

/-- `RangeBounds::contains`. -/
def Bound.contains (start stop : Bound) (k : Key) : Bool := start.fromStart k && stop.toEnd k

theorem Bound.toEnd_mono {b : Bound} {k k' : Key} (hk : k < k') (h : b.toEnd k = false) : b.toEnd k' = false := by
  cases b with
  | included e => simp only [toEnd, decide_eq_false_iff_not, not_le] at h ⊢; exact h.trans hk
  | excluded e => simp only [toEnd, decide_eq_false_iff_not, not_lt] at h ⊢; exact h.trans hk.le
  | unbounded => cases h

theorem Bound.contains_singleton (k k' : Key) : Bound.contains (.included k) (.included k) k' = decide (k' = k) := by
  rw [Bool.eq_iff_iff]
  simp only [contains, fromStart, toEnd, Bool.and_eq_true, decide_eq_true_iff]
  exact ⟨fun h => le_antisymm h.2 h.1, fun h => ⟨h.ge, h.le⟩⟩

theorem beforeStart_eq {r : Row} (hr : r.key?.isSome) (b : Bound) : beforeStart r b = some (!b.fromStart r.key) := by
  cases b with
  | unbounded => rfl
  | included s =>
    simp only [beforeStart, Row.cmpKey_eq, Row.key?_eq hr, Option.map_some, Bound.fromStart, Option.some.injEq]
    rw [Bool.eq_iff_iff, beq_iff_eq, compare_lt_iff_lt]
    simp
  | excluded s =>
    simp only [beforeStart, Row.cmpKey_eq, Row.key?_eq hr, Option.map_some, Bound.fromStart, Option.some.injEq]
    rw [Bool.eq_iff_iff, bne_iff_ne, ne_eq, compare_gt_iff_gt]
    simp

theorem pastEnd_eq {r : Row} (hr : r.key?.isSome) (b : Bound) : pastEnd r b = some (!b.toEnd r.key) := by
  cases b with
  | unbounded => rfl
  | included e =>
    simp only [pastEnd, Row.cmpKey_eq, Row.key?_eq hr, Option.map_some, Bound.toEnd, Option.some.injEq]
    rw [Bool.eq_iff_iff, beq_iff_eq, compare_gt_iff_gt]
    simp
  | excluded e =>
    simp only [pastEnd, Row.cmpKey_eq, Row.key?_eq hr, Option.map_some, Bound.toEnd, Option.some.injEq]
    rw [Bool.eq_iff_iff, bne_iff_ne, ne_eq, compare_lt_iff_lt]
    simp

/-- The rows a range with a filter asks for. -/
def wanted (start stop : Bound) (filterFn : Row → Bool) (r : Row) : Bool := Bound.contains start stop r.key && filterFn r

theorem filter_past {start stop : Bound} {filterFn : Row → Bool} {rows : List Row}
    (h : ∀ r ∈ rows, stop.toEnd r.key = false) : rows.filter (wanted start stop filterFn) = [] := by
  rw [List.filter_eq_nil_iff]
  intro r hr
  simp [wanted, Bound.contains, h r hr]

/-! ## The walk -/

/-- One leaf's rows: those wanted are collected, and the walk ends there only if a row is
    past the end. -/
theorem scanRows_eq (start stop : Bound) (filterFn : Row → Bool) : ∀ {rows result : List Row},
    (∀ r ∈ rows, r.key?.isSome) → (rows.map Row.key).Pairwise (· < ·) →
    ∃ stopped, scanRows start stop filterFn rows result =
      some (result ++ rows.filter (wanted start stop filterFn), stopped) ∧
      (stopped = true → ∃ r ∈ rows, stop.toEnd r.key = false)
  | [], result, _, _ => ⟨false, by simp [scanRows], by simp⟩
  | row :: rows, result, hkey, hs => by
    have hrow := hkey row (by simp)
    have hkey' : ∀ r ∈ rows, r.key?.isSome := fun r hr => hkey r (by simp [hr])
    obtain ⟨hlt, hs'⟩ := List.pairwise_cons.mp hs
    simp only [scanRows, beforeStart_eq hrow, pastEnd_eq hrow]
    rcases hb : start.fromStart row.key with _ | _
    · obtain ⟨stopped, hscan, hstop⟩ := (@scanRows_eq start stop filterFn _ result) hkey' hs'
      refine ⟨stopped, ?_, fun h => ?_⟩
      · simp [hscan, wanted, Bound.contains, hb]
      · obtain ⟨r, hr, hend⟩ := hstop h
        exact ⟨r, by simp [hr], hend⟩
    · rcases he : stop.toEnd row.key with _ | _
      · have hpast : ∀ r ∈ row :: rows, stop.toEnd r.key = false := by
          intro r hr
          rcases List.mem_cons.mp hr with rfl | hr
          · exact he
          · exact Bound.toEnd_mono (hlt _ (List.mem_map_of_mem hr)) he
        exact ⟨true, by simp [filter_past hpast], fun _ => ⟨row, by simp, he⟩⟩
      · obtain ⟨stopped, hscan, hstop⟩ := (@scanRows_eq start stop filterFn _
          (if filterFn row then result ++ [row] else result)) hkey' hs'
        refine ⟨stopped, ?_, fun h => ?_⟩
        · simp only [Bool.not_true, hscan]
          by_cases hf : filterFn row = true <;> simp [wanted, Bound.contains, hb, he, hf]
        · obtain ⟨r, hr, hend⟩ := hstop h
          exact ⟨r, by simp [hr], hend⟩

theorem exec_rangeDescend (start : Bound) : ∀ {h : Nat} {T : PageTree h} {p : Page} {fuel : Nat}, h < fuel →
    T.All (leafAt σ) (nodeAt σ) → T.RowBounds Row.key → σ.page T.rootId = some p →
    ∃ q rows X Y tr, Exec (rangeDescend start fuel p) (.reading σ T.rootId) tr (.ok q) (.reading σ q.pageId) ∧
      AtLeaf σ T X q rows Y ∧ ∀ r ∈ X.flatMap Prod.snd, start.fromStart r.key = false
  | 0, T, p, fuel, hfuel => T.casesZero fun id rows hpages _ hp => by
    obtain ⟨fuel, rfl⟩ : ∃ n, fuel = n + 1 := ⟨fuel - 1, by omega⟩
    obtain ⟨lsn, next, prev, hleaf⟩ := Tree.all_leaf.mp hpages
    obtain rfl : _ = p := Option.some.inj (hleaf.symm.trans hp)
    exact ⟨_, rows, [], [], [], exec_pure _ _, ⟨hleaf, ⟨next, prev, rfl⟩, rfl⟩, by simp⟩
  | h + 1, T, p, fuel, hfuel => T.casesSucc fun id keys kids hpages hb hp => by
    obtain ⟨fuel, rfl⟩ : ∃ n, fuel = n + 1 := ⟨fuel - 1, by omega⟩
    -- the child taken, and why the rows before it are out of the range
    obtain ⟨lsn, ca, kid, cb, rfl, hnode, hchild, hleft⟩ : ∃ lsn ca kid cb, kids = ca ++ kid :: cb ∧
        σ.page id = some ⟨id, lsn, .internal keys (kids.map Tree.rootId)⟩ ∧
        rangeChild ⟨id, lsn, .internal keys (kids.map Tree.rootId)⟩ start = .ok kid.rootId ∧
        ∀ r ∈ ca.flatMap Tree.rows, start.fromStart r.key = false := by
      cases start with
      | included k =>
        obtain ⟨lsn, ca, kid, cb, rfl, hnode, hfind, hleft, -⟩ := (@route_step _ _ _ _ _ k) hpages hb
        exact ⟨lsn, ca, kid, cb, rfl, hnode, by simp only [rangeChild, hfind], fun r hr => by
          simpa [Bound.fromStart] using hleft r hr⟩
      | excluded k =>
        obtain ⟨lsn, ca, kid, cb, rfl, hnode, hfind, hleft, -⟩ := (@route_step _ _ _ _ _ k) hpages hb
        exact ⟨lsn, ca, kid, cb, rfl, hnode, by simp only [rangeChild, hfind], fun r hr => by
          simpa [Bound.fromStart] using (hleft r hr).le⟩
      | unbounded =>
        obtain ⟨⟨lsn, hnode⟩, -⟩ := Tree.all_inner.mp hpages
        rcases kids with _ | ⟨kid, kids⟩
        · have hlen := chain_length (Tree.rowBounds_inner.mp hb).2.1
          simp at hlen
        · exact ⟨lsn, [], kid, kids, rfl, hnode, rfl, by simp⟩
    obtain rfl : _ = p := Option.some.inj (hnode.symm.trans hp)
    have hkid : kid ∈ ca ++ kid :: cb := by simp
    have hpkid := (Tree.all_inner.mp hpages).2 kid hkid
    obtain ⟨pkid, hpk, -⟩ := rootPage hpkid
    obtain ⟨q, rows, X, Y, tr, hexec, hat, hX⟩ := exec_rangeDescend start (T := kid) (show h < fuel by omega) hpkid
      ((Tree.rowBounds_inner.mp hb).2.2 kid hkid) hpk
    obtain ⟨tr', hexec'⟩ := exec_readOn hpk hexec
    refine ⟨q, rows, _, _, tr', ?_, hat.up, ?_⟩
    · rw [rangeDescend]
      simpa only [Page.isInternal, if_true, hchild, Call.page_ok, pure_bind, Tree.rootId_inner] using hexec'
    · rw [List.flatMap_append, Tree.flatMap_cells_kids]
      exact fun r hr => (List.mem_append.mp hr).elim (hleft r) (hX r)

theorem Readable.hasKey (hr : Readable t σ T) : ∀ r ∈ T.rows, r.key?.isSome := by
  intro r hrow
  rw [← Tree.flatMap_cells] at hrow
  obtain ⟨c, hc, hrow⟩ := List.mem_flatMap.mp hrow
  exact (((all_valid hr.pages hr.passes).cells c hc).2.rows r hrow).hasKey

theorem exec_walkLeaves (hr : Readable t σ T) (start stop : Bound) (filterFn : Row → Bool) :
    ∀ {fuel : Nat} {X Y : List (PageId × List Row)} {p : Page} {rows result : List Row}, Y.length < fuel →
      AtLeaf σ T X p rows Y →
      ∃ tr, Exec (walkLeaves start stop filterFn fuel p result) (.reading σ p.pageId) tr
        (.ok (result ++ (rows ++ Y.flatMap Prod.snd).filter (wanted start stop filterFn))) (.idle σ)
  | 0, _, _, _, _, _, hfuel, _ => absurd hfuel (Nat.not_lt_zero _)
  | fuel + 1, X, Y, ⟨id, lsn, body⟩, rows, result, hfuel, hat => by
    obtain ⟨next, prev, rfl⟩ : ∃ next prev, body = .leaf rows next prev := hat.leaf
    have hcells : T.cells = X ++ (id, rows) :: Y := hat.cells
    have hrows : T.rows = X.flatMap Prod.snd ++ (rows ++ Y.flatMap Prod.snd) := by
      rw [← Tree.flatMap_cells, hcells, List.flatMap_append, List.flatMap_cons]
    have hsorted := hr.bounds.sorted
    rw [hrows, List.map_append, List.map_append] at hsorted
    obtain ⟨hs, -, hlater⟩ := List.pairwise_append.mp (List.pairwise_append.mp hsorted).2.1
    obtain ⟨stopped, hscan, hstop⟩ := (@scanRows_eq start stop filterFn _ result)
        (fun r hrow => hr.hasKey r (by simp [hrows, hrow])) hs
    have hdrop := exec_drop_reading (ε := BTreeError) σ id
    simp only [walkLeaves, Page.records?, hscan, List.filter_append]
    cases stopped with
    | true =>
      obtain ⟨r, hrow, hend⟩ := hstop rfl
      have hnone := (@filter_past start _ filterFn) fun r' hr' =>
        Bound.toEnd_mono (hlater _ (List.mem_map_of_mem hrow) _ (List.mem_map_of_mem hr')) hend
      rw [hnone, List.append_nil]
      exact ⟨_, hdrop.bind (exec_pure _ _)⟩
    | false =>
      have hleaves : T.leaves = X.map Prod.fst ++ id :: Y.map Prod.fst := by
        rw [← Tree.map_cells, hcells, List.map_append, List.map_cons]
      obtain ⟨lsn', rows', prev', hpage⟩ := hr.links _ _ _ hleaves
      have hsame := hat.page.symm.trans hpage
      simp only [Option.some.injEq, Page.mk.injEq, PageBody.leaf.injEq] at hsame
      obtain ⟨-, -, -, rfl, -⟩ := hsame
      simp only [Page.next, Call.page_ok, pure_bind]
      rcases Y with _ | ⟨⟨n, rows''⟩, Y⟩
      · simp only [List.map_nil, List.head?_nil, List.flatMap_nil, List.filter_nil, List.append_nil]
        exact ⟨_, hdrop.bind (exec_pure _ _)⟩
      · have hc : (n, rows'') ∈ T.cells := by rw [hcells]; simp
        obtain ⟨lsn'', nx, pv, hn⟩ := hr.pages.cells _ hc
        obtain ⟨tr, hexec⟩ := exec_walkLeaves hr start stop filterFn (X := X ++ [(id, rows)]) (Y := Y)
          (p := ⟨n, lsn'', .leaf rows'' nx pv⟩) (by simpa using hfuel)
          ⟨hn, ⟨nx, pv, rfl⟩, by simp [hcells]⟩
        simp only [List.map_cons, List.head?_cons, List.flatMap_cons]
        rw [List.filter_append, List.append_assoc] at hexec
        rw [List.filter_append]
        exact exec_readOn hn hexec

/-! ## Results -/

theorem exec_getRange (hr : Readable t σ T) {fuel : Nat} (hh : h < fuel) (hl : T.leaves.length ≤ fuel) (start stop : Bound)
    (filterFn : Row → Bool) :
    ∃ tr, Exec (getRange t fuel start stop filterFn) (.idle σ) tr (.ok (T.rows.filter (wanted start stop filterFn)))
    (.idle σ) := by
  obtain ⟨p, hp, -⟩ := rootPage hr.pages
  obtain ⟨tr₁, hroot⟩ := (@exec_getRootRead _ _ _ _ fuel) hr.root hp hr.root_ne_meta (by omega)
  obtain ⟨q, rows, X, Y, tr₂, hdesc, hat, hX⟩ := exec_rangeDescend start hh hr.pages hr.bounds hp
  have hY : Y.length < fuel := by
    rw [← Tree.map_cells, List.length_map, hat.cells] at hl
    simp at hl
    omega
  obtain ⟨tr₃, hwalk⟩ := exec_walkLeaves hr start stop filterFn hY hat
  have hrows : T.rows.filter (wanted start stop filterFn) =
      [] ++ (rows ++ Y.flatMap Prod.snd).filter (wanted start stop filterFn) := by
    have hbefore : (X.flatMap Prod.snd).filter (wanted start stop filterFn) = [] := by
      rw [List.filter_eq_nil_iff]
      intro r hrow
      simp [wanted, Bound.contains, hX r hrow]
    rw [← Tree.flatMap_cells, hat.cells, List.flatMap_append, List.flatMap_cons, List.filter_append, hbefore]
  rw [hrows]
  exact ⟨_, (hroot.bind (hdesc.bind hwalk)).unwinding_ok⟩

theorem exec_get (hr : Readable t σ T) {fuel : Nat} (hh : h < fuel) (key : Key) :
    ∃ tr, Exec (get t fuel key) (.idle σ) tr (.ok (T.rows.find? (·.key = key))) (.idle σ) := by
  obtain ⟨p, hp, -⟩ := rootPage hr.pages
  obtain ⟨tr₁, hroot⟩ := (@exec_getRootRead _ _ _ _ fuel) hr.root hp hr.root_ne_meta (by omega)
  obtain ⟨q, rows, X, Y, tr₂, hdesc, hat, hX, hY⟩ := exec_getDescend key hh hr.pages hr.bounds hp
  have hfound : q.leafGet key = .ok (T.rows.find? (·.key = key)) := by
    rcases q with ⟨id, lsn, body⟩
    obtain ⟨next, prev, rfl⟩ : ∃ next prev, body = .leaf rows next prev := hat.leaf
    have hv : Page.LeafValid rows := ((all_valid hr.pages hr.passes).cells (id, rows) (by rw [hat.cells]; simp)).2
    have hbefore : (X.flatMap Prod.snd).find? (·.key = key) = none :=
      List.find?_eq_none.mpr fun r hr => by simpa using (hX r hr).ne
    have hafter : (Y.flatMap Prod.snd).find? (·.key = key) = none :=
      List.find?_eq_none.mpr fun r hr => by simpa using (hY r hr).ne'
    rw [← Tree.flatMap_cells, hat.cells, List.flatMap_append, List.flatMap_cons, List.find?_append, List.find?_append,
      hbefore, hafter, Option.none_or, Option.or_none]
    by_cases hk : ∃ r ∈ rows, r.key = key
    · obtain ⟨r, hr, rfl⟩ := hk
      obtain ⟨a, b, rfl⟩ := List.append_of_mem hr
      have hs := hv.sorted
      rw [List.map_append, List.map_cons] at hs
      rw [Page.leafGet_found hv, List.find?_append, List.find?_eq_none.mpr]
      · simp
      · intro x hx
        simpa using ((List.pairwise_append.mp hs).2.2 _ (List.mem_map_of_mem hx) _ (by simp)).ne
    · simp only [not_exists, not_and] at hk
      rw [Page.leafGet_absent hv hk, List.find?_eq_none.mpr]
      simpa using hk
  have hdrop := (exec_drop_reading (ε := BTreeError) σ q.pageId).bind (f := fun _ => pure (T.rows.find? (·.key = key)))
    (exec_pure _ _)
  have hpage := exec_pure (ε := BTreeError) (T.rows.find? (·.key = key)) (.reading σ q.pageId)
  rw [← Call.page_ok BTreeError.page, ← hfound] at hpage
  exact ⟨_, (hroot.bind (hdesc.bind (hpage.bind hdrop))).unwinding_ok⟩

/-- Over any bounds and filter, `get_range` returns the rows asked for, each once and in
    increasing order of their keys, and `get` finds a row wherever it is stored. -/
theorem getRange_and_get (hr : Readable t σ T) {fuel : Nat} (hh : h < fuel) (hl : T.leaves.length ≤ fuel) :
    (T.rows.map Row.key).Pairwise (· < ·) ∧
    (∀ start stop filterFn, (getRange t fuel start stop filterFn).eval (.idle σ) =
      some (.ok (T.rows.filter fun r => Bound.contains start stop r.key && filterFn r), .idle σ)) ∧
    ∀ key, ∃ found rows, (get t fuel key).eval (.idle σ) = some (.ok found, .idle σ) ∧
      (getRange t fuel (.included key) (.included key) fun _ => true).eval (.idle σ) = some (.ok rows, .idle σ) ∧
      (∀ r, found = some r ↔ r ∈ T.rows ∧ r.key = key) ∧ rows = found.toList := by
  have hsorted := hr.bounds.sorted
  refine ⟨hsorted, fun start stop filterFn => ?_, fun key => ?_⟩
  · obtain ⟨tr, hexec⟩ := exec_getRange hr hh hl start stop filterFn
    exact hexec.eval
  obtain ⟨tr, hget⟩ := exec_get hr hh key
  obtain ⟨tr', hrange⟩ := exec_getRange hr hh hl (.included key) (.included key) fun _ => true
  refine ⟨_, _, hget.eval, hrange.eval, ?_⟩
  have hwanted : wanted (.included key) (.included key) (fun _ => true) = fun r => decide (r.key = key) := by
    funext r
    simp [wanted, Bound.contains_singleton]
  rw [hwanted]
  by_cases hk : ∃ r ∈ T.rows, r.key = key
  · obtain ⟨r, hrow, rfl⟩ := hk
    obtain ⟨a, b, hab⟩ := List.append_of_mem hrow
    rw [hab, List.map_append, List.map_cons] at hsorted
    obtain ⟨-, hb, ha⟩ := List.pairwise_append.mp hsorted
    have hna : ∀ x ∈ a, x.key ≠ r.key := fun x hx => (ha _ (List.mem_map_of_mem hx) _ (by simp)).ne
    have hnb : ∀ x ∈ b, x.key ≠ r.key := fun x hx => ((List.pairwise_cons.mp hb).1 _ (List.mem_map_of_mem hx)).ne'
    have hfind : T.rows.find? (fun x => decide (x.key = r.key)) = some r := by
      rw [hab, List.find?_append, List.find?_eq_none.mpr (by simpa using hna)]
      simp
    have hfilter : T.rows.filter (fun x => decide (x.key = r.key)) = [r] := by
      rw [hab, List.filter_append, List.filter_eq_nil_iff.mpr (by simpa using hna), List.filter_cons,
        List.filter_eq_nil_iff.mpr (by simpa using hnb)]
      simp
    rw [hfind, hfilter]
    refine ⟨fun x => ⟨fun hx => ?_, fun hx => ?_⟩, rfl⟩
    · cases hx
      exact ⟨hrow, rfl⟩
    · obtain ⟨hx, hxk⟩ := hx
      rw [hab] at hx
      rcases List.mem_append.mp hx with hx | hx
      · exact absurd hxk (hna x hx)
      · rcases List.mem_cons.mp hx with rfl | hx
        · rfl
        · exact absurd hxk (hnb x hx)
  · simp only [not_exists, not_and] at hk
    rw [List.find?_eq_none.mpr (by simpa using hk), List.filter_eq_nil_iff.mpr (by simpa using hk)]
    refine ⟨fun x => ⟨fun hx => (by cases hx), fun hx => absurd hx.2 (hk x hx.1)⟩, rfl⟩

/-- A row of the third of five leaves. -/
theorem getRange_and_get_wide : (get smallTable 5 (longKey 'c')).eval (.idle wideStore) =
    some (.ok (some (longRow 'c')), .idle wideStore) ∧
    (getRange smallTable 5 (.included (longKey 'c')) (.included (longKey 'c')) fun _ => true).eval (.idle wideStore) =
      some (.ok [longRow 'c'], .idle wideStore) := by
  obtain ⟨found, rows, hget, hrange, hfound, rfl⟩ := (getRange_and_get wideTable_wellFormed.sound.readable
    (show 1 < 5 by decide) (by decide)).2.2 (longKey 'c')
  have hrow : longRow 'c' ∈ wideTree.rows := by simp [wideTree, wideKids]
  obtain rfl := (hfound (longRow 'c')).mpr ⟨hrow, rfl⟩
  exact ⟨hget, hrange⟩

end

end BTree

end RustDb
