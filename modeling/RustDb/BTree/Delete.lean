/-
  RustDb.BTree.Delete — a whole `BTree::delete` on a well-formed table, under one thread.

  The descent ends at the leaf the key belongs to, with the pages above it latched up to the
  root or to a page that is safe (`exec_deleteDescend`); the row is taken out and the table
  rebalanced (`Reached.exec_leaf`).
  - `delete_wellFormed`: the answer, and the table left.
  - `delete_early_release`: the pages above a safe page may be let go.
-/

import RustDb.BTree.Rebalance
import RustDb.BTree.Get

namespace RustDb

open Lib.SearchTree Call

namespace BTree

/-! ## The descent -/

section
variable {t : Table} {σ σ' : Store} {H h : Nat} {count : UInt32} {free : List PageId} {key : Key}

/-- A subtree of a whole table that the key belongs to. -/
structure Reached (t : Table) (σ : Store) {H h : Nat} (c : PageCtx H h) (T : PageTree h) (key : Key) (count : UInt32)
    (free : List PageId) : Prop where
  table : WellFormed t σ (c.plug T) count free
  ctx : CtxOk σ True c T.rootId
  tree : RootOk σ True T
  key : Within (c.lo none) (c.hi none) key

theorem WellFormed.reached {T : PageTree H} (hw : WellFormed t σ T count free) (key : Key) :
    Reached t σ (.top : PageCtx H H) T key count free where
  table := hw
  ctx := trivial
  tree := rootOk_of_nonemptyBelow hw.sound.ok hw.rowsBelow
  key := within_none key

theorem Reached.down {c : PageCtx H (h + 1)} {id : PageId} {keys : List Key} {kids : List (PageTree h)} {p : Page}
    (hr : Reached t σ c (Tree.inner id keys kids) key count free) (hp : σ.page id = some p) :
    ∃ a b ca kid cb, ∃ aligned : ca.length = a.length, c.plug (Tree.inner id keys kids) =
    (Ctx.down c id a b ca cb aligned).plug kid ∧
      p.isInternal = true ∧ p.findChildIndex key = .ok (some (ca.length, kid.rootId)) ∧
      Reached t σ (.down c id a b ca cb aligned) kid key count free := by
  obtain ⟨⟨⟨lsn, hpage⟩, hvalid, hkeys⟩, hkids⟩ := rootOk_inner.mp hr.tree
  obtain rfl : p = _ := Option.some.inj (hp.symm.trans hpage)
  obtain ⟨hc, ho⟩ := (Ctx.ordered_plug c _).mp hr.table.sound.ordered
  obtain ⟨hs, -, hchain⟩ := Tree.ordered_inner.mp ho
  obtain ⟨a, b, rfl, ha, hb⟩ := route hs key
  obtain ⟨ca, kid, cb, rfl, hca, -⟩ := exists_hole (chain_length hchain)
  refine ⟨a, b, ca, kid, cb, hca, rfl, rfl, ?_, {
    table := hr.table
    ctx := ⟨⟨⟨lsn, ?_⟩, hvalid, hkeys⟩, fun x hx => hkids x (by simp [hx]), fun x hx => hkids x (by simp [hx]), hr.ctx⟩
    tree := (hkids kid (by simp)).rootOk
    key := within_of_route ha hb hr.key }⟩
  · rw [List.map_append, List.map_cons, hca]
    exact Page.findChildIndex_eq hs ha hb (by simpa using hca)
  · rw [hpage, List.map_append, List.map_cons]

theorem Reached.not_path {c : PageCtx H h} {T : PageTree h} (hr : Reached t σ c T key count free) : T.rootId ∉ c.path ∧
    c.path.Nodup := by
  have hnd := (Ctx.ids_plug c T).nodup_iff.mp (List.nodup_append.mp hr.table.owned.nodup).1
  obtain ⟨hc, -, hdis⟩ := List.nodup_append.mp hnd
  exact ⟨fun h => hdis _ ((Ctx.path_sublist c).subset h) _ (Tree.rootId_mem_ids T) rfl, hc.sublist (Ctx.path_sublist c)⟩

/-- The descent, were it to keep every latch. -/
def keepDescend (key : Key) : Nat → Page → List Ancestor → BT (Page × List Ancestor)
  | 0, _, _ => throw .outOfFuel
  | fuel + 1, currPage, ancestors => do
    if currPage.isInternal then
      match ← page .page (currPage.findChildIndex key) with
      | none => throw .panic
      | some (idx, childId) =>
        let child ← bpm (fetchWrite childId)
        keepDescend key fuel child ((currPage, idx) :: ancestors)
    else return (currPage, ancestors)

/-- The descent ends at the leaf, with the pages above it latched up to the root or to a page
    that is safe. -/
def EndsAt (σ : Store) (c : PageCtx H 0) (leaf : Page) (descent : BT (Page × List Ancestor)) (w : World) : Prop :=
  ∃ anc tr, Above σ c anc ∧ Exec descent w tr (.ok (leaf, anc)) (.writing σ (leaf.pageId :: anc.map fun q => q.1.pageId))

theorem EndsAt.bind {c : PageCtx H 0} {leaf : Page} {α : Type} {first : BT α} {rest : α → BT (Page × List Ancestor)}
    {w w' : World} {tr : List World} {x : α} (hfirst : Exec first w tr (.ok x) w') (hrest : EndsAt σ c leaf (rest x) w') :
    EndsAt σ c leaf (first >>= rest) w := by
  obtain ⟨anc, tr', ha, hexec⟩ := hrest
  exact ⟨anc, _, ha, hfirst.bind hexec⟩

/-- Both descents end at the same leaf. -/
theorem exec_deleteDescend : ∀ {h : Nat} {c : PageCtx H h} {T : PageTree h} {p : Page} {fuel : Nat}, h < fuel →
    Reached t σ c T key count free → σ.page T.rootId = some p →
    ∃ c' : PageCtx H 0, ∃ id rows leaf, c'.plug (Tree.leaf id rows) = c.plug T ∧
      Reached t σ c' (Tree.leaf id rows) key count free ∧ σ.page id = some leaf ∧
      ∀ anc, Above σ c anc →
        EndsAt σ c' leaf (deleteDescend key fuel p anc) (.writing σ (p.pageId :: anc.map fun q => q.1.pageId)) ∧
        EndsAt σ c' leaf (keepDescend key fuel p anc) (.writing σ (p.pageId :: anc.map fun q => q.1.pageId))
  | 0, c, T, p, fuel, hfuel => T.casesZero fun id rows hr hp => by
    obtain ⟨fuel, rfl⟩ : ∃ n, fuel = n + 1 := ⟨fuel - 1, by omega⟩
    obtain ⟨⟨lsn, nx, pv, hpage⟩, -⟩ := rootOk_leaf.mp hr.tree
    obtain rfl : p = _ := Option.some.inj (hp.symm.trans hpage)
    exact ⟨c, id, rows, _, rfl, hr, hp, fun anc hanc => ⟨⟨anc, [], hanc, exec_pure _ _⟩, anc, [], hanc, exec_pure _ _⟩⟩
  | h + 1, c, T, p, fuel, hfuel => T.casesSucc fun id keys kids hr hp => by
    obtain ⟨fuel, rfl⟩ : ∃ n, fuel = n + 1 := ⟨fuel - 1, by omega⟩
    obtain ⟨a, b, ca, kid, cb, aligned, hplug, hinternal, hfind, hkid⟩ := hr.down hp
    obtain ⟨q, hq⟩ := hkid.tree.ok.page
    obtain ⟨c', id', rows, leaf, hplug', hleaf, hlp, hrest⟩ := exec_deleteDescend (show h < fuel by omega) hkid hq
    refine ⟨c', id', rows, leaf, hplug'.trans hplug.symm, hleaf, hlp, fun anc hanc => ?_⟩
    obtain ⟨hnot, hnd⟩ := hkid.not_path
    obtain ⟨hidpath, hpathnd⟩ := List.nodup_cons.mp hnd
    have hpid : p.pageId = id := σ.named hp
    have hfetch : ∀ L, L ⊆ id :: c.path → Exec (bpm (fetchWrite kid.rootId)) (.writing σ L) [.writing σ (q.pageId :: L)]
        (.ok q) (.writing σ (q.pageId :: L)) := fun L hL => by
      rw [σ.named hq]
      exact exec_bpm (exec_fetchWrite hq fun h => hnot (hL h))
    obtain ⟨hdelete, hkeep⟩ := hrest ((p, ca.length) :: anc) ⟨p, anc, rfl, hp, Or.inl hanc⟩
    have hall := hfetch (p.pageId :: anc.map fun q => q.1.pageId) (by
      rw [hpid]
      exact List.cons_subset_cons id hanc.sublist.subset)
    constructor
    · rw [deleteDescend]
      simp only [hinternal, if_true, hfind, Call.page_ok, pure_bind]
      by_cases hsafe : p.isDeleteSafe = true
      · -- whatever happens below stops at this page: the pages above it are let go
        rw [if_pos hsafe]
        obtain ⟨trc, hclear⟩ := exec_clearPath (σ := σ) (hpathnd.sublist hanc.sublist) fun hmem =>
          hidpath (hanc.sublist.subset (hpid ▸ hmem))
        obtain ⟨hdelete, -⟩ := hrest [(p, ca.length)] ⟨p, [], rfl, hp, Or.inr ⟨hsafe, rfl⟩⟩
        exact .bind hclear (.bind (hfetch [p.pageId] (by simp [hpid])) hdelete)
      · rw [if_neg hsafe]
        exact .bind hall hdelete
    · rw [keepDescend]
      simp only [hinternal, if_true, hfind, Call.page_ok, pure_bind]
      exact .bind hall hkeep

/-! ## At the leaf -/

/-- What a delete comes to: the row found is gone from a whole table, and every page is in the
    tree or free as before; or a separator does not fit its page. -/
inductive Deleted (t : Table) (T₀ : PageTree H) (key : Key) (count : UInt32) (free₀ : List PageId) (σ' : Store) :
    Except (Fail BTreeError) (Option Row) → Prop
  | whole {h : Nat} {T : PageTree h} {free : List PageId} (table : WellFormed t σ' T count free)
    (rows : T.rows = T₀.rows.filter (·.key ≠ key)) (pages : (T.ids ++ free).Perm (T₀.ids ++ free₀)) :
    Deleted t T₀ key count free₀ σ' (.ok (T₀.rows.find? (·.key = key)))
  | full (found : ∃ r ∈ T₀.rows, r.key = key) (sizes : ∀ n, ¬ Keyed (fun k => Page.internalEntrySize k = n) T₀) :
    Deleted t T₀ key count free₀ σ' (.error (.err (.page .pageFull)))

variable (t) in
/-- The end of `delete`, at a leaf. -/
def deleteAtLeaf (key : Key) (leaf : Page) (ancestors : List Ancestor) : BT (Option Row) := do
  let (removed, leaf) ← change .page (leaf.leafRemove key)
  match removed with
  | none =>
    clear (ancestors.map Prod.fst)
    drop leaf.pageId
    return none
  | some row =>
    rebalance t ancestors leaf
    return some row

section
variable {c : PageCtx H 0} {id : PageId} {rows : List Row} {leaf : Page}

/-- The rows of the table around the leaf. -/
theorem Reached.rows_around (hr : Reached t σ c (Tree.leaf id rows) key count free) :
    ∃ A B, (∀ rows', (c.plug (Tree.leaf id rows')).rows = A ++ (rows' ++ B)) ∧ (∀ r ∈ A, r.key ≠ key) ∧ ∀ r ∈ B, r.key ≠
    key := by
  obtain ⟨hc, -⟩ := (Ctx.ordered_plug c _).mp hr.table.sound.ordered
  obtain ⟨hbefore, hafter⟩ := Ctx.Ordered.rows hc hr.key
  exact ⟨_, _, fun rows' => rows_plug c _, fun r h => (hbefore r h).ne, fun r h => (hafter r h).ne'⟩

/-- The leaf with fewer rows. -/
theorem Reached.mending (hr : Reached t σ c (Tree.leaf id rows) key count free) {rows' : List Row}
    (hsub : rows'.Sublist rows)
    {lsn : PageLsn} {nx pv : Option PageId} (hp : σ.page id = some ⟨id, lsn, .leaf rows nx pv⟩) :
    Mending t (σ.put ⟨id, lsn, .leaf rows' nx pv⟩) c (Tree.leaf id rows') count free := by
  obtain ⟨-, hvalid⟩ := rootOk_leaf.mp hr.tree
  obtain ⟨hc, ho⟩ := (Ctx.ordered_plug c _).mp hr.table.sound.ordered
  obtain ⟨hs, hw⟩ := Tree.ordered_leaf.mp ho
  have hids : ∀ rows', (c.plug (Tree.leaf id rows')).ids.Perm (c.ids ++ [id]) := fun rows' => Ctx.ids_plug c _
  have howned : t.Owned count ((c.ids ++ [id]) ++ free) := hr.table.owned.perm ((hids rows).symm.append_right free)
  have hframe : ∀ x, x ∉ [id] → (σ.put ⟨id, lsn, .leaf rows' nx pv⟩).page x = σ.page x := fun x hx =>
    Store.put_ne σ (p := ⟨id, lsn, .leaf rows' nx pv⟩) (by simpa using hx)
  have hself : (σ.put ⟨id, lsn, .leaf rows' nx pv⟩).page id = some ⟨id, lsn, .leaf rows' nx pv⟩ :=
    Store.put_self σ ⟨id, lsn, .leaf rows' nx pv⟩
  have hleaves : (c.plug (Tree.leaf id rows')).leaves = (c.plug (Tree.leaf id rows)).leaves := by
    rw [leaves_plug_leaf, leaves_plug_leaf]
  have hroot := hr.table.root
  rw [Ctx.rootId_plug] at hroot
  exact {
    ctx := hr.ctx.frame (Frame.of_eq hframe) fun x hx he => by
      rw [List.mem_singleton.mp he] at hx
      exact (List.nodup_append.mp (List.nodup_append.mp howned.nodup).1).2.2 id hx id (by simp) rfl
    loose := ⟨⟨lsn, nx, pv, hself⟩, hvalid.sublist hsub⟩
    ordered := (Ctx.ordered_plug c _).mpr
      ⟨hc, Tree.ordered_leaf.mpr ⟨hs.sublist (hsub.map _), fun r hr => hw r (hsub.subset hr)⟩⟩
    root := by
      rw [Ctx.rootId_plug]
      exact put_meta (p := ⟨id, lsn, .leaf rows' nx pv⟩) hroot howned (by simp)
    links := by
      rw [hleaves]
      refine hr.table.links.congr fun x hx lsn' rows₁ nx' pv' hx' => ?_
      by_cases hxid : x = id
      · subst hxid
        cases hp.symm.trans hx'
        exact ⟨_, _, hself⟩
      · exact ⟨lsn', rows₁, (hframe x (by simpa using hxid)).trans hx'⟩
    owned := howned.perm ((hids rows').append_right free) }

theorem Reached.exec_leaf (hr : Reached t σ c (Tree.leaf id rows) key count free) (hp : σ.page id = some leaf) :
    ∃ σ' res, Deleted t (c.plug (Tree.leaf id rows)) key count free σ' res ∧ ∀ anc, Above σ c anc →
      ∃ tr w', Exec (deleteAtLeaf t key leaf anc) (.writing σ (leaf.pageId :: anc.map fun q => q.1.pageId)) tr res w' ∧
        w'.store = σ' ∧ ∀ x, res = .ok x → w' = .idle σ' := by
  obtain ⟨⟨lsn, nx, pv, hpage⟩, hvalid⟩ := rootOk_leaf.mp hr.tree
  obtain rfl : leaf = _ := Option.some.inj (hp.symm.trans hpage)
  obtain ⟨A, B, hrows, hA, hB⟩ := hr.rows_around
  by_cases hfound : ∃ r ∈ rows, r.key = key
  · obtain ⟨r, hmem, rfl⟩ := hfound
    obtain ⟨a, b, rfl⟩ := List.append_of_mem hmem
    have hall : (c.plug (Tree.leaf id (a ++ r :: b))).rows = (A ++ a) ++ r :: (b ++ B) := by
      rw [hrows]
      simp
    have hothers := absent_of_inserted hr.table.bounds hall
    let leaf' : Page := ⟨id, lsn, .leaf (a ++ b) nx pv⟩
    have hm := hr.mending (List.Sublist.append_left (List.sublist_cons_self r b) a) hp
    obtain ⟨σ', res, hmended, hloop⟩ := exec_rebalance hm (Store.put_self σ leaf')
    -- the latched pages above the leaf are as they were
    have habove : ∀ anc, Above σ c anc → Above (σ.put leaf') c anc := fun anc hanc =>
      hanc.congr fun x hx => Store.put_ne σ (p := leaf') fun (he : x = id) => hr.not_path.1 (show id ∈ c.path from he ▸ hx)
    have hremove : Page.leafRemove ⟨id, lsn, .leaf (a ++ r :: b) nx pv⟩ r.key = (.ok (some r), leaf') :=
      Page.leafRemove_found hvalid
    have hstart : ∀ L, id ∈ L → Exec (change BTreeError.page (Page.leafRemove ⟨id, lsn, .leaf (a ++ r :: b) nx pv⟩ r.key))
        (.writing σ L) [.writing (σ.put leaf') L] (.ok (some r, leaf')) (.writing (σ.put leaf') L) := fun L hL => by
      rw [hremove]
      exact exec_change BTreeError.page hL
    cases hmended with
    | whole table hrows' hpages =>
      have hfind : (c.plug (Tree.leaf id (a ++ r :: b))).rows.find? (·.key = r.key) = some r := by
        rw [hall, List.find?_eq_some_iff_append]
        exact ⟨by simp, A ++ a, b ++ B, rfl, fun x hx => by simpa using hothers x (List.mem_append_left _ hx)⟩
      have hfilter : (c.plug (Tree.leaf id (a ++ r :: b))).rows.filter (·.key ≠ r.key) = A ++ (a ++ b ++ B) := by
        rw [hall, List.filter_append, List.filter_cons_of_neg (by simp), ← List.filter_append,
          List.filter_eq_self.mpr fun x hx => by simpa using hothers x hx]
        simp
      have hids : (c.plug (Tree.leaf id (a ++ b))).ids.Perm (c.plug (Tree.leaf id (a ++ r :: b))).ids :=
        (Ctx.ids_plug c _).trans (Ctx.ids_plug c (Tree.leaf id (a ++ r :: b) : PageTree 0)).symm
      have hdone : Deleted t (c.plug (Tree.leaf id (a ++ r :: b))) r.key count free σ' (.ok (some r)) := by
        rw [← hfind]
        exact .whole table (by rw [hrows', hrows, hfilter]) (hpages.trans (hids.append_right free))
      refine ⟨σ', _, hdone, fun anc hanc => ?_⟩
      obtain ⟨tr, w', hexec, hstore, hidle⟩ := hloop anc (Or.inl (habove anc hanc))
      exact ⟨_, w', (hstart _ (by simp)).bind (hexec.bind (exec_pure (some r) w')), hstore, fun _ _ => hidle rfl⟩
    | full sizes =>
      refine ⟨σ', _, .full ⟨r, by rw [hall]; simp, rfl⟩ fun n hk => sizes n ?_, fun anc hanc => ?_⟩
      · obtain ⟨hup, hleaf⟩ := (Ctx.all_plug c _).mp hk
        refine (Ctx.all_plug c _).mpr ⟨hup, Tree.all_leaf.mpr fun x hx => Tree.all_leaf.mp hleaf x ?_⟩
        exact (List.Sublist.append_left (List.sublist_cons_self r b) a).subset hx
      · obtain ⟨tr, w', hexec, hstore, -⟩ := hloop anc (Or.inl (habove anc hanc))
        exact ⟨_, w', (hstart _ (by simp)).bind hexec.bind_error, hstore, by rintro _ ⟨⟩⟩
  · -- nothing to remove
    have habsent : ∀ r ∈ rows, r.key ≠ key := fun r hr hk => hfound ⟨r, hr, hk⟩
    have hothers : ∀ x ∈ (c.plug (Tree.leaf id rows)).rows, x.key ≠ key := by
      rw [hrows]
      intro x hx
      rcases List.mem_append.mp hx with hx | hx
      · exact hA x hx
      · exact (List.mem_append.mp hx).elim (habsent x) (hB x)
    have hfind : (c.plug (Tree.leaf id rows)).rows.find? (·.key = key) = none := by
      rw [List.find?_eq_none]
      exact fun x hx => by simpa using hothers x hx
    have hdone : Deleted t (c.plug (Tree.leaf id rows)) key count free σ (.ok none) := by
      rw [← hfind]
      exact .whole hr.table (List.filter_eq_self.mpr fun x hx => by simpa using hothers x hx).symm (List.Perm.refl _)
    refine ⟨σ, _, hdone, fun anc hanc => ?_⟩
    have hchange := exec_change (σ := σ) (L := id :: anc.map fun q => q.1.pageId) (q := ⟨id, lsn, .leaf rows nx pv⟩)
      (a := (none : Option Row)) BTreeError.page (by simp)
    rw [← Page.leafRemove_absent hvalid habsent, σ.put_stored hp] at hchange
    obtain ⟨hidpath, hnd⟩ := hr.not_path
    obtain ⟨trc, hclear⟩ := exec_clearPath (σ := σ) (hnd.sublist hanc.sublist) fun hmem => hidpath (hanc.sublist.subset hmem)
    exact ⟨_, _, hchange.bind (hclear.bind ((exec_dropLast id).bind (exec_pure none _))), rfl, fun _ _ => rfl⟩

end

/-! ## Deleting from a table -/

variable (t) in
/-- `delete`, were it to keep every latch. -/
def deleteKeep (fuel : Nat) (key : Key) : BT (Option Row) := unwinding do
  let root ← getRootWrite t fuel
  let (leaf, ancestors) ← keepDescend key fuel root []
  deleteAtLeaf t key leaf ancestors

/-- Both ways to delete end the same. -/
theorem exec_delete {T : PageTree h} {fuel : Nat} (hw : WellFormed t σ T count free) (hfuel : h < fuel) (key : Key) :
    ∃ σ' res, Deleted t T key count free σ' res ∧ (delete t fuel key).eval (.idle σ) = some (res, .idle σ') ∧
      (deleteKeep t fuel key).eval (.idle σ) = some (res, .idle σ') := by
  obtain ⟨p, hp, -⟩ := rootPage hw.pages
  obtain ⟨pre, hroot, -⟩ := (@exec_getRootWrite _ _ _ _ fuel) hw.root.namedRoot hp hw.sound.readable.root_ne_meta (by omega)
  obtain ⟨c, id, rows, leaf, hplug, hr, hleaf, hends⟩ := exec_deleteDescend hfuel (hw.reached key) hp
  obtain ⟨σ', res, hdeleted, hexec⟩ := hr.exec_leaf hleaf
  change c.plug (Tree.leaf id rows) = T at hplug
  rw [hplug] at hdeleted
  obtain ⟨hdelete, hkeep⟩ := hends [] rfl
  have hfinish : ∀ descent : Page → BT (Page × List Ancestor), EndsAt σ c leaf (descent p) (.writing σ [p.pageId]) →
      (unwinding (getRootWrite t fuel >>= fun root => descent root >>= fun x => deleteAtLeaf t key x.1 x.2)).eval (.idle σ) =
        some (res, .idle σ') := by
    rintro descent ⟨anc, tr, hanc, hdescend⟩
    obtain ⟨tr', w', hend, rfl, hidle⟩ := hexec anc hanc
    have hpid := σ.named hp
    rw [hpid] at hdescend
    have hwhole : Exec (getRootWrite t fuel >>= fun root => descent root >>= fun x => deleteAtLeaf t key x.1 x.2) (.idle σ)
        (pre ++ (tr ++ tr')) res w' := hroot.bind (hdescend.bind hend)
    cases res with
    | ok x =>
      rw [hidle x rfl] at hwhole ⊢
      exact hwhole.unwinding_ok.eval
    | error e => exact hwhole.unwinding_error.eval
  exact ⟨σ', res, hdeleted, hfinish (fun root => deleteDescend key fuel root []) hdelete,
    hfinish (fun root => keepDescend key fuel root []) hkeep⟩

/-- On a well-formed table a delete answers the row stored under the key, and leaves a
    well-formed table with the other rows; or it fails with `PageFull`, which takes two keys of
    different sizes in the tree. -/
theorem delete_wellFormed {T : PageTree h} {fuel : Nat} (hw : WellFormed t σ T count free) (hfuel : h < fuel) (key : Key) :
    (∃ σ' h', ∃ T' : PageTree h', ∃ free',
      (delete t fuel key).eval (.idle σ) = some (.ok (T.rows.find? (·.key = key)), .idle σ') ∧
      WellFormed t σ' T' count free' ∧ T'.rows = T.rows.filter (·.key ≠ key)) ∨
    ∃ σ', (delete t fuel key).eval (.idle σ) = some (.error (.err (.page .pageFull)), .idle σ') ∧
      (∃ r ∈ T.rows, r.key = key) ∧ ∀ n, ¬ Keyed (fun k => Page.internalEntrySize k = n) T := by
  obtain ⟨σ', res, hdeleted, heval, -⟩ := exec_delete hw hfuel key
  cases hdeleted with
  | whole table rows _ => exact Or.inl ⟨σ', _, _, _, heval, table, rows⟩
  | full found sizes => exact Or.inr ⟨σ', heval, found, sizes⟩

theorem pairTree_keyed : Keyed (fun k => Page.internalEntrySize k = 21) pairTree := by
  refine Tree.all_inner.mpr ⟨by simp; rfl, fun kid hkid => ?_⟩
  simp only [List.mem_cons, List.not_mem_nil, or_false] at hkid
  rcases hkid with rfl | rfl <;> exact Tree.all_leaf.mpr (List.forall_mem_singleton.mpr rfl)

/-- The leaf is emptied, its sibling merged into it and the root collapsed. -/
theorem delete_wellFormed_pair : ∃ σ' h', ∃ T' : PageTree h', ∃ free',
    (delete smallTable 2 (.integer 3)).eval (.idle pairStore) = some (.ok (some (smallRow 3)), .idle σ') ∧
    WellFormed smallTable σ' T' 5 free' ∧ T'.rows = [smallRow 1] := by
  rcases delete_wellFormed pairTable_wellFormed (show 1 < 2 by decide) (.integer 3) with hdone | ⟨-, -, -, hsizes⟩
  · exact hdone
  · exact absurd pairTree_keyed (hsizes 21)

/-- Letting go of the pages above a safe page early changes nothing. -/
theorem delete_early_release {T : PageTree h} {fuel : Nat} (hw : WellFormed t σ T count free) (hfuel : h < fuel)
    (key : Key) :
    (delete t fuel key).eval (.idle σ) = (deleteKeep t fuel key).eval (.idle σ) := by
  obtain ⟨σ', res, -, heval, heval'⟩ := exec_delete hw hfuel key
  rw [heval, heval']

theorem delete_early_release_wide : (delete smallTable 2 (longKey 'c')).eval (.idle wideStore) =
    (deleteKeep smallTable 2 (longKey 'c')).eval (.idle wideStore) :=
  delete_early_release wideTable_wellFormed (by decide) (longKey 'c')

end

end BTree

end RustDb
