/-
  RustDb.BTree.Insert — `BTree::insert` on a whole table, under one thread.

  The descent keeps the pages that the row may still change: it lets the ones above a page
  go when that page has room for any separator (`pushedUp_safe`), and what happens below
  such a page is what happens to the whole tree (`Outcome.lift`).
  - `insert_wellFormed`: on a well-formed table, either the key is stored and no page
    changes, or the table holds the row as well and is well-formed.
  - `insert_routes_iff`: from every world of the run in which the root named is free, other
    threads find every row stored before, exactly when no internal root is cut into two
    halves of which the right one takes a row stored before.
-/

import RustDb.BTree.InsertLeaf

namespace RustDb

open Lib.SearchTree Call

namespace BTree

section
variable {t : Table} {σ : Store} {ne : Prop} {row : ValidatedRow} {root : PageId} {count : UInt32} {free : List PageId}

/-! ## Pages above which nothing changes -/

theorem pushedUp_fits : ∀ {h : Nat} {T : PageTree h} {lo hi : Option Key} {sep : Key}, Ok σ False T →
    T.Ordered Row.key lo hi → pushedUp σ row h T.rootId = some sep → Page.KeyFits sep
  | 0, T, _, _, sep => T.casesZero fun id rows hT _ hpush => by
    obtain ⟨⟨lsn, nx, pv, hp⟩, hvalid, -⟩ := Tree.all_leaf.mp hT
    rw [Tree.rootId_leaf, pushedUp, hp, Option.bind_some] at hpush
    split at hpush
    · cases hpush
    · split at hpush
      · exact Page.promoted_fits (p := ⟨id, lsn, .leaf rows nx pv⟩) hvalid hpush
      · cases hpush
  | h + 1, T, _, _, sep => T.casesSucc fun id keys kids hT ho hpush => by
    obtain ⟨⟨⟨lsn, hp⟩, hvalid, -⟩, -⟩ := Tree.all_inner.mp hT
    rw [Tree.rootId_inner, pushedUp, hp, Option.bind_some] at hpush
    split at hpush
    · obtain ⟨sep', -, hpush⟩ := Option.bind_eq_some_iff.mp hpush
      split at hpush
      · cases hpush
      · refine Page.promoted_fits (p := ⟨id, lsn, .internal keys (kids.map Tree.rootId)⟩) ⟨?_, hvalid⟩ hpush
        rw [List.length_map]
        exact chain_length (Tree.ordered_inner.mp ho).2.2
    · cases hpush

/-- Nothing goes on from a page with room for any row or separator. -/
theorem pushedUp_safe : ∀ {h : Nat} {T : PageTree h} {lo hi : Option Key} {p : Page}, Ok σ False T →
    T.Ordered Row.key lo hi → σ.page T.rootId = some p → (p.isSplitSafe || p.canInsert row.row) = true →
    pushedUp σ row h T.rootId = none
  | 0, T, _, _, p => T.casesZero fun id rows hT _ hp hsafe => by
    obtain ⟨⟨lsn, nx, pv, hp'⟩, -⟩ := Tree.all_leaf.mp hT
    obtain rfl : p = _ := Option.some.inj (hp.symm.trans hp')
    have hcan : Page.canInsert ⟨id, lsn, .leaf rows nx pv⟩ row.row = true := hsafe
    rw [Tree.rootId_leaf, pushedUp, hp', Option.bind_some, if_pos hcan]
  | h + 1, T, _, _, p => T.casesSucc fun id keys kids hT ho hp hsafe => by
    obtain ⟨⟨⟨lsn, hp'⟩, hvalid, -⟩, hkids⟩ := Tree.all_inner.mp hT
    obtain rfl : p = _ := Option.some.inj (hp.symm.trans hp')
    have hroom : Page.keysSize keys + maxInternalEntrySize ≤ internalUsable := by
      have hcan : Page.canInsert ⟨id, lsn, .internal keys (kids.map Tree.rootId)⟩ row.row = false := rfl
      rw [hcan, Bool.or_false, Page.isSplitSafe_internal hvalid.size, decide_eq_true_iff] at hsafe
      exact hsafe
    obtain ⟨lsn', ca, kid, cb, rfl, hp'', hfind, -⟩ := route_step
      (hT.imp (fun _ _ _ hl => hl.1) fun _ _ _ _ hn => hn.1) ho.rowBounds
    obtain rfl : lsn = lsn' := by
      rw [hp', Option.some.injEq, Page.mk.injEq] at hp''
      exact hp''.2.1
    rw [Tree.rootId_inner, pushedUp, hp', Option.bind_some, row.primaryKey_eq, hfind]
    rcases hpush : pushedUp σ row h kid.rootId with _ | sep
    · simp [hpush]
    · have hkid : kid ∈ ca ++ kid :: cb := by simp
      obtain ⟨_, _, _, _, hkid'⟩ := chain_mem (Tree.ordered_inner.mp ho).2.2 hkid
      have hfits : Page.internalEntrySize sep ≤ maxInternalEntrySize := pushedUp_fits (hkids kid hkid) hkid' hpush
      have hcan := (@Page.canInsertSeparator_internal id lsn _ ((ca ++ kid :: cb).map Tree.rootId)) sep hvalid.size
      rw [decide_eq_true (by omega)] at hcan
      simp only [hpush, Option.bind_some, hcan, if_true]

/-! ## Outcomes in context -/

section
variable {lo hi : Option Key} {out A B : List PageId} {H h : Nat} {tr : List World} {w' : World}
  {r : Except (Fail BTreeError) Unit}

/-- Steps before that write nothing, under the latch on the subtree's root. -/
theorem Outcome.prepend {T : PageTree H} {pre : List World} (ho : Outcome t σ ne lo hi root out A B row T tr w' r)
    (hm : t.MetaRep σ root count free) (hpre : ∀ w ∈ pre, w.store = σ ∧ w.latch T.rootId = .write) :
    Outcome t σ ne lo hi root out A B row T (pre ++ tr) w' r := by
  have hnamed : ∀ w ∈ pre, t.namedRoot w = some root := fun w hw => by
    rw [(@namedRoot_store _ _ (.idle σ)) (hpre w hw).1]
    exact hm.namedRoot
  cases ho with
  | took _ h =>
    exact .took _ { h with
      frame := fun w hw => by
        rcases List.mem_append.mp hw with hw | hw
        · rw [(hpre w hw).1]
          exact ⟨Frame.refl _ _, hnamed w hw⟩
        · exact h.frame w hw
      served := h.served.latched h.nonempty fun w hw => (hpre w hw).2
      nonempty := by simp [h.nonempty] }
  | grew _ h =>
    have hheld : root = T.rootId → ∀ w ∈ pre, ∃ root, t.namedRoot w = some root ∧ w.latch root = .write :=
      fun he w hw => ⟨root, hnamed w hw, he ▸ (hpre w hw).2⟩
    exact .grew _ { h with
      leafRoot := fun hH he => (h.leafRoot hH he).latched (hheld he)
      innerRoot := fun hH he => by
        obtain ⟨sep, P, w, Q, R, l, r, hpush, rfl, hhalf⟩ := h.innerRoot hH he
        exact ⟨sep, pre ++ P, w, Q, R, l, r, hpush, by simp, { hhalf with
          before := fun x hx => (List.mem_append.mp hx).elim (hheld he x) (hhalf.before x) }⟩ }
  | duplicate hrow hstore htr hpush =>
    exact .duplicate hrow hstore (fun w hw => (List.mem_append.mp hw).elim (fun hw => (hpre w hw).1) (htr w)) hpush

theorem rows_plug (c : PageCtx H h) (T : PageTree h) :
    (c.plug T).rows = c.cellsBefore.flatMap Prod.snd ++ (T.rows ++ c.cellsAfter.flatMap Prod.snd) := by
  rw [← Tree.flatMap_cells, Ctx.cells_plug, List.flatMap_append, List.flatMap_append, Tree.flatMap_cells]

theorem leaves_plug (c : PageCtx H h) (T : PageTree h) :
    (c.plug T).leaves = c.cellsBefore.map Prod.fst ++ (T.leaves ++ c.cellsAfter.map Prod.fst) := by
  rw [← Tree.map_cells, Ctx.cells_plug, List.map_append, List.map_append, Tree.map_cells]

/-- The subtree at a hole, and the tree around it beside. -/
theorem Beside.hole {c : PageCtx H h} {T : PageTree h} (hb : Beside t σ root out A B (c.plug T) count free) :
    Beside t σ root (c.ids ++ out) (A ++ c.cellsBefore.map Prod.fst) (c.cellsAfter.map Prod.fst ++ B) T count free := by
  have hids := Ctx.ids_plug c T
  have hlinks : A ++ ((c.plug T).leaves ++ B) =
      A ++ c.cellsBefore.map Prod.fst ++ (T.leaves ++ (c.cellsAfter.map Prod.fst ++ B)) := by
    rw [leaves_plug]
    simp
  have hnd := (List.nodup_append.mp (List.nodup_append.mp hb.owned.nodup).1).1
  exact {
    metaRep := hb.metaRep
    rootTable := hb.rootTable
    owned := hb.owned.perm (by
      refine List.Perm.append_right free ?_
      rw [← List.append_assoc]
      exact (List.perm_append_comm.trans hids.symm).append_right out)
    links := by rw [← hlinks]; exact hb.links
    nodup := by rw [← hlinks]; exact hb.nodup
    known := fun x hx => by
      -- a leaf beside the hole is a page of the context
      have hleaf : ∀ y, y ∈ c.cellsBefore.map Prod.fst ++ c.cellsAfter.map Prod.fst → y ∈ c.ids :=
        fun y hy => Ctx.leaves_subset c hy
      simp only [List.mem_append] at hx ⊢
      rcases hx with (hx | hx) | hx | hx
      · exact Or.inr (hb.known (List.mem_append_left _ hx))
      · exact Or.inl (hleaf x (List.mem_append_left _ hx))
      · exact Or.inl (hleaf x (List.mem_append_right _ hx))
      · exact Or.inr (hb.known (List.mem_append_right _ hx))
    room := by
      have := hb.room
      have := Ctx.height_le c
      omega }

/-- What happens below a page that lets nothing through is what happens to the tree. -/
theorem Outcome.lift {c : PageCtx H h} {T : PageTree h} {w : World} (hc : CtxOk σ ne c T.rootId)
    (hco : c.Ordered Row.key lo hi) (hT : T.Ordered Row.key (c.lo lo) (c.hi hi))
    (hk : Within (c.lo lo) (c.hi hi) row.row.key)
    (hb : Beside t σ root out A B (c.plug T) count free) (hpush : pushedUp σ row h T.rootId = none)
    (hlast : (w :: tr).getLast? = some w')
    (ho : Outcome t σ ne (c.lo lo) (c.hi hi) root (c.ids ++ out) (A ++ c.cellsBefore.map Prod.fst)
      (c.cellsAfter.map Prod.fst ++ B) row T tr w' r) :
    Outcome t σ ne lo hi root out A B row (c.plug T) tr w' r := by
  have hpushed : pushedUp σ row H (c.plug T).rootId = none := by
    rw [Ctx.rootId_plug]
    exact pushedUp_none hc (fun _ _ => rfl) hco hk hpush
  cases ho with
  | @took new σ' T' count' free' h =>
    have hids := (Ctx.ids_plug c T')
    have hids₀ := (Ctx.ids_plug c T)
    have hnd := (List.nodup_append.mp h.stored.rebuilt.owned.nodup).1
    have hdis : ∀ x ∈ c.ids, x ∉ t.metaId :: (new ++ T.ids) := by
      intro x hx hmem
      rcases List.mem_cons.mp hmem with rfl | hmem
      · refine hb.owned.ne_meta (List.mem_append_left _ (List.mem_append_left _ ?_)) rfl
        exact hids₀.symm.subset (List.mem_append_left _ hx)
      · have hx' := h.stored.rebuilt.perm.symm.subset hmem
        exact (List.nodup_append.mp hnd).2.2 x hx' x (List.mem_append_left _ hx) rfl
    have hlast' : tr.getLast? = some (.idle σ') := by
      obtain ⟨pre, x, rfl⟩ := List.eq_nil_or_concat' tr |>.resolve_left h.nonempty
      rw [h.final] at hlast
      simpa [List.getLast?_cons, List.getLast?_append] using hlast
    have hfinal := (h.frame _ (List.mem_of_getLast? hlast')).1
    obtain ⟨a, b, hrows, hrows'⟩ := h.stored.rows
    have hctx : CtxOk σ' ne c T'.rootId := by
      rw [h.rootId]
      exact hc.frame hfinal hdis
    refine .took _ {
      final := h.final
      stored := {
        rebuilt := {
          ok := (Ctx.all_plug c T').mpr ⟨hctx, h.stored.rebuilt.ok⟩
          ordered := (Ctx.ordered_plug c T').mpr ⟨hco, h.stored.rebuilt.ordered⟩
          perm := by
            refine hids.trans ((h.stored.rebuilt.perm.append_left c.ids).trans ?_)
            refine List.Perm.trans ?_ (hids₀.symm.append_left new)
            rw [← List.append_assoc, ← List.append_assoc]
            exact List.perm_append_comm.append_right T.ids
          owned := h.stored.rebuilt.owned.perm (by
            refine List.Perm.append_right free' ?_
            rw [← List.append_assoc]
            exact (hids.trans List.perm_append_comm).append_right out) }
        rows := ⟨c.cellsBefore.flatMap Prod.snd ++ a, b ++ c.cellsAfter.flatMap Prod.snd, by
          rw [rows_plug, hrows]
          simp, by
          rw [rows_plug, hrows']
          simp⟩
        links := by
          rw [leaves_plug]
          simpa using h.stored.links }
      rootId := by rw [Ctx.rootId_plug, Ctx.rootId_plug, h.rootId]
      metaRep := h.metaRep
      frame := fun x hx => ⟨(h.frame x hx).1.mono fun y hy => by
        rcases List.mem_cons.mp hy with rfl | hy
        · exact List.mem_cons_self
        · refine List.mem_cons_of_mem _ ?_
          rcases List.mem_append.mp hy with hy | hy
          · exact List.mem_append_left _ hy
          · exact List.mem_append_right _ (hids₀.symm.subset (List.mem_append_right _ hy)), (h.frame x hx).2⟩
      served := by
        refine Served.plug ((Ctx.ordered_plug c T).mpr ⟨hco, hT⟩) ⟨fun x hx => ?_, fun x hx y _ => ?_⟩ h.served
        · exact (hc.frame (h.frame x hx).1 hdis).imp (fun _ _ _ hl => hl.1) fun _ _ _ _ hn => hn.1
        · rw [hlast'] at hx
          cases hx
          simp [World.writing_latch]
      pushed := hpushed
      nonempty := h.nonempty }
  | grew _ h =>
    have hgrew := h.pushed
    rw [hpush] at hgrew
    cases hgrew
  | duplicate hrow hstore htr _ =>
    obtain ⟨x, hx, hxk⟩ := hrow
    exact .duplicate ⟨x, by rw [rows_plug]; simp [hx], hxk⟩ hstore htr hpushed

end

/-! ## The descent -/

theorem Here.down {lo hi : Option Key} {H h : Nat} {c : PageCtx H (h + 1)} {id : PageId} {keys : List Key}
    {kids : List (PageTree h)} {ancestors : List Page} {p : Page}
    (hh : Here σ ne lo hi row c (Tree.inner id keys kids) ancestors) (hp : σ.page id = some p) :
    ∃ a b ca kid cb, ∃ aligned : ca.length = a.length, keys = a ++ b ∧ kids = ca ++ kid :: cb ∧ p.isInternal = true ∧
      p.findChild row.primaryKey = .ok (some kid.rootId) ∧
      Here σ ne lo hi row (.down c id a b ca cb aligned) kid (p :: ancestors) ∧ Ok σ ne kid := by
  obtain ⟨⟨⟨lsn, hp'⟩, hvalid, hkeys⟩, hkids⟩ := rootOk_inner.mp hh.tree
  obtain rfl : p = _ := Option.some.inj (hp.symm.trans hp')
  obtain ⟨hs, -, hc⟩ := Tree.ordered_inner.mp hh.ordered
  obtain ⟨a, b, rfl, ha, hb⟩ := route hs row.row.key
  obtain ⟨ca, kid, cb, rfl, hca, -⟩ := exists_hole (chain_length hc)
  have hkid : kid ∈ ca ++ kid :: cb := by simp
  have hord := (Ctx.ordered_plug c _).mpr ⟨hh.ctxOrdered, hh.ordered⟩
  obtain ⟨hco, hko⟩ := (Ctx.ordered_plug (.down c id a b ca cb hca) kid).mp hord
  refine ⟨a, b, ca, kid, cb, hca, rfl, rfl, rfl, ?_, ?_, hkids kid hkid⟩
  · rw [row.primaryKey_eq, List.map_append, List.map_cons]
    exact Page.findChild_eq hs ha hb (by simpa using hca)
  · refine ⟨⟨?_, fun x hx => hkids x (by simp [hx]), fun x hx => hkids x (by simp [hx]), hh.ctx⟩, (hkids kid hkid).rootOk,
      hco, hko, within_of_route ha hb hh.key, ?_⟩
    · have hnode : nodeOk σ id (a ++ b) ((ca ++ kid :: cb).map Tree.rootId) := ⟨⟨lsn, hp'⟩, hvalid, hkeys⟩
      simpa using hnode
    · rw [List.map_cons, hh.held, Ctx.path, List.map_cons, hp]

/-- The descent and what follows at the leaf, from a page with everything above it held. -/
theorem exec_insertDescend : ∀ {h H : Nat} {lo hi : Option Key} {out A B : List PageId} {c : PageCtx H h} {T : PageTree h}
    {ancestors : List Page} {p : Page} {fuel : Nat}, h < fuel → Here σ ne lo hi row c T ancestors →
    Beside t σ root out A B (c.plug T) count free → σ.page T.rootId = some p →
    ∃ tr r w', Exec (insertDescend row fuel p ancestors >>= fun x => insertAtLeaf t row x.1 x.2)
        (.writing σ (T.rootId :: c.path)) tr r w' ∧
      Outcome t σ ne lo hi root out A B row (c.plug T) tr w' r
  | 0, H, lo, hi, out, A, B, c, T, ancestors, p, fuel, hfuel => T.casesZero fun id rows hh hb hp => by
    obtain ⟨fuel, rfl⟩ : ∃ n, fuel = n + 1 := ⟨fuel - 1, by omega⟩
    obtain ⟨⟨lsn, nx, pv, hp'⟩, -⟩ := rootOk_leaf.mp hh.tree
    obtain ⟨tr, r, w', hexec, ho⟩ := exec_insertAtLeaf hh hb hp
    obtain rfl : p = _ := Option.some.inj (hp.symm.trans hp')
    exact ⟨tr, r, w', (exec_pure _ _).bind hexec, ho⟩
  | h + 1, H, lo, hi, out, A, B, c, T, ancestors, p, fuel, hfuel => T.casesSucc fun id keys kids hh hb hp => by
    obtain ⟨fuel, rfl⟩ : ∃ n, fuel = n + 1 := ⟨fuel - 1, by omega⟩
    obtain ⟨a, b, ca, kid, cb, aligned, rfl, rfl, hinternal, hfind, hhk, hkid⟩ := hh.down hp
    let c' : PageCtx H h := .down c id a b ca cb aligned
    have hbk : Beside t σ root out A B (c'.plug kid) count free := hb
    obtain ⟨pk, hpk, -⟩ := rootPage (hkid.imp (fun _ _ _ hl => hl.1) fun _ _ _ _ hn => hn.1)
    -- the child is latched below the pages held
    have hnd : (c'.ids ++ kid.ids).Nodup :=
      (Ctx.ids_plug c' kid).nodup_iff.mp (List.nodup_append.mp (List.nodup_append.mp hbk.owned.nodup).1).1
    have hroot : kid.rootId ∉ c'.path := fun h =>
      (List.nodup_append.mp hnd).2.2 _ ((Ctx.path_sublist c').subset h) _ (Tree.rootId_mem_ids kid) rfl
    have hfetch := exec_bpm (exec_fetchWrite (L := c'.path) hpk hroot)
    have hstart : ∀ tr r w', Exec ((if (pk.isSplitSafe || pk.canInsert row.row) = true then
          do clear (p :: ancestors); insertDescend row fuel pk []
        else insertDescend row fuel pk (p :: ancestors)) >>= fun x => insertAtLeaf t row x.1 x.2)
          (.writing σ (kid.rootId :: c'.path)) tr r w' →
        Exec (insertDescend row (fuel + 1) p ancestors >>= fun x => insertAtLeaf t row x.1 x.2)
          (.writing σ (id :: c.path)) ([.writing σ (kid.rootId :: c'.path)] ++ tr) r w' := by
      intro tr r w' hk
      rw [insertDescend]
      simp only [hinternal, if_true, hfind, Call.page_ok, pure_bind, bind_assoc]
      exact hfetch.bind hk
    by_cases hsafe : (pk.isSplitSafe || pk.canInsert row.row) = true
    · -- it has room for whatever comes: the pages above are let go
      have hclear := (@exec_clear σ [kid.rootId])
        (by rw [held_ids hhk.held]; exact (List.nodup_append.mp hnd).1.sublist (Ctx.path_sublist c'))
        (by rw [held_ids hhk.held]; simpa using hroot)
      rw [held_ids hhk.held, World.writing_congr fun x => List.perm_append_comm.mem_iff] at hclear
      obtain ⟨trc, hclear, htrc⟩ := hclear
      have hhole : Here σ ne (c'.lo lo) (c'.hi hi) row .top kid [] :=
        ⟨trivial, hkid.rootOk, trivial, hhk.ordered, hhk.key, rfl⟩
      obtain ⟨tr, r, w', hexec, ho⟩ := exec_insertDescend (c := .top) (T := kid) (show h < fuel by omega) hhole hbk.hole hpk
      have hexec' := hstart _ _ _ (by
        rw [if_pos hsafe, bind_assoc]
        exact hclear.bind hexec)
      have hpre : ∀ w ∈ [World.writing σ (kid.rootId :: c'.path)] ++ trc, w.store = σ ∧ w.latch kid.rootId = .write := by
        intro w hw
        rcases List.mem_append.mp hw with hw | hw
        · rw [List.mem_singleton.mp hw]
          exact ⟨rfl, World.latch_of_mem (by simp)⟩
        · exact ⟨(htrc w hw).1, (htrc w hw).2 _ (by simp)⟩
      have hpush := pushedUp_safe (hkid.weaken False.elim) hhk.ordered hpk hsafe
      rw [← List.append_assoc] at hexec'
      exact ⟨_, r, w', hexec', Outcome.lift (c := c') hhk.ctx hhk.ctxOrdered hhk.ordered hhk.key hbk hpush hexec'.getLast
        (ho.prepend hb.metaRep hpre)⟩
    · obtain ⟨tr, r, w', hexec, ho⟩ := exec_insertDescend (show h < fuel by omega) hhk hbk hpk
      refine ⟨_, r, w', hstart _ _ _ (by rwa [if_neg hsafe]), ho.prepend hb.metaRep fun w hw => ?_⟩
      rw [List.mem_singleton.mp hw]
      refine ⟨rfl, World.latch_of_mem (List.mem_cons_of_mem _ ?_)⟩
      rw [Ctx.rootId_plug]
      exact Ctx.rootOr_mem_path (c := c') (List.cons_ne_nil _ _)

/-! ## The root -/

theorem exec_getRootWrite {p : Page} {id : PageId} {fuel : Nat} (hroot : t.namedRoot (.idle σ) = some id)
    (hp : σ.page id = some p) (hne : id ≠ t.metaId) (hfuel : 0 < fuel) :
    ∃ tr, Exec (getRootWrite t fuel) (.idle σ) tr (.ok p) (.writing σ [id]) ∧
      ∀ w ∈ tr, w.store = σ ∧ ((∀ x, w.latch x ≠ .write) ∨ w.latch id = .write) := by
  obtain ⟨fuel, rfl⟩ : ∃ n, fuel = n + 1 := ⟨fuel - 1, by omega⟩
  have hid := Table.exec_rootId hroot (World.latch_idle σ t.metaId)
  have hnow := Table.exec_rootId (t := t) (w := .writing σ [id]) hroot (World.latch_of_not_mem (by simpa using hne.symm))
  have hret : Exec (if id = id then pure p else do drop id; getRootWrite t fuel) (.writing σ [id]) [] (.ok p)
      (.writing σ [id]) := Exec.ite_pos rfl (exec_pure _ _)
  refine ⟨_, hid.expect_ok.bind ((exec_bpm (exec_fetchWrite hp (by simp))).bind (hnow.expect_ok.bind hret)), fun w hw => ?_⟩
  simp only [List.cons_append, List.nil_append, List.append_nil, List.mem_cons, List.not_mem_nil, or_false] at hw
  have hheld : (World.writing σ [id]).latch id = .write := World.latch_of_mem (by simp)
  rcases hw with rfl | rfl | rfl | rfl | rfl
  · refine ⟨rfl, Or.inl fun x => ?_⟩
    simp only [World.setLatch]
    split <;> simp [World.writing_latch]
  · exact ⟨rfl, Or.inl fun x => by simp [World.writing_latch]⟩
  · exact ⟨rfl, Or.inr hheld⟩
  · exact ⟨rfl, Or.inr (by simp only [World.setLatch, if_neg hne]; exact hheld)⟩
  · exact ⟨rfl, Or.inr hheld⟩

/-- A whole insert: the steps that find and latch the root, and the rest. -/
theorem exec_insert {h : Nat} {T : PageTree h} {fuel : Nat} (hs : Sound t σ T count free) (hT : RootOk σ ne T)
    (hfuel : h < fuel) (hroom : count.toNat + h + 2 < 2 ^ 32) :
    ∃ pre tr r w', Exec (do
        let root ← getRootWrite t fuel
        let (currPage, ancestors) ← insertDescend row fuel root []
        insertAtLeaf t row currPage ancestors) (.idle σ) (pre ++ tr) r w' ∧
      (∀ w ∈ pre, w.store = σ ∧ ((∀ x, w.latch x ≠ .write) ∨ w.latch T.rootId = .write)) ∧
      Outcome t σ ne none none T.rootId [] [] [] row T tr w' r := by
  obtain ⟨p, hp, -⟩ := rootPage hs.pages
  obtain ⟨pre, hroot, hpre⟩ := (@exec_getRootWrite _ _ _ _ fuel) hs.root.namedRoot hp hs.readable.root_ne_meta (by omega)
  have hhere : Here σ ne none none row (.top : PageCtx h h) T [] :=
    ⟨trivial, hT, trivial, hs.ordered, within_none _, rfl⟩
  have hbeside : Beside t σ T.rootId [] [] [] T count free := {
    metaRep := hs.root
    rootTable := hs.owned.table _ (List.mem_append_left _ (Tree.rootId_mem_ids T))
    owned := by simpa using hs.owned
    links := by simpa using hs.links
    nodup := by
      simpa using (List.nodup_append.mp hs.owned.nodup).1.sublist (Tree.leaves_sublist_ids T)
    known := by simp
    room := hroom }
  obtain ⟨tr, r, w', hexec, ho⟩ := exec_insertDescend hfuel hhere hbeside hp
  exact ⟨pre, tr, r, w', hroot.bind hexec, hpre, ho⟩

/-! ## Inserting into a table -/

section
variable {h h' : Nat} {T : PageTree h} {T' : PageTree h'} {σ' : Store} {new : List PageId}

theorem Stored.sound (hst : Stored t ne none none [] [] [] row T σ' T' new count free)
    (hm : t.MetaRep σ' T'.rootId count free) : Sound t σ' T' count free :=
  Sound.of_ok hm (hst.rebuilt.ok.weaken False.elim) hst.rebuilt.ordered (by simpa using hst.links)
    (by simpa using hst.rebuilt.owned)

theorem Stored.wellFormed (hst : Stored t True none none [] [] [] row T σ' T' new count free)
    (hm : t.MetaRep σ' T'.rootId count free) : WellFormed t σ' T' count free :=
  wellFormed_iff.mpr ⟨hst.sound hm, hst.rebuilt.ok.nonempty.below⟩

/-- A row put among rows in order was not there. -/
theorem absent_of_inserted (ho : T'.RowBounds Row.key) {a b : List Row} {r : Row} (hrows : T'.rows = a ++ r :: b) :
    ∀ x ∈ a ++ b, x.key ≠ r.key := by
  have hs := ho.sorted
  rw [hrows, List.map_append, List.map_cons] at hs
  obtain ⟨-, hb, ha⟩ := List.pairwise_append.mp hs
  intro x hx
  rcases List.mem_append.mp hx with hx | hx
  · exact (ha _ (List.mem_map_of_mem hx) _ List.mem_cons_self).ne
  · exact ((List.pairwise_cons.mp hb).1 _ (List.mem_map_of_mem hx)).ne'

end

def smallInsert : ValidatedRow := ⟨smallRow 2, rfl, by decide, by decide, by decide⟩

def wideInsert : ValidatedRow := ⟨smallRow 4, rfl, by decide, by decide, by decide⟩

theorem wideInsert_absent : ∀ r ∈ wideTree.rows, r.key ≠ wideInsert.row.key := by
  intro r hr
  simp only [wideTree, Tree.rows_inner, wideKids, List.flatMap_cons, List.flatMap_nil, Tree.rows_leaf, wideRows,
    List.cons_append, List.nil_append, List.mem_cons, List.not_mem_nil, or_false] at hr
  rcases hr with rfl | rfl | rfl | rfl | rfl | rfl | rfl | rfl <;> decide

/-- On a well-formed table an insert finds the key stored, and changes nothing, or it stores
    the row and leaves a well-formed table. -/
theorem insert_wellFormed {h : Nat} {T : PageTree h} {fuel : Nat} (hw : WellFormed t σ T count free) (hfuel : h < fuel)
    (hroom : count.toNat + h + 2 < 2 ^ 32) (row : ValidatedRow) :
    ((∃ r ∈ T.rows, r.key = row.row.key) ∧
      (insert t fuel row).eval (.idle σ) = some (.error (.err (.page .duplicateKey)), .idle σ)) ∨
    (∀ r ∈ T.rows, r.key ≠ row.row.key) ∧ ∃ σ' h', ∃ T' : PageTree h', ∃ count' free',
      (insert t fuel row).eval (.idle σ) = some (.ok (), .idle σ') ∧ WellFormed t σ' T' count' free' ∧
      ∃ a b, T.rows = a ++ b ∧ T'.rows = a ++ row.row :: b := by
  obtain ⟨pre, tr, r, w', hexec, -, ho⟩ := (@exec_insert _ _ _ row) hw.sound
      (rootOk_of_nonemptyBelow hw.sound.ok hw.rowsBelow) hfuel hroom
  cases ho with
  | took _ hto =>
    obtain ⟨a, b, hab, hab'⟩ := hto.stored.rows
    have hwf := hto.stored.wellFormed (by rw [hto.rootId]; exact hto.metaRep)
    refine Or.inr ⟨?_, _, h, _, _, _, ?_, hwf, a, b, hab, hab'⟩
    · rw [hab]
      exact absent_of_inserted hwf.bounds hab'
    · rw [hto.final] at hexec
      exact hexec.unwinding_ok.eval
  | grew _ hg =>
    obtain ⟨a, b, hab, hab'⟩ := hg.stored.rows
    have hwf := hg.stored.wellFormed hg.metaRep
    refine Or.inr ⟨?_, _, h + 1, _, _, _, ?_, hwf, a, b, hab, hab'⟩
    · rw [hab]
      exact absent_of_inserted hwf.bounds hab'
    · rw [hg.final] at hexec
      exact hexec.unwinding_ok.eval
  | duplicate hrow hstore _ _ =>
    have hend := hexec.unwinding_error.eval
    rw [hstore] at hend
    exact Or.inl ⟨hrow, hend⟩

/-- A row that cuts a leaf and the root above it. -/
theorem insert_wellFormed_wide : ∃ σ' h', ∃ T' : PageTree h', ∃ count' free',
    (insert smallTable 2 wideInsert).eval (.idle wideStore) = some (.ok (), .idle σ') ∧
      WellFormed smallTable σ' T' count' free' ∧ ∃ a b, wideTree.rows = a ++ b ∧ T'.rows = a ++ smallRow 4 :: b := by
  rcases insert_wellFormed wideTable_wellFormed (show 1 < 2 by decide) (by decide) wideInsert with ⟨⟨r, hr, hrk⟩, -⟩ | ⟨-, h⟩
  · exact absurd hrk (wideInsert_absent r hr)
  · exact h

/-! ## What other threads find -/

section
variable {h : Nat} {T : PageTree h}

/-- Steps that write nothing, with no page latched or the root latched. -/
theorem RootServed.before {pre ws : List World} (hs : Sound t σ T count free) (hserved : RootServed t ws T.rows)
    (hpre : ∀ w ∈ pre, w.store = σ ∧ ((∀ x, w.latch x ≠ .write) ∨ w.latch T.rootId = .write)) :
    RootServed t (pre ++ ws) T.rows := by
  induction pre with
  | nil => exact hserved
  | cons w pre ih =>
    refine rootServed_cons.mpr ⟨fun root hroot hfree r hr => ?_, ih fun x hx => hpre x (List.mem_cons_of_mem _ hx)⟩
    obtain ⟨hstore, hl⟩ := hpre w List.mem_cons_self
    rw [(@namedRoot_store _ _ (.idle σ)) hstore, hs.root.namedRoot] at hroot
    cases hroot
    have hl := hl.resolve_right hfree
    have hS : Settled [w] T := ⟨fun x hx => by rw [List.mem_singleton.mp hx, hstore]; exact hs.pages, fun x hx y _ => by
      cases hx
      exact hl y⟩
    obtain ⟨rows, hreach, hmem⟩ := hS.finds hs.ordered.rowBounds (List.cons_ne_nil _ _) hr
    exact ⟨rows, hreach.extend _, hmem⟩

/-- A root cut before the new one is named: until then the rows from the separator on are not found. -/
theorem Halved.rootServed_iff {lo hi : Option Key} {T' : PageTree (h + 1)} {sep : Key} {P Q R : List World} {w : World}
    {l r : PageTree h} {rows : List Row} (hh : Halved t lo hi root T' sep P w Q R l r) (hsub : rows ⊆ T'.rows) :
    RootServed t (P ++ w :: (Q ++ R)) rows ↔ ∀ x ∈ rows, x.key < sep := by
  have hb := hh.leftOrdered.rowBounds
  constructor
  · intro hserved x hx
    obtain ⟨rows', hreach, y, hy, hyx⟩ := (hserved.suffix (List.suffix_append P _)) w (Q ++ R) (List.suffix_refl _) root
      hh.named hh.released x hx
    obtain ⟨rows'', hreach', hsub', -⟩ := hh.settled.reaches hb (List.cons_ne_nil _ _)
    rw [hh.rootId] at hreach'
    rw [hreach.unique hreach'] at hy
    rw [← hyx]
    exact (hh.leftOrdered.within y (hsub' hy)).2 sep rfl
  · intro hlt
    -- what is below the separator is in the left half
    have hleft : ∀ x ∈ rows, x ∈ l.rows := by
      intro x hx
      have hx' := hsub hx
      rw [hh.rows] at hx'
      refine (List.mem_append.mp hx').resolve_right fun hr => ?_
      exact absurd (hlt x hx) (not_lt.mpr ((hh.rightOrdered.within x hr).1 sep rfl))
    refine RootServed.latched ?_ hh.before
    have hfinds : ∀ ws, ws <:+ w :: (Q ++ R) → ws ≠ [] → ∀ x ∈ rows, Finds x.key ws root := fun ws hsuf hne x hx => by
      rw [← hh.rootId]
      exact (hh.settled.suffix hsuf).finds hb hne (hleft x hx)
    have hQ : ∀ Q', Q' <:+ Q → RootServed t (Q' ++ R) rows := by
      intro Q' hQ'
      induction Q' with
      | nil => exact Served.rootServed (fun ws hs hne x hx => hh.served ws hs hne x (hsub hx)) hh.after
      | cons v Q' ih =>
        refine rootServed_cons.mpr ⟨fun root' hroot' hfree => ?_, ih ((List.suffix_cons v Q').trans hQ')⟩
        rcases hh.until_named v (hQ'.subset List.mem_cons_self) with hv | ⟨id, hv, hl⟩
        · obtain rfl : root = root' := Option.some.inj (hv.symm.trans hroot')
          obtain ⟨Q₀, rfl⟩ := hQ'
          exact hfinds _ ⟨w :: Q₀, by simp⟩ (by simp)
        · obtain rfl : id = root' := Option.some.inj (hv.symm.trans hroot')
          exact absurd hl hfree
    refine rootServed_cons.mpr ⟨fun root' hroot' _ => ?_, hQ Q (List.suffix_refl Q)⟩
    obtain rfl : root = root' := Option.some.inj (hh.named.symm.trans hroot')
    exact hfinds _ (List.suffix_refl _) (by simp)

end

section
variable {h : Nat} {T : PageTree h} {fuel : Nat}

theorem idleHeads {pre : List World} (hpre : ∀ w ∈ pre, w.store = σ ∧
    ((∀ x, w.latch x ≠ .write) ∨ w.latch T.rootId = .write)) :
    ∀ w ∈ World.idle σ :: pre, w.store = σ ∧ ((∀ x, w.latch x ≠ .write) ∨ w.latch T.rootId = .write) := by
  intro w hw
  rcases List.mem_cons.mp hw with rfl | hw
  · exact ⟨rfl, Or.inl fun x => by simp [World.writing_latch]⟩
  · exact hpre w hw

theorem Stored.subset {h' : Nat} {T' : PageTree h'} {lo hi : Option Key} {out A B new : List PageId} {σ' : Store}
    (hst : Stored t ne lo hi out A B row T σ' T' new count free) : T.rows ⊆ T'.rows := by
  obtain ⟨a, b, hab, hab'⟩ := hst.rows
  rw [hab, hab']
  intro x hx
  simp only [List.mem_append, List.mem_cons] at hx ⊢
  exact hx.imp_right Or.inr

/-- An insert that cuts no inner root, or keeps the rows stored in its left half, hides nothing. -/
theorem insert_serves (hs : Sound t σ T count free) (hfuel : h < fuel) (hroom : count.toNat + h + 2 < 2 ^ 32)
    (hcond : 0 < h → ∀ sep, pushedUp σ row h T.rootId = some sep → ∀ r ∈ T.rows, r.key < sep) :
    RootServed t ((insert t fuel row).worlds (.idle σ)) T.rows := by
  obtain ⟨pre, tr, r, w', hexec, hpre, ho⟩ := exec_insert hs hs.ok.rootOk hfuel hroom
  cases ho with
  | took _ hto =>
    have hworlds : (insert t fuel row).worlds (.idle σ) = (.idle σ :: pre) ++ tr := hexec.unwinding_ok.worlds
    rw [hworlds]
    exact (hto.served.rootServed fun w hw => (hto.frame w hw).2).before hs (idleHeads hpre)
  | grew _ hg =>
    have hworlds : (insert t fuel row).worlds (.idle σ) = (.idle σ :: pre) ++ tr := hexec.unwinding_ok.worlds
    rw [hworlds]
    refine RootServed.before hs ?_ (idleHeads hpre)
    rcases Nat.eq_zero_or_pos h with rfl | hpos
    · exact hg.leafRoot rfl rfl
    · obtain ⟨sep, P, w, Q, R, l, r, hpush, rfl, hhalf⟩ := hg.innerRoot hpos rfl
      exact (hhalf.rootServed_iff hg.stored.subset).mpr (hcond hpos sep hpush)
  | duplicate _ hstore htr hpush =>
    have hworlds : (insert t fuel row).worlds (.idle σ) = (.idle σ :: pre) ++ (tr ++ [.idle σ]) := by
      have hend := hexec.unwinding_error.worlds
      rw [hstore] at hend
      exact hend.trans (by simp)
    rw [hworlds]
    have hall : ∀ w ∈ tr ++ [World.idle σ], w.store = σ := fun w hw =>
      (List.mem_append.mp hw).elim (htr w) fun hw => by rw [List.mem_singleton.mp hw]; rfl
    have hS : Settled (tr ++ [World.idle σ]) T := ⟨fun w hw => by rw [hall w hw]; exact hs.pages, fun w hw x _ => by
      rw [List.getLast?_append] at hw
      cases hw
      simp [World.writing_latch]⟩
    refine RootServed.before hs ((hS.served hs.ordered.rowBounds).rootServed fun w hw => ?_) (idleHeads hpre)
    rw [(@namedRoot_store _ _ (.idle σ)) (hall w hw)]
    exact hs.root.namedRoot

/-- An insert that cuts an inner root hides the rows from the separator on. -/
theorem insert_hides (hs : Sound t σ T count free) (hfuel : h < fuel) (hroom : count.toNat + h + 2 < 2 ^ 32) (hpos : 0 < h)
    {sep : Key} (hsep : pushedUp σ row h T.rootId = some sep) {r : Row} (hr : r ∈ T.rows) (hle : sep ≤ r.key) :
    ¬ RootServed t ((insert t fuel row).worlds (.idle σ)) T.rows := by
  obtain ⟨pre, tr, r', w', hexec, hpre, ho⟩ := exec_insert hs hs.ok.rootOk hfuel hroom
  cases ho with
  | took _ hto =>
    rw [hto.pushed] at hsep
    cases hsep
  | grew _ hg =>
    have hworlds : (insert t fuel row).worlds (.idle σ) = (.idle σ :: pre) ++ tr := hexec.unwinding_ok.worlds
    rw [hworlds]
    intro hserved
    obtain ⟨sep', P, w, Q, R, l, r', hpush, rfl, hhalf⟩ := hg.innerRoot hpos rfl
    obtain rfl : sep = sep' := Option.some.inj (hsep.symm.trans hpush)
    have hlt := (hhalf.rootServed_iff hg.stored.subset).mp (hserved.suffix (List.suffix_append _ _)) r hr
    exact absurd hlt (not_lt.mpr hle)
  | duplicate _ _ _ hpush =>
    rw [hpush] at hsep
    cases hsep

/-- In every world of an insert in which the root named is free, other threads find every
    row stored before, if and only if the insert does not cut an inner root or no row
    stored is at or above the separator between the two halves. -/
theorem insert_routes_iff (hs : Sound t σ T count free) (hfuel : h < fuel) (hroom : count.toNat + h + 2 < 2 ^ 32)
    (row : ValidatedRow) : RootServed t ((insert t fuel row).worlds (.idle σ)) T.rows ↔
      (0 < h → ∀ sep, pushedUp σ row h T.rootId = some sep → ∀ r ∈ T.rows, r.key < sep) := by
  refine ⟨fun hserved hpos sep hsep r hr => ?_, insert_serves hs hfuel hroom⟩
  by_contra hle
  exact insert_hides hs hfuel hroom hpos hsep hr (not_lt.mp hle) hserved

/-- A row for which the leaf has room: nothing is pushed up to the root. -/
theorem insert_routes_iff_pair : RootServed smallTable ((insert smallTable 2 smallInsert).worlds (.idle pairStore))
    pairTree.rows :=
  (insert_routes_iff pairTable_wellFormed.sound (by decide) (by decide) smallInsert).mpr fun _ sep hsep => by
    have hnone : pushedUp pairStore smallInsert 1 pairTree.rootId = none := by decide +kernel
    rw [hnone] at hsep
    cases hsep

end

/-! ### An insert that cuts a full root above a full leaf -/

/-- The insert cuts the first leaf and the root. -/
theorem wide_pushedUp : ∃ sep ∈ wideKeys, pushedUp wideStore wideInsert 1 (wideId 1) = some sep := by
  have hleaf : ∃ sep, pushedUp wideStore wideInsert 0 (wideId 2) = some sep := by
    obtain ⟨a, r, b, -, -, -, -, hsplit⟩ := (@Page.splitPage_leaf _ (wideId 2)) wideRows_valid (by
        simp only [wideRows, Page.rowsSize_cons, Page.rowsSize_nil, size_fullRow]
        decide)
    have habsent : ∀ x ∈ wideRows, x.key ≠ wideInsert.primaryKey := by
      intro x hx
      simp only [wideRows, List.mem_cons, List.not_mem_nil, or_false] at hx
      rcases hx with rfl | rfl | rfl | rfl <;> decide
    have hcan := (@Page.canInsert_leaf (wideId 2) none _ (some (wideId 3)) none) wideInsert.row wideRows_valid.size
    rw [decide_eq_false (by
      simp only [wideRows, Page.rowsSize_cons, Page.rowsSize_nil, size_fullRow]
      decide)] at hcan
    refine ⟨r.key, ?_⟩
    have hpage : wideStore.page (wideId 2) = some ⟨wideId 2, none, .leaf wideRows (some (wideId 3)) none⟩ := rfl
    rw [pushedUp, hpage, Option.bind_some, hcan, if_neg (by decide), Page.leafGet_absent wideRows_valid habsent]
    exact Page.promoted_of_split hsplit
  obtain ⟨sep, hsep⟩ := hleaf
  obtain ⟨a, k, b, ca, cb, hk, -, -, -, -, -, -, hsplit⟩ :=
      (@Page.splitPage_internal _ (wideId 1) _ _ [wideId 2, wideId 3, wideId 4, wideId 5, wideId 6]) wideKeys_valid rfl (by
      simp only [wideKeys, Page.keysSize_cons, Page.keysSize_nil]
      rw [size_longKey rfl, size_longKey rfl, size_longKey rfl, size_longKey rfl]
      decide)
  have hpage : wideStore.page (wideId 1) =
      some ⟨wideId 1, none, .internal ([] ++ wideKeys) ([] ++ wideId 2 :: [wideId 3, wideId 4, wideId 5, wideId 6])⟩ := rfl
  have hcan := (@Page.canInsertSeparator_internal (wideId 1) none _ [wideId 2, wideId 3, wideId 4, wideId 5, wideId 6])
      sep wideKeys_valid.size
  rw [decide_eq_false (by
    have := Page.internalEntrySize_ge sep
    simp only [wideKeys, Page.keysSize_cons, Page.keysSize_nil]
    rw [size_longKey rfl, size_longKey rfl, size_longKey rfl, size_longKey rfl]
    have h₁ : maxInternalEntrySize = 1016 := rfl
    have h₂ : internalUsable = 4065 := rfl
    omega)] at hcan
  have hkey : ∀ x ∈ wideKeys, wideInsert.row.key < x := by
    intro x hx
    simp only [wideKeys, List.mem_cons, List.not_mem_nil, or_false] at hx
    rcases hx with rfl | rfl | rfl | rfl <;> exact Key.integer_lt_string _ _
  refine ⟨k, by rw [hk]; simp, ?_⟩
  rw [pushedUp_inner hpage wideKeys_valid.sorted (by simp) hkey rfl, hsep, Option.bind_some]
  have hcan' : Page.canInsertSeparator ⟨wideId 1, none, .internal ([] ++ wideKeys)
      ([] ++ wideId 2 :: [wideId 3, wideId 4, wideId 5, wideId 6])⟩ sep = false := hcan
  rw [hcan', if_neg (by decide)]
  exact Page.promoted_of_split hsplit

/-- While the root is being cut, rows stored before are not found from it. -/
theorem insert_hides_wide : WellFormed smallTable wideStore wideTree 7 [] ∧
    ¬ RootServed smallTable ((insert smallTable 2 wideInsert).worlds (.idle wideStore)) wideTree.rows := by
  refine ⟨wideTable_wellFormed, ?_⟩
  obtain ⟨sep, hmem, hsep⟩ := wide_pushedUp
  refine insert_hides (r := longRow 'e') wideTable_wellFormed.sound (by decide) (by decide) (by decide) hsep
    (by simp [wideTree, wideKids]) ?_
  have hlast : ∀ x ∈ wideKeys, x ≤ longKey 'e' := by
    intro x hx
    simp only [wideKeys, List.mem_cons, List.not_mem_nil, or_false] at hx
    rcases hx with rfl | rfl | rfl | rfl
    · exact (longKey_lt (by decide)).le
    · exact (longKey_lt (by decide)).le
    · exact (longKey_lt (by decide)).le
    · exact le_refl _
  exact hlast sep hmem

end

end BTree

end RustDb
