/-
  RustDb.BTree.Rebalance — the loop of `BTree::rebalance`, from a page that lost an entry up to
  where nothing is left to do.

  A page that is underfull merges with its neighbour, and the page above is next, or borrows
  from it, and the loop ends; a root without a key gives way to its only child
  (`Mending.collapse`). How the loop ends does not depend on which pages are still latched,
  as long as they reach up to the root or to a page that is safe (`Above`,
  `exec_rebalance`).
-/

import RustDb.BTree.Borrow

namespace RustDb

open Lib.SearchTree Call

namespace BTree

/-! ## The neighbour -/

section
variable {t : Table} {σ σ' : Store} {H h : Nat} {count : UInt32} {free : List PageId}

theorem Ok.page {ne : Prop} {T : PageTree h} (hT : Ok σ ne T) : ∃ p, σ.page T.rootId = some p := by
  obtain ⟨p, hp, -⟩ := rootPage (hT.imp (fun _ _ _ hl => hl.1) fun _ _ _ _ hn => hn.1)
  exact ⟨p, hp⟩

section
variable {up : PageCtx H (h + 1)} {id : PageId} {a₀ b₀ a b : List Key} {ca₀ cb₀ ca cb : List (PageTree h)}
  {aligned : ca₀.length = a₀.length} {T l r : PageTree h} {sep : Key} {node parent : Page}

theorem Mending.pair (hm : Mending t σ (Ctx.down up id a₀ b₀ ca₀ cb₀ aligned) T count free) (haligned : ca.length = a.length)
    (hkeys : a ++ sep :: b = a₀ ++ b₀) (hkids : ca ++ l :: r :: cb = ca₀ ++ T :: cb₀) (hl : Loose σ l) (hr : Loose σ r)
    (hrest : ∀ kid ∈ ca ++ cb, Ok σ True kid) : Pair t σ up id a b ca cb l r sep count free := by
  obtain ⟨⟨hnode, hvalid, -⟩, -, -, hup⟩ := hm.ctx
  have hroot := hm.root
  rw [Ctx.rootId_plug] at hroot
  have hplug : (Ctx.down up id a₀ b₀ ca₀ cb₀ aligned).plug T = up.plug
      (Tree.inner id (a ++ sep :: b) (ca ++ l :: r :: cb)) := by
    rw [hkeys, hkids]
    rfl
  refine ⟨haligned, ?_, by rwa [hkeys], hrest, hl, hr, hup, hplug ▸ hm.ordered, hroot, hplug ▸ hm.links, hplug ▸ hm.owned⟩
  rw [hkeys, hkids, List.map_append, List.map_cons]
  exact hnode

/-- The page above the hole has a key, so `pick_sibling` finds the subtree a neighbour. -/
theorem Mending.exists_pair (hm : Mending t σ (Ctx.down up id a₀ b₀ ca₀ cb₀ aligned) T count free)
    (hnode : σ.page T.rootId = some node) (hparent : σ.page id = some parent) :
    ∃ a b ca cb l r sib pl pr, Pair t σ up id a b ca cb l r sib.separator count free ∧
      a ++ sib.separator :: b = a₀ ++ b₀ ∧ ca ++ l :: r :: cb = ca₀ ++ T :: cb₀ ∧
      Sides σ l r node pl pr sib ∧ (Ok σ True l ∨ Ok σ True r) ∧ pickSibling parent ca₀.length = .ok (some sib) := by
  obtain ⟨⟨⟨lsn, hpage⟩, hkeys, hne⟩, hca, hcb, hup⟩ := hm.ctx
  obtain rfl : parent = _ := Option.some.inj (hparent.symm.trans hpage)
  have hlen := chain_length (Tree.ordered_inner.mp ((Ctx.ordered_plug up _).mp hm.ordered).2).2.2
  simp only [List.length_append, List.length_cons, aligned] at hlen
  rcases cb₀ with _ | ⟨r, cb⟩
  · -- the last child: its left neighbour
    obtain rfl : b₀ = [] := List.length_eq_zero_iff.mp (by simpa using hlen.symm)
    rcases List.eq_nil_or_concat' a₀ with rfl | ⟨a, sep, rfl⟩
    · simp at hne
    rcases List.eq_nil_or_concat' ca₀ with rfl | ⟨ca, l, rfl⟩
    · simp at aligned
    have hca' : ca.length = a.length := by simpa using aligned
    have hl : Ok σ True l := hca l (by simp)
    obtain ⟨pl, hpl⟩ := hl.page
    refine ⟨a, [], ca, [], l, T, ⟨pl.pageId, sep, .left⟩, pl, node, ?_, by simp, by simp, ⟨hpl, hnode, ?_⟩, Or.inl hl, ?_⟩
    · exact hm.pair hca' (by simp) (by simp) hl.loose hm.loose fun kid hkid => hca kid (by simp at hkid; simp [hkid])
    · exact Or.inr ⟨rfl, rfl, rfl⟩
    · simp [pickSibling, Page.childAt, Page.keyAt, hca', σ.named hpl]
  · rcases b₀ with _ | ⟨sep, b⟩
    · simp at hlen
    have hr : Ok σ True r := hcb r (by simp)
    obtain ⟨pr, hpr⟩ := hr.page
    refine ⟨a₀, b, ca₀, cb, T, r, ⟨pr.pageId, sep, .right⟩, node, pr, ?_, rfl, rfl, ⟨hnode, hpr, ?_⟩, Or.inr hr, ?_⟩
    · exact hm.pair aligned rfl rfl hm.loose hr.loose fun kid hkid =>
        (List.mem_append.mp hkid).elim (hca kid) fun hkid => hcb kid (by simp [hkid])
    · exact Or.inl ⟨rfl, rfl, rfl⟩
    · simp [pickSibling, Page.childAt, Page.keyAt, aligned, σ.named hpr]

end

/-! ## The end of a rebalance -/

/-- The pages above a latched page are let go. -/
theorem exec_clearPath {id : PageId} {anc : List Ancestor} (hnd : (anc.map fun q => q.1.pageId).Nodup)
    (hid : id ∉ anc.map fun q => q.1.pageId) :
    ∃ tr, Exec (clear (anc.map Prod.fst)) (.writing σ (id :: anc.map fun q => q.1.pageId)) tr (.ok ())
    (.writing σ [id]) := by
  have hids : (anc.map Prod.fst).map (·.pageId) = anc.map fun q => q.1.pageId := by rw [List.map_map]; rfl
  obtain ⟨tr, hclear, -⟩ := (@exec_clear σ [id] (anc.map Prod.fst)) (by rwa [hids]) (by rw [hids]; simpa using hid)
  rw [hids, World.writing_congr fun x => List.perm_append_comm.mem_iff] at hclear
  exact ⟨tr, hclear⟩

/-- The last latch is let go. -/
theorem exec_dropLast (id : PageId) : Exec (Call.drop id : BT Unit) (.writing σ [id]) [.idle σ] (.ok ()) (.idle σ) :=
  exec_drop (by simp) (drop_head List.not_mem_nil)

/-- A page that is not an empty inner root: nothing is left to do. -/
theorem exec_settle {root : PageId} {node : Page} {anc : List Ancestor} (hm : t.MetaRep σ root count free)
    (hnd : (node.pageId :: anc.map fun q => q.1.pageId).Nodup)
    (hmeta : t.metaId ∉ node.pageId :: anc.map fun q => q.1.pageId)
    (hno : ¬ (node.pageId = root ∧ node.isInternal ∧ node.numItems = 0)) :
    ∃ tr, Exec (collapseRoot t node anc) (.writing σ (node.pageId :: anc.map fun q => q.1.pageId)) tr (.ok ())
    (.idle σ) := by
  obtain ⟨hid, hnd⟩ := List.nodup_cons.mp hnd
  have hroot := Table.exec_rootId (t := t) (w := .writing σ (node.pageId :: anc.map fun q => q.1.pageId)) hm.namedRoot
    (World.latch_of_not_mem hmeta)
  obtain ⟨tr, hclear⟩ := exec_clearPath (σ := σ) hnd hid
  exact ⟨_, hroot.expect_ok.bind (Exec.ite_neg hno (hclear.bind (exec_dropLast node.pageId)))⟩

/-- An empty inner root gives way to its only child. -/
theorem Mending.collapse {id : PageId} {kid : PageTree h} {node : Page}
    (hm : Mending t σ (.top : PageCtx (h + 1) (h + 1)) (Tree.inner id [] [kid]) count free) (hnode : σ.page id = some node) :
    ∃ σ', WellFormed t σ' kid count (id :: free) ∧
      ∃ tr, Exec (collapseRoot t node []) (.writing σ [node.pageId]) tr (.ok ()) (.idle σ') := by
  obtain ⟨⟨⟨lsn, hpage⟩, -⟩, hkids⟩ := loose_inner.mp hm.loose
  obtain rfl : node = _ := Option.some.inj (hnode.symm.trans hpage)
  have hkid : Ok σ True kid := hkids kid (by simp)
  have howned : t.Owned count (id :: kid.ids ++ free) := by simpa [Ctx.plug] using hm.owned
  have hlinks : Linked σ none kid.leaves none := by simpa [Ctx.plug] using hm.links
  have hordered : kid.Ordered Row.key none none := by
    obtain ⟨-, -, hchain⟩ := Tree.ordered_inner.mp hm.ordered
    simpa [Chain] using hchain
  have hroot : t.MetaRep σ id count free := hm.root
  have hget := Table.exec_rootId (t := t) (w := .writing σ [id]) hroot.namedRoot
    (World.latch_of_not_mem (by simpa using (howned.ne_meta (by simp)).symm))
  obtain ⟨σ₁, tr₁, hset, hm₁, hframe₁, -⟩ := Table.exec_setRootId (L := [id]) hroot howned (by simp) kid.rootId
  let p : Page := ⟨id, lsn, .free none⟩
  have hput := exec_put (ε := BTreeError) (σ := σ₁) (L := [id]) (q := p) (by simp [p])
  have hm₂ := put_meta (p := p) hm₁ howned (by simp [p])
  obtain ⟨σ', hm', hframe', hfree⟩ := (@Table.exec_free t (σ₁.put p) kid.rootId count free kid.ids id lsn none) hm₂ howned
    (howned.table _ (by simp [Tree.rootId_mem_ids kid]))
  obtain ⟨tr₂, hfreed⟩ := hfree [id] [] (by simp) (by simp) (by simp)
  have hnot : id ∉ kid.ids := fun h => (List.nodup_cons.mp howned.nodup).1 (List.mem_append_left _ h)
  have hkeep : ∀ x, x ∉ [t.metaId, id] → σ'.page x = σ.page x := by
    intro x hx
    simp only [List.mem_cons, List.not_mem_nil, or_false, not_or] at hx
    rw [hframe' x hx.1 hx.2, Store.put_ne _ (p := p) hx.2, hframe₁ x hx.1]
  have hex : ∀ x ∈ kid.ids, x ∉ [t.metaId, id] := by
    intro x hx
    simp only [List.mem_cons, List.not_mem_nil, or_false, not_or]
    exact ⟨howned.ne_meta (by simp [hx]), fun he => hnot (he ▸ hx)⟩
  refine ⟨σ', wellFormed_of_rootOk (hkid.frame (Frame.of_eq hkeep) hex).rootOk hordered hm'
    (hlinks.congr_eq fun x hx => hkeep x (hex x ((Tree.leaves_sublist_ids kid).subset hx)))
    (howned.perm List.perm_middle), ?_⟩
  exact ⟨_, hget.expect_ok.bind (Exec.ite_pos ⟨rfl, rfl, rfl⟩ (hset.expect_ok.bind
      (hput.bind (hfreed.expect_ok.bind (exec_pure _ _)))))⟩

/-! ## The loop -/

/-- The pages latched above the hole, up to the root or to a page that is safe. -/
def Above (σ : Store) : {h : Nat} → PageCtx H h → List Ancestor → Prop
  | _, .top, anc => anc = []
  | _, .down up id _ _ ca _ _, anc => ∃ q rest, anc = (q, ca.length) :: rest ∧ σ.page id = some q ∧
      (Above σ up rest ∨ q.isDeleteSafe = true ∧ rest = [])

theorem Above.sublist : ∀ {h : Nat} {c : PageCtx H h} {anc : List Ancestor}, Above σ c anc →
    (anc.map fun q => q.1.pageId).Sublist c.path
  | _, .top, _, ha => by rw [show _ = [] from ha]; exact List.Sublist.refl _
  | _, .down up id _ _ _ _ _, _, ha => by
    obtain ⟨q, rest, rfl, hq, hrest⟩ := ha
    rw [List.map_cons, σ.named hq]
    refine List.Sublist.cons_cons id ?_
    rcases hrest with hrest | ⟨-, rfl⟩
    · exact hrest.sublist
    · exact List.nil_sublist _

theorem Above.congr : ∀ {h : Nat} {c : PageCtx H h} {anc : List Ancestor}, Above σ c anc →
    (∀ x ∈ c.path, σ'.page x = σ.page x) → Above σ' c anc
  | _, .top, _, ha, _ => ha
  | _, .down up id _ _ _ _ _, _, ha, he => by
    obtain ⟨q, rest, rfl, hq, hrest⟩ := ha
    exact ⟨q, rest, rfl, (he id List.mem_cons_self).trans hq,
      hrest.imp_left fun h => h.congr fun x hx => he x (List.mem_cons_of_mem id hx)⟩

/-- A safe page stays full enough without one of its keys. -/
theorem isDeleteSafe_remove {id : PageId} {lsn : PageLsn} {a b : List Key} {sep : Key} {cs cs' : List PageId}
    (hsafe : Page.isDeleteSafe ⟨id, lsn, .internal (a ++ sep :: b) cs⟩ = true) (hfits : Page.KeyFits sep) :
    Page.isUnderfull ⟨id, lsn, .internal (a ++ b) cs'⟩ = false := by
  have hsize : internalUnderfullBytes + maxInternalEntrySize ≤ Page.keysSize (a ++ sep :: b) :=
    of_decide_eq_true (Bool.and_eq_true_iff.mp hsafe).2
  have hsep : Page.internalEntrySize sep ≤ maxInternalEntrySize := hfits
  simp only [Page.keysSize_append, Page.keysSize_cons] at hsize
  refine decide_eq_false ?_
  simp only [Page.entriesSize, Page.keysSize_append]
  omega

/-- A page of the tree that is not underfull has an entry. -/
theorem Loose.numItems_ne : ∀ {h : Nat} {T : PageTree h} {p : Page}, Loose σ T → σ.page T.rootId = some p →
    p.isUnderfull = false → p.numItems ≠ 0
  | 0, T, p => T.casesZero fun id rows hT hp hu => by
    obtain ⟨⟨lsn, nx, pv, hpage⟩, -⟩ := loose_leaf.mp hT
    obtain rfl : p = _ := Option.some.inj (hp.symm.trans hpage)
    intro hnil
    obtain rfl : rows = [] := List.length_eq_zero_iff.mp hnil
    exact absurd hu (by decide : ¬ (decide (0 < leafUnderfullBytes) = false))
  | _ + 1, T, p => T.casesSucc fun id keys kids hT hp hu => by
    obtain ⟨⟨⟨lsn, hpage⟩, -⟩, -⟩ := loose_inner.mp hT
    obtain rfl : p = _ := Option.some.inj (hp.symm.trans hpage)
    intro hnil
    obtain rfl : keys = [] := List.length_eq_zero_iff.mp hnil
    exact absurd hu (by decide : ¬ (decide (0 < internalUnderfullBytes) = false))

/-- The page at the hole and the pages above it are latched apart from each other and from
    the meta page. -/
theorem Mending.latched {c : PageCtx H h} {T : PageTree h} (hm : Mending t σ c T count free) {ids : List PageId}
    (hs : ids.Sublist c.path) : (T.rootId :: ids).Nodup ∧ t.metaId ∉ T.rootId :: ids := by
  have hnd := (Ctx.ids_plug c T).nodup_iff.mp (List.nodup_append.mp hm.owned.nodup).1
  have hin : ∀ x ∈ T.rootId :: ids, x ∈ (c.plug T).ids := by
    intro x hx
    refine (Ctx.ids_plug c T).mem_iff.mpr (List.mem_append.mpr ?_)
    rcases List.mem_cons.mp hx with rfl | hx
    · exact Or.inr (Tree.rootId_mem_ids T)
    · exact Or.inl ((Ctx.path_sublist c).subset (hs.subset hx))
  obtain ⟨hc, -, hdis⟩ := List.nodup_append.mp hnd
  refine ⟨List.nodup_cons.mpr ⟨fun h => ?_, hc.sublist (hs.trans (Ctx.path_sublist c))⟩, fun h => ?_⟩
  · exact hdis _ ((Ctx.path_sublist c).subset (hs.subset h)) _ (Tree.rootId_mem_ids T) rfl
  · exact hm.owned.ne_meta (List.mem_append_left _ (hin _ h)) rfl

/-- The loop ends here: the page is not underfull, or nothing is above it. -/
theorem exec_rebalance_settle {c : PageCtx H h} {T : PageTree h} {node : Page} {anc : List Ancestor}
    (hm : Mending t σ c T count free) (hnode : σ.page T.rootId = some node)
    (hs : (anc.map fun q => q.1.pageId).Sublist c.path) (hend : node.isUnderfull = false ∨ anc = [])
    (hne : node.isInternal = true → node.numItems ≠ 0) :
    ∃ tr, Exec (rebalance t anc node) (.writing σ (node.pageId :: anc.map fun q => q.1.pageId)) tr (.ok ()) (.idle σ) := by
  obtain ⟨hnd, hmeta⟩ := hm.latched hs
  rw [← σ.named hnode] at hnd hmeta
  obtain ⟨tr, hexec⟩ := exec_settle hm.root hnd hmeta fun h => hne h.2.1 h.2.2
  refine ⟨tr, ?_⟩
  rcases anc with _ | ⟨⟨q, idx⟩, anc⟩
  · exact hexec
  · rw [rebalance, if_neg (by rw [hend.resolve_right (List.cons_ne_nil _ _)]; exact Bool.false_ne_true)]
    exact hexec

theorem rows_join_plug {up : PageCtx H (h + 1)} {id : PageId} {ks ks' : List Key} {ca cb : List (PageTree h)}
    {l r : PageTree h}
    {sep : Key} : (up.plug (Tree.inner id ks (ca ++ l.join sep r :: cb))).rows =
      (up.plug (Tree.inner id ks' (ca ++ l :: r :: cb))).rows := by
  rw [rows_one, rows_pair, Tree.rows_join]

theorem Keyed.join : ∀ {h : Nat} {P : Key → Prop} {l r : PageTree h} {sep : Key}, Keyed P l → Keyed P r → P sep →
    Keyed P (l.join sep r)
  | 0, P, l, r, sep => l.casesZero fun id rs => r.casesZero fun id' ds hl hr _ => by
    refine Tree.all_leaf.mpr fun x hx => ?_
    exact (List.mem_append.mp hx).elim (Tree.all_leaf.mp hl x) (Tree.all_leaf.mp hr x)
  | _ + 1, P, l, r, sep => l.casesSucc fun id ks ts => r.casesSucc fun id' ks' ts' hl hr hsep => by
    obtain ⟨hk, ht⟩ := Tree.all_inner.mp hl
    obtain ⟨hk', ht'⟩ := Tree.all_inner.mp hr
    refine Tree.all_inner.mpr ⟨fun x hx => ?_, fun kid hkid => (List.mem_append.mp hkid).elim (ht kid) (ht' kid)⟩
    rcases List.mem_append.mp hx with hx | hx
    · exact hk x hx
    · exact (List.mem_cons.mp hx).elim (fun he => he ▸ hsep) (hk' x)

/-- A merge invents no key. -/
theorem keyed_join_plug {up : PageCtx H (h + 1)} {id : PageId} {a b : List Key} {ca cb : List (PageTree h)}
    {l r : PageTree h}
    {sep : Key} {P : Key → Prop} (hk : Keyed P (up.plug (Tree.inner id (a ++ sep :: b) (ca ++ l :: r :: cb)))) :
    Keyed P (up.plug (Tree.inner id (a ++ b) (ca ++ l.join sep r :: cb))) := by
  obtain ⟨hup, hnode⟩ := (Ctx.all_plug up _).mp hk
  obtain ⟨hkeys, hkids⟩ := Tree.all_inner.mp hnode
  refine (Ctx.all_plug up _).mpr ⟨hup, Tree.all_inner.mpr ⟨fun x hx => hkeys x ?_, fun kid hkid => ?_⟩⟩
  · exact (List.Sublist.append_left (List.sublist_cons_self sep b) a).subset hx
  · have hkid' : kid = l.join sep r ∨ kid ∈ ca ++ cb := by
      simp only [List.mem_append, List.mem_cons] at hkid ⊢
      tauto
    rcases hkid' with rfl | hkid'
    · exact Keyed.join (hkids l (by simp)) (hkids r (by simp)) (hkeys sep (by simp))
    · refine hkids kid ?_
      simp only [List.mem_append, List.mem_cons] at hkid' ⊢
      tauto

theorem Mended.merged {up : PageCtx H (h + 1)} {id : PageId} {a b : List Key} {ca cb : List (PageTree h)} {l r : PageTree h}
    {sep : Key} {res : Except (Fail BTreeError) Unit}
    (hm : Mended t (up.plug (Tree.inner id (a ++ b) (ca ++ l.join sep r :: cb))) count (r.rootId :: free) σ' res) :
    Mended t (up.plug (Tree.inner id (a ++ sep :: b) (ca ++ l :: r :: cb))) count free σ' res := by
  cases hm with
  | whole table rows pages =>
    refine .whole table (rows.trans rows_join_plug) (pages.trans (List.perm_middle.trans ?_))
    exact ((ids_joined l r).append_right free).symm
  | full sizes => exact .full fun n hk => sizes n (keyed_join_plug hk)

/-- At the root the loop ends: a leaf may be empty, an inner page without a key gives way. -/
theorem Mending.exec_root : ∀ {H : Nat} {T : PageTree H} {node : Page}, Mending t σ (.top : PageCtx H H) T count free →
    σ.page T.rootId = some node → ∃ σ', Mended t T count free σ' (.ok ()) ∧
      ∃ tr, Exec (rebalance t [] node) (.writing σ [node.pageId]) tr (.ok ()) (.idle σ')
  | 0, T, node => T.casesZero fun id rows hm hnode => by
    obtain ⟨⟨lsn, nx, pv, hpage⟩, hvalid⟩ := loose_leaf.mp hm.loose
    obtain rfl : node = _ := Option.some.inj (hnode.symm.trans hpage)
    have hw := wellFormed_of_rootOk (rootOk_leaf.mpr ⟨⟨lsn, nx, pv, hpage⟩, hvalid⟩) hm.ordered hm.root hm.links hm.owned
    exact ⟨σ, .whole hw rfl (List.Perm.refl _), (@exec_rebalance_settle _ _ _ _ _ _ _ _ _ []) hm hnode
      (List.nil_sublist _) (Or.inr rfl) (by rintro ⟨⟩)⟩
  | h + 1, T, node => T.casesSucc fun id keys kids hm hnode => by
    obtain ⟨⟨⟨lsn, hpage⟩, -⟩, -⟩ := loose_inner.mp hm.loose
    obtain rfl : node = _ := Option.some.inj (hnode.symm.trans hpage)
    rcases keys with _ | ⟨k, keys⟩
    · obtain ⟨kid, rfl⟩ : ∃ kid, kids = [kid] :=
        List.length_eq_one_iff.mp (chain_length (Tree.ordered_inner.mp hm.ordered).2.2)
      obtain ⟨σ', hw, hexec⟩ := hm.collapse hnode
      exact ⟨σ', .whole hw (by simp) (by simp), hexec⟩
    · have hw := hm.wellFormed (hm.loose.ok hnode (by simp [Page.numItems]))
      exact ⟨σ, .whole hw rfl (List.Perm.refl _), (@exec_rebalance_settle _ _ _ _ _ _ _ _ _ []) hm hnode
        (List.nil_sublist _) (Or.inr rfl)
        fun _ => by simp [Page.numItems]⟩

/-- The loop, from a page that may hold too little: whichever pages are still latched above it,
    it ends the same way. -/
theorem exec_rebalance : ∀ {h : Nat} {c : PageCtx H h} {T : PageTree h} {σ : Store} {free : List PageId} {node : Page},
    Mending t σ c T count free → σ.page T.rootId = some node →
    ∃ σ' res, Mended t (c.plug T) count free σ' res ∧ ∀ anc, (Above σ c anc ∨ anc = [] ∧ node.isUnderfull = false) →
      ∃ tr w', Exec (rebalance t anc node) (.writing σ (node.pageId :: anc.map fun q => q.1.pageId)) tr res w' ∧
        w'.store = σ' ∧ (res = .ok () → w' = .idle σ')
  | _, .top, T, σ, free, node, hm, hnode => by
    obtain ⟨σ', hmended, tr, hexec⟩ := hm.exec_root hnode
    refine ⟨σ', .ok (), hmended, fun anc hanc => ?_⟩
    obtain rfl : anc = [] := hanc.elim (fun h => h) And.left
    exact ⟨tr, _, hexec, rfl, fun _ => rfl⟩
  | _, .down up id a₀ b₀ ca₀ cb₀ aligned, T, σ, free, node, hm, hnode => by
    by_cases hunder : node.isUnderfull = true
    · obtain ⟨⟨⟨lsn, hparent⟩, -⟩, -⟩ := hm.ctx
      obtain ⟨a, b, ca, cb, l, r, sib, pl, pr, hp, hkeys, hkids, hs, hok, hpick⟩ := hm.exists_pair hnode hparent
      have hplug : (Ctx.down up id a₀ b₀ ca₀ cb₀ aligned).plug T =
          up.plug (Tree.inner id (a ++ sib.separator :: b) (ca ++ l :: r :: cb)) := by
        rw [hkeys, hkids]
        rfl
      rw [hplug]
      by_cases hcan : pl.canMergeWith pr sib.separator = true
      · obtain ⟨σ₁, parent', hm₁, hparent₁, hbody, hpath, hround⟩ := hp.exec_merge hok hs hunder hcan hparent hpick
        obtain ⟨σ', res, hmended, hloop⟩ := exec_rebalance hm₁ hparent₁
        refine ⟨σ', res, hmended.merged, fun anc hanc => ?_⟩
        obtain ⟨q, rest, rfl, hq, hrest⟩ := hanc.resolve_right fun h => by simp [hunder] at h
        obtain rfl : q = _ := Option.some.inj (hq.symm.trans hparent)
        have hid : parent'.pageId = id := σ₁.named hparent₁
        have hrest₁ : Above σ₁ up rest ∨ rest = [] ∧ parent'.isUnderfull = false := by
          refine hrest.imp (fun h => h.congr hpath) fun ⟨hsafe, hnil⟩ => ⟨hnil, ?_⟩
          rw [← hkeys] at hsafe
          rw [hbody]
          exact isDeleteSafe_remove hsafe (hp.keys.fits _ (by simp))
        obtain ⟨tr', w', hexec, hstore, hidle⟩ := hloop rest hrest₁
        have hsub : (rest.map fun q => q.1.pageId).Sublist up.path := by
          rcases hrest with hrest | ⟨-, rfl⟩
          · exact hrest.sublist
          · exact List.nil_sublist _
        rw [hid] at hexec
        obtain ⟨tr, hexec⟩ := hround _ hsub.subset rest tr' res w' hexec
        exact ⟨tr, w', hexec, hstore, hidle⟩
      · obtain ⟨σ', res, hmended, hround⟩ := hp.exec_share hs hunder (by simpa using hcan) hparent hpick
        refine ⟨σ', res, hmended, fun anc hanc => ?_⟩
        obtain ⟨q, rest, rfl, hq, hrest⟩ := hanc.resolve_right fun h => by simp [hunder] at h
        obtain rfl : q = _ := Option.some.inj (hq.symm.trans hparent)
        have hsub : (rest.map fun q => q.1.pageId).Sublist up.path := by
          rcases hrest with hrest | ⟨-, rfl⟩
          · exact hrest.sublist
          · exact List.nil_sublist _
        exact hround rest hsub
    · rw [Bool.not_eq_true] at hunder
      have hne := hm.loose.numItems_ne hnode hunder
      refine ⟨σ, .ok (), .whole (hm.wellFormed (hm.loose.ok hnode hne)) rfl (List.Perm.refl _), fun anc hanc => ?_⟩
      have hsub : (anc.map fun q => q.1.pageId).Sublist (Ctx.down up id a₀ b₀ ca₀ cb₀ aligned).path := by
        rcases hanc with hanc | ⟨rfl, -⟩
        · exact hanc.sublist
        · exact List.nil_sublist _
      obtain ⟨tr, hexec⟩ := exec_rebalance_settle hm hnode hsub (Or.inl hunder) fun _ => hne
      exact ⟨tr, _, hexec, rfl, fun _ => rfl⟩

end

end BTree

end RustDb
