/-
  RustDb.BTree.Merge — a round of `BTree::rebalance` that merges: a page that holds too little,
  the neighbour it is joined with, and the page above them.

  `Mending` is a table one of whose subtrees may have lost too much; `Pair` is the same seen
  from the page above, with the neighbour. Two neighbours that fit one page are joined
  (`Pair.merged`), and the page above is the one that may now hold too little
  (`Pair.exec_merge`).
-/

import RustDb.BTree.Insert
import RustDb.Page.Siblings

namespace RustDb

open Lib.SearchTree Call

namespace BTree

/-! ## A subtree that lost an entry -/

/-- A leaf that may have no row, or a page that may have no key above subtrees that are whole. -/
def Loose (σ : Store) : {h : Nat} → PageTree h → Prop
  | 0, T => leafAt σ T.leafId T.leafRows ∧ Page.LeafValid T.leafRows
  | _ + 1, T => (nodeAt σ T.nodeId T.keys (T.kids.map Tree.rootId) ∧ Page.KeysValid T.keys) ∧ ∀ kid ∈ T.kids, Ok σ True kid

section
variable {σ σ' : Store} {h : Nat} {ex : List PageId}

theorem loose_leaf {id : PageId} {rows : List Row} :
    Loose σ (Tree.leaf id rows : PageTree 0) ↔ leafAt σ id rows ∧ Page.LeafValid rows := Iff.rfl

theorem loose_inner {id : PageId} {keys : List Key} {kids : List (PageTree h)} : Loose σ (Tree.inner id keys kids) ↔
    (nodeAt σ id keys (kids.map Tree.rootId) ∧ Page.KeysValid keys) ∧ ∀ kid ∈ kids, Ok σ True kid := Iff.rfl

theorem Ok.loose : ∀ {h : Nat} {T : PageTree h}, Ok σ True T → Loose σ T
  | 0, _, hT => ⟨hT.1, hT.2.1⟩
  | _ + 1, _, hT => ⟨⟨hT.1.1, hT.1.2.1⟩, hT.2⟩

/-- With an entry in its root the subtree is whole. -/
theorem Loose.ok : ∀ {h : Nat} {T : PageTree h} {p : Page}, Loose σ T → σ.page T.rootId = some p → p.numItems ≠ 0 → Ok σ
    True T
  | 0, T, p => T.casesZero fun id rows hT hp hne => by
    obtain ⟨⟨lsn, next, prev, hpage⟩, hvalid⟩ := loose_leaf.mp hT
    obtain rfl : p = _ := Option.some.inj (hp.symm.trans hpage)
    exact Tree.all_leaf.mpr ⟨⟨lsn, next, prev, hpage⟩, hvalid, fun _ hnil => hne (by rw [hnil]; rfl)⟩
  | h + 1, T, p => T.casesSucc fun id keys kids hT hp hne => by
    obtain ⟨⟨⟨lsn, hpage⟩, hvalid⟩, hkids⟩ := loose_inner.mp hT
    obtain rfl : p = _ := Option.some.inj (hp.symm.trans hpage)
    exact Tree.all_inner.mpr ⟨⟨⟨lsn, hpage⟩, hvalid, fun hnil => hne (by rw [hnil]; rfl)⟩, hkids⟩

/-- The page at the root passes `check_invariants`. -/
theorem Loose.page : ∀ {h : Nat} {T : PageTree h} {lo hi : Option Key}, Loose σ T → T.Ordered Row.key lo hi →
    ∃ p, σ.page T.rootId = some p ∧ p.checkInvariants = .ok ()
  | 0, T, _, _ => T.casesZero fun id rows hT _ => by
    obtain ⟨⟨lsn, next, prev, hpage⟩, hvalid⟩ := loose_leaf.mp hT
    exact ⟨_, hpage, (Page.checkInvariants_iff _).mpr hvalid⟩
  | h + 1, T, _, _ => T.casesSucc fun id keys kids hT ho => by
    obtain ⟨⟨⟨lsn, hpage⟩, hvalid⟩, -⟩ := loose_inner.mp hT
    exact ⟨_, hpage, (Page.checkInvariants_iff _).mpr
      ⟨by simpa using chain_length (Tree.ordered_inner.mp ho).2.2, hvalid⟩⟩

theorem Loose.passes {T : PageTree h} {lo hi : Option Key} {p : Page} (hT : Loose σ T) (ho : T.Ordered Row.key lo hi)
    (hp : σ.page T.rootId = some p) : p.checkInvariants = .ok () := by
  obtain ⟨q, hq, hc⟩ := hT.page ho
  rwa [Option.some.inj (hp.symm.trans hq)]

end

/-- A table that is whole but for the subtree `T` at the hole of `c`. -/
structure Mending (t : Table) (σ : Store) {H h : Nat} (c : PageCtx H h) (T : PageTree h) (count : UInt32)
    (free : List PageId) : Prop where
  ctx : CtxOk σ True c T.rootId
  loose : Loose σ T
  ordered : (c.plug T).Ordered Row.key none none
  root : t.MetaRep σ (c.plug T).rootId count free
  links : Linked σ none (c.plug T).leaves none
  owned : t.Owned count ((c.plug T).ids ++ free)

/-- Two neighbours under the page `id`, with the separator between them; either may have lost
    too much. -/
structure Pair (t : Table) (σ : Store) {H h : Nat} (up : PageCtx H (h + 1)) (id : PageId) (a b : List Key)
    (ca cb : List (PageTree h)) (l r : PageTree h) (sep : Key) (count : UInt32) (free : List PageId) : Prop where
  aligned : ca.length = a.length
  node : nodeAt σ id (a ++ sep :: b) ((ca ++ l :: r :: cb).map Tree.rootId)
  keys : Page.KeysValid (a ++ sep :: b)
  kids : ∀ kid ∈ ca ++ cb, Ok σ True kid
  left : Loose σ l
  right : Loose σ r
  above : CtxOk σ True up id
  ordered : (up.plug (.inner id (a ++ sep :: b) (ca ++ l :: r :: cb))).Ordered Row.key none none
  root : t.MetaRep σ (up.rootOr id) count free
  links : Linked σ none (up.plug (.inner id (a ++ sep :: b) (ca ++ l :: r :: cb))).leaves none
  owned : t.Owned count ((up.plug (.inner id (a ++ sep :: b) (ca ++ l :: r :: cb))).ids ++ free)

section
variable {t : Table} {σ σ' : Store} {H h : Nat} {count : UInt32} {free : List PageId}

theorem wellFormed_of_rootOk {T : PageTree H} (hT : RootOk σ True T) (ho : T.Ordered Row.key none none)
    (hm : t.MetaRep σ T.rootId count free) (hl : Linked σ none T.leaves none) (hown : t.Owned count (T.ids ++ free)) :
    WellFormed t σ T count free := by
  refine wellFormed_iff.mpr ⟨Sound.of_ok hm hT.ok ho hl hown, ?_⟩
  cases H with
  | zero => trivial
  | succ H => exact fun kid hkid => (hT.2 kid hkid).nonempty

theorem Mending.wellFormed {c : PageCtx H h} {T : PageTree h} (hm : Mending t σ c T count free) (hT : Ok σ True T) :
    WellFormed t σ (c.plug T) count free :=
  wellFormed_of_rootOk (Ok.rootOk ((Ctx.all_plug c T).mpr ⟨hm.ctx, hT⟩)) hm.ordered hm.root hm.links hm.owned

/-! ## Neighbours -/

/-- A leaf's right neighbour taken out. -/
theorem Linked.unsplit {X Y : List PageId} {l r : PageId} {rows : List Row} {lsn : PageLsn}
    (h : Linked σ none (X ++ l :: r :: Y) none) (hnd : (X ++ l :: r :: Y).Nodup)
    (hl : σ'.page l = some ⟨l, lsn, .leaf rows (firstOr Y none) (lastOr none X)⟩)
    (hr : Relinks σ Y.head? l σ') (he : ∀ x ∈ X ++ Y, some x ≠ Y.head? → σ'.page x = σ.page x) :
    Linked σ' none (X ++ l :: Y) none := by
  obtain ⟨hX, -, -, hY⟩ := linked_mid.mp h
  obtain ⟨-, hnd₂, hdis⟩ := List.nodup_append.mp hnd
  obtain ⟨-, hnd₃⟩ := List.nodup_cons.mp hnd₂
  refine linked_mid.mpr ⟨hX.congr_eq fun x hx => he x (by simp [hx]) fun hhead => ?_, ⟨lsn, rows, hl⟩, ?_⟩
  · have hmem := List.mem_of_mem_head? hhead.symm
    exact hdis x hx x (by simp [hmem]) rfl
  · exact hY.relink (List.nodup_cons.mp hnd₃).2 hr fun x hx hne => he x (by simp [hx]) hne

section
variable {up : PageCtx H (h + 1)} {id : PageId} {a b ks : List Key} {ca cb : List (PageTree h)} {l r : PageTree h}
    {sep : Key}

theorem rows_pair (l r : PageTree h) : (up.plug (Tree.inner id ks (ca ++ l :: r :: cb))).rows =
    (up.cellsBefore.flatMap Prod.snd ++ ca.flatMap Tree.rows) ++
      (l.rows ++ r.rows ++ (cb.flatMap Tree.rows ++ up.cellsAfter.flatMap Prod.snd)) := by
  rw [rows_plug]
  simp

theorem leaves_pair (l r : PageTree h) : (up.plug (Tree.inner id ks (ca ++ l :: r :: cb))).leaves =
    (up.cellsBefore.map Prod.fst ++ ca.flatMap Tree.leaves) ++
      (l.leaves ++ r.leaves ++ (cb.flatMap Tree.leaves ++ up.cellsAfter.map Prod.fst)) := by
  rw [leaves_plug]
  simp

theorem rows_one (m : PageTree h) : (up.plug (Tree.inner id ks (ca ++ m :: cb))).rows =
    (up.cellsBefore.flatMap Prod.snd ++ ca.flatMap Tree.rows) ++
      (m.rows ++ (cb.flatMap Tree.rows ++ up.cellsAfter.flatMap Prod.snd)) := by
  rw [rows_plug]
  simp

theorem ids_one (m : PageTree h) : (up.plug (Tree.inner id ks (ca ++ m :: cb))).ids.Perm
    (id :: (ca.flatMap Tree.ids ++ cb.flatMap Tree.ids ++ up.ids ++ m.ids)) := by
  refine (Ctx.ids_plug up _).trans ?_
  rw [List.perm_iff_count]
  intro x
  simp only [Tree.ids_inner, List.flatMap_append, List.flatMap_cons, List.count_append, List.count_cons]
  omega

theorem ids_pair (l r : PageTree h) : (up.plug (Tree.inner id ks (ca ++ l :: r :: cb))).ids.Perm
    (id :: (ca.flatMap Tree.ids ++ cb.flatMap Tree.ids ++ up.ids ++ (l.ids ++ r.ids))) :=
  (Ctx.ids_plug up _).trans (perm_pair id ks)

theorem ids_joined (l r : PageTree h) : (up.plug (Tree.inner id (a ++ sep :: b) (ca ++ l :: r :: cb))).ids.Perm
    (r.rootId :: (up.plug (Tree.inner id (a ++ b) (ca ++ l.join sep r :: cb))).ids) := by
  refine (ids_pair l r).trans (List.Perm.trans ?_ ((ids_one (l.join sep r)).symm.cons r.rootId))
  refine List.Perm.trans ?_ (List.Perm.swap _ _ _)
  exact (((Tree.ids_join l r sep).append_left _).trans List.perm_middle).cons id

namespace Pair

/-- The leaves of the whole tree. -/
theorem leaves (hp : Pair t σ up id a b ca cb l r sep count free) :
    let c : PageCtx H h := Ctx.down up id a b ca cb hp.aligned
    (up.plug (Tree.inner id (a ++ sep :: b) (ca ++ l :: r :: cb))).leaves =
      c.cellsBefore.map Prod.fst ++ (l.leaves ++ (r.leaves ++ c.cellsAfter.map Prod.fst)) := by
  intro c
  rw [leaves_plug]
  simp [c, Ctx.cellsBefore, Ctx.cellsAfter, List.map_flatMap, Tree.map_cells]

section
variable {id₁ id₂ : PageId} {rs ds : List Row} {up : PageCtx H 1} {ca cb : List (PageTree 0)}

/-- The pages of two neighbouring leaves. -/
theorem leafPages (hp : Pair t σ up id a b ca cb (Tree.leaf id₁ rs) (Tree.leaf id₂ ds) sep count free) :
    let c : PageCtx H 0 := Ctx.down up id a b ca cb hp.aligned
    ∃ lsn lsn', σ.page id₁ = some ⟨id₁, lsn, .leaf rs (some id₂) (lastOr none (c.cellsBefore.map Prod.fst))⟩ ∧
      σ.page id₂ = some ⟨id₂, lsn', .leaf ds (firstOr (c.cellsAfter.map Prod.fst) none) (some id₁)⟩ := by
  intro c
  have hl := hp.links
  rw [hp.leaves] at hl
  obtain ⟨-, ⟨lsn, rows, hp₁⟩, ⟨lsn', rows', hp₂⟩, -⟩ := linked_mid.mp hl
  obtain ⟨⟨_, _, _, h₁⟩, -⟩ := hp.left
  obtain ⟨⟨_, _, _, h₂⟩, -⟩ := hp.right
  refine ⟨lsn, lsn', ?_, ?_⟩
  · cases hp₁.symm.trans h₁
    exact hp₁
  · cases hp₂.symm.trans h₂
    exact hp₂

/-- The leaves beside two neighbouring ones: leaves of the table, and none of the pages at hand. -/
theorem leafBeside (hp : Pair t σ up id a b ca cb (Tree.leaf id₁ rs) (Tree.leaf id₂ ds) sep count free) :
    let c : PageCtx H 0 := Ctx.down up id a b ca cb hp.aligned
    ∀ x ∈ c.cellsBefore.map Prod.fst ++ c.cellsAfter.map Prod.fst,
      x ∈ (up.plug (Tree.inner id (a ++ sep :: b) (ca ++ Tree.leaf id₁ rs :: Tree.leaf id₂ ds :: cb))).ids ∧
        x ∉ [t.metaId, id, id₁, id₂] := by
  intro c x hx
  have hsub := Tree.leaves_sublist_ids (up.plug (Tree.inner id (a ++ sep :: b)
      (ca ++ Tree.leaf id₁ rs :: Tree.leaf id₂ ds :: cb)))
  have hnd := (List.nodup_append.mp hp.owned.nodup).1.sublist hsub
  have hlinks := hp.links
  rw [hp.leaves] at hsub hnd hlinks
  change (c.cellsBefore.map Prod.fst ++ id₁ :: id₂ :: c.cellsAfter.map Prod.fst).Nodup at hnd
  have hmem : x ∈ c.cellsBefore.map Prod.fst ++ ([id₁] ++ ([id₂] ++ c.cellsAfter.map Prod.fst)) := by
    rcases List.mem_append.mp hx with hx | hx
    · exact List.mem_append_left _ hx
    · simp [hx]
  obtain ⟨rows, hleaf⟩ := Linked.leaf hlinks hmem
  obtain ⟨-, hnd₂, hdis⟩ := List.nodup_append.mp hnd
  obtain ⟨hid₁, hnd₃⟩ := List.nodup_cons.mp hnd₂
  have hids := hsub.subset hmem
  simp only [List.mem_cons, List.not_mem_nil, or_false, not_or]
  refine ⟨hids, hp.owned.ne_meta (List.mem_append_left _ hids), fun he => hleaf.not_node (he ▸ hp.node), ?_, ?_⟩
  · rintro rfl
    rcases List.mem_append.mp hx with hx | hx
    · exact hdis x hx x (by simp) rfl
    · exact hid₁ (by simp [hx])
  · rintro rfl
    rcases List.mem_append.mp hx with hx | hx
    · exact hdis x hx x (by simp) rfl
    · exact (List.nodup_cons.mp hnd₃).1 hx

end

variable (hp : Pair t σ up id a b ca cb l r sep count free)
include hp

theorem nodup : (id :: (ca.flatMap Tree.ids ++ cb.flatMap Tree.ids ++ up.ids ++ (l.ids ++ r.ids))).Nodup :=
  (ids_pair l r).nodup_iff.mp (List.nodup_append.mp hp.owned.nodup).1

theorem orders : l.Ordered Row.key (lastOr (up.lo none) a) (some sep) ∧
    r.Ordered Row.key (some sep) (firstOr b (up.hi none)) ∧ Inside (lastOr (up.lo none) a) (firstOr b (up.hi none)) sep :=
  ((Ctx.ordered_plug up _).mp hp.ordered).2.pair hp.aligned

theorem root_ne : r.rootId ≠ l.rootId ∧ l.rootId ≠ id ∧ r.rootId ≠ id := by
  have hnd := hp.nodup
  have hl := Tree.rootId_mem_ids l
  have hr := Tree.rootId_mem_ids r
  obtain ⟨hid, hnd⟩ := List.nodup_cons.mp hnd
  have hlr := (List.nodup_append.mp (List.nodup_append.mp hnd).2.1).2.2
  exact ⟨fun he => hlr _ hl _ hr he.symm, fun he => hid (by simp [← he, hl]), fun he => hid (by simp [← he, hr])⟩

end Pair

end

/-! ## Merging -/

/-- What a merge of two neighbours gives: the page `left'`, the leaf `nx` that follows it from
    then on, and one subtree in the place of two. -/
structure Joins (t : Table) (σ : Store) {H h : Nat} (up : PageCtx H (h + 1)) (id : PageId) (a b : List Key)
    (ca cb : List (PageTree h)) (l r : PageTree h) (sep : Key) (pl pr left' : Page) (lsn : PageLsn) (nx : Option PageId) :
    Prop where
  merge : pl.mergeFromRight pr sep = (.ok r.rootId, left', ⟨r.rootId, lsn, .free none⟩)
  named : left'.pageId = l.rootId
  next : left'.isLeaf = true ∧ left'.next = .ok nx ∨ left'.isLeaf = false ∧ nx = none
  leaf : ∀ n, nx = some n → n ∈ (up.plug (Tree.inner id (a ++ sep :: b) (ca ++ l :: r :: cb))).ids ∧
    n ∉ [id, l.rootId, r.rootId] ∧ ∃ lsn rows nx' pv', σ.page n = some ⟨n, lsn, .leaf rows nx' pv'⟩
  whole : ∀ σ' : Store, σ'.page l.rootId = some left' → Relinks σ nx l.rootId σ' →
    (∀ x, x ∉ [t.metaId, id, l.rootId, r.rootId] → nx ≠ some x → σ'.page x = σ.page x) →
    Ok σ' True (l.join sep r) ∧ Linked σ' none (up.plug (Tree.inner id (a ++ b) (ca ++ l.join sep r :: cb))).leaves none

theorem Relinks.frameOff {ex : List PageId} {next : Option PageId} {new : PageId} (hr : Relinks σ next new σ')
    (hnext : ∀ n, next = some n → ∃ lsn rows nx pv, σ.page n = some ⟨n, lsn, .leaf rows nx pv⟩)
    (he : ∀ x, x ∉ ex → next ≠ some x → σ'.page x = σ.page x) : Frame σ σ' ex := by
  intro x hx
  by_cases hn : next = some x
  · obtain ⟨lsn, rows, nx, pv, hp⟩ := hnext x hn
    have hleaf : leafAt σ x rows := ⟨lsn, nx, pv, hp⟩
    refine ⟨fun rows' hl => ?_, fun ks cs hnode => absurd hnode hleaf.not_node⟩
    rw [hl.inj hleaf]
    exact ⟨lsn, nx, some new, hr x hn _ _ _ _ hp⟩
  · exact ⟨fun _ hl => hl.congr (he x hx hn), fun _ _ hnode => hnode.congr (he x hx hn)⟩

section
variable {id id₁ id₂ : PageId} {a b : List Key} {sep : Key} {pl pr : Page}

theorem Pair.joins_leaf {up : PageCtx H 1} {ca cb : List (PageTree 0)} {rs ds : List Row}
    (hp : Pair t σ up id a b ca cb (Tree.leaf id₁ rs) (Tree.leaf id₂ ds) sep count free) (hne : rs ++ ds ≠ [])
    (hpl : σ.page id₁ = some pl) (hpr : σ.page id₂ = some pr) (hcan : pl.canMergeWith pr sep = true) :
    ∃ left' lsn nx, Joins t σ up id a b ca cb (Tree.leaf id₁ rs) (Tree.leaf id₂ ds) sep pl pr left' lsn nx := by
  obtain ⟨lsn₁, lsn₂, hp₁, hp₂⟩ := hp.leafPages
  have hlinks := hp.links
  have hnd := (List.nodup_append.mp hp.owned.nodup).1.sublist (Tree.leaves_sublist_ids _)
  have hbeside := hp.leafBeside
  dsimp only at hbeside
  have hone := leaves_plug (Ctx.down up id a b ca cb hp.aligned) ((Tree.leaf id₁ rs : PageTree 0).join sep
      (Tree.leaf id₂ ds))
  rw [hp.leaves] at hlinks hnd
  obtain rfl : pl = _ := Option.some.inj (hpl.symm.trans hp₁)
  obtain rfl : pr = _ := Option.some.inj (hpr.symm.trans hp₂)
  generalize (Ctx.down up id a b ca cb hp.aligned).cellsBefore.map Prod.fst = A at *
  generalize (Ctx.down up id a b ca cb hp.aligned).cellsAfter.map Prod.fst = B at *
  have hvl : Page.LeafValid rs := hp.left.2
  have hvr : Page.LeafValid ds := hp.right.2
  obtain ⟨hol, hor, -⟩ := hp.orders
  have hlt : ∀ x ∈ rs, ∀ y ∈ ds, x.key < y.key := fun x hx y hy =>
    (((Tree.ordered_leaf.mp hol).2 x hx).2 sep rfl).trans_le (((Tree.ordered_leaf.mp hor).2 y hy).1 sep rfl)
  rw [Page.canMergeWith, Page.isInternal, if_neg Bool.false_ne_true, Page.leafCanMergeWith_leaf hvl.size,
    decide_eq_true_iff] at hcan
  have hhead : firstOr B none = B.head? := by cases B <;> rfl
  refine ⟨⟨id₁, lsn₁, .leaf (rs ++ ds) (firstOr B none) (lastOr none A)⟩, lsn₂, firstOr B none, {
    merge := Page.leafMergeFromRight_ok hvl hvr hlt hcan
    named := rfl
    next := Or.inl ⟨rfl, rfl⟩
    leaf := fun n hn => ?_
    whole := fun σ' hpage hrelink hframe => ⟨?_, ?_⟩ }⟩
  · rw [hhead] at hn
    have hmem := List.mem_of_mem_head? hn
    obtain ⟨hids, hnot⟩ := hbeside n (List.mem_append_right _ hmem)
    simp only [List.mem_cons, List.not_mem_nil, or_false, not_or] at hnot
    obtain ⟨-, -, -, hBlinks⟩ := linked_mid.mp hlinks
    rcases B with _ | ⟨m, B⟩
    · cases hn
    cases hn
    obtain ⟨⟨lsn, rows, hpage⟩, -⟩ := hBlinks
    exact ⟨hids, by simp [hnot], lsn, rows, _, _, hpage⟩
  · exact Tree.all_leaf.mpr ⟨⟨lsn₁, _, _, hpage⟩, Page.leafValid_append hvl hvr hlt hcan, fun _ => hne⟩
  · change (up.plug (Tree.inner id (a ++ b) (ca ++ _ :: cb))).leaves = A ++ id₁ :: B at hone
    rw [hone]
    rw [hhead] at hpage hrelink
    refine Linked.unsplit hlinks hnd (by rw [hhead]; exact hpage) hrelink fun x hx hxn => ?_
    exact hframe x (hbeside x hx).2 fun he => hxn (by rw [← hhead, he])

theorem keysValid_join {ks ks' : List Key} (h : Page.KeysValid ks) (h' : Page.KeysValid ks') (hsep : Page.KeyFits sep)
    (hl : ∀ x ∈ ks, x < sep) (hr : ∀ x ∈ ks', sep < x)
    (hfit : Page.keysSize ks + Page.internalEntrySize sep + Page.keysSize ks' ≤ internalUsable) :
    Page.KeysValid (ks ++ sep :: ks') where
  fits k hk := by
    rcases List.mem_append.mp hk with hk | hk
    · exact h.fits k hk
    · exact (List.mem_cons.mp hk).elim (fun he => he ▸ hsep) (h'.fits k)
  sorted := Page.pairwise_keys h h' hl hr
  size := by simp only [Page.keysSize_append, Page.keysSize_cons]; omega

section
variable {h : Nat} {up : PageCtx H (h + 1 + 1)} {ca cb : List (PageTree (h + 1))} {ks ks' : List Key}
    {ts ts' : List (PageTree h)}
  (hp : Pair t σ up id a b ca cb (Tree.inner id₁ ks ts) (Tree.inner id₂ ks' ts') sep count free)
include hp

/-- The pages below two neighbouring inner pages. -/
theorem Pair.below : ∀ x ∈ ts.flatMap Tree.ids ++ ts'.flatMap Tree.ids, x ∉ [t.metaId, id, id₁, id₂] := by
  intro x hx
  have howned := hp.owned.ne_meta (x := x) (List.mem_append_left _ ((ids_pair _ _).mem_iff.mpr (by
    rcases List.mem_append.mp hx with hx | hx <;> simp [hx])))
  have hnd := hp.nodup
  simp only [Tree.ids_inner] at hnd
  obtain ⟨hid, hnd⟩ := List.nodup_cons.mp hnd
  obtain ⟨-, hnd, -⟩ := List.nodup_append.mp hnd
  obtain ⟨hnl, hnr, hdis⟩ := List.nodup_append.mp hnd
  simp only [List.mem_cons, List.not_mem_nil, or_false, not_or]
  refine ⟨howned, ?_, ?_, ?_⟩
  · rintro rfl
    exact hid (by rcases List.mem_append.mp hx with hx | hx <;> simp [hx])
  · rintro rfl
    rcases List.mem_append.mp hx with hx | hx
    · exact (List.nodup_cons.mp hnl).1 hx
    · exact hdis x (by simp) x (by simp [hx]) rfl
  · rintro rfl
    rcases List.mem_append.mp hx with hx | hx
    · exact hdis x (by simp [hx]) x (by simp) rfl
    · exact (List.nodup_cons.mp hnr).1 hx

theorem Pair.kids_frame (hf : Frame σ σ' [t.metaId, id, id₁, id₂]) : ∀ kid ∈ ts ++ ts', Ok σ' True kid := by
  intro kid hkid
  have hok : Ok σ True kid := (List.mem_append.mp hkid).elim (hp.left.2 kid) (hp.right.2 kid)
  refine hok.frame hf fun x hx => hp.below x ?_
  rw [← List.flatMap_append]
  exact List.mem_flatMap.mpr ⟨kid, hkid, hx⟩

/-- No leaf is one of the pages at hand. -/
theorem Pair.links_frame (hframe : ∀ x, x ∉ [t.metaId, id, id₁, id₂] → σ'.page x = σ.page x) :
    Linked σ' none (up.plug (Tree.inner id (a ++ sep :: b) (ca ++ Tree.inner id₁ ks ts :: Tree.inner id₂ ks' ts' ::
    cb))).leaves
      none := by
  obtain ⟨⟨hn₁, -⟩, -⟩ := loose_inner.mp hp.left
  obtain ⟨⟨hn₂, -⟩, -⟩ := loose_inner.mp hp.right
  refine hp.links.congr_eq fun x hx => hframe x ?_
  obtain ⟨rows, hleaf⟩ := Linked.leaf hp.links hx
  have howned := hp.owned.ne_meta (x := x) (List.mem_append_left _ ((Tree.leaves_sublist_ids _).subset hx))
  simp only [List.mem_cons, List.not_mem_nil, or_false, not_or]
  exact ⟨howned, fun he => hleaf.not_node (he ▸ hp.node), fun he => hleaf.not_node (he ▸ hn₁),
    fun he => hleaf.not_node (he ▸ hn₂)⟩

theorem Pair.joins_inner (hpl : σ.page id₁ = some pl) (hpr : σ.page id₂ = some pr) (hcan : pl.canMergeWith pr sep = true) :
    ∃ left' lsn nx, Joins t σ up id a b ca cb (Tree.inner id₁ ks ts) (Tree.inner id₂ ks' ts') sep pl pr left' lsn nx := by
  obtain ⟨⟨⟨lsn₁, hp₁⟩, hvl⟩, -⟩ := loose_inner.mp hp.left
  obtain ⟨⟨⟨lsn₂, hp₂⟩, hvr⟩, -⟩ := loose_inner.mp hp.right
  obtain rfl : pl = _ := Option.some.inj (hpl.symm.trans hp₁)
  obtain rfl : pr = _ := Option.some.inj (hpr.symm.trans hp₂)
  obtain ⟨hol, hor, -⟩ := hp.orders
  have hlt : ∀ x ∈ ks, x < sep := fun x hx => ((Tree.ordered_inner.mp hol).2.1 x hx).2 sep rfl
  have hgt : ∀ x ∈ ks', sep < x := fun x hx => ((Tree.ordered_inner.mp hor).2.1 x hx).1 sep rfl
  rw [Page.canMergeWith, Page.isInternal, if_pos rfl, Page.internalCanMergeWith_internal hvl.size,
    decide_eq_true_iff] at hcan
  refine ⟨⟨id₁, lsn₁, .internal (ks ++ sep :: ks') (ts.map Tree.rootId ++ ts'.map Tree.rootId)⟩, lsn₂, none, {
    merge := Page.internalMergeFromRight_ok hvl hlt hgt hcan
    named := rfl
    next := Or.inr ⟨rfl, rfl⟩
    leaf := by rintro n ⟨⟩
    whole := fun σ' hpage hrelink hframe => ⟨?_, ?_⟩ }⟩
  · have hvalid := keysValid_join hvl hvr (hp.keys.fits sep (by simp)) hlt hgt hcan
    exact Tree.all_inner.mpr ⟨⟨⟨lsn₁, by rw [List.map_append]; exact hpage⟩, hvalid, by simp⟩,
      hp.kids_frame (Frame.of_eq fun x hx => hframe x hx (by simp))⟩
  · have hsame : (up.plug (Tree.inner id (a ++ b) (ca ++ (Tree.inner id₁ ks ts).join sep (Tree.inner id₂ ks' ts') ::
      cb))).leaves =
        (up.plug (Tree.inner id (a ++ sep :: b) (ca ++ Tree.inner id₁ ks ts :: Tree.inner id₂ ks' ts' :: cb))).leaves := by
      rw [leaves_plug, leaves_plug, Tree.join_inner]
      simp [List.flatMap_append]
    rw [hsame]
    exact hp.links_frame fun x hx => hframe x hx (by simp)

end

/-- Two neighbours one of which is whole and that fit one page are joined. -/
theorem Pair.joins : ∀ {h : Nat} {up : PageCtx H (h + 1)} {ca cb : List (PageTree h)} {l r : PageTree h},
    Pair t σ up id a b ca cb l r sep count free → (Ok σ True l ∨ Ok σ True r) → σ.page l.rootId = some pl →
    σ.page r.rootId = some pr → pl.canMergeWith pr sep = true →
    ∃ left' lsn nx, Joins t σ up id a b ca cb l r sep pl pr left' lsn nx
  | 0, _, _, _, l, r => l.casesZero fun _ rs => r.casesZero fun _ ds hp hok hpl hpr hcan => by
    refine hp.joins_leaf ?_ hpl hpr hcan
    rcases hok with hok | hok
    · have := (Tree.all_leaf.mp hok).2.2 trivial
      simp [this]
    · have := (Tree.all_leaf.mp hok).2.2 trivial
      simp [this]
  | _ + 1, _, _, _, l, r => l.casesSucc fun _ _ _ => r.casesSucc fun _ _ _ hp _ hpl hpr hcan =>
    hp.joins_inner hpl hpr hcan

/-- The table around two neighbours that were joined. -/
theorem Pair.merged {up : PageCtx H (h + 1)} {ca cb : List (PageTree h)} {l r : PageTree h} {left' : Page} {lsn : PageLsn}
    {nx : Option PageId} (hp : Pair t σ up id a b ca cb l r sep count free)
    (hj : Joins t σ up id a b ca cb l r sep pl pr left' lsn nx) (hleft : σ'.page l.rootId = some left')
    (hnode : nodeAt σ' id (a ++ b) ((ca ++ l :: cb).map Tree.rootId)) (hrelink : Relinks σ nx l.rootId σ')
    (hframe : ∀ x, x ∉ [t.metaId, id, l.rootId, r.rootId] → nx ≠ some x → σ'.page x = σ.page x)
    (hm : t.MetaRep σ' (up.rootOr id) count (r.rootId :: free)) :
    Mending t σ' up (Tree.inner id (a ++ b) (ca ++ l.join sep r :: cb)) count (r.rootId :: free) := by
  obtain ⟨hjoin, hlinks⟩ := hj.whole σ' hleft hrelink hframe
  have hf : Frame σ σ' [t.metaId, id, l.rootId, r.rootId] :=
    hrelink.frameOff (fun n hn => (hj.leaf n hn).2.2) hframe
  obtain ⟨hid, hnd⟩ := List.nodup_cons.mp hp.nodup
  obtain ⟨-, -, hdis⟩ := List.nodup_append.mp hnd
  have hex : ∀ x ∈ ca.flatMap Tree.ids ++ cb.flatMap Tree.ids ++ up.ids, x ∉ [t.metaId, id, l.rootId, r.rootId] := by
    intro x hx
    have howned := hp.owned.ne_meta (x := x) (List.mem_append_left _ ((ids_pair _ _).mem_iff.mpr
      (List.mem_cons_of_mem _ (List.mem_append_left _ hx))))
    simp only [List.mem_cons, List.not_mem_nil, or_false, not_or]
    refine ⟨howned, fun he => hid (by rw [← he]; exact List.mem_append_left _ hx), fun he => ?_, fun he => ?_⟩
    · exact hdis x hx _ (List.mem_append_left _ (Tree.rootId_mem_ids l)) he
    · exact hdis x hx _ (List.mem_append_right _ (Tree.rootId_mem_ids r)) he
  obtain ⟨hol, hor, hin⟩ := hp.orders
  refine {
    ctx := hp.above.frame hf fun x hx => hex x (List.mem_append_right _ hx)
    loose := loose_inner.mpr ⟨⟨by simpa using hnode, ?_⟩, fun kid hkid => ?_⟩
    ordered := Ctx.ordered_one hp.aligned hp.ordered (hol.join hor hin)
    root := by rw [Ctx.rootId_plug]; exact hm
    links := hlinks
    owned := hp.owned.perm ?_ }
  · exact hp.keys.sublist (List.Sublist.append_left (List.sublist_cons_self sep b) a)
  · have hkid' : kid = l.join sep r ∨ kid ∈ ca ++ cb := by
      rcases List.mem_append.mp hkid with hkid | hkid
      · exact Or.inr (List.mem_append_left _ hkid)
      · exact (List.mem_cons.mp hkid).imp_right (List.mem_append_right _)
    rcases hkid' with rfl | hkid'
    · exact hjoin
    · refine (hp.kids kid hkid').frame hf fun x hx => hex x (List.mem_append_left _ ?_)
      rw [← List.flatMap_append]
      exact List.mem_flatMap.mpr ⟨kid, hkid', hx⟩
  · exact List.perm_middle.trans ((ids_joined l r).symm.append_right free)

end

/-! ## The calls of a round -/

/-- The leaf `next` takes `new` for its left neighbour, whatever is held. -/
theorem exec_relink {next : Option PageId} {new : PageId}
    (hnext : ∀ n, next = some n → ∃ lsn rows nx pv, σ.page n = some ⟨n, lsn, .leaf rows nx pv⟩) :
    ∃ σ', Relinks σ next new σ' ∧ (∀ x, next ≠ some x → σ'.page x = σ.page x) ∧
      ∀ L, (∀ n, next = some n → n ∉ L) → ∃ tr, Exec (fixPrev next new) (.writing σ L) tr (.ok ()) (.writing σ' L) := by
  rcases next with _ | n
  · exact ⟨σ, by rintro n ⟨⟩, fun _ _ => rfl, fun _ _ => ⟨[], exec_pure _ _⟩⟩
  · obtain ⟨lsn, rows, nx, pv, hpage⟩ := hnext n rfl
    let p : Page := ⟨n, lsn, .leaf rows nx (some new)⟩
    have hset : Page.setPrev ⟨n, lsn, .leaf rows nx pv⟩ (some new) = (.ok (), p) := rfl
    refine ⟨σ.put p, ?_, fun x hx => Store.put_ne _ (p := p) fun he => hx (congrArg some he.symm), fun L hL => ?_⟩
    · rintro m ⟨⟩ lsn' rows' nx' pv' hm
      rw [hpage, Option.some.injEq, Page.mk.injEq, PageBody.leaf.injEq] at hm
      obtain ⟨-, rfl, rfl, rfl, -⟩ := hm
      exact Store.put_self _ p
    · have hchange := exec_change (σ := σ) (L := n :: L) (q := p) (a := ()) BTreeError.page (by simp [p])
      rw [← hset] at hchange
      have hdrop := exec_drop (ε := BTreeError) (σ := σ.put p) (by simp) (drop_head (hL n rfl))
      exact ⟨_, (exec_bpm (exec_fetchWrite hpage (hL n rfl))).bind (hchange.bind hdrop)⟩

/-- The two guards, whichever of the pages is the one at hand. -/
theorem exec_latchSiblings {node pl pr : Page} {sib : Sibling} {L : List PageId} (hpl : σ.page pl.pageId = some pl)
    (hpr : σ.page pr.pageId = some pr) (hne : pr.pageId ≠ pl.pageId) (hl : pl.pageId ∉ L) (hr : pr.pageId ∉ L)
    (hside : sib.side = .right ∧ node = pl ∧ sib.id = pr.pageId ∨ sib.side = .left ∧ node = pr ∧ sib.id = pl.pageId) :
    ∃ tr, Exec (latchSiblings node sib) (.writing σ (node.pageId :: L)) tr (.ok (pl, pr))
      (.writing σ (pr.pageId :: pl.pageId :: L)) := by
  obtain ⟨id, sep, side⟩ := sib
  rcases hside with ⟨rfl, rfl, rfl⟩ | ⟨rfl, rfl, rfl⟩
  · exact ⟨_, (exec_bpm (exec_fetchWrite hpr (by simpa using ⟨hne, hr⟩))).bind (exec_pure _ _)⟩
  · have hdrop := exec_drop (ε := BTreeError) (σ := σ) (by simp) (drop_head hr)
    exact ⟨_, hdrop.bind ((exec_bpm (exec_fetchWrite hpl hl)).bind ((exec_bpm (exec_fetchWrite hpr
      (by simpa using ⟨hne, hr⟩))).bind (exec_pure _ _)))⟩

section
variable {id : PageId} {a b : List Key} {ca cb : List (PageTree h)} {up : PageCtx H (h + 1)} {l r : PageTree h} {sep : Key}
  {pl pr node parent : Page} {sib : Sibling} {idx : Nat}

/-- The page at hand is one of the two neighbours, `sib` the other. -/
structure Sides (σ : Store) {h : Nat} (l r : PageTree h) (node pl pr : Page) (sib : Sibling) : Prop where
  left : σ.page l.rootId = some pl
  right : σ.page r.rootId = some pr
  side : sib.side = .right ∧ node = pl ∧ sib.id = pr.pageId ∨ sib.side = .left ∧ node = pr ∧ sib.id = pl.pageId

theorem Pair.nodup_path (hp : Pair t σ up id a b ca cb l r sep count free) : up.path.Nodup := by
  obtain ⟨-, hnd⟩ := List.nodup_cons.mp hp.nodup
  exact ((List.nodup_append.mp (List.nodup_append.mp hnd).1).2.1).sublist (Ctx.path_sublist up)

theorem Pair.not_held (hp : Pair t σ up id a b ca cb l r sep count free) {L : List PageId} (hL : L ⊆ up.path) :
    l.rootId ∉ id :: L ∧ r.rootId ∉ id :: L ∧ id ∉ L ∧ t.metaId ∉ L := by
  have hup : ∀ x ∈ L, x ∈ up.ids := fun x hx => (Ctx.path_sublist up).subset (hL hx)
  obtain ⟨hid, hnd⟩ := List.nodup_cons.mp hp.nodup
  obtain ⟨-, -, hdis⟩ := List.nodup_append.mp hnd
  obtain ⟨-, hlid, hrid⟩ := hp.root_ne
  refine ⟨?_, ?_, fun h => hid (by simp [hup _ h]), fun h => ?_⟩
  · simp only [List.mem_cons, not_or]
    exact ⟨hlid, fun h => hdis _ (by simp [hup _ h]) _ (List.mem_append_left _ (Tree.rootId_mem_ids l)) rfl⟩
  · simp only [List.mem_cons, not_or]
    exact ⟨hrid, fun h => hdis _ (by simp [hup _ h]) _ (List.mem_append_right _ (Tree.rootId_mem_ids r)) rfl⟩
  · exact hp.owned.ne_meta (List.mem_append_left _ ((ids_pair l r).mem_iff.mpr (by simp [hup _ h]))) rfl

/-- The ancestors' guards, all of them. -/
theorem exec_clearAll {anc : List Ancestor} (hnd : (anc.map fun q => q.1.pageId).Nodup) :
    ∃ tr, Exec (clear (anc.map Prod.fst)) (.writing σ (anc.map fun q => q.1.pageId)) tr (.ok ()) (.idle σ) := by
  have hids : (anc.map Prod.fst).map (·.pageId) = anc.map fun q => q.1.pageId := by rw [List.map_map]; rfl
  obtain ⟨tr, hexec, -⟩ := (@exec_clear σ [] (anc.map Prod.fst)) (by rwa [hids]) (by simp)
  rw [hids, List.append_nil] at hexec
  exact ⟨tr, hexec⟩

/-- A round that joins the two pages goes on at the page above them. -/
theorem Pair.exec_merge (hp : Pair t σ up id a b ca cb l r sib.separator count free) (hok : Ok σ True l ∨ Ok σ True r)
    (hs : Sides σ l r node pl pr sib) (hunder : node.isUnderfull = true) (hcan : pl.canMergeWith pr sib.separator = true)
    (hparent : σ.page id = some parent) (hpick : pickSibling parent idx = .ok (some sib)) :
    ∃ σ' parent', Mending t σ' up (Tree.inner id (a ++ b) (ca ++ l.join sib.separator r :: cb)) count (r.rootId :: free) ∧
      σ'.page id = some parent' ∧ parent' = { parent with body := .internal (a ++ b) ((ca ++ l :: cb).map Tree.rootId) } ∧
      (∀ x ∈ up.path, σ'.page x = σ.page x) ∧
      ∀ L, L ⊆ up.path → ∀ anc tr' res w', Exec (rebalance t anc parent') (.writing σ' (id :: L)) tr' res w' →
        ∃ tr, Exec (rebalance t ((parent, idx) :: anc) node) (.writing σ (node.pageId :: id :: L)) tr res w' := by
  obtain ⟨sid, sep, side⟩ := sib
  obtain ⟨left', lsn, nx, hj⟩ := hp.joins hok hs.left hs.right hcan
  obtain ⟨hrl, hlid, hrid⟩ := hp.root_ne
  obtain ⟨plsn, hnode⟩ := hp.node
  obtain rfl : parent = _ := Option.some.inj (hparent.symm.trans hnode)
  let rp : Page := ⟨r.rootId, lsn, .free none⟩
  let parent' : Page := ⟨id, plsn, .internal (a ++ b) ((ca ++ l :: cb).map Tree.rootId)⟩
  have hremove : Page.internalRemove ⟨id, plsn, .internal (a ++ sep :: b) ((ca ++ l :: r :: cb).map Tree.rootId)⟩ sep =
      (.ok (some (sep, r.rootId)), parent') := by
    have hfound := (@Page.internalRemove_found id plsn a b (ca.map Tree.rootId) (cb.map Tree.rootId) l.rootId r.rootId sep)
      hp.keys (by simpa using hp.aligned)
    simpa [parent'] using hfound
  -- the pages are written, the leaf after them linked, the page freed
  let σ₃ : Store := ((σ.put left').put rp).put parent'
  have hσ₃ : ∀ x, x ∉ [id, l.rootId, r.rootId] → σ₃.page x = σ.page x := by
    intro x hx
    simp only [List.mem_cons, List.not_mem_nil, or_false, not_or] at hx
    rw [Store.put_ne _ (p := parent') hx.1, Store.put_ne _ (p := rp) hx.2.2, Store.put_ne _ (by rw [hj.named]; exact hx.2.1)]
  have hleft₃ : σ₃.page l.rootId = some left' := by
    rw [Store.put_ne _ (p := parent') hlid, Store.put_ne _ (p := rp) hrl.symm]
    exact Store.put_same _ hj.named
  have hnot : ∀ {n}, nx = some n → n ∉ [id, l.rootId, r.rootId] := fun hn => (hj.leaf _ hn).2.1
  obtain ⟨σ₄, hrelink, hframe₄, hfix⟩ := (@exec_relink σ₃ nx l.rootId) fun n hn => by
    obtain ⟨-, hnot, lsn, rows, nx', pv', hpage⟩ := hj.leaf n hn
    exact ⟨lsn, rows, nx', pv', (hσ₃ n hnot).trans hpage⟩
  have hown : ∀ {x}, x ∈ (up.plug (Tree.inner id (a ++ sep :: b) (ca ++ l :: r :: cb))).ids → x ≠ t.metaId ∧ x ∉ free :=
    fun hx => ⟨hp.owned.ne_meta (List.mem_append_left _ hx), fun hf => (List.nodup_append.mp hp.owned.nodup).2.2 _ hx _
    hf rfl⟩
  have hmem : ∀ {x}, x ∈ [id, l.rootId, r.rootId] → x ∈ (up.plug (Tree.inner id (a ++ sep :: b)
      (ca ++ l :: r :: cb))).ids := by
    intro x hx
    simp only [List.mem_cons, List.not_mem_nil, or_false] at hx
    refine (ids_pair l r).mem_iff.mpr ?_
    have hl := Tree.rootId_mem_ids l
    have hr := Tree.rootId_mem_ids r
    rcases hx with rfl | rfl | rfl <;> simp [hl, hr]
  have hsame : ∀ x, x ∉ (up.plug (Tree.inner id (a ++ sep :: b) (ca ++ l :: r :: cb))).ids → σ₄.page x = σ.page x :=
    fun x hx => (hframe₄ x fun he => hx (hj.leaf x he).1).trans (hσ₃ x fun h => hx (hmem h))
  have hm₄ : t.MetaRep σ₄ (up.rootOr id) count free :=
    hp.root.congr (hsame _ fun h => (hown h).1 rfl) fun x hx => hsame x fun h => (hown h).2 hx
  have hroot : (up.rootOr id).tableId = t.metaId.tableId := by
    refine hp.owned.table _ (List.mem_append_left _ ?_)
    have hmemRoot := Tree.rootId_mem_ids (up.plug (Tree.inner id (a ++ sep :: b) (ca ++ l :: r :: cb)))
    rwa [Ctx.rootId_plug] at hmemRoot
  obtain ⟨σ', hm', hframe', hfree⟩ := (@Table.exec_free t σ₄ (up.rootOr id) count free
    (up.plug (Tree.inner id (a ++ b) (ca ++ l.join sep r :: cb))).ids r.rootId lsn none) hm₄
    (hp.owned.perm ((ids_joined l r).symm.append_right free)) hroot
  have hkeep : ∀ x, x ∉ [t.metaId, id, l.rootId, r.rootId] → nx ≠ some x → σ'.page x = σ.page x := by
    intro x hx hn
    simp only [List.mem_cons, List.not_mem_nil, or_false, not_or] at hx
    rw [hframe' x hx.1 hx.2.2.2, hframe₄ x hn]
    exact hσ₃ x (by simp [hx])
  have hto : ∀ {x}, x ∈ [id, l.rootId] → σ'.page x = σ₃.page x := by
    intro x hx
    have hx₃ : x ∈ [id, l.rootId, r.rootId] := by
      simp only [List.mem_cons, List.not_mem_nil, or_false] at hx ⊢
      exact hx.imp_right Or.inl
    have hxr : x ≠ r.rootId := by
      simp only [List.mem_cons, List.not_mem_nil, or_false] at hx
      rcases hx with rfl | rfl
      · exact hrid.symm
      · exact hrl.symm
    rw [hframe' x (hown (hmem hx₃)).1 hxr, hframe₄ x fun he => hnot he hx₃]
  have hparent' : σ'.page id = some parent' := (hto (by simp)).trans (Store.put_self _ parent')
  have hrelink' : Relinks σ nx l.rootId σ' := by
    intro n hn lsn rows nx' pv' hpage
    have hn' := hnot hn
    simp only [List.mem_cons, List.not_mem_nil, or_false, not_or] at hn'
    rw [hframe' n (hown (hj.leaf n hn).1).1 hn'.2.2]
    exact hrelink n hn lsn rows nx' pv' ((hσ₃ n (hnot hn)).trans hpage)
  refine ⟨σ', parent', hp.merged hj ((hto (by simp)).trans hleft₃) ⟨plsn, hparent'⟩ hrelink' hkeep hm', hparent', rfl,
    fun x hx => ?_, fun L hL anc tr' res w' hk => ?_⟩
  · obtain ⟨ks, cs, hinner⟩ := path_node hp.above hx
    obtain ⟨hl, hr, hid, hm⟩ := hp.not_held (List.cons_subset.mpr ⟨hx, List.nil_subset _⟩)
    refine hkeep x ?_ fun hn => ?_
    · simp only [List.mem_cons, List.not_mem_nil, or_false, not_or] at hl hr hid hm ⊢
      exact ⟨fun h => hm h.symm, fun h => hid h.symm, fun h => hl.2 h.symm, fun h => hr.2 h.symm⟩
    · obtain ⟨-, -, lsn, rows, nx', pv', hpage⟩ := hj.leaf x hn
      exact leafAt.not_node ⟨lsn, nx', pv', hpage⟩ hinner
  · obtain ⟨hlL, hrL, hidL, hmL⟩ := hp.not_held hL
    have hplid := σ.named hs.left
    have hprid := σ.named hs.right
    obtain ⟨trl, hlatch⟩ := exec_latchSiblings (L := id :: L) (by rw [hplid]; exact hs.left) (by rw [hprid]; exact hs.right)
      (by rw [hplid, hprid]; exact hrl) (by rw [hplid]; exact hlL) (by rw [hprid]; exact hrL) hs.side
    rw [hplid, hprid] at hlatch
    have hmerge := (@exec_change₂ _ _ σ (r.rootId :: l.rootId :: id :: L) left' BTreeError.page r.rootId rp)
      (by simp [hj.named]) (by simp [rp])
    rw [← hj.merge] at hmerge
    have hchange := exec_change (σ := (σ.put left').put rp) (L := r.rootId :: l.rootId :: id :: L) (q := parent')
      (a := some (sep, r.rootId)) BTreeError.page (by simp [parent'])
    rw [← hremove] at hchange
    have hnextL : ∀ n, nx = some n → n ∉ r.rootId :: l.rootId :: id :: L := by
      intro n hn
      have hn' := hnot hn
      simp only [List.mem_cons, List.not_mem_nil, or_false, not_or] at hn' ⊢
      refine ⟨hn'.2.2, hn'.2.1, hn'.1, fun hmem => ?_⟩
      obtain ⟨ks, cs, hinner⟩ := path_node hp.above (hL hmem)
      obtain ⟨-, -, lsn, rows, nx', pv', hpage⟩ := hj.leaf n hn
      exact leafAt.not_node ⟨lsn, nx', pv', hpage⟩ hinner
    obtain ⟨trf, hfixed⟩ : ∃ tr, Exec (fixPrev nx left'.pageId) (.writing σ₃ (r.rootId :: l.rootId :: id :: L)) tr (.ok ())
        (.writing σ₄ (r.rootId :: l.rootId :: id :: L)) := by
      rw [hj.named]
      exact hfix _ hnextL
    have hheld : ∀ x ∈ r.rootId :: l.rootId :: id :: L,
        x ∈ r.rootId :: (up.plug (Tree.inner id (a ++ b) (ca ++ l.join sep r :: cb))).ids := by
      intro x hx
      refine (ids_joined l r).mem_iff.mp ?_
      rcases List.mem_append.mp (show x ∈ [r.rootId, l.rootId, id] ++ L from hx) with hx | hx
      · exact hmem (by simp only [List.mem_cons, List.not_mem_nil, or_false] at hx ⊢; tauto)
      · exact (ids_pair l r).mem_iff.mpr (by simp [(Ctx.path_sublist up).subset (hL hx)])
    obtain ⟨trr, hfreed⟩ := hfree _ (l.rootId :: id :: L) hheld (by simp)
      (drop_head (List.not_mem_cons_of_ne_of_not_mem hrl hrL))
    have hdrop : Exec (drop left'.pageId : BT Unit) (.writing σ' (l.rootId :: id :: L)) [.writing σ' (id :: L)] (.ok ())
        (.writing σ' (id :: L)) := by
      rw [hj.named]
      exact exec_drop (by simp) (drop_head hlL)
    have hpicked : Exec (Call.page BTreeError.page
        (pickSibling ⟨id, plsn, .internal (a ++ sep :: b) ((ca ++ l :: r :: cb).map Tree.rootId)⟩ idx))
        (.writing σ (node.pageId :: id :: L)) [] (.ok (some ⟨sid, sep, side⟩)) (.writing σ (node.pageId :: id :: L)) := by
      rw [hpick]
      exact exec_pure _ _
    obtain ⟨trt, htail⟩ : ∃ tr, Exec (do
        expect (t.free rp)
        drop left'.pageId
        rebalance t anc parent') (.writing σ₄ (r.rootId :: l.rootId :: id :: L)) tr res w' :=
      ⟨_, hfreed.expect_ok.bind (hdrop.bind hk)⟩
    rw [rebalance, if_pos hunder]
    rcases hj.next with ⟨hleaf, hnx⟩ | ⟨hleaf, rfl⟩
    · have hnext : Exec (Call.page BTreeError.page left'.next) (.writing σ₃ (r.rootId :: l.rootId :: id :: L)) [] (.ok nx)
          (.writing σ₃ (r.rootId :: l.rootId :: id :: L)) := by
        rw [hnx]
        exact exec_pure _ _
      exact ⟨_, hpicked.bind (hlatch.bind (Exec.ite_pos hcan (hmerge.bind (hchange.bind
        (Exec.ite_pos hleaf (hnext.bind (hfixed.bind htail)))))))⟩
    · -- no leaf to link: nothing changed
      obtain ⟨-, -, hworld⟩ := hfixed.unique (exec_pure () _)
      rw [hworld] at htail
      exact ⟨_, hpicked.bind (hlatch.bind (Exec.ite_pos hcan (hmerge.bind (hchange.bind
        (Exec.ite_neg (by rw [hleaf]; exact Bool.false_ne_true) htail)))))⟩

end

end

end BTree

end RustDb
