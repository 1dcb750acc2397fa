/-
  RustDb.BTree.Borrow — a round of `BTree::rebalance` that borrows: two neighbours that do not
  fit one page share their entries out again.

  The new separator lies between its neighbours (`Pair.between`), and with it the table is
  whole (`Pair.shared`). It may be longer than the one it replaces: then the page above may
  not take it, and the round fails with `PageFull` (`Pair.exec_share`).
-/

import RustDb.BTree.Merge

namespace RustDb

open Lib.SearchTree Call

namespace BTree

section
variable {t : Table} {σ σ' : Store} {H h : Nat} {count : UInt32} {free : List PageId}

/-! ## Borrowing -/

/-- The bulk borrow into whichever neighbour is underfull. -/
theorem borrowSiblings_rebalanced {left right : Page} {sib : Sibling} (hl : left.checkInvariants = .ok ())
    (hr : right.checkInvariants = .ok ()) (hs : Page.Siblings left sib.separator right)
    (hcan : left.canMergeWith right sib.separator = false)
    (hside : sib.side = .right ∧ left.isUnderfull = true ∨ sib.side = .left ∧ right.isUnderfull = true) :
    ∃ sep' left' right', borrowSiblings left right sib = (.ok sep', left', right') ∧
      Page.Rebalanced left right sib.separator left' right' sep' := by
  obtain ⟨sid, sep, side⟩ := sib
  rcases hside with ⟨rfl, hunder⟩ | ⟨rfl, hunder⟩
  · exact Page.bulkBorrowFromRight_siblings hl hr hs hcan hunder
  · obtain ⟨sep', left', right', he, hreb⟩ := Page.bulkBorrowFromLeft_siblings hl hr hs hcan hunder
    exact ⟨sep', left', right', by simp only [borrowSiblings, he], hreb⟩

/-- Between leaves the new separator is the key of a row. -/
theorem borrowSiblings_leaf_key {id₁ id₂ : PageId} {lsn lsn' : PageLsn} {rs ds : List Row} {pv nx : Option PageId}
    {sib : Sibling}
    {sep' : Key} {left' right' : Page} (hrs : Page.LeafValid rs) (hds : Page.LeafValid ds)
    (hlt : ∀ x ∈ rs, ∀ y ∈ ds, x.key < y.key)
    (hcan : Page.canMergeWith ⟨id₁, lsn, .leaf rs (some id₂) pv⟩ ⟨id₂, lsn', .leaf ds nx (some id₁)⟩ sib.separator = false)
    (hside : sib.side = .right ∧ Page.isUnderfull ⟨id₁, lsn, .leaf rs (some id₂) pv⟩ = true ∨
      sib.side = .left ∧ Page.isUnderfull ⟨id₂, lsn', .leaf ds nx (some id₁)⟩ = true)
    (he : borrowSiblings ⟨id₁, lsn, .leaf rs (some id₂) pv⟩ ⟨id₂, lsn', .leaf ds nx (some id₁)⟩ sib =
      (.ok sep', left', right')) : ∃ d ∈ rs ++ ds, sep' = d.key := by
  obtain ⟨sid, sep, side⟩ := sib
  rw [Page.canMergeWith, Page.isInternal, if_neg Bool.false_ne_true, Page.leafCanMergeWith_leaf hrs.size,
    decide_eq_false_iff_not] at hcan
  rcases hside with ⟨rfl, hunder⟩ | ⟨rfl, hunder⟩
  · obtain ⟨a, d, b, rfl, -, -, -, hd⟩ :=
      Page.bulkBorrowFromRight_leaf hrs hds hlt (of_decide_eq_true hunder) (Nat.not_le.mp hcan)
    have hkey := congrArg Prod.fst (hd.symm.trans he)
    simp only [Except.ok.injEq] at hkey
    exact ⟨d, by simp, hkey.symm⟩
  · obtain ⟨b, d, a, rfl, -, -, -, hd⟩ :=
      Page.bulkBorrowFromLeft_leaf hds hrs hlt (of_decide_eq_true hunder) (by omega)
    simp only [borrowSiblings] at he
    rw [hd] at he
    have hkey := congrArg Prod.fst he
    simp only [Except.ok.injEq] at hkey
    exact ⟨d, by simp, hkey.symm⟩

section
variable {id : PageId} {a b : List Key} {sep : Key} {pl pr : Page}

theorem Pair.siblings : ∀ {h : Nat} {up : PageCtx H (h + 1)} {ca cb : List (PageTree h)} {l r : PageTree h},
    Pair t σ up id a b ca cb l r sep count free → σ.page l.rootId = some pl → σ.page r.rootId = some pr →
    Page.Siblings pl sep pr
  | 0, _, _, _, l, r => l.casesZero fun _ rs => r.casesZero fun _ ds hp hpl hpr => by
    obtain ⟨lsn₁, lsn₂, hp₁, hp₂⟩ := hp.leafPages
    obtain rfl : pl = _ := Option.some.inj (hpl.symm.trans hp₁)
    obtain rfl : pr = _ := Option.some.inj (hpr.symm.trans hp₂)
    obtain ⟨hol, hor, -⟩ := hp.orders
    exact .leaf fun x hx y hy =>
      (((Tree.ordered_leaf.mp hol).2 x hx).2 sep rfl).trans_le (((Tree.ordered_leaf.mp hor).2 y hy).1 sep rfl)
  | _ + 1, _, _, _, l, r => l.casesSucc fun _ _ _ => r.casesSucc fun _ _ _ hp hpl hpr => by
    obtain ⟨⟨⟨_, hp₁⟩, -⟩, -⟩ := loose_inner.mp hp.left
    obtain ⟨⟨⟨_, hp₂⟩, -⟩, -⟩ := loose_inner.mp hp.right
    obtain rfl : pl = _ := Option.some.inj (hpl.symm.trans hp₁)
    obtain rfl : pr = _ := Option.some.inj (hpr.symm.trans hp₂)
    obtain ⟨hol, hor, -⟩ := hp.orders
    exact .internal (hp.keys.fits sep (by simp)) (fun x hx => ((Tree.ordered_inner.mp hol).2.1 x hx).2 sep rfl)
      fun x hx => ((Tree.ordered_inner.mp hor).2.1 x hx).1 sep rfl

end

/-- The keys of the rows and of the inner pages satisfy `P`. -/
def Keyed (P : Key → Prop) {h : Nat} (T : PageTree h) : Prop :=
  T.All (fun _ rows => ∀ r ∈ rows, P r.key) (fun _ keys _ => ∀ k ∈ keys, P k)

/-- What sharing the entries of two neighbours out again gives: the pages, the separator, and
    the subtrees that take the places of the two. -/
structure Shares (t : Table) (σ : Store) {H h : Nat} (up : PageCtx H (h + 1)) (id : PageId) (a b : List Key)
    (ca cb : List (PageTree h)) (l r : PageTree h) (sep : Key) (pl pr : Page) (sib : Sibling) (l' r' : PageTree h)
    (sep' : Key)
    (left' right' : Page) : Prop where
  borrow : borrowSiblings pl pr sib = (.ok sep', left', right')
  leftNamed : left'.pageId = l.rootId ∧ l'.rootId = l.rootId
  rightNamed : right'.pageId = r.rootId ∧ r'.rootId = r.rootId
  leftOrdered : l'.Ordered Row.key (lastOr (up.lo none) a) (some sep')
  rightOrdered : r'.Ordered Row.key (some sep') (firstOr b (up.hi none))
  inside : Inside (lastOr (up.lo none) a) (firstOr b (up.hi none)) sep'
  fits : Page.KeyFits sep'
  keyed : ∀ P : Key → Prop, Keyed P l → Keyed P r → P sep → P sep'
  rows : l'.rows ++ r'.rows = l.rows ++ r.rows
  ids : (l'.ids ++ r'.ids).Perm (l.ids ++ r.ids)
  whole : ∀ σ' : Store, σ'.page l.rootId = some left' → σ'.page r.rootId = some right' →
    (∀ x, x ∉ [id, l.rootId, r.rootId] → σ'.page x = σ.page x) → Ok σ' True l' ∧ Ok σ' True r' ∧
      Linked σ' none (up.plug (Tree.inner id (a ++ sep' :: b) (ca ++ l' :: r' :: cb))).leaves none

section
variable {id id₁ id₂ : PageId} {a b : List Key} {sep : Key} {pl pr : Page} {sib : Sibling}

theorem Pair.shares_leaf {up : PageCtx H 1} {ca cb : List (PageTree 0)} {rs ds : List Row}
    (hp : Pair t σ up id a b ca cb (Tree.leaf id₁ rs) (Tree.leaf id₂ ds) sib.separator count free)
    (hpl : σ.page id₁ = some pl) (hpr : σ.page id₂ = some pr) (hcan : pl.canMergeWith pr sib.separator = false)
    (hside : sib.side = .right ∧ pl.isUnderfull = true ∨ sib.side = .left ∧ pr.isUnderfull = true) :
    ∃ l' r' sep' left' right', Shares t σ up id a b ca cb (Tree.leaf id₁ rs) (Tree.leaf id₂ ds) sib.separator pl pr sib l' r'
      sep' left' right' := by
  have hs := hp.siblings hpl hpr
  obtain ⟨lsn₁, lsn₂, hp₁, hp₂⟩ := hp.leafPages
  have hlinks := hp.links
  have hbeside := hp.leafBeside
  dsimp only at hbeside
  have hleaves := hp.leaves
  rw [hp.leaves] at hlinks
  obtain rfl : pl = _ := Option.some.inj (hpl.symm.trans hp₁)
  obtain rfl : pr = _ := Option.some.inj (hpr.symm.trans hp₂)
  generalize hA : (Ctx.down up id a b ca cb hp.aligned).cellsBefore.map Prod.fst = A at *
  generalize hB : (Ctx.down up id a b ca cb hp.aligned).cellsAfter.map Prod.fst = B at *
  obtain ⟨-, hvl⟩ := loose_leaf.mp hp.left
  obtain ⟨-, hvr⟩ := loose_leaf.mp hp.right
  obtain ⟨hol, hor, hin⟩ := hp.orders
  have hlt : ∀ x ∈ rs, ∀ y ∈ ds, x.key < y.key := fun x hx y hy =>
    (((Tree.ordered_leaf.mp hol).2 x hx).2 _ rfl).trans_le (((Tree.ordered_leaf.mp hor).2 y hy).1 _ rfl)
  obtain ⟨sep', left', right', he, hreb⟩ := borrowSiblings_rebalanced (hp.left.passes hol hpl)
    (hp.right.passes hor hpr) hs hcan hside
  obtain ⟨d, hd, hkey⟩ := borrowSiblings_leaf_key hvl hvr hlt hcan hside he
  obtain ⟨hcl, hcr, hnl, hnr, hmoved⟩ := hreb
  cases hmoved with
  | internal hleft => cases hleft
  | @leaf _ _ rs' ds' _ _ _ _ _ hleft hright hrows hl hr =>
    cases hleft
    cases hright
    have hvl' : Page.LeafValid rs' := (Page.checkInvariants_iff _).mp hcl
    have hvr' : Page.LeafValid ds' := (Page.checkInvariants_iff _).mp hcr
    have hne : rs' ≠ [] := List.length_pos_iff.mp hnl
    have hne' : ds' ≠ [] := List.length_pos_iff.mp hnr
    have hjoin := hol.join hor hin
    rw [Tree.join_leaf, ← hrows] at hjoin
    obtain ⟨hol', hor', hin'⟩ := @Tree.Ordered.cutLeaf _ _ _ _ _ _ _ _ _ id₁ id₂ _ _ hjoin hne hne' hl hr
    refine ⟨Tree.leaf id₁ rs', Tree.leaf id₂ ds', sep', _, _, {
      borrow := he
      leftNamed := ⟨rfl, rfl⟩
      rightNamed := ⟨rfl, rfl⟩
      leftOrdered := hol'
      rightOrdered := hor'
      inside := hin'
      fits := ?_
      keyed := fun P hPl hPr _ => ?_
      rows := hrows
      ids := List.Perm.refl _
      whole := fun σ' hpage hpage' hframe => ⟨?_, ?_, ?_⟩ }⟩
    · rw [hkey]
      exact (List.mem_append.mp hd).elim (fun hd => (hvl.rows d hd).key) fun hd => (hvr.rows d hd).key
    · rw [hkey]
      exact (List.mem_append.mp hd).elim (Tree.all_leaf.mp hPl d) (Tree.all_leaf.mp hPr d)
    · exact Tree.all_leaf.mpr ⟨⟨_, _, _, hpage⟩, hvl', fun _ => hne⟩
    · exact Tree.all_leaf.mpr ⟨⟨_, _, _, hpage'⟩, hvr', fun _ => hne'⟩
    · have hsame : (up.plug (Tree.inner id (a ++ sep' :: b) (ca ++ Tree.leaf id₁ rs' :: Tree.leaf id₂ ds' :: cb))).leaves =
          A ++ ([id₁] ++ ([id₂] ++ B)) := by
        rw [leaves_plug, ← hA, ← hB]
        simp [Ctx.cellsBefore, Ctx.cellsAfter, List.map_flatMap, Tree.map_cells]
      rw [hsame]
      refine hlinks.congr fun x hx lsn rows nx pv hx' => ?_
      by_cases hx₁ : x = id₁
      · subst hx₁
        cases hx'.symm.trans hpl
        exact ⟨_, _, hpage⟩
      by_cases hx₂ : x = id₂
      · subst hx₂
        cases hx'.symm.trans hpr
        exact ⟨_, _, hpage'⟩
      refine ⟨lsn, rows, (hframe x ?_).trans hx'⟩
      have hmem : x ∈ A ++ B := by
        simp only [List.mem_append, Tree.leaves_leaf, List.mem_singleton] at hx ⊢
        tauto
      have hnot := (hbeside x hmem).2
      simp only [List.mem_cons, not_or] at hnot ⊢
      exact hnot.2

theorem Pair.shares_inner {h : Nat} {up : PageCtx H (h + 1 + 1)} {ca cb : List (PageTree (h + 1))} {ks ks' : List Key}
    {ts ts' : List (PageTree h)}
    (hp : Pair t σ up id a b ca cb (Tree.inner id₁ ks ts) (Tree.inner id₂ ks' ts') sib.separator count free)
    (hpl : σ.page id₁ = some pl) (hpr : σ.page id₂ = some pr) (hcan : pl.canMergeWith pr sib.separator = false)
    (hside : sib.side = .right ∧ pl.isUnderfull = true ∨ sib.side = .left ∧ pr.isUnderfull = true) :
    ∃ l' r' sep' left' right', Shares t σ up id a b ca cb (Tree.inner id₁ ks ts) (Tree.inner id₂ ks' ts') sib.separator pl pr
      sib l' r' sep' left' right' := by
  obtain ⟨hol, hor, hin⟩ := hp.orders
  obtain ⟨sep', left', right', he, hcl, hcr, hnl, hnr, hmoved⟩ := borrowSiblings_rebalanced (hp.left.passes hol hpl)
    (hp.right.passes hor hpr) (hp.siblings hpl hpr) hcan hside
  obtain ⟨⟨⟨lsn₁, hp₁⟩, hvl⟩, -⟩ := loose_inner.mp hp.left
  obtain ⟨⟨⟨lsn₂, hp₂⟩, hvr⟩, -⟩ := loose_inner.mp hp.right
  obtain rfl : pl = _ := Option.some.inj (hpl.symm.trans hp₁)
  obtain rfl : pr = _ := Option.some.inj (hpr.symm.trans hp₂)
  cases hmoved with
  | leaf hleft => cases hleft
  | @internal _ _ v w _ _ cs' es' _ hleft hright hkeys hkids hl hr =>
    cases hleft
    cases hright
    rw [← List.map_append] at hkids
    obtain ⟨K₁, K₂, hK, rfl, rfl⟩ := List.map_eq_append_iff.mp hkids.symm
    obtain ⟨hlen, hvl'⟩ : (K₁.map Tree.rootId).length = v.length + 1 ∧ Page.KeysValid v :=
        (Page.checkInvariants_iff _).mp hcl
    obtain ⟨-, hvr'⟩ : (K₂.map Tree.rootId).length = w.length + 1 ∧ Page.KeysValid w := (Page.checkInvariants_iff _).mp hcr
    have hjoin := hol.join hor hin
    rw [Tree.join_inner, ← hkeys, hK] at hjoin
    obtain ⟨hol', hor', hin'⟩ := @Tree.Ordered.cut _ _ _ _ _ _ _ id₁ id₂ _ _ _ _ _ _ _ hjoin (by simpa using hlen)
    have hfrom : ∀ P : Key → Prop, (∀ k ∈ ks, P k) → (∀ k ∈ ks', P k) → P sib.separator → P sep' := by
      intro P hPl hPr hP
      have hmem : sep' ∈ ks ++ sib.separator :: ks' := by rw [← hkeys]; simp
      rcases List.mem_append.mp hmem with hmem | hmem
      · exact hPl _ hmem
      · exact (List.mem_cons.mp hmem).elim (fun he => he ▸ hP) (hPr _)
    have hids : ∀ f : PageTree h → List PageId, K₁.flatMap f ++ K₂.flatMap f = ts.flatMap f ++ ts'.flatMap f := fun f => by
      rw [← List.flatMap_append, ← List.flatMap_append, hK]
    refine ⟨Tree.inner id₁ v K₁, Tree.inner id₂ w K₂, sep', _, _, {
      borrow := he
      leftNamed := ⟨rfl, rfl⟩
      rightNamed := ⟨rfl, rfl⟩
      leftOrdered := hol'
      rightOrdered := hor'
      inside := hin'
      fits := hfrom _ hvl.fits hvr.fits (hp.keys.fits _ (by simp))
      keyed := fun P hPl hPr hP => hfrom P (Tree.all_inner.mp hPl).1 (Tree.all_inner.mp hPr).1 hP
      rows := ?_
      ids := ?_
      whole := fun σ' hpage hpage' hframe => ?_ }⟩
    · simp only [Tree.rows_inner]
      rw [← List.flatMap_append, ← List.flatMap_append, hK]
    · rw [List.perm_iff_count]
      intro x
      have hcount := congrArg (List.count x) (hids Tree.ids)
      simp only [List.count_append] at hcount
      simp only [Tree.ids_inner, List.count_append, List.count_cons]
      omega
    · have hframe' : ∀ x, x ∉ [t.metaId, id, id₁, id₂] → σ'.page x = σ.page x := fun x hx =>
        hframe x fun h => hx (List.mem_cons_of_mem _ h)
      have hkid := hp.kids_frame (Frame.of_eq hframe')
      rw [hK] at hkid
      refine ⟨Tree.all_inner.mpr ⟨⟨⟨_, hpage⟩, hvl', List.length_pos_iff.mp hnl⟩, fun kid hk => hkid kid
          (List.mem_append_left _ hk)⟩,
        Tree.all_inner.mpr ⟨⟨⟨_, hpage'⟩, hvr', List.length_pos_iff.mp hnr⟩, fun kid hk => hkid kid
        (List.mem_append_right _ hk)⟩, ?_⟩
      have hsame : (up.plug (Tree.inner id (a ++ sep' :: b) (ca ++ Tree.inner id₁ v K₁ :: Tree.inner id₂ w K₂ ::
          cb))).leaves =
          (up.plug (Tree.inner id (a ++ sib.separator :: b) (ca ++ Tree.inner id₁ ks ts :: Tree.inner id₂ ks' ts' ::
          cb))).leaves := by
        rw [leaves_pair, leaves_pair]
        simp only [Tree.leaves_inner, hids]
      rw [hsame]
      exact hp.links_frame hframe'

/-- Two neighbours one of which is underfull and that do not fit one page share their entries. -/
theorem Pair.shares : ∀ {h : Nat} {up : PageCtx H (h + 1)} {ca cb : List (PageTree h)} {l r : PageTree h},
    Pair t σ up id a b ca cb l r sib.separator count free → σ.page l.rootId = some pl → σ.page r.rootId = some pr →
    pl.canMergeWith pr sib.separator = false →
    (sib.side = .right ∧ pl.isUnderfull = true ∨ sib.side = .left ∧ pr.isUnderfull = true) →
    ∃ l' r' sep' left' right', Shares t σ up id a b ca cb l r sib.separator pl pr sib l' r' sep' left' right'
  | 0, _, _, _, l, r => l.casesZero fun _ _ => r.casesZero fun _ _ hp hpl hpr hcan hside => hp.shares_leaf hpl hpr hcan hside
  | _ + 1, _, _, _, l, r => l.casesSucc fun _ _ _ => r.casesSucc fun _ _ _ hp hpl hpr hcan hside =>
    hp.shares_inner hpl hpr hcan hside

end

section
variable {id : PageId} {a b : List Key} {ca cb : List (PageTree h)} {up : PageCtx H (h + 1)} {l r : PageTree h}
  {pl pr node parent : Page} {sib : Sibling} {idx : Nat}

/-- What a rebalance ends in: a whole table with the same rows, on the same pages but for those
    that are free now, or a separator that does not fit the page above, which is longer than the
    one it replaces. -/
inductive Mended (t : Table) (T₀ : PageTree H) (count : UInt32) (free₀ : List PageId) (σ' : Store) :
    Except (Fail BTreeError) Unit → Prop
  | whole {h : Nat} {T : PageTree h} {free : List PageId} (table : WellFormed t σ' T count free) (rows : T.rows = T₀.rows)
    (pages : (T.ids ++ free).Perm (T₀.ids ++ free₀)) : Mended t T₀ count free₀ σ' (.ok ())
  | full (sizes : ∀ n, ¬ Keyed (fun k => Page.internalEntrySize k = n) T₀) :
    Mended t T₀ count free₀ σ' (.error (.err (.page .pageFull)))

/-- The new separator lies between its neighbours. -/
theorem Pair.between {l' r' : PageTree h} {sep' : Key} {left' right' : Page}
    (hp : Pair t σ up id a b ca cb l r sib.separator count free)
    (hs : Shares t σ up id a b ca cb l r sib.separator pl pr sib l' r' sep' left' right') :
    (∀ x ∈ a, x < sep') ∧ (∀ x ∈ b, sep' < x) ∧
      (up.plug (Tree.inner id (a ++ sep' :: b) (ca ++ l' :: r' :: cb))).Ordered Row.key none none := by
  obtain ⟨hol, hor, hin⟩ := hp.orders
  obtain ⟨hc, -⟩ := (Ctx.ordered_plug (Ctx.down up id a b ca cb hp.aligned) _).mp
    (Ctx.ordered_one hp.aligned hp.ordered (hol.join hor hin))
  obtain ⟨ha, hb, hnode⟩ := Ctx.ordered_pair hc hs.inside hs.leftOrdered hs.rightOrdered
  exact ⟨ha, hb, (Ctx.ordered_plug up _).mpr ⟨hc.1, hnode⟩⟩

/-- Neighbours that share their entries keep their pages. -/
theorem Shares.ids_perm {l' r' : PageTree h} {sep' : Key} {left' right' : Page}
    (hs : Shares t σ up id a b ca cb l r sib.separator pl pr sib l' r' sep' left' right') :
    (up.plug (Tree.inner id (a ++ sep' :: b) (ca ++ l' :: r' :: cb))).ids.Perm
      (up.plug (Tree.inner id (a ++ sib.separator :: b) (ca ++ l :: r :: cb))).ids :=
  (ids_pair l' r').trans (((hs.ids.append_left _).cons id).trans (ids_pair l r).symm)

/-- The table around two neighbours that share their entries. -/
theorem Pair.shared {l' r' : PageTree h} {sep' : Key} {left' right' : Page}
    (hp : Pair t σ up id a b ca cb l r sib.separator count free)
    (hs : Shares t σ up id a b ca cb l r sib.separator pl pr sib l' r' sep' left' right')
    (hleft : σ'.page l.rootId = some left') (hright : σ'.page r.rootId = some right')
    (hnode : nodeAt σ' id (a ++ sep' :: b) ((ca ++ l :: r :: cb).map Tree.rootId)) (hkeys : Page.KeysValid (a ++ sep' :: b))
    (hframe : ∀ x, x ∉ [id, l.rootId, r.rootId] → σ'.page x = σ.page x) :
    WellFormed t σ' (up.plug (Tree.inner id (a ++ sep' :: b) (ca ++ l' :: r' :: cb))) count free := by
  obtain ⟨hl, hr, hlinks⟩ := hs.whole σ' hleft hright hframe
  have hf : Frame σ σ' [id, l.rootId, r.rootId] := Frame.of_eq hframe
  obtain ⟨hid, hnd⟩ := List.nodup_cons.mp hp.nodup
  obtain ⟨-, -, hdis⟩ := List.nodup_append.mp hnd
  have hex : ∀ x ∈ ca.flatMap Tree.ids ++ cb.flatMap Tree.ids ++ up.ids, x ∉ [id, l.rootId, r.rootId] := by
    intro x hx
    simp only [List.mem_cons, List.not_mem_nil, or_false, not_or]
    refine ⟨fun he => hid (by rw [← he]; exact List.mem_append_left _ hx), fun he => ?_, fun he => ?_⟩
    · exact hdis x hx _ (List.mem_append_left _ (Tree.rootId_mem_ids l)) he
    · exact hdis x hx _ (List.mem_append_right _ (Tree.rootId_mem_ids r)) he
  have hown : ∀ {x}, x ∈ t.metaId :: free → x ∉ [id, l.rootId, r.rootId] := by
    intro x hx hmem
    have hids : x ∈ (up.plug (Tree.inner id (a ++ sib.separator :: b) (ca ++ l :: r :: cb))).ids := by
      refine (ids_pair l r).mem_iff.mpr ?_
      have hl := Tree.rootId_mem_ids l
      have hr := Tree.rootId_mem_ids r
      simp only [List.mem_cons, List.not_mem_nil, or_false] at hmem
      rcases hmem with rfl | rfl | rfl <;> simp [hl, hr]
    rcases List.mem_cons.mp hx with rfl | hx
    · exact hp.owned.ne_meta (List.mem_append_left _ hids) rfl
    · exact (List.nodup_append.mp hp.owned.nodup).2.2 _ hids _ hx rfl
  have hkids : ∀ kid ∈ ca ++ l' :: r' :: cb, Ok σ' True kid := by
    intro kid hkid
    have hkid' : kid = l' ∨ kid = r' ∨ kid ∈ ca ++ cb := by
      simp only [List.mem_append, List.mem_cons] at hkid ⊢
      tauto
    rcases hkid' with rfl | rfl | hkid'
    · exact hl
    · exact hr
    · refine (hp.kids kid hkid').frame hf fun x hx => hex x (List.mem_append_left _ ?_)
      rw [← List.flatMap_append]
      exact List.mem_flatMap.mpr ⟨kid, hkid', hx⟩
  have hroots : (ca ++ l' :: r' :: cb).map Tree.rootId = (ca ++ l :: r :: cb).map Tree.rootId := by
    simp only [List.map_append, List.map_cons, hs.leftNamed.2, hs.rightNamed.2]
  refine wellFormed_of_rootOk (Ok.rootOk ((Ctx.all_plug up _).mpr ⟨?_, ?_⟩)) (hp.between hs).2.2 ?_ hlinks (hp.owned.perm ?_)
  · exact hp.above.frame hf fun x hx => hex x (List.mem_append_right _ hx)
  · refine Tree.all_inner.mpr ⟨⟨?_, hkeys, by simp⟩, hkids⟩
    rw [hroots]
    exact hnode
  · rw [Ctx.rootId_plug]
    exact hp.root.congr (hframe _ (hown (by simp))) fun x hx => hframe x (hown (List.mem_cons_of_mem _ hx))
  · exact (hs.ids_perm).append_right free

/-- A round that shares the entries out again is the last. -/
theorem Pair.exec_share (hp : Pair t σ up id a b ca cb l r sib.separator count free) (hs : Sides σ l r node pl pr sib)
    (hunder : node.isUnderfull = true) (hcan : pl.canMergeWith pr sib.separator = false) (hparent : σ.page id = some parent)
    (hpick : pickSibling parent idx = .ok (some sib)) :
    ∃ σ' res, Mended t (up.plug (Tree.inner id (a ++ sib.separator :: b) (ca ++ l :: r :: cb))) count free σ' res ∧
      ∀ anc : List Ancestor, (anc.map fun q => q.1.pageId).Sublist up.path →
        ∃ tr w', Exec (rebalance t ((parent, idx) :: anc) node)
            (.writing σ (node.pageId :: id :: anc.map fun q => q.1.pageId)) tr res w' ∧ w'.store = σ' ∧
          (res = .ok () → w' = .idle σ') := by
  have hside : sib.side = .right ∧ pl.isUnderfull = true ∨ sib.side = .left ∧ pr.isUnderfull = true := by
    rcases hs.side with ⟨hright, rfl, -⟩ | ⟨hleft, rfl, -⟩
    · exact Or.inl ⟨hright, hunder⟩
    · exact Or.inr ⟨hleft, hunder⟩
  obtain ⟨l', r', sep', left', right', hshare⟩ := hp.shares hs.left hs.right hcan hside
  obtain ⟨hrl, hlid, hrid⟩ := hp.root_ne
  obtain ⟨plsn, hnode⟩ := hp.node
  obtain rfl : parent = _ := Option.some.inj (hparent.symm.trans hnode)
  let σ₂ : Store := (σ.put left').put right'
  have hln := hshare.leftNamed.1
  have hrn := hshare.rightNamed.1
  have hσ₂ : ∀ x, x ∉ [l.rootId, r.rootId] → σ₂.page x = σ.page x := by
    intro x hx
    simp only [List.mem_cons, List.not_mem_nil, or_false, not_or] at hx
    rw [Store.put_ne _ (by rw [hrn]; exact hx.2), Store.put_ne _ (by rw [hln]; exact hx.1)]
  have hleft₂ : σ₂.page l.rootId = some left' := by
    rw [Store.put_ne _ (by rw [hrn]; exact hrl.symm)]
    exact Store.put_same _ hln
  have hright₂ : σ₂.page r.rootId = some right' := Store.put_same _ hrn
  obtain ⟨ha, hb, -⟩ := hp.between hshare
  have hreplace := (@Page.internalReplaceKey_eq id plsn a b ((ca ++ l :: r :: cb).map Tree.rootId) sib.separator sep')
      hp.keys
    ha hb
  have hplid := σ.named hs.left
  have hprid := σ.named hs.right
  have hstart : ∀ anc : List Ancestor, (anc.map fun q => q.1.pageId).Sublist up.path → ∀ {tr' res w'},
      Exec (change BTreeError.page (Page.internalReplaceKey
          ⟨id, plsn, .internal (a ++ sib.separator :: b) ((ca ++ l :: r :: cb).map Tree.rootId)⟩ sib.separator sep') >>=
        fun x => do
          drop right'.pageId
          drop left'.pageId
          drop x.2.pageId
          clear (anc.map Prod.fst)) (.writing σ₂ (r.rootId :: l.rootId :: id :: anc.map fun q => q.1.pageId)) tr' res w' →
      ∃ tr, Exec (rebalance t
        ((⟨id, plsn, .internal (a ++ sib.separator :: b) ((ca ++ l :: r :: cb).map Tree.rootId)⟩, idx) :: anc) node)
        (.writing σ (node.pageId :: id :: anc.map fun q => q.1.pageId)) tr res w' := by
    intro anc hanc tr' res w' hk
    obtain ⟨hlL, hrL, -, -⟩ := hp.not_held hanc.subset
    obtain ⟨trl, hlatch⟩ := exec_latchSiblings (L := id :: anc.map fun q => q.1.pageId) (by rw [hplid]; exact hs.left)
      (by rw [hprid]; exact hs.right) (by rw [hplid, hprid]; exact hrl) (by rw [hplid]; exact hlL)
      (by rw [hprid]; exact hrL) hs.side
    rw [hplid, hprid] at hlatch
    have hborrow := (@exec_change₂ _ _ σ (r.rootId :: l.rootId :: id :: anc.map fun q => q.1.pageId) left'
        BTreeError.page sep'
      right') (by simp [hln]) (by simp [hrn])
    rw [← hshare.borrow] at hborrow
    have hpicked : Exec (Call.page BTreeError.page
        (pickSibling ⟨id, plsn, .internal (a ++ sib.separator :: b) ((ca ++ l :: r :: cb).map Tree.rootId)⟩ idx))
        (.writing σ (node.pageId :: id :: anc.map fun q => q.1.pageId)) [] (.ok (some sib))
        (.writing σ (node.pageId :: id :: anc.map fun q => q.1.pageId)) := by
      rw [hpick]
      exact exec_pure _ _
    rw [rebalance, if_pos hunder]
    exact ⟨_, hpicked.bind (hlatch.bind (Exec.ite_neg (by rw [hcan]; exact Bool.false_ne_true) (hborrow.bind hk)))⟩
  by_cases hfit : Page.keysSize (a ++ sep' :: b) ≤ internalUsable
  · rw [if_pos hfit] at hreplace
    let parent' : Page := ⟨id, plsn, .internal (a ++ sep' :: b) ((ca ++ l :: r :: cb).map Tree.rootId)⟩
    have hframe : ∀ x, x ≠ id → (σ₂.put parent').page x = σ₂.page x := fun x hx => Store.put_ne _ (p := parent') hx
    have hw := hp.shared hshare ((hframe _ hlid).trans hleft₂) ((hframe _ hrid).trans hright₂)
      ⟨plsn, Store.put_self _ parent'⟩ (Page.keysValid_replace hp.keys hshare.fits ha hb hfit) fun x hx => by
        simp only [List.mem_cons, List.not_mem_nil, or_false, not_or] at hx
        rw [hframe x hx.1]
        exact hσ₂ x (by simp [hx.2])
    refine ⟨σ₂.put parent', .ok (), .whole hw ?_ (hshare.ids_perm.append_right free), fun anc hanc => ?_⟩
    · rw [rows_pair, rows_pair, hshare.rows]
    · obtain ⟨hlL, hrL, hidL, -⟩ := hp.not_held hanc.subset
      have hchange := exec_change (σ := σ₂) (L := r.rootId :: l.rootId :: id :: anc.map fun q => q.1.pageId) (q := parent')
        (a := ()) BTreeError.page (by simp [parent'])
      rw [← hreplace] at hchange
      have hdropR : Exec (drop right'.pageId : BT Unit) (.writing (σ₂.put parent')
          (r.rootId :: l.rootId :: id :: anc.map fun q => q.1.pageId))
          [.writing (σ₂.put parent') (l.rootId :: id :: anc.map fun q => q.1.pageId)] (.ok ())
          (.writing (σ₂.put parent') (l.rootId :: id :: anc.map fun q => q.1.pageId)) := by
        rw [hrn]
        exact exec_drop (by simp) (drop_head (List.not_mem_cons_of_ne_of_not_mem hrl hrL))
      have hdropL : Exec (drop left'.pageId : BT Unit) (.writing (σ₂.put parent')
          (l.rootId :: id :: anc.map fun q => q.1.pageId))
          [.writing (σ₂.put parent') (id :: anc.map fun q => q.1.pageId)] (.ok ())
          (.writing (σ₂.put parent') (id :: anc.map fun q => q.1.pageId)) := by
        rw [hln]
        exact exec_drop (by simp) (drop_head hlL)
      have hdropP := exec_drop (ε := BTreeError) (σ := σ₂.put parent') (L := id :: anc.map fun q => q.1.pageId) (by simp)
        (drop_head hidL)
      obtain ⟨trc, hclear⟩ := exec_clearAll (σ := σ₂.put parent') (hanc.nodup (hp.nodup_path))
      obtain ⟨tr, hexec⟩ := hstart anc hanc (hchange.bind (hdropR.bind (hdropL.bind (hdropP.bind hclear))))
      exact ⟨tr, _, hexec, rfl, fun _ => rfl⟩
  · -- the page above keeps its separator, and the rows have moved already
    rw [if_neg hfit] at hreplace
    let parent₀ : Page := ⟨id, plsn, .internal (a ++ sib.separator :: b) ((ca ++ l :: r :: cb).map Tree.rootId)⟩
    refine ⟨σ₂.put parent₀, .error (.err (.page .pageFull)), .full fun n hsize => hfit ?_, fun anc hanc => ?_⟩
    · obtain ⟨-, hnodes⟩ := (Ctx.all_plug up _).mp hsize
      obtain ⟨hseps, hkids⟩ := Tree.all_inner.mp hnodes
      have hsep := hseps sib.separator (by simp)
      have hsep' := hshare.keyed (fun k => Page.internalEntrySize k = n) (hkids l (by simp)) (hkids r (by simp)) hsep
      have := hp.keys.size
      simp only [Page.keysSize_append, Page.keysSize_cons, hsep, hsep'] at this ⊢
      exact this
    · have hchange := exec_change_error (α := Unit) (σ := σ₂) (L := r.rootId :: l.rootId :: id :: anc.map fun q =>
        q.1.pageId)
        (q := parent₀) (e := .err .pageFull) BTreeError.page (by simp [parent₀])
      rw [← hreplace] at hchange
      obtain ⟨tr, hexec⟩ := hstart anc hanc hchange.bind_error
      exact ⟨tr, _, hexec, rfl, by rintro ⟨⟩⟩

end

end

end BTree

end RustDb
