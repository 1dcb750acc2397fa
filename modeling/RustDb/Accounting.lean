/-
  RustDb.Accounting — `check_space_accounting`, and the calls that keep it true.

  The check walks the tree from the root and the free list from the meta page and panics when a
  page is met twice or their numbers do not make up the table.
  - `checkSpaceAccounting_iff`: on a well-formed table it meets no page twice, and it succeeds
    exactly when the pages of the tree, the free pages and the meta page are as many as the
    table counts, and else panics;
  - `Balanced.covers`: then every page stored for the table is one of them, and so all of its
    pages are intact (`Balanced.stored`);
  - `insert_count`: an insert takes no page away;
  - `delete_balanced`: a delete keeps it so, as `insert_balanced` says of an insert.
-/

import RustDb.BTree.Books
import RustDb.BTree.Delete
import RustDb.Requests

namespace RustDb

open Lib Lib.SearchTree Lib.Prog Call BTree

/-! ## The check -/

namespace Table

/-- The loop over `child_stack`, its top first; `inTree` holds the pages met. -/
def walkTree : Nat → List PageId → List PageId → TB (List PageId)
  | _, [], inTree => return inTree
  | 0, _ :: _, _ => throw .outOfFuel
  | fuel + 1, cid :: childStack, inTree => do
    if cid ∈ inTree then throw .panic
    else
      let currPage ← expect (bpm (fetchRead cid))
      drop cid
      match currPage.children? with
      | some children => walkTree fuel (children.reverse ++ childStack) (cid :: inTree)
      | none => walkTree fuel childStack (cid :: inTree)

/-- The loop along the free list. -/
def walkFreeList : Nat → Option PageId → List PageId → TB (List PageId)
  | _, none, onFreeList => return onFreeList
  | 0, some _, _ => throw .outOfFuel
  | fuel + 1, some id, onFreeList => do
    if id ∈ onFreeList then throw .panic
    else
      let currPage ← expect (bpm (fetchRead id))
      drop id
      let next ← expect (page TableError.page currPage.freeNext)
      walkFreeList fuel next (id :: onFreeList)

variable (t : Table)

/-- `Table::check_space_accounting`; its asserts are panics. -/
def checkSpaceAccounting (fuel : Nat) : TB Unit := unwinding do
  let guard ← expect (bpm (fetchRead t.metaId))
  drop t.metaId
  let pageCount ← expect (page TableError.page guard.metaGetPageCount)
  let root ← expect t.rootId
  let inTree ← walkTree fuel [root] []
  let guard ← expect (bpm (fetchRead t.metaId))
  drop t.metaId
  let head ← expect (page TableError.page guard.metaGetFreeListHead)
  let onFreeList ← walkFreeList fuel head []
  if inTree.any (· ∈ onFreeList) then throw .panic
  else if inTree.length + onFreeList.length ≠ pageCount - 1 then throw .panic
  else return ()

variable {t} {σ : Store}

/-- A look at a stored page. -/
theorem exec_look {ε α : Type} {id : PageId} {p : Page} {f : Page → Call ε α} {r : Except (Fail ε) α} {w : World}
    (hp : σ.page id = some p) (h : ∃ tr, Exec (f p) (.idle σ) tr r w) :
    ∃ tr, Exec (do
      let q ← expect (bpm (fetchRead id))
      drop id
      f q) (.idle σ) tr r w := by
  obtain ⟨tr, h⟩ := h
  exact ⟨_, (exec_bpm (exec_fetchRead_idle hp)).expect_ok.bind ((exec_drop_reading σ id).bind h)⟩

/-- A field that the page at hand has. -/
theorem exec_field {α : Type} (σ : Store) (a : α) :
    Exec (expect (page TableError.page (.ok a)) : TB α) (.idle σ) [] (.ok a) (.idle σ) := by
  have hret : Exec (page TableError.page (.ok a)) (.idle σ) [] (.ok a) (.idle σ) := exec_pure a _
  exact hret.expect_ok

theorem exec_then {ε α β : Type} {p : Call ε α} {f : α → Call ε β} {a : α} {r : Except (Fail ε) β} {w w₁ w' : World}
    {tr : List World} (h : Exec p w tr (.ok a) w₁) (hf : ∃ tr', Exec (f a) w₁ tr' r w') : ∃ tr, Exec (p >>= f) w tr r w' :=
  hf.elim fun _ hf => ⟨_, h.bind hf⟩

theorem eval_unwinding {ε α : Type} {p : Call ε α} {r : Except (Fail ε) α} (h : ∃ tr, Exec p (.idle σ) tr r (.idle σ)) :
    (unwinding p).eval (.idle σ) = some (r, .idle σ) := by
  obtain ⟨tr, h⟩ := h
  cases r with
  | ok a => exact h.unwinding_ok.eval
  | error e => exact h.unwinding_error.eval

/-- A tree of any height. -/
abbrev SomeTree := (h : Nat) × PageTree h

theorem exec_walkTree : ∀ {fuel : Nat} {stack : List SomeTree} {inTree : List PageId},
    (∀ T ∈ stack, T.2.All (leafAt σ) (nodeAt σ)) → (stack.flatMap (·.2.ids) ++ inTree).Nodup →
    (stack.flatMap (·.2.ids)).length ≤ fuel →
    ∃ tr met, Exec (walkTree fuel (stack.map (·.2.rootId)) inTree) (.idle σ) tr (.ok met) (.idle σ) ∧
      met.Perm (stack.flatMap (·.2.ids) ++ inTree)
  | fuel, [], inTree, _, _, _ => by
    cases fuel <;> exact ⟨[], inTree, exec_pure _ _, List.Perm.refl _⟩
  | 0, T :: stack, inTree, _, _, hfuel => by
    have hroot := Tree.rootId_mem_ids T.2
    rw [List.flatMap_cons, List.length_append] at hfuel
    rw [List.length_eq_zero_iff.mp (show T.2.ids.length = 0 by omega)] at hroot
    cases hroot
  | fuel + 1, ⟨0, T⟩ :: stack, inTree, hall, hnd, hfuel => by
    revert hall hnd hfuel
    refine T.casesZero fun id rows hall hnd hfuel => ?_
    obtain ⟨hT, hall⟩ := List.forall_mem_cons.mp hall
    obtain ⟨lsn, nx, pv, hp⟩ := Tree.all_leaf.mp hT
    simp only [List.flatMap_cons, Tree.ids_leaf, List.cons_append, List.nil_append, List.length_cons] at hnd hfuel ⊢
    have hmid := List.perm_middle.nodup_iff.mpr hnd
    obtain ⟨tr, met, hexec, hperm⟩ := @exec_walkTree fuel _ _ hall hmid (by omega)
    obtain ⟨tr', hexec'⟩ := exec_look (f := fun currPage => match currPage.children? with
      | some children => walkTree fuel (children.reverse ++ stack.map (·.2.rootId)) (id :: inTree)
      | none => walkTree fuel (stack.map (·.2.rootId)) (id :: inTree)) hp ⟨tr, hexec⟩
    refine ⟨tr', met, ?_, hperm.trans List.perm_middle⟩
    have hid : id ∉ inTree := fun hm => (List.nodup_cons.mp hnd).1 (List.mem_append_right _ hm)
    rw [List.map_cons, walkTree]
    exact Exec.ite_neg hid hexec'
  | fuel + 1, ⟨h + 1, T⟩ :: stack, inTree, hall, hnd, hfuel => by
    revert hall hnd hfuel
    refine T.casesSucc fun id keys kids hall hnd hfuel => ?_
    obtain ⟨hT, hall⟩ := List.forall_mem_cons.mp hall
    obtain ⟨⟨lsn, hp⟩, hkids⟩ := Tree.all_inner.mp hT
    -- the children go on the stack, the last one on top
    let pushed : List SomeTree := (kids.map (Sigma.mk h)).reverse
    have hids : (pushed.flatMap (·.2.ids)).Perm (kids.flatMap Tree.ids) := by
      refine ((List.reverse_perm _).flatMap_right _).trans ?_
      rw [List.flatMap_map]
    have hroots : pushed.map (·.2.rootId) = (kids.map Tree.rootId).reverse := by
      rw [List.map_reverse, List.map_map]
      rfl
    have hwhole : ((pushed ++ stack).flatMap (·.2.ids) ++ id :: inTree).Perm
        (id :: (kids.flatMap Tree.ids ++ (stack.flatMap (·.2.ids) ++ inTree))) := by
      rw [List.flatMap_append, List.append_assoc]
      refine (hids.append_right _).trans ?_
      rw [← List.append_assoc, ← List.append_assoc]
      exact List.perm_middle
    simp only [List.flatMap_cons, Tree.ids_inner, List.cons_append, List.append_assoc, List.length_cons, List.length_append]
      at hnd hfuel ⊢
    have hallpushed : ∀ T ∈ pushed ++ stack, T.2.All (leafAt σ) (nodeAt σ) := by
      intro T hT
      rcases List.mem_append.mp hT with hT | hT
      · obtain ⟨kid, hkid, rfl⟩ := List.mem_map.mp (List.mem_reverse.mp hT)
        exact hkids kid hkid
      · exact hall T hT
    have hlen := hids.length_eq
    obtain ⟨tr, met, hexec, hperm⟩ := @exec_walkTree fuel _ _ hallpushed (hwhole.nodup_iff.mpr hnd)
      (by rw [List.flatMap_append, List.length_append]; omega)
    rw [List.map_append, hroots] at hexec
    obtain ⟨tr', hexec'⟩ := exec_look (f := fun currPage => match currPage.children? with
      | some children => walkTree fuel (children.reverse ++ stack.map (·.2.rootId)) (id :: inTree)
      | none => walkTree fuel (stack.map (·.2.rootId)) (id :: inTree)) hp ⟨tr, hexec⟩
    refine ⟨tr', met, ?_, hperm.trans hwhole⟩
    have hid : id ∉ inTree := fun hm =>
      (List.nodup_cons.mp hnd).1 (List.mem_append_right _ (List.mem_append_right _ hm))
    rw [List.map_cons, walkTree]
    exact Exec.ite_neg hid hexec'

theorem exec_walkFreeList : ∀ {fuel : Nat} {free onFreeList : List PageId}, FreeChain σ free → (free ++ onFreeList).Nodup →
    free.length ≤ fuel →
    ∃ tr met, Exec (walkFreeList fuel free.head? onFreeList) (.idle σ) tr (.ok met) (.idle σ) ∧ met.Perm (free ++ onFreeList)
  | fuel, [], onFreeList, _, _, _ => by
    cases fuel <;> exact ⟨[], onFreeList, exec_pure _ _, List.Perm.refl _⟩
  | 0, _ :: _, _, _, _, hfuel => by simp at hfuel
  | fuel + 1, id :: free, onFreeList, hchain, hnd, hfuel => by
    obtain ⟨⟨lsn, hp⟩, hchain⟩ := hchain
    rw [List.cons_append] at hnd ⊢
    obtain ⟨tr, met, hexec, hperm⟩ := @exec_walkFreeList fuel free (id :: onFreeList) hchain
        (List.perm_middle.nodup_iff.mpr hnd)
      (Nat.le_of_succ_le_succ hfuel)
    have hnext := exec_field σ free.head?
    obtain ⟨tr', hexec'⟩ := exec_look (f := fun currPage => do
      let next ← expect (page TableError.page currPage.freeNext)
      walkFreeList fuel next (id :: onFreeList)) hp ⟨_, hnext.bind hexec⟩
    refine ⟨tr', met, ?_, hperm.trans List.perm_middle⟩
    have hid : id ∉ onFreeList := fun hm => (List.nodup_cons.mp hnd).1 (List.mem_append_right _ hm)
    rw [List.head?_cons, walkFreeList]
    exact Exec.ite_neg hid hexec'

/-- The check is its two walks, and then its asserts. -/
theorem eval_checkSpaceAccounting {count : UInt32} {free : List PageId} {fuel : Nat}
    {metT metF : List PageId} {trT trF : List World} {r : Except (Fail TableError) Unit}
    {root : PageId} (hroot : t.MetaRep σ root count free) (hwalkT : Exec (walkTree fuel [root] []) (.idle σ) trT
    (.ok metT) (.idle σ))
    (hwalkF : Exec (walkFreeList fuel free.head? []) (.idle σ) trF (.ok metF) (.idle σ))
    (hasserts : (if metT.any (· ∈ metF) then .error .panic
      else if metT.length + metF.length ≠ count.toNat - 1 then .error .panic else .ok ()) = r) :
    (t.checkSpaceAccounting fuel).eval (.idle σ) = some (r, .idle σ) := by
  obtain ⟨lsn, schema, name, hpage, -⟩ := hroot.metaPage
  have hcounted := exec_field σ count.toNat
  have hhead := exec_field σ free.head?
  have hid : Exec (expect t.rootId : TB PageId) (.idle σ) _ (.ok root) (.idle σ) :=
    (exec_rootId hroot.namedRoot (World.latch_idle σ t.metaId)).expect_ok
  have hend : ∃ tr, Exec (if metT.any (· ∈ metF) then throw .panic
      else if metT.length + metF.length ≠ count.toNat - 1 then throw .panic else return () : TB Unit)
      (.idle σ) tr r (.idle σ) := by
    refine ⟨[], ?_⟩
    subst hasserts
    split_ifs <;> first | exact exec_throw _ _ | exact exec_pure _ _
  unfold checkSpaceAccounting
  refine eval_unwinding (exec_look hpage ?_)
  refine exec_then hcounted (exec_then hid (exec_then hwalkT ?_))
  exact exec_look hpage (exec_then hhead (exec_then hwalkF hend))

section
variable {h : Nat} {T : PageTree h} {count : UInt32} {free : List PageId} {fuel : Nat}

/-- Both walks meet every page once, the tree's and the free ones. -/
theorem exec_walks (hw : WellFormed t σ T count free) (hT : T.ids.length ≤ fuel) (hfree : free.length ≤ fuel) :
    (∃ tr inTree, Exec (walkTree fuel [T.rootId] []) (.idle σ) tr (.ok inTree) (.idle σ) ∧ inTree.Perm T.ids) ∧
    ∃ tr onFreeList, Exec (walkFreeList fuel free.head? []) (.idle σ) tr (.ok onFreeList) (.idle σ) ∧
      onFreeList.Perm free := by
  obtain ⟨hndT, hndF, -⟩ := List.nodup_append.mp hw.owned.nodup
  have hwalkT := @exec_walkTree σ fuel [⟨h, T⟩] [] (by simpa using hw.pages) (by simpa using hndT) (by simpa using hT)
  have hwalkF := @exec_walkFreeList σ fuel free [] hw.root.chain (by simpa using hndF) hfree
  simp only [List.map_cons, List.map_nil, List.flatMap_cons, List.flatMap_nil, List.append_nil] at hwalkT hwalkF
  exact ⟨hwalkT, hwalkF⟩

/-- What the check comes to on a well-formed table. -/
theorem checkSpaceAccounting_eval (hw : WellFormed t σ T count free) (hT : T.ids.length ≤ fuel)
    (hfree : free.length ≤ fuel) : (t.checkSpaceAccounting fuel).eval (.idle σ) =
      some (if T.ids.length + free.length + 1 = count.toNat then .ok () else .error .panic, .idle σ) := by
  have hs := hw.sound
  have hcount : count.toNat ≠ 0 := fun h0 =>
    Owned.count_ne_zero hs.owned (List.ne_nil_of_mem (List.mem_append_left _ (Tree.rootId_mem_ids T)))
    (UInt32.toNat_inj.mp h0)
  obtain ⟨⟨trT, metT, hwalkT, hpermT⟩, trF, metF, hwalkF, hpermF⟩ := exec_walks hw hT hfree
  have hany : metT.any (· ∈ metF) = false := by
    rw [List.any_eq_false]
    intro x hx
    rw [decide_eq_true_iff, hpermF.mem_iff]
    exact fun hxF => (List.nodup_append.mp hs.owned.nodup).2.2 x (hpermT.mem_iff.mp hx) x hxF rfl
  rw [eval_checkSpaceAccounting hs.root hwalkT hwalkF rfl, hany, if_neg (by decide), hpermT.length_eq, hpermF.length_eq]
  by_cases htotal : T.ids.length + free.length + 1 = count.toNat
  · rw [if_neg (by omega), if_pos htotal]
  · rw [if_pos (by omega), if_neg htotal]

/-- On a well-formed table the check meets every page of the tree and every free page once and
    changes nothing. It succeeds exactly when no page number is lost (these pages and the meta
    page are all that it counts), and panics otherwise. -/
theorem checkSpaceAccounting_iff (hw : WellFormed t σ T count free) (hT : T.ids.length ≤ fuel)
    (hfree : free.length ≤ fuel) :
    (∃ inTree, (walkTree fuel [T.rootId] []).eval (.idle σ) = some (.ok inTree, .idle σ) ∧ inTree.Nodup ∧
      inTree.Perm T.ids) ∧
    (∃ onFreeList, (walkFreeList fuel free.head? []).eval (.idle σ) = some (.ok onFreeList, .idle σ) ∧
      onFreeList.Nodup ∧ onFreeList.Perm free) ∧
    ((t.checkSpaceAccounting fuel).eval (.idle σ) = some (.ok (), .idle σ) ↔
      T.ids.length + free.length + 1 = count.toNat) ∧
    ((t.checkSpaceAccounting fuel).eval (.idle σ) = some (.error .panic, .idle σ) ↔
      T.ids.length + free.length + 1 ≠ count.toNat) := by
  obtain ⟨hndT, hndF, -⟩ := List.nodup_append.mp hw.owned.nodup
  obtain ⟨⟨trT, metT, hwalkT, hpermT⟩, trF, metF, hwalkF, hpermF⟩ := exec_walks hw hT hfree
  refine ⟨⟨metT, hwalkT.eval, hpermT.nodup_iff.mpr hndT, hpermT⟩, ⟨metF, hwalkF.eval, hpermF.nodup_iff.mpr hndF, hpermF⟩, ?_⟩
  rw [checkSpaceAccounting_eval hw hT hfree]
  by_cases htotal : T.ids.length + free.length + 1 = count.toNat <;> simp [htotal]

/-- A tree of two leaves, one free page and the meta page make up the five pages counted. -/
theorem checkSpaceAccounting_iff_pair :
    (smallTable.checkSpaceAccounting 3).eval (.idle pairStore) = some (.ok (), .idle pairStore) :=
  (checkSpaceAccounting_iff pairTable_wellFormed (by decide) (by decide)).2.2.1.mpr rfl

end

end Table

/-! ## Every stored page is accounted for -/

namespace BTree

section
variable {t : Table} {σ σ' : Store} {h : Nat} {T : PageTree h} {count : UInt32} {free : List PageId} {id : PageId}

theorem leaf_or_node : ∀ {h : Nat} {T : PageTree h}, T.All (leafAt σ) (nodeAt σ) → ∀ id ∈ T.ids,
    id ∈ T.leaves ∨ ∃ keys children, nodeAt σ id keys children
  | 0, T => T.casesZero fun id rows _ x hx => Or.inl hx
  | h + 1, T => T.casesSucc fun id keys kids hT x hx => by
    obtain ⟨hnode, hkids⟩ := Tree.all_inner.mp hT
    rw [Tree.ids_inner] at hx
    rcases List.mem_cons.mp hx with rfl | hx
    · exact Or.inr ⟨_, _, hnode⟩
    · obtain ⟨kid, hkid, hx⟩ := List.mem_flatMap.mp hx
      refine (leaf_or_node (hkids kid hkid) x hx).imp_left fun hleaf => ?_
      rw [Tree.leaves_inner]
      exact List.mem_flatMap.mpr ⟨kid, hkid, hleaf⟩

/-- The links of a row of leaves name leaves of the row. -/
theorem linked_names {ids : List PageId} : ∀ {prev next : Option PageId}, Linked σ prev ids next → ∀ x ∈ ids,
    ∃ lsn rows nx pv, σ.page x = some ⟨x, lsn, .leaf rows nx pv⟩ ∧ (∀ y ∈ nx, y ∈ ids ∨ next = some y) ∧
      ∀ y ∈ pv, y ∈ ids ∨ prev = some y := by
  induction ids with
  | nil => exact fun _ x hx => absurd hx List.not_mem_nil
  | cons id ids ih =>
    intro prev next hl x hx
    obtain ⟨⟨lsn, rows, hp⟩, hrest⟩ := hl
    rcases List.mem_cons.mp hx with rfl | hx
    · refine ⟨lsn, rows, _, _, hp, fun y hy => ?_, fun y hy => Or.inr hy⟩
      cases ids with
      | nil => exact Or.inr hy
      | cons id' ids =>
        cases hy
        exact Or.inl (by simp)
    · obtain ⟨lsn, rows, nx, pv, hp, hnx, hpv⟩ := ih hrest x hx
      refine ⟨lsn, rows, nx, pv, hp, fun y hy => (hnx y hy).imp_left (List.mem_cons_of_mem _), fun y hy => ?_⟩
      rcases hpv y hy with hy | hy
      · exact Or.inl (List.mem_cons_of_mem _ hy)
      · cases hy
        exact Or.inl List.mem_cons_self

/-- The pages of a well-formed table are intact. -/
theorem WellFormed.intact (hw : WellFormed t σ T count free) {p : Page} (hid : id ∈ t.metaId :: (T.ids ++ free))
    (hp : σ.page id = some p) : p.Intact t.metaId.tableId fun _ => True := by
  obtain ⟨q, hq, hpass⟩ := hw.passes id hid
  obtain rfl : p = q := Option.some.inj (hp.symm.trans hq)
  have hvalid := (Page.checkInvariants_iff p).mp hpass
  have htable : ∀ x ∈ T.ids ++ free, x.tableId = t.metaId.tableId := hw.owned.table
  rcases List.mem_cons.mp hid with rfl | hid
  · obtain ⟨lsn, schema, name, hm, -⟩ := hw.root.metaPage
    obtain rfl : _ = p := Option.some.inj (hm.symm.trans hp)
    refine ⟨rfl, htable _ (List.mem_append_left _ (Tree.rootId_mem_ids T)), fun x hx => htable x ?_⟩
    exact List.mem_append_right _ (List.mem_of_head? hx)
  rcases List.mem_append.mp hid with hT | hF
  · rcases leaf_or_node hw.pages id hT with hleaf | ⟨keys, children, lsn, hnode⟩
    · have hleaves : ∀ y ∈ T.leaves, y.tableId = t.metaId.tableId := fun y hy =>
        htable y (List.mem_append_left _ ((Tree.leaves_sublist_ids T).subset hy))
      obtain ⟨lsn, rows, nx, pv, hleaf, hnx, hpv⟩ := linked_names hw.links id hleaf
      obtain rfl : _ = p := Option.some.inj (hleaf.symm.trans hp)
      refine ⟨htable id hid, hvalid, fun _ _ => trivial, fun y hy => ?_, fun y hy => ?_⟩
      · exact (hnx y hy).elim (hleaves y) fun h => by cases h
      · exact (hpv y hy).elim (hleaves y) fun h => by cases h
    · obtain rfl : _ = p := Option.some.inj (hnode.symm.trans hp)
      refine ⟨htable id hid, hvalid, fun _ _ => trivial, fun c hc => htable c (List.mem_append_left _ ?_)⟩
      exact child_mem hw.pages hT ⟨_, hp, hc⟩
  · obtain ⟨lsn, next, hfree, hnext⟩ := hw.root.chain.stored hF
    obtain rfl : _ = p := Option.some.inj (hfree.symm.trans hp)
    exact ⟨htable id hid, fun y hy => htable y (List.mem_append_right _ (hnext y hy))⟩

/-- No page of the table is stored but the meta page, those of the tree and the free ones. -/
theorem Balanced.covers (hb : Balanced t σ T count free) (hid : id.tableId = t.metaId.tableId) (hlt : id.pageNum < count) :
    id ∈ t.metaId :: (T.ids ++ free) := by
  have ho := hb.wellFormed.owned
  have hpos : count ≠ 0 := fun h0 => absurd hlt (h0 ▸ UInt32.not_lt_zero)
  have hperm := (Owned.numbers ho hpos).perm_of_length_le (by
    have := hb.total
    simp only [List.length_range, List.length_cons, List.length_map, List.length_append]
    omega)
  have hnum : id.pageNum.toNat ∈ 0 :: (T.ids ++ free).map fun x => x.pageNum.toNat :=
    hperm.mem_iff.mpr (List.mem_range.mpr (UInt32.lt_iff_toNat_lt.mp hlt))
  have heq : ∀ x : PageId, x.tableId = t.metaId.tableId → x.pageNum.toNat = id.pageNum.toNat → x = id := fun x hx hn => by
    obtain ⟨tx, nx⟩ := x
    obtain ⟨ti, ni⟩ := id
    obtain rfl : nx = ni := UInt32.toNat_inj.mp hn
    obtain rfl : tx = ti := hx.trans hid.symm
    rfl
  rcases List.mem_cons.mp hnum with h0 | hnum
  · exact List.mem_cons.mpr (Or.inl (heq t.metaId rfl (by rw [ho.zero, h0]; rfl)).symm)
  · obtain ⟨x, hx, hn⟩ := List.mem_map.mp hnum
    obtain rfl := heq x (ho.table x hx) hn
    exact List.mem_cons_of_mem _ hx

theorem Balanced.present (hb : Balanced t σ T count free) (hid : id ∈ t.metaId :: (T.ids ++ free)) : (σ.page id).isSome := by
  have hw := hb.wellFormed
  rcases List.mem_cons.mp hid with rfl | hid
  · obtain ⟨lsn, schema, name, hpage, -⟩ := hw.root.metaPage
    rw [hpage]
    rfl
  rcases List.mem_append.mp hid with hT | hF
  · exact stored_of_all hw.pages id hT
  · obtain ⟨lsn, next, hfree, -⟩ := hw.root.chain.stored hF
    rw [hfree]
    rfl

theorem Balanced.stored (hb : Balanced t σ T count free) : (t.access fun _ => True).Stored σ := fun id p hp hid =>
  hb.wellFormed.intact (hb.covers hid (hb.trim id p hp hid)) hp

/-! ## `insert` takes no page away -/

/-- A table's pages, to be written and added to in the file they are in. -/
def sameFile (t : Table) : Access := ⟨t.metaId.tableId, fun _ => True, True, True, False⟩

theorem sameFile_serves {o : PoolOp} {r : o.Res} (hguar : (sameFile t).contract.guar o) (h : Pool.Serves o σ r σ')
    (hid : (σ.page id).isSome) : (σ'.page id).isSome := by
  cases h with
  | fetchRead | fetchWrite | drop | unwind | flushAll | fail => exact hid
  | newPage p | put p => exact Store.put_isSome hid
  | swapFile | swapPart => exact hguar.1.elim

theorem sameFile_met (σ : Store) : (sameFile t).contract.Met (Handler.serves World.step)
    fun w => (sameFile t).Stored w.store ∧ ∀ id, (σ.page id).isSome → (w.store.page id).isSome := by
  rintro o w r w' hguar ⟨hstored, hkept⟩ hstep
  have hserves := Pool.serves_of_step hstep
  obtain ⟨hrely, hstored'⟩ := Access.met _ o _ r _ hguar hstored hserves
  exact ⟨hrely, hstored', fun id hid => sameFile_serves hguar hserves (hkept id hid)⟩

/-- An insert leaves the table as many pages as it had, or more. -/
theorem insert_count (hb : Balanced t σ T count free) {h' : Nat} {T' : PageTree h'} {count' : UInt32} {free' : List PageId}
    (hb' : Balanced t σ' T' count' free') {fuel : Nat} {row : ValidatedRow} {r : Except (Fail BTreeError) Unit}
    (heval : (insert t fuel row).eval (.idle σ) = some (r, .idle σ')) : count ≤ count' := by
  obtain ⟨-, -, hkept⟩ := Keeps.run (holds_insert (A := sameFile t) rfl trivial trivial fuel trivial) (sameFile_met σ)
      ⟨fun id p => hb.stored id p, fun _ h => h⟩ heval
  by_contra hlt
  -- the page numbered `count'` was stored before, and is stored still
  have hmem : ⟨t.metaId.tableId, count'⟩ ∈ t.metaId :: (T.ids ++ free) := hb.covers rfl (UInt32.not_le.mp hlt)
  obtain ⟨p, hp⟩ := Option.isSome_iff_exists.mp (hkept _ (hb.present hmem))
  exact UInt32.lt_irrefl count' (hb'.trim _ p hp rfl)

/-! ## `delete` makes no page -/

/-- The table's pages that are stored or latched to be written are numbered below `count`. -/
structure Below (t : Table) (count : UInt32) (w : World) : Prop where
  stored : ∀ id p, w.store.page id = some p → id.tableId = t.metaId.tableId → id.pageNum < count
  latched : ∀ id, w.latch id = .write → id.tableId = t.metaId.tableId → id.pageNum < count

theorem Below.setLatch {w : World} (hw : Below t count w) {l : Latch}
    (hl : l = .write → id.tableId = t.metaId.tableId → id.pageNum < count) : Below t count (w.setLatch id l) where
  stored := hw.stored
  latched x hx htable := by
    by_cases he : x = id
    · subst he
      exact hl (by simpa [World.setLatch] using hx) htable
    · exact hw.latched x (by simpa [World.setLatch, he] using hx) htable

/-- A table's pages, to be written; none is to be made. -/
def fixed (t : Table) : Access := ⟨t.metaId.tableId, fun _ => True, True, False, False⟩

theorem fixed_met : (fixed t).contract.Met (Handler.serves World.step)
    fun w => (fixed t).Stored w.store ∧ Below t count w := by
  rintro o w r w' hguar ⟨hstored, hbelow⟩ hstep
  obtain ⟨hrely, hstored'⟩ := Access.met _ o _ r _ hguar hstored (Pool.serves_of_step hstep)
  refine ⟨hrely, hstored', ?_⟩
  cases o with
  | fetchRead id =>
    simp only [Handler.serves, World.step] at hstep
    split at hstep <;> cases hstep
    · exact hbelow
    · exact hbelow.setLatch fun h => by cases h
  | fetchWrite id =>
    simp only [Handler.serves, World.step] at hstep
    split at hstep <;> cases hstep
    · exact hbelow
    · next hp _ => exact hbelow.setLatch fun _ htable => hbelow.stored _ _ hp htable
  | newPage p | swapFile pages => exact hguar.1.elim
  | put p =>
    simp only [Handler.serves, World.step] at hstep
    split at hstep <;> cases hstep
    next hlatch =>
    refine ⟨fun id q hq htable => ?_, hbelow.latched⟩
    by_cases he : id = p.pageId
    · exact hbelow.latched id (he ▸ hlatch) htable
    · exact hbelow.stored id q ((Store.put_ne w.store he).symm.trans hq) htable
  | drop id =>
    simp only [Handler.serves, World.step] at hstep
    split at hstep <;> cases hstep
    · exact hbelow.setLatch fun h => by cases h
    · exact hbelow.setLatch fun h => by cases h
  | unwind =>
    cases hstep
    exact ⟨hbelow.stored, fun id h => by cases h⟩
  | flushAll =>
    cases hstep
    exact hbelow

/-- A delete keeps the books balanced, and frees the pages it no longer needs. -/
theorem delete_balanced (hb : Balanced t σ T count free) {fuel : Nat} (hfuel : h < fuel) (key : Key) :
    (∃ σ' h', ∃ T' : PageTree h', ∃ free',
      (delete t fuel key).eval (.idle σ) = some (.ok (T.rows.find? (·.key = key)), .idle σ') ∧
      Balanced t σ' T' count free' ∧ T'.rows = T.rows.filter (·.key ≠ key)) ∨
    ∃ σ', (delete t fuel key).eval (.idle σ) = some (.error (.err (.page .pageFull)), .idle σ') ∧
      (∃ r ∈ T.rows, r.key = key) ∧ ∀ n, ¬ Keyed (fun k => Page.internalEntrySize k = n) T := by
  obtain ⟨σ', res, hdeleted, heval, -⟩ := exec_delete hb.wellFormed hfuel key
  cases hdeleted with
  | @whole h' T' free' table rows pages =>
    have hbelow : Below t count (.idle σ) := ⟨hb.trim, fun id h => by simp [World.writing_latch] at h⟩
    obtain ⟨-, -, hbelow'⟩ := Keeps.run (holds_delete (A := fixed t) rfl trivial fuel key) fixed_met
        ⟨fun id p => hb.stored id p, hbelow⟩ heval
    have hlen := pages.length_eq
    rw [List.length_append, List.length_append] at hlen
    exact Or.inl ⟨σ', _, _, _, heval, ⟨table, by rw [hlen]; exact hb.total, hbelow'.stored⟩, rows⟩
  | full found sizes => exact Or.inr ⟨σ', heval, found, sizes⟩

end

end BTree

end RustDb
