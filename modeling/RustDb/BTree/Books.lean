/-
  RustDb.BTree.Books — no page is lost or handed out twice by `insert`.

  `allocate` puts the page it hands out on the books (`Books`): every page number below the
  count is then a page handed out, a page the tree had before, or a free one. The pages handed
  out are written and linked in one after the other, each below a page of the tree or below
  one handed out later (`Hung`); so in the end they all hang from the root, and the tree and
  the free list make up the whole table.
  - `ensures_splitLoop`: what the loop of `split_and_insert` does to the books;
  - `insert_balanced`: an insert keeps a table `Balanced`.
-/

import Mathlib.Data.List.Nodup
import Mathlib.Data.List.Perm.Subperm
import RustDb.BTree.Insert
import RustDb.Ensures

namespace RustDb

open Lib Lib.SearchTree Call

/-! ## Children -/

namespace Page

/-- The children of an internal page; no other page has any. -/
def kids (self : Page) : List PageId := self.children?.getD []

theorem splitPage_kids {self left right : Page} {new : PageId} {sep : Key}
    (h : self.splitPage new = (.ok (sep, right), left)) :
    left.pageId = self.pageId ∧ right.pageId = new ∧ ∀ x ∈ self.kids, x ∈ left.kids ∨ x ∈ right.kids := by
  obtain ⟨id, lsn, rows | ⟨keys, children⟩ | _ | _⟩ := self
  · simp only [splitPage] at h
    repeat' split at h
    all_goals cases h
    exact ⟨rfl, rfl, fun x hx => absurd hx List.not_mem_nil⟩
  · simp only [splitPage] at h
    repeat' split at h
    all_goals cases h
    refine ⟨rfl, rfl, fun x hx => ?_⟩
    rw [show kids ⟨id, lsn, .internal keys children⟩ = children from rfl, ← List.take_append_drop _ children] at hx
    exact List.mem_append.mp hx
  all_goals cases h

theorem internalInsert_kids {self p : Page} {sep : Key} {child : PageId} (h : self.internalInsert sep child = (.ok (), p)) :
    p.pageId = self.pageId ∧ child ∈ p.kids ∧ ∀ x ∈ self.kids, x ∈ p.kids := by
  obtain ⟨id, lsn, rows | ⟨keys, children⟩ | _ | _⟩ := self
  · simp only [internalInsert] at h
    split at h <;> cases h
  · simp only [internalInsert] at h
    repeat' split at h
    all_goals cases h
    rename_i i _ _ hi
    refine ⟨rfl, (List.mem_insertIdx hi).mpr (Or.inl rfl), fun x hx => (List.mem_insertIdx hi).mpr (Or.inr hx)⟩
  all_goals
    simp only [internalInsert] at h
    split at h <;> cases h

theorem leafInsert_kids {self p : Page} {v : ValidatedRow} (h : self.leafInsert v = (.ok (), p)) :
    p.pageId = self.pageId ∧ p.kids = self.kids := by
  obtain ⟨id, lsn, rows | _ | _ | _⟩ := self
  · simp only [leafInsert] at h
    repeat' split at h
    all_goals cases h
    exact ⟨rfl, rfl⟩
  all_goals cases h

theorem setPrev_leaf {self p : Page} {prev : Option PageId} (h : self.setPrev prev = (.ok (), p)) :
    self.isLeaf ∧ p.pageId = self.pageId ∧ p.kids = self.kids := by
  obtain ⟨id, lsn, rows | _ | _ | _⟩ := self
  · cases h
    exact ⟨rfl, rfl, rfl⟩
  all_goals cases h

theorem findChild_kids {self : Page} (hi : self.isInternal) {key : Key} {found : Option PageId}
    (h : self.findChild key = .ok found) : ∃ c ∈ self.kids, found = some c := by
  obtain ⟨id, lsn, _ | ⟨keys, children⟩ | _ | _⟩ := self
  · cases hi
  · simp only [findChild, findChildIndex] at h
    split at h
    · rename_i i c hc
      cases h
      exact ⟨c, List.mem_of_getElem? hc, rfl⟩
    · cases h
  all_goals cases hi

end Page

/-- `child` is among the children of the page stored under `id`. -/
def HasChild (σ : Store) (id child : PageId) : Prop := ∃ p, σ.page id = some p ∧ child ∈ p.kids

/-- Each page has a parent among the hosts or among the pages before it. -/
def Hung (σ : Store) : List PageId → List PageId → Prop
  | _, [] => True
  | hosts, id :: ids => (∃ host ∈ hosts, HasChild σ host id) ∧ Hung σ (id :: hosts) ids

theorem Store.put_isSome {σ : Store} {q : Page} {x : PageId} (h : (σ.page x).isSome) : ((σ.put q).page x).isSome := by
  by_cases he : x = q.pageId
  · rw [he, Store.put_self]
    rfl
  · rwa [Store.put_ne _ he]

section
variable {σ σ' : Store} {hosts hosts' ids old rest : List PageId} {p : Page}

theorem HasChild.congr {x c : PageId} (he : σ'.page x = σ.page x) (h : HasChild σ x c) : HasChild σ' x c := by
  rwa [HasChild, he]

theorem Hung.mono (h : Hung σ hosts ids) (hsub : hosts ⊆ hosts')
    (hchild : ∀ x ∈ ids ++ hosts, ∀ c, HasChild σ x c → HasChild σ' x c ∨ ∃ y ∈ hosts', HasChild σ' y c) :
    Hung σ' hosts' ids := by
  induction ids generalizing hosts hosts' with
  | nil => trivial
  | cons id ids ih =>
    obtain ⟨⟨host, hhost, hid⟩, hrest⟩ := h
    refine ⟨?_, ih hrest (List.cons_subset_cons id hsub) fun x hx c hc => ?_⟩
    · rcases hchild host (List.mem_append_right _ hhost) id hid with hid | hid
      · exact ⟨host, hsub hhost, hid⟩
      · exact hid
    · have hx' : x ∈ (id :: ids) ++ hosts := by
        simp only [List.mem_append, List.mem_cons] at hx ⊢
        tauto
      exact (hchild x hx' c hc).imp_right fun ⟨y, hy, hc⟩ => ⟨y, List.mem_cons_of_mem _ hy, hc⟩

/-- A page of the tree takes the page handed out last for a child. -/
theorem Hung.takes {right : PageId} {p' : Page} (h : Hung σ (right :: old) rest) (hp : σ.page p.pageId = some p)
    (hold : p.pageId ∈ old) (hid : p'.pageId = p.pageId) (hright : right ∈ p'.kids) (hkids : ∀ x ∈ p.kids, x ∈ p'.kids) :
    Hung (σ.put p') old (right :: rest) := by
  have hp' : (σ.put p').page p.pageId = some p' := Store.put_same _ hid
  refine ⟨⟨p.pageId, hold, p', hp', hright⟩, h.mono (List.Subset.refl _) fun x _ c hc => Or.inl ?_⟩
  by_cases hx : x = p.pageId
  · obtain ⟨q, hq, hc⟩ := hc
    rw [hx, hp] at hq
    cases hq
    exact ⟨p', hx ▸ hp', hkids c hc⟩
  · exact hc.congr (Store.put_ne _ (by rwa [hid]))

/-- A page of the tree is cut, and one half takes the page handed out last. -/
theorem Hung.cut {right fresh : PageId} {left' right' : Page} (h : Hung σ (right :: old) rest)
    (hp : σ.page p.pageId = some p)
    (hold : p.pageId ∈ old) (hleft : σ'.page p.pageId = some left') (hfresh : σ'.page fresh = some right')
    (hright : right ∈ left'.kids ∨ right ∈ right'.kids) (hkids : ∀ x ∈ p.kids, x ∈ left'.kids ∨ x ∈ right'.kids)
    (hne : ∀ x ∈ rest ++ right :: old, x ≠ p.pageId → σ'.page x = σ.page x) : Hung σ' (fresh :: old) (right :: rest) := by
  have hhalf : ∀ {x : PageId}, x ∈ left'.kids ∨ x ∈ right'.kids → ∃ host ∈ fresh :: old, HasChild σ' host x := by
    rintro x (hx | hx)
    · exact ⟨p.pageId, List.mem_cons_of_mem _ hold, left', hleft, hx⟩
    · exact ⟨fresh, List.mem_cons_self, right', hfresh, hx⟩
  refine ⟨hhalf hright, h.mono (List.cons_subset_cons _ (List.subset_cons_self _ _)) fun x hx c hc => ?_⟩
  by_cases hxp : x = p.pageId
  · obtain ⟨q, hq, hc⟩ := hc
    rw [hxp, hp] at hq
    cases hq
    obtain ⟨host, hhost, hchild⟩ := hhalf (hkids c hc)
    exact Or.inr ⟨host, List.mem_cons_of_mem _ hhost, hchild⟩
  · exact Or.inl (hc.congr (hne x hx hxp))

end

/-! ## The books -/

/-- Every page number below `count` is one of the pages handed out (`held`), of the pages the
    tree had before (`old`) or of the free ones; `n` more can be counted. -/
structure Books (t : Table) (old : List PageId) (σ : Store) (root : PageId) (count : UInt32) (free held : List PageId)
    (n : Nat) : Prop where
  metaRep : t.MetaRep σ root count free
  rootTable : root.tableId = t.metaId.tableId
  owned : t.Owned count (held ++ old ++ free)
  total : held.length + old.length + free.length + 1 = count.toNat
  room : count.toNat + n < 2 ^ 32
  stored : ∀ id ∈ held ++ old, (σ.page id).isSome
  trim : ∀ id p, σ.page id = some p → id.tableId = t.metaId.tableId → id.pageNum < count

section
variable {t : Table} {old : List PageId} {σ : Store} {root : PageId} {count : UInt32} {free held : List PageId} {n : Nat}

theorem Books.not_free (h : Books t old σ root count free held n) {x : PageId} (hx : x ∈ held ++ old) : x ∉ free :=
  fun hf => (List.nodup_append.mp h.owned.nodup).2.2 _ hx _ hf rfl

theorem Books.ne_meta (h : Books t old σ root count free held n) {x : PageId} (hx : x ∈ held ++ old) : x ≠ t.metaId :=
  h.owned.ne_meta (List.mem_append_left _ hx)

/-- A stored page, neither free nor the meta page, is written back. -/
theorem Books.put (h : Books t old σ root count free held n) {p : Page} (hm : p.pageId ≠ t.metaId) (hf : p.pageId ∉ free)
    (hs : (σ.page p.pageId).isSome) : Books t old (σ.put p) root count free held n where
  metaRep := h.metaRep.congr (Store.put_ne _ hm.symm) fun x hx => Store.put_ne _ fun he => hf (he ▸ hx)
  rootTable := h.rootTable
  owned := h.owned
  total := h.total
  room := h.room
  stored id hid := Store.put_isSome (h.stored id hid)
  trim id q hq hid := by
    by_cases he : id = p.pageId
    · obtain ⟨p', hp'⟩ := Option.isSome_iff_exists.mp hs
      exact h.trim id p' (he ▸ hp') hid
    · rw [Store.put_ne _ he] at hq
      exact h.trim id q hq hid

theorem Books.put_known (h : Books t old σ root count free held n) {p : Page} (hp : p.pageId ∈ held ++ old) :
    Books t old (σ.put p) root count free held n :=
  h.put (h.ne_meta hp) (h.not_free hp) (h.stored _ hp)

theorem Books.weaken {m : Nat} (h : Books t old σ root count free held n) (hm : m ≤ n) : Books t old σ root count free
    held m :=
  { h with room := by have := h.room; omega }

namespace Table

theorem FreeChain.stored {σ : Store} {free : List PageId} (h : FreeChain σ free) {id : PageId} (hid : id ∈ free) :
    ∃ lsn next, σ.page id = some ⟨id, lsn, .free next⟩ ∧ ∀ y ∈ next, y ∈ free := by
  induction free with
  | nil => cases hid
  | cons x rest ih =>
    rcases List.mem_cons.mp hid with rfl | hid
    · obtain ⟨lsn, hx⟩ := h.1
      exact ⟨lsn, _, hx, fun y hy => List.mem_cons_of_mem _ (List.mem_of_head? hy)⟩
    · obtain ⟨lsn, next, hx, hnext⟩ := ih h.2 hid
      exact ⟨lsn, next, hx, fun y hy => List.mem_cons_of_mem _ (hnext y hy)⟩

theorem ensures_bpm {α : Type} {post : α → Store → Prop} {p : Call BpmError α} (h : Ensures post σ p) : Ensures post σ
    (bpm p) :=
  h.mapErr

/-- The page `allocate` hands out goes on the books. -/
theorem ensures_allocate (h : Books t old σ root count free held (n + 1)) :
    Ensures (fun p σ' => ∃ count' free', Books t old σ' root count' free' (p.pageId :: held) n ∧
      σ'.page p.pageId = some p ∧ p.kids = [] ∧ ∀ x, x ≠ t.metaId → x ≠ p.pageId → σ'.page x = σ.page x) σ t.allocate := by
  obtain ⟨lsn, schema, name, hpage, hvalid⟩ := h.metaRep.metaPage
  refine (ensures_bpm (ensures_fetchWrite _)).bind ?_
  rintro guard _ ⟨rfl, hguard⟩
  obtain rfl := Option.some.inj (hguard.symm.trans hpage)
  rcases free with _ | ⟨head, rest⟩
  · -- nothing to reuse: a page numbered at the end of the table
    refine (ensures_change TableError.page _).bind ?_
    rintro ⟨id, m'⟩ _ ⟨rfl, rfl, hid⟩
    obtain rfl : ⟨t.metaId.tableId, count⟩ = id := by
      simp only [Page.metaBumpPageCount, Except.ok.injEq] at hid
      rw [← hid, h.rootTable]
    have hpos : count ≠ 0 := by
      rintro rfl
      have := h.total
      simp at this
    have hne : (⟨t.metaId.tableId, count⟩ : PageId) ≠ t.metaId := fun he => hpos
        ((congrArg PageId.pageNum he).trans h.owned.zero)
    obtain ⟨hmrep, hframe⟩ := h.metaRep.bump hpage hne
    have hroom := h.room
    refine (ensures_bpm (ensures_newPage _)).bind ?_
    rintro fresh _ ⟨rfl, rfl⟩
    refine (ensures_drop _).bind ?_
    rintro _ _ rfl
    have hcount : (count + 1).toNat = count.toNat + 1 := by
      rw [UInt32.toNat_add, UInt32.toNat_one, Nat.mod_eq_of_lt (by omega)]
    refine Ensures.pure ⟨count + 1, [], {
      metaRep := hmrep
      rootTable := h.rootTable
      owned := h.owned.bump (by omega) hpos
      total := by
        have := h.total
        simp only [List.length_cons, List.length_nil] at this ⊢
        omega
      room := by omega
      stored := fun id hid => ?_
      trim := fun id p hp hid => ?_ }, Store.put_self _ _, rfl, hframe⟩
    · rcases List.mem_cons.mp hid with rfl | hid
      · rw [Store.put_same _ rfl]
        rfl
      · exact Store.put_isSome (Store.put_isSome (h.stored id hid))
    have hlt : count < count + 1 := by
      rw [UInt32.lt_iff_toNat_lt]
      omega
    by_cases he : id = ⟨t.metaId.tableId, count⟩
    · rw [he]
      exact hlt
    by_cases hm : id = t.metaId
    · rw [hm, h.owned.zero]
      exact UInt32.lt_of_le_of_lt (by simp) hlt
    · exact UInt32.lt_trans (h.trim id p ((hframe id hm he).symm.trans hp) hid) hlt
  · -- the head of the free list
    obtain ⟨lsn', hhead⟩ := h.metaRep.chain.1
    refine (ensures_bpm (ensures_fetchWrite _)).bind ?_
    rintro freeGuard _ ⟨rfl, hfree⟩
    obtain rfl := Option.some.inj (hfree.symm.trans hhead)
    refine (ensures_change TableError.page _).bind ?_
    rintro ⟨id, m'⟩ _ ⟨rfl, -, -⟩
    simp only [List.head?_cons, Page.freeListPop_head]
    refine (ensures_put _).bind ?_
    rintro _ _ rfl
    refine (ensures_drop _).bind ?_
    rintro _ _ rfl
    obtain ⟨hmrep, hframe⟩ := h.metaRep.pop h.owned hpage
    have hroom := h.room
    refine Ensures.pure ⟨count, rest, {
      metaRep := hmrep
      rootTable := h.rootTable
      owned := h.owned.perm List.perm_middle.symm
      total := by
        have := h.total
        simp only [List.length_cons] at this ⊢
        omega
      room := by omega
      stored := fun id hid => ?_
      trim := fun id p hp hid => ?_ }, Store.put_self _ _, rfl, hframe⟩
    · rcases List.mem_cons.mp hid with rfl | hid
      · exact Option.isSome_iff_exists.mpr ⟨_, Store.put_self _ (Page.emptyPage id (.free none))⟩
      · exact Store.put_isSome (Store.put_isSome (h.stored id hid))
    by_cases he : id = head
    · rw [he]
      exact h.owned.lt head (by simp)
    by_cases hm : id = t.metaId
    · exact h.trim id _ (by rw [hm]; exact hpage) hid
    · exact h.trim id p ((hframe id hm he).symm.trans hp) hid

theorem ensures_rootId {σ : Store} (hm : t.MetaRep σ root count free) :
    Ensures (fun id σ' => σ = σ' ∧ root = id) σ t.rootId := by
  obtain ⟨lsn, schema, name, hpage, -⟩ := hm.metaPage
  refine (ensures_bpm (ensures_fetchRead _)).bind ?_
  rintro guard _ ⟨rfl, hguard⟩
  obtain rfl := Option.some.inj (hguard.symm.trans hpage)
  refine (ensures_drop _).bind ?_
  rintro _ _ rfl
  exact Ensures.pure ⟨rfl, rfl⟩

theorem ensures_setRootId (h : Books t old σ root count free held n) {id : PageId} (hid : id.tableId = t.metaId.tableId) :
    Ensures (fun _ σ' => Books t old σ' id count free held n ∧ ∀ x, x ≠ t.metaId → σ'.page x = σ.page x) σ
    (t.setRootId id) := by
  obtain ⟨lsn, schema, name, hpage, hvalid⟩ := h.metaRep.metaPage
  refine (ensures_bpm (ensures_fetchWrite _)).bind ?_
  rintro guard σ ⟨rfl, hguard⟩
  obtain rfl := Option.some.inj (hguard.symm.trans hpage)
  refine (ensures_change TableError.page _).bind ?_
  rintro ⟨_, m'⟩ _ ⟨rfl, -, -⟩
  refine (ensures_drop _).mono ?_
  rintro _ _ rfl
  let m' : Page := ⟨t.metaId, lsn, .metaPage id count free.head? schema name⟩
  have hne : ∀ x, x ≠ t.metaId → (σ.put m').page x = σ.page x := fun x hx => Store.put_ne _ (p := m') hx
  refine ⟨{ h with
    metaRep := ⟨⟨lsn, schema, name, Store.put_self _ m', valid_meta hvalid hvalid.2.1⟩, h.metaRep.chain.congr fun x hx =>
      hne x (h.owned.ne_meta (List.mem_append_right _ hx))⟩
    rootTable := hid
    stored := fun x hx => Store.put_isSome (h.stored x hx)
    trim := fun x p hp hx => ?_ }, hne⟩
  by_cases hm : x = t.metaId
  · exact h.trim x _ (by rw [hm]; exact hpage) hx
  · exact h.trim x p ((hne x hm).symm.trans hp) hx

end Table

end

/-! ## The pages of a tree -/

namespace BTree

section
variable {σ : Store}

theorem stored_of_all : ∀ {h : Nat} {T : PageTree h}, T.All (leafAt σ) (nodeAt σ) → ∀ id ∈ T.ids, (σ.page id).isSome
  | 0, T => T.casesZero fun id rows hT x hx => by
    obtain ⟨_, _, _, hp⟩ := Tree.all_leaf.mp hT
    rw [Tree.ids_leaf] at hx
    rw [List.mem_singleton.mp hx, hp]
    rfl
  | h + 1, T => T.casesSucc fun id keys kids hT x hx => by
    obtain ⟨⟨_, hp⟩, hkids⟩ := Tree.all_inner.mp hT
    rw [Tree.ids_inner] at hx
    rcases List.mem_cons.mp hx with rfl | hx
    · rw [hp]
      rfl
    · obtain ⟨kid, hkid, hx⟩ := List.mem_flatMap.mp hx
      exact stored_of_all (hkids kid hkid) x hx

/-- The children of a tree's page are in the tree. -/
theorem child_mem : ∀ {h : Nat} {T : PageTree h}, T.All (leafAt σ) (nodeAt σ) → ∀ {x c : PageId}, x ∈ T.ids →
    HasChild σ x c → c ∈ T.ids
  | 0, T => T.casesZero fun id rows hT x c hx hc => by
    obtain ⟨_, _, _, hp⟩ := Tree.all_leaf.mp hT
    obtain ⟨p, hp', hc⟩ := hc
    rw [Tree.ids_leaf] at hx
    rw [List.mem_singleton.mp hx, hp] at hp'
    cases hp'
    cases hc
  | h + 1, T => T.casesSucc fun id keys kids hT x c hx hc => by
    obtain ⟨⟨_, hp⟩, hkids⟩ := Tree.all_inner.mp hT
    rw [Tree.ids_inner] at hx ⊢
    refine List.mem_cons_of_mem _ (List.mem_flatMap.mpr ?_)
    rcases List.mem_cons.mp hx with rfl | hx
    · obtain ⟨p, hp', hc⟩ := hc
      rw [hp] at hp'
      cases hp'
      obtain ⟨kid, hkid, rfl⟩ := List.mem_map.mp (show c ∈ kids.map Tree.rootId from hc)
      exact ⟨kid, hkid, Tree.rootId_mem_ids kid⟩
    · obtain ⟨kid, hkid, hx⟩ := List.mem_flatMap.mp hx
      exact ⟨kid, hkid, child_mem (hkids kid hkid) hx hc⟩

/-- Pages that hang from a tree's are in the tree. -/
theorem hung_subset {h : Nat} {T : PageTree h} (hT : T.All (leafAt σ) (nodeAt σ)) {hosts ids : List PageId}
    (hhosts : hosts ⊆ T.ids)
    (hh : Hung σ hosts ids) : ids ⊆ T.ids := by
  induction ids generalizing hosts with
  | nil => exact List.nil_subset _
  | cons id ids ih =>
    obtain ⟨⟨host, hhost, hchild⟩, hrest⟩ := hh
    have hid := child_mem hT (hhosts hhost) hchild
    exact List.cons_subset.mpr ⟨hid, ih (List.cons_subset.mpr ⟨hid, hhosts⟩) hrest⟩

end

/-! ## `insert` -/

theorem ensures_bpm {α : Type} {σ : Store} {post : α → Store → Prop} {p : Call BpmError α} (h : Ensures post σ p) :
    Ensures post σ (bpm p) := h.mapErr

/-- The books at the end of an `insert`: the pages handed out hang from the tree. -/
def Closed (t : Table) (old : List PageId) (σ : Store) : Prop :=
  ∃ root count free held, Books t old σ root count free held 0 ∧
    (Hung σ old held ∨ ∃ rest, held = root :: rest ∧ Hung σ (root :: old) rest)

/-- Internal pages of the tree, as they are stored, none twice. -/
structure Stacked (old : List PageId) (σ : Store) (ancestors : List Page) : Prop where
  old : ∀ p ∈ ancestors, p.pageId ∈ old
  stored : ∀ p ∈ ancestors, σ.page p.pageId = some p
  internal : ∀ p ∈ ancestors, p.isInternal
  nodup : (ancestors.map Page.pageId).Nodup

section
variable {t : Table} {old : List PageId} {σ σ' : Store} {root : PageId} {count : UInt32} {free held rest : List PageId}
  {n : Nat} {p : Page} {ancestors : List Page}

theorem Stacked.congr (h : Stacked old σ ancestors) (he : ∀ q ∈ ancestors, σ'.page q.pageId = σ.page q.pageId) :
    Stacked old σ' ancestors :=
  { h with stored := fun q hq => (he q hq).trans (h.stored q hq) }

theorem Stacked.tail (h : Stacked old σ (p :: ancestors)) : Stacked old σ ancestors where
  old q hq := h.old q (List.mem_cons_of_mem _ hq)
  stored q hq := h.stored q (List.mem_cons_of_mem _ hq)
  internal q hq := h.internal q (List.mem_cons_of_mem _ hq)
  nodup := (List.nodup_cons.mp h.nodup).2

theorem Stacked.ne_head (h : Stacked old σ (p :: ancestors)) {q : Page} (hq : q ∈ ancestors) : q.pageId ≠ p.pageId :=
  fun he => (List.nodup_cons.mp h.nodup).1 (he ▸ List.mem_map_of_mem hq)

theorem ensures_splitLoop : ∀ {ancestors : List Page} {σ : Store} {root : PageId} {count : UInt32} {free rest : List PageId}
    {leftId right : PageId} {sep : Key}, Books t old σ root count free (right :: rest) (ancestors.length + 1) →
    Hung σ (right :: old) rest → Stacked old σ ancestors →
    Ensures (fun _ σ' => Closed t old σ') σ (splitLoop t ancestors leftId sep right)
  | [], σ, root, count, free, rest, leftId, right, sep, hb, hhung, _ => by
    refine (Table.ensures_allocate hb).expect.bind ?_
    rintro fresh σ₁ ⟨count', free', hb₁, hfresh, -, hne⟩
    refine (ensures_put _).bind ?_
    rintro _ _ rfl
    let top : Page := Page.newRoot fresh.pageId leftId sep right
    have hmem : fresh.pageId ∈ fresh.pageId :: right :: rest ++ old := by simp
    have hb₂ : Books t old (σ₁.put top) root count' free' (fresh.pageId :: right :: rest) 0 :=
      hb₁.put_known (p := top) hmem
    refine (Table.ensures_setRootId hb₂ (hb₁.owned.table _ (List.mem_append_left _ hmem))).expect.bind ?_
    rintro _ σ₂ ⟨hb₃, hne₃⟩
    refine (ensures_drop _).bind ?_
    rintro _ σ₂ rfl
    have htop : σ₂.page fresh.pageId = some top := (hne₃ _ (hb₁.ne_meta hmem)).trans (Store.put_self _ top)
    refine Ensures.pure ⟨_, _, _, _, hb₃, Or.inr ⟨right :: rest, rfl, ⟨fresh.pageId, List.mem_cons_self, top, htop, ?_⟩, ?_⟩⟩
    · simp [top, Page.kids, Page.newRoot, Page.children?]
    refine hhung.mono (List.cons_subset_cons _ (List.subset_cons_self _ _)) fun x hx c hc => Or.inl (hc.congr ?_)
    -- only the meta page and the new root were written
    have hx' : x ∈ right :: rest ++ old := by
      simp only [List.mem_append, List.mem_cons] at hx ⊢
      tauto
    have hxm : x ≠ t.metaId := hb.ne_meta hx'
    have hxf : x ≠ fresh.pageId := by
      rintro rfl
      exact (List.nodup_cons.mp (List.nodup_append.mp hb₁.owned.nodup).1).1 hx'
    exact (hne₃ x hxm).trans ((Store.put_ne _ (p := top) hxf).trans (hne x hxm hxf))
  | parent :: ancestors, σ, root, count, free, rest, leftId, right, sep, hb, hhung, hst => by
    have hpold := hst.old parent List.mem_cons_self
    have hpage := hst.stored parent List.mem_cons_self
    rw [splitLoop]
    refine Ensures.ite (fun _ => ?_) fun _ => ?_
    · -- the page has room
      refine (ensures_change BTreeError.page _).bind ?_
      rintro ⟨_, p'⟩ _ ⟨rfl, rfl, hok⟩
      refine (ensures_drop _).bind ?_
      rintro _ _ h
      subst h
      obtain ⟨hid, hright, hkids⟩ := Page.internalInsert_kids (Prod.ext hok rfl)
      have hmem := List.mem_append_right (right :: rest) hpold
      rw [← hid] at hmem
      exact Ensures.pure ⟨_, _, _, _, (hb.put_known hmem).weaken (Nat.zero_le _), Or.inl
          (hhung.takes hpage hpold hid hright hkids)⟩
    · -- it is cut
      refine (Table.ensures_allocate hb).expect.bind ?_
      rintro fresh σ₁ ⟨count', free', hb₁, hfresh, -, hne⟩
      refine (ensures_change BTreeError.page _).bind ?_
      rintro ⟨⟨promoted, rp⟩, lp⟩ _ ⟨rfl, hlp, hok⟩
      have hsplit : parent.splitPage fresh.pageId = (.ok (promoted, rp), lp) := Prod.ext hok hlp.symm
      rw [hsplit]
      obtain ⟨hlid, hrid, hkids⟩ := Page.splitPage_kids hsplit
      have hpm : parent.pageId ∈ fresh.pageId :: right :: rest ++ old := List.mem_append_right _ hpold
      have hfm : fresh.pageId ∈ fresh.pageId :: right :: rest ++ old := List.mem_cons_self
      have hfnew : fresh.pageId ∉ right :: rest ++ old := (List.nodup_cons.mp (List.nodup_append.mp hb₁.owned.nodup).1).1
      have hpf : parent.pageId ≠ fresh.pageId := fun he => hfnew (he ▸ List.mem_append_right _ hpold)
      refine (ensures_put _).bind ?_
      rintro _ _ rfl
      -- the separator goes into one of the halves, and the loop goes on above them
      have hnext : ∀ q left' right' : Page, q.pageId = parent.pageId ∨ q.pageId = fresh.pageId →
          (((σ₁.put lp).put rp).put q).page parent.pageId = some left' →
          (((σ₁.put lp).put rp).put q).page fresh.pageId = some right' → (right ∈ left'.kids ∨ right ∈ right'.kids) →
          (∀ x ∈ parent.kids, x ∈ left'.kids ∨ x ∈ right'.kids) →
          Ensures (fun _ σ' => Closed t old σ') (((σ₁.put lp).put rp).put q) (do
            drop rp.pageId
            drop lp.pageId
            splitLoop t ancestors lp.pageId promoted rp.pageId) := by
        intro q left' right' hq hleft' hright' hright hkids
        have hne' : ∀ x, x ≠ parent.pageId → x ≠ fresh.pageId → (((σ₁.put lp).put rp).put q).page x = σ₁.page x := by
          intro x hxp hxf
          rw [Store.put_ne _ (by rcases hq with hq | hq <;> rwa [hq]), Store.put_ne _ (by rwa [hrid]),
            Store.put_ne _ (by rwa [hlid])]
        have hkept : ∀ x ∈ right :: rest ++ old, x ≠ parent.pageId → (((σ₁.put lp).put rp).put q).page x = σ.page x := by
          intro x hx hxp
          have hxf : x ≠ fresh.pageId := fun he => hfnew (he ▸ hx)
          rw [hne' x hxp hxf, hne x (hb.ne_meta hx) hxf]
        have hbq : Books t old (((σ₁.put lp).put rp).put q) root count' free' (fresh.pageId :: right :: rest)
            (ancestors.length + 1) := by
          refine ((hb₁.put_known ?_).put_known ?_).put_known ?_
          · rwa [hlid]
          · rwa [hrid]
          · rcases hq with hq | hq <;> rwa [hq]
        refine (ensures_drop _).bind ?_
        rintro _ _ h
        subst h
        refine (ensures_drop _).bind ?_
        rintro _ _ h
        subst h
        rw [hrid]
        refine ensures_splitLoop hbq (hhung.cut hpage hpold hleft' hright' hright hkids fun x hx => hkept x ?_)
          (hst.tail.congr fun x hx => hkept _ (List.mem_append_right _ (hst.tail.old x hx)) (hst.ne_head hx))
        simp only [List.mem_append, List.mem_cons] at hx ⊢
        tauto
      refine Ensures.ite (fun _ => ?_) fun _ => ?_
      · refine (ensures_change BTreeError.page _).bind ?_
        rintro ⟨_, p'⟩ _ ⟨rfl, rfl, hok⟩
        obtain ⟨hid, hright, hinto⟩ := Page.internalInsert_kids (Prod.ext hok rfl)
        rw [hrid] at hid
        refine hnext _ lp _ (Or.inr hid) ?_ (Store.put_same _ hid) (Or.inr hright) fun x hx => (hkids x hx).imp_right
            (hinto x)
        rw [Store.put_ne _ (by rwa [hid]), Store.put_ne _ (by rwa [hrid])]
        exact Store.put_same _ hlid
      · refine (ensures_change BTreeError.page _).bind ?_
        rintro ⟨_, p'⟩ _ ⟨rfl, rfl, hok⟩
        obtain ⟨hid, hright, hinto⟩ := Page.internalInsert_kids (Prod.ext hok rfl)
        rw [hlid] at hid
        refine hnext _ _ rp (Or.inl hid) (Store.put_same _ hid) ?_ (Or.inl hright) fun x hx => (hkids x hx).imp_left
            (hinto x)
        rw [Store.put_ne _ (by rw [hid]; exact hpf.symm)]
        exact Store.put_same _ hrid

theorem Stacked.put {q : Page} (h : Stacked old σ ancestors) (hq : ∀ a ∈ ancestors, a.pageId ≠ q.pageId) :
    Stacked old (σ.put q) ancestors :=
  h.congr fun a ha => Store.put_ne _ (hq a ha)

/-- A leaf is none of the internal pages above it. -/
theorem Stacked.ne_leaf {leaf : Page} (h : Stacked old σ ancestors) (hp : σ.page leaf.pageId = some leaf)
    (hl : leaf.isLeaf) :
    ∀ a ∈ ancestors, a.pageId ≠ leaf.pageId := by
  intro a ha he
  have hstored := h.stored a ha
  rw [he, hp] at hstored
  cases hstored
  have hinternal := h.internal leaf ha
  obtain ⟨id, lsn, _ | _ | _ | _⟩ := leaf
  · cases hinternal
  all_goals cases hl

/-- The neighbour written is a leaf of its own. -/
theorem ensures_fixPrev (hb : Books t old σ root count free held n) (hst : Stacked old σ ancestors) (next : Option PageId)
    (new : PageId) :
    Ensures (fun _ σ' => Books t old σ' root count free held n ∧ Stacked old σ' ancestors) σ (fixPrev next new) := by
  rcases next with _ | id
  · exact Ensures.pure ⟨hb, hst⟩
  refine (ensures_bpm (ensures_fetchWrite _)).bind ?_
  rintro q σ ⟨rfl, hq⟩
  refine (ensures_change BTreeError.page _).bind ?_
  rintro ⟨_, q'⟩ _ ⟨rfl, rfl, hok⟩
  refine (ensures_drop _).mono ?_
  rintro _ _ rfl
  obtain ⟨hleaf, hid, -⟩ := Page.setPrev_leaf (Prod.ext hok rfl)
  rw [← σ.named hq] at hq
  refine ⟨hb.put ?_ ?_ ?_, hst.put ?_⟩
  · rw [hid]
    intro hm
    obtain ⟨lsn, schema, name, hpage, -⟩ := hb.metaRep.metaPage
    rw [hm, hpage] at hq
    rw [← Option.some.inj hq] at hleaf
    cases hleaf
  · rw [hid]
    intro hf
    obtain ⟨lsn, next, hpage, -⟩ := hb.metaRep.chain.stored hf
    rw [hpage] at hq
    rw [← Option.some.inj hq] at hleaf
    cases hleaf
  · rw [hid, hq]
    rfl
  · rw [hid]
    exact hst.ne_leaf hq hleaf

theorem ensures_clear : Ensures (fun _ σ' => σ = σ') σ (clear ancestors) := ensures_dropAll _

theorem ensures_splitAndInsert {leaf : Page} {row : ValidatedRow} (hb : Books t old σ root count free []
    (ancestors.length + 2))
    (hst : Stacked old σ ancestors) (hold : leaf.pageId ∈ old) (hp : σ.page leaf.pageId = some leaf) (hl : leaf.isLeaf) :
    Ensures (fun _ σ' => Closed t old σ') σ (splitAndInsert t leaf row ancestors) := by
  have hneLeaf := hst.ne_leaf hp hl
  refine (Table.ensures_allocate hb).expect.bind ?_
  rintro fresh σ₁ ⟨count', free', hb₁, hfresh, -, hne⟩
  have hlm : leaf.pageId ∈ [fresh.pageId] ++ old := List.mem_append_right _ hold
  have hfm : fresh.pageId ∈ [fresh.pageId] ++ old := List.mem_cons_self
  have hneFresh : ∀ a ∈ ancestors, a.pageId ≠ fresh.pageId := fun a ha he =>
    (List.nodup_cons.mp (List.nodup_append.mp hb₁.owned.nodup).1).1 (he ▸ hst.old a ha)
  have hst₁ : Stacked old σ₁ ancestors := hst.congr fun a ha => hne _ (hb.ne_meta (hst.old a ha)) (hneFresh a ha)
  refine (ensures_change BTreeError.page _).bind ?_
  rintro ⟨⟨sep, rp⟩, lp⟩ _ ⟨rfl, hlp, hok⟩
  have hsplit : leaf.splitPage fresh.pageId = (.ok (sep, rp), lp) := Prod.ext hok hlp.symm
  rw [hsplit]
  obtain ⟨hlid, hrid, -⟩ := Page.splitPage_kids hsplit
  have hknown : ∀ {τ : Store} {q : Page}, (q.pageId = leaf.pageId ∨ q.pageId = fresh.pageId) →
      Books t old τ root count' free' [fresh.pageId] (ancestors.length + 1) → Stacked old τ ancestors →
      Books t old (τ.put q) root count' free' [fresh.pageId] (ancestors.length + 1) ∧ Stacked old (τ.put q) ancestors := by
    rintro τ q hq hbτ hstτ
    refine ⟨hbτ.put_known ?_, hstτ.put fun a ha => ?_⟩
    · rcases hq with hq | hq <;> rwa [hq]
    · rcases hq with hq | hq <;> rw [hq]
      · exact hneLeaf a ha
      · exact hneFresh a ha
  obtain ⟨hb₂, hst₂⟩ := hknown (Or.inl hlid) hb₁ hst₁
  refine (ensures_put _).bind ?_
  rintro _ _ rfl
  obtain ⟨hb₃, hst₃⟩ := hknown (Or.inr hrid) hb₂ hst₂
  refine (ensures_page _ _).bind ?_
  rintro next _ ⟨h, -⟩
  subst h
  refine (ensures_fixPrev hb₃ hst₃ next _).bind ?_
  rintro _ σ₄ ⟨hb₄, hst₄⟩
  have hrest : ∀ {q : Page}, (q.pageId = leaf.pageId ∨ q.pageId = fresh.pageId) →
      Ensures (fun _ σ' => Closed t old σ') (σ₄.put q) (do
        let ancestors ← splitLoop t ancestors lp.pageId sep rp.pageId
        drop rp.pageId
        clear ancestors
        drop lp.pageId) := by
    intro q hq
    obtain ⟨hb₅, hst₅⟩ := hknown hq hb₄ hst₄
    rw [hrid]
    refine (ensures_splitLoop hb₅ trivial hst₅).bind fun anc τ hτ => ?_
    refine (ensures_drop _).bind ?_
    rintro _ _ rfl
    refine ensures_clear.bind ?_
    rintro _ _ rfl
    refine (ensures_drop _).mono ?_
    rintro _ _ rfl
    exact hτ
  refine Ensures.ite (fun _ => ?_) fun _ => ?_
  · refine (ensures_change BTreeError.page _).bind ?_
    rintro ⟨_, q⟩ _ ⟨rfl, rfl, hok⟩
    exact hrest (Or.inl ((Page.leafInsert_kids (Prod.ext hok rfl)).1.trans hlid))
  · refine (ensures_change BTreeError.page _).bind ?_
    rintro ⟨_, q⟩ _ ⟨rfl, rfl, hok⟩
    exact hrest (Or.inr ((Page.leafInsert_kids (Prod.ext hok rfl)).1.trans hrid))

theorem ensures_insertAtLeaf {leaf : Page} {row : ValidatedRow} (hb : Books t old σ root count free []
    (ancestors.length + 2))
    (hst : Stacked old σ ancestors) (hold : leaf.pageId ∈ old) (hp : σ.page leaf.pageId = some leaf) :
    Ensures (fun _ σ' => Closed t old σ') σ (insertAtLeaf t row leaf ancestors) := by
  refine Ensures.ite (fun _ => ?_) fun _ => ?_
  · refine (ensures_change BTreeError.page _).bind ?_
    rintro ⟨_, q⟩ _ ⟨rfl, rfl, hok⟩
    refine ensures_clear.bind ?_
    rintro _ _ rfl
    refine (ensures_drop _).mono ?_
    rintro _ _ rfl
    have hmem : leaf.pageId ∈ [] ++ old := hold
    rw [← (Page.leafInsert_kids (Prod.ext hok rfl)).1] at hmem
    exact ⟨_, _, _, [], (hb.put_known hmem).weaken (Nat.zero_le _), Or.inl trivial⟩
  · refine (ensures_page _ _).bind ?_
    rintro found _ ⟨h, hfound⟩
    subst h
    cases found with
    | some _ => exact Ensures.throw _
    | none =>
      refine ensures_splitAndInsert hb hst hold hp ?_
      obtain ⟨id, lsn, _ | _ | _ | _⟩ := leaf
      · rfl
      all_goals cases hfound

/-- The descent goes down the tree and writes nothing. -/
theorem ensures_insertDescend {row : ValidatedRow} : ∀ {h : Nat} {T : PageTree h} {fuel : Nat} {p : Page}
    {ancestors : List Page},
    T.All (leafAt σ) (nodeAt σ) → T.ids ⊆ old → σ.page T.rootId = some p → Stacked old σ ancestors →
    (ancestors.map Page.pageId ++ T.ids).Nodup →
    Ensures (fun x σ' => σ = σ' ∧ Stacked old σ x.2 ∧ x.2.length ≤ ancestors.length + h ∧ x.1.pageId ∈ old ∧
      σ.page x.1.pageId = some x.1) σ (insertDescend row fuel p ancestors)
  | _, _, 0, _, _ => fun _ _ _ _ _ => Ensures.throw _
  | 0, T, fuel + 1, p, ancestors => T.casesZero fun id rows hT hold hp hst hnd => by
    obtain ⟨lsn, nx, pv, hp'⟩ := Tree.all_leaf.mp hT
    obtain rfl := Option.some.inj (hp.symm.trans hp')
    exact Ensures.pure ⟨rfl, hst, Nat.le_add_right _ _, hold (by simp), hp'⟩
  | h + 1, T, fuel + 1, p, ancestors => T.casesSucc fun id keys kids hT hold hp hst hnd => by
    obtain ⟨⟨lsn, hp'⟩, hkids⟩ := Tree.all_inner.mp hT
    obtain rfl := Option.some.inj (hp.symm.trans hp')
    refine Ensures.ite (fun _ => ?_) fun hi => absurd rfl hi
    refine (ensures_page _ _).bind ?_
    rintro found _ ⟨h, hfound⟩
    subst h
    obtain ⟨c, hc, rfl⟩ := Page.findChild_kids rfl hfound
    obtain ⟨kid, hkid, rfl⟩ := List.mem_map.mp (show c ∈ kids.map Tree.rootId from hc)
    rw [Tree.ids_inner] at hold hnd
    have hsub : kid.ids ⊆ old := fun x hx => hold (List.mem_cons_of_mem _ (List.mem_flatMap.mpr ⟨kid, hkid, hx⟩))
    have hkidIds : kid.ids.Sublist (kids.flatMap Tree.ids) := by
      obtain ⟨ca, cb, rfl⟩ := List.append_of_mem hkid
      rw [List.flatMap_append, List.flatMap_cons]
      exact (List.sublist_append_left _ _).trans (List.sublist_append_right _ _)
    obtain ⟨hnda, hndT, hdis⟩ := List.nodup_append.mp hnd
    have hndk := (List.nodup_cons.mp hndT).2.sublist hkidIds
    refine (ensures_bpm (ensures_fetchWrite _)).bind ?_
    rintro q _ ⟨h, hq⟩
    subst h
    refine Ensures.ite (fun _ => ?_) fun _ => ?_
    · refine ensures_clear.bind ?_
      rintro _ _ h
      subst h
      refine (ensures_insertDescend (hkids kid hkid) hsub hq (⟨by simp, by simp, by simp, by simp⟩ : Stacked old σ [])
          hndk).mono ?_
      rintro x _ ⟨h, hx, hlen, hrest⟩
      simp only [List.length_nil] at hlen
      exact ⟨h, hx, by omega, hrest⟩
    · have hst' : Stacked old σ (⟨id, lsn, .internal keys (kids.map Tree.rootId)⟩ :: ancestors) := {
        old := List.forall_mem_cons.mpr ⟨hold List.mem_cons_self, hst.old⟩
        stored := List.forall_mem_cons.mpr ⟨hp', hst.stored⟩
        internal := List.forall_mem_cons.mpr ⟨rfl, hst.internal⟩
        nodup := List.nodup_cons.mpr ⟨fun hm => hdis id hm id List.mem_cons_self rfl, hnda⟩ }
      refine (ensures_insertDescend (hkids kid hkid) hsub hq hst' ?_).mono ?_
      · exact (List.perm_middle.nodup_iff.mp hnd).sublist ((hkidIds.append_left _).cons_cons _)
      · rintro x _ ⟨h, hx, hlen, hrest⟩
        simp only [List.length_cons] at hlen
        exact ⟨h, hx, by omega, hrest⟩

theorem ensures_getRootWrite {p : Page} (hm : t.MetaRep σ root count free) (hp : σ.page root = some p) :
    ∀ fuel : Nat, Ensures (fun q σ' => σ = σ' ∧ p = q) σ (getRootWrite t fuel)
  | 0 => Ensures.throw _
  | fuel + 1 => by
    refine (Table.ensures_rootId hm).expect.bind ?_
    rintro id _ ⟨rfl, rfl⟩
    refine (ensures_bpm (ensures_fetchWrite _)).bind ?_
    rintro q _ ⟨rfl, hq⟩
    obtain rfl := Option.some.inj (hp.symm.trans hq)
    refine (Table.ensures_rootId hm).expect.bind ?_
    rintro now _ ⟨rfl, rfl⟩
    refine Ensures.ite (fun _ => Ensures.pure ⟨rfl, rfl⟩) fun _ => (ensures_drop _).bind ?_
    rintro _ _ rfl
    exact ensures_getRootWrite hm hp fuel

end

/-- A well-formed table of which every page number is a page of the tree, a free page or the
    meta page, and no page lies past its end. -/
structure Balanced (t : Table) (σ : Store) {h : Nat} (T : PageTree h) (count : UInt32) (free : List PageId) : Prop where
  wellFormed : WellFormed t σ T count free
  total : T.ids.length + free.length + 1 = count.toNat
  trim : ∀ id p, σ.page id = some p → id.tableId = t.metaId.tableId → id.pageNum < count

section
variable {t : Table} {σ σ' : Store} {h h' : Nat} {T : PageTree h} {T' : PageTree h'} {count count' : UInt32}
    {free free' : List PageId}

theorem ensures_insert (hb : Balanced t σ T count free) (hroom : count.toNat + h + 2 < 2 ^ 32) (fuel : Nat)
    (row : ValidatedRow) : Ensures (fun _ σ' => Closed t T.ids σ') σ (insert t fuel row) := by
  have hs := hb.wellFormed.sound
  obtain ⟨p, hp, -⟩ := rootPage hs.pages
  have hnd := (List.nodup_append.mp hs.owned.nodup).1
  refine Ensures.unwinding ((ensures_getRootWrite hs.root hp fuel).bind ?_)
  rintro _ _ ⟨rfl, rfl⟩
  refine (ensures_insertDescend hs.pages (List.Subset.refl _) hp (⟨by simp, by simp, by simp, by simp⟩ : Stacked T.ids σ [])
    hnd).bind ?_
  rintro ⟨leaf, ancestors⟩ _ ⟨rfl, hst, hlen, hold, hleaf⟩
  simp only [List.length_nil] at hlen
  have hbooks : Books t T.ids σ T.rootId count free [] (ancestors.length + 2) := {
    metaRep := hs.root
    rootTable := hs.owned.table _ (List.mem_append_left _ (Tree.rootId_mem_ids T))
    owned := hs.owned
    total := by
      have := hb.total
      simp only [List.length_nil]
      omega
    room := by omega
    stored := stored_of_all hs.pages
    trim := hb.trim }
  exact ensures_insertAtLeaf hbooks hst hold hleaf

theorem FreeChain.unique : ∀ {free free' : List PageId}, Table.FreeChain σ free → Table.FreeChain σ free' →
    free.head? = free'.head? → free = free'
  | [], [], _, _, _ => rfl
  | [], _ :: _, _, _, h => by cases h
  | _ :: _, [], _, _, h => by cases h
  | id :: rest, id' :: rest', hf, hf', h => by
    obtain rfl : id = id' := Option.some.inj h
    obtain ⟨⟨lsn, hp⟩, hrest⟩ := hf
    obtain ⟨⟨lsn', hp'⟩, hrest'⟩ := hf'
    have hhead : rest.head? = rest'.head? := by
      rw [hp, Option.some.injEq, Page.mk.injEq] at hp'
      exact PageBody.free.inj hp'.2.2
    rw [FreeChain.unique hrest hrest' hhead]

/-- A store holds the books of one table once. -/
theorem MetaRep.unique {root root' : PageId} (hm : t.MetaRep σ root count free) (hm' : t.MetaRep σ root' count' free') :
    root = root' ∧ count = count' ∧ free = free' := by
  obtain ⟨lsn, schema, name, hp, -⟩ := hm.metaPage
  obtain ⟨lsn', schema', name', hp', -⟩ := hm'.metaPage
  rw [hp, Option.some.injEq, Page.mk.injEq, PageBody.metaPage.injEq] at hp'
  obtain ⟨-, -, hroot, hcount, hhead, -⟩ := hp'
  exact ⟨hroot, hcount, FreeChain.unique hm.chain hm'.chain hhead⟩

/-- The pages and the meta page have different numbers below the count. -/
theorem Owned.numbers {ids : List PageId} (ho : t.Owned count ids) (hpos : count ≠ 0) :
    (0 :: ids.map fun x => x.pageNum.toNat).Subperm (List.range count.toNat) := by
  have hnd : (0 :: ids.map fun x => x.pageNum.toNat).Nodup := by
    refine List.nodup_cons.mpr ⟨fun hm => ?_, ho.nodup.map_on fun x hx y hy he => ?_⟩
    · obtain ⟨x, hx, h0⟩ := List.mem_map.mp hm
      exact ho.pos x hx (UInt32.toNat_inj.mp h0)
    · obtain ⟨tx, nx⟩ := x
      obtain ⟨ty, ny⟩ := y
      obtain rfl : nx = ny := UInt32.toNat_inj.mp he
      obtain rfl : tx = ty := (ho.table _ hx).trans (ho.table _ hy).symm
      rfl
  refine hnd.subperm (List.cons_subset.mpr ⟨List.mem_range.mpr ?_, fun n hn => ?_⟩)
  · exact Nat.pos_of_ne_zero fun h0 => hpos (UInt32.toNat_inj.mp h0)
  · obtain ⟨x, hx, rfl⟩ := List.mem_map.mp hn
    exact List.mem_range.mpr (UInt32.lt_iff_toNat_lt.mp (ho.lt x hx))

/-- There are at most as many pages as numbers below the count. -/
theorem Owned.length_lt {ids : List PageId} (ho : t.Owned count ids) (hpos : count ≠ 0) : ids.length + 1 ≤ count.toNat := by
  have := (Owned.numbers ho hpos).length_le
  simpa using this

/-- What hangs from the tree is in it, so nothing is missing. -/
theorem Closed.balanced {old : List PageId} (hc : Closed t old σ) (hw : WellFormed t σ T count free) (hsub : old ⊆ T.ids) :
    Balanced t σ T count free := by
  obtain ⟨root, count₁, free₁, held, hbooks, hhung⟩ := hc
  have hs := hw.sound
  obtain ⟨rfl, rfl, rfl⟩ := MetaRep.unique hbooks.metaRep hs.root
  have hheld : held ⊆ T.ids := by
    rcases hhung with hhung | ⟨rest, rfl, hhung⟩
    · exact hung_subset hs.pages hsub hhung
    · have hroot := Tree.rootId_mem_ids T
      exact List.cons_subset.mpr ⟨hroot, hung_subset hs.pages (List.cons_subset.mpr ⟨hroot, hsub⟩) hhung⟩
  have hle : (held ++ old).length ≤ T.ids.length :=
    ((List.nodup_append.mp hbooks.owned.nodup).1.subperm (List.append_subset.mpr ⟨hheld, hsub⟩)).length_le
  have htotal := hbooks.total
  have hlt := Owned.length_lt hs.owned (by
    rintro rfl
    simp at htotal)
  rw [List.length_append] at hle hlt
  exact ⟨hw, by omega, hbooks.trim⟩

/-- An insert keeps the books balanced. -/
theorem insert_balanced (hb : Balanced t σ T count free) {fuel : Nat} (hfuel : h < fuel)
    (hroom : count.toNat + h + 2 < 2 ^ 32)
    (row : ValidatedRow) :
    ((∃ r ∈ T.rows, r.key = row.row.key) ∧
      (insert t fuel row).eval (.idle σ) = some (.error (.err (.page .duplicateKey)), .idle σ)) ∨
    (∀ r ∈ T.rows, r.key ≠ row.row.key) ∧ ∃ σ' h', ∃ T' : PageTree h', ∃ count' free',
      (insert t fuel row).eval (.idle σ) = some (.ok (), .idle σ') ∧ Balanced t σ' T' count' free' ∧
      ∃ a b, T.rows = a ++ b ∧ T'.rows = a ++ row.row :: b := by
  have hw := hb.wellFormed
  obtain ⟨pre, tr, r, w', hexec, -, ho⟩ := (@exec_insert _ _ _ row) hw.sound
      (rootOk_of_nonemptyBelow hw.sound.ok hw.rowsBelow)
    hfuel hroom
  have hclosed : ∀ {a σ'}, (insert t fuel row).eval (.idle σ) = some (.ok a, .idle σ') → Closed t T.ids σ' :=
    fun heval => (ensures_insert hb hroom fuel row).eval rfl heval
  cases ho with
  | took new hto =>
    obtain ⟨a, b, hab, hab'⟩ := hto.stored.rows
    have hwf := hto.stored.wellFormed (by rw [hto.rootId]; exact hto.metaRep)
    rw [hto.final] at hexec
    have heval := hexec.unwinding_ok.eval
    have hsub : T.ids ⊆ _ := fun x hx => hto.stored.rebuilt.perm.symm.subset (List.mem_append_right new hx)
    refine Or.inr ⟨?_, _, h, _, _, _, heval, (hclosed heval).balanced hwf hsub, a, b, hab, hab'⟩
    rw [hab]
    exact absent_of_inserted hwf.bounds hab'
  | grew new hg =>
    obtain ⟨a, b, hab, hab'⟩ := hg.stored.rows
    have hwf := hg.stored.wellFormed hg.metaRep
    rw [hg.final] at hexec
    have heval := hexec.unwinding_ok.eval
    have hsub : T.ids ⊆ _ := fun x hx => hg.stored.rebuilt.perm.symm.subset (List.mem_append_right new hx)
    refine Or.inr ⟨?_, _, h + 1, _, _, _, heval, (hclosed heval).balanced hwf hsub, a, b, hab, hab'⟩
    rw [hab]
    exact absent_of_inserted hwf.bounds hab'
  | duplicate hrow hstore _ _ =>
    have hend := hexec.unwinding_error.eval
    rw [hstore] at hend
    exact Or.inl ⟨hrow, hend⟩

end

end BTree

end RustDb
