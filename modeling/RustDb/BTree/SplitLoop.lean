/-
  RustDb.BTree.SplitLoop — the loop of `split_and_insert`: a separator between two subtrees
  goes up.

  At a node above, the page takes the separator (`exec_takesSeparator`), or it is cut and
  passes its promoted key on (`exec_splitsParent`); above the root a new root is made
  (`exec_newRoot`). Over a tree with a hole (`Pending`) the loop ends in one of two ways
  (`exec_climb`): some page on the way took the separator, or the root was cut too.
-/

import RustDb.BTree.Routing

namespace RustDb

open Lib.SearchTree Call

/-- The key `split_page` promotes. -/
def Page.promoted (self : Page) : Option Key := (self.splitPage self.pageId).1.toOption.map Prod.fst

/-- It does not depend on the id of the new page. -/
theorem Page.splitPage_key (p : Page) (new new' : PageId) :
    (p.splitPage new).1.toOption.map Prod.fst = (p.splitPage new').1.toOption.map Prod.fst := by
  rcases p with ⟨id, lsn, body⟩
  cases body <;> simp only [splitPage]
  · split
    · rfl
    · split
      · rfl
      · split <;> rfl
  · split
    · rfl
    · split
      · rfl
      · split
        · rfl
        · split <;> rfl

/-- What a cut promotes, named without the cut. -/
theorem Page.promoted_of_split {p rp lp : Page} {new : PageId} {k : Key} (h : p.splitPage new = (.ok (k, rp), lp)) :
    p.promoted = some k := by
  rw [promoted, splitPage_key p p.pageId new, h]
  rfl

/-- A promoted key is a key the page holds. -/
theorem Page.promoted_fits {p : Page} {k : Key} (hv : p.Valid) (h : p.promoted = some k) : KeyFits k := by
  rcases p with ⟨id, lsn, body⟩
  cases body with
  | leaf rows nx pv =>
    simp only [promoted, splitPage] at h
    repeat' split at h
    all_goals try simp [Except.toOption] at h
    rename_i hkey
    subst h
    obtain ⟨r, hr, hrk⟩ := Option.bind_eq_some_iff.mp hkey
    rw [← Row.key_of_key? hrk]
    exact ((show LeafValid rows from hv).rows r (List.mem_of_mem_drop (List.mem_of_mem_head? hr))).key
  | internal keys children =>
    simp only [promoted, splitPage] at h
    repeat' split at h
    all_goals try simp [Except.toOption] at h
    rename_i hkey
    subst h
    exact (show children.length = keys.length + 1 ∧ KeysValid keys from hv).2.fits _
      (List.mem_of_mem_drop (by rw [hkey]; simp))
  | metaPage => simp [promoted, splitPage, Except.toOption] at h
  | free => simp [promoted, splitPage, Except.toOption] at h

namespace BTree

/-- The separator that inserting a row below a page would make the page's parent take:
    none unless the page would be cut. -/
def pushedUp (σ : Store) (row : ValidatedRow) : Nat → PageId → Option Key
  | 0, id => (σ.page id).bind fun p =>
    if p.canInsert row.row then none
    else match p.leafGet row.primaryKey with
      | .ok none => p.promoted
      | _ => none
  | h + 1, id => (σ.page id).bind fun p =>
    match p.findChild row.primaryKey with
    | .ok (some child) => (pushedUp σ row h child).bind fun sep => if p.canInsertSeparator sep then none else p.promoted
    | _ => none

/-- At an inner page the key decides on the child; the separator from below goes on up only if the
    page has no room for it. -/
theorem pushedUp_inner {σ : Store} {row : ValidatedRow} {n : Nat} {id c : PageId} {lsn : PageLsn} {a b : List Key}
    {ca cb : List PageId} (hpage : σ.page id = some ⟨id, lsn, .internal (a ++ b) (ca ++ c :: cb)⟩)
    (hs : (a ++ b).Pairwise (· < ·)) (ha : ∀ x ∈ a, x ≤ row.row.key) (hb : ∀ x ∈ b, row.row.key < x)
    (hlen : ca.length = a.length) :
    pushedUp σ row (n + 1) id = (pushedUp σ row n c).bind fun sep =>
      if Page.canInsertSeparator ⟨id, lsn, .internal (a ++ b) (ca ++ c :: cb)⟩ sep then none
      else Page.promoted ⟨id, lsn, .internal (a ++ b) (ca ++ c :: cb)⟩ := by
  rw [pushedUp, hpage, Option.bind_some, row.primaryKey_eq, Page.findChild_eq hs ha hb hlen]

section
variable {t : Table} {σ : Store} {root : PageId} {count : UInt32} {free ids L : List PageId}

/-- Writing a page of the tree leaves the meta page and the free list as they are. -/
theorem put_meta {p : Page} (hm : t.MetaRep σ root count free) (ho : t.Owned count (ids ++ free)) (hp : p.pageId ∈ ids) :
    t.MetaRep (σ.put p) root count free :=
  hm.congr (σ.put_ne (ho.ne_meta (List.mem_append_left _ hp)).symm) fun _ hx =>
    σ.put_ne fun he => (List.nodup_append.mp ho.nodup).2.2 _ hp _ (he ▸ hx) rfl

theorem Owned.count_ne_zero (ho : t.Owned count ids) (hne : ids ≠ []) : count ≠ 0 := by
  obtain ⟨x, hx⟩ := List.exists_mem_of_ne_nil ids hne
  rintro rfl
  exact absurd (ho.lt x hx) (by simp [UInt32.lt_iff_toNat_lt])

/-- The latches that are left after one is given back. -/
theorem drop_head {id : PageId} (hid : id ∉ L) : ∀ x : PageId, x ∈ L ↔ x ∈ id :: L ∧ x ≠ id := by
  intro x
  simp only [List.mem_cons]
  exact ⟨fun h => ⟨Or.inr h, fun he => hid (he ▸ h)⟩, fun h => h.1.resolve_left h.2⟩

/-! ## A page takes the separator -/

/-- With room for the separator the page is written and let go of, and the loop ends: the ancestors
    above it are still held. -/
theorem exec_takesSeparator {p p' : Page} {ancestors : List Page} {sep : Key} {leftId rightId : PageId}
    (hL : p.pageId ∉ L) (hid : p'.pageId = p.pageId) (hcan : p.canInsertSeparator sep = true)
    (hins : p.internalInsert sep rightId = (.ok (), p')) :
    Exec (splitLoop t (p :: ancestors) leftId sep rightId) (.writing σ (p.pageId :: L))
      [.writing (σ.put p') (p.pageId :: L), .writing (σ.put p') L] (.ok ancestors) (.writing (σ.put p') L) := by
  have hchange := exec_change (σ := σ) (L := p.pageId :: L) (q := p') (a := ()) BTreeError.page (by simp [hid])
  rw [← hins] at hchange
  have hdrop := exec_drop (ε := BTreeError) (σ := σ.put p') (by simp) (drop_head hL)
  rw [splitLoop, if_pos hcan]
  exact hchange.bind (hdrop.bind (exec_pure _ _))

/-! ## A page is cut -/

/-- Without room the page is cut. The separator goes into the half it belongs to, both halves have keys,
    and the promoted key goes on up with the new page. Both pages are held until the separator is in;
    the ancestors above (`L`) are held beyond that. -/
theorem exec_splitsParent {id c leftId rightId : PageId} {lsn : PageLsn} {a b : List Key} {ca cb : List PageId}
    {ancestors : List Page} {sep : Key} (hm : t.MetaRep σ root count free) (hroot : root.tableId = t.metaId.tableId)
    (ho : t.Owned count (ids ++ free)) (hcount : count.toNat + 1 < 2 ^ 32) (hids : id :: L ⊆ ids) (hL : id ∉ L)
    (hkeys : Page.KeysValid (a ++ b)) (hca : ca.length = a.length) (hcb : cb.length = b.length) (hsep : Page.KeyFits sep)
    (ha : ∀ x ∈ a, x < sep) (hb : ∀ x ∈ b, sep < x)
    (hcan : Page.canInsertSeparator ⟨id, lsn, .internal (a ++ b) (ca ++ c :: cb)⟩ sep = false) :
    ∃ new σ' count' free' k v₁ v₂ c₁ c₂ tr, t.MetaRep σ' root count' free' ∧ t.Owned count' (new :: ids ++ free') ∧
      count'.toNat ≤ count.toNat + 1 ∧ a ++ sep :: b = v₁ ++ k :: v₂ ∧ ca ++ c :: rightId :: cb = c₁ ++ c₂ ∧
      c₁.length = v₁.length + 1 ∧ v₁ ≠ [] ∧ v₂ ≠ [] ∧ Page.KeysValid v₁ ∧ Page.KeysValid v₂ ∧ Page.KeyFits k ∧
      Page.promoted ⟨id, lsn, .internal (a ++ b) (ca ++ c :: cb)⟩ = some k ∧
      σ'.page id = some ⟨id, lsn, .internal v₁ c₁⟩ ∧ σ'.page new = some ⟨new, none, .internal v₂ c₂⟩ ∧
      (∀ x, x ∉ [t.metaId, new, id] → σ'.page x = σ.page x) ∧
      (∀ w ∈ tr, (∀ x, x ∉ [t.metaId, new, id] → w.store.page x = σ.page x) ∧ t.namedRoot w = some root ∧
        ∀ x ∈ L, w.latch x = .write) ∧ tr.getLast? = some (.writing σ' L) ∧ (∀ w ∈ tr.dropLast, w.latch id = .write) ∧
      ∀ tr' r w', Exec (splitLoop t ancestors id k new) (.writing σ' L) tr' r w' →
        Exec (splitLoop t (⟨id, lsn, .internal (a ++ b) (ca ++ c :: cb)⟩ :: ancestors) leftId sep rightId)
          (.writing σ (id :: L)) (tr ++ tr') r w' := by
  have hfull : ¬ Page.keysSize (a ++ b) + Page.internalEntrySize sep ≤ internalUsable := by
    rwa [Page.canInsertSeparator_internal sep hkeys.size, decide_eq_false_iff_not] at hcan
  have hpos : count ≠ 0 := Owned.count_ne_zero ho (by
    rintro hnil
    have := hids List.mem_cons_self
    simp only [List.append_eq_nil_iff] at hnil
    simp [hnil.1] at this)
  obtain ⟨new, σ₁, count', free', tr₁, halloc, hm₁, ho₁, -, hframe₁, -, -, hle, htr₁⟩ :=
    Table.exec_allocate hm ho hids hroot hcount hpos
  obtain ⟨k, v₁, v₂, c₁, c₂, lp, rp, hv, hc, hlen, hne₁, hne₂, hvalid₁, hvalid₂, hfits, hlp, hrp, hsplit, hins⟩ :=
    Page.splitPage_insert (c := c) hkeys hca hcb hsep ha hb hfull
  have hnew : new ∉ id :: L := fun h =>
    (List.nodup_cons.mp ho₁.nodup).1 (List.mem_append_left _ (hids h))
  have hnewid : new ≠ id := fun h => hnew (by simp [h])
  have hnewL : new ∉ L := fun h => hnew (by simp [h])
  have hidm : id ≠ t.metaId := ho.ne_meta (List.mem_append_left _ (hids (by simp)))
  have hnewm : new ≠ t.metaId := ho₁.ne_meta (by simp)
  obtain ⟨lid, llsn, lbody⟩ := lp
  obtain rfl : id = lid := hlp.symm
  obtain ⟨rid, rlsn, rbody⟩ := rp
  obtain rfl : new = rid := hrp.symm
  -- from the allocation on, only the two halves are written
  have hmeta : ∀ τ : Store, (∀ x, x ∉ [new, id] → τ.page x = σ₁.page x) → t.MetaRep τ root count' free' := by
    intro τ hτ
    refine hm₁.congr (hτ _ (by simp [hnewm.symm, hidm.symm])) fun x hx => hτ x ?_
    have hx' : x ∉ new :: ids := fun h => (List.nodup_append.mp ho₁.nodup).2.2 _ h _ hx rfl
    simp only [List.mem_cons, not_or] at hx' ⊢
    exact ⟨hx'.1, fun he => hx'.2 (he ▸ hids (by simp)), by simp⟩
  have hworld : ∀ (τ : Store) (N : List PageId), (∀ x, x ∉ [new, id] → τ.page x = σ₁.page x) → L ⊆ N →
      (∀ x, x ∉ [t.metaId, new, id] → (World.writing τ N).store.page x = σ.page x) ∧
        t.namedRoot (World.writing τ N) = some root ∧ ∀ x ∈ L, (World.writing τ N).latch x = .write := by
    intro τ N hτ hN
    refine ⟨fun x hx => ?_, (hmeta τ hτ).namedRoot, fun x hx => World.latch_of_mem (hN hx)⟩
    simp only [List.mem_cons, not_or] at hx
    exact (hτ x (by simp [hx.2.1, hx.2.2])).trans (hframe₁ x hx.1 hx.2.1)
  let lp : Page := ⟨id, llsn, lbody⟩
  let rp : Page := ⟨new, rlsn, rbody⟩
  have hput : ∀ (τ : Store) (q : Page), (∀ x, x ∉ [new, id] → τ.page x = σ₁.page x) → q.pageId ∈ [new, id] →
      ∀ x, x ∉ [new, id] → (τ.put q).page x = σ₁.page x := fun τ q hτ hq x hx =>
    (Store.put_ne τ (p := q) fun he => hx (by rw [he]; exact hq)).trans (hτ x hx)
  have hτ₁ := hput σ₁ lp (fun _ _ => rfl) (by simp [lp])
  have hτ₂ := hput (σ₁.put lp) rp hτ₁ (by simp [rp])
  have hmem : ∀ {x}, x ∈ [new, id] → x ∈ new :: id :: L := by simp +contextual [or_imp]
  have hsplit' := exec_change (σ := σ₁) (L := new :: id :: L) (q := lp) (a := (k, rp)) BTreeError.page (hmem (by simp [lp]))
  rw [← hsplit] at hsplit'
  have hright := exec_put (ε := BTreeError) (σ := σ₁.put lp) (L := new :: id :: L) (q := rp) (hmem (by simp [rp]))
  -- the separator goes into one of the halves, and both are released
  obtain ⟨τ, hτ, hτid, hτnew, hrest⟩ : ∃ τ : Store, (∀ x, x ∉ [new, id] → τ.page x = σ₁.page x) ∧
      τ.page id = some ⟨id, lsn, .internal v₁ c₁⟩ ∧ τ.page new = some ⟨new, none, .internal v₂ c₂⟩ ∧
      ∀ tr' r w', Exec (splitLoop t ancestors id k new) (.writing τ L) tr' r w' →
        Exec (splitLoop t (⟨id, lsn, .internal (a ++ b) (ca ++ c :: cb)⟩ :: ancestors) leftId sep rightId)
          (.writing σ (id :: L)) (tr₁ ++ (([.writing (σ₁.put lp) (new :: id :: L),
            .writing ((σ₁.put lp).put rp) (new :: id :: L), .writing τ (new :: id :: L), .writing τ (id :: L),
            .writing τ L]) ++ tr')) r w' := by
    rcases hins with ⟨hks, hins, hl⟩ | ⟨hks, hins, hr⟩
    · let rp' : Page := ⟨new, none, .internal v₂ c₂⟩
      have hchange := exec_change (σ := (σ₁.put lp).put rp) (L := new :: id :: L) (q := rp') (a := ()) BTreeError.page
        (hmem (by simp [rp']))
      rw [← hins] at hchange
      have hdrop := exec_drop (ε := BTreeError) (σ := ((σ₁.put lp).put rp).put rp') (by simp) (drop_head hnew)
      have hdrop' := exec_drop (ε := BTreeError) (σ := ((σ₁.put lp).put rp).put rp') (by simp) (drop_head hL)
      refine ⟨((σ₁.put lp).put rp).put rp', hput _ rp' hτ₂ (by simp [rp']), ?_, Store.put_self _ rp', fun tr' r w' hk => ?_⟩
      · rw [Store.put_ne _ (p := rp') hnewid.symm, Store.put_ne _ (p := rp) hnewid.symm, ← hl]
        exact Store.put_self _ lp
      · rw [splitLoop, if_neg (by simp [hcan])]
        exact halloc.expect_ok.bind (hsplit'.bind (hright.bind (Exec.ite_pos hks (hchange.bind (hdrop.bind
          (hdrop'.bind hk))))))
    · let lp' : Page := ⟨id, lsn, .internal v₁ c₁⟩
      have hchange := exec_change (σ := (σ₁.put lp).put rp) (L := new :: id :: L) (q := lp') (a := ()) BTreeError.page
        (hmem (by simp [lp']))
      rw [← hins] at hchange
      have hdrop := exec_drop (ε := BTreeError) (σ := ((σ₁.put lp).put rp).put lp') (by simp) (drop_head hnew)
      have hdrop' := exec_drop (ε := BTreeError) (σ := ((σ₁.put lp).put rp).put lp') (by simp) (drop_head hL)
      refine ⟨((σ₁.put lp).put rp).put lp', hput _ lp' hτ₂ (by simp [lp']), Store.put_self _ lp', ?_, fun tr' r w' hk => ?_⟩
      · rw [Store.put_ne _ (p := lp') hnewid, ← hr]
        exact Store.put_self _ rp
      · rw [splitLoop, if_neg (by simp [hcan])]
        exact halloc.expect_ok.bind (hsplit'.bind (hright.bind (Exec.ite_neg hks (hchange.bind (hdrop.bind
          (hdrop'.bind hk))))))
  refine ⟨new, τ, count', free', k, v₁, v₂, c₁, c₂, tr₁ ++ [.writing (σ₁.put lp) (new :: id :: L),
    .writing ((σ₁.put lp).put rp) (new :: id :: L), .writing τ (new :: id :: L), .writing τ (id :: L), .writing τ L],
    hmeta τ hτ, ho₁, hle, hv, hc, hlen, hne₁, hne₂, hvalid₁, hvalid₂, hfits, Page.promoted_of_split hsplit, hτid, hτnew,
    (hworld τ L hτ (List.Subset.refl L)).1, ?_, by simp, fun w hw => ?_, fun tr' r w' hk => ?_⟩
  · intro w hw
    rcases List.mem_append.mp hw with hw | hw
    · obtain ⟨hoff, hnamed⟩ := htr₁ w hw
      refine ⟨fun x hx => (hoff x ?_).1, hnamed, fun x hx => ?_⟩
      · simp only [List.mem_cons, not_or] at hx ⊢
        exact ⟨hx.1, hx.2.1, hx.2.2.2⟩
      · have hxm : x ≠ t.metaId := ho.ne_meta (List.mem_append_left _ (hids (by simp [hx])))
        rw [(hoff x (by simp [hxm, show x ≠ new from fun he => hnewL (he ▸ hx)])).2]
        exact World.latch_of_mem (by simp [hx])
    · have hsub : L ⊆ new :: id :: L := fun x hx => by simp [hx]
      simp only [List.mem_cons, List.not_mem_nil, or_false] at hw
      rcases hw with rfl | rfl | rfl | rfl | rfl
      · exact hworld _ _ hτ₁ hsub
      · exact hworld _ _ hτ₂ hsub
      · exact hworld _ _ hτ hsub
      · exact hworld _ _ hτ (List.subset_cons_self id L)
      · exact hworld _ _ hτ (List.Subset.refl L)
  · rw [List.dropLast_append_of_ne_nil (by simp)] at hw
    rcases List.mem_append.mp hw with hw | hw
    · rw [((htr₁ w hw).1 id (by simp [hidm, hnewid.symm])).2]
      exact World.latch_of_mem (by simp)
    · simp only [List.dropLast_cons_cons, List.dropLast_singleton, List.mem_cons, List.not_mem_nil, or_false] at hw
      rcases hw with rfl | rfl | rfl | rfl <;> exact World.latch_of_mem (by simp)
  · rw [List.append_assoc]
    exact hrest tr' r w' hk

/-! ## A new root -/

/-- Above the last ancestor a new root takes both halves. It is written before the meta page names it,
    and its latch is given back after that: until then the root that the meta page names is the left
    half, which nobody latches any more. -/
theorem exec_newRoot {leftId rightId : PageId} {sep : Key} (hm : t.MetaRep σ root count free)
    (hroot : root.tableId = t.metaId.tableId) (ho : t.Owned count (ids ++ free)) (hcount : count.toNat + 1 < 2 ^ 32)
    (hids : L ⊆ ids) (hne : ids ≠ []) :
    ∃ new σ' count' free' tr,
      Exec (splitLoop t [] leftId sep rightId) (.writing σ L) (tr ++ [.writing σ' L]) (.ok []) (.writing σ' L) ∧
      t.MetaRep σ' new count' free' ∧ t.Owned count' (new :: ids ++ free') ∧
      nodeAt σ' new [sep] [leftId, rightId] ∧ (∀ x, x ∉ [t.metaId, new] → σ'.page x = σ.page x) ∧
      ∀ w ∈ tr, w.AgreesOff (.writing σ L) [t.metaId, new] ∧
        (t.namedRoot w = some root ∨ t.namedRoot w = some new ∧ w.latch new = .write) := by
  have hpos := Owned.count_ne_zero ho (by simp [hne])
  obtain ⟨new, σ₁, count', free', tr₁, halloc, hm₁, ho₁, -, hframe₁, -, -, hle, htr₁⟩ :=
    Table.exec_allocate hm ho hids hroot hcount hpos
  have hnew : new ∉ L := fun h => (List.nodup_cons.mp ho₁.nodup).1 (List.mem_append_left _ (hids h))
  have hnewm : new ≠ t.metaId := ho₁.ne_meta (by simp)
  let p : Page := Page.newRoot new leftId sep rightId
  have hput := exec_put (ε := BTreeError) (σ := σ₁) (L := new :: L) (q := p) (by simp [p, Page.newRoot])
  have hm₂ := put_meta (p := p) hm₁ ho₁ (by simp [p, Page.newRoot])
  obtain ⟨σ', tr₂, hset, hm', hframe', w₁, w₂, rfl, hw₁, hw₂, hn₁, hn₂⟩ :=
    Table.exec_setRootId (L := new :: L) hm₂ ho₁ (List.cons_subset_cons new hids) new
  have hdrop := exec_drop (ε := BTreeError) (σ := σ') (by simp) (drop_head hnew)
  have hoff₂ : ∀ x, x ∉ [t.metaId, new] → (σ₁.put p).page x = σ.page x := by
    intro x hx
    simp only [List.mem_cons, not_or] at hx
    rw [Store.put_ne _ (p := p) hx.2.1]
    exact hframe₁ x hx.1 hx.2.1
  have hoff' : ∀ x, x ∉ [t.metaId, new] → σ'.page x = σ.page x := by
    intro x hx
    rw [hframe' x (by simp only [List.mem_cons, not_or] at hx; exact hx.1)]
    exact hoff₂ x hx
  have hagree : ∀ τ : Store, (∀ x, x ∉ [t.metaId, new] → τ.page x = σ.page x) →
      (World.writing τ (new :: L)).AgreesOff (.writing σ L) [t.metaId, new] := fun τ hτ =>
    World.agreesOff_writing hτ fun x hx => by
      simp only [List.mem_cons, not_or] at hx
      simp [hx.2.1]
  refine ⟨new, σ', count', free', tr₁ ++ [.writing (σ₁.put p) (new :: L), w₁, w₂, .writing σ' (new :: L)], ?_, hm', ho₁,
    ⟨none, ?_⟩, hoff', ?_⟩
  · rw [List.append_assoc]
    exact halloc.expect_ok.bind (hput.bind (hset.expect_ok.bind (hdrop.bind (exec_pure _ _))))
  · rw [hframe' new hnewm]
    exact Store.put_self _ p
  · intro w hw
    have hlatch : ∀ w : World, w.AgreesOff (.writing (σ₁.put p) (new :: L)) [t.metaId] → w.latch new = .write := by
      intro w hoff
      rw [(hoff new (by simpa using hnewm)).2]
      exact World.latch_of_mem (by simp)
    have hmono : [t.metaId] ⊆ [t.metaId, new] := by simp
    simp only [List.mem_append, List.mem_cons, List.not_mem_nil, or_false] at hw
    rcases hw with hw | rfl | rfl | rfl | rfl
    · exact ⟨(htr₁ w hw).1, Or.inl (htr₁ w hw).2⟩
    · exact ⟨hagree _ hoff₂, Or.inl hm₂.namedRoot⟩
    · exact ⟨(hw₁.mono hmono).trans (hagree _ hoff₂), Or.inl hn₁⟩
    · exact ⟨(hw₂.mono hmono).trans (hagree _ hoff₂), Or.inr ⟨hn₂, hlatch _ hw₂⟩⟩
    · exact ⟨hagree _ hoff', Or.inr ⟨hm'.namedRoot, World.latch_of_mem (by simp)⟩⟩

end

/-! ## The way up -/

/-- Two subtrees where the tree around them has one, and the separator between them. -/
structure Pending (σ : Store) (ne : Prop) (lo hi : Option Key) {H h : Nat} (c : PageCtx H h) (l r : PageTree h)
    (sep : Key) : Prop where
  ctx : CtxOk σ ne c l.rootId
  left : Ok σ ne l
  right : Ok σ ne r
  ctxOrdered : c.Ordered Row.key lo hi
  leftOrdered : l.Ordered Row.key (c.lo lo) (some sep)
  rightOrdered : r.Ordered Row.key (some sep) (c.hi hi)
  inside : Inside (c.lo lo) (c.hi hi) sep
  fits : Page.KeyFits sep

/-- A sound tree made of the pages `ids` and the pages `new`, beside the pages `out`. -/
structure Rebuilt (t : Table) (σ : Store) (ne : Prop) (lo hi : Option Key) (out ids new : List PageId) {H : Nat}
    (T : PageTree H) (count : UInt32) (free : List PageId) : Prop where
  ok : Ok σ ne T
  ordered : T.Ordered Row.key lo hi
  perm : T.ids.Perm (new ++ ids)
  owned : t.Owned count (T.ids ++ out ++ free)

section
variable {t : Table} {σ σ' σ₀ : Store} {ne : Prop} {lo hi : Option Key} {root : PageId} {count : UInt32}
  {free out keep : List PageId} {row : ValidatedRow} {H h : Nat}

/-- The pages held above the hole. -/
theorem held_ids {ancestors : List Page} {ids : List PageId} (hheld : ancestors.map some = ids.map σ.page) :
    ancestors.map (·.pageId) = ids := by
  induction ids generalizing ancestors with
  | nil => simpa using hheld
  | cons id ids ih =>
    rcases ancestors with _ | ⟨p, ancestors⟩
    · simp at hheld
    · simp only [List.map_cons, List.cons.injEq] at hheld ⊢
      exact ⟨σ.named hheld.1.symm, ih hheld.2⟩

section
variable {up : PageCtx H (h + 1)} {id : PageId} {a b : List Key} {ca cb : List (PageTree h)} {aligned : ca.length = a.length}
  {l r : PageTree h} {sep : Key}

/-- The pages of the tree around a node with two subtrees in the place of one. -/
theorem perm_pair (id' : PageId) (keys : List Key) :
    (up.ids ++ (Tree.inner id' keys (ca ++ l :: r :: cb)).ids).Perm
      (id' :: (ca.flatMap Tree.ids ++ cb.flatMap Tree.ids ++ up.ids ++ (l.ids ++ r.ids))) := by
  rw [List.perm_iff_count]
  intro x
  simp only [Tree.ids_inner, List.flatMap_append, List.flatMap_cons, List.count_append, List.count_cons]
  omega

/-- The children of the page above, with the two halves in the place of the one. -/
theorem Pending.kids (hp : Pending σ ne lo hi (Ctx.down up id a b ca cb aligned) l r sep) :
    ∀ kid ∈ ca ++ l :: r :: cb, Ok σ ne kid := by
  obtain ⟨-, hca, hcb, -⟩ := hp.ctx
  intro kid hkid
  rcases List.mem_append.mp hkid with hk | hk
  · exact hca kid hk
  · rcases List.mem_cons.mp hk with rfl | hk
    · exact hp.left
    · rcases List.mem_cons.mp hk with rfl | hk
      · exact hp.right
      · exact hcb kid hk

/-- The pages beside the node above the hole. -/
theorem kid_ids {kid : PageTree h} (hkid : kid ∈ ca ++ l :: r :: cb) :
    kid.ids ⊆ ca.flatMap Tree.ids ++ cb.flatMap Tree.ids ++ up.ids ++ (l.ids ++ r.ids) := by
  intro x hx
  simp only [List.mem_append, List.mem_flatMap]
  rcases List.mem_append.mp hkid with hk | hk
  · exact Or.inl (Or.inl (Or.inl ⟨kid, hk, hx⟩))
  · rcases List.mem_cons.mp hk with rfl | hk
    · exact Or.inr (Or.inl hx)
    · rcases List.mem_cons.mp hk with rfl | hk
      · exact Or.inr (Or.inr hx)
      · exact Or.inl (Or.inl (Or.inr ⟨kid, hk, hx⟩))

/-- The page above the hole takes the separator: the tree around the hole is whole again. -/
theorem Pending.taken (hp : Pending σ ne lo hi (Ctx.down up id a b ca cb aligned) l r sep)
    (ho : t.Owned count ((Ctx.down up id a b ca cb aligned).ids ++ (l.ids ++ r.ids) ++ out ++ free)) {lsn : PageLsn}
    (hpage : σ'.page id = some ⟨id, lsn, .internal (a ++ sep :: b) ((ca ++ l :: r :: cb).map Tree.rootId)⟩)
    (hframe : ∀ x, x ∉ [id] → σ'.page x = σ.page x) (hvalid : Page.KeysValid (a ++ sep :: b)) :
    Rebuilt t σ' ne lo hi out ((Ctx.down up id a b ca cb aligned).ids ++ (l.ids ++ r.ids)) []
      (up.plug (Tree.inner id (a ++ sep :: b) (ca ++ l :: r :: cb))) count free := by
  have hperm : (up.plug (Tree.inner id (a ++ sep :: b) (ca ++ l :: r :: cb))).ids.Perm
      ((Ctx.down up id a b ca cb aligned).ids ++ (l.ids ++ r.ids)) :=
    (Ctx.ids_plug up _).trans (perm_pair id _)
  have hnd := (List.nodup_append.mp (List.nodup_append.mp ho.nodup).1).1
  have hid : ∀ {ids : List PageId}, ids ⊆ ca.flatMap Tree.ids ++ cb.flatMap Tree.ids ++ up.ids ++ (l.ids ++ r.ids) →
      ∀ x ∈ ids, x ∉ [id] := by
    intro ids hsub x hx he
    rw [List.mem_singleton.mp he] at hx
    exact (List.nodup_cons.mp hnd).1 (hsub hx)
  have hf : Frame σ σ' [id] := Frame.of_eq hframe
  have hup : CtxOk σ' ne up id := CtxOk.frame hp.ctx.2.2.2 hf (hid fun x hx => by simp [hx])
  have hnode : Ok σ' ne (Tree.inner id (a ++ sep :: b) (ca ++ l :: r :: cb)) :=
    Tree.all_inner.mpr ⟨⟨⟨lsn, hpage⟩, hvalid, by simp⟩, fun kid hkid => Ok.frame (hp.kids kid hkid) hf (hid (kid_ids hkid))⟩
  exact {
    ok := (Ctx.all_plug up _).mpr ⟨hup, hnode⟩
    ordered := (Ctx.ordered_plug up _).mpr
      ⟨hp.ctxOrdered.1, (Ctx.ordered_pair hp.ctxOrdered hp.inside hp.leftOrdered hp.rightOrdered).2.2⟩
    perm := hperm
    owned := ho.perm ((hperm.append_right out).append_right free) }

/-- The page above the hole is cut: the halves and the promoted key are pending one level up. -/
theorem Pending.cut (hp : Pending σ ne lo hi (Ctx.down up id a b ca cb aligned) l r sep)
    {ex : List PageId}
    (hex : ∀ x ∈ ca.flatMap Tree.ids ++ cb.flatMap Tree.ids ++ up.ids ++ (l.ids ++ r.ids), x ∉ ex)
    (hf : Frame σ σ' ex) {v₁ v₂ : List Key} {k : Key} {c₁ c₂ : List PageId} {new : PageId}
    (hv : a ++ sep :: b = v₁ ++ k :: v₂) (hc : (ca ++ l :: r :: cb).map Tree.rootId = c₁ ++ c₂)
    (hlen : c₁.length = v₁.length + 1) (hv₁ : Page.KeysValid v₁) (hv₂ : Page.KeysValid v₂) (hne₁ : v₁ ≠ []) (hne₂ : v₂ ≠ [])
    (hk : Page.KeyFits k) (hid : nodeAt σ' id v₁ c₁) (hnew : nodeAt σ' new v₂ c₂) :
    ∃ K₁ K₂, ca ++ l :: r :: cb = K₁ ++ K₂ ∧
      Pending σ' ne lo hi up (Tree.inner id v₁ K₁) (Tree.inner new v₂ K₂) k := by
  obtain ⟨K₁, K₂, hK, rfl, rfl⟩ := List.map_eq_append_iff.mp hc
  have hord := (Ctx.ordered_pair hp.ctxOrdered hp.inside hp.leftOrdered hp.rightOrdered).2.2
  rw [hv, hK] at hord
  obtain ⟨hord₁, hord₂, hin⟩ := hord.cut (by simpa using hlen)
  have hkid : ∀ kid ∈ K₁ ++ K₂, Ok σ' ne kid := fun kid hkid => by
    rw [← hK] at hkid
    exact Ok.frame (hp.kids kid hkid) hf fun x hx => hex x (kid_ids hkid hx)
  exact ⟨K₁, K₂, hK, {
    ctx := CtxOk.frame hp.ctx.2.2.2 hf fun x hx => hex x (by simp [hx])
    left := Tree.all_inner.mpr ⟨⟨hid, hv₁, hne₁⟩, fun kid hk => hkid kid (List.mem_append_left _ hk)⟩
    right := Tree.all_inner.mpr ⟨⟨hnew, hv₂, hne₂⟩, fun kid hk => hkid kid (List.mem_append_right _ hk)⟩
    ctxOrdered := hp.ctxOrdered.1
    leftOrdered := hord₁
    rightOrdered := hord₂
    inside := hin
    fits := hk }⟩

end

/-- Nothing goes on from a page that is not cut. -/
theorem pushedUp_none : ∀ {h : Nat} {c : PageCtx H h} {x : PageId}, CtxOk σ ne c x →
    (∀ y ∈ c.path, σ.page y = σ₀.page y) → c.Ordered Row.key lo hi → Within (c.lo lo) (c.hi hi) row.row.key →
    pushedUp σ₀ row h x = none → pushedUp σ₀ row H (c.rootOr x) = none
  | _, .top, _, _, _, _, _, hnone => hnone
  | n, .down up id a b ca cb aligned, x, hc, hσ₀, ho, hrow, hnone => by
    obtain ⟨⟨⟨lsn, hpage⟩, -⟩, -, -, hup⟩ := hc
    obtain ⟨hsa, hsb, -⟩ := List.pairwise_append.mp ho.2.1
    refine pushedUp_none (c := up) hup (fun y hy => hσ₀ y (List.mem_cons_of_mem _ hy)) ho.1 (ho.within_up hrow) ?_
    rw [pushedUp_inner ((hσ₀ id (by simp [Ctx.path])).symm.trans hpage) ho.2.1 (le_of_lastOr hsa hrow.1)
      (lt_of_firstOr hsb hrow.2) (by simpa using aligned), hnone]
    rfl

/-- The loop ends at a page that takes the separator. -/
structure ClimbTook (t : Table) (σ₀ σ : Store) (ne : Prop) (lo hi : Option Key) (root : PageId) (out keep : List PageId)
    (row : ValidatedRow) (c : PageCtx H h) (l r : PageTree h) (sep : Key) (ancestors : List Page) (σ' : Store)
    (T : PageTree H) (new : List PageId) (count : UInt32) (free : List PageId) (rest : List Page)
    (tr₁ tr₂ : List World) : Prop where
  exec : Exec (splitLoop t ancestors l.rootId sep r.rootId) (.writing σ (c.path ++ keep)) (tr₁ ++ tr₂) (.ok rest)
    (.writing σ' (rest.map (·.pageId) ++ keep))
  rest : rest.map (·.pageId) <:+ c.path
  rebuilt : Rebuilt t σ' ne lo hi out (c.ids ++ (l.ids ++ r.ids)) new T count free
  rootId : T.rootId = c.rootOr l.rootId
  cells : T.cells = c.cellsBefore ++ (l.cells ++ r.cells ++ c.cellsAfter)
  metaRep : t.MetaRep σ' root count free
  frame : ∀ x, x ∉ t.metaId :: (new ++ c.path) → σ'.page x = σ.page x
  before : ∀ w ∈ tr₁, (∀ x, x ∉ t.metaId :: (new ++ c.path) → w.store.page x = σ.page x) ∧ t.namedRoot w = some root ∧
    w.latch (c.rootOr l.rootId) = .write
  after : ∀ w ∈ tr₂, w.store = σ'
  held : c.path ≠ []
  pushed : pushedUp σ₀ row H (c.rootOr l.rootId) = none

/-- The loop cuts every page up to the root. -/
structure ClimbCut (t : Table) (σ₀ σ : Store) (ne : Prop) (lo hi : Option Key) (root : PageId) (out keep : List PageId)
    (row : ValidatedRow) (c : PageCtx H h) (l r : PageTree h) (sep : Key) (ancestors : List Page) (σ₁ : Store)
    (l₁ r₁ : PageTree H) (sep₁ : Key) (new : List PageId) (count₁ : UInt32) (free₁ : List PageId) (tr₁ : List World) :
    Prop where
  pending : Pending σ₁ ne lo hi .top l₁ r₁ sep₁
  metaRep : t.MetaRep σ₁ root count₁ free₁
  owned : t.Owned count₁ (l₁.ids ++ r₁.ids ++ out ++ free₁)
  rootId : l₁.rootId = c.rootOr l.rootId
  perm : (l₁.ids ++ r₁.ids).Perm (new ++ (c.ids ++ (l.ids ++ r.ids)))
  cells : l₁.cells ++ r₁.cells = c.cellsBefore ++ (l.cells ++ r.cells ++ c.cellsAfter)
  frame : ∀ x, x ∉ t.metaId :: (new ++ c.path) → σ₁.page x = σ.page x
  pushed : pushedUp σ₀ row H (c.rootOr l.rootId) = some sep₁
  before : ∀ w ∈ tr₁, (∀ x, x ∉ t.metaId :: (new ++ c.path) → w.store.page x = σ.page x) ∧ t.namedRoot w = some root ∧
    ∀ x ∈ keep, w.latch x = .write
  last : (.writing σ (c.path ++ keep) :: tr₁).getLast? = some (.writing σ₁ keep)
  held : c.path = [] ↔ tr₁ = []
  latched : ∀ w ∈ tr₁.dropLast, w.latch (c.rootOr l.rootId) = .write
  exec : ∀ tr res w', Exec (splitLoop t [] l₁.rootId sep₁ r₁.rootId) (.writing σ₁ keep) tr res w' →
    Exec (splitLoop t ancestors l.rootId sep r.rootId) (.writing σ (c.path ++ keep)) (tr₁ ++ tr) res w'

/-- The loop from two subtrees pending, by induction on the tree around them (`Ctx`). A page that takes
    the separator ends the climb; a page that is cut makes its own halves pending one level up, where
    the hypothesis goes on with one ancestor less. `pushedUp` says beforehand which of the two it is. -/
theorem exec_climb : ∀ {h : Nat} {c : PageCtx H h} {l r : PageTree h} {sep : Key} {ancestors : List Page} {σ : Store}
    {count : UInt32} {free : List PageId}, Pending σ ne lo hi c l r sep → t.MetaRep σ root count free →
    root.tableId = t.metaId.tableId → t.Owned count (c.ids ++ (l.ids ++ r.ids) ++ out ++ free) →
    count.toNat + c.path.length + 1 < 2 ^ 32 → keep ⊆ c.ids ++ (l.ids ++ r.ids) ++ out → (∀ x ∈ keep, x ∉ c.path) →
    ancestors.map some = c.path.map σ.page → (∀ x ∈ c.path, σ.page x = σ₀.page x) →
    Within (c.lo lo) (c.hi hi) row.row.key → pushedUp σ₀ row h l.rootId = some sep →
    (∃ σ' T new count' free' rest tr₁ tr₂,
      ClimbTook t σ₀ σ ne lo hi root out keep row c l r sep ancestors σ' T new count' free' rest tr₁ tr₂) ∨
    ∃ σ₁ l₁ r₁ sep₁ new count₁ free₁ tr₁,
      ClimbCut t σ₀ σ ne lo hi root out keep row c l r sep ancestors σ₁ l₁ r₁ sep₁ new count₁ free₁ tr₁ ∧
        count₁.toNat + 1 < 2 ^ 32
  | _, .top, l, r, sep, ancestors, σ, count, free, hp, hm, _, ho, hcount, _, _, hheld, _, _, hpush => by
    obtain rfl : ancestors = [] := by simpa [Ctx.path] using hheld
    exact Or.inr ⟨σ, l, r, sep, [], count, free, [], {
      pending := hp
      metaRep := hm
      owned := by simpa [Ctx.ids] using ho
      rootId := rfl
      perm := by simp [Ctx.ids]
      cells := by simp [Ctx.cellsBefore, Ctx.cellsAfter]
      frame := fun _ _ => rfl
      pushed := hpush
      before := by simp
      last := rfl
      held := by simp [Ctx.path]
      latched := by simp
      exec := fun _ _ _ hk => hk }, by simpa [Ctx.path] using hcount⟩
  | n, .down up id a b ca cb aligned, l, r, sep, ancestors, σ, count, free, hp, hm, hroot, ho, hcount, hkeep, hdis, hheld,
      hσ₀, hrow, hpush => by
    obtain ⟨⟨⟨lsn, hpage⟩, hvalid, -⟩, -, -, -⟩ := hp.ctx
    obtain ⟨ha, hb, hnode⟩ := Ctx.ordered_pair hp.ctxOrdered hp.inside hp.leftOrdered hp.rightOrdered
    -- the page above, and the pages above it
    rcases ancestors with _ | ⟨p, ancestors⟩
    · simp [Ctx.path] at hheld
    simp only [Ctx.path, List.map_cons, List.cons.injEq] at hheld
    obtain ⟨hheld₀, hheld⟩ := hheld
    obtain rfl : p = _ := Option.some.inj (hheld₀.trans hpage)
    have hids : id :: (up.path ++ keep) ⊆ (Ctx.down up id a b ca cb aligned).ids ++ (l.ids ++ r.ids) ++ out := by
      intro x hx
      rcases List.mem_append.mp (show x ∈ (id :: up.path) ++ keep from hx) with hx | hx
      · exact List.mem_append_left _ (List.mem_append_left _ ((Ctx.path_sublist (.down up id a b ca cb aligned)).subset hx))
      · exact hkeep hx
    have hL : id ∉ up.path ++ keep := by
      have hnd := (List.nodup_append.mp (List.nodup_append.mp (List.nodup_append.mp ho.nodup).1).1).1
      have hpath := hnd.sublist (Ctx.path_sublist (.down up id a b ca cb aligned))
      intro hmem
      rcases List.mem_append.mp hmem with hmem | hmem
      · exact (List.nodup_cons.mp hpath).1 hmem
      · exact hdis id hmem (by simp [Ctx.path])
    have hcb : cb.length = b.length := by
      have hlen := chain_length (Tree.ordered_inner.mp hnode).2.2
      simp only [List.length_append, List.length_cons] at hlen
      omega
    -- what the page does with the separator, said of the store before the insert
    obtain ⟨hsa, hsb, -⟩ := List.pairwise_append.mp hp.ctxOrdered.2.1
    have hpush' := pushedUp_inner (n := n) ((hσ₀ id (by simp [Ctx.path])).symm.trans hpage) hp.ctxOrdered.2.1
      (le_of_lastOr hsa hrow.1) (lt_of_firstOr hsb hrow.2) (by simpa using aligned)
    rw [hpush, Option.bind_some] at hpush'
    rcases hcan : Page.canInsertSeparator
      ⟨id, lsn, .internal (a ++ b) (ca.map Tree.rootId ++ l.rootId :: cb.map Tree.rootId)⟩ sep with _ | _
    · obtain ⟨new, σ', count', free', k, v₁, v₂, c₁, c₂, tr, hm', ho', hle, hv, hc, hlen, hne₁, hne₂, hvalid₁, hvalid₂, hk,
        hprom, hpid, hpnew, hframe, htr, hlast, hlatched, hrest⟩ :=
        exec_splitsParent (c := l.rootId) hm hroot ho
          (by simp only [Ctx.path, List.length_cons] at hcount; omega) hids hL hvalid (by simpa using aligned)
          (by simpa using hcb) hp.fits ha hb hcan
      -- the page cut and the new one are none of the others, whose pages stay
      have hids' := ho'.nodup
      have hnd : (new :: id :: (ca.flatMap Tree.ids ++ cb.flatMap Tree.ids ++ up.ids ++ (l.ids ++ r.ids))).Nodup :=
        hids'.sublist (by
          simp only [List.cons_append, List.append_assoc, Ctx.ids]
          refine (List.Sublist.cons_cons id ?_).cons_cons new
          simp only [← List.append_assoc]
          exact (List.sublist_append_left _ _).trans (List.sublist_append_left _ _))
      simp only [List.nodup_cons, List.mem_cons, not_or] at hnd
      have hex : ∀ x ∈ ca.flatMap Tree.ids ++ cb.flatMap Tree.ids ++ up.ids ++ (l.ids ++ r.ids),
          x ∉ [t.metaId, new, id] := by
        intro x hx
        simp only [List.mem_cons, List.not_mem_nil, or_false, not_or]
        refine ⟨ho.ne_meta (List.mem_append_left _ (List.mem_append_left _ (List.mem_cons_of_mem id hx))), ?_, ?_⟩
        · rintro rfl; exact hnd.1.2 hx
        · rintro rfl; exact hnd.2.1 hx
      obtain ⟨K₁, K₂, hK, hp'⟩ := hp.cut hex (Frame.of_eq hframe) hv (by simpa using hc) hlen hvalid₁ hvalid₂ hne₁ hne₂ hk
        ⟨lsn, hpid⟩ ⟨none, hpnew⟩
      have hpath : ∀ x ∈ up.path, σ'.page x = σ.page x := fun x hx =>
        hframe x (hex x (by simp [(Ctx.path_sublist up).subset hx]))
      have hperm : (up.ids ++ ((Tree.inner id v₁ K₁).ids ++ (Tree.inner new v₂ K₂).ids)).Perm
          (new :: ((Ctx.down up id a b ca cb aligned).ids ++ (l.ids ++ r.ids))) := by
        have hflat : K₁.flatMap Tree.ids ++ K₂.flatMap Tree.ids = (ca ++ l :: r :: cb).flatMap Tree.ids := by
          rw [hK, List.flatMap_append]
        rw [List.perm_iff_count]
        intro x
        have := congrArg (List.count x) hflat
        simp only [List.flatMap_append, List.flatMap_cons, List.count_append] at this
        simp only [Tree.ids_inner, Ctx.ids, List.count_append, List.count_cons]
        omega
      have hcells : (Tree.inner id v₁ K₁).cells ++ (Tree.inner new v₂ K₂).cells =
          ca.flatMap Tree.cells ++ (l.cells ++ r.cells ++ cb.flatMap Tree.cells) := by
        simp only [Tree.cells_inner]
        rw [← List.flatMap_append, ← hK]
        simp
      have hpush'' : pushedUp σ₀ row (n + 1) id = some k := by rw [hpush', if_neg (by simp [hcan]), hprom]
      have hoff : ∀ (new' : List PageId) (x : PageId),
          x ∉ t.metaId :: ((new' ++ [new]) ++ (Ctx.down up id a b ca cb aligned).path) →
          x ∉ [t.metaId, new, id] ∧ x ∉ t.metaId :: (new' ++ up.path) := by
        intro new' x hx
        simp only [Ctx.path, List.mem_cons, List.mem_append, List.not_mem_nil, or_false, not_or] at hx ⊢
        exact ⟨⟨hx.1, hx.2.1.2, hx.2.2.1⟩, hx.1, hx.2.1.1, hx.2.2.2⟩
      have hnew : ∀ {ids' new' : List PageId}, ids'.Perm
          (new' ++ (up.ids ++ ((Tree.inner id v₁ K₁).ids ++ (Tree.inner new v₂ K₂).ids))) →
          ids'.Perm ((new' ++ [new]) ++ ((Ctx.down up id a b ca cb aligned).ids ++ (l.ids ++ r.ids))) := by
        intro ids' new' h
        rw [List.append_assoc]
        exact h.trans (hperm.append_left new')
      -- one level up, with one ancestor less
      rcases exec_climb hp' hm' hroot (ho'.perm ((hperm.append_right out).append_right free'))
        (by simp only [Ctx.path, List.length_cons] at hcount; omega)
        (fun x hx => by
          rw [List.mem_append, hperm.mem_iff]
          rcases List.mem_append.mp (hkeep hx) with hx | hx
          · exact Or.inl (List.mem_cons_of_mem _ hx)
          · exact Or.inr hx)
        (fun x hx hm => hdis x hx (List.mem_cons_of_mem _ hm))
        (hheld.trans (List.map_congr_left fun x hx => (hpath x hx).symm))
        (fun x hx => (hpath x hx).trans (hσ₀ x (List.mem_cons_of_mem _ hx))) (hp.ctxOrdered.within_up hrow) hpush''
        with ⟨σ'', T, new', count'', free'', rest, tr₁, tr₂, htook⟩ |
          ⟨σ₁, l₁, r₁, sep₁, new', count₁, free₁, tr₁, hcut, hcount₁⟩
      · have hbefore : ∀ w ∈ tr ++ tr₁, (∀ x, x ∉ t.metaId :: ((new' ++ [new]) ++ (Ctx.down up id a b ca cb aligned).path) →
            w.store.page x = σ.page x) ∧ t.namedRoot w = some root ∧ w.latch (up.rootOr id) = .write := by
          intro w hw
          rcases List.mem_append.mp hw with hw | hw
          · obtain ⟨h₁, h₂, h₃⟩ := htr w hw
            exact ⟨fun x hx => h₁ x (hoff new' x hx).1, h₂, h₃ _ (List.mem_append_left _ (Ctx.rootOr_mem_path htook.held))⟩
          · obtain ⟨h₁, h₂, h₃⟩ := htook.before w hw
            exact ⟨fun x hx => (h₁ x (hoff new' x hx).2).trans (hframe x (hoff new' x hx).1), h₂, h₃⟩
        refine Or.inl ⟨σ'', T, new' ++ [new], count'', free'', rest, tr ++ tr₁, tr₂, {
          exec := by
            rw [List.append_assoc]
            exact hrest _ _ _ htook.exec
          rest := htook.rest.trans (List.suffix_cons id up.path)
          rebuilt := ⟨htook.rebuilt.ok, htook.rebuilt.ordered, hnew htook.rebuilt.perm, htook.rebuilt.owned⟩
          rootId := htook.rootId
          cells := by
            rw [htook.cells, hcells]
            simp [Ctx.cellsBefore, Ctx.cellsAfter]
          metaRep := htook.metaRep
          frame := fun x hx => (htook.frame x (hoff new' x hx).2).trans (hframe x (hoff new' x hx).1)
          before := hbefore
          after := htook.after
          held := by simp [Ctx.path]
          pushed := htook.pushed }⟩
      · refine Or.inr ⟨σ₁, l₁, r₁, sep₁, new' ++ [new], count₁, free₁, tr ++ tr₁, {
          pending := hcut.pending
          metaRep := hcut.metaRep
          owned := hcut.owned
          rootId := hcut.rootId
          perm := hnew hcut.perm
          cells := by
            rw [hcut.cells, hcells]
            simp [Ctx.cellsBefore, Ctx.cellsAfter]
          frame := fun x hx => (hcut.frame x (hoff new' x hx).2).trans (hframe x (hoff new' x hx).1)
          pushed := hcut.pushed
          before := fun w hw => by
            rcases List.mem_append.mp hw with hw | hw
            · obtain ⟨h₁, h₂, h₃⟩ := htr w hw
              exact ⟨fun x hx => h₁ x (hoff new' x hx).1, h₂, fun x hx => h₃ x (List.mem_append_right _ hx)⟩
            · obtain ⟨h₁, h₂, h₃⟩ := hcut.before w hw
              exact ⟨fun x hx => (h₁ x (hoff new' x hx).2).trans (hframe x (hoff new' x hx).1), h₂, h₃⟩
          held := by
            refine ⟨fun h => by simp [Ctx.path] at h, fun h => ?_⟩
            rw [(List.append_eq_nil_iff.mp h).1] at hlast
            cases hlast
          latched := fun w hw => by
            -- only the last page cut is the root
            by_cases hup : up.path = []
            · rw [hcut.held.mp hup, List.append_nil] at hw
              rw [Ctx.rootOr, Ctx.rootOr_of_path_nil hup]
              exact hlatched w hw
            · rw [List.dropLast_append_of_ne_nil (mt hcut.held.mpr hup)] at hw
              rcases List.mem_append.mp hw with hw | hw
              · exact (htr w hw).2.2 _ (List.mem_append_left _ (Ctx.rootOr_mem_path hup))
              · exact hcut.latched w hw
          last := by
            have hlast' := hcut.last
            rw [List.getLast?_cons, List.getLast?_append, hlast]
            rw [List.getLast?_cons] at hlast'
            rcases hl : tr₁.getLast? with _ | w <;> simp_all
          exec := fun tr' res w' hk => by
            rw [List.append_assoc]
            exact hrest _ _ _ (hcut.exec tr' res w' hk) }, hcount₁⟩
    · have hfit : Page.keysSize (a ++ b) + Page.internalEntrySize sep ≤ internalUsable := by
        rwa [Page.canInsertSeparator_internal sep hvalid.size, decide_eq_true_iff] at hcan
      let p' : Page := ⟨id, lsn, .internal (a ++ sep :: b) ((ca ++ l :: r :: cb).map Tree.rootId)⟩
      have hins := (@Page.internalInsert_fits id lsn _ _ (ca.map Tree.rootId) (cb.map Tree.rootId) l.rootId r.rootId)
          hvalid hp.fits ha hb (by simpa using aligned) hfit
      have hp' : p' = ⟨id, lsn, .internal (a ++ sep :: b)
          (ca.map Tree.rootId ++ l.rootId :: r.rootId :: cb.map Tree.rootId)⟩ := by simp [p']
      rw [← hp'] at hins
      have hexec := (@exec_takesSeparator t σ (up.path ++ keep)
          ⟨id, lsn, .internal (a ++ b) (ca.map Tree.rootId ++ l.rootId :: cb.map Tree.rootId)⟩ p' ancestors _ l.rootId)
          hL rfl hcan hins
      have hframe : ∀ x, x ∉ [id] → (σ.put p').page x = σ.page x := fun x hx =>
        Store.put_ne _ (p := p') (by simpa using hx)
      refine Or.inl ⟨σ.put p', _, [], count, free, ancestors, [], _, {
        exec := by rw [held_ids hheld]; exact hexec
        rest := by rw [held_ids hheld]; exact List.suffix_cons id up.path
        rebuilt := hp.taken ho (Store.put_self _ p') hframe (Page.keysValid_insert hvalid hp.fits ha hb hfit)
        rootId := by rw [Ctx.rootId_plug]; rfl
        cells := by
          rw [Ctx.cells_plug]
          simp [Ctx.cellsBefore, Ctx.cellsAfter]
        metaRep := put_meta (p := p') hm ho
          (hids (by simp [p']))
        frame := fun x hx => hframe x fun he => hx (by rw [List.mem_singleton.mp he]; simp [Ctx.path])
        before := by simp
        after := by
          intro w hw
          simp only [List.mem_cons, List.not_mem_nil, or_false] at hw
          rcases hw with rfl | rfl <;> rfl
        held := by simp [Ctx.path]
        pushed := by
          have hnone : pushedUp σ₀ row (n + 1) id = none := by rw [hpush', if_pos hcan]
          exact pushedUp_none (c := up) hp.ctx.2.2.2 (fun x hx => hσ₀ x (List.mem_cons_of_mem _ hx)) hp.ctxOrdered.1
            (hp.ctxOrdered.within_up hrow) hnone }⟩

end

end BTree

end RustDb
