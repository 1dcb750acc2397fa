/-
  RustDb.BTree.InsertLeaf — the end of `insert`, at the leaf the key belongs to, with every
  page above it held up to the root of a subtree.

  `Outcome` lists what can happen to the subtree: it takes the row (`Took`), its root is
  cut too and the subtree grows by a level (`Grew`), or it has the key already. Each says
  what the store holds in the end and what other threads can find in every world of the
  run. `exec_insertAtLeaf` proves it from the leaf cut (`exec_cutsLeaf`) and the climb
  (`exec_climb`).
-/

import RustDb.BTree.SplitLoop
import RustDb.BTree.Get

namespace RustDb

open Lib.SearchTree Call

/-! ## Releasing guards -/

/-- Guards are let go of one after the other, while those on `keep` stay. -/
theorem exec_dropAll {ε : Type} {σ : Store} {keep : List PageId} : ∀ {ids L : List PageId}, ids.Nodup →
    (∀ x ∈ keep, x ∉ ids) → (∀ x, x ∈ L ↔ x ∈ ids ∨ x ∈ keep) →
    ∃ tr, Exec (dropAll ids : Call ε Unit) (.writing σ L) tr (.ok ()) (.writing σ keep) ∧
      ∀ w ∈ tr, w.store = σ ∧ ∀ x ∈ keep, w.latch x = .write
  | [], L, _, _, hL => by
    rw [World.writing_congr (by simpa using hL)]
    exact ⟨[], exec_pure _ _, by simp⟩
  | id :: ids, L, hnd, hdis, hL => by
    obtain ⟨hid, hnd⟩ := List.nodup_cons.mp hnd
    have hkeep : id ∉ keep := fun h => hdis id h List.mem_cons_self
    obtain ⟨tr, hexec, htr⟩ := exec_dropAll (ε := ε) (σ := σ) (L := ids ++ keep) hnd
      (fun x hx hm => hdis x hx (List.mem_cons_of_mem _ hm)) (by simp)
    have hdrop := (@exec_drop ε σ L (ids ++ keep)) ((hL id).mpr (by simp)) fun x => by
      rw [hL]
      simp only [List.mem_cons, List.mem_append]
      constructor
      · intro h
        refine ⟨h.imp_left Or.inr, ?_⟩
        rintro rfl
        exact h.elim hid hkeep
      · rintro ⟨h, hne⟩
        exact h.imp_left fun h => h.resolve_left hne
    refine ⟨_, hdrop.bind hexec, fun w hw => ?_⟩
    rcases List.mem_append.mp hw with hw | hw
    · rw [List.mem_singleton.mp hw]
      exact ⟨rfl, fun x hx => World.latch_of_mem (by simp [hx])⟩
    · exact htr w hw

namespace BTree

/-- The ancestors are let go of, and nothing is written. -/
theorem exec_clear {σ : Store} {keep : List PageId} {ancestors : List Page} (hnd : (ancestors.map (·.pageId)).Nodup)
    (hdis : ∀ x ∈ keep, x ∉ ancestors.map (·.pageId)) :
    ∃ tr, Exec (clear ancestors) (.writing σ (ancestors.map (·.pageId) ++ keep)) tr (.ok ()) (.writing σ keep) ∧
      ∀ w ∈ tr, w.store = σ ∧ ∀ x ∈ keep, w.latch x = .write := by
  refine exec_dropAll ?_ ?_ ?_
  · rw [List.map_reverse]
    exact (List.reverse_perm _).nodup_iff.mpr hnd
  · simpa using hdis
  · simp

section
variable {t : Table} {σ : Store} {root : PageId} {count : UInt32} {free ids L : List PageId}

/-- The leaf right of a cut leaf takes the new leaf for its left neighbour. -/
theorem exec_fixPrev {next : Option PageId} {new : PageId}
    (hnext : ∀ n, next = some n → n ∉ L ∧ ∃ lsn rows nx pv, σ.page n = some ⟨n, lsn, .leaf rows nx pv⟩) :
    ∃ σ' tr, Exec (fixPrev next new) (.writing σ L) tr (.ok ()) (.writing σ' L) ∧ Relinks σ next new σ' ∧
      (∀ x, next ≠ some x → σ'.page x = σ.page x) ∧
      ∀ w ∈ tr, (w.store = σ ∨ w.store = σ') ∧ ∀ x ∈ L, w.latch x = .write := by
  rcases next with _ | n
  · exact ⟨σ, [], exec_pure _ _, by rintro n ⟨⟩, fun _ _ => rfl, by simp⟩
  · obtain ⟨hn, lsn, rows, nx, pv, hpage⟩ := hnext n rfl
    let p : Page := ⟨n, lsn, .leaf rows nx (some new)⟩
    have hchange := exec_change (σ := σ) (L := n :: L) (q := p) (a := ()) BTreeError.page (by simp [p])
    have hset : Page.setPrev ⟨n, lsn, .leaf rows nx pv⟩ (some new) = (.ok (), p) := rfl
    rw [← hset] at hchange
    have hdrop := exec_drop (ε := BTreeError) (σ := σ.put p) (by simp) (drop_head hn)
    refine ⟨σ.put p, _, (exec_bpm (exec_fetchWrite hpage hn)).bind (hchange.bind hdrop), ?_, ?_, ?_⟩
    · rintro m ⟨⟩ lsn' rows' nx' pv' hm
      rw [hpage, Option.some.injEq, Page.mk.injEq, PageBody.leaf.injEq] at hm
      obtain ⟨-, rfl, rfl, rfl, -⟩ := hm
      exact Store.put_self _ p
    · intro x hx
      exact Store.put_ne _ (p := p) fun he => hx (congrArg some he.symm)
    · intro w hw
      simp only [List.cons_append, List.nil_append, List.mem_cons, List.not_mem_nil, or_false] at hw
      rcases hw with rfl | rfl | rfl
      · exact ⟨Or.inl rfl, fun x hx => World.latch_of_mem (by simp [hx])⟩
      · exact ⟨Or.inr rfl, fun x hx => World.latch_of_mem (by simp [hx])⟩
      · exact ⟨Or.inr rfl, fun x hx => World.latch_of_mem hx⟩

/-- A leaf with another left neighbour has the same rows. -/
theorem Relinks.frame {σ' : Store} {next : Option PageId} {new : PageId} (hr : Relinks σ next new σ')
    (hnext : ∀ n, next = some n → ∃ lsn rows nx pv, σ.page n = some ⟨n, lsn, .leaf rows nx pv⟩)
    (he : ∀ x, next ≠ some x → σ'.page x = σ.page x) : Frame σ σ' [] := by
  intro x _
  by_cases hx : next = some x
  · obtain ⟨lsn, rows, nx, pv, hp⟩ := hnext x hx
    have hleaf : leafAt σ x rows := ⟨lsn, nx, pv, hp⟩
    refine ⟨fun rows' hl => ?_, fun ks cs hn => absurd hn hleaf.not_node⟩
    rw [hl.inj hleaf]
    exact ⟨lsn, nx, some new, hr x hx _ _ _ _ hp⟩
  · exact ⟨fun _ hl => hl.congr (he x hx), fun _ _ hn => hn.congr (he x hx)⟩

/-! ## Cutting a leaf -/

/-- A leaf without room is cut: the new page is taken, both halves are written, the leaf on the right
    is linked, and the row goes into the half it belongs to. The page cut stays latched through all of
    it, so that a reader waits until the row is in; then the separator goes up (the program at the
    end). -/
theorem exec_cutsLeaf {row : ValidatedRow} {id : PageId} {lsn : PageLsn} {a b : List Row} {nx pv : Option PageId}
    (ancestors : List Page) (hm : t.MetaRep σ root count free) (hroot : root.tableId = t.metaId.tableId)
    (ho : t.Owned count (ids ++ free)) (hcount : count.toNat + 1 < 2 ^ 32) (hids : L ⊆ ids) (hL : id ∈ L)
    (hvalid : Page.LeafValid (a ++ b)) (ha : ∀ x ∈ a, x.key < row.row.key) (hb : ∀ x ∈ b, row.row.key < x.key)
    (hfull : ¬ Page.rowsSize (a ++ b) + Page.leafEntrySize row.row ≤ leafUsable)
    (hnext : ∀ n, nx = some n → n ∈ ids ∧ n ∉ L ∧ ∃ lsn rows nx' pv', σ.page n = some ⟨n, lsn, .leaf rows nx' pv'⟩) :
    ∃ new σ' count' free' sep v₁ v₂ tr, t.MetaRep σ' root count' free' ∧ t.Owned count' (new :: ids ++ free') ∧
      count'.toNat ≤ count.toNat + 1 ∧ a ++ row.row :: b = v₁ ++ v₂ ∧ v₁ ≠ [] ∧ v₂ ≠ [] ∧ Page.LeafValid v₁ ∧
      Page.LeafValid v₂ ∧ (∀ x ∈ v₁, x.key < sep) ∧ (∀ x ∈ v₂, sep ≤ x.key) ∧ (∃ r ∈ a ++ b, r.key = sep) ∧
      Page.promoted ⟨id, lsn, .leaf (a ++ b) nx pv⟩ = some sep ∧
      σ'.page id = some ⟨id, lsn, .leaf v₁ (some new) pv⟩ ∧ σ'.page new = some ⟨new, none, .leaf v₂ nx (some id)⟩ ∧
      Relinks σ nx new σ' ∧ (∀ x, x ∉ [t.metaId, new, id] → nx ≠ some x → σ'.page x = σ.page x) ∧
      Frame σ σ' [t.metaId, new, id] ∧
      (∀ w ∈ tr, Frame σ w.store [t.metaId, new, id] ∧ t.namedRoot w = some root ∧ ∀ x ∈ L, w.latch x = .write) ∧
      ∀ tr' r w', Exec (do let ancestors ← splitLoop t ancestors id sep new; drop new; clear ancestors; drop id)
          (.writing σ' (new :: L)) tr' r w' →
        Exec (splitAndInsert t ⟨id, lsn, .leaf (a ++ b) nx pv⟩ row ancestors) (.writing σ L) (tr ++ tr') r w' := by
  have hpos : count ≠ 0 := Owned.count_ne_zero ho (List.ne_nil_of_mem (List.mem_append_left _ (hids hL)))
  obtain ⟨new, σ₁, count', free', tr₁, halloc, hm₁, ho₁, -, hframe₁, -, -, hle, htr₁⟩ :=
    Table.exec_allocate hm ho hids hroot hcount hpos
  obtain ⟨sep, v₁, v₂, lp, r₂, hv, hne₁, hne₂, hvalid₁, hvalid₂, hlt, hge, hsep, hlp, hsplit, hins⟩ :=
    Page.splitPage_leafInsert hvalid ha hb hfull
  obtain ⟨lid, llsn, lbody⟩ := lp
  obtain rfl : id = lid := hlp.symm
  have hnewids : new ∉ ids := fun h => (List.nodup_cons.mp ho₁.nodup).1 (List.mem_append_left _ h)
  have hnewL : new ∉ L := fun h => hnewids (hids h)
  have hnewid : new ≠ id := fun h => hnewL (h ▸ hL)
  have hidm : id ≠ t.metaId := ho.ne_meta (List.mem_append_left _ (hids hL))
  have hnewm : new ≠ t.metaId := ho₁.ne_meta (by simp)
  -- from the allocation on: the two halves and the leaf after them
  have hok : ∀ τ : Store, (∀ x, x ∉ [new, id] → nx ≠ some x → τ.page x = σ₁.page x) → Frame σ₁ τ [new, id] →
      t.MetaRep τ root count' free' ∧ Frame σ τ [t.metaId, new, id] := by
    intro τ hτ hf
    have hmeta : ∀ x, x ∉ ids → x ≠ new → τ.page x = σ₁.page x := fun x hx hxn =>
      hτ x (by simp only [List.mem_cons, List.not_mem_nil, or_false, not_or]; exact ⟨hxn, fun he => hx (he ▸ hids hL)⟩)
        fun he => hx (hnext x he).1
    refine ⟨hm₁.congr (hmeta _ (fun h => ho.ne_meta (List.mem_append_left _ h) rfl) hnewm.symm) fun x hx => ?_, ?_⟩
    · have hx' : x ∉ new :: ids := fun h => (List.nodup_append.mp ho₁.nodup).2.2 _ h _ hx rfl
      simp only [List.mem_cons, not_or] at hx'
      exact hmeta x hx'.2 hx'.1
    · refine (Frame.of_eq fun x hx => ?_).trans (hf.mono (by simp))
      simp only [List.mem_cons, not_or] at hx
      exact hframe₁ x hx.1 hx.2.1
  let lp : Page := ⟨id, llsn, lbody⟩
  let rp : Page := ⟨new, none, .leaf r₂ nx (some id)⟩
  have hput : ∀ (τ : Store) (q : Page), q.pageId ∈ [new, id] → ∀ x, x ∉ [new, id] → (τ.put q).page x = τ.page x :=
    fun τ q hq x hx => Store.put_ne τ (p := q) fun he => hx (by rw [he]; exact hq)
  have hτ₁ := hput σ₁ lp (by simp [lp])
  have hτ₂ : ∀ x, x ∉ [new, id] → ((σ₁.put lp).put rp).page x = σ₁.page x := fun x hx =>
    (hput _ rp (by simp [rp]) x hx).trans (hτ₁ x hx)
  have hnext' : ∀ n, nx = some n → n ∉ [new, id] := by
    intro n hn
    obtain ⟨hnids, hnL, -⟩ := hnext n hn
    simp only [List.mem_cons, List.not_mem_nil, or_false, not_or]
    exact ⟨fun he => hnewids (he ▸ hnids), fun he => hnL (he ▸ hL)⟩
  have hleaf₂ : ∀ n, nx = some n → ∃ lsn rows nx' pv', ((σ₁.put lp).put rp).page n = some ⟨n, lsn, .leaf rows nx' pv'⟩ ∧
      σ.page n = some ⟨n, lsn, .leaf rows nx' pv'⟩ := by
    intro n hn
    obtain ⟨hnids, -, lsn', rows', nx', pv', hpage⟩ := hnext n hn
    refine ⟨lsn', rows', nx', pv', ?_, hpage⟩
    rw [hτ₂ n (hnext' n hn), hframe₁ n (ho.ne_meta (List.mem_append_left _ hnids)) fun he => hnewids (he ▸ hnids), hpage]
  obtain ⟨τ₃, tr₃, hfix, hrelink, hframe₃, htr₃⟩ := (@exec_fixPrev ((σ₁.put lp).put rp) (new :: L) _ new) fun n hn => ⟨by
      have := hnext' n hn
      simp only [List.mem_cons, List.not_mem_nil, or_false, not_or] at this ⊢
      exact ⟨this.1, (hnext n hn).2.1⟩, by
      obtain ⟨lsn', rows', nx', pv', hp, -⟩ := hleaf₂ n hn
      exact ⟨lsn', rows', nx', pv', hp⟩⟩
  have hf₃ : Frame σ₁ τ₃ [new, id] := (Frame.of_eq hτ₂).trans ((hrelink.frame (fun n hn => by
    obtain ⟨lsn', rows', nx', pv', hp, -⟩ := hleaf₂ n hn
    exact ⟨lsn', rows', nx', pv', hp⟩) hframe₃).mono (by simp))
  have hτ₃ : ∀ x, x ∉ [new, id] → nx ≠ some x → τ₃.page x = σ₁.page x := fun x hx hn => (hframe₃ x hn).trans (hτ₂ x hx)
  have hmem : ∀ {x}, x ∈ [new, id] → x ∈ new :: L := by
    intro x hx
    simp only [List.mem_cons, List.not_mem_nil, or_false] at hx
    rcases hx with rfl | rfl
    · simp
    · simp [hL]
  have hsplit' := exec_change (σ := σ₁) (L := new :: L) (q := lp) (a := (sep, rp)) BTreeError.page (hmem (by simp [lp]))
  rw [← hsplit] at hsplit'
  have hright := exec_put (ε := BTreeError) (σ := σ₁.put lp) (L := new :: L) (q := rp) (hmem (by simp [rp]))
  -- the row goes into one of the halves
  obtain ⟨q, hq, hqid, hqnew, hrest⟩ : ∃ q : Page, q.pageId ∈ [new, id] ∧
      (τ₃.put q).page id = some ⟨id, lsn, .leaf v₁ (some new) pv⟩ ∧
      (τ₃.put q).page new = some ⟨new, none, .leaf v₂ nx (some id)⟩ ∧
      ∀ tr' r w', Exec (do let ancestors ← splitLoop t ancestors id sep new; drop new; clear ancestors; drop id)
          (.writing (τ₃.put q) (new :: L)) tr' r w' →
        Exec (splitAndInsert t ⟨id, lsn, .leaf (a ++ b) nx pv⟩ row ancestors) (.writing σ L)
          (tr₁ ++ (.writing (σ₁.put lp) (new :: L) :: .writing ((σ₁.put lp).put rp) (new :: L) ::
            (tr₃ ++ (.writing (τ₃.put q) (new :: L) :: tr')))) r w' := by
    rcases hins with ⟨hks, hins, rfl⟩ | ⟨hks, hl, hins⟩
    · let lp' : Page := ⟨id, lsn, .leaf v₁ (some new) pv⟩
      have hchange := exec_change (σ := τ₃) (L := new :: L) (q := lp') (a := ()) BTreeError.page (hmem (by simp [lp']))
      rw [← hins] at hchange
      refine ⟨lp', by simp [lp'], Store.put_self _ lp', ?_, fun tr' r w' hk => ?_⟩
      · rw [Store.put_ne _ (p := lp') hnewid, hframe₃ new fun h => (hnext' new h) (by simp)]
        exact Store.put_self _ rp
      · exact halloc.expect_ok.bind (hsplit'.bind (hright.bind ((exec_pure nx _).bind (hfix.bind (Exec.ite_pos
          (by rw [row.primaryKey_eq]; exact hks) (hchange.bind hk))))))
    · let rp' : Page := ⟨new, none, .leaf v₂ nx (some id)⟩
      have hchange := exec_change (σ := τ₃) (L := new :: L) (q := rp') (a := ()) BTreeError.page (hmem (by simp [rp']))
      rw [← hins] at hchange
      refine ⟨rp', by simp [rp'], ?_, Store.put_self _ rp', fun tr' r w' hk => ?_⟩
      · rw [Store.put_ne _ (p := rp') hnewid.symm, hframe₃ id fun h => (hnext' id h) (by simp),
          Store.put_ne _ (p := rp) hnewid.symm, ← hl]
        exact Store.put_self _ lp
      · exact halloc.expect_ok.bind (hsplit'.bind (hright.bind ((exec_pure nx _).bind (hfix.bind (Exec.ite_neg
          (by rw [row.primaryKey_eq]; exact hks) (hchange.bind hk))))))
  have hτ₄ : ∀ x, x ∉ [new, id] → nx ≠ some x → (τ₃.put q).page x = σ₁.page x := fun x hx hn =>
    (hput τ₃ q hq x hx).trans (hτ₃ x hx hn)
  have hf₄ : Frame σ₁ (τ₃.put q) [new, id] := hf₃.trans (Frame.of_eq (hput τ₃ q hq))
  obtain ⟨hm₄, hframe₄⟩ := hok _ hτ₄ hf₄
  have hrelink' : Relinks σ nx new (τ₃.put q) := by
    intro n hn lsn' rows' nx' pv' hpage
    obtain ⟨lsn'', rows'', nx'', pv'', hp, hp'⟩ := hleaf₂ n hn
    rw [hpage] at hp'
    cases hp'
    rw [hput τ₃ q hq n (hnext' n hn)]
    exact hrelink n hn _ _ _ _ hp
  refine ⟨new, τ₃.put q, count', free', sep, v₁, v₂, tr₁ ++ (.writing (σ₁.put lp) (new :: L) ::
    .writing ((σ₁.put lp).put rp) (new :: L) :: (tr₃ ++ [.writing (τ₃.put q) (new :: L)])), hm₄, ho₁, hle, hv, hne₁, hne₂,
    hvalid₁, hvalid₂, hlt, hge, hsep, Page.promoted_of_split hsplit, hqid, hqnew, hrelink', fun x hx hn => ?_, hframe₄,
    fun w hw => ?_, fun tr' r w' hk => ?_⟩
  · simp only [List.mem_cons, List.not_mem_nil, or_false, not_or] at hx
    rw [hτ₄ x (by simp [hx]) hn]
    exact hframe₁ x hx.1 hx.2.1
  · have hstore : ∀ (τ : Store) (w : World), w.store = τ → (∀ x, x ∉ [new, id] → nx ≠ some x → τ.page x = σ₁.page x) →
        Frame σ₁ τ [new, id] → Frame σ w.store [t.metaId, new, id] ∧ t.namedRoot w = some root := by
      intro τ w hw hτ hf
      obtain ⟨hmτ, hfτ⟩ := hok τ hτ hf
      subst hw
      exact ⟨hfτ, hmτ.namedRoot (L := [])⟩
    have hlatch : ∀ (τ : Store), ∀ x ∈ L, (World.writing τ (new :: L)).latch x = .write := fun τ x hx =>
      World.latch_of_mem (by simp [hx])
    simp only [List.mem_append, List.mem_cons, List.not_mem_nil, or_false] at hw
    rcases hw with hw | rfl | rfl | hw | rfl
    · obtain ⟨hoff, hnamed⟩ := htr₁ w hw
      refine ⟨Frame.of_eq fun x hx => (hoff x ?_).1, hnamed, fun x hx => ?_⟩
      · simp only [List.mem_cons, not_or] at hx ⊢
        exact ⟨hx.1, hx.2.1, hx.2.2.2⟩
      · rw [(hoff x (by
          simp only [List.mem_cons, List.not_mem_nil, or_false, not_or]
          exact ⟨ho.ne_meta (List.mem_append_left _ (hids hx)), fun he => hnewL (he ▸ hx)⟩)).2]
        exact World.latch_of_mem hx
    · exact ⟨(hstore _ _ rfl (fun x hx _ => hτ₁ x hx) (Frame.of_eq hτ₁)).1,
        (hstore _ _ rfl (fun x hx _ => hτ₁ x hx) (Frame.of_eq hτ₁)).2, hlatch _⟩
    · exact ⟨(hstore _ _ rfl (fun x hx _ => hτ₂ x hx) (Frame.of_eq hτ₂)).1,
        (hstore _ _ rfl (fun x hx _ => hτ₂ x hx) (Frame.of_eq hτ₂)).2, hlatch _⟩
    · obtain ⟨hw, hl⟩ := htr₃ w hw
      have hl' : ∀ x ∈ L, w.latch x = .write := fun x hx => hl x (by simp [hx])
      rcases hw with hw | hw
      · obtain ⟨h₁, h₂⟩ := hstore _ w hw (fun x hx _ => hτ₂ x hx) (Frame.of_eq hτ₂)
        exact ⟨h₁, h₂, hl'⟩
      · obtain ⟨h₁, h₂⟩ := hstore _ w hw hτ₃ hf₃
        exact ⟨h₁, h₂, hl'⟩
    · exact ⟨(hstore _ _ rfl hτ₄ hf₄).1, (hstore _ _ rfl hτ₄ hf₄).2, hlatch _⟩
  · have := hrest tr' r w' hk
    simpa using this

end

/-! ## Outcomes -/

/-- A subtree of a sound table: `root` is the table's root, `A` and `B` are the leaves before
    and after the subtree's, `out` the pages beside it. -/
structure Beside (t : Table) (σ : Store) (root : PageId) (out A B : List PageId) {H : Nat} (T : PageTree H) (count : UInt32)
    (free : List PageId) : Prop where
  metaRep : t.MetaRep σ root count free
  rootTable : root.tableId = t.metaId.tableId
  owned : t.Owned count (T.ids ++ out ++ free)
  links : Linked σ none (A ++ (T.leaves ++ B)) none
  nodup : (A ++ (T.leaves ++ B)).Nodup
  known : A ++ B ⊆ out
  room : count.toNat + H + 2 < 2 ^ 32

/-- `T'` is `T` with the row, in its order, on the pages of `T` and new ones. -/
structure Stored (t : Table) (ne : Prop) (lo hi : Option Key) (out A B : List PageId) (row : ValidatedRow) {H : Nat}
    (T : PageTree H) (σ' : Store) {H' : Nat} (T' : PageTree H') (new : List PageId) (count : UInt32)
    (free : List PageId) : Prop where
  rebuilt : Rebuilt t σ' ne lo hi out T.ids new T' count free
  rows : ∃ a b, T.rows = a ++ b ∧ T'.rows = a ++ row.row :: b
  links : Linked σ' none (A ++ (T'.leaves ++ B)) none

/-- The subtree took the row; from every world of the run on, its rows are found from its root. -/
structure Took (t : Table) (σ : Store) (ne : Prop) (lo hi : Option Key) (root : PageId) (out A B : List PageId)
    (row : ValidatedRow) {H : Nat} (T : PageTree H) (tr : List World) (w' : World) (σ' : Store) (T' : PageTree H)
    (new : List PageId) (count : UInt32) (free : List PageId) : Prop where
  final : w' = .idle σ'
  stored : Stored t ne lo hi out A B row T σ' T' new count free
  rootId : T'.rootId = T.rootId
  metaRep : t.MetaRep σ' root count free
  frame : ∀ w ∈ tr, Frame σ w.store (t.metaId :: (new ++ T.ids)) ∧ t.namedRoot w = some root
  served : Served tr T.rootId T.rows
  pushed : pushedUp σ row H T.rootId = none
  nonempty : tr ≠ []

/-- From every world in which the named root is not write-latched, `rows` are found from it. -/
def RootServed (t : Table) (ws : List World) (rows : List Row) : Prop :=
  ∀ w rest, (w :: rest) <:+ ws → ∀ root, t.namedRoot w = some root → w.latch root ≠ .write → ∀ r ∈ rows,
  Finds r.key (w :: rest) root

/-- The root, cut in two, is released before the new root is named: `P` before the release, `w` the
    world after it, `Q` until the new root is released, `R` from then on. -/
structure Halved (t : Table) (lo hi : Option Key) (root : PageId) {H : Nat} (T' : PageTree (H + 1)) (sep : Key)
    (P : List World) (w : World) (Q R : List World) (l r : PageTree H) : Prop where
  before : ∀ x ∈ P, ∃ id, t.namedRoot x = some id ∧ x.latch id = .write
  named : t.namedRoot w = some root
  released : w.latch root ≠ .write
  rootId : l.rootId = root
  settled : Settled (w :: (Q ++ R)) l
  until_named : ∀ x ∈ Q, t.namedRoot x = some root ∨ ∃ id, t.namedRoot x = some id ∧ x.latch id = .write
  after : ∀ x ∈ R, t.namedRoot x = some T'.rootId
  served : Served R T'.rootId T'.rows
  leftOrdered : l.Ordered Row.key lo (some sep)
  rightOrdered : r.Ordered Row.key (some sep) hi
  rows : T'.rows = l.rows ++ r.rows

/-- The subtree was cut at its root as well, and stands under a new one. -/
structure Grew (t : Table) (σ : Store) (ne : Prop) (lo hi : Option Key) (root : PageId) (out A B : List PageId)
    (row : ValidatedRow) {H : Nat} (T : PageTree H) (tr : List World) (w' : World) (σ' : Store) (T' : PageTree (H + 1))
    (new : List PageId) (count : UInt32) (free : List PageId) : Prop where
  final : w' = .idle σ'
  stored : Stored t ne lo hi out A B row T σ' T' new count free
  metaRep : t.MetaRep σ' T'.rootId count free
  pushed : (pushedUp σ row H T.rootId).isSome
  leafRoot : H = 0 → root = T.rootId → RootServed t tr T.rows
  innerRoot : 0 < H → root = T.rootId → ∃ sep P w Q R l r, pushedUp σ row H T.rootId = some sep ∧
    tr = P ++ w :: (Q ++ R) ∧ Halved t lo hi root T' sep P w Q R l r

/-- What inserting a row below a latched page comes to. -/
inductive Outcome (t : Table) (σ : Store) (ne : Prop) (lo hi : Option Key) (root : PageId) (out A B : List PageId)
    (row : ValidatedRow) {H : Nat} (T : PageTree H) (tr : List World) (w' : World) : Except (Fail BTreeError) Unit → Prop
  | took (new) {σ' T' count free} (h : Took t σ ne lo hi root out A B row T tr w' σ' T' new count free) :
      Outcome t σ ne lo hi root out A B row T tr w' (.ok ())
  | grew (new) {σ' T' count free} (h : Grew t σ ne lo hi root out A B row T tr w' σ' T' new count free) :
      Outcome t σ ne lo hi root out A B row T tr w' (.ok ())
  | duplicate (hrow : ∃ r ∈ T.rows, r.key = row.row.key) (hstore : w'.store = σ) (htr : ∀ w ∈ tr, w.store = σ)
      (hpush : pushedUp σ row H T.rootId = none) :
      Outcome t σ ne lo hi root out A B row T tr w' (.error (.err (.page .duplicateKey)))

section
variable {t : Table} {σ σ' : Store} {ne : Prop} {lo hi : Option Key} {root : PageId} {out A B : List PageId}
  {row : ValidatedRow} {H : Nat} {count : UInt32} {free : List PageId}

/-- The root that is named depends on the meta page only. -/
theorem namedRoot_store {w w' : World} (h : w.store = w'.store) : t.namedRoot w = t.namedRoot w' := by
  rw [Table.namedRoot, Table.namedRoot, h]

/-- A page latched until its tree is as it will stay serves what that tree holds. -/
theorem served_released {T' : PageTree H} {rows : List Row} (tr₁ : List World) {tr₂ : List World} (hok : Ok σ' ne T')
    (ho : T'.Ordered Row.key lo hi) (h₁ : ∀ w ∈ tr₁, w.latch T'.rootId = .write) (h₂ : ∀ w ∈ tr₂, w.store = σ')
    (hlast : tr₂.getLast? = some (.idle σ')) (hsub : rows ⊆ T'.rows) : Served (tr₁ ++ tr₂) T'.rootId rows := by
  have hall : T'.All (leafAt σ') (nodeAt σ') := hok.imp (fun _ _ _ hl => hl.1) fun _ _ _ _ hn => hn.1
  have hS : Settled tr₂ T' := ⟨fun w hw => by rw [h₂ w hw]; exact hall, fun w hw x _ => by
    rw [hlast] at hw
    cases hw
    simp [World.writing_latch]⟩
  have hserved := (hS.served ho.rowBounds).latched (by rintro rfl; simp at hlast) h₁
  exact fun ws hs hne r hr => hserved ws hs hne r (hsub hr)

/-- World by world. -/
theorem rootServed_cons {rows : List Row} {w : World} {ws : List World} : RootServed t (w :: ws) rows ↔
    (∀ root, t.namedRoot w = some root → w.latch root ≠ .write → ∀ r ∈ rows, Finds r.key (w :: ws) root) ∧
      RootServed t ws rows := by
  constructor
  · intro hs
    exact ⟨hs w ws (List.suffix_refl _), fun w' ws' hsuf => hs w' ws' (hsuf.trans (List.suffix_cons w ws))⟩
  · rintro ⟨hw, hs⟩ w' ws' hsuf
    rcases List.suffix_cons_iff.mp hsuf with heq | hsuf
    · cases heq
      exact hw
    · exact hs w' ws' hsuf

/-- While the root named is latched, readers wait for what follows. -/
theorem RootServed.latched {rows : List Row} {tr ws : List World} (hs : RootServed t ws rows)
    (hl : ∀ w ∈ tr, ∃ root, t.namedRoot w = some root ∧ w.latch root = .write) : RootServed t (tr ++ ws) rows := by
  induction tr with
  | nil => exact hs
  | cons w tr ih =>
    refine rootServed_cons.mpr ⟨fun r hr hfree => ?_, ih fun x hx => hl x (List.mem_cons_of_mem _ hx)⟩
    obtain ⟨root, hroot, hl⟩ := hl w List.mem_cons_self
    obtain rfl : root = r := Option.some.inj (hroot.symm.trans hr)
    exact absurd hl hfree

/-- What is found from every world is found from the later ones. -/
theorem RootServed.suffix {rows : List Row} {ws ws' : List World} (hs : RootServed t ws rows) (hsuf : ws' <:+ ws) :
    RootServed t ws' rows := fun w rest h => hs w rest (h.trans hsuf)

/-- Where the root that is named is the subtree's, what is served from it is served from the root. -/
theorem Served.rootServed {id : PageId} {rows : List Row} {ws : List World} (hs : Served ws id rows)
    (hn : ∀ w ∈ ws, t.namedRoot w = some id) : RootServed t ws rows := by
  intro w ws' hsuf r hr _ x hx
  obtain rfl : id = r := Option.some.inj ((hn w (hsuf.subset List.mem_cons_self)).symm.trans hr)
  exact hs _ hsuf (by simp) x hx

/-- A subtree at the hole of a context: everything above is held, and the key belongs here. -/
structure Here (σ : Store) (ne : Prop) (lo hi : Option Key) (row : ValidatedRow) {H h : Nat} (c : PageCtx H h)
    (T : PageTree h) (ancestors : List Page) : Prop where
  ctx : CtxOk σ ne c T.rootId
  tree : RootOk σ ne T
  ctxOrdered : c.Ordered Row.key lo hi
  ordered : T.Ordered Row.key (c.lo lo) (c.hi hi)
  key : Within (c.lo lo) (c.hi hi) row.row.key
  held : ancestors.map some = c.path.map σ.page

/-- The place of a key no row has. -/
theorem rows_split {rows : List Row} {key : Key} (hs : (rows.map Row.key).Pairwise (· < ·))
    (hk : ¬ ∃ r ∈ rows, r.key = key) :
    ∃ a b, rows = a ++ b ∧ (∀ x ∈ a, x.key < key) ∧ ∀ x ∈ b, key < x.key := by
  induction rows with
  | nil => exact ⟨[], [], rfl, by simp, by simp⟩
  | cons r rows ih =>
    obtain ⟨hr, hs⟩ := List.pairwise_cons.mp hs
    rcases lt_trichotomy r.key key with h | h | h
    · obtain ⟨a, b, rfl, ha, hb⟩ := ih hs fun ⟨x, hx, hxk⟩ => hk ⟨x, by simp [hx], hxk⟩
      exact ⟨r :: a, b, rfl, by simpa using ⟨h, ha⟩, hb⟩
    · exact absurd ⟨r, by simp, h⟩ hk
    · refine ⟨[], r :: rows, rfl, by simp, fun x hx => ?_⟩
      rcases List.mem_cons.mp hx with rfl | hx
      · exact h
      · exact h.trans (hr _ (List.mem_map_of_mem hx))

section leafCases

variable {c : PageCtx H 0} {id : PageId} {rows : List Row} {ancestors : List Page} {lsn : PageLsn} {nx pv : Option PageId}

/-- What a leaf at a hole does to the tree around it: the root, the leaves, the rows and the pages. -/
theorem rootId_plug_leaf (c : PageCtx H 0) (id : PageId) (rows : List Row) :
    (c.plug (Tree.leaf id rows)).rootId = c.rootOr id := Ctx.rootId_plug c _

theorem leaves_plug_leaf (c : PageCtx H 0) (id : PageId) (rows : List Row) :
    (c.plug (Tree.leaf id rows)).leaves = c.cellsBefore.map Prod.fst ++ id :: c.cellsAfter.map Prod.fst := by
  rw [← Tree.map_cells, Ctx.cells_plug]
  simp

theorem rows_plug_leaf (c : PageCtx H 0) (id : PageId) (rows : List Row) :
    (c.plug (Tree.leaf id rows)).rows = c.cellsBefore.flatMap Prod.snd ++ (rows ++ c.cellsAfter.flatMap Prod.snd) := by
  rw [← Tree.flatMap_cells, Ctx.cells_plug]
  simp

theorem pages_plug_leaf (c : PageCtx H 0) (id m new : PageId) (rows : List Row) (new₁ : List PageId) :
    [m, new, id] ⊆ m :: ((new₁ ++ [new]) ++ (c.plug (Tree.leaf id rows)).ids) := by
  have hleaf : id ∈ (c.plug (Tree.leaf id rows)).ids :=
    (Ctx.ids_plug c (Tree.leaf id rows : PageTree 0)).symm.subset (by simp)
  simp [hleaf]

/-- The held pages, and the leaf below them. -/
theorem Here.nodup (hb : Beside t σ root out A B (c.plug (Tree.leaf id rows)) count free) : (id :: c.path).Nodup ∧
    id :: c.path ⊆ (c.plug (Tree.leaf id rows)).ids ∧ id ∉ c.ids := by
  have hperm := Ctx.ids_plug c (Tree.leaf id rows : PageTree 0)
  have hnd := (List.nodup_append.mp (List.nodup_append.mp hb.owned.nodup).1).1
  rw [hperm.nodup_iff, Tree.ids_leaf] at hnd
  obtain ⟨hc, -, hdis⟩ := List.nodup_append.mp hnd
  have hid : id ∉ c.ids := fun h => hdis id h id (by simp) rfl
  refine ⟨List.nodup_cons.mpr ⟨fun h => hid ((Ctx.path_sublist c).subset h), hc.sublist (Ctx.path_sublist c)⟩, ?_, hid⟩
  intro x hx
  rw [hperm.mem_iff, Tree.ids_leaf]
  rcases List.mem_cons.mp hx with rfl | hx
  · simp
  · exact List.mem_append_left _ ((Ctx.path_sublist c).subset hx)

/-- The key is there already: both ways to the answer end with `DuplicateKey`, nothing written. -/
theorem insertAtLeaf_duplicate (hh : Here σ ne lo hi row c (Tree.leaf id rows) ancestors)
    (hpage : σ.page id = some ⟨id, lsn, .leaf rows nx pv⟩) (hdup : ∃ r ∈ rows, r.key = row.row.key) :
    ∃ tr r w', Exec (insertAtLeaf t row ⟨id, lsn, .leaf rows nx pv⟩ ancestors) (.writing σ (id :: c.path)) tr r w' ∧
      Outcome t σ ne lo hi root out A B row (c.plug (Tree.leaf id rows)) tr w' r := by
  obtain ⟨-, hvalid⟩ := rootOk_leaf.mp hh.tree
  have hget : Page.leafGet ⟨id, lsn, .leaf rows nx pv⟩ row.primaryKey ≠ .ok none ∧
      ∃ r, Page.leafGet ⟨id, lsn, .leaf rows nx pv⟩ row.primaryKey = .ok (some r) := by
    obtain ⟨r, hr, hrk⟩ := hdup
    obtain ⟨a, b, rfl⟩ := List.append_of_mem hr
    rw [row.primaryKey_eq, ← hrk, Page.leafGet_found hvalid]
    exact ⟨by simp, r, rfl⟩
  have hpush : pushedUp σ row H (c.plug (Tree.leaf id rows)).rootId = none := by
    rw [Ctx.rootId_plug]
    refine pushedUp_none hh.ctx (fun _ _ => rfl) hh.ctxOrdered hh.key ?_
    obtain ⟨-, r, hr⟩ := hget
    rw [Tree.rootId_leaf, pushedUp, hpage, Option.bind_some, hr]
    split <;> rfl
  have hrow : ∃ r ∈ (c.plug (Tree.leaf id rows)).rows, r.key = row.row.key := by
    obtain ⟨r, hr, hrk⟩ := hdup
    exact ⟨r, by rw [rows_plug_leaf]; simp [hr], hrk⟩
  by_cases hcan : Page.canInsert ⟨id, lsn, .leaf rows nx pv⟩ row.row = true
  · have hchange := exec_change_error (σ := σ) (L := id :: c.path) (q := ⟨id, lsn, .leaf rows nx pv⟩) (α := Unit)
      (e := .err .duplicateKey) BTreeError.page (by simp)
    rw [← Page.leafInsert_duplicate hvalid hdup, Store.put_stored σ hpage] at hchange
    refine ⟨_, _, _, Exec.ite_pos hcan hchange.bind_error, .duplicate hrow rfl ?_ hpush⟩
    intro w hw
    rw [List.mem_singleton.mp hw]
    rfl
  · obtain ⟨-, r, hr⟩ := hget
    have hfound := exec_pure (ε := BTreeError) (some r) (.writing σ (id :: c.path))
    rw [← Call.page_ok BTreeError.page, ← hr] at hfound
    exact ⟨_, _, _, Exec.ite_neg hcan (hfound.bind (exec_throw _ _)), .duplicate hrow rfl (by simp) hpush⟩

/-- The leaf takes the row: one page is written, and the subtree is the same but for that leaf. -/
theorem insertAtLeaf_fits {a b : List Row} (hh : Here σ ne lo hi row c (Tree.leaf id (a ++ b)) ancestors)
    (hb : Beside t σ root out A B (c.plug (Tree.leaf id (a ++ b))) count free)
    (hpage : σ.page id = some ⟨id, lsn, .leaf (a ++ b) nx pv⟩) (ha : ∀ x ∈ a, x.key < row.row.key)
    (hbk : ∀ x ∈ b, row.row.key < x.key) (hfit : Page.rowsSize (a ++ b) + Page.leafEntrySize row.row ≤ leafUsable) :
    ∃ tr r w', Exec (insertAtLeaf t row ⟨id, lsn, .leaf (a ++ b) nx pv⟩ ancestors) (.writing σ (id :: c.path)) tr r w' ∧
      Outcome t σ ne lo hi root out A B row (c.plug (Tree.leaf id (a ++ b))) tr w' r := by
  obtain ⟨-, hvalid⟩ := rootOk_leaf.mp hh.tree
  obtain ⟨hnd, hsub, hidc⟩ := Here.nodup hb
  obtain ⟨hidp, hpath⟩ := List.nodup_cons.mp hnd
  have hcan : Page.canInsert ⟨id, lsn, .leaf (a ++ b) nx pv⟩ row.row = true := by
    rw [Page.canInsert_leaf row.row hvalid.size, decide_eq_true_iff]
    exact hfit
  let p' : Page := ⟨id, lsn, .leaf (a ++ row.row :: b) nx pv⟩
  have hchange := exec_change (σ := σ) (L := id :: c.path) (q := p') (a := ()) BTreeError.page (by simp [p'])
  rw [← Page.leafInsert_fits hvalid ha hbk hfit] at hchange
  have hheld := held_ids hh.held
  obtain ⟨tr, hclear, htr⟩ := (@exec_clear (σ.put p') [id]) (by rwa [hheld]) (by simpa [hheld] using hidp)
  rw [hheld, (@World.writing_congr _ _ (id :: c.path)) (by simp [or_comm])] at hclear
  have hdrop := (@exec_drop BTreeError (σ.put p') [id] [] id) (by simp) (by simp)
  have hexec : Exec (insertAtLeaf t row ⟨id, lsn, .leaf (a ++ b) nx pv⟩ ancestors) (.writing σ (id :: c.path))
      ([.writing (σ.put p') (id :: c.path)] ++ (tr ++ [.idle (σ.put p')])) (.ok ()) (.idle (σ.put p')) :=
    Exec.ite_pos hcan (hchange.bind (hclear.bind hdrop))
  have hne : ∀ x, x ≠ id → (σ.put p').page x = σ.page x := fun x hx => Store.put_ne _ (p := p') hx
  have hf : Frame σ (σ.put p') [id] := Frame.of_eq fun x hx => hne x (by simpa using hx)
  have hpid : (σ.put p').page id = some p' := Store.put_self _ p'
  have hperm : ∀ rows, (c.plug (Tree.leaf id rows)).ids.Perm (c.ids ++ [id]) := fun rows =>
    Ctx.ids_plug c (Tree.leaf id rows : PageTree 0)
  have hids := (hperm (a ++ row.row :: b)).trans (hperm (a ++ b)).symm
  have hm' : t.MetaRep (σ.put p') root count free :=
    put_meta (p := p') hb.metaRep hb.owned
      (List.mem_append_left _ (hsub (by simp [p'])))
  have hstore : ∀ w ∈ [World.writing (σ.put p') (id :: c.path)] ++ (tr ++ [World.idle (σ.put p')]), w.store = σ.put p' := by
    intro w hw
    simp only [List.mem_append, List.mem_cons, List.not_mem_nil, or_false] at hw
    rcases hw with rfl | hw | rfl
    · rfl
    · exact (htr w hw).1
    · rfl
  obtain ⟨hs, hwithin⟩ := Tree.ordered_leaf.mp hh.ordered
  have hvalid' := Page.leafValid_insert hvalid (Page.rowFits_validated row) ha hbk hfit
  have hok : Ok (σ.put p') ne (c.plug (Tree.leaf id (a ++ row.row :: b))) :=
    (Ctx.all_plug c _).mpr ⟨hh.ctx.frame hf fun x hx he => hidc (List.mem_singleton.mp he ▸ hx),
      Tree.all_leaf.mpr ⟨⟨lsn, nx, pv, hpid⟩, hvalid', fun _ => by simp⟩⟩
  have ho : (c.plug (Tree.leaf id (a ++ row.row :: b))).Ordered Row.key lo hi := by
    refine (Ctx.ordered_plug c _).mpr ⟨hh.ctxOrdered, Tree.ordered_leaf.mpr ⟨hvalid'.sorted, fun r hr => ?_⟩⟩
    rcases List.mem_append.mp hr with hr | hr
    · exact hwithin r (by simp [hr])
    · rcases List.mem_cons.mp hr with rfl | hr
      · exact hh.key
      · exact hwithin r (by simp [hr])
  have hrows : (c.plug (Tree.leaf id (a ++ b))).rows = (c.cellsBefore.flatMap Prod.snd ++ a) ++
      (b ++ c.cellsAfter.flatMap Prod.snd) ∧
      (c.plug (Tree.leaf id (a ++ row.row :: b))).rows =
        (c.cellsBefore.flatMap Prod.snd ++ a) ++ row.row :: (b ++ c.cellsAfter.flatMap Prod.snd) := by
    rw [rows_plug_leaf, rows_plug_leaf]
    simp
  have hroot : (c.plug (Tree.leaf id (a ++ row.row :: b))).rootId = (c.plug (Tree.leaf id (a ++ b))).rootId := by
    rw [Ctx.rootId_plug, Ctx.rootId_plug]
    rfl
  refine ⟨_, _, _, hexec, Outcome.took [] {
      final := rfl
      stored := {
        rebuilt := ⟨hok, ho, hids, hb.owned.perm ((hids.append_right out).append_right free)⟩
        rows := ⟨_, _, hrows.1, hrows.2⟩
        links := by
          rw [leaves_plug_leaf, ← leaves_plug_leaf c id (a ++ b)]
          refine hb.links.congr fun x _ lsn' rows' nx' pv' hx => ?_
          by_cases hxid : x = id
          · subst hxid
            rw [hpage] at hx
            cases hx
            exact ⟨_, _, hpid⟩
          · exact ⟨_, _, (hne x hxid).trans hx⟩ }
      rootId := hroot
      metaRep := hm'
      frame := fun w hw => by
        rw [hstore w hw]
        refine ⟨hf.mono fun x hx => ?_, ?_⟩
        · rw [List.mem_singleton.mp hx]
          exact List.mem_cons_of_mem _ (hsub (by simp))
        · rw [(@namedRoot_store _ _ (.idle (σ.put p'))) (hstore w hw)]
          exact hm'.namedRoot
      served := by
        rw [← hroot]
        refine served_released [] hok ho (by simp) hstore (by simp [List.getLast?_cons, List.getLast?_append]) ?_
        rw [hrows.1, hrows.2]
        intro r hr
        simp only [List.mem_append, List.mem_cons] at hr ⊢
        exact hr.imp_right Or.inr
      pushed := by
        rw [Ctx.rootId_plug]
        refine pushedUp_none hh.ctx (fun _ _ => rfl) hh.ctxOrdered hh.key ?_
        rw [Tree.rootId_leaf, pushedUp, hpage, Option.bind_some, if_pos hcan]
      nonempty := by simp }⟩

/-- The pages above the hole are inner pages. -/
theorem path_node : ∀ {h : Nat} {c : PageCtx H h} {x y : PageId}, CtxOk σ ne c x → y ∈ c.path → ∃ ks cs, nodeAt σ y ks cs
  | _, .top, _, _, _, hy => by simp [Ctx.path] at hy
  | _, .down up id _ _ _ _ _, _, y, hc, hy => by
    rcases List.mem_cons.mp hy with rfl | hy
    · exact ⟨_, _, hc.1.1⟩
    · exact path_node hc.2.2.2 hy

/-- The leaf after the one at the hole: it is known, and not held. -/
theorem leaf_next (hh : Here σ ne lo hi row c (Tree.leaf id rows) ancestors)
    (hb : Beside t σ root out A B (c.plug (Tree.leaf id rows)) count free)
    (hpage : σ.page id = some ⟨id, lsn, .leaf rows nx pv⟩) :
    ∀ n, nx = some n → n ∈ (c.plug (Tree.leaf id rows)).ids ++ out ∧ n ∉ id :: c.path ∧
      ∃ lsn rows nx' pv', σ.page n = some ⟨n, lsn, .leaf rows nx' pv'⟩ := by
  intro n hn
  have hleaves : A ++ ((c.plug (Tree.leaf id rows)).leaves ++ B) =
      (A ++ c.cellsBefore.map Prod.fst) ++ id :: (c.cellsAfter.map Prod.fst ++ B) := by
    rw [leaves_plug_leaf]
    simp
  have hl := hb.links
  have hnd := hb.nodup
  rw [hleaves] at hl hnd
  obtain ⟨-, ⟨lsn', rows', hp⟩, hY⟩ := linked_mid.mp hl
  rw [hpage] at hp
  cases hp
  rcases hrest : c.cellsAfter.map Prod.fst ++ B with _ | ⟨m, Y⟩
  · rw [hrest] at hn
    cases hn
  rw [hrest] at hn hY hnd
  cases hn
  obtain ⟨⟨lsn'', rows'', hpn⟩, -⟩ := hY
  refine ⟨?_, ?_, _, _, _, _, hpn⟩
  · have hmem : n ∈ c.cellsAfter.map Prod.fst ++ B := by rw [hrest]; simp
    rcases List.mem_append.mp hmem with hmem | hmem
    · refine List.mem_append_left _ ((Tree.leaves_sublist_ids _).subset ?_)
      rw [leaves_plug_leaf]
      simp [hmem]
    · exact List.mem_append_right _ (hb.known (List.mem_append_right _ hmem))
  · intro hmem
    rcases List.mem_cons.mp hmem with he | hmem
    · have hid := (List.nodup_cons.mp (List.nodup_append.mp hnd).2.1).1
      exact hid (by simp [he])
    · obtain ⟨ks, cs, hnode⟩ := path_node hh.ctx hmem
      exact leafAt.not_node ⟨_, _, _, hpn⟩ hnode

/-- The halves of a cut leaf, pending at its place. -/
theorem pending_leaf {a b v₁ v₂ : List Row} {sep : Key} {new : PageId} {nx₁ pv₁ nx₂ pv₂ : Option PageId}
    {lsn₁ lsn₂ : PageLsn} (hh : Here σ ne lo hi row c (Tree.leaf id (a ++ b)) ancestors)
    (hv : a ++ row.row :: b = v₁ ++ v₂) (hne₁ : v₁ ≠ []) (hne₂ : v₂ ≠ []) (hvalid₁ : Page.LeafValid v₁)
    (hvalid₂ : Page.LeafValid v₂) (hlt : ∀ x ∈ v₁, x.key < sep) (hge : ∀ x ∈ v₂, sep ≤ x.key)
    (hsep : ∃ r ∈ a ++ b, r.key = sep) (hid : σ'.page id = some ⟨id, lsn₁, .leaf v₁ nx₁ pv₁⟩)
    (hnew : σ'.page new = some ⟨new, lsn₂, .leaf v₂ nx₂ pv₂⟩) {ex : List PageId} (hf : Frame σ σ' ex)
    (hex : ∀ x ∈ c.ids, x ∉ ex) :
    Pending σ' ne lo hi c (Tree.leaf id v₁) (Tree.leaf new v₂) sep := by
  obtain ⟨-, hvalid⟩ := rootOk_leaf.mp hh.tree
  obtain ⟨hs, hwithin⟩ := Tree.ordered_leaf.mp hh.ordered
  have hin : ∀ x ∈ v₁ ++ v₂, Within (c.lo lo) (c.hi hi) x.key := by
    rw [← hv]
    intro x hx
    rcases List.mem_append.mp hx with hx | hx
    · exact hwithin x (by simp [hx])
    · rcases List.mem_cons.mp hx with rfl | hx
      · exact hh.key
      · exact hwithin x (by simp [hx])
  obtain ⟨r, hr, rfl⟩ := hsep
  refine {
    ctx := hh.ctx.frame hf hex
    left := Tree.all_leaf.mpr ⟨⟨_, _, _, hid⟩, hvalid₁, fun _ => hne₁⟩
    right := Tree.all_leaf.mpr ⟨⟨_, _, _, hnew⟩, hvalid₂, fun _ => hne₂⟩
    ctxOrdered := hh.ctxOrdered
    leftOrdered := Tree.ordered_leaf.mpr ⟨hvalid₁.sorted, fun x hx => ⟨(hin x (by simp [hx])).1, ?_⟩⟩
    rightOrdered := Tree.ordered_leaf.mpr ⟨hvalid₂.sorted, fun x hx => ⟨?_, (hin x (by simp [hx])).2⟩⟩
    inside := ⟨fun l hl => ?_, (hwithin r hr).2⟩
    fits := (hvalid.rows r hr).key }
  · rintro u ⟨⟩
    exact hlt x hx
  · rintro l ⟨⟩
    exact hge x hx
  · obtain ⟨x, hx⟩ := List.exists_mem_of_ne_nil v₁ hne₁
    exact ((hin x (by simp [hx])).1 l hl).trans_lt (hlt x hx)

/-- The end of `split_and_insert`: every guard left is released. -/
theorem exec_releases {rest : List Page} {new : PageId} (hnd : (new :: id :: rest.map (·.pageId)).Nodup) :
    ∃ tr, Exec (do drop new; clear rest; drop id : BT Unit) (.writing σ (rest.map (·.pageId) ++ [new, id])) tr (.ok ())
        (.idle σ) ∧ (∀ w ∈ tr, w.store = σ) ∧ tr.getLast? = some (.idle σ) := by
  simp only [List.nodup_cons, List.mem_cons, not_or] at hnd
  obtain ⟨⟨hni, hnr⟩, hir, hnd⟩ := hnd
  have hdropNew := (@exec_drop BTreeError σ (rest.map (·.pageId) ++ [new, id]) (rest.map (·.pageId) ++ [id]) new)
      (by simp) fun x => by
      simp only [List.mem_append, List.mem_cons, List.not_mem_nil, or_false]
      constructor
      · rintro (h | rfl)
        · exact ⟨Or.inl h, fun he => hnr (he ▸ h)⟩
        · exact ⟨Or.inr (Or.inr rfl), fun he => hni he.symm⟩
      · rintro ⟨h | rfl | h, hne⟩
        · exact Or.inl h
        · exact absurd rfl hne
        · exact Or.inr h
  obtain ⟨tr, hclear, htr⟩ := (@exec_clear σ [id]) hnd (by simpa using hir)
  have hdropId := (@exec_drop BTreeError σ [id] [] id) (by simp) (by simp)
  refine ⟨_, hdropNew.bind (hclear.bind hdropId), fun w hw => ?_, by simp [List.getLast?_cons, List.getLast?_append]⟩
  simp only [List.mem_append, List.mem_cons, List.not_mem_nil, or_false] at hw
  rcases hw with rfl | hw | rfl
  · rfl
  · exact (htr w hw).1
  · rfl

/-- The leaf at the hole has been cut and both halves are written; the separator is to go up. -/
structure LeafCut (t : Table) (σ : Store) (ne : Prop) (lo hi : Option Key) (root : PageId) (out A B : List PageId)
    (row : ValidatedRow) (c : PageCtx H 0) (leaf : Page) (rows : List Row) (count : UInt32) (ancestors : List Page)
    (σ' : Store) (new : PageId) (v₁ v₂ : List Row) (sep : Key) (count' : UInt32) (free' : List PageId)
    (tr : List World) : Prop where
  pending : Pending σ' ne lo hi c (Tree.leaf leaf.pageId v₁) (Tree.leaf new v₂) sep
  metaRep : t.MetaRep σ' root count' free'
  owned : t.Owned count' (c.ids ++ ((Tree.leaf leaf.pageId v₁ : PageTree 0).ids ++
      (Tree.leaf new v₂ : PageTree 0).ids) ++ out ++ free')
  perm : (c.ids ++ ((Tree.leaf leaf.pageId v₁ : PageTree 0).ids ++ (Tree.leaf new v₂ : PageTree 0).ids)).Perm
    (new :: (c.plug (Tree.leaf leaf.pageId rows)).ids)
  grows : count'.toNat ≤ count.toNat + 1
  path : ∀ x ∈ c.path, σ'.page x = σ.page x
  pushed : pushedUp σ row 0 leaf.pageId = some sep
  rows : ∃ a b, rows = a ++ b ∧ v₁ ++ v₂ = a ++ row.row :: b
  links : Linked σ' none ((A ++ c.cellsBefore.map Prod.fst) ++ leaf.pageId :: new :: (c.cellsAfter.map Prod.fst ++ B)) none
  frame : Frame σ σ' [t.metaId, new, leaf.pageId]
  worlds : ∀ w ∈ tr, Frame σ w.store [t.metaId, new, leaf.pageId] ∧ t.namedRoot w = some root ∧
    ∀ x ∈ leaf.pageId :: c.path, w.latch x = .write
  exec : ∀ tr' r w',
    Exec (do let ancestors ← splitLoop t ancestors leaf.pageId sep new; drop new; clear ancestors; drop leaf.pageId)
      (.writing σ' (c.path ++ [new, leaf.pageId])) tr' r w' →
    Exec (insertAtLeaf t row leaf ancestors) (.writing σ (leaf.pageId :: c.path)) (tr ++ tr') r w'

/-- A cut leaf as the start of a climb: its halves are pending in the tree around it. -/
theorem exists_leafCut {a b : List Row} (hh : Here σ ne lo hi row c (Tree.leaf id (a ++ b)) ancestors)
    (hb : Beside t σ root out A B (c.plug (Tree.leaf id (a ++ b))) count free)
    (hpage : σ.page id = some ⟨id, lsn, .leaf (a ++ b) nx pv⟩) (ha : ∀ x ∈ a, x.key < row.row.key)
    (hbk : ∀ x ∈ b, row.row.key < x.key) (hfull : ¬ Page.rowsSize (a ++ b) + Page.leafEntrySize row.row ≤ leafUsable) :
    ∃ σ' new v₁ v₂ sep count' free' tr, LeafCut t σ ne lo hi root out A B row c ⟨id, lsn, .leaf (a ++ b) nx pv⟩
    (a ++ b) count
      ancestors σ' new v₁ v₂ sep count' free' tr := by
  obtain ⟨-, hvalid⟩ := rootOk_leaf.mp hh.tree
  obtain ⟨hnd, hsub, hidc⟩ := Here.nodup hb
  obtain ⟨hidp, hpath⟩ := List.nodup_cons.mp hnd
  have hroom := hb.room
  have hcan : ¬ Page.canInsert ⟨id, lsn, .leaf (a ++ b) nx pv⟩ row.row = true := by
    rwa [Page.canInsert_leaf row.row hvalid.size, decide_eq_true_iff]
  have habsent : ∀ r ∈ a ++ b, r.key ≠ row.row.key := fun r hr =>
    (List.mem_append.mp hr).elim (fun hr => (ha r hr).ne) fun hr => (hbk r hr).ne'
  have hget := (@Page.leafGet_absent id lsn _ nx pv) hvalid habsent
  rw [← row.primaryKey_eq] at hget
  obtain ⟨new, σ', count', free', sep, v₁, v₂, tr, hm', ho', hle, hv, hne₁, hne₂, hvalid₁, hvalid₂, hlt, hge, hsep,
      hprom, hpid,
    hpnew, hrelink, heq, hframe, htr, hrest⟩ := exec_cutsLeaf ancestors hb.metaRep hb.rootTable hb.owned (by omega)
      (fun x hx => List.mem_append_left _ (hsub hx)) List.mem_cons_self hvalid ha hbk hfull (leaf_next hh hb hpage)
  -- the new page is none of the old ones
  have hperm : (c.plug (Tree.leaf id (a ++ b))).ids.Perm (c.ids ++ [id]) :=
      Ctx.ids_plug c (Tree.leaf id (a ++ b) : PageTree 0)
  have hperm' : (c.ids ++ ((Tree.leaf id v₁ : PageTree 0).ids ++ (Tree.leaf new v₂ : PageTree 0).ids)).Perm
      (new :: (c.plug (Tree.leaf id (a ++ b))).ids) := by
    refine List.Perm.trans ?_ (hperm.symm.cons new)
    rw [List.perm_iff_count]
    intro x
    simp only [Tree.ids_leaf, List.count_append, List.count_cons, List.count_nil]
    omega
  have hnew : new ∉ (c.plug (Tree.leaf id (a ++ b))).ids ++ out := fun h =>
    (List.nodup_cons.mp ho'.nodup).1 (List.mem_append_left _ h)
  have hcids : ∀ x ∈ c.ids, x ∈ (c.plug (Tree.leaf id (a ++ b))).ids := fun x hx => by
    rw [hperm.mem_iff]; exact List.mem_append_left _ hx
  have hex : ∀ x ∈ c.ids, x ∉ [t.metaId, new, id] := by
    intro x hx
    simp only [List.mem_cons, List.not_mem_nil, or_false, not_or]
    refine ⟨hb.owned.ne_meta (List.mem_append_left _ (List.mem_append_left _ (hcids x hx))), ?_, ?_⟩
    · exact fun he => hnew (List.mem_append_left _ (he ▸ hcids x hx))
    · exact fun he => hidc (he ▸ hx)
  have hpathEq : ∀ x ∈ c.path, σ'.page x = σ.page x := fun x hx => by
    refine heq x (hex x ((Ctx.path_sublist c).subset hx)) fun hn => ?_
    exact (leaf_next hh hb hpage x hn).2.1 (List.mem_cons_of_mem _ hx)
  have hpending := pending_leaf hh hv hne₁ hne₂ hvalid₁ hvalid₂ hlt hge hsep hpid hpnew hframe hex
  have hpush : pushedUp σ row 0 id = some sep := by
    rw [pushedUp, hpage, Option.bind_some, if_neg hcan, hget]
    exact hprom
  -- the links after the cut
  have hleaves : A ++ ((c.plug (Tree.leaf id (a ++ b))).leaves ++ B) =
      (A ++ c.cellsBefore.map Prod.fst) ++ id :: (c.cellsAfter.map Prod.fst ++ B) := by
    rw [leaves_plug_leaf]
    simp
  have hleafId : ∀ x ∈ A ++ ((c.plug (Tree.leaf id (a ++ b))).leaves ++ B), x ∈ (c.plug (Tree.leaf id (a ++ b))).ids ++
      out := by
    intro x hx
    simp only [List.mem_append] at hx ⊢
    rcases hx with hx | hx | hx
    · exact Or.inr (hb.known (List.mem_append_left _ hx))
    · exact Or.inl ((Tree.leaves_sublist_ids _).subset hx)
    · exact Or.inr (hb.known (List.mem_append_right _ hx))
  have hlinks : Linked σ' none ((A ++ c.cellsBefore.map Prod.fst) ++ id :: new :: (c.cellsAfter.map Prod.fst ++ B))
      none := by
    have hl := hb.links
    have hnodup := hb.nodup
    rw [hleaves] at hl hnodup hleafId
    refine hl.split hnodup (fun lsn' rows' nx' pv' hp => ?_) hpid hpnew hrelink fun x hx hn => heq x ?_ hn
    · rw [hpage] at hp
      cases hp
      exact ⟨rfl, rfl⟩
    · have hxids := hleafId x (by
        rcases List.mem_append.mp hx with hx | hx
        · exact List.mem_append_left _ hx
        · exact List.mem_append_right _ (List.mem_cons_of_mem _ hx))
      simp only [List.mem_cons, List.not_mem_nil, or_false, not_or]
      refine ⟨hb.owned.ne_meta (List.mem_append_left _ hxids), fun he => hnew (he ▸ hxids), ?_⟩
      rintro rfl
      obtain ⟨-, hY, hXY⟩ := List.nodup_append.mp hnodup
      rcases List.mem_append.mp hx with hx | hx
      · exact hXY _ hx _ List.mem_cons_self rfl
      · exact (List.nodup_cons.mp hY).1 hx
  refine ⟨σ', new, v₁, v₂, sep, count', free', tr, {
    pending := hpending
    metaRep := hm'
    owned := ho'.perm ((hperm'.append_right out).append_right free')
    perm := hperm'
    grows := hle
    path := hpathEq
    pushed := hpush
    rows := ⟨a, b, rfl, hv.symm⟩
    links := hlinks
    frame := hframe
    worlds := htr
    exec := fun tr' r w' hk => ?_ }⟩
  rw [World.writing_congr fun x => List.perm_append_comm.mem_iff] at hk
  have hnone := exec_pure (ε := BTreeError) (none : Option Row) (.writing σ (id :: c.path))
  rw [← Call.page_ok BTreeError.page, ← hget] at hnone
  exact Exec.ite_neg hcan (hnone.bind (hrest tr' r w' hk))

section
variable {leaf : Page} {rows v₁ v₂ : List Row} {new : PageId} {sep : Key} {count' : UInt32} {free' : List PageId}
  {tr : List World}

/-- The guards left when the loop is done. -/
theorem LeafCut.nodup (hc : LeafCut t σ ne lo hi root out A B row c leaf rows count ancestors σ' new v₁ v₂ sep count'
    free' tr) : (new :: leaf.pageId :: c.path).Nodup := by
  have hnd := (List.nodup_append.mp (List.nodup_append.mp hc.owned.nodup).1).1
  simp only [Tree.ids_leaf] at hnd
  have hperm : (c.ids ++ ([leaf.pageId] ++ [new])).Perm (new :: leaf.pageId :: c.ids) := by
    rw [List.perm_iff_count]
    intro x
    simp only [List.count_append, List.count_cons, List.count_nil]
    omega
  exact (hperm.nodup_iff.mp hnd).sublist (((Ctx.path_sublist c).cons_cons _).cons_cons _)

/-- The rows after the cut, in order. -/
theorem LeafCut.rows_eq (hc : LeafCut t σ ne lo hi root out A B row c leaf rows count ancestors σ' new v₁ v₂ sep count'
    free' tr) : ∃ a b, (c.plug (Tree.leaf leaf.pageId rows)).rows = a ++ b ∧
      (c.cellsBefore ++ ((Tree.leaf leaf.pageId v₁ : PageTree 0).cells ++ (Tree.leaf new v₂ : PageTree 0).cells ++
        c.cellsAfter)).flatMap Prod.snd = a ++ row.row :: b := by
  obtain ⟨a, b, rfl, hv⟩ := hc.rows
  refine ⟨c.cellsBefore.flatMap Prod.snd ++ a, b ++ c.cellsAfter.flatMap Prod.snd, ?_, ?_⟩
  · rw [rows_plug_leaf]
    simp
  · simp only [Tree.cells_leaf, List.flatMap_append, List.flatMap_cons, List.flatMap_nil, List.append_nil]
    rw [hv]
    simp

/-- The links are kept by what happens above the leaves. -/
theorem LeafCut.linked (hc : LeafCut t σ ne lo hi root out A B row c leaf rows count ancestors σ' new v₁ v₂ sep count'
    free' tr) (hb : Beside t σ root out A B (c.plug (Tree.leaf leaf.pageId rows)) count free) {σ₁ : Store}
    {new₁ ids : List PageId} {T' : PageTree H'} (hids : ids.Perm (new₁ ++ (c.ids ++
      ((Tree.leaf leaf.pageId v₁ : PageTree 0).ids ++ (Tree.leaf new v₂ : PageTree 0).ids)))) (hnd : (ids ++ out).Nodup)
    (he : ∀ x, x ∉ t.metaId :: (new₁ ++ c.path) → σ₁.page x = σ'.page x)
    (hcells : T'.cells = c.cellsBefore ++ ((Tree.leaf leaf.pageId v₁ : PageTree 0).cells ++
      (Tree.leaf new v₂ : PageTree 0).cells ++ c.cellsAfter)) : Linked σ₁ none (A ++ (T'.leaves ++ B)) none := by
  have hleaves : A ++ (T'.leaves ++ B) =
      (A ++ c.cellsBefore.map Prod.fst) ++ leaf.pageId :: new :: (c.cellsAfter.map Prod.fst ++ B) := by
    rw [← Tree.map_cells, hcells]
    simp
  rw [hleaves]
  refine hc.links.congr_eq fun x hx => he x ?_
  -- a leaf is a page of the old tree, the new leaf, or beside the tree
  have hold : x ∈ (c.ids ++ ((Tree.leaf leaf.pageId v₁ : PageTree 0).ids ++ (Tree.leaf new v₂ : PageTree 0).ids)) ++
      out := by
    rw [List.mem_append, hc.perm.mem_iff, List.mem_cons]
    have hplug := fun h => (Tree.leaves_sublist_ids (c.plug (Tree.leaf leaf.pageId rows))).subset (a := x) h
    rw [leaves_plug_leaf] at hplug
    simp only [List.mem_append, List.mem_cons] at hx hplug
    rcases hx with (hx | hx) | hx | hx | hx | hx
    · exact Or.inr (hb.known (List.mem_append_left _ hx))
    · exact Or.inl (Or.inr (hplug (Or.inl hx)))
    · exact Or.inl (Or.inr (hplug (Or.inr (Or.inl hx))))
    · exact Or.inl (Or.inl hx)
    · exact Or.inl (Or.inr (hplug (Or.inr (Or.inr hx))))
    · exact Or.inr (hb.known (List.mem_append_right _ hx))
  have hnd' := ((hids.append_right out).nodup_iff).mp hnd
  rw [List.append_assoc] at hnd'
  simp only [List.mem_cons, List.mem_append, not_or]
  refine ⟨hc.owned.ne_meta (List.mem_append_left _ hold), fun h => (List.nodup_append.mp hnd').2.2 x h x hold rfl,
    fun h => ?_⟩
  obtain ⟨ks, cs, hnode⟩ := path_node hc.pending.ctx h
  obtain ⟨rows', hleaf⟩ := hc.links.leaf hx
  exact hleaf.not_node hnode

/-- What the pages outside the subtree hold is kept by what happens above the leaves. -/
theorem LeafCut.framed (hc : LeafCut t σ ne lo hi root out A B row c leaf rows count ancestors σ' new v₁ v₂ sep count'
    free' tr) {σ₁ : Store} {new₁ : List PageId} (he : ∀ x, x ∉ t.metaId :: (new₁ ++ c.path) → σ₁.page x = σ'.page x) :
    Frame σ σ₁ (t.metaId :: ((new₁ ++ [new]) ++ (c.plug (Tree.leaf leaf.pageId rows)).ids)) := by
  refine (hc.frame.mono (pages_plug_leaf c _ _ _ rows new₁)).trans ((Frame.of_eq he).mono fun x hx => ?_)
  have hpath : x ∈ c.path → x ∈ (c.plug (Tree.leaf leaf.pageId rows)).ids := fun hx =>
    (Ctx.ids_plug c (Tree.leaf leaf.pageId rows : PageTree 0)).symm.subset
      (List.mem_append_left _ ((Ctx.path_sublist c).subset hx))
  simp only [List.mem_cons, List.mem_append, List.not_mem_nil, or_false] at hx ⊢
  exact hx.imp_right fun hx => hx.imp Or.inl hpath

/-- A page above takes the separator. -/
theorem LeafCut.took (hc : LeafCut t σ ne lo hi root out A B row c leaf rows count ancestors σ' new v₁ v₂ sep count'
    free' tr) (hb : Beside t σ root out A B (c.plug (Tree.leaf leaf.pageId rows)) count free) {σ₁ : Store} {T' : PageTree H}
    {new₁ : List PageId} {count₁ : UInt32} {free₁ : List PageId} {rest : List Page} {tr₁ tr₂ : List World}
    (ht : ClimbTook t σ σ' ne lo hi root out [new, leaf.pageId] row c (Tree.leaf leaf.pageId v₁) (Tree.leaf new v₂) sep
      ancestors σ₁ T' new₁ count₁ free₁ rest tr₁ tr₂) :
    ∃ tr' r w', Exec (insertAtLeaf t row leaf ancestors) (.writing σ (leaf.pageId :: c.path)) tr' r w' ∧
      Outcome t σ ne lo hi root out A B row (c.plug (Tree.leaf leaf.pageId rows)) tr' w' r := by
  obtain ⟨tr₃, hrel, htr₃, hlast⟩ := exec_releases (σ := σ₁)
    (hc.nodup.sublist ((ht.rest.sublist.cons_cons _).cons_cons _))
  have hexec := hc.exec _ _ _ (ht.exec.bind hrel)
  have hroot := rootId_plug_leaf c leaf.pageId rows
  have hrootId : T'.rootId = (c.plug (Tree.leaf leaf.pageId rows)).rootId := ht.rootId.trans hroot.symm
  obtain ⟨a, b, hrows, hrows'⟩ := hc.rows_eq
  have hrowsT : T'.rows = a ++ row.row :: b := by rw [← Tree.flatMap_cells, ht.cells, hrows']
  have hafter : ∀ w ∈ tr₂ ++ tr₃, w.store = σ₁ := fun w hw =>
    (List.mem_append.mp hw).elim (ht.after w) (htr₃ w)
  have hheld : c.rootOr leaf.pageId ∈ leaf.pageId :: c.path := List.mem_cons_of_mem _ (Ctx.rootOr_mem_path ht.held)
  rw [List.append_assoc, ← List.append_assoc tr] at hexec
  refine ⟨_, _, _, hexec, Outcome.took (new₁ ++ [new]) {
    final := rfl
    stored := {
      rebuilt := ⟨ht.rebuilt.ok, ht.rebuilt.ordered, by
        rw [List.append_assoc]
        exact ht.rebuilt.perm.trans (hc.perm.append_left new₁), ht.rebuilt.owned⟩
      rows := ⟨a, b, hrows, hrowsT⟩
      links := hc.linked hb ht.rebuilt.perm (List.nodup_append.mp ht.rebuilt.owned.nodup).1 ht.frame ht.cells }
    rootId := hrootId
    metaRep := ht.metaRep
    frame := fun w hw => ?_
    served := ?_
    pushed := by rw [hroot]; exact ht.pushed
    nonempty := fun h => by
      rw [(List.append_eq_nil_iff.mp (List.append_eq_nil_iff.mp h).2).2] at hlast
      cases hlast }⟩
  · rcases List.mem_append.mp hw with hw | hw
    · rcases List.mem_append.mp hw with hw | hw
      · exact ⟨(hc.worlds w hw).1.mono (pages_plug_leaf c _ _ _ rows _), (hc.worlds w hw).2.1⟩
      · exact ⟨hc.framed (ht.before w hw).1, (ht.before w hw).2.1⟩
    · refine ⟨by rw [hafter w hw]; exact hc.framed ht.frame, ?_⟩
      rw [(@namedRoot_store _ _ (.idle σ₁)) (hafter w hw)]
      exact ht.metaRep.namedRoot
  · rw [← hrootId]
    refine served_released _ ht.rebuilt.ok ht.rebuilt.ordered (fun w hw => ?_) hafter ?_ ?_
    · rw [hrootId, hroot]
      exact (List.mem_append.mp hw).elim (fun hw => (hc.worlds w hw).2.2 _ hheld) fun hw => (ht.before w hw).2.2
    · rw [List.getLast?_append, hlast]
      rfl
    · rw [hrows, hrowsT]
      intro r hr
      simp only [List.mem_append, List.mem_cons] at hr ⊢
      exact hr.imp_right Or.inr

/-- The root of the subtree is cut as well. -/
theorem LeafCut.grew (hc : LeafCut t σ ne lo hi root out A B row c leaf rows count ancestors σ' new v₁ v₂ sep count'
    free' tr) (hb : Beside t σ root out A B (c.plug (Tree.leaf leaf.pageId rows)) count free) {σ₁ : Store}
    {l₁ r₁ : PageTree H} {sep₁ : Key} {new₁ : List PageId} {count₁ : UInt32} {free₁ : List PageId} {tr₁ : List World}
    (ht : ClimbCut t σ σ' ne lo hi root out [new, leaf.pageId] row c (Tree.leaf leaf.pageId v₁) (Tree.leaf new v₂) sep
      ancestors σ₁ l₁ r₁ sep₁ new₁ count₁ free₁ tr₁) (hcount : count₁.toNat + 1 < 2 ^ 32) :
    ∃ tr' r w', Exec (insertAtLeaf t row leaf ancestors) (.writing σ (leaf.pageId :: c.path)) tr' r w' ∧
      Outcome t σ ne lo hi root out A B row (c.plug (Tree.leaf leaf.pageId rows)) tr' w' r := by
  have hperm := ht.perm.trans (hc.perm.append_left new₁)
  have hroot := rootId_plug_leaf c leaf.pageId rows
  have hkeep : [new, leaf.pageId] ⊆ l₁.ids ++ r₁.ids := fun x hx => by
    rw [ht.perm.mem_iff]
    refine List.mem_append_right _ (List.mem_append_right _ ?_)
    simp only [Tree.ids_leaf, List.mem_append, List.mem_cons, List.not_mem_nil, or_false] at hx ⊢
    exact hx.symm
  obtain ⟨top, σ₂, count₂, free₂, tr₂, hnewRoot, hm₂, ho₂, hnode, hframe₂, htr₂⟩ :=
    exec_newRoot (L := [new, leaf.pageId]) ht.metaRep hb.rootTable ht.owned hcount
      (fun x hx => List.mem_append_left _ (hkeep hx)) (List.append_ne_nil_of_left_ne_nil
        (List.append_ne_nil_of_left_ne_nil (List.ne_nil_of_mem (Tree.rootId_mem_ids l₁)) _) _)
  obtain ⟨tr₃, hrel, htr₃, hlast⟩ := (@exec_releases σ₂ leaf.pageId [] new) (hc.nodup.sublist (by simp))
  have hexec := hc.exec _ _ _ ((ht.exec _ _ _ hnewRoot).bind hrel)
  -- the new root and the halves below it
  have hids : ∀ x ∈ l₁.ids ++ r₁.ids, x ∉ [t.metaId, top] := by
    intro x hx
    simp only [List.mem_cons, List.not_mem_nil, or_false, not_or]
    refine ⟨ht.owned.ne_meta (List.mem_append_left _ (List.mem_append_left _ hx)), ?_⟩
    rintro rfl
    exact (List.nodup_cons.mp ho₂.nodup).1 (List.mem_append_left _ (List.mem_append_left _ hx))
  have hf : Frame σ₁ σ₂ [t.metaId, top] := Frame.of_eq hframe₂
  have hkids : ∀ kid ∈ [l₁, r₁], Ok σ₂ ne kid := by
    intro kid hkid
    simp only [List.mem_cons, List.not_mem_nil, or_false] at hkid
    rcases hkid with rfl | rfl
    · exact ht.pending.left.frame hf fun x hx => hids x (List.mem_append_left _ hx)
    · exact ht.pending.right.frame hf fun x hx => hids x (List.mem_append_right _ hx)
  let T' : PageTree (H + 1) := Tree.inner top [sep₁] [l₁, r₁]
  have hok : Ok σ₂ ne T' := Tree.all_inner.mpr ⟨⟨hnode, Page.keysValid_singleton ht.pending.fits, by simp⟩, hkids⟩
  have ho : T'.Ordered Row.key lo hi := Tree.ordered_inner.mpr
    ⟨by simp, fun k hk => by rw [List.mem_singleton.mp hk]; exact ht.pending.inside, ht.pending.leftOrdered,
    ht.pending.rightOrdered⟩
  have hT'ids : T'.ids.Perm ((top :: new₁) ++ (c.ids ++
      ((Tree.leaf leaf.pageId v₁ : PageTree 0).ids ++ (Tree.leaf new v₂ : PageTree 0).ids))) := by
    simpa [T'] using ht.perm
  have hown : t.Owned count₂ (T'.ids ++ out ++ free₂) := by
    simpa [T'] using ho₂
  have hcells : T'.cells = c.cellsBefore ++ ((Tree.leaf leaf.pageId v₁ : PageTree 0).cells ++
      (Tree.leaf new v₂ : PageTree 0).cells ++ c.cellsAfter) := by
    rw [← ht.cells]
    simp [T']
  have hframe : ∀ x, x ∉ t.metaId :: ((top :: new₁) ++ c.path) → σ₂.page x = σ'.page x := by
    intro x hx
    simp only [List.mem_cons, List.mem_append, not_or] at hx
    rw [hframe₂ x (by simp [hx.1, hx.2.1.1]), ht.frame x (by simp [hx.1, hx.2.1.2, hx.2.2])]
  obtain ⟨a, b, hrows, hrows'⟩ := hc.rows_eq
  have hrowsT : T'.rows = a ++ row.row :: b := by rw [← Tree.flatMap_cells, hcells, hrows']
  have hafter : ∀ w ∈ World.writing σ₂ [new, leaf.pageId] :: tr₃, w.store = σ₂ := fun w hw =>
    (List.mem_cons.mp hw).elim (fun hw => by rw [hw]; rfl) (htr₃ w)
  have hT'all : T'.All (leafAt σ₂) (nodeAt σ₂) := hok.imp (fun _ _ _ hl => hl.1) fun _ _ _ _ hn => hn.1
  have hS : Settled (World.writing σ₂ [new, leaf.pageId] :: tr₃) T' :=
    ⟨fun w hw => by rw [hafter w hw]; exact hT'all, fun w hw x _ => by
      rw [List.getLast?_cons, hlast] at hw
      cases hw
      simp [World.writing_latch]⟩
  have hserved := hS.served ho.rowBounds
  refine ⟨_, _, _, hexec, Outcome.grew (top :: (new₁ ++ [new])) {
    final := rfl
    stored := {
      rebuilt := ⟨hok, ho, by
        refine hT'ids.trans ?_
        simpa using hc.perm.append_left (top :: new₁), hown⟩
      rows := ⟨a, b, hrows, hrowsT⟩
      links := hc.linked hb hT'ids (List.nodup_append.mp hown.nodup).1 hframe hcells }
    metaRep := hm₂
    pushed := by
      have hpushed : pushedUp σ row H (c.rootOr leaf.pageId) = some sep₁ := ht.pushed
      rw [hroot, hpushed]
      rfl
    leafRoot := ?_
    innerRoot := ?_ }⟩
  · rintro rfl hrootEq
    -- a leaf root is held until the new root is released
    obtain rfl : c = .top := Ctx.eq_top c
    have hheld : leaf.pageId = root := hroot.symm.trans hrootEq.symm
    have hsub : ((Ctx.top : PageCtx 0 0).plug (Tree.leaf leaf.pageId rows)).rows ⊆ T'.rows := by
      rw [hrows, hrowsT]
      intro r hr
      simp only [List.mem_append, List.mem_cons] at hr ⊢
      exact hr.imp_right Or.inr
    have hsplit : tr ++ (tr₁ ++ (tr₂ ++ [World.writing σ₂ [new, leaf.pageId]]) ++ tr₃) =
        (tr ++ tr₁ ++ tr₂) ++ World.writing σ₂ [new, leaf.pageId] :: tr₃ := by simp
    rw [hsplit]
    refine RootServed.latched (Served.rootServed
      (fun ws hs hne x hx => hserved ws hs hne x (hsub hx)) fun w hw => ?_) fun w hw => ?_
    · rw [(@namedRoot_store _ _ (.idle σ₂)) (hafter w hw)]
      exact hm₂.namedRoot
    · rcases List.mem_append.mp hw with hw | hw
      · rcases List.mem_append.mp hw with hw | hw
        · exact ⟨root, (hc.worlds w hw).2.1, (hc.worlds w hw).2.2 _ (by simp [hheld])⟩
        · exact ⟨root, (ht.before w hw).2.1, (ht.before w hw).2.2 _ (by simp [hheld])⟩
      · obtain ⟨hoff, hnamed⟩ := htr₂ w hw
        rcases hnamed with hnamed | ⟨hnamed, hl⟩
        · refine ⟨root, hnamed, ?_⟩
          rw [(hoff root (hids _ (hkeep (by simp [hheld])))).2]
          exact World.latch_of_mem (by simp [hheld])
        · exact ⟨top, hnamed, hl⟩
  · intro hH hrootEq
    have hpath : c.path ≠ [] := Ctx.path_ne_nil c (Nat.ne_of_lt hH)
    -- the world in which the root has been released and is not yet replaced
    have hlast₁ : tr₁.getLast? = some (.writing σ₁ [new, leaf.pageId]) := by
      have hlast₁ := ht.last
      obtain ⟨pre, w, hpre⟩ := List.eq_nil_or_concat' tr₁ |>.resolve_left (mt ht.held.mpr hpath)
      rw [hpre] at hlast₁ ⊢
      simpa [List.getLast?_cons, List.getLast?_append] using hlast₁
    have hmem₁ := List.mem_of_getLast? hlast₁
    obtain ⟨pre, hpre⟩ := List.getLast?_eq_some_iff.mp hlast₁
    have hheld : root = c.rootOr leaf.pageId := hrootEq.trans hroot
    have hmem : root ∈ c.path := by
      rw [hheld]
      exact Ctx.rootOr_mem_path hpath
    have hfree : root ∉ [new, leaf.pageId] := by
      have hnd := hc.nodup
      simp only [List.nodup_cons, List.mem_cons, not_or] at hnd
      simp only [List.mem_cons, List.not_mem_nil, or_false, not_or]
      exact ⟨fun he => hnd.1.2 (he ▸ hmem), fun he => hnd.2.1 (he ▸ hmem)⟩
    have hlatch : (World.writing σ₁ [new, leaf.pageId]).latch root ≠ .write := by
      rw [World.latch_of_not_mem hfree]
      simp
    have hall : ∀ w ∈ World.writing σ₁ [new, leaf.pageId] :: (tr₂ ++ World.writing σ₂ [new, leaf.pageId] :: tr₃),
        Frame σ₁ w.store [t.metaId, top] := by
      intro w hw
      rcases List.mem_cons.mp hw with rfl | hw
      · exact Frame.refl _ _
      · rcases List.mem_append.mp hw with hw | hw
        · exact Frame.of_eq fun x hx => ((htr₂ w hw).1 x hx).1
        · rw [hafter w hw]
          exact hf
    refine ⟨sep₁, tr ++ pre, .writing σ₁ [new, leaf.pageId], tr₂, World.writing σ₂ [new, leaf.pageId] :: tr₃, l₁, r₁,
      ?_, ?_, {
      before := fun w hw => ?_
      named := (ht.before _ hmem₁).2.1
      released := hlatch
      rootId := ht.rootId.trans hheld.symm
      settled := ⟨fun w hw => ?_, fun w hw x _ => ?_⟩
      until_named := fun w hw => ?_
      after := fun w hw => ?_
      served := hserved
      leftOrdered := ht.pending.leftOrdered
      rightOrdered := ht.pending.rightOrdered
      rows := by simp [T'] }⟩
    · have hpushed : pushedUp σ row H (c.rootOr leaf.pageId) = some sep₁ := ht.pushed
      rw [hroot, hpushed]
    · rw [hpre]
      simp
    · rcases List.mem_append.mp hw with hw | hw
      · exact ⟨root, (hc.worlds w hw).2.1, (hc.worlds w hw).2.2 _ (List.mem_cons_of_mem _ hmem)⟩
      · refine ⟨root, (ht.before w (by rw [hpre]; exact List.mem_append_left _ hw)).2.1, ?_⟩
        rw [hheld]
        exact ht.latched w (by rw [hpre, List.dropLast_concat]; exact hw)
    · exact (ht.pending.left.frame (hall w hw) fun x hx => hids x (List.mem_append_left _ hx)).imp
        (fun _ _ _ hl => hl.1) fun _ _ _ _ hn => hn.1
    · rw [List.getLast?_cons, List.getLast?_append, List.getLast?_cons, hlast] at hw
      cases hw
      simp [World.writing_latch]
    · exact (htr₂ w hw).2.imp id fun h => ⟨top, h⟩
    · rw [(@namedRoot_store _ _ (.idle σ₂)) (hafter w hw)]
      exact hm₂.namedRoot

end

/-- The end of `insert`: the key is there, the leaf has room for the row, or it is cut. -/
theorem exec_insertAtLeaf {p : Page} (hh : Here σ ne lo hi row c (Tree.leaf id rows) ancestors)
    (hb : Beside t σ root out A B (c.plug (Tree.leaf id rows)) count free) (hp : σ.page id = some p) :
    ∃ tr r w', Exec (insertAtLeaf t row p ancestors) (.writing σ (id :: c.path)) tr r w' ∧
      Outcome t σ ne lo hi root out A B row (c.plug (Tree.leaf id rows)) tr w' r := by
  obtain ⟨⟨lsn, nx, pv, hpage⟩, hvalid⟩ := rootOk_leaf.mp hh.tree
  obtain rfl : p = _ := Option.some.inj (hp.symm.trans hpage)
  by_cases hdup : ∃ r ∈ rows, r.key = row.row.key
  · exact insertAtLeaf_duplicate hh hpage hdup
  obtain ⟨a, b, rfl, ha, hbk⟩ := rows_split hvalid.sorted hdup
  by_cases hfit : Page.rowsSize (a ++ b) + Page.leafEntrySize row.row ≤ leafUsable
  · exact insertAtLeaf_fits hh hb hpage ha hbk hfit
  obtain ⟨σ', new, v₁, v₂, sep, count', free', tr, hc⟩ := exists_leafCut hh hb hpage ha hbk hfit
  have hkeep : [new, id] ⊆ c.ids ++ ((Tree.leaf id v₁ : PageTree 0).ids ++ (Tree.leaf new v₂ : PageTree 0).ids) ++ out := by
    simp
  have hdis : ∀ x ∈ [new, id], x ∉ c.path := by
    have hnd := hc.nodup
    simp only [List.nodup_cons, List.mem_cons, not_or] at hnd
    intro x hx
    simp only [List.mem_cons, List.not_mem_nil, or_false] at hx
    rcases hx with rfl | rfl
    · exact hnd.1.2
    · exact hnd.2.1
  have hroom := hb.room
  have hle := hc.grows
  have hlen := Ctx.length_path c
  rcases exec_climb hc.pending hc.metaRep hb.rootTable hc.owned (by omega) hkeep hdis
      (hh.held.trans (List.map_congr_left fun x hx => (hc.path x hx).symm)) hc.path hh.key hc.pushed with
    ⟨σ₁, T', new₁, count₁, free₁, rest, tr₁, tr₂, ht⟩ | ⟨σ₁, l₁, r₁, sep₁, new₁, count₁, free₁, tr₁, ht, hcount⟩
  · exact hc.took hb ht
  · exact hc.grew hb ht hcount

end leafCases

end

end BTree

end RustDb
