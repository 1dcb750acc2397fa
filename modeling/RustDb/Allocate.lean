/-
  RustDb.Allocate — `Table::allocate` over a pool whose calls may fail.

  The free-list path reads the page it will hand out before it changes the meta page. The
  other path counts the new page first and asks the pool for it then: when `new_page` fails
  there, the number it was given is counted and belongs to no page.

  - `allocate_keeps_iff`: a call keeps the accounting, or leaves the meta page and the free
    list as they were, exactly when it does not come to a `new_page` that fails (or to the
    last page number there is).
-/

import RustDb.BTree.Rep

namespace RustDb

open Lib Call

/-! ## A pool that may fail -/

/-- The answer of a request that fails; writing through a guard and dropping it do not. -/
def PoolOp.failure : (o : PoolOp) → BpmError → Option o.Res
  | .fetchRead _, e | .fetchWrite _, e | .newPage _, e => some (.error (.err e))
  | .flushAll, e | .swapFile _, e => some (.error (.err e))
  | .put _, _ | .drop _, _ | .unwind, _ => none

def PoolOp.fallible : PoolOp → Bool
  | .put _ | .drop _ | .unwind => false
  | _ => true

/-- One request of a thread; the `n`-th of those that can fail does so with `faults n`. -/
def World.faulty (faults : Nat → Option BpmError) (o : PoolOp) (s : World × Nat) : Option (o.Res × World × Nat) :=
  match (faults s.2).bind o.failure with
  | some r => some (r, s.1, s.2 + 1)
  | none => (World.step o s.1).map fun x => (x.1, x.2, if o.fallible then s.2 + 1 else s.2)

section
variable {faults : Nat → Option BpmError} {w w' : World} {n : Nat} {ε ε' α β S : Type}

theorem failure_fallible {o : PoolOp} {fault : Option BpmError} (hf : o.fallible) (hno : fault.bind o.failure = none) :
    fault = none := by
  cases fault with
  | none => rfl
  | some e => cases o <;> simp_all [PoolOp.fallible, PoolOp.failure]

theorem faulty_serves {o : PoolOp} {r : o.Res} (hno : (faults n).bind o.failure = none) (h : World.step o w = some (r, w')) :
    World.faulty faults o (w, n) = some (r, w', if o.fallible then n + 1 else n) := by
  simp only [World.faulty, hno, h, Option.map_some]

theorem faulty_fails {o : PoolOp} {r : o.Res} (h : (faults n).bind o.failure = some r) :
    World.faulty faults o (w, n) = some (r, w, n + 1) := by
  simp only [World.faulty, h]

/-- A call run over the pool: the result, the world, and how many requests could have failed. -/
abbrev Ends (faults : Nat → Option BpmError) (p : Call ε α) (w : World) (n : Nat) (r : Except (Fail ε) α) (w' : World)
    (n' : Nat) : Prop :=
  Prog.run (World.faulty faults) p.run (w, n) = some (r, w', n')

theorem Ends.bind {p : Call ε α} {f : α → Call ε β} {a : α} {r : Except (Fail ε) β} {w₁ : World} {n₁ n' : Nat}
    (h : Ends faults p w n (.ok a) w₁ n₁) (hf : Ends faults (f a) w₁ n₁ r w' n') : Ends faults (p >>= f) w n r w' n' := by
  show (p.run >>= ExceptT.bindCont f).run _ _ = _
  rw [Prog.run_bind, h]
  exact hf

theorem Ends.bind_error {p : Call ε α} {f : α → Call ε β} {e : Fail ε} {n' : Nat} (h : Ends faults p w n (.error e) w' n') :
    Ends faults (p >>= f) w n (.error e) w' n' := by
  show (p.run >>= ExceptT.bindCont f).run _ _ = _
  rw [Prog.run_bind, h]
  rfl

theorem ends_pure (a : α) : Ends faults (pure a : Call ε α) w n (.ok a) w n := rfl

theorem Ends.bpm {α : Type} {p : Call BpmError α} {x : Except (Fail BpmError) α} {n' : Nat}
    (h : Ends faults p w n x w' n') : Ends faults (Table.bpm p) w n (x.mapError (Fail.map .bpm)) w' n' := by
  show (p.run >>= fun x => pure (Except.mapError (Fail.map TableError.bpm) x)).run _ _ = _
  rw [Prog.run_bind, h]
  rfl

theorem ends_request {o : PoolOp} {r : o.Res} {n' : Nat} (h : World.faulty faults o (w, n) = some (r, w', n')) :
    (Prog.request o : Prog PoolOp PoolOp.Res o.Res).run (World.faulty faults) (w, n) = some (r, w', n') :=
  (Prog.run_request o _).trans h

variable {σ : Store} {L L' : List PageId} {id : PageId} {q : Page} {e : BpmError}

theorem ends_fetchWrite (hf : faults n = none) (hp : σ.page id = some q) (hid : id ∉ L) :
    Ends faults (Table.bpm (fetchWrite id)) (.writing σ L) n (.ok q) (.writing σ (id :: L)) (n + 1) := by
  refine Ends.bpm (x := .ok q) (ends_request (faulty_serves (by rw [hf]; rfl) ?_))
  simp only [World.step, World.writing_store, hp, World.latch_of_not_mem hid, World.setLatch_write]

theorem ends_fetchWrite_fails (hf : faults n = some e) :
    Ends faults (Table.bpm (fetchWrite id)) w n (.error (.err (.bpm e))) w (n + 1) :=
  Ends.bpm (x := .error (.err e)) (ends_request (faulty_fails (by rw [hf]; rfl)))

theorem ends_newPage (hf : faults n = none) (hid : q.pageId ∉ L) :
    Ends faults (Table.bpm (newPage q)) (.writing σ L) n (.ok q) (.writing (σ.put q) (q.pageId :: L)) (n + 1) := by
  refine Ends.bpm (x := .ok q) (ends_request (faulty_serves (by rw [hf]; rfl) ?_))
  simp only [World.step, World.latch_of_not_mem hid, ne_eq, not_true, if_false, World.setLatch_write]
  rfl

theorem ends_newPage_fails (hf : faults n = some e) :
    Ends faults (Table.bpm (newPage q)) w n (.error (.err (.bpm e))) w (n + 1) :=
  Ends.bpm (x := .error (.err e)) (ends_request (faulty_fails (by rw [hf]; rfl)))

theorem failure_none {o : PoolOp} (ho : ∀ e, o.failure e = none) : (faults n).bind o.failure = none := by
  rcases faults n with _ | e
  · rfl
  · exact ho e

theorem ends_put (hid : q.pageId ∈ L) :
    Ends faults (put q : Call ε Unit) (.writing σ L) n (.ok ()) (.writing (σ.put q) L) n := by
  have hstep : World.step (.put q) (.writing σ L) = some ((), .writing (σ.put q) L) := by
    simp only [World.step, World.latch_of_mem hid, if_true]
    rfl
  show ((Prog.request (PoolOp.put q) : Prog PoolOp PoolOp.Res Unit) >>= fun x => pure (Except.ok x)).run _ _ = _
  rw [Prog.run_bind, ends_request (faulty_serves (failure_none fun _ => rfl) hstep)]
  rfl

theorem ends_drop (hid : id ∈ L) (hL : ∀ x, x ∈ L' ↔ x ∈ L ∧ x ≠ id) :
    Ends faults (drop id : Call ε Unit) (.writing σ L) n (.ok ()) (.writing σ L') n := by
  have hstep : World.step (.drop id) (.writing σ L) = some ((), .writing σ L') := by
    simp only [World.step, World.latch_of_mem hid, World.setLatch_free hL]
    rfl
  show ((Prog.request (PoolOp.drop id) : Prog PoolOp PoolOp.Res Unit) >>= fun x => pure (Except.ok x)).run _ _ = _
  rw [Prog.run_bind, ends_request (faulty_serves (failure_none fun _ => rfl) hstep)]
  rfl

theorem ends_change {a : α} (wrap : PageError → ε) (hid : q.pageId ∈ L) :
    Ends faults (change wrap (.ok a, q)) (.writing σ L) n (.ok (a, q)) (.writing (σ.put q) L) n :=
  (ends_put hid).bind (ends_pure _)

end

namespace Table

variable (t : Table)

/-! ## The accounting -/

/-- The meta page counts the pages of the tree and those of the free list, and itself. -/
structure Accounted (σ : Store) (root : PageId) (count : UInt32) (ids free : List PageId) : Prop where
  metaRep : t.MetaRep σ root count free
  owned : t.Owned count (ids ++ free)
  root : root ∈ ids
  total : ids.length + free.length + 1 = count.toNat

/-- The call hands out a page that is neither free nor in the tree, and counting it among the
    tree's the accounting holds; or it fails and the meta page and the free list are as before. -/
def AllocateKeeps (σ : Store) (root : PageId) (ids free : List PageId) (r : Except (Fail TableError) Page) (w : World) :
    Prop :=
  (∃ id count' free', r = .ok ⟨id, none, .free none⟩ ∧ w.latch id = .write ∧ w.store.page id = some ⟨id, none, .free none⟩ ∧
    id ∉ ids ∧ id ∉ free' ∧ t.Accounted w.store root count' (id :: ids) free') ∨
  ∃ e, r = .error (.err e) ∧ w.store.page t.metaId = σ.page t.metaId ∧ ∀ x ∈ free, w.store.page x = σ.page x

section
variable {t} {σ : Store} {root : PageId} {count : UInt32} {ids free L : List PageId} {faults : Nat → Option BpmError}

theorem Accounted.pos (h : t.Accounted σ root count ids free) : count ≠ 0 := by
  rintro rfl
  have := h.total
  simp at this

theorem Accounted.root_table (h : t.Accounted σ root count ids free) : root.tableId = t.metaId.tableId :=
  h.owned.table root (List.mem_append_left _ h.root)

/-- Nothing was changed yet. -/
theorem allocateKeeps_error {e : TableError} {L' : List PageId} :
    t.AllocateKeeps σ root ids free (.error (.err e)) (.writing σ L') := Or.inr ⟨e, rfl, rfl, fun _ _ => rfl⟩

/-- The head of the free list is handed out, or nothing has changed. -/
theorem allocate_reuses {head : PageId} {rest : List PageId} (h : t.Accounted σ root count ids (head :: rest)) (hL : L ⊆ ids)
    (hmeta : faults 0 = none) : ∃ r w n, Ends faults t.allocate (.writing σ L) 0 r w n ∧
      t.AllocateKeeps σ root ids (head :: rest) r w := by
  obtain ⟨lsn, schema, name, hpage, hvalid⟩ := h.metaRep.metaPage
  obtain ⟨lsn', hhead⟩ := h.metaRep.chain.1
  have hmL : t.metaId ∉ L := fun hm => h.owned.meta_not_mem (List.mem_append_left _ (hL hm))
  have hfetch := ends_fetchWrite hmeta hpage hmL
  rcases hfault : faults 1 with _ | e
  · have hhm : head ≠ t.metaId := h.owned.ne_meta (by simp)
    have hids : head ∉ ids := fun hm => (List.nodup_append.mp h.owned.nodup).2.2 _ hm _ (by simp) rfl
    have hrest : head ∉ rest := (List.nodup_cons.mp (List.nodup_append.mp h.owned.nodup).2.1).1
    have hhL : head ∉ t.metaId :: L := by
      intro hm
      rcases List.mem_cons.mp hm with hm | hm
      · exact hhm hm
      · exact hids (hL hm)
    obtain ⟨hmrep, -⟩ := h.metaRep.pop h.owned hpage
    let m' : Page := ⟨t.metaId, lsn, .metaPage root count rest.head? schema name⟩
    let fresh : Page := ⟨head, none, .free none⟩
    have hchange := @ends_change faults 2 _ _ σ (head :: t.metaId :: L) m' head TableError.page (by simp [m'])
    rw [← Page.freeListPop_head] at hchange
    have hput := @ends_put faults 2 TableError (σ.put m') (head :: t.metaId :: L) fresh (by simp [fresh])
    have hdrop := @ends_drop faults 2 TableError ((σ.put m').put fresh) (head :: t.metaId :: L) (head :: L) t.metaId
        (by simp)
      (mem_drop_second hhm hmL)
    refine ⟨.ok fresh, .writing ((σ.put m').put fresh) (head :: L), 2,
      hfetch.bind ((ends_fetchWrite hfault hhead hhL).bind (hchange.bind (hput.bind (hdrop.bind (ends_pure _))))),
      Or.inl ⟨head, count, rest, rfl, World.latch_of_mem List.mem_cons_self, Store.put_self _ fresh, hids, hrest, hmrep,
        h.owned.perm List.perm_middle.symm, List.mem_cons_of_mem _ h.root, ?_⟩⟩
    have := h.total
    simp only [List.length_cons] at this ⊢
    omega
  · exact ⟨_, _, _, hfetch.bind (ends_fetchWrite_fails hfault).bind_error, allocateKeeps_error⟩

/-- With nothing to reuse: a page numbered at the end of the table is handed out, or the meta
    page counts it all the same. -/
theorem allocate_bumps (h : t.Accounted σ root count ids []) (hL : L ⊆ ids) (hmeta : faults 0 = none) :
    ∃ r w n, Ends faults t.allocate (.writing σ L) 0 r w n ∧
      (t.AllocateKeeps σ root ids [] r w ↔ faults 1 = none ∧ count.toNat + 1 < 2 ^ 32) := by
  obtain ⟨lsn, schema, name, hpage, hvalid⟩ := h.metaRep.metaPage
  have hmL : t.metaId ∉ L := fun hm => h.owned.meta_not_mem (List.mem_append_left _ (hL hm))
  have hfetch := ends_fetchWrite hmeta hpage hmL
  let id : PageId := ⟨t.metaId.tableId, count⟩
  let m' : Page := ⟨t.metaId, lsn, .metaPage root (count + 1) none schema name⟩
  let fresh : Page := ⟨id, none, .free none⟩
  have hidm : id ≠ t.metaId := fun he => h.pos ((congrArg PageId.pageNum he).trans h.owned.zero)
  have hids : id ∉ ids := fun hm => UInt32.lt_irrefl _ (h.owned.lt id (List.mem_append_left _ hm))
  have hidL : id ∉ t.metaId :: L := by
    intro hm
    rcases List.mem_cons.mp hm with hm | hm
    · exact hidm hm
    · exact hids (hL hm)
  have hbump : Page.metaBumpPageCount ⟨t.metaId, lsn, .metaPage root count none schema name⟩ = (.ok id, m') := by
    simp only [Page.metaBumpPageCount, h.root_table, id, m']
  have hchange := @ends_change faults 1 _ _ σ (t.metaId :: L) m' id TableError.page (by simp [m'])
  rw [← hbump] at hchange
  rcases hfault : faults 1 with _ | e
  · obtain ⟨hmrep, -⟩ := h.metaRep.bump hpage hidm
    have hdrop := @ends_drop faults 2 TableError ((σ.put m').put fresh) (id :: t.metaId :: L) (id :: L) t.metaId (by simp)
      (mem_drop_second hidm hmL)
    refine ⟨.ok fresh, .writing ((σ.put m').put fresh) (id :: L), 2,
      hfetch.bind (hchange.bind ((ends_newPage hfault hidL).bind (hdrop.bind (ends_pure _)))), ?_⟩
    have htotal := h.total
    have howned := h.owned
    rw [List.append_nil] at howned
    simp only [true_and]
    constructor
    · -- the page handed out is numbered below the new count
      rintro (⟨id', count', free', hid', -, -, -, -, hacc⟩ | ⟨e, he, -⟩)
      · obtain ⟨lsn₁, schema₁, name₁, hpage₁, -⟩ := hacc.metaRep.metaPage
        obtain ⟨lsn₂, schema₂, name₂, hpage₂, -⟩ := hmrep.metaPage
        have hid : id' = id := (congrArg Page.pageId (Except.ok.inj hid')).symm
        subst hid
        have hcount : count' = count + 1 := by
          rw [World.writing_store] at hpage₁
          have hbody := congrArg (Option.map Page.body) (hpage₁.symm.trans hpage₂)
          simp only [Option.map_some, Option.some.injEq, PageBody.metaPage.injEq] at hbody
          exact hbody.2.1
        have hlt := UInt32.lt_iff_toNat_lt.mp (hacc.owned.lt id (by simp))
        rw [hcount, UInt32.toNat_add, UInt32.toNat_one] at hlt
        have hidnum : id.pageNum.toNat = count.toNat := rfl
        have := count.toNat_lt
        omega
      · cases he
    · intro hcount
      refine Or.inl ⟨id, count + 1, [], rfl, World.latch_of_mem List.mem_cons_self, Store.put_self _ fresh, hids,
        List.not_mem_nil, hmrep, ?_, List.mem_cons_of_mem _ h.root, ?_⟩
      · rw [List.append_nil]
        exact howned.bump hcount h.pos
      · rw [UInt32.toNat_add, UInt32.toNat_one, Nat.mod_eq_of_lt hcount]
        simp only [List.length_cons, List.length_nil] at htotal ⊢
        omega
  · refine ⟨_, _, _, hfetch.bind (hchange.bind (ends_newPage_fails hfault).bind_error), ?_⟩
    simp only [reduceCtorEq, false_and, iff_false]
    -- the count was changed before `new_page` failed
    rintro (⟨id', count', free', hid', -⟩ | ⟨e', -, hsame, -⟩)
    · cases hid'
    · rw [World.writing_store, Store.put_self, hpage] at hsame
      have hbody := congrArg (Option.map Page.body) hsame
      simp only [m', Option.map_some, Option.some.injEq, PageBody.metaPage.injEq] at hbody
      have hnum := congrArg UInt32.toNat hbody.2.1
      rw [UInt32.toNat_add, UInt32.toNat_one] at hnum
      have := count.toNat_lt
      omega

/-- A call keeps the accounting or changes nothing, exactly when there is a free page to reuse,
    or the meta page cannot be fetched, or the pool makes the new page and its number is not
    the last. -/
theorem allocate_keeps_iff (h : t.Accounted σ root count ids free) (hL : L ⊆ ids) (faults : Nat → Option BpmError) :
    ∃ r w n, Ends faults t.allocate (.writing σ L) 0 r w n ∧
      (t.AllocateKeeps σ root ids free r w ↔
        free ≠ [] ∨ faults 0 ≠ none ∨ (faults 1 = none ∧ count.toNat + 1 < 2 ^ 32)) := by
  rcases hmeta : faults 0 with _ | e
  · rcases free with _ | ⟨head, rest⟩
    · obtain ⟨r, w, n, hends, hkeeps⟩ := @allocate_bumps t σ root count ids L faults h hL hmeta
      exact ⟨r, w, n, hends, by rw [hkeeps]; simp⟩
    · obtain ⟨r, w, n, hends, hkeeps⟩ := @allocate_reuses t σ root count ids L faults head rest h hL hmeta
      exact ⟨r, w, n, hends, by simp [hkeeps]⟩
  · exact ⟨_, _, _, (ends_fetchWrite_fails hmeta).bind_error, by simp [allocateKeeps_error]⟩

end

end Table

open BTree

theorem smallTable_accounted : smallTable.Accounted smallStore ⟨⟨1⟩, 1⟩ 2 [⟨⟨1⟩, 1⟩] [] where
  metaRep := smallTable_wellFormed.root
  owned := smallTable_wellFormed.owned
  root := List.mem_singleton_self _
  total := rfl

/-- A pool that serves every request keeps the accounting of the small table. -/
theorem Table.allocate_keeps_iff_small : ∃ r w n, Ends (fun _ => none) smallTable.allocate (.writing smallStore []) 0 r w n ∧
    smallTable.AllocateKeeps smallStore ⟨⟨1⟩, 1⟩ [⟨⟨1⟩, 1⟩] [] r w := by
  obtain ⟨r, w, n, hends, hkeeps⟩ := Table.allocate_keeps_iff smallTable_accounted (List.nil_subset _) fun _ => none
  exact ⟨r, w, n, hends, hkeeps.mpr (Or.inr (Or.inr ⟨rfl, by decide⟩))⟩

/-- A pool with no frame left for the new page: the call fails and page 2 is counted. -/
theorem Table.allocate_loses_page : smallTable.Accounted smallStore ⟨⟨1⟩, 1⟩ 2 [⟨⟨1⟩, 1⟩] [] ∧
    ∃ w n, Ends (fun n => if n = 1 then some .noFreeFrames else none) smallTable.allocate (.writing smallStore []) 0
        (.error (.err (.bpm .noFreeFrames))) w n ∧
      w.store.page smallTable.metaId = some ⟨⟨⟨1⟩, 0⟩, none, .metaPage ⟨⟨1⟩, 1⟩ 3 none smallSchema "t"⟩ ∧
      w.store.page smallTable.metaId ≠ smallStore.page smallTable.metaId ∧ w.store.page ⟨⟨1⟩, 2⟩ = none := by
  let m' : Page := ⟨⟨⟨1⟩, 0⟩, none, .metaPage ⟨⟨1⟩, 1⟩ 3 none smallSchema "t"⟩
  have hmeta : smallStore.page smallTable.metaId = some ⟨⟨⟨1⟩, 0⟩, none, .metaPage ⟨⟨1⟩, 1⟩ 2 none smallSchema "t"⟩ := rfl
  refine ⟨smallTable_accounted, .writing (smallStore.put m') [smallTable.metaId], 2,
    (ends_fetchWrite (by decide) hmeta List.not_mem_nil).bind ((ends_change (q := m') .page (List.mem_singleton_self _)).bind
      (ends_newPage_fails (by decide)).bind_error), Store.put_self _ m', ?_, rfl⟩
  have hput : (smallStore.put m').page smallTable.metaId = some m' := Store.put_self _ m'
  rw [World.writing_store, hput, hmeta]
  simp [m']

end RustDb
