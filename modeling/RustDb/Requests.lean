/-
  RustDb.Requests — the calls of a table (`table/mod.rs`), made by any number of threads.

  A thread makes its calls one after the other and keeps the answers (`session`), or beside each
  answer also whether the pool failed a request of that call (`notedSession`). The pool
  serves one request of some thread at a time, in any order; it may fail any request that can
  fail, and a file swap that fails may have written some of the pages (`Pool.Serves`). Latches
  are left out: the threads may be interleaved in every way that latches allow, and in others.

  Proved:
  - `pages_stay_intact`: whatever the threads call, in whatever order and with whatever
    failures, every page of the table but the meta page passes `check_invariants` at every
    moment;
  - `answered_exactly`: a call that does not end with an error of the pool or a panic has met
    no failure, and has done what it does over a pool that never fails;
  - `concurrent_reads_exact`: threads that only read never change a page, and each of their
    answers is the tree's, unless the pool failed a request of that call.
-/

import RustDb.Allocate
import RustDb.Calls

namespace RustDb

open Lib Lib.Prog Lib.Text Call Access BTree

/-! ## The calls -/

namespace Table

variable (t : Table)

/-- `Table::delete`. -/
def delete (fuel : Nat) (key : Key) : TB (Option Row) := (BTree.delete t fuel key).mapErr .btree

/-- `Table::get`. -/
def get (fuel : Nat) (key : Key) : TB (Option Row) := (BTree.get t fuel key).mapErr .btree

/-- `BTree::get_range`, on the table's tree. -/
def getRange (fuel : Nat) (start stop : Bound) (filterFn : Row → Bool) : TB (List Row) :=
  (BTree.getRange t fuel start stop filterFn).mapErr .btree

/-- `Table::size`. -/
def size : TB Nat := do
  let guard ← bpm (fetchRead t.metaId)
  drop t.metaId
  let pageCount ← page .page guard.metaGetPageCount
  return pageCount * pageSize

/-- The key that `delete_raw` and `get_raw` make of their argument; one that is not a single
    text, or no key, is a panic. -/
def rawKey (u : UpperCase) (args : List String) : Except (Fail TableError) Key :=
  match args with
  | [arg] =>
    match mapRaw u (t.schema.columns.head t.schema.nonempty).colType arg with
    | .error e => .error (.err e)
    | .ok rowVal => (Key.tryFrom rowVal).mapError fun _ => .panic
  | _ => .error .panic

/-- `Table::delete_raw`. -/
def deleteRaw (u : UpperCase) (fuel : Nat) (args : List String) : TB (Option Row) :=
  match t.rawKey u args with
  | .error e => throw e
  | .ok key => t.delete fuel key

/-- `Table::get_raw`. -/
def getRaw (u : UpperCase) (fuel : Nat) (args : List String) : TB (Option Row) :=
  match t.rawKey u args with
  | .error e => throw e
  | .ok key => t.get fuel key

/-- The filter of `get_all_raw`: `* where <column> <text>`, anything else is a panic. -/
def rawFilter (args : List String) : Except (Fail TableError) (Row → Bool) :=
  match args with
  | [star, word, colName, value] =>
    if star = "*" ∧ word = "where" then (t.schema.filterFn colName value).mapError fun e => .err (.schema e)
    else .error .panic
  | _ => .error .panic

/-- `Table::get_all_raw`. -/
def getAllRaw (fuel : Nat) (args : List String) : TB (List Row) :=
  match t.rawFilter args with
  | .error e => throw e
  | .ok filterFn => t.getAll fuel filterFn

end Table

/-- A call of a table and its arguments. -/
inductive Request where
  | insert (row : Row)
  | delete (key : Key)
  | get (key : Key)
  | getRange (start stop : Bound) (filterFn : Row → Bool)
  | getAll (filterFn : Row → Bool)
  | size
  | vacuum
  | insertRaw (args : List String)
  | deleteRaw (args : List String)
  | getRaw (args : List String)
  | getAllRaw (args : List String)

inductive Reply where
  | done
  | row (found : Option Row)
  | rows (found : List Row)
  | bytes (n : Nat)
  deriving DecidableEq, Repr

abbrev Answer := Except (Fail TableError) Reply

namespace Table

variable (t : Table) (u : UpperCase) (fuel : Nat)

def perform : Request → TB Reply
  | .insert row => do t.insert fuel row; return .done
  | .delete key => return .row (← t.delete fuel key)
  | .get key => return .row (← t.get fuel key)
  | .getRange start stop filterFn => return .rows (← t.getRange fuel start stop filterFn)
  | .getAll filterFn => return .rows (← t.getAll fuel filterFn)
  | .size => return .bytes (← t.size)
  | .vacuum => do t.vacuum fuel; return .done
  | .insertRaw args => do t.insertRaw u fuel args; return .done
  | .deleteRaw args => return .row (← t.deleteRaw u fuel args)
  | .getRaw args => return .row (← t.getRaw u fuel args)
  | .getAllRaw args => return .rows (← t.getAllRaw fuel args)

/-- Programs one after the other, and what they return. -/
def inTurn {α : Type} (perform : Request → Prog PoolOp PoolOp.Res α) : List Request → Prog PoolOp PoolOp.Res (List α)
  | [] => pure []
  | q :: qs => do
    let a ← perform q
    let as ← inTurn perform qs
    return a :: as

/-- A thread's calls, one after the other, and their answers. -/
def session : List Request → Prog PoolOp PoolOp.Res (List Answer) := inTurn fun q => (t.perform u fuel q).run

/-- A call, and whether the pool failed a request of it. -/
def noted (q : Request) : Prog PoolOp PoolOp.Res (Answer × Bool) :=
  noting (fun failed o r => failed || o.failed r) false (t.perform u fuel q).run

/-- A thread's calls, and of each whether the pool failed a request of it. -/
def notedSession : List Request → Prog PoolOp PoolOp.Res (List (Answer × Bool)) := inTurn (t.noted u fuel)

end Table

/-! ## The pool -/

namespace Pool

/-- What the pool may do with a request: serve it, or fail it and leave the pages as they were;
    a swap that fails leaves each page as it was or as it was to be. -/
inductive Serves : Service PoolOp PoolOp.Res Store
  | fetchRead {σ : Store} {id : PageId} {p : Page} (h : σ.page id = some p) : Serves (.fetchRead id) σ (.ok p) σ
  | fetchWrite {σ : Store} {id : PageId} {p : Page} (h : σ.page id = some p) : Serves (.fetchWrite id) σ (.ok p) σ
  | newPage (σ : Store) (p : Page) : Serves (.newPage p) σ (.ok p) (σ.put p)
  | put (σ : Store) (p : Page) : Serves (.put p) σ () (σ.put p)
  | drop (σ : Store) (id : PageId) : Serves (.drop id) σ () σ
  | unwind (σ : Store) : Serves .unwind σ () σ
  | flushAll (σ : Store) : Serves .flushAll σ (.ok ()) σ
  | swapFile (σ : Store) (pages : List Page) : Serves (.swapFile pages) σ (.ok ()) (Store.ofPages pages)
  | fail {o : PoolOp} {r : o.Res} {e : BpmError} (σ : Store) (h : o.failure e = some r) : Serves o σ r σ
  | swapPart {σ σ' : Store} {pages : List Page} (e : BpmError)
      (h : ∀ id p, σ'.page id = some p → p ∈ pages ∨ σ.page id = some p) : Serves (.swapFile pages) σ (.error (.err e)) σ'

/-- The pool that never fails, latches aside. -/
def serve : Handler PoolOp PoolOp.Res Store
  | .fetchRead id, σ | .fetchWrite id, σ =>
    match σ.page id with
    | some p => some (.ok p, σ)
    | none => some (.error (.err (.io .notFound)), σ)
  | .newPage p, σ => some (.ok p, σ.put p)
  | .put p, σ => some ((), σ.put p)
  | .drop _, σ | .unwind, σ => some ((), σ)
  | .flushAll, σ => some (.ok (), σ)
  | .swapFile pages, _ => some (.ok (), Store.ofPages pages)

variable {o : PoolOp} {σ σ' : Store} {w w' : World} {r : o.Res}

/-- A thread alone, over a pool that does not fail. -/
theorem serves_of_step (h : World.step o w = some (r, w')) : Serves o w.store r w'.store := by
  cases o with
  | fetchRead id =>
    simp only [World.step] at h
    split at h
    · cases h
      exact .fail _ (e := .io .notFound) rfl
    · cases h
    · cases h
      exact .fetchRead (by assumption)
  | fetchWrite id =>
    simp only [World.step] at h
    split at h
    · cases h
      exact .fail _ (e := .io .notFound) rfl
    · cases h
      exact .fetchWrite (by assumption)
    · cases h
  | newPage p =>
    simp only [World.step] at h
    split at h
    · cases h
      exact .fail _ (e := .alreadyExists p.pageId) rfl
    · cases h
      exact .newPage _ _
  | put p =>
    simp only [World.step] at h
    split at h
    · cases h
      exact .put _ _
    · cases h
  | drop id =>
    simp only [World.step] at h
    split at h
    · cases h
      exact .drop _ _
    · cases h
      exact .drop _ _
    · cases h
  | unwind =>
    cases h
    exact .unwind _
  | flushAll =>
    cases h
    exact .flushAll _
  | swapFile pages =>
    cases h
    exact .swapFile _ _

/-- A thread alone, over a pool that may fail. -/
theorem serves_of_faulty {faults : Nat → Option BpmError} {n n' : Nat}
    (h : World.faulty faults o (w, n) = some (r, w', n')) :
    Serves o w.store r w'.store := by
  rcases hno : (faults n).bind o.failure with _ | r'
  · simp only [World.faulty, hno, Option.map_eq_some_iff] at h
    obtain ⟨⟨r', w₁⟩, hstep, heq⟩ := h
    cases heq
    exact serves_of_step hstep
  · rw [faulty_fails hno] at h
    cases h
    obtain ⟨e, -, he⟩ := Option.bind_eq_some_iff.mp hno
    exact .fail _ he

end Pool

/-! ## Pages at every moment -/

/-- The pages stored for the table are intact. -/
def Access.Stored (A : Access) (σ : Store) : Prop := ∀ id p, σ.page id = some p → id.tableId = A.table → A.Intact p

/-- Every page stored is the table's. -/
def Access.Only (A : Access) (σ : Store) : Prop := ∀ id p, σ.page id = some p → id.tableId = A.table

section
variable {A : Access} {σ σ' : Store}

theorem Access.Stored.put (h : A.Stored σ) {q : Page} (hq : A.Intact q) : A.Stored (σ.put q) := fun id p hp hid => by
  by_cases he : id = q.pageId
  · rw [he, Store.put_self] at hp
    cases hp
    exact hq
  · rw [Store.put_ne σ he] at hp
    exact h id p hp hid

theorem Access.Stored.swap {pages : List Page} (h : A.Stored σ) (hpages : ∀ p ∈ pages, A.Intact p)
    (hσ : ∀ id p, σ'.page id = some p → p ∈ pages ∨ σ.page id = some p) : A.Stored σ' := fun id p hp hid =>
  (hσ id p hp).elim (hpages p) fun hp => h id p hp hid

theorem Access.answered_failure {o : PoolOp} {r : o.Res} {e : BpmError} (h : o.failure e = some r) (failed : Bool) :
    A.contract.rely failed o r := by
  cases o <;> cases h
  all_goals exact ⟨e, rfl⟩

/-- The pool meets the contract: it keeps the pages intact while the calls hold to theirs. -/
theorem Access.met (A : Access) : A.contract.Met Pool.Serves A.Stored := by
  intro o σ r σ' hguar hσ h
  cases h with
  | @fetchRead _ id p hp => exact ⟨fun _ => hσ id p hp hguar, hσ⟩
  | @fetchWrite _ id p hp => exact ⟨fun _ => hσ id p hp hguar, hσ⟩
  | newPage p => exact ⟨fun _ => hguar.2, hσ.put hguar.2⟩
  | put p => exact ⟨fun _ => trivial, hσ.put hguar.2⟩
  | drop => exact ⟨fun _ => trivial, hσ⟩
  | unwind => exact ⟨fun _ => trivial, hσ⟩
  | flushAll => exact ⟨fun _ => trivial, hσ⟩
  | swapFile pages =>
    refine ⟨fun _ => trivial, hσ.swap hguar.2 fun id p hp => Or.inl ?_⟩
    exact Store.mem_of_page hp
  | fail _ hfail => exact ⟨answered_failure hfail, hσ⟩
  | swapPart e hpart => exact ⟨fun _ => ⟨e, rfl⟩, hσ.swap hguar.2 hpart⟩

theorem Access.only_serves {o : PoolOp} {r : o.Res} (hguar : A.contract.guar o) (h : A.Only σ)
    (hserves : Pool.Serves o σ r σ') : A.Only σ' := by
  have hput {q : Page} (hq : A.Intact q) : A.Only (σ.put q) := fun id p hp => by
    by_cases he : id = q.pageId
    · rw [he]
      exact hq.table
    · rw [Store.put_ne σ he] at hp
      exact h id p hp
  cases hserves with
  | fetchRead | fetchWrite | drop | unwind | flushAll | fail => exact h
  | newPage q => exact hput hguar.2
  | put q => exact hput hguar.2
  | swapFile pages =>
    intro id p hp
    rw [← Store.named _ hp]
    exact (hguar.2 p (Store.mem_of_page hp)).table
  | swapPart e hpart =>
    intro id p hp
    rcases hpart id p hp with hmem | hp
    · rw [← Store.named _ hp]
      exact (hguar.2 p hmem).table
    · exact h id p hp

end

/-- The call changes no page. -/
def Request.isRead : Request → Prop
  | .get _ | .getRange _ _ _ | .getAll _ | .size | .getRaw _ | .getAllRaw _ => True
  | .insert _ | .delete _ | .vacuum | .insertRaw _ | .deleteRaw _ => False

namespace Table

section
variable {t : Table} {A : Access} (ht : t.metaId.tableId = A.table)
include ht

theorem holds_get (fuel : Nat) (key : Key) : A.Holds (fun _ => True) (t.get fuel key) :=
  (BTree.holds_get ht fuel key).mapErr fun _ h => h

theorem holds_getRange (fuel : Nat) (start stop : Bound) (filterFn : Row → Bool) :
    A.Holds (Admitted A) (t.getRange fuel start stop filterFn) :=
  (BTree.holds_getRange ht fuel start stop filterFn).mapErr fun _ h => h

theorem holds_getAll (fuel : Nat) (filterFn : Row → Bool) : A.Holds (Admitted A) (t.getAll fuel filterFn) :=
  (BTree.holds_getRange ht fuel .unbounded .unbounded filterFn).mapErr fun _ h => h

theorem holds_size : A.Holds (fun _ => True) t.size :=
  (holds_bpm (holds_fetchRead ht)).bind fun _ _ => (holds_drop _).bind fun _ _ =>
    (holds_page _ _).bind fun _ _ => Holds.pure trivial

theorem holds_getRaw (u : UpperCase) (fuel : Nat) (args : List String) : A.Holds (fun _ => True) (t.getRaw u fuel args) := by
  unfold getRaw
  split
  · exact Holds.throw _
  · exact holds_get ht fuel _

theorem holds_getAllRaw (fuel : Nat) (args : List String) : A.Holds (Admitted A) (t.getAllRaw fuel args) := by
  unfold getAllRaw
  split
  · exact Holds.throw _
  · exact holds_getAll ht fuel _

theorem holds_vacuum (hs : A.swaps) (fuel : Nat) : A.Holds (fun _ => True) (t.vacuum fuel) := by
  refine Holds.unwinding (Holds.bind ((BTree.holds_getRange ht fuel .unbounded .unbounded _).mapErr fun _ h => h) fun
      rows hrows => ?_)
  have hpack : A.Holds (fun x => x.1.tableId = A.table ∧ ∀ q ∈ x.2.2, A.Intact q)
      (ExceptT.mk (pure (t.pack fuel rows)) : TB _) := by
    have hyields := yields_pack ht fuel hrows
    rcases hp : t.pack fuel rows with e | x
    · exact Holds.throw _
    · exact Holds.pure (Yields.value hyields hp)
  refine hpack.bind fun tree htree => ?_
  refine (holds_bpm (holds_fetchRead ht)).bind fun metaPage hmeta => ?_
  refine (holds_drop _).bind fun _ _ => (holds_page _ _).bind fun _ _ => (holds_page _ _).bind fun _ _ =>
    (holds_page _ _).bind fun _ _ => holds_bpm (holds_swapFile hs fun q hq => ?_)
  rcases List.mem_cons.mp hq with rfl | hq
  · exact ((hmeta.metaSetRootId htree.1).metaSetPageCount _).metaSetFreeListHead fun _ h => by cases h
  · exact htree.2 q hq

section
variable (hw : A.writes)
include hw

theorem holds_delete (fuel : Nat) (key : Key) : A.Holds (fun _ => True) (t.delete fuel key) :=
  (BTree.holds_delete ht hw fuel key).mapErr fun _ h => h

theorem holds_deleteRaw (u : UpperCase) (fuel : Nat) (args : List String) :
    A.Holds (fun _ => True) (t.deleteRaw u fuel args) := by
  unfold deleteRaw
  split
  · exact Holds.throw _
  · exact holds_delete ht hw fuel _

variable (hg : A.grows) (hvalid : ∀ row v, t.schema.validateRow row = .ok v → A.admits row.key)
include hg hvalid

theorem holds_insert (fuel : Nat) (row : Row) : A.Holds (fun _ => True) (t.insert fuel row) := by
  unfold insert
  rcases hrow : t.schema.validateRow row with e | v
  · exact Holds.throw _
  · have hkey : A.admits v.row.key := by
      rw [Schema.validateRow_ok hrow]
      exact hvalid row v hrow
    exact (BTree.holds_insert ht hw hg fuel hkey).mapErr fun _ h => h

theorem holds_insertRaw (u : UpperCase) (fuel : Nat) (args : List String) :
    A.Holds (fun _ => True) (t.insertRaw u fuel args) := by
  unfold insertRaw
  split
  · exact Holds.throw _
  · exact holds_insert ht hw hg hvalid fuel _

theorem holds_perform (hs : A.swaps) (u : UpperCase) (fuel : Nat) (q : Request) :
    A.Holds (fun _ => True) (t.perform u fuel q) := by
  cases q with
  | insert row => exact (holds_insert ht hw hg hvalid fuel row).bind fun _ _ => Holds.pure trivial
  | delete key => exact (holds_delete ht hw fuel key).bind fun _ _ => Holds.pure trivial
  | get key => exact (holds_get ht fuel key).bind fun _ _ => Holds.pure trivial
  | getRange start stop filterFn => exact (holds_getRange ht fuel start stop filterFn).bind fun _ _ => Holds.pure trivial
  | getAll filterFn => exact (holds_getAll ht fuel filterFn).bind fun _ _ => Holds.pure trivial
  | size => exact (holds_size ht).bind fun _ _ => Holds.pure trivial
  | vacuum => exact (holds_vacuum ht hs fuel).bind fun _ _ => Holds.pure trivial
  | insertRaw args => exact (holds_insertRaw ht hw hg hvalid u fuel args).bind fun _ _ => Holds.pure trivial
  | deleteRaw args => exact (holds_deleteRaw ht hw u fuel args).bind fun _ _ => Holds.pure trivial
  | getRaw args => exact (holds_getRaw ht u fuel args).bind fun _ _ => Holds.pure trivial
  | getAllRaw args => exact (holds_getAllRaw ht fuel args).bind fun _ _ => Holds.pure trivial

end

/-- A call that reads needs no leave to write. -/
theorem holds_read (u : UpperCase) (fuel : Nat) {q : Request} (hq : q.isRead) : A.Holds (fun _ => True)
    (t.perform u fuel q) := by
  cases q with
  | get key => exact (holds_get ht fuel key).bind fun _ _ => Holds.pure trivial
  | getRange start stop filterFn => exact (holds_getRange ht fuel start stop filterFn).bind fun _ _ => Holds.pure trivial
  | getAll filterFn => exact (holds_getAll ht fuel filterFn).bind fun _ _ => Holds.pure trivial
  | size => exact (holds_size ht).bind fun _ _ => Holds.pure trivial
  | getRaw args => exact (holds_getRaw ht u fuel args).bind fun _ _ => Holds.pure trivial
  | getAllRaw args => exact (holds_getAllRaw ht fuel args).bind fun _ _ => Holds.pure trivial
  | insert | delete | vacuum | insertRaw | deleteRaw => exact hq.elim

end

/-! ## Any number of threads -/

section
variable {t : Table} {u : UpperCase} {fuel : Nat}

/-- Programs one after the other hold to a contract when each does. -/
theorem keeps_inTurn {α : Type} {perform : Request → Prog PoolOp PoolOp.Res α} {C : Contract PoolOp PoolOp.Res Unit}
    {post : Request → α → Prop} : ∀ {qs : List Request}, (∀ q ∈ qs, Keeps C (fun _ => post q) () (perform q)) →
      Keeps C (fun _ => List.Forall₂ post qs) () (inTurn perform qs)
  | [], _ => List.Forall₂.nil
  | q :: qs, h => by
    refine Keeps.bind (h q List.mem_cons_self) fun _ a ha => ?_
    refine Keeps.bind (keeps_inTurn fun q' hq' => h q' (List.mem_cons_of_mem _ hq')) fun _ as has => ?_
    exact List.Forall₂.cons ha has

/-- A table's pages, with keys that satisfy `P`; its calls may write. -/
def access (t : Table) (P : Key → Prop) : Access := ⟨t.metaId.tableId, P, True, True, True⟩

/-- Whatever any number of threads call, in any order of their requests and under any failures
    of the pool: every page of the table but the meta page passes `check_invariants` at every
    moment, and every key in it is one that some valid row may have. Of the meta page only the
    ids it names are kept: a free list that leads out of the file gives it a head that fails
    the check. -/
theorem pages_stay_intact {P : Key → Prop} (hvalid : ∀ row v, t.schema.validateRow row = .ok v → P row.key)
    {σ σ' : Store} (hσ : (t.access P).Stored σ) (sessions : List (List Request))
    {ps : List (Prog PoolOp PoolOp.Res (List Answer))}
    (h : Relation.ReflTransGen (Interleaves Pool.Serves) (sessions.map (t.session u fuel), σ) (ps, σ')) :
    (t.access P).Stored σ' ∧ ∀ id p, σ'.page id = some p → id.tableId = t.metaId.tableId → p.isMeta = false →
      p.checkInvariants = .ok () := by
  have hps : List.Forall₂ (fun _ p => ∃ g, Keeps (t.access P).contract.blind (fun _ _ => True) g p) sessions
      (sessions.map (t.session u fuel)) := by
    rw [List.forall₂_map_right_iff, List.forall₂_same]
    intro qs _
    have hsession : Keeps (t.access P).contract.blind (fun _ => List.Forall₂ (fun _ _ => True) qs) ()
        (t.session u fuel qs) :=
      keeps_inTurn fun q _ => (holds_perform rfl trivial trivial hvalid trivial u fuel q).forget.mono fun _ _ _ => trivial
    exact ⟨(), hsession.mono fun _ _ _ => trivial⟩
  obtain ⟨-, hσ'⟩ := Keeps.reaches ((t.access P).met).blind hps hσ h
  exact ⟨hσ', fun id p hp hid hmeta => (hσ' id p hp hid).passes hmeta⟩

def smallMeta : Page := Page.emptyPage ⟨⟨1⟩, 0⟩ (.metaPage ⟨⟨1⟩, 1⟩ 2 none smallSchema "t")

theorem integerKey_valid (row : Row) (v : ValidatedRow) (h : smallTable.schema.validateRow row = .ok v) : ∃ n, row.key =
    .integer n :=
  Schema.validateRow_integer rfl h

theorem smallStore_stored (P : Key → Prop) {writes grows swaps : Prop} (hP : ∀ n, P (.integer n)) :
    (Access.mk smallTable.metaId.tableId P writes grows swaps).Stored smallStore := by
  intro id p hp _
  have hpage := Store.mem_of_page hp
  rcases List.mem_cons.mp hpage with rfl | hpage
  · have hvalid : Page.LeafValid smallRows := leafValid_of_passes (σ := smallStore) ⟨none, none, none, rfl⟩
      (smallTable_wellFormed.passes ⟨⟨1⟩, 1⟩ (by decide))
    refine ⟨rfl, hvalid, ?_, by simp, by simp⟩
    intro r hr
    simp only [smallRows, List.mem_cons, List.not_mem_nil, or_false] at hr
    rcases hr with rfl | rfl <;> exact hP _
  · rw [List.mem_singleton.mp hpage]
    exact ⟨rfl, rfl, fun _ h => by cases h⟩

/-- One thread has asked for the meta page to insert a row; another's first request failed. -/
theorem pages_stay_intact_small : ∃ k k', smallTable.session .ofAscii 1 [.insert (smallRow 2)] = .op
    (.fetchRead ⟨⟨1⟩, 0⟩) k ∧
    smallTable.session .ofAscii 1 [.get (.integer 1)] = .op (.fetchRead ⟨⟨1⟩, 0⟩) k' ∧
    Relation.ReflTransGen (Interleaves Pool.Serves) ([.op (.fetchRead ⟨⟨1⟩, 0⟩) k, .op (.fetchRead ⟨⟨1⟩, 0⟩) k'], smallStore)
      ([k (.ok smallMeta), k' (.error (.err .noFreeFrames))], smallStore) ∧
    (smallTable.access fun key => ∃ n, key = .integer n).Stored smallStore := by
  obtain ⟨k, hk⟩ : ∃ k, smallTable.session .ofAscii 1 [.insert (smallRow 2)] = .op (.fetchRead ⟨⟨1⟩, 0⟩) k := ⟨_, rfl⟩
  obtain ⟨k', hk'⟩ : ∃ k, smallTable.session .ofAscii 1 [.get (.integer 1)] = .op (.fetchRead ⟨⟨1⟩, 0⟩) k := ⟨_, rfl⟩
  have h₁ : Interleaves Pool.Serves ([] ++ Prog.op (.fetchRead ⟨⟨1⟩, 0⟩) k :: [Prog.op (.fetchRead ⟨⟨1⟩, 0⟩) k'], smallStore)
      ([] ++ k (.ok smallMeta) :: [.op (.fetchRead ⟨⟨1⟩, 0⟩) k'], smallStore) := .step (.fetchRead rfl)
  have h₂ : Interleaves Pool.Serves ([k (.ok smallMeta)] ++ Prog.op (.fetchRead ⟨⟨1⟩, 0⟩) k' :: [], smallStore)
      ([k (.ok smallMeta)] ++ k' (.error (.err .noFreeFrames)) :: [], smallStore) := .step (.fail _ rfl)
  have hrun := Relation.ReflTransGen.head h₁ (.head h₂ .refl)
  have hsessions : [[Request.insert (smallRow 2)], [.get (.integer 1)]].map (smallTable.session .ofAscii 1) =
      [] ++ Prog.op (.fetchRead ⟨⟨1⟩, 0⟩) k :: [Prog.op (.fetchRead ⟨⟨1⟩, 0⟩) k'] := by
    rw [List.map_cons, List.map_cons, hk, hk']
    rfl
  rw [← hsessions] at hrun
  obtain ⟨hstored, -⟩ := pages_stay_intact (P := fun key => ∃ n, key = .integer n) integerKey_valid
    (smallStore_stored _ fun n => ⟨n, rfl⟩) _ hrun
  rw [hsessions] at hrun
  exact ⟨k, k', hk, hk', hrun, hstored⟩

/-! ## One call under failures -/

theorem faulty_clean {faults : Nat → Option BpmError} {o : PoolOp} {s s' : World × Nat} {r : o.Res}
    (h : World.faulty faults o s = some (r, s')) (hr : o.failed r = false) : World.step o s.1 = some (r, s'.1) := by
  rcases hno : (faults s.2).bind o.failure with _ | r'
  · simp only [World.faulty, hno, Option.map_eq_some_iff] at h
    obtain ⟨⟨r', w⟩, hstep, heq⟩ := h
    cases heq
    exact hstep
  · rw [World.faulty, hno] at h
    cases h
    obtain ⟨e, -, he⟩ := Option.bind_eq_some_iff.mp hno
    cases o <;> cases he <;> cases hr

/-- A thread alone keeps the pages intact. -/
theorem met_faulty (A : Access) (faults : Nat → Option BpmError) :
    A.contract.Met (Handler.serves (World.faulty faults)) fun s => A.Stored s.1.store := fun o _ r _ hguar hs hserve =>
  A.met o _ r _ hguar hs (Pool.serves_of_faulty hserve)

/-- A run in which no request is answered with a failure meets none. -/
theorem faults_none {α : Type} {faults : Nat → Option BpmError} {p : Prog PoolOp PoolOp.Res α} {w w' : World} {n n' : Nat}
    {a : α} (hp : p.Along (World.faulty faults) (fun o r => o.failed r = false) (w, n))
    (h : p.run (World.faulty faults) (w, n) = some (a, w', n')) : ∀ k, n ≤ k → k < n' → faults k = none := by
  induction p generalizing w n with
  | ret b =>
    cases h
    exact fun k hn hk => absurd hk (by omega)
  | op o f ih =>
    simp only [Prog.run] at h
    rcases ho : World.faulty faults o (w, n) with _ | ⟨r, w₁, n₁⟩
    · simp [ho] at h
    simp only [ho] at h
    obtain ⟨hr, halong⟩ := hp r (w₁, n₁) ho
    have hrest := ih r halong h
    rcases hno : (faults n).bind o.failure with _ | r'
    · have hserve := ho
      simp only [World.faulty, hno, Option.map_eq_some_iff] at hserve
      obtain ⟨⟨r', w'⟩, -, heq⟩ := hserve
      obtain rfl : (if o.fallible then n + 1 else n) = n₁ := congrArg (fun x => x.2.2) heq
      intro k hn hk
      rcases hn.eq_or_lt with rfl | hn
      · cases hf : o.fallible with
        | true => exact failure_fallible hf hno
        | false => exact hrest n (by simp [hf]) hk
      · refine hrest k ?_ hk
        split_ifs <;> omega
    · obtain ⟨rfl, -⟩ := Prod.mk.inj (Option.some.inj ((faulty_fails hno).symm.trans ho))
      obtain ⟨e, -, he⟩ := Option.bind_eq_some_iff.mp hno
      cases o <;> cases he <;> cases hr

/-- A call that holds to the contract is exact where no request of it was failed, and none was
    where it does not end with the pool's error. -/
theorem exact_of_noted {ε α : Type} [PoolError ε] {A : Access} {p : Call ε α} (hp : A.Holds (fun _ => True) p) {w w' : World}
    (hσ : A.Stored w.store) {faults : Nat → Option BpmError} {r : Except (Fail ε) α} {failed : Bool} {n n' : Nat}
    (h : (noting A.contract.next false p.run).run (World.faulty faults) (w, n) = some ((r, failed), w', n'))
    (hr : failed = false ∨ ∀ e, r = .error e → ¬ e.fromPool) :
    p.eval w = some (r, w') ∧ p.run.Along (World.faulty faults) (fun o r => o.failed r = false) (w, n) := by
  obtain ⟨hpost, hagrees⟩ := Keeps.agrees_noting Prod.fst (fun failed => failed = false)
    (fun o r => o.failed r = false) hp (met_faulty A faults)
    (fun failed o s r s' _ hserve hclean => ⟨(Bool.or_eq_false_iff.mp hclean).1, (Bool.or_eq_false_iff.mp hclean).2,
      faulty_clean hserve (Bool.or_eq_false_iff.mp hclean).2⟩) hσ h
  have hclean : failed = false := by
    rcases hr with hclean | hr
    · exact hclean
    cases r with
    | ok a => exact hpost.1
    | error e =>
      cases failed
      · rfl
      · exact absurd (hpost rfl) (hr e rfl)
  obtain ⟨-, halong, heval⟩ := hagrees hclean
  exact ⟨heval, halong⟩

/-- A call that ends with a value, or with an error that is not the pool's, has met no failure:
    none of its requests was to fail, none was answered with an error, and what it did is what
    it does over a pool that never fails. -/
theorem answered_exactly {w w' : World} (hσ : (t.access fun _ => True).Stored w.store) {faults : Nat → Option BpmError}
    {q : Request} {answer : Answer} {n n' : Nat} (h : Ends faults (t.perform u fuel q) w n answer w' n')
    (hanswer : ∀ e, answer = .error e → ¬ e.fromPool) : (t.perform u fuel q).eval w = some (answer, w') ∧
      (∀ k, n ≤ k → k < n' → faults k = none) ∧
      (t.perform u fuel q).run.Along (World.faulty faults) (fun o r => o.failed r = false) (w, n) := by
  have hnoted : ∃ failed, (t.noted u fuel q).run (World.faulty faults) (w, n) = some ((answer, failed), w', n') :=
    exists_noting false h
  obtain ⟨failed, hnoted⟩ := hnoted
  obtain ⟨heval, halong⟩ := exact_of_noted (holds_perform (A := t.access fun _ => True) rfl trivial trivial
    (fun _ _ _ => trivial) trivial u fuel q) hσ hnoted (Or.inr hanswer)
  exact ⟨heval, faults_none halong h, halong⟩

/-- The sixth request would have failed. -/
theorem answered_exactly_small : ∃ w' n', (smallTable.perform .ofAscii 1 .size).eval (.idle smallStore) = some
    (.ok (.bytes 8192), w') ∧ n' ≤ 5 := by
  obtain ⟨w', n', hends⟩ : ∃ w' n', Ends (fun n => if n = 5 then some .noFreeFrames else none)
      (smallTable.perform .ofAscii 1 .size)
      (.idle smallStore) 0 (.ok (.bytes 8192)) w' n' := ⟨_, _, rfl⟩
  have hstored : (smallTable.access fun _ => True).Stored (World.idle smallStore).store := smallStore_stored _ fun _ =>
      trivial
  obtain ⟨heval, hnone, -⟩ := answered_exactly hstored hends fun _ h => by cases h
  refine ⟨w', n', heval, Nat.le_of_not_lt fun hlt => ?_⟩
  exact absurd (hnone 5 (by decide) hlt) (by decide)

/-! ## Reading, by any number of threads -/

/-- What a call that reads answers over these rows and this many pages. -/
def readAnswer (t : Table) (u : UpperCase) (rows : List Row) (pageCount : UInt32) : Request → Answer
  | .get key => .ok (.row (rows.find? (·.key = key)))
  | .getRange start stop filterFn => .ok (.rows (rows.filter (wanted start stop filterFn)))
  | .getAll filterFn => .ok (.rows (rows.filter filterFn))
  | .size => .ok (.bytes (pageCount.toNat * pageSize))
  | .getRaw args => (t.rawKey u args).map fun key => .row (rows.find? (·.key = key))
  | .getAllRaw args => (t.rawFilter args).map fun filterFn => .rows (rows.filter filterFn)
  | .insert _ | .delete _ | .vacuum | .insertRaw _ | .deleteRaw _ => .ok .done

section
variable {h : Nat} {T : PageTree h} {σ : Store} {count : UInt32}

theorem eval_bind_reply {ε α : Type} {p : Call ε α} {w w' : World} {r : Except (Fail ε) α} (f : α → Reply)
    (hp : p.eval w = some (r, w')) :
    (p >>= fun a => pure (f a) : Call ε Reply).eval w = some (r.map f, w') := by
  show (p.run >>= ExceptT.bindCont _).run _ _ = _
  rw [Prog.run_bind]
  rw [Call.eval] at hp
  rw [hp]
  cases r <;> rfl

theorem eval_size {m : Page} (hmeta : σ.page t.metaId = some m) (hcount : m.metaGetPageCount = .ok count.toNat) :
    t.size.eval (.idle σ) = some (.ok (count.toNat * pageSize), .idle σ) := by
  have hfetch := exec_bpm (exec_fetchRead (w := .idle σ) hmeta (World.latch_idle σ t.metaId))
  have hdrop := (@exec_drop_reader TableError t.metaId) (w := (World.idle σ).setLatch t.metaId (.readers 1)) (n := 0)
    (by simp [World.setLatch])
  rw [World.setLatch_setLatch, World.setLatch_self (World.latch_idle σ t.metaId)] at hdrop
  have hret := exec_pure (ε := TableError) (count.toNat * pageSize) (World.idle σ)
  have hpage := exec_pure (ε := TableError) count.toNat (World.idle σ)
  rw [← Call.page_ok TableError.page, ← hcount] at hpage
  exact (hfetch.bind (hdrop.bind (hpage.bind hret))).eval

/-- One thread that reads, over a pool that does not fail. -/
theorem eval_read (hr : Readable t σ T) {m : Page} (hmeta : σ.page t.metaId = some m)
    (hcount : m.metaGetPageCount = .ok count.toNat)
    (hh : h < fuel) (hl : T.leaves.length ≤ fuel) {q : Request} (hq : q.isRead) :
    (t.perform u fuel q).eval (.idle σ) = some (t.readAnswer u T.rows count q, .idle σ) := by
  have hget : ∀ key, (t.get fuel key).eval (.idle σ) = some (.ok (T.rows.find? (·.key = key)), .idle σ) := fun key => by
    obtain ⟨tr, hexec⟩ := exec_get hr hh key
    exact Call.eval_mapErr _ hexec.eval
  cases q with
  | get key => exact eval_bind_reply _ (hget key)
  | getRange start stop filterFn =>
    obtain ⟨tr, hexec⟩ := exec_getRange hr hh hl start stop filterFn
    exact eval_bind_reply _ (Call.eval_mapErr _ hexec.eval)
  | getAll filterFn => exact eval_bind_reply _ (eval_getAll hr hh hl filterFn)
  | size => exact eval_bind_reply _ (eval_size hmeta hcount)
  | getRaw args =>
    rcases hkey : t.rawKey u args with e | key <;> simp only [perform, getRaw, readAnswer, hkey]
    · rfl
    · exact eval_bind_reply _ (hget key)
  | getAllRaw args =>
    rcases hfilter : t.rawFilter args with e | filterFn <;> simp only [perform, getAllRaw, readAnswer, hfilter]
    · rfl
    · exact eval_bind_reply _ (eval_getAll hr hh hl filterFn)
  | insert | delete | vacuum | insertRaw | deleteRaw => exact hq.elim

/-- A table's pages, to be read only. -/
def readOnly (t : Table) : Access := ⟨t.metaId.tableId, fun _ => True, False, False, False⟩

theorem readOnly_step {o : PoolOp} {w w' : World} {r : o.Res} (hguar : t.readOnly.contract.guar o)
    (h : World.step o w = some (r, w')) : Pool.serve o w.store = some (r, w'.store) := by
  cases o with
  | fetchRead id | fetchWrite id =>
    simp only [World.step] at h
    split at h <;> cases h <;> simp only [Pool.serve, World.setLatch, *]
  | newPage p | put p | swapFile pages => exact hguar.1.elim
  | drop id =>
    simp only [World.step] at h
    split at h <;> cases h <;> rfl
  | unwind | flushAll =>
    cases h
    rfl

/-- Served or failed, no request of a reader changes a page. -/
theorem readOnly_serves {o : PoolOp} {σ' : Store} {r : o.Res} (hguar : t.readOnly.contract.guar o)
    (h : Pool.Serves o σ r σ') :
    σ' = σ := by
  cases h with
  | newPage | put | swapFile | swapPart => exact hguar.1.elim
  | fetchRead | fetchWrite | drop | unwind | flushAll | fail => rfl

theorem readOnly_clean {o : PoolOp} {σ' : Store} {r : o.Res} {failed : Bool} (hguar : t.readOnly.contract.guar o)
    (h : Pool.Serves o σ r σ') (hclean : (failed || o.failed r) = false) : Pool.serve o σ = some (r, σ) := by
  have hr := (Bool.or_eq_false_iff.mp hclean).2
  cases h with
  | newPage | put | swapFile | swapPart => exact hguar.1.elim
  | fetchRead hp | fetchWrite hp => simp only [Pool.serve, hp]
  | drop | unwind | flushAll => rfl
  | fail _ he => cases o <;> cases he <;> cases hr

/-- The answer is the tree's, or it tells that the pool failed the call. -/
def Told (expected answer : Answer) : Prop := answer = expected ∨ ∃ e, answer = .error e ∧ e.fromPool

/-- The answer is the tree's, or the pool failed a request of the call and the answer tells that. -/
def ToldFailed (expected : Answer) (noted : Answer × Bool) : Prop :=
  noted.1 = expected ∨ noted.2 = true ∧ ∃ e, noted.1 = .error e ∧ e.fromPool

/-- What a call that reads holds to while no page changes. -/
theorem keeps_read (hσ : t.readOnly.Stored σ) (hr : Readable t σ T) {m : Page} (hmeta : σ.page t.metaId = some m)
    (hcount : m.metaGetPageCount = .ok count.toNat) (hh : h < fuel) (hl : T.leaves.length ≤ fuel) {q : Request}
    (hq : q.isRead) :
    Keeps (t.readOnly.contract.onto fun o r => Pool.Serves o σ r σ)
      (fun failed answer => ToldFailed (t.readAnswer u T.rows count q) (answer, failed)) false (t.perform u fuel q).run := by
  have hholds : t.readOnly.Holds (fun _ => True) (t.perform u fuel q) := holds_read rfl u fuel hq
  have hmet : t.readOnly.contract.Met (Handler.serves World.step) (fun w => t.readOnly.Stored w.store) :=
    fun o w r w' hguar hw hserve => Access.met _ o _ r _ hguar hw (Pool.serves_of_step hserve)
  obtain ⟨_, -, hagrees⟩ := Keeps.agrees World.store (fun _ => True) (fun _ _ => True) hholds hmet
    (fun _ o w r w' hguar hserve _ => ⟨trivial, trivial, readOnly_step hguar hserve⟩) hσ
    (eval_read hr hmeta hcount hh hl hq)
  have hrun := (hagrees trivial).2.2
  have hexact : ∀ failed o r, t.readOnly.contract.guar o → Pool.Serves o σ r σ → t.readOnly.contract.next failed o r =
      false →
      Pool.serve o σ = some (r, σ) := fun _ _ _ hguar hserve hclean => readOnly_clean hguar hserve hclean
  have honto := Keeps.onto (· = false) hholds (fun _ => hrun) (fun _ _ _ hclean => (Bool.or_eq_false_iff.mp hclean).1) hexact
  refine honto.mono fun failed answer hanswer => ?_
  obtain ⟨hpost, hexact⟩ := hanswer
  cases failed with
  | false => exact Or.inl (hexact rfl)
  | true =>
    cases answer with
    | ok a => cases hpost.1
    | error e => exact Or.inr ⟨rfl, e, rfl, hpost rfl⟩

/-- The pool serves a reader as the reader expects, and the pages stay. -/
theorem readOnly_met (hσ : t.readOnly.Stored σ) :
    (t.readOnly.contract.onto fun o r => Pool.Serves o σ r σ).blind.Met Pool.Serves (· = σ) := by
  rintro o s r s' hguar rfl hserve
  obtain rfl := readOnly_serves hguar hserve
  exact ⟨fun _ failed => ⟨(Access.met _ o _ r _ hguar hσ hserve).1 failed, hserve⟩, rfl⟩

/-- Threads of readers, in any order of their requests: each ends as its programs do alone. -/
theorem readers_end {α : Type} {perform : Request → Prog PoolOp PoolOp.Res α} {post : Request → α → Prop}
    (hσ : t.readOnly.Stored σ) {sessions : List (List Request)}
    (hreads : ∀ qs ∈ sessions, ∀ q ∈ qs,
      Keeps (t.readOnly.contract.onto fun o r => Pool.Serves o σ r σ).blind (fun _ => post q) () (perform q))
    {σ' : Store} {ps : List (Prog PoolOp PoolOp.Res (List α))}
    (h : Relation.ReflTransGen (Interleaves Pool.Serves) (sessions.map (inTurn perform), σ) (ps, σ')) :
    σ' = σ ∧ List.Forall₂ (fun qs p => ∀ as, p = .ret as → List.Forall₂ post qs as) sessions ps := by
  have hps : List.Forall₂ (fun qs p => ∃ g, Keeps (t.readOnly.contract.onto fun o r => Pool.Serves o σ r σ).blind
      (fun _ as => List.Forall₂ post qs as) g p) sessions (sessions.map (inTurn perform)) := by
    rw [List.forall₂_map_right_iff, List.forall₂_same]
    exact fun qs hqs => ⟨(), keeps_inTurn (hreads qs hqs)⟩
  obtain ⟨hps', hσ'⟩ := Keeps.reaches (readOnly_met hσ) hps rfl h
  refine ⟨hσ', hps'.imp fun qs p hp as hret => ?_⟩
  obtain ⟨g, hp⟩ := hp
  rw [hret] at hp
  exact hp

/-- Threads that only read, in any order of their requests and under any failures of the pool:
    no page changes, and each answer is that of the tree, unless it tells that the pool failed
    the call. With the failures noted, it tells so only of a call of which a request did fail. -/
theorem concurrent_reads_exact (hσ : t.readOnly.Stored σ) (hr : Readable t σ T) {m : Page} (hmeta : σ.page t.metaId = some m)
    (hcount : m.metaGetPageCount = .ok count.toNat) (hh : h < fuel) (hl : T.leaves.length ≤ fuel)
    {sessions : List (List Request)} (hreads : ∀ qs ∈ sessions, ∀ q ∈ qs, q.isRead) {σ' : Store}
    {ps : List (Prog PoolOp PoolOp.Res (List Answer))}
    (h : Relation.ReflTransGen (Interleaves Pool.Serves) (sessions.map (t.session u fuel), σ) (ps, σ')) :
    (σ' = σ ∧ List.Forall₂ (fun qs p => ∀ answers, p = .ret answers →
      List.Forall₂ (fun q answer => Told (t.readAnswer u T.rows count q) answer) qs answers) sessions ps) ∧
    ∀ σ₁ (ps₁ : List (Prog PoolOp PoolOp.Res (List (Answer × Bool)))),
      Relation.ReflTransGen (Interleaves Pool.Serves) (sessions.map (t.notedSession u fuel), σ) (ps₁, σ₁) →
      List.Forall₂ (fun qs p => ∀ noted, p = .ret noted →
        List.Forall₂ (fun q x => ToldFailed (t.readAnswer u T.rows count q) x) qs noted) sessions ps₁ := by
  have hkeeps : ∀ qs ∈ sessions, ∀ q ∈ qs, Keeps (t.readOnly.contract.onto fun o r => Pool.Serves o σ r σ)
      (fun failed answer => ToldFailed (t.readAnswer u T.rows count q) (answer, failed)) false (t.perform u fuel q).run :=
    fun qs hqs q hq => keeps_read hσ hr hmeta hcount hh hl (hreads qs hqs q hq)
  refine ⟨readers_end hσ (fun qs hqs q hq => ?_) h, fun σ₁ ps₁ h₁ => (readers_end hσ (fun qs hqs q hq => ?_) h₁).2⟩
  · refine (hkeeps qs hqs q hq).forget.mono fun _ answer hanswer => ?_
    obtain ⟨failed, hsame | ⟨-, htold⟩⟩ := hanswer
    · exact Or.inl hsame
    · exact Or.inr htold
  · exact (hkeeps qs hqs q hq).noting

/-- One thread has its answer, in one run the tree's and in the other that its request failed;
    another has asked for nothing yet. -/
theorem concurrent_reads_exact_small : ∃ answers noted, Relation.ReflTransGen (Interleaves Pool.Serves)
      ([[.size], [.getAll fun _ => true]].map (smallTable.session .ofAscii 2), smallStore)
      ([.ret answers, smallTable.session .ofAscii 2 [.getAll fun _ => true]], smallStore) ∧
    List.Forall₂ (fun q answer => Told (smallTable.readAnswer .ofAscii smallRows 2 q) answer) [.size] answers ∧
    Relation.ReflTransGen (Interleaves Pool.Serves)
      ([[.size], [.getAll fun _ => true]].map (smallTable.notedSession .ofAscii 2), smallStore)
      ([.ret noted, smallTable.notedSession .ofAscii 2 [.getAll fun _ => true]], smallStore) ∧
    noted = [(.error (.err (.bpm .noFreeFrames)), true)] ∧
    List.Forall₂ (fun q x => ToldFailed (smallTable.readAnswer .ofAscii smallRows 2 q) x) [.size] noted := by
  obtain ⟨k, hk, k', hk', hret⟩ : ∃ k, smallTable.session .ofAscii 2 [.size] = .op (.fetchRead ⟨⟨1⟩, 0⟩) k ∧
    ∃ k', k (.ok smallMeta) = .op (.drop ⟨⟨1⟩, 0⟩) k' ∧ k' () = .ret [.ok (.bytes 8192)] := ⟨_, rfl, _, rfl, rfl⟩
  obtain ⟨l, hl, hfail⟩ : ∃ l, smallTable.notedSession .ofAscii 2 [.size] = .op (.fetchRead ⟨⟨1⟩, 0⟩) l ∧
    l (.error (.err .noFreeFrames)) = .ret [(.error (.err (.bpm .noFreeFrames)), true)] := ⟨_, rfl, rfl⟩
  let other := smallTable.session .ofAscii 2 [.getAll fun _ => true]
  let otherNoted := smallTable.notedSession .ofAscii 2 [.getAll fun _ => true]
  have h₁ : Interleaves Pool.Serves ([] ++ Prog.op (.fetchRead ⟨⟨1⟩, 0⟩) k :: [other], smallStore)
      ([] ++ k (.ok smallMeta) :: [other], smallStore) := .step (.fetchRead rfl)
  have h₂ : Interleaves Pool.Serves ([] ++ Prog.op (.drop ⟨⟨1⟩, 0⟩) k' :: [other], smallStore)
      ([] ++ k' () :: [other], smallStore) := .step (.drop _ _)
  have h₃ : Interleaves Pool.Serves ([] ++ Prog.op (.fetchRead ⟨⟨1⟩, 0⟩) l :: [otherNoted], smallStore)
      ([] ++ l (.error (.err .noFreeFrames)) :: [otherNoted], smallStore) := .step (.fail _ rfl)
  rw [← hk] at h₁
  rw [← hk', hret] at h₂
  rw [← hl, hfail] at h₃
  have hrun : Relation.ReflTransGen (Interleaves Pool.Serves)
      ([[.size], [.getAll fun _ => true]].map (smallTable.session .ofAscii 2), smallStore)
      ([.ret [.ok (.bytes 8192)], other], smallStore) := .head h₁ (.head h₂ .refl)
  have hnoted : Relation.ReflTransGen (Interleaves Pool.Serves)
      ([[.size], [.getAll fun _ => true]].map (smallTable.notedSession .ofAscii 2), smallStore)
      ([.ret [(.error (.err (.bpm .noFreeFrames)), true)], otherNoted], smallStore) := .single h₃
  have hstored : smallTable.readOnly.Stored smallStore := smallStore_stored _ fun _ => trivial
  have hcount : smallMeta.metaGetPageCount = .ok (2 : UInt32).toNat := rfl
  obtain ⟨⟨-, hanswers⟩, htold⟩ := concurrent_reads_exact hstored smallTable_wellFormed.sound.readable (m := smallMeta)
    rfl hcount (by decide) (by decide) (by simp [Request.isRead]) hrun
  cases hanswers with
  | cons hfirst _ =>
    cases htold _ _ hnoted with
    | cons hfirst' _ => exact ⟨_, _, hrun, hfirst _ rfl, hnoted, rfl, hfirst' _ rfl⟩

end

end

end Table

end RustDb
