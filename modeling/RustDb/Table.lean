/-
  RustDb.Table — a table: its meta page, its pages and its free list (`table/mod.rs`).

  The calls are programs over the pool. On a table whose meta page and free list are sound
  (`MetaRep`), and whose pages are its own (`Owned`), under one thread:
  - `exec_allocate`: a free page comes back, popped off the free list or numbered at the
    end of the table, and no other page but the meta page changes.
  - `exec_free`: the page becomes the head of the free list.
  - `exec_rootId`, `exec_setRootId`.
-/

import RustDb.Bpm.Ops
import RustDb.Page.Meta

namespace RustDb

open Call

inductive BTreeError where
  | bpm (e : BpmError)
  | page (e : PageError)
  deriving DecidableEq, Repr

inductive TableError where
  | bpm (e : BpmError)
  | page (e : PageError)
  | schema (e : SchemaError)
  | btree (e : BTreeError)
  | alreadyExists (id : TableId)
  | unexpected
  deriving DecidableEq, Repr

structure Table where
  metaId : PageId
  schema : Schema
  tableName : String

namespace Table

abbrev TB := Call TableError

def bpm {α : Type} (p : Call BpmError α) : TB α := p.mapErr .bpm

/-- `Table::open`. -/
def «open» (tableId : TableId) : TB Table := unwinding do
  let guard ← bpm (fetchRead ⟨tableId, 0⟩)
  let metaId := guard.pageId
  let schema ← page .page guard.metaGetSchema
  let tableName ← page .page guard.metaGetTableName
  drop metaId
  return ⟨metaId, schema, tableName⟩

/-- A result as a value, for a call that looks at the error. -/
def attempt {ε α : Type} (p : Call ε α) : TB (Except (Fail ε) α) := ExceptT.lift p.run

/-- `Table::create`. `fetch_read` of a page never written fails with one of two I/O errors. -/
def create (tableId : TableId) (schema : Schema) (name : String) : TB Table := unwinding do
  let metaId : PageId := ⟨tableId, 0⟩
  match ← attempt (fetchRead metaId) with
  | .ok _ => throw (.err (.alreadyExists tableId))
  | .error (.err (.io .unexpectedEof)) | .error (.err (.io .notFound)) =>
    let rootId : PageId := ⟨tableId, 1⟩
    let metaPage := Page.emptyPage metaId (.metaPage rootId 2 none schema name)
    let leafRoot := Page.emptyLeaf rootId
    let _ ← bpm (newPage leafRoot)
    drop rootId
    let _ ← bpm (newPage metaPage)
    drop metaId
    bpm flushAll
    return ⟨metaId, schema, name⟩
  | .error e => throw (e.map .bpm)

variable (t : Table)

/-- `Table::allocate`: a write guard on a free page. -/
def allocate : TB Page := do
  let metaGuard ← bpm (fetchWrite t.metaId)
  match ← page .page metaGuard.metaGetFreeListHead with
  | some freeListHead =>
    let freeGuard ← bpm (fetchWrite freeListHead)
    let _ ← change .page (metaGuard.freeListPop freeGuard)
    let fresh := Page.emptyPage freeGuard.pageId (.free none)
    put fresh
    drop t.metaId
    return fresh
  | none =>
    let (newFreeId, _) ← change .page metaGuard.metaBumpPageCount
    let fresh ← bpm (newPage (Page.emptyPage newFreeId (.free none)))
    drop t.metaId
    return fresh

/-- `Table::free`: consumes the guard on `page`. -/
def free (freed : Page) : TB Unit := do
  let metaGuard ← bpm (fetchWrite t.metaId)
  let _ ← change₂ .page (metaGuard.freeListPush freed)
  drop t.metaId
  drop freed.pageId

/-- `Table::root_id`. -/
def rootId : TB PageId := do
  let guard ← bpm (fetchRead t.metaId)
  drop t.metaId
  page .page guard.metaGetRootId

/-- `Table::set_root_id`. -/
def setRootId (id : PageId) : TB Unit := do
  let guard ← bpm (fetchWrite t.metaId)
  let _ ← change .page (guard.metaSetRootId id)
  drop t.metaId

/-! ## The meta page and the free list -/

/-- The free pages threaded from the first of `ids` to the last. -/
def FreeChain (σ : Store) : List PageId → Prop
  | [] => True
  | id :: ids => (∃ lsn, σ.page id = some ⟨id, lsn, .free ids.head?⟩) ∧ FreeChain σ ids

/-- The meta page names `root`, `count` and the free list `free`, and is valid. -/
structure MetaRep (σ : Store) (root : PageId) (count : UInt32) (free : List PageId) : Prop where
  metaPage : ∃ lsn schema name, σ.page t.metaId = some ⟨t.metaId, lsn, .metaPage root count free.head? schema name⟩ ∧
    Page.Valid ⟨t.metaId, lsn, .metaPage root count free.head? schema name⟩
  chain : FreeChain σ free

/-- Page ids of this table, numbered below `count`, none of them the meta page's, and none
    twice. -/
structure Owned (count : UInt32) (ids : List PageId) : Prop where
  zero : t.metaId.pageNum = 0
  table : ∀ id ∈ ids, id.tableId = t.metaId.tableId
  pos : ∀ id ∈ ids, id.pageNum ≠ 0
  lt : ∀ id ∈ ids, id.pageNum < count
  nodup : ids.Nodup

section
variable {t} {σ σ' : Store} {root : PageId} {count : UInt32} {free ids ids' L : List PageId}

theorem FreeChain.congr (h : FreeChain σ free) (he : ∀ x ∈ free, σ'.page x = σ.page x) : FreeChain σ' free := by
  induction free with
  | nil => trivial
  | cons id rest ih =>
    refine ⟨?_, ih h.2 fun x hx => he x (List.mem_cons_of_mem _ hx)⟩
    rw [he id List.mem_cons_self]
    exact h.1

theorem MetaRep.congr (h : t.MetaRep σ root count free) (hm : σ'.page t.metaId = σ.page t.metaId)
    (he : ∀ x ∈ free, σ'.page x = σ.page x) : t.MetaRep σ' root count free :=
  ⟨by rw [hm]; exact h.metaPage, h.chain.congr he⟩

theorem Owned.perm (h : t.Owned count ids) (hp : ids'.Perm ids) : t.Owned count ids' where
  zero := h.zero
  table id hid := h.table id (hp.mem_iff.mp hid)
  pos id hid := h.pos id (hp.mem_iff.mp hid)
  lt id hid := h.lt id (hp.mem_iff.mp hid)
  nodup := hp.nodup_iff.mpr h.nodup

theorem Owned.meta_not_mem (h : t.Owned count ids) : t.metaId ∉ ids := fun hm => h.pos _ hm h.zero

theorem Owned.ne_meta (h : t.Owned count ids) {x : PageId} (hx : x ∈ ids) : x ≠ t.metaId :=
  fun he => h.meta_not_mem (he ▸ hx)

/-- The page at the end of the table is new. -/
theorem Owned.bump (h : t.Owned count ids) (hcount : count.toNat + 1 < 2 ^ 32) (hpos : count ≠ 0) :
    t.Owned (count + 1) (⟨t.metaId.tableId, count⟩ :: ids) := by
  have hlt : count < count + 1 := by
    rw [UInt32.lt_iff_toNat_lt, UInt32.toNat_add, UInt32.toNat_one, Nat.mod_eq_of_lt hcount]
    omega
  refine ⟨h.zero, ?_, ?_, ?_, List.nodup_cons.mpr ⟨fun hm => ?_, h.nodup⟩⟩
  · simpa using h.table
  · simpa using ⟨hpos, h.pos⟩
  · simp only [List.mem_cons, forall_eq_or_imp]
    exact ⟨hlt, fun x hx => UInt32.lt_trans (h.lt x hx) hlt⟩
  · exact absurd (h.lt _ hm) (UInt32.lt_irrefl _)

/-- The root named by the meta page in a world. -/
def namedRoot (w : World) : Option PageId := (w.store.page t.metaId).bind fun m => m.metaGetRootId.toOption

theorem MetaRep.namedRoot (h : t.MetaRep σ root count free) {L : List PageId} :
    t.namedRoot (World.writing σ L) = some root := by
  obtain ⟨lsn, schema, name, hm, -⟩ := h.metaPage
  simp [Table.namedRoot, hm, Page.metaGetRootId, Except.toOption]

theorem valid_meta {id : PageId} {lsn lsn' : PageLsn} {root root' : PageId} {count count' : UInt32}
    {head head' : Option PageId} {schema : Schema} {name : String}
    (h : Page.Valid ⟨id, lsn, .metaPage root count head schema name⟩)
    (hhead : ∀ x, head' = some x → x.pageNum < count') :
    Page.Valid ⟨id, lsn', .metaPage root' count' head' schema name⟩ := ⟨h.1, hhead, h.2.2⟩

/-! ## What the calls do -/

theorem exec_bpm {α : Type} {p : Call BpmError α} {w w' : World} {tr : List World} {a : α}
    (h : Exec p w tr (.ok a) w') : Exec (bpm p) w tr (.ok a) w' := h.mapErr_ok _

/-- Reading the meta page leaves the world as it was; in between, only its latch is taken. -/
theorem exec_rootId {w : World} (hroot : t.namedRoot w = some root) (hl : w.latch t.metaId = .readers 0) :
    Exec t.rootId w [w.setLatch t.metaId (.readers 1), w] (.ok root) w := by
  rcases hpage : w.store.page t.metaId with _ | m
  · simp [Table.namedRoot, hpage] at hroot
  rcases hm : m.metaGetRootId with e | root'
  · simp [Table.namedRoot, hpage, hm, Except.toOption] at hroot
  simp only [Table.namedRoot, hpage, hm, Except.toOption, Option.bind_some, Option.some.injEq] at hroot
  subst hroot
  have hdrop := (@exec_drop_reader TableError t.metaId) (w := w.setLatch t.metaId (.readers 1)) (n := 0)
      (by simp [World.setLatch])
  rw [World.setLatch_setLatch, World.setLatch_self hl] at hdrop
  have hret := exec_pure (ε := TableError) root' w
  rw [← Call.page_ok TableError.page, ← hm] at hret
  exact (exec_bpm (exec_fetchRead hpage hl)).bind (hdrop.bind hret)

theorem exec_setRootId (hm : t.MetaRep σ root count free) (ho : t.Owned count (ids ++ free)) (hL : L ⊆ ids)
    (new : PageId) :
    ∃ σ' tr, Exec (t.setRootId new) (.writing σ L) tr (.ok ()) (.writing σ' L) ∧
      t.MetaRep σ' new count free ∧ (∀ x, x ≠ t.metaId → σ'.page x = σ.page x) ∧
      ∃ w₁ w₂, tr = [w₁, w₂, .writing σ' L] ∧ w₁.AgreesOff (.writing σ L) [t.metaId] ∧
        w₂.AgreesOff (.writing σ L) [t.metaId] ∧ t.namedRoot w₁ = some root ∧ t.namedRoot w₂ = some new := by
  obtain ⟨lsn, schema, name, hpage, hvalid⟩ := hm.metaPage
  have hmeta := ho.meta_not_mem
  have hmL : t.metaId ∉ L := fun h => hmeta (List.mem_append_left _ (hL h))
  let m' : Page := ⟨t.metaId, lsn, .metaPage new count free.head? schema name⟩
  have hne : ∀ x, x ≠ t.metaId → (σ.put m').page x = σ.page x := fun x hx => σ.put_ne hx
  have hm' : t.MetaRep (σ.put m') new count free :=
    ⟨⟨lsn, schema, name, σ.put_self m', valid_meta hvalid hvalid.2.1⟩,
      hm.chain.congr fun x hx => hne x fun he => hmeta (he ▸ List.mem_append_right _ hx)⟩
  have hdrop := exec_drop (ε := TableError) (σ := σ.put m') (L := t.metaId :: L) List.mem_cons_self fun x =>
    ⟨fun h => ⟨List.mem_cons_of_mem _ h, fun he => hmL (he ▸ h)⟩, fun h => (List.mem_cons.mp h.1).resolve_left h.2⟩
  have hchange := exec_change (σ := σ) (L := t.metaId :: L) (q := m') (a := ()) TableError.page List.mem_cons_self
  have hoff : ∀ σ' : Store, (∀ x, x ≠ t.metaId → σ'.page x = σ.page x) →
      (World.writing σ' (t.metaId :: L)).AgreesOff (.writing σ L) [t.metaId] := fun σ' hσ' =>
    World.agreesOff_writing (fun x hx => hσ' x (by simpa using hx)) fun x hx => by
      simp only [List.mem_singleton] at hx
      simp [hx]
  exact ⟨σ.put m', _, (exec_bpm (exec_fetchWrite hpage hmL)).bind (hchange.bind hdrop), hm', hne, _, _, rfl,
    hoff σ fun _ _ => rfl, hoff _ hne, hm.namedRoot, hm'.namedRoot⟩

theorem mem_drop_second {id m : PageId} (hne : id ≠ m) (hm : m ∉ L) (x : PageId) :
    x ∈ id :: L ↔ x ∈ id :: m :: L ∧ x ≠ m := by
  simp only [List.mem_cons]
  constructor
  · rintro (h | h)
    · exact ⟨Or.inl h, fun he => hne (h ▸ he)⟩
    · exact ⟨Or.inr (Or.inr h), fun he => hm (he ▸ h)⟩
  · rintro ⟨h | h | h, hx⟩
    · exact Or.inl h
    · exact absurd h hx
    · exact Or.inr h

theorem agreesOff_alloc {L L' : List PageId} {m id : PageId} (hσ : ∀ x, x ≠ m → x ≠ id → σ'.page x = σ.page x)
    (hL : ∀ x, x ≠ m → x ≠ id → (x ∈ L' ↔ x ∈ L)) : (World.writing σ' L').AgreesOff (.writing σ L) [m, id] :=
  World.agreesOff_writing
    (fun x hx => by
      simp only [List.mem_cons, List.not_mem_nil, or_false, not_or] at hx
      exact hσ x hx.1 hx.2)
    (fun x hx => by
      simp only [List.mem_cons, List.not_mem_nil, or_false, not_or] at hx
      exact hL x hx.1 hx.2)

/-- A meta page that counts one page more, and that page. -/
theorem MetaRep.bump {lsn : PageLsn} {schema : Schema} {name : String} {id : PageId} (hm : t.MetaRep σ root count [])
    (hpage : σ.page t.metaId = some ⟨t.metaId, lsn, .metaPage root count none schema name⟩) (hne : id ≠ t.metaId) :
    let m' : Page := ⟨t.metaId, lsn, .metaPage root (count + 1) none schema name⟩
    let σ' := (σ.put m').put ⟨id, none, .free none⟩
    t.MetaRep σ' root (count + 1) [] ∧ ∀ x, x ≠ t.metaId → x ≠ id → σ'.page x = σ.page x := by
  intro m' σ'
  obtain ⟨lsn₀, schema₀, name₀, hpage₀, hvalid⟩ := hm.metaPage
  cases hpage.symm.trans hpage₀
  have hm' : σ'.page t.metaId = some m' := by
    rw [Store.put_ne _ hne.symm]
    exact Store.put_self _ _
  refine ⟨⟨⟨lsn, schema, name, hm', valid_meta hvalid (by simp)⟩, trivial⟩, fun x h1 h2 => ?_⟩
  rw [Store.put_ne _ h2, Store.put_ne _ h1]

/-- A meta page without the first page of the list, and that page. -/
theorem MetaRep.pop {lsn : PageLsn} {schema : Schema} {name : String} {head : PageId} {rest : List PageId}
    (hm : t.MetaRep σ root count (head :: rest)) (ho : t.Owned count (ids ++ head :: rest))
    (hpage : σ.page t.metaId = some ⟨t.metaId, lsn, .metaPage root count (some head) schema name⟩) :
    let m' : Page := ⟨t.metaId, lsn, .metaPage root count rest.head? schema name⟩
    let σ' := (σ.put m').put ⟨head, none, .free none⟩
    t.MetaRep σ' root count rest ∧ ∀ x, x ≠ t.metaId → x ≠ head → σ'.page x = σ.page x := by
  intro m' σ'
  obtain ⟨lsn₀, schema₀, name₀, hpage₀, hvalid⟩ := hm.metaPage
  cases hpage.symm.trans hpage₀
  have hhm : head ≠ t.metaId := ho.ne_meta (by simp)
  have hrest : head ∉ rest := (List.nodup_cons.mp (List.nodup_append.mp ho.nodup).2.1).1
  have hne : ∀ x, x ≠ t.metaId → x ≠ head → σ'.page x = σ.page x := fun x h1 h2 => by
    rw [Store.put_ne _ h2, Store.put_ne _ h1]
  have hm' : σ'.page t.metaId = some m' := by
    rw [Store.put_ne _ hhm.symm]
    exact Store.put_self _ _
  have hlt : ∀ x, rest.head? = some x → x.pageNum < count := fun x hx => ho.lt x (by simp [List.mem_of_mem_head? hx])
  exact ⟨⟨⟨lsn, schema, name, hm', valid_meta hvalid hlt⟩, hm.chain.2.congr fun x hx =>
    hne x (ho.ne_meta (by simp [hx])) fun he => hrest (he ▸ hx)⟩, hne⟩

theorem exec_allocate (hm : t.MetaRep σ root count free) (ho : t.Owned count (ids ++ free)) (hL : L ⊆ ids)
    (hroot : root.tableId = t.metaId.tableId) (hcount : count.toNat + 1 < 2 ^ 32) (hpos : count ≠ 0) :
    ∃ id σ' count' free' tr, Exec t.allocate (.writing σ L) tr (.ok ⟨id, none, .free none⟩) (.writing σ' (id :: L)) ∧
      t.MetaRep σ' root count' free' ∧ t.Owned count' (id :: ids ++ free') ∧
      σ'.page id = some ⟨id, none, .free none⟩ ∧ (∀ x, x ≠ t.metaId → x ≠ id → σ'.page x = σ.page x) ∧
      count'.toNat + free.length = count.toNat + 1 + free'.length ∧ count' ≠ 0 ∧ count'.toNat ≤ count.toNat + 1 ∧
      ∀ w ∈ tr, w.AgreesOff (.writing σ L) [t.metaId, id] ∧ t.namedRoot w = some root := by
  obtain ⟨lsn, schema, name, hpage, hvalid⟩ := hm.metaPage
  have hmeta := ho.meta_not_mem
  have hmL : t.metaId ∉ L := fun h => hmeta (List.mem_append_left _ (hL h))
  rcases free with _ | ⟨head, rest⟩
  · -- nothing to reuse: a page numbered at the end of the table
    rw [List.append_nil] at ho
    have ho' := ho.bump hcount hpos
    generalize hid : (⟨t.metaId.tableId, count⟩ : PageId) = id at ho'
    have hidm : id ≠ t.metaId := ho'.ne_meta List.mem_cons_self
    have hidL : id ∉ t.metaId :: L := by
      rintro h
      rcases List.mem_cons.mp h with h | h
      · exact hidm h
      · exact (List.nodup_cons.mp ho'.nodup).1 (hL h)
    let m' : Page := ⟨t.metaId, lsn, .metaPage root (count + 1) none schema name⟩
    let fresh : Page := ⟨id, none, .free none⟩
    obtain ⟨hmrep, hne⟩ := hm.bump hpage hidm
    have hcount' : (count + 1).toNat = count.toNat + 1 := by
      rw [UInt32.toNat_add, UInt32.toNat_one, Nat.mod_eq_of_lt hcount]
    have hbump : Page.metaBumpPageCount ⟨t.metaId, lsn, .metaPage root count none schema name⟩ = (.ok id, m') := by
      simp only [Page.metaBumpPageCount, hroot, hid, m']
    have hdrop := exec_drop (ε := TableError) (σ := (σ.put m').put fresh) (L := id :: t.metaId :: L) (by simp)
        (mem_drop_second hidm hmL)
    have hnew := exec_bpm (exec_newPage (σ := σ.put m') (q := fresh) hidL)
    have hchange := exec_change (σ := σ) (L := t.metaId :: L) (q := m') (a := id) TableError.page List.mem_cons_self
    rw [← hbump] at hchange
    refine ⟨id, (σ.put m').put fresh, count + 1, [], _,
      (exec_bpm (exec_fetchWrite hpage hmL)).bind (hchange.bind (hnew.bind (hdrop.bind (exec_pure _ _)))),
      hmrep, by rwa [List.append_nil], Store.put_self _ fresh, hne, by rw [hcount'], ?_, by rw [hcount'], ?_⟩
    · intro h
      rw [h] at hcount'
      simp at hcount'
    · intro w hw
      simp only [List.append_nil, List.cons_append, List.nil_append, List.mem_cons, List.not_mem_nil, or_false] at hw
      rcases hw with rfl | rfl | rfl | rfl
      · exact ⟨agreesOff_alloc (fun _ _ _ => rfl) (by simp +contextual), hm.namedRoot⟩
      · refine ⟨agreesOff_alloc (fun x hx _ => Store.put_ne σ (p := m') hx) (by simp +contextual), ?_⟩
        simp [Table.namedRoot, Store.put_same σ (p := m') rfl, m', Page.metaGetRootId, Except.toOption]
      · exact ⟨agreesOff_alloc hne (by simp +contextual [fresh]), hmrep.namedRoot⟩
      · exact ⟨agreesOff_alloc hne (by simp +contextual), hmrep.namedRoot⟩
  · -- the head of the free list is reused
    have hhead := hm.chain.1
    obtain ⟨lsn', hhead⟩ := hhead
    have hhm : head ≠ t.metaId := ho.ne_meta (by simp)
    have hids : head ∉ ids := fun h => (List.nodup_append.mp ho.nodup).2.2 _ h _ (by simp) rfl
    have hhL : head ∉ t.metaId :: L := by
      intro h
      rcases List.mem_cons.mp h with h | h
      · exact hhm h
      · exact hids (hL h)
    let m' : Page := ⟨t.metaId, lsn, .metaPage root count rest.head? schema name⟩
    let fresh : Page := ⟨head, none, .free none⟩
    obtain ⟨hmrep, hne⟩ := hm.pop ho hpage
    have hdrop := exec_drop (ε := TableError) (σ := (σ.put m').put fresh) (L := head :: t.metaId :: L) (by simp)
        (mem_drop_second hhm hmL)
    have hchange := exec_change (σ := σ) (L := head :: t.metaId :: L) (q := m') (a := head) TableError.page (by simp [m'])
    rw [← Page.freeListPop_head] at hchange
    have hput := exec_put (ε := TableError) (σ := σ.put m') (L := head :: t.metaId :: L) (q := fresh) (by simp [fresh])
    refine ⟨head, (σ.put m').put fresh, count, rest, _,
      (exec_bpm (exec_fetchWrite hpage hmL)).bind ((exec_bpm (exec_fetchWrite hhead hhL)).bind
        (hchange.bind (hput.bind (hdrop.bind (exec_pure _ _))))),
      hmrep, ho.perm List.perm_middle.symm, Store.put_self _ fresh, hne, by simp only [List.length_cons]; omega, hpos,
      by omega, ?_⟩
    intro w hw
    simp only [List.append_nil, List.cons_append, List.nil_append, List.mem_cons, List.not_mem_nil, or_false] at hw
    rcases hw with rfl | rfl | rfl | rfl | rfl
    · exact ⟨agreesOff_alloc (fun _ _ _ => rfl) (by simp +contextual), hm.namedRoot⟩
    · exact ⟨agreesOff_alloc (fun _ _ _ => rfl) (by simp +contextual), hm.namedRoot⟩
    · refine ⟨agreesOff_alloc (fun x hx _ => Store.put_ne σ (p := m') hx) (by simp +contextual), ?_⟩
      simp [Table.namedRoot, Store.put_same σ (p := m') rfl, m', Page.metaGetRootId, Except.toOption]
    · exact ⟨agreesOff_alloc hne (by simp +contextual), hmrep.namedRoot⟩
    · exact ⟨agreesOff_alloc hne (by simp +contextual), hmrep.namedRoot⟩

/-- A freed page becomes the head of the free list, whatever else is held. -/
theorem exec_free {freed : PageId} {lsn : PageLsn} {next : Option PageId} (hm : t.MetaRep σ root count free)
    (ho : t.Owned count (freed :: ids ++ free)) (hroot : root.tableId = t.metaId.tableId) :
    ∃ σ', t.MetaRep σ' root count (freed :: free) ∧ (∀ x, x ≠ t.metaId → x ≠ freed → σ'.page x = σ.page x) ∧
      ∀ L L', (∀ x ∈ L, x ∈ freed :: ids) → freed ∈ L → (∀ x, x ∈ L' ↔ x ∈ L ∧ x ≠ freed) →
        ∃ tr, Exec (t.free ⟨freed, lsn, .free next⟩) (.writing σ L) tr (.ok ()) (.writing σ' L') := by
  obtain ⟨lsn', schema, name, hpage, hvalid⟩ := hm.metaPage
  have hmeta := ho.meta_not_mem
  have hfm : freed ≠ t.metaId := ho.ne_meta (by simp)
  have hffree : freed ∉ free := fun h => (List.nodup_append.mp ho.nodup).2.2 _ (by simp) _ h rfl
  have hhead : free.head? ≠ some freed := fun h => hffree (List.mem_of_mem_head? h)
  have hlt := ho.lt freed (by simp)
  let m' : Page := ⟨t.metaId, lsn', .metaPage root count (some freed) schema name⟩
  let f' : Page := ⟨freed, lsn, .free free.head?⟩
  have hne : ∀ x, x ≠ t.metaId → x ≠ freed → ((σ.put m').put f').page x = σ.page x := fun x h1 h2 => by
    rw [Store.put_ne _ (p := f') h2, Store.put_ne _ (p := m') h1]
  have hm' : ((σ.put m').put f').page t.metaId = some m' := by
    rw [Store.put_ne _ (p := f') hfm.symm]
    exact Store.put_self _ _
  have hmrep : t.MetaRep ((σ.put m').put f') root count (freed :: free) :=
    ⟨⟨lsn', schema, name, hm', valid_meta hvalid (by simpa using hlt)⟩, ⟨⟨lsn, Store.put_self _ f'⟩,
      hm.chain.congr fun x hx => hne x (ho.ne_meta (by simp [hx])) fun he => hffree (he ▸ hx)⟩⟩
  refine ⟨(σ.put m').put f', hmrep, hne, fun L L' hL hfreed hL' => ?_⟩
  have hmL : t.metaId ∉ L := fun h => hmeta (List.mem_append_left _ (hL _ h))
  have hchange := (@exec_change₂ _ _ σ (t.metaId :: L) m' TableError.page () f') List.mem_cons_self
      (List.mem_cons_of_mem _ hfreed)
  rw [← Page.freeListPush_ok ((ho.table freed (by simp)).trans hroot.symm) (ho.pos freed (by simp)) hlt
    hhead] at hchange
  have hdropMeta := exec_drop (ε := TableError) (σ := (σ.put m').put f') (L := t.metaId :: L)
    List.mem_cons_self fun x =>
      ⟨fun h => ⟨List.mem_cons_of_mem _ h, fun he => hmL (he ▸ h)⟩, fun h => (List.mem_cons.mp h.1).resolve_left h.2⟩
  have hdrop := exec_drop (ε := TableError) (σ := (σ.put m').put f') hfreed hL'
  exact ⟨_, (exec_bpm (exec_fetchWrite hpage hmL)).bind (hchange.bind (hdropMeta.bind hdrop))⟩

end

end Table

end RustDb
