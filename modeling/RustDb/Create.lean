/-
  RustDb.Create — `Table::create` and `Table::open` over the buffer pool.

  Creating installs the root page and the meta page and flushes; opening reads the meta page.
  `create_cases` says where a creation can end. Proved for every pool size, eviction policy
  and lawful disk, from every sound state of the pool:
  - `create_untouched_iff`: a creation that fails leaves the pages as they were, and neither
    page behind, exactly when it fails before the root page is installed. A meta page too
    large to be written shows the difference (`create_leaves_pages`): the flush refuses it
    after both pages were cached.
  - `meta_roundtrip_iff`: a meta page that is written is read back as itself, and a table
    that was created can be opened, exactly when no column name is longer than the reader
    allows. Neither the constructors nor the writer look at that length
    (`longName_unreadable`).
-/

import RustDb.Bpm.Serve
import RustDb.Codec.Safety
import RustDb.Table

namespace RustDb

open Lib

namespace Table

/-! ## Where a creation ends -/

/-- The pages of a new table. -/
def newRoot (tableId : TableId) : Page := Page.emptyLeaf ⟨tableId, 1⟩

def newMeta (tableId : TableId) (schema : Schema) (name : String) : Page :=
  Page.emptyPage ⟨tableId, 0⟩ (.metaPage ⟨tableId, 1⟩ 2 none schema name)

/-- The errors that `create` takes for a table that does not exist. -/
def Vacant (e : Fail BpmError) : Prop := e = .err (.io .unexpectedEof) ∨ e = .err (.io .notFound)

section
variable {S : Type} (H : Prog.Handler PoolOp PoolOp.Res S) (tableId : TableId) (schema : Schema) (name : String)

/-- The requests of a creation that ends, in order. -/
inductive CreateRun : S → Except (Fail TableError) Table → S → Prop where
  | present {s s₁ s' : S} {page : Page} (fetched : H (.fetchRead ⟨tableId, 0⟩) s = some (.ok page, s₁))
      (left : H .unwind s₁ = some ((), s')) : CreateRun s (.error (.err (.alreadyExists tableId))) s'
  | unfetched {s s₁ s' : S} {e : Fail BpmError} (fetched : H (.fetchRead ⟨tableId, 0⟩) s = some (.error e, s₁))
      (other : ¬ Vacant e) (left : H .unwind s₁ = some ((), s')) : CreateRun s (.error (e.map .bpm)) s'
  | unrooted {s s₁ s₂ s' : S} {e e' : Fail BpmError} (fetched : H (.fetchRead ⟨tableId, 0⟩) s = some (.error e, s₁))
      (vacant : Vacant e) (refused : H (.newPage (newRoot tableId)) s₁ = some (.error e', s₂))
      (left : H .unwind s₂ = some ((), s')) : CreateRun s (.error (e'.map .bpm)) s'
  | unmade {s s₁ s₂ s₃ s₄ s' : S} {e e' : Fail BpmError} {root : Page}
      (fetched : H (.fetchRead ⟨tableId, 0⟩) s = some (.error e, s₁)) (vacant : Vacant e)
      (rooted : H (.newPage (newRoot tableId)) s₁ = some (.ok root, s₂))
      (dropped : H (.drop ⟨tableId, 1⟩) s₂ = some ((), s₃))
      (refused : H (.newPage (newMeta tableId schema name)) s₃ = some (.error e', s₄))
      (left : H .unwind s₄ = some ((), s')) : CreateRun s (.error (e'.map .bpm)) s'
  | unflushed {s s₁ s₂ s₃ s₄ s₅ s₆ s' : S} {e e' : Fail BpmError} {root made : Page}
      (fetched : H (.fetchRead ⟨tableId, 0⟩) s = some (.error e, s₁)) (vacant : Vacant e)
      (rooted : H (.newPage (newRoot tableId)) s₁ = some (.ok root, s₂))
      (dropped : H (.drop ⟨tableId, 1⟩) s₂ = some ((), s₃))
      (made : H (.newPage (newMeta tableId schema name)) s₃ = some (.ok made, s₄))
      (dropped' : H (.drop ⟨tableId, 0⟩) s₄ = some ((), s₅))
      (refused : H .flushAll s₅ = some (.error e', s₆)) (left : H .unwind s₆ = some ((), s')) :
      CreateRun s (.error (e'.map .bpm)) s'
  | created {s s₁ s₂ s₃ s₄ s₅ s' : S} {e : Fail BpmError} {root made : Page}
      (fetched : H (.fetchRead ⟨tableId, 0⟩) s = some (.error e, s₁)) (vacant : Vacant e)
      (rooted : H (.newPage (newRoot tableId)) s₁ = some (.ok root, s₂))
      (dropped : H (.drop ⟨tableId, 1⟩) s₂ = some ((), s₃))
      (made : H (.newPage (newMeta tableId schema name)) s₃ = some (.ok made, s₄))
      (dropped' : H (.drop ⟨tableId, 0⟩) s₄ = some ((), s₅))
      (flushed : H .flushAll s₅ = some (.ok (), s')) : CreateRun s (.ok ⟨⟨tableId, 0⟩, schema, name⟩) s'

variable {H tableId schema name}

theorem run_attempt {ε α : Type} {p : Call ε α} {s s' : S} {r : Except (Fail TableError) (Except (Fail ε) α)}
    (h : Prog.run H (attempt p).run s = some (r, s')) : ∃ r₁, Prog.run H p.run s = some (r₁, s') ∧ r = .ok r₁ := by
  have hbind := Prog.run_bind (H := H) p.run (fun x => pure (Except.ok (ε := Fail TableError) x)) s
  have hrun : Prog.run H (attempt p).run s = (Prog.run H p.run s).bind fun x => some (.ok x.1, x.2) := hbind
  rw [hrun] at h
  obtain ⟨x, hx, he⟩ := Option.bind_eq_some_iff.mp h
  cases he
  exact ⟨x.1, hx, rfl⟩

/-- A request with `?`. -/
theorem run_bpm {α : Type} {p : Call BpmError α} {s s' : S} {r : Except (Fail TableError) α}
    (h : Prog.run H (bpm p).run s = some (r, s')) :
    ∃ r₁, Prog.run H p.run s = some (r₁, s') ∧ r = r₁.mapError (Fail.map .bpm) := by
  rw [bpm, Call.run_mapErr] at h
  obtain ⟨x, hx, he⟩ := Option.map_eq_some_iff.mp h
  cases he
  exact ⟨x.1, hx, rfl⟩

theorem run_fetchRead (id : PageId) (s : S) : Prog.run H (Call.fetchRead id).run s = H (.fetchRead id) s :=
    Prog.run_request _ s

theorem run_newPage (page : Page) (s : S) : Prog.run H (Call.newPage page).run s = H (.newPage page) s :=
    Prog.run_request _ s

theorem run_flushAll (s : S) : Prog.run H Call.flushAll.run s = H .flushAll s := Prog.run_request _ s

/-- A request with `?` that is answered: the call fails with its error, or goes on. -/
theorem run_bpm_bind {α β : Type} {p : Call BpmError α} {f : α → TB β} {s s' : S} {r : Except (Fail TableError) β}
    (h : Prog.run H (bpm p >>= f).run s = some (r, s')) :
    (∃ e, Prog.run H p.run s = some (.error e, s') ∧ r = .error (e.map .bpm)) ∨
      ∃ a s₁, Prog.run H p.run s = some (.ok a, s₁) ∧ Prog.run H (f a).run s₁ = some (r, s') := by
  rcases Prog.run_bind_cases h with ⟨e, hp, rfl⟩ | ⟨a, s₁, hp, hf⟩
  · obtain ⟨_ | _, hrun, he⟩ := run_bpm hp
    · cases he
      exact Or.inl ⟨_, hrun, rfl⟩
    · cases he
  · obtain ⟨_ | _, hrun, he⟩ := run_bpm hp
    · cases he
    · cases he
      exact Or.inr ⟨_, s₁, hrun, hf⟩

theorem run_newPage_bind {β : Type} {page : Page} {f : Page → TB β} {s s' : S} {r : Except (Fail TableError) β}
    (h : Prog.run H (bpm (Call.newPage page) >>= f).run s = some (r, s')) :
    (∃ e, H (.newPage page) s = some (.error e, s') ∧ r = .error (e.map .bpm)) ∨
      ∃ a s₁, H (.newPage page) s = some (.ok a, s₁) ∧ Prog.run H (f a).run s₁ = some (r, s') := by
  have hcases := run_bpm_bind h
  rwa [run_newPage] at hcases

theorem run_flushAll_bind {β : Type} {f : Unit → TB β} {s s' : S} {r : Except (Fail TableError) β}
    (h : Prog.run H (bpm Call.flushAll >>= f).run s = some (r, s')) :
    (∃ e, H .flushAll s = some (.error e, s') ∧ r = .error (e.map .bpm)) ∨
      ∃ a s₁, H .flushAll s = some (.ok a, s₁) ∧ Prog.run H (f a).run s₁ = some (r, s') := by
  have hcases := run_bpm_bind h
  rwa [run_flushAll] at hcases

theorem run_drop_bind {β : Type} {id : PageId} {f : Unit → TB β} {s s' : S} {r : Except (Fail TableError) β}
    (h : Prog.run H (Call.drop id >>= f).run s = some (r, s')) :
    ∃ s₁, H (.drop id) s = some ((), s₁) ∧ Prog.run H (f ()).run s₁ = some (r, s') := by
  rcases Prog.run_bind_cases h with ⟨e, hp, -⟩ | ⟨a, s₁, hp, hf⟩
  · obtain ⟨a, -, he⟩ := Call.run_lift_ok (o := .drop id) hp
    cases he
  · obtain ⟨a, hd, -⟩ := Call.run_lift_ok (o := .drop id) hp
    exact ⟨s₁, hd, hf⟩

/-- What `create` does once no table was found. -/
def createPages (tableId : TableId) (schema : Schema) (name : String) : TB Table := do
  let _ ← bpm (Call.newPage (newRoot tableId))
  Call.drop ⟨tableId, 1⟩
  let _ ← bpm (Call.newPage (newMeta tableId schema name))
  Call.drop ⟨tableId, 0⟩
  bpm Call.flushAll
  return ⟨⟨tableId, 0⟩, schema, name⟩

/-- How `create` goes on after its first fetch. -/
def createAfter (tableId : TableId) (schema : Schema) (name : String) : Except (Fail BpmError) Page → TB Table
  | .ok _ => throw (.err (.alreadyExists tableId))
  | .error (.err (.io .unexpectedEof)) | .error (.err (.io .notFound)) => createPages tableId schema name
  | .error e => throw (e.map .bpm)

theorem create_eq : create tableId schema name =
    Call.unwinding (attempt (Call.fetchRead ⟨tableId, 0⟩) >>= createAfter tableId schema name) := by
  have hafter : createAfter tableId schema name = fun r => createAfter tableId schema name r := rfl
  rw [hafter]
  unfold create createAfter createPages
  rfl

theorem createAfter_vacant {e : Fail BpmError} (h : Vacant e) :
    createAfter tableId schema name (.error e) = createPages tableId schema name := by
  rcases h with rfl | rfl <;> rfl

theorem createAfter_other {e : Fail BpmError} (h : ¬ Vacant e) :
    createAfter tableId schema name (.error e) = throw (e.map .bpm) := by
  unfold createAfter
  split
  · rename_i he; cases he
  · rename_i he; cases he; exact absurd (Or.inl rfl) h
  · rename_i he; cases he; exact absurd (Or.inr rfl) h
  · rename_i he; cases he; rfl

theorem create_cases {s s' : S} {r : Except (Fail TableError) Table}
    (h : Prog.run H (create tableId schema name).run s = some (r, s')) : CreateRun H tableId schema name s r s' := by
  rw [create_eq] at h
  rcases Call.run_unwinding_cases h with ⟨t, hrun, rfl⟩ | ⟨e₀, s₀, hrun, left, rfl⟩
  · rcases Prog.run_bind_cases hrun with ⟨e, -, he⟩ | ⟨x, s₁, hfetch, hrun⟩
    · cases he
    obtain ⟨r₁, fetched, hx⟩ := run_attempt hfetch
    cases hx
    rw [run_fetchRead] at fetched
    cases x with
    | ok page => cases hrun
    | error e =>
      by_cases hvacant : Vacant e
      · rw [createAfter_vacant hvacant] at hrun
        rcases run_newPage_bind hrun with ⟨e', -, he⟩ | ⟨root, s₂, rooted, hrun⟩
        · cases he
        obtain ⟨s₃, dropped, hrun⟩ := run_drop_bind hrun
        rcases run_newPage_bind hrun with ⟨e', -, he⟩ | ⟨made, s₄, hmade, hrun⟩
        · cases he
        obtain ⟨s₅, dropped', hrun⟩ := run_drop_bind hrun
        rcases run_flushAll_bind hrun with ⟨e', -, he⟩ | ⟨u, s₆, hflush, hrun⟩
        · cases he
        cases hrun
        exact .created fetched hvacant rooted dropped hmade dropped' hflush
      · rw [createAfter_other hvacant] at hrun
        cases hrun
  · rcases Prog.run_bind_cases hrun with ⟨e, hfetch, -⟩ | ⟨x, s₁, hfetch, hrun⟩
    · obtain ⟨r₁, -, hx⟩ := run_attempt hfetch
      cases hx
    obtain ⟨r₁, fetched, hx⟩ := run_attempt hfetch
    cases hx
    rw [run_fetchRead] at fetched
    cases x with
    | ok page =>
      cases hrun
      exact .present fetched left
    | error e =>
      by_cases hvacant : Vacant e
      · rw [createAfter_vacant hvacant] at hrun
        rcases run_newPage_bind hrun with ⟨e', refused, he⟩ | ⟨root, s₂, rooted, hrun⟩
        · cases he
          exact .unrooted fetched hvacant refused left
        obtain ⟨s₃, dropped, hrun⟩ := run_drop_bind hrun
        rcases run_newPage_bind hrun with ⟨e', refused, he⟩ | ⟨made, s₄, hmade, hrun⟩
        · cases he
          exact .unmade fetched hvacant rooted dropped refused left
        obtain ⟨s₅, dropped', hrun⟩ := run_drop_bind hrun
        rcases run_flushAll_bind hrun with ⟨e', refused, he⟩ | ⟨u, s₆, hflush, hrun⟩
        · cases he
          exact .unflushed fetched hvacant rooted dropped hmade dropped' refused left
        cases hrun
      · rw [createAfter_other hvacant] at hrun
        cases hrun
        exact .unfetched fetched hvacant left

/-- The requests of a creation up to its flush. -/
def CreateReaches (H : Prog.Handler PoolOp PoolOp.Res S) (tableId : TableId) (schema : Schema) (name : String)
    (s s₅ : S) : Prop :=
  ∃ e s₁ root s₂ s₃ made s₄, H (.fetchRead ⟨tableId, 0⟩) s = some (.error e, s₁) ∧ Vacant e ∧
    H (.newPage (newRoot tableId)) s₁ = some (.ok root, s₂) ∧ H (.drop ⟨tableId, 1⟩) s₂ = some ((), s₃) ∧
    H (.newPage (newMeta tableId schema name)) s₃ = some (.ok made, s₄) ∧ H (.drop ⟨tableId, 0⟩) s₄ = some ((), s₅)

theorem run_createPages {s s₅ : S} (h : CreateReaches H tableId schema name s s₅) {r : Except (Fail BpmError) Unit} {s₆ : S}
    (flushed : H .flushAll s₅ = some (r, s₆)) :
    Prog.run H (attempt (Call.fetchRead ⟨tableId, 0⟩) >>= createAfter tableId schema name).run s =
      some ((r.mapError (Fail.map .bpm)).map fun _ => ⟨⟨tableId, 0⟩, schema, name⟩, s₆) := by
  obtain ⟨e, s₁, root, s₂, s₃, made, s₄, fetched, vacant, rooted, dropped, hmade, dropped'⟩ := h
  show Prog.run H (.op (.fetchRead ⟨tableId, 0⟩) _) s = _
  simp only [Prog.run, fetched]
  show Prog.run H (createAfter tableId schema name (.error e)).run s₁ = _
  rw [createAfter_vacant vacant]
  show Prog.run H (.op (.newPage (newRoot tableId)) _) s₁ = _
  simp only [Prog.run, rooted]
  show Prog.run H (.op (.drop ⟨tableId, 1⟩) _) s₂ = _
  simp only [Prog.run, dropped]
  show Prog.run H (.op (.newPage (newMeta tableId schema name)) _) s₃ = _
  simp only [Prog.run, hmade]
  show Prog.run H (.op (.drop ⟨tableId, 0⟩) _) s₄ = _
  simp only [Prog.run, dropped']
  show Prog.run H (.op .flushAll _) s₅ = _
  simp only [Prog.run, flushed]
  cases r <;> rfl

/-- A creation whose flush is refused. -/
theorem run_unflushed {s s₅ s₆ s' : S} (h : CreateReaches H tableId schema name s s₅) {e : Fail BpmError}
    (refused : H .flushAll s₅ = some (.error e, s₆)) (left : H .unwind s₆ = some ((), s')) :
    Prog.run H (create tableId schema name).run s = some (.error (e.map .bpm), s') := by
  have hrun := run_createPages h refused
  have hunwind := Prog.run_bind (H := H) (attempt (Call.fetchRead ⟨tableId, 0⟩) >>= createAfter tableId schema name).run
      Call.leave s
  rw [hrun] at hunwind
  rw [create_eq]
  refine hunwind.trans ?_
  show Prog.run H (.op .unwind _) s₆ = _
  simp only [Prog.run, left]
  rfl

/-- A creation that is flushed. -/
theorem run_flushed {s s₅ s' : S} (h : CreateReaches H tableId schema name s s₅)
    (flushed : H .flushAll s₅ = some (.ok (), s')) :
    Prog.run H (create tableId schema name).run s = some (.ok ⟨⟨tableId, 0⟩, schema, name⟩, s') := by
  have hrun := run_createPages h flushed
  have hunwind := Prog.run_bind (H := H) (attempt (Call.fetchRead ⟨tableId, 0⟩) >>= createAfter tableId schema name).run
      Call.leave s
  rw [hrun] at hunwind
  rw [create_eq]
  exact hunwind

end

section
variable {S : Type} {H : Prog.Handler PoolOp PoolOp.Res S} {tableId : TableId}

/-- Opening a table reads its meta page. -/
theorem open_fetched {s s' : S} {t : Table} (h : Prog.run H (Table.open tableId).run s = some (.ok t, s')) :
    ∃ page s₁, H (.fetchRead ⟨tableId, 0⟩) s = some (.ok page, s₁) := by
  rcases Call.run_unwinding_cases h with ⟨a, hrun, -⟩ | ⟨e, s₁, -, -, he⟩
  · rcases run_bpm_bind hrun with ⟨e, -, he⟩ | ⟨page, s₁, hfetch, -⟩
    · cases he
    · rw [run_fetchRead] at hfetch
      exact ⟨page, s₁, hfetch⟩
  · cases he

theorem run_open {s s₁ s' : S} {page : Page} {schema : Schema} {name : String}
    (fetched : H (.fetchRead ⟨tableId, 0⟩) s = some (.ok page, s₁)) (hschema : page.metaGetSchema = .ok schema)
    (hname : page.metaGetTableName = .ok name) (dropped : H (.drop page.pageId) s₁ = some ((), s')) :
    Prog.run H (Table.open tableId).run s = some (.ok ⟨page.pageId, schema, name⟩, s') := by
  rcases page with ⟨id, lsn, _ | _ | ⟨root, count, flh, schema', name'⟩ | _⟩
  · cases hschema
  · cases hschema
  · cases hschema
    cases hname
    show Prog.run H (.op (.fetchRead ⟨tableId, 0⟩) _) s = _
    simp only [Prog.run, fetched]
    show Prog.run H (.op (.drop id) _) s₁ = _
    simp only [Prog.run]
    rw [dropped]
    rfl
  · cases hschema

end

/-- A meta page whose table name alone is larger than a page is not written. -/
theorem newMeta_tooLarge (P : Platform) {tableId : TableId} {schema : Schema} {name : String}
    (h : pageSize < name.utf8ByteSize) :
    (newMeta tableId schema name).asRawPage P = .err (.corrupt (some ⟨tableId, 0⟩) .exceedsCapacity) := by
  have hspace : (newMeta tableId schema name).freeSpace = none := by
    unfold Page.freeSpace
    refine if_neg ?_
    simp only [newMeta, Page.emptyPage, Page.usedSize]
    omega
  have hcheck : (newMeta tableId schema name).checkInvariants = .error .exceedsCapacity := by
    unfold Page.checkInvariants
    rw [hspace]
    rfl
  simp only [Page.asRawPage, hcheck]
  rfl

end Table

namespace Bpm

namespace Session

open Table

variable {n : Nat} {σ δ : Type} (D : DiskManager δ) (E : EvictionPolicy n σ) (P : Platform)

/-! ## Creations that fail -/

/-- The first page of the new table is installed: no table was found, and its root page got a
    frame. -/
def RootInstalled (tableId : TableId) (s : Session n σ δ) : Prop :=
  ∃ e f s₁ s₂, s.fetchRead D E P ⟨tableId, 0⟩ = some (.error e, s₁) ∧ Vacant e ∧
    s₁.newPage D E P (newRoot tableId) = (.ok (some f), s₂)

/-- Pool and disk hold what they held before a call that failed with `e`: the same pages, the
    same of them to be flushed but for what is on the disk now, none of the new table's pages
    in the pool, and a later creation is not told that the table exists. -/
structure Untouched (content : δ → PageId → Option (List UInt8)) (tableId : TableId) (s s' : Session n σ δ)
    (e : Fail TableError) :
    Prop where
  logical : ∀ id, s'.pool.logical P content id = s.pool.logical P content id
  pending : ∀ page, s'.pool.Pending page → s.pool.Pending page
  flushed : ∀ page, s.pool.Pending page → s'.pool.Pending page ∨ diskPage P (content s'.pool.disk) page.pageId = some page
  uncached : e ≠ .err (.alreadyExists tableId) → ∀ id ∈ [(⟨tableId, 0⟩ : PageId), ⟨tableId, 1⟩],
    s.pool.pageTable id = none → s'.pool.pageTable id = none
  retried : e ≠ .err (.alreadyExists tableId) → s.pool.logical P content ⟨tableId, 0⟩ = none →
    ∀ schema name r s'', s'.call D E P (Table.create tableId schema name) = some (r, s'') →
    r ≠ .error (.err (.alreadyExists tableId))

variable {D E P} {content : δ → PageId → Option (List UInt8)} {s s' : Session n σ δ} {m : PageId → Option Page}
  {tableId : TableId} {schema : Schema} {name : String}

theorem map_bpm_ne (e : Fail BpmError) : e.map TableError.bpm ≠ .err (.alreadyExists tableId) := by
  cases e with
  | err e =>
    intro he
    cases he
  | panic | outOfFuel =>
    intro he
    cases he

/-- A creation says that the table exists only if its meta page does. -/
theorem create_exists (hD : D.Lawful P content) (h : s.Sound) (hm : Mirror P content s.pool m) 
    (hcreate : s.call D E P (Table.create tableId schema name) = some (.error (.err (.alreadyExists tableId)), s')) :
    ∃ page, m ⟨tableId, 0⟩ = some page := by
  generalize hr : (.error (.err (.alreadyExists tableId)) : Except (Fail TableError) Table) = r at hcreate
  have other (e : Fail BpmError) (he : r = .error (e.map .bpm)) : False :=
    map_bpm_ne e (Except.error.inj (hr.trans he)).symm
  cases create_cases hcreate with
  | present fetched left =>
    rcases serve_fetchRead hD h hm fetched with ⟨e, he, -⟩ | ⟨f, page, -, -, hpage⟩
    · cases he
    · exact ⟨page, hpage⟩
  | unfetched fetched other' left => exact (other _ rfl).elim
  | unrooted fetched vacant refused left => exact (other _ rfl).elim
  | unmade fetched vacant rooted dropped refused left => exact (other _ rfl).elim
  | unflushed fetched vacant rooted dropped made dropped' refused left => exact (other _ rfl).elim
  | created fetched vacant rooted dropped made dropped' flushed => cases hr

/-- What keeps everything leaves the pages untouched. -/
theorem Untouched.of_kept (hD : D.Lawful P content) (h' : s'.Sound) (hm : Mirror P content s.pool m)
    (hkept : s.pool.Kept content s'.pool)
    (e : Fail TableError) : Untouched D E P content tableId s s' e where
  logical := hkept.logical
  pending page := (hkept.pending page).mp
  flushed page hp := Or.inl ((hkept.pending page).mpr hp)
  uncached _ id _ hnone := by rw [hkept.table, hnone]
  retried _ hnone schema name r s'' hcall hr := by
    subst hr
    obtain ⟨page, hpage⟩ := create_exists hD h' (hm.kept hkept) hcall
    rw [hm.logical, hpage] at hnone
    cases hnone

/-- A creation that fails before its root page is installed leaves the pages untouched. -/
theorem create_untouched (hD : D.Lawful P content) (h : s.Sound) (hm : Mirror P content s.pool m) {e : Fail TableError}
    (hcreate : s.call D E P (Table.create tableId schema name) = some (.error e, s'))
    (hroot : ¬ RootInstalled D E P tableId s) :
    Untouched D E P content tableId s s' e := by
  generalize hr : (.error e : Except (Fail TableError) Table) = r at hcreate
  have fetched_kept {e : Fail BpmError} {s₁ : Session n σ δ}
      (hfetch : s.fetchRead D E P ⟨tableId, 0⟩ = some (.error e, s₁)) :
      s₁.Sound ∧ s.pool.Kept content s₁.pool ∧ s₁.guards = s.guards :=
    ⟨fetch_sound h (reads_own hD hm _) hfetch, (fetch_error hD h hm hfetch).2, fetch_error_guards hfetch⟩
  have rooted_installed {e : Fail BpmError} {s₁ s₂ : Session n σ δ} {root : Page}
      (fetched : serve D E P s.guards.length (.fetchRead ⟨tableId, 0⟩) s = some (.error e, s₁)) (vacant : Vacant e)
      (rooted : serve D E P s.guards.length (.newPage (newRoot tableId)) s₁ = some (.ok root, s₂)) : RootInstalled D E P
      tableId s := by
    rcases serve_fetchRead hD h hm fetched with ⟨e', he, hfetch⟩ | ⟨f, page, he, -, -⟩
    · cases he
      rcases serve_newPage rooted with ⟨e', he, -⟩ | ⟨f, -, hnew⟩
      · cases he
      · exact ⟨_, f, s₁, s₂, hfetch, vacant, hnew⟩
    · cases he
  cases create_cases hcreate with
  | present fetched left =>
    cases hr
    rcases serve_fetchRead hD h hm fetched with ⟨e', he, -⟩ | ⟨f, page, -, hfetch, -⟩
    · cases he
    obtain ⟨f', b, latch, -, -, heq⟩ := fetch_ok hfetch
    rw [serve_unwind_one (congrArg Session.guards heq)] at left
    obtain ⟨⟨r, s₂⟩, hdrop, hs₂⟩ := Option.map_eq_some_iff.mp left
    cases hs₂
    obtain ⟨hkept, -⟩ := drop_kept content hdrop
    have hdisk := drop_disk hdrop
    have hm₁ := (fetch_mirror hD h hm hfetch).1
    refine ⟨fun id => ?_, fun page hp => ?_, fun page hp => ?_, fun hne => absurd rfl hne, fun hne => absurd rfl hne⟩
    · rw [hkept.logical, hm₁.logical, hm.logical]
    · exact (fetch_pending hD h hm hfetch page).1 ((hkept.pending page).mp hp)
    · rcases (fetch_pending hD h hm hfetch page).2 hp with hp | hp
      · exact Or.inl ((hkept.pending page).mpr hp)
      · exact Or.inr (hdisk ▸ hp)
  | unfetched fetched other left =>
    rcases serve_fetchRead hD h hm fetched with ⟨e', he, hfetch⟩ | ⟨f, page, he, -, -⟩
    · obtain ⟨h₁, hkept, hguards⟩ := fetched_kept hfetch
      rw [serve_unwind_same (congrArg List.length hguards)] at left
      cases left
      exact Untouched.of_kept hD h₁ hm hkept e
    · cases he
  | unrooted fetched vacant refused left =>
    rcases serve_fetchRead hD h hm fetched with ⟨e', he, hfetch⟩ | ⟨f, page, he, -, -⟩
    · obtain ⟨h₁, hkept, hguards⟩ := fetched_kept hfetch
      rcases serve_newPage refused with ⟨e₂, -, hnew⟩ | ⟨f, he₂, -⟩
      · obtain ⟨hkept₂, hguards₂, h₂⟩ := newPage_error hD h₁ (hm.kept hkept).empty hnew
        rw [serve_unwind_same (congrArg List.length (hguards₂.trans hguards))] at left
        cases left
        exact Untouched.of_kept hD h₂ hm (hkept.trans hkept₂) e
      · cases he₂
    · cases he
  | unmade fetched vacant rooted dropped refused left => exact absurd (rooted_installed fetched vacant rooted) hroot
  | unflushed fetched vacant rooted dropped made dropped' refused left =>
    exact absurd (rooted_installed fetched vacant rooted) hroot
  | created fetched vacant rooted dropped made dropped' flushed => cases hr

/-- A creation that fails after its root page was installed leaves one of the two pages in the
    pool. -/
theorem create_cached (hD : D.Lawful P content) (h : s.Sound) (hm : Mirror P content s.pool m) {e : Fail TableError}
    (hcreate : s.call D E P (Table.create tableId schema name) = some (.error e, s'))
    (hroot : RootInstalled D E P tableId s) :
    e ≠ .err (.alreadyExists tableId) ∧ ∃ id ∈ [(⟨tableId, 0⟩ : PageId), ⟨tableId, 1⟩],
      s.pool.pageTable id = none ∧ s'.pool.pageTable id ≠ none := by
  obtain ⟨e₁, f, s₁, s₂, hfetch, hvacant, hnew⟩ := hroot
  obtain ⟨habsent, hkept₁⟩ := fetch_error hD h hm hfetch
  have hguards₁ : s₁.guards = s.guards := fetch_error_guards hfetch
  have h₁ : s₁.Sound := fetch_sound h (reads_own hD hm _) hfetch
  obtain ⟨f', hf', hguards₂, -, hmap₂, hnone₁⟩ := newPage_ok hnew
  cases hf'
  have hnone : s.pool.pageTable ⟨tableId, 1⟩ = none := hkept₁.table ▸ hnone₁
  have h₂ : s₂.Sound := newPage_sound h₁ hnew (by intro he; cases he)
  have found {e : Fail BpmError} {t : Session n σ δ}
      (fetched : serve D E P s.guards.length (.fetchRead ⟨tableId, 0⟩) s = some (.error e, t)) : t = s₁ := by
    rcases serve_fetchRead hD h hm fetched with ⟨e', -, hfetch'⟩ | ⟨f, page, he, -, -⟩
    · cases hfetch.symm.trans hfetch'
      rfl
    · cases he
  have installed {root : Page} {t : Session n σ δ}
      (rooted : serve D E P s.guards.length (.newPage (newRoot tableId)) s₁ = some (.ok root, t)) : t = s₂ := by
    rcases serve_newPage rooted with ⟨e', he, -⟩ | ⟨f, -, hnew'⟩
    · cases he
    · cases hnew.symm.trans hnew'
      rfl
  -- the root's guard is dropped: the page stays mapped
  have dropped_root {t : Session n σ δ} (dropped : serve D E P s.guards.length (.drop ⟨tableId, 1⟩) s₂ = some ((), t)) :
      t.Sound ∧ t.pool.pageTable ⟨tableId, 1⟩ = some f ∧ t.guards = s.guards ∧
        ∀ f ∈ t.pool.freeFrames, (t.pool.frames f).page = none := by
    obtain ⟨hdrop, hkept, hguards⟩ := serve_drop content hguards₂ hmap₂ dropped
    exact ⟨drop_sound h₂ hdrop, hkept.table ▸ hmap₂, hguards.trans hguards₁,
      hkept.empty (newPage_free h₁ hnew (hm.kept hkept₁).empty)⟩
  generalize hr : (.error e : Except (Fail TableError) Table) = r at hcreate
  cases create_cases hcreate with
  | present fetched left =>
    rcases serve_fetchRead hD h hm fetched with ⟨e', he, -⟩ | ⟨f, page, -, hfetch', -⟩
    · cases he
    · cases hfetch.symm.trans hfetch'
  | unfetched fetched other left =>
    rcases serve_fetchRead hD h hm fetched with ⟨e', he, hfetch'⟩ | ⟨f, page, he, -, -⟩
    · cases he
      cases hfetch.symm.trans hfetch'
      exact absurd hvacant other
    · cases he
  | unrooted fetched vacant refused left =>
    cases found fetched
    rcases serve_newPage refused with ⟨e', -, hnew'⟩ | ⟨f, he, -⟩
    · cases hnew.symm.trans hnew'
    · cases he
  | unmade fetched vacant rooted dropped refused left =>
    cases hr
    cases found fetched
    cases installed rooted
    obtain ⟨h₃, hmap₃, hguards₃, hfree₃⟩ := dropped_root dropped
    rcases serve_newPage refused with ⟨e', -, hnew'⟩ | ⟨f, he, -⟩
    · obtain ⟨hkept, hguards, -⟩ := newPage_error hD h₃ hfree₃ hnew'
      rw [serve_unwind_same (congrArg List.length (hguards.trans hguards₃))] at left
      cases left
      refine ⟨map_bpm_ne _, ⟨tableId, 1⟩, by simp, hnone, ?_⟩
      rw [hkept.table, hmap₃]
      exact Option.some_ne_none f
    · cases he
  | unflushed fetched vacant rooted dropped made dropped' refused left =>
    cases hr
    cases found fetched
    cases installed rooted
    obtain ⟨h₃, hmap₃, hguards₃, -⟩ := dropped_root dropped
    rcases serve_newPage made with ⟨e', he, -⟩ | ⟨g, -, hnew'⟩
    · cases he
    obtain ⟨g', hg', hguards₄, -, hmap₄, -⟩ := newPage_ok hnew'
    cases hg'
    obtain ⟨-, hkept, hguards₅⟩ := serve_drop content hguards₄ hmap₄ dropped'
    obtain ⟨⟨r, b⟩, hflush, heq⟩ := Option.map_eq_some_iff.mp refused
    cases heq
    cases left.symm.trans (serve_unwind_same (congrArg List.length (hguards₅.trans hguards₃)))
    refine ⟨map_bpm_ne _, ⟨tableId, 0⟩, by simp, habsent, ?_⟩
    show b.pageTable ⟨tableId, 0⟩ ≠ none
    rw [(Pool.flushAll_spec hflush).1.same.1, hkept.table]
    exact hmap₄.symm ▸ Option.some_ne_none g
  | created fetched vacant rooted dropped made dropped' flushed => cases hr

/-- A creation that fails leaves pool and disk as they were exactly when it fails before its
    root page is installed. -/
theorem create_untouched_iff (hD : D.Lawful P content) (h : s.Sound) (hm : Mirror P content s.pool m) {e : Fail TableError}
    (hcreate : s.call D E P (Table.create tableId schema name) = some (.error e, s')) :
    Untouched D E P content tableId s s' e ↔ ¬ RootInstalled D E P tableId s := by
  refine ⟨fun hsame hroot => ?_, create_untouched hD h hm hcreate⟩
  obtain ⟨hne, id, hid, hnone, hcached⟩ := create_cached hD h hm hcreate hroot
  exact hcached (hsame.uncached hne id hid hnone)

/-- A page on the disk can be written again. -/
theorem diskPage_encodes {content : PageId → Option (List UInt8)} {id : PageId} {page : Page}
    (h : diskPage P content id = some page) : ∃ raw, page.asRawPage P = .ok raw := by
  obtain ⟨bytes, -, hbytes⟩ := Option.bind_eq_some_iff.mp h
  cases hread : Page.deserialize P bytes with
  | error e =>
    rw [hread] at hbytes
    cases hbytes
  | ok q =>
    rw [hread] at hbytes
    cases hbytes
    unfold Page.deserialize at hread
    split at hread
    · cases hread
    · obtain ⟨raw, hraw, -⟩ := Page.roundtrip (P := P) (show pageSize ≤ isizeMax by decide)
        (Page.deserialize_encodable hread)
      exact ⟨raw, hraw⟩

/-- A flush after a call that left the pages alone succeeds just where one before it would. -/
theorem Untouched.flush_alike (hD : D.Writes) {e : Fail TableError} (huntouched : Untouched D E P content tableId s s' e)
    {r r' : Except (Fail BpmError) Unit} {b b' : Pool n σ δ} (hflush : s.pool.flushAll D P = some (r, b))
    (hflush' : s'.pool.flushAll D P = some (r', b')) : r' = .ok () ↔ r = .ok () := by
  rw [Pool.flushAll_ok_iff hD hflush, Pool.flushAll_ok_iff hD hflush']
  constructor
  · intro hall page hpending
    rcases huntouched.flushed page hpending with hpending' | hdisk
    · exact hall page hpending'
    · exact diskPage_encodes hdisk
  · intro hall page hpending
    exact hall page (huntouched.pending page hpending)

/-! ## A name that is too long -/

/-- An empty pool of two frames over an empty disk. -/
def vacantPool : Session 2 (Fin 2) (PageId → Option (List UInt8)) := new (fun _ => none) 0

/-- The pool with the root of table 1 installed, and its guard dropped. -/
def rootPool : Session 2 (Fin 2) (PageId → Option (List UInt8)) :=
  (vacantPool.newPage (mapDisk .standard) (replacer Nat.two_pos) .standard (newRoot ⟨1⟩)).2

def rootDropped : Session 2 (Fin 2) (PageId → Option (List UInt8)) :=
    ⟨(rootPool.pool.setLatch 1 (.readers 0)).unpinFrame 1, []⟩

/-- The pool with the meta page installed after that, and its guard dropped. -/
def metaPool (name : String) : Session 2 (Fin 2) (PageId → Option (List UInt8)) :=
  (rootDropped.newPage (mapDisk .standard) (replacer Nat.two_pos) .standard (newMeta ⟨1⟩ idSchema name)).2

def metaDropped (name : String) : Session 2 (Fin 2) (PageId → Option (List UInt8)) :=
  ⟨((metaPool name).pool.setLatch 0 (.readers 0)).unpinFrame 0, []⟩

theorem metaDropped_flush {name : String} {e : Fail PageError}
    (h : (newMeta ⟨1⟩ idSchema name).asRawPage .standard = .error e) :
    (metaDropped name).pool.flushAll (mapDisk .standard) .standard =
    some (.error (e.map .page), (metaDropped name).pool) := by
  have hframe : (metaDropped name).pool.frames 0 = ⟨some (newMeta ⟨1⟩ idSchema name), 0, true, .readers 0⟩ := rfl
  have hflush : (metaDropped name).pool.flushFrame (mapDisk .standard) .standard 0 =
      (.error (e.map .page), (metaDropped name).pool) := by
    simp only [Pool.flushFrame, hframe, h, if_true]
  have hfins : List.finRange 2 = [0, 1] := by decide
  have hloop : (metaDropped name).pool.flushFrames (mapDisk .standard) .standard (List.finRange 2) =
      some (.error (e.map .page), (metaDropped name).pool) := by
    simp only [hfins, Pool.flushFrames, hframe, hflush]
    rfl
  simp only [Pool.flushAll, hloop, Option.map_some]

theorem metaDropped_reached (name : String) :
    CreateReaches (serve (mapDisk .standard) (replacer Nat.two_pos) .standard 0) ⟨1⟩ idSchema name vacantPool
    (metaDropped name) :=
  ⟨_, vacantPool, _, rootPool, rootDropped, _, metaPool name, rfl, Or.inr rfl, rfl, rfl, rfl, rfl⟩

theorem create_refused {name : String} {e : Fail PageError}
    (h : (newMeta ⟨1⟩ idSchema name).asRawPage .standard = .error e) :
    vacantPool.call (mapDisk .standard) (replacer Nat.two_pos) .standard (Table.create ⟨1⟩ idSchema name) =
      some (.error ((e.map .page).map .bpm), metaDropped name) := by
  have hflush : serve (mapDisk .standard) (replacer Nat.two_pos) .standard 0 .flushAll (metaDropped name) =
      some (.error (e.map .page), metaDropped name) := by
    simp only [serve, metaDropped_flush h, Option.map_some]
  exact run_unflushed (metaDropped_reached name) hflush rfl

theorem vacantPool_mirror : Mirror .standard (fun disk => disk) vacantPool.pool (diskPage .standard fun _ => none) :=
  new_mirror (by intro id page h; cases h) 0

theorem create_untouched_iff_vacant : ∃ e, vacantPool.call (mapDisk .standard) (replacer Nat.two_pos) .standard
      (Table.create ⟨1⟩ idSchema (longString 'x' 5000)) = some (.error e, metaDropped (longString 'x' 5000)) ∧
    (Untouched (mapDisk .standard) (replacer Nat.two_pos) .standard (fun disk => disk) ⟨1⟩ vacantPool
      (metaDropped (longString 'x' 5000)) e ↔ ¬ RootInstalled (mapDisk .standard) (replacer Nat.two_pos) .standard
      ⟨1⟩ vacantPool) := by
  have hlong : pageSize < (longString 'x' 5000).utf8ByteSize := by
    rw [size_longString (by decide), const_pageSize]
    decide
  have hcreate := create_refused (newMeta_tooLarge .standard hlong)
  exact ⟨_, hcreate, create_untouched_iff mapDisk_lawful (new_sound _ _) vacantPool_mirror hcreate⟩

/-- A table whose name does not fit its meta page: the creation fails, its root page is in the
    pool, and the pool can no longer be flushed. -/
theorem create_leaves_pages : ∃ e s', vacantPool.call (mapDisk .standard) (replacer Nat.two_pos) .standard
      (Table.create ⟨1⟩ idSchema (longString 'x' 5000)) = some (.error (.err e), s') ∧
    vacantPool.pool.logical .standard (fun disk => disk) ⟨⟨1⟩, 1⟩ = none ∧
    s'.pool.logical .standard (fun disk => disk) ⟨⟨1⟩, 1⟩ = some (newRoot ⟨1⟩) ∧
    (∃ b, vacantPool.pool.flushAll (mapDisk .standard) .standard = some (.ok (), b)) ∧
    ∃ e b, s'.pool.flushAll (mapDisk .standard) .standard = some (.error e, b) := by
  have hlong : pageSize < (longString 'x' 5000).utf8ByteSize := by
    rw [size_longString (by decide), const_pageSize]
    decide
  have hraw := @newMeta_tooLarge .standard ⟨1⟩ idSchema _ hlong
  exact ⟨_, _, create_refused hraw, rfl, rfl, ⟨_, rfl⟩, _, _, metaDropped_flush hraw⟩

/-! ## Tables created and opened -/

/-- A table that was created has its meta page on the disk. -/
theorem create_stored (hD : D.Lawful P content) (h : s.Sound) (hm : Mirror P content s.pool m) {t : Table}
    (hcreate : s.call D E P (Table.create tableId schema name) = some (.ok t, s')) :
    ∃ raw, (newMeta tableId schema name).asRawPage P = .ok raw ∧ content s'.pool.disk ⟨tableId, 0⟩ = some raw := by
  generalize hr : (.ok t : Except (Fail TableError) Table) = r at hcreate
  cases create_cases hcreate with
  | present fetched left => cases hr
  | unfetched fetched other left => cases hr
  | unrooted fetched vacant refused left => cases hr
  | unmade fetched vacant rooted dropped refused left => cases hr
  | unflushed fetched vacant rooted dropped made dropped' refused left => cases hr
  | created fetched vacant rooted dropped made dropped' flushed =>
    rcases serve_fetchRead hD h hm fetched with ⟨e', he, hfetch⟩ | ⟨f, page, he, -, -⟩
    · cases he
      obtain ⟨-, hkept₁⟩ := fetch_error hD h hm hfetch
      have h₁ := fetch_sound h (reads_own hD hm _) hfetch
      have hfree₁ := (hm.kept hkept₁).empty
      rcases serve_newPage rooted with ⟨e', he, -⟩ | ⟨f, -, hnew₂⟩
      · cases he
      obtain ⟨f', hf', hguards₂, -, hmap₂, -⟩ := newPage_ok hnew₂
      have h₂ := newPage_sound h₁ hnew₂ (by intro he; cases he)
      have hfree₂ := newPage_free h₁ hnew₂ hfree₁
      obtain ⟨hdrop₃, hkept₃, -⟩ := serve_drop content hguards₂ hmap₂ dropped
      have h₃ := drop_sound h₂ hdrop₃
      have hfree₃ := hkept₃.empty hfree₂
      rcases serve_newPage made with ⟨e', he, -⟩ | ⟨g, -, hnew₄⟩
      · cases he
      obtain ⟨g', hg', hguards₄, ⟨hpage₄, hdirty₄⟩, hmap₄, -⟩ := newPage_ok hnew₄
      have h₄ := newPage_sound h₃ hnew₄ (by intro he; cases he)
      have hfree₄ := newPage_free h₃ hnew₄ hfree₃
      obtain ⟨hdrop₅, hkept₅, -⟩ := serve_drop content hguards₄ hmap₄ dropped'
      have h₅ := drop_sound h₄ hdrop₅
      obtain ⟨⟨r, b⟩, hflush, heq⟩ := Option.map_eq_some_iff.mp flushed
      cases heq
      obtain ⟨hsteps, hclean⟩ := Pool.flushAll_spec hflush
      rcases hsteps.stored hD h₅.tables (hkept₅.empty hfree₄) ((hkept₅.frames g').1.trans hpage₄)
          ((hkept₅.frames g').2.trans hdirty₄) with
        hdirty | hstored
      · cases (hclean rfl g').symm.trans hdirty
      · exact hstored
    · cases he

/-- A pool just made opens a table whose meta page the disk gives back. -/
theorem new_open {disk disk' : δ} (policy : σ) (hn : 0 < n) {raw : List UInt8}
    (hread : D.readPage ⟨tableId, 0⟩ disk = (.ok raw, disk'))
    (hraw : Page.deserialize P raw = .ok (newMeta tableId schema name)) :
    ∃ s', (new disk policy : Session n σ δ).call D E P (Table.open tableId) =
    some (.ok ⟨⟨tableId, 0⟩, schema, name⟩, s') := by
  obtain ⟨s₁, s', fetched, dropped, -⟩ := new_read (E := E) policy hn hread hraw rfl
  exact ⟨s', run_open fetched rfl rfl dropped⟩

/-- A meta page that is written is read back as itself, and a table that was created can be
    opened over the flushed disk, exactly when the schema's column names are short enough to be
    read. -/
theorem meta_roundtrip_iff (P : Platform) (schema : Schema) (tableName : String) :
    (∀ id lsn rootId pageCount freeListHead raw,
      Page.asRawPage P ⟨id, lsn, .metaPage rootId pageCount freeListHead schema tableName⟩ = .ok raw →
        (Page.deserialize P raw = .ok ⟨id, lsn, .metaPage rootId pageCount freeListHead schema tableName⟩ ↔
        schema.NamesFit)) ∧
    ∀ (n : ℕ) (σ δ : Type) (D : DiskManager δ) (E : EvictionPolicy n σ) (content : δ → PageId → Option (List UInt8))
      (s s' : Session n σ δ) (m : PageId → Option Page) (tableId : TableId) (t : Table),
      D.Lawful P content → s.Sound → Mirror P content s.pool m →
      s.call D E P (Table.create tableId schema tableName) = some (.ok t, s') →
      ∀ (k : ℕ) (τ : Type) (E' : EvictionPolicy k τ) (policy : τ) (raw : List UInt8) (disk : δ), 0 < k →
        D.readPage ⟨tableId, 0⟩ s'.pool.disk = (.ok raw, disk) →
        ((∃ s'', (new s'.pool.disk policy : Session k τ δ).call D E' P (Table.open tableId) =
          some (.ok ⟨⟨tableId, 0⟩, schema, tableName⟩, s'')) ↔ schema.NamesFit) := by
  refine ⟨fun _ _ _ _ _ _ => Page.deserialize_meta_iff, ?_⟩
  intro n σ δ D E content s s' m tableId t hD h hm hcreate k τ E' policy raw disk hk hread
  obtain ⟨raw', hraw, hstored⟩ := create_stored hD h hm hcreate
  cases (hD.read_ok hread).symm.trans hstored
  constructor
  · rintro ⟨s'', hopen⟩
    by_contra hnames
    have hbad := Page.deserialize_meta_tooLong hnames hraw
    obtain ⟨page, s₁, fetched⟩ := open_fetched hopen
    have hread' : D.readPage ⟨tableId, 0⟩ (Pool.new s'.pool.disk policy : Pool k τ δ).disk = (.ok raw, disk) := hread
    have hfetch : (new s'.pool.disk policy : Session k τ δ).fetchRead D E' P ⟨tableId, 0⟩ =
        some (.error (.err (.page (.corrupt (some ⟨tableId, 0⟩) .badSchema))),
        ⟨{ Pool.new s'.pool.disk policy with disk := disk }, []⟩) := by
      simp only [fetchRead, fetch, new, Pool.checkoutPage, Pool.loadPage, hread', hbad]
      rfl
    simp only [serve, hfetch, Option.map_some] at fetched
    cases fetched
  · intro hnames
    exact new_open policy hk hread ((Page.deserialize_meta_iff hraw).mpr hnames)

theorem metaDropped_flushed {name : String} {raw raw' : List UInt8}
    (hmeta : (newMeta ⟨1⟩ idSchema name).asRawPage .standard = .ok raw)
    (hroot : (newRoot ⟨1⟩).asRawPage .standard = .ok raw') :
    ∃ b, (metaDropped name).pool.flushAll (mapDisk .standard) .standard = some (.ok (), b) ∧
      (mapDisk .standard).readPage ⟨⟨1⟩, 0⟩ b.disk = (.ok raw, b.disk) := by
  have hframe : (metaDropped name).pool.frames 0 = ⟨some (newMeta ⟨1⟩ idSchema name), 0, true, .readers 0⟩ := rfl
  let b₁ : Pool 2 (Fin 2) (PageId → Option (List UInt8)) :=
    { (metaDropped name).pool.markClean 0 with disk := Function.update (fun _ => none) ⟨⟨1⟩, 0⟩ (some raw) }
  let b₂ : Pool 2 (Fin 2) (PageId → Option (List UInt8)) :=
    { b₁.markClean 1 with disk := Function.update b₁.disk ⟨⟨1⟩, 1⟩ (some raw') }
  have hframe₁ : b₁.frames 1 = ⟨some (newRoot ⟨1⟩), 0, true, .readers 0⟩ := rfl
  have hflush : (metaDropped name).pool.flushFrame (mapDisk .standard) .standard 0 = (.ok (), b₁) := by
    simp only [Pool.flushFrame, hframe, hmeta, if_true]
    rfl
  have hflush₁ : b₁.flushFrame (mapDisk .standard) .standard 1 = (.ok (), b₂) := by
    simp only [Pool.flushFrame, hframe₁, hroot, if_true]
    rfl
  have hfins : List.finRange 2 = [0, 1] := by decide
  have hloop : (metaDropped name).pool.flushFrames (mapDisk .standard) .standard (List.finRange 2) = some (.ok (), b₂) := by
    simp only [hfins, Pool.flushFrames, hframe, hflush, hframe₁, hflush₁]
    rfl
  refine ⟨b₂, by simp only [Pool.flushAll, hloop, Option.map_some]; rfl, ?_⟩
  rfl

/-- A table with a short name, created and opened by a pool of one frame. -/
theorem meta_roundtrip_iff_small : ∃ raw s' s'', (newMeta ⟨1⟩ idSchema (String.singleton 'a')).asRawPage .standard =
    .ok raw ∧
    Page.deserialize .standard raw = .ok (newMeta ⟨1⟩ idSchema (String.singleton 'a')) ∧
    (new s'.pool.disk 0 : Session 1 (Fin 1) (PageId → Option (List UInt8))).call (mapDisk .standard)
    (replacer Nat.one_pos) .standard
      (Table.open ⟨1⟩) = some (.ok ⟨⟨⟨1⟩, 0⟩, idSchema, String.singleton 'a'⟩, s'') ∧
    vacantPool.call (mapDisk .standard) (replacer Nat.two_pos) .standard (Table.create ⟨1⟩ idSchema (String.singleton 'a')) =
      some (.ok ⟨⟨⟨1⟩, 0⟩, idSchema, String.singleton 'a'⟩, s') := by
  have hmeta : (newMeta ⟨1⟩ idSchema (String.singleton 'a')).Encodable :=
    ⟨⟨by decide, (by intro flh hflh; cases hflh), by decide⟩, Page.idSchema_namesFit⟩
  have hroot : (newRoot ⟨1⟩).Encodable :=
    ⟨⟨(by intro r hr; cases hr), List.Pairwise.nil, by decide⟩, (by intro r hr; cases hr)⟩
  obtain ⟨raw, hraw, -, -⟩ := Page.roundtrip (P := .standard) (show pageSize ≤ isizeMax by decide) hmeta
  obtain ⟨raw', hraw', -, -⟩ := Page.roundtrip (P := .standard) (show pageSize ≤ isizeMax by decide) hroot
  obtain ⟨b, hflush, hread⟩ := metaDropped_flushed hraw hraw'
  have hserve : serve (mapDisk .standard) (replacer Nat.two_pos) .standard 0 .flushAll (metaDropped (String.singleton 'a')) =
      some (.ok (), ⟨b, []⟩) := by
    simp only [serve, hflush, Option.map_some]
    rfl
  have hcreate := run_flushed (metaDropped_reached (String.singleton 'a')) hserve
  have hiff := meta_roundtrip_iff .standard idSchema (String.singleton 'a')
  obtain ⟨s'', hopen⟩ := (hiff.2 2 (Fin 2) _ (mapDisk .standard) (replacer Nat.two_pos) (fun disk => disk) vacantPool
      ⟨b, []⟩ _ ⟨1⟩ _
    mapDisk_lawful (new_sound _ _) vacantPool_mirror hcreate 1 (Fin 1)
    (replacer Nat.one_pos) 0 raw b.disk Nat.one_pos hread).mpr
      Page.idSchema_namesFit
  exact ⟨raw, ⟨b, []⟩, s'', hraw, (hiff.1 _ _ _ _ _ raw hraw).mpr Page.idSchema_namesFit, hopen, hcreate⟩

/-- A schema with a column name of 1011 bytes: its meta page is written, and refused when it is
    read. -/
theorem longName_unreadable : ∃ column schema raw, Column.integer (longString 'x' 1011) = .ok column ∧
    Schema.tryFrom [column] = .ok schema ∧ (newMeta ⟨1⟩ schema (String.singleton 'a')).asRawPage .standard = .ok raw ∧
    Page.deserialize .standard raw = .error (.err (.corrupt (some ⟨⟨1⟩, 0⟩) .badSchema)) := by
  let column : Column := ⟨longString 'x' 1011, .integer, false⟩
  let schema : Schema := ⟨[column], by simp, rfl, rfl, by decide⟩
  have hsize : column.name.utf8ByteSize = 1011 := size_longString (by decide) 1011
  have hcolumn : Column.integer (longString 'x' 1011) = .ok column := by
    have hne : (longString 'x' 1011).isEmpty = false := by
      rw [String.isEmpty, size_longString (by decide)]
      rfl
    simp only [Column.integer, Column.construct, hne]
    rfl
  have hnames : ¬ schema.NamesFit := by
    intro hfit
    have hlong := hfit column (List.mem_singleton_self _)
    rw [hsize, const_maxFieldLen] at hlong
    omega
  have hvalid : (newMeta ⟨1⟩ schema (String.singleton 'a')).Valid := by
    have hencoded : schema.encodedSize = 1016 := by
      simp only [Schema.encodedSize, schema, List.map_cons, List.map_nil, List.sum_cons, List.sum_nil,
        Column.encodedSize, hsize]
      decide
    refine ⟨?_, ?_, ?_⟩
    · simp only [newMeta, Page.emptyPage, Page.usedSize, hencoded]
      decide
    · intro flh hflh
      cases hflh
    · decide
  obtain ⟨rest, hraw, -⟩ := Page.exists_asRawPage_meta .standard hvalid
  exact ⟨column, schema, _, hcolumn, Schema.tryFrom_columns schema, hraw, Page.deserialize_meta_tooLong hnames hraw⟩

end Session

end Bpm

end RustDb
