/-
  RustDb.Runs — a table is an ordered map, over whole runs of its calls.

  The reference is a map from keys to rows, and the number of pages of the file; `MapStep` says
  what a call answers over it and what it leaves, the texts of the `*_raw` calls being parsed
  first (`plain`). A run is any number of calls, one after the other, each over a pool that may
  fail any of its requests; whether it did is kept beside the answer (`Entry`). A call that
  writes has to be `Settled`: it did not end with an error of the pool, a panic or `PageFull`.
  Each insert needs page numbers to take, and each vacuum a packing that `delete` can work on
  (`Room`).

  Proved:
  - `create_represents`: a table just created is the empty map;
  - `vacuum_balanced`: with such a packing the new file is a table whose books balance;
  - `runs_refine_map`: every answer of a run is the reference's (a call that only reads may tell
    that the pool failed it, if the pool did fail a request of it), the table it leaves has the
    reference's rows and number of pages, and `check_space_accounting` succeeds on it;
  - `runs_go_on`: where all keys take up the same room no run gets stuck, and a call over a
    pool that does not fail is answered as by the reference.
-/

import RustDb.Accounting
import RustDb.Create
import RustDb.Page.LeafMap
import RustDb.Vacuum.Run

namespace RustDb

open Lib Lib.SearchTree Lib.OrdMap Lib.Prog Lib.Text Call Access BTree

/-- The pages, and those of a table just created. -/
def Store.created (σ : Store) (tableId : TableId) (schema : Schema) (name : String) : Store :=
  (σ.put (Table.newRoot tableId)).put (Table.newMeta tableId schema name)

namespace Table

/-! ## The reference -/

/-- A call with its texts parsed. -/
def plain (t : Table) (u : UpperCase) : Request → Except (Fail TableError) Request
  | .insertRaw args => ((t.rawRow u args).mapError Fail.err).map .insert
  | .deleteRaw args => (t.rawKey u args).map .delete
  | .getRaw args => (t.rawKey u args).map .get
  | .getAllRaw args => (t.rawFilter args).map .getAll
  | q => .ok q

/-- What the calls are about: the rows under their keys, and how many pages the file has. -/
structure Reference where
  rows : Page.RowMap
  pages : Nat

/-- What a call answers over the reference, and the reference it leaves. An insert may take pages,
    a delete gives none back to the file, and a vacuum leaves those that its packing takes. -/
inductive MapStep (t : Table) : Reference → Request → Answer → Reference → Prop
  | get (m : Reference) (key : Key) : MapStep t m (.get key) (.ok (.row (m.rows key))) m
  | getRange {m : Reference} {rows : List Row} (h : Lists Row.key rows m.rows) (start stop : Bound) (filterFn : Row → Bool) :
    MapStep t m (.getRange start stop filterFn) (.ok (.rows (rows.filter (wanted start stop filterFn)))) m
  | getAll {m : Reference} {rows : List Row} (h : Lists Row.key rows m.rows) (filterFn : Row → Bool) :
    MapStep t m (.getAll filterFn) (.ok (.rows (rows.filter filterFn))) m
  | size (m : Reference) : MapStep t m .size (.ok (.bytes (m.pages * pageSize))) m
  | insert {m : Reference} {row : Row} {v : ValidatedRow} {pages : Nat} (hv : t.schema.validateRow row = .ok v)
      (h : m.rows row.key = none) (hpages : m.pages ≤ pages) :
    MapStep t m (.insert row) (.ok .done) ⟨Function.update m.rows row.key (some row), pages⟩
  | duplicate {m : Reference} {row : Row} {v : ValidatedRow} (hv : t.schema.validateRow row = .ok v)
      (h : m.rows row.key ≠ none) :
    MapStep t m (.insert row) (.error (.err (.btree (.page .duplicateKey)))) m
  | refused {m : Reference} {row : Row} {e : SchemaError} (hv : t.schema.validateRow row = .error e) :
    MapStep t m (.insert row) (.error (.err (.schema e))) m
  | delete (m : Reference) (key : Key) :
    MapStep t m (.delete key) (.ok (.row (m.rows key))) ⟨Function.update m.rows key none, m.pages⟩
  | vacuum {m : Reference} {rows : List Row} (h : Lists Row.key rows m.rows) :
    MapStep t m .vacuum (.ok .done) ⟨m.rows, packedPages rows + 1⟩

/-- The same of a call whose texts are still to be parsed. -/
def MapCall (t : Table) (u : UpperCase) (m : Reference) (q : Request) (answer : Answer) (m' : Reference) : Prop :=
  match t.plain u q with
  | .ok q' => MapStep t m q' answer m'
  | .error e => answer = .error e ∧ m' = m

/-- A call, its answer, and whether the pool failed a request of the call. -/
abbrev Entry := Request × Answer × Bool

/-- Calls and answers of the reference. A call that only reads may tell that the pool failed it,
    where the pool did fail a request of it. -/
inductive MapRuns (t : Table) (u : UpperCase) (m : Reference) : List Entry → Reference → Prop
  | nil : MapRuns t u m [] m
  | call {m₁ m₂ : Reference} {log : List Entry} {q : Request} {answer : Answer} {failed : Bool}
      (run : MapRuns t u m log m₁) (step : t.MapCall u m₁ q answer m₂) : MapRuns t u m (log ++ [(q, answer, failed)]) m₂
  | failed {m₁ : Reference} {log : List Entry} {q : Request} {e : Fail TableError} (run : MapRuns t u m log m₁)
      (hq : q.isRead) (he : e.fromPool) : MapRuns t u m (log ++ [(q, .error e, true)]) m₁

/-! ## The runs of a table -/

/-- The answer is no error of the pool, no panic and not `PageFull`. -/
def Settled (answer : Answer) : Prop :=
  ∀ e, answer = .error e → ¬ e.fromPool ∧ e ≠ .err (.btree (.page .pageFull))

/-- What a call needs: an insert, page numbers for every level of the tree; a vacuum, page
    numbers for the new file, and a second child for the last page of each of its levels. -/
def Room (t : Table) (fuel : Nat) (σ : Store) : Request → Prop
  | .insert _ | .insertRaw _ => ∀ m n, σ.page t.metaId = some m → m.metaGetPageCount = .ok n → n + 33 < 2 ^ 32
  | .vacuum => ∀ rows, (t.getAll fuel fun _ => true).eval (.idle σ) = some (.ok rows, .idle σ) →
    packedPages rows + 1 < 2 ^ 32 ∧ LastPaired rows
  | _ => True

/-- Calls in order, each under its own failures of the pool, and their answers. -/
inductive Runs (t : Table) (u : UpperCase) (fuel : Nat) (σ : Store) : List Entry → Store → Prop
  | nil : Runs t u fuel σ [] σ
  | call {σ₁ : Store} {log : List Entry} {q : Request} {answer : Answer} {failed : Bool} {faults : Nat → Option BpmError}
      {w : World} {n : Nat} (run : Runs t u fuel σ log σ₁) (room : t.Room fuel σ₁ q)
      (ends : (t.noted u fuel q).run (World.faulty faults) (.idle σ₁, 0) = some ((answer, failed), w, n))
      (settled : q.isRead ∨ Settled answer) : Runs t u fuel σ (log ++ [(q, answer, failed)]) w.store

/-- The table's books balance, every row is one that its schema accepts, and the rows and the
    number of pages are those of the reference. -/
def Represents (t : Table) (σ : Store) (m : Reference) : Prop :=
  ∃ h, ∃ T : PageTree h, ∃ count free, Balanced t σ T count free ∧ count.toNat = m.pages ∧
    (∀ r ∈ T.rows, ∃ v, t.schema.validateRow r = .ok v) ∧ Lists Row.key T.rows m.rows

/-! ## Sizes -/

section
variable {t : Table} {u : UpperCase} {σ σ' : Store} {h : Nat} {T : PageTree h} {count : UInt32} {free : List PageId}
    {fuel : Nat}

/-- A tree whose inner pages have two children or more. -/
theorem leaves_pow : ∀ {h : Nat} {T : PageTree h}, T.All (fun _ _ => True) (fun _ _ children => 2 ≤ children.length) →
    2 ^ h ≤ T.leaves.length
  | 0, T => T.casesZero fun id rows _ => by simp
  | h + 1, T => T.casesSucc fun id keys kids hT => by
    obtain ⟨hlen, hkids⟩ := Tree.all_inner.mp hT
    rw [List.length_map] at hlen
    have hsum := List.card_nsmul_le_sum (kids.map fun kid => kid.leaves.length) (2 ^ h) fun n hn => by
      obtain ⟨kid, hkid, rfl⟩ := List.mem_map.mp hn
      exact leaves_pow (hkids kid hkid)
    rw [List.length_map, smul_eq_mul] at hsum
    rw [Tree.leaves_inner, List.length_flatMap]
    calc 2 ^ (h + 1) = 2 * 2 ^ h := by rw [pow_succ, Nat.mul_comm]
      _ ≤ kids.length * 2 ^ h := Nat.mul_le_mul_right _ hlen
      _ ≤ _ := hsum

/-- What fits a table of fewer than `2 ^ 32` pages. -/
structure Small (T : PageTree h) : Prop where
  height : h < 32
  ids : T.ids.length < 2 ^ 32
  leaves : T.leaves.length < 2 ^ 32
  rows : T.rows.length < 2 ^ 44

theorem small_of_balanced (hb : Balanced t σ T count free) : Small T := by
  have hw := hb.wellFormed
  have hs := hw.sound
  have hlt := count.toNat_lt
  have htotal := hb.total
  have hids : T.ids.length < 2 ^ 32 := by omega
  have hleaves : T.leaves.length < 2 ^ 32 := lt_of_le_of_lt (Tree.leaves_sublist_ids T).length_le hids
  have hvalid := all_valid hw.pages fun id hid => hw.passes id (by simp [hid])
  have hpow : 2 ^ h ≤ T.leaves.length := by
    refine leaves_pow ((hw.pages.and hw.keyed).imp (fun _ _ _ _ => trivial) fun id keys children hid hnode => ?_)
    have hlen := (keysValid_of_passes hnode.1 (hw.passes id (by simp [hid]))).1
    have := List.length_pos_iff.mpr hnode.2
    omega
  have hcell : ∀ n ∈ T.cells.map fun cell => cell.2.length, n ≤ maxLeafItems := fun n hn => by
    obtain ⟨cell, hc, rfl⟩ := List.mem_map.mp hn
    exact Page.leaf_count (hvalid.cells cell hc).2
  have hsum := List.sum_le_card_nsmul _ _ hcell
  rw [List.length_map, smul_eq_mul] at hsum
  have hcells : T.cells.length = T.leaves.length := by rw [← Tree.map_cells, List.length_map]
  have hrows : T.rows.length ≤ T.leaves.length * maxLeafItems := by
    rw [← Tree.flatMap_cells, List.length_flatMap, ← hcells]
    exact hsum
  have hitems : maxLeafItems ≤ 2 ^ 12 := by decide
  refine ⟨(Nat.pow_lt_pow_iff_right (by decide)).mp (lt_of_le_of_lt hpow hleaves), hids, hleaves, ?_⟩
  have := Nat.mul_le_mul_left T.leaves.length hitems
  omega

end

/-! ## `create` -/

section
variable {σ : Store} {tableId : TableId} {schema : Schema} {name : String}

/-- Where no page of the table is stored, `create` puts down its two pages. -/
theorem exec_create (hvacant : ∀ id p, σ.page id = some p → id.tableId ≠ tableId) :
    ∃ tr, Exec (create tableId schema name) (.idle σ) tr (.ok ⟨⟨tableId, 0⟩, schema, name⟩)
      (.idle (σ.created tableId schema name)) := by
  have hnone : σ.page ⟨tableId, 0⟩ = none := by
    rcases hp : σ.page ⟨tableId, 0⟩ with _ | p
    · rfl
    · exact absurd rfl (hvacant _ p hp)
  have hfetch : Exec (attempt (Call.fetchRead ⟨tableId, 0⟩)) (.idle σ) [.idle σ] (.ok (.error (.err (.io .notFound))))
      (.idle σ) :=
    exec_lift (o := .fetchRead ⟨tableId, 0⟩) (by simp only [World.step, World.writing_store, hnone])
  have hflush : ∀ σ' : Store, Exec (bpm Call.flushAll) (.idle σ') [.idle σ'] (.ok ()) (.idle σ') := fun σ' =>
    exec_bpm (Lib.Prog.Exec.request rfl)
  have hlast : ∀ id x : PageId, x ∈ ([] : List PageId) ↔ x ∈ [id] ∧ x ≠ id := by simp
  have hpages : ∃ tr, Exec (createPages tableId schema name) (.idle σ) tr (.ok ⟨⟨tableId, 0⟩, schema, name⟩)
      (.idle (σ.created tableId schema name)) :=
    ⟨_, (exec_bpm (exec_newPage (q := newRoot tableId) List.not_mem_nil)).bind
      ((exec_drop List.mem_cons_self (hlast _)).bind
      ((exec_bpm (exec_newPage (q := newMeta tableId schema name) List.not_mem_nil)).bind
      ((exec_drop List.mem_cons_self (hlast _)).bind ((hflush _).bind (exec_pure _ _)))))⟩
  obtain ⟨tr, hpages⟩ := hpages
  rw [← createAfter_vacant (Or.inr rfl)] at hpages
  rw [create_eq]
  exact ⟨_, (hfetch.bind hpages).unwinding_ok⟩

theorem created_stored {P : Key → Prop} (hvacant : ∀ id p, σ.page id = some p → id.tableId ≠ tableId) :
    (access ⟨⟨tableId, 0⟩, schema, name⟩ P).Stored (σ.created tableId schema name) := by
  have hnone : (access ⟨⟨tableId, 0⟩, schema, name⟩ P).Stored σ := fun id p hp htable => absurd htable (hvacant id p hp)
  exact (hnone.put (Page.intact_empty rfl)).put ⟨rfl, rfl, nofun⟩

/-- A table just created holds the empty map. -/
theorem create_represents (hvacant : ∀ id p, σ.page id = some p → id.tableId ≠ tableId)
    (hmeta : (newMeta tableId schema name).Valid) :
    (create tableId schema name).eval (.idle σ) = some (.ok ⟨⟨tableId, 0⟩, schema, name⟩, .idle
    (σ.created tableId schema name)) ∧
    Represents ⟨⟨tableId, 0⟩, schema, name⟩ (σ.created tableId schema name) ⟨fun _ => none, 2⟩ := by
  obtain ⟨tr, hexec⟩ := @exec_create σ tableId schema name hvacant
  have hne : (⟨tableId, 1⟩ : PageId) ≠ ⟨tableId, 0⟩ := fun h => by cases congrArg PageId.pageNum h
  have hroot : (σ.created tableId schema name).page ⟨tableId, 1⟩ = some (newRoot tableId) := by
    rw [Store.created, Store.put_ne _ hne]
    exact Store.put_self _ _
  have hm : (σ.created tableId schema name).page ⟨tableId, 0⟩ = some (newMeta tableId schema name) :=
    Store.put_self _ _
  have hrep : MetaRep ⟨⟨tableId, 0⟩, schema, name⟩ (σ.created tableId schema name) ⟨tableId, 1⟩ 2 [] :=
    ⟨⟨_, schema, name, hm, hmeta⟩, trivial⟩
  have hw := wellFormed_leaf hrep rfl rfl hroot leafValid_nil
  refine ⟨hexec.eval, 0, _, 2, [], ⟨hw, rfl, fun id p hp htable => ?_⟩, rfl, nofun, Lists.nil⟩
  by_cases h0 : id = (newMeta tableId schema name).pageId
  · subst h0
    show (0 : UInt32) < 2
    decide
  rw [Store.created, Store.put_ne _ h0] at hp
  by_cases h1 : id = (newRoot tableId).pageId
  · subst h1
    show (1 : UInt32) < 2
    decide
  rw [Store.put_ne _ h1] at hp
  exact absurd htable (hvacant id p hp)

end

/-! ## `vacuum` -/

section
variable {t : Table} {σ : Store} {h h' : Nat} {T : PageTree h} {T' : PageTree h'} {count : UInt32} {free : List PageId}
  {rows : List Row} {inner : List Page} {cells : List (PageId × List Row)} {lsn : PageLsn} {schema : Schema} {name : String}

/-- The new file of a packing that leaves no level's last page a single child. -/
theorem PackedTree.balanced (hT : t.PackedTree rows T inner cells) (hzero : t.metaId.pageNum = 0)
    (hcount : packedPages rows + 1 < 2 ^ 32) (hpaired : LastPaired rows)
    (hmeta : Page.Valid ⟨t.metaId, lsn, .metaPage T.rootId (UInt32.ofNat (packedPages rows + 1)) none schema name⟩) :
    Balanced t (Store.ofPages (newFile
      ⟨t.metaId, lsn, .metaPage T.rootId (UInt32.ofNat (packedPages rows + 1)) none schema name⟩ inner cells)) T
      (UInt32.ofNat (packedPages rows + 1)) [] := by
  have hcount' : packedPages rows < 2 ^ 32 := by omega
  have hnext : (UInt32.ofNat (packedPages rows + 1)).toNat = packedPages rows + 1 := UInt32.toNat_ofNat_of_lt' hcount
  have hm := hT.readBack (m := ⟨t.metaId, lsn, .metaPage T.rootId (UInt32.ofNat (packedPages rows + 1)) none schema name⟩)
    hzero rfl hcount' _ List.mem_cons_self
  have hin := hT.inStore (m := ⟨t.metaId, lsn, .metaPage T.rootId (UInt32.ofNat (packedPages rows + 1)) none schema name⟩)
    hzero rfl hcount'
  have hid : ∀ id ∈ T.ids, id.tableId = t.metaId.tableId ∧ 0 < id.pageNum.toNat ∧ id.pageNum.toNat ≤ packedPages rows :=
    fun id hid => (mem_pageIds_one hcount').mp (hT.ids_perm.mem_iff.mp hid)
  have hlt : ∀ id, id ∈ T.ids → id.pageNum < UInt32.ofNat (packedPages rows + 1) := fun id hmem => by
    have := (hid id hmem).2.2
    rw [UInt32.lt_iff_toNat_lt, hnext]
    omega
  refine ⟨{
    root := ⟨⟨lsn, schema, name, hm, hmeta⟩, trivial⟩
    pages := hin.pages
    passes := fun id hmem => ?_
    bounds := hT.bounds
    keyed := hT.keyed.mpr hpaired
    rowsBelow := hT.nonempty.below
    links := hin.links
    owned := ⟨hzero, fun id hmem => (hid id (by simpa using hmem)).1, fun id hmem h0 => ?_,
      fun id hmem => hlt id (by simpa using hmem), ?_⟩ }, ?_, fun id p hp htable => ?_⟩
  · rw [List.append_nil] at hmem
    rcases List.mem_cons.mp hmem with rfl | hmem
    · exact ⟨_, hm, (Page.checkInvariants_iff _).mpr hmeta⟩
    · exact hin.passes id hmem
  · have hpos := (hid id (by simpa using hmem)).2.1
    rw [h0] at hpos
    exact absurd hpos (by decide)
  · rw [List.append_nil]
    exact hT.ids_perm.nodup_iff.mpr (pageIds_nodup hcount')
  · rw [hT.length_ids, hnext]
    rfl
  · have hmem := Store.mem_of_page hp
    obtain rfl := Store.named _ hp
    rcases List.mem_cons.mp hmem with rfl | hmem
    · show t.metaId.pageNum < _
      rw [hzero, UInt32.lt_iff_toNat_lt, hnext]
      exact Nat.succ_pos _
    · refine hlt _ (hT.ids_perm.mem_iff.mpr (hT.filePages.1.mem_iff.mp ?_))
      exact List.mem_map_of_mem hmem

/-- `vacuum` makes a table whose books balance of one whose books do. -/
theorem vacuum_balanced (hb : Balanced t σ T count free) (hvalid : ∀ r ∈ T.rows, ∃ v, t.schema.validateRow r = .ok v)
    (hne : T.rows ≠ []) {fuel : Nat} (hh : h < fuel) (hl : T.leaves.length ≤ fuel) (hrows : T.rows.length ≤ fuel)
    (hcount : packedPages T.rows + 1 < 2 ^ 32) (hpaired : LastPaired T.rows) :
    ∃ σ' h', ∃ T' : PageTree h', ∃ count', (t.vacuum fuel).eval (.idle σ) = some (.ok (), .idle σ') ∧
      Balanced t σ' T' count' [] ∧ count'.toNat = packedPages T.rows + 1 ∧ T'.rows = T.rows := by
  have hr := hb.wellFormed.sound.readable
  obtain ⟨lsn, schema, name, hm, hsize, -, hname⟩ := hb.wellFormed.root.metaPage
  obtain ⟨h', T', inner, cells, hpack, hT⟩ := pack_tree hvalid hr.bounds.sorted hne
  obtain ⟨tr, hrun⟩ := exec_vacuum hr hh hl hm (hpack fuel hrows)
  have hmeta : Page.Valid ⟨t.metaId, lsn, .metaPage T'.rootId (UInt32.ofNat (packedPages T.rows + 1)) none schema name⟩ :=
    ⟨hsize, nofun, hname⟩
  exact ⟨_, h', T', _, hrun.eval, hT.balanced hb.wellFormed.owned.zero hcount hpaired hmeta,
    UInt32.toNat_ofNat_of_lt' hcount, hT.holds⟩

end

/-! ## One call -/

section
variable {t : Table} {u : UpperCase} {σ : Store} {m : Reference} {h : Nat} {T : PageTree h} {count : UInt32}
  {free : List PageId} {fuel : Nat} {answer : Answer} {w : World}

theorem perform_plain (q : Request) : t.perform u fuel q = match t.plain u q with
    | .ok q' => t.perform u fuel q'
    | .error e => throw e := by
  cases q with
  | insertRaw args => simp only [perform, plain, insertRaw]; cases t.rawRow u args <;> rfl
  | deleteRaw args => simp only [perform, plain, deleteRaw]; cases t.rawKey u args <;> rfl
  | getRaw args => simp only [perform, plain, getRaw]; cases t.rawKey u args <;> rfl
  | getAllRaw args => simp only [perform, plain, getAllRaw]; cases t.rawFilter args <;> rfl
  | insert | delete | get | getRange | getAll | size | vacuum => rfl

/-- The rows of the tree, each one that the schema accepts, and the pages of the file are those of
    the reference. -/
structure Holding (t : Table) (T : PageTree h) (count : UInt32) (m : Reference) : Prop where
  pages : count.toNat = m.pages
  valid : ∀ r ∈ T.rows, ∃ v, t.schema.validateRow r = .ok v
  lists : Lists Row.key T.rows m.rows

theorem read_outcome (hb : Balanced t σ T count free) (hm : Holding t T count m) (hfuel : 2 ^ 44 ≤ fuel) {q : Request}
    (hq : q.isRead)
    (hplain : t.plain u q = .ok q) : ∃ answer, (t.perform u fuel q).eval (.idle σ) = some (answer, .idle σ) ∧
    MapStep t m q answer m := by
  have hsmall := small_of_balanced hb
  have hheight := hsmall.height
  have hleaves := hsmall.leaves
  obtain ⟨lsn, schema, name, hmeta, -⟩ := hb.wellFormed.root.metaPage
  refine ⟨_, @eval_read t u fuel h T σ count hb.wellFormed.sound.readable _ hmeta rfl (by omega) (by omega) _ hq, ?_⟩
  cases q with
  | get key =>
    rw [readAnswer, hm.lists.find]
    exact .get m key
  | getRange start stop filterFn => exact .getRange hm.lists start stop filterFn
  | getAll filterFn => exact .getAll hm.lists filterFn
  | size =>
    rw [readAnswer, hm.pages]
    exact .size m
  | getRaw args => cases hk : t.rawKey u args <;> rw [plain, hk] at hplain <;> cases hplain
  | getAllRaw args => cases hk : t.rawFilter args <;> rw [plain, hk] at hplain <;> cases hplain
  | insert | delete | vacuum | insertRaw | deleteRaw => exact hq.elim

theorem insert_outcome (hb : Balanced t σ T count free) (hm : Holding t T count m) (hfuel : 2 ^ 44 ≤ fuel) {row : Row}
    (hroom : t.Room fuel σ (.insert row)) : ∃ answer σ' m',
    (t.perform u fuel (.insert row)).eval (.idle σ) = some (answer, .idle σ') ∧ MapStep t m (.insert row) answer m' ∧
      t.Represents σ' m' := by
  have hheight := (small_of_balanced hb).height
  obtain ⟨lsn, schema, name, hmeta, -⟩ := hb.wellFormed.root.metaPage
  have hpages : count.toNat + 33 < 2 ^ 32 := hroom _ _ hmeta rfl
  have hreply : ∀ {r : Except (Fail TableError) Unit} {w : World}, (t.insert fuel row).eval (.idle σ) = some (r, w) →
      (t.perform u fuel (.insert row)).eval (.idle σ) = some (r.map fun _ => .done, w) := fun hr =>
    eval_bind_reply (fun _ => Reply.done) hr
  have hsame : t.Represents σ m := ⟨h, T, count, free, hb, hm.pages, hm.valid, hm.lists⟩
  rcases hv : t.schema.validateRow row with e | v
  · have hrefused : (t.insert fuel row).eval (.idle σ) = some (.error (.err (.schema e)), .idle σ) := by
      simp only [insert, hv]
      rfl
    exact ⟨_, σ, m, hreply hrefused, .refused hv, hsame⟩
  have hrow := Schema.validateRow_ok hv
  have hinsert : ∀ {r : Except (Fail BTreeError) Unit} {w : World}, (BTree.insert t fuel v).eval (.idle σ) = some (r, w) →
      (t.insert fuel row).eval (.idle σ) = some (r.mapError (Fail.map .btree), w) := fun hr => by
    simp only [insert, hv]
    exact Call.eval_mapErr _ hr
  rcases insert_balanced hb (show h < fuel by omega) (by omega) v with ⟨⟨r, hr, hkey⟩, hdup⟩ |
      ⟨habsent, σ', h', T', count', free',
    hdone, hb', a, b, hab, hab'⟩
  · have hpresent : m.rows row.key ≠ none := by
      rw [← hrow, ← hkey, hm.lists.mem hr]
      exact Option.some_ne_none r
    exact ⟨_, σ, m, hreply (hinsert hdup), .duplicate hv hpresent, hsame⟩
  · rw [hrow] at habsent hab'
    have hsorted := hb'.wellFormed.bounds.sorted
    rw [hab', List.map_append, List.map_cons, List.pairwise_append, List.pairwise_cons] at hsorted
    obtain ⟨-, ⟨hb₁, -⟩, ha₁⟩ := hsorted
    have hlists := hm.lists
    rw [hab] at hlists
    have hpages : m.pages ≤ count'.toNat := by
      rw [← hm.pages]
      exact UInt32.le_iff_toNat_le.mp (insert_count hb hb' hdone)
    refine ⟨_, σ', _, hreply (hinsert hdone), .insert hv (hm.lists.absent_iff.mpr habsent) hpages, h', T', count', free',
      hb', rfl, fun r hr => ?_, ?_⟩
    · rw [hab'] at hr
      rcases List.mem_append.mp hr with hr | hr
      · exact hm.valid r (hab ▸ List.mem_append_left b hr)
      · rcases List.mem_cons.mp hr with rfl | hr
        · exact ⟨v, hv⟩
        · exact hm.valid r (hab ▸ List.mem_append_right a hr)
    · rw [hab']
      exact hlists.insert (fun y hy => ha₁ _ (List.mem_map_of_mem hy) _ List.mem_cons_self)
        fun y hy => hb₁ _ (List.mem_map_of_mem hy)

theorem delete_outcome (hb : Balanced t σ T count free) (hm : Holding t T count m) (hfuel : 2 ^ 44 ≤ fuel) (key : Key) : ∃
    answer σ',
    (t.perform u fuel (.delete key)).eval (.idle σ) = some (answer, .idle σ') ∧
      ((∃ m', MapStep t m (.delete key) answer m' ∧ t.Represents σ' m') ∨
        answer = .error (.err (.btree (.page .pageFull))) ∧ ∀ n, ¬ BTree.Keyed (fun k => Page.internalEntrySize k = n)
        T) := by
  have hheight := (small_of_balanced hb).height
  have hreply : ∀ {r : Except (Fail BTreeError) (Option Row)} {w : World}, (BTree.delete t fuel key).eval (.idle σ) =
      some (r, w) →
      (t.perform u fuel (.delete key)).eval (.idle σ) = some ((r.mapError (Fail.map TableError.btree)).map Reply.row, w) :=
    fun hr => eval_bind_reply Reply.row (Call.eval_mapErr TableError.btree hr)
  rcases delete_balanced hb (show h < fuel by omega) key with ⟨σ', h', T', free', hdone, hb', hrows⟩ | ⟨σ', hfull, -, hsizes⟩
  · refine ⟨_, σ', hreply hdone, Or.inl ⟨⟨Function.update m.rows key none, m.pages⟩, ?_, h', T', count, free', hb', hm.pages,
      fun r hr => ?_, ?_⟩⟩
    · rw [hm.lists.find]
      exact .delete m key
    · rw [hrows] at hr
      exact hm.valid r (List.mem_of_mem_filter hr)
    · rw [hrows]
      exact hm.lists.without key
  · exact ⟨_, σ', hreply hfull, Or.inr ⟨rfl, hsizes⟩⟩

theorem vacuum_outcome (hb : Balanced t σ T count free) (hm : Holding t T count m) (hfuel : 2 ^ 44 ≤ fuel)
    (hroom : t.Room fuel σ .vacuum) :
    ∃ answer σ', (t.perform u fuel .vacuum).eval (.idle σ) = some (answer, .idle σ') ∧
      ((∃ m', MapStep t m .vacuum answer m' ∧ t.Represents σ' m') ∨ answer = .error .panic ∧ T.rows = []) := by
  have hsmall := small_of_balanced hb
  have hheight := hsmall.height
  have hleaves := hsmall.leaves
  have hcount := hsmall.rows
  have hr := hb.wellFormed.sound.readable
  have hreply : ∀ {r : Except (Fail TableError) Unit} {w : World}, (t.vacuum fuel).eval (.idle σ) = some (r, w) →
      (t.perform u fuel .vacuum).eval (.idle σ) = some (r.map fun _ => .done, w) := fun hr =>
    eval_bind_reply (fun _ => Reply.done) hr
  by_cases hne : T.rows = []
  · obtain ⟨tr, hpanic⟩ := exec_vacuum_error hr (show h < fuel by omega) (show T.leaves.length ≤ fuel by omega)
      (hne ▸ pack_empty)
    exact ⟨_, σ, hreply hpanic.eval, Or.inr ⟨rfl, hne⟩⟩
  · have hall := eval_getAll hr (show h < fuel by omega) (show T.leaves.length ≤ fuel by omega) fun _ => true
    rw [List.filter_eq_self.mpr fun _ _ => rfl] at hall
    obtain ⟨hfits, hpaired⟩ := hroom _ hall
    obtain ⟨σ', h', T', count', hdone, hb', hpages, hrows⟩ := vacuum_balanced hb hm.valid hne (show h < fuel by omega)
      (show T.leaves.length ≤ fuel by omega) (show T.rows.length ≤ fuel by omega) hfits hpaired
    exact ⟨_, σ', hreply hdone, Or.inl ⟨_, .vacuum hm.lists, h', T', count', [], hb', hpages, hrows ▸ hm.valid,
      hrows ▸ hm.lists⟩⟩

/-- How a call may end otherwise: a delete over keys of different sizes, a vacuum of no rows. -/
def Exceptional (T : PageTree h) (q : Request) (answer : Answer) : Prop :=
  (answer = .error (.err (.btree (.page .pageFull))) ∧ ∀ n, ¬ BTree.Keyed (fun k => Page.internalEntrySize k = n) T) ∨
    answer = .error .panic ∧ T.rows = [] ∧ q = .vacuum

/-- A call over a pool that does not fail. -/
theorem call_outcome (hb : Balanced t σ T count free) (hm : Holding t T count m) (hfuel : 2 ^ 44 ≤ fuel) {q : Request}
    (hroom : t.Room fuel σ q) : ∃ answer σ', (t.perform u fuel q).eval (.idle σ) = some (answer, .idle σ') ∧
      ((∃ m', t.MapCall u m q answer m' ∧ t.Represents σ' m') ∨ ¬ q.isRead ∧ Exceptional T q answer) := by
  have hsame : t.Represents σ m := ⟨h, T, count, free, hb, hm.pages, hm.valid, hm.lists⟩
  rw [perform_plain]
  unfold MapCall
  rcases hp : t.plain u q with e | q' <;> simp only
  · exact ⟨.error e, σ, rfl, Or.inl ⟨m, ⟨rfl, rfl⟩, hsame⟩⟩
  have hread : q'.isRead → t.plain u q' = .ok q' → ∃ answer σ', (t.perform u fuel q').eval (.idle σ) = some
      (answer, .idle σ') ∧
      ((∃ m', MapStep t m q' answer m' ∧ t.Represents σ' m') ∨ ¬ q.isRead ∧ Exceptional T q answer) := fun hq' hplain => by
    obtain ⟨answer, heval, hstep⟩ := read_outcome hb hm hfuel hq' hplain
    exact ⟨answer, σ, heval, Or.inl ⟨m, hstep, hsame⟩⟩
  have hinsert : ∀ row, t.Room fuel σ (.insert row) → ∃ answer σ', (t.perform u fuel (.insert row)).eval (.idle σ) =
      some (answer, .idle σ') ∧ ((∃ m', MapStep t m (.insert row) answer m' ∧ t.Represents σ' m') ∨
        ¬ q.isRead ∧ Exceptional T q answer) := fun row hroom => by
    obtain ⟨answer, σ', m', heval, hstep, hrep⟩ := @insert_outcome t u σ m h T count free fuel hb hm hfuel row hroom
    exact ⟨answer, σ', heval, Or.inl ⟨m', hstep, hrep⟩⟩
  have hdelete : ∀ key, ¬ q.isRead → ∃ answer σ', (t.perform u fuel (.delete key)).eval (.idle σ) = some (answer, .idle σ') ∧
      ((∃ m', MapStep t m (.delete key) answer m' ∧ t.Represents σ' m') ∨ ¬ q.isRead ∧ Exceptional T q answer) := fun
      key hq => by
    obtain ⟨answer, σ', heval, hstep⟩ := @delete_outcome t u σ m h T count free fuel hb hm hfuel key
    exact ⟨answer, σ', heval, hstep.imp_right fun hfull => ⟨hq, Or.inl hfull⟩⟩
  cases q with
  | insert row =>
    cases hp
    exact hinsert row hroom
  | insertRaw args =>
    cases hk : t.rawRow u args <;> rw [plain, hk] at hp <;> cases hp
    exact hinsert _ hroom
  | delete key =>
    cases hp
    exact hdelete key not_false
  | deleteRaw args =>
    cases hk : t.rawKey u args <;> rw [plain, hk] at hp <;> cases hp
    exact hdelete _ not_false
  | vacuum =>
    cases hp
    obtain ⟨answer, σ', heval, hstep | ⟨hpanic, hnil⟩⟩ := @vacuum_outcome t u σ m h T count free fuel hb hm hfuel hroom
    · exact ⟨answer, σ', heval, Or.inl hstep⟩
    · exact ⟨answer, σ', heval, Or.inr ⟨not_false, Or.inr ⟨hpanic, hnil, rfl⟩⟩⟩
  | get | getRange | getAll | size =>
    cases hp
    exact hread trivial rfl
  | getRaw args =>
    cases hk : t.rawKey u args <;> rw [plain, hk] at hp <;> cases hp
    exact hread trivial rfl
  | getAllRaw args =>
    cases hk : t.rawFilter args <;> rw [plain, hk] at hp <;> cases hp
    exact hread trivial rfl

/-- A call that settled. -/
theorem call_step (hrep : t.Represents σ m) (hfuel : 2 ^ 44 ≤ fuel) {q : Request} (hroom : t.Room fuel σ q)
    (hsettled : q.isRead ∨ Settled answer) (heval : (t.perform u fuel q).eval (.idle σ) = some (answer, w)) :
    ∃ σ' m', w = .idle σ' ∧ t.MapCall u m q answer m' ∧ t.Represents σ' m' := by
  obtain ⟨h, T, count, free, hb, hpages, hvalid, hlists⟩ := hrep
  obtain ⟨answer', σ', heval', hends⟩ := @call_outcome t u σ m h T count free fuel hb ⟨hpages, hvalid, hlists⟩ hfuel q
    hroom
  rw [heval, Option.some.injEq, Prod.mk.injEq] at heval'
  obtain ⟨rfl, rfl⟩ := heval'
  rcases hends with ⟨m', hcall, hrep⟩ | ⟨hq, ⟨rfl, -⟩ | ⟨rfl, -⟩⟩
  · exact ⟨σ', m', rfl, hcall, hrep⟩
  · exact absurd rfl (hsettled.resolve_left hq _ rfl).2
  · exact absurd trivial (hsettled.resolve_left hq _ rfl).1

/-- A call that only reads leaves every page as it was, whatever the pool does. -/
theorem read_keeps (hstored : (t.access fun _ => True).Stored σ) {q : Request} (hq : q.isRead)
    {faults : Nat → Option BpmError} {n : Nat} (hends : Ends faults (t.perform u fuel q) (.idle σ) 0 answer w n) :
    w.store = σ := by
  have hmet : t.readOnly.contract.Met (Handler.serves (World.faulty faults)) fun s => s.1.store = σ := by
    rintro o s r s' hguar rfl hserve
    have hserves := Pool.serves_of_faulty hserve
    exact ⟨(Access.met _ o _ r _ hguar (fun id p => hstored id p) hserves).1, readOnly_serves hguar hserves⟩
  exact (Keeps.run (holds_read (A := t.readOnly) rfl u fuel hq) hmet rfl hends).2

end

/-! ## Runs -/

section
variable {t : Table} {u : UpperCase} {σ σ' : Store} {m : Reference} {fuel : Nat} {log : List Entry}

theorem runs_represent (hrep : t.Represents σ m) (hfuel : 2 ^ 44 ≤ fuel) (h : Runs t u fuel σ log σ') :
    ∃ m', MapRuns t u m log m' ∧ t.Represents σ' m' := by
  induction h with
  | nil => exact ⟨m, .nil, hrep⟩
  | @call σ₁ log q answer failed faults w n _ hroom hends hsettled ih =>
    obtain ⟨m₁, hmap, hrep₁⟩ := ih
    have hstored : (t.access fun _ => True).Stored σ₁ := by
      obtain ⟨_, _, _, _, hb, -⟩ := hrep₁
      exact hb.stored
    by_cases hpool : failed = true ∧ ∃ e, answer = .error e ∧ e.fromPool
    · obtain ⟨rfl, e, rfl, he⟩ := hpool
      have hq : q.isRead := hsettled.resolve_right fun hs => (hs e rfl).1 he
      rw [read_keeps hstored hq (run_noting hends)]
      exact ⟨m₁, hmap.failed hq he, hrep₁⟩
    · have hholds : (t.access fun _ => True).Holds (fun _ => True) (t.perform u fuel q) :=
        holds_perform rfl trivial trivial (fun _ _ _ => trivial) trivial u fuel q
      have hclean : failed = false ∨ ∀ e, answer = .error e → ¬ e.fromPool := by
        rw [not_and_or, Bool.not_eq_true] at hpool
        exact hpool.imp_right fun hno e he hfrom => hno ⟨e, he, hfrom⟩
      have heval := (exact_of_noted hholds hstored hends hclean).1
      obtain ⟨σ₂, m₂, rfl, hcall, hrep₂⟩ := call_step hrep₁ hfuel hroom hsettled heval
      exact ⟨m₂, hmap.call hcall, hrep₂⟩

/-- Whatever is called, in any order and under any failures of the pool that let the calls that
    write settle: every answer is the reference's, and the table stays the reference's map, with
    no page lost. -/
theorem runs_refine_map (hrep : t.Represents σ m) (hfuel : 2 ^ 44 ≤ fuel) (h : Runs t u fuel σ log σ') :
    ∃ m', MapRuns t u m log m' ∧ t.Represents σ' m' ∧
      (t.checkSpaceAccounting fuel).eval (.idle σ') = some (.ok (), .idle σ') := by
  obtain ⟨m', hmap, hrep'⟩ := runs_represent hrep hfuel h
  refine ⟨m', hmap, hrep', ?_⟩
  obtain ⟨_, T, count, free, hb, -⟩ := hrep'
  have hids := (small_of_balanced hb).ids
  have hcount := count.toNat_lt
  have htotal := hb.total
  rw [checkSpaceAccounting_eval hb.wellFormed (by omega) (by omega), if_pos htotal]

/-- A row goes into a table just created, the pool fails a call, and the row is found. -/
def smallLog : List Entry :=
  [(.insert (smallRow 2), .ok .done, false), (.size, .error (.err (.bpm .noFreeFrames)), true),
    (.get (.integer 2), .ok (.row (some (smallRow 2))), false)]

theorem smallLog_runs : ∃ σ,
    Runs smallTable .ofAscii (2 ^ 44) ((Store.ofPages []).created ⟨1⟩ smallSchema "t") smallLog σ := by
  obtain ⟨w, n, hinsert, w', n', hsize, w'', n'', hget⟩ : ∃ w n, (smallTable.noted .ofAscii (2 ^ 44)
      (.insert (smallRow 2))).run (World.faulty fun _ => none) (.idle ((Store.ofPages []).created ⟨1⟩ smallSchema "t"), 0) =
        some ((.ok .done, false), w, n) ∧
      ∃ w' n', (smallTable.noted .ofAscii (2 ^ 44) .size).run (World.faulty fun _ => some .noFreeFrames) (.idle w.store, 0) =
        some ((.error (.err (.bpm .noFreeFrames)), true), w', n') ∧
      ∃ w'' n'', (smallTable.noted .ofAscii (2 ^ 44) (.get (.integer 2))).run (World.faulty fun _ => none)
        (.idle w'.store, 0) = some ((.ok (.row (some (smallRow 2))), false), w'', n'') :=
    ⟨_, _, rfl, _, _, rfl, _, _, rfl⟩
  have hroom : smallTable.Room (2 ^ 44) ((Store.ofPages []).created ⟨1⟩ smallSchema "t") (.insert (smallRow 2)) := by
    intro m n hm hn
    cases hm
    cases hn
    decide
  have hinserted := Runs.nil.call hroom hinsert (Or.inr nofun)
  have hfailed := hinserted.call (q := .size) trivial hsize (Or.inl trivial)
  exact ⟨_, hfailed.call (q := .get (.integer 2)) trivial hget (Or.inl trivial)⟩

theorem runs_refine_map_small : ∃ σ σ' m',
    (create ⟨1⟩ smallSchema "t").eval (.idle (Store.ofPages [])) = some (.ok smallTable, .idle σ) ∧
    Runs smallTable .ofAscii (2 ^ 44) σ smallLog σ' ∧ MapRuns smallTable .ofAscii ⟨fun _ => none, 2⟩ smallLog m' := by
  obtain ⟨hcreate, hrep⟩ := @create_represents (Store.ofPages []) ⟨1⟩ smallSchema "t" (fun id p hp => by cases hp)
    ⟨by decide +kernel, by simp, by decide +kernel⟩
  obtain ⟨σ', hruns⟩ := smallLog_runs
  obtain ⟨m', hmap, -, -⟩ := runs_refine_map hrep le_rfl hruns
  exact ⟨_, _, m', hcreate, hruns, hmap⟩

/-! ## No run gets stuck -/

theorem stored_of_runs {P : Key → Prop} (hvalid : ∀ row v, t.schema.validateRow row = .ok v → P row.key)
    (hσ : (t.access P).Stored σ) (h : Runs t u fuel σ log σ') : (t.access P).Stored σ' := by
  induction h with
  | nil => exact hσ
  | call _ _ hends _ ih =>
    exact (Keeps.run (holds_perform (A := t.access P) rfl trivial trivial hvalid trivial u fuel _) (met_faulty _ _) ih
      (run_noting hends)).2

theorem keyed_of_stored {h : Nat} {T : PageTree h} {count : UInt32} {free : List PageId} {P : Key → Prop}
    (hw : WellFormed t σ T count free) (hσ : (t.access P).Stored σ) : BTree.Keyed P T := by
  have hid : ∀ id ∈ T.ids, id.tableId = t.metaId.tableId := fun id hid => hw.owned.table id (List.mem_append_left _ hid)
  refine hw.pages.imp (fun id rows hmem hleaf => ?_) fun id keys children hmem hnode => ?_
  · obtain ⟨lsn, nx, pv, hp⟩ := hleaf
    exact (hσ id _ hp (hid id hmem)).2.2.1
  · obtain ⟨lsn, hp⟩ := hnode
    exact (hσ id _ hp (hid id hmem)).2.2.1

/-- Where all keys that the schema accepts take up the same room, any call that has room is
    answered after any run, and as the reference does: it neither blocks nor panics nor fails. -/
theorem runs_go_on {size : Nat} (hsame : ∀ row v, t.schema.validateRow row = .ok v → Page.internalEntrySize row.key = size)
    (hstored : (t.access fun k => Page.internalEntrySize k = size).Stored σ) (hrep : t.Represents σ m)
    (hfuel : 2 ^ 44 ≤ fuel)
    (h : Runs t u fuel σ log σ') {q : Request} (hroom : t.Room fuel σ' q)
    (hrows : q = .vacuum → (t.getAll fuel fun _ => true).eval (.idle σ') ≠ some (.ok [], .idle σ')) :
    ∃ m' answer σ'' m'', MapRuns t u m log m' ∧ (t.perform u fuel q).eval (.idle σ') = some (answer, .idle σ'') ∧
      t.MapCall u m' q answer m'' ∧ t.Represents σ'' m'' := by
  obtain ⟨m', hmap, h', T, count, free, hb, hpages, hvalid, hlists⟩ := runs_represent hrep hfuel h
  obtain ⟨answer, σ'', heval, hends⟩ := @call_outcome t u σ' m' h' T count free fuel hb ⟨hpages, hvalid, hlists⟩ hfuel q
    hroom
  rcases hends with ⟨m'', hcall, hrep''⟩ | ⟨-, ⟨-, hsizes⟩ | ⟨-, hnil, rfl⟩⟩
  · exact ⟨m', answer, σ'', m'', hmap, heval, hcall, hrep''⟩
  · exact absurd (keyed_of_stored hb.wellFormed (stored_of_runs hsame hstored h)) (hsizes size)
  · have hsmall := small_of_balanced hb
    have hheight := hsmall.height
    have hleaves := hsmall.leaves
    refine absurd ?_ (hrows rfl)
    rw [eval_getAll hb.wellFormed.sound.readable (by omega) (by omega), hnil]
    rfl

theorem smallKey_size (row : Row) (v : ValidatedRow) (h : smallTable.schema.validateRow row = .ok v) :
    Page.internalEntrySize row.key = 21 := by
  obtain ⟨n, hn⟩ := integerKey_valid row v h
  rw [hn]
  rfl

/-- The row that such a run left is deleted. -/
theorem runs_go_on_small : ∃ m' answer σ' σ m'', MapRuns smallTable .ofAscii ⟨fun _ => none, 2⟩ smallLog m' ∧
    (smallTable.perform .ofAscii (2 ^ 44) (.delete (.integer 2))).eval (.idle σ') = some (answer, .idle σ) ∧
    smallTable.MapCall .ofAscii m' (.delete (.integer 2)) answer m'' ∧ smallTable.Represents σ m'' := by
  obtain ⟨-, hrep⟩ := @create_represents (Store.ofPages []) ⟨1⟩ smallSchema "t" (fun id p hp => by cases hp)
    ⟨by decide +kernel, by simp, by decide +kernel⟩
  have hstored : (smallTable.access fun k => Page.internalEntrySize k = 21).Stored
      ((Store.ofPages []).created ⟨1⟩ smallSchema "t") := created_stored fun id p hp => by cases hp
  obtain ⟨σ', hruns⟩ := smallLog_runs
  obtain ⟨m', answer, σ, m'', hmap, heval, hcall, hrep'⟩ := runs_go_on (q := .delete (.integer 2)) smallKey_size hstored
    hrep le_rfl hruns trivial nofun
  exact ⟨m', answer, σ', σ, m'', hmap, heval, hcall, hrep'⟩

end

end Table

end RustDb
