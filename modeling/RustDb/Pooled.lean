/-
  RustDb.Pooled — the runs of a table over the buffer pool itself.

  - `pooled_runs_refine_map`: over any lawful disk, with any policy and any number of frames,
    the answers of a run of calls are those of the ordered map, or a failure of the pool told by
    a call that only reads and of which the pool failed a request; and the pool and its disk are
    left standing for that map.
  - `file_runs_refine_map`: the same over the table's own file, where a write may fail half way.
-/

import RustDb.Runs
import RustDb.Disk.OneTable

namespace RustDb

open Lib Lib.Prog Lib.Text BTree

/-! ## Runs over the pool -/

namespace Table

variable {n : Nat} {τ δ : Type}

/-- Calls in order, each run over the pool the one before it left. No guard outlives its call. -/
inductive PooledRuns (D : Bpm.DiskManager δ) (E : Bpm.EvictionPolicy n τ) (P : Platform)
    (content : δ → PageId → Option (List UInt8)) (t : Table) (u : UpperCase) (fuel : Nat) (s : Bpm.Session n τ δ) :
    List Entry → Bpm.Session n τ δ → Prop
  | nil : PooledRuns D E P content t u fuel s [] s
  | call {s₁ s₂ : Bpm.Session n τ δ} {log : List Entry} {q : Request} {answer : Answer} {failed : Bool}
      (run : PooledRuns D E P content t u fuel s log s₁)
      (room : ∀ σ : Store, Bpm.Mirror P content s₁.pool σ.page → t.Room fuel σ q)
      (answers : (t.perform u fuel q).run.Along (Bpm.Session.serve D E P 0) Bpm.Session.Answers s₁)
      (ends : (t.noted u fuel q).run (Bpm.Session.serve D E P 0) s₁ = some ((answer, failed), s₂))
      (dropped : s₂.guards = []) (settled : q.isRead ∨ Settled answer) :
      PooledRuns D E P content t u fuel s (log ++ [(q, answer, failed)]) s₂

section
variable {D : Bpm.DiskManager δ} {E : Bpm.EvictionPolicy n τ} {P : Platform}
  {content : δ → PageId → Option (List UInt8)}
  {t : Table} {u : UpperCase} {fuel : Nat} {s s' : Bpm.Session n τ δ} {σ : Store} {m : Reference}
  {log : List Entry}

/-- A run over the pool is a run over the pages it stands for. -/
theorem PooledRuns.runs (hD : D.Lawful P content) (hswaps : D.Swaps P content) (hs : Bpm.Session.Stands P content s (.idle σ))
    (h : PooledRuns D E P content t u fuel s log s') :
    ∃ σ', Runs t u fuel σ log σ' ∧ Bpm.Session.Stands P content s' (.idle σ') := by
  induction h with
  | nil => exact ⟨σ, .nil, hs⟩
  | @call s₁ s₂ log q answer failed _ hroom hanswers hends hdropped hsettled ih =>
    obtain ⟨σ₁, hruns, hs₁⟩ := ih
    obtain ⟨faults, w, k, hends', hs₂⟩ := Bpm.Session.run_stands hD hswaps hs₁ hanswers.noting hends
    refine ⟨w.store, hruns.call (hroom σ₁ hs₁.pages) hends' hsettled, ?_⟩
    rw [← hs₂.idle_iff.mpr hdropped]
    exact hs₂

/-- Over any disk and any number of frames, whatever is evicted and whatever fails in between:
    every answer is the reference's, and the pool and its disk hold the reference's map. -/
theorem pooled_runs_refine_map (hD : D.Lawful P content) (hswaps : D.Swaps P content)
    (hs : Bpm.Session.Stands P content s (.idle σ)) (hrep : t.Represents σ m) (hfuel : 2 ^ 44 ≤ fuel)
    (h : PooledRuns D E P content t u fuel s log s') :
    ∃ σ' m', MapRuns t u m log m' ∧ t.Represents σ' m' ∧ Bpm.Session.Stands P content s' (.idle σ') := by
  obtain ⟨σ', hruns, hs'⟩ := h.runs hD hswaps hs
  obtain ⟨m', hmap, hrep'⟩ := runs_represent hrep hfuel hruns
  exact ⟨σ', m', hmap, hrep', hs'⟩

end

theorem run_noted_size {S : Type} {H : Handler PoolOp PoolOp.Res S} {t : Table} {u : UpperCase} {fuel : Nat} {s s₁ s' : S}
    {m : Page} {count : Nat} (fetched : H (.fetchRead t.metaId) s = some (.ok m, s₁))
    (hcount : m.metaGetPageCount = .ok count) (dropped : H (.drop t.metaId) s₁ = some ((), s')) :
    Prog.run H (t.noted u fuel .size) s = some ((.ok (.bytes (count * pageSize)), false), s') := by
  show Prog.run H (.op (.fetchRead t.metaId) _) s = _
  simp only [Prog.run, fetched]
  show Prog.run H (.op (.drop t.metaId) _) s₁ = _
  simp only [Prog.run]
  rw [dropped, hcount]
  rfl

section
variable {D : Bpm.DiskManager δ} {E : Bpm.EvictionPolicy n τ} {P : Platform}
  {content : δ → PageId → Option (List UInt8)} {t : Table} {u : UpperCase} {fuel : Nat} {s : Bpm.Session n τ δ}
  {log : List Entry} {disk disk' : δ} {policy : τ}

/-- A pool just made over a disk with the meta page is asked for the size of the table. -/
theorem PooledRuns.size_new (run : PooledRuns D E P content t u fuel s log (Bpm.Session.new disk policy)) (hn : 0 < n)
    {raw : List UInt8} {m : Page} {count : Nat} (hread : D.readPage t.metaId disk = (.ok raw, disk'))
    (hback : Page.deserialize P raw = .ok m) (hid : m.pageId = t.metaId) (hcount : m.metaGetPageCount = .ok count) :
    ∃ s', PooledRuns D E P content t u fuel s (log ++ [(.size, .ok (.bytes (count * pageSize)), false)]) s' := by
  obtain ⟨s₁, s', fetched, dropped, hleft⟩ := Bpm.Session.new_read (E := E) policy hn hread hback hid
  have hanswers : ((t.perform u fuel .size).run).Along (Bpm.Session.serve D E P 0) Bpm.Session.Answers
      (Bpm.Session.new disk policy) := by
    intro r s₂ h₁
    cases fetched.symm.trans h₁
    refine ⟨trivial, fun r₂ s₃ h₂ => ?_⟩
    cases dropped.symm.trans h₂
    refine ⟨trivial, ?_⟩
    rw [hcount]
    trivial
  exact ⟨s', run.call (q := .size) (fun _ _ => trivial) hanswers (run_noted_size fetched hcount dropped) hleft
    (Or.inl trivial)⟩

/-- Its disk fails to read the meta page. -/
theorem PooledRuns.size_failed (run : PooledRuns D E P content t u fuel s log (Bpm.Session.new disk policy)) {e : IoError}
    (hread : D.readPage t.metaId disk = (.error e, disk')) :
    PooledRuns D E P content t u fuel s (log ++ [(.size, .error (.err (.bpm (.io e))), true)])
      (Bpm.Session.new disk' policy) := by
  have hread' : D.readPage t.metaId (Bpm.Session.new disk policy : Bpm.Session n τ δ).pool.disk = (.error e, disk') := hread
  have habsent : (Bpm.Session.new disk policy : Bpm.Session n τ δ).pool.pageTable t.metaId = none := rfl
  have fetched : Bpm.Session.serve D E P 0 (.fetchRead t.metaId) (Bpm.Session.new disk policy) =
      some (.error (.err (.io e)), Bpm.Session.new disk' policy) := by
    simp only [Bpm.Session.serve, Bpm.Session.fetchRead, Bpm.Session.fetch, Bpm.Pool.checkoutPage, habsent,
      Bpm.Pool.loadPage, hread']
    rfl
  have hanswers : ((t.perform u fuel .size).run).Along (Bpm.Session.serve D E P 0) Bpm.Session.Answers
      (Bpm.Session.new disk policy) := by
    intro r s₁ h₁
    cases fetched.symm.trans h₁
    exact ⟨⟨_, rfl⟩, trivial⟩
  have hends : (t.noted u fuel .size).run (Bpm.Session.serve D E P 0) (Bpm.Session.new disk policy) =
      some ((.error (.err (.bpm (.io e))), true), Bpm.Session.new disk' policy) := by
    show Prog.run (Bpm.Session.serve D E P 0) (.op (.fetchRead t.metaId) _) _ = _
    simp only [Prog.run, fetched]
    rfl
  exact run.call (q := .size) (fun _ _ => trivial) hanswers hends rfl (Or.inl trivial)

end

/-- The pages of a table just created, encoded. -/
def smallDisk : PageId → Option (List UInt8) := fun id =>
  (((Store.ofPages []).created ⟨1⟩ smallSchema "t").page id).bind fun page => (page.asRawPage .standard).toOption

theorem created_encoded (id : PageId) (page : Page)
    (hp : ((Store.ofPages []).created ⟨1⟩ smallSchema "t").page id = some page) :
    ∃ raw, page.asRawPage .standard = .ok raw ∧ Page.deserialize .standard raw = .ok page := by
  by_cases h0 : id = (newMeta ⟨1⟩ smallSchema "t").pageId
  · rw [h0, Store.created, Store.put_self] at hp
    cases hp
    have hvalid : (newMeta ⟨1⟩ smallSchema "t").Valid := ⟨by decide +kernel, by simp, by decide +kernel⟩
    obtain ⟨rest, hraw, -⟩ := Page.exists_asRawPage_meta .standard hvalid
    exact ⟨_, hraw, (Page.deserialize_meta_iff hraw).mpr (by unfold Schema.NamesFit; decide +kernel)⟩
  rw [Store.created, Store.put_ne _ h0] at hp
  by_cases h1 : id = (newRoot ⟨1⟩).pageId
  · rw [h1, Store.put_self] at hp
    cases hp
    obtain ⟨raw, hraw, -, hback⟩ := Page.deserialize_asRawPage .standard (newRoot ⟨1⟩)
      ((Page.checkInvariants_iff _).mpr leafValid_nil) rfl fun records hr r hmem => by
        cases hr
        cases hmem
    exact ⟨raw, hraw, hback⟩
  rw [Store.put_ne _ h1] at hp
  cases hp

/-- A pool just made over the disk of an empty table is asked for its size. -/
theorem pooled_runs_refine_map_small : ∃ s' : Bpm.Session 1 (Fin 1) (PageId → Option (List UInt8)), ∃ σ' m',
    PooledRuns (Bpm.Session.mapDisk .standard) (Bpm.replacer Nat.one_pos) .standard (fun disk => disk) smallTable .ofAscii
      (2 ^ 44) (Bpm.Session.new smallDisk 0) [(.size, .ok (.bytes (2 * pageSize)), false)] s' ∧
    MapRuns smallTable .ofAscii ⟨fun _ => none, 2⟩ [(.size, .ok (.bytes (2 * pageSize)), false)] m' ∧
    smallTable.Represents σ' m' ∧
    Bpm.Session.Stands .standard (fun disk => disk) s' (.idle σ') := by
  obtain ⟨-, hrep⟩ := @create_represents (Store.ofPages []) ⟨1⟩ smallSchema "t" (fun id p hp => by cases hp)
    ⟨by decide +kernel, by simp, by decide +kernel⟩
  have hstands : Bpm.Session.Stands .standard (fun disk => disk) (Bpm.Session.new smallDisk 0 : Bpm.Session 1 (Fin 1) _)
      (.idle ((Store.ofPages []).created ⟨1⟩ smallSchema "t")) :=
    Bpm.Session.new_stands (Bpm.Session.diskPage_encoded created_encoded) 0
  obtain ⟨raw, hraw, hback⟩ := created_encoded ⟨⟨1⟩, 0⟩ (newMeta ⟨1⟩ smallSchema "t") (Store.put_self _ _)
  have hread : (Bpm.Session.mapDisk .standard).readPage smallTable.metaId smallDisk = (.ok raw, smallDisk) := by
    have hdisk : smallDisk smallTable.metaId = some raw := by
      rw [smallDisk, show ((Store.ofPages []).created ⟨1⟩ smallSchema "t").page smallTable.metaId =
        some (newMeta ⟨1⟩ smallSchema "t") from Store.put_self _ _, Option.bind_some, hraw]
      rfl
    simp only [Bpm.Session.mapDisk, hdisk]
  obtain ⟨s', hruns⟩ := @PooledRuns.size_new _ _ _ _ (Bpm.replacer Nat.one_pos) _ (fun disk => disk) _ .ofAscii
      (2 ^ 44) _ _ _ _ 0 .nil Nat.one_pos _ _ 2 hread hback rfl rfl
  obtain ⟨σ', m', hmap, hrep', hs'⟩ := pooled_runs_refine_map Bpm.Session.mapDisk_lawful Bpm.Session.mapDisk_swaps hstands
    hrep le_rfl hruns
  exact ⟨s', σ', m', hruns, hmap, hrep', hs'⟩

end Table

/-! ## Runs over the file of a table -/

namespace Bpm

namespace Session

variable {n : Nat} {τ δ : Type} {D : DiskManager δ} {E : EvictionPolicy n τ} {P : Platform}
  {content : δ → PageId → Option (List UInt8)} {A : Access} {s s' : Session n τ δ} {o : PoolOp}

/-- The session stands for pages of the table, intact, and for no others. -/
def StandsFor (P : Platform) (content : δ → PageId → Option (List UInt8)) (A : Access) (s : Session n τ δ) : Prop :=
  ∃ w, Stands P content s w ∧ A.Stored w.store ∧ A.Only w.store

theorem StandsFor.holds (h : StandsFor P content A s) : s.pool.Holds A.table := by
  obtain ⟨w, hs, -, honly⟩ := h
  intro f page hp
  have hmap := hs.sound.tables.mapped_of_page hs.pages.empty hp
  exact honly _ _ ((hs.pages.cached hmap).symm.trans hp)

theorem about_of_guar (h : A.contract.guar o) : About A.table o := by
  cases o with
  | fetchRead id | fetchWrite id => exact h
  | newPage page | put page => exact h.2.table
  | swapFile pages => exact fun page hp => (h.2 page hp).table
  | drop id | unwind | flushAll => trivial

/-- A request that the contract allows, over the disk of the table's pages. -/
theorem standsFor_serve (hD : D.Lawful P content) (hswaps : D.Swaps P content) {r : o.Res} (hguar : A.contract.guar o)
    (h : StandsFor P content A s) (hserve : serve D E P 0 o s = some (r, s')) (hmeets : Answers o r) :
    (∀ failed, A.contract.rely failed o r) ∧ StandsFor P content A s' := by
  obtain ⟨w, hs, hstored, honly⟩ := h
  rcases serve_stands hD hswaps hs hmeets hserve with ⟨w', hstep, hs'⟩ | ⟨e, hfail, hs'⟩
  · have hserves := Pool.serves_of_step hstep
    obtain ⟨hrely, hstored'⟩ := A.met o _ r _ hguar hstored hserves
    exact ⟨hrely, w', hs', hstored', Access.only_serves hguar honly hserves⟩
  · exact ⟨Access.answered_failure hfail, w, hs', hstored, honly⟩

/-- A program that holds to the contract runs over the disk as over that of the table's pages. -/
theorem run_ofTable (hD : (D.ofTable A.table).Lawful P content) (hswaps : (D.ofTable A.table).Swaps P content) {α : Type}
    {post : Unit → α → Prop} {p : Prog PoolOp PoolOp.Res α} (hp : Keeps A.contract.blind post () p)
    (hs : StandsFor P content A s) (halong : p.Along (serve D E P 0) Answers s) :
    p.Along (serve (D.ofTable A.table) E P 0) Answers s ∧ ∀ a s', p.run (serve D E P 0) s = some (a, s') →
      p.run (serve (D.ofTable A.table) E P 0) s = some (a, s') ∧ StandsFor P content A s' := by
  have hsame (o : PoolOp) (s : Session n τ δ) (hguar : A.contract.guar o) (hs : StandsFor P content A s) :
      serve (D.ofTable A.table) E P 0 o s = serve D E P 0 o s :=
    serve_ofTable hs.holds (about_of_guar hguar)
  refine Keeps.alike hp hsame (fun o s r s' hguar hs hserve hmeets => ?_) hs halong
  obtain ⟨hrely, hs'⟩ := standsFor_serve hD hswaps hguar hs ((hsame o s hguar hs).trans hserve) hmeets
  exact ⟨fun _ => hrely, hs'⟩

end Session

end Bpm

namespace Table

variable {n : Nat} {τ δ : Type}

section
variable {D : Bpm.DiskManager δ} {E : Bpm.EvictionPolicy n τ} {P : Platform}
  {content : δ → PageId → Option (List UInt8)}
  {t : Table} {u : UpperCase} {fuel : Nat} {s s' : Bpm.Session n τ δ} {log : List Entry}

/-- Over a pool that stands for the table's pages alone, a run over a disk is one over the disk
    of the table's pages. -/
theorem PooledRuns.ofTable (hD : (D.ofTable t.metaId.tableId).Lawful P content)
    (hswaps : (D.ofTable t.metaId.tableId).Swaps P content)
    (hs : Bpm.Session.StandsFor P content (t.access fun _ => True) s)
    (h : PooledRuns D E P content t u fuel s log s') :
    PooledRuns (D.ofTable t.metaId.tableId) E P content t u fuel s log s' ∧
      Bpm.Session.StandsFor P content (t.access fun _ => True) s' := by
  induction h with
  | nil => exact ⟨.nil, hs⟩
  | @call s₁ s₂ log q answer failed _ hroom hanswers hends hdropped hsettled ih =>
    obtain ⟨hruns, hs₁⟩ := ih
    have hholds : (t.access fun _ => True).Holds (fun _ => True) (t.perform u fuel q) :=
      holds_perform rfl trivial trivial (fun _ _ _ => trivial) trivial u fuel q
    obtain ⟨hanswers', -⟩ := Bpm.Session.run_ofTable hD hswaps hholds.forget hs₁ hanswers
    obtain ⟨-, hrun⟩ := Bpm.Session.run_ofTable hD hswaps hholds.noting hs₁ hanswers.noting
    obtain ⟨hends', hs₂⟩ := hrun _ _ hends
    exact ⟨hruns.call hroom hanswers' hends' hdropped hsettled, hs₂⟩

end

/-- Over the table's own file, whatever is evicted, and whatever calls of the file system fail,
    half way or at once: every answer is the reference's, and the pool and the file hold the
    reference's map. -/
theorem file_runs_refine_map {E : Bpm.EvictionPolicy n τ} {P : Platform} {o : Nat → Disk.CallOutcome} {t : Table}
    {u : UpperCase} {fuel : Nat} {s s' : Bpm.Session n τ Disk.Mounted} {σ : Store} {m : Reference} {log : List Entry}
    (hs : Bpm.Session.Stands P (Disk.pagesOf t.metaId.tableId) s (.idle σ)) (honly : (t.access fun _ => True).Only σ)
    (hrep : t.Represents σ m) (hfuel : 2 ^ 44 ≤ fuel)
    (h : PooledRuns (Disk.fileDisk P o) E P (Disk.pagesOf t.metaId.tableId) t u fuel s log s') :
    ∃ σ' m', MapRuns t u m log m' ∧ t.Represents σ' m' ∧
      Bpm.Session.Stands P (Disk.pagesOf t.metaId.tableId) s' (.idle σ') := by
  have hstored : (t.access fun _ => True).Stored σ := by
    obtain ⟨_, _, _, _, hb, -⟩ := hrep
    exact hb.stored
  obtain ⟨hpooled, -⟩ := h.ofTable Disk.fileDisk_lawful Disk.fileDisk_swaps ⟨_, hs, hstored, honly⟩
  obtain ⟨σ', hruns, hs'⟩ := hpooled.runs Disk.fileDisk_lawful Disk.fileDisk_swaps hs
  obtain ⟨m', hmap, hrep'⟩ := runs_represent hrep hfuel hruns
  exact ⟨σ', m', hmap, hrep', hs'⟩

/-- The pages of a table just created. -/
def createdPages : List Page := [newRoot ⟨1⟩, newMeta ⟨1⟩ smallSchema "t"]

theorem createdPages_page : (Store.ofPages createdPages).page = ((Store.ofPages []).created ⟨1⟩ smallSchema "t").page := by
  funext id
  rw [createdPages, Store.ofPages_cons, Store.ofPages_cons, show (Store.ofPages []).page id = none from rfl, Option.none_or]
  by_cases h0 : id = (newMeta ⟨1⟩ smallSchema "t").pageId
  · rw [if_pos h0.symm, h0]
    exact (Store.put_self _ _).symm
  · rw [if_neg (Ne.symm h0), Option.none_or, Store.created, Store.put_ne _ h0]
    by_cases h1 : id = (newRoot ⟨1⟩).pageId
    · rw [if_pos h1.symm, h1, Store.put_self]
    · rw [if_neg (Ne.symm h1), Store.put_ne _ h1]
      rfl

theorem createdPages_encoded (page : Page) (hmem : page ∈ createdPages) :
    ∃ raw, page.asRawPage .standard = .ok raw ∧ Page.deserialize .standard raw = .ok page := by
  refine created_encoded page.pageId page ?_
  rw [← createdPages_page]
  fin_cases hmem <;> rfl

/-- `/t.db` with the pages of a table just created. -/
def createdFile : Disk.Mounted where
  disk := ⟨⟨0⟩, Disk.absolutePath⟩
  fs := (Disk.oneFile Disk.absolutePath).setContent ⟨0⟩
    (Disk.writePages .standard Disk.allSucceed 0 createdPages []).2
  calls := 0

theorem createdPages_table (page : Page) (hmem : page ∈ createdPages) : page.pageId.tableId = ⟨1⟩ := by
  fin_cases hmem <;> rfl

/-- The meta page was written last. -/
theorem createdFile_written : ∃ content raw,
    Disk.writePages .standard Disk.allSucceed 0 createdPages [] = (.ok (), createdFile.content) ∧
    createdFile.content = Disk.writePage content smallTable.metaId raw ∧
    (newMeta ⟨1⟩ smallSchema "t").asRawPage .standard = .ok raw ∧
    Page.deserialize .standard raw = .ok (newMeta ⟨1⟩ smallSchema "t") := by
  obtain ⟨raw₁, hraw₁, -⟩ := createdPages_encoded (newRoot ⟨1⟩) List.mem_cons_self
  obtain ⟨raw₀, hraw₀, hback⟩ := createdPages_encoded (newMeta ⟨1⟩ smallSchema "t")
    (List.mem_cons_of_mem _ List.mem_cons_self)
  have hwritten : Disk.writePages .standard Disk.allSucceed 0 createdPages [] =
      (.ok (), Disk.writePage (Disk.writePage [] (newRoot ⟨1⟩).pageId raw₁) smallTable.metaId raw₀) := by
    simp only [createdPages, Disk.writePages, Disk.allSucceed, hraw₀, hraw₁, Bool.not_true, Bool.false_eq_true, if_false]
    rfl
  have hcontent : createdFile.content =
      Disk.writePage (Disk.writePage [] (newRoot ⟨1⟩).pageId raw₁) smallTable.metaId raw₀ := by
    rw [createdFile, Disk.Mounted.content, Disk.FileSystem.setContent_self, hwritten]
  exact ⟨_, raw₀, hwritten.trans (congrArg _ hcontent.symm), hcontent, hraw₀, hback⟩

theorem createdFile_stands : Bpm.Session.Stands .standard (Disk.pagesOf ⟨1⟩)
    (Bpm.Session.new createdFile 0 : Bpm.Session 1 (Fin 1) _)
    (.idle ((Store.ofPages []).created ⟨1⟩ smallSchema "t")) := by
  obtain ⟨_, _, hwritten, -⟩ := createdFile_written
  have hstores : Bpm.Stores .standard (Disk.pagesOf ⟨1⟩ createdFile) createdPages :=
    Disk.pagesOf_written createdPages_table hwritten
  have htrips (page : Page) (hmem : page ∈ createdPages) : Bpm.RoundTrips .standard page := fun raw hraw => by
    obtain ⟨raw', hraw', hback⟩ := createdPages_encoded page hmem
    cases hraw.symm.trans hraw'
    exact hback
  exact Bpm.Session.new_stands ((Bpm.Session.diskPage_stores hstores htrips).trans createdPages_page) 0

/-- The first call fails, as a read, and no other does. -/
def failsOnce (i : Nat) : Disk.CallOutcome := ⟨if i = 0 then some .other else none, none, none, Disk.allSucceed⟩

/-- A size that the disk failed, and the same again. -/
def twoSizes : List Entry :=
  [(.size, .error (.err (.bpm (.io .other))), true), (.size, .ok (.bytes (2 * pageSize)), false)]

/-- A pool just made over the file of an empty table is asked for its size, twice. -/
theorem file_runs_refine_map_small : ∃ s' : Bpm.Session 1 (Fin 1) Disk.Mounted, ∃ σ' m',
    PooledRuns (Disk.fileDisk .standard failsOnce) (Bpm.replacer Nat.one_pos) .standard (Disk.pagesOf ⟨1⟩) smallTable
      .ofAscii (2 ^ 44) (Bpm.Session.new createdFile 0) twoSizes s' ∧
    MapRuns smallTable .ofAscii ⟨fun _ => none, 2⟩ twoSizes m' ∧
    smallTable.Represents σ' m' ∧ Bpm.Session.Stands .standard (Disk.pagesOf ⟨1⟩) s' (.idle σ') := by
  obtain ⟨-, hrep⟩ := @create_represents (Store.ofPages []) ⟨1⟩ smallSchema "t" (fun id p hp => by cases hp)
    ⟨by decide +kernel, by simp, by decide +kernel⟩
  have honly : (smallTable.access fun _ => True).Only ((Store.ofPages []).created ⟨1⟩ smallSchema "t") := by
    intro id p hp
    rw [← createdPages_page] at hp
    rw [← Store.named _ hp]
    exact createdPages_table p (Store.mem_of_page hp)
  obtain ⟨_, raw, -, hcontent, hraw, hback⟩ := createdFile_written
  have hfailed : (Disk.fileDisk .standard failsOnce).readPage smallTable.metaId createdFile =
      (.error .other, { createdFile with calls := 1 }) := rfl
  have hread : (Disk.fileDisk .standard failsOnce).readPage smallTable.metaId { createdFile with calls := 1 } =
      (.ok raw, { createdFile with calls := 2 }) := by
    have hsame : ({ createdFile with calls := 1 } : Disk.Mounted).content = createdFile.content := rfl
    simp only [Disk.fileDisk, hsame, hcontent, Disk.readPage_writePage _ _ (Page.asRawPage_matches hraw).1]
    rfl
  have hfirst := @PooledRuns.size_failed _ _ _ _ (Bpm.replacer Nat.one_pos) .standard (Disk.pagesOf ⟨1⟩) smallTable .ofAscii
      (2 ^ 44) _ _ _ _ (0 : Fin 1) .nil _ hfailed
  obtain ⟨s', hruns⟩ := hfirst.size_new Nat.one_pos hread hback rfl rfl
  obtain ⟨σ', m', hmap, hrep', hs'⟩ := file_runs_refine_map createdFile_stands honly hrep le_rfl hruns
  exact ⟨s', σ', m', hruns, hmap, hrep', hs'⟩

end Table

end RustDb
