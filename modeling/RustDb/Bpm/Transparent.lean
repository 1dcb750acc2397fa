/-
  RustDb.Bpm.Transparent — the buffer pool over a disk is the map of the pages last created
  or written.

  The abstract state is a map from ids to pages. A pool stands for it (`Mirror`) when a
  mapped frame holds the map's page, a clean one also agrees with the disk, a dirty one can
  be written and read back, and what is not cached is on the disk. Proved for every lawful
  disk, eviction policy, pool size and run (`pool_transparent`): a fetch yields the map's
  page, a call that fails changes nothing of it, and after a flush the disk alone stands for
  the map.
-/

import RustDb.Bpm.Session

namespace RustDb

namespace Bpm

variable {n : Nat} {σ δ : Type}

/-- A disk that behaves as a map from ids to raw pages, whose calls may fail; a write that fails
    may leave anything under its id. -/
structure DiskManager.Lawful (D : DiskManager δ) (P : Platform) (content : δ → PageId → Option (List UInt8)) : Prop where
  read_ok : ∀ {id : PageId} {d d' : δ} {raw : List UInt8}, D.readPage id d = (.ok raw, d') → content d id = some raw
  read_same : ∀ (id : PageId) (d : δ), content (D.readPage id d).2 = content d
  write_ok : ∀ {page : Page} {d d' : δ} {raw : List UInt8}, page.asRawPage P = .ok raw →
    D.writePage page.pageId raw d = (.ok (), d') → content d' = Function.update (content d) page.pageId (some raw)
  write_error : ∀ {page : Page} {d d' : δ} {raw : List UInt8} {e : IoError}, page.asRawPage P = .ok raw →
    D.writePage page.pageId raw d = (.error e, d') → ∀ id, id ≠ page.pageId → content d' id = content d id
  sync_same : ∀ d : δ, content (D.sync d).2 = content d

/-- The page that is read from raw contents under an id. -/
def diskPage (P : Platform) (content : PageId → Option (List UInt8)) (id : PageId) : Option Page :=
  (content id).bind fun raw => (Page.deserialize P raw).toOption

/-- Every stored page names the id it is stored under. -/
def OwnIds (P : Platform) (content : PageId → Option (List UInt8)) : Prop :=
  ∀ id page, diskPage P content id = some page → page.pageId = id

/-- Encoding the page and decoding the bytes gives the page. -/
def RoundTrips (P : Platform) (page : Page) : Prop :=
  ∀ raw, page.asRawPage P = .ok raw → Page.deserialize P raw = .ok page

theorem diskPage_update_self {P : Platform} {content : PageId → Option (List UInt8)} {page : Page} {raw : List UInt8}
    (h : Page.deserialize P raw = .ok page) (id : PageId) :
    diskPage P (Function.update content id (some raw)) id = some page := by
  simp [diskPage, h, Except.toOption]

theorem diskPage_update_ne {P : Platform} {content : PageId → Option (List UInt8)} {raw : List UInt8} {id id' : PageId}
    (h : id' ≠ id) : diskPage P (Function.update content id (some raw)) id' = diskPage P content id' := by
  simp [diskPage, Function.update_of_ne h]

/-- No page that is still to be written stands over the disk's. -/
def Pool.OnDisk (b : Pool n σ δ) (id : PageId) : Prop := ∀ f, b.pageTable id = some f → (b.frames f).dirty = false

/-- What a pool and its disk hold under an id. -/
def Pool.logical (P : Platform) (content : δ → PageId → Option (List UInt8)) (b : Pool n σ δ) (id : PageId) : Option Page :=
  match b.pageTable id with
  | some f => (b.frames f).page
  | none => diskPage P (content b.disk) id

/-! ## A pool that stands for a map -/

structure Mirror (P : Platform) (content : δ → PageId → Option (List UInt8)) (b : Pool n σ δ)
    (m : PageId → Option Page) : Prop where
  own : ∀ {id page}, m id = some page → page.pageId = id
  empty : ∀ f ∈ b.freeFrames, (b.frames f).page = none
  cached : ∀ {id f}, b.pageTable id = some f → (b.frames f).page = m id
  clean : ∀ {id f}, b.pageTable id = some f → (b.frames f).dirty = false → diskPage P (content b.disk) id = m id
  dirty : ∀ {id f page}, b.pageTable id = some f → (b.frames f).dirty = true → m id = some page → RoundTrips P page
  uncached : ∀ {id}, b.pageTable id = none → diskPage P (content b.disk) id = m id

section
variable {P : Platform} {D : DiskManager δ} {E : EvictionPolicy n σ} {content : δ → PageId → Option (List UInt8)}
  {b b' b₁ : Pool n σ δ} {m : PageId → Option Page} {f : Fin n} {id : PageId}

theorem Mirror.logical (h : Mirror P content b m) (id : PageId) : b.logical P content id = m id := by
  unfold Pool.logical
  cases hmap : b.pageTable id with
  | some f => exact h.cached hmap
  | none => exact h.uncached hmap

/-- Calls that leave the tables, the pages and the disk, but for pages still to be written. -/
theorem Mirror.congr (h : Mirror P content b m) (htable : b'.pageTable = b.pageTable) (hfree : b'.freeFrames = b.freeFrames)
    (hframes : ∀ f, (b'.frames f).page = (b.frames f).page ∧ (b'.frames f).dirty = (b.frames f).dirty)
    (hdisk : ∀ id, b.OnDisk id → content b'.disk id = content b.disk id) : Mirror P content b' m where
  own := h.own
  empty f hf := (hframes f).1.trans (h.empty f (hfree ▸ hf))
  cached hmap := (hframes _).1.trans (h.cached (htable ▸ hmap))
  clean {id f} hmap hclean := by
    rw [htable] at hmap
    rw [(hframes f).2] at hclean
    rw [diskPage, hdisk id fun g hg => Option.some.inj (hmap.symm.trans hg) ▸ hclean]
    exact h.clean hmap hclean
  dirty hmap hdirty := h.dirty (htable ▸ hmap) ((hframes _).2 ▸ hdirty)
  uncached {id} hmap := by
    rw [htable] at hmap
    rw [diskPage, hdisk id fun g hg => by cases hmap.symm.trans hg]
    exact h.uncached hmap

/-- A page that a frame holds under its id, written out. -/
theorem written_own {d d' : δ} {page : Page} {raw : List UInt8} (hD : D.Lawful P content)
    (hencoded : page.asRawPage P = .ok raw) (hraw : Page.deserialize P raw = .ok page)
    (hwrite : D.writePage page.pageId raw d = (.ok (), d')) : diskPage P (content d') page.pageId = some page ∧
      ∀ id, id ≠ page.pageId → diskPage P (content d') id = diskPage P (content d) id := by
  rw [hD.write_ok hencoded hwrite]
  exact ⟨diskPage_update_self hraw _, fun id hid => diskPage_update_ne hid⟩

/-- A frame that is not free is mapped under the id of its page. -/
theorem Pool.Consistent.mapped_of_page (hb : b.Consistent) (hfree : ∀ f ∈ b.freeFrames, (b.frames f).page = none)
    {page : Page}
    (hpage : (b.frames f).page = some page) : b.pageTable page.pageId = some f := by
  rcases hb.covered f with hf | ⟨id, hmap⟩
  · cases (hfree f hf).symm.trans hpage
  · obtain ⟨page', hp, rfl⟩ := hb.mapped hmap
    cases hpage.symm.trans hp
    exact hmap

/-- Only the page that failed to be written may have changed on the disk. -/
theorem Pool.FailedWrite.kept (hD : D.Lawful P content) (hb : b.Consistent)
    (hfree : ∀ f ∈ b.freeFrames, (b.frames f).page = none) {disk : δ} (h : Pool.FailedWrite D P b disk) :
    ∀ id, b.OnDisk id → content disk id = content b.disk id := by
  intro id hid
  cases h with
  | unwritten => rfl
  | write dirty holds encoded failed =>
    refine hD.write_error encoded failed id ?_
    rintro rfl
    cases (hid _ (hb.mapped_of_page hfree holds)).symm.trans dirty

/-- The disk after a page of the map was written out under its id. -/
theorem Mirror.write (h : Mirror P content b m) {disk : δ} {page : Page}
    (hself : diskPage P (content disk) page.pageId = some page) (hm : m page.pageId = some page)
    (hother : ∀ id, id ≠ page.pageId → diskPage P (content disk) id = diskPage P (content b.disk) id) :
    Mirror P content { b with disk := disk } m where
  own := h.own
  empty := h.empty
  cached := h.cached
  clean {id f} hmap hclean := by
    by_cases hid : id = page.pageId
    · rw [hid, hself, hm]
    · rw [hother id hid]
      exact h.clean hmap hclean
  dirty := h.dirty
  uncached {id} hmap := by
    by_cases hid : id = page.pageId
    · rw [hid, hself, hm]
    · rw [hother id hid]
      exact h.uncached hmap

/-- A dirty page written out, read back. -/
theorem Mirror.written (hD : D.Lawful P content) (h : Mirror P content b m) {disk : δ} {page : Page} {raw : List UInt8}
    (hmap : b.pageTable page.pageId = some f) (hpage : (b.frames f).page = some page) (hdirty : (b.frames f).dirty = true)
    (hraw : page.asRawPage P = .ok raw) (hwrite : D.writePage page.pageId raw b.disk = (.ok (), disk)) :
    Mirror P content { b with disk := disk } m ∧ diskPage P (content disk) page.pageId = m page.pageId := by
  have hm : m page.pageId = some page := (h.cached hmap).symm.trans hpage
  have hback : Page.deserialize P raw = .ok page := h.dirty hmap hdirty hm raw hraw
  obtain ⟨hself, hother⟩ := written_own hD hraw hback hwrite
  exact ⟨h.write hself hm hother, hself.trans hm.symm⟩

/-- The frame that is claimed was free, or its page is on the disk. -/
theorem Mirror.claim (hD : D.Lawful P content) (h : Mirror P content b m) (hb : b.Consistent)
    {r : Except (Fail BpmError) (Fin n)}
    (hclaim : Pool.ClaimSpec D P b r b₁) : Mirror P content b₁ m := by
  cases hclaim with
  | free split =>
    refine ⟨h.own, fun g hg => h.empty g ?_, h.cached, h.clean, h.dirty, h.uncached⟩
    rw [split]
    exact List.mem_append_left _ hg
  | @victim f page policy referenced disk none_free unpinned unlatched holds flushed =>
    have hmap := hb.mapped_of_page h.empty holds
    have hkept : Mirror P content { b with disk := disk } m ∧ diskPage P (content disk) page.pageId = m page.pageId := by
      cases hdirty : (b.frames f).dirty with
      | false =>
        rw [hdirty] at flushed
        cases flushed
        exact ⟨h, h.clean hmap hdirty⟩
      | true =>
        rw [hdirty] at flushed
        cases flushed with
        | dirty encoded written => exact h.written hD hmap holds hdirty encoded written
    obtain ⟨hwritten, hself⟩ := hkept
    have hold {id : PageId} {g : Fin n} (hg : Function.update b.pageTable page.pageId none id = some g) :
        b.pageTable id = some g := by
      by_cases hid : id = page.pageId
      · rw [hid, Function.update_self] at hg
        cases hg
      · rwa [Function.update_of_ne hid] at hg
    refine ⟨hwritten.own, h.empty, fun hg => h.cached (hold hg), fun hg => hwritten.clean (hold hg),
      fun hg => h.dirty (hold hg),
      fun {id} hnone => ?_⟩
    by_cases hid : id = page.pageId
    · rw [hid]
      exact hself
    · exact hwritten.uncached ((Function.update_of_ne hid _ _).symm.trans hnone)
  | failed none_free disk_kept => exact h.congr rfl rfl (fun _ => ⟨rfl, rfl⟩) (disk_kept.kept hD hb h.empty)

/-- A page stored in a claimed frame: the map's page, from the disk, or a new one. -/
theorem Mirror.store (h : Mirror P content b m) (hloose : b.Loose f) {page : Page} {dirty : Bool} (hown : page.pageId = id)
    (hclean : dirty = false → diskPage P (content b.disk) id = some page) (hdirty : dirty = true → RoundTrips P page) :
    Mirror P content (b.store f id page dirty) (Function.update m id (some page)) := by
  have hold {id' : PageId} {g : Fin n} (hid : id' ≠ id) (hmap : (b.store f id page dirty).pageTable id' = some g) :
      b.pageTable id' = some g ∧ (b.store f id page dirty).frames g = b.frames g := by
    rw [Pool.store_pageTable, Function.update_of_ne hid] at hmap
    refine ⟨hmap, Pool.store_ne _ _ _ _ ?_⟩
    rintro rfl
    exact hloose.not_mapped id' hmap
  have hnew {g : Fin n} (hmap : (b.store f id page dirty).pageTable id = some g) : g = f := by
    rw [Pool.store_pageTable, Function.update_self] at hmap
    exact (Option.some.inj hmap).symm
  refine ⟨fun {id' q} hq => ?_, fun g hg => ?_, fun {id' g} hmap => ?_, fun {id' g} hmap hg => ?_,
    fun {id' g q} hmap hg hm => ?_, fun {id'} hnone => ?_⟩
  · by_cases hid : id' = id
    · rw [hid, Function.update_self] at hq
      exact hid ▸ Option.some.inj hq ▸ hown
    · rw [Function.update_of_ne hid] at hq
      exact h.own hq
  · rw [Pool.store_ne]
    · exact h.empty g hg
    · rintro rfl
      exact hloose.not_free hg
  · by_cases hid : id' = id
    · subst hid
      rw [hnew hmap, Pool.store_self, Function.update_self]
    · rw [(hold hid hmap).2, Function.update_of_ne hid]
      exact h.cached (hold hid hmap).1
  · by_cases hid : id' = id
    · subst hid
      rw [hnew hmap, Pool.store_self] at hg
      rw [Function.update_self]
      exact hclean hg
    · rw [(hold hid hmap).2] at hg
      rw [Function.update_of_ne hid]
      exact h.clean (hold hid hmap).1 hg
  · by_cases hid : id' = id
    · subst hid
      rw [hnew hmap, Pool.store_self] at hg
      rw [Function.update_self] at hm
      exact Option.some.inj hm ▸ hdirty hg
    · rw [(hold hid hmap).2] at hg
      rw [Function.update_of_ne hid] at hm
      exact h.dirty (hold hid hmap).1 hg hm
  · by_cases hid : id' = id
    · rw [hid, Pool.store_pageTable, Function.update_self] at hnone
      cases hnone
    · rw [Pool.store_pageTable, Function.update_of_ne hid] at hnone
      rw [Function.update_of_ne hid]
      exact h.uncached hnone

/-- A pin and a latch leave what a pool stands for. -/
theorem Mirror.pin (h : Mirror P content b m) (f : Fin n) : Mirror P content (b.pinFrame f) m := by
  refine h.congr rfl rfl (fun g => ?_) fun _ _ => rfl
  by_cases hg : g = f
  · rw [hg, Pool.pinFrame_self]
    exact ⟨rfl, rfl⟩
  · rw [Pool.pinFrame_ne _ hg]
    exact ⟨rfl, rfl⟩

theorem Mirror.unpin (h : Mirror P content b m) (f : Fin n) : Mirror P content (b.unpinFrame f) m := by
  refine h.congr rfl rfl (fun g => ?_) fun _ _ => rfl
  by_cases hg : g = f
  · rw [hg, Pool.unpinFrame_self]
    exact ⟨rfl, rfl⟩
  · rw [Pool.unpinFrame_ne _ hg]
    exact ⟨rfl, rfl⟩

theorem Mirror.latch (h : Mirror P content b m) (f : Fin n) (latch : Latch) : Mirror P content (b.setLatch f latch) m := by
  refine h.congr rfl rfl (fun g => ?_) fun _ _ => rfl
  by_cases hg : g = f
  · rw [hg, Pool.setLatch_self]
    exact ⟨rfl, rfl⟩
  · rw [Pool.setLatch_ne _ _ hg]
    exact ⟨rfl, rfl⟩

theorem Mirror.disk (h : Mirror P content b m) {disk : δ}
    (hdisk : ∀ id, b.OnDisk id → content disk id = content b.disk id) : Mirror P content { b with disk := disk } m :=
  h.congr rfl rfl (fun _ => ⟨rfl, rfl⟩) hdisk

/-- A flush writes out pages of the map only. -/
theorem Mirror.flush (hD : D.Lawful P content) (h : Mirror P content b m) (hb : b.Consistent)
    (hsteps : Pool.FlushSteps D P b b') :
    Mirror P content b' m := by
  have clear {b : Pool n σ δ} {f : Fin n} (h : Mirror P content b m)
      (hdisk : ∀ id, b.pageTable id = some f → diskPage P (content b.disk) id = m id) : Mirror P content
      (b.markClean f) m := by
    have hframe (g : Fin n) : ((b.markClean f).frames g).page = (b.frames g).page ∧
        (g ≠ f → (b.markClean f).frames g = b.frames g) := by
      by_cases hg : g = f
      · subst hg
        exact ⟨by rw [Pool.markClean, Pool.setFrame_self], fun hne => absurd rfl hne⟩
      · exact ⟨by rw [Pool.markClean, Pool.setFrame_ne _ _ hg], fun _ => Pool.setFrame_ne _ _ hg⟩
    refine ⟨h.own, fun g hg => (hframe g).1.trans (h.empty g hg), fun hmap => (hframe _).1.trans (h.cached hmap),
      fun {id g} hmap hclean => ?_, fun {id g q} hmap hg hm => ?_, h.uncached⟩
    · by_cases hgf : g = f
      · exact hdisk id (hgf ▸ hmap)
      · exact h.clean hmap ((hframe g).2 hgf ▸ hclean)
    · by_cases hgf : g = f
      · rw [hgf, Pool.markClean, Pool.setFrame_self] at hg
        cases hg
      · exact h.dirty hmap ((hframe g).2 hgf ▸ hg) hm
  induction hsteps with
  | refl => exact h
  | @tail b₁ b₂ hsteps hstep ih =>
    obtain ⟨htable, hfree, hframes⟩ := Pool.FlushSteps.same hsteps
    have hb₁ : b₁.Consistent := hb.congr (fun f => by rw [(hframes f).1]) htable hfree
    cases hstep with
    | @emptied f empty =>
      refine clear ih fun id hmap => ?_
      obtain ⟨page, hp, -⟩ := hb₁.mapped hmap
      cases empty.symm.trans hp
    | @written f page raw disk dirty holds encoded wrote =>
      have hmap := hb₁.mapped_of_page ih.empty holds
      obtain ⟨hkept, hself⟩ := ih.written hD hmap holds dirty encoded wrote
      refine clear hkept fun id hid => ?_
      rw [hb₁.inj hid hmap]
      exact hself
    | failed disk_kept => exact ih.disk (disk_kept.kept hD hb₁ ih.empty)
    | synced => exact ih.disk fun id _ => congrFun (hD.sync_same _) id

/-- A page that a flush finds dirty stays so or is on the disk as it is encoded. -/
theorem Pool.FlushSteps.stored (hD : D.Lawful P content) (hb : b.Consistent)
    (hfree : ∀ f ∈ b.freeFrames, (b.frames f).page = none)
    (hsteps : Pool.FlushSteps D P b b') {page : Page} (hpage : (b.frames f).page = some page)
    (hdirty : (b.frames f).dirty = true) :
    (b'.frames f).dirty = true ∨ ∃ raw, page.asRawPage P = .ok raw ∧ content b'.disk page.pageId = some raw := by
  have hmap := hb.mapped_of_page hfree hpage
  induction hsteps with
  | refl => exact Or.inl hdirty
  | @tail b₁ b₂ hsteps hstep ih =>
    obtain ⟨htable, hfree₁, hframes⟩ := Pool.FlushSteps.same hsteps
    have hpage₁ : (b₁.frames f).page = some page := (hframes f).1.trans hpage
    cases hstep with
    | @emptied g empty =>
      have hgf : f ≠ g := by
        rintro rfl
        cases hpage₁.symm.trans empty
      rw [Pool.markClean, Pool.setFrame_ne _ _ hgf]
      exact ih
    | @written g q raw disk dirty holds encoded wrote =>
      by_cases hgf : g = f
      · subst hgf
        cases holds.symm.trans hpage₁
        exact Or.inr ⟨raw, encoded, by rw [hD.write_ok encoded wrote, Function.update_self]⟩
      · have hid : page.pageId ≠ q.pageId := by
          intro hid
          have hq := hb.mapped_of_page hfree ((hframes g).1.symm.trans holds)
          rw [← hid, hmap] at hq
          exact hgf (Option.some.inj hq).symm
        rcases ih with h | ⟨raw', hraw', hcontent⟩
        · refine Or.inl ?_
          show ((b₁.markClean g).frames f).dirty = true
          rw [Pool.markClean, Pool.setFrame_ne _ _ (Ne.symm hgf)]
          exact h
        · refine Or.inr ⟨raw', hraw', ?_⟩
          rw [hD.write_ok encoded wrote, Function.update_of_ne hid]
          exact hcontent
    | failed disk_kept =>
      rcases ih with h | ⟨raw, hraw, hcontent⟩
      · exact Or.inl h
      · by_cases hdirty₁ : (b₁.frames f).dirty = true
        · exact Or.inl hdirty₁
        · have hon : b₁.OnDisk page.pageId := fun g hg => by
            rw [htable, hmap] at hg
            cases hg
            exact Bool.not_eq_true _ ▸ hdirty₁
          refine Or.inr ⟨raw, hraw, (disk_kept.kept hD ?_ ?_ _ hon).trans hcontent⟩
          · exact hb.congr (fun f => by rw [(hframes f).1]) htable hfree₁
          · exact fun g hg => (hframes g).1.trans (hfree g (hfree₁ ▸ hg))
    | synced =>
      rcases ih with h | ⟨raw, hraw, hcontent⟩
      · exact Or.inl h
      · exact Or.inr ⟨raw, hraw, by rw [hD.sync_same]; exact hcontent⟩

/-! ## Each call -/

theorem Mirror.read (hD : D.Lawful P content) (h : Mirror P content b m) {r : Except IoError (List UInt8)} {disk : δ}
    (hread : D.readPage id b.disk = (r, disk)) : Mirror P content { b with disk := disk } m := by
  refine h.disk fun x _ => ?_
  rw [← hD.read_same id b.disk, hread]

/-- A fetch under the lock stands for the same map, and its frame holds the map's page. -/
theorem checkout_mirror (hD : D.Lawful P content) (h : Mirror P content b m) (hb : b.Consistent)
    {r : Except (Fail BpmError) (Fin n)} (hcheck : b.checkoutPage D E P id = (r, b')) :
    Mirror P content b' m ∧ ∀ f, r = .ok f → (b'.frames f).page = m id := by
  have hb₀ (disk : δ) : ({ b with disk := disk } : Pool n σ δ).Consistent := hb.congr (fun _ => rfl) rfl rfl
  cases Pool.checkoutPage_spec hcheck with
  | @cached f mapped =>
    refine ⟨h.pin f, fun g hg => ?_⟩
    cases hg
    rw [Pool.pinFrame_self]
    exact h.cached mapped
  | unread absent read => exact ⟨h.read hD read, fun g hg => by cases hg⟩
  | unclaimed absent read claimed => exact ⟨(h.read hD read).claim hD (hb₀ _) claimed, fun g hg => by cases hg⟩
  | latched absent read claimed latched => exact ⟨(h.read hD read).claim hD (hb₀ _) claimed, fun g hg => by cases hg⟩
  | @loaded raw page disk f b₁ absent read decoded claimed unlatched =>
    have h₁ := (h.read hD read).claim hD (hb₀ disk) claimed
    have hm : m id = some page := by
      rw [← h.uncached absent, diskPage, hD.read_ok read, Option.bind_some, decoded]
      rfl
    have hstore : Mirror P content (b₁.store f id page false) (Function.update m id (some page)) :=
      h₁.store (claimed.loose (hb₀ disk)) (h.own hm) (fun _ => (h₁.uncached (claimed.absent absent)).trans hm) nofun
    rw [← hm, Function.update_eq_self] at hstore
    refine ⟨hstore.pin f, fun g hg => ?_⟩
    cases hg
    rw [Pool.pinFrame_self, Pool.store_self]
    exact hm.symm

/-- A creation under the lock changes the map under the new page's id, or not at all. -/
theorem install_mirror (hD : D.Lawful P content) (h : Mirror P content b m) (hb : b.Consistent) {page : Page}
    (htrip : RoundTrips P page) {r : Except (Fail BpmError) (Fin n)} (hinstall : b.installPage D E P page = (r, b')) :
    (∀ e, r = .error e → Mirror P content b' m) ∧
    ∀ f, r = .ok f → Mirror P content b' (Function.update m page.pageId (some page)) := by
  cases Pool.installPage_spec hinstall with
  | present mapped => exact ⟨fun _ _ => h, (by intro f hf; cases hf)⟩
  | unclaimed absent claimed => exact ⟨fun _ _ => h.claim hD hb claimed, (by intro f hf; cases hf)⟩
  | latched absent claimed latched => exact ⟨fun _ _ => h.claim hD hb claimed, (by intro f hf; cases hf)⟩
  | @installed f b₁ absent claimed unlatched =>
    refine ⟨(by intro e he; cases he), fun _ _ => ?_⟩
    exact (((h.claim hD hb claimed).store (claimed.loose hb) rfl (fun he => by cases he) fun _ => htrip).latch f .write).pin f

/-- A page changed in the frame it is mapped to. -/
theorem Mirror.change (h : Mirror P content b m) (hb : b.Consistent) {page : Page} (hmap : b.pageTable page.pageId = some f)
    (htrip : RoundTrips P page) :
    Mirror P content (b.setFrame f { b.frames f with page := some page, dirty := true })
    (Function.update m page.pageId (some page)) := by
  have hother {id : PageId} {g : Fin n} (hid : id ≠ page.pageId) (hg : b.pageTable id = some g) : g ≠ f := by
    rintro rfl
    exact hid (hb.inj hg hmap)
  refine ⟨fun {id q} hq => ?_, fun g hg => ?_, fun {id g} hg => ?_, fun {id g} hg hclean => ?_,
    fun {id g q} hg hdirty hm => ?_, fun {id} hnone => ?_⟩
  · by_cases hid : id = page.pageId
    · rw [hid, Function.update_self] at hq
      exact hid ▸ Option.some.inj hq ▸ rfl
    · rw [Function.update_of_ne hid] at hq
      exact h.own hq
  · rw [Pool.setFrame_ne]
    · exact h.empty g hg
    · rintro rfl
      exact hb.disjoint hmap hg
  · by_cases hid : id = page.pageId
    · subst hid
      cases hmap.symm.trans hg
      rw [Pool.setFrame_self, Function.update_self]
    · rw [Pool.setFrame_ne _ _ (hother hid hg), Function.update_of_ne hid]
      exact h.cached hg
  · by_cases hid : id = page.pageId
    · subst hid
      cases hmap.symm.trans hg
      rw [Pool.setFrame_self] at hclean
      cases hclean
    · rw [Pool.setFrame_ne _ _ (hother hid hg)] at hclean
      rw [Function.update_of_ne hid]
      exact h.clean hg hclean
  · by_cases hid : id = page.pageId
    · rw [hid, Function.update_self] at hm
      exact Option.some.inj hm ▸ htrip
    · rw [Pool.setFrame_ne _ _ (hother hid hg)] at hdirty
      rw [Function.update_of_ne hid] at hm
      exact h.dirty hg hdirty hm
  · have hid : id ≠ page.pageId := by
      rintro rfl
      cases hmap.symm.trans hnone
    rw [Function.update_of_ne hid]
    exact h.uncached hnone

end

namespace Session

variable (D : DiskManager δ) (E : EvictionPolicy n σ) (P : Platform)

/-- The map after a call. -/
def Op.effect (m : PageId → Option Page) : Op n → Answer n → PageId → Option Page
  | .newPage page, .ok _ | .put _ page, .ok _ => Function.update m page.pageId (some page)
  | _, _ => m

/-- A page is created or written only if the codec gives it back, and the file is not swapped. -/
def Op.Codable : Op n → Prop
  | .newPage page | .put _ page => RoundTrips P page
  | .swapFile _ => False
  | _ => True

/-- Completed calls in order, and the map that they make. -/
inductive Trace : Session n σ δ → (PageId → Option Page) → List (Op n) → Session n σ δ → (PageId → Option Page) → Prop where
  | nil (s : Session n σ δ) (m : PageId → Option Page) : Trace s m [] s m
  | cons {s s₁ s' : Session n σ δ} {m m' : PageId → Option Page} {op : Op n} {ops : List (Op n)} {r : Answer n}
      (step : s.step D E P op = some (r, s₁)) (completed : r ≠ .error .panic) (codable : op.Codable P)
      (rest : Trace s₁ (op.effect m r) ops s' m') : Trace s m (op :: ops) s' m'

variable {D E P} {content : δ → PageId → Option (List UInt8)} {s s' : Session n σ δ} {m : PageId → Option Page}
  {f : Fin n} {id : PageId} {r : Answer n}

/-- A page that is not cached is stored under its own id, so that a fetch reads the page it asks for. -/
theorem read_own (hD : D.Lawful P content) (hm : Mirror P content s.pool m) (habsent : s.pool.pageTable id = none)
    {raw : List UInt8} {disk : δ} {page : Page} (hread : D.readPage id s.pool.disk = (.ok raw, disk))
    (hpage : Page.deserialize P raw = .ok page) : page.pageId = id := by
  refine hm.own ((hm.uncached habsent).symm.trans ?_)
  rw [diskPage, hD.read_ok hread, Option.bind_some, hpage]
  rfl

theorem reads_own (hD : D.Lawful P content) (hm : Mirror P content s.pool m) (id : PageId) : ReadsOwn D E P s id :=
  fun habsent _ _ _ hread hpage _ => read_own hD hm habsent hread hpage

/-- The frame of a guard holds a page, mapped under its id. -/
theorem Sound.guarded (h : s.Sound) {g : Guard n} (hg : g ∈ s.guards) :
    ∃ page, (s.pool.frames g.frame).page = some page ∧ s.pool.pageTable page.pageId = some g.frame := by
  obtain ⟨id, hmap⟩ := (h.tables.covered g.frame).resolve_left (h.live g hg)
  obtain ⟨page, hp, rfl⟩ := h.tables.mapped hmap
  exact ⟨page, hp, hmap⟩

theorem fetch_mirror (hD : D.Lawful P content) (h : s.Sound) (hm : Mirror P content s.pool m) {write : Bool}
    (hfetch : s.fetch D E P write id = some (r, s')) :
    Mirror P content s'.pool m ∧ ∀ f, r = .ok (some f) → ∃ page, m id = some page ∧ (s'.pool.frames f).page = some page := by
  have hsound : s'.Sound := fetch_sound h (reads_own hD hm id) hfetch
  unfold fetch at hfetch
  rcases hcheck : s.pool.checkoutPage D E P id with ⟨_ | f, b⟩
  · obtain ⟨hkept, -⟩ := checkout_mirror hD hm h.tables hcheck
    rw [hcheck] at hfetch
    cases hfetch
    exact ⟨hkept, fun f hf => by cases hf⟩
  · obtain ⟨hkept, hpage⟩ := checkout_mirror hD hm h.tables hcheck
    simp only [hcheck] at hfetch
    cases hacquire : Latch.acquire write (b.frames f).latch with
    | none =>
      rw [hacquire] at hfetch
      cases hfetch
    | some latch =>
      rw [hacquire] at hfetch
      cases hwrong : (b.frames f).page.filter fun page => page.pageId ≠ id with
      | some page =>
        rw [hwrong] at hfetch
        cases hfetch
        exact ⟨hkept, fun f hf => by cases hf⟩
      | none =>
        rw [hwrong] at hfetch
        cases hfetch
        refine ⟨hkept.latch f latch, fun g hg => ?_⟩
        cases hg
        obtain ⟨page, hp, -⟩ := hsound.guarded List.mem_cons_self
        have hpage' : (b.frames f).page = some page := by rwa [Pool.setLatch_self] at hp
        exact ⟨page, (hpage f rfl).symm.trans hpage', hp⟩

theorem newPage_mirror (hD : D.Lawful P content) (h : s.Sound) (hm : Mirror P content s.pool m) {page : Page}
    (htrip : RoundTrips P page)
    (hnew : s.newPage D E P page = (r, s')) : Mirror P content s'.pool ((Op.newPage page : Op n).effect m r) := by
  unfold newPage at hnew
  rcases hinstall : s.pool.installPage D E P page with ⟨_ | f, b⟩
  · rw [hinstall] at hnew
    cases hnew
    exact (install_mirror hD hm h.tables htrip hinstall).1 _ rfl
  · rw [hinstall] at hnew
    cases hnew
    exact (install_mirror hD hm h.tables htrip hinstall).2 f rfl

/-- A call keeps the pool standing for the map that the call makes. -/
theorem step_mirror (hD : D.Lawful P content) (h : s.Sound) (hm : Mirror P content s.pool m) {op : Op n} (hop : op.Codable P)
    (hstep : s.step D E P op = some (r, s')) (hr : r ≠ .error .panic) : s'.Sound ∧
    Mirror P content s'.pool (op.effect m r) := by
  have hown : op.ReadsOwn D E P s := by
    cases op with
    | fetchRead id | fetchWrite id => exact reads_own hD hm id
    | newPage _ | put _ _ | drop _ | flushAll | swapFile _ => trivial
  refine ⟨step_sound h hown hstep hr, ?_⟩
  cases op with
  | newPage page => exact newPage_mirror hD h hm hop (Option.some.inj hstep)
  | fetchRead id => exact (fetch_mirror hD h hm hstep).1
  | fetchWrite id => exact (fetch_mirror hD h hm hstep).1
  | put f page =>
    obtain ⟨⟨hguard, hid⟩, heq⟩ := Option.ite_none_right_eq_some.mp hstep
    cases heq
    obtain ⟨old, hold, hmap⟩ := h.guarded hguard
    rw [hold, Option.map_some, Option.some.injEq] at hid
    exact hm.change h.tables (hid ▸ hmap) hop
  | drop g =>
    obtain ⟨-, heq⟩ := Option.ite_none_right_eq_some.mp hstep
    cases heq
    exact (hm.latch g.frame _).unpin g.frame
  | flushAll =>
    obtain ⟨⟨r₁, b⟩, hflush, heq⟩ := Option.map_eq_some_iff.mp hstep
    cases heq
    exact hm.flush hD h.tables (Pool.flushAll_spec hflush).1
  | swapFile pages => exact absurd hop id

theorem Trace.mirror (hD : D.Lawful P content) (h : s.Sound) (hm : Mirror P content s.pool m) {ops : List (Op n)}
    {m' : PageId → Option Page} (htrace : Trace D E P s m ops s' m') : s'.Sound ∧ Mirror P content s'.pool m' := by
  induction htrace with
  | nil s m => exact ⟨h, hm⟩
  | cons step completed codable rest ih =>
    obtain ⟨h₁, hm₁⟩ := step_mirror hD h hm codable step completed
    exact ih h₁ hm₁

theorem new_mirror {disk : δ} (hown : OwnIds P (content disk)) (policy : σ) :
    Mirror P content (new disk policy : Session n σ δ).pool (diskPage P (content disk)) where
  own hpage := hown _ _ hpage
  empty _ _ := rfl
  cached hmap := by cases hmap
  clean hmap _ := by cases hmap
  dirty hmap _ _ := by cases hmap
  uncached _ := rfl

/-- A pool just made fetches a page that can be read and decoded. -/
theorem new_fetch_decoded {disk disk' : δ} (policy : σ) (hn : 0 < n) {page : Page} {raw : List UInt8} (write : Bool)
    (hread : D.readPage id disk = (.ok raw, disk')) (hraw : Page.deserialize P raw = .ok page) (hid : page.pageId = id) :
    ∃ f s', (new disk policy : Session n σ δ).fetch D E P write id = some (.ok (some f), s') ∧
      (s'.pool.frames f).page = some page ∧ s'.guards = [⟨f, write⟩] ∧ s'.pool.pageTable id = some f := by
  have hfree : List.finRange n ≠ [] := List.ne_nil_of_mem (List.mem_finRange ⟨0, hn⟩)
  obtain ⟨f, hlast⟩ : ∃ f, (List.finRange n).getLast? = some f := ⟨_, List.getLast?_eq_some_getLast hfree⟩
  have hread' : D.readPage id (Pool.new disk policy : Pool n σ δ).disk = (.ok raw, disk') := hread
  let b₁ : Pool n σ δ := { (Pool.new disk' policy) with freeFrames := (List.finRange n).dropLast }
  have hcheck : (new disk policy : Session n σ δ).pool.checkoutPage D E P id =
      (.ok f, (b₁.store f id page false).pinFrame f) := by
    simp only [Pool.checkoutPage, new, Pool.loadPage, hread', hraw, Pool.claimFrame]
    simp only [Pool.new, hlast, Pool.storePage, Frame.empty, ne_eq, not_true, if_false]
    rfl
  have hframe : ((b₁.store f id page false).pinFrame f).frames f = ⟨some page, 1, false, .readers 0⟩ := by
    rw [Pool.pinFrame_self, Pool.store_self]
    rfl
  obtain ⟨latch, hlatch⟩ : ∃ latch, Latch.acquire write (.readers 0) = some latch := by
    cases write
    · exact ⟨_, rfl⟩
    · exact ⟨_, rfl⟩
  refine ⟨f, ⟨((b₁.store f id page false).pinFrame f).setLatch f latch, [⟨f, write⟩]⟩, ?_, ?_, rfl,
    Function.update_self _ _ _⟩
  · have hkeep : (some page).filter (fun q => q.pageId ≠ id) = none := by simp [hid]
    simp only [fetch, hcheck, hframe, hlatch, hkeep]
    rfl
  · rw [Pool.setLatch_self, hframe]

/-- A pool just made fetches every page of the disk that can be read. -/
theorem new_fetch (hD : D.Lawful P content) {disk disk' : δ} (hown : OwnIds P (content disk)) (policy : σ) (hn : 0 < n)
    {page : Page}
    (hpage : diskPage P (content disk) id = some page) {raw : List UInt8}
    (hread : D.readPage id disk = (.ok raw, disk')) (write : Bool) :
    ∃ f s', (new disk policy : Session n σ δ).fetch D E P write id = some (.ok (some f), s') ∧
    (s'.pool.frames f).page = some page := by
  have hraw : Page.deserialize P raw = .ok page := by
    rw [diskPage, hD.read_ok hread, Option.bind_some] at hpage
    cases hdec : Page.deserialize P raw with
    | error e =>
      rw [hdec] at hpage
      cases hpage
    | ok q =>
      rw [hdec] at hpage
      cases hpage
      rfl
  obtain ⟨f, s', hfetch, hp, -, -⟩ := new_fetch_decoded (E := E) policy hn write hread hraw (hown id page hpage)
  exact ⟨f, s', hfetch, hp⟩

/-- Over a lawful disk that stores every page under its own id, a pool of any size and policy is
    the map of the pages last created or written, whatever calls were made. -/
theorem pool_transparent (hD : D.Lawful P content) {disk : δ} {policy : σ} (hown : OwnIds P (content disk))
    {ops : List (Op n)} (htrace : Trace D E P (new disk policy) (diskPage P (content disk)) ops s m) :
    (∀ write id f s', s.fetch D E P write id = some (.ok (some f), s') →
      ∃ page, m id = some page ∧ (s'.pool.frames f).page = some page) ∧
    (∀ (op : Op n) e s', op.Codable P → s.step D E P op = some (.error (.err e), s') →
      ∀ id, s.pool.logical P content id = m id ∧ s'.pool.logical P content id = m id) ∧
    ∀ s', s.step D E P .flushAll = some (.ok none, s') → ∀ (k : ℕ) (τ : Type) (E' : EvictionPolicy k τ) (policy' : τ),
      (∀ id, (new s'.pool.disk policy' : Session k τ δ).pool.logical P content id = m id) ∧
      (∀ write id f s₁, (new s'.pool.disk policy' : Session k τ δ).fetch D E' P write id = some (.ok (some f), s₁) →
        ∃ page, m id = some page ∧ (s₁.pool.frames f).page = some page) ∧
      ∀ write id page raw disk', 0 < k → m id = some page → D.readPage id s'.pool.disk = (.ok raw, disk') →
        ∃ f s₁, (new s'.pool.disk policy' : Session k τ δ).fetch D E' P write id = some (.ok (some f), s₁) ∧
          (s₁.pool.frames f).page = some page := by
  obtain ⟨h, hm⟩ := htrace.mirror hD (new_sound disk policy) (new_mirror hown policy)
  refine ⟨fun write id f s' hfetch => (fetch_mirror hD h hm hfetch).2 f rfl, fun op e s' hop hstep id => ?_,
    fun s' hstep k τ E' policy' => ?_⟩
  · obtain ⟨-, hm'⟩ := step_mirror hD h hm hop hstep (by intro he; cases he)
    have heffect : op.effect m (.error (.err e) : Answer n) = m := by cases op <;> rfl
    rw [heffect] at hm'
    exact ⟨hm.logical id, hm'.logical id⟩
  · obtain ⟨⟨r₁, b⟩, hflush, heq⟩ := Option.map_eq_some_iff.mp hstep
    obtain ⟨hr₁, hb⟩ := Prod.mk.inj heq
    subst hb
    have hclean : ∀ f, (b.frames f).dirty = false := by
      cases r₁ with
      | error e => cases hr₁
      | ok _ => exact (Pool.flushAll_spec hflush).2 rfl
    have hm' : Mirror P content b m := hm.flush hD h.tables (Pool.flushAll_spec hflush).1
    have hdisk : diskPage P (content b.disk) = m := by
      funext id
      cases hmap : b.pageTable id with
      | some f => exact hm'.clean hmap (hclean f)
      | none => exact hm'.uncached hmap
    have hown' : OwnIds P (content b.disk) := fun id page hp => hm'.own ((congrFun hdisk id).symm.trans hp)
    have hnew := new_mirror (n := k) hown' policy'
    rw [hdisk] at hnew
    exact ⟨hnew.logical, fun write id f s₁ hfetch => (fetch_mirror hD (new_sound b.disk policy') hnew hfetch).2 f rfl,
      fun write id page raw disk' hk hpage hread =>
        new_fetch hD hown' policy' hk (hdisk ▸ hpage) hread write⟩

/-- The disk that is a map is lawful. -/
theorem mapDisk_lawful : (mapDisk P).Lawful P (fun disk => disk) where
  read_ok {id d d' raw} h := by
    unfold mapDisk at h
    cases hraw : d id with
    | none =>
      simp only [hraw] at h
      cases h
    | some raw' =>
      simp only [hraw] at h
      cases h
      rfl
  read_same id d := by
    unfold mapDisk
    cases hraw : d id with
    | none => simp only [hraw]
    | some raw => simp only [hraw]
  write_ok _ h := by
    cases h
    rfl
  write_error _ h := by cases h
  sync_same _ := rfl

theorem strayPage_roundTrips : RoundTrips .standard strayPage := by
  obtain ⟨raw, hraw, -, hpage⟩ := Page.deserialize_asRawPage .standard strayPage rfl rfl (by intro records h; cases h)
  intro raw' hraw'
  cases hraw.symm.trans hraw'
  exact hpage

theorem otherPage_roundTrips : RoundTrips .standard otherPage := by
  obtain ⟨raw, hraw, -, hpage⟩ := Page.deserialize_asRawPage .standard otherPage rfl rfl (by intro records h; cases h)
  intro raw' hraw'
  cases hraw.symm.trans hraw'
  exact hpage

/-- The pages 2 and 3, and no other. -/
def bothPages : PageId → Option Page :=
  Function.update (Function.update (diskPage .standard fun _ => none) strayPage.pageId (some strayPage)) otherPage.pageId
    (some otherPage)

theorem reload_trace {raw raw' : List UInt8} (hraw : strayPage.asRawPage .standard = .ok raw)
    (hdecoded : Page.deserialize .standard raw = .ok strayPage) (hraw' : otherPage.asRawPage .standard = .ok raw') :
    Trace (mapDisk .standard) (replacer Nat.one_pos) .standard (new (fun _ => none) 0) (diskPage .standard fun _ => none)
      reloadOps (held (twoPages raw raw') strayPage false false) bothPages := by
  have hdisk : Function.update (fun _ => none) strayPage.pageId (some raw) strayPage.pageId = some raw :=
    Function.update_self _ _ _
  refine .cons (congrArg some newPage_new) (by intro h; cases h) strayPage_roundTrips ?_
  refine .cons (drop_held true) (by intro h; cases h) trivial ?_
  refine .cons (congrArg some (newPage_cached (.dirty hraw rfl) (by decide))) (by intro h; cases h) otherPage_roundTrips ?_
  refine .cons (drop_held true) (by intro h; cases h) trivial ?_
  exact .cons (fetch_cached (.dirty hraw' rfl) (by decide) hdisk hdecoded false) (by intro h; cases h) trivial (.nil _ _)

/-- Page 3 stands on the disk only, page 2 in the frame it was loaded into: a creation that is
    refused changes neither. -/
theorem pool_transparent_reload : ∃ s : Session 1 (Fin 1) (PageId → Option (List UInt8)),
    s.pool.pageTable otherPage.pageId = none ∧
    s.pool.logical .standard (fun disk => disk) otherPage.pageId = some otherPage ∧
    s.pool.logical .standard (fun disk => disk) strayPage.pageId = some strayPage := by
  obtain ⟨raw, raw', hraw, hdecoded, hraw'⟩ := stray_encoded
  have hown : OwnIds .standard (fun _ : PageId => (none : Option (List UInt8))) := by
    intro id page h
    cases h
  have hmap : (held (twoPages raw raw') strayPage false false).pool.pageTable strayPage.pageId = some 0 := rfl
  have hdup : (held (twoPages raw raw') strayPage false false).step (mapDisk .standard) (replacer Nat.one_pos) .standard
      (.newPage strayPage) = some (.error (.err (.alreadyExists strayPage.pageId)),
        held (twoPages raw raw') strayPage false false) := by
    simp only [step, newPage, Pool.installPage, hmap]
    rfl
  have hkept := (pool_transparent mapDisk_lawful hown (reload_trace hraw hdecoded hraw')).2.1 (.newPage strayPage) _ _
    strayPage_roundTrips hdup
  refine ⟨_, rfl, (hkept otherPage.pageId).1, (hkept strayPage.pageId).1.trans ?_⟩
  exact (Function.update_of_ne (by decide) _ _).trans (Function.update_self _ _ _)

end Session

end Bpm

end RustDb
