/-
  RustDb.Bpm.Serve — the calls above the pool, run over the pool itself.

  `Call` programs name guards by their pages. `Session.serve` answers their requests with the
  calls of a session: a guard's page is what its frame holds, and leaving a call drops the
  guards taken since the session had `held` of them. `Call.run_mapErr`, `Call.run_lift` and
  `Call.run_unwinding_cases` take a run apart, whatever handler answers.
-/

import RustDb.Bpm.Transparent

namespace RustDb

open Lib

/-! ## Runs of calls, under any handler -/

namespace Call

variable {S ε ε' α : Type} {H : Prog.Handler PoolOp PoolOp.Res S} {s s' : S} {p : Call ε α} {r : Except (Fail ε) α}

theorem run_mapErr (f : ε → ε') (p : Call ε α) (s : S) :
    Prog.run H (p.mapErr f).run s = (Prog.run H p.run s).map fun x => (x.1.mapError (Fail.map f), x.2) := by
  have hbind := Prog.run_bind (H := H) p.run (fun x => pure (Except.mapError (Fail.map f) x)) s
  rw [Option.map_eq_bind]
  exact hbind

theorem run_lift (o : PoolOp) (s : S) :
    Prog.run H (ExceptT.lift (Prog.request o) : Call ε o.Res).run s = (H o s).map fun x => (.ok x.1, x.2) := by
  have hbind := Prog.run_bind (H := H) (@Prog.request PoolOp PoolOp.Res o) (fun x => pure (Except.ok (ε := Fail ε) x)) s
  rw [Prog.run_request] at hbind
  rw [Option.map_eq_bind]
  exact hbind

theorem run_lift_ok {o : PoolOp} {r : Except (Fail ε) o.Res}
    (h : Prog.run H (ExceptT.lift (Prog.request o) : Call ε o.Res).run s = some (r, s')) : ∃ a, H o s = some (a, s') ∧
    r = .ok a := by
  rw [run_lift] at h
  obtain ⟨x, hx, he⟩ := Option.map_eq_some_iff.mp h
  cases he
  exact ⟨x.1, hx, rfl⟩

theorem run_unwinding_cases (h : Prog.run H p.unwinding.run s = some (r, s')) :
    (∃ a, Prog.run H p.run s = some (.ok a, s') ∧ r = .ok a) ∨
      ∃ e s₁, Prog.run H p.run s = some (.error e, s₁) ∧ H .unwind s₁ = some ((), s') ∧ r = .error e := by
  have hbind : Prog.run H p.unwinding.run s = (Prog.run H p.run s).bind fun x => Prog.run H (leave x.1) x.2 :=
    Prog.run_bind _ _ s
  rw [hbind] at h
  obtain ⟨⟨r₁, s₁⟩, hp, hl⟩ := Option.bind_eq_some_iff.mp h
  cases r₁ with
  | ok a =>
    cases hl
    exact Or.inl ⟨a, hp, rfl⟩
  | error e =>
    rcases Prog.run_bind_cases hl with ⟨e', hu, -⟩ | ⟨a, s₂, hu, ht⟩
    · obtain ⟨a, -, hx⟩ := run_lift_ok (o := .unwind) hu
      cases hx
    · obtain ⟨a, hunwind, -⟩ := run_lift_ok (o := .unwind) hu
      cases ht
      exact Or.inr ⟨e, s₁, hp, hunwind, rfl⟩

end Call

namespace Bpm

variable {n : Nat} {σ δ : Type} (D : DiskManager δ) (E : EvictionPolicy n σ) (P : Platform)

namespace Session

/-- What a caller sees of an answer: the page under the guard, which `Deref` expects there. -/
def answer (s : Session n σ δ) : Answer n → Except (Fail BpmError) Page
  | .error e => .error e
  | .ok guard =>
    match guard.bind fun f => (s.pool.frames f).page with
    | some page => .ok page
    | none => .error .panic

/-- Guards dropped one after the other. -/
def dropGuards : List (Guard n) → Session n σ δ → Option (Session n σ δ)
  | [], s => some s
  | g :: gs, s => (s.drop g).bind fun x => dropGuards gs x.2

/-- Requests answered by the calls of a session that began with `held` guards. -/
def serve (held : Nat) : (o : PoolOp) → Session n σ δ → Option (o.Res × Session n σ δ)
  | .fetchRead id, s => (s.fetchRead D E P id).map fun x => (x.2.answer x.1, x.2)
  | .fetchWrite id, s => (s.fetchWrite D E P id).map fun x => (x.2.answer x.1, x.2)
  | .newPage page, s => some ((s.newPage D E P page).2.answer (s.newPage D E P page).1, (s.newPage D E P page).2)
  | .put page, s => (s.pool.pageTable page.pageId).bind fun f => (s.put f page).map fun x => ((), x.2)
  | .drop id, s => (s.pool.pageTable id).bind fun f => (s.drop ⟨f, s.guards.contains ⟨f, true⟩⟩).map fun x => ((), x.2)
  | .unwind, s => (dropGuards (s.guards.take (s.guards.length - held)) s).map fun s => ((), s)
  | .flushAll, s => (s.pool.flushAll D P).map fun x => (x.1, { s with pool := x.2 })
  | .swapFile pages, s => (s.pool.swapFile D P pages).map fun x => (x.1, { s with pool := x.2 })

/-- A call run to its end, with the guards it began with left in place. -/
def call {ε α : Type} (p : Call ε α) (s : Session n σ δ) : Option (Except (Fail ε) α × Session n σ δ) :=
  Prog.run (serve D E P s.guards.length) p.run s

end Session

/-! ## Calls that leave the pages alone -/

/-- The tables and the pages are the same, and so is the disk but for pages still to be written. -/
structure Pool.Kept (content : δ → PageId → Option (List UInt8)) (b b' : Pool n σ δ) : Prop where
  frames : ∀ f, (b'.frames f).page = (b.frames f).page ∧ (b'.frames f).dirty = (b.frames f).dirty
  table : b'.pageTable = b.pageTable
  free : b'.freeFrames = b.freeFrames
  disk : ∀ id, b.OnDisk id → content b'.disk id = content b.disk id

/-- A page that a flush has to write. -/
def Pool.Pending (b : Pool n σ δ) (page : Page) : Prop := ∃ f, (b.frames f).page = some page ∧ (b.frames f).dirty = true

section
variable {D E P} {content : δ → PageId → Option (List UInt8)} {b b' b₁ : Pool n σ δ} {m : PageId → Option Page} {f : Fin n}

theorem Pool.Kept.trans (h : b.Kept content b₁) (h' : b₁.Kept content b') : b.Kept content b' where
  frames f := ⟨(h'.frames f).1.trans (h.frames f).1, (h'.frames f).2.trans (h.frames f).2⟩
  table := h'.table.trans h.table
  free := h'.free.trans h.free
  disk id hid := (h'.disk id fun f hf => (h.frames f).2.trans (hid f (h.table ▸ hf))).trans (h.disk id hid)

theorem Pool.Kept.logical (h : b.Kept content b') (id : PageId) : b'.logical P content id = b.logical P content id := by
  unfold Pool.logical
  rw [h.table]
  cases hmap : b.pageTable id with
  | some f => exact (h.frames f).1
  | none => exact congrArg (Option.bind · _) (h.disk id fun f hf => by cases hmap.symm.trans hf)

theorem Pool.Kept.pending (h : b.Kept content b') (page : Page) : b'.Pending page ↔ b.Pending page := by
  unfold Pool.Pending
  simp only [h.frames]

theorem Pool.Kept.empty (h : b.Kept content b') (hfree : ∀ f ∈ b.freeFrames, (b.frames f).page = none) :
    ∀ f ∈ b'.freeFrames, (b'.frames f).page = none :=
  fun f hf => (h.frames f).1.trans (hfree f (h.free ▸ hf))

theorem Mirror.kept (hm : Mirror P content b m) (h : b.Kept content b') : Mirror P content b' m :=
  hm.congr h.table h.free h.frames h.disk

variable (content) in
theorem Pool.pinFrame_kept (b : Pool n σ δ) (f : Fin n) : b.Kept content (b.pinFrame f) := by
  refine ⟨fun g => ?_, rfl, rfl, fun _ _ => rfl⟩
  by_cases hg : g = f
  · rw [hg, Pool.pinFrame_self]
    exact ⟨rfl, rfl⟩
  · rw [Pool.pinFrame_ne _ hg]
    exact ⟨rfl, rfl⟩

variable (content) in
theorem Pool.setLatch_kept (b : Pool n σ δ) (f : Fin n) (latch : Latch) : b.Kept content (b.setLatch f latch) := by
  refine ⟨fun g => ?_, rfl, rfl, fun _ _ => rfl⟩
  by_cases hg : g = f
  · rw [hg, Pool.setLatch_self]
    exact ⟨rfl, rfl⟩
  · rw [Pool.setLatch_ne _ _ hg]
    exact ⟨rfl, rfl⟩

variable (content) in
theorem Pool.unpinFrame_kept (b : Pool n σ δ) (f : Fin n) : b.Kept content (b.unpinFrame f) := by
  refine ⟨fun g => ?_, rfl, rfl, fun _ _ => rfl⟩
  by_cases hg : g = f
  · rw [hg, Pool.unpinFrame_self]
    exact ⟨rfl, rfl⟩
  · rw [Pool.unpinFrame_ne _ hg]
    exact ⟨rfl, rfl⟩

/-- Claiming that fails keeps everything. -/
theorem Pool.ClaimSpec.kept (hD : D.Lawful P content) (hb : b.Consistent)
    (hfree : ∀ f ∈ b.freeFrames, (b.frames f).page = none) {e : Fail BpmError}
    (hclaim : Pool.ClaimSpec D P b (.error e) b₁) : b.Kept content b₁ := by
  cases hclaim with
  | failed none_free disk_kept => exact ⟨fun _ => ⟨rfl, rfl⟩, rfl, rfl, disk_kept.kept hD hb hfree⟩

end

/-! ## What a flush comes to -/

/-- A disk that fails no write and no sync. -/
structure DiskManager.Writes (D : DiskManager δ) : Prop where
  write : ∀ id raw d, (D.writePage id raw d).1 = .ok ()
  sync : ∀ d, (D.sync d).1 = .ok ()

namespace Pool
variable {D P} {b b' : Pool n σ δ} {f : Fin n}

/-- A frame that is dirty is flushed just where its page can be encoded. -/
theorem flushFrame_ok_iff (hD : D.Writes) : (b.flushFrame D P f).1 = .ok () ↔
    ∀ page, (b.frames f).page = some page → (b.frames f).dirty = true → ∃ raw, page.asRawPage P = .ok raw := by
  unfold flushFrame
  by_cases hdirty : (b.frames f).dirty = true
  · rw [if_pos hdirty]
    cases hpage : (b.frames f).page with
    | none => simp
    | some page =>
      cases hraw : page.asRawPage P with
      | error e => simp [hraw, hdirty]
      | ok raw =>
        have hwrite := hD.write page.pageId raw b.disk
        rcases hres : D.writePage page.pageId raw b.disk with ⟨r, disk⟩
        rw [hres] at hwrite
        cases hwrite
        simp only [hraw, hres]
        simp [hraw]
  · rw [if_neg hdirty]
    simp [hdirty]

/-- It leaves the other frames, and in the frame no more to be written than before. -/
theorem flushFrame_frames (g : Fin n) : ((b.flushFrame D P f).2.frames g).page = (b.frames g).page ∧
    (((b.flushFrame D P f).2.frames g).dirty = true → (b.frames g).dirty = true) ∧
    (g ≠ f → ((b.flushFrame D P f).2.frames g).dirty = (b.frames g).dirty) := by
  have clean : ((b.markClean f).frames g).page = (b.frames g).page ∧
      (((b.markClean f).frames g).dirty = true → (b.frames g).dirty = true) ∧
      (g ≠ f → ((b.markClean f).frames g).dirty = (b.frames g).dirty) := by
    by_cases hg : g = f
    · subst hg
      rw [markClean, setFrame_self]
      exact ⟨rfl, fun h => absurd h Bool.false_ne_true, fun h => absurd rfl h⟩
    · rw [markClean, setFrame_ne _ _ hg]
      exact ⟨rfl, id, fun _ => rfl⟩
  have same : (b.frames g).page = (b.frames g).page ∧ ((b.frames g).dirty = true → (b.frames g).dirty = true) ∧
      (g ≠ f → (b.frames g).dirty = (b.frames g).dirty) := ⟨rfl, id, fun _ => rfl⟩
  unfold flushFrame
  split
  · split
    · exact clean
    · split
      · exact same
      · split
        · exact same
        · exact clean
  · exact same

theorem flushFrames_ok_iff (hD : D.Writes) {fs : List (Fin n)} {r : Except (Fail BpmError) Unit}
    (h : b.flushFrames D P fs = some (r, b')) : r = .ok () ↔
    ∀ f ∈ fs, ∀ page, (b.frames f).page = some page → (b.frames f).dirty = true → ∃ raw, page.asRawPage P = .ok raw := by
  induction fs generalizing b with
  | nil =>
    cases h
    simp
  | cons f fs ih =>
    unfold flushFrames at h
    by_cases hlatch : (b.frames f).latch = .write
    · rw [if_pos hlatch] at h
      cases h
    · rw [if_neg hlatch] at h
      have hfirst := flushFrame_ok_iff (b := b) (f := f) (P := P) hD
      have hframes := flushFrame_frames (D := D) (P := P) (b := b) (f := f)
      rcases hf : b.flushFrame D P f with ⟨e | _, b₁⟩
      · rw [hf] at h hfirst
        cases h
        refine ⟨fun he => (by cases he), fun hall => hfirst.mpr (hall f List.mem_cons_self)⟩
      · rw [hf] at h hfirst hframes
        rw [ih h]
        constructor
        · intro hrest g hg page hpage hdirty
          by_cases hgf : g = f
          · exact hfirst.mp rfl page (hgf ▸ hpage) (hgf ▸ hdirty)
          · refine hrest g ((List.mem_cons.mp hg).resolve_left hgf) page ((hframes g).1.trans hpage) ?_
            exact ((hframes g).2.2 hgf).trans hdirty
        · intro hall g hg page hpage hdirty
          exact hall g (List.mem_cons_of_mem f hg) page ((hframes g).1.symm.trans hpage) ((hframes g).2.1 hdirty)

/-- Over such a disk a flush succeeds just where every page that is to be written can be encoded. -/
theorem flushAll_ok_iff (hD : D.Writes) {r : Except (Fail BpmError) Unit} (h : b.flushAll D P = some (r, b')) :
    r = .ok () ↔ ∀ page, b.Pending page → ∃ raw, page.asRawPage P = .ok raw := by
  have hpending : (∀ page, b.Pending page → ∃ raw, page.asRawPage P = .ok raw) ↔ ∀ f ∈ List.finRange n, ∀ page,
      (b.frames f).page = some page → (b.frames f).dirty = true → ∃ raw, page.asRawPage P = .ok raw :=
    ⟨fun hall f _ page hpage hdirty => hall page ⟨f, hpage, hdirty⟩,
      fun hall page ⟨f, hpage, hdirty⟩ => hall f (List.mem_finRange f) page hpage hdirty⟩
  unfold flushAll at h
  obtain ⟨⟨r₁, b₁⟩, hflush, heq⟩ := Option.map_eq_some_iff.mp h
  rw [hpending, ← flushFrames_ok_iff hD hflush]
  cases r₁ with
  | error e =>
    cases heq
    rfl
  | ok _ =>
    cases heq
    rw [hD.sync b₁.disk]
    simp [Except.mapError]

end Pool

namespace Session

section
variable {D E P} {content : δ → PageId → Option (List UInt8)} {s s' : Session n σ δ} {m : PageId → Option Page}
    {f : Fin n} {id : PageId}

theorem drop_eq {g : Guard n} (hg : g ∈ s.guards) : s.drop g = some (.ok none,
    ⟨(s.pool.setLatch g.frame (Latch.release g.write (s.pool.frames g.frame).latch)).unpinFrame g.frame,
    s.guards.erase g⟩) :=
  if_pos hg

variable (content) in
theorem drop_kept {g : Guard n} {r : Answer n} (hdrop : s.drop g = some (r, s')) :
    s.pool.Kept content s'.pool ∧ s'.guards = s.guards.erase g := by
  obtain ⟨-, heq⟩ := Option.ite_none_right_eq_some.mp hdrop
  cases heq
  exact ⟨(Pool.setLatch_kept _ _ _ _).trans (Pool.unpinFrame_kept _ _ _), rfl⟩

theorem drop_disk {g : Guard n} {r : Answer n} (hdrop : s.drop g = some (r, s')) : s'.pool.disk = s.pool.disk := by
  obtain ⟨-, heq⟩ := Option.ite_none_right_eq_some.mp hdrop
  cases heq
  rfl

/-- Nothing is left to drop. -/
theorem serve_unwind_same {held : Nat} (h : s.guards.length = held) : serve D E P held .unwind s = some ((), s) := by
  simp only [serve, h, Nat.sub_self, List.take_zero, dropGuards, Option.map_some]
  rfl

theorem serve_unwind_one {g : Guard n} {guards : List (Guard n)} (h : s.guards = g :: guards) :
    serve D E P guards.length .unwind s = (s.drop g).map fun x => ((), x.2) := by
  have htake : s.guards.take (s.guards.length - guards.length) = [g] := by
    rw [h, List.length_cons, Nat.add_sub_cancel_left]
    rfl
  simp only [serve, htake, dropGuards]
  cases s.drop g <;> rfl

/-- A fetch that fails, of a page that is not cached, keeps everything. -/
theorem fetch_error (hD : D.Lawful P content) (h : s.Sound) (hm : Mirror P content s.pool m) {write : Bool}
    {e : Fail BpmError} (hfetch : s.fetch D E P write id = some (.error e, s')) :
    s.pool.pageTable id = none ∧ s.pool.Kept content s'.pool := by
  unfold fetch at hfetch
  rcases hcheck : s.pool.checkoutPage D E P id with ⟨r₁, b⟩
  have hspec := Pool.checkoutPage_spec hcheck
  rw [hcheck] at hfetch
  -- a frame that holds the page asked for is not refused
  have accepted (f : Fin n) (hpage : ∃ page, (b.frames f).page = some page ∧ page.pageId = id) (hr : r₁ = .ok f) :
      False := by
    obtain ⟨page, hp, rfl⟩ := hpage
    subst hr
    have hright : (b.frames f).page.filter (fun q => q.pageId ≠ page.pageId) = none := by simp [hp]
    simp only [hright] at hfetch
    cases hacquire : Latch.acquire write (b.frames f).latch with
    | none =>
      rw [hacquire] at hfetch
      cases hfetch
    | some latch =>
      rw [hacquire] at hfetch
      cases hfetch
  have read {r : Except IoError (List UInt8)} {disk : δ} (hread : D.readPage id s.pool.disk = (r, disk)) :
      s.pool.Kept content { s.pool with disk := disk } := by
    refine ⟨fun _ => ⟨rfl, rfl⟩, rfl, rfl, fun x _ => ?_⟩
    rw [← hD.read_same id s.pool.disk, hread]
  cases hspec with
  | @cached f mapped =>
    obtain ⟨page, hp, hid⟩ := h.tables.mapped mapped
    exact (accepted f ⟨page, by rw [Pool.pinFrame_self]; exact hp, hid⟩ rfl).elim
  | unread absent hread =>
    cases hfetch
    exact ⟨absent, read hread⟩
  | unclaimed absent hread claimed =>
    cases hfetch
    exact ⟨absent, (read hread).trans (claimed.kept hD (h.tables.congr (fun _ => rfl) rfl rfl) hm.empty)⟩
  | @latched raw disk f b₁ absent hread claimed latched =>
    have h₀ : Sound ⟨{ s.pool with disk := disk }, s.guards⟩ := h.frames_congr rfl rfl rfl
    rw [claimed.frames] at latched
    exact absurd (claimed.unpinned h₀.free).2 latched
  | @loaded raw page disk f b₁ absent hread decoded claimed unlatched =>
    refine (accepted f ⟨page, ?_, read_own hD hm absent hread decoded⟩ rfl).elim
    rw [Pool.pinFrame_self, Pool.store_self]

/-- A fetch that succeeds latches the frame and takes one guard. -/
theorem fetch_ok {write : Bool} {guard : Option (Fin n)} (hfetch : s.fetch D E P write id = some (.ok guard, s')) :
    ∃ f b latch, s.pool.checkoutPage D E P id = (.ok f, b) ∧ guard = some f ∧
    s' = ⟨b.setLatch f latch, ⟨f, write⟩ :: s.guards⟩ := by
  unfold fetch at hfetch
  rcases hcheck : s.pool.checkoutPage D E P id with ⟨_ | f, b⟩
  · rw [hcheck] at hfetch
    cases hfetch
  · simp only [hcheck] at hfetch
    cases hacquire : Latch.acquire write (b.frames f).latch with
    | none =>
      rw [hacquire] at hfetch
      cases hfetch
    | some latch =>
      rw [hacquire] at hfetch
      cases hwrong : (b.frames f).page.filter fun page => page.pageId ≠ id with
      | some page =>
        rw [hwrong] at hfetch
        cases hfetch
      | none =>
        rw [hwrong] at hfetch
        cases hfetch
        exact ⟨f, b, latch, rfl, rfl, rfl⟩

/-- A creation that fails keeps everything. -/
theorem newPage_error (hD : D.Lawful P content) (h : s.Sound)
    (hfree : ∀ f ∈ s.pool.freeFrames, (s.pool.frames f).page = none) {page : Page} {e : Fail BpmError}
    (hnew : s.newPage D E P page = (.error e, s')) : s.pool.Kept content s'.pool ∧ s'.guards = s.guards ∧ s'.Sound := by
  unfold newPage at hnew
  rcases hinstall : s.pool.installPage D E P page with ⟨r₁, b⟩
  have hspec := Pool.installPage_spec hinstall
  rw [hinstall] at hnew
  cases hspec with
  | present mapped =>
    cases hnew
    exact ⟨⟨fun _ => ⟨rfl, rfl⟩, rfl, rfl, fun _ _ => rfl⟩, rfl, h⟩
  | unclaimed absent claimed =>
    cases hnew
    exact ⟨claimed.kept hD h.tables hfree, rfl, h.frames_congr claimed.frames claimed.error.1 claimed.error.2⟩
  | latched absent claimed latched =>
    rw [claimed.frames] at latched
    exact absurd (claimed.unpinned h.free).2 latched
  | installed absent claimed unlatched => cases hnew

/-- A creation that succeeds maps the page and takes its write guard. -/
theorem newPage_ok {page : Page} {guard : Option (Fin n)} (hnew : s.newPage D E P page = (.ok guard, s')) :
    ∃ f, guard = some f ∧ s'.guards = ⟨f, true⟩ :: s.guards ∧
      ((s'.pool.frames f).page = some page ∧ (s'.pool.frames f).dirty = true) ∧ s'.pool.pageTable page.pageId = some f ∧
      s.pool.pageTable page.pageId = none := by
  unfold newPage at hnew
  rcases hinstall : s.pool.installPage D E P page with ⟨r₁, b⟩
  have hspec := Pool.installPage_spec hinstall
  rw [hinstall] at hnew
  cases hspec with
  | present mapped => cases hnew
  | unclaimed absent claimed => cases hnew
  | latched absent claimed latched => cases hnew
  | @installed f b₁ absent claimed unlatched =>
    cases hnew
    refine ⟨f, rfl, rfl, ?_, Function.update_self _ _ _, absent⟩
    rw [Pool.pinFrame_self, Pool.setLatch_self, Pool.store_self]
    exact ⟨rfl, rfl⟩

/-- A creation leaves the free frames empty. -/
theorem newPage_free (h : s.Sound) {page : Page} {guard : Option (Fin n)} (hnew : s.newPage D E P page = (.ok guard, s'))
    (hfree : ∀ f ∈ s.pool.freeFrames, (s.pool.frames f).page = none) : ∀ f ∈ s'.pool.freeFrames,
    (s'.pool.frames f).page = none := by
  unfold newPage at hnew
  rcases hinstall : s.pool.installPage D E P page with ⟨r₁, b⟩
  have hspec := Pool.installPage_spec hinstall
  rw [hinstall] at hnew
  cases hspec with
  | present mapped => cases hnew
  | unclaimed absent claimed => cases hnew
  | latched absent claimed latched => cases hnew
  | @installed f b₁ absent claimed unlatched =>
    cases hnew
    have hloose := claimed.loose h.tables
    intro g hg
    have hgf : g ≠ f := by
      rintro rfl
      exact hloose.not_free hg
    have hframe : (((b₁.store f page.pageId page true).setLatch f .write).pinFrame f).frames g = s.pool.frames g := by
      rw [Pool.pinFrame_ne _ hgf, Pool.setLatch_ne _ _ hgf, Pool.store_ne _ _ _ _ hgf, claimed.frames]
    rw [hframe]
    refine hfree g ?_
    cases claimed with
    | free split =>
      rw [split]
      exact List.mem_append_left _ hg
    | victim none_free unpinned unlatched' holds flushed => exact hg

/-- What is to be written after a fetch was to be written before, and what the fetch evicted is
    on the disk. -/
theorem checkout_pending (hD : D.Lawful P content) {b b' : Pool n σ δ} (hb : b.Consistent) (hm : Mirror P content b m)
    (hcheck : b.checkoutPage D E P id = (.ok f, b')) (page : Page) :
    (b'.Pending page → b.Pending page) ∧
      (b.Pending page → b'.Pending page ∨ diskPage P (content b'.disk) page.pageId = some page) := by
  cases Pool.checkoutPage_spec hcheck with
  | cached mapped =>
    have hpin := (b.pinFrame_kept content f).pending page
    exact ⟨hpin.mp, fun hp => Or.inl (hpin.mpr hp)⟩
  | @loaded raw q disk f b₁ absent read decoded claimed unlatched =>
    have hb₀ : ({ b with disk := disk } : Pool n σ δ).Consistent := hb.congr (fun _ => rfl) rfl rfl
    have hm₀ := hm.read hD read
    have hm₁ := hm₀.claim hD hb₀ claimed
    have hpin := ((b₁.store f id q false).pinFrame_kept content f).pending page
    have hother {g : Fin n} (hg : g ≠ f) : (b₁.store f id q false).frames g = b.frames g := by
      rw [Pool.store_ne _ _ _ _ hg, claimed.frames]
    refine ⟨fun hp => ?_, fun ⟨g, hp, hdirty⟩ => ?_⟩
    · obtain ⟨g, hp, hdirty⟩ := hpin.mp hp
      by_cases hg : g = f
      · rw [hg, Pool.store_self] at hdirty
        cases hdirty
      · rw [hother hg] at hp hdirty
        exact ⟨g, hp, hdirty⟩
    · by_cases hg : g = f
      · -- the frame was not free, so its page was unmapped and is on the disk
        subst hg
        have hmap : b.pageTable page.pageId = some g := hb.mapped_of_page hm.empty hp
        have hunmapped : b₁.pageTable page.pageId = none := by
          cases hnone : b₁.pageTable page.pageId with
          | none => rfl
          | some g' =>
            have hloose := claimed.loose hb₀
            cases claimed with
            | free split =>
              cases hmap.symm.trans hnone
              exact absurd hnone (hloose.not_mapped _)
            | @victim _ page' policy referenced disk' none_free unpinned unlatched' holds flushed =>
              have hsame : page = page' := Option.some.inj (hp.symm.trans holds)
              rw [hsame] at hnone
              cases (Function.update_self page'.pageId none b.pageTable).symm.trans hnone
        refine Or.inr ((hm₁.uncached hunmapped).trans ?_)
        exact (hm.cached hmap).symm.trans hp
      · refine Or.inl (hpin.mpr ⟨g, ?_, ?_⟩)
        · rw [hother hg]
          exact hp
        · rw [hother hg]
          exact hdirty

theorem fetch_pending (hD : D.Lawful P content) (h : s.Sound) (hm : Mirror P content s.pool m) {write : Bool}
    {guard : Option (Fin n)}
    (hfetch : s.fetch D E P write id = some (.ok guard, s')) (page : Page) :
    (s'.pool.Pending page → s.pool.Pending page) ∧
      (s.pool.Pending page → s'.pool.Pending page ∨ diskPage P (content s'.pool.disk) page.pageId = some page) := by
  obtain ⟨f, b, latch, hcheck, -, rfl⟩ := fetch_ok hfetch
  obtain ⟨hbefore, hafter⟩ := checkout_pending hD h.tables hm hcheck page
  have hlatch := (b.setLatch_kept content f latch).pending page
  exact ⟨fun hp => hbefore (hlatch.mp hp), fun hp => (hafter hp).imp_left hlatch.mpr⟩

/-! ## Requests answered -/

theorem serve_fetchRead (hD : D.Lawful P content) (h : s.Sound) (hm : Mirror P content s.pool m) {held : Nat}
    {r : Except (Fail BpmError) Page} (hserve : serve D E P held (.fetchRead id) s = some (r, s')) :
    (∃ e, r = .error e ∧ s.fetchRead D E P id = some (.error e, s')) ∨
      ∃ f page, r = .ok page ∧ s.fetchRead D E P id = some (.ok (some f), s') ∧ m id = some page := by
  obtain ⟨⟨r₁, s₁⟩, hfetch, heq⟩ := Option.map_eq_some_iff.mp hserve
  cases heq
  cases r₁ with
  | error e => exact Or.inl ⟨e, rfl, hfetch⟩
  | ok guard =>
    obtain ⟨f, b, latch, -, rfl, -⟩ := fetch_ok hfetch
    obtain ⟨-, hpage⟩ := fetch_mirror hD h hm hfetch
    obtain ⟨page, hid, hp⟩ := hpage f rfl
    refine Or.inr ⟨f, page, ?_, hfetch, hid⟩
    simp only [answer, Option.bind_some, hp]

theorem serve_newPage {held : Nat} {page : Page} {r : Except (Fail BpmError) Page}
    (hserve : serve D E P held (.newPage page) s = some (r, s')) :
    (∃ e, r = .error e ∧ s.newPage D E P page = (.error e, s')) ∨ ∃ f, r = .ok page ∧
    s.newPage D E P page = (.ok (some f), s') := by
  rcases hnew : s.newPage D E P page with ⟨r₁, s₁⟩
  simp only [serve, hnew] at hserve
  cases hserve
  cases r₁ with
  | error e => exact Or.inl ⟨e, rfl, rfl⟩
  | ok guard =>
    obtain ⟨f, rfl, -, ⟨hp, -⟩, -, -⟩ := newPage_ok hnew
    refine Or.inr ⟨f, ?_, rfl⟩
    simp only [answer, Option.bind_some, hp]

variable (content) in
/-- Dropping the guard of a page just created. -/
theorem serve_drop {held : Nat} {guards : List (Guard n)} (hguards : s.guards = ⟨f, true⟩ :: guards)
    (hmap : s.pool.pageTable id = some f)
    (hserve : serve D E P held (.drop id) s = some ((), s')) :
    s.drop ⟨f, true⟩ = some (.ok none, s') ∧ s.pool.Kept content s'.pool ∧ s'.guards = guards := by
  have hmem : (⟨f, true⟩ : Guard n) ∈ s.guards := hguards ▸ List.mem_cons_self
  simp only [serve, hmap, Option.bind_some, List.contains_iff_mem.mpr hmem] at hserve
  obtain ⟨⟨r, s₁⟩, hdrop, heq⟩ := Option.map_eq_some_iff.mp hserve
  cases heq
  obtain ⟨hkept, hleft⟩ := drop_kept content hdrop
  refine ⟨?_, hkept, ?_⟩
  · rw [drop_eq hmem] at hdrop ⊢
    cases hdrop
    rfl
  · rw [hleft, hguards, List.erase_cons_head]

/-- A pool just made, a page of its disk read, and the guard dropped. -/
theorem new_read {disk disk' : δ} (policy : σ) (hn : 0 < n) {raw : List UInt8} {page : Page}
    (hread : D.readPage id disk = (.ok raw, disk')) (hraw : Page.deserialize P raw = .ok page) (hid : page.pageId = id) :
    ∃ s₁ s', serve D E P 0 (.fetchRead id) (new disk policy : Session n σ δ) = some (.ok page, s₁) ∧
      serve D E P 0 (.drop id) s₁ = some ((), s') ∧ s'.guards = [] := by
  obtain ⟨f, s₁, hfetch, hpage, hguards, hmap⟩ := new_fetch_decoded (E := E) policy hn false hread hraw hid
  have hfetch' : (new disk policy : Session n σ δ).fetchRead D E P id = some (.ok (some f), s₁) := hfetch
  have hmem : (⟨f, false⟩ : Guard n) ∈ s₁.guards := by rw [hguards]; exact List.mem_cons_self
  have hwrite : s₁.guards.contains ⟨f, true⟩ = false := by rw [hguards]; simp
  obtain ⟨s', hdrop, hleft⟩ : ∃ s', s₁.drop ⟨f, false⟩ = some (.ok none, s') ∧ s'.guards = [] :=
    ⟨_, drop_eq hmem, by simp [hguards]⟩
  refine ⟨s₁, s', ?_, ?_, hleft⟩
  · simp only [serve, hfetch', Option.map_some, answer, Option.bind_some, hpage]
  · simp only [serve, hmap, Option.bind_some, hwrite, hdrop, Option.map_some]
    rfl

end

end Session

end Bpm

end RustDb
