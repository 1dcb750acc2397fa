/-
  RustDb.Bpm.Session — one thread over the buffer pool: calls that complete one after the
  other, and the guards held between them.

  A call that would wait for a latch the thread holds itself does not complete, and a call
  that panics is the last one: it leaves the big lock poisoned. Proved, for every disk,
  every eviction policy and every run in which no fetch loads a page that names another id
  than the one it is stored under:
  - `pins_eq_guards`: the pin count of a frame is the number of guards on it. A page stored
    under another id is answered by `WrongPage` with the pin taken and no guard to give it
    back (`fetch_leaks_pin`).
  - `tables_consistent`: page table, free frames and frames agree. A page stored under
    another id enters the page table under the wrong id, and eviction clears the other one
    (`load_breaks_tables`).
  In every run a pin count is at most the number of calls made (`Run.pin_le`).
-/

import RustDb.Bpm.Manager
import RustDb.Codec.RoundTrip

namespace RustDb

namespace Bpm

namespace Pool

variable {n : Nat} {σ δ : Type} {D : DiskManager δ} {P : Platform} {b b' b₁ : Pool n σ δ} {f g : Fin n} {id : PageId}

/-! ## Tables that agree -/

/-- A mapped frame holds the page of that id and is not free, and no frame is free twice. -/
structure Linked (b : Pool n σ δ) : Prop where
  mapped : ∀ {id : PageId} {f : Fin n}, b.pageTable id = some f → ∃ page, (b.frames f).page = some page ∧ page.pageId = id
  disjoint : ∀ {id : PageId} {f : Fin n}, b.pageTable id = some f → f ∉ b.freeFrames
  nodup : b.freeFrames.Nodup

def Covered (b : Pool n σ δ) (f : Fin n) : Prop := f ∈ b.freeFrames ∨ ∃ id, b.pageTable id = some f

structure Consistent (b : Pool n σ δ) : Prop extends Linked b where
  covered : ∀ f, b.Covered f

/-- The tables agree but for a frame just claimed, which stands in neither. -/
structure Loose (b : Pool n σ δ) (f : Fin n) : Prop extends Linked b where
  others : ∀ g, g ≠ f → b.Covered g
  not_free : f ∉ b.freeFrames
  not_mapped : ∀ id, b.pageTable id ≠ some f

/-- Two ids are not mapped to one frame. -/
theorem Linked.inj (h : b.Linked) {id' : PageId} (h₁ : b.pageTable id = some f) (h₂ : b.pageTable id' = some f) :
    id = id' := by
  obtain ⟨page, hp, rfl⟩ := h.mapped h₁
  obtain ⟨page', hp', rfl⟩ := h.mapped h₂
  cases hp.symm.trans hp'
  rfl

/-- The tables look at the ids of the pages only. -/
theorem Consistent.congr (h : b.Consistent) (hpages : ∀ f,
    (b'.frames f).page.map Page.pageId = (b.frames f).page.map Page.pageId)
    (htable : b'.pageTable = b.pageTable) (hfree : b'.freeFrames = b.freeFrames) : b'.Consistent where
  mapped {id f} hmap := by
    obtain ⟨page, hp, hid⟩ := h.mapped (htable ▸ hmap)
    have hpage := hpages f
    rw [hp, Option.map_some, Option.map_eq_some_iff] at hpage
    obtain ⟨page', hp', he⟩ := hpage
    exact ⟨page', hp', he.trans hid⟩
  disjoint hmap := hfree ▸ h.disjoint (htable ▸ hmap)
  nodup := hfree ▸ h.nodup
  covered f := by
    rw [Covered, hfree, htable]
    exact h.covered f

/-- Claiming takes a frame out of the tables. -/
theorem ClaimSpec.loose (h : b.Consistent) (hclaim : ClaimSpec D P b (.ok f) b₁) : b₁.Loose f := by
  cases hclaim with
  | @free _ rest split =>
    have hnodup := h.nodup
    rw [split] at hnodup
    have hnot : f ∉ rest := fun hmem => (List.nodup_append.mp hnodup).2.2 f hmem f List.mem_cons_self rfl
    refine ⟨⟨h.mapped, fun hmap hmem => h.disjoint hmap ?_, (List.nodup_append.mp hnodup).1⟩, fun g hg => ?_, hnot,
      fun id hmap => ?_⟩
    · rw [split]
      exact List.mem_append_left _ hmem
    · rcases h.covered g with hmem | hmap
      · rw [split] at hmem
        rcases List.mem_append.mp hmem with hmem | hmem
        · exact Or.inl hmem
        · exact absurd (List.mem_singleton.mp hmem) hg
      · exact Or.inr hmap
    · exact h.disjoint hmap (by rw [split]; simp)
  | @victim _ page policy referenced disk none_free unpinned unlatched holds flushed =>
    have hmap : b.pageTable page.pageId = some f := by
      rcases h.covered f with hmem | ⟨id, hmap⟩
      · rw [none_free] at hmem
        cases hmem
      · obtain ⟨page', hp, rfl⟩ := h.mapped hmap
        cases holds.symm.trans hp
        exact hmap
    have hold {id : PageId} {g : Fin n} (hg : Function.update b.pageTable page.pageId none id = some g) :
        id ≠ page.pageId ∧ b.pageTable id = some g := by
      by_cases hid : id = page.pageId
      · rw [hid, Function.update_self] at hg
        cases hg
      · rw [Function.update_of_ne hid] at hg
        exact ⟨hid, hg⟩
    refine ⟨⟨fun hg => h.mapped (hold hg).2, fun hg => h.disjoint (hold hg).2, h.nodup⟩, fun g hg => ?_, ?_, fun id hg => ?_⟩
    · rcases h.covered g with hmem | ⟨id, hg'⟩
      · exact Or.inl hmem
      · refine Or.inr ⟨id, (Function.update_of_ne ?_ _ _).trans hg'⟩
        rintro rfl
        cases hmap.symm.trans hg'
        exact hg rfl
    · show f ∉ b.freeFrames
      rw [none_free]
      exact List.not_mem_nil
    · exact (hold hg).1 (h.inj (hold hg).2 hmap)

/-- What is mapped to another frame stays so. -/
theorem ClaimSpec.still_mapped (h : b.Consistent) (hclaim : ClaimSpec D P b (.ok f) b₁) (hmap : b.pageTable id = some g)
    (hg : g ≠ f) :
    b₁.pageTable id = some g := by
  cases hclaim with
  | free split => exact hmap
  | victim none_free unpinned unlatched holds flushed =>
    refine (Function.update_of_ne ?_ _ _).trans hmap
    rintro rfl
    rcases h.covered f with hcov | ⟨id', hcov⟩
    · rw [none_free] at hcov
      cases hcov
    · obtain ⟨page', hp, rfl⟩ := h.mapped hcov
      cases holds.symm.trans hp
      exact hg (Option.some.inj (hmap.symm.trans hcov))

/-- A page stored under its own id in a claimed frame puts the frame back into the tables. -/
theorem Loose.store (h : b.Loose f) {page : Page} {dirty : Bool} (hid : page.pageId = id) (habsent : b.pageTable id = none) :
    (b.store f id page dirty).Consistent where
  mapped {id' g} hmap := by
    by_cases hid' : id' = id
    · rw [store_pageTable, hid', Function.update_self] at hmap
      cases hmap
      exact ⟨page, by rw [store_self], hid.trans hid'.symm⟩
    · rw [store_pageTable, Function.update_of_ne hid'] at hmap
      have hg : g ≠ f := fun he => h.not_mapped id' (he ▸ hmap)
      rw [store_ne _ _ _ _ hg]
      exact h.mapped hmap
  disjoint {id' g} hmap := by
    by_cases hid' : id' = id
    · rw [store_pageTable, hid', Function.update_self] at hmap
      cases hmap
      exact h.not_free
    · rw [store_pageTable, Function.update_of_ne hid'] at hmap
      exact h.disjoint hmap
  nodup := h.nodup
  covered g := by
    by_cases hg : g = f
    · exact Or.inr ⟨id, by rw [hg, store_pageTable, Function.update_self]⟩
    · rcases h.others g hg with hmem | ⟨id', hmap⟩
      · exact Or.inl hmem
      · refine Or.inr ⟨id', ?_⟩
        rw [store_pageTable, Function.update_of_ne, hmap]
        rintro rfl
        cases habsent.symm.trans hmap

/-- Claiming unmaps at most, and leaves the frames. -/
theorem ClaimSpec.frames {r : Except (Fail BpmError) (Fin n)} (hclaim : ClaimSpec D P b r b₁) : b₁.frames = b.frames := by
  cases hclaim <;> rfl

theorem ClaimSpec.absent {r : Except (Fail BpmError) (Fin n)} (hclaim : ClaimSpec D P b r b₁) (h : b.pageTable id = none) :
    b₁.pageTable id = none := by
  cases hclaim with
  | free split => exact h
  | @victim f page _ _ _ _ _ _ _ _ =>
    by_cases hid : id = page.pageId
    · exact hid ▸ Function.update_self _ _ _
    · exact (Function.update_of_ne hid _ _).trans h
  | failed none_free disk_kept => exact h

/-- A call that claims no frame leaves the tables. -/
theorem ClaimSpec.error {e : Fail BpmError} (hclaim : ClaimSpec D P b (.error e) b₁) :
    b₁.pageTable = b.pageTable ∧ b₁.freeFrames = b.freeFrames := by
  cases hclaim with
  | failed none_free disk_kept => exact ⟨rfl, rfl⟩

/-- The claimed frame is unpinned and unlatched if the free ones are. -/
theorem ClaimSpec.unpinned (hfree : ∀ g ∈ b.freeFrames, (b.frames g).pinCount = 0 ∧ (b.frames g).latch = .readers 0)
    (hclaim : ClaimSpec D P b (.ok f) b₁) : (b.frames f).pinCount = 0 ∧ (b.frames f).latch = .readers 0 := by
  cases hclaim with
  | free split => exact hfree f (by rw [split]; simp)
  | victim none_free unpinned unlatched holds flushed => exact ⟨unpinned, unlatched⟩

/-- A flush leaves the tables and, but for their dirty flags, the frames. -/
theorem FlushSteps.same (h : FlushSteps D P b b') : b'.pageTable = b.pageTable ∧ b'.freeFrames = b.freeFrames ∧
    ∀ f, (b'.frames f).page = (b.frames f).page ∧ (b'.frames f).pinCount = (b.frames f).pinCount ∧
      (b'.frames f).latch = (b.frames f).latch := by
  have clean (b : Pool n σ δ) (f g : Fin n) : ((b.markClean f).frames g).page = (b.frames g).page ∧
      ((b.markClean f).frames g).pinCount = (b.frames g).pinCount ∧
      ((b.markClean f).frames g).latch = (b.frames g).latch := by
    by_cases hg : g = f
    · subst hg
      rw [markClean, setFrame_self]
      exact ⟨rfl, rfl, rfl⟩
    · rw [markClean, setFrame_ne _ _ hg]
      exact ⟨rfl, rfl, rfl⟩
  induction h with
  | refl => exact ⟨rfl, rfl, fun f => ⟨rfl, rfl, rfl⟩⟩
  | @tail b₁ b₂ _ hstep ih =>
    obtain ⟨htable, hfree, hframes⟩ := ih
    cases hstep with
    | @emptied g empty =>
      exact ⟨htable, hfree, fun f => ⟨(clean b₁ g f).1.trans (hframes f).1, (clean b₁ g f).2.1.trans (hframes f).2.1,
        (clean b₁ g f).2.2.trans (hframes f).2.2⟩⟩
    | @written g page raw disk dirty holds encoded wrote =>
      exact ⟨htable, hfree, fun f => ⟨(clean b₁ g f).1.trans (hframes f).1, (clean b₁ g f).2.1.trans (hframes f).2.1,
        (clean b₁ g f).2.2.trans (hframes f).2.2⟩⟩
    | failed disk_kept => exact ⟨htable, hfree, hframes⟩
    | synced => exact ⟨htable, hfree, hframes⟩

end Pool

/-- `PageReadGuard`, `PageWriteGuard`. -/
structure Guard (n : Nat) where
  frame : Fin n
  write : Bool
  deriving DecidableEq

/-- A latch taken for reading or for writing, unless it is held against that. -/
def Latch.acquire : Bool → Latch → Option Latch
  | true, .readers 0 => some .write
  | false, .readers k => some (.readers (k + 1))
  | _, _ => none

def Latch.release : Bool → Latch → Latch
  | false, .readers (k + 1) => .readers k
  | _, _ => .readers 0

structure Session (n : Nat) (σ δ : Type) where
  pool : Pool n σ δ
  guards : List (Guard n)

variable {n : Nat} {σ δ : Type} (D : DiskManager δ) (E : EvictionPolicy n σ) (P : Platform)

namespace Session

/-- A call's answer: an error, or done, or the frame of the guard it returns. -/
abbrev Answer (n : Nat) := Except (Fail BpmError) (Option (Fin n))

/-- `fetch_read` and `fetch_write`, which differ in the latch they take. Neither gives back
    the pin when the page turns out to be another one. -/
def fetch (write : Bool) (id : PageId) (s : Session n σ δ) : Option (Answer n × Session n σ δ) :=
  match s.pool.checkoutPage D E P id with
  | (.error e, b) => some (.error e, { s with pool := b })
  | (.ok f, b) =>
    match Latch.acquire write (b.frames f).latch with
    | none => none
    | some latch =>
      let wrong := (b.frames f).page.filter fun page => page.pageId ≠ id
      match wrong with
      | some page => some (.error (.err (.wrongPage id page.pageId)), { s with pool := b })
      | none => some (.ok (some f), { pool := b.setLatch f latch, guards := ⟨f, write⟩ :: s.guards })

/-- `BufferPoolManager::fetch_read`. -/
def fetchRead (id : PageId) (s : Session n σ δ) : Option (Answer n × Session n σ δ) := s.fetch D E P false id

/-- `BufferPoolManager::fetch_write`. -/
def fetchWrite (id : PageId) (s : Session n σ δ) : Option (Answer n × Session n σ δ) := s.fetch D E P true id

/-- `BufferPoolManager::new_page`. -/
def newPage (page : Page) (s : Session n σ δ) : Answer n × Session n σ δ :=
  match s.pool.installPage D E P page with
  | (.error e, b) => (.error e, { s with pool := b })
  | (.ok f, b) => (.ok (some f), { pool := b, guards := ⟨f, true⟩ :: s.guards })

/-- A page changed through its write guard (`DerefMut`); callers keep its id. -/
def put (f : Fin n) (page : Page) (s : Session n σ δ) : Option (Answer n × Session n σ δ) :=
  if ⟨f, true⟩ ∈ s.guards ∧ ((s.pool.frames f).page.map Page.pageId) = some page.pageId then
    some (.ok none, { s with pool := s.pool.setFrame f { s.pool.frames f with page := some page, dirty := true } })
  else none

/-- `Drop` of a guard: the latch first, then the pin. -/
def drop (g : Guard n) (s : Session n σ δ) : Option (Answer n × Session n σ δ) :=
  if g ∈ s.guards then
    some (.ok none, {
      pool := (s.pool.setLatch g.frame (Latch.release g.write (s.pool.frames g.frame).latch)).unpinFrame g.frame
      guards := s.guards.erase g })
  else none

inductive Op (n : Nat) where
  | newPage (page : Page)
  | fetchRead (id : PageId)
  | fetchWrite (id : PageId)
  | put (f : Fin n) (page : Page)
  | drop (g : Guard n)
  | flushAll
  | swapFile (pages : List Page)

def step (s : Session n σ δ) : Op n → Option (Answer n × Session n σ δ)
  | .newPage page => some (s.newPage D E P page)
  | .fetchRead id => s.fetchRead D E P id
  | .fetchWrite id => s.fetchWrite D E P id
  | .put f page => s.put f page
  | .drop g => s.drop g
  | .flushAll => (s.pool.flushAll D P).map fun (r, b) => (r.map fun _ => none, { s with pool := b })
  | .swapFile pages => (s.pool.swapFile D P pages).map fun (r, b) => (r.map fun _ => none, { s with pool := b })

/-- Completed calls in order, each of which meets `R` where it is made. -/
inductive Run (R : Session n σ δ → Op n → Prop) : Session n σ δ → List (Op n) → Session n σ δ → Prop where
  | nil (s : Session n σ δ) : Run R s [] s
  | cons {s s₁ s' : Session n σ δ} {op : Op n} {ops : List (Op n)} {r : Answer n} (step : s.step D E P op = some (r, s₁))
      (completed : r ≠ .error .panic) (meets : R s op) (rest : Run R s₁ ops s') : Run R s (op :: ops) s'

/-! ## Guards, pins and latches -/

def guardsOn (guards : List (Guard n)) (f : Fin n) : Nat := guards.countP fun g => g.frame = f

/-- The latch that the guards hold on a frame. -/
def heldLatch (guards : List (Guard n)) (f : Fin n) : Latch :=
  if ⟨f, true⟩ ∈ guards then .write else .readers (guardsOn guards f)

/-- Tables, pins and latches agree with the frames and the guards. -/
structure Sound (s : Session n σ δ) : Prop where
  tables : s.pool.Consistent
  pins : ∀ f, (s.pool.frames f).pinCount = guardsOn s.guards f
  latches : ∀ f, (s.pool.frames f).latch = heldLatch s.guards f
  exclusive : ∀ f, ⟨f, true⟩ ∈ s.guards → guardsOn s.guards f = 1
  live : ∀ g ∈ s.guards, g.frame ∉ s.pool.freeFrames

variable {D E P} {s s' : Session n σ δ} {guards : List (Guard n)} {f : Fin n} {id : PageId} {r : Answer n}
    {b b₁ : Pool n σ δ}

theorem guardsOn_pos {g : Guard n} (h : g ∈ guards) : 0 < guardsOn guards g.frame :=
  List.countP_pos_iff.mpr ⟨g, h, by simp⟩

theorem guardsOn_cons (f f' : Fin n) (write : Bool) :
    guardsOn (⟨f', write⟩ :: guards) f = guardsOn guards f + if f' = f then 1 else 0 := by
  rw [guardsOn, List.countP_cons]
  simp [guardsOn]

theorem heldLatch_none (h : guardsOn guards f = 0) : heldLatch guards f = .readers 0 := by
  have hno : ⟨f, true⟩ ∉ guards := fun hmem => by
    have hpos := guardsOn_pos hmem
    simp only at hpos
    omega
  rw [heldLatch, if_neg hno, h]

theorem Sound.unheld (h : s.Sound) (hf : f ∈ s.pool.freeFrames) : guardsOn s.guards f = 0 := by
  rw [guardsOn, List.countP_eq_zero]
  intro g hg hgf
  exact h.live g hg (by rw [of_decide_eq_true hgf]; exact hf)

theorem Sound.free (h : s.Sound) : ∀ g ∈ s.pool.freeFrames, (s.pool.frames g).pinCount = 0 ∧
    (s.pool.frames g).latch = .readers 0 :=
  fun g hg => ⟨(h.pins g).trans (h.unheld hg), (h.latches g).trans (heldLatch_none (h.unheld hg))⟩

/-- What leaves the ids of the pages, the pins, the latches and the tables leaves soundness. -/
theorem Sound.congr (h : s.Sound) (hpages : ∀ f, (b.frames f).page.map Page.pageId = (s.pool.frames f).page.map Page.pageId)
    (hpins : ∀ f, (b.frames f).pinCount = (s.pool.frames f).pinCount)
    (hlatches : ∀ f, (b.frames f).latch = (s.pool.frames f).latch)
    (htable : b.pageTable = s.pool.pageTable) (hfree : b.freeFrames = s.pool.freeFrames) : Sound ⟨b, s.guards⟩ where
  tables := h.tables.congr hpages htable hfree
  pins f := (hpins f).trans (h.pins f)
  latches f := (hlatches f).trans (h.latches f)
  exclusive := h.exclusive
  live g hg := hfree ▸ h.live g hg

theorem Sound.frames_congr (h : s.Sound) (hframes : b.frames = s.pool.frames) (htable : b.pageTable = s.pool.pageTable)
    (hfree : b.freeFrames = s.pool.freeFrames) : Sound ⟨b, s.guards⟩ :=
  h.congr (fun f => by rw [hframes]) (fun f => by rw [hframes]) (fun f => by rw [hframes]) htable hfree

theorem heldLatch_acquire {write : Bool} {latch : Latch}
    (h : Latch.acquire write (heldLatch guards f) = some latch) : heldLatch (⟨f, write⟩ :: guards) f = latch ∧
      (⟨f, true⟩ ∈ (⟨f, write⟩ :: guards : List (Guard n)) → guardsOn (⟨f, write⟩ :: guards) f = 1) := by
  by_cases hw : ⟨f, true⟩ ∈ guards
  · rw [heldLatch, if_pos hw] at h
    cases write <;> cases h
  · rw [heldLatch, if_neg hw] at h
    cases write with
    | true =>
      have hzero : guardsOn guards f = 0 := by
        by_contra hne
        obtain ⟨k, hk⟩ := Nat.exists_eq_succ_of_ne_zero hne
        rw [hk] at h
        cases h
      rw [hzero] at h
      cases h
      exact ⟨by simp [heldLatch], fun _ => by rw [guardsOn_cons, hzero, if_pos rfl]⟩
    | false =>
      cases h
      have hno : ⟨f, true⟩ ∉ (⟨f, false⟩ :: guards : List (Guard n)) := by simpa using hw
      exact ⟨by rw [heldLatch, if_neg hno, guardsOn_cons, if_pos rfl], fun hmem => absurd hmem hno⟩

theorem heldLatch_cons_ne {f' : Fin n} (h : f ≠ f') (write : Bool) :
    heldLatch (⟨f', write⟩ :: guards) f = heldLatch guards f := by
  have hmem : ⟨f, true⟩ ∈ (⟨f', write⟩ :: guards : List (Guard n)) ↔ ⟨f, true⟩ ∈ guards := by simp [h]
  simp only [heldLatch, hmem, guardsOn_cons, if_neg (Ne.symm h), Nat.add_zero]

/-- A pin and a latch for a new guard. -/
theorem Sound.guard (h : Sound ⟨b, guards⟩) (hf : f ∉ b.freeFrames) {write : Bool} {latch : Latch}
    (hacquire : Latch.acquire write (b.frames f).latch = some latch) :
    Sound ⟨(b.pinFrame f).setLatch f latch, ⟨f, write⟩ :: guards⟩ := by
  have hlatch : Latch.acquire write (heldLatch guards f) = some latch := h.latches f ▸ hacquire
  obtain ⟨hheld, hexcl⟩ := heldLatch_acquire hlatch
  have hother {g : Fin n} (hg : g ≠ f) : ((b.pinFrame f).setLatch f latch).frames g = b.frames g := by
    rw [Pool.setLatch_ne _ _ hg, Pool.pinFrame_ne _ hg]
  refine ⟨h.tables.congr (fun g => ?_) rfl rfl, fun g => ?_, fun g => ?_, fun g hg => ?_, fun g hg => ?_⟩
  · by_cases hg : g = f
    · subst hg
      rw [Pool.setLatch_self, Pool.pinFrame_self]
    · rw [hother hg]
  · by_cases hg : g = f
    · subst hg
      show (((b.pinFrame g).setLatch g latch).frames g).pinCount = _
      rw [Pool.setLatch_self, Pool.pinFrame_self, guardsOn_cons, if_pos rfl]
      exact congrArg (· + 1) (h.pins g)
    · show (((b.pinFrame f).setLatch f latch).frames g).pinCount = _
      rw [hother hg, guardsOn_cons, if_neg (Ne.symm hg), Nat.add_zero]
      exact h.pins g
  · by_cases hg : g = f
    · subst hg
      show (((b.pinFrame g).setLatch g latch).frames g).latch = _
      rw [Pool.setLatch_self, hheld]
    · show (((b.pinFrame f).setLatch f latch).frames g).latch = _
      rw [hother hg, heldLatch_cons_ne hg]
      exact h.latches g
  · by_cases hgf : g = f
    · subst hgf
      exact hexcl hg
    · rw [guardsOn_cons, if_neg (Ne.symm hgf), Nat.add_zero]
      exact h.exclusive g (by simpa [hgf] using hg)
  · rcases List.mem_cons.mp hg with rfl | hg
    · exact hf
    · exact h.live g hg

/-- A claimed frame with its page under its own id. -/
theorem Sound.store (h : Sound ⟨b, guards⟩) (hclaim : Pool.ClaimSpec D P b (.ok f) b₁) {page : Page} {dirty : Bool}
    (hid : page.pageId = id) (habsent : b.pageTable id = none) :
    Sound ⟨b₁.store f id page dirty, guards⟩ ∧ f ∉ (b₁.store f id page dirty).freeFrames ∧
    (b₁.frames f).latch = .readers 0 := by
  have hloose := hclaim.loose h.tables
  obtain ⟨hpin, hlatch⟩ := hclaim.unpinned h.free
  have hzero : guardsOn guards f = 0 := (h.pins f).symm.trans hpin
  have hsub : ∀ g ∈ b₁.freeFrames, g ∈ b.freeFrames := by
    intro g hg
    cases hclaim with
    | free split =>
      rw [split]
      exact List.mem_append_left _ hg
    | victim none_free unpinned unlatched holds flushed => exact hg
  refine ⟨⟨hloose.store hid (hclaim.absent habsent), fun g => ?_, fun g => ?_, h.exclusive, fun g hg hfree => ?_⟩,
    hloose.not_free, ?_⟩
  · by_cases hg : g = f
    · subst hg
      show ((b₁.store g id page dirty).frames g).pinCount = _
      rw [Pool.store_self, hclaim.frames]
      exact h.pins g
    · show ((b₁.store f id page dirty).frames g).pinCount = _
      rw [Pool.store_ne _ _ _ _ hg, hclaim.frames]
      exact h.pins g
  · by_cases hg : g = f
    · subst hg
      show ((b₁.store g id page dirty).frames g).latch = _
      rw [Pool.store_self, hclaim.frames]
      exact h.latches g
    · show ((b₁.store f id page dirty).frames g).latch = _
      rw [Pool.store_ne _ _ _ _ hg, hclaim.frames]
      exact h.latches g
  · exact h.live g hg (hsub _ hfree)
  · rw [hclaim.frames]
    exact hlatch

/-! ## Each call -/

/-- What a fetch loads names the id it is read under. A page that is cached, cannot be read or
    gets no frame is not loaded. -/
def ReadsOwn (D : DiskManager δ) (E : EvictionPolicy n σ) (P : Platform) (s : Session n σ δ) (id : PageId) : Prop :=
  s.pool.pageTable id = none → ∀ raw disk page, D.readPage id s.pool.disk = (.ok raw, disk) →
    Page.deserialize P raw = .ok page → (∃ f b, Pool.claimFrame D E P { s.pool with disk := disk } = (.ok f, b)) →
    page.pageId = id

/-- A checkout that loads a page has claimed a frame for it. -/
theorem claim_of_checkout (absent : b.pageTable id = none) {raw : List UInt8} {disk : δ}
    (read : D.readPage id b.disk = (.ok raw, disk)) {page : Page} (decoded : Page.deserialize P raw = .ok page)
    (h : b.checkoutPage D E P id = (.ok f, b₁)) : ∃ g b', Pool.claimFrame D E P { b with disk := disk } = (.ok g, b') := by
  rcases hclaim : Pool.claimFrame D E P { b with disk := disk } with ⟨e | g, b'⟩
  · simp only [Pool.checkoutPage, Pool.loadPage, absent, read, decoded, hclaim] at h
    cases h
  · exact ⟨g, b', rfl⟩

/-- A fetch in a sound state: an error that leaves the pool sound, or a guard on a frame with
    the page asked for. -/
theorem fetch_sound (h : s.Sound) {write : Bool} (hown : ReadsOwn D E P s id)
    (hstep : s.fetch D E P write id = some (r, s')) :
    s'.Sound := by
  unfold fetch at hstep
  rcases hcheck : s.pool.checkoutPage D E P id with ⟨r₁, b⟩
  have hspec := Pool.checkoutPage_spec hcheck
  rw [hcheck] at hstep
  have guarded (b₀ : Pool n σ δ) (f : Fin n) (hb : b = b₀.pinFrame f) (h₀ : Sound ⟨b₀, s.guards⟩) (hf : f ∉ b₀.freeFrames)
      (hpage : ∃ page, (b₀.frames f).page = some page ∧ page.pageId = id) (hr : r₁ = .ok f) : s'.Sound := by
    subst hr hb
    obtain ⟨page, hp, rfl⟩ := hpage
    have hlatch : ((b₀.pinFrame f).frames f).latch = (b₀.frames f).latch := by rw [Pool.pinFrame_self]
    have hwrong : ((b₀.pinFrame f).frames f).page.filter (fun q => q.pageId ≠ page.pageId) = none := by
      rw [Pool.pinFrame_self]
      simp [hp]
    simp only [hlatch, hwrong] at hstep
    cases hacq : Latch.acquire write (b₀.frames f).latch with
    | none =>
      rw [hacq] at hstep
      cases hstep
    | some latch =>
      rw [hacq] at hstep
      cases hstep
      exact h₀.guard hf hacq
  cases hspec with
  | @cached f mapped => exact guarded s.pool f rfl h (h.tables.disjoint mapped) (h.tables.mapped mapped) rfl
  | unread absent read =>
    cases hstep
    exact h.frames_congr rfl rfl rfl
  | unclaimed absent read claimed =>
    cases hstep
    exact h.frames_congr claimed.frames claimed.error.1 claimed.error.2
  | @latched raw disk f b₁ absent read claimed latched =>
    have h₀ : Sound ⟨{ s.pool with disk := disk }, s.guards⟩ := h.frames_congr rfl rfl rfl
    refine absurd ?_ latched
    rw [claimed.frames]
    exact (claimed.unpinned h₀.free).2
  | @loaded raw page disk f b₁ absent read decoded claimed unlatched =>
    have h₀ : Sound ⟨{ s.pool with disk := disk }, s.guards⟩ := h.frames_congr rfl rfl rfl
    have hid := hown absent raw disk page read decoded (claim_of_checkout absent read decoded hcheck)
    obtain ⟨hstore, hf, -⟩ := @Sound.store n σ δ D P _ f id _ _ h₀ claimed page false hid absent
    exact guarded _ f rfl hstore hf ⟨page, by rw [Pool.store_self], hid⟩ rfl

theorem setLatch_pinFrame (b : Pool n σ δ) (f : Fin n) (latch : Latch) :
    (b.setLatch f latch).pinFrame f = (b.pinFrame f).setLatch f latch := by
  simp [Pool.setLatch, Pool.pinFrame, Pool.setFrame, Function.update_idem]

theorem newPage_sound (h : s.Sound) {page : Page} (hstep : s.newPage D E P page = (r, s')) (hr : r ≠ .error .panic) :
    s'.Sound := by
  unfold newPage at hstep
  rcases hinstall : s.pool.installPage D E P page with ⟨r₁, b⟩
  have hspec := Pool.installPage_spec hinstall
  rw [hinstall] at hstep
  cases hspec with
  | present mapped =>
    cases hstep
    exact h
  | unclaimed absent claimed =>
    cases hstep
    exact h.frames_congr claimed.frames claimed.error.1 claimed.error.2
  | latched absent claimed latched =>
    cases hstep
    exact absurd rfl hr
  | @installed f b₁ absent claimed unlatched =>
    cases hstep
    obtain ⟨hstore, hf, hlatch⟩ := @Sound.store n σ δ D P s.guards f page.pageId s.pool b₁ h claimed page true rfl absent
    rw [setLatch_pinFrame]
    refine hstore.guard hf ?_
    rw [Pool.store_self, hlatch]
    rfl

theorem put_sound (h : s.Sound) {page : Page} (hstep : s.put f page = some (r, s')) : s'.Sound := by
  unfold put at hstep
  by_cases hcond : ⟨f, true⟩ ∈ s.guards ∧ ((s.pool.frames f).page.map Page.pageId) = some page.pageId
  · rw [if_pos hcond] at hstep
    cases hstep
    have hframe (g : Fin n) : g = f ∨ (s.pool.setFrame f
        { s.pool.frames f with page := some page, dirty := true }).frames g =
        s.pool.frames g := by
      by_cases hg : g = f
      · exact Or.inl hg
      · exact Or.inr (Pool.setFrame_ne _ _ hg)
    refine h.congr (fun g => ?_) (fun g => ?_) (fun g => ?_) rfl rfl
    · rcases hframe g with rfl | hg
      · rw [Pool.setFrame_self, hcond.2]
        rfl
      · rw [hg]
    · rcases hframe g with rfl | hg
      · rw [Pool.setFrame_self]
      · rw [hg]
    · rcases hframe g with rfl | hg
      · rw [Pool.setFrame_self]
      · rw [hg]
  · rw [if_neg hcond] at hstep
    cases hstep

theorem guardsOn_erase {g : Guard n} (hg : g ∈ guards) (f : Fin n) :
    guardsOn guards f = guardsOn (guards.erase g) f + if g.frame = f then 1 else 0 := by
  have hperm := (List.perm_cons_erase hg).countP_eq (p := fun x : Guard n => decide (x.frame = f))
  rw [guardsOn, hperm]
  exact guardsOn_cons f g.frame g.write

theorem heldLatch_release {g : Guard n} (hg : g ∈ guards) (hex : ⟨g.frame, true⟩ ∈ guards → guardsOn guards g.frame = 1) :
    heldLatch (guards.erase g) g.frame = Latch.release g.write (heldLatch guards g.frame) := by
  have hcount := guardsOn_erase hg g.frame
  rw [if_pos rfl] at hcount
  by_cases hw : (⟨g.frame, true⟩ : Guard n) ∈ guards
  · have hzero : guardsOn (guards.erase g) g.frame = 0 := by have := hex hw; omega
    rw [heldLatch_none hzero, heldLatch, if_pos hw]
    cases g.write <;> rfl
  · have hwrite : g.write = false := by
      cases hwr : g.write with
      | false => rfl
      | true =>
        have hgw : g = ⟨g.frame, true⟩ := by rw [← hwr]
        exact absurd (hgw ▸ hg) hw
    have hno : (⟨g.frame, true⟩ : Guard n) ∉ guards.erase g := fun hmem => hw (List.mem_of_mem_erase hmem)
    rw [heldLatch, if_neg hno, heldLatch, if_neg hw, hcount, hwrite]
    rfl

theorem drop_sound (h : s.Sound) {g : Guard n} (hstep : s.drop g = some (r, s')) : s'.Sound := by
  unfold drop at hstep
  by_cases hg : g ∈ s.guards
  · rw [if_pos hg] at hstep
    cases hstep
    have hother {f : Fin n} (hf : f ≠ g.frame) (latch : Latch) :
        ((s.pool.setLatch g.frame latch).unpinFrame g.frame).frames f = s.pool.frames f := by
      rw [Pool.unpinFrame_ne _ hf, Pool.setLatch_ne _ _ hf]
    refine ⟨h.tables.congr (fun f => ?_) rfl rfl, fun f => ?_, fun f => ?_, fun f hf => ?_, fun x hx => ?_⟩
    · by_cases hf : f = g.frame
      · rw [hf, Pool.unpinFrame_self, Pool.setLatch_self]
      · rw [hother hf]
    · have hcount := guardsOn_erase hg f
      by_cases hf : f = g.frame
      · subst hf
        have hpin (latch : Latch) : (((s.pool.setLatch g.frame latch).unpinFrame g.frame).frames g.frame).pinCount =
            (s.pool.frames g.frame).pinCount - 1 := by rw [Pool.unpinFrame_self, Pool.setLatch_self]
        rw [if_pos rfl] at hcount
        rw [hpin, h.pins, hcount]
        exact Nat.add_sub_cancel _ _
      · rw [hother hf, h.pins, hcount, if_neg (Ne.symm hf), Nat.add_zero]
    · by_cases hf : f = g.frame
      · subst hf
        rw [Pool.unpinFrame_self, Pool.setLatch_self, heldLatch_release hg (h.exclusive _), h.latches]
      · have hmem : (⟨f, true⟩ : Guard n) ∈ s.guards.erase g ↔ (⟨f, true⟩ : Guard n) ∈ s.guards :=
          List.mem_erase_of_ne fun he => hf (congrArg Guard.frame he)
        have hcount := guardsOn_erase hg f
        rw [if_neg (Ne.symm hf), Nat.add_zero] at hcount
        rw [hother hf, h.latches, heldLatch, heldLatch, ← hcount]
        simp only [hmem]
    · have hone := h.exclusive f (List.mem_of_mem_erase hf)
      have hpos := guardsOn_pos hf
      have hcount := guardsOn_erase hg f
      show guardsOn (s.guards.erase g) f = 1
      change 0 < guardsOn (s.guards.erase g) f at hpos
      split at hcount <;> omega
    · exact h.live x (List.mem_of_mem_erase hx)
  · rw [if_neg hg] at hstep
    cases hstep

theorem flushSteps_sound (h : s.Sound) (hsteps : Pool.FlushSteps D P s.pool b) : Sound ⟨b, s.guards⟩ := by
  obtain ⟨htable, hfree, hframes⟩ := hsteps.same
  exact h.congr (fun f => by rw [(hframes f).1]) (fun f => (hframes f).2.1) (fun f => (hframes f).2.2) htable hfree

/-- Clearing that succeeds finds no pin, and leaves no page. -/
theorem clearFrames_ok {fs : List (Fin n)} (h : Pool.clearFrames fs b = (.ok (), b₁)) :
    b₁.disk = b.disk ∧ ∀ f, (b₁.frames f).pinCount = (b.frames f).pinCount ∧ (b₁.frames f).latch = (b.frames f).latch ∧
      (f ∈ fs → (b.frames f).pinCount = 0 ∧ (b₁.frames f).page = none ∧ (b₁.frames f).dirty = false) ∧
      ((b.frames f).page = none ∧ (b.frames f).dirty = false → (b₁.frames f).page = none ∧ (b₁.frames f).dirty = false) := by
  induction fs generalizing b with
  | nil =>
    cases h
    exact ⟨rfl, fun f => ⟨rfl, rfl, fun hf => absurd hf List.not_mem_nil, id⟩⟩
  | cons f fs ih =>
    unfold Pool.clearFrames at h
    by_cases hpin : (b.frames f).pinCount = 0
    · rw [if_neg (not_not.mpr hpin)] at h
      obtain ⟨hdisk, hrest⟩ := ih h
      refine ⟨hdisk, fun g => ?_⟩
      obtain ⟨hp, hl, hin, hkeep⟩ := hrest g
      by_cases hg : g = f
      · subst hg
        simp only [Pool.setFrame_self] at hp hl hin hkeep
        exact ⟨hp, hl, fun _ => ⟨hpin, hkeep (by simp)⟩, fun _ => hkeep (by simp)⟩
      · simp only [Pool.setFrame_ne _ _ hg] at hp hl hin hkeep
        refine ⟨hp, hl, fun hmem => hin ?_, hkeep⟩
        exact (List.mem_cons.mp hmem).resolve_left hg
    · rw [if_pos hpin] at h
      cases h

theorem clearFrames_error {fs : List (Fin n)} {e : Fail BpmError} (h : Pool.clearFrames fs b = (.error e, b₁)) :
    e = .panic := by
  induction fs generalizing b with
  | nil => cases h
  | cons f fs ih =>
    unfold Pool.clearFrames at h
    by_cases hpin : (b.frames f).pinCount = 0
    · rw [if_neg (not_not.mpr hpin)] at h
      exact ih h
    · rw [if_pos hpin] at h
      cases h
      rfl

theorem swapFile_sound (h : s.Sound) {pages : List Page} {r₁ : Except (Fail BpmError) Unit}
    (hswap : s.pool.swapFile D P pages = some (r₁, b)) (hr : r₁ ≠ .error .panic) : Sound ⟨b, s.guards⟩ := by
  unfold Pool.swapFile at hswap
  obtain ⟨⟨r₂, b₂⟩, hflush, heq⟩ := Option.map_eq_some_iff.mp hswap
  have h₂ : Sound ⟨b₂, s.guards⟩ := flushSteps_sound h (Pool.flushAll_spec hflush).1
  cases r₂ with
  | error e =>
    cases heq
    exact h₂
  | ok _ =>
    simp only at heq
    rcases hdisk : D.swapFile pages b₂.disk with ⟨_ | _, disk⟩
    · simp only [hdisk] at heq
      cases heq
      exact h₂.frames_congr rfl rfl rfl
    · simp only [hdisk] at heq
      rcases hclear : Pool.clearFrames (List.finRange n) { b₂ with disk := disk } with ⟨e | _, b₃⟩
      · simp only [hclear] at heq
        cases heq
        exact absurd (congrArg Except.error (clearFrames_error hclear)) hr
      · simp only [hclear] at heq
        cases heq
        obtain ⟨-, hframes⟩ := clearFrames_ok hclear
        have hunpinned (f : Fin n) : guardsOn s.guards f = 0 :=
          (h₂.pins f).symm.trans ((hframes f).2.2.1 (List.mem_finRange f)).1
        have hguards : s.guards = [] := by
          rw [List.eq_nil_iff_forall_not_mem]
          intro g hg
          exact absurd (guardsOn_pos hg) (by rw [hunpinned]; exact Nat.lt_irrefl 0)
        refine ⟨⟨⟨fun hmap => ?_, fun hmap => ?_, List.nodup_finRange n⟩, fun f => Or.inl (List.mem_finRange f)⟩,
          fun f => (hframes f).1.trans (h₂.pins f), fun f => (hframes f).2.1.trans (h₂.latches f), h.exclusive,
          fun g hg => ?_⟩
        · cases hmap
        · cases hmap
        · rw [hguards] at hg
          cases hg

/-! ## Runs -/

/-- No fetch loads a page that names another id than the one it is stored under. -/
def Op.ReadsOwn (D : DiskManager δ) (E : EvictionPolicy n σ) (P : Platform) (s : Session n σ δ) : Op n → Prop
  | .fetchRead id | .fetchWrite id => Session.ReadsOwn D E P s id
  | _ => True

theorem step_sound (h : s.Sound) {op : Op n} (hown : op.ReadsOwn D E P s) (hstep : s.step D E P op = some (r, s'))
    (hr : r ≠ .error .panic) : s'.Sound := by
  cases op with
  | newPage page => exact newPage_sound h (Option.some.inj hstep) hr
  | fetchRead id => exact fetch_sound h hown hstep
  | fetchWrite id => exact fetch_sound h hown hstep
  | put f page => exact put_sound h hstep
  | drop g => exact drop_sound h hstep
  | flushAll =>
    obtain ⟨⟨r₁, b₁⟩, hflush, heq⟩ := Option.map_eq_some_iff.mp hstep
    cases heq
    exact flushSteps_sound h (Pool.flushAll_spec hflush).1
  | swapFile pages =>
    obtain ⟨⟨r₁, b₁⟩, hswap, heq⟩ := Option.map_eq_some_iff.mp hstep
    cases heq
    refine swapFile_sound h hswap fun he => hr ?_
    rw [he]
    rfl

/-- A pool just made, with no guard. -/
def new (disk : δ) (policy : σ) : Session n σ δ := ⟨Pool.new disk policy, []⟩

theorem new_sound (disk : δ) (policy : σ) : (new disk policy : Session n σ δ).Sound where
  tables := ⟨⟨(fun hmap => by cases hmap), (fun hmap => by cases hmap), List.nodup_finRange n⟩,
      fun f => Or.inl (List.mem_finRange f)⟩
  pins f := rfl
  latches f := rfl
  exclusive f hf := by cases hf
  live g hg := by cases hg

theorem Run.sound (h : s.Sound) {ops : List (Op n)} (hrun : Run D E P (fun s op => op.ReadsOwn D E P s) s ops s') :
    s'.Sound := by
  induction hrun with
  | nil s => exact h
  | cons step completed meets rest ih => exact ih (step_sound h meets step completed)

theorem fetch_error_guards {write : Bool} {e : Fail BpmError} (hfetch : s.fetch D E P write id = some (.error e, s')) :
    s'.guards = s.guards := by
  unfold fetch at hfetch
  rcases hcheck : s.pool.checkoutPage D E P id with ⟨_ | f, b⟩
  · rw [hcheck] at hfetch
    cases hfetch
    rfl
  · simp only [hcheck] at hfetch
    cases hacq : Latch.acquire write (b.frames f).latch with
    | none =>
      rw [hacq] at hfetch
      cases hfetch
    | some latch =>
      rw [hacq] at hfetch
      cases hwrong : (b.frames f).page.filter fun page => page.pageId ≠ id with
      | none =>
        rw [hwrong] at hfetch
        cases hfetch
      | some page =>
        rw [hwrong] at hfetch
        cases hfetch
        rfl

/-- A call that fails hands out no guard and takes none back. -/
theorem step_error_guards {op : Op n} {e : Fail BpmError} (hstep : s.step D E P op = some (.error e, s')) :
    s'.guards = s.guards := by
  cases op with
  | newPage page =>
    have hnew : s.newPage D E P page = (.error e, s') := Option.some.inj hstep
    unfold newPage at hnew
    rcases hinstall : s.pool.installPage D E P page with ⟨_ | f, b⟩
    · rw [hinstall] at hnew
      cases hnew
      rfl
    · rw [hinstall] at hnew
      cases hnew
  | fetchRead id => exact fetch_error_guards hstep
  | fetchWrite id => exact fetch_error_guards hstep
  | put f page =>
    obtain ⟨-, he⟩ := Option.ite_none_right_eq_some.mp hstep
    cases he
  | drop g =>
    obtain ⟨-, he⟩ := Option.ite_none_right_eq_some.mp hstep
    cases he
  | flushAll =>
    obtain ⟨⟨r₁, b₁⟩, -, heq⟩ := Option.map_eq_some_iff.mp hstep
    exact (congrArg Session.guards (Prod.mk.inj heq).2.symm).trans rfl
  | swapFile pages =>
    obtain ⟨⟨r₁, b₁⟩, -, heq⟩ := Option.map_eq_some_iff.mp hstep
    exact (congrArg Session.guards (Prod.mk.inj heq).2.symm).trans rfl

/-- In a run whose fetches load every page under its own id, the pin count of a frame is the
    number of guards on it, and a call that fails leaves every pin count. -/
theorem pins_eq_guards {disk : δ} {policy : σ} {ops : List (Op n)}
    (hrun : Run D E P (fun s op => op.ReadsOwn D E P s) (new disk policy) ops s) :
    (∀ f, (s.pool.frames f).pinCount = guardsOn s.guards f) ∧
    ∀ op e s', op.ReadsOwn D E P s → s.step D E P op = some (.error (.err e), s') →
      ∀ f, (s'.pool.frames f).pinCount = (s.pool.frames f).pinCount := by
  have h := Run.sound (new_sound disk policy) hrun
  refine ⟨h.pins, fun op e s' hown hstep f => ?_⟩
  rw [h.pins f, (step_sound h hown hstep (by intro he; cases he)).pins f, step_error_guards hstep]

/-- In such a run the page table, the free frames and the frames agree. -/
theorem tables_consistent {disk : δ} {policy : σ} {ops : List (Op n)}
    (hrun : Run D E P (fun s op => op.ReadsOwn D E P s) (new disk policy) ops s) :
    (∀ id f, s.pool.pageTable id = some f → ∃ page, (s.pool.frames f).page = some page ∧ page.pageId = id) ∧
    (∀ id id' f, s.pool.pageTable id = some f → s.pool.pageTable id' = some f → id = id') ∧
    s.pool.freeFrames.Nodup ∧
    ∀ f, (f ∈ s.pool.freeFrames ∧ ∀ id, s.pool.pageTable id ≠ some f) ∨
      (f ∉ s.pool.freeFrames ∧ ∃ id, s.pool.pageTable id = some f ∧ ∀ id', s.pool.pageTable id' = some f → id' = id) := by
  have h := (Run.sound (new_sound disk policy) hrun).tables
  refine ⟨fun id f hmap => h.mapped hmap, fun id id' f => h.inj, h.nodup, fun f => ?_⟩
  rcases h.covered f with hmem | ⟨id, hmap⟩
  · exact Or.inl ⟨hmem, fun id hmap => h.disjoint hmap hmem⟩
  · exact Or.inr ⟨h.disjoint hmap, id, hmap, fun id' hmap' => h.inj hmap' hmap⟩

/-! ## How far a pin count goes -/

theorem pinFrame_pin_le (b : Pool n σ δ) (f g : Fin n) :
    ((b.pinFrame f).frames g).pinCount ≤ (b.frames g).pinCount + 1 := by
  by_cases hg : g = f
  · subst hg
    rw [Pool.pinFrame_self]
  · rw [Pool.pinFrame_ne _ hg]
    exact Nat.le_succ _

theorem store_pin (b : Pool n σ δ) (f g : Fin n) (id : PageId) (page : Page) (dirty : Bool) :
    ((b.store f id page dirty).frames g).pinCount = (b.frames g).pinCount := by
  by_cases hg : g = f
  · subst hg
    rw [Pool.store_self]
  · rw [Pool.store_ne _ _ _ _ hg]

theorem setLatch_pin (b : Pool n σ δ) (f g : Fin n) (latch : Latch) :
    ((b.setLatch f latch).frames g).pinCount = (b.frames g).pinCount := by
  by_cases hg : g = f
  · subst hg
    rw [Pool.setLatch_self]
  · rw [Pool.setLatch_ne _ _ hg]

theorem fetch_pin_le {write : Bool} (hstep : s.fetch D E P write id = some (r, s')) (g : Fin n) :
    (s'.pool.frames g).pinCount ≤ (s.pool.frames g).pinCount + 1 := by
  have hcheck : ((s.pool.checkoutPage D E P id).2.frames g).pinCount ≤ (s.pool.frames g).pinCount + 1 := by
    rcases hcheck : s.pool.checkoutPage D E P id with ⟨r₁, b⟩
    cases Pool.checkoutPage_spec hcheck with
    | @cached f mapped => exact pinFrame_pin_le s.pool f g
    | unread absent read => exact Nat.le_succ _
    | unclaimed absent read claimed =>
      rw [claimed.frames]
      exact Nat.le_succ _
    | latched absent read claimed latched =>
      rw [claimed.frames]
      exact Nat.le_succ _
    | @loaded raw page disk f b₁ absent read decoded claimed unlatched =>
      refine (pinFrame_pin_le _ f g).trans (Nat.succ_le_succ ?_)
      rw [store_pin, claimed.frames]
  unfold fetch at hstep
  rcases hpool : s.pool.checkoutPage D E P id with ⟨e | f, b⟩
  · simp only [hpool] at hstep hcheck
    cases hstep
    exact hcheck
  · simp only [hpool] at hstep hcheck
    cases hacq : Latch.acquire write (b.frames f).latch with
    | none =>
      rw [hacq] at hstep
      cases hstep
    | some latch =>
      rw [hacq] at hstep
      cases hwrong : (b.frames f).page.filter fun page => page.pageId ≠ id with
      | none =>
        rw [hwrong] at hstep
        cases hstep
        exact (setLatch_pin b f g latch).le.trans hcheck
      | some page =>
        rw [hwrong] at hstep
        cases hstep
        exact hcheck

theorem newPage_pin_le {page : Page} (hstep : s.newPage D E P page = (r, s')) (g : Fin n) :
    (s'.pool.frames g).pinCount ≤ (s.pool.frames g).pinCount + 1 := by
  unfold newPage at hstep
  rcases hinstall : s.pool.installPage D E P page with ⟨r₁, b⟩
  have hspec := Pool.installPage_spec hinstall
  rw [hinstall] at hstep
  cases hspec with
  | present mapped =>
    cases hstep
    exact Nat.le_succ _
  | unclaimed absent claimed =>
    cases hstep
    rw [claimed.frames]
    exact Nat.le_succ _
  | latched absent claimed latched =>
    cases hstep
    rw [claimed.frames]
    exact Nat.le_succ _
  | @installed f b₁ absent claimed unlatched =>
    cases hstep
    refine (pinFrame_pin_le _ f g).trans (Nat.succ_le_succ ?_)
    rw [setLatch_pin, store_pin, claimed.frames]

theorem clearFrames_pin (fs : List (Fin n)) (b : Pool n σ δ) (g : Fin n) :
    ((Pool.clearFrames fs b).2.frames g).pinCount = (b.frames g).pinCount := by
  induction fs generalizing b with
  | nil => rfl
  | cons f fs ih =>
    unfold Pool.clearFrames
    by_cases hpin : (b.frames f).pinCount ≠ 0
    · rw [if_pos hpin]
    · rw [if_neg hpin, ih]
      by_cases hg : g = f
      · subst hg
        rw [Pool.setFrame_self]
      · rw [Pool.setFrame_ne _ _ hg]

theorem swapFile_pin {pages : List Page} {r₁ : Except (Fail BpmError) Unit}
    (hswap : s.pool.swapFile D P pages = some (r₁, b)) (g : Fin n) :
    (b.frames g).pinCount = (s.pool.frames g).pinCount := by
  unfold Pool.swapFile at hswap
  obtain ⟨⟨r₂, b₂⟩, hflush, heq⟩ := Option.map_eq_some_iff.mp hswap
  have hpin := ((Pool.flushAll_spec hflush).1.same.2.2 g).2.1
  cases r₂ with
  | error e =>
    cases heq
    exact hpin
  | ok _ =>
    simp only at heq
    rcases hdisk : D.swapFile pages b₂.disk with ⟨_ | _, disk⟩
    · simp only [hdisk] at heq
      cases heq
      exact hpin
    · simp only [hdisk] at heq
      have hclear := clearFrames_pin (List.finRange n) { b₂ with disk := disk } g
      rcases hpool : Pool.clearFrames (List.finRange n) { b₂ with disk := disk } with ⟨e | _, b₃⟩
      · simp only [hpool] at heq hclear
        cases heq
        exact hclear.trans hpin
      · simp only [hpool] at heq hclear
        cases heq
        exact hclear.trans hpin

/-- A call pins a frame once at most, whatever it ends with. -/
theorem step_pin_le {op : Op n} (hstep : s.step D E P op = some (r, s')) (g : Fin n) :
    (s'.pool.frames g).pinCount ≤ (s.pool.frames g).pinCount + 1 := by
  cases op with
  | newPage page => exact newPage_pin_le (Option.some.inj hstep) g
  | fetchRead id => exact fetch_pin_le hstep g
  | fetchWrite id => exact fetch_pin_le hstep g
  | put f page =>
    obtain ⟨-, heq⟩ := Option.ite_none_right_eq_some.mp hstep
    cases heq
    by_cases hg : g = f
    · subst hg
      rw [Pool.setFrame_self]
      exact Nat.le_succ _
    · rw [Pool.setFrame_ne _ _ hg]
      exact Nat.le_succ _
  | drop x =>
    obtain ⟨-, heq⟩ := Option.ite_none_right_eq_some.mp hstep
    cases heq
    by_cases hg : g = x.frame
    · subst hg
      rw [Pool.unpinFrame_self, Pool.setLatch_self]
      exact (Nat.sub_le _ 1).trans (Nat.le_succ _)
    · rw [Pool.unpinFrame_ne _ hg, Pool.setLatch_ne _ _ hg]
      exact Nat.le_succ _
  | flushAll =>
    obtain ⟨⟨r₁, b₁⟩, hflush, heq⟩ := Option.map_eq_some_iff.mp hstep
    cases heq
    exact ((Pool.flushAll_spec hflush).1.same.2.2 g).2.1.le.trans (Nat.le_succ _)
  | swapFile pages =>
    obtain ⟨⟨r₁, b₁⟩, hswap, heq⟩ := Option.map_eq_some_iff.mp hstep
    cases heq
    exact (swapFile_pin hswap g).le.trans (Nat.le_succ _)

/-- So a pin count is at most the number of calls made: below `2 ^ 32` of them the `u32` of the
    source does not wrap. -/
theorem Run.pin_le {R : Session n σ δ → Op n → Prop} {ops : List (Op n)} (hrun : Run D E P R s ops s') (g : Fin n) :
    (s'.pool.frames g).pinCount ≤ (s.pool.frames g).pinCount + ops.length := by
  induction hrun with
  | nil s => exact Nat.le_refl _
  | @cons s s₁ s' op ops r step completed meets rest ih =>
    calc (s'.pool.frames g).pinCount ≤ (s₁.pool.frames g).pinCount + ops.length := ih
      _ ≤ (s.pool.frames g).pinCount + 1 + ops.length := Nat.add_le_add_right (step_pin_le step g) _
      _ = (s.pool.frames g).pinCount + (op :: ops).length := by rw [List.length_cons]; omega

/-! ## A page stored under another id -/

/-- A disk that is a map from ids to raw pages, as the fake disk of the tests is. -/
def mapDisk (P : Platform) : DiskManager (PageId → Option (List UInt8)) where
  readPage id disk :=
    match disk id with
    | some raw => (.ok raw, disk)
    | none => (.error .notFound, disk)
  writePage id raw disk := (.ok (), Function.update disk id (some raw))
  sync disk := (.ok (), disk)
  swapFile pages disk :=
    match pages.mapM fun page => (page.asRawPage P).map fun raw => (page.pageId, raw) with
    | .ok entries => (.ok (), fun id => (entries.reverse.find? (·.1 = id)).map Prod.snd)
    | .error _ => (.error .panic, disk)

/-- A free page numbered 2. -/
def strayPage : Page := Page.emptyPage ⟨⟨1⟩, 2⟩ (.free none)

/-- A disk with the given bytes under page 1. -/
def strayDisk (raw : List UInt8) : PageId → Option (List UInt8) := fun id => if id = ⟨⟨1⟩, 1⟩ then some raw else none

/-- A pool of one frame over it. -/
def strayPool (raw : List UInt8) : Session 1 (Fin 1) (PageId → Option (List UInt8)) := new (strayDisk raw) 0

/-- The pool after page 1 was fetched: the other page is mapped and pinned. -/
def strayFetched (raw : List UInt8) : Session 1 (Fin 1) (PageId → Option (List UInt8)) :=
  ⟨(({ (strayPool raw).pool with freeFrames := [] } : Pool _ _ _).store 0 ⟨⟨1⟩, 1⟩ strayPage false).pinFrame 0, []⟩

theorem fetch_stray {raw : List UInt8} (hraw : Page.deserialize .standard raw = .ok strayPage) :
    (strayPool raw).fetchRead (mapDisk .standard) (replacer Nat.one_pos) .standard ⟨⟨1⟩, 1⟩ =
      some (.error (.err (.wrongPage ⟨⟨1⟩, 1⟩ ⟨⟨1⟩, 2⟩)), strayFetched raw) := by
  have hread : (mapDisk .standard).readPage ⟨⟨1⟩, 1⟩ (strayDisk raw) = (.ok raw, strayDisk raw) := rfl
  have hcheck : (strayPool raw).pool.checkoutPage (mapDisk .standard) (replacer Nat.one_pos) .standard ⟨⟨1⟩, 1⟩ =
      (.ok 0, (strayFetched raw).pool) := by
    simp only [Pool.checkoutPage, strayPool, new, Pool.new, Pool.loadPage, hread, hraw, Pool.claimFrame, List.finRange_succ,
      List.finRange_zero]
    rfl
  have hframe : (strayFetched raw).pool.frames 0 = ⟨some strayPage, 1, false, .readers 0⟩ := by
    rw [strayFetched, Pool.pinFrame_self, Pool.store_self]
    rfl
  simp only [fetchRead, fetch, hcheck, hframe]
  rfl

theorem strayFetched_frame (raw : List UInt8) : (strayFetched raw).pool.frames 0 =
    ⟨some strayPage, 1, false, .readers 0⟩ := by
  rw [strayFetched, Pool.pinFrame_self, Pool.store_self]
  rfl

/-- Page 2 is stored under page 1: fetching page 1 is refused, and the frame stays pinned
    though no guard is left. -/
theorem fetch_leaks_pin : ∃ raw, Page.deserialize .standard raw = .ok strayPage ∧
    (strayPool raw).fetchRead (mapDisk .standard) (replacer Nat.one_pos) .standard ⟨⟨1⟩, 1⟩ =
      some (.error (.err (.wrongPage ⟨⟨1⟩, 1⟩ ⟨⟨1⟩, 2⟩)), strayFetched raw) ∧
    guardsOn (strayFetched raw).guards 0 = 0 ∧ ((strayFetched raw).pool.frames 0).pinCount = 1 := by
  obtain ⟨raw, -, -, hraw⟩ := Page.deserialize_asRawPage .standard strayPage rfl rfl (by intro records h; cases h)
  exact ⟨raw, hraw, fetch_stray hraw, rfl, by rw [strayFetched_frame]⟩

/-- Page 2 is stored under page 1: fetching page 1 is refused, and leaves the page table
    leading from page 1 to a frame that holds page 2. -/
theorem load_breaks_tables : ∃ raw, Page.deserialize .standard raw = .ok strayPage ∧
    (strayPool raw).fetchRead (mapDisk .standard) (replacer Nat.one_pos) .standard ⟨⟨1⟩, 1⟩ =
      some (.error (.err (.wrongPage ⟨⟨1⟩, 1⟩ ⟨⟨1⟩, 2⟩)), strayFetched raw) ∧
    (strayFetched raw).pool.pageTable ⟨⟨1⟩, 1⟩ = some 0 ∧
    ((strayFetched raw).pool.frames 0).page.map Page.pageId = some ⟨⟨1⟩, 2⟩ := by
  obtain ⟨raw, -, -, hraw⟩ := Page.deserialize_asRawPage .standard strayPage rfl rfl (by intro records h; cases h)
  exact ⟨raw, hraw, fetch_stray hraw, rfl, by rw [strayFetched_frame]; rfl⟩

/-! ## A pool of one frame at work -/

/-- A free page numbered 3. -/
def otherPage : Page := Page.emptyPage ⟨⟨1⟩, 3⟩ (.free none)

/-- A pool of one frame, with a page in it that nobody holds. -/
def cached (disk : PageId → Option (List UInt8)) (page : Page) (dirty : Bool) :
    Session 1 (Fin 1) (PageId → Option (List UInt8)) where
  pool := {
    frames := fun _ => ⟨some page, 0, dirty, .readers 0⟩
    referenced := fun _ => true
    pageTable := Function.update (fun _ => none) page.pageId (some 0)
    freeFrames := []
    policy := 0
    disk := disk }
  guards := []

/-- The same with one guard on the page. -/
def held (disk : PageId → Option (List UInt8)) (page : Page) (dirty write : Bool) :
    Session 1 (Fin 1) (PageId → Option (List UInt8)) where
  pool := { (cached disk page dirty).pool with
    frames := fun _ => ⟨some page, 1, dirty, cond write .write (.readers 1)⟩ }
  guards := [⟨0, write⟩]

section
variable {disk disk' : PageId → Option (List UInt8)} {page page' : Page} {raw : List UInt8} {dirty : Bool} {P : Platform}

/-- What is changed at the one frame is changed everywhere. -/
theorem update_one {α : Type} (g : Fin 1 → α) (f : Fin 1) (x : α) : Function.update g f x = fun _ => x := by
  funext f'
  rw [Subsingleton.elim f' f, Function.update_self]

theorem cached_absent (hne : page'.pageId ≠ page.pageId) : (cached disk page dirty).pool.pageTable page'.pageId = none := by
  show Function.update (fun _ => none) page.pageId (some 0) page'.pageId = none
  rw [Function.update_of_ne hne]

/-- The one frame is claimed: its page is written out if it is dirty, and unmapped. -/
theorem claim_cached (hflushed : Pool.Flushed (mapDisk P) P page dirty disk disk') :
    (cached disk page dirty).pool.claimFrame (mapDisk P) (replacer Nat.one_pos) P =
      (.ok 0, { (cached disk' page dirty).pool with pageTable := fun _ => none }) := by
  have hnone : Function.update (Function.update (fun _ : PageId => (none : Option (Fin 1))) page.pageId (some 0))
      page.pageId none = fun _ => none := by
    rw [Function.update_idem]
    exact Function.update_eq_self _ _
  have hhand (hand : Fin 1) : hand = 0 := Subsingleton.elim _ _
  rw [Pool.claimFrame_take (E := replacer Nat.one_pos) (f := 0) rfl rfl rfl rfl rfl hflushed,
    hhand (EvictionPolicy.findVictim _ _ _ _).policy]
  refine congrArg (Prod.mk (Except.ok 0)) ?_
  unfold cached
  rw [hnone]
  rfl

/-- A page that is not cached takes the frame: one just created, -/
theorem newPage_cached (hflushed : Pool.Flushed (mapDisk P) P page dirty disk disk') (hne : page'.pageId ≠ page.pageId) :
    (cached disk page dirty).newPage (mapDisk P) (replacer Nat.one_pos) P page' =
      (.ok (some 0), held disk' page' true true) := by
  simp only [newPage, Pool.installPage, cached_absent hne, claim_cached hflushed]
  simp [Pool.storePage, cached, held, Pool.store, Pool.pinFrame, Pool.setLatch, Pool.setFrame, update_one]

/-- or one that is fetched. -/
theorem fetch_cached (hflushed : Pool.Flushed (mapDisk P) P page dirty disk disk') (hne : page'.pageId ≠ page.pageId)
    (hraw : disk page'.pageId = some raw) (hdecoded : Page.deserialize P raw = .ok page') (write : Bool) :
    (cached disk page dirty).fetch (mapDisk P) (replacer Nat.one_pos) P write page'.pageId =
      some (.ok (some 0), held disk' page' false write) := by
  have hread : (mapDisk P).readPage page'.pageId disk = (.ok raw, disk) := by
    simp only [mapDisk, hraw]
  have hload : (cached disk page dirty).pool.checkoutPage (mapDisk P) (replacer Nat.one_pos) P page'.pageId =
      (.ok 0, { (held disk' page' false write).pool with frames := fun _ => ⟨some page', 1, false, .readers 0⟩ }) := by
    have hclaim := claim_cached hflushed
    unfold cached at hclaim
    simp only [Pool.checkoutPage, Pool.loadPage, cached_absent hne]
    simp [hread, hdecoded, cached, hclaim]
    simp [Pool.storePage, cached, held, Pool.store, Pool.pinFrame, Pool.setFrame, update_one]
  have hown : (some page').filter (fun q => q.pageId ≠ page'.pageId) = none := by simp
  simp only [fetch, hload, hown]
  cases write <;> simp [Latch.acquire, Pool.setLatch, Pool.setFrame, update_one, held, cached]

theorem newPage_new : (new disk 0 : Session 1 (Fin 1) _).newPage (mapDisk P) (replacer Nat.one_pos) P page =
    (.ok (some 0), held disk page true true) := by
  have hclaim : (new disk 0 : Session 1 (Fin 1) _).pool.claimFrame (mapDisk P) (replacer Nat.one_pos) P =
      (.ok 0, { Pool.new disk 0 with freeFrames := [] }) := rfl
  simp only [newPage, Pool.installPage, hclaim]
  simp [Pool.storePage, new, Pool.new, cached, held, Pool.store, Pool.pinFrame, Pool.setLatch, Pool.setFrame, update_one,
    Frame.empty]

theorem drop_held (write : Bool) : (held disk page dirty write).drop ⟨0, write⟩ =
    some (.ok none, cached disk page dirty) := by
  cases write <;> simp [drop, cached, held, Latch.release, Pool.unpinFrame, Pool.setLatch, Pool.setFrame, update_one]

end

/-- The disk with the pages 2 and 3, each under its own id. -/
def twoPages (raw raw' : List UInt8) : PageId → Option (List UInt8) :=
  Function.update (Function.update (fun _ => none) strayPage.pageId (some raw)) otherPage.pageId (some raw')

/-- Page 2 is created and left; page 3 takes its frame, so that page 2 is written out; then page 2
    is fetched, which writes page 3 out and loads page 2 again. -/
def reloadOps : List (Op 1) :=
  [.newPage strayPage, .drop ⟨0, true⟩, .newPage otherPage, .drop ⟨0, true⟩, .fetchRead strayPage.pageId]

/-- The two pages, encoded. -/
theorem stray_encoded : ∃ raw raw', strayPage.asRawPage .standard = .ok raw ∧
    Page.deserialize .standard raw = .ok strayPage ∧
    otherPage.asRawPage .standard = .ok raw' := by
  obtain ⟨raw, hraw, -, hdecoded⟩ := Page.deserialize_asRawPage .standard strayPage rfl rfl (by intro records h; cases h)
  obtain ⟨raw', hraw', -⟩ := Page.deserialize_asRawPage .standard otherPage rfl rfl (by intro records h; cases h)
  exact ⟨raw, raw', hraw, hdecoded, hraw'⟩

theorem reload_run {raw raw' : List UInt8} (hraw : strayPage.asRawPage .standard = .ok raw)
    (hdecoded : Page.deserialize .standard raw = .ok strayPage) (hraw' : otherPage.asRawPage .standard = .ok raw') :
    Run (mapDisk .standard) (replacer Nat.one_pos) .standard
      (fun s op => op.ReadsOwn (mapDisk .standard) (replacer Nat.one_pos) .standard s) (new (fun _ => none) 0) reloadOps
      (held (twoPages raw raw') strayPage false false) := by
  have hdisk : Function.update (fun _ => none) strayPage.pageId (some raw) strayPage.pageId = some raw :=
    Function.update_self _ _ _
  refine .cons (congrArg some newPage_new) (by intro h; cases h) trivial ?_
  refine .cons (drop_held true) (by intro h; cases h) trivial ?_
  refine .cons (congrArg some (newPage_cached (.dirty hraw rfl) (by decide))) (by intro h; cases h) trivial ?_
  refine .cons (drop_held true) (by intro h; cases h) trivial ?_
  refine .cons (fetch_cached (.dirty hraw' rfl) (by decide) hdisk hdecoded false) (by intro h; cases h) ?_ (.nil _)
  -- what is read under page 2 is what was written of it
  intro _ raw₁ disk page hread hpage _
  simp only [cached, mapDisk, hdisk] at hread
  cases hread
  cases hdecoded.symm.trans hpage
  rfl

theorem pins_eq_guards_reload : ∃ s : Session 1 (Fin 1) (PageId → Option (List UInt8)), s.guards = [⟨0, false⟩] ∧
    (s.pool.frames 0).page = some strayPage ∧ (s.pool.frames 0).pinCount = guardsOn s.guards 0 := by
  obtain ⟨raw, raw', hraw, hdecoded, hraw'⟩ := stray_encoded
  exact ⟨_, rfl, rfl, (pins_eq_guards (reload_run hraw hdecoded hraw')).1 0⟩

theorem tables_consistent_reload : ∃ s : Session 1 (Fin 1) (PageId → Option (List UInt8)),
    s.pool.disk otherPage.pageId ≠ none ∧ s.pool.pageTable strayPage.pageId = some 0 ∧
    (∃ page, (s.pool.frames 0).page = some page ∧ page.pageId = strayPage.pageId) ∧
    ∀ id, s.pool.pageTable id = some 0 → id = strayPage.pageId := by
  obtain ⟨raw, raw', hraw, hdecoded, hraw'⟩ := stray_encoded
  have hmap : (held (twoPages raw raw') strayPage false false).pool.pageTable strayPage.pageId = some 0 := rfl
  have hdisk : (held (twoPages raw raw') strayPage false false).pool.disk otherPage.pageId = some raw' := by
    show twoPages raw raw' otherPage.pageId = some raw'
    exact Function.update_self _ _ _
  refine ⟨held (twoPages raw raw') strayPage false false, fun h => ?_, hmap, ?_, fun id hid => ?_⟩
  · cases hdisk.symm.trans h
  · exact (tables_consistent (reload_run hraw hdecoded hraw')).1 _ _ hmap
  · exact (tables_consistent (reload_run hraw hdecoded hraw')).2.1 _ _ _ hid hmap

end Session

end Bpm

end RustDb
