/-
  RustDb.Bpm.Manager — the buffer pool itself (`bpm/manager.rs`): frames, the page table, the
  free frames, an eviction policy and a disk.

  The functions here are what runs under the big lock (`new_page`, the `checkout_page` of a
  fetch), plus the latches of one frame and the flush of one frame; `Bpm.Session` puts them
  together for one thread and `Bpm.Threads` for many. A pin count is a number without bound
  for the `AtomicU32` of the source: a call adds one at most (`Session.Run.pin_le`).

  Each function is followed by everything it can do (`claimFrame_spec`, `loadPage_spec`,
  `checkoutPage_spec`, `installPage_spec`).
-/

import RustDb.Bpm.Eviction
import RustDb.Codec.Page
import Mathlib.Logic.Function.Basic
import Mathlib.Logic.Relation

namespace RustDb

namespace Bpm

/-! ## The disk and the pool -/

/-- `trait DiskManager`; any call may change the disk, and fail. -/
structure DiskManager (δ : Type) where
  readPage : PageId → δ → Except IoError (List UInt8) × δ
  writePage : PageId → List UInt8 → δ → Except IoError Unit × δ
  sync : δ → Except IoError Unit × δ
  swapFile : List Page → δ → Except (Fail IoError) Unit × δ

/-- `BufferPoolManager` and the `BpmState` behind its lock. -/
structure Pool (n : Nat) (σ δ : Type) where
  frames : Fin n → Frame
  referenced : Fin n → Bool
  pageTable : PageId → Option (Fin n)
  freeFrames : List (Fin n)
  policy : σ
  disk : δ

variable {n : Nat} {σ δ : Type} (D : DiskManager δ) (E : EvictionPolicy n σ) (P : Platform)

namespace Pool

/-- `BufferPoolManager::new`. -/
def new (disk : δ) (policy : σ) : Pool n σ δ :=
  ⟨fun _ => .empty, fun _ => false, fun _ => none, List.finRange n, policy, disk⟩

def setFrame (b : Pool n σ δ) (f : Fin n) (frame : Frame) : Pool n σ δ :=
  { b with frames := Function.update b.frames f frame }

/-! ## Under the big lock -/

/-- `BufferPoolManager::claim_frame`. -/
def claimFrame (b : Pool n σ δ) : Except (Fail BpmError) (Fin n) × Pool n σ δ :=
  match b.freeFrames.getLast? with
  | some f => (.ok f, { b with freeFrames := b.freeFrames.dropLast })
  | none =>
    let found := E.findVictim b.policy b.frames b.referenced
    let b := { b with policy := found.policy, referenced := found.referenced }
    match found.frame with
    | none => (.error (.err .noFreeFrames), b)
    | some victim =>
      if (b.frames victim).pinCount ≠ 0 then (.error (.err .noFreeFrames), b)
      else if (b.frames victim).latch ≠ .readers 0 then (.error (.err .noFreeFrames), b)
      else match (b.frames victim).page with
        | none => (.error .panic, b)
        | some page =>
          if (b.frames victim).dirty then
            match page.asRawPage P with
            | .error e => (.error (e.map .page), b)
            | .ok raw =>
              match D.writePage page.pageId raw b.disk with
              | (.error e, disk) => (.error (.err (.io e)), { b with disk := disk })
              | (.ok (), disk) =>
                (.ok victim, { b with disk := disk, pageTable := Function.update b.pageTable page.pageId none })
          else (.ok victim, { b with pageTable := Function.update b.pageTable page.pageId none })

/-- The page of a frame, mapped under `id`. -/
def store (b : Pool n σ δ) (f : Fin n) (id : PageId) (page : Page) (dirty : Bool) : Pool n σ δ :=
  { b.setFrame f { b.frames f with page := some page, dirty := dirty } with
    pageTable := Function.update b.pageTable id (some f) }

/-- A page put into a claimed frame, whose latch `try_write` must get. -/
def storePage (b : Pool n σ δ) (f : Fin n) (id : PageId) (page : Page) (dirty : Bool) :
    Except (Fail BpmError) (Fin n) × Pool n σ δ :=
  if (b.frames f).latch ≠ .readers 0 then (.error .panic, b) else (.ok f, b.store f id page dirty)

/-- `BufferPoolManager::load_page`. -/
def loadPage (id : PageId) (b : Pool n σ δ) : Except (Fail BpmError) (Fin n) × Pool n σ δ :=
  match D.readPage id b.disk with
  | (.error e, disk) => (.error (.err (.io e)), { b with disk := disk })
  | (.ok raw, disk) =>
    let b := { b with disk := disk }
    match Page.deserialize P raw with
    | .error e => (.error (e.map .page), b)
    | .ok page =>
      match b.claimFrame D E P with
      | (.error e, b) => (.error e, b)
      | (.ok f, b) => b.storePage f id page false

/-- `BufferPoolManager::pin_frame`. -/
def pinFrame (b : Pool n σ δ) (f : Fin n) : Pool n σ δ :=
  { b.setFrame f { b.frames f with pinCount := (b.frames f).pinCount + 1 } with
    referenced := Function.update b.referenced f true }

/-- `BufferPoolManager::unpin_frame`. -/
def unpinFrame (b : Pool n σ δ) (f : Fin n) : Pool n σ δ :=
  b.setFrame f { b.frames f with pinCount := (b.frames f).pinCount - 1 }

/-- `BufferPoolManager::checkout_page`. -/
def checkoutPage (id : PageId) (b : Pool n σ δ) : Except (Fail BpmError) (Fin n) × Pool n σ δ :=
  match b.pageTable id with
  | some f => (.ok f, b.pinFrame f)
  | none =>
    match b.loadPage D E P id with
    | (.error e, b) => (.error e, b)
    | (.ok f, b) => (.ok f, b.pinFrame f)

def setLatch (b : Pool n σ δ) (f : Fin n) (latch : Latch) : Pool n σ δ :=
  b.setFrame f { b.frames f with latch := latch }

/-- `BufferPoolManager::new_page`: the frame, write-latched and pinned. -/
def installPage (page : Page) (b : Pool n σ δ) : Except (Fail BpmError) (Fin n) × Pool n σ δ :=
  if (b.pageTable page.pageId).isSome then (.error (.err (.alreadyExists page.pageId)), b)
  else match b.claimFrame D E P with
    | (.error e, b) => (.error e, b)
    | (.ok f, b) =>
      match b.storePage f page.pageId page true with
      | (.error e, b) => (.error e, b)
      | (.ok f, b) => (.ok f, (b.setLatch f .write).pinFrame f)

section
variable (b : Pool n σ δ) (f g : Fin n) (frame : Frame) (latch : Latch) (id : PageId) (page : Page) (dirty : Bool)

@[simp] theorem setFrame_self : (b.setFrame f frame).frames f = frame := by
  simp only [setFrame, Function.update_self]
@[simp] theorem setFrame_pageTable : (b.setFrame f frame).pageTable = b.pageTable := rfl
@[simp] theorem setFrame_freeFrames : (b.setFrame f frame).freeFrames = b.freeFrames := rfl
@[simp] theorem setFrame_disk : (b.setFrame f frame).disk = b.disk := rfl
@[simp] theorem pinFrame_self : (b.pinFrame f).frames f = { b.frames f with pinCount := (b.frames f).pinCount + 1 } :=
  setFrame_self b f _
@[simp] theorem pinFrame_pageTable : (b.pinFrame f).pageTable = b.pageTable := rfl
@[simp] theorem pinFrame_freeFrames : (b.pinFrame f).freeFrames = b.freeFrames := rfl
@[simp] theorem pinFrame_disk : (b.pinFrame f).disk = b.disk := rfl
@[simp] theorem unpinFrame_self : (b.unpinFrame f).frames f = { b.frames f with pinCount := (b.frames f).pinCount - 1 } :=
  setFrame_self b f _
@[simp] theorem unpinFrame_pageTable : (b.unpinFrame f).pageTable = b.pageTable := rfl
@[simp] theorem unpinFrame_freeFrames : (b.unpinFrame f).freeFrames = b.freeFrames := rfl
@[simp] theorem unpinFrame_disk : (b.unpinFrame f).disk = b.disk := rfl
@[simp] theorem setLatch_self : (b.setLatch f latch).frames f = { b.frames f with latch := latch } := setFrame_self b f _
@[simp] theorem setLatch_pageTable : (b.setLatch f latch).pageTable = b.pageTable := rfl
@[simp] theorem setLatch_freeFrames : (b.setLatch f latch).freeFrames = b.freeFrames := rfl
@[simp] theorem setLatch_disk : (b.setLatch f latch).disk = b.disk := rfl
@[simp] theorem store_self : (b.store f id page dirty).frames f = { b.frames f with page := some page, dirty := dirty } :=
  setFrame_self b f _
@[simp] theorem store_pageTable : (b.store f id page dirty).pageTable = Function.update b.pageTable id (some f) := rfl
@[simp] theorem store_freeFrames : (b.store f id page dirty).freeFrames = b.freeFrames := rfl
@[simp] theorem store_disk : (b.store f id page dirty).disk = b.disk := rfl

variable {f g}

theorem setFrame_ne (h : g ≠ f) : (b.setFrame f frame).frames g = b.frames g := by
  simp only [setFrame, Function.update_of_ne h]
theorem pinFrame_ne (h : g ≠ f) : (b.pinFrame f).frames g = b.frames g := setFrame_ne b _ h
theorem unpinFrame_ne (h : g ≠ f) : (b.unpinFrame f).frames g = b.frames g := setFrame_ne b _ h
theorem setLatch_ne (h : g ≠ f) : (b.setLatch f latch).frames g = b.frames g := setFrame_ne b _ h
theorem store_ne (h : g ≠ f) : (b.store f id page dirty).frames g = b.frames g := setFrame_ne b _ h

end

/-! ## Flushing and swapping -/

def markClean (b : Pool n σ δ) (f : Fin n) : Pool n σ δ := b.setFrame f { b.frames f with dirty := false }

/-- The body of `flush_all`'s loop, under the frame's read latch. -/
def flushFrame (f : Fin n) (b : Pool n σ δ) : Except (Fail BpmError) Unit × Pool n σ δ :=
  if (b.frames f).dirty then
    match (b.frames f).page with
    | none => (.ok (), b.markClean f)
    | some page =>
      match page.asRawPage P with
      | .error e => (.error (e.map .page), b)
      | .ok raw =>
        match D.writePage page.pageId raw b.disk with
        | (.error e, disk) => (.error (.err (.io e)), { b with disk := disk })
        | (.ok (), disk) => (.ok (), { b.markClean f with disk := disk })
  else (.ok (), b)

/-- The loop of `flush_all`; a frame latched for writing blocks it. -/
def flushFrames : List (Fin n) → Pool n σ δ → Option (Except (Fail BpmError) Unit × Pool n σ δ)
  | [], b => some (.ok (), b)
  | f :: fs, b =>
    if (b.frames f).latch = .write then none
    else match b.flushFrame D P f with
      | (.error e, b) => some (.error e, b)
      | (.ok (), b) => flushFrames fs b

/-- `BufferPoolManager::flush_all`. -/
def flushAll (b : Pool n σ δ) : Option (Except (Fail BpmError) Unit × Pool n σ δ) :=
  (b.flushFrames D P (List.finRange n)).map fun
    | (.error e, b) => (.error e, b)
    | (.ok (), b) => ((D.sync b.disk).1.mapError fun e => .err (.io e), { b with disk := (D.sync b.disk).2 })

/-- The loop of `swap_file`, which asserts that no frame is pinned. -/
def clearFrames : List (Fin n) → Pool n σ δ → Except (Fail BpmError) Unit × Pool n σ δ
  | [], b => (.ok (), b)
  | f :: fs, b =>
    if (b.frames f).pinCount ≠ 0 then (.error .panic, b)
    else clearFrames fs
      { b.setFrame f { b.frames f with page := none, dirty := false } with
        referenced := Function.update b.referenced f false }

/-- `BufferPoolManager::swap_file`. -/
def swapFile (pages : List Page) (b : Pool n σ δ) : Option (Except (Fail BpmError) Unit × Pool n σ δ) :=
  (b.flushAll D P).map fun
    | (.error e, b) => (.error e, b)
    | (.ok (), b) =>
      match D.swapFile pages b.disk with
      | (.error e, disk) => (.error (e.map .io), { b with disk := disk })
      | (.ok (), disk) =>
        match clearFrames (List.finRange n) { b with disk := disk } with
        | (.error e, b) => (.error e, b)
        | (.ok (), b) => (.ok (), { b with pageTable := fun _ => none, freeFrames := List.finRange n })

/-! ## What claiming a frame does -/

/-- A dirty page is written out, a clean one is not. -/
inductive Flushed (page : Page) : Bool → δ → δ → Prop where
  | clean (d : δ) : Flushed page false d d
  | dirty {raw : List UInt8} {d d' : δ} (encoded : page.asRawPage P = .ok raw)
      (written : D.writePage page.pageId raw d = (.ok (), d')) : Flushed page true d d'

/-- The disk after a call that failed: no write, or a failed one, of a page that stays to be
    written. -/
inductive FailedWrite (b : Pool n σ δ) : δ → Prop where
  | unwritten : FailedWrite b b.disk
  | write {f : Fin n} {page : Page} {raw : List UInt8} {e : IoError} {disk : δ} (dirty : (b.frames f).dirty = true)
      (holds : (b.frames f).page = some page) (encoded : page.asRawPage P = .ok raw)
      (failed : D.writePage page.pageId raw b.disk = (.error e, disk)) : FailedWrite b disk

/-- A free frame is taken, or an unpinned one with its page written out and unmapped, or
    nothing of the frames and tables changes. -/
inductive ClaimSpec (b : Pool n σ δ) : Except (Fail BpmError) (Fin n) → Pool n σ δ → Prop where
  | free {f : Fin n} {rest : List (Fin n)} (split : b.freeFrames = rest ++ [f]) :
      ClaimSpec b (.ok f) { b with freeFrames := rest }
  | victim {f : Fin n} {page : Page} {policy : σ} {referenced : Fin n → Bool} {disk : δ} (none_free : b.freeFrames = [])
      (unpinned : (b.frames f).pinCount = 0) (unlatched : (b.frames f).latch = .readers 0)
      (holds : (b.frames f).page = some page) (flushed : Flushed D P page (b.frames f).dirty b.disk disk) :
      ClaimSpec b (.ok f) { b with policy := policy, referenced := referenced, disk := disk,
                                   pageTable := Function.update b.pageTable page.pageId none }
  | failed {e : Fail BpmError} {policy : σ} {referenced : Fin n → Bool} {disk : δ} (none_free : b.freeFrames = [])
      (disk_kept : FailedWrite D P b disk) :
      ClaimSpec b (.error e) { b with policy := policy, referenced := referenced, disk := disk }

variable {D E P} {b b' : Pool n σ δ} {r : Except (Fail BpmError) (Fin n)}

theorem claimFrame_spec (h : b.claimFrame D E P = (r, b')) : ClaimSpec D P b r b' := by
  unfold claimFrame at h
  cases hlast : b.freeFrames.getLast? with
  | some f =>
    rw [hlast] at h
    cases h
    obtain ⟨rest, hrest⟩ := List.getLast?_eq_some_iff.mp hlast
    rw [hrest, List.dropLast_concat]
    exact .free hrest
  | none =>
    have hfree : b.freeFrames = [] := List.getLast?_eq_none_iff.mp hlast
    rw [hlast] at h
    generalize E.findVictim b.policy b.frames b.referenced = found at h
    rcases found with ⟨_ | victim, policy, referenced⟩
    · cases h
      exact .failed hfree .unwritten
    by_cases hpin : (b.frames victim).pinCount = 0
    · by_cases hlatch : (b.frames victim).latch = .readers 0
      · simp only [hpin, hlatch, ne_eq, not_true, if_false] at h
        cases hpage : (b.frames victim).page with
        | none =>
          simp only [hpage] at h
          cases h
          exact .failed hfree .unwritten
        | some page =>
          simp only [hpage] at h
          by_cases hdirty : (b.frames victim).dirty = true
          · rw [if_pos hdirty] at h
            cases hraw : page.asRawPage P with
            | error e =>
              simp only [hraw] at h
              cases h
              exact .failed hfree .unwritten
            | ok raw =>
              simp only [hraw] at h
              rcases hwrite : D.writePage page.pageId raw b.disk with ⟨_ | _, disk⟩
              · simp only [hwrite] at h
                cases h
                exact .failed hfree (.write hdirty hpage hraw hwrite)
              · simp only [hwrite] at h
                cases h
                exact .victim hfree hpin hlatch hpage (hdirty ▸ .dirty hraw hwrite)
          · rw [if_neg hdirty] at h
            cases h
            exact .victim hfree hpin hlatch hpage ((Bool.not_eq_true _ ▸ hdirty : (b.frames victim).dirty = false) ▸
              .clean _)
      · simp only [hpin, hlatch, ne_eq, not_true, not_false_iff, if_false, if_true] at h
        cases h
        exact .failed hfree .unwritten
    · simp only [hpin, ne_eq, not_false_iff, if_true] at h
      cases h
      exact .failed hfree .unwritten

/-- The frame that `claim_frame` goes for: the last free one, or the policy's victim. -/
def candidate (E : EvictionPolicy n σ) (b : Pool n σ δ) : Option (Fin n) :=
  b.freeFrames.getLast?.or (E.findVictim b.policy b.frames b.referenced).frame

theorem claimFrame_free {f : Fin n} (h : b.freeFrames.getLast? = some f) :
    b.claimFrame D E P = (.ok f, { b with freeFrames := b.freeFrames.dropLast }) := by
  simp only [claimFrame, h]

theorem claimFrame_victim (h : b.freeFrames.getLast? = none) {f : Fin n}
    (hfound : (E.findVictim b.policy b.frames b.referenced).frame = some f)
    (hbusy : (b.frames f).pinCount ≠ 0 ∨ (b.frames f).latch ≠ .readers 0) :
    (b.claimFrame D E P).1 = .error (.err .noFreeFrames) := by
  simp only [claimFrame, h, hfound]
  by_cases hpin : (b.frames f).pinCount ≠ 0
  · rw [if_pos hpin]
  · rw [if_neg hpin, if_pos (hbusy.resolve_left hpin)]

/-- A victim that is neither pinned nor latched is claimed once its page is written out. -/
theorem claimFrame_take (h : b.freeFrames = []) {f : Fin n}
    (hfound : (E.findVictim b.policy b.frames b.referenced).frame = some f) (hpin : (b.frames f).pinCount = 0)
    (hlatch : (b.frames f).latch = .readers 0) {page : Page} (hpage : (b.frames f).page = some page) {disk : δ}
    (hflushed : Flushed D P page (b.frames f).dirty b.disk disk) :
    b.claimFrame D E P = (.ok f, { b with
      policy := (E.findVictim b.policy b.frames b.referenced).policy
      referenced := (E.findVictim b.policy b.frames b.referenced).referenced
      pageTable := Function.update b.pageTable page.pageId none
      disk := disk }) := by
  simp only [claimFrame, h, List.getLast?_nil, hfound, hpin, hlatch, hpage, ne_eq, not_true, if_false]
  generalize (b.frames f).dirty = dirty at hflushed
  cases hflushed with
  | clean => rfl
  | dirty encoded written => simp only [if_true, encoded, written]

/-- No error of a page or of the disk is `NoFreeFrames`. -/
theorem claimFrame_noFreeFrames (h : (b.claimFrame D E P).1 = .error (.err .noFreeFrames)) :
    b.freeFrames.getLast? = none ∧ ∀ f, (E.findVictim b.policy b.frames b.referenced).frame = some f →
      (b.frames f).pinCount ≠ 0 ∨ (b.frames f).latch ≠ .readers 0 := by
  unfold claimFrame at h
  cases hlast : b.freeFrames.getLast? with
  | some f =>
    simp only [hlast] at h
    cases h
  | none =>
    refine ⟨rfl, fun f hfound => ?_⟩
    by_contra hfree
    have hpin : (b.frames f).pinCount = 0 := by
      by_contra hne
      exact hfree (Or.inl hne)
    have hlatch : (b.frames f).latch = .readers 0 := by
      by_contra hne
      exact hfree (Or.inr hne)
    simp only [hlast, hfound, hpin, hlatch, ne_eq, not_true, if_false] at h
    cases hpage : (b.frames f).page with
    | none =>
      simp only [hpage] at h
      cases h
    | some page =>
      simp only [hpage] at h
      by_cases hdirty : (b.frames f).dirty = true
      · rw [if_pos hdirty] at h
        cases hraw : page.asRawPage P with
        | error e =>
          simp only [hraw] at h
          cases e <;> cases h
        | ok raw =>
          simp only [hraw] at h
          rcases hwrite : D.writePage page.pageId raw b.disk with ⟨_ | _, disk⟩ <;> simp only [hwrite] at h <;> cases h
      · rw [if_neg hdirty] at h
        cases h

theorem candidate_of_claim {f : Fin n} (h : (b.claimFrame D E P).1 = .ok f) : b.candidate E = some f := by
  unfold claimFrame at h
  unfold candidate
  cases hlast : b.freeFrames.getLast? with
  | some g =>
    simp only [hlast] at h
    cases h
    rfl
  | none =>
    rw [Option.none_or]
    simp only [hlast] at h
    cases hfound : (E.findVictim b.policy b.frames b.referenced).frame with
    | none =>
      simp only [hfound] at h
      cases h
    | some victim =>
      simp only [hfound] at h
      split at h
      · cases h
      split at h
      · cases h
      split at h
      · cases h
      split at h
      · split at h
        · cases h
        · split at h
          · cases h
          · cases h
            rfl
      · cases h
        rfl

/-! ## What a fetch and a creation do under the lock -/

variable {id : PageId}

/-- A cached page is pinned. Another one is read, decoded and stored in a claimed frame, then
    pinned; what fails before that changes no frame and no table. -/
inductive CheckoutSpec (D : DiskManager δ) (P : Platform) (id : PageId) (b : Pool n σ δ) :
    Except (Fail BpmError) (Fin n) → Pool n σ δ → Prop where
  | cached {f : Fin n} (mapped : b.pageTable id = some f) : CheckoutSpec D P id b (.ok f) (b.pinFrame f)
  | unread {r : Except IoError (List UInt8)} {e : Fail BpmError} {disk : δ} (absent : b.pageTable id = none)
      (read : D.readPage id b.disk = (r, disk)) : CheckoutSpec D P id b (.error e) { b with disk := disk }
  | unclaimed {raw : List UInt8} {e : Fail BpmError} {disk : δ} {b₁ : Pool n σ δ} (absent : b.pageTable id = none)
      (read : D.readPage id b.disk = (.ok raw, disk)) (claimed : ClaimSpec D P { b with disk := disk } (.error e) b₁) :
      CheckoutSpec D P id b (.error e) b₁
  | latched {raw : List UInt8} {disk : δ} {f : Fin n} {b₁ : Pool n σ δ} (absent : b.pageTable id = none)
      (read : D.readPage id b.disk = (.ok raw, disk)) (claimed : ClaimSpec D P { b with disk := disk } (.ok f) b₁)
      (latched : (b₁.frames f).latch ≠ .readers 0) : CheckoutSpec D P id b (.error .panic) b₁
  | loaded {raw : List UInt8} {page : Page} {disk : δ} {f : Fin n} {b₁ : Pool n σ δ} (absent : b.pageTable id = none)
      (read : D.readPage id b.disk = (.ok raw, disk)) (decoded : Page.deserialize P raw = .ok page)
      (claimed : ClaimSpec D P { b with disk := disk } (.ok f) b₁) (unlatched : (b₁.frames f).latch = .readers 0) :
      CheckoutSpec D P id b (.ok f) ((b₁.store f id page false).pinFrame f)

theorem checkoutPage_spec (h : b.checkoutPage D E P id = (r, b')) : CheckoutSpec D P id b r b' := by
  unfold checkoutPage at h
  cases hmap : b.pageTable id with
  | some f =>
    rw [hmap] at h
    cases h
    exact .cached hmap
  | none =>
    simp only [hmap, loadPage] at h
    rcases hread : D.readPage id b.disk with ⟨_ | raw, disk⟩
    · simp only [hread] at h
      cases h
      exact .unread hmap hread
    · simp only [hread] at h
      cases hpage : Page.deserialize P raw with
      | error e =>
        simp only [hpage] at h
        cases h
        exact .unread hmap hread
      | ok page =>
        simp only [hpage] at h
        rcases hclaim : claimFrame D E P { b with disk := disk } with ⟨_ | f, b₁⟩
        · simp only [hclaim] at h
          cases h
          exact .unclaimed hmap hread (claimFrame_spec hclaim)
        · simp only [hclaim] at h
          by_cases hlatch : (b₁.frames f).latch = .readers 0
          · simp only [storePage, hlatch, ne_eq, not_true, if_false] at h
            cases h
            exact .loaded hmap hread hpage (claimFrame_spec hclaim) hlatch
          · simp only [storePage, hlatch, ne_eq, not_false_iff, if_true] at h
            cases h
            exact .latched hmap hread (claimFrame_spec hclaim) hlatch

/-- A new page is stored in a claimed frame, dirty, write-latched and pinned. -/
inductive InstallSpec (D : DiskManager δ) (P : Platform) (page : Page) (b : Pool n σ δ) :
    Except (Fail BpmError) (Fin n) → Pool n σ δ → Prop where
  | present {f : Fin n} (mapped : b.pageTable page.pageId = some f) :
      InstallSpec D P page b (.error (.err (.alreadyExists page.pageId))) b
  | unclaimed {e : Fail BpmError} {b₁ : Pool n σ δ} (absent : b.pageTable page.pageId = none)
      (claimed : ClaimSpec D P b (.error e) b₁) : InstallSpec D P page b (.error e) b₁
  | latched {f : Fin n} {b₁ : Pool n σ δ} (absent : b.pageTable page.pageId = none) (claimed : ClaimSpec D P b (.ok f) b₁)
      (latched : (b₁.frames f).latch ≠ .readers 0) : InstallSpec D P page b (.error .panic) b₁
  | installed {f : Fin n} {b₁ : Pool n σ δ} (absent : b.pageTable page.pageId = none)
      (claimed : ClaimSpec D P b (.ok f) b₁) (unlatched : (b₁.frames f).latch = .readers 0) :
      InstallSpec D P page b (.ok f) (((b₁.store f page.pageId page true).setLatch f .write).pinFrame f)

theorem installPage_spec {page : Page} (h : b.installPage D E P page = (r, b')) : InstallSpec D P page b r b' := by
  unfold installPage at h
  cases hmap : b.pageTable page.pageId with
  | some f =>
    simp only [hmap, Option.isSome_some, if_true] at h
    cases h
    exact .present hmap
  | none =>
    simp only [hmap, Option.isSome_none, Bool.false_eq_true, if_false] at h
    rcases hclaim : b.claimFrame D E P with ⟨_ | f, b₁⟩
    · simp only [hclaim] at h
      cases h
      exact .unclaimed hmap (claimFrame_spec hclaim)
    · simp only [hclaim] at h
      by_cases hlatch : (b₁.frames f).latch = .readers 0
      · simp only [storePage, hlatch, ne_eq, not_true, if_false] at h
        cases h
        exact .installed hmap (claimFrame_spec hclaim) hlatch
      · simp only [storePage, hlatch, ne_eq, not_false_iff, if_true] at h
        cases h
        exact .latched hmap (claimFrame_spec hclaim) hlatch

/-! ## What a flush does -/

/-- One step of a flush: a frame's page is written out and its flag cleared, or a call to the
    disk that writes nothing. -/
inductive FlushStep (D : DiskManager δ) (P : Platform) : Pool n σ δ → Pool n σ δ → Prop where
  | emptied {b : Pool n σ δ} {f : Fin n} (empty : (b.frames f).page = none) :
      FlushStep D P b (b.markClean f)
  | written {b : Pool n σ δ} {f : Fin n} {page : Page} {raw : List UInt8} {disk : δ} (dirty : (b.frames f).dirty = true)
      (holds : (b.frames f).page = some page) (encoded : page.asRawPage P = .ok raw)
      (wrote : D.writePage page.pageId raw b.disk = (.ok (), disk)) :
      FlushStep D P b { b.markClean f with disk := disk }
  | failed {b : Pool n σ δ} {disk : δ} (disk_kept : FailedWrite D P b disk) : FlushStep D P b { b with disk := disk }
  | synced (b : Pool n σ δ) : FlushStep D P b { b with disk := (D.sync b.disk).2 }

abbrev FlushSteps (D : DiskManager δ) (P : Platform) : Pool n σ δ → Pool n σ δ → Prop :=
  Relation.ReflTransGen (FlushStep D P)

variable {f : Fin n} {r : Except (Fail BpmError) Unit}

theorem FlushStep.dirty (h : FlushStep D P b b') (g : Fin n) (hg : (b.frames g).dirty = false) :
    (b'.frames g).dirty = false := by
  have clear (b : Pool n σ δ) (f : Fin n) (hg : (b.frames g).dirty = false) :
      ((b.markClean f).frames g).dirty = false := by
    by_cases hgf : g = f
    · subst hgf; simp only [markClean, setFrame, Function.update_self]
    · simpa only [markClean, setFrame, Function.update_of_ne hgf] using hg
  cases h with
  | emptied empty => exact clear b _ hg
  | written dirty holds encoded wrote => exact clear b _ hg
  | failed disk_kept => exact hg
  | synced => exact hg

theorem FlushSteps.dirty (h : FlushSteps D P b b') (g : Fin n) (hg : (b.frames g).dirty = false) :
    (b'.frames g).dirty = false := by
  induction h with
  | refl => exact hg
  | tail _ hstep ih => exact hstep.dirty g ih

theorem flushFrame_spec (h : b.flushFrame D P f = (r, b')) :
    FlushSteps D P b b' ∧ (r = .ok () → (b'.frames f).dirty = false) := by
  unfold flushFrame at h
  by_cases hdirty : (b.frames f).dirty = true
  · rw [if_pos hdirty] at h
    cases hpage : (b.frames f).page with
    | none =>
      simp only [hpage] at h
      cases h
      exact ⟨.single (.emptied hpage), fun _ => by simp only [markClean, setFrame, Function.update_self]⟩
    | some page =>
      simp only [hpage] at h
      cases hraw : page.asRawPage P with
      | error e =>
        simp only [hraw] at h
        cases h
        exact ⟨.refl, fun he => by cases he⟩
      | ok raw =>
        simp only [hraw] at h
        rcases hwrite : D.writePage page.pageId raw b.disk with ⟨_ | _, disk⟩
        · simp only [hwrite] at h
          cases h
          exact ⟨.single (.failed (.write hdirty hpage hraw hwrite)), fun he => by cases he⟩
        · simp only [hwrite] at h
          cases h
          exact ⟨.single (.written hdirty hpage hraw hwrite),
            fun _ => by simp only [markClean, setFrame, Function.update_self]⟩
  · rw [if_neg hdirty] at h
    cases h
    exact ⟨.refl, fun _ => by simpa using hdirty⟩

theorem flushFrames_spec {fs : List (Fin n)} (h : b.flushFrames D P fs = some (r, b')) :
    FlushSteps D P b b' ∧ (r = .ok () → ∀ g ∈ fs, (b'.frames g).dirty = false) := by
  induction fs generalizing b with
  | nil =>
    cases h
    exact ⟨.refl, fun _ g hg => by cases hg⟩
  | cons f fs ih =>
    unfold flushFrames at h
    by_cases hlatch : (b.frames f).latch = .write
    · rw [if_pos hlatch] at h
      cases h
    · rw [if_neg hlatch] at h
      rcases hf : b.flushFrame D P f with ⟨_ | _, b₁⟩
      · simp only [hf] at h
        cases h
        exact ⟨(flushFrame_spec hf).1, fun he => by cases he⟩
      · simp only [hf] at h
        obtain ⟨hsteps, hclean⟩ := flushFrame_spec hf
        obtain ⟨hsteps', hclean'⟩ := ih h
        refine ⟨hsteps.trans hsteps', fun hr g hg => ?_⟩
        rcases List.mem_cons.mp hg with rfl | hg
        · exact FlushSteps.dirty hsteps' g (hclean rfl)
        · exact hclean' hr g hg

/-- A flush that succeeds leaves every frame clean. -/
theorem flushAll_spec (h : b.flushAll D P = some (r, b')) :
    FlushSteps D P b b' ∧ (r = .ok () → ∀ g, (b'.frames g).dirty = false) := by
  unfold flushAll at h
  obtain ⟨⟨r₁, b₁⟩, hfs, heq⟩ := Option.map_eq_some_iff.mp h
  obtain ⟨hsteps, hclean⟩ := flushFrames_spec hfs
  cases r₁ with
  | error e =>
    cases heq
    exact ⟨hsteps, fun he => by cases he⟩
  | ok _ =>
    cases heq
    exact ⟨hsteps.tail (.synced b₁), fun _ g => hclean rfl g (List.mem_finRange g)⟩

end Pool

end Bpm

end RustDb
