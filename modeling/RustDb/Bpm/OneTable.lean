/-
  RustDb.Bpm.OneTable — a disk that keeps the pages of one table.

  `FileDisk` finds a page by its number alone, so it is a map from ids to pages only while all
  of them are of one table. `DiskManager.ofTable` is the disk that refuses the others: the laws
  of a disk are stated of it. Over a pool that holds pages of the table only, a request about
  such pages is answered the same over the disk itself (`serve_ofTable`).
-/

import RustDb.Bpm.Stands

namespace RustDb

open Lib Lib.Prog

namespace Bpm

variable {n : Nat} {τ δ : Type} {D : DiskManager δ} {E : EvictionPolicy n τ} {P : Platform} {table : TableId}
  {b b' : Pool n τ δ} {id : PageId}

/-- The disk, for the pages of one table; a call about another page is refused. -/
def DiskManager.ofTable (D : DiskManager δ) (table : TableId) : DiskManager δ where
  readPage id d := if id.tableId = table then D.readPage id d else (.error .other, d)
  writePage id raw d := if id.tableId = table then D.writePage id raw d else (.error .other, d)
  sync := D.sync
  swapFile pages d := if ∀ page ∈ pages, page.pageId.tableId = table then D.swapFile pages d else (.error (.err .other), d)

namespace Pool

/-- Every page in the pool is one of the table. -/
def Holds (table : TableId) (b : Pool n τ δ) : Prop :=
  ∀ f page, (b.frames f).page = some page → page.pageId.tableId = table

theorem claimFrame_ofTable (h : b.Holds table) : b.claimFrame (D.ofTable table) E P = b.claimFrame D E P := by
  unfold claimFrame
  cases b.freeFrames.getLast? with
  | some f => rfl
  | none =>
    generalize E.findVictim b.policy b.frames b.referenced = found
    rcases found with ⟨_ | victim, policy, referenced⟩
    · rfl
    · cases hpage : (b.frames victim).page with
      | none => simp only [hpage]
      | some page => simp only [hpage, DiskManager.ofTable, if_pos (h victim page hpage)]

theorem loadPage_ofTable (h : b.Holds table) (hid : id.tableId = table) :
    b.loadPage (D.ofTable table) E P id = b.loadPage D E P id := by
  have hclaim (disk : δ) : Pool.claimFrame (D.ofTable table) E P { b with disk := disk } =
      Pool.claimFrame D E P { b with disk := disk } := claimFrame_ofTable h
  unfold loadPage
  simp only [show (D.ofTable table).readPage id b.disk = D.readPage id b.disk from if_pos hid, hclaim]

theorem checkoutPage_ofTable (h : b.Holds table) (hid : id.tableId = table) :
    b.checkoutPage (D.ofTable table) E P id = b.checkoutPage D E P id := by
  unfold checkoutPage
  rw [loadPage_ofTable h hid]

theorem installPage_ofTable (h : b.Holds table) (page : Page) :
    b.installPage (D.ofTable table) E P page = b.installPage D E P page := by
  unfold installPage
  rw [claimFrame_ofTable h]

theorem flushFrame_ofTable (h : b.Holds table) (f : Fin n) :
    b.flushFrame (D.ofTable table) P f = b.flushFrame D P f := by
  unfold flushFrame
  cases hpage : (b.frames f).page with
  | none => rfl
  | some page => simp only [DiskManager.ofTable, if_pos (h f page hpage)]

theorem flushFrames_ofTable {fs : List (Fin n)} (h : b.Holds table) :
    b.flushFrames (D.ofTable table) P fs = b.flushFrames D P fs := by
  induction fs generalizing b with
  | nil => rfl
  | cons f fs ih =>
    unfold flushFrames
    rw [flushFrame_ofTable h]
    rcases hf : b.flushFrame D P f with ⟨_ | _, b₁⟩
    · rfl
    · obtain ⟨-, -, hframes⟩ := FlushSteps.same (flushFrame_spec hf).1
      have h₁ : b₁.Holds table := fun g page hp => h g page ((hframes g).1.symm.trans hp)
      simp only [ih h₁]

theorem flushAll_ofTable (h : b.Holds table) : b.flushAll (D.ofTable table) P = b.flushAll D P := by
  unfold flushAll
  rw [flushFrames_ofTable h]
  rfl

theorem swapFile_ofTable (h : b.Holds table) {pages : List Page} (hpages : ∀ page ∈ pages, page.pageId.tableId = table) :
    b.swapFile (D.ofTable table) P pages = b.swapFile D P pages := by
  have hswap (d : δ) : (D.ofTable table).swapFile pages d = D.swapFile pages d := if_pos hpages
  unfold swapFile
  rw [flushAll_ofTable h]
  simp only [hswap]

end Pool

namespace Session

variable {s s' : Session n τ δ}

/-- The request is about pages of the table only. -/
def About (table : TableId) : PoolOp → Prop
  | .fetchRead id | .fetchWrite id => id.tableId = table
  | .newPage page | .put page => page.pageId.tableId = table
  | .swapFile pages => ∀ page ∈ pages, page.pageId.tableId = table
  | .drop _ | .unwind | .flushAll => True

/-- Over a pool of the table's pages, a request about them is answered the same. -/
theorem serve_ofTable {held : Nat} {o : PoolOp} (h : s.pool.Holds table) (ho : About table o) :
    serve (D.ofTable table) E P held o s = serve D E P held o s := by
  have hfetch (write : Bool) {id : PageId} (hid : id.tableId = table) :
      s.fetch (D.ofTable table) E P write id = s.fetch D E P write id := by
    unfold fetch
    rw [Pool.checkoutPage_ofTable h hid]
  cases o with
  | fetchRead id => simp only [serve, fetchRead, hfetch false ho]
  | fetchWrite id => simp only [serve, fetchWrite, hfetch true ho]
  | newPage page =>
    have hnew : s.newPage (D.ofTable table) E P page = s.newPage D E P page := by
      unfold newPage
      rw [Pool.installPage_ofTable h]
    simp only [serve, hnew]
  | put page | drop id | unwind => rfl
  | flushAll => simp only [serve, Pool.flushAll_ofTable h]
  | swapFile pages => simp only [serve, Pool.swapFile_ofTable h ho]

end Session

end Bpm

end RustDb
