/-
  RustDb.Bpm.Ops — the buffer pool as its callers see it: page latches over a store of pages.

  A page guard is the page's content under the page's own id: `fetchRead`, `fetchWrite` and
  `newPage` take the latch, `put` writes a changed page back through its write guard, `drop`
  releases a guard. `unwind` drops every guard the caller still holds, which is what leaving
  a call by `?` or by a panic does to its locals.

  `World.step` serves one thread over a pool that does not fail: a fetch of a stored page
  succeeds, and blocks only on a guard the caller holds itself.
-/

import RustDb.Lib.Prog
import RustDb.Page.Basic

namespace RustDb

open Lib

inductive BpmError where
  | unexpected
  | io (e : IoError)
  | page (e : PageError)
  | noFreeFrames
  | wrongPage (expected got : PageId)
  | alreadyExists (id : PageId)
  deriving DecidableEq, Repr

/-! ## Requests -/

inductive PoolOp where
  | fetchRead (id : PageId)
  | fetchWrite (id : PageId)
  | newPage (page : Page)
  | put (page : Page)
  | drop (id : PageId)
  | unwind
  | flushAll
  | swapFile (pages : List Page)

def PoolOp.Res : PoolOp → Type
  | .fetchRead _ | .fetchWrite _ | .newPage _ => Except (Fail BpmError) Page
  | .put _ | .drop _ | .unwind => Unit
  | .flushAll | .swapFile _ => Except (Fail BpmError) Unit

/-- A call into the code above the pool. -/
abbrev Call (ε : Type) := ExceptT (Fail ε) (Prog PoolOp PoolOp.Res)

namespace Call

variable {ε ε' α : Type}

def fetchRead (id : PageId) : Call BpmError Page := @Prog.request PoolOp PoolOp.Res (.fetchRead id)
def fetchWrite (id : PageId) : Call BpmError Page := @Prog.request PoolOp PoolOp.Res (.fetchWrite id)
def newPage (page : Page) : Call BpmError Page := @Prog.request PoolOp PoolOp.Res (.newPage page)
def flushAll : Call BpmError Unit := @Prog.request PoolOp PoolOp.Res .flushAll
def swapFile (pages : List Page) : Call BpmError Unit := @Prog.request PoolOp PoolOp.Res (.swapFile pages)
def put (page : Page) : Call ε Unit := ExceptT.lift (@Prog.request PoolOp PoolOp.Res (.put page))
def drop (id : PageId) : Call ε Unit := ExceptT.lift (@Prog.request PoolOp PoolOp.Res (.drop id))
def unwind : Call ε Unit := ExceptT.lift (@Prog.request PoolOp PoolOp.Res .unwind)

/-- `?` into another error type. -/
def mapErr (f : ε → ε') (p : Call ε α) : Call ε' α := ExceptT.adapt (Fail.map f) p

/-- `.expect(..)`. -/
def expect (p : Call ε α) : Call ε' α := ExceptT.adapt (fun | .outOfFuel => .outOfFuel | _ => .panic) p

/-- Leaving a call: a failure drops its locals. -/
def leave : Except (Fail ε) α → Prog PoolOp PoolOp.Res (Except (Fail ε) α)
  | .ok a => pure (.ok a)
  | .error e => (unwind >>= fun _ => throw e : Call ε α).run

/-- A call whose locals are dropped when it fails. -/
def unwinding (p : Call ε α) : Call ε α := ExceptT.mk (p.run >>= leave)

/-- The result of a page operation, `?`. -/
def page (wrap : PageError → ε) : PageResult α → Call ε α
  | .ok a => pure a
  | .error e => throw (e.map wrap)

/-- A page operation through a write guard. -/
def change (wrap : PageError → ε) (r : PageResult α × Page) : Call ε (α × Page) := do
  put r.2
  let a ← page wrap r.1
  return (a, r.2)

/-- A page operation through two write guards. -/
def change₂ (wrap : PageError → ε) (r : PageResult α × Page × Page) : Call ε (α × Page × Page) := do
  put r.2.1
  put r.2.2
  let a ← page wrap r.1
  return (a, r.2)

/-- Guards dropped one after the other. -/
def dropAll : List PageId → Call ε Unit
  | [] => pure ()
  | id :: ids => do drop id; dropAll ids

end Call

/-! ## A store of pages -/

/-- Pages by id, each under its own. -/
structure Store where
  page : PageId → Option Page
  named : ∀ {id : PageId} {p : Page}, page id = some p → p.pageId = id

def Store.put (σ : Store) (p : Page) : Store where
  page id := if id = p.pageId then some p else σ.page id
  named {id q} h := by
    split at h
    · cases h; exact Eq.symm ‹_›
    · exact σ.named h

/-- The pages of a freshly written file; a page written later overwrites one before it. -/
def Store.ofPages (pages : List Page) : Store where
  page id := pages.reverse.find? (·.pageId = id)
  named h := by simpa using List.find?_some h

@[simp] theorem Store.put_self (σ : Store) (p : Page) : (σ.put p).page p.pageId = some p := by simp [put]
theorem Store.put_same (σ : Store) {p : Page} {id : PageId} (h : p.pageId = id) : (σ.put p).page id = some p := by
  simp [put, h]
theorem Store.put_ne (σ : Store) {p : Page} {id : PageId} (h : id ≠ p.pageId) : (σ.put p).page id = σ.page id := by
  simp [put, h]

theorem Store.mem_of_page {pages : List Page} {id : PageId} {p : Page} (h : (ofPages pages).page id = some p) : p ∈ pages :=
  List.mem_reverse.mp (List.mem_of_find?_eq_some h)

/-- Of two pages with one id the later one is stored. -/
theorem Store.ofPages_cons (page : Page) (pages : List Page) (id : PageId) : (ofPages (page :: pages)).page id =
    ((ofPages pages).page id).or (if page.pageId = id then some page else none) := by
  show (page :: pages).reverse.find? _ = _
  rw [List.reverse_cons, List.find?_append]
  congr 1
  by_cases he : page.pageId = id
  · rw [if_pos he]
    simp [he]
  · rw [if_neg he]
    simp [he]

/-- Writing back what is there changes nothing. -/
theorem Store.put_stored (σ : Store) {p : Page} (h : σ.page p.pageId = some p) : σ.put p = σ := by
  have hpage : (σ.put p).page = σ.page := by
    funext id
    by_cases hid : id = p.pageId
    · rw [hid, put_self, h]
    · exact put_ne σ hid
  rcases σ with ⟨page, named⟩
  simp only [put, Store.mk.injEq] at hpage ⊢
  exact hpage

/-! ## One thread over a pool that does not fail -/

/-- A page latch: some readers, or a writer. -/
inductive Latch where
  | readers (n : Nat)
  | write
  deriving DecidableEq, Repr

structure World where
  store : Store
  latch : PageId → Latch

def World.setLatch (w : World) (id : PageId) (l : Latch) : World :=
  { w with latch := fun x => if x = id then l else w.latch x }

/-- One request. A blocked request has no answer, and neither have the two that the
    borrow checker rules out: writing without a write guard and dropping no guard. -/
def World.step : (o : PoolOp) → World → Option (o.Res × World)
  | .fetchRead id, w =>
    match w.store.page id, w.latch id with
    | none, _ => some (.error (.err (.io .notFound)), w)
    | some _, .write => none
    | some p, .readers n => some (.ok p, w.setLatch id (.readers (n + 1)))
  | .fetchWrite id, w =>
    match w.store.page id, w.latch id with
    | none, _ => some (.error (.err (.io .notFound)), w)
    | some p, .readers 0 => some (.ok p, w.setLatch id .write)
    | some _, _ => none
  | .newPage p, w =>
    -- a page with a guard is in the pool; that another one is, is a failure of the pool
    if w.latch p.pageId ≠ .readers 0 then some (.error (.err (.alreadyExists p.pageId)), w)
    else some (.ok p, { store := w.store.put p, latch := (w.setLatch p.pageId .write).latch })
  | .put p, w => if w.latch p.pageId = .write then some ((), { w with store := w.store.put p }) else none
  | .drop id, w =>
    match w.latch id with
    | .write => some ((), w.setLatch id (.readers 0))
    | .readers (n + 1) => some ((), w.setLatch id (.readers n))
    | .readers 0 => none
  | .unwind, w => some ((), { w with latch := fun _ => .readers 0 })
  | .flushAll, w => some (.ok (), w)
  | .swapFile pages, w => some (.ok (), { w with store := Store.ofPages pages })

/-- The world in which the caller holds exactly the write guards on `held`. -/
def World.writing (σ : Store) (held : List PageId) : World :=
  ⟨σ, fun id => if id ∈ held then .write else .readers 0⟩

/-- No guard is held. -/
abbrev World.idle (σ : Store) : World := World.writing σ []

/-! ## Executions -/

section
variable {ε ε' α β : Type}

/-- A complete execution of a call, with the worlds after each of its requests. -/
abbrev Exec (p : Call ε α) (w : World) (tr : List World) (r : Except (Fail ε) α) (w' : World) : Prop :=
  Prog.Exec World.step p.run w tr r w'

/-- What a call returns and the world it leaves; `none` when it blocks. -/
def Call.eval (p : Call ε α) (w : World) : Option (Except (Fail ε) α × World) := Prog.run World.step p.run w

/-- The worlds a call goes through. -/
def Call.worlds (p : Call ε α) (w : World) : List World := w :: Prog.trace World.step p.run w

variable {p : Call ε α} {w w' w₁ : World} {tr tr' : List World} {r : Except (Fail ε) α}

theorem Exec.eval (h : Exec p w tr r w') : p.eval w = some (r, w') := h.run

theorem Exec.worlds (h : Exec p w tr r w') : p.worlds w = w :: tr := by rw [Call.worlds, h.trace]

theorem exec_pure (a : α) (w : World) : Exec (pure a : Call ε α) w [] (.ok a) w := Prog.Exec.pure _

theorem exec_throw (e : Fail ε) (w : World) : Exec (throw e : Call ε α) w [] (.error e) w := Prog.Exec.pure _

theorem Exec.bind {f : α → Call ε β} {a : α} {b : Except (Fail ε) β} (h : Exec p w tr (.ok a) w₁)
    (hf : Exec (f a) w₁ tr' b w') : Exec (p >>= f) w (tr ++ tr') b w' := Prog.Exec.bind_ok h hf

theorem Exec.bind_error {f : α → Call ε β} {e : Fail ε} (h : Exec p w tr (.error e) w') :
    Exec (p >>= f) w tr (.error e) w' := Prog.Exec.bind_error h

theorem Exec.ite_pos {c : Prop} [Decidable c] {q : Call ε α} (hc : c) (h : Exec p w tr r w') :
    Exec (if c then p else q) w tr r w' := by rwa [if_pos hc]

theorem Exec.ite_neg {c : Prop} [Decidable c] {q : Call ε α} (hc : ¬ c) (h : Exec q w tr r w') :
    Exec (if c then p else q) w tr r w' := by rwa [if_neg hc]

theorem Exec.mapErr_ok (f : ε → ε') {a : α} (h : Exec p w tr (.ok a) w') : Exec (p.mapErr f) w tr (.ok a) w' := by
  have := Prog.Exec.bind (f := fun x => pure (Except.mapError (Fail.map f) x)) h (Prog.Exec.pure _)
  rwa [List.append_nil] at this

theorem Exec.expect_ok {a : α} (h : Exec p w tr (.ok a) w') : Exec (p.expect : Call ε' α) w tr (.ok a) w' := by
  have := Prog.Exec.bind (f := fun x => pure (Except.mapError
    (fun | Fail.outOfFuel => Fail.outOfFuel (ε := ε') | _ => Fail.panic) x)) h (Prog.Exec.pure _)
  rwa [List.append_nil] at this

theorem Exec.unwinding_ok {a : α} (h : Exec p w tr (.ok a) w') : Exec p.unwinding w tr (.ok a) w' := by
  have := Prog.Exec.bind (f := Call.leave) h (Prog.Exec.pure _)
  rwa [List.append_nil] at this

theorem exec_lift {o : PoolOp} {a : o.Res} (h : World.step o w = some (a, w')) :
    Exec (ExceptT.lift (Prog.request o) : Call ε o.Res) w [w'] (.ok a) w' := by
  have := Prog.Exec.bind (f := fun x => pure (Except.ok (ε := Fail ε) x)) (Prog.Exec.request h) (Prog.Exec.pure _)
  rwa [List.append_nil] at this

theorem Exec.unwinding_error {e : Fail ε} (h : Exec p w tr (.error e) w') :
    Exec p.unwinding w (tr ++ [World.idle w'.store]) (.error e) (World.idle w'.store) := by
  have hstep : World.step .unwind w' = some ((), World.idle w'.store) := by
    simp [World.step, World.writing]; rfl
  have hthrow := Exec.bind (f := fun _ => (throw e : Call ε α)) (exec_lift (ε := ε) hstep) (exec_throw e _)
  rw [List.append_nil] at hthrow
  exact Prog.Exec.bind (f := Call.leave) h hthrow

@[simp] theorem Call.page_ok (wrap : PageError → ε) (a : α) : Call.page wrap (.ok a) = pure a := rfl

@[simp] theorem Call.page_err (wrap : PageError → ε) (e : PageError) :
    Call.page wrap (PageResult.err e : PageResult α) = throw (.err (wrap e)) := rfl

/-! ## Rules -/

/-- Two worlds that may differ on the pages of `ex` only. -/
def World.AgreesOff (w w₀ : World) (ex : List PageId) : Prop :=
  ∀ x, x ∉ ex → w.store.page x = w₀.store.page x ∧ w.latch x = w₀.latch x

theorem World.AgreesOff.trans {w₁ w₂ w₃ : World} {ex : List PageId} (h : w₁.AgreesOff w₂ ex) (h' : w₂.AgreesOff w₃ ex) :
    w₁.AgreesOff w₃ ex :=
  fun x hx => ⟨(h x hx).1.trans (h' x hx).1, (h x hx).2.trans (h' x hx).2⟩

theorem World.AgreesOff.mono {w₁ w₂ : World} {ex ex' : List PageId} (h : w₁.AgreesOff w₂ ex) (hs : ex ⊆ ex') :
    w₁.AgreesOff w₂ ex' := fun x hx => h x fun hmem => hx (hs hmem)

@[simp] theorem World.writing_store (σ : Store) (L : List PageId) : (World.writing σ L).store = σ := rfl

theorem World.writing_latch (σ : Store) (L : List PageId) (x : PageId) :
    (World.writing σ L).latch x = if x ∈ L then .write else .readers 0 := rfl

theorem World.latch_of_mem {σ : Store} {L : List PageId} {x : PageId} (h : x ∈ L) :
    (World.writing σ L).latch x = .write := by
  simp [World.writing_latch, h]

theorem World.latch_of_not_mem {σ : Store} {L : List PageId} {x : PageId} (h : x ∉ L) :
    (World.writing σ L).latch x = .readers 0 := by simp [World.writing_latch, h]

theorem World.writing_congr {σ : Store} {L L' : List PageId} (h : ∀ x, x ∈ L ↔ x ∈ L') :
    World.writing σ L = World.writing σ L' := by
  simp only [World.writing, h]

theorem World.agreesOff_writing {σ σ' : Store} {L L' ex : List PageId} (hσ : ∀ x, x ∉ ex → σ'.page x = σ.page x)
    (hL : ∀ x, x ∉ ex → (x ∈ L' ↔ x ∈ L)) : (World.writing σ' L').AgreesOff (World.writing σ L) ex :=
  fun x hx => ⟨hσ x hx, by simp only [World.writing_latch, hL x hx]⟩

variable {σ : Store} {L L' : List PageId} {id : PageId} {q : Page}

theorem exec_fetchRead {w : World} {n : Nat} (hp : w.store.page id = some q) (hl : w.latch id = .readers n) :
    Exec (Call.fetchRead id) w [w.setLatch id (.readers (n + 1))] (.ok q) (w.setLatch id (.readers (n + 1))) :=
  Prog.Exec.request (by simp [World.step, hp, hl])

theorem World.setLatch_write (σ : Store) (L : List PageId) (id : PageId) :
    (World.writing σ L).setLatch id .write = World.writing σ (id :: L) := by
  simp only [World.setLatch, World.writing, List.mem_cons, World.mk.injEq, true_and]
  funext x
  by_cases hx : x = id <;> simp [hx]

theorem World.setLatch_free (hL : ∀ x, x ∈ L' ↔ x ∈ L ∧ x ≠ id) :
    (World.writing σ L).setLatch id (.readers 0) = World.writing σ L' := by
  simp only [World.setLatch, World.writing, hL, World.mk.injEq, true_and]
  funext x
  by_cases hx : x = id <;> simp [hx]

theorem exec_fetchWrite (hp : σ.page id = some q) (hid : id ∉ L) :
    Exec (Call.fetchWrite id) (.writing σ L) [.writing σ (id :: L)] (.ok q) (.writing σ (id :: L)) := by
  refine Prog.Exec.request ?_
  simp only [World.step, World.writing_store, hp, World.latch_of_not_mem hid, World.setLatch_write]

theorem exec_newPage (hid : q.pageId ∉ L) :
    Exec (Call.newPage q) (.writing σ L) [.writing (σ.put q) (q.pageId :: L)] (.ok q)
      (.writing (σ.put q) (q.pageId :: L)) := by
  refine Prog.Exec.request ?_
  simp only [World.step, World.latch_of_not_mem hid, ne_eq, not_true, if_false, World.setLatch_write]
  rfl

theorem exec_put (hid : q.pageId ∈ L) :
    Exec (Call.put q : Call ε Unit) (.writing σ L) [.writing (σ.put q) L] (.ok ()) (.writing (σ.put q) L) :=
  exec_lift (by simp only [World.step, World.latch_of_mem hid, if_true]; rfl)

theorem exec_drop (hid : id ∈ L) (hL : ∀ x, x ∈ L' ↔ x ∈ L ∧ x ≠ id) :
    Exec (Call.drop id : Call ε Unit) (.writing σ L) [.writing σ L'] (.ok ()) (.writing σ L') := by
  refine exec_lift ?_
  simp only [World.step, World.latch_of_mem hid, World.setLatch_free hL]

theorem exec_drop_reader {w : World} {n : Nat} (hl : w.latch id = .readers (n + 1)) :
    Exec (Call.drop id : Call ε Unit) w [w.setLatch id (.readers n)] (.ok ()) (w.setLatch id (.readers n)) :=
  exec_lift (by simp only [World.step, hl])

theorem World.setLatch_setLatch (w : World) (id : PageId) (l l' : Latch) :
    (w.setLatch id l).setLatch id l' = w.setLatch id l' := by
  simp only [World.setLatch, World.mk.injEq, true_and]
  funext x
  by_cases hx : x = id <;> simp [hx]

theorem World.setLatch_self {w : World} {id : PageId} {l : Latch} (h : w.latch id = l) : w.setLatch id l = w := by
  rcases w with ⟨σ, latch⟩
  simp only [World.setLatch, World.mk.injEq, true_and]
  funext x
  by_cases hx : x = id
  · subst hx; simp only [if_true]; exact h.symm
  · simp [hx]

variable (wrap : PageError → ε)

theorem exec_change {a : α} (hid : q.pageId ∈ L) :
    Exec (Call.change wrap (.ok a, q)) (.writing σ L) [.writing (σ.put q) L] (.ok (a, q)) (.writing (σ.put q) L) :=
  (exec_put hid).bind (exec_pure _ _)

theorem exec_change_error {e : Fail PageError} (hid : q.pageId ∈ L) :
    Exec (Call.change (α := α) wrap (.error e, q)) (.writing σ L) [.writing (σ.put q) L] (.error (e.map wrap))
      (.writing (σ.put q) L) :=
  (exec_put hid).bind (exec_throw _ _)

theorem exec_change₂ {a : α} {q' : Page} (hid : q.pageId ∈ L) (hid' : q'.pageId ∈ L) :
    Exec (Call.change₂ wrap (.ok a, q, q')) (.writing σ L)
      [.writing (σ.put q) L, .writing ((σ.put q).put q') L] (.ok (a, q, q')) (.writing ((σ.put q).put q') L) :=
  (exec_put hid).bind ((exec_put hid').bind (exec_pure _ _))

end

end RustDb
