/-
  RustDb.Bpm.Threads — many threads over the buffer pool.

  A step is a section under the big lock (the `checkout_page` of a fetch, `new_page`), the
  taking or giving back of a latch, a giving back of a pin, or a change through a write
  guard. A section is one step though it lets go of a latch within: `claim_frame` gives the
  victim's latch back before `new_page` or `load_page` take it again, and what is said of a
  latch is judged during the whole of the section. A token is one pin that a call took: the
  frame, the page it asked for, the latch it wants, and how far it came. `flush_all` takes
  the read latch of one frame after the other, with neither the lock nor a pin. A section
  that panics is no step: it leaves the lock poisoned. Proved, in any interleaving of any
  number of threads:
  - `guards_keep_pages`: a guard's frame keeps its page, writers are alone on a page, and no
    two frames hold one page, over disks whose pages name the ids they are read under.
  - `claims_safe_iff`: claiming a frame fails only for want of one, and never on a latch, just
    where no `flush_all` reads the frame it goes for (`newPage_beside_flush`).
-/

import RustDb.Bpm.Session

namespace RustDb

namespace Bpm

/-! ## Threads, as what they hold -/

/-- Pinned under the lock; holding the latch, with the guard returned or about to be refused;
    holding the pin only. -/
inductive Stage where
  | pinned
  | live
  | refused
  | released
  deriving DecidableEq

/-- The latch is held. -/
def Stage.holds : Stage → Bool
  | .live | .refused => true
  | .pinned | .released => false

@[simp] theorem Stage.holds_pinned : Stage.pinned.holds = false := rfl
@[simp] theorem Stage.holds_live : Stage.live.holds = true := rfl
@[simp] theorem Stage.holds_refused : Stage.refused.holds = true := rfl
@[simp] theorem Stage.holds_released : Stage.released.holds = false := rfl

structure Token (n : Nat) where
  frame : Fin n
  id : PageId
  write : Bool
  stage : Stage
  deriving DecidableEq

/-- A `flush_all`: the frames ahead of it, and the frame whose read latch it holds. -/
structure Flush (n : Nat) where
  rest : List (Fin n)
  latched : Option (Fin n)
  deriving DecidableEq

structure Threads (n : Nat) (σ δ : Type) where
  pool : Pool n σ δ
  tokens : List (Token n)
  flushes : List (Flush n)

variable {n : Nat} {σ δ : Type} (D : DiskManager δ) (E : EvictionPolicy n σ) (P : Platform)

namespace Threads

/-- A pool just made, with no call under way. -/
def new (disk : δ) (policy : σ) : Threads n σ δ := ⟨Pool.new disk policy, [], []⟩

inductive Event (n : Nat) where
  | checkout (write : Bool) (id : PageId)
  | newPage (page : Page)
  | latch (t : Token n)
  | put (t : Token n) (page : Page)
  | unlatch (t : Token n)
  | unpin (t : Token n)
  | flushAll
  | flushLatch (u : Flush n)
  | flushFrame (u : Flush n)
  | flushSync (u : Flush n)

/-- The token moves on to another stage. -/
def advance (s : Threads n σ δ) (t : Token n) (stage : Stage) (pool : Pool n σ δ) : Threads n σ δ :=
  { s with pool := pool, tokens := { t with stage := stage } :: s.tokens.erase t }

/-- The pin of a section under the lock, unless it failed. -/
def pin (s : Threads n σ δ) (id : PageId) (write : Bool) (stage : Stage) :
    Except (Fail BpmError) (Fin n) × Pool n σ δ → Option (Threads n σ δ)
  | (.error .panic, _) => none
  | (.error _, b) => some { s with pool := b }
  | (.ok f, b) => some { s with pool := b, tokens := ⟨f, id, write, stage⟩ :: s.tokens }

/-- One step. A section under the big lock is one, from `claim_frame`'s `try_write` to the one of
    `new_page` or `load_page`: the latches are those that others hold during all of it. -/
def step (s : Threads n σ δ) : Event n → Option (Threads n σ δ)
  | .checkout write id => s.pin id write .pinned (s.pool.checkoutPage D E P id)
  | .newPage page => s.pin page.pageId true .live (s.pool.installPage D E P page)
  | .latch t =>
    if t ∈ s.tokens ∧ t.stage = .pinned then
      (Latch.acquire t.write (s.pool.frames t.frame).latch).map fun latch =>
        let wrong := (s.pool.frames t.frame).page.any fun page => page.pageId ≠ t.id
        s.advance t (if wrong then .refused else .live) (s.pool.setLatch t.frame latch)
    else none
  | .put t page =>
    if t ∈ s.tokens ∧ t.stage = .live ∧ t.write = true ∧ (s.pool.frames t.frame).page.map Page.pageId = some page.pageId then
      some { s with pool := s.pool.setFrame t.frame { s.pool.frames t.frame with page := some page, dirty := true } }
    else none
  | .unlatch t =>
    let pool := s.pool.setLatch t.frame (Latch.release t.write (s.pool.frames t.frame).latch)
    if t ∈ s.tokens ∧ t.stage = .live then some (s.advance t .released pool)
    -- a refused fetch returns here, with its pin
    else if t ∈ s.tokens ∧ t.stage = .refused then some { s with pool := pool, tokens := s.tokens.erase t }
    else none
  | .unpin t =>
    if t ∈ s.tokens ∧ t.stage = .released then
      some { s with pool := s.pool.unpinFrame t.frame, tokens := s.tokens.erase t }
    else none
  | .flushAll => some { s with flushes := ⟨List.finRange n, none⟩ :: s.flushes }
  | .flushLatch u =>
    match u.rest, u.latched with
    | f :: rest, none =>
      if u ∈ s.flushes then
        (Latch.acquire false (s.pool.frames f).latch).map fun latch =>
          { s with pool := s.pool.setLatch f latch, flushes := ⟨rest, some f⟩ :: s.flushes.erase u }
      else none
    | _, _ => none
  | .flushFrame u =>
    match u.latched with
    | some f =>
      if u ∈ s.flushes then
        let flushed := s.pool.flushFrame D P f
        let pool := flushed.2.setLatch f (Latch.release false (flushed.2.frames f).latch)
        match flushed.1 with
        | .error _ => some { s with pool := pool, flushes := s.flushes.erase u }
        | .ok () => some { s with pool := pool, flushes := ⟨u.rest, none⟩ :: s.flushes.erase u }
      else none
    | none => none
  | .flushSync u =>
    if u ∈ s.flushes ∧ u.rest = [] ∧ u.latched = none then
      some { s with pool := { s.pool with disk := (D.sync s.pool.disk).2 }, flushes := s.flushes.erase u }
    else none

/-- Steps in any order, each of which meets `R` where it is made. -/
inductive Reach (R : Threads n σ δ → Event n → Prop) : Threads n σ δ → Threads n σ δ → Prop where
  | refl (s : Threads n σ δ) : Reach R s s
  | tail {s s₁ s' : Threads n σ δ} {e : Event n} (before : Reach R s s₁) (meets : R s₁ e)
      (step : s₁.step D E P e = some s') :
      Reach R s s'

/-- The given steps, one after the other. -/
def run : List (Event n) → Threads n σ δ → Option (Threads n σ δ)
  | [], s => some s
  | e :: es, s => (s.step D E P e).bind (run es)

/-! ## What is held on a frame -/

section
variable (s : Threads n σ δ) (f : Fin n)

def pins : Nat := s.tokens.countP fun t => t.frame = f

def writers : Nat := s.tokens.countP fun t => t.frame = f ∧ t.write = true ∧ t.stage.holds = true

def readers : Nat :=
  (s.tokens.countP fun t => t.frame = f ∧ t.write = false ∧ t.stage.holds = true) + s.flushes.countP fun u =>
  u.latched = some f

end

/-- The latch with so many writers and readers. -/
def heldLatch (writers readers : Nat) : Latch := if 0 < writers then .write else .readers readers

/-- Every token is a pin, the latches are those of the tokens and the flushes, and neither a
    mapped frame nor a token's is free. -/
structure Held (s : Threads n σ δ) : Prop where
  pinned : ∀ f, s.pins f ≤ (s.pool.frames f).pinCount
  latches : ∀ f, (s.pool.frames f).latch = heldLatch (s.writers f) (s.readers f)
  exclusive : ∀ f, 0 < s.writers f → s.writers f = 1 ∧ s.readers f = 0
  nodup : s.pool.freeFrames.Nodup
  disjoint : ∀ {id : PageId} {f : Fin n}, s.pool.pageTable id = some f → f ∉ s.pool.freeFrames
  taken : ∀ t ∈ s.tokens, t.frame ∉ s.pool.freeFrames

section
variable {D E P} {s s' : Threads n σ δ} {b b₁ : Pool n σ δ} {t : Token n} {u : Flush n} {f g : Fin n} {id : PageId}

/-! ## Counting -/

theorem countP_erase {α : Type} [DecidableEq α] {l : List α} {a : α} (h : a ∈ l) (p : α → Bool) :
    (l.erase a).countP p + (if p a then 1 else 0) = l.countP p := by
  rw [(List.perm_cons_erase h).countP_eq p, List.countP_cons]

theorem pins_cons (write : Bool) (stage : Stage) (b : Pool n σ δ) (g : Fin n) :
    (⟨b, ⟨f, id, write, stage⟩ :: s.tokens, s.flushes⟩ : Threads n σ δ).pins g = s.pins g + if f = g then 1 else 0 := by
  simp only [pins, List.countP_cons, decide_eq_true_eq]

theorem pins_erase (ht : t ∈ s.tokens) (b : Pool n σ δ) (g : Fin n) :
    (⟨b, s.tokens.erase t, s.flushes⟩ : Threads n σ δ).pins g + (if t.frame = g then 1 else 0) = s.pins g := by
  have h := countP_erase ht fun t => t.frame = g
  simpa only [pins, decide_eq_true_eq] using h

theorem pins_advance (ht : t ∈ s.tokens) (stage : Stage) (b : Pool n σ δ) (g : Fin n) :
    (s.advance t stage b).pins g = s.pins g := by
  have h := countP_erase ht fun t => t.frame = g
  simp only [decide_eq_true_eq] at h
  simp only [pins, advance, List.countP_cons, decide_eq_true_eq]
  exact h

theorem writers_advance (ht : t ∈ s.tokens) (stage : Stage) (b : Pool n σ δ) (g : Fin n) :
    (s.advance t stage b).writers g + (if t.frame = g ∧ t.write = true ∧ t.stage.holds = true then 1 else 0) =
      s.writers g + if t.frame = g ∧ t.write = true ∧ stage.holds = true then 1 else 0 := by
  have h := countP_erase ht fun t => t.frame = g ∧ t.write = true ∧ t.stage.holds = true
  simp only [decide_eq_true_eq] at h
  simp only [writers, advance, List.countP_cons, decide_eq_true_eq]
  omega

theorem readers_advance (ht : t ∈ s.tokens) (stage : Stage) (b : Pool n σ δ) (g : Fin n) :
    (s.advance t stage b).readers g + (if t.frame = g ∧ t.write = false ∧ t.stage.holds = true then 1 else 0) =
      s.readers g + if t.frame = g ∧ t.write = false ∧ stage.holds = true then 1 else 0 := by
  have h := countP_erase ht fun t => t.frame = g ∧ t.write = false ∧ t.stage.holds = true
  simp only [decide_eq_true_eq] at h
  simp only [readers, advance, List.countP_cons, decide_eq_true_eq]
  omega

/-! ## Latches -/

theorem acquire_held {write : Bool} {latch : Latch} {w r : Nat} (hex : 0 < w → w = 1 ∧ r = 0)
    (h : Latch.acquire write (heldLatch w r) = some latch) :
    w = 0 ∧ (write = true → r = 0) ∧ latch = heldLatch (if write = true then 1 else 0)
    (if write = true then 0 else r + 1) := by
  by_cases hw : 0 < w
  · rw [heldLatch, if_pos hw] at h
    cases write <;> cases h
  · have hzero : w = 0 := by omega
    rw [heldLatch, if_neg hw] at h
    cases write with
    | true =>
      have hr : r = 0 := by
        by_contra hne
        obtain ⟨k, rfl⟩ := Nat.exists_eq_succ_of_ne_zero hne
        cases h
      subst hr
      cases h
      exact ⟨hzero, fun _ => rfl, rfl⟩
    | false =>
      cases h
      exact ⟨hzero, (by intro he; cases he), rfl⟩

/-- A latch given back is held by one less. -/
theorem release_held {write : Bool} {w r w' r' : Nat} (hex : 0 < w → w = 1 ∧ r = 0)
    (hw : w = w' + if write = true then 1 else 0)
    (hr : r = r' + if write = true then 0 else 1) :
    Latch.release write (heldLatch w r) = heldLatch w' r' ∧ (0 < w' → w' = 1 ∧ r' = 0) := by
  cases write with
  | true =>
    simp only [if_true, Nat.add_zero] at hw hr
    obtain ⟨hone, hzero⟩ := hex (by omega)
    have hw' : w' = 0 := by omega
    have hr' : r' = 0 := by omega
    subst hw' hr'
    exact ⟨rfl, fun h => by omega⟩
  | false =>
    simp only [Bool.false_eq_true, if_false, Nat.add_zero] at hw hr
    have hw' : w = 0 := by
      by_contra hne
      have := hex (by omega)
      omega
    subst hw' hr
    rw [← hw]
    exact ⟨rfl, fun h => by omega⟩

/-! ## Steps keep what is held -/

/-- What leaves the pins, the latches and the tables. -/
theorem Held.congr (h : s.Held) (hpins : ∀ f, (b.frames f).pinCount = (s.pool.frames f).pinCount)
    (hlatches : ∀ f, (b.frames f).latch = (s.pool.frames f).latch) (htable : b.pageTable = s.pool.pageTable)
    (hfree : b.freeFrames = s.pool.freeFrames) : Held { s with pool := b } where
  pinned f := (hpins f).symm ▸ h.pinned f
  latches f := (hlatches f).trans (h.latches f)
  exclusive := h.exclusive
  nodup := hfree ▸ h.nodup
  disjoint hmap := hfree ▸ h.disjoint (htable ▸ hmap)
  taken t ht := hfree ▸ h.taken t ht

/-- One frame's latch taken or given back. -/
theorem Held.relatch (h : s.Held) {latch : Latch} (hpool : s'.pool = s.pool.setLatch f latch)
    (hpins : ∀ g, s'.pins g ≤ s.pins g)
    (htaken : ∀ t ∈ s'.tokens, t.frame ∉ s.pool.freeFrames) (hlatch : latch = heldLatch (s'.writers f) (s'.readers f))
    (hex : 0 < s'.writers f → s'.writers f = 1 ∧ s'.readers f = 0)
    (hother : ∀ g, g ≠ f → s'.writers g = s.writers g ∧ s'.readers g = s.readers g) : s'.Held where
  pinned g := by
    rw [hpool]
    by_cases hg : g = f
    · subst hg
      rw [Pool.setLatch_self]
      exact (hpins g).trans (h.pinned g)
    · rw [Pool.setLatch_ne _ _ hg]
      exact (hpins g).trans (h.pinned g)
  latches g := by
    rw [hpool]
    by_cases hg : g = f
    · subst hg
      rw [Pool.setLatch_self]
      exact hlatch
    · rw [Pool.setLatch_ne _ _ hg, (hother g hg).1, (hother g hg).2]
      exact h.latches g
  exclusive g hg := by
    by_cases hgf : g = f
    · subst hgf
      exact hex hg
    · rw [(hother g hgf).1, (hother g hgf).2] at *
      exact h.exclusive g hg
  nodup := hpool ▸ h.nodup
  disjoint hmap := by
    rw [hpool] at hmap ⊢
    exact h.disjoint hmap
  taken t ht := by
    rw [hpool]
    exact htaken t ht

theorem latch_held (h : s.Held) (ht : t ∈ s.tokens) (hstage : t.stage = .pinned) {latch : Latch}
    (hacquire : Latch.acquire t.write (s.pool.frames t.frame).latch = some latch) {stage : Stage}
    (hholds : stage.holds = true) :
    (s.advance t stage (s.pool.setLatch t.frame latch)).Held := by
  rw [h.latches] at hacquire
  obtain ⟨hw, hr, hlatch⟩ := acquire_held (h.exclusive t.frame) hacquire
  have hbefore : t.stage.holds = false := by rw [hstage]; rfl
  have hwriters (g : Fin n) := writers_advance ht stage (s.pool.setLatch t.frame latch) g
  have hreaders (g : Fin n) := readers_advance ht stage (s.pool.setLatch t.frame latch) g
  simp only [hbefore, hholds, Bool.false_eq_true, and_false, if_false, and_true, Nat.add_zero] at hwriters hreaders
  have hself : (s.advance t stage (s.pool.setLatch t.frame latch)).writers t.frame = if t.write = true then 1 else 0 := by
    rw [hwriters, hw]
    simp
  have hself' : (s.advance t stage (s.pool.setLatch t.frame latch)).readers t.frame =
      if t.write = true then 0 else s.readers t.frame + 1 := by
    rw [hreaders]
    cases hwrite : t.write with
    | true => simp [hr hwrite]
    | false => simp
  refine h.relatch rfl (fun g => (pins_advance ht _ _ g).le) (fun x hx => ?_) ?_ ?_ fun g hg => ?_
  · rcases List.mem_cons.mp hx with rfl | hx
    · exact h.taken t ht
    · exact h.taken x (List.mem_of_mem_erase hx)
  · rw [hself, hself']
    exact hlatch
  · rw [hself, hself']
    cases t.write with
    | true => exact fun _ => ⟨rfl, rfl⟩
    | false => exact fun hpos => absurd hpos (by simp)
  · rw [hwriters g, hreaders g]
    simp [Ne.symm hg]

/-- A token that holds the latch gives it back: it moves on, or ends. -/
theorem unlatch_held (h : s.Held) (ht : t ∈ s.tokens) (hholds : t.stage.holds = true)
    (hs' : s' = s.advance t .released (s.pool.setLatch t.frame (Latch.release t.write (s.pool.frames t.frame).latch)) ∨
      s' = ⟨s.pool.setLatch t.frame (Latch.release t.write (s.pool.frames t.frame).latch), s.tokens.erase t,
      s.flushes⟩) : s'.Held := by
  have hwriters (g : Fin n) : s'.writers g + (if t.frame = g ∧ t.write = true then 1 else 0) = s.writers g := by
    rcases hs' with rfl | rfl
    · have hadvance := writers_advance ht .released
        (s.pool.setLatch t.frame (Latch.release t.write (s.pool.frames t.frame).latch)) g
      simpa [hholds] using hadvance
    · have herase := countP_erase ht fun t => t.frame = g ∧ t.write = true ∧ t.stage.holds = true
      simpa [writers, hholds] using herase
  have hreaders (g : Fin n) : s'.readers g + (if t.frame = g ∧ t.write = false then 1 else 0) = s.readers g := by
    rcases hs' with rfl | rfl
    · have hadvance := readers_advance ht .released
        (s.pool.setLatch t.frame (Latch.release t.write (s.pool.frames t.frame).latch)) g
      simpa [hholds] using hadvance
    · have herase := countP_erase ht fun t => t.frame = g ∧ t.write = false ∧ t.stage.holds = true
      simp only [hholds, and_true, decide_eq_true_eq] at herase
      simp only [readers]
      omega
  have hself := hwriters t.frame
  have hself' := hreaders t.frame
  obtain ⟨hlatch, hex⟩ := @release_held t.write (s.writers t.frame) (s.readers t.frame) (s'.writers t.frame)
      (s'.readers t.frame)
    (h.exclusive t.frame) (by simpa using hself.symm) (by cases hw : t.write <;> simp [hw] at hself' ⊢ <;> exact hself'.symm)
  have hpool : s'.pool = s.pool.setLatch t.frame (Latch.release t.write (s.pool.frames t.frame).latch) := by
    rcases hs' with rfl | rfl
    · rfl
    · rfl
  have htokens (x : Token n) (hx : x ∈ s'.tokens) : x.frame ∉ s.pool.freeFrames := by
    rcases hs' with rfl | rfl
    · rcases List.mem_cons.mp hx with rfl | hx
      · exact h.taken t ht
      · exact h.taken x (List.mem_of_mem_erase hx)
    · exact h.taken x (List.mem_of_mem_erase hx)
  have hpins (g : Fin n) : s'.pins g ≤ s.pins g := by
    rcases hs' with rfl | rfl
    · exact (pins_advance ht _ _ g).le
    · exact Nat.le_of_add_right_le (pins_erase ht _ g).le
  refine h.relatch hpool hpins htokens ?_ hex fun g hg => ?_
  · rw [h.latches]
    exact hlatch
  · have hg' := hwriters g
    have hg'' := hreaders g
    simp only [Ne.symm hg, false_and, if_false, Nat.add_zero] at hg' hg''
    exact ⟨hg', hg''⟩

theorem unpin_held (h : s.Held) (ht : t ∈ s.tokens) (hstage : t.stage = .released) :
    (⟨s.pool.unpinFrame t.frame, s.tokens.erase t, s.flushes⟩ : Threads n σ δ).Held := by
  have hholds : t.stage.holds = false := by rw [hstage]; rfl
  have hwriters (g : Fin n) : (⟨s.pool.unpinFrame t.frame, s.tokens.erase t, s.flushes⟩ : Threads n σ δ).writers g =
      s.writers g := by
    have herase := countP_erase ht fun t => t.frame = g ∧ t.write = true ∧ t.stage.holds = true
    simpa [writers, hholds] using herase
  have hreaders (g : Fin n) : (⟨s.pool.unpinFrame t.frame, s.tokens.erase t, s.flushes⟩ : Threads n σ δ).readers g =
      s.readers g := by
    have herase := countP_erase ht fun t => t.frame = g ∧ t.write = false ∧ t.stage.holds = true
    simpa [readers, hholds] using herase
  refine ⟨fun g => ?_, fun g => ?_, fun g hg => ?_, h.nodup, h.disjoint, fun x hx => h.taken x (List.mem_of_mem_erase hx)⟩
  · have hpins := pins_erase ht (s.pool.unpinFrame t.frame) g
    have hle := h.pinned g
    by_cases hg : g = t.frame
    · subst hg
      show _ ≤ ((s.pool.unpinFrame t.frame).frames t.frame).pinCount
      rw [Pool.unpinFrame_self]
      show _ ≤ (s.pool.frames t.frame).pinCount - 1
      rw [if_pos rfl] at hpins
      omega
    · show _ ≤ ((s.pool.unpinFrame t.frame).frames g).pinCount
      rw [Pool.unpinFrame_ne _ hg]
      omega
  · rw [hwriters, hreaders]
    by_cases hg : g = t.frame
    · subst hg
      show ((s.pool.unpinFrame t.frame).frames t.frame).latch = _
      rw [Pool.unpinFrame_self]
      exact h.latches _
    · show ((s.pool.unpinFrame t.frame).frames g).latch = _
      rw [Pool.unpinFrame_ne _ hg]
      exact h.latches g
  · rw [hwriters] at hg
    rw [hwriters, hreaders]
    exact h.exclusive g hg

theorem flushLatch_held (h : s.Held) (hu : u ∈ s.flushes) (hnone : u.latched = none) {rest : List (Fin n)} {latch : Latch}
    (hacquire : Latch.acquire false (s.pool.frames f).latch = some latch) :
    (⟨s.pool.setLatch f latch, s.tokens, ⟨rest, some f⟩ :: s.flushes.erase u⟩ : Threads n σ δ).Held := by
  rw [h.latches] at hacquire
  obtain ⟨hw, -, hlatch⟩ := acquire_held (h.exclusive f) hacquire
  have hreaders (g : Fin n) : (⟨s.pool.setLatch f latch, s.tokens, ⟨rest, some f⟩ :: s.flushes.erase u⟩ : Threads n σ
      δ).readers g =
      s.readers g + if f = g then 1 else 0 := by
    have herase := countP_erase hu fun u => u.latched = some g
    simp only [hnone, reduceCtorEq, decide_false, Bool.false_eq_true, if_false, Nat.add_zero] at herase
    simp only [readers, List.countP_cons, herase, decide_eq_true_eq, Option.some.injEq]
    omega
  refine h.relatch rfl (fun g => Nat.le_refl _) h.taken ?_ (fun hpos => ?_) fun g hg => ⟨rfl, ?_⟩
  · rw [hreaders, if_pos rfl]
    show latch = heldLatch (s.writers f) (s.readers f + 1)
    rw [hw]
    exact hlatch
  · exact absurd hpos (by show ¬ 0 < s.writers f; omega)
  · rw [hreaders, if_neg (Ne.symm hg), Nat.add_zero]

/-- A flush gives back its read latch: it goes on, or ends. -/
theorem flushUnlatch_held (h : s.Held) (hu : u ∈ s.flushes) (hlatched : u.latched = some f) {flushes : List (Flush n)}
    (hflushes : flushes = s.flushes.erase u ∨ flushes = ⟨u.rest, none⟩ :: s.flushes.erase u) :
    (⟨s.pool.setLatch f (Latch.release false (s.pool.frames f).latch), s.tokens, flushes⟩ : Threads n σ δ).Held := by
  have hreaders (g : Fin n) : (⟨s.pool.setLatch f (Latch.release false (s.pool.frames f).latch), s.tokens, flushes⟩ :
      Threads n σ δ).readers g + (if f = g then 1 else 0) = s.readers g := by
    have herase := countP_erase hu fun u => u.latched = some g
    simp only [hlatched, decide_eq_true_eq, Option.some.injEq] at herase
    rcases hflushes with rfl | rfl
    · simp only [readers]
      omega
    · simp only [readers, List.countP_cons, reduceCtorEq, decide_false, Bool.false_eq_true, if_false, Nat.add_zero]
      omega
  have hself := hreaders f
  rw [if_pos rfl] at hself
  obtain ⟨hlatch, hex⟩ := @release_held false (s.writers f) (s.readers f) (s.writers f) _ (h.exclusive f) rfl hself.symm
  refine h.relatch rfl (fun g => Nat.le_refl _) h.taken ?_ hex fun g hg => ⟨rfl, ?_⟩
  · rw [h.latches]
    exact hlatch
  · have hg' := hreaders g
    rwa [if_neg (Ne.symm hg), Nat.add_zero] at hg'

theorem flushFrame_held (h : s.Held) (hu : u ∈ s.flushes) (hlatched : u.latched = some f) {r : Except (Fail BpmError) Unit}
    (hflush : s.pool.flushFrame D P f = (r, b)) {flushes : List (Flush n)}
    (hflushes : flushes = s.flushes.erase u ∨ flushes = ⟨u.rest, none⟩ :: s.flushes.erase u) :
    (⟨b.setLatch f (Latch.release false (b.frames f).latch), s.tokens, flushes⟩ : Threads n σ δ).Held := by
  obtain ⟨htable, hfree, hframes⟩ := (Pool.flushFrame_spec hflush).1.same
  have hb : ({ s with pool := b } : Threads n σ δ).Held :=
    h.congr (fun g => (hframes g).2.1) (fun g => (hframes g).2.2) htable hfree
  exact flushUnlatch_held hb hu hlatched hflushes

theorem flushSync_held (h : s.Held) (hu : u ∈ s.flushes) (hnone : u.latched = none) (disk : δ) :
    (⟨{ s.pool with disk := disk }, s.tokens, s.flushes.erase u⟩ : Threads n σ δ).Held := by
  have hreaders (g : Fin n) : (⟨{ s.pool with disk := disk }, s.tokens, s.flushes.erase u⟩ : Threads n σ δ).readers g =
      s.readers g := by
    have herase := countP_erase hu fun u => u.latched = some g
    simp only [hnone, reduceCtorEq, decide_false, Bool.false_eq_true, if_false, Nat.add_zero] at herase
    simp only [readers, herase]
  refine ⟨h.pinned, fun g => ?_, fun g hg => ?_, h.nodup, h.disjoint, h.taken⟩
  · rw [hreaders]
    exact h.latches g
  · rw [hreaders]
    exact h.exclusive g hg

/-- A frame that is not free is pinned for a new token. -/
theorem pin_held (h : s.Held) (hf : f ∉ s.pool.freeFrames) (write : Bool) :
    (⟨s.pool.pinFrame f, ⟨f, id, write, .pinned⟩ :: s.tokens, s.flushes⟩ : Threads n σ δ).Held := by
  have hwriters (g : Fin n) : (⟨s.pool.pinFrame f, ⟨f, id, write, .pinned⟩ :: s.tokens, s.flushes⟩ : Threads n σ
      δ).writers g = s.writers g := by
    simp [writers]
  have hreaders (g : Fin n) : (⟨s.pool.pinFrame f, ⟨f, id, write, .pinned⟩ :: s.tokens, s.flushes⟩ : Threads n σ
      δ).readers g = s.readers g := by
    simp [readers]
  refine ⟨fun g => ?_, fun g => ?_, fun g hg => ?_, h.nodup, h.disjoint, fun t ht => ?_⟩
  · rw [pins_cons]
    show _ ≤ ((s.pool.pinFrame f).frames g).pinCount
    by_cases hg : g = f
    · subst hg
      rw [Pool.pinFrame_self, if_pos rfl]
      exact Nat.add_le_add_right (h.pinned g) 1
    · rw [Pool.pinFrame_ne _ hg, if_neg (Ne.symm hg)]
      exact h.pinned g
  · rw [hwriters, hreaders]
    show ((s.pool.pinFrame f).frames g).latch = _
    by_cases hg : g = f
    · subst hg
      rw [Pool.pinFrame_self]
      exact h.latches g
    · rw [Pool.pinFrame_ne _ hg]
      exact h.latches g
  · rw [hwriters] at hg
    rw [hwriters, hreaders]
    exact h.exclusive g hg
  · rcases List.mem_cons.mp ht with rfl | ht
    · exact hf
    · exact h.taken t ht

/-- A claimed frame leaves the free ones, and mapped ones stay or are unmapped. -/
theorem claim_free (h : s.Held) (hclaim : Pool.ClaimSpec D P s.pool (.ok f) b₁) : f ∉ b₁.freeFrames ∧ b₁.freeFrames.Nodup ∧
    (∀ g ∈ b₁.freeFrames, g ∈ s.pool.freeFrames) ∧ ∀ id g, b₁.pageTable id = some g → s.pool.pageTable id = some g := by
  cases hclaim with
  | @free _ rest split =>
    have hnodup := h.nodup
    rw [split] at hnodup
    refine ⟨fun hmem => (List.nodup_append.mp hnodup).2.2 f hmem f List.mem_cons_self rfl, (List.nodup_append.mp hnodup).1,
      fun g hg => ?_, fun id g hmap => hmap⟩
    rw [split]
    exact List.mem_append_left _ hg
  | @victim _ page policy referenced disk none_free unpinned unlatched holds flushed =>
    refine ⟨?_, h.nodup, fun g hg => hg, fun id g hmap => ?_⟩
    · show f ∉ s.pool.freeFrames
      rw [none_free]
      exact List.not_mem_nil
    · by_cases hid : id = page.pageId
      · rw [hid] at hmap
        cases (Function.update_self page.pageId none s.pool.pageTable).symm.trans hmap
      · exact (Function.update_of_ne hid _ _).symm.trans hmap

/-- A page stored in a claimed frame. -/
theorem store_held (h : s.Held) (hclaim : Pool.ClaimSpec D P s.pool (.ok f) b₁) (page : Page) (dirty : Bool) :
    (⟨b₁.store f id page dirty, s.tokens, s.flushes⟩ : Threads n σ δ).Held := by
  obtain ⟨hf, hnodup, hsub, htable⟩ := claim_free h hclaim
  have hframe (g : Fin n) : ((b₁.store f id page dirty).frames g).pinCount = (s.pool.frames g).pinCount ∧
      ((b₁.store f id page dirty).frames g).latch = (s.pool.frames g).latch := by
    by_cases hg : g = f
    · rw [hg, Pool.store_self, hclaim.frames]
      exact ⟨rfl, rfl⟩
    · rw [Pool.store_ne _ _ _ _ hg, hclaim.frames]
      exact ⟨rfl, rfl⟩
  refine ⟨fun g => (hframe g).1.symm ▸ h.pinned g, fun g => (hframe g).2.trans (h.latches g), h.exclusive, hnodup,
    fun {id' g} hmap => ?_, fun t ht hfree => h.taken t ht (hsub _ hfree)⟩
  by_cases hid : id' = id
  · subst hid
    rw [Pool.store_pageTable, Function.update_self] at hmap
    cases hmap
    exact hf
  · rw [Pool.store_pageTable, Function.update_of_ne hid] at hmap
    exact fun hfree => h.disjoint (htable id' g hmap) (hsub g hfree)

theorem checkout_held (h : s.Held) {write : Bool} (hstep : s.step D E P (.checkout write id) = some s') : s'.Held := by
  simp only [step] at hstep
  rcases hcheck : s.pool.checkoutPage D E P id with ⟨r, b⟩
  rw [hcheck] at hstep
  have read (disk : δ) : ({ s with pool := { s.pool with disk := disk } } : Threads n σ δ).Held :=
      h.congr (fun _ => rfl) (fun _ => rfl) rfl rfl
  have failed {e : Fail BpmError} (hr : r = .error e) (hb : ({ s with pool := b } : Threads n σ δ).Held) : s'.Held := by
    subst hr
    cases e <;> cases hstep <;> exact hb
  cases Pool.checkoutPage_spec hcheck with
  | cached mapped =>
    cases hstep
    exact pin_held h (h.disjoint mapped) write
  | unread absent hread => exact failed rfl (read _)
  | unclaimed absent hread claimed =>
    refine failed rfl (h.congr (fun g => ?_) (fun g => ?_) claimed.error.1 claimed.error.2)
    · rw [claimed.frames]
    · rw [claimed.frames]
  | latched absent hread claimed latched => cases hstep
  | @loaded raw page disk f b₁ absent hread decoded claimed unlatched =>
    cases hstep
    have hstore := @store_held n σ δ D P _ b₁ f id (read disk) claimed page false
    exact pin_held hstore (claim_free (read disk) claimed).1 write

theorem newPage_held (h : s.Held) {page : Page} (hstep : s.step D E P (.newPage page) = some s') : s'.Held := by
  simp only [step] at hstep
  rcases hinstall : s.pool.installPage D E P page with ⟨r, b⟩
  rw [hinstall] at hstep
  have failed {e : Fail BpmError} (hr : r = .error e) (hb : ({ s with pool := b } : Threads n σ δ).Held) : s'.Held := by
    subst hr
    cases e <;> cases hstep <;> exact hb
  cases Pool.installPage_spec hinstall with
  | present mapped => exact failed rfl h
  | unclaimed absent claimed =>
    refine failed rfl (h.congr (fun g => ?_) (fun g => ?_) claimed.error.1 claimed.error.2)
    · rw [claimed.frames]
    · rw [claimed.frames]
  | latched absent claimed latched => cases hstep
  | @installed f b₁ absent claimed unlatched =>
    cases hstep
    have hstore := @store_held n σ δ D P s b₁ f page.pageId h claimed page true
    have hpin := @pin_held _ _ _ _ f page.pageId hstore (claim_free h claimed).1 true
    have hacquire : Latch.acquire true (((b₁.store f page.pageId page true).pinFrame f).frames f).latch = some .write := by
      rw [Pool.pinFrame_self, Pool.store_self]
      show Latch.acquire true (b₁.frames f).latch = some .write
      rw [unlatched]
      rfl
    have hlatch := @latch_held _ _ _ _ _ hpin List.mem_cons_self rfl .write hacquire .live rfl
    rw [Session.setLatch_pinFrame]
    simpa only [advance, List.erase_cons_head] using hlatch

/-- A page changed behind a write guard, or another frame field the latches and pins do not see. -/
theorem put_held (h : s.Held) (page : Page) :
    ({ s with pool := s.pool.setFrame f { s.pool.frames f with page := some page, dirty := true } } : Threads n σ
    δ).Held := by
  have hframe (g : Fin n) : ((s.pool.setFrame f { s.pool.frames f with page := some page, dirty := true }).frames
      g).pinCount =
      (s.pool.frames g).pinCount ∧
      ((s.pool.setFrame f { s.pool.frames f with page := some page, dirty := true }).frames g).latch =
      (s.pool.frames g).latch := by
    by_cases hg : g = f
    · subst hg
      rw [Pool.setFrame_self]
      exact ⟨rfl, rfl⟩
    · rw [Pool.setFrame_ne _ _ hg]
      exact ⟨rfl, rfl⟩
  exact h.congr (fun g => (hframe g).1) (fun g => (hframe g).2) rfl rfl

theorem flushAll_held (h : s.Held) (rest : List (Fin n)) :
    ({ s with flushes := ⟨rest, none⟩ :: s.flushes } : Threads n σ δ).Held := by
  have hreaders (g : Fin n) : ({ s with flushes := ⟨rest, none⟩ :: s.flushes } : Threads n σ δ).readers g = s.readers g := by
    simp [readers]
  refine ⟨h.pinned, fun g => ?_, fun g hg => ?_, h.nodup, h.disjoint, h.taken⟩
  · rw [hreaders]
    exact h.latches g
  · rw [hreaders]
    exact h.exclusive g hg

/-- What each event does, where it is taken. -/
inductive StepSpec (D : DiskManager δ) (E : EvictionPolicy n σ) (P : Platform) (s : Threads n σ δ) :
    Event n → Threads n σ δ → Prop where
  | checkout {write : Bool} {id : PageId} {s' : Threads n σ δ}
      (pinned : s.pin id write .pinned (s.pool.checkoutPage D E P id) = some s') :
      StepSpec D E P s (.checkout write id) s'
  | newPage {page : Page} {s' : Threads n σ δ} (pinned : s.pin page.pageId true .live (s.pool.installPage D E P page) =
      some s') :
      StepSpec D E P s (.newPage page) s'
  | latch {t : Token n} {latch : Latch} {stage : Stage} (taken : t ∈ s.tokens) (pinned : t.stage = .pinned)
      (acquired : Latch.acquire t.write (s.pool.frames t.frame).latch = some latch) (holds : stage.holds = true) :
      StepSpec D E P s (.latch t) (s.advance t stage (s.pool.setLatch t.frame latch))
  | put {t : Token n} {page : Page} (taken : t ∈ s.tokens) (live : t.stage = .live) (write : t.write = true)
      (same : (s.pool.frames t.frame).page.map Page.pageId = some page.pageId) : StepSpec D E P s (.put t page)
        { s with pool := s.pool.setFrame t.frame { s.pool.frames t.frame with page := some page, dirty := true } }
  | unlatch {t : Token n} {s' : Threads n σ δ} (taken : t ∈ s.tokens) (holds : t.stage.holds = true)
      (given : s' = s.advance t .released (s.pool.setLatch t.frame (Latch.release t.write (s.pool.frames t.frame).latch)) ∨
        s' = ⟨s.pool.setLatch t.frame (Latch.release t.write (s.pool.frames t.frame).latch), s.tokens.erase t, s.flushes⟩) :
      StepSpec D E P s (.unlatch t) s'
  | unpin {t : Token n} (taken : t ∈ s.tokens) (released : t.stage = .released) :
      StepSpec D E P s (.unpin t) ⟨s.pool.unpinFrame t.frame, s.tokens.erase t, s.flushes⟩
  | flushAll : StepSpec D E P s .flushAll { s with flushes := ⟨List.finRange n, none⟩ :: s.flushes }
  | flushLatch {u : Flush n} {f : Fin n} {rest : List (Fin n)} {latch : Latch} (taken : u ∈ s.flushes)
      (unlatched : u.latched = none)
      (acquired : Latch.acquire false (s.pool.frames f).latch = some latch) :
      StepSpec D E P s (.flushLatch u) ⟨s.pool.setLatch f latch, s.tokens, ⟨rest, some f⟩ :: s.flushes.erase u⟩
  | flushFrame {u : Flush n} {f : Fin n} {r : Except (Fail BpmError) Unit} {b : Pool n σ δ} {flushes : List (Flush n)}
      (taken : u ∈ s.flushes) (latched : u.latched = some f) (flushed : s.pool.flushFrame D P f = (r, b))
      (given : flushes = s.flushes.erase u ∨ flushes = ⟨u.rest, none⟩ :: s.flushes.erase u) :
      StepSpec D E P s (.flushFrame u) ⟨b.setLatch f (Latch.release false (b.frames f).latch), s.tokens, flushes⟩
  | flushSync {u : Flush n} {disk : δ} (taken : u ∈ s.flushes) (unlatched : u.latched = none) :
      StepSpec D E P s (.flushSync u) ⟨{ s.pool with disk := disk }, s.tokens, s.flushes.erase u⟩

theorem step_spec {e : Event n} (hstep : s.step D E P e = some s') : StepSpec D E P s e s' := by
  cases e with
  | checkout write id => exact .checkout hstep
  | newPage page => exact .newPage hstep
  | latch t =>
    simp only [step] at hstep
    by_cases ht : t ∈ s.tokens ∧ t.stage = .pinned
    · rw [if_pos ht] at hstep
      obtain ⟨latch, hacquire, rfl⟩ := Option.map_eq_some_iff.mp hstep
      refine .latch ht.1 ht.2 hacquire ?_
      by_cases hwrong : ((s.pool.frames t.frame).page.any fun page => page.pageId ≠ t.id) = true
      · rw [if_pos hwrong, Stage.holds_refused]
      · rw [if_neg hwrong, Stage.holds_live]
    · rw [if_neg ht] at hstep
      cases hstep
  | put t page =>
    simp only [step] at hstep
    split at hstep
    · next ht =>
      cases hstep
      exact .put ht.1 ht.2.1 ht.2.2.1 ht.2.2.2
    · cases hstep
  | unlatch t =>
    simp only [step] at hstep
    by_cases hlive : t ∈ s.tokens ∧ t.stage = .live
    · rw [if_pos hlive] at hstep
      cases hstep
      exact .unlatch hlive.1 (by rw [hlive.2, Stage.holds_live]) (Or.inl rfl)
    · rw [if_neg hlive] at hstep
      by_cases hrefused : t ∈ s.tokens ∧ t.stage = .refused
      · rw [if_pos hrefused] at hstep
        cases hstep
        exact .unlatch hrefused.1 (by rw [hrefused.2, Stage.holds_refused]) (Or.inr rfl)
      · rw [if_neg hrefused] at hstep
        cases hstep
  | unpin t =>
    simp only [step] at hstep
    by_cases ht : t ∈ s.tokens ∧ t.stage = .released
    · rw [if_pos ht] at hstep
      cases hstep
      exact .unpin ht.1 ht.2
    · rw [if_neg ht] at hstep
      cases hstep
  | flushAll =>
    cases hstep
    exact .flushAll
  | flushLatch u =>
    rcases u with ⟨_ | ⟨f, rest⟩, _ | g⟩
    · cases hstep
    · cases hstep
    · simp only [step] at hstep
      by_cases hu : (⟨f :: rest, none⟩ : Flush n) ∈ s.flushes
      · rw [if_pos hu] at hstep
        obtain ⟨latch, hacquire, rfl⟩ := Option.map_eq_some_iff.mp hstep
        exact .flushLatch hu rfl hacquire
      · rw [if_neg hu] at hstep
        cases hstep
    · cases hstep
  | flushFrame u =>
    rcases u with ⟨rest, _ | f⟩
    · cases hstep
    · simp only [step] at hstep
      by_cases hu : (⟨rest, some f⟩ : Flush n) ∈ s.flushes
      · rw [if_pos hu] at hstep
        rcases hflush : s.pool.flushFrame D P f with ⟨_ | _, b⟩
        · rw [hflush] at hstep
          cases hstep
          exact .flushFrame hu rfl hflush (Or.inl rfl)
        · rw [hflush] at hstep
          cases hstep
          exact .flushFrame hu rfl hflush (Or.inr rfl)
      · rw [if_neg hu] at hstep
        cases hstep
  | flushSync u =>
    simp only [step] at hstep
    by_cases hu : u ∈ s.flushes ∧ u.rest = [] ∧ u.latched = none
    · rw [if_pos hu] at hstep
      cases hstep
      exact .flushSync hu.1 hu.2.2
    · rw [if_neg hu] at hstep
      cases hstep

theorem step_held (h : s.Held) {e : Event n} (hstep : s.step D E P e = some s') : s'.Held := by
  cases step_spec hstep with
  | checkout pinned => exact checkout_held h pinned
  | newPage pinned => exact newPage_held h pinned
  | latch taken pinned acquired holds => exact latch_held h taken pinned acquired holds
  | put taken live write same => exact put_held h _
  | unlatch taken holds given => exact unlatch_held h taken holds given
  | unpin taken released => exact unpin_held h taken released
  | flushAll => exact flushAll_held h _
  | flushLatch taken unlatched acquired => exact flushLatch_held h taken unlatched acquired
  | flushFrame taken latched flushed given => exact flushFrame_held h taken latched flushed given
  | flushSync taken unlatched => exact flushSync_held h taken unlatched _

theorem new_held (disk : δ) (policy : σ) : (new disk policy : Threads n σ δ).Held where
  pinned f := Nat.le_refl 0
  latches f := rfl
  exclusive f hf := absurd hf (Nat.lt_irrefl 0)
  nodup := List.nodup_finRange n
  disjoint hmap := by cases hmap
  taken t ht := by cases ht

theorem Reach.held {R : Threads n σ δ → Event n → Prop} (h : s.Held) (hreach : Reach D E P R s s') : s'.Held := by
  induction hreach with
  | refl => exact h
  | tail before meets step ih => exact step_held ih step

/-! ## Claiming a frame beside a flush -/

/-- A flush holds the read latch of the frame. -/
def Flushing (s : Threads n σ δ) (f : Fin n) : Prop := ∃ u ∈ s.flushes, u.latched = some f

/-- What claiming a frame now, with any disk, comes to: `try_write` gets the latch of the
    frame, and no frame is found only when none is free and all are pinned. -/
structure ClaimSafe (D : DiskManager δ) (E : EvictionPolicy n σ) (P : Platform) (s : Threads n σ δ) : Prop where
  unlatched : ∀ {disk : δ} {f : Fin n} {b : Pool n σ δ}, Pool.claimFrame D E P { s.pool with disk := disk } = (.ok f, b) →
    ∀ id page dirty, (b.storePage f id page dirty).1 ≠ .error .panic
  exhausted : ∀ {disk : δ}, (Pool.claimFrame D E P { s.pool with disk := disk }).1 = .error (.err .noFreeFrames) →
    s.pool.freeFrames = [] ∧ ∀ f, (s.pool.frames f).pinCount ≠ 0

/-- Without a token on it a frame is latched by flushes only. -/
theorem Held.unlatched_iff (h : s.Held) (hpins : s.pins f = 0) : (s.pool.frames f).latch = .readers 0 ↔ ¬ s.Flushing f := by
  have hnone (t : Token n) (ht : t ∈ s.tokens) : t.frame ≠ f := by
    have hzero := List.countP_eq_zero.mp hpins t ht
    simpa using hzero
  have hwriters : s.writers f = 0 := List.countP_eq_zero.mpr fun t ht => by simp [hnone t ht]
  have htokens : (s.tokens.countP fun t => t.frame = f ∧ t.write = false ∧ t.stage.holds = true) = 0 :=
    List.countP_eq_zero.mpr fun t ht => by simp [hnone t ht]
  have hlatch : (s.pool.frames f).latch = .readers (s.flushes.countP fun u => u.latched = some f) := by
    rw [h.latches, hwriters, readers, htokens, Nat.zero_add]
    rfl
  rw [hlatch, Latch.readers.injEq, List.countP_eq_zero]
  simp [Flushing]

/-- A frame that is free or unpinned has no token on it. -/
theorem Held.pins_zero (h : s.Held) (hf : f ∈ s.pool.freeFrames ∨ (s.pool.frames f).pinCount = 0) : s.pins f = 0 := by
  rcases hf with hf | hf
  · refine List.countP_eq_zero.mpr fun t ht => ?_
    have htaken := h.taken t ht
    simp only [decide_eq_true_eq]
    intro he
    exact htaken (he ▸ hf)
  · have hle := h.pinned f
    omega

theorem storePage_panics_iff {page : Page} {dirty : Bool} :
    (b.storePage f id page dirty).1 = .error .panic ↔ (b.frames f).latch ≠ .readers 0 := by
  by_cases hlatch : (b.frames f).latch = .readers 0
  · simp [Pool.storePage, hlatch]
  · simp [Pool.storePage, hlatch]

/-- Claiming is safe just where no flush reads the frame it goes for. -/
theorem Held.claimSafe_iff (h : s.Held) (hE : E.Finds) :
    s.ClaimSafe D E P ↔ ∀ f, s.pool.candidate E = some f → ¬ s.Flushing f := by
  constructor
  · intro hsafe f hcandidate hflushing
    cases hlast : s.pool.freeFrames.getLast? with
    | some g =>
      rw [Pool.candidate, hlast, Option.some_or, Option.some.injEq] at hcandidate
      subst hcandidate
      have hfree := List.mem_of_getLast? hlast
      have hlatched := mt (h.unlatched_iff (h.pins_zero (Or.inl hfree))).mp (not_not.mpr hflushing)
      have hclaim := @Pool.claimFrame_free _ _ _ D E P { s.pool with disk := s.pool.disk } _ hlast
      exact hsafe.unlatched hclaim ⟨⟨0⟩, 0⟩ (Page.emptyPage ⟨⟨0⟩, 0⟩ (.free none)) true (storePage_panics_iff.mpr hlatched)
    | none =>
      rw [Pool.candidate, hlast, Option.none_or] at hcandidate
      have hunpinned := hE.found hcandidate
      have hlatched := mt (h.unlatched_iff (h.pins_zero (Or.inr hunpinned))).mp (not_not.mpr hflushing)
      have hclaim := @Pool.claimFrame_victim _ _ _ D E P { s.pool with disk := s.pool.disk } hlast f hcandidate
          (Or.inr hlatched)
      exact (hsafe.exhausted hclaim).2 f hunpinned
  · intro hcandidate
    constructor
    · intro disk f b hclaim id page dirty hpanic
      have hspec := Pool.claimFrame_spec hclaim
      have hlatched := storePage_panics_iff.mp hpanic
      rw [hspec.frames] at hlatched
      have hnot : ¬ s.Flushing f := hcandidate f (Pool.candidate_of_claim (b := { s.pool with disk := disk })
          (by rw [hclaim]))
      have hfree : f ∈ s.pool.freeFrames ∨ (s.pool.frames f).pinCount = 0 := by
        cases hspec with
        | free split => exact Or.inl ((show s.pool.freeFrames = _ from split) ▸ List.mem_append_right _ List.mem_cons_self)
        | victim none_free unpinned => exact Or.inr unpinned
      exact hlatched ((h.unlatched_iff (h.pins_zero hfree)).mpr hnot)
    · intro disk hclaim
      obtain ⟨hlast, hbusy⟩ := Pool.claimFrame_noFreeFrames hclaim
      refine ⟨List.getLast?_eq_none_iff.mp hlast, ?_⟩
      cases hfound : (E.findVictim s.pool.policy s.pool.frames s.pool.referenced).frame with
      | none => exact hE.exhausted hfound
      | some f =>
        have hunpinned := hE.found hfound
        have hnot := hcandidate f (by
          rw [Pool.candidate, show s.pool.freeFrames.getLast? = none from hlast, Option.none_or, hfound])
        have hlatch := (h.unlatched_iff (h.pins_zero (Or.inr hunpinned))).mpr hnot
        rcases hbusy f hfound with hne | hne
        · exact absurd hunpinned hne
        · exact absurd hlatch hne

/-- Over both policies, in any run of any number of threads and flushes. -/
theorem claims_safe_iff (hn : 0 < n) {E : EvictionPolicy n (Fin n)} (hE : E = clockEvictor hn ∨ E = replacer hn) {disk : δ}
    {policy : Fin n} {s : Threads n (Fin n) δ} (hreach : Reach D E P (fun _ _ => True) (new disk policy) s) :
    s.ClaimSafe D E P ↔ ∀ f, s.pool.candidate E = some f → ¬ s.Flushing f := by
  refine (hreach.held (new_held disk policy)).claimSafe_iff ?_
  rcases hE with rfl | rfl
  · exact clockEvictor_finds hn
  · exact replacer_finds hn

theorem Reach.run {R : Threads n σ δ → Event n → Prop} {s₀ : Threads n σ δ} {es : List (Event n)}
    (hR : ∀ e ∈ es, ∀ s, R s e) (hreach : Reach D E P R s₀ s) (hrun : Threads.run D E P es s = some s') :
    Reach D E P R s₀ s' := by
  induction es generalizing s with
  | nil =>
    cases hrun
    exact hreach
  | cons e es ih =>
    obtain ⟨s₁, hstep, hrest⟩ := Option.bind_eq_some_iff.mp hrun
    exact ih (fun e' he => hR e' (List.mem_cons_of_mem e he)) (.tail hreach (hR e List.mem_cons_self s) hstep) hrest

/-- A page is created and left in frame 1, another one in frame 0 with its pin kept; then a flush
    reads frame 0. -/
def besideEvents : List (Event 2) :=
  let one : Fin 2 := ⟨1, Nat.one_lt_two⟩
  let zero : Fin 2 := ⟨0, Nat.two_pos⟩
  [.newPage Session.strayPage, .unlatch ⟨one, Session.strayPage.pageId, true, .live⟩,
    .unpin ⟨one, Session.strayPage.pageId, true, .released⟩, .newPage Session.otherPage,
    .unlatch ⟨zero, Session.otherPage.pageId, true, .live⟩, .flushAll, .flushLatch ⟨[zero, one], none⟩]

/-- The clock goes for frame 1, which no flush reads, until the pin on frame 0 is given back. -/
theorem claims_safe_iff_beside : ∃ s s' : Threads 2 (Fin 2) (PageId → Option (List UInt8)),
    s.flushes = [⟨[1], some 0⟩] ∧
    s.ClaimSafe (Session.mapDisk .standard) (clockEvictor Nat.two_pos) .standard ∧
    s.step (Session.mapDisk .standard) (clockEvictor Nat.two_pos) .standard
      (.unpin ⟨0, Session.otherPage.pageId, true, .released⟩) = some s' ∧
    ¬ s'.ClaimSafe (Session.mapDisk .standard) (clockEvictor Nat.two_pos) .standard := by
  obtain ⟨s, hs⟩ : ∃ s, run (Session.mapDisk .standard) (clockEvictor Nat.two_pos) .standard besideEvents
      (new (fun _ => none) 0) = some s := ⟨_, rfl⟩
  have hreach := Reach.run (R := fun _ _ => True) (fun _ _ _ => trivial) (.refl _) hs
  have hfacts : (run (Session.mapDisk .standard) (clockEvictor Nat.two_pos) .standard besideEvents
      (new (fun _ => none) 0)).bind (fun s => (s.step (Session.mapDisk .standard) (clockEvictor Nat.two_pos) .standard
        (.unpin ⟨0, Session.otherPage.pageId, true, .released⟩)).map fun s' => (s.flushes, s'.flushes,
          s.pool.candidate (clockEvictor Nat.two_pos), s'.pool.candidate (clockEvictor Nat.two_pos))) =
      some ([⟨[1], some 0⟩], [⟨[1], some 0⟩], some 1, some 0) := rfl
  rw [hs, Option.bind_some] at hfacts
  obtain ⟨s', hstep, heq⟩ := Option.map_eq_some_iff.mp hfacts
  obtain ⟨hflushes, hflushes', hcandidate, hcandidate'⟩ : s.flushes = [⟨[1], some 0⟩] ∧ s'.flushes = [⟨[1], some 0⟩] ∧
      s.pool.candidate (clockEvictor Nat.two_pos) = some 1 ∧ s'.pool.candidate (clockEvictor Nat.two_pos) = some 0 := by
    simpa only [Prod.mk.injEq] using heq
  refine ⟨s, s', hflushes, (claims_safe_iff Nat.two_pos (Or.inl rfl) hreach).mpr fun f hf => ?_, hstep, fun hsafe => ?_⟩
  · cases hcandidate.symm.trans hf
    rintro ⟨u, hu, hlatched⟩
    rw [hflushes, List.mem_singleton] at hu
    rw [hu] at hlatched
    cases hlatched
  · refine (claims_safe_iff Nat.two_pos (Or.inl rfl) (.tail hreach trivial hstep)).mp hsafe 0 hcandidate'
      ⟨⟨[1], some 0⟩, ?_, rfl⟩
    rw [hflushes']
    exact List.mem_singleton_self _

/-- A pool of one frame, free, with a flush reading it. -/
def flushing : Threads 1 (Fin 1) (PageId → Option (List UInt8)) :=
  ⟨(Pool.new (fun _ => none) ⟨0, Nat.one_pos⟩).setLatch ⟨0, Nat.one_pos⟩ (.readers 1), [], [⟨[], some ⟨0, Nat.one_pos⟩⟩]⟩

/-- `new_page` then pops the frame that the flush reads, and its `expect` fails. -/
theorem newPage_beside_flush : Reach (Session.mapDisk .standard) (clockEvictor Nat.one_pos) .standard (fun _ _ => True)
    (new (fun _ => none) 0) flushing ∧
    (flushing.pool.installPage (Session.mapDisk .standard) (clockEvictor Nat.one_pos) .standard Session.strayPage).1 =
    .error .panic := by
  constructor
  · have hflush : Reach (Session.mapDisk .standard) (clockEvictor Nat.one_pos) .standard (fun _ _ => True)
        (new (fun _ => none) 0 : Threads 1 (Fin 1) _) _ := .tail (e := .flushAll) (.refl _) trivial rfl
    exact .tail (e := .flushLatch ⟨[0], none⟩) hflush trivial rfl
  · rfl

/-! ## Guards keep their pages -/

/-- Pins and latches as in `Held`, and the tables: free frames hold no page, and a token's
    page is mapped to its frame. -/
structure Sound (s : Threads n σ δ) : Prop extends Held s where
  tables : s.pool.Consistent
  empty : ∀ f ∈ s.pool.freeFrames, (s.pool.frames f).page = none
  mapped : ∀ t ∈ s.tokens, s.pool.pageTable t.id = some t.frame

/-- A checkout that loads a page loads one of that id. -/
def Event.ReadsOwn (D : DiskManager δ) (E : EvictionPolicy n σ) (P : Platform) (s : Threads n σ δ) : Event n → Prop
  | .checkout _ id => Session.ReadsOwn D E P ⟨s.pool, []⟩ id
  | _ => True

/-- What leaves the ids of the pages, the tables, and the frames and ids of the tokens. -/
theorem Sound.congr (h : s.Sound) (hheld : s'.Held)
    (hpages : ∀ f, (s'.pool.frames f).page.map Page.pageId = (s.pool.frames f).page.map Page.pageId)
    (htable : s'.pool.pageTable = s.pool.pageTable) (hfree : s'.pool.freeFrames = s.pool.freeFrames)
    (htokens : ∀ t ∈ s'.tokens, s.pool.pageTable t.id = some t.frame) : s'.Sound where
  toHeld := hheld
  tables := h.tables.congr hpages htable hfree
  empty f hf := by
    have hpage := hpages f
    rw [h.empty f (hfree ▸ hf)] at hpage
    exact Option.map_eq_none_iff.mp hpage
  mapped t ht := by
    rw [htable]
    exact htokens t ht

theorem Sound.claimed (h : s.Sound) (hclaim : Pool.ClaimSpec D P s.pool (.ok f) b₁) : ∀ t ∈ s.tokens, t.frame ≠ f := by
  intro t ht he
  cases hclaim with
  | free split => exact h.taken t ht (by rw [split, he]; simp)
  | victim none_free unpinned unlatched holds flushed =>
    have hle := h.pinned f
    have hpos : 0 < s.pins f := List.countP_pos_iff.mpr ⟨t, ht, by simpa using he⟩
    omega

/-- A claim leaves the tokens mapped, and so does a page stored in the claimed frame. -/
theorem Sound.stored (h : s.Sound) (hclaim : Pool.ClaimSpec D P s.pool (.ok f) b₁) {page : Page} (dirty : Bool)
    (hid : page.pageId = id) (habsent : s.pool.pageTable id = none) (write : Bool) (stage : Stage) {b : Pool n σ δ}
    (hpages : ∀ g, (b.frames g).page = ((b₁.store f id page dirty).frames g).page)
    (htable : b.pageTable = (b₁.store f id page dirty).pageTable) (hfree : b.freeFrames = b₁.freeFrames)
    (hheld : (⟨b, ⟨f, id, write, stage⟩ :: s.tokens, s.flushes⟩ : Threads n σ δ).Held) :
    (⟨b, ⟨f, id, write, stage⟩ :: s.tokens, s.flushes⟩ : Threads n σ δ).Sound where
  toHeld := hheld
  tables := ((hclaim.loose h.tables).store hid (hclaim.absent habsent)).congr (fun g => by rw [hpages]) htable hfree
  empty g hg := by
    have hg₁ : g ∈ b₁.freeFrames := hfree ▸ hg
    obtain ⟨hf, -, hsub, -⟩ := claim_free h.toHeld hclaim
    have hgf : g ≠ f := fun he => hf (he ▸ hg₁)
    show (b.frames g).page = none
    rw [hpages, Pool.store_ne _ _ _ _ hgf, hclaim.frames]
    exact h.empty g (hsub g hg₁)
  mapped t ht := by
    show b.pageTable t.id = some t.frame
    rw [htable, Pool.store_pageTable]
    rcases List.mem_cons.mp ht with rfl | ht
    · exact Function.update_self _ _ _
    · have hmap := h.mapped t ht
      have hne : t.id ≠ id := by
        rintro rfl
        cases habsent.symm.trans hmap
      rw [Function.update_of_ne hne]
      exact hclaim.still_mapped h.tables hmap (h.claimed hclaim t ht)

theorem Sound.cached (h : s.Sound) (hmap : s.pool.pageTable id = some f) {write : Bool}
    (hheld : (⟨s.pool.pinFrame f, ⟨f, id, write, .pinned⟩ :: s.tokens, s.flushes⟩ : Threads n σ δ).Held) :
    (⟨s.pool.pinFrame f, ⟨f, id, write, .pinned⟩ :: s.tokens, s.flushes⟩ : Threads n σ δ).Sound := by
  refine h.congr hheld (fun g => ?_) rfl rfl fun t ht => ?_
  · show ((s.pool.pinFrame f).frames g).page.map Page.pageId = _
    by_cases hg : g = f
    · rw [hg, Pool.pinFrame_self]
    · rw [Pool.pinFrame_ne _ hg]
  · rcases List.mem_cons.mp ht with rfl | ht
    · exact hmap
    · exact h.mapped t ht

theorem checkout_sound (h : s.Sound) {write : Bool} (hown : Session.ReadsOwn D E P ⟨s.pool, []⟩ id)
    (hstep : s.step D E P (.checkout write id) = some s') : s'.Sound := by
  have hheld := checkout_held h.toHeld hstep
  simp only [step] at hstep
  rcases hcheck : s.pool.checkoutPage D E P id with ⟨r, b⟩
  rw [hcheck] at hstep
  have failed {e : Fail BpmError} (hr : r = .error e) (hframes : b.frames = s.pool.frames)
      (htables : b.pageTable = s.pool.pageTable ∧ b.freeFrames = s.pool.freeFrames) : s'.Sound := by
    subst hr
    cases e <;> cases hstep <;> exact h.congr hheld (fun g => by rw [hframes]) htables.1 htables.2 h.mapped
  cases Pool.checkoutPage_spec hcheck with
  | cached mapped =>
    cases hstep
    exact h.cached mapped hheld
  | unread absent hread => exact failed rfl rfl ⟨rfl, rfl⟩
  | unclaimed absent hread claimed => exact failed rfl claimed.frames claimed.error
  | latched absent hread claimed latched => cases hstep
  | @loaded raw page disk f b₁ absent hread decoded claimed unlatched =>
    cases hstep
    have hid := hown absent raw disk page hread decoded (Session.claim_of_checkout absent hread decoded hcheck)
    have hread : ({ s with pool := { s.pool with disk := disk } } : Threads n σ δ).Sound :=
      h.congr (h.toHeld.congr (fun _ => rfl) (fun _ => rfl) rfl rfl) (fun _ => rfl) rfl rfl h.mapped
    refine hread.stored claimed false hid absent write .pinned (fun g => ?_) rfl rfl hheld
    by_cases hg : g = f
    · rw [hg, Pool.pinFrame_self]
    · rw [Pool.pinFrame_ne _ hg]

theorem newPage_sound (h : s.Sound) {page : Page} (hstep : s.step D E P (.newPage page) = some s') : s'.Sound := by
  have hheld := newPage_held h.toHeld hstep
  simp only [step] at hstep
  rcases hinstall : s.pool.installPage D E P page with ⟨r, b⟩
  rw [hinstall] at hstep
  have failed {e : Fail BpmError} (hr : r = .error e) (hframes : b.frames = s.pool.frames)
      (htables : b.pageTable = s.pool.pageTable ∧ b.freeFrames = s.pool.freeFrames) : s'.Sound := by
    subst hr
    cases e <;> cases hstep <;> exact h.congr hheld (fun g => by rw [hframes]) htables.1 htables.2 h.mapped
  cases Pool.installPage_spec hinstall with
  | present mapped => exact failed rfl rfl ⟨rfl, rfl⟩
  | unclaimed absent claimed => exact failed rfl claimed.frames claimed.error
  | latched absent claimed latched => cases hstep
  | @installed f b₁ absent claimed unlatched =>
    cases hstep
    refine h.stored claimed true rfl absent true .live (fun g => ?_) rfl rfl hheld
    by_cases hg : g = f
    · rw [hg, Pool.pinFrame_self, Pool.setLatch_self]
    · rw [Pool.pinFrame_ne _ hg, Pool.setLatch_ne _ _ hg]

theorem setLatch_page (b : Pool n σ δ) (f g : Fin n) (latch : Latch) :
    ((b.setLatch f latch).frames g).page = (b.frames g).page := by
  by_cases hg : g = f
  · rw [hg, Pool.setLatch_self]
  · rw [Pool.setLatch_ne _ _ hg]

theorem step_sound (h : s.Sound) {e : Event n} (hown : e.ReadsOwn D E P s) (hstep : s.step D E P e = some s') :
    s'.Sound := by
  have hheld := step_held h.toHeld hstep
  cases step_spec hstep with
  | checkout pinned => exact checkout_sound h hown pinned
  | newPage pinned => exact newPage_sound h pinned
  | @latch t latch stage taken pinned acquired holds =>
    refine h.congr hheld (fun g => congrArg _ (setLatch_page _ _ g _)) rfl rfl fun x hx => ?_
    rcases List.mem_cons.mp hx with rfl | hx
    · exact h.mapped t taken
    · exact h.mapped x (List.mem_of_mem_erase hx)
  | @put t page taken live write same =>
    refine h.congr hheld (fun g => ?_) rfl rfl h.mapped
    show ((s.pool.setFrame t.frame _).frames g).page.map Page.pageId = _
    by_cases hg : g = t.frame
    · rw [hg, Pool.setFrame_self, same]
      rfl
    · rw [Pool.setFrame_ne _ _ hg]
  | @unlatch t _ taken holds given =>
    rcases given with rfl | rfl
    · refine h.congr hheld (fun g => congrArg _ (setLatch_page _ _ g _)) rfl rfl fun x hx => ?_
      rcases List.mem_cons.mp hx with rfl | hx
      · exact h.mapped t taken
      · exact h.mapped x (List.mem_of_mem_erase hx)
    · exact h.congr hheld (fun g => congrArg _ (setLatch_page _ _ g _)) rfl rfl fun x hx =>
        h.mapped x (List.mem_of_mem_erase hx)
  | @unpin t taken released =>
    refine h.congr hheld (fun g => ?_) rfl rfl fun x hx => h.mapped x (List.mem_of_mem_erase hx)
    show ((s.pool.unpinFrame t.frame).frames g).page.map Page.pageId = _
    by_cases hg : g = t.frame
    · rw [hg, Pool.unpinFrame_self]
    · rw [Pool.unpinFrame_ne _ hg]
  | flushAll => exact h.congr hheld (fun _ => rfl) rfl rfl h.mapped
  | flushLatch taken unlatched acquired => exact h.congr hheld (fun g => congrArg _ (setLatch_page _ _ g _)) rfl rfl h.mapped
  | flushFrame taken latched flushed given =>
    obtain ⟨htable, hfree, hframes⟩ := (Pool.flushFrame_spec flushed).1.same
    refine h.congr hheld (fun g => congrArg _ ?_) htable hfree h.mapped
    exact (setLatch_page _ _ g _).trans (hframes g).1
  | flushSync taken unlatched => exact h.congr hheld (fun _ => rfl) rfl rfl h.mapped

theorem new_sound (disk : δ) (policy : σ) : (new disk policy : Threads n σ δ).Sound where
  toHeld := new_held disk policy
  tables := (Session.new_sound disk policy).tables
  empty f hf := rfl
  mapped t ht := by cases ht

theorem Reach.sound (h : s.Sound) (hreach : Reach D E P (fun s e => e.ReadsOwn D E P s) s s') : s'.Sound := by
  induction hreach with
  | refl => exact h
  | tail before meets step ih => exact step_sound ih meets step

/-- Beside the guard of a writer there is no other on its frame. -/
theorem Held.alone (h : s.Held) {t' : Token n} (ht : t ∈ s.tokens) (hlive : t.stage = .live) (hwrite : t.write = true)
    (ht' : t' ∈ s.tokens.erase t) (hlive' : t'.stage = .live) : t'.frame ≠ t.frame := by
  intro hframe
  have hwriters := countP_erase ht fun t₀ => t₀.frame = t.frame ∧ t₀.write = true ∧ t₀.stage.holds = true
  simp only [hwrite, hlive, Stage.holds_live, and_self, decide_true, if_true] at hwriters
  obtain ⟨hone, hnone⟩ := h.exclusive t.frame (Nat.lt_of_lt_of_eq (Nat.succ_pos _) hwriters)
  have hzero := Nat.succ_inj.mp (hwriters.trans hone)
  cases hw : t'.write with
  | true => exact absurd (List.countP_eq_zero.mp hzero t' ht') (by simp [hframe, hw, hlive'])
  | false =>
    have hreaders := (Nat.add_eq_zero_iff.mp hnone).1
    exact absurd (List.countP_eq_zero.mp hreaders t' (List.mem_of_mem_erase ht')) (by simp [hframe, hw, hlive'])

/-- The page of a guard's frame changes through that guard only. -/
theorem Sound.page_kept (h : s.Sound) (ht : t ∈ s.tokens) (hlive : t.stage = .live) {e : Event n}
    (hput : ∀ page, e ≠ .put t page) (hstep : s.step D E P e = some s') :
    (s'.pool.frames t.frame).page = (s.pool.frames t.frame).page := by
  have pinned {write : Bool} {stage : Stage} {r : Except (Fail BpmError) (Fin n)} {id : PageId} {b : Pool n σ δ}
      (hb : (b.frames t.frame).page = (s.pool.frames t.frame).page) (hpin : s.pin id write stage (r, b) = some s') :
      (s'.pool.frames t.frame).page = (s.pool.frames t.frame).page := by
    cases r with
    | ok f =>
      cases hpin
      exact hb
    | error e =>
      cases e <;> cases hpin <;> exact hb
  cases step_spec hstep with
  | @checkout write id _ hpin =>
    rcases hcheck : s.pool.checkoutPage D E P id with ⟨r, b⟩
    rw [hcheck] at hpin
    refine pinned ?_ hpin
    cases Pool.checkoutPage_spec hcheck with
    | @cached f mapped =>
      by_cases hf : t.frame = f
      · rw [hf, Pool.pinFrame_self]
      · rw [Pool.pinFrame_ne _ hf]
    | unread absent hread => rfl
    | unclaimed absent hread claimed => rw [claimed.frames]
    | latched absent hread claimed latched => rw [claimed.frames]
    | @loaded raw page disk f b₁ absent hread decoded claimed unlatched =>
      have hdisk : ({ s with pool := { s.pool with disk := disk } } : Threads n σ δ).Sound :=
        h.congr (h.toHeld.congr (fun _ => rfl) (fun _ => rfl) rfl rfl) (fun _ => rfl) rfl rfl h.mapped
      have hne := hdisk.claimed claimed t ht
      rw [Pool.pinFrame_ne _ hne, Pool.store_ne _ _ _ _ hne, claimed.frames]
  | @newPage page _ hpin =>
    rcases hinstall : s.pool.installPage D E P page with ⟨r, b⟩
    rw [hinstall] at hpin
    refine pinned ?_ hpin
    cases Pool.installPage_spec hinstall with
    | present mapped => rfl
    | unclaimed absent claimed => rw [claimed.frames]
    | latched absent claimed latched => rw [claimed.frames]
    | @installed f b₁ absent claimed unlatched =>
      have hne := h.claimed claimed t ht
      rw [Pool.pinFrame_ne _ hne, Pool.setLatch_ne _ _ hne, Pool.store_ne _ _ _ _ hne, claimed.frames]
  | latch taken pinned acquired holds => exact setLatch_page _ _ _ _
  | @put t' page taken live write same =>
    have hne : t ≠ t' := fun he => hput page (he ▸ rfl)
    have hframe := h.toHeld.alone taken live write ((List.mem_erase_of_ne hne).mpr ht) hlive
    show ((s.pool.setFrame t'.frame _).frames t.frame).page = _
    rw [Pool.setFrame_ne _ _ hframe]
  | unlatch taken holds given =>
    rcases given with rfl | rfl
    · exact setLatch_page _ _ _ _
    · exact setLatch_page _ _ _ _
  | @unpin t' taken released =>
    show ((s.pool.unpinFrame t'.frame).frames t.frame).page = _
    by_cases hframe : t.frame = t'.frame
    · rw [hframe, Pool.unpinFrame_self]
    · rw [Pool.unpinFrame_ne _ hframe]
  | flushAll => rfl
  | flushLatch taken unlatched acquired => exact setLatch_page _ _ _ _
  | flushFrame taken latched flushed given =>
    obtain ⟨htable, hfree, hframes⟩ := (Pool.flushFrame_spec flushed).1.same
    exact (setLatch_page _ _ _ _).trans (hframes _).1
  | flushSync taken unlatched => rfl

/-- What the guards of a state are worth: a guard's frame holds its page, mapped, no claim
    takes the frame and no step but a change through the guard alters the page; a writer's
    guard is the only one on its page; no two frames hold one page id. -/
structure Guarded (D : DiskManager δ) (E : EvictionPolicy n σ) (P : Platform) (s : Threads n σ δ) : Prop where
  page : ∀ t ∈ s.tokens, t.stage = .live →
    s.pool.pageTable t.id = some t.frame ∧ ∃ page, (s.pool.frames t.frame).page = some page ∧ page.pageId = t.id
  unclaimed : ∀ t ∈ s.tokens, t.stage = .live → ∀ {disk : δ} {f : Fin n} {b : Pool n σ δ},
    Pool.claimFrame D E P { s.pool with disk := disk } = (.ok f, b) → f ≠ t.frame
  kept : ∀ t ∈ s.tokens, t.stage = .live → ∀ {e : Event n} {s' : Threads n σ δ}, (∀ page, e ≠ .put t page) →
    s.step D E P e = some s' → (s'.pool.frames t.frame).page = (s.pool.frames t.frame).page
  exclusive : ∀ t ∈ s.tokens, ∀ t' ∈ s.tokens.erase t, t.stage = .live → t'.stage = .live → t.write = true → t'.id ≠ t.id
  unique : ∀ {f g : Fin n} {page page' : Page}, (s.pool.frames f).page = some page → (s.pool.frames g).page = some page' →
    page.pageId = page'.pageId → f = g

/-- A page is mapped to the frame that holds it. -/
theorem Sound.holds (h : s.Sound) {page : Page} (hpage : (s.pool.frames f).page = some page) :
    s.pool.pageTable page.pageId = some f := by
  rcases h.tables.covered f with hfree | ⟨id, hmap⟩
  · cases (h.empty f hfree).symm.trans hpage
  · obtain ⟨page', hp, rfl⟩ := h.tables.mapped hmap
    cases hpage.symm.trans hp
    exact hmap

theorem Sound.guarded (h : s.Sound) : s.Guarded D E P where
  page t ht _ := ⟨h.mapped t ht, h.tables.mapped (h.mapped t ht)⟩
  unclaimed t ht _ {disk f b} hclaim := by
    have hdisk : ({ s with pool := { s.pool with disk := disk } } : Threads n σ δ).Sound :=
      h.congr (h.toHeld.congr (fun _ => rfl) (fun _ => rfl) rfl rfl) (fun _ => rfl) rfl rfl h.mapped
    exact (hdisk.claimed (Pool.claimFrame_spec hclaim) t ht).symm
  kept t ht hlive {e s'} hput hstep := h.page_kept ht hlive hput hstep
  exclusive t ht t' ht' hlive hlive' hwrite hid := by
    have hmap := h.mapped t' (List.mem_of_mem_erase ht')
    rw [hid, h.mapped t ht] at hmap
    exact h.toHeld.alone ht hlive hwrite ht' hlive' (Option.some.inj hmap).symm
  unique hf hg hid := by
    have hmap := h.holds hf
    rw [hid, h.holds hg] at hmap
    exact (Option.some.inj hmap).symm

/-- In every state that any interleaving reaches from a new pool. -/
theorem guards_keep_pages {disk : δ} {policy : σ}
    (hreach : Reach D E P (fun s e => e.ReadsOwn D E P s) (new disk policy) s) : s.Guarded D E P :=
  (hreach.sound (new_sound disk policy)).guarded

end

/-- The page is left to the reader that waits for it; another one is created and left but for its
    pin, and a flush reads its frame. -/
def readerEvents : List (Event 2) :=
  let one : Fin 2 := ⟨1, Nat.one_lt_two⟩
  let zero : Fin 2 := ⟨0, Nat.two_pos⟩
  [.newPage Session.otherPage, .flushAll, .unlatch ⟨one, Session.strayPage.pageId, true, .live⟩,
    .latch ⟨one, Session.strayPage.pageId, false, .pinned⟩, .unlatch ⟨zero, Session.otherPage.pageId, true, .live⟩,
    .flushLatch ⟨[zero, one], none⟩]

/-- A page is created, and a reader waits for it. -/
theorem beside_reached : ∃ s : Threads 2 (Fin 2) (PageId → Option (List UInt8)),
    Reach (Session.mapDisk .standard) (replacer Nat.two_pos) .standard
      (fun s e => e.ReadsOwn (Session.mapDisk .standard) (replacer Nat.two_pos) .standard s) (new (fun _ => none) 0) s ∧
    s.tokens = [⟨0, Session.otherPage.pageId, true, .released⟩, ⟨1, Session.strayPage.pageId, false, .live⟩,
      ⟨1, Session.strayPage.pageId, true, .released⟩] ∧
    s.flushes = [⟨[1], some 0⟩] := by
  have hcreated : Reach (Session.mapDisk .standard) (replacer Nat.two_pos) .standard
      (fun s e => e.ReadsOwn (Session.mapDisk .standard) (replacer Nat.two_pos) .standard s)
      (new (fun _ => none) 0 : Threads 2 (Fin 2) (PageId → Option (List UInt8))) _ :=
    .tail (e := .newPage Session.strayPage) (.refl _) trivial rfl
  have hwaits := Reach.tail (e := .checkout false Session.strayPage.pageId) hcreated (fun habsent => by cases habsent) rfl
  have hmeets : ∀ e ∈ readerEvents, ∀ s, e.ReadsOwn (Session.mapDisk .standard) (replacer Nat.two_pos) .standard s := by
    simp [readerEvents, Event.ReadsOwn]
  exact ⟨_, hwaits.run hmeets rfl, rfl, rfl⟩

theorem guards_keep_pages_beside : ∃ s : Threads 2 (Fin 2) (PageId → Option (List UInt8)),
    s.tokens.length = 3 ∧ s.flushes = [⟨[1], some 0⟩] ∧
    s.Guarded (Session.mapDisk .standard) (replacer Nat.two_pos) .standard := by
  obtain ⟨s, hreach, htokens, hflushes⟩ := beside_reached
  exact ⟨s, congrArg List.length htokens, hflushes, guards_keep_pages hreach⟩

end Threads

end Bpm

end RustDb
