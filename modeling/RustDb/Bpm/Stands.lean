/-
  RustDb.Bpm.Stands — a call over the buffer pool, its frames, its evictions and its disk, is a
  call over a world that may fail.

  A session of the pool stands for a world (`Stands`) when its tables are sound, the pages that
  it and its disk hold are the world's and so are its latches. `Answers` is what is asked of a
  run: the pool does not panic, a page that is written has no more fields and no longer column
  names than the codec reads back, and a swap of the file does not fail.
  - `serve_stands`: a request that the pool answers is one that the world answers alike, or one
    that the pool failed and that changed nothing.
  - `run_stands`: the same of a whole run, for some failures of the pool along it.
-/

import RustDb.Bpm.Serve
import RustDb.Calls
import RustDb.Allocate

namespace RustDb

open Lib Lib.Prog

/-! ## Failures along a run -/

section
variable {faults faults' : Nat → Option BpmError} {w w' : World} {n n' : Nat} {α : Type}

theorem PoolOp.failure_never {o : PoolOp} (h : ¬ o.fallible) (e : BpmError) : o.failure e = none := by
  cases o with
  | put _ | drop _ | unwind => rfl
  | fetchRead _ | fetchWrite _ | newPage _ | flushAll | swapFile _ => exact absurd rfl h

/-- Only the failures still to come matter. -/
theorem faulty_congr {p : Prog PoolOp PoolOp.Res α} (h : ∀ i, n ≤ i → faults i = faults' i) :
    p.run (World.faulty faults) (w, n) = p.run (World.faulty faults') (w, n) := by
  induction p generalizing w n with
  | ret a => rfl
  | op o k ih =>
    have hstep : World.faulty faults o (w, n) = World.faulty faults' o (w, n) := by
      simp only [World.faulty, h n le_rfl]
    simp only [Prog.run, hstep]
    rcases hserve : World.faulty faults' o (w, n) with _ | ⟨r, w₁, n₁⟩
    · rfl
    · refine ih r fun i hi => h i (le_trans ?_ hi)
      rcases hno : (faults' n).bind o.failure with _ | r'
      · simp only [World.faulty, hno, Option.map_eq_some_iff] at hserve
        obtain ⟨x, -, heq⟩ := hserve
        cases heq
        split <;> omega
      · rw [faulty_fails hno] at hserve
        cases hserve
        omega

/-- A run whose requests are each served by the world or failed, from any state that stands for
    the world, is a run under some failures. -/
theorem ends_of_served {S : Type} {H : Handler PoolOp PoolOp.Res S} {R : S → World → Prop}
    {meets : (o : PoolOp) → o.Res → Prop}
    (hserve : ∀ {o s w r s'}, R s w → meets o r → H o s = some (r, s') →
      (∃ w', World.step o w = some (r, w') ∧ R s' w') ∨ ∃ e, o.failure e = some r ∧ R s' w)
    {p : Prog PoolOp PoolOp.Res α} {s s' : S} {a : α} (hs : R s w) (hp : p.Along H meets s)
    (hrun : p.run H s = some (a, s')) :
    ∃ faults w' n', p.run (World.faulty faults) (w, n) = some (a, w', n') ∧ R s' w' := by
  induction p generalizing s w n with
  | ret b =>
    cases hrun
    exact ⟨fun _ => none, w, n, rfl, hs⟩
  | op o k ih =>
    simp only [Prog.run] at hrun
    rcases ho : H o s with _ | ⟨r, s₁⟩
    · simp [ho] at hrun
    · simp only [ho] at hrun
      obtain ⟨hr, hk⟩ := hp r s₁ ho
      -- the failure of this request, then those of the rest
      have cons (x : Option BpmError) (faults : Nat → Option BpmError) : ∃ faults' : Nat → Option BpmError,
          faults' n = x ∧ ∀ i, n + 1 ≤ i → faults' i = faults i :=
        ⟨fun i => if i = n then x else faults i, if_pos rfl, fun i hi => if_neg (by omega)⟩
      rcases hserve hs hr ho with ⟨w₁, hstep, hs₁⟩ | ⟨e, hfail, hs₁⟩
      · obtain ⟨faults, w', n', hrest, hs'⟩ := @ih r w₁ (if o.fallible then n + 1 else n) s₁ hs₁ hk hrun
        by_cases hf : o.fallible
        · obtain ⟨faults', hnow, hlater⟩ := cons none faults
          have hno : (faults' n).bind o.failure = none := by rw [hnow]; rfl
          rw [if_pos hf] at hrest
          refine ⟨faults', w', n', ?_, hs'⟩
          simp only [Prog.run, faulty_serves hno hstep, if_pos hf]
          rw [faulty_congr hlater, hrest]
        · have hno : (faults n).bind o.failure = none := failure_none fun e => PoolOp.failure_never hf e
          exact ⟨faults, w', n', by simp only [Prog.run, faulty_serves hno hstep, hrest], hs'⟩
      · obtain ⟨faults, w', n', hrest, hs'⟩ := @ih r w (n + 1) s₁ hs₁ hk hrun
        obtain ⟨faults', hnow, hlater⟩ := cons (some e) faults
        have hno : (faults' n).bind o.failure = some r := by rw [hnow]; exact hfail
        refine ⟨faults', w', n', ?_, hs'⟩
        simp only [Prog.run, faulty_fails hno]
        rw [faulty_congr hlater, hrest]

end

namespace Bpm

variable {n : Nat} {τ δ : Type}

/-! ## The latch of a page -/

/-- The latch on the page of an id; a page that is not cached has none. -/
def Pool.latchOf (b : Pool n τ δ) (id : PageId) : Latch :=
  match b.pageTable id with
  | some f => (b.frames f).latch
  | none => .readers 0

section
variable {D : DiskManager δ} {E : EvictionPolicy n τ} {P : Platform} {b b' b₁ : Pool n τ δ} {f : Fin n} {id : PageId}

theorem Pool.latchOf_mapped (h : b.pageTable id = some f) : b.latchOf id = (b.frames f).latch := by
  simp only [latchOf, h]

theorem Pool.latchOf_absent (h : b.pageTable id = none) : b.latchOf id = .readers 0 := by
  simp only [latchOf, h]

theorem Pool.latchOf_congr (htable : b'.pageTable = b.pageTable) (hlatch : ∀ f, (b'.frames f).latch = (b.frames f).latch) :
    b'.latchOf = b.latchOf := by
  funext id
  simp only [latchOf, htable, hlatch]

theorem Pool.pinFrame_latch (b : Pool n τ δ) (f g : Fin n) : ((b.pinFrame f).frames g).latch = (b.frames g).latch := by
  by_cases hg : g = f
  · rw [hg, Pool.pinFrame_self]
  · rw [Pool.pinFrame_ne _ hg]

theorem Pool.unpinFrame_latch (b : Pool n τ δ) (f g : Fin n) : ((b.unpinFrame f).frames g).latch = (b.frames g).latch := by
  by_cases hg : g = f
  · rw [hg, Pool.unpinFrame_self]
  · rw [Pool.unpinFrame_ne _ hg]

/-- A latch set on the frame of one page. -/
theorem Pool.setLatch_latchOf (hmap : b.pageTable id = some f) (hinj : ∀ id', b.pageTable id' = some f → id' = id)
    (l : Latch) : (b.setLatch f l).latchOf = fun x => if x = id then l else b.latchOf x := by
  funext x
  by_cases hx : x = id
  · rw [if_pos hx, Pool.latchOf_mapped (f := f) (by rw [hx]; exact hmap), Pool.setLatch_self]
  · rw [if_neg hx]
    rcases hxm : b.pageTable x with _ | g
    · rw [Pool.latchOf_absent hxm]
      exact Pool.latchOf_absent hxm
    · have hg : g ≠ f := fun he => hx (hinj x (he ▸ hxm))
      rw [Pool.latchOf_mapped hxm, Pool.latchOf_mapped (b := b.setLatch f l) hxm, Pool.setLatch_ne _ _ hg]

/-- A page put into a frame without a latch, under an id that was not cached. -/
theorem Pool.store_latchOf {page : Page} {dirty : Bool} (habsent : b.pageTable id = none)
    (hunmapped : ∀ id', b.pageTable id' ≠ some f) (hlatch : (b.frames f).latch = .readers 0) :
    (b.store f id page dirty).latchOf = b.latchOf := by
  funext x
  by_cases hx : x = id
  · subst hx
    rw [Pool.latchOf_absent habsent, Pool.latchOf_mapped (f := f) (by rw [Pool.store_pageTable, Function.update_self]),
      Pool.store_self]
    exact hlatch
  · have htable : (b.store f id page dirty).pageTable x = b.pageTable x := Function.update_of_ne hx _ _
    rcases hxm : b.pageTable x with _ | g
    · rw [Pool.latchOf_absent hxm, Pool.latchOf_absent (htable.trans hxm)]
    · have hg : g ≠ f := fun he => hunmapped x (he ▸ hxm)
      rw [Pool.latchOf_mapped hxm, Pool.latchOf_mapped (htable.trans hxm), Pool.store_ne _ _ _ _ hg]

/-- Only a page without a latch is evicted. -/
theorem Pool.ClaimSpec.latchOf (hb : b.Consistent) (hempty : ∀ f ∈ b.freeFrames, (b.frames f).page = none)
    (h : Pool.ClaimSpec D P b (.ok f) b₁) : b₁.latchOf = b.latchOf := by
  cases h with
  | free split => rfl
  | @victim _ page policy referenced disk none_free unpinned unlatched holds flushed =>
    have hmap := hb.mapped_of_page hempty holds
    funext x
    by_cases hx : x = page.pageId
    · rw [hx, Pool.latchOf_mapped hmap, unlatched]
      exact Pool.latchOf_absent (Function.update_self _ _ _)
    · simp only [Pool.latchOf, Function.update_of_ne hx]

/-- A page checked out is cached, and no latch has changed. -/
theorem checkout_latchOf (hb : b.Consistent) (hempty : ∀ f ∈ b.freeFrames, (b.frames f).page = none)
    (hcheck : b.checkoutPage D E P id = (.ok f, b')) : b'.latchOf = b.latchOf ∧ b'.pageTable id = some f := by
  cases Pool.checkoutPage_spec hcheck with
  | cached mapped => exact ⟨Pool.latchOf_congr rfl fun g => b.pinFrame_latch f g, mapped⟩
  | @loaded raw page disk f b₁ absent read decoded claimed unlatched =>
    have hb₀ : ({ b with disk := disk } : Pool n τ δ).Consistent := hb.congr (fun _ => rfl) rfl rfl
    have hloose := claimed.loose hb₀
    refine ⟨?_, Function.update_self _ _ _⟩
    calc ((b₁.store f id page false).pinFrame f).latchOf
      _ = (b₁.store f id page false).latchOf := Pool.latchOf_congr rfl fun g => Pool.pinFrame_latch _ f g
      _ = b₁.latchOf := Pool.store_latchOf (claimed.absent absent) hloose.not_mapped unlatched
      _ = ({ b with disk := disk } : Pool n τ δ).latchOf := claimed.latchOf hb₀ hempty

/-- A page just created is latched for writing, and no other latch has changed. -/
theorem install_latchOf (hb : b.Consistent) (hempty : ∀ f ∈ b.freeFrames, (b.frames f).page = none) {page : Page}
    (hinstall : b.installPage D E P page = (.ok f, b')) :
    b'.latchOf = (fun x => if x = page.pageId then .write else b.latchOf x) ∧ b.latchOf page.pageId = .readers 0 := by
  cases Pool.installPage_spec hinstall with
  | @installed f b₁ absent claimed unlatched =>
    have hloose := claimed.loose hb
    refine ⟨?_, Pool.latchOf_absent absent⟩
    have hstore : (b₁.store f page.pageId page true).latchOf = b.latchOf :=
      (Pool.store_latchOf (claimed.absent absent) hloose.not_mapped unlatched).trans (claimed.latchOf hb hempty)
    have hinj (id' : PageId) (hid : (b₁.store f page.pageId page true).pageTable id' = some f) : id' = page.pageId := by
      by_contra hne
      rw [Pool.store_pageTable, Function.update_of_ne hne] at hid
      exact hloose.not_mapped id' hid
    have hpin : (((b₁.store f page.pageId page true).setLatch f .write).pinFrame f).latchOf =
        ((b₁.store f page.pageId page true).setLatch f .write).latchOf :=
      Pool.latchOf_congr rfl fun g => Pool.pinFrame_latch _ f g
    rw [hpin, Pool.setLatch_latchOf (Function.update_self _ _ _) hinj, hstore]

end

/-! ## A session that stands for a world -/

/-- The disk holds the pages, encoded, and no other that can be read. -/
def Stores (P : Platform) (disk : PageId → Option (List UInt8)) (pages : List Page) : Prop := ∀ id,
  match (Store.ofPages pages).page id with
  | some page => ∃ raw, page.asRawPage P = .ok raw ∧ disk id = some raw
  | none => diskPage P disk id = none

/-- A file swapped in holds its pages and no others. -/
def DiskManager.Swaps (D : DiskManager δ) (P : Platform) (content : δ → PageId → Option (List UInt8)) : Prop :=
  ∀ {pages : List Page} {d d' : δ}, D.swapFile pages d = (.ok (), d') → Stores P (content d') pages

namespace Session

structure Stands (P : Platform) (content : δ → PageId → Option (List UInt8)) (s : Session n τ δ) (w : World) :
    Prop where
  sound : s.Sound
  pages : Mirror P content s.pool w.store.page
  latches : s.pool.latchOf = w.latch

/-- The pool answers, and it does not panic; the fields of what is written fit, and a swap of the
    file does not fail. -/
def Answers : (o : PoolOp) → o.Res → Prop
  | .fetchRead _, r | .fetchWrite _, r => Answered (fun _ => True) r
  | .newPage page, r => Page.FieldsFit page.body ∧ Answered (fun _ => True) r
  | .put page, _ => Page.FieldsFit page.body
  | .flushAll, r => Answered (fun _ => True) r
  | .swapFile pages, r => (∀ page ∈ pages, Page.FieldsFit page.body) ∧ r = .ok ()
  | .drop _, _ | .unwind, _ => True

theorem roundTrips_of_fits {P : Platform} {page : Page} (h : Page.FieldsFit page.body) : RoundTrips P page := by
  intro raw hraw
  obtain ⟨raw', hraw', hlen, hback⟩ := Page.roundtrip (P := P) (show pageSize ≤ isizeMax by decide)
    ⟨Page.valid_of_asRawPage hraw, h⟩
  cases hraw.symm.trans hraw'
  rw [Page.deserialize_eq hlen, hback]

section
variable {D : DiskManager δ} {E : EvictionPolicy n τ} {P : Platform} {content : δ → PageId → Option (List UInt8)}
  {s s' : Session n τ δ} {w : World} {f : Fin n} {id : PageId}

theorem Stands.latch (h : Stands P content s w) (hmap : s.pool.pageTable id = some f) :
    w.latch id = heldLatch s.guards f := by
  rw [← h.latches, Pool.latchOf_mapped hmap, h.sound.latches]

/-- A request that fails. -/
theorem Stands.kept (h : Stands P content s w) (hsound : s'.Sound) (hkept : s.pool.Kept content s'.pool)
    (hguards : s'.guards = s.guards) : Stands P content s' w where
  sound := hsound
  pages := h.pages.kept hkept
  latches := by
    rw [← h.latches]
    exact Pool.latchOf_congr hkept.table fun f => by rw [hsound.latches, h.sound.latches, hguards]

/-- Where no guard is held no page is latched, and the other way round. -/
theorem Stands.idle_iff (h : Stands P content s w) : w = .idle w.store ↔ s.guards = [] := by
  constructor
  · intro hw
    rw [List.eq_nil_iff_forall_not_mem]
    intro g hg
    obtain ⟨page, -, hmap⟩ := h.sound.guarded hg
    have hlatch := h.latch hmap
    have hpos := guardsOn_pos hg
    rw [hw] at hlatch
    by_cases hwrite : ⟨g.frame, true⟩ ∈ s.guards
    · rw [heldLatch, if_pos hwrite] at hlatch
      cases hlatch
    · rw [heldLatch, if_neg hwrite] at hlatch
      have hzero : 0 = guardsOn s.guards g.frame := Latch.readers.inj hlatch
      omega
  · intro hg
    have hlatch : w.latch = fun _ => .readers 0 := by
      rw [← h.latches]
      funext id
      rcases hmap : s.pool.pageTable id with _ | f
      · exact Pool.latchOf_absent hmap
      · rw [Pool.latchOf_mapped hmap, h.sound.latches, hg]
        rfl
    rcases w with ⟨σ, latch⟩
    cases hlatch
    rfl

/-- A fetch: the page of the world under a new guard, or a failure. -/
theorem fetch_stands (hD : D.Lawful P content) (h : Stands P content s w) {write : Bool} {r : Answer n}
    (hfetch : s.fetch D E P write id = some (r, s')) :
    (∃ f page latch, r = .ok (some f) ∧ (s'.pool.frames f).page = some page ∧ w.store.page id = some page ∧
      Latch.acquire write (w.latch id) = some latch ∧ Stands P content s' (w.setLatch id latch)) ∨
    ∃ e, r = .error e ∧ Stands P content s' w := by
  have hsound := fetch_sound h.sound (reads_own hD h.pages id) hfetch
  cases r with
  | error e =>
    obtain ⟨-, hkept⟩ := fetch_error hD h.sound h.pages hfetch
    exact Or.inr ⟨e, rfl, h.kept hsound hkept (fetch_error_guards hfetch)⟩
  | ok guard =>
    obtain ⟨hmirror, hpage⟩ := fetch_mirror hD h.sound h.pages hfetch
    obtain ⟨f, b, latch, hcheck, rfl, rfl⟩ := fetch_ok hfetch
    obtain ⟨page, hid, hp⟩ := hpage f rfl
    obtain ⟨hlatch, hmap⟩ := checkout_latchOf h.sound.tables h.pages.empty hcheck
    have hacquire : Latch.acquire write (w.latch id) = some latch := by
      rw [← h.latches, ← hlatch, Pool.latchOf_mapped hmap]
      simp only [fetch, hcheck] at hfetch
      rcases hacq : Latch.acquire write (b.frames f).latch with _ | l
      · rw [hacq] at hfetch
        cases hfetch
      · rw [hacq] at hfetch
        rcases hwrong : (b.frames f).page.filter fun page => page.pageId ≠ id with _ | q
        · rw [hwrong] at hfetch
          have heq := congrArg (fun x => (x.2.pool.frames f).latch) (Option.some.inj hfetch)
          simp only [Pool.setLatch_self] at heq
          rw [heq]
        · rw [hwrong] at hfetch
          cases hfetch
    refine Or.inl ⟨f, page, latch, rfl, hp, hid, hacquire, hsound, hmirror, ?_⟩
    have hinj : ∀ id', b.pageTable id' = some f → id' = id := fun id' hid' => hsound.tables.inj hid' hmap
    rw [show (b.setLatch f latch).latchOf = _ from Pool.setLatch_latchOf hmap hinj latch, hlatch, h.latches]
    rfl

theorem serve_fetch {write : Bool} (hD : D.Lawful P content) (h : Stands P content s w) {r : Except (Fail BpmError) Page}
    (hserve : (s.fetch D E P write id).map (fun x => (x.2.answer x.1, x.2)) = some (r, s'))
    (hcalm : Answered (fun _ => True) r) :
    (∃ page latch, r = .ok page ∧ w.store.page id = some page ∧ Latch.acquire write (w.latch id) = some latch ∧
      Stands P content s' (w.setLatch id latch)) ∨
    ∃ e, r = .error (.err e) ∧ Stands P content s' w := by
  obtain ⟨⟨r₁, s₁⟩, hfetch, heq⟩ := Option.map_eq_some_iff.mp hserve
  cases heq
  rcases fetch_stands hD h hfetch with ⟨f, page, latch, rfl, hp, hid, hacquire, hs'⟩ | ⟨e, rfl, hs'⟩
  · refine Or.inl ⟨page, latch, ?_, hid, hacquire, hs'⟩
    simp only [answer, Option.bind_some, hp]
  · obtain ⟨e', he⟩ := hcalm
    cases he
    exact Or.inr ⟨e', rfl, hs'⟩

theorem newPage_stands (hD : D.Lawful P content) (h : Stands P content s w) {page : Page} (htrip : RoundTrips P page)
    {r : Answer n} (hnew : s.newPage D E P page = (r, s')) :
    (∃ f, r = .ok (some f) ∧ (s'.pool.frames f).page = some page ∧ w.latch page.pageId = .readers 0 ∧
      Stands P content s' { store := w.store.put page, latch := (w.setLatch page.pageId .write).latch }) ∨
    ∃ e, r = .error e ∧ Stands P content s' w := by
  cases r with
  | error e =>
    obtain ⟨hkept, hguards, hsound⟩ := newPage_error hD h.sound h.pages.empty hnew
    exact Or.inr ⟨e, rfl, h.kept hsound hkept hguards⟩
  | ok guard =>
    have hsound := newPage_sound h.sound hnew nofun
    have hmirror := newPage_mirror hD h.sound h.pages htrip hnew
    obtain ⟨f, rfl, -, ⟨hp, -⟩, -, -⟩ := newPage_ok hnew
    have hput : (Op.newPage page : Op n).effect w.store.page (.ok (some f)) = (w.store.put page).page := by
      funext id
      simp only [Op.effect, Function.update_apply, Store.put]
    rw [hput] at hmirror
    have hlatches : s'.pool.latchOf = (fun x => if x = page.pageId then .write else s.pool.latchOf x) ∧
        s.pool.latchOf page.pageId = .readers 0 := by
      unfold newPage at hnew
      rcases hinstall : s.pool.installPage D E P page with ⟨_ | g, b⟩
      · rw [hinstall] at hnew
        cases hnew
      · rw [hinstall] at hnew
        cases hnew
        exact install_latchOf h.sound.tables h.pages.empty hinstall
    rw [h.latches] at hlatches
    exact Or.inl ⟨f, rfl, hp, hlatches.2, hsound, hmirror, hlatches.1⟩

/-- A page written through its guard. -/
theorem put_stands (h : Stands P content s w) {page : Page} (htrip : RoundTrips P page) {r : Answer n}
    (hmap : s.pool.pageTable page.pageId = some f) (hput : s.put f page = some (r, s')) :
    w.latch page.pageId = .write ∧ Stands P content s' { w with store := w.store.put page } := by
  have hsound := put_sound h.sound hput
  obtain ⟨⟨hguard, -⟩, heq⟩ := Option.ite_none_right_eq_some.mp hput
  cases heq
  refine ⟨?_, hsound, ?_, ?_⟩
  · rw [h.latch hmap, heldLatch, if_pos hguard]
  · have hchange := h.pages.change h.sound.tables hmap htrip
    have hpage : Function.update w.store.page page.pageId (some page) = (w.store.put page).page := by
      funext id
      simp only [Function.update_apply, Store.put]
    rwa [hpage] at hchange
  · rw [← h.latches]
    refine Pool.latchOf_congr rfl fun g => ?_
    by_cases hg : g = f
    · rw [hg, Pool.setFrame_self]
    · rw [Pool.setFrame_ne _ _ hg]

/-- A guard dropped. -/
theorem drop_stands (h : Stands P content s w) (hmap : s.pool.pageTable id = some f) {write : Bool} {r : Answer n}
    (hdrop : s.drop ⟨f, write⟩ = some (r, s')) :
    Stands P content s' (w.setLatch id (Latch.release write (w.latch id))) := by
  have hsound := drop_sound h.sound hdrop
  obtain ⟨hkept, -⟩ := drop_kept content hdrop
  obtain ⟨-, heq⟩ := Option.ite_none_right_eq_some.mp hdrop
  cases heq
  refine ⟨hsound, h.pages.kept hkept, ?_⟩
  have hinj : ∀ id', s.pool.pageTable id' = some f → id' = id := fun id' hid' => h.sound.tables.inj hid' hmap
  have hlatch : (s.pool.frames f).latch = w.latch id := by rw [← h.latches, Pool.latchOf_mapped hmap]
  calc ((s.pool.setLatch f (Latch.release write (s.pool.frames f).latch)).unpinFrame f).latchOf
    _ = (s.pool.setLatch f (Latch.release write (s.pool.frames f).latch)).latchOf :=
      Pool.latchOf_congr rfl fun g => Pool.unpinFrame_latch _ f g
    _ = _ := Pool.setLatch_latchOf hmap hinj _
    _ = (w.setLatch id (Latch.release write (w.latch id))).latch := by
      rw [h.latches, hlatch]
      rfl

/-- The guards a caller left, dropped. -/
theorem dropGuards_stands (h : Stands P content s w) (hdrop : dropGuards s.guards s = some s') :
    Stands P content s' (.idle w.store) := by
  generalize hg : s.guards = guards at hdrop
  induction guards generalizing s w with
  | nil =>
    cases hdrop
    rw [← h.idle_iff.mpr hg]
    exact h
  | cons g guards ih =>
    obtain ⟨⟨r, s₁⟩, hone, hrest⟩ := Option.bind_eq_some_iff.mp hdrop
    have hmem : g ∈ s.guards := by rw [hg]; exact List.mem_cons_self
    obtain ⟨page, -, hmap⟩ := h.sound.guarded hmem
    have hleft : s₁.guards = guards := by rw [(drop_kept content hone).2, hg, List.erase_cons_head]
    exact ih (w := w.setLatch page.pageId _) (drop_stands h hmap hone) hleft hrest

/-- A swap that succeeds finds no pin, and forgets every page. -/
theorem swapFile_ok {pages : List Page} {b b' : Pool n τ δ} (hswap : b.swapFile D P pages = some (.ok (), b')) :
    ∃ b₀, b.flushAll D P = some (.ok (), b₀) ∧ D.swapFile pages b₀.disk = (.ok (), b'.disk) ∧
      (∀ id, b'.pageTable id = none) ∧ ∀ f, (b₀.frames f).pinCount = 0 ∧ (b'.frames f).page = none := by
  unfold Pool.swapFile at hswap
  obtain ⟨⟨r₀, b₀⟩, hflush, heq⟩ := Option.map_eq_some_iff.mp hswap
  rcases r₀ with e | _
  · cases heq
  simp only at heq
  rcases hdisk : D.swapFile pages b₀.disk with ⟨e | _, disk⟩
  · simp only [hdisk] at heq
    cases heq
  simp only [hdisk] at heq
  rcases hclear : Pool.clearFrames (List.finRange n) { b₀ with disk := disk } with ⟨e | _, b₁⟩
  · simp only [hclear] at heq
    cases heq
  simp only [hclear] at heq
  cases heq
  obtain ⟨hkept, hframes⟩ := clearFrames_ok hclear
  refine ⟨b₀, hflush, ?_, fun _ => rfl, fun f => ?_⟩
  · rw [hdisk]
    exact congrArg (Prod.mk _) hkept.symm
  · obtain ⟨hpin, hpage, -⟩ := (hframes f).2.2.1 (List.mem_finRange f)
    exact ⟨hpin, hpage⟩

theorem diskPage_stores {disk : PageId → Option (List UInt8)} {pages : List Page} (h : Stores P disk pages)
    (htrips : ∀ page ∈ pages, RoundTrips P page) : diskPage P disk = (Store.ofPages pages).page := by
  funext id
  have hid := h id
  rcases hp : (Store.ofPages pages).page id with _ | page
  · rw [hp] at hid
    exact hid
  · rw [hp] at hid
    obtain ⟨raw, hraw, hdisk⟩ := hid
    have hmem : page ∈ pages := Store.mem_of_page hp
    rw [diskPage, hdisk, Option.bind_some, htrips page hmem raw hraw]
    rfl

theorem swapFile_stands (hswaps : D.Swaps P content) (h : Stands P content s w) {pages : List Page} {b : Pool n τ δ}
    (htrips : ∀ page ∈ pages, RoundTrips P page) (hswap : s.pool.swapFile D P pages = some (.ok (), b)) :
    Stands P content { s with pool := b } { w with store := Store.ofPages pages } := by
  have hsound := swapFile_sound h.sound hswap nofun
  obtain ⟨b₀, hflush, hdisk, htable, hframes⟩ := swapFile_ok hswap
  have h₀ := flushSteps_sound h.sound (Pool.flushAll_spec hflush).1
  have hpage := diskPage_stores (hswaps hdisk) htrips
  have hunmapped {id : PageId} {f : Fin n} (hmap : b.pageTable id = some f) : False := by
    rw [htable] at hmap
    cases hmap
  refine ⟨hsound, ?_, ?_⟩
  · exact {
      own := fun hp => Store.named _ hp
      empty := fun f _ => (hframes f).2
      cached := fun hmap => (hunmapped hmap).elim
      clean := fun hmap => (hunmapped hmap).elim
      dirty := fun hmap => (hunmapped hmap).elim
      uncached := fun _ => congrFun hpage _ }
  · rw [← h.latches]
    funext id
    rw [Pool.latchOf_absent (htable id)]
    rcases hmap : s.pool.pageTable id with _ | f
    · rw [Pool.latchOf_absent hmap]
    · have hpins : guardsOn s.guards f = 0 := (h₀.pins f).symm.trans (hframes f).1
      rw [Pool.latchOf_mapped hmap, h.sound.latches, heldLatch_none hpins]

/-- What the pool answers the world answers alike, or the pool has failed and nothing changed. -/
theorem serve_stands (hD : D.Lawful P content) (hswaps : D.Swaps P content) {o : PoolOp} {r : o.Res}
    (h : Stands P content s w) (hmeets : Answers o r) (hserve : serve D E P 0 o s = some (r, s')) :
    (∃ w', World.step o w = some (r, w') ∧ Stands P content s' w') ∨
      ∃ e, o.failure e = some r ∧ Stands P content s' w := by
  cases o with
  | fetchRead id =>
    rcases serve_fetch hD h hserve hmeets with ⟨page, latch, rfl, hid, hacquire, hs'⟩ | ⟨e, rfl, hs'⟩
    · refine Or.inl ⟨_, ?_, hs'⟩
      rcases hl : w.latch id with k | _ <;> rw [hl] at hacquire <;> cases hacquire
      simp only [World.step, hid, hl]
    · exact Or.inr ⟨e, rfl, hs'⟩
  | fetchWrite id =>
    rcases serve_fetch hD h hserve hmeets with ⟨page, latch, rfl, hid, hacquire, hs'⟩ | ⟨e, rfl, hs'⟩
    · refine Or.inl ⟨_, ?_, hs'⟩
      rcases hl : w.latch id with (_ | k) | _ <;> rw [hl] at hacquire <;> cases hacquire
      simp only [World.step, hid, hl]
    · exact Or.inr ⟨e, rfl, hs'⟩
  | newPage page =>
    obtain ⟨hfits, hcalm⟩ := hmeets
    rcases hnew : s.newPage D E P page with ⟨r₁, s₁⟩
    simp only [serve, hnew] at hserve
    cases hserve
    rcases newPage_stands hD h (roundTrips_of_fits hfits) hnew with ⟨f, rfl, hp, hfree, hs'⟩ | ⟨e, rfl, hs'⟩
    · refine Or.inl ⟨_, ?_, hs'⟩
      simp only [World.step, hfree, ne_eq, not_true, if_false, answer, Option.bind_some, hp]
    · obtain ⟨e', he⟩ := hcalm
      cases he
      exact Or.inr ⟨e', rfl, hs'⟩
  | put page =>
    obtain ⟨f, hmap, hput⟩ := Option.bind_eq_some_iff.mp hserve
    obtain ⟨⟨r₁, s₁⟩, hwritten, heq⟩ := Option.map_eq_some_iff.mp hput
    cases heq
    obtain ⟨hlatch, hs'⟩ := put_stands h (roundTrips_of_fits hmeets) hmap hwritten
    exact Or.inl ⟨_, by simp only [World.step, if_pos hlatch], hs'⟩
  | drop id =>
    obtain ⟨f, hmap, hdrop⟩ := Option.bind_eq_some_iff.mp hserve
    obtain ⟨⟨r₁, s₁⟩, hdropped, heq⟩ := Option.map_eq_some_iff.mp hdrop
    cases heq
    have hs' := drop_stands h hmap hdropped
    obtain ⟨hmem, -⟩ := Option.ite_none_right_eq_some.mp hdropped
    have hlatch := h.latch hmap
    refine Or.inl ⟨_, ?_, hs'⟩
    by_cases hwrite : ⟨f, true⟩ ∈ s.guards
    · rw [heldLatch, if_pos hwrite] at hlatch
      simp only [World.step, hlatch, List.contains_iff_mem.mpr hwrite]
      rfl
    · rw [heldLatch, if_neg hwrite] at hlatch
      have hno : s.guards.contains ⟨f, true⟩ = false := by simpa using hwrite
      rw [hno] at hmem
      obtain ⟨k, hk⟩ := Nat.exists_eq_succ_of_ne_zero (Nat.pos_iff_ne_zero.mp (guardsOn_pos hmem))
      simp only at hk
      rw [hk] at hlatch
      simp only [World.step, hlatch, hno]
      rfl
  | unwind =>
    obtain ⟨s₁, hdrop, heq⟩ := Option.map_eq_some_iff.mp hserve
    cases heq
    rw [Nat.sub_zero, List.take_length] at hdrop
    refine Or.inl ⟨.idle w.store, ?_, dropGuards_stands h hdrop⟩
    simp only [World.step, World.idle, World.writing, List.not_mem_nil, if_false]
  | flushAll =>
    obtain ⟨⟨r₁, b⟩, hflush, heq⟩ := Option.map_eq_some_iff.mp hserve
    cases heq
    obtain ⟨hsteps, -⟩ := Pool.flushAll_spec hflush
    obtain ⟨htable, -, hframes⟩ := Pool.FlushSteps.same hsteps
    have hs' : Stands P content { s with pool := b } w :=
      ⟨flushSteps_sound h.sound hsteps, h.pages.flush hD h.sound.tables hsteps,
        (Pool.latchOf_congr htable fun f => (hframes f).2.2).trans h.latches⟩
    rcases r₁ with e | _
    · obtain ⟨e', rfl⟩ := hmeets
      exact Or.inr ⟨e', rfl, hs'⟩
    · exact Or.inl ⟨w, rfl, hs'⟩
  | swapFile pages =>
    obtain ⟨hfits, rfl⟩ := hmeets
    obtain ⟨⟨r₁, b⟩, hswap, heq⟩ := Option.map_eq_some_iff.mp hserve
    cases heq
    exact Or.inl ⟨_, rfl, swapFile_stands hswaps h (fun page hp => roundTrips_of_fits (hfits page hp)) hswap⟩

/-- A pool just made stands for the pages of its disk. -/
theorem new_stands {disk : δ} {σ : Store} (hdisk : diskPage P (content disk) = σ.page) (policy : τ) :
    Stands P content (new disk policy : Session n τ δ) (.idle σ) where
  sound := new_sound disk policy
  pages := by
    have hown : OwnIds P (content disk) := fun id page hp => by
      rw [hdisk] at hp
      exact σ.named hp
    have hmirror : Mirror P content (new disk policy : Session n τ δ).pool (diskPage P (content disk)) :=
      new_mirror hown policy
    rwa [hdisk] at hmirror
  latches := by
    funext id
    simp only [World.idle, World.writing, List.not_mem_nil, if_false]
    rfl

/-- The pages, each encoded. -/
theorem diskPage_encoded {σ : Store} (h : ∀ id page, σ.page id = some page → ∃ raw, page.asRawPage P = .ok raw ∧
    Page.deserialize P raw = .ok page) :
    diskPage P (fun id => (σ.page id).bind fun page => (page.asRawPage P).toOption) = σ.page := by
  funext id
  rw [diskPage]
  rcases hp : σ.page id with _ | page
  · rfl
  · obtain ⟨raw, hraw, hback⟩ := h id page hp
    rw [Option.bind_some, hraw]
    show (Page.deserialize P raw).toOption = _
    rw [hback]
    rfl

/-! ## The disk that is a map -/

/-- A page and what it is stored as. -/
def StoredAs (P : Platform) (page : Page) (entry : PageId × List UInt8) : Prop :=
  entry.1 = page.pageId ∧ page.asRawPage P = .ok entry.2

theorem storedAs_of_mapM : ∀ {pages : List Page} {entries : List (PageId × List UInt8)},
    (pages.mapM fun page => (page.asRawPage P).map fun raw => (page.pageId, raw)) = .ok entries →
      List.Forall₂ (StoredAs P) pages entries
  | [], _, h => by
    cases h
    exact .nil
  | page :: pages, entries, h => by
    rw [List.mapM_cons] at h
    rcases hraw : page.asRawPage P with _ | raw
    · rw [hraw] at h
      cases h
    · rcases hrest : pages.mapM fun page => (page.asRawPage P).map fun raw => (page.pageId, raw) with _ | rest
      · rw [hraw, hrest] at h
        cases h
      · rw [hraw, hrest] at h
        cases h
        exact .cons ⟨rfl, hraw⟩ (storedAs_of_mapM hrest)

theorem find_storedAs (id : PageId) {pages : List Page} {entries : List (PageId × List UInt8)}
    (h : List.Forall₂ (StoredAs P) pages entries) :
    match pages.find? (·.pageId = id) with
    | some page => ∃ raw, page.asRawPage P = .ok raw ∧ (entries.find? (·.1 = id)).map Prod.snd = some raw
    | none => (entries.find? (·.1 = id)).map Prod.snd = none := by
  induction h with
  | nil => rfl
  | @cons page entry pages entries hhead _ ih =>
    by_cases hid : page.pageId = id
    · have hentry : entry.1 = id := hhead.1.trans hid
      simp only [List.find?_cons, hid, hentry, decide_true, Option.map_some]
      exact ⟨_, hhead.2, rfl⟩
    · have hentry : ¬ entry.1 = id := fun he => hid (hhead.1.symm.trans he)
      simp only [List.find?_cons, hid, hentry, decide_false]
      exact ih

theorem mapDisk_swaps : (mapDisk P).Swaps P (fun disk => disk) := by
  intro pages d d' hswap id
  unfold mapDisk at hswap
  rcases hpages : pages.mapM fun page => (page.asRawPage P).map fun raw => (page.pageId, raw) with _ | entries
  · simp only [hpages] at hswap
    cases hswap
  · simp only [hpages] at hswap
    cases hswap
    have hfound := find_storedAs id (List.rel_reverse (storedAs_of_mapM hpages))
    rcases hp : (Store.ofPages pages).page id with _ | page
    · rw [show pages.reverse.find? (·.pageId = id) = none from hp] at hfound
      exact congrArg (Option.bind · _) hfound
    · rw [show pages.reverse.find? (·.pageId = id) = some page from hp] at hfound
      exact hfound

end

end Session

/-! ## A call -/

/-- A run over the pool is a run over the world, under the failures that the pool had along it. -/
theorem Session.run_stands {D : DiskManager δ} {E : EvictionPolicy n τ} {P : Platform}
    {content : δ → PageId → Option (List UInt8)} {s s' : Session n τ δ} {w : World} {α : Type}
    {p : Prog PoolOp PoolOp.Res α} {a : α} (hD : D.Lawful P content) (hswaps : D.Swaps P content)
    (h : Session.Stands P content s w) (hp : p.Along (Session.serve D E P 0) Session.Answers s)
    (hrun : p.run (Session.serve D E P 0) s = some (a, s')) :
    ∃ faults w' k, p.run (World.faulty faults) (w, 0) = some (a, w', k) ∧ Session.Stands P content s' w' :=
  ends_of_served (fun hs hmeets hserve => Session.serve_stands hD hswaps hs hmeets hserve) h hp hrun

end Bpm

end RustDb
