/-
  RustDb.FreeList — the free list of a table over any sequence of pushes and pops.

  The list is threaded through the free pages of the store: the meta page names the first
  page, each free page the next one (`Lists`). A step pushes a free page of the store, pops
  one, or rewrites a page that is not on the list. Proved:
  - `freeListPush_keeps_iff`: a push keeps the list a finite chain without repetition exactly
    when the page freed is not on the list behind its head. `free_list_push` compares the
    page with the head only, so a page further down is accepted and the list becomes a
    cycle (`freeListPush_cycle`).
  - `freeList_spec`: in a run none of whose pushes frees a page behind the head, the list
    stays sound and no page is handed out twice without a push in between.
-/

import RustDb.Table

namespace RustDb

/-- A meta page and the pages of its table. -/
structure FreeStore where
  metaPage : Page
  store : Store

namespace FreeStore

/-! ## The list -/

/-- Following the free pages from the meta page's head gives `ids`, each a page of the
    table, numbered below the page count, and none twice. -/
def Lists (s : FreeStore) (ids : List PageId) : Prop :=
  ∃ rootId pageCount schema tableName,
    s.metaPage.body = .metaPage rootId pageCount ids.head? schema tableName ∧ Table.FreeChain s.store ids ∧ ids.Nodup ∧
    ∀ id ∈ ids, id.tableId = rootId.tableId ∧ id.pageNum ≠ 0 ∧ id.pageNum < pageCount

variable {s s' : FreeStore} {ids ids' : List PageId}

/-- A page has one successor, so a head starts at most one finite chain. -/
theorem freeChain_unique {σ : Store} : ∀ {ids ids' : List PageId}, Table.FreeChain σ ids → Table.FreeChain σ ids' →
    ids.head? = ids'.head? → ids = ids'
  | [], [], _, _, _ => rfl
  | [], _ :: _, _, _, hh => by cases hh
  | _ :: _, [], _, _, hh => by cases hh
  | id :: rest, id' :: rest', h, h', hh => by
    cases hh
    obtain ⟨⟨lsn, hp⟩, hrest⟩ := h
    obtain ⟨⟨lsn', hp'⟩, hrest'⟩ := h'
    have hbody := congrArg (Option.map Page.body) (hp.symm.trans hp')
    simp only [Option.map_some, Option.some.injEq, PageBody.free.injEq] at hbody
    rw [freeChain_unique hrest hrest' hbody]

theorem Lists.unique (h : s.Lists ids) (h' : s.Lists ids') : ids = ids' := by
  obtain ⟨_, _, _, _, hb, hc, -⟩ := h
  obtain ⟨_, _, _, _, hb', hc', -⟩ := h'
  refine freeChain_unique hc hc' ?_
  rw [hb, PageBody.metaPage.injEq] at hb'
  exact hb'.2.2.1

/-! ## Pushing -/

/-- A push is refused and changes nothing, or the freed page stands before the list. -/
def PushKeeps (s : FreeStore) (freed : Page) : Prop :=
  ∀ r metaPage' freed', s.metaPage.freeListPush freed = (r, metaPage', freed') →
    (r = .ok () ∧ ∀ ids, s.Lists ids → Lists ⟨metaPage', s.store.put freed'⟩ (freed.pageId :: ids)) ∨
      ∃ e, r = .err e ∧ metaPage' = s.metaPage ∧ freed' = freed

/-- A push of a free page that is not accepted changes nothing. -/
theorem freeListPush_refused {id fid : PageId} {lsn flsn : PageLsn} {rootId : PageId} {pageCount : UInt32}
    {head next : Option PageId} {schema : Schema} {tableName : String}
    (hno : ¬ (fid.tableId = rootId.tableId ∧ fid.pageNum ≠ 0 ∧ fid.pageNum < pageCount ∧ head ≠ some fid)) :
    ∃ e, Page.freeListPush ⟨id, lsn, .metaPage rootId pageCount head schema tableName⟩ ⟨fid, flsn, .free next⟩ =
      (.err e, ⟨id, lsn, .metaPage rootId pageCount head schema tableName⟩, ⟨fid, flsn, .free next⟩) := by
  simp only [Page.freeListPush]
  by_cases ht : fid.tableId = rootId.tableId
  · by_cases h0 : fid.pageNum = 0
    · exact ⟨_, by rw [if_neg (not_not.mpr ht), if_pos h0]⟩
    · by_cases hlt : fid.pageNum < pageCount
      · have hhead : head = some fid := by
          by_contra hne
          exact hno ⟨ht, h0, hlt, hne⟩
        exact ⟨_, by rw [if_neg (not_not.mpr ht), if_neg h0, if_neg (UInt32.not_le.mpr hlt), if_pos hhead]⟩
      · exact ⟨_, by rw [if_neg (not_not.mpr ht), if_neg h0, if_pos (UInt32.not_lt.mp hlt)]⟩
  · exact ⟨_, if_pos ht⟩

/-- Before a list that does not hold it, an accepted page makes a longer list. -/
theorem Lists.cons {id fid : PageId} {lsn flsn : PageLsn} {rootId : PageId} {pageCount : UInt32} {schema : Schema}
    {tableName : String} {σ : Store} (h : Lists ⟨⟨id, lsn, .metaPage rootId pageCount ids.head? schema tableName⟩, σ⟩ ids)
    (ht : fid.tableId = rootId.tableId) (h0 : fid.pageNum ≠ 0) (hlt : fid.pageNum < pageCount) (hnew : fid ∉ ids) :
    Lists ⟨⟨id, lsn, .metaPage rootId pageCount (some fid) schema tableName⟩, σ.put ⟨fid, flsn, .free ids.head?⟩⟩
    (fid :: ids) := by
  obtain ⟨_, _, _, _, hbody, hchain, hnodup, hmem⟩ := h
  cases hbody
  refine ⟨rootId, pageCount, schema, tableName, rfl, ⟨⟨flsn, Store.put_same σ rfl⟩, ?_⟩,
    List.nodup_cons.mpr ⟨hnew, hnodup⟩, ?_⟩
  · refine hchain.congr fun x hx => Store.put_ne σ ?_
    rintro rfl
    exact hnew hx
  · intro x hx
    rcases List.mem_cons.mp hx with rfl | hx
    · exact ⟨ht, h0, hlt⟩
    · exact hmem x hx

theorem freeListPush_keeps_iff (h : s.Lists ids) {freed : Page} (hfree : freed.isFree = true) :
    s.PushKeeps freed ↔ freed.pageId ∉ ids.tail := by
  rcases s with ⟨⟨id, lsn, body⟩, σ⟩
  rcases freed with ⟨fid, flsn, _ | _ | _ | next⟩ <;> try cases hfree
  have hl := h
  obtain ⟨rootId, pageCount, schema, tableName, hbody, hchain, hnodup, hmem⟩ := h
  cases hbody
  by_cases hok : fid.tableId = rootId.tableId ∧ fid.pageNum ≠ 0 ∧ fid.pageNum < pageCount ∧ ids.head? ≠ some fid
  · obtain ⟨ht, h0, hlt, hhead⟩ := hok
    have hpush := @Page.freeListPush_ok id lsn rootId pageCount schema tableName fid flsn _ next ht h0 hlt hhead
    have htail : fid ∉ ids ↔ fid ∉ ids.tail := by
      cases ids with
      | nil => exact Iff.rfl
      | cons head rest =>
        have hne : fid ≠ head := fun he => hhead (congrArg some he.symm)
        rw [List.mem_cons, not_or, List.tail_cons]
        exact and_iff_right hne
    refine ⟨fun hk => ?_, fun hnew r m f he => Or.inl ?_⟩
    · rcases hk _ _ _ hpush with ⟨-, hlists⟩ | ⟨e, he, -⟩
      · obtain ⟨_, _, _, _, -, -, hnodup', -⟩ := hlists ids hl
        exact htail.mp (List.nodup_cons.mp hnodup').1
      · cases he
    · cases hpush.symm.trans he
      refine ⟨rfl, fun ids' hl' => ?_⟩
      cases hl.unique hl'
      exact hl.cons ht h0 hlt (htail.mpr hnew)
  · obtain ⟨e, hrefused⟩ := @freeListPush_refused id fid lsn flsn rootId pageCount _ next schema tableName hok
    refine iff_of_true (fun r m f he => Or.inr ⟨e, ?_⟩) fun htail => hok ?_
    · cases hrefused.symm.trans he
      exact ⟨rfl, rfl, rfl⟩
    · obtain ⟨ht, h0, hlt⟩ := hmem fid (List.mem_of_mem_tail htail)
      refine ⟨ht, h0, hlt, fun hhead => ?_⟩
      cases ids with
      | nil => cases htail
      | cons head rest =>
        cases hhead
        exact (List.nodup_cons.mp hnodup).1 htail

/-! ## Runs -/

/-- A call and its answer, and a page rewritten by its owner. -/
inductive Event where
  | push (id : PageId) (r : PageResult Unit)
  | pop (id : PageId) (r : PageResult PageId)
  | write (id : PageId)

inductive Step : FreeStore → Event → FreeStore → Prop where
  | push {s : FreeStore} {freed freed' metaPage' : Page} {r : PageResult Unit}
      (stored : s.store.page freed.pageId = some freed) (free : freed.isFree = true)
      (call : s.metaPage.freeListPush freed = (r, metaPage', freed')) :
      Step s (.push freed.pageId r) ⟨metaPage', s.store.put freed'⟩
  | pop {s : FreeStore} {page metaPage' : Page} {r : PageResult PageId}
      (stored : s.store.page page.pageId = some page) (call : s.metaPage.freeListPop page = (r, metaPage')) :
      Step s (.pop page.pageId r) ⟨metaPage', s.store⟩
  | write {s : FreeStore} {page : Page} (owned : ∀ ids, s.Lists ids → page.pageId ∉ ids) :
      Step s (.write page.pageId) ⟨s.metaPage, s.store.put page⟩

/-- The step does not free a page that is on the list behind its head. -/
def Safe (s : FreeStore) : Event → Prop
  | .push id _ => ∀ ids, s.Lists ids → id ∉ ids.tail
  | _ => True

/-- Steps one after the other, none of which frees a page behind the head. -/
inductive Run : FreeStore → List Event → FreeStore → Prop where
  | nil (s : FreeStore) : Run s [] s
  | cons {s s₁ s' : FreeStore} {e : Event} {es : List Event} (step : Step s e s₁) (safe : s.Safe e) (rest : Run s₁ es s') :
      Run s (e :: es) s'

/-- Between two pops that hand out a page, the page is pushed. -/
def HandsOutOnce (es : List Event) : Prop :=
  ∀ a b c id x y, es = a ++ .pop x (.ok id) :: (b ++ .pop y (.ok id) :: c) → .push id (.ok ()) ∈ b

/-- A pop takes the head of the list, or changes nothing. -/
theorem freeListPop_cases (h : s.Lists ids) {page metaPage' : Page} {r : PageResult PageId}
    (hstored : s.store.page page.pageId = some page) (he : s.metaPage.freeListPop page = (r, metaPage')) :
    (∃ rest, ids = page.pageId :: rest ∧ r = .ok page.pageId ∧ Lists ⟨metaPage', s.store⟩ rest) ∨
      ∃ e, r = .err e ∧ metaPage' = s.metaPage := by
  rcases s with ⟨⟨mid, lsn, body⟩, σ⟩
  obtain ⟨rootId, pageCount, schema, tableName, hbody, hchain, hnodup, hmem⟩ := h
  cases hbody
  rcases page with ⟨pid, plsn, _ | _ | _ | next⟩
  · cases he
    exact Or.inr ⟨_, rfl, rfl⟩
  · cases he
    exact Or.inr ⟨_, rfl, rfl⟩
  · cases he
    exact Or.inr ⟨_, rfl, rfl⟩
  · by_cases hhead : ids.head? = some pid
    · obtain ⟨rest, rfl⟩ : ∃ rest, ids = pid :: rest := by
        cases ids with
        | nil => cases hhead
        | cons head rest =>
          cases hhead
          exact ⟨rest, rfl⟩
      obtain ⟨⟨plsn', hpage⟩, hrest⟩ := hchain
      cases hstored.symm.trans hpage
      rw [List.head?_cons, Page.freeListPop_head] at he
      cases he
      exact Or.inl ⟨rest, rfl, rfl, rootId, pageCount, schema, tableName, rfl, hrest, (List.nodup_cons.mp hnodup).2,
        fun x hx => hmem x (List.mem_cons_of_mem _ hx)⟩
    · simp only [Page.freeListPop] at he
      rw [if_pos hhead] at he
      cases he
      exact Or.inr ⟨_, rfl, rfl⟩

/-- What a step does to the list. -/
theorem Step.lists (h : s.Lists ids) {e : Event} (hstep : Step s e s') (hsafe : s.Safe e) :
    ∃ ids', s'.Lists ids' ∧ ((∃ id, e = .push id (.ok ()) ∧ ids' = id :: ids) ∨
      (∃ id, e = .pop id (.ok id) ∧ ids = id :: ids') ∨
      (ids' = ids ∧ (∀ id, e ≠ .push id (.ok ())) ∧ ∀ x id, e ≠ .pop x (.ok id))) := by
  cases hstep with
  | @push freed freed' metaPage' r stored free call =>
    rcases (freeListPush_keeps_iff h free).mpr (hsafe ids h) r metaPage' freed' call with ⟨rfl, hlists⟩ | ⟨e, rfl, rfl, rfl⟩
    · exact ⟨_, hlists ids h, Or.inl ⟨_, rfl, rfl⟩⟩
    · refine ⟨ids, ?_, Or.inr (Or.inr ⟨rfl, (fun id he => by cases he), (fun x id he => by cases he)⟩)⟩
      rw [Store.put_stored s.store stored]
      exact h
  | @pop page metaPage' r stored call =>
    rcases freeListPop_cases h stored call with ⟨rest, rfl, rfl, hlists⟩ | ⟨e, rfl, rfl⟩
    · exact ⟨rest, hlists, Or.inr (Or.inl ⟨_, rfl, rfl⟩)⟩
    · exact ⟨ids, h, Or.inr (Or.inr ⟨rfl, (fun id he => by cases he), (fun x id he => by cases he)⟩)⟩
  | @write page owned =>
    refine ⟨ids, ?_, Or.inr (Or.inr ⟨rfl, (fun id he => by cases he), (fun x id he => by cases he)⟩)⟩
    obtain ⟨rootId, pageCount, schema, tableName, hbody, hchain, hnodup, hmem⟩ := h
    have hoff := owned ids ⟨rootId, pageCount, schema, tableName, hbody, hchain, hnodup, hmem⟩
    exact ⟨rootId, pageCount, schema, tableName, hbody,
      hchain.congr fun x hx => Store.put_ne s.store (fun he => hoff (he ▸ hx)), hnodup, hmem⟩

/-- A run keeps the list sound, and a page off the list that is not pushed stays off it. -/
theorem Run.lists (h : s.Lists ids) {es : List Event} (hrun : Run s es s') : ∃ ids', s'.Lists ids' ∧
    ∀ id, id ∉ ids → .push id (.ok ()) ∉ es → id ∉ ids' := by
  induction hrun generalizing ids with
  | nil s => exact ⟨ids, h, fun id hid _ => hid⟩
  | @cons s s₁ s' e es step safe rest ih =>
    obtain ⟨ids₁, h₁, hstep⟩ := step.lists h safe
    obtain ⟨ids', h', hoff⟩ := ih h₁
    refine ⟨ids', h', fun id hid hes => hoff id ?_ fun hmem => hes (List.mem_cons_of_mem _ hmem)⟩
    rcases hstep with ⟨x, rfl, rfl⟩ | ⟨x, rfl, rfl⟩ | ⟨rfl, -, -⟩
    · intro hmem
      rcases List.mem_cons.mp hmem with rfl | hmem
      · exact hes List.mem_cons_self
      · exact hid hmem
    · exact fun hmem => hid (List.mem_cons_of_mem _ hmem)
    · exact hid

theorem Run.append_inv {es₁ es₂ : List Event} (h : Run s (es₁ ++ es₂) s') : ∃ s₁, Run s es₁ s₁ ∧ Run s₁ es₂ s' := by
  induction es₁ generalizing s with
  | nil => exact ⟨s, .nil s, h⟩
  | cons e es ih =>
    cases h with
    | cons step safe rest =>
      obtain ⟨s₁, h₁, h₂⟩ := ih rest
      exact ⟨s₁, .cons step safe h₁, h₂⟩

/-- A page is on the list when it is handed out and off it afterwards. -/
theorem Step.pop_lists (h : s.Lists ids) {x id : PageId} (hstep : Step s (.pop x (.ok id)) s') :
    id ∈ ids ∧ ∃ ids', s'.Lists ids' ∧ id ∉ ids' := by
  obtain ⟨ids', h', hcases⟩ := hstep.lists h trivial
  rcases hcases with ⟨y, he, -⟩ | ⟨y, he, rfl⟩ | ⟨-, -, hno⟩
  · cases he
  · cases he
    obtain ⟨_, _, _, _, -, -, hnodup, -⟩ := h
    exact ⟨List.mem_cons_self, ids', h', (List.nodup_cons.mp hnodup).1⟩
  · exact absurd rfl (hno x id)

theorem Run.handsOutOnce (h : s.Lists ids) {es : List Event} (hrun : Run s es s') : HandsOutOnce es := by
  rintro a b c id x y rfl
  obtain ⟨s₁, ha, hrest⟩ := hrun.append_inv
  obtain ⟨ids₁, h₁, -⟩ := ha.lists h
  cases hrest with
  | cons step safe rest =>
    obtain ⟨-, ids₂, h₂, hoff⟩ := step.pop_lists h₁
    obtain ⟨s₃, hb, hrest'⟩ := rest.append_inv
    obtain ⟨ids₃, h₃, hkeep⟩ := hb.lists h₂
    cases hrest' with
    | cons step' _ _ =>
      by_contra hno
      exact hkeep id hoff hno (step'.pop_lists h₃).1

/-- Exactly which pushes keep the list, and what holds of the runs made of such pushes, of
    pops and of writes to other pages. -/
theorem freeList_spec {s : FreeStore} {ids : List PageId} (h : s.Lists ids) :
    (∀ freed, s.store.page freed.pageId = some freed → freed.isFree = true →
      (s.PushKeeps freed ↔ freed.pageId ∉ ids.tail)) ∧
    ∀ es s', Run s es s' → (∃ ids', s'.Lists ids') ∧ HandsOutOnce es := by
  refine ⟨fun freed _ hfree => freeListPush_keeps_iff h hfree, fun es s' hrun => ⟨?_, hrun.handsOutOnce h⟩⟩
  obtain ⟨ids', h', -⟩ := hrun.lists h
  exact ⟨ids', h'⟩

/-! ## A list of two pages -/

/-- The free page with the given number, and the next one. -/
def freePage (n : UInt32) (next : Option UInt32) : Page := ⟨⟨⟨1⟩, n⟩, none, .free (next.map fun n => ⟨⟨1⟩, n⟩)⟩

/-- A table of five pages, of which 1 and 2 are on the free list in that order and 4 is free
    but not on it. -/
def twoFree : FreeStore where
  metaPage := ⟨⟨⟨1⟩, 0⟩, none, .metaPage ⟨⟨1⟩, 3⟩ 5 (some ⟨⟨1⟩, 1⟩) idSchema "t"⟩
  store := Store.ofPages [freePage 1 (some 2), freePage 2 none, freePage 4 none]

theorem twoFree_lists : twoFree.Lists [⟨⟨1⟩, 1⟩, ⟨⟨1⟩, 2⟩] :=
  ⟨⟨⟨1⟩, 3⟩, 5, idSchema, "t", rfl, ⟨⟨none, rfl⟩, ⟨none, rfl⟩, trivial⟩, by decide, by decide⟩

theorem freeList_spec_twoFree : twoFree.PushKeeps (freePage 4 none) ∧ HandsOutOnce [.pop ⟨⟨1⟩, 1⟩ (.ok ⟨⟨1⟩, 1⟩)] := by
  obtain ⟨hpush, hruns⟩ := freeList_spec twoFree_lists
  exact ⟨(hpush (freePage 4 none) rfl rfl).mpr (by decide),
    (hruns _ _ (.cons (@Step.pop _ (freePage 1 (some 2)) _ _ rfl rfl) trivial (.nil _))).2⟩

/-- The pages of `twoFree` after the second page of its list was freed again, with page
    `head` at the head. -/
def cyclic (head : UInt32) : FreeStore where
  metaPage := ⟨⟨⟨1⟩, 0⟩, none, .metaPage ⟨⟨1⟩, 3⟩ 5 (some ⟨⟨1⟩, head⟩) idSchema "t"⟩
  store := twoFree.store.put (freePage 2 (some 1))

/-- A finite list from page 2 would hold page 2 again. -/
theorem cyclic_not_lists (ids : List PageId) : ¬ (cyclic 2).Lists ids := by
  rintro ⟨rootId, pageCount, schema, tableName, hbody, hchain, hnodup, -⟩
  rw [cyclic, PageBody.metaPage.injEq] at hbody
  have hhead : some ⟨⟨1⟩, 2⟩ = ids.head? := hbody.2.2.1
  obtain ⟨rest, rfl⟩ : ∃ rest, ids = ⟨⟨1⟩, 2⟩ :: rest := by
    cases ids with
    | nil => cases hhead
    | cons id rest => cases hhead; exact ⟨rest, rfl⟩
  obtain ⟨⟨lsn, hp⟩, hrest⟩ := hchain
  have hnext : some ⟨⟨1⟩, 1⟩ = rest.head? := by
    have hpage : (cyclic 2).store.page ⟨⟨1⟩, 2⟩ = some (freePage 2 (some 1)) := rfl
    rw [hpage, freePage, Option.some.injEq, Page.mk.injEq, PageBody.free.injEq] at hp
    exact hp.2.2
  obtain ⟨rest', rfl⟩ : ∃ rest', rest = ⟨⟨1⟩, 1⟩ :: rest' := by
    cases rest with
    | nil => cases hnext
    | cons id rest => cases hnext; exact ⟨rest, rfl⟩
  obtain ⟨⟨lsn', hp'⟩, -⟩ := hrest
  have hnext' : some ⟨⟨1⟩, 2⟩ = rest'.head? := by
    have hpage : (cyclic 2).store.page ⟨⟨1⟩, 1⟩ = some (freePage 1 (some 2)) := rfl
    rw [hpage, freePage, Option.some.injEq, Page.mk.injEq, PageBody.free.injEq] at hp'
    exact hp'.2.2
  have hmem : (⟨⟨1⟩, 2⟩ : PageId) ∈ rest' := List.mem_of_mem_head? hnext'.symm
  exact (List.nodup_cons.mp hnodup).1 (List.mem_cons_of_mem _ hmem)

/-- Freeing the second page of the list again is accepted and leaves no finite list, and the
    pops that follow hand out the two pages in turn for ever. -/
theorem freeListPush_cycle : twoFree.Lists [⟨⟨1⟩, 1⟩, ⟨⟨1⟩, 2⟩] ∧ ¬ twoFree.PushKeeps (freePage 2 none) ∧
    Step twoFree (.push ⟨⟨1⟩, 2⟩ (.ok ())) (cyclic 2) ∧ (∀ ids, ¬ (cyclic 2).Lists ids) ∧
    Step (cyclic 2) (.pop ⟨⟨1⟩, 2⟩ (.ok ⟨⟨1⟩, 2⟩)) (cyclic 1) ∧
    Step (cyclic 1) (.pop ⟨⟨1⟩, 1⟩ (.ok ⟨⟨1⟩, 1⟩)) (cyclic 2) := by
  have hpush : twoFree.metaPage.freeListPush (freePage 2 none) = (.ok (), (cyclic 2).metaPage, freePage 2 (some 1)) := rfl
  refine ⟨twoFree_lists, fun hkeeps => ?_, ?_, cyclic_not_lists, ?_, ?_⟩
  · rcases hkeeps _ _ _ hpush with ⟨-, hlists⟩ | ⟨e, he, -⟩
    · exact cyclic_not_lists _ (hlists _ twoFree_lists)
    · cases he
  · exact @Step.push twoFree (freePage 2 none) _ _ _ rfl rfl hpush
  · exact @Step.pop (cyclic 2) (freePage 2 (some 1)) _ _ rfl rfl
  · exact @Step.pop (cyclic 1) (freePage 1 (some 2)) _ _ rfl rfl

end FreeStore

end RustDb
