/-
  RustDb.Calls — what every call of a table holds to, whatever the pool answers.

  `Access.Holds` is a contract on a call alone: it asks for pages of its own table only, it
  writes intact pages only, and when the pool has failed it, it ends with the pool's error
  or panics. Each program of the tree and of the table is shown to hold to it.
-/

import RustDb.Lib.Contract
import RustDb.Page.Intact
import RustDb.Vacuum
import RustDb.RawText

namespace RustDb

open Lib Lib.Prog Call

/-! ## The contract -/

/-- The errors that come from the pool. -/
class PoolError (ε : Type) where
  fromPool : ε → Prop

instance : PoolError BpmError := ⟨fun _ => True⟩

instance : PoolError BTreeError where
  fromPool
    | .bpm _ => True
    | .page _ => False

instance : PoolError TableError where
  fromPool
    | .bpm _ => True
    | .btree e => PoolError.fromPool e
    | _ => False

/-- How a call may end that the pool has failed. -/
def Fail.fromPool {ε : Type} [PoolError ε] : Fail ε → Prop
  | .err e => PoolError.fromPool e
  | .panic => True
  | .outOfFuel => False

/-- An answer of the pool: a page, or an error. -/
def Answered {α : Type} (post : α → Prop) : Except (Fail BpmError) α → Prop
  | .ok a => post a
  | .error e => ∃ e', e = .err e'

/-- An answer that is the pool's error. -/
def PoolOp.failed : (o : PoolOp) → o.Res → Bool
  | .fetchRead _, r | .fetchWrite _, r | .newPage _, r => match r with | .ok _ => false | .error _ => true
  | .flushAll, r | .swapFile _, r => match r with | .ok _ => false | .error _ => true
  | .put _, _ | .drop _, _ | .unwind, _ => false

/-- The pages a call may touch: a table's, with keys of one kind; and whether it may write them,
    make new ones, and swap in a file in their place. -/
structure Access where
  table : TableId
  admits : Key → Prop
  writes : Prop
  grows : Prop
  swaps : Prop

variable (A : Access)

namespace Access

abbrev Intact (p : Page) : Prop := p.Intact A.table A.admits

/-- What a call asks for and writes, and what it expects: the monitor is whether the pool has failed
    a request. -/
def contract : Contract PoolOp PoolOp.Res Bool where
  guar
    | .fetchRead id | .fetchWrite id => id.tableId = A.table
    | .put p => A.writes ∧ A.Intact p
    | .newPage p => A.grows ∧ A.Intact p
    | .swapFile pages => A.swaps ∧ ∀ p ∈ pages, A.Intact p
    | .drop _ | .unwind | .flushAll => True
  rely
    | _, .fetchRead _, r | _, .fetchWrite _, r | _, .newPage _, r => Answered A.Intact r
    | _, .flushAll, r | _, .swapFile _, r => Answered (fun _ => True) r
    | _, .put _, _ | _, .drop _, _ | _, .unwind, _ => True
  next failed o r := failed || o.failed r

/-- The call holds to the contract; it returns only if the pool did not fail it. -/
def Holds {ε α : Type} [PoolError ε] (post : α → Prop) (p : Call ε α) : Prop :=
  KeepsOr A.contract (fun failed a => failed = false ∧ post a) (fun failed e => failed = true → e.fromPool) false p

end Access

open Access

variable {A} {ε ε' α β : Type} [PoolError ε] [PoolError ε']

/-! ## Its rules -/

section
variable {post : α → Prop} {p : Call ε α}

theorem Access.Holds.pure {a : α} (h : post a) : A.Holds post (pure a : Call ε α) := ⟨rfl, h⟩

/-- A call may give up at any time: nothing is said of its error while the pool has not failed it. -/
theorem Access.Holds.throw (e : Fail ε) : A.Holds post (throw e : Call ε α) := fun h => by cases h

/-- A call that goes on has not been failed, so that the next one starts from a clean monitor. -/
theorem Access.Holds.bind {post' : β → Prop} {f : α → Call ε β} (h : A.Holds post p)
    (hf : ∀ a, post a → A.Holds post' (f a)) :
    A.Holds post' (p >>= f) :=
  KeepsOr.bind h fun failed a ha => by
    obtain ⟨rfl, ha⟩ := ha
    exact hf a ha

theorem Access.Holds.mono {post' : α → Prop} (h : A.Holds post p) (hpost : ∀ a, post a → post' a) : A.Holds post' p :=
  KeepsOr.mono h fun _ a ha => ⟨ha.1, hpost a ha.2⟩

theorem Access.Holds.ite {c : Prop} [Decidable c] {q : Call ε α} (hp : c → A.Holds post p) (hq : ¬ c → A.Holds post q) :
    A.Holds post (if c then p else q) := by
  by_cases hc : c
  · rw [if_pos hc]
    exact hp hc
  · rw [if_neg hc]
    exact hq hc

/-- An error that is handed up stays the pool's. -/
theorem Access.Holds.mapErr {f : ε → ε'} (h : A.Holds post p) (hf : ∀ e, PoolError.fromPool e → PoolError.fromPool (f e)) :
    A.Holds post (p.mapErr f) :=
  KeepsOr.adapt _ h fun failed e he hfailed => by
    cases e with
    | err e => exact hf e (he hfailed)
    | panic => trivial
    | outOfFuel => exact he hfailed

/-- `expect` makes a panic of every error; the pool's failure is told by the panic. -/
theorem Access.Holds.expect (h : A.Holds post p) : A.Holds post (expect p : Call ε' α) :=
  KeepsOr.adapt _ h fun failed e he hfailed => by
    cases e with
    | err e => trivial
    | panic => trivial
    | outOfFuel => exact he hfailed

/-- The guards dropped on the way out are no failure. -/
theorem Access.Holds.unwinding (h : A.Holds post p) : A.Holds post (unwinding p) :=
  Keeps.bind h fun failed r hr => by
    cases r with
    | ok a => exact hr
    | error e => exact ⟨trivial, fun _ _ hfailed => hr (by simpa [contract, PoolOp.failed] using hfailed)⟩

end

/-! ## Requests -/

/-- A page that is fetched is intact; otherwise the pool's error is what the call ends with. -/
theorem holds_fetchRead {id : PageId} (hid : id.tableId = A.table) : A.Holds A.Intact (fetchRead id) :=
  ⟨hid, fun r hr => by
    cases r with
    | ok p => exact ⟨rfl, hr⟩
    | error e =>
      obtain ⟨e', rfl⟩ := hr
      exact fun _ => trivial⟩

theorem holds_fetchWrite {id : PageId} (hid : id.tableId = A.table) : A.Holds A.Intact (fetchWrite id) :=
  ⟨hid, fun r hr => by
    cases r with
    | ok p => exact ⟨rfl, hr⟩
    | error e =>
      obtain ⟨e', rfl⟩ := hr
      exact fun _ => trivial⟩

/-- Only intact pages are made, or put in the place of the file's. -/
theorem holds_newPage {q : Page} (hg : A.grows) (hq : A.Intact q) : A.Holds A.Intact (newPage q) :=
  ⟨⟨hg, hq⟩, fun r hr => by
    cases r with
    | ok p => exact ⟨rfl, hr⟩
    | error e =>
      obtain ⟨e', rfl⟩ := hr
      exact fun _ => trivial⟩

theorem holds_swapFile {pages : List Page} (hs : A.swaps) (hpages : ∀ p ∈ pages, A.Intact p) :
    A.Holds (fun _ => True) (swapFile pages) :=
  ⟨⟨hs, hpages⟩, fun r hr => by
    cases r with
    | ok p => exact ⟨rfl, trivial⟩
    | error e =>
      obtain ⟨e', rfl⟩ := hr
      exact fun _ => trivial⟩

/-- Every page written is one that the page operations left intact. -/
theorem holds_put {q : Page} (hw : A.writes) (hq : A.Intact q) : A.Holds (fun _ => True) (put q : Call ε Unit) :=
  ⟨⟨hw, hq⟩, fun _ _ => ⟨rfl, trivial⟩⟩

theorem holds_drop (id : PageId) : A.Holds (fun _ => True) (drop id : Call ε Unit) := ⟨trivial, fun _ _ => ⟨rfl, trivial⟩⟩

theorem holds_dropAll : ∀ ids : List PageId, A.Holds (fun _ => True) (dropAll ids : Call ε Unit)
  | [] => Holds.pure trivial
  | id :: ids => (holds_drop id).bind fun _ _ => holds_dropAll ids

/-- A page operation that fails ends the call, with no failure of the pool. -/
theorem holds_page (wrap : PageError → ε) (r : PageResult α) : A.Holds (fun a => r = .ok a) (page wrap r) := by
  cases r with
  | ok a => exact Holds.pure rfl
  | error e => exact Holds.throw _

/-- The page a guard is left with, and what the operation answered. -/
theorem holds_change (wrap : PageError → ε) {r : PageResult α × Page} (hw : A.writes) (hr : A.Intact r.2) :
    A.Holds (fun x => x.2 = r.2 ∧ r.1 = .ok x.1) (change wrap r) :=
  (holds_put hw hr).bind fun _ _ => (holds_page wrap r.1).bind fun _ ha => Holds.pure ⟨rfl, ha⟩

theorem holds_change₂ (wrap : PageError → ε) {r : PageResult α × Page × Page} (hw : A.writes) (hr : A.Intact r.2.1)
    (hr' : A.Intact r.2.2) : A.Holds (fun x => x.2 = r.2 ∧ r.1 = .ok x.1) (change₂ wrap r) :=
  (holds_put hw hr).bind fun _ _ => (holds_put hw hr').bind fun _ _ =>
    (holds_page wrap r.1).bind fun _ ha => Holds.pure ⟨rfl, ha⟩

/-! ## The table -/

namespace Table

theorem holds_bpm {post : α → Prop} {p : Call BpmError α} (h : A.Holds post p) : A.Holds post (Table.bpm p) :=
  h.mapErr fun _ _ => trivial

section
variable {t : Table} (ht : t.metaId.tableId = A.table)
include ht

/-- The root that the meta page names is a page of the table. -/
theorem holds_rootId : A.Holds (fun id => id.tableId = A.table) t.rootId :=
  (holds_bpm (holds_fetchRead ht)).bind fun _ hguard => (holds_drop _).bind fun _ _ =>
    (holds_page _ _).mono fun _ hid => hguard.metaRoot hid

/-- A page of the table becomes the root. -/
theorem holds_setRootId (hw : A.writes) {id : PageId} (hid : id.tableId = A.table) : A.Holds (fun _ => True)
    (t.setRootId id) :=
  (holds_bpm (holds_fetchWrite ht)).bind fun _ hguard =>
    (holds_change _ hw (hguard.metaSetRootId hid)).bind fun _ _ => holds_drop _

/-- The head of the free list leads to a page of the table, and so does the end of the file: in both
    cases an intact free page is handed out. -/
theorem holds_allocate (hw : A.writes) (hg : A.grows) : A.Holds A.Intact t.allocate := by
  refine (holds_bpm (holds_fetchWrite ht)).bind fun guard hguard => ?_
  refine (holds_page _ _).bind fun head hhead => ?_
  cases head with
  | some head =>
    refine (holds_bpm (holds_fetchWrite (hguard.metaHead hhead head rfl))).bind fun free hfree => ?_
    refine (holds_change _ hw (hguard.freeListPop hfree)).bind fun _ _ => ?_
    have hfresh : A.Intact (Page.emptyPage free.pageId (.free none)) := Page.intact_free hfree.table
    exact (holds_put hw hfresh).bind fun _ _ => (holds_drop _).bind fun _ _ => Holds.pure hfresh
  | none =>
    obtain ⟨hbumped, hnew⟩ := hguard.metaBumpPageCount
    refine (holds_change _ hw hbumped).bind fun x hx => ?_
    refine (holds_bpm (holds_newPage hg (Page.intact_free (hnew _ hx.2)))).bind fun fresh hfresh => ?_
    exact (holds_drop _).bind fun _ _ => Holds.pure hfresh

/-- The page goes to the head of the free list; it and the meta page stay intact, whether the page was
    free before or not. -/
theorem holds_free (hw : A.writes) {freed : Page} (hf : A.Intact freed) : A.Holds (fun _ => True) (t.free freed) := by
  refine (holds_bpm (holds_fetchWrite ht)).bind fun guard hguard => ?_
  obtain ⟨hpushed, hfreed⟩ := hguard.freeListPush hf
  exact (holds_change₂ _ hw hpushed hfreed).bind fun _ _ => (holds_drop _).bind fun _ _ => holds_drop _

end

end Table

/-! ## The tree -/

namespace BTree

theorem holds_bpm {post : α → Prop} {p : Call BpmError α} (h : A.Holds post p) : A.Holds post (BTree.bpm p) :=
  h.mapErr fun _ _ => trivial

/-- Letting go of ancestors writes nothing. -/
theorem holds_clear (ancestors : List Page) : A.Holds (fun _ => True) (clear ancestors) := holds_dropAll _

/-- A sibling stands in the parent, as the separator does. -/
theorem intact_pickSibling {parent : Page} (h : A.Intact parent) {idx : Nat} {sib : Sibling}
    (hs : pickSibling parent idx = .ok (some sib)) :
    sib.id.tableId = A.table ∧ Page.KeyFits sib.separator ∧ A.admits sib.separator := by
  unfold pickSibling at hs
  repeat' split at hs
  all_goals cases hs
  all_goals exact ⟨h.childAt (by assumption), h.keyAt (by assumption)⟩

/-- In both directions two intact neighbours are left, with a separator that fits. -/
theorem intact_borrowSiblings {left right : Page} {sib : Sibling} (hl : A.Intact left) (hr : A.Intact right)
    (hfits : Page.KeyFits sib.separator) (hsep : A.admits sib.separator) :
    Page.BothIntact A.table A.admits (borrowSiblings left right sib) := by
  unfold borrowSiblings
  split
  · exact Page.intact_bulkBorrowFromRight hl hr hfits hsep
  · obtain ⟨hri, hli, hnew⟩ := Page.intact_bulkBorrowFromLeft hr hl hfits hsep
    exact ⟨hli, hri, hnew⟩

/-- Where a range begins, one child is as good as another: each is a page of the table. -/
theorem intact_rangeChild {p : Page} (h : A.Intact p) {start : Bound} {c : PageId} (hc : rangeChild p start = .ok c) :
    c.tableId = A.table := by
  unfold rangeChild at hc
  repeat' split at hc
  all_goals cases hc
  · exact h.children (by assumption) _ List.mem_cons_self
  · exact h.findChild (by assumption)
  · exact h.findChild (by assumption)

section
variable {t : Table} (ht : t.metaId.tableId = A.table)

/-! ### Reading -/

section
include ht

/-- The loop that fetches the root until it is the root still. Whatever the root has become in
    between, each round asks for pages of the table only; induction on the rounds. -/
theorem holds_getRootWrite : ∀ fuel : Nat, A.Holds A.Intact (getRootWrite t fuel)
  | 0 => Holds.throw _
  | fuel + 1 => by
    refine (Table.holds_rootId ht).expect.bind fun id hid => ?_
    refine (holds_bpm (holds_fetchWrite hid)).bind fun guard hguard => ?_
    refine (Table.holds_rootId ht).expect.bind fun now _ => ?_
    exact Holds.ite (fun _ => Holds.pure hguard) fun _ => (holds_drop _).bind fun _ _ => holds_getRootWrite fuel

theorem holds_getRootRead : ∀ fuel : Nat, A.Holds A.Intact (getRootRead t fuel)
  | 0 => Holds.throw _
  | fuel + 1 => by
    refine (Table.holds_rootId ht).expect.bind fun id hid => ?_
    refine (holds_bpm (holds_fetchRead hid)).bind fun guard hguard => ?_
    refine (Table.holds_rootId ht).expect.bind fun now _ => ?_
    exact Holds.ite (fun _ => Holds.pure hguard) fun _ => (holds_drop _).bind fun _ _ => holds_getRootRead fuel

end

/-- Down to a leaf: a child of an intact page is a page of the table. -/
theorem holds_getDescend (key : Key) : ∀ (fuel : Nat) {p : Page}, A.Intact p → A.Holds A.Intact (getDescend key fuel p)
  | 0, _, _ => Holds.throw _
  | fuel + 1, p, hp => by
    refine Holds.ite (fun _ => ?_) fun _ => Holds.pure hp
    refine (holds_page _ _).bind fun found hfound => ?_
    cases found with
    | none => exact Holds.pure hp
    | some ch =>
      refine (holds_bpm (holds_fetchRead (hp.findChild hfound))).bind fun child hchild => ?_
      exact (holds_drop _).bind fun _ _ => holds_getDescend key fuel hchild

include ht in
/-- `get` holds to the contract: it returns only if no request of it failed. -/
theorem holds_get (fuel : Nat) (key : Key) : A.Holds (fun _ => True) (get t fuel key) := by
  refine Holds.unwinding ((holds_getRootRead ht fuel).bind fun root hroot => ?_)
  refine (holds_getDescend key fuel hroot).bind fun leaf _ => ?_
  exact (holds_page _ _).bind fun _ _ => (holds_drop _).bind fun _ _ => Holds.pure trivial

/-- Down to the leaf where a range starts. -/
theorem holds_rangeDescend (start : Bound) : ∀ (fuel : Nat) {p : Page}, A.Intact p → A.Holds A.Intact
    (rangeDescend start fuel p)
  | 0, _, _ => Holds.throw _
  | fuel + 1, p, hp => by
    refine Holds.ite (fun _ => ?_) fun _ => Holds.pure hp
    refine (holds_page _ _).bind fun ch hch => ?_
    refine (holds_bpm (holds_fetchRead (intact_rangeChild hp hch))).bind fun child hchild => ?_
    exact (holds_drop _).bind fun _ _ => holds_rangeDescend start fuel hchild

/-- Rows whose keys are admitted. -/
def Admitted (A : Access) (rows : List Row) : Prop := ∀ r ∈ rows, A.admits r.key

/-- The rows that a scan gathers come from the leaf or were gathered before. -/
theorem admitted_scanRows {start stop : Bound} {filterFn : Row → Bool} : ∀ {rows result : List Row} {rows' : List Row}
    {b : Bool},
    Admitted A rows → Admitted A result → scanRows start stop filterFn rows result = some (rows', b) → Admitted A rows'
  | [], result, rows', b, _, hresult, h => by
    cases h
    exact hresult
  | row :: rows, result, rows', b, hrows, hresult, h => by
    have hrest : Admitted A rows := fun r hr => hrows r (List.mem_cons_of_mem _ hr)
    have hmore : Admitted A (result ++ [row]) := by
      intro r hr
      rcases List.mem_append.mp hr with hr | hr
      · exact hresult r hr
      · rw [List.mem_singleton.mp hr]
        exact hrows row List.mem_cons_self
    rw [scanRows] at h
    repeat' split at h
    · cases h
    · exact admitted_scanRows hrest hresult h
    · cases h
    · cases h
      exact hresult
    · exact admitted_scanRows hrest hmore h
    · exact admitted_scanRows hrest hresult h

/-- The rows of an intact leaf. -/
theorem admitted_records {p : Page} (hp : A.Intact p) {records : List Row} (h : p.records? = some records) :
    Admitted A records := by
  obtain ⟨id, lsn, _ | _ | _ | _⟩ := p
  · cases h
    exact hp.2.2.1
  all_goals cases h

/-- Along the leaves: the next one is a page of the table, and what is gathered stays admitted. -/
theorem holds_walkLeaves (start stop : Bound) (filterFn : Row → Bool) : ∀ (fuel : Nat) {p : Page} {result : List Row},
    A.Intact p → Admitted A result → A.Holds (Admitted A) (walkLeaves start stop filterFn fuel p result)
  | 0, _, _, _, _ => Holds.throw _
  | fuel + 1, p, result, hp, hresult => by
    rw [walkLeaves]
    rcases hrecords : p.records? with _ | records
    · exact Holds.throw _
    dsimp only
    rcases hscan : scanRows start stop filterFn records result with _ | ⟨result', b⟩
    · exact Holds.throw _
    have hresult' := admitted_scanRows (admitted_records hp hrecords) hresult hscan
    cases b with
    | true => exact (holds_drop _).bind fun _ _ => Holds.pure hresult'
    | false =>
      refine (holds_page _ _).bind fun next hnext => ?_
      cases next with
      | none => exact (holds_drop _).bind fun _ _ => Holds.pure hresult'
      | some n =>
        refine (holds_bpm (holds_fetchRead (hp.next hnext n rfl))).bind fun q hq => ?_
        exact (holds_drop _).bind fun _ _ => holds_walkLeaves start stop filterFn fuel hq hresult'

include ht in
/-- `get_range` returns admitted rows only: `vacuum` builds its new file of them. -/
theorem holds_getRange (fuel : Nat) (start stop : Bound) (filterFn : Row → Bool) :
    A.Holds (Admitted A) (getRange t fuel start stop filterFn) := by
  refine Holds.unwinding ((holds_getRootRead ht fuel).bind fun root hroot => ?_)
  refine (holds_rangeDescend start fuel hroot).bind fun leaf hleaf => ?_
  exact holds_walkLeaves start stop filterFn fuel hleaf fun r hr => absurd hr List.not_mem_nil

/-! ### Inserting -/

/-- Down to the leaf of an insert. The ancestors that stay latched were all fetched intact: at a safe
    child they are let go of, otherwise the page above joins them. -/
theorem holds_insertDescend (row : ValidatedRow) : ∀ (fuel : Nat) {p : Page} {anc : List Page}, A.Intact p →
    (∀ q ∈ anc, A.Intact q) →
    A.Holds (fun x => A.Intact x.1 ∧ ∀ q ∈ x.2, A.Intact q) (insertDescend row fuel p anc)
  | 0, _, _, _, _ => Holds.throw _
  | fuel + 1, p, anc, hp, hanc => by
    refine Holds.ite (fun _ => ?_) fun _ => Holds.pure ⟨hp, hanc⟩
    refine (holds_page _ _).bind fun found hfound => ?_
    cases found with
    | none => exact Holds.pure ⟨hp, hanc⟩
    | some ch =>
      refine (holds_bpm (holds_fetchWrite (hp.findChild hfound))).bind fun child hchild => ?_
      refine Holds.ite (fun _ => (holds_clear _).bind fun _ _ => ?_) fun _ => ?_
      · exact holds_insertDescend row fuel hchild fun q hq => absurd hq List.not_mem_nil
      · refine holds_insertDescend row fuel hchild fun q hq => ?_
        rcases List.mem_cons.mp hq with rfl | hq
        · exact hp
        · exact hanc q hq

section
variable (hw : A.writes)
include hw

/-- The leaf on the right takes the new leaf for its left neighbour. -/
theorem holds_fixPrev {next : Option PageId} {prev : PageId} (hnext : ∀ id ∈ next, id.tableId = A.table)
    (hprev : prev.tableId = A.table) : A.Holds (fun _ => True) (fixPrev next prev) := by
  cases next with
  | none => exact Holds.pure trivial
  | some n =>
    refine (holds_bpm (holds_fetchWrite (hnext n rfl))).bind fun guard hguard => ?_
    exact (holds_change _ hw (hguard.setPrev (by simpa using hprev))).bind fun _ _ => holds_drop _

variable (hg : A.grows)
include ht hg

/-- The separator goes up; induction on the ancestors. Each round hands the next one an intact half
    and an admitted key, and the last one puts a new root over both. -/
theorem holds_splitLoop : ∀ {anc : List Page} {leftId rightId : PageId} {sep : Key}, (∀ q ∈ anc, A.Intact q) →
    leftId.tableId = A.table → rightId.tableId = A.table → Page.KeyFits sep → A.admits sep →
    A.Holds (fun _ => True) (splitLoop t anc leftId sep rightId)
  | [], leftId, rightId, sep, _, hleft, hright, hfits, hsep => by
    refine (Table.holds_allocate ht hw hg).expect.bind fun newRoot hnew => ?_
    refine (holds_put hw (Page.intact_newRoot hnew.table hleft hright hfits hsep)).bind fun _ _ => ?_
    refine (Table.holds_setRootId ht hw hnew.table).expect.bind fun _ _ => ?_
    exact (holds_drop _).bind fun _ _ => Holds.pure trivial
  | parent :: anc, leftId, rightId, sep, hanc, hleft, hright, hfits, hsep => by
    have hparent := hanc parent List.mem_cons_self
    have hrest : ∀ q ∈ anc, A.Intact q := fun q hq => hanc q (List.mem_cons_of_mem _ hq)
    refine Holds.ite (fun _ => ?_) fun _ => ?_
    · exact (holds_change _ hw (hparent.internalInsert hsep hright)).bind fun _ _ => (holds_drop _).bind fun _ _ =>
        Holds.pure trivial
    · refine (Table.holds_allocate ht hw hg).expect.bind fun fresh hfresh => ?_
      obtain ⟨hcut, hhalf⟩ := hparent.splitPage hfresh.table
      refine (holds_change _ hw hcut).bind fun x hx => ?_
      obtain ⟨⟨promoted, rightPage⟩, parent'⟩ := x
      obtain ⟨rfl, hok⟩ := hx
      obtain ⟨hrightPage, hpfits, hpsep⟩ := hhalf _ _ hok
      refine (holds_put hw hrightPage).bind fun _ _ => ?_
      -- the separator goes into one of the halves, and the promoted key up
      have hup : A.Holds (fun _ => True) (do
          drop (parent.splitPage fresh.pageId).2.pageId
          splitLoop t anc (parent.splitPage fresh.pageId).2.pageId promoted rightPage.pageId : BT (List Page)) :=
        (holds_drop _).bind fun _ _ => holds_splitLoop hrest hcut.table hrightPage.table hpfits hpsep
      refine Holds.ite (fun _ => ?_) fun _ => ?_
      · exact (holds_change _ hw (hrightPage.internalInsert hsep hright)).bind fun _ _ => (holds_drop _).bind fun _ _ => hup
      · refine (holds_change _ hw (hcut.internalInsert hsep hright)).bind fun x hx => (holds_drop _).bind fun _ _ => ?_
        exact hup

variable {row : ValidatedRow}

/-- The leaf is cut, linked and filled before the separator goes up. -/
theorem holds_splitAndInsert (hrow : A.admits row.row.key) {leaf : Page} (hleaf : A.Intact leaf) {anc : List Page}
    (hanc : ∀ q ∈ anc, A.Intact q) : A.Holds (fun _ => True) (splitAndInsert t leaf row anc) := by
  refine (Table.holds_allocate ht hw hg).expect.bind fun fresh hfresh => ?_
  obtain ⟨hcut, hhalf⟩ := hleaf.splitPage hfresh.table
  refine (holds_change _ hw hcut).bind fun x hx => ?_
  obtain ⟨⟨sep, right⟩, leaf'⟩ := x
  obtain ⟨rfl, hok⟩ := hx
  obtain ⟨hright, hfits, hsep⟩ := hhalf _ _ hok
  refine (holds_put hw hright).bind fun _ _ => ?_
  refine (holds_page _ _).bind fun next hnext => ?_
  refine (holds_fixPrev hw (hright.next hnext) hright.table).bind fun _ _ => ?_
  have hrest : A.Holds (fun _ => True) (do
      let ancestors ← splitLoop t anc (leaf.splitPage fresh.pageId).2.pageId sep right.pageId
      drop right.pageId
      clear ancestors
      drop (leaf.splitPage fresh.pageId).2.pageId : BT Unit) :=
    (holds_splitLoop ht hw hg hanc hcut.table hright.table hfits hsep).bind fun _ _ => (holds_drop _).bind fun _ _ =>
      (holds_clear _).bind fun _ _ => holds_drop _
  refine Holds.ite (fun _ => ?_) fun _ => ?_
  · exact (holds_change _ hw (hcut.leafInsert row hrow)).bind fun _ _ => hrest
  · exact (holds_change _ hw (hright.leafInsert row hrow)).bind fun _ _ => hrest

/-- The leaf takes the row, or is cut, or has the key already. -/
theorem holds_insertAtLeaf (hrow : A.admits row.row.key) {p : Page} (hp : A.Intact p) {anc : List Page}
    (hanc : ∀ q ∈ anc, A.Intact q) : A.Holds (fun _ => True) (insertAtLeaf t row p anc) := by
  refine Holds.ite (fun _ => ?_) fun _ => ?_
  · exact (holds_change _ hw (hp.leafInsert row hrow)).bind fun _ _ => (holds_clear _).bind fun _ _ => holds_drop _
  · refine (holds_page _ _).bind fun found _ => ?_
    cases found with
    | none => exact holds_splitAndInsert ht hw hg hrow hp hanc
    | some _ => exact Holds.throw _

/-- `insert` writes intact pages only, wherever it is failed. -/
theorem holds_insert (fuel : Nat) (hrow : A.admits row.row.key) : A.Holds (fun _ => True) (insert t fuel row) := by
  refine Holds.unwinding ((holds_getRootWrite ht fuel).bind fun root hroot => ?_)
  refine (holds_insertDescend row fuel hroot fun q hq => absurd hq List.not_mem_nil).bind fun x hx => ?_
  exact holds_insertAtLeaf ht hw hg hrow hx.1 hx.2

end

/-! ### Deleting -/

/-- The pages of `ancestors`. -/
def IntactAll (A : Access) (ancestors : List Ancestor) : Prop := ∀ q ∈ ancestors, A.Intact q.1

/-- One more ancestor, each with the place of the child in it. -/
theorem IntactAll.cons {q : Ancestor} {anc : List Ancestor} (hq : A.Intact q.1) (hanc : IntactAll A anc) : IntactAll A
    (q :: anc) := by
  intro x hx
  rcases List.mem_cons.mp hx with rfl | hx
  · exact hq
  · exact hanc x hx

theorem IntactAll.nil : IntactAll A [] := fun _ hx => absurd hx List.not_mem_nil

/-- Down to the leaf of a delete. -/
theorem holds_deleteDescend (key : Key) : ∀ (fuel : Nat) {p : Page} {anc : List Ancestor}, A.Intact p → IntactAll A anc →
    A.Holds (fun x => A.Intact x.1 ∧ IntactAll A x.2) (deleteDescend key fuel p anc)
  | 0, _, _, _, _ => Holds.throw _
  | fuel + 1, p, anc, hp, hanc => by
    refine Holds.ite (fun _ => ?_) fun _ => Holds.pure ⟨hp, hanc⟩
    refine (holds_page _ _).bind fun found hfound => ?_
    rcases found with _ | ⟨idx, childId⟩
    · exact Holds.throw _
    refine Holds.ite (fun _ => (holds_clear _).bind fun _ _ => ?_) fun _ => ?_
    · refine (holds_bpm (holds_fetchWrite (hp.child hfound))).bind fun child hchild => ?_
      exact holds_deleteDescend key fuel hchild (IntactAll.nil.cons hp)
    · refine (holds_bpm (holds_fetchWrite (hp.child hfound))).bind fun child hchild => ?_
      exact holds_deleteDescend key fuel hchild (hanc.cons hp)

/-- Both siblings. Before a left one is latched the page itself is let go of, and fetched again after
    it: what comes back is intact whoever wrote it in between. -/
theorem holds_latchSiblings {node : Page} {sib : Sibling} (hnode : A.Intact node) (hsib : sib.id.tableId = A.table) :
    A.Holds (fun x => A.Intact x.1 ∧ A.Intact x.2) (latchSiblings node sib) := by
  unfold latchSiblings
  split
  · exact (holds_bpm (holds_fetchWrite hsib)).bind fun _ hright => Holds.pure ⟨hnode, hright⟩
  · refine (holds_drop _).bind fun _ _ => (holds_bpm (holds_fetchWrite hsib)).bind fun _ hleft => ?_
    exact (holds_bpm (holds_fetchWrite hnode.table)).bind fun _ hright => Holds.pure ⟨hleft, hright⟩

section
variable (hw : A.writes)
include ht hw

/-- A root with one child left gives way to it and is freed. -/
theorem holds_collapseRoot {node : Page} (hnode : A.Intact node) (anc : List Ancestor) :
    A.Holds (fun _ => True) (collapseRoot t node anc) := by
  refine (Table.holds_rootId ht).expect.bind fun root _ => ?_
  refine Holds.ite (fun _ => ?_) fun _ => (holds_clear _).bind fun _ _ => holds_drop _
  rcases hchildren : node.children? with _ | _ | ⟨onlyChild, rest⟩
  · exact Holds.throw _
  · exact Holds.throw _
  · have hchild := hnode.children hchildren onlyChild List.mem_cons_self
    refine (Table.holds_setRootId ht hw hchild).expect.bind fun _ _ => ?_
    refine (holds_put hw hnode.makeFree).bind fun _ _ => ?_
    exact (Table.holds_free ht hw hnode.makeFree).expect.bind fun _ _ => holds_clear _

/-- The underfull page is merged or borrows, and a merge goes on above; induction on the ancestors. -/
theorem holds_rebalance : ∀ {anc : List Ancestor} {node : Page}, IntactAll A anc → A.Intact node →
    A.Holds (fun _ => True) (rebalance t anc node)
  | [], node, _, hnode => holds_collapseRoot ht hw hnode []
  | (parent, idx) :: anc, node, hanc, hnode => by
    have hparent : A.Intact parent := hanc (parent, idx) List.mem_cons_self
    have hrest : IntactAll A anc := fun q hq => hanc q (List.mem_cons_of_mem _ hq)
    refine Holds.ite (fun _ => ?_) fun _ => holds_collapseRoot ht hw hnode _
    refine (holds_page _ _).bind fun picked hpicked => ?_
    cases picked with
    | none => exact Holds.throw _
    | some sib =>
      obtain ⟨hid, hfits, hsep⟩ := intact_pickSibling hparent hpicked
      refine (holds_latchSiblings hnode hid).bind fun x hx => ?_
      obtain ⟨left, right⟩ := x
      obtain ⟨hleft, hright⟩ := hx
      refine Holds.ite (fun _ => ?_) fun _ => ?_
      · obtain ⟨hl, hr⟩ := hleft.mergeFromRight hright hfits hsep
        refine (holds_change₂ _ hw hl hr).bind fun x hx => ?_
        obtain ⟨_, left', right'⟩ := x
        obtain ⟨hpages, -⟩ := hx
        obtain ⟨rfl, rfl⟩ := Prod.mk.inj hpages
        refine (holds_change _ hw (hparent.internalRemove _)).bind fun x hx => ?_
        obtain ⟨_, parent'⟩ := x
        obtain ⟨rfl, -⟩ := hx
        have hend : A.Holds (fun _ => True) (do
            expect (t.free (left.mergeFromRight right sib.separator).2.2)
            drop (left.mergeFromRight right sib.separator).2.1.pageId
            rebalance t anc (parent.internalRemove sib.separator).2 : BT Unit) :=
          (Table.holds_free ht hw hr).expect.bind fun _ _ => (holds_drop _).bind fun _ _ =>
            holds_rebalance hrest (hparent.internalRemove _)
        refine Holds.ite (fun _ => ?_) fun _ => hend
        refine (holds_page _ _).bind fun next hnext => ?_
        exact (holds_fixPrev hw (hl.next hnext) hl.table).bind fun _ _ => hend
      · obtain ⟨hl, hr, hnew⟩ := intact_borrowSiblings hleft hright hfits hsep
        refine (holds_change₂ _ hw hl hr).bind fun x hx => ?_
        obtain ⟨newSep, left', right'⟩ := x
        obtain ⟨-, hok⟩ := hx
        obtain ⟨hnfits, hnsep⟩ := hnew newSep hok
        refine (holds_change _ hw (hparent.internalReplaceKey _ hnfits hnsep)).bind fun _ _ => ?_
        exact (holds_drop _).bind fun _ _ => (holds_drop _).bind fun _ _ => (holds_drop _).bind fun _ _ => holds_clear _

/-- `delete` writes intact pages only, wherever it is failed. -/
theorem holds_delete (fuel : Nat) (key : Key) : A.Holds (fun _ => True) (delete t fuel key) := by
  refine Holds.unwinding ((holds_getRootWrite ht fuel).bind fun root hroot => ?_)
  refine (holds_deleteDescend key fuel hroot IntactAll.nil).bind fun x hx => ?_
  obtain ⟨leaf, anc⟩ := x
  refine (holds_change _ hw (hx.1.leafRemove key)).bind fun y hy => ?_
  obtain ⟨removed, leaf'⟩ := y
  obtain ⟨rfl, -⟩ := hy
  cases removed with
  | none => exact (holds_clear _).bind fun _ _ => (holds_drop _).bind fun _ _ => Holds.pure trivial
  | some row => exact (holds_rebalance ht hw hx.2 (hx.1.leafRemove key)).bind fun _ _ => Holds.pure trivial

end

end

end BTree

/-! ## Vacuum -/

namespace Table

open BTree

/-- Building the new file asks the pool for nothing: what follows is about its result. -/
theorem yields_of_eq {ε α : Type} {post : α → Prop} {x : Except ε α} (h : ∀ a, x = .ok a → post a) : Yields post x := by
  cases x with
  | ok a => exact h a rfl
  | error e => trivial

theorem Yields.value {ε α : Type} {post : α → Prop} {x : Except ε α} (h : Yields post x) {a : α} (hx : x = .ok a) : post
    a := by
  subst hx
  exact h

section
variable {t : Table} (ht : t.metaId.tableId = A.table)

/-- A row that `vacuum` read goes into a leaf of the new file. -/
theorem yields_addRow {leaf : Page} {row : Row} (hleaf : A.Intact leaf) (hrow : A.admits row.key) :
    Yields A.Intact (t.addRow leaf row) := by
  refine Yields.bind (yields_of_eq fun v hv => ?_) fun v (hv : v.row = row) => ?_
  · rcases hval : t.schema.validateRow row with e | v'
    · rw [hval] at hv
      cases hv
    · rw [hval] at hv
      cases hv
      exact Schema.validateRow_ok hval
  · exact Yields.bind (yields_of_eq fun _ _ => trivial) fun _ _ => hleaf.leafInsert v (hv ▸ hrow)

include ht in
/-- The leaves of the new file; induction on the rows. -/
theorem yields_fillLeaves : ∀ {rows : List Row} {p : Page} {n : UInt32}, Admitted A rows → A.Intact p →
    Yields (fun x => ∀ q ∈ x.1, A.Intact q) (t.fillLeaves rows p n)
  | [], p, n, _, hp => fun q hq => by
    rw [List.mem_singleton.mp hq]
    exact hp
  | row :: rows, p, n, hrows, hp => by
    have hrow := hrows row List.mem_cons_self
    have hrest : Admitted A rows := fun r hr => hrows r (List.mem_cons_of_mem _ hr)
    rw [fillLeaves]
    split
    · exact Yields.bind (yields_addRow hp hrow) fun q hq => yields_fillLeaves hrest hq
    · refine Yields.bind (yields_addRow (Page.intact_empty ht) hrow) fun q hq => ?_
      refine Yields.bind (yields_fillLeaves hrest hq) fun x hx => ?_
      intro q hq'
      rcases List.mem_cons.mp hq' with rfl | hq'
      · exact hp
      · exact hx q hq'

/-- Linked to their neighbours, they are intact still. -/
theorem yields_linkLeaves : ∀ {leaves : List Page} {prev : Option PageId}, (∀ q ∈ leaves, A.Intact q) →
    (∀ id ∈ prev, id.tableId = A.table) → Yields (fun x => ∀ q ∈ x, A.Intact q) (linkLeaves prev leaves)
  | [], _, _, _ => fun q hq => absurd hq List.not_mem_nil
  | leaf :: leaves, prev, hleaves, hprev => by
    have hleaf := (hleaves leaf List.mem_cons_self).setPrev hprev
    have hrest : ∀ q ∈ leaves, A.Intact q := fun q hq => hleaves q (List.mem_cons_of_mem _ hq)
    have hnext : ∀ id ∈ leaves.head?.map Page.pageId, id.tableId = A.table := by
      intro id hid
      obtain ⟨q, hq, rfl⟩ := Option.map_eq_some_iff.mp hid
      exact (hrest q (List.mem_of_mem_head? hq)).table
    have hlinked := hleaf.setNext hnext
    rw [linkLeaves]
    refine Yields.bind (yields_of_eq fun _ _ => trivial) fun _ _ => ?_
    refine Yields.bind (yields_of_eq fun _ _ => trivial) fun _ _ => ?_
    refine Yields.bind (yields_linkLeaves hrest (by simpa using hlinked.table)) fun x hx => ?_
    intro q hq
    rcases List.mem_cons.mp hq with rfl | hq
    · exact hlinked
    · exact hx q hq

/-- The first key of a leaf stands for it on the level above. -/
theorem yields_firstKey {leaf : Page} (hleaf : A.Intact leaf) : Yields A.admits (firstKey leaf) := by
  rw [firstKey]
  rcases hrecords : leaf.records? with _ | records
  · trivial
  have hall := admitted_records hleaf hrecords
  rcases records with _ | ⟨row, rest⟩
  · trivial
  rcases hkey : row.key? with _ | key
  · simp only [expected, Option.elim, pure_bind, List.head?_cons, hkey]
    trivial
  · simp only [expected, Option.elim, pure_bind, List.head?_cons, hkey]
    have hadmits := hall row List.mem_cons_self
    rw [Row.key_of_key? hkey] at hadmits
    exact hadmits

/-- The entries of a level: admitted keys over pages of the table. -/
def IntactLevel (A : Access) (level : LevelList) : Prop := ∀ e ∈ level, A.admits e.1 ∧ e.2.tableId = A.table

include ht in
/-- The pages of a level; induction on the entries of the level below. -/
theorem yields_fillInternals : ∀ {rest : LevelList} {lowKey : Key} {p : Page} {n : UInt32}, IntactLevel A rest →
    A.admits lowKey →
    A.Intact p → Yields (fun x => IntactLevel A x.1 ∧ ∀ q ∈ x.2.1, A.Intact q) (t.fillInternals rest lowKey p n)
  | [], lowKey, p, n, _, hlow, hp => by
    refine ⟨fun e he => ?_, fun q hq => ?_⟩
    · rw [List.mem_singleton.mp he]
      exact ⟨hlow, hp.table⟩
    · rw [List.mem_singleton.mp hq]
      exact hp
  | entry :: rest, lowKey, p, n, hlevel, hlow, hp => by
    obtain ⟨hkey, hid⟩ := hlevel entry List.mem_cons_self
    have hrest : IntactLevel A rest := fun e he => hlevel e (List.mem_cons_of_mem _ he)
    rw [fillInternals]
    split
    · refine Yields.bind (yields_of_eq fun _ _ => trivial) fun _ _ => ?_
      exact yields_fillInternals hrest hlow (hp.internalInsert hkey hid)
    · have hfresh : A.Intact (t.newInternal n entry.2) :=
        ⟨ht, ⟨rfl, keysValid_nil⟩, fun _ h => absurd h List.not_mem_nil, by simpa using hid⟩
      refine Yields.bind (yields_fillInternals hrest hkey hfresh) fun x hx => ?_
      refine ⟨fun e he => ?_, fun q hq => ?_⟩
      · rcases List.mem_cons.mp he with rfl | he
        · exact ⟨hlow, hp.table⟩
        · exact hx.1 e he
      · rcases List.mem_cons.mp hq with rfl | hq
        · exact hp
        · exact hx.2 q hq

include ht in
/-- A level, with the entry of each of its pages. -/
theorem yields_buildInternalLevel {level : LevelList} {n : UInt32} (hlevel : IntactLevel A level) :
    Yields (fun x => IntactLevel A x.1 ∧ ∀ q ∈ x.2.1, A.Intact q) (t.buildInternalLevel level n) := by
  rcases level with _ | ⟨first, rest⟩
  · trivial
  obtain ⟨hkey, hid⟩ := hlevel first List.mem_cons_self
  have hfresh : A.Intact (t.newInternal n first.2) :=
    ⟨ht, ⟨rfl, keysValid_nil⟩, fun _ h => absurd h List.not_mem_nil, by simpa using hid⟩
  exact yields_fillInternals ht (fun e he => hlevel e (List.mem_cons_of_mem _ he)) hkey hfresh

include ht in
/-- Level after level, up to one page: induction on the levels left. -/
theorem yields_buildLevels : ∀ {fuel : Nat} {level : LevelList} {n : UInt32} {internals : List Page}, IntactLevel A level →
    (∀ q ∈ internals, A.Intact q) →
    Yields (fun x => x.1.tableId = A.table ∧ ∀ q ∈ x.2.2, A.Intact q) (t.buildLevels fuel level n internals)
  | 0, _, _, _, _, _ => trivial
  | fuel + 1, level, n, internals, hlevel, hinternals => by
    rw [buildLevels]
    split
    · refine Yields.bind (yields_buildInternalLevel ht hlevel) fun x hx => ?_
      refine yields_buildLevels hx.1 fun q hq => ?_
      exact (List.mem_append.mp hq).elim (hinternals q) (hx.2 q)
    · rcases level with _ | ⟨first, rest⟩
      · trivial
      · exact ⟨(hlevel first List.mem_cons_self).2, hinternals⟩

include ht in
/-- The pages of the new file. -/
theorem yields_pack (fuel : Nat) {rows : List Row} (hrows : Admitted A rows) :
    Yields (fun x => x.1.tableId = A.table ∧ ∀ q ∈ x.2.2, A.Intact q) (t.pack fuel rows) := by
  rw [pack]
  refine Yields.bind (yields_fillLeaves ht hrows (Page.intact_empty ht)) fun filled hfilled => ?_
  refine Yields.bind (yields_linkLeaves hfilled fun _ h => by cases h) fun leaves hleaves => ?_
  have hlevel : Yields (IntactLevel A) (leaves.mapM fun leaf => do return ((← firstKey leaf), leaf.pageId) : Built
      LevelList) := by
    refine Yields.mapM fun leaf hleaf => ?_
    exact Yields.bind (yields_firstKey (hleaves leaf hleaf)) fun key hkey => ⟨hkey, (hleaves leaf hleaf).table⟩
  refine Yields.bind hlevel fun level hlevel => ?_
  refine Yields.bind (yields_buildLevels ht hlevel fun q hq => absurd hq List.not_mem_nil) fun tree htree => ?_
  exact ⟨htree.1, fun q hq => (List.mem_append.mp hq).elim (htree.2 q) (hleaves q)⟩

end

end Table

end RustDb
