/-
  RustDb.BTree.Tree — the B+tree's operations as programs over the pool (`btree/tree.rs`,
  `btree/sibling.rs`).

  Guards are dropped where Rust drops them: at the end of the statement for a temporary,
  at the end of its block or of the function for a local, in reverse order of declaration;
  a vector's guards go first to last. `ancestors` is kept with its top first. Every loop
  that is not over `ancestors` takes a fuel argument: `get_root_*`'s retry loop, the
  descents, and the walk along the leaves.
-/

import RustDb.Table
import RustDb.Page.Borrow

namespace RustDb

open Call

/-! ## Siblings -/

inductive Side where
  | left
  | right
  deriving DecidableEq, Repr

structure Sibling where
  id : PageId
  separator : Key
  side : Side
  deriving DecidableEq, Repr

/-- `pick_sibling`; the outer result is its `expect`s, the inner its `None`. -/
def pickSibling (parent : Page) (idx : Nat) : PageResult (Option Sibling) :=
  match parent.childAt (idx + 1) with
  | some id =>
    match parent.keyAt idx with
    | some separator => .ok (some ⟨id, separator, .right⟩)
    | none => .error .panic
  | none =>
    if idx = 0 then .ok none
    else match parent.childAt (idx - 1) with
      | none => .ok none
      | some id =>
        match parent.keyAt (idx - 1) with
        | some separator => .ok (some ⟨id, separator, .left⟩)
        | none => .error .panic

namespace BTree

abbrev BT := Call BTreeError

def bpm {α : Type} (p : Call BpmError α) : BT α := p.mapErr .bpm

variable (t : Table)

/-! ## Reaching the root -/

/-- `BTree::get_root_write`. -/
def getRootWrite : Nat → BT Page
  | 0 => throw .outOfFuel
  | fuel + 1 => do
    let id ← expect t.rootId
    let guard ← bpm (fetchWrite id)
    let now ← expect t.rootId
    if now = id then return guard
    else do
      drop id
      getRootWrite fuel

/-- `BTree::get_root_read`. -/
def getRootRead : Nat → BT Page
  | 0 => throw .outOfFuel
  | fuel + 1 => do
    let id ← expect t.rootId
    let guard ← bpm (fetchRead id)
    let now ← expect t.rootId
    if now = id then return guard
    else do
      drop id
      getRootRead fuel

/-! ## Insert -/

/-- The guards of `ancestors`, released first to last. -/
def clear (ancestors : List Page) : BT Unit := dropAll (ancestors.reverse.map (·.pageId))

/-- The descent of `insert`: the page reached, and the pages latched above it. -/
def insertDescend (row : ValidatedRow) : Nat → Page → List Page → BT (Page × List Page)
  | 0, _, _ => throw .outOfFuel
  | fuel + 1, currPage, ancestors => do
    if currPage.isInternal then
      match ← page .page (currPage.findChild row.primaryKey) with
      | none => return (currPage, ancestors)
      | some ch =>
        let ancestors := currPage :: ancestors
        let currPage ← bpm (fetchWrite ch)
        if currPage.isSplitSafe || currPage.canInsert row.row then
          clear ancestors
          insertDescend row fuel currPage []
        else insertDescend row fuel currPage ancestors
    else return (currPage, ancestors)

/-- The loop of `split_and_insert`; it answers the ancestors still latched at its end. -/
def splitLoop : List Page → PageId → Key → PageId → BT (List Page)
  | [], leftId, sep, rightId => do
    let newRoot ← expect t.allocate
    put (Page.newRoot newRoot.pageId leftId sep rightId)
    expect (t.setRootId newRoot.pageId)
    drop newRoot.pageId
    return []
  | parent :: ancestors, _, sep, rightId => do
    if parent.canInsertSeparator sep then
      let _ ← change .page (parent.internalInsert sep rightId)
      drop parent.pageId
      return ancestors
    else
      let newRightInternal ← expect t.allocate
      let ((promoted, rightPage), parent) ← change .page (parent.splitPage newRightInternal.pageId)
      put rightPage
      if sep > promoted then
        let _ ← change .page (rightPage.internalInsert sep rightId)
        drop rightPage.pageId
      else
        let _ ← change .page (parent.internalInsert sep rightId)
        drop rightPage.pageId
      drop parent.pageId
      splitLoop ancestors parent.pageId promoted rightPage.pageId

/-- `fetch_write(n)?.set_prev(..)?` for a leaf that has a right neighbour. -/
def fixPrev (next : Option PageId) (prev : PageId) : BT Unit :=
  match next with
  | none => return ()
  | some n => do
    let guard ← bpm (fetchWrite n)
    let _ ← change .page (guard.setPrev (some prev))
    drop n

/-- `BTree::split_and_insert`. -/
def splitAndInsert (leaf : Page) (row : ValidatedRow) (ancestors : List Page) : BT Unit := do
  let right ← expect t.allocate
  let ((sep, right), leaf) ← change .page (leaf.splitPage right.pageId)
  put right
  let next ← page .page right.next
  fixPrev next right.pageId
  if row.primaryKey ≤ sep then
    let _ ← change .page (leaf.leafInsert row)
  else
    let _ ← change .page (right.leafInsert row)
  let ancestors ← splitLoop t ancestors leaf.pageId sep right.pageId
  drop right.pageId
  clear ancestors
  drop leaf.pageId

/-- The end of `insert`, at a leaf. -/
def insertAtLeaf (row : ValidatedRow) (currPage : Page) (ancestors : List Page) : BT Unit := do
  if currPage.canInsert row.row then
    let _ ← change .page (currPage.leafInsert row)
    clear ancestors
    drop currPage.pageId
  else
    match ← page .page (currPage.leafGet row.primaryKey) with
    | some _ => throw (.err (.page .duplicateKey))
    | none => splitAndInsert t currPage row ancestors

/-- `BTree::insert`. -/
def insert (fuel : Nat) (row : ValidatedRow) : BT Unit := unwinding do
  let root ← getRootWrite t fuel
  let (currPage, ancestors) ← insertDescend row fuel root []
  insertAtLeaf t row currPage ancestors

/-! ## Get -/

/-- The descent of `get`. -/
def getDescend (key : Key) : Nat → Page → BT Page
  | 0, _ => throw .outOfFuel
  | fuel + 1, currPage => do
    if currPage.isInternal then
      match ← page .page (currPage.findChild key) with
      | none => return currPage
      | some ch =>
        let child ← bpm (fetchRead ch)
        drop currPage.pageId
        getDescend key fuel child
    else return currPage

/-- `BTree::get`. -/
def get (fuel : Nat) (key : Key) : BT (Option Row) := unwinding do
  let root ← getRootRead t fuel
  let leaf ← getDescend key fuel root
  let found ← page .page (leaf.leafGet key)
  drop leaf.pageId
  return found

/-- `std::ops::Bound`. -/
inductive Bound where
  | included (k : Key)
  | excluded (k : Key)
  | unbounded
  deriving DecidableEq, Repr

/-- `before_start`; `none` is `cmp_key`'s panic. -/
def beforeStart (row : Row) : Bound → Option Bool
  | .unbounded => some false
  | .included k => (row.cmpKey k).map (· == .lt)
  | .excluded k => (row.cmpKey k).map (· != .gt)

/-- `past_end`. -/
def pastEnd (row : Row) : Bound → Option Bool
  | .unbounded => some false
  | .included k => (row.cmpKey k).map (· == .gt)
  | .excluded k => (row.cmpKey k).map (· != .lt)

/-- The loop over one leaf's rows: the rows collected, and whether `'leaves` was left. -/
def scanRows (start stop : Bound) (filterFn : Row → Bool) : List Row → List Row → Option (List Row × Bool)
  | [], result => some (result, false)
  | row :: rows, result =>
    match beforeStart row start with
    | none => none
    | some true => scanRows start stop filterFn rows result
    | some false =>
      match pastEnd row stop with
      | none => none
      | some true => some (result, true)
      | some false => scanRows start stop filterFn rows (if filterFn row then result ++ [row] else result)

/-- The child `get_range` descends to; the failures are its `expect`s. -/
def rangeChild (currPage : Page) : Bound → PageResult PageId
  | .unbounded =>
    match currPage.children? with
    | some (c :: _) => .ok c
    | _ => .error .panic
  | .included k | .excluded k =>
    match currPage.findChild k with
    | .ok (some c) => .ok c
    | _ => .error .panic

/-- The descent of `get_range`. -/
def rangeDescend (start : Bound) : Nat → Page → BT Page
  | 0, _ => throw .outOfFuel
  | fuel + 1, currPage => do
    if currPage.isInternal then
      let ch ← page .page (rangeChild currPage start)
      let child ← bpm (fetchRead ch)
      drop currPage.pageId
      rangeDescend start fuel child
    else return currPage

/-- The loop `'leaves`. -/
def walkLeaves (start stop : Bound) (filterFn : Row → Bool) : Nat → Page → List Row → BT (List Row)
  | 0, _, _ => throw .outOfFuel
  | fuel + 1, currPage, result => do
    match currPage.records? with
    | none => throw .panic
    | some records =>
      match scanRows start stop filterFn records result with
      | none => throw .panic
      | some (result, true) =>
        drop currPage.pageId
        return result
      | some (result, false) =>
        match ← page .page currPage.next with
        | none =>
          drop currPage.pageId
          return result
        | some n =>
          let next ← bpm (fetchRead n)
          drop currPage.pageId
          walkLeaves start stop filterFn fuel next result

/-- `BTree::get_range`. -/
def getRange (fuel : Nat) (start stop : Bound) (filterFn : Row → Bool) : BT (List Row) := unwinding do
  let root ← getRootRead t fuel
  let leaf ← rangeDescend start fuel root
  walkLeaves start stop filterFn fuel leaf []

/-- `BTree::get_all`. -/
def getAll (fuel : Nat) (filterFn : Row → Bool) : BT (List Row) := getRange t fuel .unbounded .unbounded filterFn

/-! ## Delete -/

/-- A page latched above the one being changed, and the position of the child taken. -/
abbrev Ancestor := Page × Nat

/-- The descent of `delete`. -/
def deleteDescend (key : Key) : Nat → Page → List Ancestor → BT (Page × List Ancestor)
  | 0, _, _ => throw .outOfFuel
  | fuel + 1, currPage, ancestors => do
    if currPage.isInternal then
      match ← page .page (currPage.findChildIndex key) with
      | none => throw .panic
      | some (idx, childId) =>
        if currPage.isDeleteSafe then
          clear (ancestors.map Prod.fst)
          let child ← bpm (fetchWrite childId)
          deleteDescend key fuel child [(currPage, idx)]
        else
          let child ← bpm (fetchWrite childId)
          deleteDescend key fuel child ((currPage, idx) :: ancestors)
    else return (currPage, ancestors)

/-- The end of `rebalance`: a root without a key gives way to its only child. -/
def collapseRoot (node : Page) (ancestors : List Ancestor) : BT Unit := do
  let root ← expect t.rootId
  if node.pageId = root ∧ node.isInternal ∧ node.numItems = 0 then
    match node.children? with
    | some (onlyChild :: _) =>
      expect (t.setRootId onlyChild)
      put node.makeFree
      expect (t.free node.makeFree)
      clear (ancestors.map Prod.fst)
    | _ => throw .panic
  else
    clear (ancestors.map Prod.fst)
    drop node.pageId

/-- The guards on the two siblings, left one first. -/
def latchSiblings (node : Page) (sib : Sibling) : BT (Page × Page) :=
  match sib.side with
  | .right => do
    let right ← bpm (fetchWrite sib.id)
    return (node, right)
  | .left => do
    let rightId := node.pageId
    drop rightId
    let left ← bpm (fetchWrite sib.id)
    let right ← bpm (fetchWrite rightId)
    return (left, right)

/-- The bulk borrow into the sibling that was underfull. -/
def borrowSiblings (left right : Page) (sib : Sibling) : PageResult Key × Page × Page :=
  match sib.side with
  | .right => left.bulkBorrowFromRight right sib.separator
  | .left =>
    match right.bulkBorrowFromLeft left sib.separator with
    | (r, right, left) => (r, left, right)

/-- `BTree::rebalance`. -/
def rebalance : List Ancestor → Page → BT Unit
  | [], node => collapseRoot t node []
  | (parent, idx) :: ancestors, node => do
    if node.isUnderfull then
      match ← page .page (pickSibling parent idx) with
      | none => throw .panic
      | some sib =>
        let (left, right) ← latchSiblings node sib
        if left.canMergeWith right sib.separator then
          let (_, left, right) ← change₂ .page (left.mergeFromRight right sib.separator)
          let (_, parent) ← change .page (parent.internalRemove sib.separator)
          if left.isLeaf then
            let next ← page .page left.next
            fixPrev next left.pageId
          expect (t.free right)
          drop left.pageId
          rebalance ancestors parent
        else
          let (newSep, left, right) ← change₂ .page (borrowSiblings left right sib)
          let (_, parent) ← change .page (parent.internalReplaceKey sib.separator newSep)
          drop right.pageId
          drop left.pageId
          drop parent.pageId
          clear (ancestors.map Prod.fst)
    else collapseRoot t node ((parent, idx) :: ancestors)

/-- `BTree::delete`. -/
def delete (fuel : Nat) (key : Key) : BT (Option Row) := unwinding do
  let root ← getRootWrite t fuel
  let (leaf, ancestors) ← deleteDescend key fuel root []
  let (removed, leaf) ← change .page (leaf.leafRemove key)
  match removed with
  | none =>
    clear (ancestors.map Prod.fst)
    drop leaf.pageId
    return none
  | some row =>
    rebalance t ancestors leaf
    return some row

end BTree

end RustDb
