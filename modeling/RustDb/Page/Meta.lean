/-
  RustDb.Page.Meta — the meta page and the free list threaded through free pages
  (`page/meta.rs`).

  Each operation is followed by what it does on a meta page, and on the free page it is
  given. `meta_bump_page_count` wraps at `2 ^ 32` as in a release build.
-/

import RustDb.Page.Basic

namespace RustDb

namespace Page

/-! ## The fields of the meta page -/

/-- `Page::meta_get_root_id`. -/
def metaGetRootId (self : Page) : PageResult PageId :=
  match self.body with | .metaPage rootId _ _ _ _ => .ok rootId | _ => .err .wrongPageType

/-- `Page::meta_set_root_id`. -/
def metaSetRootId (self : Page) (id : PageId) : PageResult Unit × Page :=
  match self.body with
  | .metaPage _ pageCount freeListHead schema tableName =>
    (.ok (), { self with body := .metaPage id pageCount freeListHead schema tableName })
  | _ => (.err .wrongPageType, self)

/-- `Page::meta_get_page_count`. -/
def metaGetPageCount (self : Page) : PageResult Nat :=
  match self.body with | .metaPage _ pageCount _ _ _ => .ok pageCount.toNat | _ => .err .wrongPageType

/-- `Page::meta_set_page_count`. -/
def metaSetPageCount (self : Page) (newCount : UInt32) : PageResult Unit × Page :=
  match self.body with
  | .metaPage rootId _ freeListHead schema tableName =>
    (.ok (), { self with body := .metaPage rootId newCount freeListHead schema tableName })
  | _ => (.err .wrongPageType, self)

/-- `Page::meta_get_schema`. -/
def metaGetSchema (self : Page) : PageResult Schema :=
  match self.body with | .metaPage _ _ _ schema _ => .ok schema | _ => .err .wrongPageType

/-- `Page::meta_get_table_name`. -/
def metaGetTableName (self : Page) : PageResult String :=
  match self.body with | .metaPage _ _ _ _ tableName => .ok tableName | _ => .err .wrongPageType

/-- `Page::meta_get_free_list_head`. -/
def metaGetFreeListHead (self : Page) : PageResult (Option PageId) :=
  match self.body with | .metaPage _ _ freeListHead _ _ => .ok freeListHead | _ => .err .wrongPageType

/-- `Page::meta_set_free_list_head`: answers the old head. -/
def metaSetFreeListHead (self : Page) (newHead : Option PageId) : PageResult (Option PageId) × Page :=
  match self.body with
  | .metaPage rootId pageCount freeListHead schema tableName =>
    (.ok freeListHead, { self with body := .metaPage rootId pageCount newHead schema tableName })
  | _ => (.err .wrongPageType, self)

/-- `Page::meta_bump_page_count`. -/
def metaBumpPageCount (self : Page) : PageResult PageId × Page :=
  match self.body with
  | .metaPage rootId pageCount freeListHead schema tableName =>
    (.ok ⟨rootId.tableId, pageCount⟩, { self with body := .metaPage rootId (pageCount + 1) freeListHead schema tableName })
  | _ => (.err .wrongPageType, self)

/-! ## The free list -/

/-- `Page::free_list_pop`. -/
def freeListPop (self page : Page) : PageResult PageId × Page :=
  match page.body, self.body with
  | .free next, .metaPage rootId pageCount freeListHead schema tableName =>
    if freeListHead ≠ some page.pageId then (.err (.notFreeListHead freeListHead page.pageId), self)
    else (.ok page.pageId, { self with body := .metaPage rootId pageCount next schema tableName })
  | _, _ => (.err .wrongPageType, self)

/-- `Page::free_list_push`: the result, this page, and the freed page. -/
def freeListPush (self freed : Page) : PageResult Unit × Page × Page :=
  match self.body, freed.body with
  | .metaPage rootId pageCount freeListHead schema tableName, .free _ =>
    let id := freed.pageId
    if id.tableId ≠ rootId.tableId then (.err (.wrongTable id), self, freed)
    else if id.pageNum = 0 then (.err .reservedPage, self, freed)
    else if id.pageNum ≥ pageCount then (.err (.pageOutOfRange id), self, freed)
    else if freeListHead = some id then (.err (.alreadyFree id), self, freed)
    else
      (.ok (), { self with body := .metaPage rootId pageCount (some id) schema tableName },
        { freed with body := .free freeListHead })
  | _, _ => (.err .wrongPageType, self, freed)

/-- `Page::free_next`. -/
def freeNext (self : Page) : PageResult (Option PageId) :=
  match self.body with | .free next => .ok next | _ => .err .wrongPageType

section
variable {id : PageId} {lsn : PageLsn} {rootId : PageId} {pageCount : UInt32} {schema : Schema} {tableName : String}

theorem freeListPop_head {head : PageId} {lsn' : PageLsn} {next : Option PageId} :
    freeListPop ⟨id, lsn, .metaPage rootId pageCount (some head) schema tableName⟩ ⟨head, lsn', .free next⟩ =
      (.ok head, ⟨id, lsn, .metaPage rootId pageCount next schema tableName⟩) := by
  simp [freeListPop]

theorem freeListPush_ok {freed : PageId} {lsn' : PageLsn} {head next : Option PageId}
    (ht : freed.tableId = rootId.tableId) (h0 : freed.pageNum ≠ 0) (hlt : freed.pageNum < pageCount)
    (hhead : head ≠ some freed) :
    freeListPush ⟨id, lsn, .metaPage rootId pageCount head schema tableName⟩ ⟨freed, lsn', .free next⟩ =
      (.ok (), ⟨id, lsn, .metaPage rootId pageCount (some freed) schema tableName⟩, ⟨freed, lsn', .free head⟩) := by
  have hge : ¬ freed.pageNum ≥ pageCount := by simpa using hlt
  simp [freeListPush, ht, h0, hge, hhead]

end

end Page

end RustDb
