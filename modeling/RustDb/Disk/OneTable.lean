/-
  RustDb.Disk.OneTable — `FileDisk` as the disk of a pool, whose calls fail as they may.

  A read that fails reads nothing, a write that fails has written some of its bytes, a swap ends
  as its `Outcomes` say. What a file holds at a page's place is read as zeros beyond the file's
  end, as a hole in the file is; a page of zeros is refused (`deserialize_zeros`). So the file of
  one table
  - is a map from the table's ids to raw pages (`fileDisk_lawful`);
  - holds the pages of a swap, once swapped in, and no other that can be read
    (`fileDisk_swaps`).
-/

import RustDb.Bpm.OneTable
import RustDb.Codec.Burst
import RustDb.Disk.FileDisk

namespace RustDb

open Lib

namespace Disk

/-! ## A page's place in a file -/

/-- The bytes of a page's place in a file, zeros beyond the end of the file. -/
def place (content : List UInt8) (id : PageId) : List UInt8 :=
  (List.range pageSize).map fun i => content.getD (id.pageNum.toNat * pageSize + i) 0

theorem length_place (content : List UInt8) (id : PageId) : (place content id).length = pageSize := by
  rw [place, List.length_map, List.length_range]

theorem getElem_place (content : List UInt8) (id : PageId) {i : Nat} (h : i < (place content id).length) :
    (place content id)[i] = content.getD (id.pageNum.toNat * pageSize + i) 0 := by
  simp only [place, List.getElem_map, List.getElem_range]

theorem getD_writeAt (content : List UInt8) (offset : Nat) (bytes : List UInt8) (i : Nat) :
    (writeAt content offset bytes).getD i 0 =
      if offset ≤ i ∧ i < offset + bytes.length then bytes.getD (i - offset) 0 else content.getD i 0 := by
  have hpad : ((content ++ List.replicate (offset - content.length) 0).take offset).length = offset := by
    rw [List.length_take, List.length_append, List.length_replicate]
    omega
  have hbefore : i < offset → ((content ++ List.replicate (offset - content.length) 0).take offset)[i]?.getD 0 =
      content[i]?.getD 0 := by
    intro hi
    rw [List.getElem?_take_of_lt hi]
    by_cases hc : i < content.length
    · rw [List.getElem?_append_left hc]
    · rw [List.getElem?_append_right (by omega), List.getElem?_eq_none (l := content) (by omega), List.getElem?_replicate]
      split_ifs <;> rfl
  simp only [List.getD_eq_getElem?_getD, writeAt, List.append_assoc]
  by_cases hi : i < offset
  · rw [List.getElem?_append_left (by omega), hbefore hi, if_neg (by omega)]
  · rw [List.getElem?_append_right (by omega), hpad]
    by_cases hlt : i - offset < bytes.length
    · rw [List.getElem?_append_left hlt, if_pos (by omega)]
    · rw [List.getElem?_append_right (by omega), List.getElem?_drop, if_neg (by omega)]
      congr 2
      omega

theorem place_eq {content content' : List UInt8} {id : PageId}
    (h : ∀ i < pageSize, content'.getD (id.pageNum.toNat * pageSize + i) 0 =
      content.getD (id.pageNum.toNat * pageSize + i) 0) :
    place content' id = place content id :=
  List.map_congr_left fun i hi => h i (List.mem_range.mp hi)

/-- A page written whole stands in its place. -/
theorem place_writePage_self (content : List UInt8) (id : PageId) {raw : List UInt8} (h : raw.length = pageSize) :
    place (writePage content id raw) id = raw := by
  refine List.ext_getElem ((length_place _ _).trans h.symm) fun i hi hi' => ?_
  rw [length_place] at hi
  rw [getElem_place, writePage, getD_writeAt, if_pos (by omega), Nat.add_sub_cancel_left,
    List.getD_eq_getElem?_getD, List.getElem?_eq_getElem hi', Option.getD_some]

/-- What is written of a page leaves the places of the others. -/
theorem place_writePage_ne (content : List UInt8) {id id' : PageId} {raw : List UInt8} (h : raw.length ≤ pageSize)
    (hne : id'.pageNum ≠ id.pageNum) : place (writePage content id raw) id' = place content id' := by
  refine place_eq fun i hi => ?_
  rw [writePage, getD_writeAt, if_neg]
  rintro ⟨hle, hlt⟩
  rcases Nat.lt_or_gt_of_ne fun he => hne (UInt32.toNat_inj.mp he) with hlow | hhigh
  · have := Nat.mul_le_mul_right pageSize (Nat.succ_le_of_lt hlow)
    rw [Nat.succ_mul] at this
    omega
  · have := Nat.mul_le_mul_right pageSize (Nat.succ_le_of_lt hhigh)
    rw [Nat.succ_mul] at this
    omega

/-- A read of a file that is long enough returns what stands there. -/
theorem readPage_place {content : List UInt8} {id : PageId} (h : id.pageNum.toNat * pageSize + pageSize ≤ content.length) :
    readPage content id = .ok (place content id) := by
  have hpos : 0 < pageSize := by decide
  unfold readPage
  simp only
  rw [if_neg (by omega), if_neg (by omega)]
  refine congrArg Except.ok (List.ext_getElem ?_ fun i hi hi' => ?_)
  · rw [length_place, List.length_take, List.length_drop]
    omega
  · rw [getElem_place, List.getElem_take, List.getElem_drop, List.getD_eq_getElem?_getD, List.getElem?_eq_getElem,
      Option.getD_some]

theorem place_of_readPage {content : List UInt8} {id : PageId} {raw : List UInt8} (h : readPage content id = .ok raw) :
    place content id = raw := by
  by_cases hlen : id.pageNum.toNat * pageSize + pageSize ≤ content.length
  · exact Except.ok.inj ((readPage_place hlen).symm.trans h)
  · unfold readPage at h
    simp only at h
    split at h
    · cases h
    · rw [if_pos (by omega)] at h
      cases h

theorem length_writeAt (content : List UInt8) (offset : Nat) (bytes : List UInt8) :
    (writeAt content offset bytes).length = max content.length (offset + bytes.length) := by
  simp only [writeAt, List.length_append, List.length_take, List.length_drop, List.length_replicate]
  omega

/-- What is written is read back. -/
theorem readPage_writePage (content : List UInt8) (id : PageId) {raw : List UInt8} (h : raw.length = pageSize) :
    readPage (writePage content id raw) id = .ok raw := by
  have hlen : id.pageNum.toNat * pageSize + pageSize ≤ (writePage content id raw).length := by
    rw [writePage, length_writeAt, h]
    exact Nat.le_max_right _ _
  rw [readPage_place hlen, place_writePage_self content id h]

theorem place_nil (id : PageId) : place [] id = List.replicate pageSize 0 := by
  rw [place]
  simp

/-! ## The disk of a pool -/

/-- How a call of the pool ends: with an error, where there is one. A write that fails has
    written that many bytes. -/
structure CallOutcome where
  read : Option IoError
  write : Option (IoError × Nat)
  sync : Option IoError
  swap : Outcomes

/-- A `FileDisk` in its file system, and how many calls have been made. -/
structure Mounted where
  disk : FileDisk
  fs : FileSystem
  calls : Nat

/-- What the file holds. -/
def Mounted.content (s : Mounted) : List UInt8 := s.fs.content s.disk.file

/-- `impl DiskManager for FileDisk`; the calls end as `o` says, in their order. -/
def fileDisk (P : Platform) (o : Nat → CallOutcome) : Bpm.DiskManager Mounted where
  readPage id s :=
    match (o s.calls).read with
    | some e => (.error e, { s with calls := s.calls + 1 })
    | none => (readPage s.content id, { s with calls := s.calls + 1 })
  writePage id raw s :=
    match (o s.calls).write with
    | some (e, written) =>
      (.error e, { s with
        fs := s.fs.setContent s.disk.file (writePage s.content id (raw.take written))
        calls := s.calls + 1 })
    | none => (.ok (), { s with fs := s.fs.setContent s.disk.file (writePage s.content id raw), calls := s.calls + 1 })
  sync s :=
    match (o s.calls).sync with
    | some e => (.error e, { s with calls := s.calls + 1 })
    | none => (.ok (), { s with calls := s.calls + 1 })
  swapFile pages s :=
    match swapFile P (o s.calls).swap pages s.disk s.fs with
    | (r, disk, fs) => (r, ⟨disk, fs, s.calls + 1⟩)

/-- The raw pages of one table in its file. -/
def pagesOf (table : TableId) (s : Mounted) (id : PageId) : Option (List UInt8) :=
  if id.tableId = table then some (place s.content id) else none

section
variable {P : Platform} {o : Nat → CallOutcome} {table : TableId}

/-- Two pages of one table differ in their numbers. -/
theorem pageNum_ne {id id' : PageId} (htable : id'.tableId = id.tableId) (hne : id' ≠ id) : id'.pageNum ≠ id.pageNum := by
  rcases id with ⟨t, num⟩
  rcases id' with ⟨t', num'⟩
  rintro rfl
  cases htable
  exact hne rfl

/-- The file after a write, whole or in part. -/
theorem pagesOf_write (s : Mounted) {id id' : PageId} {raw : List UInt8} {calls : Nat} (h : raw.length ≤ pageSize)
    (hid : id.tableId = table) (hne : id' ≠ id) :
    pagesOf table { s with fs := s.fs.setContent s.disk.file (writePage s.content id raw), calls := calls } id' =
      pagesOf table s id' := by
  by_cases htable : id'.tableId = table
  · simp only [pagesOf, if_pos htable, Mounted.content, FileSystem.setContent_self]
    rw [place_writePage_ne _ h (pageNum_ne (htable.trans hid.symm) hne)]
  · simp only [pagesOf, if_neg htable]

/-- The file of one table is a map from the table's ids to raw pages. -/
theorem fileDisk_lawful : ((fileDisk P o).ofTable table).Lawful P (pagesOf table) where
  read_ok {id s s' raw} h := by
    simp only [Bpm.DiskManager.ofTable, fileDisk] at h
    split at h
    · rename_i hid
      split at h
      · cases h
      · obtain ⟨hread, -⟩ := Prod.mk.inj h
        rw [pagesOf, if_pos hid, place_of_readPage hread]
    · cases h
  read_same id s := by
    simp only [Bpm.DiskManager.ofTable, fileDisk]
    split
    · split <;> rfl
    · rfl
  write_ok {page s s' raw} hraw h := by
    simp only [Bpm.DiskManager.ofTable, fileDisk] at h
    split at h
    · rename_i hid
      split at h
      · cases h
      · cases h
        funext id
        by_cases he : id = page.pageId
        · subst he
          simp only [Function.update_self, pagesOf, if_pos hid, Mounted.content, FileSystem.setContent_self]
          rw [place_writePage_self _ _ (Page.asRawPage_matches hraw).1]
        · rw [Function.update_of_ne he]
          exact pagesOf_write s (Page.asRawPage_matches hraw).1.le hid he
    · cases h
  write_error {page s s' raw e} hraw h id hne := by
    simp only [Bpm.DiskManager.ofTable, fileDisk] at h
    split at h
    · rename_i hid
      split at h
      · cases h
        refine pagesOf_write s ?_ hid hne
        rw [List.length_take, (Page.asRawPage_matches hraw).1]
        exact Nat.min_le_right _ _
      · cases h
    · cases h
      rfl
  sync_same s := by
    simp only [Bpm.DiskManager.ofTable, fileDisk]
    split <;> rfl

end

/-! ## The swap -/

section
variable {P : Platform} {o : Outcomes} {table : TableId}

/-- What the loop of `swap_file` leaves in each place: the last page written there, or what was
    there before. -/
theorem place_of_writePages {pages : List Page} {i : Nat} {content content' : List UInt8}
    (hpages : ∀ page ∈ pages, page.pageId.tableId = table) (h : writePages P o i pages content = (.ok (), content'))
    {id : PageId} (hid : id.tableId = table) :
    (∀ page, (Store.ofPages pages).page id = some page → page.asRawPage P = .ok (place content' id)) ∧
      ((Store.ofPages pages).page id = none → place content' id = place content id) := by
  induction pages generalizing i content with
  | nil =>
    cases h
    exact ⟨fun _ h => (Option.some_ne_none _ h.symm).elim, fun _ => rfl⟩
  | cons page pages ih =>
    unfold writePages at h
    split at h
    · cases h
    rcases hraw : page.asRawPage P with e | raw
    · simp only [hraw] at h
      cases h
    simp only [hraw] at h
    split at h
    · cases h
    obtain ⟨hsome, hnone⟩ := ih (fun q hq => hpages q (List.mem_cons_of_mem _ hq)) h
    rw [Store.ofPages_cons]
    rcases hfound : (Store.ofPages pages).page id with _ | q
    · -- no later page has its place
      rw [hnone hfound, Option.none_or]
      by_cases he : page.pageId = id
      · subst he
        rw [if_pos rfl, place_writePage_self _ _ (Page.asRawPage_matches hraw).1]
        exact ⟨fun q hq => Option.some.inj hq ▸ hraw, fun h => (Option.some_ne_none _ h).elim⟩
      · rw [if_neg he, place_writePage_ne _ (Page.asRawPage_matches hraw).1.le
          (pageNum_ne (hid.trans (hpages page List.mem_cons_self).symm) (Ne.symm he))]
        exact ⟨fun _ h => (Option.some_ne_none _ h.symm).elim, fun _ => rfl⟩
    · exact ⟨fun p hp => Option.some.inj hp ▸ hsome q hfound, fun h => (Option.some_ne_none _ h).elim⟩

/-- A swap that succeeds has written all pages, and leaves the handle on the new file. -/
theorem swapFile_written {pages : List Page} {disk disk' : FileDisk} {fs fs' : FileSystem}
    (h : swapFile P o pages disk fs = (.ok (), disk', fs')) :
    writePages P o 0 pages [] = (.ok (), fs'.content disk'.file) := by
  unfold swapFile at h
  split at h
  · cases h
  rcases hc : fs.create (disk.path.withExtension ['v', 'a', 'c']) with ⟨file, fs₁⟩
  rcases hw : writePages P o 0 pages [] with ⟨_ | _, content⟩
  · simp only [hc, hw] at h
    cases h
  have htemp : fs₁.name (disk.path.withExtension ['v', 'a', 'c']) = some file := by
    have hname := @FileSystem.create_name fs (disk.path.withExtension ['v', 'a', 'c'])
    rwa [hc] at hname
  simp only [hc, hw, FileSystem.rename_target, FileSystem.setContent_name, htemp] at h
  split at h
  · cases h
  split at h
  · cases h
  split at h
  · cases h
  split at h
  · cases h
  cases h
  rw [FileSystem.rename_content, FileSystem.setContent_self]

/-- The file that the loop has written holds its pages, and zeros in the other places. -/
theorem pagesOf_written {pages : List Page} {s : Mounted} (hpages : ∀ page ∈ pages, page.pageId.tableId = table)
    (h : writePages P o 0 pages [] = (.ok (), s.content)) : Bpm.Stores P (pagesOf table s) pages := by
  intro id
  rcases hp : (Store.ofPages pages).page id with _ | page
  · by_cases hid : id.tableId = table
    · have hzero := ((place_of_writePages hpages h hid).2 hp).trans (place_nil id)
      simp only [Bpm.diskPage, pagesOf, if_pos hid, Option.bind_some, hzero]
      rcases hd : Page.deserialize P (List.replicate pageSize 0) with e | page
      · rfl
      · exact absurd hd (Page.deserialize_zeros P page)
    · simp only [Bpm.diskPage, pagesOf, if_neg hid]
      rfl
  · have hid : id.tableId = table := Store.named _ hp ▸ hpages page (Store.mem_of_page hp)
    exact ⟨_, (place_of_writePages hpages h hid).1 page hp, by simp only [pagesOf, if_pos hid]⟩

/-- So does a file swapped in. -/
theorem fileDisk_swaps {o : Nat → CallOutcome} : ((fileDisk P o).ofTable table).Swaps P (pagesOf table) := by
  intro pages s s' h
  simp only [Bpm.DiskManager.ofTable, fileDisk] at h
  split at h
  · rename_i hpages
    obtain ⟨hresult, rfl⟩ := Prod.mk.inj h
    exact pagesOf_written hpages (swapFile_written (Prod.ext hresult rfl))
  · cases h

end

end Disk

end RustDb
