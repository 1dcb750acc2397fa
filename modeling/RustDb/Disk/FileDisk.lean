/-
  RustDb.Disk.FileDisk — pages in one file, and the swap of that file for a new one
  (`disk/mod.rs`).

  The file system is a map from paths to files: a name leads to a file, a handle holds on to
  its file whatever the names do. Each call to the file system succeeds or fails as an
  `Outcomes` says, except that the empty path is no directory that can be opened.

  `swap_file` renames the new file over the old one and only then reopens the path. Proved:
  `swapFile_sound_iff`, when the handle it leaves is the file under the path and a failed swap
  leaves the pages as they were. A failure between the rename and the reopening breaks it; a
  path without a directory part, whose `parent()` is the empty path, always fails there
  (`swapFile_relative`). A path that ends in `.vac` is its own temporary path: a swap that fails
  after it has truncated that file has written over the pages (`swapFile_overwrites`).
-/

import RustDb.Codec.RoundTrip

namespace RustDb

namespace Disk

open Page

/-! ## Paths -/

inductive PathComponent where
  | curDir
  | parentDir
  | normal (name : List Char)
  deriving DecidableEq

/-- A path as the components it is taken apart into. -/
structure Path where
  root : Bool
  components : List PathComponent
  deriving DecidableEq

namespace Path

/-- `Path::parent`: none of a root and of the empty path. -/
def parent (p : Path) : Option Path :=
  if p.components = [] then none else some { p with components := p.components.dropLast }

/-- `Path::file_stem` of a name: what stands before its last dot, unless nothing does. -/
def fileStem (name : List Char) : List Char :=
  match name.reverse.dropWhile (· ≠ '.') with
  | [] => name
  | _ :: before => if before = [] then name else before.reverse

/-- `Path::with_extension`; a path without a file name stays as it is. -/
def withExtension (p : Path) (extension : List Char) : Path :=
  match p.components.getLast? with
  | some (.normal name) =>
    { p with components := p.components.dropLast ++ [.normal (fileStem name ++ '.' :: extension)] }
  | _ => p

def isEmpty (p : Path) : Bool := !p.root && p.components.isEmpty

end Path

/-! ## Files -/

/-- What a handle refers to, whatever its names. -/
structure FileId where
  id : Nat
  deriving DecidableEq

structure FileSystem where
  name : Path → Option FileId
  content : FileId → List UInt8
  fresh : FileId
  used : ∀ {path : Path} {file : FileId}, name path = some file → file.id < fresh.id

/-- Bytes written at an offset; a gap before it is filled with zeros. -/
def writeAt (content : List UInt8) (offset : Nat) (bytes : List UInt8) : List UInt8 :=
  (content ++ List.replicate (offset - content.length) 0).take offset ++ bytes ++ content.drop (offset + bytes.length)

namespace FileSystem

def setContent (fs : FileSystem) (file : FileId) (content : List UInt8) : FileSystem :=
  { fs with content := fun f => if f = file then content else fs.content f }

/-- `File::create`: an existing file is truncated, a new one is empty. -/
def create (fs : FileSystem) (path : Path) : FileId × FileSystem :=
  match fs.name path with
  | some file => (file, fs.setContent file [])
  | none => (fs.fresh, {
      name := fun p => if p = path then some fs.fresh else fs.name p
      content := (fs.setContent fs.fresh []).content
      fresh := ⟨fs.fresh.id + 1⟩
      used := by
        intro p file h
        split at h
        · cases h; exact Nat.lt_succ_self _
        · exact Nat.lt_succ_of_lt (fs.used h) })

/-- `std::fs::rename`: the new name leads to the old name's file. Two names of one file are
    left as they are. -/
def rename (fs : FileSystem) (source target : Path) : FileSystem :=
  if fs.name source = fs.name target then fs
  else {
    fs with
    name := fun p => if p = target then fs.name source else if p = source then none else fs.name p
    used := by
      intro p file h
      split at h
      · exact fs.used h
      · split at h
        · cases h
        · exact fs.used h }

end FileSystem

/-! ## The disk manager -/

structure FileDisk where
  file : FileId
  path : Path

/-- Whether each call of a swap to the file system succeeds. Seeking and writing are per
    page; a write that fails has written some bytes. -/
structure Outcomes where
  create : Bool
  seek : Nat → Bool
  write : Nat → Bool
  written : Nat → Nat
  syncFile : Bool
  rename : Bool
  openDir : Bool
  syncDir : Bool
  reopen : Bool

/-- `FileDisk::read_page`, of the bytes of a file. -/
def readPage (content : List UInt8) (id : PageId) : Except IoError (List UInt8) :=
  let offset := id.pageNum.toNat * pageSize
  if offset ≥ content.length then .error .notFound
  else if content.length < offset + pageSize then .error .unexpectedEof
  else .ok ((content.drop offset).take pageSize)

/-- `FileDisk::write_page`, of the bytes of a file. -/
def writePage (content : List UInt8) (id : PageId) (raw : List UInt8) : List UInt8 :=
  writeAt content (id.pageNum.toNat * pageSize) raw

variable (P : Platform)

/-- The loop of `swap_file` over the pages from the `i`-th on: its result and the file's
    bytes. `expect("write failed")` panics on a page that cannot be encoded or written. -/
def writePages (o : Outcomes) : Nat → List Page → List UInt8 → Except (Fail IoError) Unit × List UInt8
  | _, [], content => (.ok (), content)
  | i, page :: pages, content =>
    if !o.seek i then (.error (.err .other), content)
    else match page.asRawPage P with
      | .error _ => (.error .panic, content)
      | .ok raw =>
        if !o.write i then (.error .panic, writePage content page.pageId (raw.take (o.written i)))
        else writePages o (i + 1) pages (writePage content page.pageId raw)

/-- Opening and syncing the directory of a path. -/
def syncParent (o : Outcomes) (path : Path) : Bool :=
  match path.parent with
  | some dir => !dir.isEmpty && o.openDir && o.syncDir
  | none => true

/-- `FileDisk::swap_file`. -/
def swapFile (o : Outcomes) (pages : List Page) (disk : FileDisk) (fs : FileSystem) :
    Except (Fail IoError) Unit × FileDisk × FileSystem :=
  let tempPath := disk.path.withExtension ['v', 'a', 'c']
  if !o.create then (.error (.err .other), disk, fs)
  else
    let (tempFile, fs) := fs.create tempPath
    let (result, content) := writePages P o 0 pages []
    let fs := fs.setContent tempFile content
    match result with
    | .error e => (.error e, disk, fs)
    | .ok () =>
      if !o.syncFile then (.error (.err .other), disk, fs)
      else if !o.rename then (.error (.err .other), disk, fs)
      else
        let fs := fs.rename tempPath disk.path
        if !syncParent o disk.path then (.error (.err .other), disk, fs)
        else if !o.reopen then (.error (.err .other), disk, fs)
        else match fs.name disk.path with
          | none => (.error (.err .notFound), disk, fs)
          | some file => (.ok (), { disk with file := file }, fs)

/-! ## Files and names -/

namespace FileSystem

variable {fs : FileSystem} {path source target : Path} {file f : FileId}

@[simp] theorem setContent_name (content : List UInt8) : (fs.setContent file content).name = fs.name := rfl

@[simp] theorem setContent_self (content : List UInt8) : (fs.setContent file content).content file = content := if_pos rfl

theorem setContent_ne {content : List UInt8} (h : f ≠ file) : (fs.setContent file content).content f = fs.content f :=
    if_neg h

theorem unnamed_fresh (path : Path) : fs.name path ≠ some fs.fresh := fun h => Nat.lt_irrefl _ (fs.used h)

/-- The file created is the one under the path, or one without a name before. -/
theorem create_file : fs.name path = some (fs.create path).1 ∨ ∀ p, fs.name p ≠ some (fs.create path).1 := by
  unfold create
  split
  · exact Or.inl ‹_›
  · exact Or.inr unnamed_fresh

theorem create_name : (fs.create path).2.name path = some (fs.create path).1 := by
  unfold create
  split
  · exact ‹_›
  · exact if_pos rfl

theorem create_name_of_some {p : Path} (h : fs.name p = some f) : (fs.create path).2.name p = some f := by
  unfold create
  split
  · exact h
  · rename_i hnone
    refine (if_neg ?_).trans h
    rintro rfl
    cases hnone.symm.trans h

theorem create_content (h : f ≠ (fs.create path).1) : (fs.create path).2.content f = fs.content f := by
  unfold create at h ⊢
  split at h
  · exact setContent_ne h
  · exact setContent_ne h

@[simp] theorem rename_content : (fs.rename source target).content = fs.content := by
  unfold rename
  split <;> rfl

theorem rename_target : (fs.rename source target).name target = fs.name source := by
  unfold rename
  split
  · exact Eq.symm ‹_›
  · exact if_pos rfl

end FileSystem

/-! ## Writing the pages -/

section
variable {P} {o : Outcomes} {pages : List Page}

/-- The `i`-th page of a swap is found its place, encoded and written. -/
def PageWritten (P : Platform) (o : Outcomes) (i : Nat) (page : Page) : Prop :=
  o.seek i = true ∧ (∃ raw, page.asRawPage P = .ok raw) ∧ o.write i = true

/-- Every page from the `i`-th on is written. -/
def AllWritten (P : Platform) (o : Outcomes) : Nat → List Page → Prop
  | _, [] => True
  | i, page :: pages => PageWritten P o i page ∧ AllWritten P o (i + 1) pages

/-- The first page that is not written has found its place, so that `expect` panics. -/
def WritePanics (P : Platform) (o : Outcomes) : Nat → List Page → Prop
  | _, [] => False
  | i, page :: pages => (o.seek i = true ∧ ¬ PageWritten P o i page) ∨
      (PageWritten P o i page ∧ WritePanics P o (i + 1) pages)

/-- How the loop over the pages ends. -/
theorem writePages_cases : ∀ (i : Nat) (pages : List Page) (content : List UInt8),
    ((writePages P o i pages content).1 = .ok () ∧ AllWritten P o i pages ∧ ¬ WritePanics P o i pages) ∨
    ((writePages P o i pages content).1 = .error .panic ∧ ¬ AllWritten P o i pages ∧ WritePanics P o i pages) ∨
    ((writePages P o i pages content).1 = .error (.err .other) ∧ ¬ AllWritten P o i pages ∧ ¬ WritePanics P o i pages)
  | _, [], _ => Or.inl ⟨rfl, trivial, id⟩
  | i, page :: pages, content => by
    by_cases hseek : o.seek i = true
    · by_cases hp : PageWritten P o i page
      · obtain ⟨-, ⟨raw, hraw⟩, hwrite⟩ := id hp
        have hstep : writePages P o i (page :: pages) content =
            writePages P o (i + 1) pages (writePage content page.pageId raw) := by
          simp only [writePages, hseek, hraw, hwrite, Bool.not_true, Bool.false_eq_true, if_false]
        have hpanic : WritePanics P o i (page :: pages) ↔ WritePanics P o (i + 1) pages :=
          ⟨fun h => (h.resolve_left fun hno => hno.2 hp).2, fun h => Or.inr ⟨hp, h⟩⟩
        rw [hstep, hpanic]
        rcases writePages_cases (i + 1) pages (writePage content page.pageId raw) with ⟨h, ha, hw⟩ | ⟨h, ha, hw⟩ |
            ⟨h, ha, hw⟩
        · exact Or.inl ⟨h, ⟨hp, ha⟩, hw⟩
        · exact Or.inr (Or.inl ⟨h, fun hall => ha hall.2, hw⟩)
        · exact Or.inr (Or.inr ⟨h, fun hall => ha hall.2, hw⟩)
      · refine Or.inr (Or.inl ⟨?_, fun hall => hp hall.1, Or.inl ⟨hseek, hp⟩⟩)
        simp only [writePages, hseek, Bool.not_true, Bool.false_eq_true, if_false]
        cases hraw : page.asRawPage P with
        | error e => rfl
        | ok raw =>
          have hwrite : o.write i = false := by
            by_contra hw
            exact hp ⟨hseek, ⟨raw, hraw⟩, by simpa using hw⟩
          simp only [hwrite, Bool.not_false, if_true]
    · refine Or.inr (Or.inr ⟨?_, fun hall => hseek hall.1.1, ?_⟩)
      · simp only [writePages, hseek, Bool.not_false, if_true]
      · rintro (⟨h, -⟩ | ⟨hp, -⟩)
        · exact hseek h
        · exact hseek hp.1

end

/-! ## What a swap keeps -/

variable (o : Outcomes) (pages : List Page) (disk : FileDisk) (fs : FileSystem)

/-- When the call returns, the handle is the file under the path, and after an error every
    page reads as before. -/
def SwapKeeps (out : Except (Fail IoError) Unit × FileDisk × FileSystem) : Prop :=
  out.1 ≠ .error .panic → out.2.2.name out.2.1.path = some out.2.1.file ∧
    ∀ e, out.1 = .error e → ∀ id, readPage (out.2.2.content out.2.1.file) id = readPage (fs.content disk.file) id

/-- The new file is written, and takes the old one's name. -/
def Renamed : Prop :=
  o.create = true ∧ AllWritten P o 0 pages ∧ o.syncFile = true ∧ o.rename = true

/-- Every call after the rename succeeds; the empty path cannot be opened. -/
def Reopened : Prop :=
  (∀ dir, disk.path.parent = some dir → dir.isEmpty = false ∧ o.openDir = true ∧ o.syncDir = true) ∧ o.reopen = true

/-- The file a swap writes to has the disk's own file under its name. -/
def OwnTemp : Prop := fs.name (disk.path.withExtension ['v', 'a', 'c']) = some disk.file

/-- A swap that writes a file of its own keeps the handle and the pages: nothing fails any more
    once the file is renamed. -/
def SwapSafe : Prop := Renamed P o pages → Reopened o disk

/-- A swap that writes over the disk's own file: it never comes to that, panics, or succeeds. -/
def OverwriteSafe : Prop := o.create = false ∨ WritePanics P o 0 pages ∨ (Renamed P o pages ∧ Reopened o disk)

section
variable {P o pages disk fs} {fs' : FileSystem} {e : IoError}

theorem swapKeeps_error : SwapKeeps disk fs (.error (.err e), disk, fs') ↔ fs'.name disk.path = some disk.file ∧
    ∀ id, readPage (fs'.content disk.file) id = readPage (fs.content disk.file) id := by
  constructor
  · intro h
    obtain ⟨hname, hread⟩ := h (by intro he; cases he)
    exact ⟨hname, hread _ rfl⟩
  · rintro ⟨hname, hread⟩ -
    exact ⟨hname, fun _ _ => hread⟩

/-- The file created is the disk's own exactly if the temporary path led to it. -/
theorem ownTemp_iff (hnamed : fs.name disk.path = some disk.file) :
    OwnTemp disk fs ↔ disk.file = (fs.create (disk.path.withExtension ['v', 'a', 'c'])).1 := by
  rcases @FileSystem.create_file fs (disk.path.withExtension ['v', 'a', 'c']) with h | h
  · rw [OwnTemp, h, Option.some.injEq, eq_comm]
  · refine iff_of_false (fun hown => ?_) fun he => h _ (he ▸ hnamed)
    have hcreate := @FileSystem.create_name_of_some fs (disk.path.withExtension ['v', 'a', 'c']) disk.file _ hown
    rw [FileSystem.create_name, Option.some.injEq] at hcreate
    exact h _ (hcreate ▸ hnamed)

/-- The state a swap is in when the pages are written, and the one when the file is renamed. -/
structure Written (disk : FileDisk) (fs : FileSystem) (content : List UInt8) (file : FileId) (fs₂ : FileSystem) : Prop where
  own : OwnTemp disk fs ↔ disk.file = file
  name : fs₂.name disk.path = some disk.file
  temp : fs₂.name (disk.path.withExtension ['v', 'a', 'c']) = some file
  new : fs₂.content file = content
  old : disk.file ≠ file → fs₂.content disk.file = fs.content disk.file

theorem create_written (hnamed : fs.name disk.path = some disk.file) {file : FileId} {fs₁ : FileSystem}
    (hc : fs.create (disk.path.withExtension ['v', 'a', 'c']) = (file, fs₁)) (content : List UInt8) :
    Written disk fs content file (fs₁.setContent file content) := by
  have hfile : (fs.create (disk.path.withExtension ['v', 'a', 'c'])).1 = file := congrArg Prod.fst hc
  have hfs : (fs.create (disk.path.withExtension ['v', 'a', 'c'])).2 = fs₁ := congrArg Prod.snd hc
  exact {
    own := hfile ▸ ownTemp_iff hnamed
    name := hfs ▸ FileSystem.create_name_of_some hnamed
    temp := by
      rw [FileSystem.setContent_name, ← hfs, FileSystem.create_name, hfile]
    new := FileSystem.setContent_self content
    old := fun hne => by
      rw [FileSystem.setContent_ne hne, ← hfs, FileSystem.create_content (hfile ▸ hne)] }

variable {content : List UInt8} {file : FileId}

/-- A failure before the rename. -/
theorem Written.keeps_before (h : Written disk fs content file fs') :
    SwapKeeps disk fs (.error (.err e), disk, fs') ↔
      (OwnTemp disk fs → ∀ id, readPage content id = readPage (fs.content disk.file) id) := by
  rw [swapKeeps_error, h.own]
  by_cases hown : disk.file = file
  · rw [hown, h.new]
    exact ⟨fun hk _ => hk.2, fun hread => ⟨hown ▸ h.name, hread rfl⟩⟩
  · rw [h.old hown]
    exact iff_of_true ⟨h.name, fun _ => rfl⟩ fun he => absurd he hown

/-- A failure after the rename. -/
theorem Written.keeps_after (h : Written disk fs content file fs') :
    SwapKeeps disk fs (.error (.err e), disk, fs'.rename (disk.path.withExtension ['v', 'a', 'c']) disk.path) ↔
      OwnTemp disk fs ∧ ∀ id, readPage content id = readPage (fs.content disk.file) id := by
  rw [swapKeeps_error, h.own, FileSystem.rename_target, FileSystem.rename_content, h.temp, Option.some.injEq,
    eq_comm]
  by_cases hown : disk.file = file
  · rw [hown, h.new]
  · exact iff_of_false (fun hk => hown hk.1) fun hk => hown hk.1

/-- A swap that succeeds reopens the path. -/
theorem Written.keeps_done (h : Written disk fs content file fs') :
    SwapKeeps disk fs (.ok (), { disk with file := file }, fs'.rename (disk.path.withExtension ['v', 'a', 'c']) disk.path) :=
  fun _ => ⟨FileSystem.rename_target.trans h.temp, fun e he => by cases he⟩

end

theorem syncParent_iff : syncParent o disk.path = true ↔
    ∀ dir, disk.path.parent = some dir → dir.isEmpty = false ∧ o.openDir = true ∧ o.syncDir = true := by
  unfold syncParent
  cases disk.path.parent with
  | none => exact iff_of_true rfl (fun dir h => by cases h)
  | some dir => simp [and_assoc]

/-! ## How a swap ends -/

section
variable {P o pages disk fs}

theorem Renamed.written (hr : Renamed P o pages) : (writePages P o 0 pages []).1 = .ok () ∧ ¬ WritePanics P o 0 pages := by
  rcases @writePages_cases P o 0 pages [] with ⟨h, -, hpanic⟩ | ⟨-, hall, -⟩ | ⟨-, hall, -⟩
  · exact ⟨h, hpanic⟩
  · exact absurd hr.2.1 hall
  · exact absurd hr.2.1 hall

theorem swapFile_panics (hcreate : o.create = true) (hpanic : WritePanics P o 0 pages) :
    (swapFile P o pages disk fs).1 = .error .panic := by
  rcases hc : fs.create (disk.path.withExtension ['v', 'a', 'c']) with ⟨file, fs₁⟩
  rcases hw : writePages P o 0 pages [] with ⟨result, content⟩
  have hcases := @writePages_cases P o 0 pages []
  rw [hw] at hcases
  rcases hcases with ⟨-, -, hno⟩ | ⟨rfl, -, -⟩ | ⟨-, -, hno⟩
  · exact absurd hpanic hno
  · simp only [swapFile, hcreate, hc, hw, Bool.not_true, Bool.false_eq_true, if_false]
  · exact absurd hpanic hno

theorem swapFile_before (hnamed : fs.name disk.path = some disk.file) (hcreate : o.create = true)
    (hpanic : ¬ WritePanics P o 0 pages) (hr : ¬ Renamed P o pages) : ∃ file fs₂,
    Written disk fs (writePages P o 0 pages []).2 file fs₂ ∧
    swapFile P o pages disk fs = (.error (.err .other), disk, fs₂) := by
  rcases hc : fs.create (disk.path.withExtension ['v', 'a', 'c']) with ⟨file, fs₁⟩
  rcases hw : writePages P o 0 pages [] with ⟨result, content⟩
  refine ⟨file, fs₁.setContent file content, create_written hnamed hc content, ?_⟩
  have hcases := @writePages_cases P o 0 pages []
  rw [hw] at hcases
  rcases hcases with ⟨rfl, hall, -⟩ | ⟨-, -, hp⟩ | ⟨rfl, -, -⟩
  · by_cases hsync : o.syncFile = true
    · have hrename : o.rename = false := by
        by_contra hne
        exact hr ⟨hcreate, hall, hsync, by simpa using hne⟩
      simp only [swapFile, hcreate, hc, hw, hsync, hrename, Bool.not_true, Bool.not_false, Bool.false_eq_true, if_false,
        if_true]
    · simp only [swapFile, hcreate, hc, hw, hsync, Bool.not_true, Bool.not_false, Bool.false_eq_true, if_false, if_true]
  · exact absurd hp hpanic
  · simp only [swapFile, hcreate, hc, hw, Bool.not_true, Bool.false_eq_true, if_false]

/-- A swap that renames the file and then fails to reopen the path, or does reopen it. -/
theorem swapFile_after (hnamed : fs.name disk.path = some disk.file) (hr : Renamed P o pages) : ∃ file fs₂,
    Written disk fs (writePages P o 0 pages []).2 file fs₂ ∧
    (¬ Reopened o disk → swapFile P o pages disk fs =
      (.error (.err .other), disk, fs₂.rename (disk.path.withExtension ['v', 'a', 'c']) disk.path)) ∧
    (Reopened o disk → swapFile P o pages disk fs =
      (.ok (), { disk with file := file }, fs₂.rename (disk.path.withExtension ['v', 'a', 'c']) disk.path)) := by
  obtain ⟨hok, -⟩ := hr.written
  obtain ⟨hcreate, -, hsync, hrename⟩ := hr
  rcases hc : fs.create (disk.path.withExtension ['v', 'a', 'c']) with ⟨file, fs₁⟩
  rcases hw : writePages P o 0 pages [] with ⟨result, content⟩
  obtain rfl : result = .ok () := by rw [hw] at hok; exact hok
  have h := create_written hnamed hc content
  have hname := (@FileSystem.rename_target (fs₁.setContent file content) _ disk.path).trans h.temp
  refine ⟨file, fs₁.setContent file content, h, fun hno => ?_, fun hre => ?_⟩
  · by_cases hdir : syncParent o disk.path = true
    · have hopen : o.reopen = false := by
        by_contra hne
        exact hno ⟨(syncParent_iff o disk).mp hdir, by simpa using hne⟩
      simp only [swapFile, hcreate, hc, hw, hsync, hrename, hdir, hopen, Bool.not_true, Bool.not_false,
        Bool.false_eq_true, if_false,
        if_true]
    · simp only [swapFile, hcreate, hc, hw, hsync, hrename, hdir, Bool.not_true, Bool.not_false, Bool.false_eq_true,
        if_false,
        if_true]
  · have hdir := (syncParent_iff o disk).mpr hre.1
    simp only [swapFile, hcreate, hc, hw, hsync, hrename, hdir, hre.2, hname, Bool.not_true, Bool.false_eq_true, if_false]

end

/-- A swap that cannot create its file has done nothing. -/
theorem swapFile_uncreated (hnamed : fs.name disk.path = some disk.file) (hcreate : o.create = false) :
    SwapKeeps disk fs (swapFile P o pages disk fs) := by
  simp only [swapFile, hcreate, Bool.not_false, if_true]
  exact swapKeeps_error.mpr ⟨hnamed, fun _ => rfl⟩

/-- What a swap that writes over the disk's own file leaves there unless it concludes: an error,
    and what was written in place of the pages. -/
theorem swapFile_overwrites (hnamed : fs.name disk.path = some disk.file) (hown : OwnTemp disk fs)
    (hover : ¬ OverwriteSafe P o pages disk) :
    (swapFile P o pages disk fs).1 = .error (.err .other) ∧
      (swapFile P o pages disk fs).2.2.content disk.file = (writePages P o 0 pages []).2 := by
  have hcreate : o.create = true := by
    by_contra hno
    exact hover (Or.inl (by simpa using hno))
  have hpanic : ¬ WritePanics P o 0 pages := fun h => hover (Or.inr (Or.inl h))
  by_cases hr : Renamed P o pages
  · obtain ⟨file, fs₂, h, hfails, -⟩ := swapFile_after hnamed hr
    rw [hfails fun hre => hover (Or.inr (Or.inr ⟨hr, hre⟩))]
    refine ⟨rfl, ?_⟩
    rw [FileSystem.rename_content, h.own.mp hown]
    exact h.new
  · obtain ⟨file, fs₂, h, hout⟩ := swapFile_before hnamed hcreate hpanic hr
    rw [hout]
    refine ⟨rfl, ?_⟩
    rw [h.own.mp hown]
    exact h.new

/-- When a swap leaves the handle on the file under the path and, if it fails, the pages as they
    were: exactly when nothing fails after the rename; or, where the temporary path leads to the
    disk's own file, when it does not fail once that file is truncated. -/
theorem swapFile_sound_iff (hnamed : fs.name disk.path = some disk.file) :
    (¬ OwnTemp disk fs → (SwapKeeps disk fs (swapFile P o pages disk fs) ↔ SwapSafe P o pages disk)) ∧
    (OwnTemp disk fs → OverwriteSafe P o pages disk → SwapKeeps disk fs (swapFile P o pages disk fs)) := by
  constructor
  · intro hown
    by_cases hcreate : o.create = true
    · by_cases hpanic : WritePanics P o 0 pages
      · exact iff_of_true (fun hno => absurd (swapFile_panics hcreate hpanic) hno) fun hr => absurd hpanic hr.written.2
      · by_cases hr : Renamed P o pages
        · obtain ⟨file, fs₂, h, hfails, hdone⟩ := swapFile_after hnamed hr
          by_cases hre : Reopened o disk
          · rw [hdone hre]
            exact iff_of_true h.keeps_done fun _ => hre
          · rw [hfails hre, h.keeps_after]
            exact iff_of_false (fun hk => hown hk.1) fun hsafe => hre (hsafe hr)
        · obtain ⟨file, fs₂, h, hout⟩ := swapFile_before hnamed hcreate hpanic hr
          rw [hout, h.keeps_before]
          exact iff_of_true (fun he => absurd he hown) fun hr' => absurd hr' hr
    · exact iff_of_true (swapFile_uncreated P o pages disk fs hnamed (by simpa using hcreate))
        fun hr => absurd hr.1 hcreate
  · rintro - (hcreate | hpanic | ⟨hr, hre⟩)
    · exact swapFile_uncreated P o pages disk fs hnamed hcreate
    · by_cases hcreate : o.create = true
      · exact fun hno => absurd (swapFile_panics hcreate hpanic) hno
      · exact swapFile_uncreated P o pages disk fs hnamed (by simpa using hcreate)
    · obtain ⟨file, fs₂, h, -, hdone⟩ := swapFile_after hnamed hr
      rw [hdone hre]
      exact h.keeps_done

/-! ## Paths with and without a directory -/

/-- Every call succeeds that can. -/
def allSucceed : Outcomes := ⟨true, fun _ => true, fun _ => true, fun _ => 0, true, true, true, true, true⟩

/-- The file `t.db` alone. -/
def oneFile (path : Path) : FileSystem where
  name p := if p = path then some ⟨0⟩ else none
  content _ := []
  fresh := ⟨1⟩
  used h := by
    split at h
    · cases h; exact Nat.one_pos
    · cases h

/-- `t.db` in the current directory. -/
def relativePath : Path := ⟨false, [.normal ['t', '.', 'd', 'b']]⟩

/-- `/t.db`. -/
def absolutePath : Path := ⟨true, [.normal ['t', '.', 'd', 'b']]⟩

theorem freePage_written (o : Outcomes) (hseek : o.seek 0 = true) (hwrite : o.write 0 = true) :
    AllWritten .standard o 0 [emptyPage ⟨⟨0⟩, 0⟩ (.free none)] := by
  obtain ⟨raw, hraw, -⟩ := deserialize_asRawPage .standard (emptyPage ⟨⟨0⟩, 0⟩ (.free none)) rfl rfl
      (by intro records h; cases h)
  exact ⟨⟨hseek, ⟨raw, hraw⟩, hwrite⟩, trivial⟩

/-- A swap under an absolute path in which every call succeeds. -/
theorem swapFile_sound_iff_absolute :
    SwapKeeps ⟨⟨0⟩, absolutePath⟩ (oneFile absolutePath)
      (swapFile .standard allSucceed [emptyPage ⟨⟨0⟩, 0⟩ (.free none)] ⟨⟨0⟩, absolutePath⟩ (oneFile absolutePath)) := by
  have hown : ¬ OwnTemp ⟨⟨0⟩, absolutePath⟩ (oneFile absolutePath) := by
    unfold OwnTemp
    decide
  refine ((swapFile_sound_iff .standard allSucceed _ ⟨⟨0⟩, absolutePath⟩ (oneFile absolutePath) rfl).1 hown).mpr fun _ => ?_
  refine ⟨fun dir hdir => ?_, rfl⟩
  cases hdir
  exact ⟨rfl, rfl, rfl⟩

/-- A swap under a path without a directory part, in which every call succeeds that can, fails
    on opening the empty path and leaves the handle on a file that the path no longer names. -/
theorem swapFile_relative : ¬ SwapKeeps ⟨⟨0⟩, relativePath⟩ (oneFile relativePath)
    (swapFile .standard allSucceed [emptyPage ⟨⟨0⟩, 0⟩ (.free none)] ⟨⟨0⟩, relativePath⟩ (oneFile relativePath)) := by
  have hr : Renamed .standard allSucceed [emptyPage ⟨⟨0⟩, 0⟩ (.free none)] :=
    ⟨rfl, freePage_written allSucceed rfl rfl, rfl, rfl⟩
  have hno : ¬ Reopened allSucceed ⟨⟨0⟩, relativePath⟩ := fun hre => by
    cases (hre.1 ⟨false, []⟩ rfl).1
  obtain ⟨file, fs₂, h, hfails, -⟩ := @swapFile_after _ _ _ ⟨⟨0⟩, relativePath⟩ (oneFile relativePath) rfl hr
  rw [hfails hno, h.keeps_after]
  exact fun hk => absurd hk.1 (by unfold OwnTemp; decide)

end Disk

end RustDb
