/-
  RustDb.Types — identifiers, LSNs, slot entries and the size constants of the page format
  (`types/`, `page/mod.rs`), and how a call ends when it returns no value.

  The constants are stated as the source computes them; `const_*` gives their values.
-/

import RustDb.Lib.Bytes

namespace RustDb

/-- How a call ends without a value: an `Err`, a panic (`expect`, `unwrap`, `unreachable!`,
    a failed index), or a loop of the model cut off by its fuel. -/
inductive Fail (ε : Type) where
  | err (e : ε)
  | panic
  | outOfFuel
  deriving DecidableEq, Repr

/-- `?` into a wider error type. -/
def Fail.map {ε ε' : Type} (f : ε → ε') : Fail ε → Fail ε'
  | .err e => .err (f e)
  | .panic => .panic
  | .outOfFuel => .outOfFuel

@[simp] theorem Fail.map_err {ε ε' : Type} (f : ε → ε') (e : ε) : Fail.map f (.err e) = .err (f e) := rfl

/-- The kinds of `std::io::Error` the code makes or looks at. -/
inductive IoError where
  | unexpectedEof
  | invalidData
  | notFound
  | other
  deriving DecidableEq, Repr

/-! ## Identifiers -/

structure TableId where
  id : UInt32
  deriving DecidableEq, Repr

structure PageId where
  tableId : TableId
  pageNum : UInt32
  deriving DecidableEq, Repr

abbrev FrameId := Nat

inductive LsnError where
  | ioError (e : IoError)
  | zeroLsn
  deriving DecidableEq, Repr

/-- `Lsn`: its constructor refuses 0. -/
structure Lsn where
  val : UInt64
  ne_zero : val ≠ 0
  deriving DecidableEq, Repr

def Lsn.new (id : UInt64) : Except LsnError Lsn :=
  if h : id = 0 then .error .zeroLsn else .ok ⟨id, h⟩

/-- `PageLsn`. -/
abbrev PageLsn := Option Lsn

structure SlotEntry where
  offset : UInt16
  length : UInt16
  deriving DecidableEq, Repr

/-- `SlotEntry::range`: the first byte and the byte after the last. -/
def SlotEntry.range (s : SlotEntry) : Nat × Nat := (s.offset.toNat, s.offset.toNat + s.length.toNat)

/-! ## Constants -/

def pageSize : Nat := 4096
def slotEntrySize : Nat := 4
def pageIdSize : Nat := 8
def maxLeafHeaderSize : Nat := 41
def maxInternalHeaderSize : Nat := 23
def checksumOffset : Nat := 17
def maxLeafEntrySize : Nat := (pageSize - maxLeafHeaderSize) / 4
def maxInternalEntrySize : Nat := (pageSize - maxInternalHeaderSize - pageIdSize) / 4
def minKeyEncodedSize : Nat := 2
def minRowEncodedSize : Nat := 1 + minKeyEncodedSize
def minLeafHeaderSize : Nat := maxLeafHeaderSize - 2 * pageIdSize
def leafUsable : Nat := pageSize - maxLeafHeaderSize
def internalUsable : Nat := pageSize - maxInternalHeaderSize - pageIdSize
def leafUnderfullBytes : Nat := leafUsable / 2
def internalUnderfullBytes : Nat := (internalUsable - maxInternalEntrySize) / 2
def maxLeafItems : Nat := (pageSize - minLeafHeaderSize) / (slotEntrySize + minRowEncodedSize)
def maxInternalItems : Nat :=
  (pageSize - maxInternalHeaderSize - pageIdSize) / (slotEntrySize + pageIdSize + minKeyEncodedSize)
def maxFieldLen : Nat := maxLeafEntrySize - 1 - 2
def maxNumFields : Nat := 255

/-- `isize::MAX` on a 64-bit target: no vector is longer. -/
def isizeMax : Nat := 2 ^ 63 - 1

def leafTag : UInt8 := 1
def internalTag : UInt8 := 2
def metaTag : UInt8 := 3
def freeTag : UInt8 := 4

theorem const_pageSize : pageSize = 4096 := rfl
theorem const_slotEntrySize : slotEntrySize = 4 := rfl
theorem const_pageIdSize : pageIdSize = 8 := rfl
theorem const_maxLeafHeaderSize : maxLeafHeaderSize = 41 := rfl
theorem const_maxInternalHeaderSize : maxInternalHeaderSize = 23 := rfl
theorem const_checksumOffset : checksumOffset = 17 := rfl
theorem const_maxLeafEntrySize : maxLeafEntrySize = 1013 := rfl
theorem const_maxInternalEntrySize : maxInternalEntrySize = 1016 := rfl
theorem const_leafUnderfullBytes : leafUnderfullBytes = 2027 := rfl
theorem const_internalUnderfullBytes : internalUnderfullBytes = 1524 := rfl
theorem const_maxLeafItems : maxLeafItems = 581 := rfl
theorem const_maxInternalItems : maxInternalItems = 290 := rfl
theorem const_maxFieldLen : maxFieldLen = 1010 := rfl

end RustDb
