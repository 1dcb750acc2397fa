/-
  RustDb.Codec.Fields — reading and writing what a page is made of: page ids, LSNs, slot
  entries, values, rows, keys, columns and schemas (`traits.rs`, `types/`, `schema/`).

  The checksum and the varint reader come from crates outside the repository: they are
  fields of `Platform`, with what the code relies on. A vector longer than `cap` cannot be
  allocated: asking for one is a panic.

  For each type, with `4096 ≤ cap` where a vector is allocated:
  - `*_roundtrip`: what was written is read back, whatever follows it.
  - `*_total`: reading ends in a value or an `Err`, never in a panic.
  - `*_serializable`: what was read can be written again.
-/

import RustDb.Page.Basic
import Mathlib.Algebra.Order.BigOperators.Group.List

namespace RustDb

open Lib.Bytes

/-- What the codec calls outside the repository. -/
structure Platform where
  /-- `crc32_light` over the bytes it is given. -/
  crc : List UInt8 → UInt32
  /-- `VarIntReader::read_varint::<usize>`. -/
  readVarint : List UInt8 → Except IoError (Nat × List UInt8)
  readVarint_encode : ∀ n, n < 2 ^ 64 → ∀ rest, readVarint (encode n ++ rest) = .ok (n, rest)
  readVarint_ok : ∀ bs n rest, readVarint bs = .ok (n, rest) → n < 2 ^ 64 ∧ ∃ as, as ≠ [] ∧ bs = as ++ rest

/-- One bit of CRC-32, reflected. -/
def crc32Bit (crc : UInt32) : UInt32 := if crc &&& 1 = 1 then (crc >>> 1) ^^^ 0xEDB88320 else crc >>> 1

def crc32 (bs : List UInt8) : UInt32 :=
  ~~~ bs.foldl (fun crc b => Nat.repeat crc32Bit 8 (crc ^^^ b.toUInt32)) 0xFFFFFFFF

/-- CRC-32 and LEB128, as the crates document them. -/
def Platform.standard : Platform where
  crc := crc32
  readVarint bs :=
    match Lib.Bytes.read bs with
    | .ok x => .ok x
    | .error .eof => .error .unexpectedEof
    | .error .unterminated => .error .invalidData
  readVarint_encode n hn rest := by simp [read_encode hn]
  readVarint_ok bs n rest h := by
    split at h
    · rename_i hread; cases h; exact read_ok hread
    · cases h
    · cases h

/-! ## Decoders -/

/-- `From<std::io::Error>`. -/
class FromIo (ε : Type) where
  io : IoError → ε

instance : FromIo IoError := ⟨id⟩
instance : FromIo LsnError := ⟨.ioError⟩
instance : FromIo RowValueError := ⟨.ioError⟩
instance : FromIo KeyError := ⟨fun e => .rowValue (.ioError e)⟩
instance : FromIo SchemaError := ⟨.ioError⟩
instance : FromIo PageError := ⟨.ioError⟩

/-- A decoder takes bytes off the front of its input, fails or panics. -/
abbrev Decoder (ε α : Type) := Reader (Fail ε) α

namespace Decoder

variable {ε ε' α β : Type}

/-- An `Err`. -/
def err (e : ε) : Decoder ε α := throw (.err e)

/-- `?` into another error type, or `map_err`. -/
def mapErr (f : ε → ε') (r : Decoder ε α) : Decoder ε' α := mapError (Fail.map f) r

/-- `expect`. -/
def expect (r : Decoder ε α) : Decoder ε' α := mapError (fun _ => .panic) r

/-- A vector of `n` elements. -/
def alloc (cap n : Nat) : Decoder ε Unit := fun bs => if n ≤ cap then .ok ((), bs) else .error .panic

def fromResult (x : Except (Fail ε) α) : Decoder ε α := fun bs =>
  match x with | .ok a => .ok (a, bs) | .error e => .error e

/-- `read_exact` into a buffer of `n` bytes. -/
def bytes [FromIo ε] (n : Nat) : Decoder ε (List UInt8) := readExact (.err (FromIo.io .unexpectedEof)) n

/-- `read_exact` and `from_be_bytes` of a `w`-byte number. -/
def beNat [FromIo ε] (w : Nat) : Decoder ε Nat := do
  let buf ← bytes w
  pure (ofBE buf)

def byte [FromIo ε] : Decoder ε UInt8 := do
  let buf ← bytes 1
  pure (buf.headD 0)

/-- `read_varint`. -/
def varint [FromIo ε] (P : Platform) : Decoder ε Nat := fun bs =>
  match P.readVarint bs with | .ok x => .ok x | .error e => .error (.err (FromIo.io e))

/-- `String::from_utf8`, whose error becomes `e`. -/
def utf8 (e : ε) (buf : List UInt8) : Decoder ε String :=
  match strOfBytes buf with | some s => pure s | none => err e

/-! ### Reading back -/

section
variable [FromIo ε]

theorem bytes_append {n : Nat} {as : List UInt8} (h : as.length = n) (rest : List UInt8) :
    (bytes n : Decoder ε _) (as ++ rest) = .ok (as, rest) := readExact_append _ h rest

theorem beNat_append {w n : Nat} (h : n < 256 ^ w) (rest : List UInt8) :
    (beNat w : Decoder ε _) (toBE w n ++ rest) = .ok (n, rest) := by
  simp [beNat, bytes_append, ofBE_toBE h]

@[simp] theorem byte_cons (b : UInt8) (rest : List UInt8) : (byte : Decoder ε _) (b :: rest) = .ok (b, rest) := by
  have h : (bytes 1 : Decoder ε _) (b :: rest) = .ok ([b], rest) := bytes_append (show [b].length = 1 from rfl) rest
  simp only [byte, bind_run, h, pure_run, List.headD_cons]

theorem varint_append (P : Platform) {n : Nat} (h : n < 2 ^ 64) (rest : List UInt8) :
    (varint P : Decoder ε _) (encode n ++ rest) = .ok (n, rest) := by
  simp [varint, P.readVarint_encode n h rest]

end

@[simp] theorem alloc_run {cap n : Nat} (h : n ≤ cap) (bs : List UInt8) :
    (alloc cap n : Decoder ε Unit) bs = .ok ((), bs) := by simp [alloc, h]

theorem alloc_bind_run {β : Type} {cap n : Nat} (h : n ≤ cap) (f : Unit → Decoder ε β) (bs : List UInt8) :
    (alloc cap n >>= f) bs = f () bs := by rw [bind_run, alloc_run h]

@[simp] theorem utf8_strBytes (e : ε) (s : String) (bs : List UInt8) : utf8 e (strBytes s) bs = .ok (s, bs) := by
  simp [utf8]

/-! ### Panics -/

/-- Reading ends in a value or an `Err`, and a value leaves no more input than there was. -/
def Total (r : Decoder ε α) : Prop :=
  ∀ bs, match r bs with | .ok (_, rest) => rest.length ≤ bs.length | .error e => ∃ e', e = .err e'

theorem Total.bind {r : Decoder ε α} {f : α → Decoder ε β} (hr : r.Total) (hf : ∀ a, (f a).Total) :
    Total (r >>= f) := by
  intro bs
  have h1 := hr bs
  simp only [bind_run]
  cases hb : r bs with
  | error e => simpa [hb] using h1
  | ok x =>
    have h2 := hf x.1 x.2
    simp only [hb] at h1
    cases hb' : f x.1 x.2 with
    | error e => simpa [hb'] using h2
    | ok y => simp only [hb'] at h2 ⊢; omega

theorem total_pure (a : α) : Total (pure a : Decoder ε α) := fun _ => Nat.le_refl _

theorem total_err (e : ε) : Total (err e : Decoder ε α) := fun _ => ⟨e, rfl⟩

theorem Total.mapErr {f : ε → ε'} {r : Decoder ε α} (h : r.Total) : (r.mapErr f).Total := by
  intro bs
  have := h bs
  unfold Decoder.mapErr mapError
  cases hb : r bs with
  | ok x => simpa [hb] using this
  | error e => simp only [hb] at this ⊢; obtain ⟨e', rfl⟩ := this; exact ⟨f e', rfl⟩

theorem total_alloc {cap n : Nat} (h : n ≤ cap) : Total (alloc cap n : Decoder ε Unit) := by
  intro bs; simp [h]

theorem total_ite {c : Prop} [Decidable c] {r r' : Decoder ε α} (h : c → r.Total) (h' : ¬ c → r'.Total) :
    Total (if c then r else r') := by
  by_cases hc : c
  · rw [if_pos hc]; exact h hc
  · rw [if_neg hc]; exact h' hc

theorem total_utf8 (e : ε) (buf : List UInt8) : (utf8 e buf).Total := by
  unfold utf8
  split
  · exact total_pure _
  · exact total_err e

section
variable [FromIo ε]

theorem total_bytes (n : Nat) : Total (bytes n : Decoder ε _) := by
  intro bs
  unfold bytes readExact
  split
  · rename_i h
    split at h
    · cases h; simp
    · cases h
  · rename_i h
    split at h
    · cases h
    · cases h; exact ⟨_, rfl⟩

theorem total_beNat (w : Nat) : Total (beNat w : Decoder ε _) := (total_bytes w).bind fun _ => total_pure _

theorem total_byte : Total (byte : Decoder ε _) := (total_bytes 1).bind fun _ => total_pure _

theorem total_varint (P : Platform) : Total (varint P : Decoder ε _) := by
  intro bs
  unfold varint
  cases h : P.readVarint bs with
  | ok x =>
    obtain ⟨-, as, -, rfl⟩ := P.readVarint_ok _ _ _ h
    simp
  | error e => exact ⟨_, rfl⟩

end

theorem Total.readMany {r : Decoder ε α} (h : r.Total) : ∀ n, Total (Lib.Bytes.readMany r n)
  | 0 => total_pure _
  | n + 1 => h.bind fun _ => (Total.readMany h n).bind fun _ => total_pure _

end Decoder

open Decoder

/-! ## Identifiers, LSNs and slots -/

section
variable {ε : Type}

/-- `PageId::serialize`. -/
def PageId.serialize (self : PageId) : List UInt8 := toBE 4 self.tableId.id.toNat ++ toBE 4 self.pageNum.toNat

/-- `PageId::deserialize`. -/
def PageId.deserialize : Decoder IoError PageId := do
  let tableId ← beNat 4
  let pageNum ← beNat 4
  pure ⟨⟨UInt32.ofNat tableId⟩, UInt32.ofNat pageNum⟩

/-- `Option<T>::serialize`. -/
def serializeOption {α : Type} (serialize : α → List UInt8) : Option α → List UInt8
  | some v => 1 :: serialize v
  | none => [0]

/-- `Option<T>::deserialize`. -/
def deserializeOption {α : Type} [FromIo ε] (deserialize : Decoder ε α) : Decoder ε (Option α) := do
  let tag ← byte
  if tag = 0 then pure none
  else if tag = 1 then do
    let v ← deserialize
    pure (some v)
  else err (FromIo.io .invalidData)

/-- `PageLsn::serialize`. -/
def PageLsn.serialize : PageLsn → List UInt8
  | some lsn => toBE 8 lsn.val.toNat
  | none => toBE 8 0

/-- `PageLsn::deserialize`: 0 is no LSN, and `Lsn::new` accepts everything else. -/
def PageLsn.deserialize : Decoder LsnError PageLsn := do
  let val ← beNat 8
  if UInt64.ofNat val = 0 then pure none
  else match Lsn.new (UInt64.ofNat val) with
    | .ok lsn => pure (some lsn)
    | .error _ => throw .panic

/-- `SlotEntry::serialize`. -/
def SlotEntry.serialize (self : SlotEntry) : List UInt8 := toBE 2 self.offset.toNat ++ toBE 2 self.length.toNat

/-- `SlotEntry::deserialize`. -/
def SlotEntry.deserialize : Decoder IoError SlotEntry := do
  let offset ← beNat 2
  let length ← beNat 2
  pure ⟨UInt16.ofNat offset, UInt16.ofNat length⟩

@[simp] theorem PageId.length_serialize (id : PageId) : id.serialize.length = pageIdSize := by
  simp [serialize, const_pageIdSize]

@[simp] theorem SlotEntry.length_serialize (s : SlotEntry) : s.serialize.length = slotEntrySize := by
  simp [serialize, const_slotEntrySize]

@[simp] theorem PageLsn.length_serialize (lsn : PageLsn) : (PageLsn.serialize lsn).length = 8 := by
  cases lsn <;> simp [serialize]

theorem PageId.length_serializeOption_le (id : Option PageId) :
    (serializeOption PageId.serialize id).length ≤ 1 + pageIdSize := by
  cases id with
  | none => exact Nat.le_add_right 1 _
  | some id => rw [serializeOption, List.length_cons, length_serialize, Nat.add_comm]

theorem PageId.roundtrip (id : PageId) (rest : List UInt8) : PageId.deserialize (id.serialize ++ rest) = .ok (id, rest) := by
  have h1 : id.tableId.id.toNat < 256 ^ 4 := id.tableId.id.toNat_lt
  have h2 : id.pageNum.toNat < 256 ^ 4 := id.pageNum.toNat_lt
  simp only [serialize, deserialize, List.append_assoc, bind_run, beNat_append h1, beNat_append h2, pure_run,
    UInt32.ofNat_toNat]

theorem serializeOption_roundtrip {α : Type} [FromIo ε] {serialize : α → List UInt8} {deserialize : Decoder ε α}
    (h : ∀ v rest, deserialize (serialize v ++ rest) = .ok (v, rest)) (v : Option α) (rest : List UInt8) :
    deserializeOption deserialize (serializeOption serialize v ++ rest) = .ok (v, rest) := by
  cases v with
  | none => simp [deserializeOption, serializeOption]
  | some v =>
    have h10 : ¬ (1 : UInt8) = 0 := by decide
    simp only [deserializeOption, serializeOption, List.cons_append, bind_run, byte_cons, if_neg h10, if_true, h, pure_run]

theorem PageLsn.roundtrip (lsn : PageLsn) (rest : List UInt8) :
    PageLsn.deserialize (PageLsn.serialize lsn ++ rest) = .ok (lsn, rest) := by
  rcases lsn with _ | ⟨val, hne⟩
  · have h : (0 : Nat) < 256 ^ 8 := by decide
    simp only [serialize, deserialize, bind_run, beNat_append h]
    rfl
  · have h : val.toNat < 256 ^ 8 := val.toNat_lt
    simp only [serialize, deserialize, bind_run, beNat_append h, UInt64.ofNat_toNat, if_neg hne, Lsn.new, dif_neg hne,
      pure_run]

theorem SlotEntry.roundtrip (s : SlotEntry) (rest : List UInt8) :
    SlotEntry.deserialize (s.serialize ++ rest) = .ok (s, rest) := by
  have h1 : s.offset.toNat < 256 ^ 2 := s.offset.toNat_lt
  have h2 : s.length.toNat < 256 ^ 2 := s.length.toNat_lt
  simp only [serialize, deserialize, List.append_assoc, bind_run, beNat_append h1, beNat_append h2, pure_run,
    UInt16.ofNat_toNat]

theorem PageId.total : PageId.deserialize.Total := (total_beNat 4).bind fun _ => (total_beNat 4).bind fun _ => total_pure _

theorem total_deserializeOption {α : Type} [FromIo ε] {deserialize : Decoder ε α} (h : deserialize.Total) :
    (deserializeOption deserialize).Total :=
  total_byte.bind fun _ => total_ite (fun _ => total_pure _) fun _ =>
    total_ite (fun _ => h.bind fun _ => total_pure _) fun _ => total_err _

end

/-! ## Values -/

def nullFlag : UInt8 := 0
def intFlag : UInt8 := 1
def floatFlag : UInt8 := 2
def stringFlag : UInt8 := 3
def boolFlag : UInt8 := 4

section
variable (P : Platform) (cap : Nat)

/-- A length of at most `maxFieldLen` and that many bytes of UTF-8, as values and column
    names are read. -/
def fieldString {ε : Type} [FromIo ε] (fieldTooLong : Nat → ε) (utf8Error : ε) : Decoder ε String := do
  let len ← varint P
  if len > maxFieldLen then err (fieldTooLong len)
  else do
    alloc cap len
    let buf ← bytes len
    utf8 utf8Error buf

/-- `RowValue::deserialize`. -/
def RowValue.deserialize : Decoder RowValueError RowValue := do
  let tag ← byte
  if tag = intFlag then do
    let n ← beNat 8
    pure (.integer (UInt64.ofNat n).toInt64)
  else if tag = floatFlag then do
    let n ← beNat 8
    pure (.float (UInt64.ofNat n))
  else if tag = stringFlag then do
    let s ← fieldString P cap .fieldTooLong .utf8Error
    pure (.string s)
  else if tag = boolFlag then do
    let b ← byte
    if b = 0 then pure (.boolean false)
    else if b = 1 then pure (.boolean true)
    else err (.invalidBool b)
  else if tag = nullFlag then pure .null
  else err (.unknownTag tag)

/-- `RowValue::serialize` into a scratch buffer. -/
def RowValue.serialize : RowValue → Except RowValueError (List UInt8)
  | .integer n => .ok (intFlag :: toBE 8 n.toUInt64.toNat)
  | .float bits => .ok (floatFlag :: toBE 8 bits.toNat)
  | .string s =>
    if s.utf8ByteSize > maxFieldLen then .error (.fieldTooLong s.utf8ByteSize)
    else .ok (stringFlag :: (encode s.utf8ByteSize ++ strBytes s))
  | .boolean b => .ok [boolFlag, if b then 1 else 0]
  | .null => .ok [nullFlag]

/-- `Row::deserialize`. -/
def Row.deserialize : Decoder RowValueError Row := do
  let b ← byte
  let numFields := b.toNat
  if numFields > maxNumFields then err (.tooManyFields numFields)
  else do
    alloc cap numFields
    let fields ← readMany (RowValue.deserialize P cap) numFields
    pure ⟨fields⟩

/-- The field loop of `Row::serialize`. -/
def Row.serializeFields : List RowValue → Except RowValueError (List UInt8)
  | [] => .ok []
  | f :: fs => do
    let b ← f.serialize
    let bs ← serializeFields fs
    .ok (b ++ bs)

/-- `Row::serialize`. -/
def Row.serialize (self : Row) : Except RowValueError (List UInt8) :=
  if self.fields.length > maxNumFields then .error (.tooManyFields self.fields.length)
  else do
    let bs ← Row.serializeFields self.fields
    .ok (UInt8.ofNat self.fields.length :: bs)

/-- `Key::deserialize`. -/
def Key.deserialize : Decoder KeyError Key := do
  let field ← (RowValue.deserialize P cap).mapErr KeyError.rowValue
  match Key.tryFrom field with
  | .ok key => pure key
  | .error e => err e

/-- `Key::serialize`. -/
def Key.serialize (self : Key) : Except KeyError (List UInt8) :=
  match self.toRowValue.serialize with | .ok bs => .ok bs | .error e => .error (.rowValue e)

/-! ## Columns and schemas -/

/-- `ColumnType::deserialize`. -/
def ColumnType.deserialize : Decoder SchemaError ColumnType := do
  let b ← byte
  if b = intFlag then pure .integer
  else if b = floatFlag then pure .float
  else if b = stringFlag then pure .string
  else if b = boolFlag then pure .bool
  else err (.tagError b)

/-- The tag `ColumnType::serialize` writes. -/
def ColumnType.tag : ColumnType → UInt8
  | .integer => intFlag
  | .float => floatFlag
  | .string => stringFlag
  | .bool => boolFlag

/-- `Column::deserialize`. -/
def Column.deserialize : Decoder SchemaError Column := do
  let colType ← ColumnType.deserialize
  let b ← byte
  if b = 0 ∨ b = 1 then do
    let name ← fieldString P cap .fieldTooLong .utf8Error
    pure ⟨name, colType, decide (b = 1)⟩
  else err (.invalidBool b)

/-- `Column::serialize`: the name's length is not checked here. -/
def Column.serialize (self : Column) : List UInt8 :=
  self.colType.tag :: (if self.nullable then 1 else 0) :: (encode self.name.utf8ByteSize ++ strBytes self.name)

/-- `Schema::deserialize`. -/
def Schema.deserialize : Decoder SchemaError Schema := do
  let numCols ← varint P
  if numCols > maxNumFields then err .tooManyColumns
  else do
    alloc cap numCols
    let columns ← readMany (Column.deserialize P cap) numCols
    match Schema.tryFrom columns with
    | .ok schema => pure schema
    | .error e => err e

/-- `Schema::serialize`. -/
def Schema.serialize (self : Schema) : List UInt8 :=
  encode self.columns.length ++ self.columns.flatMap Column.serialize

/-! ## Reading back what was written -/

variable {P cap}

theorem fieldString_roundtrip {ε : Type} [FromIo ε] (hcap : maxFieldLen ≤ cap) (fieldTooLong : Nat → ε) (utf8Error : ε)
    {s : String} (h : s.utf8ByteSize ≤ maxFieldLen) (rest : List UInt8) :
    fieldString P cap fieldTooLong utf8Error (encode s.utf8ByteSize ++ (strBytes s ++ rest)) = .ok (s, rest) := by
  have hlt : s.utf8ByteSize < 2 ^ 64 := by have := const_maxFieldLen; omega
  have hle : s.utf8ByteSize ≤ cap := by omega
  simp only [fieldString, bind_run, varint_append P hlt, if_neg (Nat.not_lt.mpr h), alloc_run hle,
    bytes_append (length_strBytes s), utf8_strBytes]

theorem fieldString_ok {ε : Type} [FromIo ε] {fieldTooLong : Nat → ε} {utf8Error : ε} {bs rest : List UInt8} {s : String}
    (h : fieldString P cap fieldTooLong utf8Error bs = .ok (s, rest)) : s.utf8ByteSize ≤ maxFieldLen := by
  obtain ⟨len, bs1, -, h⟩ := bind_eq_ok.mp h
  by_cases hlen : len > maxFieldLen
  · rw [if_pos hlen] at h; cases h
  rw [if_neg hlen] at h
  obtain ⟨_, bs2, -, h⟩ := bind_eq_ok.mp h
  obtain ⟨buf, bs3, hbuf, h⟩ := bind_eq_ok.mp h
  have hlen' : buf.length = len := (readExact_ok hbuf).2
  unfold utf8 at h
  cases hs : strOfBytes buf with
  | none => simp only [hs] at h; cases h
  | some s' =>
    simp only [hs] at h
    cases h
    rw [← length_strBytes, strOfBytes_eq_some hs]
    omega

theorem total_fieldString {ε : Type} [FromIo ε] (hcap : maxFieldLen ≤ cap) (fieldTooLong : Nat → ε) (utf8Error : ε) :
    (fieldString P cap fieldTooLong utf8Error).Total :=
  (total_varint P).bind fun len => total_ite (fun _ => total_err _) fun hlen =>
    (total_alloc (by omega)).bind fun _ => (total_bytes len).bind fun buf => total_utf8 _ buf

theorem RowValue.roundtrip (hcap : maxFieldLen ≤ cap) {v : RowValue} {bs : List UInt8} (h : v.serialize = .ok bs)
    (rest : List UInt8) : RowValue.deserialize P cap (bs ++ rest) = .ok (v, rest) := by
  cases v with
  | integer n =>
    cases h
    have hn : n.toUInt64.toNat < 256 ^ 8 := n.toUInt64.toNat_lt
    simp only [List.cons_append, deserialize, bind_run, byte_cons, if_true, beNat_append hn, pure_run,
      UInt64.ofNat_toNat, Int64.toInt64_toUInt64]
  | float bits =>
    cases h
    have hne : ¬ floatFlag = intFlag := by decide
    have hn : bits.toNat < 256 ^ 8 := bits.toNat_lt
    simp only [List.cons_append, deserialize, bind_run, byte_cons, if_true, if_neg hne, beNat_append hn, pure_run,
      UInt64.ofNat_toNat]
  | string s =>
    simp only [serialize] at h
    split at h
    · cases h
    · rename_i hlen
      cases h
      have h1 : ¬ stringFlag = intFlag := by decide
      have h2 : ¬ stringFlag = floatFlag := by decide
      simp only [List.cons_append, List.append_assoc, deserialize, bind_run, byte_cons, if_true, if_neg h1, if_neg h2,
        fieldString_roundtrip hcap _ _ (Nat.not_lt.mp hlen), pure_run]
  | boolean b => cases h; cases b <;> rfl
  | null => cases h; rfl

theorem RowValue.length_serialize {v : RowValue} {bs : List UInt8} (h : v.serialize = .ok bs) :
    bs.length = v.encodedSize := by
  cases v with
  | string s =>
    simp only [serialize] at h
    split at h
    · cases h
    · cases h; simp only [List.length_cons, List.length_append, length_encode, length_strBytes, encodedSize]; omega
  | _ => cases h; simp [encodedSize]

theorem RowValue.exists_serialize {v : RowValue} (h : v.encodedSize ≤ maxFieldLen) : ∃ bs, v.serialize = .ok bs := by
  cases v with
  | string s =>
    have hlen : ¬ s.utf8ByteSize > maxFieldLen := by simp only [encodedSize] at h; omega
    exact ⟨_, if_neg hlen⟩
  | _ => exact ⟨_, rfl⟩

theorem RowValue.total (hcap : maxFieldLen ≤ cap) : (RowValue.deserialize P cap).Total :=
  total_byte.bind fun _ => total_ite (fun _ => (total_beNat 8).bind fun _ => total_pure _) fun _ =>
    total_ite (fun _ => (total_beNat 8).bind fun _ => total_pure _) fun _ =>
    total_ite (fun _ => (total_fieldString hcap _ _).bind fun _ => total_pure _) fun _ =>
    total_ite (fun _ => total_byte.bind fun _ => total_ite (fun _ => total_pure _) fun _ =>
      total_ite (fun _ => total_pure _) fun _ => total_err _) fun _ =>
    total_ite (fun _ => total_pure _) fun _ => total_err _

/-! ### Rows -/

theorem Row.serializeFields_cons {v : RowValue} {vs : List RowValue} {bs : List UInt8}
    (h : serializeFields (v :: vs) = .ok bs) :
    ∃ b bs', v.serialize = .ok b ∧ serializeFields vs = .ok bs' ∧ bs = b ++ bs' := by
  simp only [serializeFields, bind, Except.bind] at h
  cases hv : v.serialize with
  | error e => simp [hv] at h
  | ok b =>
    cases hvs : serializeFields vs with
    | error e => simp [hv, hvs] at h
    | ok bs' =>
      simp only [hv, hvs, Except.ok.injEq] at h
      exact ⟨b, bs', rfl, rfl, h.symm⟩

theorem Row.readMany_fields (hcap : maxFieldLen ≤ cap) : ∀ {vs : List RowValue} {bs : List UInt8},
    serializeFields vs = .ok bs → ∀ rest, readMany (RowValue.deserialize P cap) vs.length (bs ++ rest) = .ok (vs, rest)
  | [], bs, h, rest => by cases h; rfl
  | v :: vs, bs, h, rest => by
    obtain ⟨b, bs', hv, hvs, rfl⟩ := serializeFields_cons h
    simp only [List.length_cons, readMany, List.append_assoc, bind_run, RowValue.roundtrip hcap hv,
      readMany_fields hcap hvs, pure_run]

theorem Row.length_serializeFields : ∀ {vs : List RowValue} {bs : List UInt8}, serializeFields vs = .ok bs →
    bs.length = (vs.map RowValue.encodedSize).sum
  | [], bs, h => by cases h; rfl
  | v :: vs, bs, h => by
    obtain ⟨b, bs', hv, hvs, rfl⟩ := serializeFields_cons h
    simp only [List.length_append, List.map_cons, List.sum_cons, length_serializeFields hvs, RowValue.length_serialize hv]

theorem Row.exists_serializeFields : ∀ {vs : List RowValue}, (∀ v ∈ vs, v.encodedSize ≤ maxFieldLen) →
    ∃ bs, serializeFields vs = .ok bs
  | [], _ => ⟨[], rfl⟩
  | v :: vs, h => by
    obtain ⟨b, hb⟩ := RowValue.exists_serialize (h v (List.mem_cons_self ..))
    obtain ⟨bs, hbs⟩ := exists_serializeFields fun w hw => h w (List.mem_cons_of_mem v hw)
    exact ⟨b ++ bs, by simp only [serializeFields, hb, hbs]; rfl⟩

theorem Row.exists_serialize {r : Row} (hcount : r.fields.length ≤ maxNumFields) (hsize : r.encodedSize ≤ maxFieldLen) :
    ∃ bs, r.serialize = .ok bs := by
  have hv : ∀ v ∈ r.fields, v.encodedSize ≤ maxFieldLen := by
    intro v hv
    have := List.le_sum_of_mem (List.mem_map_of_mem (f := RowValue.encodedSize) hv)
    unfold Row.encodedSize at hsize
    omega
  obtain ⟨bs, hbs⟩ := exists_serializeFields hv
  refine ⟨UInt8.ofNat r.fields.length :: bs, ?_⟩
  rw [serialize, if_neg (Nat.not_lt.mpr hcount), hbs]
  rfl

theorem Row.serialize_ok {r : Row} {bs : List UInt8} (h : r.serialize = .ok bs) :
    r.fields.length ≤ maxNumFields ∧
      ∃ bs', bs = UInt8.ofNat r.fields.length :: bs' ∧ serializeFields r.fields = .ok bs' := by
  unfold serialize at h
  split at h
  · cases h
  · rename_i hcount
    simp only [bind, Except.bind] at h
    cases hbs : serializeFields r.fields with
    | error e => simp [hbs] at h
    | ok bs' =>
      simp only [hbs, Except.ok.injEq] at h
      exact ⟨Nat.not_lt.mp hcount, bs', h.symm, rfl⟩

theorem Row.roundtrip (hcap : maxFieldLen ≤ cap) {r : Row} {bs : List UInt8} (h : r.serialize = .ok bs)
    (rest : List UInt8) : Row.deserialize P cap (bs ++ rest) = .ok (r, rest) := by
  obtain ⟨hcount, bs', rfl, hbs⟩ := Row.serialize_ok h
  have hmod : (UInt8.ofNat r.fields.length).toNat = r.fields.length := by
    rw [UInt8.toNat_ofNat']
    exact Nat.mod_eq_of_lt (Nat.lt_succ_of_le hcount)
  have hle : r.fields.length ≤ cap := hcount.trans (le_trans (by decide) hcap)
  simp only [deserialize, List.cons_append, bind_run, byte_cons, hmod, if_neg (Nat.not_lt.mpr hcount), alloc_run hle,
    readMany_fields hcap hbs, pure_run]

theorem Row.length_serialize {r : Row} {bs : List UInt8} (h : r.serialize = .ok bs) : bs.length = r.encodedSize := by
  obtain ⟨-, bs', rfl, hbs⟩ := Row.serialize_ok h
  simp only [List.length_cons, encodedSize, length_serializeFields hbs]
  omega

/-- A row that was read has few enough fields to be written. -/
theorem Row.deserialize_ok {r : Row} {bs rest : List UInt8} (h : Row.deserialize P cap bs = .ok (r, rest)) :
    r.fields.length ≤ maxNumFields := by
  obtain ⟨b, bs1, -, h⟩ := bind_eq_ok.mp h
  by_cases hb : b.toNat > maxNumFields
  · simp only [hb, if_true] at h; cases h
  simp only [hb, if_false] at h
  obtain ⟨_, bs2, -, h⟩ := bind_eq_ok.mp h
  obtain ⟨fields, bs3, hfields, h⟩ := bind_eq_ok.mp h
  cases h
  have := (readMany_ok (P := fun _ => True) (fun _ _ _ _ => trivial) hfields).1
  simp only [this]
  omega

theorem Row.total (hcap : maxFieldLen ≤ cap) : (Row.deserialize P cap).Total :=
  total_byte.bind fun b => total_ite (fun _ => total_err _) fun hb =>
    (total_alloc ((Nat.not_lt.mp hb).trans (le_trans (by decide) hcap))).bind fun _ =>
      ((RowValue.total hcap).readMany _).bind fun _ => total_pure _

/-! ### Keys -/

theorem Key.serialize_ok {k : Key} {bs : List UInt8} (h : k.serialize = .ok bs) : k.toRowValue.serialize = .ok bs := by
  unfold serialize at h
  split at h
  · rename_i hbs; cases h; exact hbs
  · cases h

theorem Key.exists_serialize {k : Key} (h : k.encodedSize ≤ maxFieldLen) : ∃ bs, k.serialize = .ok bs := by
  obtain ⟨bs, hbs⟩ := RowValue.exists_serialize (v := k.toRowValue) (by simpa using h)
  exact ⟨bs, by simp only [serialize, hbs]⟩

theorem Key.roundtrip (hcap : maxFieldLen ≤ cap) {k : Key} {bs : List UInt8} (h : k.serialize = .ok bs)
    (rest : List UInt8) : Key.deserialize P cap (bs ++ rest) = .ok (k, rest) := by
  have hv := RowValue.roundtrip (P := P) hcap (Key.serialize_ok h) rest
  simp only [deserialize, bind_run, mapErr, mapError_ok hv, tryFrom_toRowValue, pure_run]

theorem Key.length_serialize {k : Key} {bs : List UInt8} (h : k.serialize = .ok bs) : bs.length = k.encodedSize := by
  rw [RowValue.length_serialize (Key.serialize_ok h), Key.encodedSize_toRowValue]

theorem Key.total (hcap : maxFieldLen ≤ cap) : (Key.deserialize P cap).Total := by
  refine (RowValue.total hcap).mapErr.bind fun field => ?_
  cases Key.tryFrom field with
  | ok key => exact total_pure key
  | error e => exact total_err e

/-! ### Columns and schemas -/

theorem ColumnType.roundtrip (c : ColumnType) (rest : List UInt8) :
    ColumnType.deserialize (c.tag :: rest) = .ok (c, rest) := by
  cases c <;> rfl

theorem ColumnType.total : ColumnType.deserialize.Total :=
  total_byte.bind fun _ => total_ite (fun _ => total_pure _) fun _ => total_ite (fun _ => total_pure _) fun _ =>
    total_ite (fun _ => total_pure _) fun _ => total_ite (fun _ => total_pure _) fun _ => total_err _

/-- Reading a column comes down to reading its name. -/
theorem Column.deserialize_serialize (c : Column) (rest : List UInt8) :
    Column.deserialize P cap (c.serialize ++ rest) =
      (do
        let name ← fieldString P cap SchemaError.fieldTooLong .utf8Error
        pure { c with name } : Decoder SchemaError Column) (encode c.name.utf8ByteSize ++ (strBytes c.name ++ rest)) := by
  have h01 : ¬ (0 : UInt8) = 1 := by decide
  rcases c with ⟨name, colType, _ | _⟩
  · simp only [deserialize, serialize, List.cons_append, List.append_assoc, bind_run, ColumnType.roundtrip, byte_cons,
      Bool.false_eq_true, if_false, true_or, if_true, h01, decide_false]
  · simp only [deserialize, serialize, List.cons_append, List.append_assoc, bind_run, ColumnType.roundtrip, byte_cons,
      if_true, or_true, decide_true]

theorem Column.roundtrip (hcap : maxFieldLen ≤ cap) {c : Column} (h : c.name.utf8ByteSize ≤ maxFieldLen)
    (rest : List UInt8) : Column.deserialize P cap (c.serialize ++ rest) = .ok (c, rest) := by
  simp only [deserialize_serialize, bind_run, fieldString_roundtrip hcap _ _ h, pure_run]

theorem Column.deserialize_tooLong {c : Column} (h : maxFieldLen < c.name.utf8ByteSize)
    (hlt : c.name.utf8ByteSize < 2 ^ 64) (rest : List UInt8) :
    Column.deserialize P cap (c.serialize ++ rest) = .error (.err (.fieldTooLong c.name.utf8ByteSize)) := by
  simp only [deserialize_serialize, bind_run, fieldString, varint_append P hlt, if_pos h]
  rfl

theorem Column.length_serialize (c : Column) : c.serialize.length = c.encodedSize := by
  simp only [serialize, List.length_cons, List.length_append, length_encode, length_strBytes, encodedSize]
  omega

/-- A column that was read has a name short enough to be read again. -/
theorem Column.deserialize_ok {c : Column} {bs rest : List UInt8} (h : Column.deserialize P cap bs = .ok (c, rest)) :
    c.name.utf8ByteSize ≤ maxFieldLen := by
  obtain ⟨colType, bs1, -, h⟩ := bind_eq_ok.mp h
  obtain ⟨b, bs2, -, h⟩ := bind_eq_ok.mp h
  by_cases hb : b = 0 ∨ b = 1
  · rw [if_pos hb] at h
    obtain ⟨name, bs3, hname, h⟩ := bind_eq_ok.mp h
    cases h
    exact fieldString_ok hname
  · rw [if_neg hb] at h; cases h

theorem Column.total (hcap : maxFieldLen ≤ cap) : (Column.deserialize P cap).Total :=
  ColumnType.total.bind fun _ => total_byte.bind fun _ =>
    total_ite (fun _ => (total_fieldString hcap _ _).bind fun _ => total_pure _) fun _ => total_err _

/-- Every column's name can be read back. -/
def Schema.NamesFit (s : Schema) : Prop := ∀ c ∈ s.columns, c.name.utf8ByteSize ≤ maxFieldLen

theorem Schema.roundtrip (hcap : maxFieldLen ≤ cap) {s : Schema} (h : s.NamesFit) (rest : List UInt8) :
    Schema.deserialize P cap (s.serialize ++ rest) = .ok (s, rest) := by
  have hcount := s.count
  have hlt : s.columns.length < 2 ^ 64 := lt_of_le_of_lt hcount (by decide)
  have hle : s.columns.length ≤ cap := hcount.trans (le_trans (by decide) hcap)
  simp only [deserialize, serialize, List.append_assoc, bind_run, varint_append P hlt, if_neg (Nat.not_lt.mpr hcount),
    alloc_run hle, readMany_flatMap (fun c hc => Column.roundtrip hcap (h c hc)), tryFrom_columns, pure_run]

theorem Schema.readMany_tooLong : ∀ {cs : List Column}, (∃ c ∈ cs, maxFieldLen < c.name.utf8ByteSize) →
    maxFieldLen ≤ cap → (∀ c ∈ cs, c.name.utf8ByteSize < 2 ^ 64) → ∀ rest,
    ∃ e, readMany (Column.deserialize P cap) cs.length (cs.flatMap Column.serialize ++ rest) = .error (.err e)
  | [], h, _, _, _ => by simp at h
  | c :: cs, h, hcap, hlt, rest => by
    simp only [List.length_cons, readMany, List.flatMap_cons, List.append_assoc, bind_run]
    by_cases hc : maxFieldLen < c.name.utf8ByteSize
    · exact ⟨_, by rw [Column.deserialize_tooLong hc (hlt c (List.mem_cons_self ..))]⟩
    · have hcs : ∃ d ∈ cs, maxFieldLen < d.name.utf8ByteSize := by
        obtain ⟨d, _ | ⟨_, hd⟩, hlen⟩ := h
        · exact absurd hlen hc
        · exact ⟨d, hd, hlen⟩
      obtain ⟨e, he⟩ := readMany_tooLong hcs hcap (fun d hd => hlt d (List.mem_cons_of_mem c hd)) rest
      exact ⟨e, by simp only [Column.roundtrip hcap (Nat.not_lt.mp hc), he]⟩

/-- A schema with a name that is too long was written and cannot be read. -/
theorem Schema.deserialize_tooLong (hcap : maxFieldLen ≤ cap) {s : Schema} (h : ¬ s.NamesFit)
    (hlt : ∀ c ∈ s.columns, c.name.utf8ByteSize < 2 ^ 64) (rest : List UInt8) :
    ∃ e, Schema.deserialize P cap (s.serialize ++ rest) = .error (.err e) := by
  have hcount := s.count
  have hlen : s.columns.length < 2 ^ 64 := lt_of_le_of_lt hcount (by decide)
  have hle : s.columns.length ≤ cap := hcount.trans (le_trans (by decide) hcap)
  have hlong : ∃ c ∈ s.columns, maxFieldLen < c.name.utf8ByteSize := by
    simpa only [NamesFit, not_forall, exists_prop, Nat.not_le] using h
  obtain ⟨e, he⟩ := readMany_tooLong (P := P) hlong hcap hlt rest
  refine ⟨e, ?_⟩
  simp only [deserialize, serialize, List.append_assoc, bind_run, varint_append P hlen, if_neg (Nat.not_lt.mpr hcount),
    alloc_run hle, he]

theorem Schema.length_serialize (s : Schema) : s.serialize.length = s.encodedSize := by
  simp only [serialize, List.length_append, length_encode, List.length_flatMap, Column.length_serialize, encodedSize]

theorem Schema.deserialize_ok {s : Schema} {bs rest : List UInt8} (h : Schema.deserialize P cap bs = .ok (s, rest)) :
    s.NamesFit := by
  obtain ⟨numCols, bs1, -, h⟩ := bind_eq_ok.mp h
  by_cases hn : numCols > maxNumFields
  · rw [if_pos hn] at h; cases h
  rw [if_neg hn] at h
  obtain ⟨_, bs2, -, h⟩ := bind_eq_ok.mp h
  obtain ⟨columns, bs3, hcols, h⟩ := bind_eq_ok.mp h
  cases hs : Schema.tryFrom columns with
  | error e => simp only [hs] at h; cases h
  | ok s' =>
    simp only [hs] at h
    cases h
    intro c hc
    rw [Schema.tryFrom_ok hs] at hc
    exact (readMany_ok (fun _ _ _ => Column.deserialize_ok) hcols).2 c hc

theorem Schema.total (hcap : maxFieldLen ≤ cap) : (Schema.deserialize P cap).Total := by
  refine (total_varint P).bind fun numCols => total_ite (fun _ => total_err _) fun hn => ?_
  refine (total_alloc ((Nat.not_lt.mp hn).trans (le_trans (by decide) hcap))).bind fun _ => ?_
  refine ((Column.total hcap).readMany _).bind fun columns => ?_
  cases Schema.tryFrom columns with
  | ok s => exact total_pure s
  | error e => exact total_err e

end

end RustDb
