/-
  RustDb.Schema — values, keys, rows, columns and schemas, their encoded sizes, and
  `Schema::validate_row` (`schema/mod.rs`, `schema/key.rs`).

  A float is its bit pattern. `Key`'s order is the derived one: integers before strings,
  each by its own order. `ValidatedRow` and `Schema` have no public constructor in the
  source, so here they carry what their only constructors checked.
-/

import RustDb.Types
import Mathlib.Data.String.Basic
import Mathlib.Data.Sum.Order

namespace RustDb

open Lib.Bytes (size strBytes)

/-! ## Values -/

inductive RowValue where
  | integer (n : Int64)
  | float (bits : UInt64)
  | string (s : String)
  | boolean (b : Bool)
  | null
  deriving DecidableEq, Repr

inductive ColumnType where
  | integer
  | float
  | string
  | bool
  deriving DecidableEq, Repr

def ColumnType.isValidKey : ColumnType → Bool
  | .float => false
  | .bool => false
  | .integer | .string => true

def RowValue.columnType : RowValue → Option ColumnType
  | .float _ => some .float
  | .integer _ => some .integer
  | .string _ => some .string
  | .boolean _ => some .bool
  | .null => none

/-- `RowValue::encoded_size`. -/
def RowValue.encodedSize : RowValue → Nat
  | .float _ => 1 + 8
  | .integer _ => 1 + 8
  | .boolean _ => 1 + 1
  | .string s => 1 + size s.utf8ByteSize + s.utf8ByteSize
  | .null => 1

inductive RowValueError where
  | ioError (e : IoError)
  | unknownTag (tag : UInt8)
  | fieldTooLong (len : Nat)
  | tooManyFields (n : Nat)
  | invalidBool (b : UInt8)
  | utf8Error
  deriving DecidableEq, Repr

/-! ## Keys -/

inductive Key where
  | integer (n : Int64)
  | string (s : String)
  deriving DecidableEq, Repr

inductive KeyError where
  | notOrderable
  | nullKey
  | rowValue (e : RowValueError)
  | boolKey
  deriving DecidableEq, Repr

/-- `Key::try_from(&RowValue)`. -/
def Key.tryFrom : RowValue → Except KeyError Key
  | .integer n => .ok (.integer n)
  | .string s => .ok (.string s)
  | .null => .error .nullKey
  | .float _ => .error .notOrderable
  | .boolean _ => .error .boolKey

def Key.toRowValue : Key → RowValue
  | .integer n => .integer n
  | .string s => .string s

/-- `Key::encoded_size`. -/
def Key.encodedSize : Key → Nat
  | .integer _ => 1 + 8
  | .string s => 1 + size s.utf8ByteSize + s.utf8ByteSize

def Key.toSum : Key → Int ⊕ₗ String
  | .integer n => Sum.inlₗ n.toInt
  | .string s => Sum.inrₗ s

theorem Key.toSum_injective : Function.Injective Key.toSum := by
  intro a b h
  cases a <;> cases b <;> simp [toSum, Int64.toInt_inj] at h <;> simp [h]

/-- The derived `Ord`: by variant, then by value. -/
instance : LinearOrder Key := LinearOrder.lift' Key.toSum Key.toSum_injective

theorem Key.integer_lt_integer {a b : Int64} : Key.integer a < Key.integer b ↔ a < b := by
  rw [Int64.lt_iff_toInt_lt]; exact Sum.Lex.inl_lt_inl_iff

theorem Key.string_lt_string {a b : String} : Key.string a < Key.string b ↔ a < b := Sum.Lex.inr_lt_inr_iff

theorem Key.integer_lt_string (a : Int64) (b : String) : Key.integer a < Key.string b := Sum.Lex.inl_lt_inr _ _

theorem Key.tryFrom_toRowValue (k : Key) : Key.tryFrom k.toRowValue = .ok k := by cases k <;> rfl

theorem Key.tryFrom_ok {v : RowValue} {k : Key} (h : Key.tryFrom v = .ok k) : v = k.toRowValue := by
  cases v <;> simp only [tryFrom] at h <;> cases h <;> rfl

@[simp] theorem Key.encodedSize_toRowValue (k : Key) : k.toRowValue.encodedSize = k.encodedSize := by
  cases k <;> rfl

theorem Key.two_le_encodedSize (k : Key) : 2 ≤ k.encodedSize := by
  cases k with
  | integer n => simp [encodedSize]
  | string s => have := Lib.Bytes.size_pos s.utf8ByteSize; simp only [encodedSize]; omega

/-! ## Rows -/

structure Row where
  fields : List RowValue
  deriving DecidableEq, Repr

inductive RowError where
  | emptyRow
  | invalidFirstEntry
  deriving DecidableEq, Repr

/-- The key in a row's first field, if that field is a valid key. -/
def Row.key? (r : Row) : Option Key := r.fields.head?.bind fun v => (Key.tryFrom v).toOption

/-- The key of a row that has one. -/
def Row.key (r : Row) : Key := r.key?.getD (.integer 0)

/-- `Row::try_from(Vec<RowValue>)`. -/
def Row.tryFrom (fields : List RowValue) : Except RowError Row :=
  if fields.isEmpty then .error .emptyRow
  else if (Row.key? ⟨fields⟩).isSome then .ok ⟨fields⟩
  else .error .invalidFirstEntry

/-- `Row::cmp_key`; `none` is its panic. -/
def Row.cmpKey (r : Row) (key : Key) : Option Ordering :=
  match r.fields.head?, key with
  | some (.integer a), .integer b => some (compare a b)
  | some (.string a), .string b => some (compare a b)
  | some (.integer _), .string _ => some .lt
  | some (.string _), .integer _ => some .gt
  | _, _ => none

/-- `Row::encoded_size`. -/
def Row.encodedSize (r : Row) : Nat := 1 + (r.fields.map RowValue.encodedSize).sum

theorem Key.compare_integer (a b : Int64) : compare (Key.integer a) (Key.integer b) = compare a b := by
  rcases Std.lt_trichotomy a b with h | rfl | h
  · rw [compare_lt_iff_lt.mpr (Key.integer_lt_integer.mpr h)]
    exact (Std.compare_eq_lt.mpr h).symm
  · rw [compare_eq_iff_eq.mpr rfl]
    exact (Std.ReflOrd.compare_self).symm
  · rw [compare_gt_iff_gt.mpr (Key.integer_lt_integer.mpr h)]
    exact (Std.compare_eq_gt.mpr h).symm

theorem Key.compare_string (a b : String) : compare (Key.string a) (Key.string b) = compare a b := by
  rcases lt_trichotomy a b with h | rfl | h
  · rw [compare_lt_iff_lt.mpr (Key.string_lt_string.mpr h), compare_lt_iff_lt.mpr h]
  · rw [compare_eq_iff_eq.mpr rfl, compare_eq_iff_eq.mpr rfl]
  · rw [compare_gt_iff_gt.mpr (Key.string_lt_string.mpr h), compare_gt_iff_gt.mpr h]

/-- `cmp_key` is `Key`'s order on the row's key, and panics exactly when it has none. -/
theorem Row.cmpKey_eq (r : Row) (k : Key) : r.cmpKey k = r.key?.map (compare · k) := by
  unfold cmpKey key?
  rcases r.fields.head? with _ | v
  · rfl
  · cases v <;> cases k <;> simp only [Option.bind_some, Key.tryFrom, Except.toOption, Option.map_some, Option.map_none]
    · rw [Key.compare_integer]
    · rw [compare_lt_iff_lt.mpr (Key.integer_lt_string _ _)]
    · rw [compare_gt_iff_gt.mpr (Key.integer_lt_string _ _)]
    · rw [Key.compare_string]

theorem Row.key_of_key? {r : Row} {k : Key} (h : r.key? = some k) : r.key = k := by simp [key, h]

theorem Row.key?_eq {r : Row} (h : r.key?.isSome) : r.key? = some r.key := by
  obtain ⟨k, hk⟩ := Option.isSome_iff_exists.mp h
  rw [hk, Row.key_of_key? hk]

theorem Row.fields_of_key? {r : Row} {k : Key} (h : r.key? = some k) :
    ∃ vs, r.fields = k.toRowValue :: vs := by
  unfold key? at h
  rcases hf : r.fields with _ | ⟨v, vs⟩
  · simp [hf] at h
  · simp only [hf, List.head?_cons, Option.bind_some] at h
    refine ⟨vs, ?_⟩
    cases hv : Key.tryFrom v with
    | error e => simp [hv, Except.toOption] at h
    | ok k' =>
      simp only [hv, Except.toOption, Option.some.injEq] at h
      rw [Key.tryFrom_ok hv, h]

/-- A row is longer than its key by at least the field count. -/
theorem Row.key_lt_encodedSize {r : Row} {k : Key} (h : r.key? = some k) : k.encodedSize + 1 ≤ r.encodedSize := by
  obtain ⟨vs, hf⟩ := Row.fields_of_key? h
  simp only [encodedSize, hf, List.map_cons, List.sum_cons, Key.encodedSize_toRowValue]
  omega

/-! ## Entry sizes -/

/-- `Page::leaf_entry_size`: the encoded row and its slot. -/
def Page.leafEntrySize (r : Row) : Nat := r.encodedSize + slotEntrySize

/-- `Page::internal_entry_size`: the encoded key, its slot and one child pointer. -/
def Page.internalEntrySize (k : Key) : Nat := k.encodedSize + slotEntrySize + pageIdSize

theorem Page.internalEntrySize_ge (k : Key) : 14 ≤ Page.internalEntrySize k := by
  have := k.two_le_encodedSize
  simp only [internalEntrySize, const_slotEntrySize, const_pageIdSize]; omega

theorem Page.leafEntrySize_ge {r : Row} (h : r.key?.isSome) : 7 ≤ Page.leafEntrySize r := by
  have h1 := Row.key_lt_encodedSize (Row.key?_eq h)
  have h2 := r.key.two_le_encodedSize
  simp only [leafEntrySize, const_slotEntrySize]; omega

/-! ## Columns and schemas -/

structure Column where
  name : String
  colType : ColumnType
  nullable : Bool
  deriving DecidableEq, Repr

/-- `Column::encoded_size`. -/
def Column.encodedSize (c : Column) : Nat := 1 + 1 + size c.name.utf8ByteSize + c.name.utf8ByteSize

inductive SchemaError where
  | typeMismatch (i : Nat)
  | columnCountMismatch
  | nullValueInNonNullCol (i : Nat)
  | nullablePrimaryKey
  | nonOrdPrimaryKey
  | emptyColumns
  | tooManyColumns
  | rowTooLong (n : Nat)
  | keyTooLong (n : Nat)
  | fieldTooLong (n : Nat)
  | invalidKey
  | emptyColumnName
  | ioError (e : IoError)
  | tagError (b : UInt8)
  | invalidBool (b : UInt8)
  | utf8Error
  | columnNotFound
  | nanFloat
  | parseBool
  | parseInt
  | parseFloat
  deriving DecidableEq, Repr

/-- What `column_constructors!` expands to for each type and nullability. -/
def Column.construct (colType : ColumnType) (nullable : Bool) (name : String) : Except SchemaError Column :=
  if name.isEmpty then .error .emptyColumnName else .ok ⟨name, colType, nullable⟩

def Column.integer := Column.construct .integer false
def Column.nullableInteger := Column.construct .integer true
def Column.float := Column.construct .float false
def Column.nullableFloat := Column.construct .float true
def Column.string := Column.construct .string false
def Column.nullableString := Column.construct .string true
def Column.bool := Column.construct .bool false
def Column.nullableBool := Column.construct .bool true

/-- A schema, as `Schema::try_from` lets it be built. -/
structure Schema where
  columns : List Column
  nonempty : columns ≠ []
  validKey : (columns.head nonempty).colType.isValidKey = true
  notNullable : (columns.head nonempty).nullable = false
  count : columns.length ≤ maxNumFields
  deriving DecidableEq, Repr

/-- `Schema::try_from(Vec<Column>)`. -/
def Schema.tryFrom (columns : List Column) : Except SchemaError Schema :=
  if h : columns = [] then .error .emptyColumns
  else if hk : (columns.head h).colType.isValidKey = true then
    if hn : (columns.head h).nullable = false then
      if hc : columns.length ≤ maxNumFields then .ok ⟨columns, h, hk, hn, hc⟩ else .error .tooManyColumns
    else .error .nullablePrimaryKey
  else .error .nonOrdPrimaryKey

/-- `Schema::encoded_size`. -/
def Schema.encodedSize (s : Schema) : Nat :=
  size s.columns.length + (s.columns.map Column.encodedSize).sum

theorem Schema.tryFrom_columns (s : Schema) : Schema.tryFrom s.columns = .ok s := by
  simp [tryFrom, s.nonempty, s.validKey, s.notNullable, s.count]

theorem Schema.tryFrom_ok {cs : List Column} {s : Schema} (h : Schema.tryFrom cs = .ok s) : s.columns = cs := by
  unfold tryFrom at h
  split at h
  · cases h
  · split at h
    · split at h
      · split at h
        · cases h; rfl
        · cases h
      · cases h
    · cases h

/-! ## Validation -/

/-- A row some schema accepted. -/
structure ValidatedRow where
  row : Row
  hasKey : row.key?.isSome
  leafSize : Page.leafEntrySize row ≤ maxLeafEntrySize
  keySize : Page.internalEntrySize row.key ≤ maxInternalEntrySize
  fieldCount : row.fields.length ≤ maxNumFields

/-- `ValidatedRow::primary_key`. -/
def ValidatedRow.primaryKey (v : ValidatedRow) : Key := v.row.key?.get v.hasKey

theorem ValidatedRow.primaryKey_eq (v : ValidatedRow) : v.primaryKey = v.row.key :=
  (Row.key_of_key? (Option.some_get v.hasKey).symm).symm

/-- The column loop of `validate_row`, at column `i`. -/
def Schema.checkColumns : Nat → List Column → List RowValue → Except SchemaError Unit
  | i, col :: cols, value :: values =>
    match value.columnType with
    | some c =>
      if c = col.colType then
        match value with
        | .string s =>
          if s.utf8ByteSize > maxFieldLen then .error (.fieldTooLong s.utf8ByteSize)
          else checkColumns (i + 1) cols values
        | _ => checkColumns (i + 1) cols values
      else .error (.typeMismatch i)
    | none => if col.nullable then checkColumns (i + 1) cols values else .error (.nullValueInNonNullCol i)
  | _, _, _ => .ok ()

/-- `Schema::validate_row`. `row.fields[0]` is in range: a schema has a column. -/
def Schema.validateRow (s : Schema) (row : Row) : Except SchemaError ValidatedRow :=
  if hlen : s.columns.length ≠ row.fields.length then .error .columnCountMismatch
  else if hrow : Page.leafEntrySize row > maxLeafEntrySize then .error (.rowTooLong (Page.leafEntrySize row))
  else match hk : row.key? with
    | none => .error .invalidKey
    | some key =>
      if hkey : Page.internalEntrySize key > maxInternalEntrySize then
        .error (.keyTooLong (Page.internalEntrySize key))
      else match Schema.checkColumns 0 s.columns row.fields with
        | .error e => .error e
        | .ok () => .ok {
            row := row
            hasKey := by simp [hk]
            leafSize := by omega
            keySize := by rw [Row.key_of_key? hk]; omega
            fieldCount := by have := s.count; omega }

theorem Schema.validateRow_ok {s : Schema} {r : Row} {v : ValidatedRow} (h : s.validateRow r = .ok v) : v.row = r := by
  unfold validateRow at h
  split at h
  · cases h
  · split at h
    · cases h
    · split at h
      · cases h
      · split at h
        · cases h
        · split at h
          · cases h
          · cases h; rfl

theorem Schema.validateRow_checks {s : Schema} {r : Row} {v : ValidatedRow} (h : s.validateRow r = .ok v) :
    Schema.checkColumns 0 s.columns r.fields = .ok () := by
  unfold validateRow at h
  split at h
  · cases h
  · split at h
    · cases h
    · split at h
      · cases h
      · split at h
        · cases h
        · split at h
          · cases h
          · assumption

/-- In a table whose first column is of integers every valid row has an integer key. -/
theorem Schema.validateRow_integer {s : Schema} (hcol : (s.columns.head s.nonempty).colType = .integer) {r : Row}
    {v : ValidatedRow}
    (h : s.validateRow r = .ok v) : ∃ n, r.key = .integer n := by
  obtain ⟨col, cols, hcols⟩ := List.exists_cons_of_ne_nil s.nonempty
  have htype : col.colType = .integer := by simpa only [hcols, List.head_cons] using hcol
  have hkey : r.key? = some r.key := by
    have hrow := v.hasKey
    rw [Schema.validateRow_ok h] at hrow
    exact Row.key?_eq hrow
  rcases hk : r.key with n | str
  · exact ⟨n, rfl⟩
  · rw [hk] at hkey
    obtain ⟨vs, hfields⟩ := Row.fields_of_key? hkey
    have hcheck := Schema.validateRow_checks h
    simp [hcols, hfields, checkColumns, Key.toRowValue, RowValue.columnType, htype] at hcheck

/-! ## A schema of one column -/

def idColumn : Column := ⟨String.singleton 'a', .integer, false⟩

def idSchema : Schema := ⟨[idColumn], by decide, rfl, rfl, by decide⟩

/-! ## Keys and rows of the greatest size -/

/-- A string of `n` times one ASCII character. -/
def longString (c : Char) (n : Nat) : String := String.ofList (List.replicate n c)

theorem size_longString {c : Char} (hc : c.utf8Size = 1) (n : Nat) : (longString c n).utf8ByteSize = n := by
  induction n with
  | zero => rfl
  | succ n ih =>
    rw [longString, List.replicate_succ, String.ofList_cons, String.utf8ByteSize_append, String.utf8ByteSize_singleton, hc]
    have : (String.ofList (List.replicate n c)).utf8ByteSize = n := ih
    omega

theorem longString_lt {c d : Char} {n m : Nat} (h : c < d) : longString c (n + 1) < longString d (m + 1) := by
  rw [String.lt_iff_toList_lt, longString, longString, String.toList_ofList, String.toList_ofList, List.replicate_succ,
    List.replicate_succ]
  exact List.Lex.rel h

/-- A key of the greatest size admitted. -/
def longKey (c : Char) : Key := .string (longString c 1001)

theorem longKey_lt {c d : Char} (h : c < d) : longKey c < longKey d := Key.string_lt_string.mpr (longString_lt h)

theorem size_longKey {c : Char} (hc : c.utf8Size = 1) : Page.internalEntrySize (longKey c) = maxInternalEntrySize := by
  rw [longKey, Page.internalEntrySize, Key.encodedSize, size_longString hc, Lib.Bytes.size_eq_two (by decide) (by decide)]
  rfl

/-- A row of a long key alone. -/
def longRow (c : Char) : Row := ⟨[.string (longString c 1001)]⟩

theorem key_longRow (c : Char) : (longRow c).key = longKey c := rfl

theorem size_longRow {c : Char} (hc : c.utf8Size = 1) : Page.leafEntrySize (longRow c) = 1009 := by
  simp only [Page.leafEntrySize, Row.encodedSize, longRow, List.map_cons, List.map_nil, List.sum_cons, List.sum_nil,
    RowValue.encodedSize, size_longString hc, Lib.Bytes.size_eq_two (n := 1001) (by decide) (by decide)]
  rfl

/-- A row of the greatest size admitted, under an integer key. -/
def fullRow (n : Int64) : Row := ⟨[.integer n, .string (longString 'x' 996)]⟩

theorem size_fullRow (n : Int64) : Page.leafEntrySize (fullRow n) = maxLeafEntrySize := by
  simp only [Page.leafEntrySize, Row.encodedSize, fullRow, List.map_cons, List.map_nil, List.sum_cons, List.sum_nil,
    RowValue.encodedSize, size_longString (c := 'x') rfl, Lib.Bytes.size_eq_two (n := 996) (by decide) (by decide)]
  rfl

end RustDb
