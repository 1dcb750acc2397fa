/-
  RustDb.RawText — values written as text (`table/mod.rs`, `schema/mod.rs`).

  Two parsers read a column's text: `map_raw` what is stored, `parse_value` what a filter
  compares with. The second trims its text and refuses a NaN, the first does neither.
  - `agrees_iff`: they give equal values except on a string with whitespace around it and on
    a float spelled as a NaN (`Apart`).
  - `insertRaw_found_iff`: a row stored from texts is found again by each of those texts
    that is not one of these.
-/

import RustDb.Lib.Text
import RustDb.BTree.Get
import RustDb.BTree.Insert

namespace RustDb

open Lib.Text Call

/-! ## The two parsers -/

/-- `PartialEq` of row values: floats by value. -/
def RowValue.eq : RowValue → RowValue → Bool
  | .float a, .float b => floatEq a b
  | v, w => v == w

/-- `Table::map_raw`. -/
def Table.mapRaw (u : UpperCase) (kind : ColumnType) (arg : String) : Except TableError RowValue :=
  if u.toUppercase arg.toList = "NULL".toList then .ok .null
  else match kind with
    | .bool => match parseBool arg.toList with
      | some b => .ok (.boolean b)
      | none => .error .unexpected
    | .float => match parseFloat arg.toList with
      | some f => .ok (.float f)
      | none => .error .unexpected
    | .integer => match parseInt64 arg.toList with
      | some n => .ok (.integer n)
      | none => .error .unexpected
    | .string => .ok (.string arg)

/-- `ColumnType::parse_value`. -/
def ColumnType.parseValue (kind : ColumnType) (text : String) : Except SchemaError RowValue :=
  let text := trim text.toList
  if lower text = lower "null".toList then .ok .null
  else match kind with
    | .integer => match parseInt64 text with
      | some n => .ok (.integer n)
      | none => .error .parseInt
    | .float => match parseFloat text with
      | some f => if isNan f then .error .nanFloat else .ok (.float f)
      | none => .error .parseFloat
    | .bool =>
      let text := lower text
      if text = "true".toList ∨ text = "t".toList ∨ text = "1".toList then .ok (.boolean true)
      else if text = "false".toList ∨ text = "f".toList ∨ text = "0".toList then .ok (.boolean false)
      else .error .parseBool
    | .string => .ok (.string (String.ofList text))

/-- `Schema::filter_fn`. -/
def Schema.filterFn (s : Schema) (colName value : String) : Except SchemaError (Row → Bool) :=
  match s.columns.findFinIdx? (·.name = colName) with
  | none => .error .columnNotFound
  | some i =>
    match s.columns[i].colType.parseValue value with
    | .error e => .error e
    | .ok value => .ok fun row => row.fields[i.val]?.any value.eq

namespace Table

variable (t : Table)

/-- `Table::insert`. -/
def insert (fuel : Nat) (row : Row) : TB Unit :=
  match t.schema.validateRow row with
  | .error e => throw (.err (.schema e))
  | .ok row => (BTree.insert t fuel row).mapErr .btree

/-- The row of `insert_raw`, one value a column. -/
def rawRow (u : UpperCase) (args : List String) : Except TableError Row := do
  let fields ← ((t.schema.columns.map Column.colType).zip args).mapM fun x => mapRaw u x.1 x.2
  return ⟨fields⟩

/-- `Table::insert_raw`. -/
def insertRaw (u : UpperCase) (fuel : Nat) (args : List String) : TB Unit :=
  match t.rawRow u args with
  | .error e => throw (.err e)
  | .ok row => t.insert fuel row

/-- `Table::get_all`. -/
def getAll (fuel : Nat) (filterFn : Row → Bool) : TB (List Row) := (BTree.getAll t fuel filterFn).mapErr .btree

end Table

/-! ## Where they part -/

theorem RowValue.eq_comm (v w : RowValue) : v.eq w = w.eq v := by
  cases v <;> cases w <;> simp only [RowValue.eq, floatEq, Bool.and_comm, Bool.beq_comm]

theorem RowValue.eq_self {v : RowValue} (h : ∀ f, v = .float f → isNan f = false) : v.eq v = true := by
  cases v with
  | float f => simp [RowValue.eq, floatEq_self, h f rfl]
  | _ => simp [RowValue.eq]

/-- What `map_raw` makes of a text, `parse_value` makes of it too. -/
def Agrees (u : UpperCase) (kind : ColumnType) (text : String) : Prop :=
  ∀ v, Table.mapRaw u kind text = .ok v → ∃ v', kind.parseValue text = .ok v' ∧ v.eq v' = true

/-- A string with whitespace before or after it, or a float spelled as a NaN. -/
def Apart (kind : ColumnType) (text : String) : Prop :=
  (kind = .string ∧ trim text.toList ≠ text.toList) ∨ (kind = .float ∧ SpellsNan text.toList)

section
variable {u : UpperCase} {kind : ColumnType} {text : String}

theorem capital_null : ∀ d ∈ "NULL".toList, Capital d := by
  intro d hd
  have hword : "NULL".toList = ['N', 'U', 'L', 'L'] := by decide
  rw [hword] at hd
  simp only [List.mem_cons, List.not_mem_nil, or_false] at hd
  rcases hd with rfl | rfl | rfl | rfl <;> exact ⟨by decide, by decide, by decide, by decide⟩

/-- Both ask for a null in the same words. -/
theorem toUppercase_null : u.toUppercase text.toList = "NULL".toList ↔ lower text.toList = "null".toList := by
  rw [u.toUppercase_eq_iff capital_null]
  have hlow : lower "NULL".toList = "null".toList := by decide
  rw [hlow]

theorem plain_null (h : lower text.toList = "null".toList) : Plain text.toList := by
  refine plain_of_lower ?_
  rw [h]
  exact plain_of_all rfl

theorem not_spellsNan_null (h : lower text.toList = "null".toList) : ¬ SpellsNan text.toList := by
  intro hnan
  unfold SpellsNan signed at hnan
  split at hnan
  · rename_i heq
    rw [heq] at h
    exact absurd (List.cons.inj h).1 (by decide)
  · rename_i heq
    rw [heq] at h
    exact absurd (List.cons.inj h).1 (by decide)
  · rw [h] at hnan
    exact absurd hnan (by decide)

theorem lower_null : lower "null".toList = "null".toList := by decide

theorem mapRaw_null (h : lower text.toList = "null".toList) : Table.mapRaw u kind text = .ok .null := by
  unfold Table.mapRaw
  rw [if_pos (toUppercase_null.mpr h)]

theorem parseValue_null (h : lower text.toList = "null".toList) : kind.parseValue text = .ok .null := by
  simp only [ColumnType.parseValue, trim_of_plain (plain_null h), lower_null, if_pos h]

theorem mapRaw_string (h : lower text.toList ≠ "null".toList) : Table.mapRaw u .string text = .ok (.string text) := by
  rw [Table.mapRaw, if_neg (toUppercase_null.not.mpr h)]

theorem mapRaw_integer {v : RowValue} (hv : Table.mapRaw u .integer text = .ok v)
    (h : lower text.toList ≠ "null".toList) : ∃ n, parseInt64 text.toList = some n ∧ v = .integer n := by
  rw [Table.mapRaw, if_neg (toUppercase_null.not.mpr h)] at hv
  rcases hp : parseInt64 text.toList with _ | n <;> simp only [hp] at hv <;> cases hv
  exact ⟨n, rfl, rfl⟩

theorem mapRaw_bool {v : RowValue} (hv : Table.mapRaw u .bool text = .ok v) (h : lower text.toList ≠ "null".toList) :
    ∃ b, parseBool text.toList = some b ∧ v = .boolean b := by
  rw [Table.mapRaw, if_neg (toUppercase_null.not.mpr h)] at hv
  rcases hp : parseBool text.toList with _ | b <;> simp only [hp] at hv <;> cases hv
  exact ⟨b, rfl, rfl⟩

theorem mapRaw_float {v : RowValue} (hv : Table.mapRaw u .float text = .ok v) (h : lower text.toList ≠ "null".toList) :
    ∃ f, parseFloat text.toList = some f ∧ v = .float f := by
  rw [Table.mapRaw, if_neg (toUppercase_null.not.mpr h)] at hv
  rcases hp : parseFloat text.toList with _ | f <;> simp only [hp] at hv <;> cases hv
  exact ⟨f, rfl, rfl⟩

/-- `true` and `false` as `bool` spells them are among the words `parse_value` knows. -/
theorem parseValue_bool {b : Bool} (hb : parseBool text.toList = some b) :
    ColumnType.bool.parseValue text = .ok (.boolean b) := by
  unfold parseBool at hb
  split at hb
  · rename_i hs
    cases hb
    simp only [ColumnType.parseValue, hs]
    rfl
  · split at hb
    · rename_i hs
      cases hb
      simp only [ColumnType.parseValue, hs]
      rfl
    · cases hb

theorem agrees_integer : Agrees u .integer text := by
  intro v hv
  by_cases hnull : lower text.toList = "null".toList
  · rw [mapRaw_null hnull] at hv
    cases hv
    exact ⟨.null, parseValue_null hnull, rfl⟩
  · obtain ⟨n, hn, rfl⟩ := mapRaw_integer hv hnull
    refine ⟨.integer n, ?_, RowValue.eq_self fun f hf => by cases hf⟩
    simp only [ColumnType.parseValue, trim_of_plain (plain_of_parseInt64 hn), lower_null, if_neg hnull, hn]

theorem agrees_bool : Agrees u .bool text := by
  intro v hv
  by_cases hnull : lower text.toList = "null".toList
  · rw [mapRaw_null hnull] at hv
    cases hv
    exact ⟨.null, parseValue_null hnull, rfl⟩
  · obtain ⟨b, hb, rfl⟩ := mapRaw_bool hv hnull
    exact ⟨.boolean b, parseValue_bool hb, RowValue.eq_self fun f hf => by cases hf⟩

theorem agrees_float : Agrees u .float text ↔ ¬ SpellsNan text.toList := by
  constructor
  · intro hagrees hnan
    have hnull : lower text.toList ≠ "null".toList := fun h => not_spellsNan_null h hnan
    obtain ⟨f, hf⟩ := parseFloat_of_spellsNan hnan
    have hmap : Table.mapRaw u .float text = .ok (.float f) := by
      rw [Table.mapRaw, if_neg (toUppercase_null.not.mpr hnull), hf]
    obtain ⟨hplain, hisNan⟩ := parseFloat_some hf
    obtain ⟨v', hv', -⟩ := hagrees _ hmap
    simp only [ColumnType.parseValue, trim_of_plain hplain, lower_null, if_neg hnull, hf, if_pos (hisNan.mpr hnan)] at hv'
    cases hv'
  · intro hnan v hv
    by_cases hnull : lower text.toList = "null".toList
    · rw [mapRaw_null hnull] at hv
      cases hv
      exact ⟨.null, parseValue_null hnull, rfl⟩
    · obtain ⟨f, hf, rfl⟩ := mapRaw_float hv hnull
      obtain ⟨hplain, hisNan⟩ := parseFloat_some hf
      have hreal : isNan f = false := by simpa using hisNan.not.mpr hnan
      refine ⟨.float f, ?_, RowValue.eq_self fun g hg => by cases hg; exact hreal⟩
      simp only [ColumnType.parseValue, trim_of_plain hplain, lower_null, if_neg hnull, hf, hreal]
      rfl

theorem agrees_string : Agrees u .string text ↔ trim text.toList = text.toList := by
  by_cases hnull : lower text.toList = "null".toList
  · refine iff_of_true (fun v hv => ?_) (trim_of_plain (plain_null hnull))
    rw [mapRaw_null hnull] at hv
    cases hv
    exact ⟨.null, parseValue_null hnull, rfl⟩
  · constructor
    · intro hagrees
      obtain ⟨v', hv', heq⟩ := hagrees _ (mapRaw_string hnull)
      simp only [ColumnType.parseValue, lower_null] at hv'
      split at hv'
      · -- the trimmed text is a null, the stored one a string
        cases hv'
        simp [RowValue.eq] at heq
      · cases hv'
        simp only [RowValue.eq, beq_iff_eq, RowValue.string.injEq] at heq
        have hchars := congrArg String.toList heq
        rw [String.toList_ofList] at hchars
        exact hchars.symm
    · intro htrim v hv
      rw [mapRaw_string hnull] at hv
      cases hv
      refine ⟨.string text, ?_, RowValue.eq_self fun f hf => by cases hf⟩
      simp only [ColumnType.parseValue, htrim, lower_null, if_neg hnull, String.ofList_toList]

/-- The two parsers agree on a text exactly when it is neither a string with whitespace
    around it nor a NaN. -/
theorem agrees_iff : Agrees u kind text ↔ ¬ Apart kind text := by
  cases kind with
  | integer => simp [Apart, agrees_integer]
  | bool => simp [Apart, agrees_bool]
  | float => simp [Apart, agrees_float]
  | string => simp [Apart, agrees_string]

end

/-! ## Storing by text and finding by text -/

theorem forall₂_of_mapM {ε α β : Type} {f : α → Except ε β} {as : List α} {bs : List β} (h : as.mapM f = .ok bs) :
    List.Forall₂ (fun a b => f a = .ok b) as bs := by
  induction as generalizing bs with
  | nil =>
    cases h
    exact .nil
  | cons a as ih =>
    rw [List.mapM_cons] at h
    rcases ha : f a with e | b
    · rw [ha] at h
      cases h
    · rw [ha] at h
      rcases has : as.mapM f with e | bs'
      · rw [has] at h
        cases h
      · rw [has] at h
        cases h
        exact .cons ha (ih has)

/-- With distinct names a column's name finds it, and its filter compares its field. -/
theorem Schema.filterFn_name {s : Schema} (hnames : (s.columns.map Column.name).Nodup) {i : Nat} (hi : i < s.columns.length)
    (text : String) : s.filterFn s.columns[i].name text =
      (s.columns[i].colType.parseValue text).map fun value row => row.fields[i]?.any value.eq := by
  have hfind : s.columns.findFinIdx? (·.name = s.columns[i].name) = some ⟨i, hi⟩ := by
    rw [List.findFinIdx?_eq_some_iff]
    refine ⟨by simp, fun j hji => ?_⟩
    have hne := List.pairwise_iff_getElem.mp hnames j i (by simp) (by simpa using hi) hji
    simpa using hne
  rw [Schema.filterFn, hfind]
  rcases hp : s.columns[i].colType.parseValue text with e | v <;> simp only [Fin.getElem_fin, hp] <;> rfl

theorem Call.eval_mapErr {ε ε' α : Type} {p : Call ε α} {w w' : World} {r : Except (Fail ε) α} (f : ε → ε')
    (h : p.eval w = some (r, w')) : (p.mapErr f).eval w = some (r.mapError (Fail.map f), w') := by
  show (p.run >>= fun x => pure (Except.mapError (Fail.map f) x)).run _ _ = _
  rw [Lib.Prog.run_bind]
  rw [Call.eval] at h
  rw [h]
  rfl

namespace Table

variable (t : Table)

/-- `get_all`, given steps enough, finds the row by this text in this column. -/
def FoundBy (σ : Store) (row : Row) (colName text : String) : Prop :=
  ∃ filterFn, t.schema.filterFn colName text = .ok filterFn ∧
    ∃ n, ∀ fuel ≥ n, ∃ rows, (t.getAll fuel filterFn).eval (.idle σ) = some (.ok rows, .idle σ) ∧ row ∈ rows

section
variable {t} {h : Nat} {σ σ' : Store} {T : BTree.PageTree h} {count : UInt32} {free : List PageId} {u : UpperCase}
  {args : List String} {row : Row} {fuel : Nat}

theorem eval_getAll (hr : BTree.Readable t σ T) (hh : h < fuel) (hl : T.leaves.length ≤ fuel) (filterFn : Row → Bool) :
    (t.getAll fuel filterFn).eval (.idle σ) = some (.ok (T.rows.filter filterFn), .idle σ) := by
  obtain ⟨tr, hexec⟩ := BTree.exec_getRange hr hh hl .unbounded .unbounded filterFn
  have hall : BTree.wanted .unbounded .unbounded filterFn = filterFn := funext fun r => by
    simp [BTree.wanted, BTree.Bound.contains, BTree.Bound.fromStart, BTree.Bound.toEnd]
  rw [hall] at hexec
  exact Call.eval_mapErr _ hexec.eval

/-- A stored row is found by a column's text when its field equals what the filter makes of
    that text. -/
theorem foundBy_iff (hr : BTree.Readable t σ T) (hrow : row ∈ T.rows) (hnames : (t.schema.columns.map Column.name).Nodup)
    {i : Nat} (hi : i < t.schema.columns.length) {v : RowValue} (hv : row.fields[i]? = some v) (text : String) :
    t.FoundBy σ row t.schema.columns[i].name text ↔
      ∃ v', t.schema.columns[i].colType.parseValue text = .ok v' ∧ v.eq v' = true := by
  rw [FoundBy, Schema.filterFn_name hnames hi]
  constructor
  · rintro ⟨filterFn, hf, n, hfound⟩
    rcases hp : t.schema.columns[i].colType.parseValue text with e | v'
    · rw [hp] at hf
      cases hf
    · rw [hp] at hf
      cases hf
      obtain ⟨rows, heval, hmem⟩ := hfound (n + h + T.leaves.length + 1) (by omega)
      rw [eval_getAll hr (by omega) (by omega)] at heval
      cases heval
      have hfield := (List.mem_filter.mp hmem).2
      simp only [hv, Option.any_some] at hfield
      rw [RowValue.eq_comm] at hfield
      exact ⟨v', rfl, hfield⟩
  · rintro ⟨v', hp, heq⟩
    rw [hp]
    refine ⟨_, rfl, h + T.leaves.length + 1, fun fuel hfuel => ⟨_, eval_getAll hr (by omega) (by omega) _, ?_⟩⟩
    rw [RowValue.eq_comm] at heq
    rw [List.mem_filter]
    simp only [hv, Option.any_some]
    exact ⟨hrow, heq⟩

/-- What `insert_raw` stored when it succeeds. -/
theorem insertRaw_stored (hw : BTree.WellFormed t σ T count free) (hfuel : h < fuel) (hroom : count.toNat + h + 2 < 2 ^ 32)
    (hins : (t.insertRaw u fuel args).eval (.idle σ) = some (.ok (), .idle σ')) :
    ∃ row, t.rawRow u args = .ok row ∧ ∃ h', ∃ T' : BTree.PageTree h', BTree.Readable t σ' T' ∧ row ∈ T'.rows := by
  unfold insertRaw at hins
  rcases hrow : t.rawRow u args with e | row
  · rw [hrow] at hins
    cases hins
  · rw [hrow] at hins
    simp only [insert] at hins
    rcases hvalid : t.schema.validateRow row with e | v
    · rw [hvalid] at hins
      cases hins
    · rw [hvalid] at hins
      simp only at hins
      have hv := Schema.validateRow_ok hvalid
      rcases BTree.insert_wellFormed hw hfuel hroom v with ⟨-, heval⟩ |
          ⟨-, σ'', h', T', count', free', heval, hw', a, b, -, hrows⟩
      · rw [Call.eval_mapErr _ heval] at hins
        cases hins
      · rw [Call.eval_mapErr _ heval] at hins
        cases hins
        refine ⟨row, rfl, h', T', hw'.sound.readable, ?_⟩
        rw [hrows, hv]
        simp

/-- The value stored from a column's text. -/
theorem rawRow_getElem (hrow : t.rawRow u args = .ok row) {i : Nat} (hi : i < t.schema.columns.length)
    (hia : i < args.length) :
    ∃ v, row.fields[i]? = some v ∧ mapRaw u t.schema.columns[i].colType args[i] = .ok v := by
  unfold rawRow at hrow
  rcases hmap : ((t.schema.columns.map Column.colType).zip args).mapM fun x => mapRaw u x.1 x.2 with e | fields
  · rw [hmap] at hrow
    cases hrow
  · rw [hmap] at hrow
    cases hrow
    obtain ⟨hlen', hget⟩ := List.forall₂_iff_get.mp (forall₂_of_mapM hmap)
    have hi' : i < ((t.schema.columns.map Column.colType).zip args).length := by simp; omega
    have hif : i < fields.length := by omega
    refine ⟨fields[i], List.getElem?_eq_getElem hif, ?_⟩
    simpa using hget i hi' hif

/-- A row stored from one text a column is found by the text of each column that is not a
    string with whitespace around it or a NaN, and by no other; and the parsers agree on
    the same texts. -/
theorem insertRaw_found_iff (hw : BTree.WellFormed t σ T count free) (hfuel : h < fuel)
    (hroom : count.toNat + h + 2 < 2 ^ 32)
    (hnames : (t.schema.columns.map Column.name).Nodup) (u : UpperCase) (args : List String) :
    (∀ kind text, Agrees u kind text ↔ ¬ Apart kind text) ∧
      ∀ σ', (t.insertRaw u fuel args).eval (.idle σ) = some (.ok (), .idle σ') → ∃ row, t.rawRow u args = .ok row ∧
        ∀ x ∈ t.schema.columns.zip args, t.FoundBy σ' row x.1.name x.2 ↔ ¬ Apart x.1.colType x.2 := by
  refine ⟨fun kind text => agrees_iff, fun σ' hins => ?_⟩
  obtain ⟨row, hrow, h', T', hr, hmem⟩ := insertRaw_stored hw hfuel hroom hins
  refine ⟨row, hrow, fun x hx => ?_⟩
  obtain ⟨i, hi, rfl⟩ := List.mem_iff_getElem.mp hx
  rw [List.length_zip] at hi
  obtain ⟨v, hv, hmap⟩ := rawRow_getElem hrow (show i < t.schema.columns.length by omega) (by omega)
  simp only [List.getElem_zip]
  rw [foundBy_iff hr hmem hnames (by omega) hv, ← @agrees_iff u]
  constructor
  · intro hparse w hw'
    rw [hmap] at hw'
    cases hw'
    exact hparse
  · intro hagrees
    exact hagrees v hmap

end

end Table

/-! ## A table of one string -/

open BTree

def textSchema : Schema := ⟨[⟨"k", .string, false⟩], by decide, rfl, rfl, by decide⟩

def textTable : Table := ⟨⟨⟨1⟩, 0⟩, textSchema, "t"⟩

def textStore : Store := Store.ofPages
  [Page.emptyLeaf ⟨⟨1⟩, 1⟩, Page.emptyPage ⟨⟨1⟩, 0⟩ (.metaPage ⟨⟨1⟩, 1⟩ 2 none textSchema "t")]

theorem textTable_wellFormed : WellFormed textTable textStore (Lib.SearchTree.Tree.leaf ⟨⟨1⟩, 1⟩ [] : PageTree 0) 2 [] := by
  have hmeta : textTable.MetaRep textStore ⟨⟨1⟩, 1⟩ 2 [] :=
    ⟨⟨none, textSchema, "t", rfl, by decide +kernel, by simp, by decide +kernel⟩, trivial⟩
  exact wellFormed_leaf hmeta rfl rfl rfl ⟨by simp, by simp, by decide⟩

/-- A string that makes a row of the schema is stored as it is. -/
theorem textTable_insertRaw {text : String} (hnull : lower text.toList ≠ "null".toList)
    (hvalid : (textSchema.validateRow ⟨[.string text]⟩).isOk) :
    textTable.rawRow .ofAscii [text] = .ok ⟨[.string text]⟩ ∧
      ∃ σ', (textTable.insertRaw .ofAscii 1 [text]).eval (.idle textStore) = some (.ok (), .idle σ') := by
  have hrow : textTable.rawRow .ofAscii [text] = .ok ⟨[.string text]⟩ := by
    simp only [Table.rawRow, textTable, textSchema, List.map_cons, List.map_nil, List.zip_cons_cons, List.zip_nil_left,
      List.mapM_cons, List.mapM_nil, mapRaw_string hnull]
    rfl
  refine ⟨hrow, ?_⟩
  rcases hv : textSchema.validateRow ⟨[.string text]⟩ with e | v
  · rw [hv] at hvalid
    cases hvalid
  · rcases insert_wellFormed textTable_wellFormed (show 0 < 1 by decide) (by decide) v with ⟨⟨r, hr, -⟩, -⟩ |
      ⟨-, σ', -, -, -, -, h, -⟩
    · simp at hr
    · refine ⟨σ', ?_⟩
      unfold Table.insertRaw
      rw [hrow]
      simp only [Table.insert]
      rw [show textTable.schema = textSchema from rfl, hv]
      exact Call.eval_mapErr _ h

theorem Table.insertRaw_found_one : ∃ σ', (textTable.insertRaw .ofAscii 1 ["a"]).eval (.idle textStore) =
    some (.ok (), .idle σ') ∧
    textTable.FoundBy σ' ⟨[.string "a"]⟩ "k" "a" := by
  obtain ⟨hrow, σ', heval⟩ := @textTable_insertRaw "a" (by decide) (by decide)
  obtain ⟨row, hrow', hfound⟩ := (Table.insertRaw_found_iff textTable_wellFormed (show 0 < 1 by decide) (by decide)
      (by decide)
    .ofAscii ["a"]).2 σ' heval
  cases hrow.symm.trans hrow'
  refine ⟨σ', heval, (hfound (⟨"k", .string, false⟩, "a") List.mem_cons_self).mpr ?_⟩
  rintro (⟨-, h⟩ | ⟨h, -⟩)
  · exact h (by decide)
  · cases h

/-- A text with a blank before it is stored with the blank, and looked up without it. -/
theorem Table.insertRaw_loses_blank : ¬ Agrees .ofAscii .string " a" ∧
    ∃ σ', (textTable.insertRaw .ofAscii 1 [" a"]).eval (.idle textStore) = some (.ok (), .idle σ') ∧
      textTable.rawRow .ofAscii [" a"] = .ok ⟨[.string " a"]⟩ ∧ ¬ textTable.FoundBy σ' ⟨[.string " a"]⟩ "k" " a" := by
  have hapart : ¬ Agrees .ofAscii .string " a" := by
    rw [agrees_string]
    decide
  obtain ⟨hrow, σ', heval⟩ := @textTable_insertRaw " a" (by decide) (by decide)
  refine ⟨hapart, σ', heval, hrow, fun hfound => hapart ?_⟩
  obtain ⟨row, hrow', h', T', hr, hmem⟩ := Table.insertRaw_stored textTable_wellFormed (show 0 < 1 by decide)
      (by decide) heval
  cases hrow.symm.trans hrow'
  intro v hv
  cases hv
  exact (Table.foundBy_iff hr hmem (by decide) (show 0 < 1 by decide) rfl " a").mp hfound

end RustDb
