/-
  RustDb.Page.LeafMap — a leaf page is an ordered map from keys to rows.

  The reference is a map `Key → Option Row`; a leaf stands for it when its records are the
  map's rows in key order. Whatever calls are made on a leaf that starts empty, with rows
  the schema accepts, every answer is the reference's answer, an insert fails only for a key
  that is there or a row that does not fit, and the page stays valid and can be written
  (`leaf_refines_map`).
-/

import RustDb.Lib.OrdMap
import RustDb.Page.Leaf
import RustDb.Codec.RoundTrip

namespace RustDb

open Lib.SortedList Lib.OrdMap

namespace Page

/-- The reference: what is stored under each key. -/
abbrev RowMap := Key → Option Row

section
variable {id : PageId} {lsn : PageLsn} {records : List Row} {nx pv : Option PageId} {m : RowMap} {key : Key}

/-! ## Reading from a key on -/

/-- A row list cut before the rows from `key` on. -/
theorem records_cut (h : LeafValid records) (key : Key) : ∃ a b, records = a ++ b ∧
    a.length = (records.map Row.key).findIdx (fun k => decide (key ≤ k)) ∧ (∀ x ∈ a, x.key < key) ∧ ∀ x ∈ b,
    key ≤ x.key := by
  obtain ⟨ka, kb, he, hlen, hka, hkb⟩ := findIdx_split (p := fun k => decide (key ≤ k)) (records.map Row.key)
  obtain ⟨a, b, rfl, rfl, rfl⟩ := List.map_eq_append_iff.mp he
  refine ⟨a, b, rfl, by simpa using hlen, fun x hx => ?_, fun x hx => ?_⟩
  · simpa using hka x.key (List.mem_map_of_mem hx)
  · cases b with
    | nil => cases hx
    | cons y b =>
      have hy : key ≤ y.key := by simpa using hkb y.key rfl
      have hs := h.sorted
      rw [List.map_append, List.map_cons] at hs
      rcases List.mem_cons.mp hx with rfl | hx
      · exact hy
      · exact hy.trans ((List.pairwise_cons.mp (List.pairwise_append.mp hs).2.1).1 x.key (List.mem_map_of_mem hx)).le

theorem leafRecordsFrom_cut (h : LeafValid records) (key : Key) : ∃ a b, records = a ++ b ∧
    leafRecordsFrom ⟨id, lsn, .leaf records nx pv⟩ key = .ok b ∧ (∀ x ∈ a, x.key < key) ∧ ∀ x ∈ b, key ≤ x.key := by
  obtain ⟨a, b, hab, hlen, ha, hb⟩ := records_cut h key
  have hcmp : records.mapM (·.cmpKey key) = some (records.map fun r => compare r.key key) :=
    mapM_compare fun r hr => by rw [Row.cmpKey_eq, Row.key?_eq (h.rows r hr).hasKey, Option.map_some]
  refine ⟨a, b, hab, ?_, ha, hb⟩
  simp only [leafRecordsFrom, hcmp, findIdx_compare, ← hlen]
  rw [hab, List.drop_left]

end

/-! ## The calls -/

inductive LeafOp where
  | insert (row : Row)
  | remove (key : Key)
  | get (key : Key)
  | recordsFrom (key : Key)

/-- Whether a row has room on the page. -/
def hasRoom (self : Page) (row : Row) : Bool :=
  self.records?.any fun records => decide (rowsSize records + leafEntrySize row ≤ leafUsable)

/-- The page after a call. A row that the schema refuses does not reach the page. -/
def LeafOp.next (s : Schema) (page : Page) : LeafOp → Page
  | .insert row =>
    match s.validateRow row with
    | .ok v => (page.leafInsert v).2
    | .error _ => page
  | .remove key => (page.leafRemove key).2
  | .get _ | .recordsFrom _ => page

/-- The reference after a call. -/
def LeafOp.update (s : Schema) (page : Page) (m : RowMap) : LeafOp → RowMap
  | .insert row =>
    match s.validateRow row with
    | .ok _ => if m row.key = none ∧ page.hasRoom row then Function.update m row.key (some row) else m
    | .error _ => m
  | .remove key => Function.update m key none
  | .get _ | .recordsFrom _ => m

/-- The page answers a call as the reference does; an insert that fails leaves the page. -/
def LeafOp.Agrees (s : Schema) (page : Page) (m : RowMap) : LeafOp → Prop
  | .insert row => ∀ v, s.validateRow row = .ok v →
      (m row.key ≠ none → page.leafInsert v = (.err .duplicateKey, page)) ∧
      (m row.key = none → page.hasRoom row = false → page.leafInsert v = (.err .pageFull, page)) ∧
      (m row.key = none → page.hasRoom row = true → (page.leafInsert v).1 = .ok ())
  | .remove key => (page.leafRemove key).1 = .ok (m key)
  | .get key => page.leafGet key = .ok (m key)
  | .recordsFrom key => ∃ rows, page.leafRecordsFrom key = .ok rows ∧
      Lists Row.key rows fun k => if key ≤ k then m k else none

/-- The page holds the reference's rows in key order, is valid and can be written. -/
def Represents (P : Platform) (page : Page) (m : RowMap) : Prop :=
  (∃ records, page.records? = some records ∧ Lists Row.key records m) ∧ page.checkInvariants = .ok () ∧
    ∃ raw, asRawPage P page = .ok raw

/-- Every call of a sequence agrees with the reference, and so does the page after it. -/
def RefinesMap (P : Platform) (s : Schema) : Page → RowMap → List LeafOp → Prop
  | _, _, [] => True
  | page, m, op :: ops => op.Agrees s page m ∧ Represents P (op.next s page) (op.update s page m) ∧
      RefinesMap P s (op.next s page) (op.update s page m) ops

/-! ## One call -/

/-- The rows of a leaf that holds the reference's rows. -/
structure Holds (records : List Row) (m : RowMap) : Prop where
  valid : LeafValid records
  fields : ∀ r ∈ records, r.fields.length ≤ 255
  lists : Lists Row.key records m

section
variable {id : PageId} {lsn : PageLsn} {records : List Row} {nx pv : Option PageId} {m : RowMap} {s : Schema}

theorem Holds.represents (P : Platform) (h : Holds records m) : Represents P ⟨id, lsn, .leaf records nx pv⟩ m := by
  have hinv : checkInvariants ⟨id, lsn, .leaf records nx pv⟩ = .ok () := (checkInvariants_iff _).mpr h.valid
  obtain ⟨raw, hraw, -⟩ := deserialize_asRawPage P _ hinv rfl (by
    intro rs hrs
    cases hrs
    exact h.fields)
  exact ⟨⟨records, rfl, h.lists⟩, hinv, raw, hraw⟩

/-- A call leaves a leaf that holds the reference's rows after it. -/
def LeafOp.Steps (s : Schema) (op : LeafOp) (id : PageId) (lsn : PageLsn) (nx pv : Option PageId) (records : List Row)
    (m : RowMap) : Prop :=
  op.Agrees s ⟨id, lsn, .leaf records nx pv⟩ m ∧ ∃ records', op.next s ⟨id, lsn, .leaf records nx pv⟩ =
  ⟨id, lsn, .leaf records' nx pv⟩ ∧
    Holds records' (op.update s ⟨id, lsn, .leaf records nx pv⟩ m)

theorem steps_insert (h : Holds records m) (row : Row) : (LeafOp.insert row).Steps s id lsn nx pv records m := by
  cases hv : s.validateRow row with
  | error e =>
    refine ⟨fun v hv' => ?_, records, ?_, ?_⟩
    · cases hv.symm.trans hv'
    · simp only [LeafOp.next, hv]
    · simpa only [LeafOp.update, hv] using h
  | ok v =>
    obtain rfl : v.row = row := Schema.validateRow_ok hv
    have hroom : hasRoom ⟨id, lsn, .leaf records nx pv⟩ v.row = decide
        (rowsSize records + leafEntrySize v.row ≤ leafUsable) := rfl
    by_cases hk : m v.row.key = none
    · have hno := h.lists.absent_iff.mp hk
      by_cases hfit : rowsSize records + leafEntrySize v.row ≤ leafUsable
      · obtain ⟨a, b, rfl, ha, hb⟩ := records_gap h.valid hno
        have hins := @leafInsert_fits id lsn a b nx pv v h.valid ha hb hfit
        rw [decide_eq_true hfit] at hroom
        refine ⟨fun v' hv' => ?_, a ++ v.row :: b, ?_, leafValid_insert h.valid (rowFits_validated v) ha hb hfit, ?_, ?_⟩
        · cases hv.symm.trans hv'
          refine ⟨fun hsome => absurd hk hsome, fun _ hfull => ?_, fun _ _ => congrArg Prod.fst hins⟩
          cases hroom.symm.trans hfull
        · simp only [LeafOp.next, hv, hins]
        · intro x hx
          rcases List.mem_append.mp hx with hx | hx
          · exact h.fields x (List.mem_append_left b hx)
          · rcases List.mem_cons.mp hx with rfl | hx
            · exact v.fieldCount
            · exact h.fields x (List.mem_append_right a hx)
        · simp only [LeafOp.update, hv, hk, hroom, and_self, if_true]
          exact h.lists.insert ha hb
      · have hfull := @leafInsert_full id lsn records nx pv v h.valid hno hfit
        rw [decide_eq_false hfit] at hroom
        refine ⟨fun v' hv' => ?_, records, ?_, ?_⟩
        · cases hv.symm.trans hv'
          refine ⟨fun hsome => absurd hk hsome, fun _ _ => hfull, fun _ hfits => ?_⟩
          cases hroom.symm.trans hfits
        · simp only [LeafOp.next, hv, hfull]
        · simp only [LeafOp.update, hv, hroom, Bool.false_eq_true, and_false, if_false]
          exact h
    · have hdup := @leafInsert_duplicate id lsn records nx pv v h.valid (h.lists.present hk)
      refine ⟨fun v' hv' => ?_, records, ?_, ?_⟩
      · cases hv.symm.trans hv'
        exact ⟨fun _ => hdup, fun hnone => absurd hnone hk, fun hnone => absurd hnone hk⟩
      · simp only [LeafOp.next, hv, hdup]
      · simp only [LeafOp.update, hv, hk, false_and, if_false]
        exact h

theorem steps_remove (h : Holds records m) (key : Key) : (LeafOp.remove key).Steps s id lsn nx pv records m := by
  by_cases hk : m key = none
  · have hno := @leafRemove_absent id lsn records nx pv key h.valid (h.lists.absent_iff.mp hk)
    refine ⟨?_, records, congrArg Prod.snd hno, ?_⟩
    · rw [LeafOp.Agrees, hno, hk]
    · rw [LeafOp.update, ← hk, Function.update_eq_self]
      exact h
  · obtain ⟨r, hr, rfl⟩ := h.lists.present hk
    have hm := h.lists.mem hr
    obtain ⟨a, b, rfl⟩ := List.append_of_mem hr
    have hsub : (a ++ b).Sublist (a ++ r :: b) := List.Sublist.append_left (List.sublist_cons_self r b) a
    have hrm := @leafRemove_found id lsn a b r nx pv h.valid
    refine ⟨?_, a ++ b, congrArg Prod.snd hrm, h.valid.sublist hsub, fun x hx => h.fields x (hsub.subset hx), h.lists.erase⟩
    rw [LeafOp.Agrees, hrm, hm]

theorem steps_get (h : Holds records m) (key : Key) : (LeafOp.get key).Steps s id lsn nx pv records m := by
  refine ⟨?_, records, rfl, h⟩
  by_cases hk : m key = none
  · exact (leafGet_absent h.valid (h.lists.absent_iff.mp hk)).trans (congrArg Except.ok hk.symm)
  · obtain ⟨r, hr, rfl⟩ := h.lists.present hk
    have hm := h.lists.mem hr
    obtain ⟨a, b, rfl⟩ := List.append_of_mem hr
    exact (leafGet_found h.valid).trans (congrArg Except.ok hm.symm)

theorem steps_recordsFrom (h : Holds records m) (key : Key) : (LeafOp.recordsFrom key).Steps s id lsn nx pv records m := by
  refine ⟨?_, records, rfl, h⟩
  obtain ⟨a, b, rfl, hb, hlt, hge⟩ := @leafRecordsFrom_cut id lsn records nx pv h.valid key
  exact ⟨b, hb, h.lists.tail hlt hge⟩

theorem steps (h : Holds records m) (op : LeafOp) : op.Steps s id lsn nx pv records m := by
  cases op with
  | insert row => exact steps_insert h row
  | remove key => exact steps_remove h key
  | get key => exact steps_get h key
  | recordsFrom key => exact steps_recordsFrom h key

/-! ## Sequences of calls -/

theorem Holds.refines (P : Platform) (h : Holds records m) (ops : List LeafOp) :
    RefinesMap P s ⟨id, lsn, .leaf records nx pv⟩ m ops := by
  induction ops generalizing records m with
  | nil => trivial
  | cons op ops ih =>
    obtain ⟨hagrees, records', hnext, h'⟩ := @steps id lsn records nx pv m s h op
    refine ⟨hagrees, ?_, ?_⟩
    · rw [hnext]
      exact h'.represents P
    · rw [hnext]
      exact ih h'

end

/-- A leaf that starts empty is an ordered map, whatever is called on it. -/
theorem leaf_refines_map (P : Platform) (s : Schema) (id : PageId) (ops : List LeafOp) :
    Represents P (emptyLeaf id) (fun _ => none) ∧ RefinesMap P s (emptyLeaf id) (fun _ => none) ops := by
  have h : Holds [] fun _ => none := ⟨⟨by simp, List.Pairwise.nil, by decide⟩, by simp, Lists.nil⟩
  exact ⟨h.represents P, h.refines P ops⟩

end Page

end RustDb
