/-
  RustDb.Page.Split — `Page::split_page`.

  The split point is chosen by bytes. What a page too full for one more entry is split
  into always has room on both sides for an entry of any admitted size:
  - `splitPage_leaf`, for a leaf that refused a row.
  - `splitPage_internal`, for an internal page that refused a separator.
-/

import RustDb.Page.Internal

namespace RustDb

open Lib.SortedList

namespace Page

/-- `usize::clamp`. -/
def clamp (x lo hi : Nat) : Nat := max lo (min x hi)

/-- `Page::split_page`: the promoted key and the new right page, and the page left. -/
def splitPage (self : Page) (newPageId : PageId) : PageResult (Key × Page) × Page :=
  match self.body with
  | .internal keys children =>
    if keys.length < 3 then (.err (.tooSmallToSplit self.pageId), self)
    else match sumPosition (keysSize keys / 2) 0 (keys.map internalEntrySize) with
      | none => (.error .panic, self)
      | some splitPoint =>
        let splitOffPoint := clamp (splitPoint + 1) 1 (keys.length - 2)
        -- `split_off` panics past the end
        if splitOffPoint + 1 > children.length then
          (.error .panic, { self with body := .internal (keys.take splitOffPoint) children })
        else
          let left := { self with
            body := .internal (keys.take splitOffPoint) (children.take (splitOffPoint + 1)) }
          match keys.drop splitOffPoint with
          | [] => (.error .panic, left)
          | splitKey :: newKeys =>
            (.ok (splitKey, ⟨newPageId, none, .internal newKeys (children.drop (splitOffPoint + 1))⟩), left)
  | .leaf records next prev =>
    if records.length < 2 then (.err (.tooSmallToSplit self.pageId), self)
    else match sumPosition (rowsSize records / 2) 0 (records.map leafEntrySize) with
      | none => (.error .panic, self)
      | some splitPoint =>
        let splitOffPoint := clamp (splitPoint + 1) 1 (records.length - 1)
        let newRecords := records.drop splitOffPoint
        match newRecords.head?.bind Row.key? with
        | none => (.err .invariantViolated, { self with body := .leaf (records.take splitOffPoint) next prev })
        | some splitKey =>
          (.ok (splitKey, ⟨newPageId, none, .leaf newRecords next (some self.pageId)⟩),
            { self with body := .leaf (records.take splitOffPoint) (some newPageId) prev })
  | _ => (.err .wrongPageType, self)

/-! ## Where the bytes go -/

section
variable {sizes : List Nat} {m keep : Nat}

/-- Cutting after the entry that reaches half of the bytes, but at least `keep` entries
    from the end: the left part is at most half the bytes and an entry, and the right
    part at most the other half, or it is the `keep` last entries. -/
theorem cut_sizes (hm : ∀ x ∈ sizes, x ≤ m) (hlen : keep < sizes.length) :
    ∃ i, sumPosition (sizes.sum / 2) 0 sizes = some i ∧
      let s := clamp (i + 1) 1 (sizes.length - keep)
      0 < s ∧ s + keep ≤ sizes.length ∧ (sizes.take s).sum < sizes.sum / 2 + m + 1 ∧
        ((sizes.drop s).sum ≤ sizes.sum - sizes.sum / 2 ∨ s + keep = sizes.length) := by
  have hne : sizes ≠ [] := by rintro rfl; simp at hlen
  obtain ⟨i, hi, hlt, hbefore, hreach⟩ :=
    sumPosition_spec (sizes.sum / 2) 0 sizes hne (by omega)
  refine ⟨i, hi, ?_⟩
  have hs : clamp (i + 1) 1 (sizes.length - keep) = min (i + 1) (sizes.length - keep) := by
    unfold clamp; omega
  have htake : (sizes.take (i + 1)).sum < sizes.sum / 2 + m + 1 := by
    have hstep := sum_take_succ_le hm i
    rcases hbefore with rfl | hbefore
    · simp only [List.take_zero, List.sum_nil] at hstep; omega
    · omega
  simp only [hs]
  refine ⟨by omega, by omega, ?_, ?_⟩
  · rcases Nat.le_total (i + 1) (sizes.length - keep) with h | h
    · rw [Nat.min_eq_left h]; exact htake
    · rw [Nat.min_eq_right h]
      exact Nat.lt_of_le_of_lt (sum_take_mono h) htake
  · rcases Nat.le_total (i + 1) (sizes.length - keep) with h | h
    · left
      rw [Nat.min_eq_left h]
      have := sum_take_add_sum_drop sizes (i + 1)
      omega
    · right; omega

end

/-! ## A full leaf -/

theorem rowsSize_le_length {rs : List Row} (h : ∀ r ∈ rs, leafEntrySize r ≤ maxLeafEntrySize) :
    rowsSize rs ≤ rs.length * maxLeafEntrySize := by
  have := sum_le_length_mul (l := rs.map leafEntrySize) (by simpa using h)
  simpa [rowsSize] using this

/-- A leaf with two rows or more splits in two non-empty leaves, and where the bytes go. -/
theorem splitPage_leafCut {id new : PageId} {lsn : PageLsn} {rs : List Row} {nx pv : Option PageId}
    (h : LeafValid rs) (hlen : 2 ≤ rs.length) :
    ∃ a r b, rs = a ++ r :: b ∧ a ≠ [] ∧ rowsSize a < rowsSize rs / 2 + maxLeafEntrySize + 1 ∧
      (rowsSize (r :: b) ≤ rowsSize rs - rowsSize rs / 2 ∨ rowsSize (r :: b) ≤ maxLeafEntrySize) ∧
      splitPage ⟨id, lsn, .leaf rs nx pv⟩ new =
        (.ok (r.key, ⟨new, none, .leaf (r :: b) nx (some id)⟩), ⟨id, lsn, .leaf a (some new) pv⟩) := by
  have hent : ∀ r ∈ rs, leafEntrySize r ≤ maxLeafEntrySize := fun r hr => (h.rows r hr).row
  have hlen' : 1 < (rs.map leafEntrySize).length := by rw [List.length_map]; exact hlen
  obtain ⟨i, hi, hs0, hsn, hl, hr⟩ := cut_sizes (m := maxLeafEntrySize) (by simpa using hent) hlen'
  rw [List.length_map] at hs0 hsn hl hr
  generalize hs : clamp (i + 1) 1 (rs.length - 1) = s at hs0 hsn hl hr
  rw [← List.map_take] at hl
  rw [← List.map_drop] at hr
  change rowsSize (rs.take s) < rowsSize rs / 2 + maxLeafEntrySize + 1 at hl
  change rowsSize (rs.drop s) ≤ rowsSize rs - rowsSize rs / 2 ∨ s + 1 = rs.length at hr
  have hone : s + 1 = rs.length → rowsSize (rs.drop s) ≤ maxLeafEntrySize := by
    intro he
    have hle := @rowsSize_le_length (rs.drop s) fun r hr => hent r (List.mem_of_mem_drop hr)
    rw [List.length_drop, show rs.length - s = 1 by omega, Nat.one_mul] at hle
    exact hle
  rcases hd : rs.drop s with _ | ⟨r, b⟩
  · have := congrArg List.length hd
    simp at this; omega
  have hrs : rs = rs.take s ++ r :: b := by rw [← hd, List.take_append_drop]
  have hrkey : r.key? = some r.key := Row.key?_eq (h.rows r (by rw [hrs]; simp)).hasKey
  rw [hd] at hr hone
  refine ⟨rs.take s, r, b, hrs, ?_, hl, hr.imp_right hone, ?_⟩
  · intro hnil
    have := congrArg List.length hnil
    rw [List.length_take, List.length_nil] at this
    omega
  · have hi' : sumPosition (rowsSize rs / 2) 0 (rs.map leafEntrySize) = some i := hi
    simp only [splitPage, Nat.not_lt.mpr hlen, if_false, hi', hs, hd, List.head?_cons, Option.bind_some, hrkey]

/-- A leaf without room for every row has two. -/
theorem two_le_length_of_full {rs : List Row} (h : LeafValid rs) (hfull : leafUsable < rowsSize rs + maxLeafEntrySize) :
    2 ≤ rs.length := by
  have hmax := const_maxLeafEntrySize
  have hus : leafUsable = 4055 := rfl
  have hle := rowsSize_le_length fun r hr => (h.rows r hr).row
  by_contra hlt
  have := Nat.mul_le_mul_right maxLeafEntrySize (show rs.length ≤ 1 by omega)
  omega

/-- A leaf that refused a row splits in two non-empty leaves, each with room for any row. -/
theorem splitPage_leaf {id new : PageId} {lsn : PageLsn} {rs : List Row} {nx pv : Option PageId}
    (h : LeafValid rs) (hfull : leafUsable < rowsSize rs + maxLeafEntrySize) :
    ∃ a r b, rs = a ++ r :: b ∧ a ≠ [] ∧
      rowsSize a + maxLeafEntrySize ≤ leafUsable ∧ rowsSize (r :: b) + maxLeafEntrySize ≤ leafUsable ∧
      splitPage ⟨id, lsn, .leaf rs nx pv⟩ new =
        (.ok (r.key, ⟨new, none, .leaf (r :: b) nx (some id)⟩), ⟨id, lsn, .leaf a (some new) pv⟩) := by
  have hmax := const_maxLeafEntrySize
  have hus : leafUsable = 4055 := rfl
  have hsize := h.size
  obtain ⟨a, r, b, hrs, ha, hl, hr, hsplit⟩ := splitPage_leafCut h (two_le_length_of_full h hfull)
  exact ⟨a, r, b, hrs, ha, by omega, by rcases hr with hr | hr <;> omega, hsplit⟩

/-- Splitting a leaf that refused a row, and inserting it in the half it belongs to. -/
theorem splitPage_leafInsert {id new : PageId} {lsn : PageLsn} {a b : List Row} {nx pv : Option PageId} {v : ValidatedRow}
    (h : LeafValid (a ++ b)) (ha : ∀ x ∈ a, x.key < v.row.key) (hb : ∀ x ∈ b, v.row.key < x.key)
    (hfull : ¬ rowsSize (a ++ b) + leafEntrySize v.row ≤ leafUsable) :
    ∃ sep v₁ v₂ lp r₂, a ++ v.row :: b = v₁ ++ v₂ ∧ v₁ ≠ [] ∧ v₂ ≠ [] ∧ LeafValid v₁ ∧ LeafValid v₂ ∧
      (∀ x ∈ v₁, x.key < sep) ∧ (∀ x ∈ v₂, sep ≤ x.key) ∧ (∃ r ∈ a ++ b, r.key = sep) ∧ lp.pageId = id ∧
      splitPage ⟨id, lsn, .leaf (a ++ b) nx pv⟩ new = (.ok (sep, ⟨new, none, .leaf r₂ nx (some id)⟩), lp) ∧
      ((v.row.key ≤ sep ∧ lp.leafInsert v = (.ok (), ⟨id, lsn, .leaf v₁ (some new) pv⟩) ∧ r₂ = v₂) ∨
        (¬ v.row.key ≤ sep ∧ lp = ⟨id, lsn, .leaf v₁ (some new) pv⟩ ∧
          leafInsert ⟨new, none, .leaf r₂ nx (some id)⟩ v = (.ok (), ⟨new, none, .leaf v₂ nx (some id)⟩))) := by
  have hrow := v.leafSize
  obtain ⟨p, r, q, hrows, hp, hpsize, hqsize, hsplit⟩ :=
    splitPage_leaf h (by omega)
  rw [hrows] at h
  have hsorted := h.sorted
  rw [List.map_append, List.map_cons] at hsorted
  obtain ⟨-, hq, hpq⟩ := List.pairwise_append.mp hsorted
  have hvp : LeafValid p := h.sublist (List.sublist_append_left _ _)
  have hvq : LeafValid (r :: q) := h.sublist (List.sublist_append_right _ _)
  have hlt : ∀ x ∈ p, x.key < r.key := fun x hx => hpq _ (List.mem_map_of_mem hx) _ (by simp)
  have hge : ∀ x ∈ r :: q, r.key ≤ x.key := by
    intro x hx
    rcases List.mem_cons.mp hx with rfl | hx
    · exact le_rfl
    · exact ((List.pairwise_cons.mp hq).1 _ (List.mem_map_of_mem hx)).le
  have hmem : ∃ x ∈ a ++ b, x.key = r.key := ⟨r, by rw [hrows]; simp, rfl⟩
  by_cases hvr : v.row.key ≤ r.key
  · obtain ⟨b', rfl, rfl⟩ : ∃ b', p = a ++ b' ∧ b = b' ++ r :: q := by
      rcases List.append_eq_append_iff.mp hrows with ⟨m, rfl, rfl⟩ | ⟨m, rfl, hm⟩
      · exact ⟨m, rfl, rfl⟩
      · rcases m with _ | ⟨x, m⟩
        · exact ⟨[], by simp, by simpa using hm.symm⟩
        · obtain ⟨rfl, rfl⟩ := List.cons.inj hm
          exact absurd (ha r (by simp)) (not_lt.mpr hvr)
    have hb' : ∀ x ∈ b', v.row.key < x.key := fun x hx => hb x (by simp [hx])
    have hins := (@leafInsert_fits id lsn _ _ (some new) pv _) hvp ha hb' (by omega)
    refine ⟨r.key, a ++ v.row :: b', r :: q, _, r :: q, by simp, by simp, by simp,
      leafValid_insert hvp (rowFits_validated v) ha hb' (by omega), hvq, fun x hx => ?_, hge, hmem, rfl, hsplit,
      Or.inl ⟨hvr, hins, rfl⟩⟩
    rcases List.mem_append.mp hx with hx | hx
    · exact hlt x (by simp [hx])
    · rcases List.mem_cons.mp hx with rfl | hx
      · exact hb r (by simp)
      · exact hlt x (by simp [hx])
  · have hrv : r.key < v.row.key := not_le.mp hvr
    obtain ⟨a', rfl, hq'⟩ : ∃ a', a = p ++ a' ∧ r :: q = a' ++ b := by
      rcases List.append_eq_append_iff.mp hrows with ⟨m, rfl, rfl⟩ | ⟨m, rfl, hm⟩
      · exact absurd hrv (lt_asymm (hb r (by simp)))
      · exact ⟨m, rfl, hm⟩
    have ha' : ∀ x ∈ a', x.key < v.row.key := fun x hx => ha x (by simp [hx])
    rw [hq'] at hvq hge hqsize hsplit
    have hins := (@leafInsert_fits new none _ _ nx (some id) _) hvq ha' hb (by omega)
    refine ⟨r.key, p, a' ++ v.row :: b, _, a' ++ b, by simp, hp, by simp, hvp,
      leafValid_insert hvq (rowFits_validated v) ha' hb (by omega), hlt, fun x hx => ?_, hmem, rfl, hsplit,
      Or.inr ⟨hvr, rfl, hins⟩⟩
    rcases List.mem_append.mp hx with hx | hx
    · exact hge x (by simp [hx])
    · rcases List.mem_cons.mp hx with rfl | hx
      · exact hrv.le
      · exact hge x (by simp [hx])

/-! ## A full internal page -/

theorem keysSize_le_length {ks : List Key} (h : ∀ k ∈ ks, internalEntrySize k ≤ maxInternalEntrySize) :
    keysSize ks ≤ ks.length * maxInternalEntrySize := by
  have := sum_le_length_mul (l := ks.map internalEntrySize) (by simpa using h)
  simpa [keysSize] using this

/-- An internal page with three keys or more splits around a promoted key in two pages with
    keys, and where the bytes go. -/
theorem splitPage_internalCut {id new : PageId} {lsn : PageLsn} {ks : List Key} {cs : List PageId}
    (h : KeysValid ks) (hc : cs.length = ks.length + 1) (hlen : 3 ≤ ks.length) :
    ∃ a k b ca cb, ks = a ++ k :: b ∧ cs = ca ++ cb ∧ ca.length = a.length + 1 ∧ a ≠ [] ∧ b ≠ [] ∧
      keysSize a < keysSize ks / 2 + maxInternalEntrySize + 1 ∧
      (internalEntrySize k + keysSize b ≤ keysSize ks - keysSize ks / 2 ∨
        internalEntrySize k + keysSize b ≤ 2 * maxInternalEntrySize) ∧
      splitPage ⟨id, lsn, .internal ks cs⟩ new =
        (.ok (k, ⟨new, none, .internal b cb⟩), ⟨id, lsn, .internal a ca⟩) := by
  have hlen' : 2 < (ks.map internalEntrySize).length := by rw [List.length_map]; exact hlen
  obtain ⟨i, hi, hs0, hsn, hl, hr⟩ :=
    cut_sizes (m := maxInternalEntrySize) (by simpa [KeyFits] using h.fits) hlen'
  rw [List.length_map] at hs0 hsn hl hr
  generalize hs : clamp (i + 1) 1 (ks.length - 2) = s at hs0 hsn hl hr
  rw [← List.map_take] at hl
  rw [← List.map_drop] at hr
  change keysSize (ks.take s) < keysSize ks / 2 + maxInternalEntrySize + 1 at hl
  change keysSize (ks.drop s) ≤ keysSize ks - keysSize ks / 2 ∨ s + 2 = ks.length at hr
  have htwo : s + 2 = ks.length → keysSize (ks.drop s) ≤ 2 * maxInternalEntrySize := by
    intro he
    have hle := @keysSize_le_length (ks.drop s) fun k hk => h.fits k (List.mem_of_mem_drop hk)
    rw [List.length_drop, show ks.length - s = 2 by omega] at hle
    exact hle
  rcases hd : ks.drop s with _ | ⟨k, b⟩
  · have := congrArg List.length hd
    simp at this; omega
  have hks : ks = ks.take s ++ k :: b := by rw [← hd, List.take_append_drop]
  have hblen : b.length + 1 + s = ks.length := by
    have := congrArg List.length hd
    simp only [List.length_drop, List.length_cons] at this; omega
  rw [hd, keysSize_cons] at hr htwo
  refine ⟨ks.take s, k, b, cs.take (s + 1), cs.drop (s + 1), hks, (List.take_append_drop _ _).symm, ?_, ?_, ?_, hl,
    hr.imp_right htwo, ?_⟩
  · simp only [List.length_take]; omega
  · intro hnil
    have := congrArg List.length hnil
    rw [List.length_take, List.length_nil] at this
    omega
  · rintro rfl
    simp at hblen; omega
  · have hi' : sumPosition (keysSize ks / 2) 0 (ks.map internalEntrySize) = some i := hi
    have hcs : ¬ s + 1 > cs.length := by omega
    simp only [splitPage, Nat.not_lt.mpr hlen, if_false, hi', hs, hcs, hd]

/-- An internal page without room for every separator has three keys. -/
theorem three_le_length_of_full {ks : List Key} (h : KeysValid ks)
    (hfull : internalUsable < keysSize ks + maxInternalEntrySize) : 3 ≤ ks.length := by
  have hmax := const_maxInternalEntrySize
  have hus : internalUsable = 4065 := rfl
  have hle := keysSize_le_length h.fits
  by_contra hlt
  have := Nat.mul_le_mul_right maxInternalEntrySize (show ks.length ≤ 2 by omega)
  omega

/-- An internal page that refused a separator splits around a promoted key in two pages
    with keys, each with room for any separator. -/
theorem splitPage_internal {id new : PageId} {lsn : PageLsn} {ks : List Key} {cs : List PageId}
    (h : KeysValid ks) (hc : cs.length = ks.length + 1) (hfull : internalUsable < keysSize ks + maxInternalEntrySize) :
    ∃ a k b ca cb, ks = a ++ k :: b ∧ cs = ca ++ cb ∧ ca.length = a.length + 1 ∧ a ≠ [] ∧ b ≠ [] ∧
      keysSize a + maxInternalEntrySize ≤ internalUsable ∧ keysSize b + maxInternalEntrySize ≤ internalUsable ∧
      splitPage ⟨id, lsn, .internal ks cs⟩ new =
        (.ok (k, ⟨new, none, .internal b cb⟩), ⟨id, lsn, .internal a ca⟩) := by
  have hmax := const_maxInternalEntrySize
  have hus : internalUsable = 4065 := rfl
  have hsize := h.size
  obtain ⟨a, k, b, ca, cb, hks, hcs, hca, ha, hb, hl, hr, hsplit⟩ :=
    splitPage_internalCut h hc (three_le_length_of_full h hfull)
  have hpos := internalEntrySize_ge k
  exact ⟨a, k, b, ca, cb, hks, hcs, hca, ha, hb, by omega, by rcases hr with hr | hr <;> omega, hsplit⟩

/-- Splitting an internal page that refused a separator, and inserting it in the half it
    belongs to: the halves are what the page would have become, cut at the promoted key. -/
theorem splitPage_insert {id new right : PageId} {lsn : PageLsn} {a b : List Key} {ca cb : List PageId} {c : PageId}
    {sep : Key} (h : KeysValid (a ++ b)) (hca : ca.length = a.length) (hcb : cb.length = b.length) (hsep : KeyFits sep)
    (ha : ∀ x ∈ a, x < sep) (hb : ∀ x ∈ b, sep < x)
    (hfull : ¬ keysSize (a ++ b) + internalEntrySize sep ≤ internalUsable) :
    ∃ k v₁ v₂ c₁ c₂ lp rp, a ++ sep :: b = v₁ ++ k :: v₂ ∧ ca ++ c :: right :: cb = c₁ ++ c₂ ∧
      c₁.length = v₁.length + 1 ∧ v₁ ≠ [] ∧ v₂ ≠ [] ∧ KeysValid v₁ ∧ KeysValid v₂ ∧ KeyFits k ∧ lp.pageId = id ∧
      rp.pageId = new ∧ splitPage ⟨id, lsn, .internal (a ++ b) (ca ++ c :: cb)⟩ new = (.ok (k, rp), lp) ∧
      ((k < sep ∧ rp.internalInsert sep right = (.ok (), ⟨new, none, .internal v₂ c₂⟩) ∧ lp = ⟨id, lsn, .internal v₁ c₁⟩) ∨
        (¬ k < sep ∧ lp.internalInsert sep right = (.ok (), ⟨id, lsn, .internal v₁ c₁⟩) ∧
          rp = ⟨new, none, .internal v₂ c₂⟩)) := by
  have hlen : (ca ++ c :: cb).length = (a ++ b).length + 1 := by simp [hca, hcb]; omega
  have hfull' : internalUsable < keysSize (a ++ b) + maxInternalEntrySize := by
    have := show internalEntrySize sep ≤ maxInternalEntrySize from hsep
    omega
  obtain ⟨p, k, q, cp, cq, hkeys, hkids, hcp, hp, hq, hpsize, hqsize, hsplit⟩ :=
    splitPage_internal h hlen hfull'
  rw [hkeys] at h
  have hvp : KeysValid p := h.sublist (List.sublist_append_left _ _)
  have hvq : KeysValid q := h.sublist ((List.sublist_cons_self k q).trans (List.sublist_append_right _ _))
  have hfits := show internalEntrySize sep ≤ maxInternalEntrySize from hsep
  have hk : KeyFits k := h.fits k (by simp)
  by_cases hks : k < sep
  · -- the promoted key is left of the separator, which goes to the right half
    obtain ⟨a', rfl, rfl⟩ : ∃ a', a = p ++ k :: a' ∧ q = a' ++ b := by
      rcases List.append_eq_append_iff.mp hkeys with ⟨m, rfl, rfl⟩ | ⟨m, rfl, hm⟩
      · exact absurd hks (lt_asymm (hb k (by simp)))
      · rcases m with _ | ⟨x, m⟩
        · rw [List.nil_append] at hm
          exact absurd hks (lt_asymm (hb k (by simp [← hm])))
        · obtain ⟨rfl, rfl⟩ := List.cons.inj hm
          exact ⟨m, rfl, rfl⟩
    obtain ⟨ca', rfl, rfl⟩ : ∃ ca', ca = cp ++ ca' ∧ cq = ca' ++ c :: cb := by
      rcases List.append_eq_append_iff.mp hkids with ⟨m, rfl, hm⟩ | ⟨m, rfl, hm⟩
      · simp only [List.length_append, List.length_cons] at hca hcp
        obtain rfl : m = [] := List.eq_nil_of_length_eq_zero (by omega)
        exact ⟨[], by simp, by simpa using hm.symm⟩
      · exact ⟨m, rfl, hm⟩
    simp only [List.length_append, List.length_cons] at hca hcp
    have hins := (@internalInsert_fits new none _ _ ca' cb c right _) hvq hsep
      (fun x hx => ha x (by simp [hx])) hb (by omega) (by omega)
    have hvins : KeysValid (a' ++ sep :: b) := keysValid_insert hvq hsep (fun x hx => ha x (by simp [hx])) hb (by omega)
    exact ⟨k, p, a' ++ sep :: b, cp, ca' ++ c :: right :: cb, _, _, by simp, by simp, hcp, hp, by simp, hvp, hvins, hk,
      rfl, rfl,
      hsplit, Or.inl ⟨hks, hins, rfl⟩⟩
  · obtain ⟨b', rfl, rfl⟩ : ∃ b', p = a ++ b' ∧ b = b' ++ k :: q := by
      rcases List.append_eq_append_iff.mp hkeys with ⟨m, rfl, rfl⟩ | ⟨m, rfl, hm⟩
      · exact ⟨m, rfl, rfl⟩
      · rcases m with _ | ⟨x, m⟩
        · exact ⟨[], by simp, by simpa using hm.symm⟩
        · obtain ⟨rfl, rfl⟩ := List.cons.inj hm
          exact absurd (ha k (by simp)) hks
    obtain ⟨cb', rfl, rfl⟩ : ∃ cb', cp = ca ++ c :: cb' ∧ cb = cb' ++ cq := by
      simp only [List.length_append] at hcp
      rcases List.append_eq_append_iff.mp hkids with ⟨m, rfl, hm⟩ | ⟨m, rfl, hm⟩
      · rcases m with _ | ⟨x, m⟩
        · simp at hcp; omega
        · obtain ⟨rfl, rfl⟩ := List.cons.inj hm
          exact ⟨m, rfl, rfl⟩
      · simp only [List.length_append] at hca
        omega
    simp only [List.length_append, List.length_cons] at hcp
    have hins := (@internalInsert_fits id lsn _ _ ca cb' c right _) hvp hsep
      ha (fun x hx => hb x (by simp [hx])) hca (by omega)
    have hvins : KeysValid (a ++ sep :: b') := keysValid_insert hvp hsep ha (fun x hx => hb x (by simp [hx])) (by omega)
    exact ⟨k, a ++ sep :: b', q, ca ++ c :: right :: cb', cq, _, _, by simp, by simp, by simp; omega, by simp, hq,
      hvins, hvq, hk,
      rfl, rfl, hsplit, Or.inr ⟨hks, hins, rfl⟩⟩

end Page

end RustDb
