/-
  RustDb.Page.Separators — inserting, removing and replacing separators of an internal
  page, over any sequence of calls and for every key routed.

  On a valid page each of the three operations either changes nothing or acts at one cut
  of the keys and children (`internalInsert_cases`, `internalRemove_cases`,
  `internalReplaceKey_cases`). From this:
  - `routing_spec`: a key routes to the child after as many separators as are at most the
    key, and each operation changes the route of the keys at its cut only.
  - `separators_keep_iff`: a sequence of calls keeps the page valid and writable exactly
    as long as no separator longer than `MAX_INTERNAL_ENTRY_SIZE` allows is put in place
    of another, which `internal_replace_key` does not check (`replaceKey_oversized`).
-/

import RustDb.Page.Internal
import RustDb.Codec.RoundTrip

namespace RustDb

open Lib.SortedList

namespace Page

section
variable {id : PageId} {lsn : PageLsn} {ks : List Key} {cs : List PageId}

/-! ## What each operation does -/

theorem internalInsert_cases (h : KeysValid ks) (hc : cs.length = ks.length + 1) (sep : Key) (right : PageId) :
    (∃ e, internalInsert ⟨id, lsn, .internal ks cs⟩ sep right = (.err e, ⟨id, lsn, .internal ks cs⟩)) ∨
    ∃ a b ca c cb, ks = a ++ b ∧ cs = ca ++ c :: cb ∧ ca.length = a.length ∧ cb.length = b.length ∧ KeyFits sep ∧
      (∀ x ∈ a, x < sep) ∧ (∀ x ∈ b, sep < x) ∧ keysSize (a ++ b) + internalEntrySize sep ≤ internalUsable ∧
      internalInsert ⟨id, lsn, .internal ks cs⟩ sep right =
        (.ok (), ⟨id, lsn, .internal (a ++ sep :: b) (ca ++ c :: right :: cb)⟩) := by
  by_cases hfits : KeyFits sep
  · by_cases hk : sep ∈ ks
    · exact Or.inl ⟨_, internalInsert_duplicate right h hfits hk⟩
    · obtain ⟨a, b, rfl, ha, hb⟩ := sorted_gap h.sorted hk
      obtain ⟨ca, c, cb, rfl, hca, hcb⟩ := children_gap hc
      by_cases hfit : keysSize (a ++ b) + internalEntrySize sep ≤ internalUsable
      · exact Or.inr ⟨a, b, ca, c, cb, rfl, rfl, hca, hcb, hfits, ha, hb, hfit, internalInsert_fits h hfits ha hb hca hfit⟩
      · exact Or.inl ⟨_, internalInsert_full right h hfits ha hb hfit⟩
  · exact Or.inl ⟨.schema (.keyTooLong (internalEntrySize sep)), if_pos (Nat.not_le.mp hfits)⟩

theorem internalRemove_cases (h : KeysValid ks) (hc : cs.length = ks.length + 1) (sep : Key) :
    internalRemove ⟨id, lsn, .internal ks cs⟩ sep = (.ok none, ⟨id, lsn, .internal ks cs⟩) ∨
    ∃ a b ca c d cb, ks = a ++ sep :: b ∧ cs = ca ++ c :: d :: cb ∧ ca.length = a.length ∧ cb.length = b.length ∧
      internalRemove ⟨id, lsn, .internal ks cs⟩ sep =
        (.ok (some (sep, d)), ⟨id, lsn, .internal (a ++ b) (ca ++ c :: cb)⟩) := by
  by_cases hk : sep ∈ ks
  · obtain ⟨a, b, rfl⟩ := List.append_of_mem hk
    obtain ⟨ca, c, rest, rfl, hca, hrest⟩ := children_gap hc
    obtain ⟨d, cb, rfl⟩ := List.exists_cons_of_length_eq_add_one hrest
    exact Or.inr ⟨a, b, ca, c, d, cb, rfl, rfl, hca, by simpa using hrest, internalRemove_found h hca⟩
  · obtain ⟨a, b, rfl, ha, hb⟩ := sorted_gap h.sorted hk
    exact Or.inl (by simp only [internalRemove, search_gap h.sorted ha hb])

theorem internalReplaceKey_cases (h : KeysValid ks) (old new : Key) :
    (∃ e, internalReplaceKey ⟨id, lsn, .internal ks cs⟩ old new = (.err e, ⟨id, lsn, .internal ks cs⟩)) ∨
    ∃ a b, ks = a ++ old :: b ∧ (∀ x ∈ a, x < new) ∧ (∀ x ∈ b, new < x) ∧ keysSize (a ++ new :: b) ≤ internalUsable ∧
      internalReplaceKey ⟨id, lsn, .internal ks cs⟩ old new = (.ok (), ⟨id, lsn, .internal (a ++ new :: b) cs⟩) := by
  by_cases hk : old ∈ ks
  · obtain ⟨a, b, rfl⟩ := List.append_of_mem hk
    by_cases hbetween : (∀ x ∈ a, x < new) ∧ ∀ x ∈ b, new < x
    · have heq := @internalReplaceKey_eq id lsn a b cs old new h hbetween.1 hbetween.2
      by_cases hfit : keysSize (a ++ new :: b) ≤ internalUsable
      · rw [if_pos hfit] at heq
        exact Or.inr ⟨a, b, rfl, hbetween.1, hbetween.2, hfit, heq⟩
      · rw [if_neg hfit] at heq
        exact Or.inl ⟨_, heq⟩
    · exact Or.inl ⟨_, internalReplaceKey_unordered h hbetween⟩
  · obtain ⟨a, b, rfl, ha, hb⟩ := sorted_gap h.sorted hk
    exact Or.inl ⟨.missingKey old new, by simp only [internalReplaceKey, search_gap h.sorted ha hb]⟩

/-! ## Routing -/

/-- The position among the children that a key is routed to. -/
def childPosition (self : Page) (key : Key) : Option Nat :=
  match self.findChildIndex key with
  | .ok found => found.map Prod.fst
  | .error _ => none

/-- A key is routed past the separators that are at most the key. -/
theorem findChildIndex_rank (hs : ks.Pairwise (· < ·)) (hc : cs.length = ks.length + 1) (key : Key) :
    ∃ c, cs[rank ks key]? = some c ∧
      findChildIndex ⟨id, lsn, .internal ks cs⟩ key = .ok (some (rank ks key, c)) := by
  obtain ⟨a, b, rfl, ha, hb⟩ := sorted_cut hs key
  obtain ⟨ca, c, cb, rfl, hca, -⟩ := children_gap hc
  have hrank : rank (a ++ b) key = a.length := by rw [rank_append, rank_of_le ha, rank_of_lt hb, Nat.add_zero]
  rw [hrank]
  exact ⟨c, getElem?_mid hca, findChildIndex_eq hs ha hb hca⟩

theorem childPosition_rank (hs : ks.Pairwise (· < ·)) (hc : cs.length = ks.length + 1) (key : Key) :
    childPosition ⟨id, lsn, .internal ks cs⟩ key = some (rank ks key) := by
  obtain ⟨c, -, hfind⟩ := @findChildIndex_rank id lsn ks cs hs hc key
  rw [childPosition, hfind]
  rfl

theorem findChild_rank (h : KeysValid ks) (hc : cs.length = ks.length + 1) {key : Key} {c : PageId}
    (hget : cs[rank ks key]? = some c) : findChild ⟨id, lsn, .internal ks cs⟩ key = .ok (some c) := by
  obtain ⟨c', hget', hfind⟩ := @findChildIndex_rank id lsn ks cs h.sorted hc key
  rw [hget] at hget'
  cases hget'
  rw [findChild, hfind]
  rfl

/-- Two valid pages that have the same child where they route a key. -/
theorem findChild_congr {ks' : List Key} {cs' : List PageId} {key : Key} (h : KeysValid ks)
    (hc : cs.length = ks.length + 1) (h' : KeysValid ks') (hc' : cs'.length = ks'.length + 1)
    (hget : cs'[rank ks' key]? = cs[rank ks key]?) :
    findChild ⟨id, lsn, .internal ks' cs'⟩ key = findChild ⟨id, lsn, .internal ks cs⟩ key := by
  obtain ⟨c, hc₀, -⟩ := @findChildIndex_rank id lsn ks cs h.sorted hc key
  rw [findChild_rank h hc hc₀, findChild_rank h' hc' (hget.trans hc₀)]

/-- Lists that share what stands up to a cut agree there. -/
theorem getElem?_left {α : Type} {a x y : List α} {c : α} {n : Nat} (h : n ≤ a.length) :
    (a ++ c :: x)[n]? = (a ++ c :: y)[n]? := by
  rcases h.lt_or_eq with hlt | rfl
  · rw [List.getElem?_append_left hlt, List.getElem?_append_left hlt]
  · rw [getElem?_mid rfl, getElem?_mid rfl]

theorem getElem?_right {α : Type} (a b : List α) (n : Nat) : (a ++ b)[a.length + n]? = b[n]? := by
  rw [List.getElem?_append_right (Nat.le_add_right _ _), Nat.add_sub_cancel_left]

/-- A separator more: the keys from it to the next one go to the new child. -/
theorem route_insert {a b : List Key} {ca cb : List PageId} {c right : PageId} {sep : Key} (h : KeysValid (a ++ b))
    (hca : ca.length = a.length) (hcb : cb.length = b.length) (hsep : KeyFits sep) (ha : ∀ x ∈ a, x < sep)
    (hb : ∀ x ∈ b, sep < x) (hfit : keysSize (a ++ b) + internalEntrySize sep ≤ internalUsable) (key : Key) :
    (sep ≤ key ∧ (∀ x ∈ a ++ b, sep < x → key < x) →
      findChild ⟨id, lsn, .internal (a ++ sep :: b) (ca ++ c :: right :: cb)⟩ key = .ok (some right)) ∧
    (¬ (sep ≤ key ∧ ∀ x ∈ a ++ b, sep < x → key < x) →
      findChild ⟨id, lsn, .internal (a ++ sep :: b) (ca ++ c :: right :: cb)⟩ key =
        findChild ⟨id, lsn, .internal (a ++ b) (ca ++ c :: cb)⟩ key) := by
  have hv := keysValid_insert h hsep ha hb hfit
  have hlen : (ca ++ c :: cb).length = (a ++ b).length + 1 := by
    simp only [List.length_append, List.length_cons]; omega
  have hlen' : (ca ++ c :: right :: cb).length = (a ++ sep :: b).length + 1 := by
    simp only [List.length_append, List.length_cons]; omega
  by_cases hle : sep ≤ key
  · have hra : rank a key = ca.length := by rw [rank_of_le fun x hx => (ha x hx).le.trans hle, hca]
    have hrank : rank (a ++ sep :: b) key = ca.length + (rank b key + 1) := by
      rw [rank_append, rank_cons, if_pos hle, hra]
    have hnext : rank b key = 0 ↔ ∀ x ∈ a ++ b, sep < x → key < x := by
      refine ⟨fun h0 x hx hlt => ?_, fun hx => rank_of_lt fun x hb' => hx x (List.mem_append_right a hb') (hb x hb')⟩
      rcases List.mem_append.mp hx with hx | hx
      · exact absurd (ha x hx) (lt_asymm hlt)
      · simpa using List.countP_eq_zero.mp h0 x hx
    refine ⟨fun hcond => findChild_rank hv hlen' ?_, fun hne => findChild_congr h hlen hv hlen' ?_⟩
    · rw [hrank, hnext.mpr hcond.2, getElem?_right]
      rfl
    · obtain ⟨m, hm⟩ := Nat.exists_eq_succ_of_ne_zero fun h0 => hne ⟨hle, hnext.mp h0⟩
      rw [hrank, rank_append, hra, getElem?_right, getElem?_right, hm]
      rfl
  · have hrb : rank b key = 0 := rank_of_lt fun x hx => (not_le.mp hle).trans (hb x hx)
    refine ⟨fun hcond => absurd hcond.1 hle, fun _ => findChild_congr h hlen hv hlen' ?_⟩
    rw [rank_append, rank_cons, if_neg hle, rank_append, hrb]
    exact getElem?_left ((rank_le a key).trans hca.ge)

/-- A separator less: the keys of the child right of it go to the child left of it. -/
theorem route_remove {a b : List Key} {ca cb : List PageId} {c d : PageId} {sep : Key} (h : KeysValid (a ++ sep :: b))
    (hca : ca.length = a.length) (hcb : cb.length = b.length) (key : Key) :
    (childPosition ⟨id, lsn, .internal (a ++ sep :: b) (ca ++ c :: d :: cb)⟩ key = some (a.length + 1) →
      findChild ⟨id, lsn, .internal (a ++ b) (ca ++ c :: cb)⟩ key = .ok (some c)) ∧
    (childPosition ⟨id, lsn, .internal (a ++ sep :: b) (ca ++ c :: d :: cb)⟩ key ≠ some (a.length + 1) →
      findChild ⟨id, lsn, .internal (a ++ b) (ca ++ c :: cb)⟩ key =
        findChild ⟨id, lsn, .internal (a ++ sep :: b) (ca ++ c :: d :: cb)⟩ key) := by
  have hv : KeysValid (a ++ b) := h.sublist (List.Sublist.append_left (List.sublist_cons_self sep b) a)
  have hlen : (ca ++ c :: d :: cb).length = (a ++ sep :: b).length + 1 := by
    simp only [List.length_append, List.length_cons]; omega
  have hlen' : (ca ++ c :: cb).length = (a ++ b).length + 1 := by
    simp only [List.length_append, List.length_cons]; omega
  obtain ⟨ha, hb⟩ : (∀ x ∈ a, x < sep) ∧ ∀ x ∈ b, sep < x :=
    ⟨fun x hx => (List.pairwise_append.mp h.sorted).2.2 x hx sep List.mem_cons_self,
      (List.pairwise_cons.mp (List.pairwise_append.mp h.sorted).2.1).1⟩
  rw [childPosition_rank h.sorted hlen, rank_append, rank_cons, ne_eq, Option.some.injEq]
  by_cases hle : sep ≤ key
  · have hra : rank a key = ca.length := by rw [rank_of_le fun x hx => (ha x hx).le.trans hle, hca]
    rw [if_pos hle, hra, ← hca]
    refine ⟨fun hpos => findChild_rank hv hlen' ?_, fun hne => findChild_congr h hlen hv hlen' ?_⟩
    · rw [rank_append, hra, show rank b key = 0 by omega, getElem?_right]
      rfl
    · obtain ⟨m, hm⟩ := Nat.exists_eq_succ_of_ne_zero (show rank b key ≠ 0 by omega)
      rw [rank_append, rank_append, rank_cons, if_pos hle, hra, getElem?_right, getElem?_right, hm]
      rfl
  · have hrb : rank b key = 0 := rank_of_lt fun x hx => (not_le.mp hle).trans (hb x hx)
    have hra := rank_le a key
    rw [if_neg hle, hrb]
    refine ⟨fun hpos => absurd hpos (by omega), fun _ => findChild_congr h hlen hv hlen' ?_⟩
    rw [rank_append, rank_append, rank_cons, if_neg hle, hrb]
    exact getElem?_left (hra.trans hca.ge)

/-- A separator moved: the keys between where it was and where it is change sides. -/
theorem rank_replace {a b : List Key} {old new : Key} (h : (a ++ old :: b).Pairwise (· < ·)) (ha : ∀ x ∈ a, x < new)
    (hb : ∀ x ∈ b, new < x) (key : Key) :
    (rank (a ++ new :: b) key ≠ rank (a ++ old :: b) key ↔ min old new ≤ key ∧ key < max old new) ∧
    (rank (a ++ new :: b) key ≠ rank (a ++ old :: b) key →
      (rank (a ++ old :: b) key = a.length ∧ rank (a ++ new :: b) key = a.length + 1) ∨
        (rank (a ++ old :: b) key = a.length + 1 ∧ rank (a ++ new :: b) key = a.length)) := by
  obtain ⟨ha', hb'⟩ : (∀ x ∈ a, x < old) ∧ ∀ x ∈ b, old < x :=
    ⟨fun x hx => (List.pairwise_append.mp h).2.2 x hx old List.mem_cons_self,
      (List.pairwise_cons.mp (List.pairwise_append.mp h).2.1).1⟩
  rw [rank_append, rank_append, rank_cons, rank_cons, min_le_iff, lt_max_iff]
  by_cases hold : old ≤ key <;> by_cases hnew : new ≤ key
  · simp [hold, hnew, not_lt.mpr hold, not_lt.mpr hnew]
  · have hra : rank a key = a.length := rank_of_le fun x hx => (ha' x hx).le.trans hold
    have hrb : rank b key = 0 := rank_of_lt fun x hx => (not_le.mp hnew).trans (hb x hx)
    simp [hold, hnew, not_le.mp hnew, hra, hrb]
  · have hra : rank a key = a.length := rank_of_le fun x hx => (ha x hx).le.trans hnew
    have hrb : rank b key = 0 := rank_of_lt fun x hx => (not_le.mp hold).trans (hb' x hx)
    simp [hold, hnew, not_le.mp hold, hra, hrb]
  · simp [hold, hnew]

end

/-- Where an internal page routes every key, and what each operation changes about it. -/
theorem routing_spec {id : PageId} {lsn : PageLsn} {ks : List Key} {cs : List PageId}
    (hv : checkInvariants ⟨id, lsn, .internal ks cs⟩ = .ok ()) :
    (∀ key, ∃ c, cs[rank ks key]? = some c ∧ findChild ⟨id, lsn, .internal ks cs⟩ key = .ok (some c)) ∧
    (∀ sep right page', internalInsert ⟨id, lsn, .internal ks cs⟩ sep right = (.ok (), page') → ∀ key,
      (sep ≤ key ∧ (∀ x ∈ ks, sep < x → key < x) → page'.findChild key = .ok (some right)) ∧
      (¬ (sep ≤ key ∧ ∀ x ∈ ks, sep < x → key < x) →
        page'.findChild key = findChild ⟨id, lsn, .internal ks cs⟩ key)) ∧
    (∀ sep removed page', internalRemove ⟨id, lsn, .internal ks cs⟩ sep = (.ok (some removed), page') →
      ∃ i left, ks[i]? = some sep ∧ cs[i]? = some left ∧ ∀ key,
        (childPosition ⟨id, lsn, .internal ks cs⟩ key = some (i + 1) → page'.findChild key = .ok (some left)) ∧
        (childPosition ⟨id, lsn, .internal ks cs⟩ key ≠ some (i + 1) →
          page'.findChild key = findChild ⟨id, lsn, .internal ks cs⟩ key)) ∧
    (∀ old new page', internalReplaceKey ⟨id, lsn, .internal ks cs⟩ old new = (.ok (), page') →
      ∃ i, ks[i]? = some old ∧ page'.keyAt i = some new ∧ (∀ j, page'.childAt j = cs[j]?) ∧ ∀ key, ∃ j j',
        childPosition ⟨id, lsn, .internal ks cs⟩ key = some j ∧ page'.childPosition key = some j' ∧
        (j' ≠ j ↔ min old new ≤ key ∧ key < max old new) ∧ (j' ≠ j → j = i ∧ j' = i + 1 ∨ j = i + 1 ∧ j' = i)) := by
  obtain ⟨hc, h⟩ : cs.length = ks.length + 1 ∧ KeysValid ks := (checkInvariants_iff _).mp hv
  refine ⟨fun key => ?_, fun sep right page' he key => ?_, fun sep removed page' he => ?_, fun old new page' he => ?_⟩
  · obtain ⟨c, hget, -⟩ := @findChildIndex_rank id lsn ks cs h.sorted hc key
    exact ⟨c, hget, findChild_rank h hc hget⟩
  · rcases internalInsert_cases h hc sep right with ⟨e, hfail⟩ |
      ⟨a, b, ca, c, cb, rfl, rfl, hca, hcb, hsep, ha, hb, hfit, hok⟩
    · rw [hfail] at he
      cases he
    · rw [hok] at he
      cases he
      exact route_insert h hca hcb hsep ha hb hfit key
  · rcases internalRemove_cases h hc sep with hnone | ⟨a, b, ca, c, d, cb, rfl, rfl, hca, hcb, hok⟩
    · rw [hnone] at he
      cases he
    · rw [hok] at he
      cases he
      exact ⟨a.length, c, getElem?_mid rfl, getElem?_mid hca, fun key => route_remove h hca hcb key⟩
  · rcases internalReplaceKey_cases h old new with ⟨e, hfail⟩ | ⟨a, b, rfl, ha, hb, hfit, hok⟩
    · rw [hfail] at he
      cases he
    · rw [hok] at he
      cases he
      refine ⟨a.length, getElem?_mid rfl, getElem?_mid rfl, fun j => rfl, fun key => ?_⟩
      have hs : (a ++ new :: b).Pairwise (· < ·) := pairwise_insert (pairwise_remove h.sorted) ha hb
      obtain ⟨hiff, hsides⟩ := rank_replace h.sorted ha hb key
      exact ⟨_, _, childPosition_rank h.sorted hc key, childPosition_rank hs (by simpa using hc) key, hiff, hsides⟩

/-- A page of two separators and its three children. -/
def routed : Page := ⟨⟨⟨1⟩, 2⟩, none, .internal [.integer 10, .integer 20] [⟨⟨1⟩, 3⟩, ⟨⟨1⟩, 4⟩, ⟨⟨1⟩, 5⟩]⟩

theorem routed_valid : routed.checkInvariants = .ok () := by
  refine (checkInvariants_iff _).mpr ⟨rfl, ?_, List.pairwise_pair.mpr (Key.integer_lt_integer.mpr (by decide)), by decide⟩
  rintro k (_ | ⟨_, _ | ⟨_, hk⟩⟩)
  · show _ ≤ _
    decide
  · show _ ≤ _
    decide
  · cases hk

theorem routing_spec_routed : findChild routed (.integer 15) = .ok (some ⟨⟨1⟩, 4⟩) := by
  have hrank : rank [.integer 10, .integer 20] (.integer 15 : Key) = 1 := by
    rw [rank_cons, rank_cons, if_neg (not_le.mpr (Key.integer_lt_integer.mpr (by decide))),
      if_pos (Key.integer_lt_integer.mpr (by decide)).le]
    rfl
  obtain ⟨c, hget, h⟩ := (routing_spec routed_valid).1 (.integer 15)
  rw [hrank] at hget
  cases hget
  exact h

/-! ## Sequences of calls -/

inductive SeparatorOp where
  | insert (separator : Key) (rightChild : PageId)
  | remove (searchKey : Key)
  | replaceKey (old new : Key)

/-- The result of a call, without what `internal_remove` took out, and the page after it. -/
def SeparatorOp.run (page : Page) : SeparatorOp → PageResult Unit × Page
  | .insert separator rightChild => page.internalInsert separator rightChild
  | .remove searchKey => ((page.internalRemove searchKey).1.map fun _ => (), (page.internalRemove searchKey).2)
  | .replaceKey old new => page.internalReplaceKey old new

/-- A call that answers `Ok` leaves a valid page that can be written, one that answers
    `Err` leaves the page as it was, and none panics. -/
def SeparatorOp.Keeps (P : Platform) (page : Page) (op : SeparatorOp) : Prop :=
  ((op.run page).1 = .ok () ∧ (op.run page).2.checkInvariants = .ok () ∧ ∃ raw, asRawPage P (op.run page).2 = .ok raw) ∨
    ∃ e, op.run page = (.err e, page)

/-- The call puts a key too long for an entry in place of a separator, between the
    neighbours of that separator and on a page with room for it. -/
def SeparatorOp.ReplacesOversized (page : Page) : SeparatorOp → Prop
  | .replaceKey old new => ∃ a b children, page.body = .internal (a ++ old :: b) children ∧ (∀ x ∈ a, x < new) ∧
      (∀ x ∈ b, new < x) ∧ keysSize (a ++ new :: b) ≤ internalUsable ∧ ¬ KeyFits new
  | _ => False

/-- A property of every call of a sequence, on the page as the calls before left it. -/
def EachCall (R : Page → SeparatorOp → Prop) : Page → List SeparatorOp → Prop
  | _, [] => True
  | page, op :: ops => R page op ∧ EachCall R (op.run page).2 ops

section
variable {id : PageId} {lsn : PageLsn} {ks : List Key} {cs : List PageId} (P : Platform)

/-- A valid page can be written. -/
theorem asRawPage_internal (hc : cs.length = ks.length + 1) (h : KeysValid ks) :
    checkInvariants ⟨id, lsn, .internal ks cs⟩ = .ok () ∧ ∃ raw, asRawPage P ⟨id, lsn, .internal ks cs⟩ = .ok raw := by
  have hinv : checkInvariants ⟨id, lsn, .internal ks cs⟩ = .ok () := (checkInvariants_iff _).mpr ⟨hc, h⟩
  obtain ⟨raw, hraw, -⟩ := deserialize_asRawPage P _ hinv rfl (by intro records hr; cases hr)
  exact ⟨hinv, raw, hraw⟩

theorem keeps_of_ok {op : SeparatorOp} {ks' : List Key} {cs' : List PageId} (hc : cs'.length = ks'.length + 1)
    (h : KeysValid ks') (hrun : op.run ⟨id, lsn, .internal ks cs⟩ = (.ok (), ⟨id, lsn, .internal ks' cs'⟩)) :
    op.Keeps P ⟨id, lsn, .internal ks cs⟩ := by
  refine Or.inl ⟨congrArg Prod.fst hrun, ?_⟩
  rw [hrun]
  exact asRawPage_internal P hc h

/-- One call on a valid page. -/
theorem keeps_iff (hc : cs.length = ks.length + 1) (h : KeysValid ks) (op : SeparatorOp) :
    op.Keeps P ⟨id, lsn, .internal ks cs⟩ ↔ ¬ op.ReplacesOversized ⟨id, lsn, .internal ks cs⟩ := by
  cases op with
  | insert sep right =>
    refine iff_of_true ?_ not_false
    rcases @internalInsert_cases id lsn ks cs h hc sep right with
      ⟨e, hfail⟩ | ⟨a, b, ca, c, cb, rfl, rfl, hca, hcb, hsep, ha, hb, hfit, hok⟩
    · exact Or.inr ⟨e, hfail⟩
    · exact keeps_of_ok P (by simp only [List.length_append, List.length_cons]; omega)
        (keysValid_insert h hsep ha hb hfit) hok
  | remove sep =>
    refine iff_of_true ?_ not_false
    rcases @internalRemove_cases id lsn ks cs h hc sep with hnone | ⟨a, b, ca, c, d, cb, rfl, rfl, hca, hcb, hok⟩
    · exact keeps_of_ok P hc h (by rw [SeparatorOp.run, hnone]; rfl)
    · have hlen : (ca ++ c :: cb).length = (a ++ b).length + 1 := by simp only [List.length_append, List.length_cons]; omega
      refine keeps_of_ok P hlen (h.sublist (List.Sublist.append_left (List.sublist_cons_self sep b) a)) ?_
      rw [SeparatorOp.run, hok]
      rfl
  | replaceKey old new =>
    rcases @internalReplaceKey_cases id lsn ks cs h old new with ⟨e, hfail⟩ | ⟨a, b, rfl, ha, hb, hfit, hok⟩
    · refine iff_of_true (Or.inr ⟨e, hfail⟩) ?_
      rintro ⟨a, b, children, hbody, ha, hb, hfit, -⟩
      cases hbody
      rw [internalReplaceKey_eq h ha hb, if_pos hfit] at hfail
      cases hfail
    · by_cases hnew : KeyFits new
      · refine iff_of_true (keeps_of_ok P (by simpa using hc) (keysValid_replace h hnew ha hb hfit) hok) ?_
        rintro ⟨a', b', children, -, -, -, -, hnew'⟩
        exact hnew' hnew
      · refine iff_of_false ?_ (fun hno => hno ⟨a, b, cs, rfl, ha, hb, hfit, hnew⟩)
        rintro (⟨-, hinv, -⟩ | ⟨e, hfail⟩)
        · rw [SeparatorOp.run, hok, checkInvariants_iff] at hinv
          exact hnew (hinv.2.fits new (by simp))
        · cases hok.symm.trans hfail

/-- What is left of an internal page is an internal page. -/
theorem run_internal (hc : cs.length = ks.length + 1) (h : KeysValid ks) (op : SeparatorOp) :
    ∃ ks' cs', (op.run ⟨id, lsn, .internal ks cs⟩).2 = ⟨id, lsn, .internal ks' cs'⟩ := by
  cases op with
  | insert sep right =>
    rcases @internalInsert_cases id lsn ks cs h hc sep right with ⟨e, hfail⟩ |
        ⟨a, b, ca, c, cb, rfl, rfl, -, -, -, -, -, -, hok⟩
    · exact ⟨_, _, congrArg Prod.snd hfail⟩
    · exact ⟨_, _, congrArg Prod.snd hok⟩
  | remove sep =>
    rcases @internalRemove_cases id lsn ks cs h hc sep with hnone | ⟨a, b, ca, c, d, cb, rfl, rfl, -, -, hok⟩
    · exact ⟨_, _, congrArg Prod.snd hnone⟩
    · exact ⟨_, _, congrArg Prod.snd hok⟩
  | replaceKey old new =>
    rcases @internalReplaceKey_cases id lsn ks cs h old new with ⟨e, hfail⟩ | ⟨a, b, rfl, -, -, -, hok⟩
    · exact ⟨_, _, congrArg Prod.snd hfail⟩
    · exact ⟨_, _, congrArg Prod.snd hok⟩

theorem SeparatorOp.Keeps.valid {op : SeparatorOp} (hc : cs.length = ks.length + 1) (h : KeysValid ks)
    (hkeeps : op.Keeps P ⟨id, lsn, .internal ks cs⟩) : (op.run ⟨id, lsn, .internal ks cs⟩).2.checkInvariants = .ok () := by
  rcases hkeeps with ⟨-, hinv, -⟩ | ⟨e, hfail⟩
  · exact hinv
  · rw [hfail]
    exact (checkInvariants_iff _).mpr ⟨hc, h⟩

theorem eachCall_keeps (hc : cs.length = ks.length + 1) (h : KeysValid ks) (ops : List SeparatorOp) :
    EachCall (SeparatorOp.Keeps P) ⟨id, lsn, .internal ks cs⟩ ops ↔
      EachCall (fun page op => ¬ op.ReplacesOversized page) ⟨id, lsn, .internal ks cs⟩ ops := by
  induction ops generalizing ks cs with
  | nil => exact Iff.rfl
  | cons op ops ih =>
    have hstep := @keeps_iff id lsn ks cs P hc h op
    obtain ⟨ks', cs', hrun⟩ := @run_internal id lsn ks cs hc h op
    have hrest (hkeeps : op.Keeps P ⟨id, lsn, .internal ks cs⟩) :
        EachCall (SeparatorOp.Keeps P) (op.run ⟨id, lsn, .internal ks cs⟩).2 ops ↔
          EachCall (fun page op => ¬ op.ReplacesOversized page) (op.run ⟨id, lsn, .internal ks cs⟩).2 ops := by
      have hinv := hkeeps.valid P hc h
      rw [hrun] at hinv ⊢
      obtain ⟨hc', h'⟩ : cs'.length = ks'.length + 1 ∧ KeysValid ks' := (checkInvariants_iff _).mp hinv
      exact ih hc' h'
    constructor
    · intro hall
      exact ⟨hstep.mp hall.1, (hrest hall.1).mp hall.2⟩
    · intro hall
      have hkeeps := hstep.mpr hall.1
      exact ⟨hkeeps, (hrest hkeeps).mpr hall.2⟩

end

/-- Exactly when a sequence of calls keeps the page valid and writable throughout. -/
theorem separators_keep_iff (P : Platform) (page : Page) (ops : List SeparatorOp) (hint : page.isInternal = true)
    (h : page.checkInvariants = .ok ()) :
    EachCall (SeparatorOp.Keeps P) page ops ↔ EachCall (fun page op => ¬ op.ReplacesOversized page) page ops := by
  rcases page with ⟨id, lsn, _ | ⟨ks, cs⟩ | _ | _⟩
  · cases hint
  · obtain ⟨hc, hks⟩ : cs.length = ks.length + 1 ∧ KeysValid ks := (checkInvariants_iff _).mp h
    exact eachCall_keeps P hc hks ops
  · cases hint
  · cases hint

theorem separators_keep_iff_routed : EachCall (SeparatorOp.Keeps .standard) routed
    [.remove (.integer 10), .remove (.integer 20)] :=
  (separators_keep_iff .standard routed _ rfl routed_valid).mpr ⟨id, id, trivial⟩

/-- A page of one short separator. -/
def shortSeparator : Page := ⟨⟨⟨1⟩, 2⟩, none, .internal [.integer 1] [⟨⟨1⟩, 3⟩, ⟨⟨1⟩, 4⟩]⟩

/-- A key whose entry is too long for `internal_insert`, put in place of a short one. -/
theorem replaceKey_oversized : shortSeparator.isInternal = true ∧ shortSeparator.checkInvariants = .ok () ∧
    (shortSeparator.internalReplaceKey (.integer 1) (.string (longString 'b' 1100))).1 = .ok () ∧
    (shortSeparator.internalReplaceKey (.integer 1) (.string (longString 'b' 1100))).2.checkInvariants ≠ .ok () ∧
    ¬ EachCall (SeparatorOp.Keeps .standard) shortSeparator [.replaceKey (.integer 1) (.string (longString 'b' 1100))] := by
  have hlong : internalEntrySize (.string (longString 'b' 1100)) = 1115 := by
    rw [internalEntrySize, Key.encodedSize, size_longString rfl, Lib.Bytes.size_eq_two (by decide) (by decide)]
    rfl
  have hnew : ¬ KeyFits (.string (longString 'b' 1100)) := by
    rw [KeyFits, hlong]
    decide
  have hsmall : KeysValid [.integer 1] := keysValid_singleton (by show _ ≤ _; decide)
  have hfit : keysSize ([] ++ .string (longString 'b' 1100) :: []) ≤ internalUsable := by
    simp only [keysSize, List.nil_append, List.map_cons, List.map_nil, List.sum_cons, List.sum_nil, hlong]
    decide
  have hrun : shortSeparator.internalReplaceKey (.integer 1) (.string (longString 'b' 1100)) =
      (.ok (), ⟨⟨⟨1⟩, 2⟩, none, .internal [.string (longString 'b' 1100)] [⟨⟨1⟩, 3⟩, ⟨⟨1⟩, 4⟩]⟩) :=
    (internalReplaceKey_eq (a := []) (b := []) hsmall (by simp) (by simp)).trans (if_pos hfit)
  have hbad : (shortSeparator.internalReplaceKey (.integer 1) (.string (longString 'b' 1100))).2.checkInvariants ≠ .ok
      () := by
    rw [hrun, Ne, checkInvariants_iff]
    exact fun hv => hnew (hv.2.fits _ (by simp))
  refine ⟨rfl, (checkInvariants_iff _).mpr ⟨rfl, hsmall⟩, congrArg Prod.fst hrun, hbad, ?_⟩
  rintro ⟨⟨-, hinv, -⟩ | ⟨e, hfail⟩, -⟩
  · exact hbad hinv
  · cases hrun.symm.trans hfail

end Page

end RustDb
