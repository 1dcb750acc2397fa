/-
  Lib.SortedList — strictly sorted lists over a linear order: binary search, insertion and
  removal at the position found, and the split point of a list of sizes.

  `search l k` is what a binary search answers on a strictly sorted list: the position of
  `k`, or the position at which inserting `k` keeps the list sorted. Both answers are used
  through the decomposition of `l` they give:
  - `search_ok`: `l = a ++ k :: b` with `a` of the answered length.
  - `search_error`: `l = a ++ b`, everything in `a` below `k`, everything in `b` above.
-/

import Mathlib.Order.Lattice
import Mathlib.Order.Compare
import Mathlib.Algebra.Order.Ring.Nat
import Mathlib.Data.List.Basic

namespace Lib.SortedList

/-! ## Search -/

section
variable {α κ : Type} [LinearOrder κ]

/-- `slice::binary_search` on a strictly sorted list. -/
def search (l : List κ) (k : κ) : Except Nat Nat :=
  let i := l.findIdx (fun x => decide (k ≤ x))
  if l[i]? = some k then .ok i else .error i

/-- `slice::binary_search_by`; a comparison may fail, and then so does the search. -/
def searchBy (cmp : α → Option Ordering) (l : List α) : Option (Except Nat Nat) :=
  (l.mapM cmp).map fun os =>
    let i := os.findIdx (fun o => decide (o ≠ .lt))
    if os[i]? = some .eq then .ok i else .error i

theorem findIdx_split {p : α → Bool} : ∀ l : List α,
    ∃ a b, l = a ++ b ∧ a.length = l.findIdx p ∧ (∀ x ∈ a, p x = false) ∧ (∀ x, b.head? = some x → p x = true)
  | [] => ⟨[], [], by simp⟩
  | y :: l => by
    obtain ⟨a, b, hl, hlen, ha, hb⟩ := findIdx_split (p := p) l
    by_cases h : p y = true
    · exact ⟨[], y :: l, by simp [List.findIdx_cons, h]⟩
    · refine ⟨y :: a, b, by simp [hl], ?_, ?_, hb⟩
      · simp [List.findIdx_cons, h, hlen]
      · simpa [h] using ha

theorem search_split {l : List κ} (hs : l.Pairwise (· < ·)) (k : κ) :
    ∃ a b, l = a ++ b ∧ (∀ x ∈ a, x < k) ∧
      ((∃ b', b = k :: b' ∧ (∀ x ∈ b', k < x) ∧ search l k = .ok a.length) ∨
        ((∀ x ∈ b, k < x) ∧ search l k = .error a.length)) := by
  obtain ⟨a, b, rfl, hlen, ha, hb⟩ := findIdx_split (p := fun x => decide (k ≤ x)) l
  have ha' : ∀ x ∈ a, x < k := fun x hx => by simpa using ha x hx
  refine ⟨a, b, rfl, ha', ?_⟩
  have hget : (a ++ b)[a.length]? = b.head? := by
    rw [List.getElem?_append_right (Nat.le_refl _), Nat.sub_self, List.head?_eq_getElem?]
  rcases b with _ | ⟨y, b⟩
  · right
    simp only [search, ← hlen, hget]
    simp
  · have hky : k ≤ y := by simpa using hb y rfl
    have hyb : ∀ x ∈ b, y < x := (List.pairwise_cons.mp (List.pairwise_append.mp hs).2.1).1
    by_cases e : y = k
    · subst e
      left
      refine ⟨b, rfl, hyb, ?_⟩
      simp only [search, ← hlen, hget]
      simp
    · right
      have hlt : k < y := lt_of_le_of_ne hky (Ne.symm e)
      refine ⟨fun x hx => ?_, ?_⟩
      · rcases List.mem_cons.mp hx with rfl | hx
        · exact hlt
        · exact hlt.trans (hyb x hx)
      · simp only [search, ← hlen, hget]
        simp [e]

theorem search_ok {l : List κ} (hs : l.Pairwise (· < ·)) {k : κ} {i : Nat} (h : search l k = .ok i) :
    ∃ a b, l = a ++ k :: b ∧ a.length = i ∧ (∀ x ∈ a, x < k) ∧ (∀ x ∈ b, k < x) := by
  obtain ⟨a, b, rfl, ha, ⟨b', rfl, hb, he⟩ | ⟨_, he⟩⟩ := search_split hs k
  · rw [he] at h; cases h; exact ⟨a, b', rfl, rfl, ha, hb⟩
  · rw [he] at h; cases h

theorem search_error {l : List κ} (hs : l.Pairwise (· < ·)) {k : κ} {i : Nat} (h : search l k = .error i) :
    ∃ a b, l = a ++ b ∧ a.length = i ∧ (∀ x ∈ a, x < k) ∧ (∀ x ∈ b, k < x) := by
  obtain ⟨a, b, rfl, ha, ⟨b', rfl, hb, he⟩ | ⟨hb, he⟩⟩ := search_split hs k
  · rw [he] at h; cases h
  · rw [he] at h; cases h; exact ⟨a, b, rfl, rfl, ha, hb⟩

/-- A strictly sorted list that does not hold `k`, cut where it would stand. -/
theorem sorted_gap {l : List κ} (hs : l.Pairwise (· < ·)) {k : κ} (hk : k ∉ l) :
    ∃ a b, l = a ++ b ∧ (∀ x ∈ a, x < k) ∧ (∀ x ∈ b, k < x) := by
  obtain ⟨a, b, rfl, ha, ⟨b', rfl, -, -⟩ | ⟨hb, -⟩⟩ := search_split hs k
  · exact absurd (by simp) hk
  · exact ⟨a, b, rfl, ha, hb⟩

/-- A strictly sorted list cut behind the elements at most `k`. -/
theorem sorted_cut {l : List κ} (hs : l.Pairwise (· < ·)) (k : κ) :
    ∃ a b, l = a ++ b ∧ (∀ x ∈ a, x ≤ k) ∧ ∀ x ∈ b, k < x := by
  obtain ⟨a, b, rfl, ha, ⟨b', rfl, hb, -⟩ | ⟨hb, -⟩⟩ := search_split hs k
  · refine ⟨a ++ [k], b', by simp, fun x hx => ?_, hb⟩
    rcases List.mem_append.mp hx with hx | hx
    · exact (ha x hx).le
    · exact (List.mem_singleton.mp hx).le
  · exact ⟨a, b, rfl, fun x hx => (ha x hx).le, hb⟩

/-- How many elements are at most `k`. -/
def rank (l : List κ) (k : κ) : Nat := l.countP fun x => decide (x ≤ k)

@[simp] theorem rank_append (a b : List κ) (k : κ) : rank (a ++ b) k = rank a k + rank b k := List.countP_append

@[simp] theorem rank_cons (x : κ) (l : List κ) (k : κ) : rank (x :: l) k = rank l k + if x ≤ k then 1 else 0 := by
  simp [rank, List.countP_cons]

theorem rank_of_le {l : List κ} {k : κ} (h : ∀ x ∈ l, x ≤ k) : rank l k = l.length :=
  List.countP_eq_length.mpr fun x hx => decide_eq_true (h x hx)

theorem rank_of_lt {l : List κ} {k : κ} (h : ∀ x ∈ l, k < x) : rank l k = 0 :=
  List.countP_eq_zero.mpr fun x hx => by simpa using h x hx

theorem rank_le (l : List κ) (k : κ) : rank l k ≤ l.length := List.countP_le_length

/-- Where `k` stands, the search finds it. -/
theorem search_mid {a b : List κ} {k : κ} (hs : (a ++ k :: b).Pairwise (· < ·)) :
    search (a ++ k :: b) k = .ok a.length := by
  have hsplit := List.pairwise_append.mp hs
  cases h : search (a ++ k :: b) k with
  | ok i =>
    obtain ⟨a', b', he, rfl, ha', -⟩ := search_ok hs h
    have ha : ∀ x ∈ a, x < k := fun x hx => hsplit.2.2 x hx k (by simp)
    have hb : ∀ x ∈ b, k < x := (List.pairwise_cons.mp hsplit.2.1).1
    congr 1
    rcases List.append_eq_append_iff.mp he with ⟨c, hc, hc'⟩ | ⟨c, hc, hc'⟩
    · rcases c with _ | ⟨y, c⟩
      · simp at hc; simp [hc]
      · simp only [List.cons_append, List.cons.injEq] at hc'
        have := ha' k (by rw [hc, hc'.1]; simp)
        exact absurd this (lt_irrefl _)
    · rcases c with _ | ⟨y, c⟩
      · simp at hc; simp [hc]
      · simp only [List.cons_append, List.cons.injEq] at hc'
        have := ha k (by rw [hc, hc'.1]; simp)
        exact absurd this (lt_irrefl _)
  | error i =>
    obtain ⟨a', b', he, -, ha', hb'⟩ := search_error hs h
    have : k ∈ a' ++ b' := by rw [← he]; simp
    rcases List.mem_append.mp this with h' | h'
    · exact absurd (ha' k h') (lt_irrefl _)
    · exact absurd (hb' k h') (lt_irrefl _)

/-- Between its neighbours, the search answers the insertion point. -/
theorem search_gap {a b : List κ} {k : κ} (hs : (a ++ b).Pairwise (· < ·)) (ha : ∀ x ∈ a, x < k)
    (hb : ∀ x ∈ b, k < x) : search (a ++ b) k = .error a.length := by
  cases h : search (a ++ b) k with
  | ok i =>
    obtain ⟨a', b', he, -, -, -⟩ := search_ok hs h
    have : k ∈ a ++ b := by rw [he]; simp
    rcases List.mem_append.mp this with h' | h'
    · exact absurd (ha k h') (lt_irrefl _)
    · exact absurd (hb k h') (lt_irrefl _)
  | error i =>
    obtain ⟨a', b', he, rfl, ha', hb'⟩ := search_error hs h
    congr 1
    rcases List.append_eq_append_iff.mp he with ⟨c, hc, hc'⟩ | ⟨c, hc, hc'⟩
    · rcases c with _ | ⟨y, c⟩
      · simp at hc; simp [hc]
      · exact absurd ((ha' y (by rw [hc]; simp)).trans (hb y (by rw [hc']; simp))) (lt_irrefl _)
    · rcases c with _ | ⟨y, c⟩
      · simp at hc; simp [hc]
      · exact absurd ((ha y (by rw [hc]; simp)).trans (hb' y (by rw [hc']; simp))) (lt_irrefl _)

/-- A strictly sorted list with `k` put between the elements below and above it. -/
theorem pairwise_insert {a b : List κ} {k : κ} (hs : (a ++ b).Pairwise (· < ·)) (ha : ∀ x ∈ a, x < k)
    (hb : ∀ x ∈ b, k < x) : (a ++ k :: b).Pairwise (· < ·) := by
  rw [List.pairwise_append] at hs ⊢
  refine ⟨hs.1, List.pairwise_cons.mpr ⟨hb, hs.2.1⟩, fun x hx y hy => ?_⟩
  rcases List.mem_cons.mp hy with rfl | hy
  · exact ha x hx
  · exact hs.2.2 x hx y hy

theorem pairwise_remove {a b : List κ} {k : κ} (hs : (a ++ k :: b).Pairwise (· < ·)) :
    (a ++ b).Pairwise (· < ·) :=
  hs.sublist (List.Sublist.append (List.Sublist.refl a) (List.sublist_cons_self k b))

/-- Of two sorted lists it is enough to compare the ends that meet. -/
theorem lt_of_ends {a b : List κ} (ha : a.Pairwise (· < ·)) (hb : b.Pairwise (· < ·))
    (h : ∀ x, a.getLast? = some x → ∀ y, b.head? = some y → x < y) : ∀ x ∈ a, ∀ y ∈ b, x < y := by
  rcases List.eq_nil_or_concat a with rfl | ⟨a, m, rfl⟩
  · simp
  rcases b with _ | ⟨n, b⟩
  · simp
  rw [List.concat_eq_append] at ha h ⊢
  have hmn : m < n := h m (by simp) n rfl
  have hle : ∀ x ∈ a ++ [m], x ≤ m := by
    intro x hx
    rcases List.mem_append.mp hx with hx | hx
    · exact ((List.pairwise_append.mp ha).2.2 x hx m (by simp)).le
    · rw [List.mem_singleton.mp hx]
  have hge : ∀ y ∈ n :: b, n ≤ y := by
    intro y hy
    rcases List.mem_cons.mp hy with rfl | hy
    · exact le_rfl
    · exact ((List.pairwise_cons.mp hb).1 y hy).le
  exact fun x hx y hy => (hle x hx).trans_lt (hmn.trans_le (hge y hy))

section
variable {f : α → κ} {cmp : α → Option Ordering} {k : κ}

/-- A comparison that agrees with a key's order does not fail. -/
theorem mapM_compare : ∀ {l : List α}, (∀ x ∈ l, cmp x = some (compare (f x) k)) →
    l.mapM cmp = some (l.map fun x => compare (f x) k)
  | [], _ => rfl
  | x :: l, h => by
    have ih := mapM_compare fun y hy => h y (List.mem_cons_of_mem x hy)
    simp [List.mapM_cons, h x (by simp), ih]

theorem findIdx_compare (l : List α) : (l.map fun x => compare (f x) k).findIdx (fun o => decide (o ≠ .lt)) =
    (l.map f).findIdx (fun x => decide (k ≤ x)) := by
  induction l with
  | nil => rfl
  | cons x l ih =>
    have hx : decide (compare (f x) k ≠ .lt) = decide (k ≤ f x) := by
      rw [decide_eq_decide, ne_eq, compare_lt_iff_lt, not_lt]
    simp only [List.map_cons, List.findIdx_cons, hx, ih]

/-- A search by a comparison that agrees with a key's order is a search among the keys. -/
theorem searchBy_eq {l : List α} (h : ∀ x ∈ l, cmp x = some (compare (f x) k)) :
    searchBy cmp l = some (search (l.map f) k) := by
  have hget : ∀ i : Nat, ((l.map fun x => compare (f x) k)[i]? = some .eq) ↔ (l.map f)[i]? = some k := by
    intro i
    rcases hi : l[i]? with _ | x
    · simp [hi]
    · simp [hi]
  simp only [searchBy, mapM_compare h, Option.map_some, search, findIdx_compare, hget]

end

end

/-! ## Split points -/

/-- The first position at which the running sum, started at `acc`, reaches `target`
    (`iter().scan(..).position(..)`). -/
def sumPosition (target : Nat) : Nat → List Nat → Option Nat
  | _, [] => none
  | acc, x :: xs => if target ≤ acc + x then some 0 else (sumPosition target (acc + x) xs).map (· + 1)

theorem sumPosition_spec (target : Nat) : ∀ (acc : Nat) (l : List Nat), l ≠ [] → target ≤ acc + l.sum →
    ∃ i, sumPosition target acc l = some i ∧ i < l.length ∧ (i = 0 ∨ acc + (l.take i).sum < target) ∧
      target ≤ acc + (l.take (i + 1)).sum
  | _, [], h, _ => absurd rfl h
  | acc, x :: xs, _, hsum => by
    by_cases hx : target ≤ acc + x
    · exact ⟨0, by simp [sumPosition, hx], by simp, Or.inl rfl, by simpa using hx⟩
    · have hne : xs ≠ [] := by rintro rfl; simp at hsum; omega
      obtain ⟨i, hi, hlt, hbefore, hreach⟩ :=
        sumPosition_spec target (acc + x) xs hne (by simp at hsum; omega)
      refine ⟨i + 1, by simp [sumPosition, hx, hi], by simpa using hlt, Or.inr ?_, ?_⟩
      · rcases hbefore with rfl | hbefore
        · simp; omega
        · simp; omega
      · simp only [List.take_succ_cons, List.sum_cons]; omega

theorem sum_take_add_sum_drop (l : List Nat) (i : Nat) : (l.take i).sum + (l.drop i).sum = l.sum := by
  rw [← List.sum_append, List.take_append_drop]

theorem sum_take_mono {l : List Nat} {i j : Nat} (h : i ≤ j) : (l.take i).sum ≤ (l.take j).sum := by
  have hsplit : l.take j = l.take i ++ (l.take j).drop i := by
    conv_lhs => rw [← List.take_append_drop i (l.take j)]
    rw [List.take_take, Nat.min_eq_left h]
  rw [hsplit, List.sum_append]
  exact Nat.le_add_right _ _

theorem sum_take_succ_le {l : List Nat} {m : Nat} (h : ∀ x ∈ l, x ≤ m) (i : Nat) :
    (l.take (i + 1)).sum ≤ (l.take i).sum + m := by
  rw [List.take_add_one]
  rcases hi : l[i]? with _ | x
  · simp
  · simpa using h x (List.mem_of_getElem? hi)

theorem sum_le_length_mul {l : List Nat} {m : Nat} (h : ∀ x ∈ l, x ≤ m) : l.sum ≤ l.length * m := by
  induction l with
  | nil => simp
  | cons x l ih =>
    have := ih fun y hy => h y (by simp [hy])
    have := h x (by simp)
    simp only [List.sum_cons, List.length_cons, Nat.add_mul]; omega

theorem length_mul_le_sum {l : List Nat} {m : Nat} (h : ∀ x ∈ l, m ≤ x) : l.length * m ≤ l.sum := by
  induction l with
  | nil => simp
  | cons x l ih =>
    have := ih fun y hy => h y (by simp [hy])
    have := h x (by simp)
    simp only [List.sum_cons, List.length_cons, Nat.add_mul]; omega

end Lib.SortedList
