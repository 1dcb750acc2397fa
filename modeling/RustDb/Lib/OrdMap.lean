/-
  Lib.OrdMap — maps from an ordered type of keys, each entry carrying its own key, and the
  lists of their entries in key order.

  `Lists f l m` says that the strictly sorted list `l` holds exactly the entries of the map
  `m`. An update of the map at one key is an update of the list at one cut.
-/

import RustDb.Lib.SortedList
import Mathlib.Logic.Function.Basic

namespace Lib.OrdMap

open Lib.SortedList

section
variable {α κ : Type} [LinearOrder κ] {f : α → κ} {l a b : List α} {m : κ → Option α} {x : α} {k : κ}

structure Lists (f : α → κ) (l : List α) (m : κ → Option α) : Prop where
  sorted : (l.map f).Pairwise (· < ·)
  entry : ∀ k x, m k = some x ↔ x ∈ l ∧ f x = k

theorem Lists.nil : Lists f [] fun _ => none := ⟨List.Pairwise.nil, by simp⟩

theorem Lists.mem (h : Lists f l m) (hx : x ∈ l) : m (f x) = some x := (h.entry _ _).mpr ⟨hx, rfl⟩

theorem Lists.absent_iff (h : Lists f l m) : m k = none ↔ ∀ x ∈ l, f x ≠ k := by
  constructor
  · intro hk x hx he
    cases (he ▸ h.mem hx).symm.trans hk
  · intro hk
    cases hm : m k with
    | none => rfl
    | some x =>
      obtain ⟨hx, he⟩ := (h.entry k x).mp hm
      exact absurd he (hk x hx)

theorem Lists.present (h : Lists f l m) (hk : m k ≠ none) : ∃ x ∈ l, f x = k := by
  cases hm : m k with
  | none => exact absurd hm hk
  | some x => exact ⟨x, (h.entry k x).mp hm⟩

/-- The entries from a key on. -/
theorem Lists.tail (h : Lists f (a ++ b) m) (ha : ∀ y ∈ a, f y < k) (hb : ∀ y ∈ b, k ≤ f y) :
    Lists f b fun k' => if k ≤ k' then m k' else none where
  sorted := h.sorted.sublist ((List.sublist_append_right a b).map f)
  entry k' y := by
    by_cases hk : k ≤ k'
    · rw [if_pos hk, h.entry]
      constructor
      · rintro ⟨hy, rfl⟩
        rcases List.mem_append.mp hy with hy | hy
        · exact absurd hk (not_le.mpr (ha y hy))
        · exact ⟨hy, rfl⟩
      · rintro ⟨hy, he⟩
        exact ⟨List.mem_append_right a hy, he⟩
    · rw [if_neg hk]
      refine iff_of_false (by simp) ?_
      rintro ⟨hy, rfl⟩
      exact hk (hb y hy)

variable [DecidableEq κ]

theorem Lists.insert (h : Lists f (a ++ b) m) (ha : ∀ y ∈ a, f y < f x) (hb : ∀ y ∈ b, f x < f y) :
    Lists f (a ++ x :: b) (Function.update m (f x) (some x)) where
  sorted := by
    have hs := h.sorted
    rw [List.map_append] at hs
    rw [List.map_append, List.map_cons]
    exact pairwise_insert hs (by simpa using ha) (by simpa using hb)
  entry k y := by
    by_cases hk : k = f x
    · subst hk
      rw [Function.update_self, Option.some.injEq]
      constructor
      · rintro rfl
        exact ⟨by simp, rfl⟩
      · rintro ⟨hy, he⟩
        rcases List.mem_append.mp hy with hy | hy
        · exact absurd he (ha y hy).ne
        · rcases List.mem_cons.mp hy with rfl | hy
          · rfl
          · exact absurd he (hb y hy).ne'
    · rw [Function.update_of_ne hk, h.entry]
      constructor
      · rintro ⟨hy, he⟩
        exact ⟨by simpa using (List.mem_append.mp hy).imp_right Or.inr, he⟩
      · rintro ⟨hy, rfl⟩
        refine ⟨?_, rfl⟩
        rcases List.mem_append.mp hy with hy | hy
        · exact List.mem_append_left b hy
        · rcases List.mem_cons.mp hy with rfl | hy
          · exact absurd rfl hk
          · exact List.mem_append_right a hy

theorem Lists.erase (h : Lists f (a ++ x :: b) m) : Lists f (a ++ b) (Function.update m (f x) none) where
  sorted := h.sorted.sublist ((List.Sublist.append_left (List.sublist_cons_self x b) a).map f)
  entry k y := by
    have hs := h.sorted
    rw [List.map_append, List.map_cons] at hs
    obtain ⟨-, hsb, hab⟩ := List.pairwise_append.mp hs
    by_cases hk : k = f x
    · subst hk
      rw [Function.update_self]
      refine iff_of_false (by simp) ?_
      rintro ⟨hy, he⟩
      rcases List.mem_append.mp hy with hy | hy
      · exact (hab (f y) (List.mem_map_of_mem hy) (f x) List.mem_cons_self).ne he
      · exact ((List.pairwise_cons.mp hsb).1 (f y) (List.mem_map_of_mem hy)).ne' he
    · rw [Function.update_of_ne hk, h.entry]
      constructor
      · rintro ⟨hy, rfl⟩
        refine ⟨?_, rfl⟩
        rcases List.mem_append.mp hy with hy | hy
        · exact List.mem_append_left b hy
        · rcases List.mem_cons.mp hy with rfl | hy
          · exact absurd rfl hk
          · exact List.mem_append_right a hy
      · rintro ⟨hy, he⟩
        exact ⟨by simpa using (List.mem_append.mp hy).imp_right Or.inr, he⟩

theorem Lists.find (h : Lists f l m) (k : κ) : l.find? (f · = k) = m k := by
  cases hk : m k with
  | none =>
    rw [List.find?_eq_none]
    intro x hx
    simpa using h.absent_iff.mp hk x hx
  | some x =>
    obtain ⟨hx, he⟩ := (h.entry k x).mp hk
    cases hfind : l.find? (f · = k) with
    | none => exact absurd he (by simpa using List.find?_eq_none.mp hfind x hx)
    | some y =>
      have hy := (h.entry k y).mpr ⟨List.mem_of_find?_eq_some hfind, by simpa using List.find?_some hfind⟩
      exact hy.symm.trans hk

/-- The entries but the one under a key. -/
theorem Lists.without (h : Lists f l m) (k : κ) : Lists f (l.filter (f · ≠ k)) (Function.update m k none) where
  sorted := h.sorted.sublist (List.filter_sublist.map f)
  entry k' y := by
    rw [List.mem_filter]
    by_cases hk : k' = k
    · subst hk
      rw [Function.update_self]
      exact iff_of_false (by simp) fun ⟨⟨_, hne⟩, he⟩ => absurd he (by simpa using hne)
    · rw [Function.update_of_ne hk, h.entry]
      constructor
      · rintro ⟨hy, rfl⟩
        exact ⟨⟨hy, by simpa using hk⟩, rfl⟩
      · rintro ⟨⟨hy, -⟩, he⟩
        exact ⟨hy, he⟩

end

end Lib.OrdMap
