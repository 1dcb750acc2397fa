/-
  Lib.Pack — items packed in order into bins of a bounded size.

  A bin takes items while they fit, and the first that does not starts the next bin, where
  it takes what `start` says. `bins` are the bins, `starts` the items that start a bin after
  the first one, `filled` is what the last bin takes in the end. `levels` packs the items
  that start a bin over and over, until there is one bin.
-/

import Mathlib.Data.List.Basic

namespace Lib.Pack

variable {α : Type} (cost start : α → Nat) (cap : Nat)

/-- The items that start a bin, from a bin that has taken `used` on. -/
def starts : Nat → List α → List α
  | _, [] => []
  | used, x :: xs => if used + cost x ≤ cap then starts (used + cost x) xs else x :: starts (start x) xs

/-- The bins, the first of which has taken the items of `bin`. -/
def bins : Nat → List α → List α → List (List α)
  | _, bin, [] => [bin]
  | used, bin, x :: xs =>
    if used + cost x ≤ cap then bins (used + cost x) (bin ++ [x]) xs else bin :: bins (start x) [x] xs

/-- What the last bin takes. -/
def filled : Nat → List α → Nat
  | used, [] => used
  | used, x :: xs => if used + cost x ≤ cap then filled (used + cost x) xs else filled (start x) xs

/-- The items that start a bin, the first of all included. -/
def heads : List α → List α
  | [] => []
  | x :: xs => x :: starts cost start cap (start x) xs

/-- What the last bin takes, from the first item on. -/
def last : List α → Nat
  | [] => 0
  | x :: xs => filled cost start cap (start x) xs

/-- The items that start a bin, of those the ones that do when they are packed, and so on
    until one is left. -/
def levels : Nat → List α → List (List α)
  | 0, _ => []
  | fuel + 1, level =>
    if 1 < level.length then heads cost start cap level :: levels fuel (heads cost start cap level) else []

variable {cost start cap} {β : Type} {used : Nat} {x : α} {bin xs : List α}

theorem starts_fits (h : used + cost x ≤ cap) :
    starts cost start cap used (x :: xs) = starts cost start cap (used + cost x) xs := by
  rw [starts, if_pos h]

theorem starts_full (h : ¬ used + cost x ≤ cap) :
    starts cost start cap used (x :: xs) = x :: starts cost start cap (start x) xs := by
  rw [starts, if_neg h]

theorem filled_fits (h : used + cost x ≤ cap) :
    filled cost start cap used (x :: xs) = filled cost start cap (used + cost x) xs := by
  rw [filled, if_pos h]

theorem filled_full (h : ¬ used + cost x ≤ cap) :
    filled cost start cap used (x :: xs) = filled cost start cap (start x) xs := by
  rw [filled, if_neg h]

theorem bins_fits (h : used + cost x ≤ cap) :
    bins cost start cap used bin (x :: xs) = bins cost start cap (used + cost x) (bin ++ [x]) xs := by
  rw [bins, if_pos h]

theorem bins_full (h : ¬ used + cost x ≤ cap) :
    bins cost start cap used bin (x :: xs) = bin :: bins cost start cap (start x) [x] xs := by
  rw [bins, if_neg h]

/-- The bins hold the items, in order. -/
theorem bins_flatten (used : Nat) (bin xs : List α) : (bins cost start cap used bin xs).flatten = bin ++ xs := by
  induction xs generalizing used bin with
  | nil => simp [bins]
  | cons x xs ih =>
    by_cases h : used + cost x ≤ cap
    · rw [bins_fits h, ih, List.append_assoc, List.singleton_append]
    · rw [bins_full h, List.flatten_cons, ih, List.singleton_append]

theorem bins_heads (used : Nat) (hbin : bin ≠ []) (xs : List α) :
    (bins cost start cap used bin xs).map List.head? = bin.head? :: (starts cost start cap used xs).map some := by
  induction xs generalizing used bin with
  | nil => rfl
  | cons x xs ih =>
    by_cases h : used + cost x ≤ cap
    · rw [bins_fits h, starts_fits h, ih _ (by simp)]
      obtain ⟨b, bs, rfl⟩ := List.exists_cons_of_ne_nil hbin
      rfl
    · rw [bins_full h, starts_full h, List.map_cons, ih _ (by simp)]
      rfl

theorem bins_ne_nil (hbin : bin ≠ []) {b : List α} (hb : b ∈ bins cost start cap used bin xs) : b ≠ [] := by
  have hhead : b.head? ∈ (bins cost start cap used bin xs).map List.head? := List.mem_map_of_mem hb
  obtain ⟨a, as, rfl⟩ := List.exists_cons_of_ne_nil hbin
  rw [bins_heads used hbin xs] at hhead
  rintro rfl
  rcases List.mem_cons.mp hhead with h | h
  · cases h
  · obtain ⟨x, -, hx⟩ := List.mem_map.mp h
    cases hx

theorem starts_sublist (used : Nat) (xs : List α) : (starts cost start cap used xs).Sublist xs := by
  induction xs generalizing used with
  | nil => exact List.Sublist.refl _
  | cons x xs ih =>
    by_cases h : used + cost x ≤ cap
    · rw [starts_fits h]
      exact (ih _).cons x
    · rw [starts_full h]
      exact (ih _).cons_cons x

theorem heads_sublist (xs : List α) : (heads cost start cap xs).Sublist xs := by
  cases xs with
  | nil => exact List.Sublist.refl _
  | cons x xs => exact (starts_sublist _ xs).cons_cons x

theorem heads_ne_nil (h : xs ≠ []) : heads cost start cap xs ≠ [] := by
  cases xs with
  | nil => exact absurd rfl h
  | cons x xs => exact List.cons_ne_nil _ _

/-! ## Items under another name -/

theorem bins_map (f : β → α) (used : Nat) (bin xs : List β) : bins cost start cap used (bin.map f) (xs.map f) =
    (bins (cost ∘ f) (start ∘ f) cap used bin xs).map (List.map f) := by
  induction xs generalizing used bin with
  | nil => rfl
  | cons x xs ih =>
    by_cases h : used + cost (f x) ≤ cap
    · have hf : used + (cost ∘ f) x ≤ cap := h
      have hstep := ih (used + cost (f x)) (bin ++ [x])
      rw [List.map_append] at hstep
      rw [List.map_cons, bins_fits h, bins_fits hf]
      exact hstep
    · have hf : ¬ used + (cost ∘ f) x ≤ cap := h
      rw [List.map_cons, bins_full h, bins_full hf, List.map_cons]
      exact congrArg _ (ih (start (f x)) [x])

theorem starts_map (f : β → α) (used : Nat) (xs : List β) : starts cost start cap used (xs.map f) =
    (starts (cost ∘ f) (start ∘ f) cap used xs).map f := by
  induction xs generalizing used with
  | nil => rfl
  | cons x xs ih =>
    by_cases h : used + cost (f x) ≤ cap
    · have hf : used + (cost ∘ f) x ≤ cap := h
      rw [List.map_cons, starts_fits h, starts_fits hf]
      exact ih _
    · have hf : ¬ used + (cost ∘ f) x ≤ cap := h
      rw [List.map_cons, starts_full h, starts_full hf, List.map_cons]
      exact congrArg _ (ih _)

theorem filled_map (f : β → α) (used : Nat) (xs : List β) : filled cost start cap used (xs.map f) =
    filled (cost ∘ f) (start ∘ f) cap used xs := by
  induction xs generalizing used with
  | nil => rfl
  | cons x xs ih =>
    by_cases h : used + cost (f x) ≤ cap
    · have hf : used + (cost ∘ f) x ≤ cap := h
      rw [List.map_cons, filled_fits h, filled_fits hf]
      exact ih _
    · have hf : ¬ used + (cost ∘ f) x ≤ cap := h
      rw [List.map_cons, filled_full h, filled_full hf]
      exact ih _

theorem heads_map (f : β → α) (xs : List β) :
    heads cost start cap (xs.map f) = (heads (cost ∘ f) (start ∘ f) cap xs).map f := by
  cases xs with
  | nil => rfl
  | cons x xs => exact congrArg (f x :: ·) (starts_map f _ xs)

theorem last_map (f : β → α) (xs : List β) : last cost start cap (xs.map f) = last (cost ∘ f) (start ∘ f) cap xs := by
  cases xs with
  | nil => rfl
  | cons x xs => exact filled_map f _ xs

/-! ## Items of the same size -/

theorem starts_congr {cost' start' : α → Nat} {xs : List α} (h : ∀ x ∈ xs, cost x = cost' x ∧ start x = start' x)
    (used : Nat) :
    starts cost start cap used xs = starts cost' start' cap used xs := by
  induction xs generalizing used with
  | nil => rfl
  | cons x xs ih =>
    obtain ⟨⟨hcost, hstart⟩, hxs⟩ := List.forall_mem_cons.mp h
    rw [starts, starts, hcost, hstart, ih hxs, ih hxs]

theorem filled_congr {cost' start' : α → Nat} {xs : List α} (h : ∀ x ∈ xs, cost x = cost' x ∧ start x = start' x)
    (used : Nat) :
    filled cost start cap used xs = filled cost' start' cap used xs := by
  induction xs generalizing used with
  | nil => rfl
  | cons x xs ih =>
    obtain ⟨⟨hcost, hstart⟩, hxs⟩ := List.forall_mem_cons.mp h
    rw [filled, filled, hcost, hstart, ih hxs, ih hxs]

theorem heads_congr {cost' start' : α → Nat} {xs : List α} (h : ∀ x ∈ xs, cost x = cost' x ∧ start x = start' x) :
    heads cost start cap xs = heads cost' start' cap xs := by
  cases xs with
  | nil => rfl
  | cons x xs => rw [heads, heads, (h x List.mem_cons_self).2, starts_congr fun y hy => h y (List.mem_cons_of_mem _ hy)]

theorem last_congr {cost' start' : α → Nat} {xs : List α} (h : ∀ x ∈ xs, cost x = cost' x ∧ start x = start' x) :
    last cost start cap xs = last cost' start' cap xs := by
  cases xs with
  | nil => rfl
  | cons x xs => rw [last, last, (h x List.mem_cons_self).2, filled_congr fun y hy => h y (List.mem_cons_of_mem _ hy)]

/-! ## Levels -/

theorem levels_one {fuel : Nat} (h : ¬ 1 < xs.length) : levels cost start cap fuel xs = [] := by
  cases fuel with
  | zero => rfl
  | succ fuel => rw [levels, if_neg h]

theorem levels_more {fuel : Nat} (h : 1 < xs.length) : levels cost start cap (fuel + 1) xs =
    heads cost start cap xs :: levels cost start cap fuel (heads cost start cap xs) := by
  rw [levels, if_pos h]

/-- Where a bin starts empty, only the last one may be left with a single item. -/
theorem bins_paired (hpos : ∀ x ∈ xs, 0 < cost x) (hcap : ∀ x ∈ xs, cost x ≤ cap) (hbin : bin ≠ [])
    (hused : used ≠ 0 ↔ 2 ≤ bin.length) :
    (∀ b ∈ bins cost (fun _ => 0) cap used bin xs, 2 ≤ b.length) ↔ filled cost (fun _ => 0) cap used xs ≠ 0 := by
  induction xs generalizing used bin with
  | nil => simp only [bins, List.mem_singleton, forall_eq, filled, hused]
  | cons x xs ih =>
    obtain ⟨hx, hpos⟩ := List.forall_mem_cons.mp hpos
    obtain ⟨hxc, hcap⟩ := List.forall_mem_cons.mp hcap
    by_cases h : used + cost x ≤ cap
    · rw [bins_fits h, filled_fits h]
      refine ih hpos hcap (by simp) ⟨fun _ => ?_, fun _ => by omega⟩
      have hlen := List.length_pos_iff.mpr hbin
      rw [List.length_append, List.length_singleton]
      omega
    · have hfull : 2 ≤ bin.length := hused.mp (by omega)
      rw [bins_full h, filled_full h, List.forall_mem_cons]
      exact (and_iff_right hfull).trans (ih hpos hcap (by simp) (by simp))

/-- Where a second item always fits beside the first, there are fewer bins than items. -/
theorem heads_length_lt (hfit : ∀ x ∈ xs, ∀ y ∈ xs, start x + cost y ≤ cap) (hlen : 1 < xs.length) :
    (heads cost start cap xs).length < xs.length := by
  cases xs with
  | nil => exact absurd hlen (Nat.not_lt_zero 1)
  | cons x xs =>
    cases xs with
    | nil => exact absurd hlen (Nat.lt_irrefl 1)
    | cons y xs =>
      rw [heads, starts_fits (hfit x (by simp) y (by simp))]
      have hle := (@starts_sublist _ cost start cap (start x + cost y) xs).length_le
      simp only [List.length_cons]
      omega

end Lib.Pack
