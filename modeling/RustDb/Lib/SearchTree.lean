/-
  Lib.SearchTree — search trees with rows in their leaves only and all leaves at one
  depth, as mathematics: nodes carry an identity, inner nodes separators and children.

  A tree of height `h` has its height in its type, so equal depth needs no invariant. A
  place in a tree is a context (`Ctx`) with a hole; `plug` fills it. Order is stated with
  optional bounds:
  - `RowBounds`: below every inner node, the rows under child `i` are at or above the
    separator before it and below the separator after it.
  - `Ordered lo hi`: the same, and every separator lies inside the bounds of its node.
    The two agree on trees without empty leaves (`ordered_of_rowBounds`).

  What a context does not contain does not change: leaves, rows and identities of
  `plug c t` are those of `t` between or beside those of `c` (`cells_plug`, `ids_plug`),
  and every page-wise property and the order split the same way (`all_plug`,
  `ordered_plug`).

  Two neighbours and the separator between them make one node (`Tree.join`), in order where
  they are (`Ordered.join`), and a node cut at a separator is two (`Ordered.cut`).
-/

import Mathlib.Order.Lattice
import Mathlib.Data.List.Basic
import Mathlib.Data.List.Perm.Basic

namespace Lib.SearchTree

/-! ## Bounds -/

section
variable {κ τ : Type}

/-- The last separator, or the bound before all of them. -/
def lastOr : Option κ → List κ → Option κ
  | lo, [] => lo
  | _, k :: ks => lastOr (some k) ks

/-- The first separator, or the bound after all of them. -/
def firstOr : List κ → Option κ → Option κ
  | [], hi => hi
  | k :: _, _ => some k

@[simp] theorem lastOr_nil (lo : Option κ) : lastOr lo [] = lo := rfl
@[simp] theorem firstOr_nil (hi : Option κ) : firstOr [] hi = hi := rfl
@[simp] theorem firstOr_cons (k : κ) (ks : List κ) (hi : Option κ) : firstOr (k :: ks) hi = some k := rfl

@[simp] theorem lastOr_concat (lo : Option κ) (a : List κ) (k : κ) : lastOr lo (a ++ [k]) = some k := by
  induction a generalizing lo with
  | nil => rfl
  | cons x a ih => exact ih (some x)

theorem firstOr_append (a b : List κ) (hi : Option κ) : firstOr (a ++ b) hi = firstOr a (firstOr b hi) := by
  cases a <;> rfl

theorem lastOr_eq (lo : Option κ) (a : List κ) : (a = [] ∧ lastOr lo a = lo) ∨ ∃ a' k, a = a' ++ [k] ∧
    lastOr lo a = some k := by
  rcases List.eq_nil_or_concat a with rfl | ⟨a', k, rfl⟩
  · exact Or.inl ⟨rfl, rfl⟩
  · exact Or.inr ⟨a', k, by simp, by simp⟩

/-! ## Children between separators -/

/-- Child by child, `P` with the separators on its two sides. -/
def Chain (P : Option κ → Option κ → τ → Prop) : Option κ → List κ → List τ → Option κ → Prop
  | lo, [], [t], hi => P lo hi t
  | lo, k :: ks, t :: ts, hi => P lo (some k) t ∧ Chain P (some k) ks ts hi
  | _, _, _, _ => False

/-- Children each to the left of its separator. -/
def ChainLeft (P : Option κ → Option κ → τ → Prop) : Option κ → List κ → List τ → Prop
  | _, [], [] => True
  | lo, k :: ks, t :: ts => P lo (some k) t ∧ ChainLeft P (some k) ks ts
  | _, _, _ => False

/-- Children each to the right of its separator. -/
def ChainRight (P : Option κ → Option κ → τ → Prop) : List κ → List τ → Option κ → Prop
  | [], ts, _ => ts = []
  | k :: ks, ts, hi => Chain P (some k) ks ts hi

variable {P Q : Option κ → Option κ → τ → Prop}

theorem chain_length : ∀ {ks : List κ} {ts : List τ} {lo hi : Option κ}, Chain P lo ks ts hi → ts.length = ks.length + 1
  | [], [_], _, _, _ => rfl
  | [], [], _, _, h => h.elim
  | [], _ :: _ :: _, _, _, h => h.elim
  | _ :: _, [], _, _, h => h.elim
  | _ :: _, _ :: _, _, _, h => by simp [chain_length h.2]

theorem chain_mono : ∀ {ks : List κ} {ts : List τ} {lo hi : Option κ}, (∀ lo hi t, t ∈ ts → P lo hi t → Q lo hi t) →
    Chain P lo ks ts hi → Chain Q lo ks ts hi
  | [], [_], _, _, h, hc => h _ _ _ (by simp) hc
  | [], [], _, _, _, hc => hc.elim
  | [], _ :: _ :: _, _, _, _, hc => hc.elim
  | _ :: _, [], _, _, _, hc => hc.elim
  | _ :: _, _ :: _, _, _, h, hc =>
    ⟨h _ _ _ (by simp) hc.1, chain_mono (fun lo hi t ht => h lo hi t (List.mem_cons_of_mem _ ht)) hc.2⟩

/-- A chain goes on where a left part of it ends. -/
theorem chain_left : ∀ {a ks : List κ} {ca ts : List τ} {lo hi : Option κ}, ca.length = a.length →
    (Chain P lo (a ++ ks) (ca ++ ts) hi ↔ ChainLeft P lo a ca ∧ Chain P (lastOr lo a) ks ts hi)
  | [], _, [], _, _, _, _ => by simp [ChainLeft]
  | [], _, _ :: _, _, _, _, h => by simp at h
  | _ :: _, _, [], _, _, _, h => by simp at h
  | k :: a, ks, t :: ca, ts, lo, hi, h => by
    simp only [List.cons_append, Chain, ChainLeft, lastOr]
    rw [chain_left (by simpa using h), and_assoc]

theorem chain_right : ∀ {m b : List κ} {ms cb : List τ} {lo hi : Option κ}, ms.length = m.length + 1 →
    (Chain P lo (m ++ b) (ms ++ cb) hi ↔ Chain P lo m ms (firstOr b hi) ∧ ChainRight P b cb hi)
  | _, _, [], _, _, _, h => by simp at h
  | [], _, _ :: _ :: _, _, _, _, h => by simp at h
  | [], [], [t], [], lo, hi, _ => by simp [Chain, ChainRight]
  | [], [], [t], _ :: _, lo, hi, _ => by simp [Chain, ChainRight]
  | [], k :: b, [t], cb, lo, hi, _ => by simp [Chain, ChainRight]
  | k :: m, b, t :: ms, cb, lo, hi, h => by
    simp only [List.cons_append, Chain]
    rw [chain_right (by simpa using h), and_assoc]

/-- A window of a chain: what stands before and after it stays when the window changes. -/
theorem chain_window {a m b : List κ} {ca ms cb : List τ} {lo hi : Option κ} (hl : ca.length = a.length)
    (hm : ms.length = m.length + 1) :
    Chain P lo (a ++ (m ++ b)) (ca ++ (ms ++ cb)) hi ↔
      ChainLeft P lo a ca ∧ Chain P (lastOr lo a) m ms (firstOr b hi) ∧ ChainRight P b cb hi := by
  rw [chain_left hl, chain_right hm]

theorem chain_hole {a b : List κ} {ca cb : List τ} {t : τ} {lo hi : Option κ} (hl : ca.length = a.length) :
    Chain P lo (a ++ b) (ca ++ t :: cb) hi ↔
      ChainLeft P lo a ca ∧ P (lastOr lo a) (firstOr b hi) t ∧ ChainRight P b cb hi :=
  (@chain_window _ _ _ _ [] _ _ [t]) hl rfl

theorem chain_pair {a b : List κ} {ca cb : List τ} {l r : τ} {k : κ} {lo hi : Option κ} (hl : ca.length = a.length) :
    Chain P lo (a ++ k :: b) (ca ++ l :: r :: cb) hi ↔
      ChainLeft P lo a ca ∧ (P (lastOr lo a) (some k) l ∧ P (some k) (firstOr b hi) r) ∧ ChainRight P b cb hi :=
  (@chain_window _ _ _ _ [k] _ _ [l, r]) hl rfl

/-- A chain cut at a separator. -/
theorem chain_cut {a b : List κ} {ca cb : List τ} {k : κ} {lo hi : Option κ} (hl : ca.length = a.length + 1) :
    Chain P lo (a ++ k :: b) (ca ++ cb) hi ↔ Chain P lo a ca (some k) ∧ Chain P (some k) b cb hi :=
  chain_right hl

theorem chainLeft_mem : ∀ {a : List κ} {ca : List τ} {lo : Option κ} {t : τ}, ChainLeft P lo a ca → t ∈ ca →
    ∃ lo', ∃ k ∈ a, (lo' = lo ∨ ∃ j ∈ a, lo' = some j) ∧ P lo' (some k) t
  | [], [], _, _, _, h => by simp at h
  | [], _ :: _, _, _, h, _ => h.elim
  | _ :: _, [], _, _, h, _ => h.elim
  | k :: a, t :: ca, lo, t', h, hm => by
    rcases List.mem_cons.mp hm with rfl | hm
    · exact ⟨lo, k, by simp, Or.inl rfl, h.1⟩
    · obtain ⟨lo', k', hk', hlo', hP⟩ := chainLeft_mem h.2 hm
      refine ⟨lo', k', by simp [hk'], Or.inr ?_, hP⟩
      rcases hlo' with rfl | ⟨j, hj, rfl⟩
      · exact ⟨k, by simp, rfl⟩
      · exact ⟨j, by simp [hj], rfl⟩

theorem chain_mem : ∀ {ks : List κ} {ts : List τ} {lo hi : Option κ} {t : τ}, Chain P lo ks ts hi → t ∈ ts →
    ∃ lo' hi', (lo' = lo ∨ ∃ j ∈ ks, lo' = some j) ∧ (hi' = hi ∨ ∃ j ∈ ks, hi' = some j) ∧ P lo' hi' t
  | [], [t], lo, hi, t', h, hm => by
    rw [List.mem_singleton.mp hm]
    exact ⟨lo, hi, Or.inl rfl, Or.inl rfl, h⟩
  | [], [], _, _, _, h, _ => h.elim
  | [], _ :: _ :: _, _, _, _, h, _ => h.elim
  | _ :: _, [], _, _, _, h, _ => h.elim
  | k :: ks, t :: ts, lo, hi, t', h, hm => by
    rcases List.mem_cons.mp hm with rfl | hm
    · exact ⟨lo, some k, Or.inl rfl, Or.inr ⟨k, by simp, rfl⟩, h.1⟩
    · obtain ⟨lo', hi', hlo', hhi', hP⟩ := chain_mem h.2 hm
      refine ⟨lo', hi', Or.inr ?_, ?_, hP⟩
      · rcases hlo' with rfl | ⟨j, hj, rfl⟩
        · exact ⟨k, by simp, rfl⟩
        · exact ⟨j, by simp [hj], rfl⟩
      · rcases hhi' with rfl | ⟨j, hj, rfl⟩
        · exact Or.inl rfl
        · exact Or.inr ⟨j, by simp [hj], rfl⟩

theorem exists_hole {a b : List κ} {ts : List τ} (hlen : ts.length = (a ++ b).length + 1) :
    ∃ ca t cb, ts = ca ++ t :: cb ∧ ca.length = a.length ∧ cb.length = b.length := by
  rw [List.length_append] at hlen
  rcases hd : ts.drop a.length with _ | ⟨t, cb⟩
  · have := congrArg List.length hd
    simp at this; omega
  · refine ⟨ts.take a.length, t, cb, by rw [← hd, List.take_append_drop], by rw [List.length_take]; omega, ?_⟩
    have := congrArg List.length hd
    simp only [List.length_drop, List.length_cons] at this
    omega

end

/-! ## Keys within bounds -/

section
variable {κ : Type} [LinearOrder κ]

/-- A row's key: at or above the lower bound, below the upper one. -/
def Within (lo hi : Option κ) (k : κ) : Prop := (∀ l, lo = some l → l ≤ k) ∧ ∀ u, hi = some u → k < u

/-- A separator: strictly between the bounds. -/
def Inside (lo hi : Option κ) (k : κ) : Prop := (∀ l, lo = some l → l < k) ∧ ∀ u, hi = some u → k < u

theorem within_none (k : κ) : Within none none k := ⟨by simp, by simp⟩

/-- Strictly sorted separators route every key to one child. -/
theorem route {ks : List κ} (hs : ks.Pairwise (· < ·)) (k : κ) :
    ∃ a b, ks = a ++ b ∧ (∀ x ∈ a, x ≤ k) ∧ ∀ x ∈ b, k < x := by
  induction ks with
  | nil => exact ⟨[], [], rfl, by simp, by simp⟩
  | cons x ks ih =>
    rw [List.pairwise_cons] at hs
    rcases le_or_gt x k with hle | hlt
    · obtain ⟨a, b, rfl, ha, hb⟩ := ih hs.2
      exact ⟨x :: a, b, rfl, by simpa using ⟨hle, ha⟩, hb⟩
    · exact ⟨[], x :: ks, rfl, by simp, by simpa using ⟨hlt, fun y hy => hlt.trans (hs.1 y hy)⟩⟩

theorem within_of_route {a b : List κ} {lo hi : Option κ} {k : κ} (ha : ∀ x ∈ a, x ≤ k) (hb : ∀ x ∈ b, k < x)
    (h : Within lo hi k) : Within (lastOr lo a) (firstOr b hi) k := by
  refine ⟨fun l hl => ?_, fun u hu => ?_⟩
  · rcases lastOr_eq lo a with ⟨rfl, he⟩ | ⟨a', x, rfl, he⟩
    · exact h.1 l hl
    · rw [he] at hl
      cases hl
      exact ha _ (by simp)
  · cases b with
    | nil => exact h.2 u hu
    | cons x b =>
      cases hu
      exact hb _ (by simp)

/-! ## Children with rows between the separators -/

variable {τ ρ : Type} {key : ρ → κ} {rows : τ → List ρ}

theorem chain_widen_hi : ∀ {ks : List κ} {ts : List τ} {lo hi : Option κ},
    Chain (fun lo hi t => ∀ r ∈ rows t, Within lo hi (key r)) lo ks ts hi →
    Chain (fun lo hi t => ∀ r ∈ rows t, Within lo hi (key r)) lo ks ts none
  | [], [_], _, _, h => fun r hr => ⟨(h r hr).1, by simp⟩
  | [], [], _, _, h => h.elim
  | [], _ :: _ :: _, _, _, h => h.elim
  | _ :: _, [], _, _, h => h.elim
  | _ :: _, _ :: _, _, _, h => ⟨h.1, chain_widen_hi h.2⟩

theorem chain_widen : ∀ {ks : List κ} {ts : List τ} {lo hi : Option κ},
    Chain (fun lo hi t => ∀ r ∈ rows t, Within lo hi (key r)) lo ks ts hi →
    Chain (fun lo hi t => ∀ r ∈ rows t, Within lo hi (key r)) none ks ts none
  | [], [_], _, _, _ => fun r _ => within_none (key r)
  | [], [], _, _, h => h.elim
  | [], _ :: _ :: _, _, _, h => h.elim
  | _ :: _, [], _, _, h => h.elim
  | _ :: _, _ :: _, _, _, h => ⟨fun r hr => ⟨by simp, (h.1 r hr).2⟩, chain_widen_hi h.2⟩

theorem chain_ge : ∀ {ks : List κ} {ts : List τ} {k : κ} {hi : Option κ}, (k :: ks).Pairwise (· < ·) →
    Chain (fun lo hi t => ∀ r ∈ rows t, Within lo hi (key r)) (some k) ks ts hi → ∀ t ∈ ts, ∀ r ∈ rows t, k ≤ key r := by
  intro ks ts k hi hs hc t ht r hr
  obtain ⟨lo', hi', hlo', -, hP⟩ := chain_mem hc ht
  rcases hlo' with rfl | ⟨j, hj, rfl⟩
  · exact (hP r hr).1 k rfl
  · exact ((List.pairwise_cons.mp hs).1 j hj).le.trans ((hP r hr).1 j rfl)

theorem chain_narrow : ∀ {ks : List κ} {ts : List τ} {lo hi lo' hi' : Option κ}, ks.Pairwise (· < ·) →
    Chain (fun lo hi t => ∀ r ∈ rows t, Within lo hi (key r)) lo ks ts hi →
    (∀ t ∈ ts, ∀ r ∈ rows t, Within lo' hi' (key r)) →
    Chain (fun lo hi t => ∀ r ∈ rows t, Within lo hi (key r)) lo' ks ts hi'
  | [], [t], _, _, _, _, _, _, hw => hw t (by simp)
  | [], [], _, _, _, _, _, h, _ => h.elim
  | [], _ :: _ :: _, _, _, _, _, _, h, _ => h.elim
  | _ :: _, [], _, _, _, _, _, h, _ => h.elim
  | k :: _, t :: ts, _, _, lo', hi', hs, h, hw => by
    refine ⟨fun r hr => ⟨(hw t (by simp) r hr).1, (h.1 r hr).2⟩, chain_narrow hs.tail h.2 fun t' ht' r hr => ?_⟩
    refine ⟨fun l hl => ?_, (hw t' (List.mem_cons_of_mem _ ht') r hr).2⟩
    cases hl
    exact chain_ge hs h.2 t' ht' r hr

/-- Rows of sorted children between sorted separators are sorted. -/
theorem chain_sorted : ∀ {ks : List κ} {ts : List τ} {lo hi : Option κ}, ks.Pairwise (· < ·) →
    Chain (fun lo hi t => ∀ r ∈ rows t, Within lo hi (key r)) lo ks ts hi →
    (∀ t ∈ ts, ((rows t).map key).Pairwise (· < ·)) → (ts.flatMap fun t => (rows t).map key).Pairwise (· < ·)
  | [], [t], _, _, _, _, hs => by simpa using hs t (by simp)
  | [], [], _, _, _, h, _ => h.elim
  | [], _ :: _ :: _, _, _, _, h, _ => h.elim
  | _ :: _, [], _, _, _, h, _ => h.elim
  | k :: ks, t :: ts, _, _, hks, h, hs => by
    rw [List.flatMap_cons, List.pairwise_append]
    refine ⟨hs t (by simp), chain_sorted hks.tail h.2 fun t' ht' => hs t' (List.mem_cons_of_mem _ ht'), ?_⟩
    intro x hx y hy
    obtain ⟨r, hr, rfl⟩ := List.mem_map.mp hx
    obtain ⟨t', ht', hy⟩ := List.mem_flatMap.mp hy
    obtain ⟨r', hr', rfl⟩ := List.mem_map.mp hy
    exact ((h.1 r hr).2 k rfl).trans_le (chain_ge hks h.2 t' ht' r' hr')

/-- What holds of the last of sorted separators holds of all, if it holds below as well. -/
theorem forall_of_lastOr {R : κ → Prop} (hR : ∀ x y, x ≤ y → R y → R x) {lo : Option κ} {a : List κ}
    (hs : a.Pairwise (· < ·)) (h : ∀ l, lastOr lo a = some l → R l) : ∀ x ∈ a, R x := by
  intro x hx
  rcases lastOr_eq lo a with ⟨rfl, -⟩ | ⟨a', y, rfl, he⟩
  · simp at hx
  · rcases List.mem_append.mp hx with hx | hx
    · exact hR x y ((List.pairwise_append.mp hs).2.2 x hx y (by simp)).le (h y he)
    · rw [List.mem_singleton.mp hx]
      exact h y he

theorem le_of_lastOr {lo : Option κ} {a : List κ} {k : κ} (hs : a.Pairwise (· < ·))
    (h : ∀ l, lastOr lo a = some l → l ≤ k) : ∀ x ∈ a, x ≤ k :=
  forall_of_lastOr (R := (· ≤ k)) (fun _ _ => le_trans) hs h

theorem lt_of_firstOr {b : List κ} {hi : Option κ} {k : κ} (hs : b.Pairwise (· < ·))
    (h : ∀ u, firstOr b hi = some u → k < u) : ∀ x ∈ b, k < x := by
  intro x hx
  cases b with
  | nil => simp at hx
  | cons y b =>
    rcases List.mem_cons.mp hx with rfl | hx
    · exact h x rfl
    · exact (h y rfl).trans ((List.pairwise_cons.mp hs).1 x hx)

variable {P : Option κ → Option κ → τ → Prop} (hP : ∀ lo hi t, P lo hi t → ∀ r ∈ rows t, Within lo hi (key r))
include hP

theorem chainLeft_lt {a : List κ} {ca : List τ} {lo : Option κ} {k : κ} (h : ChainLeft P lo a ca) (ha : ∀ x ∈ a, x ≤ k) :
    ∀ r ∈ ca.flatMap rows, key r < k := by
  intro r hr
  obtain ⟨t, ht, hr⟩ := List.mem_flatMap.mp hr
  obtain ⟨lo', j, hj, -, hPt⟩ := chainLeft_mem h ht
  exact ((hP _ _ _ hPt r hr).2 j rfl).trans_le (ha j hj)

theorem chainRight_gt {b : List κ} {cb : List τ} {hi : Option κ} {k : κ} (h : ChainRight P b cb hi) (hb : ∀ x ∈ b, k < x) :
    ∀ r ∈ cb.flatMap rows, k < key r := by
  intro r hr
  obtain ⟨t, ht, hr⟩ := List.mem_flatMap.mp hr
  cases b with
  | nil =>
    have hnil : cb = [] := h
    simp [hnil] at ht
  | cons x b =>
    obtain ⟨lo', hi', hlo', -, hPt⟩ := chain_mem h ht
    have hr' := (hP _ _ _ hPt r hr).1
    rcases hlo' with rfl | ⟨j, hj, rfl⟩
    · exact (hb x (by simp)).trans_le (hr' x rfl)
    · exact (hb j (by simp [hj])).trans_le (hr' j rfl)

end

/-! ## Trees -/

structure Leaf (ι ρ : Type) where
  id : ι
  rows : List ρ

structure Node (ι κ τ : Type) where
  id : ι
  keys : List κ
  kids : List τ

/-- A tree whose leaves are all at depth `h`. -/
def Tree (ι κ ρ : Type) : Nat → Type
  | 0 => Leaf ι ρ
  | h + 1 => Node ι κ (Tree ι κ ρ h)

namespace Tree

variable {ι κ ρ : Type} {h : Nat}

def leaf (id : ι) (rows : List ρ) : Tree ι κ ρ 0 := Leaf.mk id rows
def inner (id : ι) (keys : List κ) (kids : List (Tree ι κ ρ h)) : Tree ι κ ρ (h + 1) := Node.mk id keys kids

def leafId (t : Tree ι κ ρ 0) : ι := Leaf.id t
def leafRows (t : Tree ι κ ρ 0) : List ρ := Leaf.rows t
def nodeId (t : Tree ι κ ρ (h + 1)) : ι := Node.id t
def keys (t : Tree ι κ ρ (h + 1)) : List κ := Node.keys t
def kids (t : Tree ι κ ρ (h + 1)) : List (Tree ι κ ρ h) := Node.kids t

section
variable (id : ι) (rs : List ρ) (ks : List κ) (ts : List (Tree ι κ ρ h))
@[simp] theorem leafId_leaf : (leaf (κ := κ) id rs).leafId = id := rfl
@[simp] theorem leafRows_leaf : (leaf (κ := κ) id rs).leafRows = rs := rfl
@[simp] theorem nodeId_inner : (inner id ks ts).nodeId = id := rfl
@[simp] theorem keys_inner : (inner id ks ts).keys = ks := rfl
@[simp] theorem kids_inner : (inner id ks ts).kids = ts := rfl
end

@[elab_as_elim]
theorem casesZero {motive : Tree ι κ ρ 0 → Prop} (t : Tree ι κ ρ 0) (leaf : ∀ id rows, motive (.leaf id rows)) : motive t :=
  leaf t.leafId t.leafRows

@[elab_as_elim]
theorem casesSucc {motive : Tree ι κ ρ (h + 1) → Prop} (t : Tree ι κ ρ (h + 1))
    (inner : ∀ id keys kids, motive (.inner id keys kids)) : motive t :=
  inner t.nodeId t.keys t.kids

def rootId : {h : Nat} → Tree ι κ ρ h → ι
  | 0, t => t.leafId
  | _ + 1, t => t.nodeId

/-- The rows, left to right. -/
def rows : {h : Nat} → Tree ι κ ρ h → List ρ
  | 0, t => t.leafRows
  | _ + 1, t => t.kids.flatMap rows

/-- The leaves, left to right. -/
def leaves : {h : Nat} → Tree ι κ ρ h → List ι
  | 0, t => [t.leafId]
  | _ + 1, t => t.kids.flatMap leaves

/-- The leaves with their rows, left to right. -/
def cells : {h : Nat} → Tree ι κ ρ h → List (ι × List ρ)
  | 0, t => [(t.leafId, t.leafRows)]
  | _ + 1, t => t.kids.flatMap cells

/-- Every node. -/
def ids : {h : Nat} → Tree ι κ ρ h → List ι
  | 0, t => [t.leafId]
  | _ + 1, t => t.nodeId :: t.kids.flatMap ids

/-- `L` of every leaf, and `N` of every inner node, its separators and its children. -/
def All (L : ι → List ρ → Prop) (N : ι → List κ → List ι → Prop) : {h : Nat} → Tree ι κ ρ h → Prop
  | 0, t => L t.leafId t.leafRows
  | _ + 1, t => N t.nodeId t.keys (t.kids.map rootId) ∧ ∀ kid ∈ t.kids, All L N kid

/-- No leaf is empty. -/
def Nonempty {h : Nat} (t : Tree ι κ ρ h) : Prop := t.All (fun _ rows => rows ≠ []) (fun _ _ _ => True)

/-- No leaf below the root is empty. -/
def NonemptyBelow : {h : Nat} → Tree ι κ ρ h → Prop
  | 0, _ => True
  | _ + 1, t => ∀ kid ∈ t.kids, kid.Nonempty

section
variable (id : ι) (rs : List ρ) (ks : List κ) (ts : List (Tree ι κ ρ h))
@[simp] theorem rootId_leaf : (leaf (κ := κ) id rs).rootId = id := rfl
@[simp] theorem rows_leaf : (leaf (κ := κ) id rs).rows = rs := rfl
@[simp] theorem leaves_leaf : (leaf (κ := κ) id rs).leaves = [id] := rfl
@[simp] theorem cells_leaf : (leaf (κ := κ) id rs).cells = [(id, rs)] := rfl
@[simp] theorem ids_leaf : (leaf (κ := κ) id rs).ids = [id] := rfl
@[simp] theorem rootId_inner : (inner id ks ts).rootId = id := rfl
@[simp] theorem rows_inner : (inner id ks ts).rows = ts.flatMap rows := rfl
@[simp] theorem leaves_inner : (inner id ks ts).leaves = ts.flatMap leaves := rfl
@[simp] theorem cells_inner : (inner id ks ts).cells = ts.flatMap cells := rfl
@[simp] theorem ids_inner : (inner id ks ts).ids = id :: ts.flatMap ids := rfl
end

variable {L L' : ι → List ρ → Prop} {N N' : ι → List κ → List ι → Prop}

@[simp] theorem all_leaf {id : ι} {rs : List ρ} : (leaf id rs : Tree ι κ ρ 0).All L N ↔ L id rs := Iff.rfl

@[simp] theorem all_inner {id : ι} {ks : List κ} {ts : List (Tree ι κ ρ h)} :
    (inner id ks ts).All L N ↔ N id ks (ts.map rootId) ∧ ∀ kid ∈ ts, kid.All L N := Iff.rfl

@[simp] theorem nonemptyBelow_inner {id : ι} {ks : List κ} {ts : List (Tree ι κ ρ h)} :
    (inner id ks ts).NonemptyBelow ↔ ∀ kid ∈ ts, kid.Nonempty := Iff.rfl

theorem rootId_mem_ids : ∀ {h : Nat} (t : Tree ι κ ρ h), t.rootId ∈ t.ids
  | 0, t => t.casesZero fun _ _ => by simp
  | _ + 1, t => t.casesSucc fun _ _ _ => by simp

theorem leaves_sublist_ids : ∀ {h : Nat} (t : Tree ι κ ρ h), t.leaves.Sublist t.ids
  | 0, t => t.casesZero fun _ _ => by simp
  | h + 1, t => t.casesSucc fun id _ kids => by
    simp only [leaves_inner, ids_inner]
    refine List.Sublist.cons id ?_
    induction kids with
    | nil => simp
    | cons kid kids ih => simpa using List.Sublist.append (leaves_sublist_ids kid) ih

theorem mem_ids_kid {id : ι} {ks : List κ} {ts : List (Tree ι κ ρ h)} {kid : Tree ι κ ρ h} (hkid : kid ∈ ts) {i : ι}
    (hi : i ∈ kid.ids) : i ∈ (inner id ks ts).ids :=
  List.mem_cons_of_mem _ (List.mem_flatMap.mpr ⟨kid, hkid, hi⟩)

theorem mem_rows_kid {id : ι} {ks : List κ} {ts : List (Tree ι κ ρ h)} {kid : Tree ι κ ρ h} (hkid : kid ∈ ts) {r : ρ}
    (hr : r ∈ kid.rows) : r ∈ (inner id ks ts).rows :=
  List.mem_flatMap.mpr ⟨kid, hkid, hr⟩

/-- A page-wise property is about the nodes of the tree only. -/
theorem All.imp : ∀ {h : Nat} {t : Tree ι κ ρ h}, (∀ id rs, id ∈ t.ids → L id rs → L' id rs) →
    (∀ id ks cs, id ∈ t.ids → N id ks cs → N' id ks cs) → t.All L N → t.All L' N'
  | 0, t => t.casesZero fun _ _ hL _ h => hL _ _ (by simp) h
  | h + 1, t => t.casesSucc fun id ks ts hL hN ht => by
    rw [all_inner] at ht ⊢
    exact ⟨hN _ _ _ (by simp) ht.1, fun kid hkid => (ht.2 kid hkid).imp
      (fun i rs hi => hL i rs (mem_ids_kid hkid hi)) fun i k c hi => hN i k c (mem_ids_kid hkid hi)⟩

theorem All.and : ∀ {h : Nat} {t : Tree ι κ ρ h}, t.All L N → t.All L' N' →
    t.All (fun id rs => L id rs ∧ L' id rs) (fun id ks cs => N id ks cs ∧ N' id ks cs)
  | 0, t => t.casesZero fun _ _ ht ht' => ⟨ht, ht'⟩
  | h + 1, t => t.casesSucc fun _ _ _ ht ht' => by
    rw [all_inner] at ht ht' ⊢
    exact ⟨⟨ht.1, ht'.1⟩, fun kid hkid => (ht.2 kid hkid).and (ht'.2 kid hkid)⟩

theorem map_cells : ∀ {h : Nat} (t : Tree ι κ ρ h), t.cells.map Prod.fst = t.leaves
  | 0, t => t.casesZero fun _ _ => rfl
  | h + 1, t => t.casesSucc fun _ _ kids => by
    simp only [cells_inner, leaves_inner, List.map_flatMap, map_cells]

theorem flatMap_cells : ∀ {h : Nat} (t : Tree ι κ ρ h), t.cells.flatMap Prod.snd = t.rows
  | 0, t => t.casesZero fun _ _ => by simp
  | h + 1, t => t.casesSucc fun _ _ kids => by
    simp only [cells_inner, rows_inner, List.flatMap_assoc, flatMap_cells]

theorem flatMap_cells_kids (kids : List (Tree ι κ ρ h)) : (kids.flatMap cells).flatMap Prod.snd = kids.flatMap rows := by
  rw [List.flatMap_assoc]
  simp only [flatMap_cells]

theorem All.cells : ∀ {h : Nat} {t : Tree ι κ ρ h}, t.All L N → ∀ c ∈ t.cells, L c.1 c.2
  | 0, t => t.casesZero fun _ _ ht c hc => by
    rw [cells_leaf, List.mem_singleton] at hc
    rw [hc]; exact ht
  | h + 1, t => t.casesSucc fun _ _ _ ht c hc => by
    rw [all_inner] at ht
    obtain ⟨kid, hkid, hc⟩ := List.mem_flatMap.mp hc
    exact (ht.2 kid hkid).cells c hc

theorem Nonempty.below : ∀ {h : Nat} {t : Tree ι κ ρ h}, t.Nonempty → t.NonemptyBelow
  | 0, _, _ => trivial
  | _ + 1, t, ht => by
    revert ht
    exact t.casesSucc fun _ _ _ ht => ht.2

end Tree

/-! ## Contexts -/

/-- A tree of height `H` with a hole for a tree of height `h`: at each level the node above,
    its separators and its other children on the two sides of the hole. -/
inductive Ctx (ι κ ρ : Type) (H : Nat) : Nat → Type where
  | top : Ctx ι κ ρ H H
  | down {h : Nat} (up : Ctx ι κ ρ H (h + 1)) (id : ι) (a b : List κ) (ca cb : List (Tree ι κ ρ h))
      (aligned : ca.length = a.length) : Ctx ι κ ρ H h

namespace Ctx

open SearchTree.Tree

variable {ι κ ρ : Type} {H : Nat}

def plug : {h : Nat} → Ctx ι κ ρ H h → Tree ι κ ρ h → Tree ι κ ρ H
  | _, .top, t => t
  | _, .down up id a b ca cb _, t => up.plug (.inner id (a ++ b) (ca ++ t :: cb))

/-- The nodes above the hole, from below. -/
def path : {h : Nat} → Ctx ι κ ρ H h → List ι
  | _, .top => []
  | _, .down up id _ _ _ _ _ => id :: up.path

def ids : {h : Nat} → Ctx ι κ ρ H h → List ι
  | _, .top => []
  | _, .down up id _ _ ca cb _ => id :: (ca.flatMap Tree.ids ++ cb.flatMap Tree.ids) ++ up.ids

/-- The leaves left of the hole. -/
def cellsBefore : {h : Nat} → Ctx ι κ ρ H h → List (ι × List ρ)
  | _, .top => []
  | _, .down up _ _ _ ca _ _ => up.cellsBefore ++ ca.flatMap Tree.cells

/-- The leaves right of the hole. -/
def cellsAfter : {h : Nat} → Ctx ι κ ρ H h → List (ι × List ρ)
  | _, .top => []
  | _, .down up _ _ _ _ cb _ => cb.flatMap Tree.cells ++ up.cellsAfter

/-- The root, given the one at the hole. -/
def rootOr : {h : Nat} → Ctx ι κ ρ H h → ι → ι
  | _, .top, id => id
  | _, .down up id _ _ _ _ _, _ => up.rootOr id

/-- What `Tree.All` says outside the hole, given the root at the hole. -/
def All (L : ι → List ρ → Prop) (N : ι → List κ → List ι → Prop) : {h : Nat} → Ctx ι κ ρ H h → ι → Prop
  | _, .top, _ => True
  | _, .down up id a b ca cb _, hole => N id (a ++ b) (ca.map rootId ++ hole :: cb.map rootId) ∧
      (∀ kid ∈ ca, kid.All L N) ∧ (∀ kid ∈ cb, kid.All L N) ∧ up.All L N id

theorem cells_plug : ∀ {h : Nat} (c : Ctx ι κ ρ H h) (t : Tree ι κ ρ h),
    (c.plug t).cells = c.cellsBefore ++ (t.cells ++ c.cellsAfter)
  | _, .top, t => by simp [plug, cellsBefore, cellsAfter]
  | _, .down up id a b ca cb _, t => by
    rw [plug, cells_plug up]
    simp [cellsBefore, cellsAfter]

theorem rootId_plug : ∀ {h : Nat} (c : Ctx ι κ ρ H h) (t : Tree ι κ ρ h), (c.plug t).rootId = c.rootOr t.rootId
  | _, .top, _ => rfl
  | _, .down up _ _ _ _ _ _, _ => by rw [plug, rootId_plug up]; rfl

theorem ids_plug : ∀ {h : Nat} (c : Ctx ι κ ρ H h) (t : Tree ι κ ρ h), (c.plug t).ids.Perm (c.ids ++ t.ids)
  | _, .top, t => by simp [plug, ids]
  | _, .down up id a b ca cb _, t => by
    refine (ids_plug up _).trans ?_
    simp only [ids_inner, List.flatMap_append, List.flatMap_cons, ids, List.cons_append, List.append_assoc]
    refine List.perm_append_comm.trans ?_
    simp only [List.cons_append, List.append_assoc, List.perm_cons]
    refine List.Perm.append_left _ ?_
    refine List.perm_append_comm.trans ?_
    simp only [List.append_assoc]
    exact List.Perm.refl _

theorem path_sublist : ∀ {h : Nat} (c : Ctx ι κ ρ H h), c.path.Sublist c.ids
  | _, .top => List.Sublist.refl _
  | _, .down up _ _ _ _ _ _ => ((path_sublist up).trans (List.sublist_append_right _ _)).cons_cons _

theorem height_le : ∀ {h : Nat}, Ctx ι κ ρ H h → h ≤ H
  | _, .top => Nat.le_refl _
  | _, .down up _ _ _ _ _ _ => Nat.le_of_succ_le (height_le up)

theorem eq_top : ∀ c : Ctx ι κ ρ H H, c = .top
  | .top => rfl
  | .down up _ _ _ _ _ _ => absurd (height_le up) (Nat.not_succ_le_self H)

theorem path_ne_nil {h : Nat} (c : Ctx ι κ ρ H h) (hh : h ≠ H) : c.path ≠ [] := by
  cases c with
  | top => exact absurd rfl hh
  | down up id a b ca cb aligned => exact List.cons_ne_nil _ _

/-- The leaves beside the hole. -/
theorem leaves_subset : ∀ {h : Nat} (c : Ctx ι κ ρ H h) {x : ι},
    x ∈ c.cellsBefore.map Prod.fst ++ c.cellsAfter.map Prod.fst → x ∈ c.ids
  | _, .top, _, hx => by simp [cellsBefore, cellsAfter] at hx
  | h, .down up id a b ca cb aligned, x, hx => by
    have hkids : ∀ kids : List (Tree ι κ ρ h), x ∈ (kids.flatMap cells).map Prod.fst → x ∈ kids.flatMap Tree.ids := by
      intro kids hx
      rw [List.map_flatMap] at hx
      obtain ⟨kid, hkid, hx⟩ := List.mem_flatMap.mp hx
      rw [map_cells] at hx
      exact List.mem_flatMap.mpr ⟨kid, hkid, (leaves_sublist_ids kid).subset hx⟩
    have hup := leaves_subset up (x := x)
    simp only [cellsBefore, cellsAfter, List.map_append, List.mem_append] at hx hup
    simp only [ids, List.mem_cons, List.mem_append]
    rcases hx with (hx | hx) | hx | hx
    · exact Or.inr (hup (Or.inl hx))
    · exact Or.inl (Or.inr (Or.inl (hkids ca hx)))
    · exact Or.inl (Or.inr (Or.inr (hkids cb hx)))
    · exact Or.inr (hup (Or.inr hx))

theorem length_path : ∀ {h : Nat} (c : Ctx ι κ ρ H h), c.path.length + h = H
  | _, .top => Nat.zero_add _
  | h, .down up id _ _ _ _ _ => by
    have := length_path up
    simp only [path, List.length_cons]
    omega

theorem rootOr_of_path_nil {h : Nat} {c : Ctx ι κ ρ H h} {x : ι} (hc : c.path = []) : c.rootOr x = x := by
  cases c with
  | top => rfl
  | down up id a b ca cb aligned => exact absurd hc (List.cons_ne_nil _ _)

theorem rootOr_mem_path : ∀ {h : Nat} {c : Ctx ι κ ρ H h} {x : ι}, c.path ≠ [] → c.rootOr x ∈ c.path
  | _, .top, _, hc => absurd rfl hc
  | _, .down up id _ _ _ _ _, _, _ => by
    show up.rootOr id ∈ id :: up.path
    cases up with
    | top => exact List.mem_cons_self
    | down => exact List.mem_cons_of_mem _ (rootOr_mem_path (by simp [path]))

section
variable {h : Nat} {up : Ctx ι κ ρ H (h + 1)} {id : ι} {a b : List κ} {ca cb : List (Tree ι κ ρ h)}
  {aligned : ca.length = a.length} {kid : Tree ι κ ρ h} {i : ι}

theorem mem_ids_left (hkid : kid ∈ ca) (hi : i ∈ kid.ids) : i ∈ (down up id a b ca cb aligned).ids := by
  simp only [ids, List.cons_append, List.mem_cons, List.mem_append, List.mem_flatMap]
  exact Or.inr (Or.inl (Or.inl ⟨kid, hkid, hi⟩))

theorem mem_ids_right (hkid : kid ∈ cb) (hi : i ∈ kid.ids) : i ∈ (down up id a b ca cb aligned).ids := by
  simp only [ids, List.cons_append, List.mem_cons, List.mem_append, List.mem_flatMap]
  exact Or.inr (Or.inl (Or.inr ⟨kid, hkid, hi⟩))

theorem mem_ids_up (hi : i ∈ up.ids) : i ∈ (down up id a b ca cb aligned).ids := List.mem_append_right _ hi

end

section
variable {L L' : ι → List ρ → Prop} {N N' : ι → List κ → List ι → Prop}

theorem all_plug : ∀ {h : Nat} (c : Ctx ι κ ρ H h) (t : Tree ι κ ρ h),
    (c.plug t).All L N ↔ c.All L N t.rootId ∧ t.All L N
  | _, .top, t => by simp [plug, All]
  | _, .down up id a b ca cb _, t => by
    rw [plug, all_plug up]
    simp only [all_inner, rootId_inner, All, List.map_append, List.map_cons, List.mem_append, List.mem_cons]
    constructor
    · rintro ⟨h1, h2, h3⟩
      exact ⟨⟨h2, fun k hk => h3 k (Or.inl hk), fun k hk => h3 k (Or.inr (Or.inr hk)), h1⟩, h3 t (Or.inr (Or.inl rfl))⟩
    · rintro ⟨⟨h2, h3, h4, h1⟩, h5⟩
      refine ⟨h1, h2, fun k hk => ?_⟩
      rcases hk with hk | rfl | hk
      · exact h3 k hk
      · exact h5
      · exact h4 k hk

theorem All.imp : ∀ {h : Nat} {c : Ctx ι κ ρ H h} {hole : ι}, (∀ id rs, id ∈ c.ids → L id rs → L' id rs) →
    (∀ id ks cs, id ∈ c.ids → N id ks cs → N' id ks cs) → c.All L N hole → c.All L' N' hole
  | _, .top, _, _, _, _ => trivial
  | _, .down up id a b ca cb _, hole, hL, hN, hc => by
    obtain ⟨h1, h2, h3, h4⟩ := hc
    refine ⟨hN _ _ _ (by simp [ids]) h1, fun kid hkid => ?_, fun kid hkid => ?_, ?_⟩
    · exact (h2 kid hkid).imp (fun i rs hi => hL i rs (mem_ids_left hkid hi))
        fun i k cs hi => hN i k cs (mem_ids_left hkid hi)
    · exact (h3 kid hkid).imp (fun i rs hi => hL i rs (mem_ids_right hkid hi))
        fun i k cs hi => hN i k cs (mem_ids_right hkid hi)
    · exact h4.imp (fun i rs hi => hL i rs (mem_ids_up hi)) fun i k cs hi => hN i k cs (mem_ids_up hi)

end

end Ctx

/-! ## Order -/

section
variable {ι κ ρ : Type} [LinearOrder κ] (key : ρ → κ)

/-- Rows between the separators around their child, and strictly increasing in a leaf. -/
def Tree.RowBounds : {h : Nat} → Tree ι κ ρ h → Prop
  | 0, t => (t.leafRows.map key).Pairwise (· < ·)
  | _ + 1, t => t.keys.Pairwise (· < ·) ∧
      Chain (fun lo hi kid => ∀ r ∈ kid.rows, Within lo hi (key r)) none t.keys t.kids none ∧
      ∀ kid ∈ t.kids, Tree.RowBounds kid

/-- Rows and separators within the bounds. -/
def Tree.Ordered : {h : Nat} → Option κ → Option κ → Tree ι κ ρ h → Prop
  | 0, lo, hi, t => (t.leafRows.map key).Pairwise (· < ·) ∧ ∀ r ∈ t.leafRows, Within lo hi (key r)
  | _ + 1, lo, hi, t => t.keys.Pairwise (· < ·) ∧ (∀ k ∈ t.keys, Inside lo hi k) ∧
      Chain Tree.Ordered lo t.keys t.kids hi

namespace Ctx

variable {H : Nat}

/-- The bounds at the hole. -/
def lo (lo₀ : Option κ) : {h : Nat} → Ctx ι κ ρ H h → Option κ
  | _, .top => lo₀
  | _, .down up _ a _ _ _ _ => lastOr (up.lo lo₀) a

def hi (hi₀ : Option κ) : {h : Nat} → Ctx ι κ ρ H h → Option κ
  | _, .top => hi₀
  | _, .down up _ _ b _ _ _ => firstOr b (up.hi hi₀)

/-- What `Tree.Ordered` says outside the hole. -/
def Ordered (lo₀ hi₀ : Option κ) : {h : Nat} → Ctx ι κ ρ H h → Prop
  | _, .top => True
  | _, .down up _ a b ca cb _ => up.Ordered lo₀ hi₀ ∧ (a ++ b).Pairwise (· < ·) ∧
      (∀ k ∈ a ++ b, Inside (up.lo lo₀) (up.hi hi₀) k) ∧
      ChainLeft (Tree.Ordered key) (up.lo lo₀) a ca ∧ ChainRight (Tree.Ordered key) b cb (up.hi hi₀)

end Ctx

variable {key} {h : Nat}

theorem within_of_inside {ks : List κ} {lo hi lo' hi' : Option κ} {k : κ} (hin : ∀ x ∈ ks, Inside lo hi x)
    (hlo : lo' = lo ∨ ∃ j ∈ ks, lo' = some j) (hhi : hi' = hi ∨ ∃ j ∈ ks, hi' = some j) (h : Within lo' hi' k) :
    Within lo hi k := by
  refine ⟨fun l hl => ?_, fun u hu => ?_⟩
  · rcases hlo with rfl | ⟨j, hj, rfl⟩
    · exact h.1 l hl
    · exact ((hin j hj).1 l hl).le.trans (h.1 j rfl)
  · rcases hhi with rfl | ⟨j, hj, rfl⟩
    · exact h.2 u hu
    · exact (h.2 j rfl).trans ((hin j hj).2 u hu)

namespace Tree

theorem ordered_leaf {lo hi : Option κ} {id : ι} {rs : List ρ} :
    (leaf id rs : Tree ι κ ρ 0).Ordered key lo hi ↔ (rs.map key).Pairwise (· < ·) ∧ ∀ r ∈ rs, Within lo hi (key r) := Iff.rfl

theorem ordered_inner {lo hi : Option κ} {id : ι} {ks : List κ} {ts : List (Tree ι κ ρ h)} :
    (inner id ks ts).Ordered key lo hi ↔
      ks.Pairwise (· < ·) ∧ (∀ k ∈ ks, Inside lo hi k) ∧ Chain (Tree.Ordered key) lo ks ts hi := Iff.rfl

theorem rowBounds_inner {id : ι} {ks : List κ} {ts : List (Tree ι κ ρ h)} :
    (inner id ks ts).RowBounds key ↔ ks.Pairwise (· < ·) ∧
      Chain (fun lo hi kid => ∀ r ∈ kid.rows, Within lo hi (key r)) none ks ts none ∧
      ∀ kid ∈ ts, kid.RowBounds key := Iff.rfl

theorem Ordered.within : ∀ {h : Nat} {t : Tree ι κ ρ h} {lo hi : Option κ}, t.Ordered key lo hi →
    ∀ r ∈ t.rows, Within lo hi (key r)
  | 0, t, _, _ => t.casesZero fun _ _ ht => (ordered_leaf.mp ht).2
  | h + 1, t, _, _ => t.casesSucc fun _ ks kids ht r hr => by
    rw [ordered_inner] at ht
    obtain ⟨kid, hkid, hr⟩ := List.mem_flatMap.mp hr
    obtain ⟨lo', hi', hlo', hhi', hP⟩ := chain_mem ht.2.2 hkid
    exact within_of_inside ht.2.1 hlo' hhi' (Ordered.within hP r hr)

theorem Ordered.rowBounds : ∀ {h : Nat} {t : Tree ι κ ρ h} {lo hi : Option κ}, t.Ordered key lo hi → t.RowBounds key
  | 0, t, _, _ => t.casesZero fun _ _ ht => (ordered_leaf.mp ht).1
  | h + 1, t, _, _ => t.casesSucc fun _ ks kids ht => by
    rw [ordered_inner] at ht
    refine rowBounds_inner.mpr ⟨ht.1, chain_widen (chain_mono (fun lo hi kid _ hP => Ordered.within hP) ht.2.2), ?_⟩
    intro kid hkid
    obtain ⟨_, _, _, _, hP⟩ := chain_mem ht.2.2 hkid
    exact Ordered.rowBounds hP

/-- A node cut at a separator. -/
theorem Ordered.cut {id id₁ id₂ : ι} {v₁ v₂ : List κ} {k : κ} {kids₁ kids₂ : List (Tree ι κ ρ h)} {lo hi : Option κ}
    (ht : (inner id (v₁ ++ k :: v₂) (kids₁ ++ kids₂)).Ordered key lo hi) (hlen : kids₁.length = v₁.length + 1) :
    (inner id₁ v₁ kids₁).Ordered key lo (some k) ∧ (inner id₂ v₂ kids₂).Ordered key (some k) hi ∧ Inside lo hi k := by
  obtain ⟨hs, hin, hc⟩ := ordered_inner.mp ht
  obtain ⟨hs₁, hs₂, hlt⟩ := List.pairwise_append.mp hs
  obtain ⟨hgt, hs₂⟩ := List.pairwise_cons.mp hs₂
  obtain ⟨hc₁, hc₂⟩ := (chain_cut hlen).mp hc
  refine ⟨ordered_inner.mpr ⟨hs₁, fun x hx => ⟨(hin x (by simp [hx])).1, fun u hu => ?_⟩, hc₁⟩,
    ordered_inner.mpr ⟨hs₂, fun x hx => ⟨fun l hl => ?_, (hin x (by simp [hx])).2⟩, hc₂⟩, hin k (by simp)⟩
  · cases hu
    exact hlt x hx k (by simp)
  · cases hl
    exact hgt x hx

/-- The rows of a tree come in strictly increasing order of their keys. -/
theorem RowBounds.sorted : ∀ {h : Nat} {t : Tree ι κ ρ h}, t.RowBounds key → (t.rows.map key).Pairwise (· < ·)
  | 0, t => t.casesZero fun _ _ ht => ht
  | h + 1, t => t.casesSucc fun _ ks kids ht => by
    rw [rowBounds_inner] at ht
    rw [rows_inner, List.map_flatMap]
    exact chain_sorted ht.1 ht.2.1 fun kid hkid => RowBounds.sorted (ht.2.2 kid hkid)

/-- A key belongs to one child: the rows before that child are below the key, those after
    it above. -/
theorem RowBounds.route {id : ι} {ks : List κ} {ts : List (Tree ι κ ρ h)} (ht : (inner id ks ts).RowBounds key) (k : κ) :
    ∃ a b ca kid cb, ks = a ++ b ∧ ts = ca ++ kid :: cb ∧ ca.length = a.length ∧ (∀ x ∈ a, x ≤ k) ∧ (∀ x ∈ b, k < x) ∧
      (∀ r ∈ ca.flatMap rows, key r < k) ∧ ∀ r ∈ cb.flatMap rows, k < key r := by
  obtain ⟨hs, hc, -⟩ := rowBounds_inner.mp ht
  obtain ⟨a, b, rfl, ha, hb⟩ := SearchTree.route hs k
  obtain ⟨ca, kid, cb, rfl, hca, -⟩ := exists_hole (a := a) (b := b) (chain_length hc)
  obtain ⟨hleft, -, hright⟩ := (chain_hole hca).mp hc
  exact ⟨a, b, ca, kid, cb, rfl, rfl, hca, ha, hb, chainLeft_lt (fun _ _ _ h => h) hleft ha,
    chainRight_gt (fun _ _ _ h => h) hright hb⟩

theorem Nonempty.rows_ne_nil : ∀ {h : Nat} {t : Tree ι κ ρ h}, t.Nonempty → t.RowBounds key → t.rows ≠ []
  | 0, t => t.casesZero fun _ _ ht _ => ht
  | h + 1, t => t.casesSucc fun _ _ kids ht hb => by
    rw [rowBounds_inner] at hb
    rcases kids with _ | ⟨kid, kids⟩
    · have := chain_length hb.2.1
      simp at this
    · have := Nonempty.rows_ne_nil ((all_inner.mp ht).2 kid (by simp)) (hb.2.2 kid (by simp))
      simp [this]

/-- Separators stand between rows, so without empty leaves they are within the bounds
    that the rows are within. -/
theorem ordered_of_rowBounds : ∀ {h : Nat} {t : Tree ι κ ρ h} {lo hi : Option κ}, t.RowBounds key → t.NonemptyBelow →
    (∀ r ∈ t.rows, Within lo hi (key r)) → t.Ordered key lo hi
  | 0, t, _, _ => t.casesZero fun _ _ ht _ hw => ⟨ht, hw⟩
  | h + 1, t, lo, hi => t.casesSucc fun id ks kids ht hne hw => by
    rw [rowBounds_inner] at ht
    rw [nonemptyBelow_inner] at hne
    have hbound : Chain (fun lo hi (kid : Tree ι κ ρ h) => ∀ r ∈ kid.rows, Within lo hi (key r)) lo ks kids hi :=
      chain_narrow ht.1 ht.2.1 fun kid hkid r hr => hw r (mem_rows_kid hkid hr)
    have hrow : ∀ kid ∈ kids, ∃ r, r ∈ kid.rows := fun kid hkid =>
      List.exists_mem_of_ne_nil _ ((hne kid hkid).rows_ne_nil (ht.2.2 kid hkid))
    refine ordered_inner.mpr ⟨ht.1, fun k hk => ?_, ?_⟩
    · obtain ⟨a, b, rfl⟩ := List.append_of_mem hk
      obtain ⟨ca, l, cb, rfl, hca, hcb⟩ := exists_hole (a := a) (b := k :: b) (chain_length hbound)
      rcases cb with _ | ⟨r, cb⟩
      · simp at hcb
      obtain ⟨-, ⟨hl, hr⟩, -⟩ := (chain_pair hca).mp hbound
      obtain ⟨x, hx⟩ := hrow l (by simp)
      obtain ⟨y, hy⟩ := hrow r (by simp)
      have hxlo := (hw x (mem_rows_kid (by simp) hx)).1
      have hyhi := (hw y (mem_rows_kid (by simp) hy)).2
      exact ⟨fun lb hlb => (hxlo lb hlb).trans_lt ((hl x hx).2 k rfl),
        fun ub hub => ((hr y hy).1 k rfl).trans_lt (hyhi ub hub)⟩
    · exact chain_mono (fun lo' hi' kid hkid hP =>
        ordered_of_rowBounds (ht.2.2 kid hkid) (hne kid hkid).below hP) hbound

end Tree

namespace Ctx

open SearchTree.Tree

variable {H : Nat} {lo₀ hi₀ : Option κ}

theorem ordered_plug : ∀ {h : Nat} (c : Ctx ι κ ρ H h) (t : Tree ι κ ρ h),
    (c.plug t).Ordered key lo₀ hi₀ ↔ c.Ordered key lo₀ hi₀ ∧ t.Ordered key (c.lo lo₀) (c.hi hi₀)
  | _, .top, t => by simp [plug, Ordered, lo, hi]
  | _, .down up id a b ca cb aligned, t => by
    rw [plug, ordered_plug up, ordered_inner, chain_hole aligned]
    simp only [Ordered, lo, hi]
    constructor
    · rintro ⟨h1, h2, h3, h4, h5, h6⟩
      exact ⟨⟨h1, h2, h3, h4, h6⟩, h5⟩
    · rintro ⟨⟨h1, h2, h3, h4, h6⟩, h5⟩
      exact ⟨h1, h2, h3, h4, h5, h6⟩

/-- Two subtrees in order at the hole, with the separator between them, make one node. -/
theorem ordered_pair {h : Nat} {up : Ctx ι κ ρ H (h + 1)} {id : ι} {a b : List κ} {ca cb : List (Tree ι κ ρ h)}
    {aligned : ca.length = a.length} {l r : Tree ι κ ρ h} {sep : κ}
    (hc : (down up id a b ca cb aligned).Ordered key lo₀ hi₀)
    (hsep : Inside ((down up id a b ca cb aligned).lo lo₀) ((down up id a b ca cb aligned).hi hi₀) sep)
    (hl : l.Ordered key ((down up id a b ca cb aligned).lo lo₀) (some sep))
    (hr : r.Ordered key (some sep) ((down up id a b ca cb aligned).hi hi₀)) :
    (∀ x ∈ a, x < sep) ∧ (∀ x ∈ b, sep < x) ∧
      (inner id (a ++ sep :: b) (ca ++ l :: r :: cb)).Ordered key (up.lo lo₀) (up.hi hi₀) := by
  obtain ⟨-, hs, hin, hleft, hright⟩ := hc
  obtain ⟨hsa, hsb, hab⟩ := List.pairwise_append.mp hs
  have ha : ∀ x ∈ a, x < sep := forall_of_lastOr (R := (· < sep)) (fun _ _ => lt_of_le_of_lt) hsa hsep.1
  have hb : ∀ x ∈ b, sep < x := lt_of_firstOr hsb hsep.2
  refine ⟨ha, hb, ordered_inner.mpr ⟨?_, ?_, (chain_pair aligned).mpr ⟨hleft, ⟨hl, hr⟩, hright⟩⟩⟩
  · refine List.pairwise_append.mpr ⟨hsa, List.pairwise_cons.mpr ⟨hb, hsb⟩, fun x hx y hy => ?_⟩
    rcases List.mem_cons.mp hy with rfl | hy
    · exact ha x hx
    · exact hab x hx y hy
  · intro x hx
    rcases List.mem_append.mp hx with hx | hx
    · exact hin x (List.mem_append_left _ hx)
    · rcases List.mem_cons.mp hx with rfl | hx
      · refine ⟨fun lb hlb => ?_, fun ub hub => ?_⟩
        · rcases lastOr_eq (up.lo lo₀) a with ⟨rfl, he⟩ | ⟨a', y, rfl, he⟩
          · exact hsep.1 lb hlb
          · exact ((hin y (by simp)).1 lb hlb).trans (ha y (by simp))
        · cases b with
          | nil => exact hsep.2 ub hub
          | cons y b => exact (hb y (by simp)).trans ((hin y (by simp)).2 ub hub)
      · exact hin x (List.mem_append_right _ hx)

theorem Ordered.within_up {h : Nat} {up : Ctx ι κ ρ H (h + 1)} {id : ι} {a b : List κ} {ca cb : List (Tree ι κ ρ h)}
    {aligned : ca.length = a.length} {k : κ} (hc : (down up id a b ca cb aligned).Ordered key lo₀ hi₀)
    (hk : Within ((down up id a b ca cb aligned).lo lo₀) ((down up id a b ca cb aligned).hi hi₀) k) :
    Within (up.lo lo₀) (up.hi hi₀) k := by
  refine within_of_inside hc.2.2.1 ?_ ?_ hk
  · rcases lastOr_eq (up.lo lo₀) a with ⟨rfl, he⟩ | ⟨a', x, rfl, he⟩
    · exact Or.inl he
    · exact Or.inr ⟨x, by simp, he⟩
  · cases b with
    | nil => exact Or.inl rfl
    | cons x b => exact Or.inr ⟨x, by simp, rfl⟩

/-- A key within the bounds at the hole is above the rows before the hole and below those
    after it. -/
theorem Ordered.rows : ∀ {h : Nat} {c : Ctx ι κ ρ H h} {k : κ}, c.Ordered key lo₀ hi₀ →
    Within (c.lo lo₀) (c.hi hi₀) k →
    (∀ r ∈ c.cellsBefore.flatMap Prod.snd, key r < k) ∧ ∀ r ∈ c.cellsAfter.flatMap Prod.snd, k < key r
  | _, .top, _, _, _ => ⟨by simp [cellsBefore], by simp [cellsAfter]⟩
  | _, .down up id a b ca cb _, k, hc, hk => by
    obtain ⟨hbefore, hafter⟩ := Ordered.rows hc.1 (hc.within_up hk)
    obtain ⟨-, hsorted, -, hleft, hright⟩ := hc
    obtain ⟨hsa, hsb, -⟩ := List.pairwise_append.mp hsorted
    simp only [cellsBefore, cellsAfter, List.flatMap_append, flatMap_cells_kids]
    refine ⟨fun r hr => ?_, fun r hr => ?_⟩
    · exact (List.mem_append.mp hr).elim (hbefore r)
        (chainLeft_lt (fun _ _ _ h => h.within) hleft (le_of_lastOr hsa hk.1) r)
    · exact (List.mem_append.mp hr).elim
        (chainRight_gt (fun _ _ _ h => h.within) hright (lt_of_firstOr hsb hk.2) r) (hafter r)

end Ctx

end

/-! ## Joining neighbours -/

section
variable {ι κ ρ : Type} {h : Nat}

/-- Two neighbours and the separator between them as one node, under the left one's identity. -/
def Tree.join : {h : Nat} → Tree ι κ ρ h → κ → Tree ι κ ρ h → Tree ι κ ρ h
  | 0, l, _, r => .leaf l.leafId (l.leafRows ++ r.leafRows)
  | _ + 1, l, sep, r => .inner l.nodeId (l.keys ++ sep :: r.keys) (l.kids ++ r.kids)

namespace Tree

theorem join_leaf (id id' : ι) (rs rs' : List ρ) (sep : κ) :
    (leaf id rs).join sep (leaf id' rs') = (leaf id (rs ++ rs') : Tree ι κ ρ 0) := rfl

theorem join_inner (id id' : ι) (ks ks' : List κ) (ts ts' : List (Tree ι κ ρ h)) (sep : κ) :
    (inner id ks ts).join sep (inner id' ks' ts') = inner id (ks ++ sep :: ks') (ts ++ ts') := rfl

@[simp] theorem rootId_join : ∀ {h : Nat} (l r : Tree ι κ ρ h) (sep : κ), (l.join sep r).rootId = l.rootId
  | 0, _, _, _ => rfl
  | _ + 1, _, _, _ => rfl

@[simp] theorem rows_join : ∀ {h : Nat} (l r : Tree ι κ ρ h) (sep : κ), (l.join sep r).rows = l.rows ++ r.rows
  | 0, _, _, _ => rfl
  | _ + 1, _, _, _ => List.flatMap_append

theorem ids_join : ∀ {h : Nat} (l r : Tree ι κ ρ h) (sep : κ), (l.ids ++ r.ids).Perm (r.rootId :: (l.join sep r).ids)
  | 0, _, _, _ => List.Perm.swap _ _ _
  | _ + 1, l, r, sep => by
    refine l.casesSucc fun id ks ts => r.casesSucc fun id' ks' ts' => ?_
    rw [join_inner, ids_inner, ids_inner, ids_inner, rootId_inner, List.flatMap_append, ← List.cons_append]
    exact List.perm_middle

variable [LinearOrder κ] {key : ρ → κ} {lo hi : Option κ} {sep : κ}

theorem Ordered.join : ∀ {h : Nat} {l r : Tree ι κ ρ h}, l.Ordered key lo (some sep) → r.Ordered key (some sep) hi →
    Inside lo hi sep → (l.join sep r).Ordered key lo hi
  | 0, l, r => l.casesZero fun id rs => r.casesZero fun id' rs' hl hr hsep => by
    obtain ⟨hsl, hwl⟩ := ordered_leaf.mp hl
    obtain ⟨hsr, hwr⟩ := ordered_leaf.mp hr
    rw [join_leaf, ordered_leaf, List.map_append, List.pairwise_append]
    refine ⟨⟨hsl, hsr, fun x hx y hy => ?_⟩, fun x hx => ?_⟩
    · obtain ⟨p, hp, rfl⟩ := List.mem_map.mp hx
      obtain ⟨q, hq, rfl⟩ := List.mem_map.mp hy
      exact ((hwl p hp).2 sep rfl).trans_le ((hwr q hq).1 sep rfl)
    · rcases List.mem_append.mp hx with hx | hx
      · exact ⟨(hwl x hx).1, fun u hu => ((hwl x hx).2 sep rfl).trans (hsep.2 u hu)⟩
      · exact ⟨fun b hb => (hsep.1 b hb).le.trans ((hwr x hx).1 sep rfl), (hwr x hx).2⟩
  | h + 1, l, r => l.casesSucc fun id ks ts => r.casesSucc fun id' ks' ts' hl hr hsep => by
    obtain ⟨hsl, hil, hcl⟩ := ordered_inner.mp hl
    obtain ⟨hsr, hir, hcr⟩ := ordered_inner.mp hr
    have hlt : ∀ x ∈ ks, x < sep := fun x hx => (hil x hx).2 sep rfl
    have hgt : ∀ x ∈ ks', sep < x := fun x hx => (hir x hx).1 sep rfl
    rw [join_inner, ordered_inner]
    refine ⟨List.pairwise_append.mpr ⟨hsl, List.pairwise_cons.mpr ⟨hgt, hsr⟩, fun x hx y hy => ?_⟩, fun x hx => ?_,
      (chain_cut (chain_length hcl)).mpr ⟨hcl, hcr⟩⟩
    · rcases List.mem_cons.mp hy with rfl | hy
      · exact hlt x hx
      · exact (hlt x hx).trans (hgt y hy)
    · rcases List.mem_append.mp hx with hx | hx
      · exact ⟨(hil x hx).1, fun u hu => (hlt x hx).trans (hsep.2 u hu)⟩
      · rcases List.mem_cons.mp hx with rfl | hx
        · exact hsep
        · exact ⟨fun b hb => (hsep.1 b hb).trans (hgt x hx), (hir x hx).2⟩

/-- A leaf cut before one of its rows. -/
theorem Ordered.cutLeaf {id id₁ id₂ : ι} {rs₁ rs₂ : List ρ} (h : (leaf id (rs₁ ++ rs₂) : Tree ι κ ρ 0).Ordered key lo hi)
    (hne₁ : rs₁ ≠ []) (hne₂ : rs₂ ≠ []) (hl : ∀ x ∈ rs₁, key x < sep) (hr : ∀ x ∈ rs₂, sep ≤ key x) :
    (leaf id₁ rs₁ : Tree ι κ ρ 0).Ordered key lo (some sep) ∧ (leaf id₂ rs₂ : Tree ι κ ρ 0).Ordered key (some sep) hi ∧
      Inside lo hi sep := by
  obtain ⟨hs, hw⟩ := ordered_leaf.mp h
  rw [List.map_append, List.pairwise_append] at hs
  obtain ⟨x, hx⟩ := List.exists_mem_of_ne_nil _ hne₁
  obtain ⟨y, hy⟩ := List.exists_mem_of_ne_nil _ hne₂
  refine ⟨ordered_leaf.mpr ⟨hs.1, fun z hz => ⟨(hw z (by simp [hz])).1, ?_⟩⟩,
    ordered_leaf.mpr ⟨hs.2.1, fun z hz => ⟨?_, (hw z (by simp [hz])).2⟩⟩, fun b hb => ?_, fun u hu => ?_⟩
  · rintro _ ⟨⟩
    exact hl z hz
  · rintro _ ⟨⟩
    exact hr z hz
  · exact ((hw x (by simp [hx])).1 b hb).trans_lt (hl x hx)
  · exact (hr y hy).trans_lt ((hw y (by simp [hy])).2 u hu)

/-- Two neighbouring children of a node. -/
theorem Ordered.pair {id : ι} {a b : List κ} {ca cb : List (Tree ι κ ρ h)} {l r : Tree ι κ ρ h}
    (ht : (inner id (a ++ sep :: b) (ca ++ l :: r :: cb)).Ordered key lo hi) (aligned : ca.length = a.length) :
    l.Ordered key (lastOr lo a) (some sep) ∧ r.Ordered key (some sep) (firstOr b hi) ∧
      Inside (lastOr lo a) (firstOr b hi) sep := by
  obtain ⟨hs, hin, hc⟩ := ordered_inner.mp ht
  obtain ⟨-, ⟨hl, hr⟩, -⟩ := (chain_pair aligned).mp hc
  obtain ⟨-, hsb, hab⟩ := List.pairwise_append.mp hs
  refine ⟨hl, hr, fun x hx => ?_, fun x hx => ?_⟩
  · rcases lastOr_eq lo a with ⟨rfl, he⟩ | ⟨a', k, rfl, he⟩
    · exact (hin sep (by simp)).1 x hx
    · rw [he] at hx
      cases hx
      exact hab _ (by simp) _ (by simp)
  · cases b with
    | nil => exact (hin sep (by simp)).2 x hx
    | cons k b =>
      cases hx
      exact (List.pairwise_cons.mp hsb).1 _ (by simp)

end Tree

namespace Ctx

variable [LinearOrder κ] {key : ρ → κ} {H : Nat} {lo₀ hi₀ : Option κ}

/-- One subtree in the place of two neighbours. -/
theorem ordered_one {up : Ctx ι κ ρ H (h + 1)} {id : ι} {a b : List κ} {ca cb : List (Tree ι κ ρ h)}
    (aligned : ca.length = a.length) {l r m : Tree ι κ ρ h} {sep : κ}
    (ht : (up.plug (.inner id (a ++ sep :: b) (ca ++ l :: r :: cb))).Ordered key lo₀ hi₀)
    (hm : m.Ordered key (lastOr (up.lo lo₀) a) (firstOr b (up.hi hi₀))) :
    ((down up id a b ca cb aligned).plug m).Ordered key lo₀ hi₀ := by
  obtain ⟨hup, hnode⟩ := (ordered_plug up _).mp ht
  obtain ⟨hs, hin, hc⟩ := Tree.ordered_inner.mp hnode
  obtain ⟨hleft, -, hright⟩ := (chain_pair aligned).mp hc
  have hsub : (a ++ b).Sublist (a ++ sep :: b) := List.Sublist.append_left (List.sublist_cons_self sep b) a
  exact (ordered_plug (down up id a b ca cb aligned) m).mpr
    ⟨⟨hup, hs.sublist hsub, fun k hk => hin k (hsub.subset hk), hleft, hright⟩, hm⟩

end Ctx

end

end Lib.SearchTree
