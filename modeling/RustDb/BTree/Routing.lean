/-
  RustDb.BTree.Routing — where another thread's descent ends while one thread changes the tree.

  The changing thread's run is its list of worlds. `Reaches key ws id rows`: a reader that
  is at page `id` in the first world of `ws` waits while the page is write-latched, reads it
  in the first world in which it is not, follows `find_child`, and ends at a leaf holding
  `rows`.
  - `Settled.reaches`: on a tree whose pages keep what they hold, and are free in the last
    world, every key reaches the leaf it belongs to.
  - `Served`: from every world of a list on, every key of `rows` is found from `id`.
    A page latched throughout serves what it serves when released (`Served.latched`), and
    a tree serves its rows when the subtree at its hole does (`Served.plug`).
-/

import RustDb.BTree.Rep

namespace RustDb

open Lib.SearchTree

namespace BTree

inductive Reaches (key : Key) : List World → PageId → List Row → Prop
  | wait {w ws id rows} : w.latch id = .write → Reaches key ws id rows → Reaches key (w :: ws) id rows
  | leaf {w ws id rows} : w.latch id ≠ .write → leafAt w.store id rows → Reaches key (w :: ws) id rows
  | inner {w ws id p child rows} : w.latch id ≠ .write → w.store.page id = some p → p.findChild key = .ok (some child) →
      Reaches key (w :: ws) child rows → Reaches key (w :: ws) id rows

/-- The descent ends at a leaf with the key. -/
def Finds (key : Key) (ws : List World) (id : PageId) : Prop := ∃ rows, Reaches key ws id rows ∧ ∃ r ∈ rows, r.key = key

section
variable {key : Key} {w : World} {ws ws' : List World} {id child : PageId} {rows rows' : List Row} {h H : Nat}
  {T : PageTree h}

theorem leafAt.findChild {σ : Store} {p : Page} (hl : leafAt σ id rows) (hp : σ.page id = some p) :
    p.findChild key ≠ .ok (some child) := by
  obtain ⟨lsn, next, prev, hl⟩ := hl
  rw [hl] at hp
  cases hp
  simp [Page.findChild, Page.findChildIndex, Except.map]

/-- A descent ends at one leaf. -/
theorem Reaches.unique (hr : Reaches key ws id rows) : Reaches key ws id rows' → rows = rows' := by
  induction hr with
  | wait hl _ ih =>
    intro hr'
    cases hr' with
    | wait _ hr' => exact ih hr'
    | leaf hl' _ => exact absurd hl hl'
    | inner hl' _ _ _ => exact absurd hl hl'
  | leaf hl hrows =>
    intro hr'
    cases hr' with
    | wait hl' _ => exact absurd hl' hl
    | leaf _ hrows' => exact hrows.inj hrows'
    | inner _ hp hf _ => exact absurd hf (hrows.findChild hp)
  | inner hl hp hf _ ih =>
    intro hr'
    cases hr' with
    | wait hl' _ => exact absurd hl' hl
    | leaf _ hrows' => exact absurd hf (hrows'.findChild hp)
    | inner _ hp' hf' hr' =>
      rw [hp, Option.some.injEq] at hp'
      subst hp'
      rw [hf, Except.ok.injEq, Option.some.injEq] at hf'
      subst hf'
      exact ih hr'

theorem Reaches.extend (hr : Reaches key ws id rows) (ws' : List World) : Reaches key (ws ++ ws') id rows := by
  induction hr with
  | wait hl _ ih => exact .wait hl ih
  | leaf hl hrows => exact .leaf hl hrows
  | inner hl hp hf _ ih => exact .inner hl hp hf ih

/-- Waiting for a page that is free in the last world. -/
theorem wait_until (hne : ws ≠ []) (hfree : ∀ w, ws.getLast? = some w → w.latch id ≠ .write) :
    ∃ w ws', (w :: ws') <:+ ws ∧ w.latch id ≠ .write ∧
      ∀ key rows, Reaches key (w :: ws') id rows → Reaches key ws id rows := by
  induction ws with
  | nil => exact absurd rfl hne
  | cons w ws ih =>
    by_cases hl : w.latch id = .write
    · have hne' : ws ≠ [] := by
        rintro rfl
        exact hfree w rfl hl
      obtain ⟨w', ws', hsuf, hl', hreach⟩ := ih hne' fun x hx => hfree x (by
        rw [List.getLast?_cons, hx]
        rfl)
      exact ⟨w', ws', hsuf.trans (List.suffix_cons w ws), hl', fun key rows hr => .wait hl (hreach key rows hr)⟩
    · exact ⟨w, ws, List.suffix_refl _, hl, fun _ _ hr => hr⟩

/-! ## Trees at rest -/

/-- A tree whose pages keep what they hold, and are free in the end. -/
structure Settled (ws : List World) (T : PageTree h) : Prop where
  all : ∀ w ∈ ws, T.All (leafAt w.store) (nodeAt w.store)
  free : ∀ w, ws.getLast? = some w → ∀ x ∈ T.ids, w.latch x ≠ .write

theorem getLast_suffix {w : World} (hs : ws' <:+ ws) (hw : ws'.getLast? = some w) : ws.getLast? = some w := by
  obtain ⟨pre, rfl⟩ := hs
  rw [List.getLast?_append, hw]
  rfl

theorem Settled.suffix (hS : Settled ws T) (hs : ws' <:+ ws) : Settled ws' T :=
  ⟨fun w hw => hS.all w (hs.subset hw), fun w hw => hS.free w (getLast_suffix hs hw)⟩

theorem Settled.kid {keys : List Key} {kids : List (PageTree h)} {kid : PageTree h}
    (hS : Settled ws (Tree.inner id keys kids)) (hkid : kid ∈ kids) : Settled ws kid :=
  ⟨fun w hw => (Tree.all_inner.mp (hS.all w hw)).2 kid hkid, fun w hw x hx => hS.free w hw x (Tree.mem_ids_kid hkid hx)⟩

/-- Every key reaches the leaf it belongs to. -/
theorem Settled.reaches : ∀ {h : Nat} {T : PageTree h} {ws : List World}, Settled ws T → T.RowBounds Row.key → ws ≠ [] →
    ∃ rows, Reaches key ws T.rootId rows ∧ rows ⊆ T.rows ∧ ∀ r ∈ T.rows, r.key = key → r ∈ rows
  | 0, T, ws => T.casesZero fun id rows hS _ hne => by
    obtain ⟨w, ws', hsuf, hl, hreach⟩ := wait_until hne fun w hw => hS.free w hw id (by simp)
    have hrows := Tree.all_leaf.mp (hS.all w (hsuf.subset (by simp)))
    exact ⟨rows, hreach key rows (.leaf hl hrows), fun _ hr => hr, fun r hr _ => hr⟩
  | h + 1, T, ws => T.casesSucc fun id keys kids hS hb hne => by
    obtain ⟨w, ws', hsuf, hl, hreach⟩ := wait_until hne fun w hw => hS.free w hw id (by simp)
    obtain ⟨⟨lsn, hp⟩, -⟩ := Tree.all_inner.mp (hS.all w (hsuf.subset (by simp)))
    obtain ⟨a, b, ca, kid, cb, rfl, rfl, hlen, ha, hb', hleft, hright⟩ := hb.route key
    have hkid : kid ∈ ca ++ kid :: cb := by simp
    obtain ⟨rows, hrows, hsub, hmem⟩ := Settled.reaches ((hS.suffix hsuf).kid hkid)
      ((Tree.rowBounds_inner.mp hb).2.2 kid hkid) (List.cons_ne_nil w ws')
    rw [List.map_append, List.map_cons] at hp
    have hfind := (@Page.findChild_eq id lsn _ _ (ca.map Tree.rootId) (cb.map Tree.rootId)) (c := kid.rootId)
        (Tree.rowBounds_inner.mp hb).1 ha hb' (by simpa using hlen)
    refine ⟨rows, hreach key rows (.inner hl hp hfind hrows), fun r hr => Tree.mem_rows_kid hkid (hsub hr), ?_⟩
    intro r hr hrk
    simp only [Tree.rows_inner, List.flatMap_append, List.flatMap_cons, List.mem_append] at hr
    rcases hr with hr | hr | hr
    · exact absurd hrk (hleft r hr).ne
    · exact hmem r hr hrk
    · exact absurd hrk (hright r hr).ne'

theorem Settled.finds (hS : Settled ws T) (hb : T.RowBounds Row.key) (hne : ws ≠ []) {r : Row} (hr : r ∈ T.rows) :
    Finds r.key ws T.rootId := by
  obtain ⟨rows, hreach, -, hmem⟩ := hS.reaches hb hne
  exact ⟨rows, hreach, r, hmem r hr rfl, rfl⟩

/-! ## Runs that serve -/

def Served (ws : List World) (id : PageId) (rows : List Row) : Prop :=
  ∀ ws', ws' <:+ ws → ws' ≠ [] → ∀ r ∈ rows, Finds r.key ws' id

theorem Settled.served (hS : Settled ws T) (hb : T.RowBounds Row.key) : Served ws T.rootId T.rows :=
  fun _ hsuf hne _ hr => (hS.suffix hsuf).finds hb hne hr

/-- While a page is latched, readers wait for what follows. -/
theorem Served.latched {tr : List World} (hs : Served ws id rows) (hne : ws ≠ []) (hl : ∀ w ∈ tr, w.latch id = .write) :
    Served (tr ++ ws) id rows := by
  induction tr with
  | nil => exact hs
  | cons w tr ih =>
    have ih := ih fun x hx => hl x (by simp [hx])
    intro ws' hsuf hne' r hr
    rcases List.suffix_cons_iff.mp hsuf with rfl | hsuf
    · obtain ⟨rows', hreach, hmem⟩ := ih (tr ++ ws) (List.suffix_refl _) (by simp [hne]) r hr
      exact ⟨rows', .wait (hl w (by simp)) hreach, hmem⟩
    · exact ih ws' hsuf hne' r hr

/-- A context whose pages keep what they hold, and are free in the end. -/
structure CtxSettled (ws : List World) (c : PageCtx H h) (hole : PageId) : Prop where
  all : ∀ w ∈ ws, c.All (leafAt w.store) (nodeAt w.store) hole
  free : ∀ w, ws.getLast? = some w → ∀ x ∈ c.ids, w.latch x ≠ .write

/-- One level up: a reader at the node above reaches the hole or a settled child. -/
theorem Served.inner {keys : List Key} {ca cb : List (PageTree h)} {T : PageTree h}
    (hb : (Tree.inner id keys (ca ++ T :: cb)).RowBounds Row.key)
    (hnode : ∀ w ∈ ws, nodeAt w.store id keys ((ca ++ T :: cb).map Tree.rootId))
    (hfree : ∀ w, ws.getLast? = some w → w.latch id ≠ .write) (hca : ∀ kid ∈ ca, Settled ws kid)
    (hcb : ∀ kid ∈ cb, Settled ws kid) (hs : Served ws T.rootId T.rows) :
    Served ws id (Tree.inner id keys (ca ++ T :: cb)).rows := by
  intro ws' hsuf hne r hr
  obtain ⟨w, ws'', hsuf', hl, hreach⟩ := wait_until hne fun w hw => hfree w (getLast_suffix hsuf hw)
  have hsuf'' := hsuf'.trans hsuf
  obtain ⟨a, b, ca', kid, cb', rfl, hkids, hlen, ha, hb', hleft, hright⟩ := hb.route r.key
  obtain ⟨lsn, hp⟩ := hnode w (hsuf''.subset (by simp))
  have hkid : kid ∈ ca ++ T :: cb := by simp [hkids]
  -- the child reached holds the row
  have hrkid : r ∈ kid.rows := by
    rw [hkids] at hr
    simp only [Tree.rows_inner, List.flatMap_append, List.flatMap_cons, List.mem_append] at hr
    rcases hr with hr | hr | hr
    · exact absurd rfl (hleft r hr).ne
    · exact hr
    · exact absurd rfl (hright r hr).ne'
  have hfinds : Finds r.key (w :: ws'') kid.rootId := by
    have hbk := (Tree.rowBounds_inner.mp hb).2.2 kid hkid
    rcases List.mem_append.mp hkid with hk | hk
    · exact ((hca kid hk).suffix hsuf'').finds hbk (by simp) hrkid
    · rcases List.mem_cons.mp hk with rfl | hk
      · exact hs _ hsuf'' (by simp) r hrkid
      · exact ((hcb kid hk).suffix hsuf'').finds hbk (by simp) hrkid
  obtain ⟨rows, hrows, hmem⟩ := hfinds
  rw [hkids, List.map_append, List.map_cons] at hp
  have hfind := (@Page.findChild_eq id lsn _ _ (ca'.map Tree.rootId) (cb'.map Tree.rootId)) (c := kid.rootId)
      (Tree.rowBounds_inner.mp hb).1 ha hb' (by simpa using hlen)
  exact ⟨rows, hreach _ _ (.inner hl hp hfind hrows), hmem⟩

theorem Served.plug {lo hi : Option Key} : ∀ {h : Nat} {c : PageCtx H h} {T : PageTree h}, (c.plug T).Ordered Row.key lo hi →
    CtxSettled ws c T.rootId → Served ws T.rootId T.rows → Served ws (c.plug T).rootId (c.plug T).rows
  | _, .top, _, _, _, hs => hs
  | _, .down up id a b ca cb aligned, T, ho, hS, hs => by
    have hb := ((Ctx.ordered_plug up _).mp ho).2.rowBounds
    have hall : ∀ w ∈ ws, _ := fun w hw => hS.all w hw
    refine Served.plug (c := up) (T := Tree.inner id (a ++ b) (ca ++ T :: cb)) ho
      ⟨fun w hw => (hall w hw).2.2.2, fun w hw x hx => hS.free w hw x (Ctx.mem_ids_up hx)⟩ ?_
    refine Served.inner hb (fun w hw => by simpa using (hall w hw).1)
      (fun w hw => hS.free w hw id (by simp [Ctx.ids])) ?_ ?_ hs
    · exact fun kid hkid => ⟨fun w hw => (hall w hw).2.1 kid hkid,
        fun w hw x hx => hS.free w hw x (Ctx.mem_ids_left hkid hx)⟩
    · exact fun kid hkid => ⟨fun w hw => (hall w hw).2.2.1 kid hkid,
        fun w hw x hx => hS.free w hw x (Ctx.mem_ids_right hkid hx)⟩

end

end BTree

end RustDb
