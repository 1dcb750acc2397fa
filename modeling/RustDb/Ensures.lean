/-
  RustDb.Ensures — what a call leaves in the store when it returns, under one thread.

  `Ensures post σ p` speaks of the runs of `p` that return: it says nothing of a run that
  fails or blocks, and so asks nothing of the pages that a call meets. The rules go request
  by request; `Ensures.eval` turns them into a fact about the run of a call.
-/

import RustDb.Lib.Contract
import RustDb.BTree.Tree

namespace RustDb

open Lib Lib.Prog Call

variable {ε ε' α β : Type} {σ σ' : Store}

/-- From any world over `σ`, what `p` returns and the store it leaves satisfy `post`. -/
def Ensures (post : α → Store → Prop) (σ : Store) (p : Call ε α) : Prop :=
  ∀ w : World, w.store = σ → KeepsOr (Handler.contract World.step) (fun w a => post a w.store) (fun _ _ => True) w p

/-! ## Its rules -/

section
variable {post : α → Store → Prop} {p : Call ε α}

theorem Ensures.eval (h : Ensures post σ p) {w w' : World} {a : α} (hw : w.store = σ) (hrun : p.eval w = some (.ok a, w')) :
    post a w'.store := by
  have hends := Keeps.ends (h w hw : Keeps _ _ w p.run) hrun
  exact hends

theorem Ensures.pure {a : α} (h : post a σ) : Ensures post σ (pure a : Call ε α) := by
  rintro w rfl
  exact h

theorem Ensures.throw (e : Fail ε) : Ensures post σ (throw e : Call ε α) := fun _ _ => trivial

theorem Ensures.bind {post' : β → Store → Prop} {f : α → Call ε β} (h : Ensures post σ p)
    (hf : ∀ a σ', post a σ' → Ensures post' σ' (f a)) : Ensures post' σ (p >>= f) :=
  fun w hw => KeepsOr.bind (h w hw) fun w' a ha => hf a w'.store ha w' rfl

theorem Ensures.mono {post' : α → Store → Prop} (h : Ensures post σ p) (hpost : ∀ a σ', post a σ' → post' a σ') :
    Ensures post' σ p :=
  fun w hw => KeepsOr.mono (h w hw) fun w' a ha => hpost a w'.store ha

theorem Ensures.ite {c : Prop} [Decidable c] {q : Call ε α} (hp : c → Ensures post σ p) (hq : ¬ c → Ensures post σ q) :
    Ensures post σ (if c then p else q) := by
  by_cases hc : c
  · rw [if_pos hc]
    exact hp hc
  · rw [if_neg hc]
    exact hq hc

theorem Ensures.mapErr {f : ε → ε'} (h : Ensures post σ p) : Ensures post σ (p.mapErr f) :=
  fun w hw => KeepsOr.adapt _ (h w hw) fun _ _ _ => trivial

theorem Ensures.expect (h : Ensures post σ p) : Ensures post σ (expect p : Call ε' α) :=
  fun w hw => KeepsOr.adapt _ (h w hw) fun _ _ _ => trivial

theorem Ensures.unwinding (h : Ensures post σ p) : Ensures post σ (unwinding p) :=
  fun w hw => Keeps.bind (h w hw) fun w' r hr => by
    cases r with
    | ok a => exact hr
    | error e => exact ⟨trivial, fun _ _ => trivial⟩

end

/-! ## Requests -/

/-- A request, from what the pool does with it. -/
theorem ensures_request {o : PoolOp} {post : α → Store → Prop} (k : o.Res → Except (Fail ε) α)
    (h : ∀ w r w' a, w.store = σ → World.step o w = some (r, w') → k r = .ok a → post a w'.store) :
    Ensures post σ (Prog.op o fun r => .ret (k r) : Prog PoolOp PoolOp.Res (Except (Fail ε) α)) := by
  intro w hw
  refine ⟨trivial, fun r hr => ?_⟩
  obtain ⟨w', hstep⟩ := hr
  have hnext : (Handler.contract World.step).next w o r = w' := by simp [Handler.contract, hstep]
  rw [hnext]
  show OfResult (fun w a => post a w.store) (fun _ _ => True) w' (k r)
  cases hk : k r with
  | ok a => exact h w r w' a hw hstep hk
  | error e => trivial

theorem ensures_fetchRead (id : PageId) : Ensures (fun p σ' => σ = σ' ∧ σ.page id = some p) σ (fetchRead id) := by
  refine ensures_request (o := .fetchRead id) (fun r => r) ?_
  intro w r w' p hw hstep hr
  subst hw hr
  simp only [World.step] at hstep
  split at hstep <;> cases hstep
  exact ⟨rfl, by assumption⟩

theorem ensures_fetchWrite (id : PageId) : Ensures (fun p σ' => σ = σ' ∧ σ.page id = some p) σ (fetchWrite id) := by
  refine ensures_request (o := .fetchWrite id) (fun r => r) ?_
  intro w r w' p hw hstep hr
  subst hw hr
  simp only [World.step] at hstep
  split at hstep <;> cases hstep
  exact ⟨rfl, by assumption⟩

theorem ensures_newPage (q : Page) : Ensures (fun p σ' => p = q ∧ σ' = σ.put q) σ (newPage q) := by
  refine ensures_request (o := .newPage q) (fun r => r) ?_
  intro w r w' p hw hstep hr
  subst hw hr
  simp only [World.step] at hstep
  split at hstep <;> cases hstep
  exact ⟨rfl, rfl⟩

theorem ensures_put (q : Page) : Ensures (fun _ σ' => σ' = σ.put q) σ (put q : Call ε Unit) := by
  refine ensures_request (o := .put q) (fun r => .ok r) ?_
  intro w r w' a hw hstep _
  subst hw
  simp only [World.step] at hstep
  split at hstep <;> cases hstep
  rfl

theorem ensures_drop (id : PageId) : Ensures (fun _ σ' => σ = σ') σ (drop id : Call ε Unit) := by
  refine ensures_request (o := .drop id) (fun r => .ok r) ?_
  intro w r w' a hw hstep _
  subst hw
  simp only [World.step] at hstep
  split at hstep <;> cases hstep
  all_goals rfl

theorem ensures_dropAll (ids : List PageId) : Ensures (fun _ σ' => σ = σ') σ (dropAll ids : Call ε Unit) := by
  induction ids with
  | nil => exact Ensures.pure rfl
  | cons id ids ih =>
    refine (ensures_drop id).bind ?_
    rintro _ _ rfl
    exact ih

theorem ensures_page (wrap : PageError → ε) (r : PageResult α) : Ensures (fun a σ' => σ = σ' ∧ r = .ok a) σ
    (page wrap r) := by
  cases r with
  | ok a => exact Ensures.pure ⟨rfl, rfl⟩
  | error e => exact Ensures.throw _

/-- The page a guard is left with is the one stored; the call goes on only if the operation
    answered. -/
theorem ensures_change (wrap : PageError → ε) (r : PageResult α × Page) :
    Ensures (fun x σ' => σ' = σ.put r.2 ∧ x.2 = r.2 ∧ r.1 = .ok x.1) σ (change wrap r) :=
  (ensures_put r.2).bind fun _ _ h => by
    subst h
    exact (ensures_page wrap r.1).bind fun a _ h => by
      obtain ⟨rfl, ha⟩ := h
      exact Ensures.pure ⟨rfl, rfl, ha⟩

end RustDb
