/-
  Lib.Prog — sequential programs that talk to a stateful service: a program is a tree of
  requests, each continued by the answer it gets; a handler gives every request its answer
  and the next state, or does not answer it (the caller blocks).

  The same program runs under different handlers. `Exec H p s tr a s'` says that under `H`
  the program runs from `s` to its end, returns `a`, ends in `s'`, and that the states
  after its requests are `tr` in order. It is deterministic and composes:
  - `Exec.bind`, `Exec.bind_ok`, `Exec.bind_error`
  and a run of a composed program is a run of its parts (`run_bind`, `run_bind_cases`).
-/

namespace Lib

inductive Prog (Op : Type) (Res : Op → Type) (α : Type) where
  | ret (a : α)
  | op (o : Op) (k : Res o → Prog Op Res α)

namespace Prog

variable {Op : Type} {Res : Op → Type} {α β ε S : Type}

def bind : Prog Op Res α → (α → Prog Op Res β) → Prog Op Res β
  | .ret a, f => f a
  | .op o k, f => .op o fun r => (k r).bind f

instance : Monad (Prog Op Res) where
  pure := .ret
  bind := bind

theorem bind_ret (p : Prog Op Res α) : p.bind .ret = p := by
  induction p with
  | ret a => rfl
  | op o k ih => exact congrArg (Prog.op o) (funext ih)

theorem bind_bind (p : Prog Op Res α) (f : α → Prog Op Res β) {γ : Type} (g : β → Prog Op Res γ) :
    (p.bind f).bind g = p.bind fun a => (f a).bind g := by
  induction p with
  | ret a => rfl
  | op o k ih => exact congrArg (Prog.op o) (funext ih)

instance : LawfulMonad (Prog Op Res) := LawfulMonad.mk' _ bind_ret (fun _ _ => rfl) fun p f g => bind_bind p f g

/-- One request. -/
def request (o : Op) : Prog Op Res (Res o) := .op o .ret

/-- A handler answers a request in a state, or blocks. -/
abbrev Handler (Op : Type) (Res : Op → Type) (S : Type) := (o : Op) → S → Option (Res o × S)

/-- The result and the last state, unless a request blocks. -/
def run (H : Handler Op Res S) : Prog Op Res α → S → Option (α × S)
  | .ret a, s => some (a, s)
  | .op o k, s =>
    match H o s with
    | none => none
    | some (r, s') => run H (k r) s'

/-- The state after each request that was answered. -/
def trace (H : Handler Op Res S) : Prog Op Res α → S → List S
  | .ret _, _ => []
  | .op o k, s =>
    match H o s with
    | none => []
    | some (r, s') => s' :: trace H (k r) s'

/-- A complete execution. -/
structure Exec (H : Handler Op Res S) (p : Prog Op Res α) (s : S) (tr : List S) (a : α) (s' : S) : Prop where
  run : p.run H s = some (a, s')
  trace : p.trace H s = tr

section
variable {H : Handler Op Res S} {s s₁ s' : S} {tr tr' : List S}

theorem Exec.ret (a : α) : Exec H (.ret a) s [] a s := ⟨rfl, rfl⟩

theorem Exec.pure (a : α) : Exec H (Pure.pure a : Prog Op Res α) s [] a s := ⟨rfl, rfl⟩

theorem Exec.op {o : Op} {k : Res o → Prog Op Res α} {r : Res o} {a : α} (h : H o s = some (r, s₁))
    (hk : Exec H (k r) s₁ tr a s') : Exec H (.op o k) s (s₁ :: tr) a s' where
  run := by simp only [Prog.run, h]; exact hk.run
  trace := by simp only [Prog.trace, h, hk.trace]

theorem Exec.request {o : Op} {r : Res o} (h : H o s = some (r, s₁)) :
    Exec H (Prog.request o : Prog Op Res (Res o)) s [s₁] r s₁ := Exec.op h (Exec.ret r)

theorem Exec.bind {p : Prog Op Res α} {f : α → Prog Op Res β} {a : α} {b : β} (h : Exec H p s tr a s₁)
    (hf : Exec H (f a) s₁ tr' b s') : Exec H (p >>= f) s (tr ++ tr') b s' := by
  show Exec H (p.bind f) s (tr ++ tr') b s'
  induction p generalizing s tr with
  | ret a' =>
    have hrun := h.run
    have htr := h.trace
    simp only [Prog.run, Option.some.injEq, Prod.mk.injEq] at hrun
    simp only [Prog.trace] at htr
    obtain ⟨rfl, rfl⟩ := hrun
    subst htr
    exact hf
  | op o k ih =>
    have hrun := h.run
    have htr := h.trace
    simp only [Prog.run, Prog.trace] at hrun htr
    rcases ho : H o s with _ | ⟨r, s₂⟩
    · simp [ho] at hrun
    · simp only [ho] at hrun htr
      subst htr
      exact Exec.op ho (ih r ⟨hrun, rfl⟩)

/-- An execution is determined by where it starts. -/
theorem Exec.unique {p : Prog Op Res α} {a a' : α} {s'' : S} (h : Exec H p s tr a s') (h' : Exec H p s tr' a' s'') :
    tr = tr' ∧ a = a' ∧ s' = s'' := by
  have := h.run.symm.trans h'.run
  simp only [Option.some.injEq, Prod.mk.injEq] at this
  exact ⟨h.trace.symm.trans h'.trace, this⟩

/-- The last state of the trace is the one the execution ends in. -/
theorem Exec.getLast {p : Prog Op Res α} {a : α} (h : Exec H p s tr a s') : (s :: tr).getLast? = some s' := by
  induction p generalizing s tr with
  | ret a' =>
    have hrun := h.run
    have htr := h.trace
    simp only [Prog.run, Option.some.injEq, Prod.mk.injEq] at hrun
    simp only [Prog.trace] at htr
    rw [← htr, ← hrun.2]
    rfl
  | op o k ih =>
    have hrun := h.run
    have htr := h.trace
    simp only [Prog.run, Prog.trace] at hrun htr
    rcases ho : H o s with _ | ⟨r, s₂⟩
    · simp [ho] at hrun
    · simp only [ho] at hrun htr
      rw [← htr, List.getLast?_cons_cons]
      exact ih r ⟨hrun, rfl⟩

/-! ## Programs that may fail -/

theorem Exec.bind_ok {p : ExceptT ε (Prog Op Res) α} {f : α → ExceptT ε (Prog Op Res) β} {a : α} {r : Except ε β}
    (h : Exec H p.run s tr (.ok a) s₁) (hf : Exec H (f a).run s₁ tr' r s') :
    Exec H (p >>= f).run s (tr ++ tr') r s' := Exec.bind h hf

theorem Exec.bind_error {p : ExceptT ε (Prog Op Res) α} {f : α → ExceptT ε (Prog Op Res) β} {e : ε}
    (h : Exec H p.run s tr (.error e) s') : Exec H (p >>= f).run s tr (.error e) s' := by
  have := Exec.bind (f := ExceptT.bindCont f) h (Exec.pure (Except.error e))
  rwa [List.append_nil] at this

end

/-! ## Runs taken apart -/

variable {H : Handler Op Res S} {s s' : S}

theorem run_bind (p : Prog Op Res α) (f : α → Prog Op Res β) (s : S) :
    (p >>= f).run H s = (p.run H s).bind fun x => (f x.1).run H x.2 := by
  show (p.bind f).run H s = _
  induction p generalizing s with
  | ret a => rfl
  | op o k ih =>
    simp only [bind, run]
    cases H o s with
    | none => rfl
    | some x => exact ih x.1 x.2

theorem run_request (o : Op) (s : S) : (request o : Prog Op Res (Res o)).run H s = H o s := by
  simp only [request, run]
  cases H o s <;> rfl

/-- A run of a composed program ends where its first part fails, or goes on from where that ended. -/
theorem run_bind_cases {p : ExceptT ε (Prog Op Res) α} {f : α → ExceptT ε (Prog Op Res) β} {r : Except ε β}
    (h : (p >>= f).run.run H s = some (r, s')) :
    (∃ e, p.run.run H s = some (.error e, s') ∧ r = .error e) ∨
      ∃ a s₁, p.run.run H s = some (.ok a, s₁) ∧ (f a).run.run H s₁ = some (r, s') := by
  have hbind : (p >>= f).run.run H s = (p.run.run H s).bind fun x => (ExceptT.bindCont f x.1).run H x.2 := run_bind _ _ s
  rw [hbind] at h
  obtain ⟨⟨r₁, s₁⟩, hp, hf⟩ := Option.bind_eq_some_iff.mp h
  cases r₁ with
  | error e =>
    cases hf
    exact Or.inl ⟨e, hp, rfl⟩
  | ok a => exact Or.inr ⟨a, s₁, hp, hf⟩

end Prog

end Lib
