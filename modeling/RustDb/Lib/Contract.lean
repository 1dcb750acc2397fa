/-
  Lib.Contract — what a program holds to, whatever service it talks to.

  A contract says which requests a program may make (`guar`), which answers it may expect
  (`rely`) where a monitor stands, and how the monitor follows the two (`next`).
  `Keeps C post g p` is about the program alone: while the answers are as expected, every
  request is allowed, and what the program returns satisfies `post` of where the monitor has
  got to. It composes along `bind`, also for programs that may fail (`KeepsOr`). A program
  that returns where its monitor ends, too (`noting`), makes the same requests.

  A service meets a contract when it answers allowed requests as expected and keeps an
  invariant (`Met`). Then
  - `Keeps.reaches`: any number of programs, interleaved request by request, keep the invariant;
  - `Keeps.run`: so does a program alone;
  - `Keeps.agrees`: a run that leaves the monitor clean is a run under another service too, and
    all of its answers are clean.
  - `Keeps.alike`: a run is one under any service that answers allowed requests alike.
  A monitor may be the state of a handler itself (`Handler.contract`): what is kept under that
  contract holds where a run ends (`Keeps.ends`).
-/

import Mathlib.Data.List.Forall2
import Mathlib.Logic.Relation
import RustDb.Lib.Prog

namespace Lib

namespace Prog

structure Contract (Op : Type) (Res : Op → Type) (G : Type) where
  guar : Op → Prop
  rely : G → (o : Op) → Res o → Prop
  next : G → (o : Op) → Res o → G

variable {Op : Type} {Res : Op → Type} {α β ε ε' G S S' : Type} {C : Contract Op Res G} {g : G}

def Keeps (C : Contract Op Res G) (post : G → α → Prop) : G → Prog Op Res α → Prop
  | g, .ret a => post g a
  | g, .op o k => C.guar o ∧ ∀ r, C.rely g o r → Keeps C post (C.next g o r) (k r)

theorem Keeps.mono {post post' : G → α → Prop} {p : Prog Op Res α} (h : Keeps C post g p)
    (hpost : ∀ g a, post g a → post' g a) : Keeps C post' g p := by
  induction p generalizing g with
  | ret a => exact hpost g a h
  | op o k ih => exact ⟨h.1, fun r hr => ih r (h.2 r hr)⟩

theorem Keeps.bind {post : G → α → Prop} {post' : G → β → Prop} {p : Prog Op Res α} {f : α → Prog Op Res β}
    (h : Keeps C post g p) (hf : ∀ g a, post g a → Keeps C post' g (f a)) : Keeps C post' g (p >>= f) := by
  show Keeps C post' g (p.bind f)
  induction p generalizing g with
  | ret a => exact hf g a h
  | op o k ih => exact ⟨h.1, fun r hr => ih r (h.2 r hr)⟩

/-! ## Programs that may fail -/

/-- What is said of the value returned, and of the failure. -/
def OfResult (post : G → α → Prop) (fails : G → ε → Prop) (g : G) : Except ε α → Prop
  | .ok a => post g a
  | .error e => fails g e

def KeepsOr (C : Contract Op Res G) (post : G → α → Prop) (fails : G → ε → Prop) (g : G) (p : ExceptT ε (Prog Op Res) α)
    : Prop :=
  Keeps C (OfResult post fails) g p.run

section
variable {post : G → α → Prop} {fails : G → ε → Prop} {p : ExceptT ε (Prog Op Res) α}

theorem KeepsOr.mono {post' : G → α → Prop} (h : KeepsOr C post fails g p) (hpost : ∀ g a, post g a → post' g a) :
    KeepsOr C post' fails g p :=
  Keeps.mono h fun g r hr => by
    cases r with
    | ok a => exact hpost g a hr
    | error e => exact hr

theorem KeepsOr.bind {post' : G → β → Prop} {f : α → ExceptT ε (Prog Op Res) β} (h : KeepsOr C post fails g p)
    (hf : ∀ g a, post g a → KeepsOr C post' fails g (f a)) : KeepsOr C post' fails g (p >>= f) := by
  refine Keeps.bind (f := ExceptT.bindCont f) h fun g r hr => ?_
  cases r with
  | ok a => exact hf g a hr
  | error e => exact hr

theorem KeepsOr.adapt {fails' : G → ε' → Prop} (f : ε → ε') (h : KeepsOr C post fails g p)
    (hf : ∀ g e, fails g e → fails' g (f e)) : KeepsOr C post fails' g (ExceptT.adapt f p) := by
  refine Keeps.bind h fun g r hr => ?_
  cases r with
  | ok a => exact hr
  | error e => exact hf g e hr

end

/-! ## Contracts changed -/

/-- The contract without its monitor. -/
def Contract.blind (C : Contract Op Res G) : Contract Op Res Unit where
  guar := C.guar
  rely _ o r := ∀ g, C.rely g o r
  next _ _ _ := ()

theorem Keeps.forget {post : G → α → Prop} {p : Prog Op Res α} (h : Keeps C post g p) :
    Keeps C.blind (fun _ a => ∃ g, post g a) () p := by
  induction p generalizing g with
  | ret a => exact ⟨g, h⟩
  | op o k ih => exact ⟨h.1, fun r hr => ih r (h.2 r (hr g))⟩

/-- The contract, with the answers expected that satisfy `exact`. -/
def Contract.onto (C : Contract Op Res G) (exact : (o : Op) → Res o → Prop) : Contract Op Res G :=
  { C with rely := fun g o r => C.rely g o r ∧ exact o r }

/-- Where the answers of a clean run are those of a handler that stays in one state, the
    program returns what it returns under that handler. -/
theorem Keeps.onto {H : Handler Op Res S} {s s' : S} {post : G → α → Prop} {p : Prog Op Res α} {a : α} (clean : G → Prop)
    {exact : (o : Op) → Res o → Prop} (h : Keeps C post g p) (hrun : clean g → p.run H s = some (a, s'))
    (hclean : ∀ g o r, clean (C.next g o r) → clean g)
    (hexact : ∀ g o r, C.guar o → exact o r → clean (C.next g o r) → H o s = some (r, s)) :
    Keeps (C.onto exact) (fun g b => post g b ∧ (clean g → b = a)) g p := by
  induction p generalizing g with
  | ret b =>
    refine ⟨h, fun hg => ?_⟩
    cases hrun hg
    rfl
  | op o k ih =>
    refine ⟨h.1, fun r hr => ih r (h.2 r hr.1) fun hnext => ?_⟩
    have ho := hexact g o r h.1 hr.2 hnext
    have hrun' := hrun (hclean g o r hnext)
    simpa only [Prog.run, ho] using hrun'

/-! ## Monitors noted -/

/-- The program, returning also where its monitor ends. -/
def noting (next : G → (o : Op) → Res o → G) : G → Prog Op Res α → Prog Op Res (α × G)
  | g, .ret a => .ret (a, g)
  | g, .op o k => .op o fun r => noting next (next g o r) (k r)

section
variable {next : G → (o : Op) → Res o → G} {H : Handler Op Res S} {p : Prog Op Res α} {a : α} {g' : G} {s s' : S}

/-- It makes the same requests, and returns the same beside. -/
theorem noting_fst : (noting next g p).bind (fun x => .ret x.1) = p := by
  induction p generalizing g with
  | ret a => rfl
  | op o k ih => exact congrArg (Prog.op o) (funext fun r => ih r)

theorem run_eq_noting (next : G → (o : Op) → Res o → G) (g : G) : p.run H s = ((noting next g p).run H s).map fun x => (x.1.1, x.2) := by
  have hbind : ((noting next g p).bind fun x => .ret x.1).run H s = ((noting next g p).run H s).bind fun x =>
      (Prog.ret x.1.1 : Prog Op Res α).run H x.2 := run_bind _ _ s
  rw [noting_fst] at hbind
  rw [hbind, Option.map_eq_bind]
  rfl

theorem run_noting (h : (noting next g p).run H s = some ((a, g'), s')) : p.run H s = some (a, s') := by
  rw [run_eq_noting next g, h]
  rfl

theorem exists_noting (g : G) (h : p.run H s = some (a, s')) : ∃ g', (noting next g p).run H s = some ((a, g'), s') := by
  rw [run_eq_noting next g] at h
  obtain ⟨⟨⟨b, g'⟩, s₁⟩, hrun, heq⟩ := Option.map_eq_some_iff.mp h
  cases heq
  exact ⟨g', hrun⟩

end

/-- What a program holds to with its monitor, it returns without it. -/
theorem Keeps.noting {post : G → α → Prop} {p : Prog Op Res α} (h : Keeps C post g p) :
    Keeps C.blind (fun _ x => post x.2 x.1) () (Prog.noting C.next g p) := by
  induction p generalizing g with
  | ret a => exact h
  | op o k ih => exact ⟨h.1, fun r hr => ih r (h.2 r (hr g))⟩

/-! ## Results -/

/-- What is said of a value, if there is one. -/
def Yields (post : α → Prop) : Except ε α → Prop
  | .ok a => post a
  | .error _ => True

theorem Yields.bind {post : α → Prop} {post' : β → Prop} {x : Except ε α} {f : α → Except ε β} (h : Yields post x)
    (hf : ∀ a, post a → Yields post' (f a)) : Yields post' (x >>= f) := by
  cases x with
  | ok a => exact hf a h
  | error e => trivial

theorem Yields.mapM {post : β → Prop} {f : α → Except ε β} {as : List α} (h : ∀ a ∈ as, Yields post (f a)) :
    Yields (fun bs => ∀ b ∈ bs, post b) (as.mapM f) := by
  induction as with
  | nil => exact fun b hb => absurd hb List.not_mem_nil
  | cons a as ih =>
    rw [List.mapM_cons]
    refine (h a List.mem_cons_self).bind fun b hb => ?_
    refine (ih fun a ha => h a (List.mem_cons_of_mem _ ha)).bind fun bs hbs => ?_
    intro b' hb'
    rcases List.mem_cons.mp hb' with rfl | hb'
    · exact hb
    · exact hbs b' hb'

/-! ## Handlers -/

/-- The monitor is the state of the handler. -/
def Handler.contract (H : Handler Op Res S) : Contract Op Res S where
  guar _ := True
  rely s o r := ∃ s', H o s = some (r, s')
  next s o _ := (H o s).elim s Prod.snd

/-- Where a run ends. -/
theorem Keeps.ends {H : Handler Op Res S} {post : S → α → Prop} {p : Prog Op Res α} {a : α} {s s' : S}
    (h : Keeps H.contract post s p) (hrun : p.run H s = some (a, s')) : post s' a := by
  induction p generalizing s with
  | ret b =>
    cases hrun
    exact h
  | op o k ih =>
    simp only [Prog.run] at hrun
    rcases ho : H o s with _ | ⟨r, s₁⟩
    · simp [ho] at hrun
    · simp only [ho] at hrun
      have hk := h.2 r ⟨s₁, ho⟩
      rw [show H.contract.next s o r = s₁ from by simp [Handler.contract, ho]] at hk
      exact ih r hk hrun

/-- The answers that a program gets on its way are within `meets`. -/
def Along (H : Handler Op Res S) (meets : (o : Op) → Res o → Prop) : Prog Op Res α → S → Prop
  | .ret _, _ => True
  | .op o k, s => ∀ r s', H o s = some (r, s') → meets o r ∧ Along H meets (k r) s'

theorem Along.noting {H : Handler Op Res S} {meets : (o : Op) → Res o → Prop} {next : G → (o : Op) → Res o → G}
    {p : Prog Op Res α} {s : S} (h : p.Along H meets s) : (Prog.noting next g p).Along H meets s := by
  induction p generalizing g s with
  | ret a => trivial
  | op o k ih => exact fun r s' ho => ⟨(h r s' ho).1, ih r (h r s' ho).2⟩

/-! ## Services -/

/-- A service may answer `r` in a state and go to another. -/
abbrev Service (Op : Type) (Res : Op → Type) (S : Type) := (o : Op) → S → Res o → S → Prop

/-- What a handler does, as a service. -/
def Handler.serves (H : Handler Op Res S) : Service Op Res S := fun o s r s' => H o s = some (r, s')

/-- Allowed requests get expected answers, and keep the invariant. -/
def Contract.Met (C : Contract Op Res G) (serve : Service Op Res S) (inv : S → Prop) : Prop :=
  ∀ o s r s', C.guar o → inv s → serve o s r s' → (∀ g, C.rely g o r) ∧ inv s'

theorem Contract.Met.blind {serve : Service Op Res S} {inv : S → Prop} (h : C.Met serve inv) : C.blind.Met serve inv :=
  fun o s r s' hguar hs hserve => ⟨fun _ => (h o s r s' hguar hs hserve).1, (h o s r s' hguar hs hserve).2⟩

/-- One of several programs makes its next request. -/
inductive Interleaves (serve : Service Op Res S) : List (Prog Op Res α) × S → List (Prog Op Res α) × S → Prop
  | step {before after : List (Prog Op Res α)} {o : Op} {k : Res o → Prog Op Res α} {r : Res o} {s s' : S}
      (h : serve o s r s') :
    Interleaves serve (before ++ .op o k :: after, s) (before ++ k r :: after, s')

section
variable {serve : Service Op Res S} {inv : S → Prop}

/-- Whatever the order of the requests, the invariant stays, and every program goes on holding
    to the contract. -/
theorem Keeps.reaches {ι : Type} {post : ι → G → α → Prop} {is : List ι} {x y : List (Prog Op Res α) × S}
    (hmet : C.Met serve inv) (hps : List.Forall₂ (fun i p => ∃ g, Keeps C (post i) g p) is x.1) (hs : inv x.2)
    (h : Relation.ReflTransGen (Interleaves serve) x y) :
    List.Forall₂ (fun i p => ∃ g, Keeps C (post i) g p) is y.1 ∧ inv y.2 := by
  induction h with
  | refl => exact ⟨hps, hs⟩
  | tail _ hstep ih =>
    obtain ⟨hps, hs⟩ := ih
    cases hstep with
    | @step before after o k r s s' hserve =>
      have hbefore := List.forall₂_take_append is before _ hps
      obtain ⟨i, is', ⟨g, hguar, hk⟩, hafter, his⟩ :=
        List.forall₂_cons_right_iff.mp (List.forall₂_drop_append is before _ hps)
      obtain ⟨hr, hs'⟩ := hmet o s r s' hguar hs hserve
      refine ⟨?_, hs'⟩
      rw [← List.take_append_drop before.length is, his]
      exact List.rel_append hbefore (.cons ⟨_, hk r (hr g)⟩ hafter)

variable {post : G → α → Prop}

variable {H : Handler Op Res S} {p : Prog Op Res α} {a : α} {s s' : S}

/-- A run of a program is an interleaving of it alone. -/
theorem run_interleaves (h : p.run H s = some (a, s')) :
    Relation.ReflTransGen (Interleaves H.serves) ([p], s) ([.ret a], s') := by
  induction p generalizing s with
  | ret b =>
    cases h
    exact .refl
  | op o k ih =>
    simp only [Prog.run] at h
    rcases ho : H o s with _ | ⟨r, s₁⟩
    · simp [ho] at h
    · simp only [ho] at h
      have hstep : Interleaves H.serves ([] ++ Prog.op o k :: [], s) ([] ++ k r :: [], s₁) := .step ho
      exact .head hstep (ih r h)

theorem Keeps.run (h : Keeps C post g p) (hmet : C.Met H.serves inv) (hs : inv s) (hrun : p.run H s = some (a, s')) :
    (∃ g', post g' a) ∧ inv s' := by
  have hps : List.Forall₂ (fun _ p => ∃ g, Keeps C post g p) [()] [p] := .cons ⟨g, h⟩ .nil
  obtain ⟨hps, hs'⟩ := Keeps.reaches hmet hps hs (run_interleaves hrun)
  cases hps with
  | cons ha _ => exact ⟨ha, hs'⟩

/-- Where the monitor ends clean, every answer was also the other service's, and within `meets`. -/
theorem Keeps.agrees_noting {H' : Handler Op Res S'} {g' : G} (view : S → S') (clean : G → Prop)
    (meets : (o : Op) → Res o → Prop) (h : Keeps C post g p) (hmet : C.Met H.serves inv)
    (hclean : ∀ g o s r s', C.guar o → H o s = some (r, s') → clean (C.next g o r) →
      clean g ∧ meets o r ∧ H' o (view s) = some (r, view s'))
    (hs : inv s) (hrun : (Prog.noting C.next g p).run H s = some ((a, g'), s')) :
    post g' a ∧ (clean g' → clean g ∧ Along H meets p s ∧ p.run H' (view s) = some (a, view s')) := by
  induction p generalizing g s with
  | ret b =>
    cases hrun
    exact ⟨h, fun hg => ⟨hg, trivial, rfl⟩⟩
  | op o k ih =>
    simp only [Prog.noting, Prog.run] at hrun
    rcases ho : H o s with _ | ⟨r, s₁⟩
    · simp [ho] at hrun
    · simp only [ho] at hrun
      obtain ⟨hr, hs₁⟩ := hmet o s r s₁ h.1 hs ho
      obtain ⟨hpost, hrest⟩ := ih r (h.2 r (hr g)) hs₁ hrun
      refine ⟨hpost, fun hg => ?_⟩
      obtain ⟨hnext, halong, hrun'⟩ := hrest hg
      obtain ⟨hg, hmeets, ho'⟩ := hclean g o s r s₁ h.1 ho hnext
      refine ⟨hg, fun r' s₁' hserve => ?_, by simp only [Prog.run, ho', hrun']⟩
      obtain ⟨rfl, rfl⟩ := Prod.mk.inj (Option.some.inj (ho.symm.trans hserve))
      exact ⟨hmeets, halong⟩

theorem Keeps.agrees {H' : Handler Op Res S'} (view : S → S') (clean : G → Prop) (meets : (o : Op) → Res o → Prop)
    (h : Keeps C post g p) (hmet : C.Met H.serves inv)
    (hclean : ∀ g o s r s', C.guar o → H o s = some (r, s') → clean (C.next g o r) →
      clean g ∧ meets o r ∧ H' o (view s) = some (r, view s'))
    (hs : inv s) (hrun : p.run H s = some (a, s')) :
    ∃ g', post g' a ∧ (clean g' → clean g ∧ Along H meets p s ∧ p.run H' (view s) = some (a, view s')) := by
  have hnoting : ∃ g', (Prog.noting C.next g p).run H s = some ((a, g'), s') := exists_noting g hrun
  obtain ⟨g', hnoting⟩ := hnoting
  exact ⟨g', Keeps.agrees_noting view clean meets h hmet hclean hs hnoting⟩

/-- Two services of one state answer a program alike, where they answer every allowed request
    alike while the invariant holds, and answers within `meets` keep it. -/
theorem Keeps.alike {H' : Handler Op Res S} {meets : (o : Op) → Res o → Prop} (h : Keeps C post g p)
    (hsame : ∀ o s, C.guar o → inv s → H' o s = H o s)
    (hmet : ∀ o s r s', C.guar o → inv s → H o s = some (r, s') → meets o r → (∀ g, C.rely g o r) ∧ inv s') (hs : inv s)
    (halong : p.Along H meets s) :
    p.Along H' meets s ∧ ∀ a s', p.run H s = some (a, s') → p.run H' s = some (a, s') ∧ inv s' := by
  induction p generalizing g s with
  | ret b =>
    refine ⟨trivial, fun a s' hrun => ⟨hrun, ?_⟩⟩
    cases hrun
    exact hs
  | op o k ih =>
    have ho' := hsame o s h.1 hs
    refine ⟨fun r s₁ ho => ?_, fun a s' hrun => ?_⟩
    · rw [ho'] at ho
      obtain ⟨hmeets, hrest⟩ := halong r s₁ ho
      obtain ⟨hr, hs₁⟩ := hmet o s r s₁ h.1 hs ho hmeets
      exact ⟨hmeets, (ih r (h.2 r (hr g)) hs₁ hrest).1⟩
    · simp only [Prog.run] at hrun ⊢
      rcases ho : H o s with _ | ⟨r, s₁⟩
      · simp [ho] at hrun
      · rw [ho] at ho'
        simp only [ho] at hrun
        simp only [ho']
        obtain ⟨hmeets, hrest⟩ := halong r s₁ ho
        obtain ⟨hr, hs₁⟩ := hmet o s r s₁ h.1 hs ho hmeets
        exact (ih r (h.2 r (hr g)) hs₁ hrest).2 a s' hrun

end

end Prog

end Lib
