/-
  RustDb.Bpm.Eviction — the frames and the policies that choose a victim (`bpm/frame.rs`,
  `bpm/eviction.rs`).

  A frame's `referenced` flag stands beside the frames: only the eviction policy reads it,
  and claiming a frame changes nothing else of a frame. The three loops of the two policies
  are one `sweep`, with the tests it makes as arguments; a hand is a `Fin n`, so that every
  `frames[hand]` is in bounds.

  Proved: a sweep clears flags of unpinned frames only and finds the first frame it does not
  skip; `ClockEvictor` and `Replacer` find nothing only where every frame is pinned, and the
  clock takes a dirty frame only where no clean one was unreferenced.
-/

import RustDb.Bpm.Ops
import Mathlib.Data.Fin.VecNotation
import Mathlib.Logic.Function.Basic

namespace RustDb

namespace Bpm

/-! ## Frames, eviction policies -/

/-- `Frame`, without its `referenced` flag; the `AtomicU32` of the pins is a number without bound. -/
structure Frame where
  page : Option Page
  pinCount : Nat
  dirty : Bool
  latch : Latch

def Frame.empty : Frame := ⟨none, 0, false, .readers 0⟩

/-- What `find_victim` answers, and what it leaves of the policy and the `referenced` flags. -/
structure Victim (n : Nat) (σ : Type) where
  frame : Option (Fin n)
  policy : σ
  referenced : Fin n → Bool

/-- `trait EvictionPolicy`. -/
structure EvictionPolicy (n : Nat) (σ : Type) where
  findVictim : σ → (Fin n → Frame) → (Fin n → Bool) → Victim n σ

/-- One pass of a clock hand: `steps` frames are looked at, those not skipped are taken. -/
def sweep {n : Nat} (hn : 0 < n) (useReferenced skipDirty : Bool) (frames : Fin n → Frame) :
    Nat → Fin n → (Fin n → Bool) → Victim n (Fin n)
  | 0, hand, referenced => ⟨none, hand, referenced⟩
  | steps + 1, hand, referenced =>
    let next : Fin n := ⟨(hand + 1) % n, Nat.mod_lt _ hn⟩
    if (frames hand).pinCount ≠ 0 then sweep hn useReferenced skipDirty frames steps next referenced
    else if useReferenced && referenced hand then
      sweep hn useReferenced skipDirty frames steps next (Function.update referenced hand false)
    else if skipDirty && (frames hand).dirty then sweep hn useReferenced skipDirty frames steps next referenced
    else ⟨some hand, next, referenced⟩

/-- `ClockEvictor`: a pass that skips dirty frames, then one that does not. -/
def clockEvictor {n : Nat} (hn : 0 < n) : EvictionPolicy n (Fin n) where
  findVictim hand frames referenced :=
    let first := sweep hn true true frames n hand referenced
    match first.frame with
    | some _ => first
    | none => sweep hn true false frames n first.policy first.referenced

/-- `Replacer`: the first unpinned frame from the hand on. -/
def replacer {n : Nat} (hn : 0 < n) : EvictionPolicy n (Fin n) where
  findVictim hand frames referenced := sweep hn false false frames n hand referenced

/-! ## One sweep -/

section
variable {n : Nat} {hn : 0 < n} {useReferenced skipDirty : Bool} {frames : Fin n → Frame}
  {hand f : Fin n} {referenced : Fin n → Bool} {steps : Nat}

/-- The hand, one frame on. -/
def next (hn : 0 < n) (hand : Fin n) : Fin n := ⟨(hand + 1) % n, Nat.mod_lt _ hn⟩

/-- The tests under which a sweep passes over the frame under its hand. -/
def Skips (useReferenced skipDirty : Bool) (frames : Fin n → Frame) (referenced : Fin n → Bool)
    (f : Fin n) : Prop :=
  (frames f).pinCount ≠ 0 ∨ (useReferenced = true ∧ referenced f = true) ∨
    (skipDirty = true ∧ (frames f).dirty = true)

/-- The flags once the frame under the hand was passed over. -/
def passed (useReferenced : Bool) (frames : Fin n → Frame) (referenced : Fin n → Bool)
    (hand : Fin n) : Fin n → Bool :=
  fun f => if f = hand ∧ (frames f).pinCount = 0 ∧ useReferenced = true then false else referenced f

theorem sweep_skip (h : Skips useReferenced skipDirty frames referenced hand) :
    sweep hn useReferenced skipDirty frames (steps + 1) hand referenced =
      sweep hn useReferenced skipDirty frames steps (next hn hand)
        (passed useReferenced frames referenced hand) := by
  have hkept (hno : ¬((frames hand).pinCount = 0 ∧ useReferenced = true ∧ referenced hand = true)) :
      passed useReferenced frames referenced hand = referenced := by
    funext f
    unfold passed
    by_cases hf : f = hand ∧ (frames f).pinCount = 0 ∧ useReferenced = true
    · obtain ⟨rfl, hpin, huse⟩ := hf
      rw [if_pos ⟨rfl, hpin, huse⟩]
      exact (Bool.eq_false_iff.mpr fun href => hno ⟨hpin, huse, href⟩).symm
    · rw [if_neg hf]
  rw [sweep]
  by_cases hpin : (frames hand).pinCount ≠ 0
  · rw [if_pos hpin, hkept fun hno => hpin hno.1]
    rfl
  · rw [if_neg hpin]
    by_cases href : (useReferenced && referenced hand) = true
    · obtain ⟨huse, -⟩ := Bool.and_eq_true_iff.mp href
      rw [if_pos href]
      refine congrArg (sweep hn useReferenced skipDirty frames steps (next hn hand)) (funext fun f => ?_)
      unfold passed
      by_cases hf : f = hand
      · rw [hf, Function.update_self, if_pos ⟨rfl, not_not.mp hpin, huse⟩]
      · rw [Function.update_of_ne hf, if_neg fun hno => hf hno.1]
    · have hdirty : (skipDirty && (frames hand).dirty) = true :=
        Bool.and_eq_true_iff.mpr ((h.resolve_left hpin).resolve_left fun hno => href (Bool.and_eq_true_iff.mpr hno))
      rw [if_neg href, if_pos hdirty, hkept fun hno => href (Bool.and_eq_true_iff.mpr hno.2)]
      rfl

theorem sweep_take (h : ¬Skips useReferenced skipDirty frames referenced hand) :
    sweep hn useReferenced skipDirty frames (steps + 1) hand referenced = ⟨some hand, next hn hand, referenced⟩ := by
  obtain ⟨hpin, hrest⟩ := not_or.mp h
  obtain ⟨href, hdirty⟩ := not_or.mp hrest
  rw [sweep]
  rw [if_neg hpin, if_neg fun hno => href (Bool.and_eq_true_iff.mp hno),
    if_neg fun hno => hdirty (Bool.and_eq_true_iff.mp hno)]
  rfl

theorem sweep_some (h : (sweep hn useReferenced skipDirty frames steps hand referenced).frame = some f) :
    (frames f).pinCount = 0 ∧ (skipDirty = true → (frames f).dirty = false) := by
  induction steps generalizing hand referenced with
  | zero => cases h
  | succ steps ih =>
    by_cases hskip : Skips useReferenced skipDirty frames referenced hand
    · rw [sweep_skip hskip] at h
      exact ih h
    · rw [sweep_take hskip] at h
      cases h
      obtain ⟨hpin, hrest⟩ := not_or.mp hskip
      refine ⟨not_not.mp hpin, fun hdirty => Bool.eq_false_iff.mpr fun hno => ?_⟩
      exact hrest (Or.inr ⟨hdirty, hno⟩)

/-- A sweep clears flags, and sets none. -/
theorem sweep_referenced
    (h : (sweep hn useReferenced skipDirty frames steps hand referenced).referenced f = true) :
    referenced f = true := by
  induction steps generalizing hand referenced with
  | zero => exact h
  | succ steps ih =>
    by_cases hskip : Skips useReferenced skipDirty frames referenced hand
    · rw [sweep_skip hskip] at h
      have hpassed := ih h
      unfold passed at hpassed
      by_cases hf : f = hand ∧ (frames f).pinCount = 0 ∧ useReferenced = true
      · rw [if_pos hf] at hpassed
        cases hpassed
      · rwa [if_neg hf] at hpassed
    · rw [sweep_take hskip] at h
      exact h

/-- The flag of a pinned frame is left as it is. -/
theorem sweep_pinned (hpin : (frames f).pinCount ≠ 0) :
    (sweep hn useReferenced skipDirty frames steps hand referenced).referenced f = referenced f := by
  induction steps generalizing hand referenced with
  | zero => rfl
  | succ steps ih =>
    by_cases hskip : Skips useReferenced skipDirty frames referenced hand
    · rw [sweep_skip hskip, ih]
      unfold passed
      rw [if_neg fun hno => hpin hno.2.1]
    · rw [sweep_take hskip]

/-- The frames that the hand reaches in so many steps. -/
def Reaches (hand : Fin n) (steps : Nat) (f : Fin n) : Prop := ∃ k < steps, (f : Nat) = (hand + k) % n

theorem next_add (hn : 0 < n) (hand : Fin n) (k : Nat) : (next hn hand + k) % n = (hand + (k + 1)) % n := by
  show ((hand + 1) % n + k) % n = (hand + (k + 1)) % n
  rw [Nat.mod_add_mod, Nat.add_assoc, Nat.add_comm 1 k]

theorem Reaches.succ (h : Reaches hand (steps + 1) f) : f = hand ∨ Reaches (next hn hand) steps f := by
  obtain ⟨k, hk, hf⟩ := h
  rcases k with _ | k
  · exact Or.inl (Fin.ext (hf.trans (Nat.mod_eq_of_lt hand.isLt)))
  · exact Or.inr ⟨k, Nat.lt_of_succ_lt_succ hk, hf.trans (next_add hn hand k).symm⟩

theorem reaches_all (hand f : Fin n) : Reaches hand n f := by
  refine ⟨(f + (n - hand)) % n, Nat.mod_lt _ f.pos, ?_⟩
  rw [Nat.add_mod_mod, show (hand : Nat) + (f + (n - hand)) = f + n by omega, Nat.add_mod_right, Nat.mod_eq_of_lt f.isLt]

/-- A sweep that finds nothing passed over every frame it reached, and cleared its flag. -/
theorem sweep_none (h : (sweep hn useReferenced skipDirty frames steps hand referenced).frame = none)
    (hf : Reaches hand steps f) (hpin : (frames f).pinCount = 0) :
    Skips useReferenced skipDirty frames referenced f ∧
      (useReferenced = true → (sweep hn useReferenced skipDirty frames steps hand referenced).referenced f = false) := by
  induction steps generalizing hand referenced with
  | zero =>
    obtain ⟨k, hk, -⟩ := hf
    cases hk
  | succ steps ih =>
    have hskip : Skips useReferenced skipDirty frames referenced hand := by
      by_contra hno
      rw [sweep_take hno] at h
      cases h
    rw [sweep_skip hskip] at h ⊢
    by_cases hfh : f = hand
    · -- the flag is cleared here, and a sweep sets none
      refine ⟨hfh ▸ hskip, fun huse => Bool.eq_false_iff.mpr fun htrue => ?_⟩
      have hpassed := sweep_referenced htrue
      unfold passed at hpassed
      rw [if_pos ⟨hfh, hpin, huse⟩] at hpassed
      cases hpassed
    · obtain ⟨hskipped, hclear⟩ := ih h (hf.succ.resolve_left hfh)
      refine ⟨?_, hclear⟩
      unfold Skips passed at hskipped
      rwa [if_neg fun hno => hfh hno.1] at hskipped

/-- The first frame from the hand on, in cyclic order, that satisfies `p`. -/
def FirstFrom (hand : Fin n) (p : Fin n → Prop) (f : Fin n) : Prop :=
  ∃ k < n, (f : Nat) = (hand + k) % n ∧ p f ∧ ∀ j < k, ∀ g : Fin n, (g : Nat) = (hand + j) % n → ¬p g

/-- A sweep that reads no flag takes the first frame it does not skip. -/
theorem sweep_first (h : (sweep hn false skipDirty frames steps hand referenced).frame = some f) :
    ∃ k < steps, (f : Nat) = (hand + k) % n ∧ ¬Skips false skipDirty frames referenced f ∧
      ∀ j < k, ∀ g : Fin n, (g : Nat) = (hand + j) % n → Skips false skipDirty frames referenced g := by
  induction steps generalizing hand referenced with
  | zero => cases h
  | succ steps ih =>
    by_cases hskip : Skips false skipDirty frames referenced hand
    · have hsame : passed false frames referenced hand = referenced := by
        funext g
        unfold passed
        rw [if_neg fun hno => Bool.noConfusion hno.2.2]
      rw [sweep_skip hskip, hsame] at h
      obtain ⟨k, hk, hf, htaken, hbefore⟩ := ih h
      refine ⟨k + 1, Nat.succ_lt_succ hk, hf.trans (next_add hn hand k), htaken, ?_⟩
      intro j hj g hg
      rcases j with _ | j
      · rw [Fin.ext (hg.trans (Nat.mod_eq_of_lt hand.isLt))]
        exact hskip
      · exact hbefore j (Nat.lt_of_succ_lt_succ hj) g (hg.trans (next_add hn hand j).symm)
    · rw [sweep_take hskip] at h
      cases h
      exact ⟨0, Nat.succ_pos _, (Nat.mod_eq_of_lt f.isLt).symm, hskip, fun j hj => absurd hj (Nat.not_lt_zero j)⟩

end

/-! ## What the policies find -/

/-- What is found is unpinned, and nothing is found only where every frame is pinned. -/
structure EvictionPolicy.Finds {n : Nat} {σ : Type} (E : EvictionPolicy n σ) : Prop where
  found : ∀ {policy : σ} {frames : Fin n → Frame} {referenced : Fin n → Bool} {f : Fin n},
    (E.findVictim policy frames referenced).frame = some f → (frames f).pinCount = 0
  exhausted : ∀ {policy : σ} {frames : Fin n → Frame} {referenced : Fin n → Bool},
    (E.findVictim policy frames referenced).frame = none → ∀ f, (frames f).pinCount ≠ 0

theorem EvictionPolicy.Finds.none_iff {n : Nat} {σ : Type} {E : EvictionPolicy n σ} (hE : E.Finds) {policy : σ}
    {frames : Fin n → Frame} {referenced : Fin n → Bool} :
    (E.findVictim policy frames referenced).frame = none ↔ ∀ f, (frames f).pinCount ≠ 0 := by
  constructor
  · exact hE.exhausted
  · intro hpinned
    rcases hfound : (E.findVictim policy frames referenced).frame with _ | f
    · rfl
    · exact absurd (hE.found hfound) (hpinned f)

section
variable {n : Nat} (hn : 0 < n) {frames : Fin n → Frame} {hand f g : Fin n} {referenced : Fin n → Bool}

theorem replacer_finds : (replacer hn).Finds where
  found h := (sweep_some h).1
  exhausted {hand frames referenced} h f hpin := by
    rcases (sweep_none h (reaches_all hand f) hpin).1 with hpinned | ⟨huse, -⟩ | ⟨hskip, -⟩
    · exact hpinned hpin
    · cases huse
    · cases hskip

/-- The first pass clears the flag of every unpinned frame, so the second finds one. -/
theorem clockEvictor_finds : (clockEvictor hn).Finds where
  found {hand frames referenced f} h := by
    simp only [clockEvictor] at h
    rcases hfirst : (sweep hn true true frames n hand referenced).frame with _ | g
    · rw [hfirst] at h
      exact (sweep_some h).1
    · rw [hfirst] at h
      exact (sweep_some h).1
  exhausted {hand frames referenced} h f hpin := by
    simp only [clockEvictor] at h
    rcases hfirst : (sweep hn true true frames n hand referenced).frame with _ | g
    · rw [hfirst] at h
      have hcleared := (sweep_none hfirst (reaches_all hand f) hpin).2 rfl
      rcases (sweep_none h (reaches_all _ f) hpin).1 with hpinned | ⟨-, href⟩ | ⟨hskip, -⟩
      · exact hpinned hpin
      · cases hcleared.symm.trans href
      · cases hskip
    · rw [hfirst] at h
      cases hfirst.symm.trans h

theorem clockEvictor_dirty (h : ((clockEvictor hn).findVictim hand frames referenced).frame = some f)
    (hdirty : (frames f).dirty = true) (hpin : (frames g).pinCount = 0) :
    (frames g).dirty = true ∨ referenced g = true := by
  simp only [clockEvictor] at h
  rcases hfirst : (sweep hn true true frames n hand referenced).frame with _ | v
  · rcases (sweep_none hfirst (reaches_all hand g) hpin).1 with hpinned | ⟨-, href⟩ | ⟨-, hg⟩
    · exact absurd hpin hpinned
    · exact Or.inr href
    · exact Or.inl hg
  · rw [hfirst] at h
    cases hdirty.symm.trans ((sweep_some h).2 rfl)

theorem clockEvictor_pinned (hpin : (frames f).pinCount ≠ 0) :
    ((clockEvictor hn).findVictim hand frames referenced).referenced f = referenced f := by
  simp only [clockEvictor]
  rcases (sweep hn true true frames n hand referenced).frame with _ | v
  · exact (sweep_pinned hpin).trans (sweep_pinned hpin)
  · exact sweep_pinned hpin

theorem replacer_first (h : ((replacer hn).findVictim hand frames referenced).frame = some f) :
    FirstFrom hand (fun g => (frames g).pinCount = 0) f := by
  obtain ⟨k, hk, hf, htaken, hbefore⟩ := sweep_first h
  refine ⟨k, hk, hf, not_not.mp (not_or.mp htaken).1, ?_⟩
  intro j hj g hg hpin
  rcases hbefore j hj g hg with hpinned | ⟨huse, -⟩ | ⟨hskip, -⟩
  · exact hpinned hpin
  · cases huse
  · cases hskip

/-- The clock finds a victim where a frame is unpinned, a dirty one only where it must, and
    takes no pinned frame's second chance; the replacer finds the next unpinned frame. -/
theorem victims_found (hand : Fin n) (frames : Fin n → Frame) (referenced : Fin n → Bool) :
    let clock := (clockEvictor hn).findVictim hand frames referenced
    let next := (replacer hn).findVictim hand frames referenced
    (clock.frame = none ↔ ∀ f, (frames f).pinCount ≠ 0) ∧
    (∀ f, clock.frame = some f → (frames f).pinCount = 0) ∧
    (∀ f, clock.frame = some f → (frames f).dirty = true →
      ∀ g, (frames g).pinCount = 0 → (frames g).dirty = true ∨ referenced g = true) ∧
    (∀ f, (frames f).pinCount ≠ 0 → clock.referenced f = referenced f) ∧
    (clock.policy : Nat) < n ∧
    (next.frame = none ↔ ∀ f, (frames f).pinCount ≠ 0) ∧
    (∀ f, next.frame = some f → FirstFrom hand (fun g => (frames g).pinCount = 0) f) := by
  refine ⟨(clockEvictor_finds hn).none_iff, fun f h => (clockEvictor_finds hn).found h, ?_, ?_, Fin.isLt _,
    (replacer_finds hn).none_iff, fun f h => replacer_first hn h⟩
  · intro f hfound hdirty g hpin
    exact clockEvictor_dirty hn hfound hdirty hpin
  · intro f hpin
    exact clockEvictor_pinned hn hpin

/-- A pinned frame, a dirty one and a clean one: the clock takes the clean one. -/
def threeFrames : Fin 3 → Frame :=
  ![⟨none, 1, false, .readers 0⟩, ⟨none, 0, true, .readers 0⟩, ⟨none, 0, false, .readers 0⟩]

theorem victims_found_three :
    ((clockEvictor (Nat.succ_pos 2)).findVictim 0 threeFrames fun _ => false).frame = some 2 ∧
      FirstFrom 0 (fun g => (threeFrames g).pinCount = 0) 1 := by
  refine ⟨rfl, ?_⟩
  obtain ⟨-, -, -, -, -, -, hnext⟩ := victims_found (Nat.succ_pos 2) 0 threeFrames fun _ => false
  exact hnext 1 rfl

end

end Bpm

end RustDb
