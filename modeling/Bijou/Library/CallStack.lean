import Bijou.Library.Runs
import Mathlib.Data.Nat.Basic

/-! An interpreter that calls itself for the functions of its program, and the machine that keeps the
waiting frames on a stack instead: one comes to an end where the other does, with the same result. -/

namespace CallStack

open Runs

variable {F S W V E : Type}

inductive Pass (F V : Type) where
  | on (f : F)
  | leave (v : V)
  | call (g : F)

/-- `W` is what a frame sees of the frame that called it. -/
structure Interpreter (F S W V E : Type) where
  pass : W → F → S → Except E (Pass F V × S)
  resume : F → V → S → Except E (F × S)
  window : F → W

inductive Control (F V : Type) where
  | run (f : F) (callers : List F)
  | ret (v : V) (callers : List F)

def Control.depth : Control F V → ℕ
  | .run _ callers => callers.length + 1
  | .ret _ callers => callers.length

namespace Interpreter

variable (I : Interpreter F S W V E)

def recurse : ℕ → W → F → S → Option (Except E (V × S))
  | 0, _, _, _ => none
  | n + 1, w, f, s =>
    match I.pass w f s with
    | .error e => some (.error e)
    | .ok (.on f', s₁) => recurse n w f' s₁
    | .ok (.leave v, s₁) => some (.ok (v, s₁))
    | .ok (.call g, s₁) =>
      match recurse n (I.window f) g s₁ with
      | none => none
      | some (.error e) => some (.error e)
      | some (.ok (v, s₂)) =>
        match I.resume f v s₂ with
        | .error e => some (.error e)
        | .ok (f', s₃) => recurse n w f' s₃

def view (w : W) : List F → W
  | [] => w
  | f :: _ => I.window f

def step (w : W) (c : Control F V) (s : S) : Option (Except E (Control F V × S)) :=
  match c with
  | .ret _ [] => none
  | .ret v (f :: callers) =>
    match I.resume f v s with
    | .error e => some (.error e)
    | .ok (f', s₁) => some (.ok (.run f' callers, s₁))
  | .run f callers =>
    match I.pass (I.view w callers) f s with
    | .error e => some (.error e)
    | .ok (.on f', s₁) => some (.ok (.run f' callers, s₁))
    | .ok (.leave v, s₁) => some (.ok (.ret v callers, s₁))
    | .ok (.call g, s₁) => some (.ok (.run g (f :: callers), s₁))

def Above (w : W) (base : List F) (x y : Control F V × S) : Prop :=
  base.length < x.1.depth ∧ I.step w x.1 x.2 = some (.ok y)

def Halts (w : W) (base : List F) (x : Control F V × S) (e : E) : Prop :=
  base.length < x.1.depth ∧ I.step w x.1 x.2 = some (.error e)

variable {I} {w : W} {base : List F} {f : F} {s s' : S} {v : V} {e : E} {n k : ℕ}
  {x y z : Control F V × S}

lemma Above.under (h : I.Above w (f :: base) x y) : I.Above w base x y :=
  ⟨Nat.lt_of_succ_lt h.1, h.2⟩

variable (I w base) in
lemma above_unique (x y z : Control F V × S) (h : I.Above w base x y) (h' : I.Above w base x z) :
    y = z := by
  have heq := h.2.symm.trans h'.2
  rw [Option.some.injEq, Except.ok.injEq] at heq
  exact heq

lemma Halts.stops (h : I.Halts w base x e) : ¬ I.Above w base x y := by
  intro h'
  have heq := h.2.symm.trans h'.2
  rw [Option.some.injEq] at heq
  cases heq

lemma stops_ret : ¬ I.Above w base (.ret v base, s) y := fun h => absurd h.1 (Nat.lt_irrefl _)

variable (I w base) in
def Matches (f : F) (s : S) : Except E (V × S) → Prop
  | .ok (v, s') => ∃ k, Reaches (I.Above w base) k (.run f base, s) (.ret v base, s')
  | .error e => ∃ k x, Reaches (I.Above w base) k (.run f base, s) x ∧ I.Halts w base x e

lemma Matches.head {f' : F} {r : Except E (V × S)}
    (h : Reaches (I.Above w base) k (.run f base, s) (.run f' base, s'))
    (hr : I.Matches w base f' s' r) : I.Matches w base f s r := by
  cases r with
  | ok p =>
    obtain ⟨j, hj⟩ := hr
    exact ⟨k + j, h.trans hj⟩
  | error e =>
    obtain ⟨j, x, hj, hx⟩ := hr
    exact ⟨k + j, x, h.trans hj, hx⟩

section Passes

variable {f' g : F}

lemma above_on (h : I.pass (I.view w base) f s = .ok (.on f', s')) :
    I.Above w base (.run f base, s) (.run f' base, s') :=
  ⟨Nat.lt_succ_self _, by simp only [step, h]⟩

lemma above_leave (h : I.pass (I.view w base) f s = .ok (.leave v, s')) :
    I.Above w base (.run f base, s) (.ret v base, s') :=
  ⟨Nat.lt_succ_self _, by simp only [step, h]⟩

lemma above_call (h : I.pass (I.view w base) f s = .ok (.call g, s')) :
    I.Above w base (.run f base, s) (.run g (f :: base), s') :=
  ⟨Nat.lt_succ_self _, by simp only [step, h]⟩

lemma above_resume (h : I.resume f v s = .ok (f', s')) :
    I.Above w base (.ret v (f :: base), s) (.run f' base, s') :=
  ⟨Nat.lt_succ_self _, by simp only [step, h]⟩

lemma halts_pass (h : I.pass (I.view w base) f s = .error e) : I.Halts w base (.run f base, s) e :=
  ⟨Nat.lt_succ_self _, by simp only [step, h]⟩

lemma halts_resume (h : I.resume f v s = .error e) : I.Halts w base (.ret v (f :: base), s) e :=
  ⟨Nat.lt_succ_self _, by simp only [step, h]⟩

end Passes

theorem recurse_matches {r : Except E (V × S)} (h : I.recurse n (I.view w base) f s = some r) :
    I.Matches w base f s r := by
  induction n generalizing base f s r with
  | zero => cases h
  | succ n ih =>
    rw [recurse] at h
    rcases hp : I.pass (I.view w base) f s with e | ⟨f' | v | g, s₁⟩
    · rw [hp] at h
      cases h
      exact ⟨0, _, .refl _, halts_pass hp⟩
    · rw [hp] at h
      exact (ih h).head (.one (above_on hp))
    · rw [hp] at h
      cases h
      exact ⟨1, .one (above_leave hp)⟩
    · rw [hp] at h
      have hcall : ∀ {q}, I.recurse n (I.window f) g s₁ = some q → I.Matches w (f :: base) g s₁ q :=
        fun {q} hq => @ih (f :: base) g s₁ q hq
      rcases hg : I.recurse n (I.window f) g s₁ with _ | e | ⟨v, s₂⟩
      · simp only [hg] at h
        cases h
      · simp only [hg] at h
        cases h
        obtain ⟨k, x, hk, hx⟩ := hcall hg
        exact ⟨_, x, .head (above_call hp) (hk.mono Above.under), Nat.lt_of_succ_lt hx.1, hx.2⟩
      · obtain ⟨k, hk⟩ := hcall hg
        have hback : Reaches (I.Above w base) (k + 1) (.run f base, s) (.ret v (f :: base), s₂) :=
          .head (above_call hp) (hk.mono Above.under)
        simp only [hg] at h
        rcases hr : I.resume f v s₂ with e | ⟨f', s₃⟩
        · rw [hr] at h
          cases h
          exact ⟨_, _, hback, halts_resume hr⟩
        · rw [hr] at h
          exact (ih h).head (hback.trans (.one (above_resume hr)))

theorem recurse_none (h : I.recurse n (I.view w base) f s = none) :
    ∃ y, Reaches (I.Above w base) n (.run f base, s) y := by
  induction n generalizing base f s with
  | zero => exact ⟨_, .refl _⟩
  | succ n ih =>
    rw [recurse] at h
    rcases hp : I.pass (I.view w base) f s with e | ⟨f' | v | g, s₁⟩
    · rw [hp] at h
      cases h
    · rw [hp] at h
      obtain ⟨y, hy⟩ := ih h
      exact ⟨y, .head (above_on hp) hy⟩
    · rw [hp] at h
      cases h
    · rw [hp] at h
      rcases hg : I.recurse n (I.window f) g s₁ with _ | e | ⟨v, s₂⟩
      · obtain ⟨y, hy⟩ := @ih (f :: base) g s₁ hg
        exact ⟨y, .head (above_call hp) (hy.mono Above.under)⟩
      · simp only [hg] at h
        cases h
      · have hmatch : I.Matches w (f :: base) g s₁ (.ok (v, s₂)) := recurse_matches hg
        obtain ⟨k, hk⟩ := hmatch
        simp only [hg] at h
        rcases hr : I.resume f v s₂ with e | ⟨f', s₃⟩
        · rw [hr] at h
          cases h
        · rw [hr] at h
          obtain ⟨y, hy⟩ := ih h
          have hlong := ((hk.mono Above.under).trans (.one (above_resume hr))).trans hy
          obtain ⟨z, hz⟩ := hlong.shorter (k := n) (by omega)
          exact ⟨z, .head (above_call hp) hz⟩

theorem recurse_iff : (∃ n, I.recurse n (I.view w base) f s = some (.ok (v, s'))) ↔
    ∃ k, Reaches (I.Above w base) k (.run f base, s) (.ret v base, s') := by
  constructor
  · rintro ⟨n, h⟩
    exact recurse_matches h
  · rintro ⟨k, hk⟩
    have hstop : ∀ y, ¬ I.Above w base (.ret v base, s') y := fun y => stops_ret
    refine ⟨k + 1, ?_⟩
    rcases h : I.recurse (k + 1) (I.view w base) f s with _ | e | ⟨v', s''⟩
    · obtain ⟨y, hy⟩ := recurse_none h
      have := (hk.stops_once (I.above_unique w base) hstop hy).1
      omega
    · obtain ⟨j, x, hj, hx⟩ := recurse_matches h
      have heq := (hk.stops_once (I.above_unique w base) hstop hj).2 (fun _ => hx.stops)
      rw [← heq] at hx
      exact absurd hx.1 (Nat.lt_irrefl _)
    · obtain ⟨j, hj⟩ := recurse_matches h
      have heq := (hk.stops_once (I.above_unique w base) hstop hj).2 (fun _ => stops_ret)
      cases heq
      rfl

theorem recurse_error_iff : (∃ n, I.recurse n (I.view w base) f s = some (.error e)) ↔
    ∃ k x, Reaches (I.Above w base) k (.run f base, s) x ∧ I.Halts w base x e := by
  constructor
  · rintro ⟨n, h⟩
    exact recurse_matches h
  · rintro ⟨k, x, hk, hx⟩
    refine ⟨k + 1, ?_⟩
    rcases h : I.recurse (k + 1) (I.view w base) f s with _ | e' | ⟨v', s''⟩
    · obtain ⟨y, hy⟩ := recurse_none h
      have := (hk.stops_once (I.above_unique w base) (fun _ => hx.stops) hy).1
      omega
    · obtain ⟨j, z, hj, hz⟩ := recurse_matches h
      obtain rfl := (hk.stops_once (I.above_unique w base) (fun _ => hx.stops) hj).2 (fun _ => hz.stops)
      have heq := hx.2.symm.trans hz.2
      rw [Option.some.injEq, Except.error.injEq] at heq
      rw [heq]
    · obtain ⟨j, hj⟩ := recurse_matches h
      obtain rfl := (hk.stops_once (I.above_unique w base) (fun _ => hx.stops) hj).2 (fun _ => stops_ret)
      exact absurd hx.1 (Nat.lt_irrefl _)

end Interpreter

end CallStack
