import Mathlib.Order.Basic

namespace Runs

variable {C : Type} {step : C → C → Prop} {c : ℕ → C} {m : ℕ} {inv safe shown : C → Prop}

def Run (step : C → C → Prop) (c : ℕ → C) (m : ℕ) : Prop := ∀ t < m, step (c t) (c (t + 1))

lemma Run.invariant (hr : Run step c m) (hinit : inv (c 0))
    (hkeep : ∀ {x y}, step x y → inv x → safe x → inv y) (hsafe : ∀ t < m, safe (c t)) :
    ∀ t ≤ m, inv (c t) := by
  intro t
  induction t with
  | zero => exact fun _ => hinit
  | succ t ih => exact fun ht => hkeep (hr t ht) (ih (by omega)) (hsafe t ht)

lemma Run.shown_iff (hr : Run step c m) (hinit : inv (c 0))
    (hkeep : ∀ {x y}, step x y → inv x → safe x → inv y) (hshow : ∀ {x}, inv x → shown x)
    (hback : ∀ {x y}, step x y → inv x → shown y → safe x) :
    (∀ t ≤ m, shown (c t)) ↔ ∀ t < m, safe (c t) := by
  refine ⟨fun h t ht => ?_, fun h t ht => hshow (hr.invariant hinit hkeep h t ht)⟩
  induction t using Nat.strongRecOn with
  | ind t ih =>
    have hrun : Run step c t := fun u hu => hr u (by omega)
    have hinv := hrun.invariant hinit hkeep (fun u hu => ih u hu (by omega)) t (Nat.le_refl t)
    exact hback (hr t ht) hinv (h (t + 1) ht)

lemma Run.length_le {size : C → ℕ} (hr : Run step c m) (hinit : inv (c 0))
    (hkeep : ∀ {x y}, step x y → inv x → inv y)
    (hless : ∀ t < m, inv (c t) → size (c (t + 1)) < size (c t)) : m ≤ size (c 0) := by
  have hinv := @Run.invariant C step c m inv (fun _ => True) hr hinit (fun hs hi _ => hkeep hs hi)
    (fun _ _ => trivial)
  suffices h : ∀ t ≤ m, size (c t) + t ≤ size (c 0) by
    have := h m (Nat.le_refl m)
    omega
  intro t
  induction t with
  | zero => exact fun _ => Nat.le_refl _
  | succ t ih =>
    intro ht
    have hstep := hless t ht (hinv t (Nat.le_of_lt ht))
    have := ih (Nat.le_of_lt ht)
    omega

inductive Reaches (step : C → C → Prop) : ℕ → C → C → Prop
  | refl (x : C) : Reaches step 0 x x
  | head {n : ℕ} {x y z : C} (h : step x y) (rest : Reaches step n y z) : Reaches step (n + 1) x z

namespace Reaches

variable {step' : C → C → Prop} {n k : ℕ} {x y z : C}

lemma one (h : step x y) : Reaches step 1 x y := .head h (.refl y)

lemma trans (h : Reaches step n x y) (h' : Reaches step k y z) : Reaches step (n + k) x z := by
  induction h with
  | refl x => rwa [Nat.zero_add]
  | head hs _ ih =>
    rw [Nat.add_right_comm]
    exact .head hs (ih h')

lemma mono (hstep : ∀ {x y}, step x y → step' x y) (h : Reaches step n x y) :
    Reaches step' n x y := by
  induction h with
  | refl x => exact .refl x
  | head hs _ ih => exact .head (hstep hs) ih

lemma keeps (h : Reaches step n x y) (hx : inv x) (hkeep : ∀ {x y}, step x y → inv x → inv y) :
    inv y := by
  induction h with
  | refl x => exact hx
  | head hs _ ih => exact ih (hkeep hs hx)

lemma shorter (h : Reaches step n x z) (hk : k ≤ n) : ∃ y, Reaches step k x y := by
  induction h generalizing k with
  | refl x =>
    obtain rfl := Nat.le_zero.mp hk
    exact ⟨x, .refl x⟩
  | @head n x y z hs _ ih =>
    cases k with
    | zero => exact ⟨x, .refl x⟩
    | succ k =>
      obtain ⟨w, hw⟩ := ih (Nat.le_of_succ_le_succ hk)
      exact ⟨w, .head hs hw⟩

lemma follows {D : Type} {other : D → D → Prop} {R : C → D → Prop} {w : D} (h : Reaches step n x y)
    (hstep : ∀ x x' w, step x x' → R x w → ∃ w', other w w' ∧ R x' w') (hw : R x w) :
    ∃ w', Reaches other n w w' ∧ R y w' := by
  induction h generalizing w with
  | refl x => exact ⟨w, .refl w, hw⟩
  | head hs _ ih =>
    obtain ⟨w₁, hw₁, hR⟩ := hstep _ _ _ hs hw
    obtain ⟨w', hreach, hw'⟩ := ih hR
    exact ⟨w', .head hw₁ hreach, hw'⟩

lemma stops_once (h : Reaches step n x y) (hstep : ∀ x y z, step x y → step x z → y = z)
    (hy : ∀ w, ¬ step y w) (h' : Reaches step k x z) : k ≤ n ∧ ((∀ w, ¬ step z w) → y = z) := by
  induction h generalizing k with
  | refl x =>
    cases h' with
    | refl => exact ⟨Nat.le_refl 0, fun _ => rfl⟩
    | head hs _ => exact absurd hs (hy _)
  | @head n x y z hs _ ih =>
    cases h' with
    | refl => exact ⟨Nat.zero_le _, fun hz => absurd hs (hz _)⟩
    | head hs' hrest =>
      obtain rfl := hstep _ _ _ hs hs'
      obtain ⟨hk, heq⟩ := ih hy hrest
      exact ⟨Nat.succ_le_succ hk, heq⟩

end Reaches

end Runs
