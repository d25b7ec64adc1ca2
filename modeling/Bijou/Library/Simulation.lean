import Bijou.Library.Incremental

namespace Incremental

variable {σ π ε α β γ δ ι κ : Type}

inductive Outcome.Related (R : α → β → Prop) : Outcome σ π ε α → Outcome σ π ε β → Prop
  | done {a : α} {b : β} (r : List σ) (h : R a b) : Related R (.done a r) (.done b r)
  | exit (e : ε) : Related R (.exit e) (.exit e)
  | await (q : π) : Related R (.await q) (.await q)

def Simulates (R : α → β → Prop) (p : Reader σ π ε α) (q : Reader σ π ε β) : Prop :=
  ∀ s, (p s).Related R (q s)

variable {R : α → β → Prop} {S : γ → δ → Prop} {p : Reader σ π ε α} {q : Reader σ π ε β}
  {f : α → Reader σ π ε γ} {g : β → Reader σ π ε δ} {s r : List σ}

lemma Simulates.pure {a : α} {b : β} (h : R a b) :
    Simulates R (Pure.pure a : Reader σ π ε α) (Pure.pure b) := fun s => .done s h

lemma Simulates.fail (e : ε) : Simulates R (Incremental.fail e : Reader σ π ε α) (Incremental.fail e) :=
  fun _ => .exit e

lemma Simulates.refl (p : Reader σ π ε α) : Simulates Eq p p := by
  intro s
  cases p s with
  | done a r => exact .done r rfl
  | exit e => exact .exit e
  | await q => exact .await q

lemma Simulates.bind (hp : Simulates R p q) (hf : ∀ a b, R a b → Simulates S (f a) (g b)) :
    Simulates S (p >>= f) (q >>= g) := by
  intro s
  have h := hp s
  generalize hx : p s = x at h
  generalize hy : q s = y at h
  cases h with
  | done r h =>
    rw [bind_done hx, bind_done hy]
    exact hf _ _ h r
  | exit e =>
    rw [bind_exit hx, bind_exit hy]
    exact .exit e
  | await q' =>
    rw [bind_await hx, bind_await hy]
    exact .await q'

lemma Simulates.bind_same (p : Reader σ π ε α) {f : α → Reader σ π ε γ} {g : α → Reader σ π ε δ}
    (hf : ∀ a, Simulates S (f a) (g a)) : Simulates S (p >>= f) (p >>= g) :=
  (Simulates.refl p).bind (by rintro a _ rfl; exact hf a)

lemma Simulates.fix [Inhabited π] {F : (ι → Reader σ π ε α) → ι → Reader σ π ε α}
    {G : (κ → Reader σ π ε β) → κ → Reader σ π ε β} {I : ι → κ → Prop}
    (h : ∀ n, (∀ i k, I i k → Simulates R (fixN F n i) (fixN G n k)) →
      ∀ i k, I i k → Simulates R (F (fixN F n) i) (G (fixN G n) k))
    {i : ι} {k : κ} (hi : I i k) : Simulates R (Incremental.fix F i) (Incremental.fix G k) := by
  have hN : ∀ n i k, I i k → Simulates R (fixN F n i) (fixN G n k) := by
    intro n
    induction n with
    | zero => exact fun _ _ _ _ => .await default
    | succ n ih => exact h n ih
  exact fun s => hN (s.length + 1) i k hi s

lemma Simulates.done {a : α} (h : Simulates R p q) (hp : p s = .done a r) :
    ∃ b, q s = .done b r ∧ R a b := by
  have hs := h s
  rw [hp] at hs
  generalize hy : q s = y at hs
  cases hs with
  | done r hR => exact ⟨_, rfl, hR⟩

lemma Simulates.done_right {b : β} (h : Simulates R p q) (hq : q s = .done b r) :
    ∃ a, p s = .done a r ∧ R a b := by
  have hs := h s
  rw [hq] at hs
  generalize hx : p s = x at hs
  cases hs with
  | done r hR => exact ⟨_, rfl, hR⟩

end Incremental
