import Mathlib.Logic.Basic

namespace Postconditions

variable {σ ε α β : Type}

/-- From `s` the computation ends as `Q` says, or throws what `E` allows. -/
def Meets (E : ε → Prop) (Q : α → σ → Prop) (x : StateT σ (Except ε) α) (s : σ) : Prop :=
  match x s with
  | .ok (a, s') => Q a s'
  | .error e => E e

variable {E E' : ε → Prop} {Q R : α → σ → Prop} {P : β → σ → Prop} {s s' : σ} {a : α} {e : ε}
  {x : StateT σ (Except ε) α} {g : α → StateT σ (Except ε) β}

lemma Meets.of_ok (h : Meets E Q x s) (hx : x s = .ok (a, s')) : Q a s' := by
  rw [Meets, hx] at h
  exact h

lemma Meets.of_error (h : Meets E Q x s) (hx : x s = .error e) : E e := by
  rw [Meets, hx] at h
  exact h

lemma meets_iff : Meets E Q x s ↔
    (∀ a s', x s = .ok (a, s') → Q a s') ∧ ∀ e, x s = .error e → E e := by
  refine ⟨fun h => ⟨fun _ _ => h.of_ok, fun _ => h.of_error⟩, fun h => ?_⟩
  rw [Meets]
  rcases hx : x s with e | ⟨a, s'⟩
  · exact h.2 e hx
  · exact h.1 a s' hx

lemma Meets.of_eq {y : StateT σ (Except ε) α} (h : Meets E Q y s) (hxy : x s = y s) :
    Meets E Q x s := by
  rw [Meets, hxy]
  exact h

lemma Meets.weaken (h : Meets E Q x s) (hQ : ∀ a s', Q a s' → R a s') : Meets E R x s :=
  meets_iff.mpr ⟨fun a s' hx => hQ a s' (h.of_ok hx), fun _ => h.of_error⟩

lemma Meets.throws (h : Meets E Q x s) (hE : ∀ e, E e → E' e) : Meets E' Q x s :=
  meets_iff.mpr ⟨fun _ _ => h.of_ok, fun e hx => hE e (h.of_error hx)⟩

lemma Meets.and (h : Meets E Q x s) (hR : ∀ a s', x s = .ok (a, s') → R a s') :
    Meets E (fun a s' => Q a s' ∧ R a s') x s :=
  meets_iff.mpr ⟨fun a s' hx => ⟨h.of_ok hx, hR a s' hx⟩, fun _ => h.of_error⟩

lemma meets_pure (h : Q a s) : Meets E Q (pure a) s := h

lemma meets_throw (h : E e) : Meets E Q (throw e) s := h

lemma meets_get {Q : σ → σ → Prop} (h : Q s s) : Meets E Q get s := h

lemma meets_modify {Q : PUnit → σ → Prop} {f : σ → σ} (h : Q ⟨⟩ (f s)) : Meets E Q (modify f) s := h

lemma Meets.bind (hx : Meets E R x s) (hg : ∀ a s', R a s' → Meets E P (g a) s') :
    Meets E P (x >>= g) s := by
  change match x s >>= fun p => g p.1 p.2 with
    | .ok (b, s') => P b s'
    | .error e => E e
  rcases h : x s with e | ⟨a, s'⟩
  · exact hx.of_error h
  · exact hg a s' (hx.of_ok h)

lemma meets_bind_ok (hx : x s = .ok (a, s')) (hg : Meets E P (g a) s') : Meets E P (x >>= g) s :=
  Meets.bind (R := fun a₁ s₁ => Meets E P (g a₁) s₁) (by rw [Meets, hx]; exact hg) (fun _ _ h => h)

lemma meets_bind (hx : Meets E (fun a s' => Meets E P (g a) s') x s) : Meets E P (x >>= g) s :=
  hx.bind (fun _ _ h => h)

end Postconditions
