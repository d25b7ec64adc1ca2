import Mathlib.Data.List.Forall2
import Mathlib.Data.Option.Basic

namespace Agreement

section Lists

lemma forall₂_getElem? {α β : Type} {R : α → β → Prop} {l : List α} {m : List β}
    (h : List.Forall₂ R l m) (j : ℕ) : Option.Rel R l[j]? m[j]? := by
  induction h generalizing j with
  | nil => exact .none
  | cons hab _ ih =>
    cases j with
    | zero => exact .some hab
    | succ j => exact ih j

lemma forall₂_set {α β : Type} {R : α → β → Prop} {l : List α} {m : List β} {a : α} {b : β}
    (h : List.Forall₂ R l m) (hab : R a b) (j : ℕ) : List.Forall₂ R (l.set j a) (m.set j b) := by
  induction h generalizing j with
  | nil => exact .nil
  | cons hxy hrest ih =>
    cases j with
    | zero => exact .cons hab hrest
    | succ j => exact .cons hxy (ih j)

lemma forall₂_right {α β : Type} {R : α → β → Prop} {P : β → Prop} {l : List α} {m : List β}
    (h : List.Forall₂ R l m) (hP : ∀ a ∈ l, ∀ b, R a b → P b) : ∀ b ∈ m, P b := by
  induction h with
  | nil => exact List.forall_mem_nil _
  | cons hab _ ih =>
    exact List.forall_mem_cons.mpr ⟨hP _ List.mem_cons_self _ hab,
      ih (fun a ha => hP a (List.mem_cons_of_mem _ ha))⟩

lemma forall₂_of_getElem? {α β : Type} {R : α → β → Prop} {l : List α} {m : List β}
    (h : ∀ j : ℕ, Option.Rel R l[j]? m[j]?) : List.Forall₂ R l m := by
  induction l generalizing m with
  | nil =>
    cases m with
    | nil => exact .nil
    | cons b m => cases h 0
  | cons a l ih =>
    cases m with
    | nil => cases h 0
    | cons b m =>
      refine .cons ?_ (ih (fun j => h (j + 1)))
      cases h 0 with
      | some hab => exact hab

lemma forall₂_window {α β : Type} {R : α → β → Prop} {l : List α} {m : List β} {first n : ℕ}
    (h : ∀ j, first ≤ j ∧ j < first + n → Option.Rel R l[j]? m[j]?) :
    List.Forall₂ R ((l.drop first).take n) ((m.drop first).take n) := by
  refine forall₂_of_getElem? (fun j => ?_)
  by_cases hj : j < n
  · rw [List.getElem?_take_of_lt hj, List.getElem?_take_of_lt hj, List.getElem?_drop,
      List.getElem?_drop]
    exact h _ ⟨by omega, by omega⟩
  · rw [List.getElem?_take_eq_none (by omega), List.getElem?_take_eq_none (by omega)]
    exact .none

lemma mapM_rel {α β γ : Type} {R : β → γ → Prop} {F : α → Option β} {G : α → Option γ} {l : List α}
    (h : ∀ a ∈ l, Option.Rel R (F a) (G a)) :
    Option.Rel (List.Forall₂ R) (l.mapM F) (l.mapM G) := by
  induction l with
  | nil => exact .some .nil
  | cons a l ih =>
    have hhead := h a List.mem_cons_self
    have htail := ih (fun a ha => h a (List.mem_cons_of_mem _ ha))
    rw [List.mapM_cons, List.mapM_cons]
    generalize F a = p at hhead ⊢
    generalize G a = q at hhead ⊢
    generalize l.mapM F = ps at htail ⊢
    generalize l.mapM G = qs at htail ⊢
    cases hhead with
    | none => exact .none
    | some hbc =>
      cases htail with
      | none => exact .none
      | some hrest => exact .some (.cons hbc hrest)

end Lists

variable {σ τ ε α β γ δ : Type}

inductive Agrees (S : σ → τ → Prop) (R : α → β → Prop) :
    Except ε (α × σ) → Except ε (β × τ) → Prop
  | ok {a : α} {b : β} {s : σ} {t : τ} (result : R a b) (state : S s t) :
    Agrees S R (.ok (a, s)) (.ok (b, t))
  | error (e : ε) : Agrees S R (.error e) (.error e)

variable {S S' : σ → τ → Prop} {R R' : α → β → Prop} {Q : γ → δ → Prop} {s : σ} {t : τ} {e : ε}
  {x : StateT σ (Except ε) α} {y : StateT τ (Except ε) β} {f : α → StateT σ (Except ε) γ}
  {g : β → StateT τ (Except ε) δ}

lemma Agrees.of_ok {r : Except ε (β × τ)} {a : α} (h : Agrees S R (.ok (a, s)) r) :
    ∃ b t, r = .ok (b, t) ∧ R a b ∧ S s t := by
  cases h with
  | ok result state => exact ⟨_, _, rfl, result, state⟩

lemma Agrees.of_error {r : Except ε (β × τ)} (h : Agrees S R (.error e) r) : r = .error e := by
  cases h with
  | error => rfl

lemma agrees_pure {a : α} {b : β} (h : R a b) (hs : S s t) :
    Agrees S R ((pure a : StateT σ (Except ε) α) s) ((pure b : StateT τ (Except ε) β) t) := .ok h hs

lemma agrees_throw (e : ε) :
    Agrees S R ((throw e : StateT σ (Except ε) α) s) ((throw e : StateT τ (Except ε) β) t) := .error e

lemma agrees_throw_bind (e : ε) : Agrees S' Q (((throw e : StateT σ (Except ε) α) >>= f) s)
    (((throw e : StateT τ (Except ε) β) >>= g) t) := .error e

lemma agrees_modify {p : σ → σ} {q : τ → τ} {R : PUnit → PUnit → Prop} (hR : R ⟨⟩ ⟨⟩)
    (hs : S (p s) (q t)) : Agrees S R ((modify p : StateT σ (Except ε) PUnit) s)
      ((modify q : StateT τ (Except ε) PUnit) t) := .ok hR hs

lemma agrees_set {s' : σ} {t' : τ} {R : PUnit → PUnit → Prop} (hR : R ⟨⟩ ⟨⟩) (hs : S s' t') :
    Agrees S R ((set s' : StateT σ (Except ε) PUnit) s) ((set t' : StateT τ (Except ε) PUnit) t) :=
  .ok hR hs

lemma agrees_bind_get {f : σ → StateT σ (Except ε) α} {g : τ → StateT τ (Except ε) β}
    (h : Agrees S R (f s s) (g t t)) : Agrees S R ((get >>= f) s) ((get >>= g) t) := h

lemma Agrees.bind (hx : Agrees S R (x s) (y t))
    (hf : ∀ a b s' t', R a b → S s' t' → Agrees S' Q (f a s') (g b t')) :
    Agrees S' Q ((x >>= f) s) ((y >>= g) t) := by
  change Agrees S' Q (x s >>= fun p => f p.1 p.2) (y t >>= fun p => g p.1 p.2)
  generalize x s = p at hx
  generalize y t = q at hx
  cases hx with
  | ok result state => exact hf _ _ _ _ result state
  | error e => exact .error e

lemma Agrees.bind_of (hx : Agrees S R (x s) (y t))
    (hf : ∀ a b s' t', x s = .ok (a, s') → R a b → S s' t' → Agrees S' Q (f a s') (g b t')) :
    Agrees S' Q ((x >>= f) s) ((y >>= g) t) := by
  change Agrees S' Q (x s >>= fun p => f p.1 p.2) (y t >>= fun p => g p.1 p.2)
  generalize x s = p at hx hf
  generalize y t = q at hx
  cases hx with
  | ok result state => exact hf _ _ _ _ rfl result state
  | error e => exact .error e

lemma Agrees.mono (h : Agrees (ε := ε) S R (x s) (y t)) (hR : ∀ a b, R a b → R' a b)
    (hS : ∀ s t, S s t → S' s t) : Agrees S' R' (x s) (y t) := by
  generalize x s = p at h
  generalize y t = q at h
  cases h with
  | ok result state => exact .ok (hR _ _ result) (hS _ _ state)
  | error e => exact .error e

end Agreement
