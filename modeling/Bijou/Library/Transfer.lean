import Bijou.Library.Incremental

/-! Writers, and what a reader makes of the output of a writer. A writer is told what was written
before it; it writes, and then goes on or stops with an error. -/

namespace Incremental

def Writer (ω ε α : Type) : Type := List ω → List ω × Except ε α

variable {ω σ π ε δ α β γ : Type}

namespace Writer

def andThen (h : List ω) (f : α → Writer ω ε β) : List ω × Except ε α → List ω × Except ε β
  | (l, .ok a) => (l ++ (f a (h ++ l)).1, (f a (h ++ l)).2)
  | (l, .error e) => (l, .error e)

instance : Monad (Writer ω ε) where
  pure a := fun _ => ([], .ok a)
  bind w f := fun h => Writer.andThen h f (w h)

def write (l : List ω) : Writer ω ε Unit := fun _ => (l, .ok ())

def stop (e : ε) : Writer ω ε α := fun _ => ([], .error e)

def written : Writer ω ε (List ω) := fun h => ([], .ok h)

lemma bind_ok {w : Writer ω ε α} {h l : List ω} {a : α} (hw : w h = (l, .ok a))
    (f : α → Writer ω ε β) : (w >>= f) h = (l ++ (f a (h ++ l)).1, (f a (h ++ l)).2) := by
  change Writer.andThen h f (w h) = _
  rw [hw]
  rfl

lemma bind_error {w : Writer ω ε α} {h l : List ω} {e : ε} (hw : w h = (l, .error e))
    (f : α → Writer ω ε β) : (w >>= f) h = (l, .error e) := by
  change Writer.andThen h f (w h) = _
  rw [hw]
  rfl

lemma bind_pure_apply (w : Writer ω ε α) (h : List ω) : (w >>= pure) h = w h := by
  change Writer.andThen h pure (w h) = _
  rcases w h with ⟨l, e | a⟩
  · rfl
  · exact congrArg (·, Except.ok a) (List.append_nil l)

section Yields

variable (render : ω → List σ)

/-- What is written, in case the writer does not stop. -/
def Yields (w : Writer ω ε α) (P : List σ → Prop) : Prop :=
  ∀ h l a, w h = (l, .ok a) → P (l.flatMap render)

variable {render} {w : Writer ω ε α} {f : α → Writer ω ε β} {P Q : List σ → Prop}

lemma Yields.pure {a : α} (h : P []) : Yields render (Pure.pure a : Writer ω ε α) P := by
  rintro _ _ _ ⟨⟩
  exact h

lemma Yields.write {l : List ω} (h : P (l.flatMap render)) : Yields render (write l : Writer ω ε Unit) P := by
  rintro _ _ _ ⟨⟩
  exact h

lemma Yields.stop {e : ε} : Yields render (stop e : Writer ω ε α) P := by
  rintro _ _ _ ⟨⟩

lemma Yields.mono (hw : Yields render w P) (h : ∀ l, P l → Q l) : Yields render w Q :=
  fun s l a hl => h _ (hw s l a hl)

lemma Yields.bind (hw : Yields render w P) (hf : ∀ a, Yields render (f a) Q) :
    Yields render (w >>= f) (fun l => ∃ l₁ l₂, l = l₁ ++ l₂ ∧ P l₁ ∧ Q l₂) := by
  intro h l b hl
  rcases hwh : w h with ⟨l₁, e | a⟩
  · rw [bind_error hwh] at hl
    cases hl
  · rw [bind_ok hwh] at hl
    obtain ⟨rfl, hb⟩ := Prod.mk.inj hl
    refine ⟨_, _, List.flatMap_append, hw h l₁ a hwh, hf a (h ++ l₁) _ b ?_⟩
    exact Prod.ext rfl hb

lemma Yields.bind_pure (hw : Yields render w P) (g : α → β) :
    Yields render (w >>= fun a => (Pure.pure (g a) : Writer ω ε β)) P := by
  refine (hw.bind fun a => Yields.pure (P := (· = [])) rfl).mono ?_
  rintro _ ⟨l, _, rfl, hl, rfl⟩
  rwa [List.append_nil]

end Yields

end Writer

section Transfer

variable {ρ : Type} (render : ω → List σ)

def Transferred (out : List ω × Except δ α) (r : Reader σ π ε β) : Option (α × β) → Prop
  | some (a, b) => out.2 = .ok a ∧ ∀ t, r (out.1.flatMap render ++ t) = .done b t
  | none => (∃ e, out.2 = .error e) ∨ ∀ t, ∃ e, r (out.1.flatMap render ++ t) = .exit e

/-- What the reader makes of the output: with `some (a, b)` the writer goes on with `a` and the
reader with `b`, having read just that much; with `none` the writer stops or the reader exits. -/
def Transfers (w : Writer ω δ α) (r : Reader σ π ε β) (x : Option (α × β)) : Prop :=
  ∀ h, Transferred render (w h) r x

variable {render} {w : Writer ω δ α} {r : Reader σ π ε β} {f : α → Writer ω δ γ}
  {g : β → Reader σ π ε ρ}

lemma Transfers.pure (a : α) (b : β) :
    Transfers render (Pure.pure a : Writer ω δ α) (Pure.pure b : Reader σ π ε β) (some (a, b)) :=
  fun _ => ⟨rfl, fun _ => rfl⟩

lemma Transfers.stop (e : δ) (r : Reader σ π ε β) :
    Transfers render (Writer.stop e : Writer ω δ α) r none :=
  fun _ => .inl ⟨e, rfl⟩

lemma Transfers.fail (a : α) (e : ε) :
    Transfers render (Pure.pure a : Writer ω δ α) (Incremental.fail e : Reader σ π ε β) none :=
  fun _ => .inr (fun _ => ⟨e, rfl⟩)

lemma Transfers.bind {x : Option (α × β)} {y : α × β → Option (γ × ρ)} (hx : Transfers render w r x)
    (hy : ∀ ab, x = some ab → Transfers render (f ab.1) (g ab.2) (y ab)) :
    Transfers render (w >>= f) (r >>= g) (x.bind y) := by
  intro h
  have hxh := hx h
  rcases hw : w h with ⟨l, u⟩
  rw [hw] at hxh
  cases x with
  | none =>
    cases u with
    | error e => exact .inl ⟨e, by rw [Writer.bind_error hw]⟩
    | ok a =>
      -- the reader exits on the output of the first part alone
      have hexit := hxh.resolve_left (by simp)
      refine .inr (fun t => ?_)
      obtain ⟨e, he⟩ := hexit ((f a (h ++ l)).1.flatMap render ++ t)
      refine ⟨e, ?_⟩
      rw [Writer.bind_ok hw, List.flatMap_append, List.append_assoc]
      exact bind_exit he g
  | some ab =>
    obtain ⟨rfl, hr⟩ : u = .ok ab.1 ∧ ∀ t, r (l.flatMap render ++ t) = .done ab.2 t := hxh
    have hyh := hy ab rfl (h ++ l)
    have hread : ∀ t, (r >>= g) (((w >>= f) h).1.flatMap render ++ t) =
        g ab.2 ((f ab.1 (h ++ l)).1.flatMap render ++ t) := by
      intro t
      rw [Writer.bind_ok hw, List.flatMap_append, List.append_assoc]
      exact bind_done (hr _) g
    have hwrite : ((w >>= f) h).2 = (f ab.1 (h ++ l)).2 := by rw [Writer.bind_ok hw]
    rw [Option.bind_some]
    cases hc : y ab with
    | none =>
      rw [hc] at hyh
      exact hyh.imp (fun he => hwrite ▸ he) (fun hr t => hread t ▸ hr t)
    | some cd =>
      rw [hc] at hyh
      exact ⟨hwrite ▸ hyh.1, fun t => hread t ▸ hyh.2 t⟩

lemma Transfers.bind_some {a : α} {b : β} {y : Option (γ × ρ)}
    (hx : Transfers render w r (some (a, b))) (hy : Transfers render (f a) (g b) y) :
    Transfers render (w >>= f) (r >>= g) y :=
  hx.bind (y := fun _ => y) (by rintro _ ⟨⟩; exact hy)

lemma Transfers.bind_none (hx : Transfers render w r none) :
    Transfers render (w >>= f) (r >>= g) (none : Option (γ × ρ)) :=
  hx.bind (y := fun _ => none) nofun

lemma Transfers.read {a : α} {b : β} {y : Option (α × ρ)} (h : Transfers render w r (some (a, b)))
    (hg : Transfers render (Pure.pure a : Writer ω δ α) (g b) y) :
    Transfers render w (r >>= g) y := by
  have := h.bind_some hg
  rwa [funext (Writer.bind_pure_apply w)] at this

end Transfer

end Incremental
