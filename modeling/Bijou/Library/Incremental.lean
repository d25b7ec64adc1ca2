import Mathlib.Data.List.Infix

/-! Readers of a stream of which only a finite part has been supplied. A reader finishes, exits,
or awaits the next symbol at a named place; a recursion is guarded by the symbols it consumes. -/

namespace Incremental

inductive Outcome (σ π ε α : Type) where
  | done (a : α) (rest : List σ)
  | exit (e : ε)
  | await (p : π)

def Outcome.value? {σ π ε α : Type} : Outcome σ π ε α → Option α
  | done a _ => some a
  | _ => none

def Outcome.rest? {σ π ε α : Type} : Outcome σ π ε α → Option (List σ)
  | .done _ r => some r
  | _ => none

def Outcome.place? {σ π ε α : Type} : Outcome σ π ε α → Option π
  | await p => some p
  | _ => none

def Reader (σ π ε α : Type) : Type := List σ → Outcome σ π ε α

variable {σ π ε α β γ : Type}

instance : Monad (Reader σ π ε) where
  pure a := fun s => .done a s
  bind p f := fun s =>
    match p s with
    | .done a r => f a r
    | .exit e => .exit e
    | .await q => .await q

def fail (e : ε) : Reader σ π ε α := fun _ => .exit e

def next (p : π) : Reader σ π ε σ
  | [] => .await p
  | c :: s => .done c s

def take (p : π) (n : ℕ) : Reader σ π ε (List σ) := fun s =>
  if n ≤ s.length then .done (s.take n) (s.drop n) else .await p

def forN (step : ℕ → Reader σ π ε α) : ℕ → ℕ → Reader σ π ε (List α)
  | _, 0 => pure []
  | i, n + 1 => do
    let a ← step i
    let l ← forN step (i + 1) n
    return a :: l

def mapFrom (g : ℕ → α → β) : ℕ → List α → List β
  | _, [] => []
  | i, a :: l => g i a :: mapFrom g (i + 1) l

@[simp] lemma pure_apply (a : α) (s : List σ) :
    (pure a : Reader σ π ε α) s = .done a s := rfl

@[simp] lemma fail_apply (e : ε) (s : List σ) : (fail e : Reader σ π ε α) s = .exit e := rfl

@[simp] lemma next_nil (p : π) : (next p : Reader σ π ε σ) [] = .await p := rfl

@[simp] lemma next_cons (p : π) (c : σ) (s : List σ) :
    (next p : Reader σ π ε σ) (c :: s) = .done c s := rfl

lemma Outcome.done_of_rest {o : Outcome σ π ε α} {r : List σ} (h : o.rest? = some r) :
    ∃ a, o = .done a r := by
  cases o with
  | done a s => exact ⟨a, by rw [Option.some.inj h]⟩
  | exit e => simp [Outcome.rest?] at h
  | await q => simp [Outcome.rest?] at h

lemma Outcome.done_of_value {o : Outcome σ π ε α} {a : α} (h : o.value? = some a) :
    ∃ r, o = .done a r := by
  cases o with
  | done b r => exact ⟨r, by rw [Option.some.inj h]⟩
  | exit e => simp [Outcome.value?] at h
  | await q => simp [Outcome.value?] at h

lemma bind_done {p : Reader σ π ε α} {s r : List σ} {a : α} (h : p s = .done a r)
    (f : α → Reader σ π ε β) : (p >>= f) s = f a r := by
  change (match p s with | .done a r => f a r | .exit e => .exit e | .await q => .await q) = _
  rw [h]

lemma bind_exit {p : Reader σ π ε α} {s : List σ} {e : ε} (h : p s = .exit e)
    (f : α → Reader σ π ε β) : (p >>= f) s = .exit e := by
  change (match p s with | .done a r => f a r | .exit e => .exit e | .await q => .await q) = _
  rw [h]

lemma bind_await {p : Reader σ π ε α} {s : List σ} {q : π} (h : p s = .await q)
    (f : α → Reader σ π ε β) : (p >>= f) s = .await q := by
  change (match p s with | .done a r => f a r | .exit e => .exit e | .await q => .await q) = _
  rw [h]

lemma bind_pure_apply (p : Reader σ π ε α) (s : List σ) : (p >>= pure) s = p s := by
  cases hp : p s with
  | done a r => exact bind_done hp _
  | exit e => exact bind_exit hp _
  | await q => exact bind_await hp _

lemma bind_assoc_apply (p : Reader σ π ε α) (f : α → Reader σ π ε β) (g : β → Reader σ π ε γ)
    (s : List σ) : (p >>= f >>= g) s = (p >>= fun a => f a >>= g) s := by
  cases hp : p s with
  | done a r =>
    rw [bind_done hp]
    cases hf : f a r with
    | done b m => rw [bind_done hf, bind_done ((bind_done hp f).trans hf)]
    | exit e => rw [bind_exit hf, bind_exit ((bind_done hp f).trans hf)]
    | await q => rw [bind_await hf, bind_await ((bind_done hp f).trans hf)]
  | exit e => rw [bind_exit hp, bind_exit (bind_exit hp f)]
  | await q => rw [bind_await hp, bind_await (bind_await hp f)]

instance : LawfulMonad (Reader σ π ε) :=
  LawfulMonad.mk' _ (fun p => funext (bind_pure_apply p)) (fun _ _ => rfl)
    (fun p f g => funext (bind_assoc_apply p f g))

lemma bind_apply_congr {p q : Reader σ π ε α} {f g : α → Reader σ π ε β} {s : List σ}
    (hpq : p s = q s) (h : ∀ a r, p s = .done a r → f a r = g a r) :
    (p >>= f) s = (q >>= g) s := by
  cases hp : p s with
  | done a r => rw [bind_done hp, bind_done (hpq ▸ hp), h a r hp]
  | exit e => rw [bind_exit hp, bind_exit (hpq ▸ hp)]
  | await q => rw [bind_await hp, bind_await (hpq ▸ hp)]

lemma bind_congr_left {p q : Reader σ π ε α} {s t : List σ} (h : p s = q t)
    (f : α → Reader σ π ε β) : (p >>= f) s = (q >>= f) t := by
  cases hp : p s with
  | done a r => rw [bind_done hp, bind_done (h ▸ hp)]
  | exit e => rw [bind_exit hp, bind_exit (h ▸ hp)]
  | await q' => rw [bind_await hp, bind_await (h ▸ hp)]

lemma bind_eq_done {p : Reader σ π ε α} {f : α → Reader σ π ε β} {s r : List σ} {b : β} :
    (p >>= f) s = .done b r ↔ ∃ a m, p s = .done a m ∧ f a m = .done b r := by
  cases hp : p s with
  | done a m => simp [bind_done hp]
  | exit e => simp [bind_exit hp]
  | await q => simp [bind_await hp]

lemma bind_eq_await {p : Reader σ π ε α} {f : α → Reader σ π ε β} {s : List σ} {q : π} :
    (p >>= f) s = .await q ↔ p s = .await q ∨ ∃ a m, p s = .done a m ∧ f a m = .await q := by
  cases hp : p s with
  | done a m => simp [bind_done hp]
  | exit e => simp [bind_exit hp]
  | await q' => simp [bind_await hp]

def Shrinks (p : Reader σ π ε α) (s : List σ) : Prop :=
  ∀ a r, p s = .done a r → r <:+ s

def Eats (p : Reader σ π ε α) (s : List σ) : Prop :=
  ∀ a r, p s = .done a r → r.length < s.length

def Steady (p : Reader σ π ε α) (s : List σ) : Prop :=
  ∀ t, (∀ a r, p s = .done a r → p (s ++ t) = .done a (r ++ t)) ∧
    ∀ e, p s = .exit e → p (s ++ t) = .exit e

lemma Shrinks.length_le {p : Reader σ π ε α} {s r : List σ} {a : α} (h : Shrinks p s)
    (hp : p s = .done a r) : r.length ≤ s.length := (h a r hp).length_le

structure Compositional (P : ∀ α : Type, Reader σ π ε α → List σ → Prop) : Prop where
  pure : ∀ {α : Type} (a : α) (s : List σ), P α (Pure.pure a) s
  fail : ∀ {α : Type} (e : ε) (s : List σ), P α (Incremental.fail e) s
  bind : ∀ {α β : Type} {p : Reader σ π ε α} {f : α → Reader σ π ε β} {s : List σ},
    P α p s → (∀ a r, p s = .done a r → P β (f a) r) → P β (p >>= f) s

lemma shrinks_compositional : Compositional (fun α (p : Reader σ π ε α) => Shrinks p) where
  pure a s := by
    rintro b r h
    obtain ⟨rfl, rfl⟩ : a = b ∧ s = r := by simpa using h
    exact List.suffix_refl _
  fail e s := by simp [Shrinks]
  bind := by
    intro α β p f s hp hf b r h
    obtain ⟨a, m, hm, hb⟩ := bind_eq_done.mp h
    exact (hf a m hm b r hb).trans (hp a m hm)

lemma Shrinks.bind {p : Reader σ π ε α} {f : α → Reader σ π ε β} {s : List σ}
    (hp : Shrinks p s) (hf : ∀ a r, p s = .done a r → Shrinks (f a) r) : Shrinks (p >>= f) s :=
  shrinks_compositional.bind hp hf

lemma Eats.bind_left {p : Reader σ π ε α} {f : α → Reader σ π ε β} {s : List σ}
    (hp : Eats p s) (hf : ∀ a r, p s = .done a r → Shrinks (f a) r) : Eats (p >>= f) s := by
  intro b r h
  obtain ⟨a, m, hm, hb⟩ := bind_eq_done.mp h
  exact ((hf a m hm).length_le hb).trans_lt (hp a m hm)

lemma steady_compositional : Compositional (fun α (p : Reader σ π ε α) => Steady p) where
  pure a s t := by simp
  fail e s t := by simp
  bind := by
    intro α β p f s hp hf t
    cases h : p s with
    | done a m =>
      rw [bind_done h, bind_done ((hp t).1 a m h)]
      exact hf a m h t
    | exit e =>
      rw [bind_exit h, bind_exit ((hp t).2 e h)]
      exact ⟨by simp, by simp⟩
    | await q => simp [bind_await h]

lemma Steady.bind {p : Reader σ π ε α} {f : α → Reader σ π ε β} {s : List σ}
    (hp : Steady p s) (hf : ∀ a r, p s = .done a r → Steady (f a) r) : Steady (p >>= f) s :=
  steady_compositional.bind hp hf

lemma next_steady (p : π) (s : List σ) : Steady (next p : Reader σ π ε σ) s := by
  cases s <;> simp [Steady]

lemma next_shrinks (p : π) (s : List σ) : Shrinks (next p : Reader σ π ε σ) s := by
  cases s with
  | nil => simp [Shrinks]
  | cons c s =>
    rintro a r h
    obtain ⟨rfl, rfl⟩ : c = a ∧ s = r := by simpa using h
    exact List.suffix_cons _ _

lemma take_steady (p : π) (n : ℕ) (s : List σ) : Steady (take p n : Reader σ π ε (List σ)) s := by
  intro t
  by_cases hn : n ≤ s.length
  · have hn' : n ≤ (s ++ t).length := by simp; omega
    simp only [take, if_pos hn, if_pos hn', List.take_append_of_le_length hn,
      List.drop_append_of_le_length hn]
    simp
  · simp [take, hn]

lemma take_shrinks (p : π) (n : ℕ) (s : List σ) :
    Shrinks (take p n : Reader σ π ε (List σ)) s := by
  rintro a r h
  by_cases hn : n ≤ s.length
  · obtain ⟨-, rfl⟩ : s.take n = a ∧ s.drop n = r := by simpa [take, hn] using h
    exact List.drop_suffix _ _
  · simp [take, hn] at h

lemma take_await {p q : π} {n : ℕ} {s : List σ}
    (h : (take p n : Reader σ π ε (List σ)) s = .await q) : p = q ∧ s.length < n := by
  by_cases hn : n ≤ s.length
  · simp [take, hn] at h
  · exact ⟨by simpa [take, hn] using h, by omega⟩

lemma take_append (ε : Type) (p : π) (a r : List σ) :
    (take p a.length : Reader σ π ε (List σ)) (a ++ r) = .done a r := by
  simp [take]

lemma forN_property {P : ∀ α : Type, Reader σ π ε α → List σ → Prop} (hP : Compositional P)
    {step : ℕ → Reader σ π ε α} (n : ℕ) : ∀ (i : ℕ) (s : List σ),
      (∀ j r, r <:+ s → P α (step j) r) → (∀ j r, Shrinks (step j) r) →
        P (List α) (forN step i n) s := by
  induction n with
  | zero => intro i s _ _; exact hP.pure _ _
  | succ n ih =>
    intro i s hs hr
    apply hP.bind (hs i s (List.suffix_refl s))
    intro a r ha
    have hsub : r <:+ s := hr i s a r ha
    apply hP.bind (ih (i + 1) r (fun j m hm => hs j m (hm.trans hsub)) hr)
    intro l m _
    exact hP.pure _ _

lemma forN_congr {f g : ℕ → Reader σ π ε α} (n : ℕ) : ∀ (i : ℕ) (s : List σ),
    (∀ j r, Shrinks (f j) r) → (∀ j r, r <:+ s → f j r = g j r) → forN f i n s = forN g i n s := by
  induction n with
  | zero => exact fun _ _ _ _ => rfl
  | succ n ih =>
    intro i s hf hfg
    apply bind_apply_congr (hfg i s (List.suffix_refl s))
    intro a r ha
    have hsub : r <:+ s := hf i s a r ha
    exact bind_apply_congr (ih (i + 1) r hf (fun j m hm => hfg j m (hm.trans hsub)))
      (fun _ _ _ => rfl)

lemma forN_map {step : ℕ → Reader σ π ε α} (g : ℕ → α → β) (n : ℕ) : ∀ i,
    forN (fun i => step i >>= fun a => pure (g i a)) i n =
      (forN step i n >>= fun l => pure (mapFrom g i l)) := by
  induction n with
  | zero => exact fun i => (pure_bind _ _).symm
  | succ n ih =>
    intro i
    simp only [forN, ih, bind_assoc, pure_bind, mapFrom]

lemma forN_next (p : π) (n : ℕ) : ∀ i, forN (fun _ => next p) i n = (take p n : Reader σ π ε (List σ)) := by
  induction n with
  | zero =>
    intro i
    funext s
    simp [forN, take]
  | succ n ih =>
    intro i
    funext s
    cases s with
    | nil => exact bind_await (next_nil p) _
    | cons c s =>
      rw [forN, bind_done (next_cons p c s), ih]
      by_cases hn : n ≤ s.length
      · have ht : (take p n : Reader σ π ε (List σ)) s = .done (s.take n) (s.drop n) := by simp [take, hn]
        rw [bind_done ht]
        simp [take, hn]
      · have ht : (take p n : Reader σ π ε (List σ)) s = .await p := by simp [take, hn]
        rw [bind_await ht]
        simp [take, hn]

def Exact (p : Reader σ π ε α) (s : List σ) : Prop :=
  ∀ a r, p s = .done a r → ∃ c, s = c ++ r ∧ ∀ t, p (c ++ t) = .done a t

def EndsIn (good : σ → Prop) (p : Reader σ π ε α) (s : List σ) : Prop :=
  ∀ a r, p s = .done a r → ∃ l c, s = l ++ c :: r ∧ good c

lemma exact_compositional : Compositional (fun α (p : Reader σ π ε α) => Exact p) where
  pure a s := by
    rintro b r h
    obtain ⟨rfl, rfl⟩ : a = b ∧ s = r := by simpa using h
    exact ⟨[], rfl, fun t => rfl⟩
  fail e s := by simp [Exact]
  bind := by
    intro α β p f s hp hf b r h
    obtain ⟨a, m, hm, hb⟩ := bind_eq_done.mp h
    obtain ⟨c, rfl, hc⟩ := hp a m hm
    obtain ⟨d, rfl, hd⟩ := hf a m hm b r hb
    refine ⟨c ++ d, by rw [List.append_assoc], fun t => ?_⟩
    rw [List.append_assoc, bind_done (hc _)]
    exact hd t

lemma take_exact (p : π) (n : ℕ) (s : List σ) : Exact (take p n : Reader σ π ε (List σ)) s := by
  rintro a r h
  by_cases hn : n ≤ s.length
  · obtain ⟨rfl, rfl⟩ : s.take n = a ∧ s.drop n = r := by simpa [take, hn] using h
    refine ⟨s.take n, (List.take_append_drop n s).symm, fun t => ?_⟩
    have hlen : (s.take n).length = n := List.length_take_of_le hn
    simpa only [hlen] using take_append ε p (s.take n) t
  · simp [take, hn] at h

lemma EndsIn.bind_right {good : σ → Prop} {p : Reader σ π ε α} {f : α → Reader σ π ε β}
    {s : List σ} (hp : Shrinks p s) (hf : ∀ a r, p s = .done a r → EndsIn good (f a) r) :
    EndsIn good (p >>= f) s := by
  intro b r h
  obtain ⟨a, m, hm, hb⟩ := bind_eq_done.mp h
  obtain ⟨l, rfl⟩ := hp a m hm
  obtain ⟨l', c, rfl, hc⟩ := hf a m hm b r hb
  exact ⟨l ++ l', c, by rw [List.append_assoc], hc⟩

lemma EndsIn.bind_left {good : σ → Prop} {p : Reader σ π ε α} {f : α → Reader σ π ε β}
    {s : List σ} (hp : EndsIn good p s)
    (hf : ∀ a r b r', p s = .done a r → f a r = .done b r' →
      r' = r ∨ ∃ l c, r = l ++ c :: r' ∧ good c) : EndsIn good (p >>= f) s := by
  intro b r h
  obtain ⟨a, m, hm, hb⟩ := bind_eq_done.mp h
  obtain ⟨l, c, rfl, hc⟩ := hp a m hm
  rcases hf a m b r hm hb with rfl | ⟨l', c', rfl, hc'⟩
  · exact ⟨l, c, rfl, hc⟩
  · exact ⟨l ++ c :: l', c', by simp, hc'⟩

lemma forN_endsIn {good : σ → Prop} {step : ℕ → Reader σ π ε α} (n : ℕ) : ∀ (i : ℕ) (s : List σ),
    (∀ j r, r <:+ s → EndsIn good (step j) r) → ∀ l r, forN step i n s = .done l r →
      r = s ∨ ∃ k c, s = k ++ c :: r ∧ good c := by
  induction n with
  | zero =>
    intro i s _ l r h
    obtain ⟨-, rfl⟩ : [] = l ∧ s = r := by simpa [forN] using h
    exact .inl rfl
  | succ n ih =>
    intro i s hs l r h
    obtain ⟨a, m, hm, h⟩ := bind_eq_done.mp h
    obtain ⟨l', m', hm', h⟩ := bind_eq_done.mp h
    obtain ⟨-, rfl⟩ : a :: l' = l ∧ m' = r := by simpa using h
    obtain ⟨k, c, rfl, hc⟩ := hs i s (List.suffix_refl s) a m hm
    have hsub : m <:+ k ++ c :: m := ⟨k ++ [c], by simp⟩
    rcases ih (i + 1) m (fun j r hr => hs j r (hr.trans hsub)) l' m' hm' with rfl | ⟨k', c', rfl, hc'⟩
    · exact .inr ⟨k, c, rfl, hc⟩
    · exact .inr ⟨k ++ c :: k', c', by simp, hc'⟩

section Fix

variable [Inhabited π]

def fixN (F : (β → Reader σ π ε γ) → β → Reader σ π ε γ) : ℕ → β → Reader σ π ε γ
  | 0 => fun _ _ => .await default
  | n + 1 => F (fixN F n)

def fix (F : (β → Reader σ π ε γ) → β → Reader σ π ε γ) (b : β) : Reader σ π ε γ :=
  fun s => fixN F (s.length + 1) b s

structure Guarded (F : (β → Reader σ π ε γ) → β → Reader σ π ε γ) : Prop where
  shrinks : ∀ f, (∀ b s, Shrinks (f b) s) → ∀ b s, Shrinks (F f b) s
  congr : ∀ f g b s, (∀ b' s', Shrinks (f b') s') →
    (∀ b' s', s'.length < s.length → f b' s' = g b' s') → F f b s = F g b s

variable {F : (β → Reader σ π ε γ) → β → Reader σ π ε γ}

lemma Guarded.fixN_shrinks (hF : Guarded F) (n : ℕ) (b : β) (s : List σ) :
    Shrinks (fixN F n b) s := by
  induction n generalizing b s with
  | zero => intro a r h; simp [fixN] at h
  | succ n ih => exact hF.shrinks _ (fun b s => ih b s) b s

lemma Guarded.fixN_eq (hF : Guarded F) (m n : ℕ) (b : β) (s : List σ) (hm : s.length < m)
    (hn : s.length < n) : fixN F m b s = fixN F n b s := by
  induction m generalizing n b s with
  | zero => omega
  | succ m ih =>
    cases n with
    | zero => omega
    | succ n =>
      apply hF.congr _ _ b s (hF.fixN_shrinks m)
      intro b' s' hs'
      exact ih n b' s' (by omega) (by omega)

lemma Guarded.fix_eq (hF : Guarded F) (b : β) : fix F b = F (fix F) b := by
  funext s
  change F (fixN F s.length) b s = _
  apply hF.congr _ _ b s (hF.fixN_shrinks _)
  intro b' s' hs'
  exact hF.fixN_eq _ _ b' s' hs' (Nat.lt_succ_self _)

lemma Guarded.fix_shrinks (hF : Guarded F) (b : β) (s : List σ) : Shrinks (fix F b) s :=
  fun a r h => hF.fixN_shrinks _ b s a r h

lemma Guarded.fix_property (hF : Guarded F) {P : Reader σ π ε γ → List σ → Prop}
    (h : ∀ b s, (∀ b' s', s'.length < s.length → P (fix F b') s') → P (F (fix F) b) s)
    (b : β) (s : List σ) : P (fix F b) s := by
  induction hn : s.length using Nat.strong_induction_on generalizing b s with
  | _ n ih =>
    rw [hF.fix_eq]
    exact h b s (fun b' s' hs' => ih s'.length (hn ▸ hs') b' s' rfl)

lemma Guarded.fix_result (hF : Guarded F) {I : β → Prop} {Q : γ → Prop}
    (h : ∀ b s, I b → (∀ b' s', s'.length < s.length → I b' → ∀ a r, fix F b' s' = .done a r → Q a) →
      ∀ a r, F (fix F) b s = .done a r → Q a) {b : β} (hb : I b) {s r : List σ} {a : γ}
    (hd : fix F b s = .done a r) : Q a := by
  induction hn : s.length using Nat.strong_induction_on generalizing b s a r with
  | _ n ih =>
    rw [hF.fix_eq] at hd
    exact h b s hb (fun b' s' hs' hb' a' r' hd' => ih s'.length (hn ▸ hs') hb' hd' rfl) a r hd

end Fix

end Incremental
