import Bijou.Library.Incremental

/-! How an awaiting reader goes on: with a symbol repeated forever, or with either of two
continuations. -/

namespace Incremental

variable {σ π ε α β : Type}

def Terminates (pad : σ) (p : Reader σ π ε α) (s : List σ) : Prop :=
  ∃ k, ∀ q, p (s ++ List.replicate k pad) ≠ .await q

/-- Awaiting at a blind place, the reader awaits forever; at any other place it comes to a mild exit. -/
def Resolves (pad : σ) (blind : π → Prop) (mild : ε → Prop) (p : Reader σ π ε α) (s : List σ) : Prop :=
  Steady p s ∧ ∀ q, p s = .await q →
    (blind q → ∀ k, ∃ q', p (s ++ List.replicate k pad) = .await q') ∧
    (¬ blind q → ∃ k e, mild e ∧ p (s ++ List.replicate k pad) = .exit e)

lemma Steady.append_done {p : Reader σ π ε α} {s r : List σ} {a : α} (h : Steady p s)
    (hp : p s = .done a r) (t : List σ) : p (s ++ t) = .done a (r ++ t) := (h t).1 a r hp

lemma Steady.append_exit {p : Reader σ π ε α} {s : List σ} {e : ε} (h : Steady p s)
    (hp : p s = .exit e) (t : List σ) : p (s ++ t) = .exit e := (h t).2 e hp

variable {pad : σ} {blind : π → Prop} {mild : ε → Prop}

lemma Steady.resolves_bind {p : Reader σ π ε α} {f : α → Reader σ π ε β} {s : List σ} (hp : Steady p s)
    (hblind : ∀ q, p s = .await q → blind q →
      ∀ k, ∃ q', (p >>= f) (s ++ List.replicate k pad) = .await q')
    (hexit : ∀ q, p s = .await q → ¬ blind q →
      ∃ k e, mild e ∧ (p >>= f) (s ++ List.replicate k pad) = .exit e)
    (hf : ∀ a r, p s = .done a r → Resolves pad blind mild (f a) r) : Resolves pad blind mild (p >>= f) s := by
  refine ⟨hp.bind (fun a r h => (hf a r h).1), ?_⟩
  intro q hq
  rcases bind_eq_await.mp hq with h | ⟨a, m, h, hm⟩
  · exact ⟨hblind q h, hexit q h⟩
  · have happ (k : ℕ) : (p >>= f) (s ++ List.replicate k pad) = f a (m ++ List.replicate k pad) :=
      bind_done (hp.append_done h _) f
    simp only [happ]
    exact (hf a m h).2 q hm

lemma resolves_compositional (pad : σ) (blind : π → Prop) (mild : ε → Prop) :
    Compositional (fun α (p : Reader σ π ε α) => Resolves pad blind mild p) where
  pure a s := ⟨steady_compositional.pure a s, by simp⟩
  fail e s := ⟨steady_compositional.fail e s, by simp⟩
  bind := by
    intro α β p f s hp hf
    refine hp.1.resolves_bind ?_ ?_ hf
    · intro q hq hb k
      obtain ⟨q', hk⟩ := (hp.2 q hq).1 hb k
      exact ⟨q', bind_await hk f⟩
    · intro q hq hb
      obtain ⟨k, e, he, hk⟩ := (hp.2 q hq).2 hb
      exact ⟨k, e, he, bind_exit hk f⟩

lemma Resolves.terminates_iff {p : Reader σ π ε α} {s : List σ} (h : Resolves pad blind mild p s) :
    Terminates pad p s ↔ ∀ q, p s = .await q → ¬ blind q := by
  constructor
  · rintro ⟨k, hk⟩ q hq hb
    obtain ⟨q', hq'⟩ := (h.2 q hq).1 hb k
    exact hk q' hq'
  · intro hb
    cases hp : p s with
    | done a r => exact ⟨0, by simp [hp]⟩
    | exit e => exact ⟨0, by simp [hp]⟩
    | await q =>
      obtain ⟨k, e, -, hk⟩ := (h.2 q hp).2 (hb q hp)
      exact ⟨k, by simp [hk]⟩

lemma Resolves.done_of_done {p : Reader σ π ε α} {s r : List σ} {a : α} {k : ℕ}
    (h : Resolves pad blind mild p s) (hp : ∀ s, Steady p s)
    (hk : p (s ++ List.replicate k pad) = .done a r) : ∃ r', p s = .done a r' := by
  cases hs : p s with
  | done a' r' =>
    have hdone := h.1.append_done hs (List.replicate k pad)
    rw [hk] at hdone
    cases hdone
    exact ⟨r', rfl⟩
  | exit e => cases (h.1.append_exit hs (List.replicate k pad)).symm.trans hk
  | await q =>
    by_cases hq : blind q
    · obtain ⟨q', hq'⟩ := (h.2 q hs).1 hq k
      cases hq'.symm.trans hk
    · obtain ⟨j, e, -, hj⟩ := (h.2 q hs).2 hq
      -- both runs go on to the one that has read the most
      have hdone := (hp _).append_done hk (List.replicate j pad)
      have hexit := (hp _).append_exit hj (List.replicate k pad)
      rw [List.append_assoc, ← List.replicate_add] at hdone hexit
      rw [Nat.add_comm] at hexit
      cases hdone.symm.trans hexit

def Outcome.Rejects (blind : π → Prop) (mild : ε → Prop) : Outcome σ π ε α → Prop
  | done _ _ => False
  | exit e => mild e
  | await q => ¬ blind q

inductive Outcome.Agrees (blind : π → Prop) (mild : ε → Prop) : Outcome σ π ε α → Outcome σ π ε α → Prop
  | done (a : α) (r : List σ) : Agrees blind mild (.done a r) (.done a r)
  | exit (e : ε) : Agrees blind mild (.exit e) (.exit e)
  | rejects {x y : Outcome σ π ε α} (hx : x.Rejects blind mild) (hy : y.Rejects blind mild) :
    Agrees blind mild x y
  | await {q q' : π} (hq : blind q) (hq' : blind q') : Agrees blind mild (.await q) (.await q')

lemma Outcome.Agrees.of_eq {x y : Outcome σ π ε α} (h : x = y) : x.Agrees blind mild y := by
  subst h
  cases x with
  | done a r => exact .done a r
  | exit e => exact .exit e
  | await q =>
    by_cases hq : blind q
    · exact .await hq hq
    · exact .rejects hq hq

lemma Outcome.Rejects.bind {p : Reader σ π ε α} {f : α → Reader σ π ε β} {s : List σ}
    (h : (p s).Rejects blind mild) : ((p >>= f) s).Rejects blind mild := by
  cases hp : p s with
  | done a r => rw [hp] at h; exact h.elim
  | exit e => rw [bind_exit hp]; rwa [hp] at h
  | await q => rw [bind_await hp]; rwa [hp] at h

lemma Outcome.Agrees.bind {p : Reader σ π ε α} {f : α → Reader σ π ε β} {s t : List σ}
    (h : (p s).Agrees blind mild (p t)) : ((p >>= f) s).Agrees blind mild ((p >>= f) t) := by
  generalize hs : p s = x at h
  generalize ht : p t = y at h
  cases h with
  | done a r =>
    rw [bind_done hs, bind_done ht]
    exact .of_eq rfl
  | exit e =>
    rw [bind_exit hs, bind_exit ht]
    exact .exit e
  | rejects hx hy => exact .rejects (hs ▸ hx).bind (ht ▸ hy).bind
  | await hq hq' =>
    rw [bind_await hs, bind_await ht]
    exact .await hq hq'

/-- Where the reader awaits at a place of `ok`, it makes no difference how the input goes on. -/
def Interchanges (blind ok : π → Prop) (mild : ε → Prop) (x y : List σ) (p : Reader σ π ε α)
    (s : List σ) : Prop :=
  Steady p s ∧ ∀ q, p s = .await q → ok q → (p (s ++ x)).Agrees blind mild (p (s ++ y))

lemma Steady.interchanges_bind {ok : π → Prop} {x y : List σ} {p : Reader σ π ε α}
    {f : α → Reader σ π ε β} {s : List σ} (hp : Steady p s)
    (hx : ∀ q, p s = .await q → ok q → ((p >>= f) (s ++ x)).Agrees blind mild ((p >>= f) (s ++ y)))
    (hf : ∀ a r, p s = .done a r → Interchanges blind ok mild x y (f a) r) :
    Interchanges blind ok mild x y (p >>= f) s := by
  refine ⟨hp.bind (fun a r h => (hf a r h).1), ?_⟩
  intro q hq hok
  rcases bind_eq_await.mp hq with h | ⟨a, m, h, hm⟩
  · exact hx q h hok
  · rw [bind_done (hp.append_done h x), bind_done (hp.append_done h y)]
    exact (hf a m h).2 q hm hok

lemma interchanges_compositional (blind ok : π → Prop) (mild : ε → Prop) (x y : List σ) :
    Compositional (fun α (p : Reader σ π ε α) => Interchanges blind ok mild x y p) where
  pure a s := ⟨steady_compositional.pure a s, by simp⟩
  fail e s := ⟨steady_compositional.fail e s, by simp⟩
  bind hp hf := hp.1.interchanges_bind (fun q h hok => (hp.2 q h hok).bind) hf

def Accepts (pad : σ) (p : Reader σ π ε α) (s : List σ) (a : α) : Prop :=
  ∃ k r, p (s ++ List.replicate k pad) = .done a r

def Exits (pad : σ) (p : Reader σ π ε α) (s : List σ) (e : ε) : Prop :=
  ∃ k, p (s ++ List.replicate k pad) = .exit e

/-- The two inputs are accepted with the same results, or both are rejected: mildly, or in the same
way. -/
structure SameEnd (pad : σ) (mild : ε → Prop) (p : Reader σ π ε α) (s t : List σ) : Prop where
  accepts : ∀ a, Accepts pad p s a ↔ Accepts pad p t a
  rejects : (∃ e, mild e ∧ Exits pad p s e) ↔ ∃ e, mild e ∧ Exits pad p t e
  exits : ∀ e, ¬ mild e → (Exits pad p s e ↔ Exits pad p t e)

section Endings

variable {p : Reader σ π ε α} {s t u : List σ}

lemma SameEnd.refl (s : List σ) : SameEnd pad mild p s s := ⟨fun _ => Iff.rfl, Iff.rfl, fun _ _ => Iff.rfl⟩

lemma SameEnd.trans (h : SameEnd pad mild p s t) (h' : SameEnd pad mild p t u) : SameEnd pad mild p s u :=
  ⟨fun a => (h.accepts a).trans (h'.accepts a), h.rejects.trans h'.rejects,
    fun e he => (h.exits e he).trans (h'.exits e he)⟩

lemma Steady.accepts_done {r : List σ} {a b : α} (h : Steady p s) (hp : p s = .done a r) :
    Accepts pad p s b ↔ b = a := by
  constructor
  · rintro ⟨k, m, hk⟩
    rw [h.append_done hp] at hk
    cases hk
    rfl
  · rintro rfl
    exact ⟨0, r, by simpa using hp⟩

lemma Steady.exits_done {r : List σ} {a : α} {e : ε} (h : Steady p s) (hp : p s = .done a r) :
    ¬ Exits pad p s e := by
  rintro ⟨k, hk⟩
  rw [h.append_done hp] at hk
  cases hk

lemma Exits.not_accepts {e : ε} (hs : ∀ s, Steady p s) (h : Exits pad p s e) (a : α) :
    ¬ Accepts pad p s a := by
  rintro ⟨j, r, hj⟩
  obtain ⟨k, hk⟩ := h
  have hdone := (hs _).append_done hj (List.replicate k pad)
  have hexit := (hs _).append_exit hk (List.replicate j pad)
  rw [List.append_assoc, List.replicate_append_replicate, Nat.add_comm] at hdone
  rw [List.append_assoc, List.replicate_append_replicate, hdone] at hexit
  cases hexit

lemma Exits.unique {e e' : ε} (hs : ∀ s, Steady p s) (h : Exits pad p s e) (h' : Exits pad p s e') :
    e = e' := by
  obtain ⟨k, hk⟩ := h
  obtain ⟨j, hj⟩ := h'
  have hexit := (hs _).append_exit hk (List.replicate j pad)
  have hexit' := (hs _).append_exit hj (List.replicate k pad)
  rw [List.append_assoc, List.replicate_append_replicate] at hexit hexit'
  rw [Nat.add_comm] at hexit'
  cases hexit.symm.trans hexit'
  rfl

lemma Resolves.exits_of_rejects (h : Resolves pad blind mild p s) (hp : (p s).Rejects blind mild) :
    ∃ e, mild e ∧ Exits pad p s e := by
  cases ho : p s with
  | done a r => rw [ho] at hp; exact hp.elim
  | exit e =>
    rw [ho] at hp
    exact ⟨e, hp, 0, by simpa using ho⟩
  | await q =>
    rw [ho] at hp
    obtain ⟨k, e, he, hk⟩ := (h.2 q ho).2 hp
    exact ⟨e, he, k, hk⟩

lemma Resolves.blind_ends {q : π} (h : Resolves pad blind mild p s) (hp : p s = .await q) (hq : blind q) :
    (∀ e, ¬ Exits pad p s e) ∧ ∀ a, ¬ Accepts pad p s a := by
  have hawait := (h.2 q hp).1 hq
  constructor
  · rintro e ⟨k, hk⟩
    obtain ⟨q', hq'⟩ := hawait k
    rw [hq'] at hk
    cases hk
  · rintro a ⟨k, r, hk⟩
    obtain ⟨q', hq'⟩ := hawait k
    rw [hq'] at hk
    cases hk

lemma SameEnd.of_done {a : α} {r r' : List σ} (hs : ∀ s, Steady p s) (hx : p s = .done a r)
    (hy : p t = .done a r') : SameEnd pad mild p s t := by
  have hnone : ∀ e, ¬ Exits pad p s e := fun e => (hs s).exits_done hx
  have hnone' : ∀ e, ¬ Exits pad p t e := fun e => (hs t).exits_done hy
  refine ⟨fun b => ?_, iff_of_false (fun ⟨e, _, h⟩ => hnone e h) (fun ⟨e, _, h⟩ => hnone' e h),
    fun e _ => iff_of_false (hnone e) (hnone' e)⟩
  rw [(hs s).accepts_done hx, (hs t).accepts_done hy]

lemma SameEnd.of_exits {e : ε} (hs : ∀ s, Steady p s) (hx : Exits pad p s e) (hy : Exits pad p t e) :
    SameEnd pad mild p s t := by
  have hiff : ∀ e', Exits pad p s e' ↔ Exits pad p t e' := fun e' =>
    ⟨fun h => hx.unique hs h ▸ hy, fun h => hy.unique hs h ▸ hx⟩
  exact ⟨fun a => iff_of_false (hx.not_accepts hs a) (hy.not_accepts hs a), by simp only [hiff],
    fun e' _ => hiff e'⟩

lemma Outcome.Agrees.sameEnd (h : (p s).Agrees blind mild (p t)) (hs : ∀ s, Steady p s)
    (hr : ∀ s, Resolves pad blind mild p s) : SameEnd pad mild p s t := by
  generalize hx : p s = x at h
  generalize hy : p t = y at h
  cases h with
  | done a r => exact .of_done hs hx hy
  | exit e => exact .of_exits hs ⟨0, by simpa using hx⟩ ⟨0, by simpa using hy⟩
  | rejects hxr hyr =>
    obtain ⟨e, he, hxe⟩ := (hr s).exits_of_rejects (hx ▸ hxr)
    obtain ⟨e', he', hye⟩ := (hr t).exits_of_rejects (hy ▸ hyr)
    refine ⟨fun a => iff_of_false (hxe.not_accepts hs a) (hye.not_accepts hs a),
      iff_of_true ⟨e, he, hxe⟩ ⟨e', he', hye⟩, fun d hd => iff_of_false (fun h => ?_) (fun h => ?_)⟩
    · exact hd (hxe.unique hs h ▸ he)
    · exact hd (hye.unique hs h ▸ he')
  | await hq hq' =>
    obtain ⟨hxs, has⟩ := (hr s).blind_ends hx hq
    obtain ⟨hxt, hat⟩ := (hr t).blind_ends hy hq'
    exact ⟨fun a => iff_of_false (has a) (hat a),
      iff_of_false (fun ⟨e, _, h⟩ => hxs e h) (fun ⟨e, _, h⟩ => hxt e h),
      fun e _ => iff_of_false (hxs e) (hxt e)⟩

lemma sameEnd_append (hs : ∀ s, Steady p s) (h : ∀ q, p s ≠ .await q) (x y : List σ) :
    SameEnd pad mild p (s ++ x) (s ++ y) := by
  cases hp : p s with
  | done a r => exact .of_done hs ((hs s).append_done hp x) ((hs s).append_done hp y)
  | exit e =>
    exact .of_exits hs ⟨0, by simpa using (hs s).append_exit hp x⟩ ⟨0, by simpa using (hs s).append_exit hp y⟩
  | await q => exact (h q hp).elim

end Endings

end Incremental
