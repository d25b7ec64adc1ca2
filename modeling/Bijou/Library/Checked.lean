import Bijou.Library.Automaton

/-! Readers with one more exit: what a reader does is done for as long as it is allowed, and at the first
step that is not it comes to the new exit. -/

namespace Incremental

variable {σ π ε δ τ α β ι : Type}

def Outcome.mapExit (f : ε → δ) : Outcome σ π ε α → Outcome σ π δ α
  | done a r => .done a r
  | exit e => .exit (f e)
  | await q => .await q

def lift (f : ε → δ) (p : Reader σ π ε α) : Reader σ π δ α := fun s => (p s).mapExit f

def check (F : Prop) [Decidable F] (e : δ) : Reader σ π δ Unit := if F then pure () else fail e

def Verdict.mapExit (f : ε → δ) : Verdict τ ε α → Verdict τ δ α
  | go t => .go t
  | stop a => .stop a
  | back a => .back a
  | exit e => .exit (f e)

def checked (allowed : τ → σ → Bool) (f : ε → δ) (e : δ) (step : τ → σ → Verdict τ ε α) :
    τ → σ → Verdict τ δ α := fun t c => if allowed t c then (step t c).mapExit f else .exit e

lemma checked_go {allowed : τ → σ → Bool} {f : ε → δ} {e : δ} {step : τ → σ → Verdict τ ε α} {t t' : τ} {c : σ}
    (h : step t c = .go t') (ha : allowed t c = true) : checked allowed f e step t c = .go t' := by
  rw [checked, if_pos ha, h]
  rfl

section Lift

variable {f : ε → δ} {p : Reader σ π ε α} {s r : List σ} {a : α} {q : π}

lemma lift_done : lift f p s = .done a r ↔ p s = .done a r := by
  rw [lift]
  cases p s <;> simp [Outcome.mapExit]

lemma lift_await : lift f p s = .await q ↔ p s = .await q := by
  rw [lift]
  cases p s <;> simp [Outcome.mapExit]

lemma lift_exit {d : δ} : lift f p s = .exit d ↔ ∃ e, p s = .exit e ∧ f e = d := by
  rw [lift]
  cases p s <;> simp [Outcome.mapExit]

lemma Shrinks.lift (h : Shrinks p s) : Shrinks (lift f p) s := fun a r hp => h a r (lift_done.mp hp)

lemma Eats.lift (h : Eats p s) : Eats (lift f p) s := fun a r hp => h a r (lift_done.mp hp)

lemma Steady.lift (h : Steady p s) : Steady (lift f p) s := by
  intro t
  refine ⟨fun a r hp => lift_done.mpr (h.append_done (lift_done.mp hp) t), fun d hp => ?_⟩
  obtain ⟨e, he, rfl⟩ := lift_exit.mp hp
  exact lift_exit.mpr ⟨e, h.append_exit he t, rfl⟩

variable {pad : σ} {blind ok : π → Prop} {mild : ε → Prop} {mild' : δ → Prop}

lemma Resolves.lift (h : Resolves pad blind mild p s) (hf : ∀ e, mild e → mild' (f e)) :
    Resolves pad blind mild' (lift f p) s := by
  refine ⟨h.1.lift, fun q hq => ?_⟩
  obtain ⟨hblind, hexit⟩ := h.2 q (lift_await.mp hq)
  refine ⟨fun hb k => ?_, fun hb => ?_⟩
  · obtain ⟨q', hq'⟩ := hblind hb k
    exact ⟨q', lift_await.mpr hq'⟩
  · obtain ⟨k, e, he, hk⟩ := hexit hb
    exact ⟨k, f e, hf e he, lift_exit.mpr ⟨e, hk, rfl⟩⟩

lemma Outcome.Rejects.mapExit {x : Outcome σ π ε α} (h : x.Rejects blind mild)
    (hf : ∀ e, mild e → mild' (f e)) : (x.mapExit f).Rejects blind mild' := by
  cases x with
  | done a r => exact h
  | exit e => exact hf e h
  | await q => exact h

lemma Outcome.Agrees.mapExit {x y : Outcome σ π ε α} (h : x.Agrees blind mild y)
    (hf : ∀ e, mild e → mild' (f e)) : (x.mapExit f).Agrees blind mild' (y.mapExit f) := by
  cases h with
  | done a r => exact .done a r
  | exit e => exact .exit (f e)
  | rejects hx hy => exact .rejects (hx.mapExit hf) (hy.mapExit hf)
  | await hq hq' => exact .await hq hq'

lemma Interchanges.lift {x y : List σ} (h : Interchanges blind ok mild x y p s)
    (hf : ∀ e, mild e → mild' (f e)) : Interchanges blind ok mild' x y (lift f p) s :=
  ⟨h.1.lift, fun q hq hok => (h.2 q (lift_await.mp hq) hok).mapExit hf⟩

end Lift

section Restrict

/-- The second reader does what the first does; where `bad` holds it can also come to the exit `e`. -/
def Restricts (f : ε → δ) (e : δ) (bad : Prop) (p : Reader σ π ε α) (q : Reader σ π δ α) : Prop :=
  ∀ s, q s = (p s).mapExit f ∨ bad ∧ q s = .exit e

variable {f : ε → δ} {e : δ} {bad : Prop} {p : Reader σ π ε α} {q : Reader σ π δ α} {s r : List σ} {a : α}

lemma Restricts.lift (p : Reader σ π ε α) : Restricts f e bad p (lift f p) := fun _ => .inl rfl

lemma Restricts.pure (a : α) : Restricts f e bad (Pure.pure a : Reader σ π ε α) (Pure.pure a) :=
  fun _ => .inl rfl

lemma Restricts.fail (d : ε) :
    Restricts f e bad (Incremental.fail d : Reader σ π ε α) (Incremental.fail (f d)) := fun _ => .inl rfl

lemma Restricts.bind {g : α → Reader σ π ε β} {h : α → Reader σ π δ β} (hp : Restricts f e bad p q)
    (hg : ∀ a, Restricts f e bad (g a) (h a)) : Restricts f e bad (p >>= g) (q >>= h) := by
  intro s
  rcases hp s with hs | ⟨hbad, hs⟩
  · cases hx : p s with
    | done a r =>
      rw [hx] at hs
      rw [bind_done hx, bind_done hs]
      exact hg a r
    | exit d =>
      rw [hx] at hs
      rw [bind_exit hx, bind_exit hs]
      exact .inl rfl
    | await q' =>
      rw [hx] at hs
      rw [bind_await hx, bind_await hs]
      exact .inl rfl
  · exact .inr ⟨hbad, bind_exit hs h⟩

lemma Restricts.checks {F : Prop} [Decidable F] {g : Unit → Reader σ π δ α} (hF : ¬ bad → F)
    (h : Restricts f e bad p (g ())) : Restricts f e bad p (check F e >>= g) := by
  intro s
  by_cases hF' : F
  · rw [check, if_pos hF']
    exact h s
  · rw [check, if_neg hF']
    exact .inr ⟨by_contra (fun hbad => hF' (hF hbad)), rfl⟩

lemma Restricts.fix [Inhabited π] {F : (ι → Reader σ π ε α) → ι → Reader σ π ε α}
    {G : (ι → Reader σ π δ α) → ι → Reader σ π δ α}
    (h : ∀ g k, (∀ i, Restricts f e bad (g i) (k i)) → ∀ i, Restricts f e bad (F g i) (G k i)) (i : ι) :
    Restricts f e bad (Incremental.fix F i) (Incremental.fix G i) := by
  have hN : ∀ n i, Restricts f e bad (fixN F n i) (fixN G n i) := by
    intro n
    induction n with
    | zero => exact fun _ _ => .inl rfl
    | succ n ih => exact h _ _ ih
  exact fun s => hN (s.length + 1) i s

lemma Restricts.scan {place : τ → π} {step : τ → σ → Verdict τ ε α} {allowed : τ → σ → Bool}
    (h : ¬ bad → ∀ t c, allowed t c = true) (t : τ) :
    Restricts f e bad (scan place step t) (scan place (checked allowed f e step) t) := by
  intro s
  induction s generalizing t with
  | nil => exact .inl rfl
  | cons c s ih =>
    by_cases ha : allowed t c = true
    · have hc : checked allowed f e step t c = (step t c).mapExit f := if_pos ha
      cases hv : step t c with
      | go t' =>
        rw [hv] at hc
        rw [scan_go hv, scan_go hc]
        exact ih t'
      | stop a =>
        rw [hv] at hc
        rw [scan_stop hv, scan_stop hc]
        exact .inl rfl
      | back a =>
        rw [hv] at hc
        rw [scan_back hv, scan_back hc]
        exact .inl rfl
      | exit d =>
        rw [hv] at hc
        rw [scan_exit hv, scan_exit hc]
        exact .inl rfl
    · have hc : checked allowed f e step t c = .exit e := if_neg ha
      exact .inr ⟨by_contra (fun hbad => ha (h hbad t c)), scan_exit hc⟩

lemma Restricts.done (h : Restricts f e bad p q) (hq : q s = .done a r) : p s = .done a r := by
  rcases h s with hs | ⟨-, hs⟩
  · rw [hq] at hs
    exact lift_done.mp hs.symm
  · cases hq.symm.trans hs

lemma Restricts.exit {d : ε} (h : Restricts f e bad p q) (hf : f.Injective) (hd : f d ≠ e)
    (hq : q s = .exit (f d)) : p s = .exit d := by
  rcases h s with hs | ⟨-, hs⟩
  · rw [hq] at hs
    cases hp : p s with
    | exit d' =>
      rw [hp] at hs
      rw [hf (Outcome.exit.inj hs)]
    | done a r =>
      rw [hp] at hs
      cases hs
    | await q' =>
      rw [hp] at hs
      cases hs
  · exact absurd (Outcome.exit.inj (hq.symm.trans hs)) hd

end Restrict

/-- The reader finishes where the test holds, and comes to the exit `e` where it does not. -/
structure Gated (e : δ) (F : Prop) (p : Reader σ π δ α) (s : List σ) (a : α) (r : List σ) : Prop where
  opens : F → p s = .done a r
  shut : ¬ F → p s = .exit e

namespace Gated

variable {e : δ} {F G : Prop} {p : Reader σ π δ α} {s m r : List σ} {a : α} {b : β}

lemma of_done (h : p s = .done a r) : Gated e True p s a r := ⟨fun _ => h, fun h => (h trivial).elim⟩

lemma check [Decidable F] : Gated e F (check F e : Reader σ π δ Unit) s () s := by
  refine ⟨fun h => ?_, fun h => ?_⟩
  · rw [Incremental.check, if_pos h]
    rfl
  · rw [Incremental.check, if_neg h]
    rfl

lemma iff (h : Gated e F p s a r) (hiff : F ↔ G) : Gated e G p s a r :=
  ⟨fun hG => h.opens (hiff.mpr hG), fun hG => h.shut (fun hF => hG (hiff.mp hF))⟩

lemma of_eq {q : Reader σ π δ α} {t : List σ} (heq : p s = q t) (h : Gated e F q t a r) : Gated e F p s a r :=
  ⟨fun hF => heq.trans (h.opens hF), fun hF => heq.trans (h.shut hF)⟩

lemma bind {f : α → Reader σ π δ β} (hp : Gated e F p s a m) (hf : Gated e G (f a) m b r) :
    Gated e (F ∧ G) (p >>= f) s b r := by
  refine ⟨fun h => ?_, fun h => ?_⟩
  · rw [bind_done (hp.opens h.1)]
    exact hf.opens h.2
  · by_cases hF : F
    · rw [bind_done (hp.opens hF)]
      exact hf.shut (fun hG => h ⟨hF, hG⟩)
    · exact bind_exit (hp.shut hF) f

lemma of_bind {f : α → Reader σ π δ β} (hp : p s = .done a m) (hf : Gated e F (f a) m b r) :
    Gated e F (p >>= f) s b r := .of_eq (bind_done hp f) hf

lemma scan_stop {place : τ → π} {step : τ → σ → Verdict τ ε α} {allowed : τ → σ → Bool} {f : ε → δ} {t : τ}
    {c : σ} (hstop : step t c = .stop a) (hF : allowed t c = true ↔ F) :
    Gated e F (scan place (checked allowed f e step) t) (c :: s) a s := by
  refine ⟨fun h => ?_, fun h => ?_⟩
  · have hc : checked allowed f e step t c = .stop a := by rw [checked, if_pos (hF.mpr h), hstop]; rfl
    exact Incremental.scan_stop hc
  · have hc : checked allowed f e step t c = .exit e := if_neg (fun ha => h (hF.mp ha))
    exact scan_exit hc

lemma done_iff (h : Gated e F p s a r) : (∃ a' r', p s = .done a' r') ↔ F := by
  refine ⟨fun ⟨a', r', hd⟩ => ?_, fun hF => ⟨a, r, h.opens hF⟩⟩
  by_contra hF
  cases hd.symm.trans (h.shut hF)

end Gated

end Incremental
