import Bijou.Library.Continuation

/-! Readers given by a transition table: in each mode a symbol leads to another mode, ends the
reading with the symbol taken or put back, or makes it exit. -/

namespace Incremental

variable {σ π ε τ α : Type}

inductive Verdict (τ ε α : Type) where
  | go (t : τ)
  | stop (a : α)
  | back (a : α)
  | exit (e : ε)

def scan (place : τ → π) (step : τ → σ → Verdict τ ε α) : τ → Reader σ π ε α
  | t, [] => .await (place t)
  | t, c :: s =>
    match step t c with
    | .go t' => scan place step t' s
    | .stop a => .done a s
    | .back a => .done a (c :: s)
    | .exit e => .exit e

def modeAfter (step : τ → σ → Verdict τ ε α) : τ → List σ → Option τ
  | t, [] => some t
  | t, c :: s =>
    match step t c with
    | .go t' => modeAfter step t' s
    | _ => none

variable {place : τ → π} {step : τ → σ → Verdict τ ε α} {t t' : τ} {c : σ} {s u v : List σ}

@[simp] lemma scan_nil : scan place step t [] = .await (place t) := rfl

lemma scan_go (h : step t c = .go t') : scan place step t (c :: s) = scan place step t' s := by
  simp [scan, h]

lemma scan_stop {a : α} (h : step t c = .stop a) : scan place step t (c :: s) = .done a s := by
  simp [scan, h]

lemma scan_back {a : α} (h : step t c = .back a) :
    scan place step t (c :: s) = .done a (c :: s) := by
  simp [scan, h]

lemma scan_exit {e : ε} (h : step t c = .exit e) : scan place step t (c :: s) = .exit e := by
  simp [scan, h]

lemma scan_append (h : modeAfter step t u = some t') :
    scan place step t (u ++ v) = scan place step t' v := by
  induction u generalizing t with
  | nil =>
    obtain rfl : t = t' := by simpa [modeAfter] using h
    rfl
  | cons c u ih =>
    cases hc : step t c with
    | go t₁ =>
      rw [List.cons_append, scan_go hc]
      exact ih (by simpa [modeAfter, hc] using h)
    | stop a => simp [modeAfter, hc] at h
    | back a => simp [modeAfter, hc] at h
    | exit e => simp [modeAfter, hc] at h

lemma modeAfter_append (h : modeAfter step t u = some t') :
    modeAfter step t (u ++ v) = modeAfter step t' v := by
  induction u generalizing t with
  | nil =>
    obtain rfl : t = t' := by simpa [modeAfter] using h
    rfl
  | cons c u ih =>
    cases hc : step t c with
    | go t₁ =>
      simp only [modeAfter, hc] at h
      simp only [List.cons_append, modeAfter, hc]
      exact ih h
    | stop a => simp [modeAfter, hc] at h
    | back a => simp [modeAfter, hc] at h
    | exit e => simp [modeAfter, hc] at h

lemma modeAfter_stay (h : ∀ c ∈ u, step t c = .go t) : modeAfter step t u = some t := by
  induction u with
  | nil => rfl
  | cons c u ih =>
    simp only [modeAfter, h c (by simp)]
    exact ih (fun d hd => h d (by simp [hd]))

lemma modeAfter_store {mode : List σ → τ} (h : ∀ c ∈ u, ∀ l, step (mode l) c = .go (mode (l ++ [c])))
    (l : List σ) : modeAfter step (mode l) u = some (mode (l ++ u)) := by
  induction u generalizing l with
  | nil => simp [modeAfter]
  | cons c u ih =>
    simp only [modeAfter, h c (by simp)]
    rw [ih (fun d hd => h d (by simp [hd])), List.append_assoc, List.singleton_append]

lemma modeAfter_of_await {p : π} (h : scan place step t s = .await p) :
    ∃ t', modeAfter step t s = some t' ∧ place t' = p := by
  induction s generalizing t with
  | nil => exact ⟨t, rfl, by simpa using h⟩
  | cons c s ih =>
    cases hc : step t c with
    | go t₁ =>
      rw [scan_go hc] at h
      simpa only [modeAfter, hc] using ih h
    | stop a => simp [scan_stop hc] at h
    | back a => simp [scan_back hc] at h
    | exit e => simp [scan_exit hc] at h

lemma scan_shrinks (t : τ) (s : List σ) : Shrinks (scan place step t) s := by
  induction s generalizing t with
  | nil => simp [Shrinks]
  | cons c s ih =>
    intro a r h
    cases hc : step t c with
    | go t₁ =>
      rw [scan_go hc] at h
      exact (ih t₁ a r h).trans (List.suffix_cons _ _)
    | stop b =>
      obtain ⟨-, rfl⟩ : b = a ∧ s = r := by simpa [scan_stop hc] using h
      exact List.suffix_cons _ _
    | back b =>
      obtain ⟨-, rfl⟩ : b = a ∧ c :: s = r := by simpa [scan_back hc] using h
      exact List.suffix_refl _
    | exit e => simp [scan_exit hc] at h

lemma scan_eats (hb : ∀ t c a, step t c ≠ .back a) (t : τ) (s : List σ) :
    Eats (scan place step t) s := by
  induction s generalizing t with
  | nil => simp [Eats]
  | cons c s ih =>
    intro a r h
    cases hc : step t c with
    | go t₁ =>
      rw [scan_go hc] at h
      exact (ih t₁ a r h).trans (by simp)
    | stop b =>
      obtain ⟨-, rfl⟩ : b = a ∧ s = r := by simpa [scan_stop hc] using h
      simp
    | back b => exact (hb t c b hc).elim
    | exit e => simp [scan_exit hc] at h

lemma scan_steady (t : τ) (s : List σ) : Steady (scan place step t) s := by
  induction s generalizing t with
  | nil => simp [Steady]
  | cons c s ih =>
    intro x
    rw [List.cons_append]
    cases hc : step t c with
    | go t₁ =>
      rw [scan_go hc, scan_go hc]
      exact ih t₁ x
    | stop a => simp [scan_stop hc]
    | back a => simp [scan_back hc]
    | exit e => simp [scan_exit hc]

lemma scan_replicate {pad : σ} {live : τ → Prop} (hl : ∀ t, live t → ∃ t', step t pad = .go t' ∧ live t')
    (ht : live t) (k : ℕ) : ∃ p, scan place step t (List.replicate k pad) = .await p := by
  induction k generalizing t with
  | zero => exact ⟨place t, rfl⟩
  | succ k ih =>
    obtain ⟨t', hgo, ht'⟩ := hl t ht
    rw [List.replicate_succ, scan_go hgo]
    exact ih ht'

lemma scan_resolves {pad : σ} {blind : π → Prop} {mild : ε → Prop}
    (hb : ∀ t, blind (place t) → ∃ t', step t pad = .go t' ∧ blind (place t'))
    (hn : ∀ t, ¬ blind (place t) → ∃ e, mild e ∧ step t pad = .exit e) (t : τ) (s : List σ) :
    Resolves pad blind mild (scan place step t) s := by
  refine ⟨scan_steady t s, fun q hq => ?_⟩
  obtain ⟨t', ht, rfl⟩ := modeAfter_of_await hq
  refine ⟨fun h k => ?_, fun h => ?_⟩
  · rw [scan_append ht]
    exact scan_replicate hb h k
  · obtain ⟨e, hmild, he⟩ := hn t' h
    refine ⟨1, e, hmild, ?_⟩
    rw [scan_append ht, List.replicate_one, scan_exit he]

lemma scan_interchanges {blind ok : π → Prop} {mild : ε → Prop} {x y : List σ}
    (h : ∀ t, ok (place t) → scan place step t x = scan place step t y) (t : τ)
    (s : List σ) : Interchanges blind ok mild x y (scan place step t) s := by
  refine ⟨scan_steady t s, fun q hq hok => ?_⟩
  obtain ⟨t', ht, rfl⟩ := modeAfter_of_await hq
  rw [scan_append ht, scan_append ht]
  exact .of_eq (h t' hok)

end Incremental
