import Mathlib.Data.List.Basic

namespace Pool

variable {α : Type} (same : α → α → Bool)

def push (t : List α) (v : α) : List α := if t.any (same · v) then t else t ++ [v]

variable {same} {t l : List α} {u v : α}

lemma push_new (h : ∀ u ∈ t, same u v = false) : push same t v = t ++ [v] := by
  have : t.any (same · v) = false := by simpa using h
  simp [push, this]

lemma push_length_le (v : α) : (push same t v).length ≤ t.length + 1 := by
  unfold push
  split <;> simp

lemma push_sublist (v : α) : (push same t v).Sublist (t ++ [v]) := by
  by_cases hv : t.any (same · v) = true
  · rw [push, if_pos hv]
    exact List.sublist_append_left _ _
  · rw [push, if_neg hv]

lemma mem_push (h : u ∈ push same t v) : u ∈ t ∨ u = v := by
  unfold push at h
  split at h
  · exact .inl h
  · simpa using h

lemma mem_foldl_push (h : u ∈ l.foldl (push same) t) : u ∈ t ∨ u ∈ l := by
  induction l generalizing t with
  | nil => exact .inl h
  | cons v l ih =>
    rcases ih h with ht | hl
    · rcases mem_push ht with ht | rfl
      · exact .inl ht
      · exact .inr (by simp)
    · exact .inr (by simp [hl])

lemma subset_push (v : α) : t ⊆ push same t v := by
  unfold push
  split
  · exact List.Subset.refl t
  · exact List.subset_append_left t [v]

lemma subset_foldl_push (l : List α) : t ⊆ l.foldl (push same) t := by
  induction l generalizing t with
  | nil => exact List.Subset.refl t
  | cons v l ih => exact List.Subset.trans (subset_push v) ih

lemma exists_mem_foldl_push (h : v ∈ l) : ∃ u ∈ l.foldl (push same) t, u = v ∨ same u v = true := by
  induction l generalizing t with
  | nil => simp at h
  | cons w l ih =>
    rcases List.mem_cons.mp h with rfl | h
    · by_cases hany : t.any (same · v) = true
      · obtain ⟨u, hu, hsame⟩ := List.any_eq_true.mp hany
        exact ⟨u, subset_foldl_push l (subset_push v hu), .inr hsame⟩
      · refine ⟨v, subset_foldl_push l ?_, .inl rfl⟩
        rw [push, if_neg hany]
        simp
    · exact ih h

lemma push_pairwise (h : t.Pairwise (fun u v => same u v = false)) (v : α) :
    (push same t v).Pairwise (fun u v => same u v = false) := by
  by_cases hv : t.any (same · v) = true
  · rwa [push, if_pos hv]
  · have hv : ∀ u ∈ t, same u v = false := by simpa using hv
    rw [push_new hv, List.pairwise_append]
    refine ⟨h, List.pairwise_singleton _ _, fun u hu w hw => ?_⟩
    rw [List.mem_singleton.mp hw]
    exact hv u hu

lemma foldl_push_length_le (l : List α) :
    (l.foldl (push same) t).length ≤ t.length + l.length := by
  induction l generalizing t with
  | nil => simp
  | cons v l ih =>
    have hp : (push same t v).length ≤ t.length + 1 := push_length_le v
    have hl := ih (t := push same t v)
    simp only [List.foldl_cons, List.length_cons]
    omega

lemma foldl_push_new (hl : l.Pairwise (fun u v => same u v = false))
    (ht : ∀ u ∈ t, ∀ v ∈ l, same u v = false) : l.foldl (push same) t = t ++ l := by
  induction l generalizing t with
  | nil => simp
  | cons v l ih =>
    rw [List.pairwise_cons] at hl
    rw [List.foldl_cons, push_new (fun u hu => ht u hu v (by simp))]
    rw [ih hl.2 ?_, List.append_assoc, List.singleton_append]
    intro u hu w hw
    rcases List.mem_append.mp hu with hu | hu
    · exact ht u hu w (by simp [hw])
    · obtain rfl : u = v := by simpa using hu
      exact hl.1 w hw

lemma new_of_length_eq (h : (l.foldl (push same) t).length = t.length + l.length) :
    l.Pairwise (fun u v => same u v = false) ∧ ∀ u ∈ t, ∀ v ∈ l, same u v = false := by
  induction l generalizing t with
  | nil => simp
  | cons v l ih =>
    have hle : (l.foldl (push same) (push same t v)).length ≤ (push same t v).length + l.length :=
      foldl_push_length_le l
    have hp : (push same t v).length ≤ t.length + 1 := push_length_le v
    simp only [List.foldl_cons, List.length_cons] at h
    have hlen : (push same t v).length = t.length + 1 := by omega
    have hv : ∀ u ∈ t, same u v = false := by
      by_contra hc
      have ha : t.any (same · v) = true := by simpa using hc
      simp [push, ha] at hlen
    obtain ⟨hl, ht⟩ := ih (t := push same t v) (by omega)
    rw [push_new hv] at ht
    refine ⟨List.pairwise_cons.mpr ⟨ht v (by simp), hl⟩, ?_⟩
    intro u hu w hw
    rcases List.mem_cons.mp hw with rfl | hw
    · exact hv u hu
    · exact ht u (by simp [hu]) w hw

lemma length_eq_iff : (l.foldl (push same) []).length = l.length ↔
    l.Pairwise (fun u v => same u v = false) := by
  constructor
  · intro h
    exact (new_of_length_eq (t := []) (by simpa using h)).1
  · intro h
    rw [foldl_push_new h (by simp), List.nil_append]

section Partial

variable {same : α → α → Option Bool}

def search (test : α → Option Bool) : List α → Option (Option ℕ)
  | [] => some none
  | u :: t => do
    if ← test u then return some 0
    else return (← search test t).map (· + 1)

def insert (same : α → α → Option Bool) (t : List α) (v : α) : Option (Option ℕ × List α) := do
  if ← t.anyM (same · v) then return (none, t) else return (some t.length, t ++ [v])

def locate (same : α → α → Option Bool) (t : List α) (v : α) : Option (Option ℕ) := search (same v) t

lemma search_of_anyM {test : α → Option Bool} (h : t.anyM test = some true) :
    ∃ i u, search test t = some (some i) ∧ t[i]? = some u ∧ test u = some true := by
  induction t with
  | nil => simp at h
  | cons u t ih =>
    rw [List.anyM] at h
    obtain ⟨r, hr, h⟩ := Option.bind_eq_some_iff.mp h
    cases r with
    | true => exact ⟨0, u, by simp [search, hr], rfl, hr⟩
    | false =>
      obtain ⟨i, w, hi, hw, htest⟩ := ih h
      exact ⟨i + 1, w, by simp [search, hr, hi], hw, htest⟩

lemma search_concat {test : α → Option Bool} (h : t.anyM test = some false) (v : α) :
    search test (t ++ [v]) = (test v).map (fun r => if r then some t.length else none) := by
  induction t with
  | nil =>
    rw [List.nil_append, search]
    cases hv : test v with
    | none => rfl
    | some r => cases r <;> rfl
  | cons u t ih =>
    rw [List.anyM] at h
    obtain ⟨r, hr, h⟩ := Option.bind_eq_some_iff.mp h
    cases r with
    | true => simp at h
    | false =>
      rw [List.cons_append, search, hr, ih h]
      cases hv : test v with
      | none => rfl
      | some r => cases r <;> rfl

theorem locate_insert (hsymm : ∀ u v, same u v = same v u) (hrefl : same v v = some true)
    {r : Option ℕ} {t' : List α} (h : insert same t v = some (r, t')) :
    ∃ i u, locate same t' v = some (some i) ∧ t'[i]? = some u ∧ same u v = some true := by
  obtain ⟨found, hany, h⟩ := Option.bind_eq_some_iff.mp h
  have htest : (same · v) = same v := funext (fun u => hsymm u v)
  rw [htest] at hany
  cases found with
  | true =>
    obtain ⟨-, rfl⟩ : none = r ∧ t = t' := by simpa using h
    obtain ⟨i, u, hi, hu, hsame⟩ := search_of_anyM hany
    exact ⟨i, u, hi, hu, (hsymm u v).trans hsame⟩
  | false =>
    obtain ⟨-, rfl⟩ : some t.length = r ∧ t ++ [v] = t' := by simpa using h
    refine ⟨t.length, v, ?_, by simp, hrefl⟩
    rw [locate, search_concat hany, hrefl]
    rfl

end Partial

end Pool
