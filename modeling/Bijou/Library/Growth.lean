import Mathlib.Data.Set.Function

/-! Tables that only grow: an entry is added under a key that no entry had before. The keys are given
out one at a time, by a clock. -/

namespace Growth

variable {α β : Type} {l m n : List (α × β)} {key : ℕ → α} {t u : ℕ} {k : α} {b : β}

inductive Extends (l : List (α × β)) : List (α × β) → Prop
  | refl : Extends l l
  | add {m : List (α × β)} (k : α) (b : β) (h : Extends l m) (hk : ∀ p ∈ m, p.1 ≠ k) :
    Extends l ((k, b) :: m)

lemma Extends.trans (h : Extends l m) (h' : Extends m n) : Extends l n := by
  induction h' with
  | refl => exact h
  | add k b _ hk ih => exact .add k b ih hk

section Lookup

variable [BEq α] [LawfulBEq α]

lemma mem_of_lookup (h : l.lookup k = some b) : (k, b) ∈ l := by
  obtain ⟨l₁, l₂, rfl, -⟩ := List.lookup_eq_some_iff.mp h
  exact List.mem_append_right _ List.mem_cons_self

lemma Extends.lookup (h : Extends l m) (hk : l.lookup k = some b) : m.lookup k = some b := by
  induction h with
  | refl => exact hk
  | @add m k' b' _ hfresh ih =>
    have hne : k ≠ k' := hfresh _ (mem_of_lookup ih)
    rw [List.lookup_cons, beq_eq_false_iff_ne.mpr hne]
    exact ih

lemma lookup_of_nodup (h : (l.map Prod.fst).Nodup) (hp : (k, b) ∈ l) : l.lookup k = some b := by
  induction l with
  | nil => cases hp
  | cons p l ih =>
    obtain ⟨k', b'⟩ := p
    obtain ⟨hk', hl⟩ := List.nodup_cons.mp h
    rcases List.mem_cons.mp hp with heq | hmem
    · cases heq
      exact List.lookup_cons_self
    · have hne : k ≠ k' := by
        rintro rfl
        exact hk' (List.mem_map.mpr ⟨_, hmem, rfl⟩)
      rw [List.lookup_cons, beq_eq_false_iff_ne.mpr hne]
      exact ih hl hmem

end Lookup

def Stamped (key : ℕ → α) (t : ℕ) (l : List (α × β)) : Prop := ∀ p ∈ l, ∃ u < t, p.1 = key u

lemma Stamped.mono (h : Stamped key t l) (htu : t ≤ u) : Stamped key u l := by
  intro p hp
  obtain ⟨v, hv, hpv⟩ := h p hp
  exact ⟨v, hv.trans_le htu, hpv⟩

lemma Stamped.add (h : Stamped key t l) (b : β) : Stamped key (t + 1) ((key t, b) :: l) :=
  List.forall_mem_cons.mpr ⟨⟨t, t.lt_succ_self, rfl⟩, h.mono t.le_succ⟩

lemma injOn_sooner (hkey : Set.InjOn key {v | v < u}) (htu : t ≤ u) : Set.InjOn key {v | v < t} :=
  hkey.mono (fun _ hv => Nat.lt_of_lt_of_le hv htu)

lemma Stamped.fresh (h : Stamped key t l) (hkey : Set.InjOn key {v | v < u}) (ht : t < u) :
    ∀ p ∈ l, p.1 ≠ key t := by
  intro p hp heq
  obtain ⟨v, hv, hpv⟩ := h p hp
  exact hv.ne (hkey (hv.trans ht) ht (hpv.symm.trans heq))

end Growth
