import Mathlib.Data.Set.Basic

/-! Places with edges between them, some of which fill a slot. A slot is filled at a place when every
way to the place fills it. -/

namespace Flow

variable {P R : Type} {edge : P → P → Prop} {fills : P → Set R} {start : P} {r : R} {p q : P}

variable (edge fills start r) in
inductive Misses : P → Prop
  | start : Misses start
  | step {p q : P} (h : Misses p) (hedge : edge p q) (hr : r ∉ fills p) : Misses q

variable (edge fills start r p) in
def Filled : Prop := ¬ Misses edge fills start r p

lemma not_filled_start : ¬ Filled edge fills start r start := fun h => h .start

lemma Filled.back (h : Filled edge fills start r q) (hedge : edge p q) :
    Filled edge fills start r p ∨ r ∈ fills p := by
  by_cases hr : r ∈ fills p
  · exact .inr hr
  · exact .inl (fun hp => h (.step hp hedge hr))

lemma filled_of_table (table : P → Set R) (hstart : r ∉ table start)
    (hedge : ∀ p q, edge p q → r ∈ table q → r ∈ table p ∨ r ∈ fills p) (h : r ∈ table p) :
    Filled edge fills start r p := by
  intro hp
  induction hp with
  | start => exact hstart h
  | @step p q _ hpq hr ih => exact ih ((hedge p q hpq h).resolve_right hr)

end Flow
