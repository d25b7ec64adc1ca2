import Mathlib.Algebra.Order.Ring.Rat
import Mathlib.Data.Nat.Log
import Mathlib.Tactic.Linarith
import Mathlib.Tactic.Positivity
import Mathlib.Tactic.Ring

namespace Rounding

def nearest (n d : ℕ) : ℕ :=
  if 2 * (n % d) < d ∨ (2 * (n % d) = d ∧ n / d % 2 = 0) then n / d else n / d + 1

section Nearest

variable {n d k : ℕ}

lemma le_nearest (hd : 0 < d) (h : k * d ≤ n) : k ≤ nearest n d := by
  have hk : k ≤ n / d := (Nat.le_div_iff_mul_le hd).mpr h
  rw [nearest]
  split <;> omega

lemma nearest_le (hd : 0 < d) (h : n ≤ k * d) : nearest n d ≤ k := by
  have hdiv := Nat.div_add_mod n d
  rw [nearest]
  split_ifs with hround
  · exact Nat.div_le_of_le_mul (by rwa [mul_comm])
  · -- a remainder is left over, so the quotient is below `k`
    have hrem : 0 < n % d := by
      by_contra h0
      exact hround (.inl (by omega))
    by_contra hk
    have hle : k * d ≤ d * (n / d) := by
      rw [mul_comm]
      exact Nat.mul_le_mul_left d (by omega)
    omega

lemma nearest_mul (hd : 0 < d) (k : ℕ) : nearest (k * d) d = k :=
  Nat.le_antisymm (nearest_le hd le_rfl) (le_nearest hd le_rfl)

lemma even_le_nearest_iff (hd : 0 < d) (hk : (k + 1) % 2 = 0) :
    k + 1 ≤ nearest n d ↔ (2 * k + 1) * d ≤ 2 * n := by
  have hdiv := Nat.div_add_mod n d
  have hrem := Nat.mod_lt n hd
  have hexpand : (2 * k + 1) * d = 2 * (d * k) + d := by ring
  rw [hexpand]
  rcases lt_trichotomy (n / d) k with hlt | heq | hgt
  · have hle : d * (n / d) + d ≤ d * k := by
      rw [← Nat.mul_succ]
      exact Nat.mul_le_mul_left d hlt
    refine iff_of_false ?_ (by omega)
    rw [nearest]
    split <;> omega
  · rw [heq] at hdiv
    rw [nearest, heq]
    split_ifs <;> omega
  · have hle : d * k + d ≤ d * (n / d) := by
      rw [← Nat.mul_succ]
      exact Nat.mul_le_mul_left d hgt
    refine iff_of_true ?_ (by omega)
    rw [nearest]
    split <;> omega

end Nearest

def float (bits low m : ℕ) : ℕ :=
  let s := max (m.log2 + 1 - bits) low
  nearest m (2 ^ s) * 2 ^ s

section Float

variable {bits low m k t : ℕ}

lemma float_exact (hlow : low ≤ t) (h : m < 2 ^ bits) :
    float bits low (m * 2 ^ t) = m * 2 ^ t := by
  by_cases hm : m = 0
  · simp [hm, float, nearest]
  have hne : m * 2 ^ t ≠ 0 := by positivity
  have hlog : (m * 2 ^ t).log2 < bits + t := by
    apply (Nat.log2_lt hne).mpr
    rw [pow_add]
    exact Nat.mul_lt_mul_of_pos_right h (by positivity)
  obtain ⟨s, hs⟩ : ∃ s, s = max ((m * 2 ^ t).log2 + 1 - bits) low := ⟨_, rfl⟩
  have hsplit : m * 2 ^ t = m * 2 ^ (t - s) * 2 ^ s := by
    rw [mul_assoc, ← pow_add]
    congr 2
    omega
  rw [float, ← hs]
  conv_lhs => rw [hsplit]
  rw [nearest_mul (by positivity), ← hsplit]

lemma pow_le_float (hbits : 0 < bits) (hlow : low ≤ k) (h : 2 ^ k ≤ m) : 2 ^ k ≤ float bits low m := by
  have hlog : k ≤ m.log2 := (Nat.le_log2 (by have := Nat.two_pow_pos k; omega)).mpr h
  have hm := Nat.log2_self_le (n := m) (by have := Nat.two_pow_pos k; omega)
  obtain ⟨s, hs⟩ : ∃ s, s = max (m.log2 + 1 - bits) low := ⟨_, rfl⟩
  have hsplit : 2 ^ m.log2 = 2 ^ (m.log2 - s) * 2 ^ s := by
    rw [← pow_add]
    congr 1
    omega
  rw [float, ← hs]
  calc 2 ^ k ≤ 2 ^ m.log2 := Nat.pow_le_pow_right (by norm_num) hlog
    _ = 2 ^ (m.log2 - s) * 2 ^ s := hsplit
    _ ≤ nearest m (2 ^ s) * 2 ^ s :=
      Nat.mul_le_mul_right _ (le_nearest (by positivity) (by rwa [← hsplit]))

lemma float_le_pow (hbits : 0 < bits) (hlow : low ≤ k) (h : m < 2 ^ k) : float bits low m ≤ 2 ^ k := by
  have hlog : max (m.log2 + 1 - bits) low ≤ k := by
    by_cases hm : m = 0
    · rw [hm, Nat.log2_zero]
      omega
    · have := (Nat.log2_lt hm).mpr h
      omega
  obtain ⟨s, hs⟩ : ∃ s, s = max (m.log2 + 1 - bits) low := ⟨_, rfl⟩
  have hsplit : 2 ^ k = 2 ^ (k - s) * 2 ^ s := by
    rw [← pow_add]
    congr 1
    omega
  rw [float, ← hs, hsplit]
  exact Nat.mul_le_mul_right _ (nearest_le (by positivity) (by rw [← hsplit]; exact h.le))

lemma pow_le_float_iff (hlow : low ≤ t) :
    2 ^ (bits + 1 + t) ≤ float (bits + 1) low m ↔ (2 ^ (bits + 2) - 1) * 2 ^ t ≤ 2 * m := by
  have hpow : 2 ^ (bits + 1 + t) = 2 * 2 ^ (bits + t) := by ring
  have hpow' : 2 ^ (bits + 2) = 4 * 2 ^ bits := by ring
  have hsplit : 2 ^ bits * 2 ^ t = 2 ^ (bits + t) := (pow_add 2 bits t).symm
  have hone := Nat.two_pow_pos bits
  have hexpand : (2 ^ (bits + 2) - 1) * 2 ^ t = 4 * 2 ^ (bits + t) - 2 ^ t := by
    rw [Nat.sub_mul, hpow', one_mul, mul_assoc, hsplit]
  have hunit : 2 ^ t ≤ 2 ^ (bits + t) := Nat.pow_le_pow_right (by norm_num) (by omega)
  have hpos := Nat.two_pow_pos t
  rw [hexpand]
  rcases lt_or_ge m (2 ^ (bits + t)) with hsmall | hlarge
  · have hle := float_le_pow (by omega : 0 < bits + 1) (by omega : low ≤ bits + t) hsmall
    exact iff_of_false (by omega) (by omega)
  rcases lt_or_ge m (2 ^ (bits + 1 + t)) with hmid | hbig
  · -- the last binade below the power, whose unit is `2 ^ t`
    have hlog : m.log2 = bits + t := by
      have hne : m ≠ 0 := by have := Nat.two_pow_pos (bits + t); omega
      have hlo := (Nat.le_log2 hne).mpr hlarge
      have hhi := (Nat.log2_lt hne).mpr hmid
      omega
    have hs : max (m.log2 + 1 - (bits + 1)) low = t := by omega
    obtain ⟨k, hk⟩ : ∃ k, 2 ^ (bits + 1) = k + 1 := ⟨2 ^ (bits + 1) - 1, by
      have := Nat.two_pow_pos (bits + 1); omega⟩
    have heven : (k + 1) % 2 = 0 := by rw [← hk, pow_succ]; omega
    have hhalf : 2 * k + 1 = 2 ^ (bits + 2) - 1 := by rw [pow_succ, hk]; omega
    rw [float, hs, pow_add, Nat.mul_le_mul_right_iff (by positivity), hk,
      even_le_nearest_iff (by positivity) heven, hhalf, hexpand]
  · exact iff_of_true (pow_le_float (by omega) (by omega) hbig) (by omega)

end Float

section Gap

variable {p l u n m a : ℕ}

lemma float_gap (hl : l ≤ p) (hu : p ≤ u + l) (hn : 2 ^ l ≤ n) (hm : m < 2 ^ (p + 1))
    (h : n * 2 ^ u < m * 2 ^ a) : n * 2 ^ u + 2 ^ (u + l - p) ≤ m * 2 ^ a := by
  have ha : u + l - p ≤ a := by
    have hlow : 2 ^ (l + u) < 2 ^ (p + 1 + a) := by
      calc 2 ^ (l + u) = 2 ^ l * 2 ^ u := pow_add 2 l u
        _ ≤ n * 2 ^ u := Nat.mul_le_mul_right _ hn
        _ < m * 2 ^ a := h
        _ ≤ 2 ^ (p + 1) * 2 ^ a := Nat.mul_le_mul_right _ hm.le
        _ = 2 ^ (p + 1 + a) := (pow_add 2 (p + 1) a).symm
    have := (Nat.pow_lt_pow_iff_right (by norm_num)).mp hlow
    omega
  -- both sides are multiples of the gap
  have hleft : n * 2 ^ u = n * 2 ^ (p - l) * 2 ^ (u + l - p) := by
    rw [mul_assoc, ← pow_add]
    congr 2
    omega
  have hright : m * 2 ^ a = m * 2 ^ (a - (u + l - p)) * 2 ^ (u + l - p) := by
    rw [mul_assoc, ← pow_add]
    congr 2
    omega
  rw [hleft, hright] at h ⊢
  rw [← Nat.succ_mul]
  exact Nat.mul_le_mul_right _ (Nat.lt_of_mul_lt_mul_right h)

end Gap

def IsNearest (R : ℤ → Prop) (n : ℤ) (q : ℚ) : Prop := R n ∧ ∀ k, R k → |n - q| ≤ |k - q|

section IsNearest

variable {R : ℤ → Prop} {n k u : ℤ} {q f : ℚ}

lemma isNearest_add_iff (hn : R n) (hnext : R (n + u)) (hgap : ∀ k, R k → k ≤ n ∨ n + u ≤ k) (hu : 0 < u)
    (hf : 0 ≤ f) : IsNearest R n (n + f) ↔ 2 * f ≤ u := by
  have hu' : (0 : ℚ) < u := by exact_mod_cast hu
  have hdist : |(n : ℚ) - (n + f)| = f := by rw [sub_add_cancel_left, abs_neg, abs_of_nonneg hf]
  rw [IsNearest, hdist]
  constructor
  · rintro ⟨-, hleast⟩
    have hup := hleast _ hnext
    push_cast at hup
    rcases le_abs.mp hup with hle | hle <;> linarith
  · intro hhalf
    refine ⟨hn, fun k hk => ?_⟩
    rcases hgap k hk with hle | hge
    · have hle' : (k : ℚ) ≤ n := by exact_mod_cast hle
      exact le_abs.mpr (.inr (by linarith))
    · have hge' : (n : ℚ) + u ≤ k := by exact_mod_cast hge
      exact le_abs.mpr (.inl (by linarith))

lemma not_isNearest_of_between (hk : R k) (hnk : n < k) (hkq : (k : ℚ) ≤ q) : ¬ IsNearest R n q := by
  rintro ⟨-, hleast⟩
  have hnk' : (n : ℚ) < k := by exact_mod_cast hnk
  have := hleast k hk
  rw [abs_of_nonpos (by linarith), abs_of_nonpos (by linarith)] at this
  linarith

lemma isNearest_neg_iff (hR : ∀ k, R k → R (-k)) : IsNearest R (-n) (-q) ↔ IsNearest R n q := by
  have hself : ∀ {m : ℤ} {r : ℚ}, IsNearest R m r → IsNearest R (-m) (-r) := by
    rintro m r ⟨hm, hleast⟩
    refine ⟨hR m hm, fun k hk => ?_⟩
    have h := hleast (-k) (hR k hk)
    have hm : ((-m : ℤ) : ℚ) - -r = -(m - r) := by push_cast; ring
    have hk : ((-k : ℤ) : ℚ) - r = -(k - -r) := by push_cast; ring
    rw [hk, abs_neg] at h
    rwa [hm, abs_neg]
  refine ⟨fun h => ?_, hself⟩
  simpa using hself h

end IsNearest

end Rounding
