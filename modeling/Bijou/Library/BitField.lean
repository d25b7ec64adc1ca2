import Mathlib.Data.BitVec
import Mathlib.Tactic.Ring

namespace BitField

variable {w : ℕ}

def mask1 (w n p : ℕ) : BitVec w := (~~~((~~~(0 : BitVec w)) <<< n)) <<< p

def mask0 (w n p : ℕ) : BitVec w := ~~~mask1 w n p

def get (n p : ℕ) (i : BitVec w) : BitVec w := (i >>> p) &&& mask1 w n 0

def set (n p : ℕ) (i u : BitVec w) : BitVec w := (i &&& mask0 w n p) ||| ((u <<< p) &&& mask1 w n p)

lemma getLsbD_mask1 (n p k : ℕ) :
    (mask1 w n p).getLsbD k = decide (p ≤ k ∧ k < p + n ∧ k < w) := by
  simp only [mask1, BitVec.getLsbD_shiftLeft, BitVec.getLsbD_not]
  grind

lemma getLsbD_get (n p : ℕ) (i : BitVec w) (k : ℕ) :
    (get n p i).getLsbD k = (decide (k < n) && i.getLsbD (p + k)) := by
  by_cases hk : k < w
  · simp only [get, BitVec.getLsbD_and, BitVec.getLsbD_ushiftRight, getLsbD_mask1]
    grind
  · rw [BitVec.getLsbD_of_ge _ k (by omega), BitVec.getLsbD_of_ge i (p + k) (by omega)]
    simp

lemma getLsbD_set (n p : ℕ) (i u : BitVec w) (k : ℕ) :
    (set n p i u).getLsbD k =
      if p ≤ k ∧ k < p + n then decide (k < w) && u.getLsbD (k - p) else i.getLsbD k := by
  by_cases hk : k < w
  · simp only [set, mask0, BitVec.getLsbD_or, BitVec.getLsbD_and, BitVec.getLsbD_not,
      BitVec.getLsbD_shiftLeft, getLsbD_mask1]
    grind
  · rw [BitVec.getLsbD_of_ge _ k (by omega), BitVec.getLsbD_of_ge i k (by omega)]
    simp [hk]

lemma toNat_get (n p : ℕ) (i : BitVec w) : (get n p i).toNat = i.toNat / 2 ^ p % 2 ^ n := by
  apply Nat.eq_of_testBit_eq
  intro k
  rw [BitVec.testBit_toNat, getLsbD_get, Nat.testBit_mod_two_pow, Nat.testBit_div_two_pow,
    BitVec.testBit_toNat, Nat.add_comm]

lemma get_lt (n p : ℕ) (i : BitVec w) : (get n p i).toNat < 2 ^ n := by
  rw [toNat_get]
  exact Nat.mod_lt _ (Nat.two_pow_pos n)

lemma get_set_same {n p : ℕ} (h : p + n ≤ w) (i u : BitVec w) :
    get n p (set n p i u) = get n 0 u := by
  apply BitVec.eq_of_getLsbD_eq
  intro k hk
  rw [getLsbD_get, getLsbD_get, getLsbD_set]
  grind

lemma get_set_disjoint {n p m q : ℕ} (h : p + n ≤ q ∨ q + m ≤ p) (i u : BitVec w) :
    get m q (set n p i u) = get m q i := by
  apply BitVec.eq_of_getLsbD_eq
  intro k hk
  rw [getLsbD_get, getLsbD_get, getLsbD_set]
  grind

lemma get_zero (n p : ℕ) : get n p (0 : BitVec w) = 0 := by
  apply BitVec.eq_of_getLsbD_eq
  intro k _
  rw [getLsbD_get]
  simp

lemma set_set (n p : ℕ) (i u v : BitVec w) : set n p (set n p i u) v = set n p i v := by
  apply BitVec.eq_of_getLsbD_eq
  intro k hk
  rw [getLsbD_set, getLsbD_set, getLsbD_set]
  grind

lemma set_get (n p : ℕ) (i : BitVec w) : set n p i (get n p i) = i := by
  apply BitVec.eq_of_getLsbD_eq
  intro k hk
  rw [getLsbD_set, getLsbD_get]
  by_cases hin : p ≤ k ∧ k < p + n
  · have hback : p + (k - p) = k := by omega
    have hlow : k - p < n := by omega
    rw [if_pos hin, hback, decide_eq_true hk, decide_eq_true hlow, Bool.true_and, Bool.true_and]
  · rw [if_neg hin]

lemma set_empty {n p : ℕ} {i u : BitVec w} (hi : get n p i = 0) (hu : u.toNat < 2 ^ n) :
    set n p i u = i ||| u <<< p := by
  apply BitVec.eq_of_getLsbD_eq
  intro k hk
  have hfree : (get n p i).getLsbD (k - p) = false := by rw [hi]; simp
  have hhigh : n ≤ k - p → u.getLsbD (k - p) = false := by
    intro hle
    rw [← BitVec.testBit_toNat]
    exact Nat.testBit_lt_two_pow (hu.trans_le (Nat.pow_le_pow_right (by decide) hle))
  rw [getLsbD_get] at hfree
  rw [getLsbD_set, BitVec.getLsbD_or, BitVec.getLsbD_shiftLeft]
  grind

lemma toNat_get_pair (m n p : ℕ) (i : BitVec w) :
    (get (n + m) p i).toNat = (get m (p + n) i).toNat * 2 ^ n + (get n p i).toNat := by
  rw [toNat_get, toNat_get, toNat_get, pow_add, pow_add, ← Nat.div_div_eq_div_mul, Nat.mod_mul]
  ring

variable {i : ℕ} {x : BitVec w}

lemma getLsbD_eq_div (x : BitVec w) (i : ℕ) : x.getLsbD i = decide (x.toNat / 2 ^ i % 2 = 1) := by
  rw [← BitVec.testBit_toNat, Nat.testBit_eq_decide_div_mod_eq]

lemma toNat_flag (hi : i < w) : (x &&& BitVec.twoPow w i).toNat = x.toNat / 2 ^ i % 2 * 2 ^ i := by
  rw [BitVec.and_twoPow, getLsbD_eq_div]
  rcases Nat.mod_two_eq_zero_or_one (x.toNat / 2 ^ i) with h | h
  · simp [h]
  · simp [h, BitVec.toNat_twoPow_of_lt hi]

lemma toNat_clear_add (hi : i < w) :
    (x &&& ~~~BitVec.twoPow w i).toNat + x.toNat / 2 ^ i % 2 * 2 ^ i = x.toNat := by
  have hz : (x &&& ~~~BitVec.twoPow w i) &&& (x &&& BitVec.twoPow w i) = 0#w := by
    apply BitVec.eq_of_getLsbD_eq
    intro k _
    simp only [BitVec.getLsbD_and, BitVec.getLsbD_not, BitVec.getLsbD_zero]
    grind
  have hor : (x &&& ~~~BitVec.twoPow w i) + (x &&& BitVec.twoPow w i) = x := by
    rw [BitVec.add_eq_or_of_and_eq_zero _ _ hz]
    apply BitVec.eq_of_getLsbD_eq
    intro k hk
    simp only [BitVec.getLsbD_or, BitVec.getLsbD_and, BitVec.getLsbD_not]
    grind
  rw [← toNat_flag hi, ← BitVec.toNat_add_of_and_eq_zero hz, hor]

lemma toNat_mark (hi : i < w) :
    (x ||| BitVec.twoPow w i).toNat = x.toNat - x.toNat / 2 ^ i % 2 * 2 ^ i + 2 ^ i := by
  have hz : (x &&& ~~~BitVec.twoPow w i) &&& BitVec.twoPow w i = 0#w := by
    apply BitVec.eq_of_getLsbD_eq
    intro k _
    simp only [BitVec.getLsbD_and, BitVec.getLsbD_not, BitVec.getLsbD_zero]
    grind
  have hor : (x &&& ~~~BitVec.twoPow w i) + BitVec.twoPow w i = x ||| BitVec.twoPow w i := by
    rw [BitVec.add_eq_or_of_and_eq_zero _ _ hz]
    apply BitVec.eq_of_getLsbD_eq
    intro k hk
    simp only [BitVec.getLsbD_or, BitVec.getLsbD_and, BitVec.getLsbD_not]
    grind
  have hclear := toNat_clear_add (x := x) hi
  rw [← hor, BitVec.toNat_add_of_and_eq_zero hz, BitVec.toNat_twoPow_of_lt hi]
  omega

end BitField
