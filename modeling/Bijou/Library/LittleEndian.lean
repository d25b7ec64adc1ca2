import Mathlib.Data.Nat.Digits.Lemmas
import Mathlib.Data.BitVec

namespace LittleEndian

def toBytes : ℕ → ℕ → List UInt8
  | 0, _ => []
  | n + 1, x => UInt8.ofNat x :: toBytes n (x / 256)

def ofBytes (l : List UInt8) : ℕ := Nat.ofDigits 256 (l.map UInt8.toNat)

@[simp] lemma toBytes_length (n x : ℕ) : (toBytes n x).length = n := by
  induction n generalizing x with
  | zero => rfl
  | succ n ih => simp [toBytes, ih]

lemma ofBytes_append (l m : List UInt8) :
    ofBytes (l ++ m) = ofBytes l + 256 ^ l.length * ofBytes m := by
  simp [ofBytes, Nat.ofDigits_append]

lemma ofBytes_toBytes {n x : ℕ} (h : x < 256 ^ n) : ofBytes (toBytes n x) = x := by
  induction n generalizing x with
  | zero =>
    obtain rfl : x = 0 := by simpa using h
    rfl
  | succ n ih =>
    have hx : x / 256 < 256 ^ n := by
      rw [Nat.div_lt_iff_lt_mul (by norm_num), ← pow_succ]
      exact h
    have hih : Nat.ofDigits 256 ((toBytes n (x / 256)).map UInt8.toNat) = x / 256 := ih hx
    rw [ofBytes, toBytes, List.map_cons, Nat.ofDigits_cons, hih, UInt8.toNat_ofNat']
    exact Nat.mod_add_div x 256

lemma ofBytes_toNat {w : ℕ} (x : BitVec w) {n : ℕ} (h : w = 8 * n) :
    BitVec.ofNat w (ofBytes (toBytes n x.toNat)) = x := by
  have hx : x.toNat < 256 ^ n := by
    have : (256 : ℕ) ^ n = 2 ^ w := by rw [h, pow_mul]; norm_num
    rw [this]
    exact x.isLt
  rw [ofBytes_toBytes hx]
  exact BitVec.eq_of_toNat_eq (by simp)

lemma ofBytes_lt (l : List UInt8) : ofBytes l < 256 ^ l.length := by
  have h : ∀ x ∈ l.map UInt8.toNat, x < 256 := by
    intro x hx
    obtain ⟨c, -, rfl⟩ := List.mem_map.mp hx
    exact c.toNat_lt
  simpa [ofBytes] using Nat.ofDigits_lt_base_pow_length (by norm_num) h

lemma last_lt {l : List UInt8} {c : UInt8} (h : ofBytes (l ++ [c]) < 128 * 256 ^ l.length) :
    c.toNat < 128 := by
  have hc : ofBytes [c] = c.toNat := by simp [ofBytes]
  rw [ofBytes_append, hc, mul_comm 128] at h
  exact lt_of_mul_lt_mul_left (lt_of_le_of_lt (Nat.le_add_left _ _) h) (Nat.zero_le _)

end LittleEndian
