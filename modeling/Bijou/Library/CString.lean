import Mathlib.Data.Nat.Digits.Lemmas
import Mathlib.Data.List.TakeWhile

/-! Characters, C strings and decimal numerals as the C library reads them, in the C locale and
with a 64 bit long. -/

namespace CString

abbrev Byte := UInt8

def bytes (s : String) : List Byte := s.toList.map Char.toUInt8

def isspace (c : Byte) : Bool := c == 32 || (9 ≤ c && c ≤ 13)

def isdigit (c : Byte) : Bool := 48 ≤ c && c ≤ 57

def cstr (s : List Byte) : List Byte := s.takeWhile (· != 0)

def digit (c : Byte) : ℕ := c.toNat - 48

def digitsValue (s : List Byte) : ℕ := (s.takeWhile isdigit).foldl (fun v c => 10 * v + digit c) 0

def clampLong (z : ℤ) : ℤ := max (-2 ^ 63) (min z (2 ^ 63 - 1))

def strtol (s : List Byte) : ℤ :=
  match s.dropWhile isspace with
  | 45 :: t => clampLong (-digitsValue t)
  | 43 :: t => clampLong (digitsValue t)
  | t => clampLong (digitsValue t)

def atol (s : List Byte) : ℤ := strtol s

def atoi (s : List Byte) : BitVec 32 := BitVec.ofInt 32 (strtol s)

def decimal (n : ℕ) : List Byte :=
  if n = 0 then [48] else ((Nat.digits 10 n).map (fun d => UInt8.ofNat (48 + d))).reverse

def signed : ℤ → List Byte
  | .ofNat n => decimal n
  | .negSucc n => 45 :: decimal (n + 1)

def printf : List Byte → List (List Byte) → List Byte
  | 37 :: 37 :: f, args => 37 :: printf f args
  | 37 :: 100 :: f, a :: args => a ++ printf f args
  | 37 :: 115 :: f, a :: args => a ++ printf f args
  | 37 :: 122 :: 117 :: f, a :: args => a ++ printf f args
  | c :: f, args => c :: printf f args
  | [], _ => []

lemma printf_cons {c : Byte} (hc : c ≠ 37) (f : List Byte) (args : List (List Byte)) :
    printf (c :: f) args = c :: printf f args := by
  rw [printf.eq_def]
  split <;> simp_all

lemma mem_printf {c : Byte} (f : List Byte) (args : List (List Byte)) (h : c ∈ printf f args) :
    c ∈ f ∨ ∃ a ∈ args, c ∈ a := by
  fun_induction printf f args <;> grind

def strncpy (s : List Byte) (n : ℕ) : List Byte := s.take n ++ List.replicate (n - s.length) 0

lemma strncpy_of_le {s : List Byte} {n : ℕ} (h : n ≤ s.length) : strncpy s n = s.take n := by
  rw [strncpy, Nat.sub_eq_zero_of_le h, List.replicate_zero, List.append_nil]

lemma cstr_append_of_not_mem {s : List Byte} (h : 0 ∉ s) (t : List Byte) :
    cstr (s ++ t) = s ++ cstr t := by
  have hs : ∀ c ∈ s, (c != 0) = true := fun c hc => bne_iff_ne.mpr (fun h0 => h (h0 ▸ hc))
  rw [cstr, List.takeWhile_append_of_pos hs, cstr]

lemma cstr_terminated {d : List Byte} (h : 0 ∉ d) (t : List Byte) : cstr (d ++ 0 :: t) = d := by
  rw [cstr_append_of_not_mem h]
  simp [cstr]

lemma cstr_strncpy {x : List Byte} (hx : 0 ∉ x) (n : ℕ) (m : List Byte) :
    cstr (strncpy x n ++ m) = if n ≤ x.length then x.take n ++ cstr m else x := by
  by_cases hn : n ≤ x.length
  · rw [if_pos hn, strncpy_of_le hn]
    exact cstr_append_of_not_mem (fun h => hx (List.mem_of_mem_take h)) m
  · obtain ⟨k, hk⟩ : ∃ k, n - x.length = k + 1 := ⟨n - x.length - 1, by omega⟩
    rw [if_neg hn, strncpy, hk, List.take_of_length_le (by omega), List.append_assoc,
      List.replicate_succ, List.cons_append, cstr_terminated hx]

lemma cstr_append_of_mem {s : List Byte} (h : 0 ∈ s) (t : List Byte) : cstr (s ++ t) = cstr s := by
  obtain ⟨d, u, rfl, hd⟩ := List.eq_append_cons_of_mem h
  rw [List.append_assoc, List.cons_append, cstr_terminated hd, cstr_terminated hd]

lemma length_cstr_lt {s : List Byte} (h : 0 ∈ s) : (cstr s).length < s.length := by
  obtain ⟨d, u, rfl, hd⟩ := List.eq_append_cons_of_mem h
  rw [cstr_terminated hd, List.length_append, List.length_cons]
  omega

lemma digit_ofNat {d : ℕ} (h : d < 10) : digit (UInt8.ofNat (48 + d)) = d := by
  have : (48 + d) % 2 ^ 8 = 48 + d := Nat.mod_eq_of_lt (by omega)
  simp only [digit, UInt8.toNat_ofNat', this]
  omega

lemma isdigit_ofNat {d : ℕ} (h : d < 10) : isdigit (UInt8.ofNat (48 + d)) = true := by
  have : (48 + d) % 256 = 48 + d := Nat.mod_eq_of_lt (by omega)
  simp [isdigit, UInt8.le_iff_toNat_le, this]
  omega

lemma decimal_ne_nil (n : ℕ) : decimal n ≠ [] := by
  by_cases h : n = 0
  · simp [decimal, h]
  · simp [decimal, h, Nat.digits_ne_nil_iff_ne_zero]

lemma decimal_isdigit (n : ℕ) : ∀ c ∈ decimal n, isdigit c = true := by
  intro c hc
  by_cases h : n = 0
  · obtain rfl : c = 48 := by simpa [decimal, h] using hc
    decide
  · obtain ⟨d, hd, rfl⟩ : ∃ d ∈ Nat.digits 10 n, UInt8.ofNat (48 + d) = c := by
      simpa [decimal, h] using hc
    exact isdigit_ofNat (Nat.digits_lt_base (by omega) hd)

lemma length_decimal_le_iff {n k : ℕ} (hk : 0 < k) : (decimal n).length ≤ k ↔ n < 10 ^ k := by
  by_cases h : n = 0
  · have hpos : 0 < 10 ^ k := by positivity
    simp only [h, decimal, if_true, List.length_singleton]
    exact iff_of_true hk hpos
  · rw [decimal, if_neg h, List.length_reverse, List.length_map]
    exact Nat.digits_length_le_iff (by norm_num) n

lemma mem_signed {c : Byte} {z : ℤ} (h : c ∈ signed z) : c = 45 ∨ isdigit c = true := by
  cases z with
  | ofNat n => exact .inr (decimal_isdigit n c h)
  | negSucc n => exact (List.mem_cons.mp h).imp_right (decimal_isdigit (n + 1) c)

lemma foldr_digits (l : List ℕ) (h : ∀ d ∈ l, d < 10) :
    (l.map (fun d => UInt8.ofNat (48 + d))).foldr (fun c v => 10 * v + digit c) 0 =
      Nat.ofDigits 10 l := by
  induction l with
  | nil => rfl
  | cons d l ih =>
    have hd : digit (UInt8.ofNat (48 + d)) = d := digit_ofNat (h d (by simp))
    have hl := ih (fun e he => h e (by simp [he]))
    simp only [List.map_cons, List.foldr_cons, hl, hd, Nat.ofDigits_cons]
    omega

section Digits

variable {ds t : List Byte} (hd : ∀ c ∈ ds, isdigit c = true) (ht : ∀ c ∈ t.head?, isdigit c = false)

include hd ht

lemma takeWhile_digits : (ds ++ t).takeWhile isdigit = ds := by
  rw [List.takeWhile_append_of_pos hd]
  cases t with
  | nil => simp
  | cons c t => simp [ht c (by simp)]

lemma dropWhile_digits : (ds ++ t).dropWhile isdigit = t := by
  rw [List.dropWhile_append_of_pos hd]
  cases t with
  | nil => simp
  | cons c t => simp [ht c (by simp)]

lemma digitsValue_append : digitsValue (ds ++ t) = digitsValue ds := by
  have hself := takeWhile_digits (t := []) hd (by simp)
  rw [List.append_nil] at hself
  rw [digitsValue, digitsValue, takeWhile_digits hd ht, hself]

end Digits

lemma digitsValue_decimal (n : ℕ) : digitsValue (decimal n) = n := by
  have hself := takeWhile_digits (t := []) (decimal_isdigit n) (by simp)
  rw [List.append_nil] at hself
  rw [digitsValue, hself]
  by_cases h : n = 0
  · subst h
    decide
  · rw [decimal, if_neg h, List.foldl_reverse, foldr_digits _ (fun d => Nat.digits_lt_base (by omega)),
      Nat.ofDigits_digits]

lemma isdigit_not_isspace {c : Byte} (h : isdigit c = true) : isspace c = false := by
  simp only [isdigit, isspace, Bool.and_eq_true, decide_eq_true_eq, Bool.or_eq_false_iff,
    beq_eq_false_iff_ne, Bool.and_eq_false_iff, decide_eq_false_iff_not, ne_eq,
    UInt8.le_iff_toNat_le, ← UInt8.toNat_inj, UInt8.reduceToNat] at *
  omega

lemma clampLong_of_mem {z : ℤ} (hl : -2 ^ 63 ≤ z) (hu : z < 2 ^ 63) : clampLong z = z := by
  unfold clampLong
  omega

lemma strtol_digits {ds t : List Byte} (hne : ds ≠ []) (hd : ∀ c ∈ ds, isdigit c = true)
    (ht : ∀ c ∈ t.head?, isdigit c = false) : strtol (ds ++ t) = clampLong (digitsValue ds) := by
  have hv := digitsValue_append hd ht
  cases ds with
  | nil => exact (hne rfl).elim
  | cons c l =>
    have hc : isdigit c = true := hd c (by simp)
    have hm : c ≠ 45 := by rintro rfl; exact absurd hc (by decide)
    have hp : c ≠ 43 := by rintro rfl; exact absurd hc (by decide)
    rw [List.cons_append] at hv ⊢
    rw [strtol, List.dropWhile_cons_of_neg (by simp [isdigit_not_isspace hc])]
    split
    · rename_i h; exact (hm (List.cons.inj h).1).elim
    · rename_i h; exact (hp (List.cons.inj h).1).elim
    · rw [hv]

lemma strtol_minus {ds t : List Byte} (hd : ∀ c ∈ ds, isdigit c = true)
    (ht : ∀ c ∈ t.head?, isdigit c = false) :
    strtol (45 :: (ds ++ t)) = clampLong (-digitsValue ds) := by
  rw [strtol, List.dropWhile_cons_of_neg (by decide)]
  simp only [digitsValue_append hd ht]

lemma strtol_plus {ds t : List Byte} (hd : ∀ c ∈ ds, isdigit c = true)
    (ht : ∀ c ∈ t.head?, isdigit c = false) :
    strtol (43 :: (ds ++ t)) = clampLong (digitsValue ds) := by
  rw [strtol, List.dropWhile_cons_of_neg (by decide)]
  simp only [digitsValue_append hd ht]

lemma cstr_cons {c : Byte} (h : c ≠ 0) (s : List Byte) : cstr (c :: s) = c :: cstr s := by
  simp [cstr, h]

lemma cstr_eq_append {a t s : List Byte} (ha : 0 ∉ a) (h : cstr s = a ++ t) :
    ∃ s', s = a ++ s' ∧ cstr s' = t := by
  obtain ⟨s', rfl⟩ : a <+: s := (List.prefix_append a t).trans (h ▸ List.takeWhile_prefix _)
  refine ⟨s', rfl, ?_⟩
  rw [cstr_append_of_not_mem ha] at h
  exact List.append_cancel_left h

lemma digitsValue_cstr (s : List Byte) : digitsValue (cstr s) = digitsValue s := by
  have hdigits : (cstr s).takeWhile isdigit = s.takeWhile isdigit := by
    rw [cstr, List.takeWhile_takeWhile]
    congr 1
    funext c
    by_cases hc : c = 0 <;> simp [hc, isdigit]
  rw [digitsValue, digitsValue, hdigits]

lemma dropWhile_isspace_cstr (s : List Byte) : (cstr s).dropWhile isspace = cstr (s.dropWhile isspace) := by
  induction s with
  | nil => rfl
  | cons c s ih =>
    by_cases hc : isspace c = true
    · have h0 : c ≠ 0 := by rintro rfl; exact absurd hc (by decide)
      rw [cstr_cons h0, List.dropWhile_cons_of_pos hc, List.dropWhile_cons_of_pos hc, ih]
    · rw [List.dropWhile_cons_of_neg hc]
      by_cases h0 : c = 0
      · simp [cstr, h0]
      · rw [cstr_cons h0, List.dropWhile_cons_of_neg hc]

lemma strtol_cstr (s : List Byte) : strtol (cstr s) = strtol s := by
  rw [strtol, strtol, dropWhile_isspace_cstr]
  generalize s.dropWhile isspace = t
  cases t with
  | nil => rfl
  | cons c t =>
    by_cases h0 : c = 0
    · have hnil : cstr (c :: t) = [] := by simp [cstr, h0]
      rw [hnil, h0]
      rfl
    · have hv := digitsValue_cstr (c :: t)
      rw [cstr_cons h0] at hv ⊢
      by_cases hm : c = 45
      · simp only [hm, digitsValue_cstr]
      · by_cases hp : c = 43
        · simp only [hp, digitsValue_cstr]
        · split <;> simp_all

lemma strtol_signed (z : ℤ) (t : List Byte) (ht : ∀ c ∈ t.head?, isdigit c = false) :
    strtol (signed z ++ t) = clampLong z := by
  cases z with
  | ofNat n =>
    have := strtol_digits (decimal_ne_nil n) (decimal_isdigit n) ht
    rwa [digitsValue_decimal] at this
  | negSucc n =>
    have := strtol_minus (decimal_isdigit (n + 1)) ht
    rwa [digitsValue_decimal] at this

end CString
