import Bijou.Words

namespace Bijou

open CString Incremental BitField

abbrev plus : Byte := 43

lemma fields_shape (o : OpCode) :
    (OpCode.hasArg OpCode.argBx o.args = true ∧ o.fields = [.A, .Bx]) ∨
    (OpCode.hasArg OpCode.argBx o.args = false ∧ OpCode.hasArg OpCode.argSBx o.args = true ∧
      OpCode.hasArg OpCode.argA o.args = false ∧ o.fields = [.sBx]) ∨
    (OpCode.hasArg OpCode.argBx o.args = false ∧ OpCode.hasArg OpCode.argSBx o.args = false ∧
      o.fields <+: [.A, .B, .C]) := by
  cases o <;> decide

lemma get_assemble (o : OpCode) (args : List (BitVec 32)) (i : ℕ) (f : Field)
    (h : o.fields[i]? = some f) : f.get (assemble o args) = f.stored (args.getD i (-1)) := by
  have hi : ∀ {l : List Field}, o.fields = l → l[i]? = some f := by
    rintro l rfl
    exact h
  unfold assemble
  rcases fields_shape o with ⟨hBx, hf⟩ | ⟨hBx, hsBx, hA, hf⟩ | ⟨hBx, hsBx, hf⟩
  · simp only [hBx, if_true]
    have := hi hf
    match i with
    | 0 =>
      obtain rfl : Field.A = f := by simpa using this
      simp only [Field.get, getA, setBx, setA, Field.stored, Field.width]
      rw [get_set_disjoint (by omega), get_set_same (by omega)]
    | 1 =>
      obtain rfl : Field.Bx = f := by simpa using this
      simp only [Field.get, getBx, setBx, Field.stored, Field.width]
      rw [get_set_same (by omega)]
    | i + 2 => simp at this
  · have := hi hf
    match i with
    | 0 =>
      obtain rfl : Field.sBx = f := by simpa using this
      simp only [hBx, hsBx, hA, if_true, Bool.false_eq_true, if_false]
      simp only [Field.get, getSBx, getBx, setSBx, setBx, Field.stored]
      rw [get_set_same (by omega)]
    | i + 1 => simp at this
  · simp only [hBx, hsBx, Bool.false_eq_true, if_false]
    obtain ⟨t, ht⟩ := hf
    have hlt : i < o.fields.length := (List.getElem?_eq_some_iff.mp h).1
    have : [Field.A, .B, .C][i]? = some f := by rw [← ht, List.getElem?_append_left hlt, h]
    match i with
    | 0 =>
      obtain rfl : Field.A = f := by simpa using this
      simp only [Field.get, getA, setC, setB, setA, Field.stored, Field.width]
      rw [get_set_disjoint (by omega), get_set_disjoint (by omega), get_set_same (by omega)]
    | 1 =>
      obtain rfl : Field.B = f := by simpa using this
      simp only [Field.get, getB, setC, setB, Field.stored, Field.width]
      rw [get_set_disjoint (by omega), get_set_same (by omega)]
    | 2 =>
      obtain rfl : Field.C = f := by simpa using this
      simp only [Field.get, getC, setC, Field.stored, Field.width]
      rw [get_set_same (by omega)]
    | i + 3 => simp at this

structure Operand where
  sign : List Byte
  digits : List Byte
  const : Bool
  deriving DecidableEq

namespace Operand

def text (d : Operand) : List Byte := d.sign ++ d.digits ++ if d.const then [letterK] else []

def number (d : Operand) : ℤ :=
  if d.sign = [minus] then -digitsValue d.digits else digitsValue d.digits

structure WrittenFor (d : Operand) (f : Field) : Prop where
  ne_nil : d.digits ≠ []
  digits : ∀ c ∈ d.digits, isdigit c = true
  sign : d.sign = [] ∨ f = .sBx ∧ (d.sign = [minus] ∨ d.sign = [plus])

end Operand

def RK.Selects : RK → Operand → Prop
  | const i, d => d.const = true ∧ i.toInt = d.number
  | reg i, d => d.const = false ∧ i.toInt = d.number

def Operand.ReadFrom (d : Operand) (o : OpCode) (f : Field) (x : BitVec 32) : Prop :=
  if d.const ∨ f ∈ o.rkFields then (rk x).Selects d else x.toInt = d.number

def Operand.Fits (d : Operand) (o : OpCode) (f : Field) : Prop :=
  let n := digitsValue d.digits
  if f = .sBx then
    if d.const then d.sign = [] ∧ n / 256 % 2 = 0 ∧ n + 256 ≤ 131072
    else -131071 ≤ d.number ∧ d.number ≤ 131072
  else if d.const then f ≠ .A ∧ n < 2 ^ f.width ∧ n / 256 % 2 = 0
  else n < 2 ^ f.width ∧ (f ∈ o.rkFields → n / 256 % 2 = 0)

instance (d : Operand) (o : OpCode) (f : Field) : Decidable (d.Fits o f) := by
  unfold Operand.Fits
  infer_instance

section Value

variable {d : Operand} {f : Field} (h : d.WrittenFor f)

include h

lemma text_zero : (0 : Byte) ∉ d.text := by
  have hdigit : ∀ c : Byte, isdigit c = true → c ≠ 0 := by
    rintro c hc rfl
    exact absurd hc (by decide)
  intro hzero
  simp only [Operand.text, List.mem_append] at hzero
  rcases hzero with (hs | hd) | hk
  · rcases h.sign with hsign | ⟨-, hsign | hsign⟩
    · simp [hsign] at hs
    · exact absurd hs (by rw [hsign]; decide)
    · exact absurd hs (by rw [hsign]; decide)
  · exact hdigit 0 (h.digits 0 hd) rfl
  · split at hk
    · exact absurd hk (by decide)
    · simp at hk

omit h in
lemma suffix_not_digit {t : List Byte} (ht : ∀ c ∈ t.head?, c = semicolon) :
    ∀ c ∈ ((if d.const then [letterK] else []) ++ t).head?, isdigit c = false := by
  intro c hc
  split at hc
  · obtain rfl : letterK = c := by simpa using hc
    decide
  · rw [ht c (by simpa using hc)]
    decide

variable {t : List Byte} (ht : ∀ c ∈ t.head?, c = semicolon)

include ht

lemma strtol_text : strtol (d.text ++ t) = clampLong d.number := by
  have hk := suffix_not_digit (d := d) ht
  rcases h.sign with hsign | ⟨-, hsign | hsign⟩
  · have hnum : d.number = digitsValue d.digits := by simp [Operand.number, hsign]
    rw [hnum, Operand.text, hsign, List.nil_append, List.append_assoc]
    exact strtol_digits h.ne_nil h.digits hk
  · have hnum : d.number = -digitsValue d.digits := by simp [Operand.number, hsign]
    rw [hnum, Operand.text, hsign, List.append_assoc, List.append_assoc]
    exact strtol_minus h.digits hk
  · have hnum : d.number = digitsValue d.digits := by simp [Operand.number, hsign, plus, minus]
    rw [hnum, Operand.text, hsign, List.append_assoc, List.append_assoc]
    exact strtol_plus h.digits hk

lemma parseArg_text : parseArg (d.text ++ t) =
    .ok ((if d.sign = [] ∧ d.const = true then makeK else id) (BitVec.ofInt 32 (clampLong d.number))) := by
  have ht' : ∀ c ∈ (cstr t).head?, c = semicolon := by
    cases t with
    | nil => exact ht
    | cons c t =>
      obtain rfl : c = semicolon := ht c rfl
      exact ht
  have hk := suffix_not_digit (d := d) ht'
  rw [parseArg, cstr_append_of_not_mem (text_zero h), atoi, strtol_text h ht]
  by_cases hsign : d.sign = []
  · have hdrop : (d.text ++ cstr t).dropWhile isdigit = (if d.const then [letterK] else []) ++ cstr t := by
      rw [Operand.text, hsign, List.nil_append, List.append_assoc, dropWhile_digits h.digits hk]
    rw [hdrop]
    have hminus : letterK ≠ minus ∧ semicolon ≠ minus ∧ semicolon ≠ letterK := by decide
    cases hc : d.const with
    | true => simp [hsign, hminus]
    | false =>
      cases hrest : cstr t with
      | nil => simp
      | cons c u =>
        obtain rfl : c = semicolon := ht' c (by rw [hrest]; rfl)
        simp [hminus]
  · obtain ⟨c, hc, hd, hK⟩ : ∃ c, d.sign = [c] ∧ isdigit c = false ∧ c ≠ letterK := by
      rcases h.sign with hnil | ⟨-, hsign | hsign⟩
      · exact (hsign hnil).elim
      · exact ⟨_, hsign, by decide, by decide⟩
      · exact ⟨_, hsign, by decide, by decide⟩
    have htext : d.text ++ cstr t = c :: (d.digits ++ (if d.const then [letterK] else []) ++ cstr t) := by
      simp [Operand.text, hc]
    rw [htext, List.dropWhile_cons_of_neg (by simp [hd]), List.takeWhile_cons_of_neg (by simp [hd])]
    simp [hK, hsign]

lemma argValue_text : argValue (d.text ++ t) = argValue d.text := by
  have hnil : ∀ c ∈ ([] : List Byte).head?, c = semicolon := by simp
  have hplain := parseArg_text h hnil
  rw [List.append_nil] at hplain
  rw [argValue, argValue, parseArg_text h ht, hplain]

end Value

lemma toInt_indexRK {x : BitVec 32} (h : x.toNat / 256 % 2 = 1) : (indexRK x).toInt = x.toInt - 256 := by
  have hindex := toNat_indexRK x
  rw [BitVec.toInt_eq_toNat_cond, BitVec.toInt_eq_toNat_cond]
  split_ifs <;> omega

lemma selects_iff (x : BitVec 32) (d : Operand) :
    (rk x).Selects d ↔
      if d.const then x.toNat / 256 % 2 = 1 ∧ x.toInt - 256 = d.number
      else x.toNat / 256 % 2 = 0 ∧ x.toInt = d.number := by
  rw [rk, isK_eq]
  by_cases hbit : x.toNat / 256 % 2 = 1
  · have hindex := toInt_indexRK hbit
    cases hc : d.const <;> simp [hbit, RK.Selects, hc, hindex]
  · have hzero : x.toNat / 256 % 2 = 0 := by omega
    cases hc : d.const <;> simp [hzero, RK.Selects, hc]

lemma toNat_clamped (z : ℤ) :
    ((BitVec.ofInt 32 (clampLong z)).toNat : ℤ) = clampLong z % 2 ^ 32 := by
  rw [BitVec.toNat_ofInt]
  omega

lemma stored_toNat {f : Field} (hf : f ≠ .sBx) (v : BitVec 32) :
    (f.stored v).toNat = v.toNat % 2 ^ f.width := by
  have h : f.stored v = BitField.get f.width 0 v := by
    cases f <;> first | rfl | exact (hf rfl).elim
  rw [h, toNat_get, pow_zero, Nat.div_one]

lemma stored_toInt {f : Field} (hf : f ≠ .sBx) (v : BitVec 32) :
    (f.stored v).toInt = (v.toNat % 2 ^ f.width : ℕ) := by
  have hw : (2 : ℕ) ^ f.width ≤ 2 ^ 18 := Nat.pow_le_pow_right (by omega) (by cases f <;> decide)
  have hlt : v.toNat % 2 ^ f.width < 2 ^ f.width := Nat.mod_lt _ (by positivity)
  have hn := stored_toNat hf v
  rw [BitVec.toInt_eq_toNat_of_lt (by omega), hn]

lemma stored_sBx (v : BitVec 32) :
    (Field.sBx.stored v).toInt = ((v.toNat + 131071) % 2 ^ 18 : ℕ) - 131071 := by
  have hm : maxargSBx.toNat = 131071 := rfl
  have hg := toNat_get 18 0 (v + maxargSBx)
  rw [BitVec.toNat_add, hm] at hg
  rw [Field.stored, BitVec.toInt_eq_toNat_cond, BitVec.toNat_sub, hm, hg]
  split_ifs <;> omega

lemma toNat_of_toInt (x : BitVec 32) : x.toNat = (x.toInt % 2 ^ 32).toNat := by
  rw [BitVec.toInt_eq_toNat_cond]
  split_ifs <;> omega

lemma clampLong_eq (z : ℤ) :
    clampLong z = max (-9223372036854775808) (min z 9223372036854775807) := by
  norm_num [clampLong]

section ReadFrom

variable {d : Operand} {f : Field} (h : d.WrittenFor f) (o : OpCode)

include h

lemma number_of_not_sBx (hf : f ≠ .sBx) : d.sign = [] ∧ d.number = digitsValue d.digits := by
  have hs : d.sign = [] := by
    rcases h.sign with hs | ⟨hf', -⟩
    · exact hs
    · exact (hf hf').elim
  exact ⟨hs, by simp [Operand.number, hs]⟩

lemma argValue_eq : argValue d.text =
    (if d.sign = [] ∧ d.const = true then makeK else id) (BitVec.ofInt 32 (clampLong d.number)) := by
  have hparse := parseArg_text h (t := []) (by simp)
  rw [List.append_nil] at hparse
  rw [argValue, hparse]

lemma parseArg_eq : parseArg d.text = .ok (argValue d.text) := by
  have hparse := parseArg_text h (t := []) (by simp)
  rw [List.append_nil] at hparse
  rw [argValue, hparse]

lemma argValue_const (hs : d.sign = []) (hc : d.const = true) :
    argValue d.text = makeK (BitVec.ofInt 32 (clampLong d.number)) := by
  simp [argValue_eq h, hs, hc]

lemma argValue_plain (hs : d.sign ≠ [] ∨ d.const = false) :
    argValue d.text = BitVec.ofInt 32 (clampLong d.number) := by
  have : ¬ (d.sign = [] ∧ d.const = true) := by
    rintro ⟨h₁, h₂⟩
    rcases hs with hs | hs
    · exact hs h₁
    · simp [hs] at h₂
  simp [argValue_eq h, this]

lemma readFrom_iff_fits_unsigned (hf : f ≠ .sBx) :
    d.ReadFrom o f (f.stored (argValue d.text)) ↔ d.Fits o f := by
  obtain ⟨hs, hn⟩ := number_of_not_sBx h hf
  have hv := toNat_clamped d.number
  have hx := stored_toNat hf (argValue d.text)
  have hi := stored_toInt hf (argValue d.text)
  have hclamp : clampLong d.number = min (digitsValue d.digits) (2 ^ 63 - 1) := by
    rw [hn, clampLong]
    omega
  rw [hclamp] at hv
  rw [Operand.ReadFrom, Operand.Fits, selects_iff, if_neg hf, hi, hx, hn]
  cases hc : d.const with
  | true =>
    have hm := toNat_makeK (BitVec.ofInt 32 (clampLong d.number))
    rw [argValue_const h hs hc, hm, hclamp]
    simp only [true_or, if_true]
    cases f with
    | sBx => exact (hf rfl).elim
    | A => simp only [Field.width, ne_eq, not_true, false_and, iff_false]; omega
    | B | C | Bx => simp only [Field.width, ne_eq, reduceCtorEq, not_false_eq_true, true_and]; omega
  | false =>
    rw [argValue_plain h (.inr hc), hclamp]
    simp only [Bool.false_eq_true, false_or, if_false]
    split
    · have hin : f ∈ o.rkFields := by assumption
      simp only [hin, true_imp_iff]
      cases f with
      | sBx => exact (hf rfl).elim
      | A | B | C | Bx => simp only [Field.width]; omega
    · have hin : f ∉ o.rkFields := by assumption
      simp only [hin, false_imp_iff, and_true]
      cases f with
      | sBx => exact (hf rfl).elim
      | A | B | C | Bx => simp only [Field.width]; omega

lemma readFrom_iff_fits_signed (hf : f = .sBx) :
    d.ReadFrom o f (f.stored (argValue d.text)) ↔ d.Fits o f := by
  subst hf
  have hv := toNat_clamped d.number
  have hx := stored_sBx (argValue d.text)
  have hrk : Field.sBx ∉ o.rkFields := by cases o <;> decide
  rw [Operand.ReadFrom, Operand.Fits, selects_iff, if_pos rfl, toNat_of_toInt, hx]
  rw [clampLong_eq] at hv
  cases hc : d.const with
  | true =>
    simp only [true_or, if_true]
    by_cases hs : d.sign = []
    · have hm := toNat_makeK (BitVec.ofInt 32 (clampLong d.number))
      have hn : d.number = digitsValue d.digits := by simp [Operand.number, hs]
      rw [argValue_const h hs hc, hm, clampLong_eq]
      simp only [hs, true_and, hn] at hv ⊢
      generalize (BitVec.ofInt 32 _).toNat = v at hv ⊢
      generalize digitsValue d.digits = n at hv ⊢
      constructor
      · rintro ⟨hbit, hz⟩
        have hx : (((v - v / 256 % 2 * 256 + 256 + 131071) % 2 ^ 18 : ℕ) : ℤ) - 131071 = n + 256 := by
          omega
        rw [hx] at hbit
        omega
      · rintro ⟨hbit, hle⟩
        rw [max_eq_right (by omega), min_eq_left (by omega)] at hv
        have hvn : v = n := by omega
        rw [hvn]
        have hx : (((n - n / 256 % 2 * 256 + 256 + 131071) % 2 ^ 18 : ℕ) : ℤ) - 131071 = n + 256 := by
          omega
        rw [hx]
        omega
    · rw [argValue_plain h (.inl hs), clampLong_eq]
      simp only [hs, false_and, iff_false]
      -- what is stored is the number up to multiples of 2 ^ 18, never 256 more than it
      rintro ⟨-, hz⟩
      generalize (BitVec.ofInt 32 _).toNat = v at hv hz
      have hmod : (v : ℤ) % 2 ^ 18 = d.number % 2 ^ 18 := by
        rw [max_eq_right (by omega), min_eq_left (by omega)] at hv
        omega
      omega
  | false =>
    rw [argValue_plain h (.inr hc), clampLong_eq]
    simp only [hrk, Bool.false_eq_true, or_self, if_false]
    omega

lemma readFrom_iff_fits : d.ReadFrom o f (f.stored (argValue d.text)) ↔ d.Fits o f := by
  by_cases hf : f = .sBx
  · exact readFrom_iff_fits_signed h o hf
  · exact readFrom_iff_fits_unsigned h o hf

end ReadFrom

lemma unsigned_fits {n : List Byte} {const : Bool} {o : OpCode} {f : Field}
    (h : n ≠ [] ∧ n.all isdigit = true ∧ Operand.Fits ⟨[], n, const⟩ o f) :
    Operand.WrittenFor ⟨[], n, const⟩ f ∧ Operand.Fits ⟨[], n, const⟩ o f :=
  ⟨⟨h.1, List.all_eq_true.mp h.2.1, .inl rfl⟩, h.2.2⟩

def CodeLine.Fits (l : CodeLine) : Prop :=
  ∀ (i : ℕ) (f : Field) (operand : List Byte), l.op.fields[i]? = some f → l.operands[i]? = some operand →
    ∃ d : Operand, d.WrittenFor f ∧ d.text = operand ∧ d.Fits l.op f

lemma CodeLine.get_word {l : CodeLine} {i : ℕ} {f : Field} {d : Operand} (hf : l.op.fields[i]? = some f)
    (hd : l.operands[i]? = some d.text) : f.get l.word = f.stored (argValue d.text) := by
  rw [CodeLine.word, get_assemble l.op _ i f hf]
  simp [List.getD_eq_getElem?_getD, hd]

end Bijou
