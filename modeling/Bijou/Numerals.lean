import Bijou.ActiveMember
import Bijou.Assembly
import Bijou.Library.Rounding
import Bijou.Survival

namespace Bijou

open CString Incremental Rounding

namespace LongDouble

def Representable (k : ℤ) : Prop := ∃ x : LongDouble, x.number = .finite k

def Nearest (x : LongDouble) (q : ℚ) : Prop :=
  ∃ n, x.number = .finite n ∧ IsNearest Representable n (q * 2 ^ 16445)

def spacing (n : ℕ) : ℕ := if n = 0 then 1 else 2 ^ (16382 + n.log2)

section Representable

variable {k : ℤ} {m n a : ℕ}

lemma representable_ofInt (h : k.natAbs < 2 ^ 64) : Representable (k * 2 ^ 16445) :=
  ⟨ofInt k, number_ofInt h⟩

lemma representable_neg (h : Representable k) : Representable (-k) := by
  obtain ⟨x, hx⟩ := h
  have hexp : x.neg.exponent = x.exponent := by
    have hflip : x.neg.se.toNat % 2 ^ 15 = x.se.toNat % 2 ^ 15 := by
      rw [neg, BitVec.toNat_xor, Nat.xor_mod_two_pow]
      simp
    exact hflip
  have hsign : x.neg.se.msb = !x.se.msb := by
    rw [neg, BitVec.msb_xor]
    have : (BitVec.ofNat 16 (2 ^ 15)).msb = true := by decide
    rw [this, Bool.xor_true]
  have hmant : x.neg.mant = x.mant := rfl
  refine ⟨x.neg, ?_⟩
  rw [number] at hx ⊢
  rw [hexp, hsign, hmant]
  split_ifs at hx with hinf _ hbad hs
  all_goals
    obtain rfl := Number.finite.inj hx
    rw [if_neg hinf, if_neg hbad]
    simp [hs]

lemma representable_normal (hlow : 2 ^ 63 ≤ m) (hm : m < 2 ^ 64) (ha : a + 2 < 2 ^ 15) :
    Representable (m * 2 ^ a : ℕ) := by
  have hmant : (BitVec.ofNat 64 m).toNat = m := by rw [BitVec.toNat_ofNat, Nat.mod_eq_of_lt hm]
  have hmsb : (BitVec.ofNat 64 m).msb = true := by
    rw [BitVec.msb_eq_decide, hmant]
    simpa using hlow
  have hse : (BitVec.ofNat 16 (a + 1)).toNat = a + 1 := by
    rw [BitVec.toNat_ofNat]
    omega
  have hexp : (⟨BitVec.ofNat 64 m, BitVec.ofNat 16 (a + 1)⟩ : LongDouble).exponent = a + 1 := by
    rw [exponent, hse]
    omega
  have hsign : (BitVec.ofNat 16 (a + 1)).msb = false := by
    rw [BitVec.msb_eq_decide, hse, decide_eq_false_iff_not]
    omega
  refine ⟨⟨BitVec.ofNat 64 m, BitVec.ofNat 16 (a + 1)⟩, ?_⟩
  rw [number, hexp, if_neg (by omega), if_neg (by simp [hmsb]), hmant, hsign]
  have hmax : max (a + 1) 1 - 1 = a := by omega
  rw [hmax]
  simp

lemma spacing_pos (n : ℕ) : 0 < spacing n := by
  rw [spacing]
  split <;> positivity

lemma representable_next (hn : n ≤ 2 ^ 63) : Representable (n * 2 ^ 16445 + spacing n : ℕ) := by
  by_cases h0 : n = 0
  · rw [h0, spacing, if_pos rfl, zero_mul]
    exact ⟨⟨1, 0⟩, by decide⟩
  · have hlog : n.log2 ≤ 63 := by
      have := (Nat.log2_lt h0).mpr (show n < 2 ^ 64 by omega)
      omega
    have hle := Nat.log2_self_le h0
    have hlt := Nat.lt_log2_self (n := n)
    rw [spacing, if_neg h0]
    generalize n.log2 = l at hlog hle hlt
    have hexp : 16382 + l + 2 < 2 ^ 15 := by omega
    have hlow : 2 ^ 63 ≤ n * 2 ^ (63 - l) := by
      calc 2 ^ 63 = 2 ^ l * 2 ^ (63 - l) := by rw [← pow_add]; congr 1; omega
        _ ≤ n * 2 ^ (63 - l) := Nat.mul_le_mul_right _ hle
    have hhigh : n * 2 ^ (63 - l) + 1 < 2 ^ 64 := by
      rcases hlog.eq_or_lt with rfl | hlog
      · rw [Nat.sub_self, pow_zero, mul_one]
        omega
      · have hnext : (n + 1) * 2 ^ (63 - l) ≤ 2 ^ 64 := by
          calc (n + 1) * 2 ^ (63 - l) ≤ 2 ^ (l + 1) * 2 ^ (63 - l) := Nat.mul_le_mul_right _ hlt
            _ = 2 ^ 64 := by rw [← pow_add]; congr 1; omega
        have hunit : 2 ^ 1 ≤ 2 ^ (63 - l) := Nat.pow_le_pow_right (by norm_num) (by omega)
        rw [Nat.add_mul, one_mul] at hnext
        omega
    have hsum : n * 2 ^ 16445 + 2 ^ (16382 + l) = (n * 2 ^ (63 - l) + 1) * 2 ^ (16382 + l) := by
      rw [Nat.add_mul, one_mul, mul_assoc, ← pow_add]
      congr 3
      omega
    rw [hsum]
    exact representable_normal (hlow.trans (Nat.le_succ _)) hhigh hexp

lemma spacing_gap (hn : n < 2 ^ 64) (hk : Representable k) :
    k ≤ (n * 2 ^ 16445 : ℕ) ∨ (n * 2 ^ 16445 + spacing n : ℕ) ≤ k := by
  obtain ⟨x, hx⟩ := hk
  obtain ⟨j, hj, -⟩ := finite_significand hx
  have hgap : n * 2 ^ 16445 < x.mant.toNat * 2 ^ j →
      n * 2 ^ 16445 + spacing n ≤ x.mant.toNat * 2 ^ j := by
    intro hlt
    rw [spacing]
    split
    next => exact hlt
    next h0 =>
      have hlog : n.log2 ≤ 63 := by
        have := (Nat.log2_lt h0).mpr hn
        omega
      have hexp : 16382 + n.log2 = 16445 + n.log2 - 63 := by omega
      rw [hexp]
      exact float_gap hlog (by omega) (Nat.log2_self_le h0) x.mant.isLt hlt
  generalize n * 2 ^ 16445 = N at hgap ⊢
  omega

end Representable

section Nearest

variable {n bound : ℕ} {f : ℚ}

lemma isNearest_min_iff (hbound : bound ≤ 2 ^ 63) (hf : 0 ≤ f) :
    IsNearest Representable (min n bound * 2 ^ 16445 : ℕ) ((n + f) * 2 ^ 16445) ↔
      n ≤ bound ∧ 2 * f * 2 ^ 16445 ≤ spacing n := by
  have hself {m : ℕ} (hm : m < 2 ^ 64) : Representable (m * 2 ^ 16445 : ℕ) := by
    rw [Nat.cast_mul, Nat.cast_pow, Nat.cast_ofNat]
    exact representable_ofInt hm
  have hnext (hn : n ≤ bound) : Representable (n * 2 ^ 16445 + spacing n : ℕ) :=
    representable_next (hn.trans hbound)
  have hgap (hn : n ≤ bound) (k : ℤ) (hk : Representable k) :=
    spacing_gap (show n < 2 ^ 64 by omega) hk
  have hunit (j : ℕ) : (2 : ℚ) ^ j = (2 ^ j : ℕ) := by rw [Nat.cast_pow, Nat.cast_ofNat]
  have hpos : 0 < 2 ^ 16445 := by positivity
  rw [hunit]
  generalize 2 ^ 16445 = u at hself hnext hgap hpos ⊢
  have hvalue : ((n : ℚ) + f) * u = ((n * u : ℕ) : ℤ) + f * u := by
    push_cast
    ring
  by_cases hn : n ≤ bound
  · have hspace : (0 : ℤ) < spacing n := by exact_mod_cast spacing_pos n
    rw [min_eq_left hn, hvalue, isNearest_add_iff (hself (by omega)) (by exact_mod_cast hnext hn)
      (by exact_mod_cast hgap hn) hspace (by positivity)]
    simp only [hn, true_and, Int.cast_natCast, mul_assoc]
  · -- the number behind the bound is nearer
    rw [min_eq_right (by omega)]
    refine iff_of_false (not_isNearest_of_between (hself (m := bound + 1) (by omega)) ?_ ?_) (fun h => hn h.1)
    · exact_mod_cast Nat.mul_lt_mul_of_pos_right (Nat.lt_succ_self bound) hpos
    · have hle : (bound + 1 : ℕ) * u ≤ n * u := Nat.mul_le_mul_right u (by omega)
      have hle' : (((bound + 1) * u : ℕ) : ℚ) ≤ ((n * u : ℕ) : ℚ) := by exact_mod_cast hle
      have hfu : 0 ≤ f * u := by positivity
      rw [hvalue, Int.cast_natCast, Int.cast_natCast]
      linarith

end Nearest

end LongDouble

inductive Sign where
  | none | plus | minus
  deriving DecidableEq

namespace Sign

def text : Sign → List Byte
  | none => []
  | plus => [Bijou.plus]
  | minus => [Bijou.minus]

def value : Sign → ℤ
  | minus => -1
  | _ => 1

def bound : Sign → ℕ
  | minus => 2 ^ 63
  | _ => 2 ^ 63 - 1

end Sign

structure Numeral where
  sign : Sign
  digits : List Byte
  fraction : List Byte
  ne_nil : digits ≠ []
  digits_isdigit : ∀ c ∈ digits, isdigit c = true
  fraction_isdigit : ∀ c ∈ fraction, isdigit c = true

namespace Numeral

abbrev point : Byte := 46

variable (x : Numeral)

def text : List Byte := x.sign.text ++ (x.digits ++ if x.fraction = [] then [] else point :: x.fraction)

def whole : ℤ := x.sign.value * digitsValue x.digits

def part : ℚ := digitsValue x.fraction / 10 ^ x.fraction.length

def value : ℚ := x.sign.value * (digitsValue x.digits + x.part)

lemma strtol_text : strtol x.text = clampLong x.whole := by
  have hend : ∀ c ∈ (if x.fraction = [] then [] else point :: x.fraction).head?, isdigit c = false := by
    split
    · simp
    · rintro c ⟨⟩
      decide
  rw [text, whole]
  cases x.sign with
  | none =>
    rw [Sign.text, List.nil_append, strtol_digits x.ne_nil x.digits_isdigit hend, Sign.value, one_mul]
    simp
  | plus =>
    have := strtol_plus x.digits_isdigit hend
    simpa [Sign.text, Sign.value, Bijou.plus] using this
  | minus =>
    have := strtol_minus x.digits_isdigit hend
    simpa [Sign.text, Sign.value, Bijou.minus] using this

lemma clampLong_whole :
    clampLong x.whole = x.sign.value * (min (digitsValue x.digits) x.sign.bound : ℕ) := by
  rw [whole, clampLong]
  cases x.sign <;> simp only [Sign.value, Sign.bound] <;> omega

lemma bounded_iff : -2 ^ 63 ≤ x.whole ∧ x.whole < 2 ^ 63 ↔ digitsValue x.digits ≤ x.sign.bound := by
  rw [whole]
  cases x.sign <;> simp only [Sign.value, Sign.bound] <;> omega

lemma part_nonneg : 0 ≤ x.part := by
  rw [part]
  positivity

lemma part_of_integer (h : x.fraction = []) : x.part = 0 := by
  rw [part, h]
  exact zero_div _

lemma nearest_iff {n : LongDouble} (hn : n.number = .finite (clampLong x.whole * 2 ^ 16445)) :
    n.Nearest x.value ↔ -2 ^ 63 ≤ x.whole ∧ x.whole < 2 ^ 63 ∧
      2 * x.part * 2 ^ 16445 ≤ LongDouble.spacing (digitsValue x.digits) := by
  have hbound : x.sign.bound ≤ 2 ^ 63 := by cases x.sign <;> decide
  have hmin := LongDouble.isNearest_min_iff (n := digitsValue x.digits) hbound x.part_nonneg
  have hneg (m : ℤ) (q : ℚ) : IsNearest LongDouble.Representable (x.sign.value * m) (x.sign.value * q) ↔
      IsNearest LongDouble.Representable m q := by
    cases x.sign with
    | minus => simpa [Sign.value] using
      isNearest_neg_iff (R := LongDouble.Representable) (fun _ => LongDouble.representable_neg)
    | _ => simp [Sign.value]
  rw [← and_assoc, bounded_iff, ← hmin, ← hneg, LongDouble.Nearest, hn, value, clampLong_whole]
  simp only [Number.finite.injEq, exists_eq_left', mul_assoc, Nat.cast_mul, Nat.cast_pow, Nat.cast_ofNat]

end Numeral

lemma toByte_ofInt (z : ℤ) : toByte (BitVec.ofInt 32 z) = 0 ↔ 256 ∣ z := by
  rw [toByte, ← UInt8.toNat_inj, UInt8.toNat_ofBitVec, BitVec.toNat_setWidth, BitVec.toNat_ofInt]
  simp only [UInt8.toNat_zero]
  omega

lemma truth_iff (z : ℤ) : (toByte (BitVec.ofInt 32 (clampLong z)) ≠ 0 ↔ z ≠ 0) ↔
    z = 0 ∨ 2 ^ 63 ≤ z ∨ (-2 ^ 63 < z ∧ ¬ 256 ∣ z) := by
  rw [ne_eq, toByte_ofInt, clampLong]
  omega

inductive Kind where
  | number | boolean
  deriving DecidableEq

namespace Kind

def mark : Kind → List Byte
  | number => bytes "1#"
  | boolean => bytes "2#"

def Writes (kind : Kind) (x : Numeral) (t : List Byte) : Prop :=
  x.text = t ∧ (kind = boolean → x.fraction = [])

def Denotes (x : Numeral) (v : TValue) : Kind → Prop
  | number => v.tt = .number ∧ v.value.n.Nearest x.value
  | boolean => v.tt = .boolean ∧ (v.value.b ≠ 0 ↔ x.whole ≠ 0)

def Kept (x : Numeral) : Kind → Prop
  | number => -2 ^ 63 ≤ x.whole ∧ x.whole < 2 ^ 63 ∧
      2 * x.part * 2 ^ 16445 ≤ LongDouble.spacing (digitsValue x.digits)
  | boolean => x.whole = 0 ∨ 2 ^ 63 ≤ x.whole ∨ (-2 ^ 63 < x.whole ∧ ¬ 256 ∣ x.whole)

end Kind

inductive Compiled (line : List Byte) : TValue → Prop
  | number (t : Value) {n : ℤ} (h : constLine line = .number n) :
      Compiled line ((Entry.number n).tvalue t)
  | boolean (t : Value) {n : BitVec 32} (h : constLine line = .boolean n) :
      Compiled line ((Entry.boolean n).tvalue t)

/-- A table has the value itself, or an equal one in its place. -/
def TValue.StandsFor (u v : TValue) : Prop := u = v ∨ u.equal v = some true

def Held (line : List Byte) (v : TValue) : Prop :=
  ∃ (c o w : TValue) (padding : List Output → BitVec 48) (h : List Output) (mem : LoadMemory) (path : Path)
    (i : ℕ) (s : List Byte),
    Compiled line c ∧ o.StandsFor c ∧
    loadConstant reader mem path i ((dumpConstant memmove padding o h).1.flatMap Output.bytes ++ s) = .done w s ∧
    v.StandsFor w

structure Means (kind : Kind) (line t : List Byte) : Prop where
  held : ∀ v, Held line v → ∃ x, kind.Writes x t ∧ kind.Denotes x v
  rejected : (¬ ∃ x, kind.Writes x t) → ∃ e, constLine line = .bad e

def Kind.constLine (t : List Byte) : Kind → ConstLine
  | number => .number (atol t)
  | boolean => .boolean (atoi t)

lemma constLine_marked {kind : Kind} {line t : List Byte} (h : cstr line = kind.mark ++ t) :
    constLine line = kind.constLine t := by
  obtain ⟨s, rfl, rfl⟩ := cstr_eq_append (by cases kind <;> decide) h
  cases kind with
  | number =>
    rw [Kind.constLine, atol, strtol_cstr]
    exact constLine_typed (d := 49) (by decide) s
  | boolean =>
    rw [Kind.constLine, atoi, strtol_cstr]
    exact constLine_typed (d := 50) (by decide) s

section Held

variable {u v : TValue} {line : List Byte}

lemma TValue.StandsFor.number (h : u.StandsFor v) (hv : v.tt = .number) :
    u.tt = .number ∧ u.value.n.number = v.value.n.number := by
  rcases h with rfl | h
  · exact ⟨hv, rfl⟩
  · have hu := (TValue.tt_of_equal h).trans hv
    rw [TValue.equal, if_pos (hu.trans hv.symm), hu] at h
    exact ⟨hu, (LongDouble.eq_iff.mp (Option.some.inj h)).2⟩

lemma TValue.StandsFor.boolean (h : u.StandsFor v) (hv : v.tt = .boolean) :
    u.tt = .boolean ∧ u.value.b = v.value.b := by
  rcases h with rfl | h
  · exact ⟨hv, rfl⟩
  · have hu := (TValue.tt_of_equal h).trans hv
    refine ⟨hu, by_contra fun hne => ?_⟩
    cases (TValue.equal_of_b_ne hu hv hne).symm.trans h

section Load

variable (padding : List Output → BitVec 48) (h : List Output) (mem : LoadMemory) (path : Path) (i : ℕ)
  (s : List Byte) {o : TValue}

lemma load_number (ho : o.tt = .number) :
    loadConstant reader mem path i ((dumpConstant memmove padding o h).1.flatMap Output.bytes ++ s) =
      .done ⟨.number, (mem.k path i).setNum o.value.n⟩ s :=
  (loadConstant_dumped (o := o) mem padding reader_reports path i (by rw [reloadConstant, ho])
    (by simp [ho]) h s).2

lemma load_boolean (ho : o.tt = .boolean) :
    loadConstant reader mem path i ((dumpConstant memmove padding o h).1.flatMap Output.bytes ++ s) =
      .done ⟨.boolean, (mem.k path i).setBool (if toByte o.value.b = 0 then 0 else 1)⟩ s :=
  (loadConstant_dumped (o := o) mem padding reader_reports path i (by rw [reloadConstant, ho])
    (by simp [ho]) h s).2

end Load

lemma Held.number {n : ℤ} (h : Held line v) (hline : constLine line = .number n) :
    v.tt = .number ∧ v.value.n.number = .finite (n * 2 ^ 16445) := by
  obtain ⟨c, o, w, padding, out, mem, path, i, s, hc, ho, hload, hv⟩ := h
  cases hc with
  | boolean t hb => cases hline.symm.trans hb
  | number t hn =>
    cases hline.symm.trans hn
    obtain ⟨hot, honum⟩ := ho.number rfl
    rw [load_number padding out mem path i s hot] at hload
    cases hload
    obtain ⟨hvt, hvnum⟩ := hv.number rfl
    refine ⟨hvt, ?_⟩
    rw [hvnum, Value.setNum_n, honum, Entry.tvalue, Value.setNum_n]
    exact number_ofInt (constLine_number hline)

lemma Held.boolean {n : BitVec 32} (h : Held line v) (hline : constLine line = .boolean n) :
    v.tt = .boolean ∧ (v.value.b ≠ 0 ↔ toByte n ≠ 0) := by
  obtain ⟨c, o, w, padding, out, mem, path, i, s, hc, ho, hload, hv⟩ := h
  cases hc with
  | number t hn => cases hline.symm.trans hn
  | boolean t hb =>
    cases hline.symm.trans hb
    obtain ⟨hot, hob⟩ := ho.boolean rfl
    rw [load_boolean padding out mem path i s hot] at hload
    cases hload
    obtain ⟨hvt, hvb⟩ := hv.boolean rfl
    refine ⟨hvt, ?_⟩
    have hn : o.value.b = n := by rw [hob, Entry.tvalue, Value.setBool_b]
    rw [hvb, Value.setBool_b, hn]
    by_cases h0 : toByte n = 0 <;> simp [h0]

lemma exists_held (h : (∃ n, constLine line = .number n) ∨ ∃ n, constLine line = .boolean n) :
    ∃ v, Held line v := by
  rcases h with ⟨n, hn⟩ | ⟨n, hn⟩
  · exact ⟨_, _, _, _, fun _ => 0, [], default, [], 0, [], .number ⟨0, 0, .empty⟩ hn, .inl rfl,
      load_number _ _ _ _ _ _ rfl, .inl rfl⟩
  · exact ⟨_, _, _, _, fun _ => 0, [], default, [], 0, [], .boolean ⟨0, 0, .empty⟩ hn, .inl rfl,
      load_boolean _ _ _ _ _ _ rfl, .inl rfl⟩

section Tables

lemma exists_standsFor {l : List TValue} (h : v ∈ l) :
    ∃ u ∈ l.foldl (Pool.push TValue.same) [], u.StandsFor v := by
  obtain ⟨u, hu, hsame⟩ : ∃ u ∈ l.foldl (Pool.push TValue.same) [], u = v ∨ u.same v = true :=
    Pool.exists_mem_foldl_push h
  exact ⟨u, hu, hsame.imp_right of_decide_eq_true⟩

lemma compileConst_standsFor {mem : Memory} {path : Path} {b b' : Block} {s r : List Byte} (hb : b.k = [])
    (h : compileConst mem path b s = .done b' r) :
    ∃ es, constEntries mem path s = .done es r ∧
      ∀ c ∈ entryConstants (mem.temp path) es, ∃ o ∈ b'.k, o.StandsFor c := by
  obtain ⟨u, m, hexpect, hloop⟩ := bind_eq_done.mp h
  have hinit : After mem path [] ⟨path, b, mem.temp path, 0⟩ := ⟨rfl, rfl, hb, by simp⟩
  obtain ⟨es, hes, -, hk⟩ := constLoop_entries hinit hloop
  refine ⟨es, by rw [constEntries, bind_done hexpect, hes], fun c hc => ?_⟩
  rw [hk]
  exact exists_standsFor hc

lemma rebuild_held {mem : LoadMemory} {path : Path} {b b' : Block} {c o : TValue} (hb : Assembled b)
    (ha : b.Addressable) (h : rebuild reader mem path b = some b') (ho : o ∈ b.k.take (count b.k).toNat)
    (hc : Compiled line c) (hoc : o.StandsFor c) : ∃ v ∈ b'.k, Held line v := by
  obtain ⟨-, -, k, l, hk, -, htable⟩ :=
    (rebuild_iff mem path reader_reports hb ha (fun k _ => k = b'.k)).mp ⟨b', h, rfl⟩
  have hreads := reloadConstants_reloads mem path (count_le b.k) hk
  obtain ⟨i, hi⟩ : ∃ i, (o, i) ∈ (b.k.take (count b.k).toNat).zipIdx := by
    rw [← List.zipIdx_map_fst 0 (b.k.take _)] at ho
    obtain ⟨⟨o', i⟩, hi, rfl⟩ := List.mem_map.mp ho
    exact ⟨i, hi⟩
  obtain ⟨w, hw, o₁, hre⟩ : ∃ w ∈ k.2, Reloads reader mem path (o, i) w := by
    obtain ⟨j, hj, hget⟩ := List.mem_iff_getElem.mp hi
    have hj' : j < k.2.length := hreads.length_eq ▸ hj
    have hread := hreads.get hj hj'
    rw [List.get_eq_getElem, hget] at hread
    exact ⟨_, List.get_mem k.2 ⟨j, hj'⟩, hread⟩
  obtain ⟨v, hv, hvw⟩ := exists_standsFor hw
  have hscalar : o.tt ≠ .string := by
    cases hc with
    | number => rw [(hoc.number rfl).1]; decide
    | boolean => rw [(hoc.boolean rfl).1]; decide
  have hload := (loadConstant_dumped mem (fun _ => 0) reader_reports path i hre
    (fun hs => absurd hs hscalar) [] []).2
  exact ⟨v, htable ▸ hv, c, o, w, fun _ => 0, [], mem, path, i, [], hc, hoc, hload, hvw⟩

theorem section_held {mem : Memory} {lmem : LoadMemory} {path place : Path} {b b' b'' : Block} {s r : List Byte}
    (hb : b.k = []) (h : compileConst mem path b s = .done b' r) (hasm : Assembled b') (ha : b'.Addressable)
    (hsize : b'.k.length < 2 ^ 31) (hload : rebuild reader lmem place b' = some b'') :
    ∃ es, constEntries mem path s = .done es r ∧
      ∀ c ∈ entryConstants (mem.temp path) es, ∀ line, Compiled line c → ∃ v ∈ b''.k, Held line v := by
  obtain ⟨es, hes, hall⟩ := compileConst_standsFor hb h
  refine ⟨es, hes, fun c hc line hcompiled => ?_⟩
  obtain ⟨o, ho, hoc⟩ := hall c hc
  apply rebuild_held hasm ha hload ?_ hcompiled hoc
  rwa [count_toNat hsize, List.take_length]

end Tables

end Held

section Meaning

variable {kind : Kind} {line t : List Byte}

lemma denotes_iff {v : TValue} {x : Numeral} (h : cstr line = kind.mark ++ t) (hx : x.text = t)
    (hv : Held line v) : kind.Denotes x v ↔ kind.Kept x := by
  have hline := constLine_marked h
  subst hx
  cases kind with
  | number =>
    rw [Kind.constLine, atol, x.strtol_text] at hline
    obtain ⟨htt, hnum⟩ := hv.number hline
    exact (and_iff_right htt).trans (x.nearest_iff hnum)
  | boolean =>
    rw [Kind.constLine, atoi, x.strtol_text] at hline
    obtain ⟨htt, hb⟩ := hv.boolean hline
    refine (and_iff_right htt).trans ?_
    rw [hb]
    exact truth_iff x.whole

theorem means_iff (h : cstr line = kind.mark ++ t) :
    Means kind line t ↔ ∃ x, kind.Writes x t ∧ kind.Kept x := by
  have haccept : (∃ n, constLine line = .number n) ∨ ∃ n, constLine line = .boolean n := by
    rw [constLine_marked h]
    cases kind with
    | number => exact .inl ⟨_, rfl⟩
    | boolean => exact .inr ⟨_, rfl⟩
  constructor
  · intro hmeans
    obtain ⟨v, hv⟩ := exists_held haccept
    obtain ⟨x, hx, hden⟩ := hmeans.held v hv
    exact ⟨x, hx, (denotes_iff h hx.1 hv).mp hden⟩
  · rintro ⟨x, hx, hkept⟩
    exact ⟨fun v hv => ⟨x, hx, (denotes_iff h hx.1 hv).mpr hkept⟩, fun hnone => (hnone ⟨x, hx⟩).elim⟩

end Meaning

theorem means_iff_signed :
    Means .number (bytes "1#-5") (bytes "-5") ∧ Means .boolean (bytes "2#+12") (bytes "+12") := by
  constructor
  · refine (means_iff (by decide)).mpr ⟨⟨.minus, bytes "5", [], by decide, List.all_eq_true.mp rfl, nofun⟩,
      ⟨rfl, nofun⟩, by decide, by decide, ?_⟩
    rw [Numeral.part_of_integer _ rfl, mul_zero, zero_mul]
    exact Nat.cast_nonneg _
  · exact (means_iff (by decide)).mpr ⟨⟨.plus, bytes "12", [], by decide, List.all_eq_true.mp rfl, nofun⟩,
      ⟨rfl, fun _ => rfl⟩, .inr (.inr (by decide))⟩

theorem numerals_lost :
    (∃ v, Held (bytes "1#1.5") v ∧ v.value.n.number = .finite (1 * 2 ^ 16445)) ∧
    (∃ v, Held (bytes "1#abc") v ∧ v.value.n.number = .finite (0 * 2 ^ 16445)) ∧
    (∃ v, Held (bytes "2#256") v ∧ v.value.b = 0) ∧
    ¬ ∀ kind line t, cstr line = Kind.mark kind ++ t → Means kind line t := by
  have hnumber {line t : List Byte} {n : ℤ} (h : cstr line = Kind.number.mark ++ t) (hn : atol t = n) :
      ∃ v, Held line v ∧ v.value.n.number = .finite (n * 2 ^ 16445) := by
    have hline : constLine line = .number n := hn ▸ constLine_marked h
    obtain ⟨v, hv⟩ := exists_held (.inl ⟨n, hline⟩)
    exact ⟨v, hv, (hv.number hline).2⟩
  have hmark : cstr (bytes "2#256") = Kind.boolean.mark ++ bytes "256" := by decide
  have hline : constLine (bytes "2#256") = .boolean 256 := constLine_marked hmark
  obtain ⟨v, hv⟩ := exists_held (.inr ⟨256, hline⟩)
  have hfalse : v.value.b = 0 := by
    by_contra hb
    exact absurd ((hv.boolean hline).2.mp hb) (by decide)
  refine ⟨hnumber (t := bytes "1.5") (by decide) (by decide),
    hnumber (t := bytes "abc") (by decide) (by decide), ⟨v, hv, hfalse⟩, fun hall => ?_⟩
  obtain ⟨x, ⟨htext, -⟩, -, htrue⟩ := (hall .boolean _ _ hmark).held v hv
  have hwhole : clampLong x.whole = 256 := by
    rw [← x.strtol_text, htext]
    decide
  have hzero : x.whole = 0 := by_contra fun hne => htrue.mpr hne hfalse
  rw [hzero] at hwhole
  exact absurd hwhole (by decide)

end Bijou
