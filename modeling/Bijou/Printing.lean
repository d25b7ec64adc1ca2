import Bijou.Constants
import Bijou.Library.Buffer
import Bijou.Library.Rounding
import Bijou.Numbers

/-! The text that TValue_to_string makes of a value, with the conversions `%f`, `%p` and `%s` of glibc,
and the twenty bytes that it allocates for it. -/

namespace Bijou

open CString Rounding

def Number.toDouble : Number → Number
  | finite m =>
    let r := float 53 (16445 - 1074) m.natAbs
    if 2 ^ (1024 + 16445) ≤ r then inf (m < 0) else finite (if m < 0 then -r else r)
  | n => n

def LongDouble.negative (x : LongDouble) : Bool := x.se.msb || (x.exponent != 0 && !x.mant.msb)

def pad (n : ℕ) (s : List Byte) : List Byte := List.replicate (n - s.length) 48 ++ s

def sixDecimals (m : ℕ) : List Byte :=
  let n := nearest (m * 10 ^ 6) (2 ^ 16445)
  decimal (n / 10 ^ 6) ++ [46] ++ pad 6 (decimal (n % 10 ^ 6))

def LongDouble.text (x : LongDouble) : List Byte :=
  (if x.negative then [45] else []) ++
    match x.number.toDouble with
    | .nan => bytes "nan"
    | .inf _ => bytes "inf"
    | .finite m => sixDecimals m.natAbs

def hexDigit (d : ℕ) : Byte := UInt8.ofNat (if d < 10 then 48 + d else 87 + d)

def addressText (p : BitVec 64) : List Byte :=
  if p = 0 then bytes "(nil)"
  else bytes "0x" ++ ((Nat.digits 16 p.toNat).map hexDigit).reverse

def CharPtr.printed (p : CharPtr) : List Byte := if p.addr = 0 then bytes "(null)" else p.text.chars

inductive Text where
  | literal (s : List Byte)
  | shared (p : CharPtr)
  | allocated (b : Buffer Byte)

namespace Text

def printed : Text → List Byte
  | literal s => s
  | shared p => p.printed
  | allocated b => cstr b.cells

def Fits : Text → Prop
  | allocated b => b.Inside
  | _ => True

end Text

section ToString

-- what the allocated memory holds, and the address of the parameter
variable (cells : List Byte) (here : BitVec 64)

def sprintf (text : List Byte) : Buffer Byte :=
  let ca := Buffer.malloc cells 20
  let ca := ca.fill (List.replicate 20 0) 0
  ca.fill (text ++ [0]) 0

def TValue.toText (t : TValue) : Text :=
  match t.tt with
  | .none => .literal (bytes "NONE")
  | .null => .literal (bytes "NULL")
  | .number => .allocated (sprintf cells t.value.n.text)
  | .string => .shared t.value.s.ptr
  | .boolean => .literal (if t.value.b ≠ 0 then bytes "true" else bytes "false")
  | .pointer => .allocated (sprintf cells (addressText t.value.lo))
  | .function => .allocated (sprintf cells (addressText here))

lemma sprintf_inside_iff (text : List Byte) : (sprintf cells text).Inside ↔ text.length < 20 := by
  simp [sprintf, Buffer.Inside, Buffer.fill, Buffer.malloc]

end ToString

section Length

variable {x : LongDouble} {z : ℤ}

lemma negative_eq (hx : x.number = .finite (z * 2 ^ 16445)) (hz : z ≠ 0) :
    x.negative = decide (z < 0) := by
  have hunit : (0 : ℤ) < 2 ^ 16445 := by positivity
  rw [LongDouble.number] at hx
  generalize (2 : ℤ) ^ 16445 = u at hx hunit
  split_ifs at hx with _ _ hexp hsign
  · have hmag : -1 * ((x.mant.toNat * 2 ^ (max x.exponent 1 - 1) : ℕ) : ℤ) = z * u := by
      simpa using hx
    have hle : z ≤ 0 := by
      by_contra hpos
      have := mul_pos (not_le.mp hpos) hunit
      omega
    rw [LongDouble.negative, hsign, Bool.true_or, decide_eq_true (by omega)]
  · have hmag : 1 * ((x.mant.toNat * 2 ^ (max x.exponent 1 - 1) : ℕ) : ℤ) = z * u := by
      simpa using hx
    have hge : ¬ z < 0 := by
      intro hneg
      have := mul_neg_of_neg_of_pos hneg hunit
      omega
    have hnormal : (x.exponent != 0 && !x.mant.msb) = false := by simpa using hexp
    rw [LongDouble.negative, Bool.not_eq_true _ |>.mp hsign, hnormal, decide_eq_false hge, Bool.false_or]

lemma natAbs_mul_pow (z : ℤ) (n : ℕ) : (z * 2 ^ n).natAbs = z.natAbs * 2 ^ n := by
  rw [Int.natAbs_mul, Int.natAbs_pow]
  rfl

lemma toDouble_inf_iff : (∃ b, (Number.finite (z * 2 ^ 16445)).toDouble = .inf b) ↔
    2 ^ 1024 - 2 ^ 970 ≤ z.natAbs := by
  have hreach := @pow_le_float_iff 52 (16445 - 1074) (z.natAbs * 2 ^ 16445) (971 + 16445) (by norm_num)
  have hexp : 52 + 1 + (971 + 16445) = 1024 + 16445 := rfl
  have hhalf : (2 ^ (52 + 2) - 1) * 2 ^ (971 + 16445) ≤ 2 * (z.natAbs * 2 ^ 16445) ↔
      2 ^ 1024 - 2 ^ 970 ≤ z.natAbs := by
    rw [pow_add 2 971, ← mul_assoc, ← mul_assoc, Nat.mul_le_mul_right_iff (by positivity)]
    norm_num
    omega
  rw [hexp] at hreach
  rw [← hhalf, ← hreach, Number.toDouble, natAbs_mul_pow]
  split_ifs with h
  · exact iff_of_true ⟨_, rfl⟩ h
  · exact iff_of_false nofun h

lemma toDouble_finite {n : ℤ} (h : (Number.finite (z * 2 ^ 16445)).toDouble = .finite n) :
    n.natAbs = float 53 (16445 - 1074) (z.natAbs * 2 ^ 16445) := by
  rw [Number.toDouble, natAbs_mul_pow] at h
  split_ifs at h
  · obtain rfl := Number.finite.inj h
    rw [Int.natAbs_neg, Int.natAbs_natCast]
  · obtain rfl := Number.finite.inj h
    rw [Int.natAbs_natCast]

def LongDouble.digits (n : ℤ) : ℕ := nearest (n.natAbs * 10 ^ 6) (2 ^ 16445) / 10 ^ 6

lemma length_pad {n : ℕ} {s : List Byte} (h : s.length ≤ n) : (pad n s).length = n := by
  rw [pad, List.length_append, List.length_replicate]
  omega

lemma length_text {n : ℤ} (hn : x.number.toDouble = .finite n) : x.text.length =
    (if x.negative then 1 else 0) + (decimal (LongDouble.digits n)).length + 7 := by
  have hfraction : (decimal (nearest (n.natAbs * 10 ^ 6) (2 ^ 16445) % 10 ^ 6)).length ≤ 6 :=
    (length_decimal_le_iff (by norm_num)).mpr (Nat.mod_lt _ (by norm_num))
  rw [LongDouble.text, hn]
  simp only [sixDecimals, List.length_append, List.length_singleton, length_pad hfraction,
    LongDouble.digits]
  split <;> simp only [List.length_singleton, List.length_nil] <;> omega

lemma digits_small {n : ℤ} (h : z.natAbs < 2 ^ 53)
    (hn : (Number.finite (z * 2 ^ 16445)).toDouble = .finite n) : LongDouble.digits n = z.natAbs := by
  rw [LongDouble.digits, toDouble_finite hn, float_exact (by norm_num) h, mul_right_comm,
    nearest_mul (by positivity), Nat.mul_div_cancel _ (by norm_num)]

lemma digits_large {n : ℤ} (h : 2 ^ 53 ≤ z.natAbs)
    (hn : (Number.finite (z * 2 ^ 16445)).toDouble = .finite n) : 2 ^ 53 ≤ LongDouble.digits n := by
  have hreach : 2 ^ (53 + 16445) ≤ float 53 (16445 - 1074) (z.natAbs * 2 ^ 16445) :=
    pow_le_float (by norm_num) (by norm_num) (by
      rw [pow_add]
      exact Nat.mul_le_mul_right _ h)
  rw [LongDouble.digits, toDouble_finite hn, Nat.le_div_iff_mul_le (by norm_num)]
  apply le_nearest (by positivity)
  rw [mul_right_comm, ← pow_add]
  exact Nat.mul_le_mul_right _ hreach

lemma length_text_lt_iff (hx : x.number = .finite (z * 2 ^ 16445)) : x.text.length < 20 ↔
    (-10 ^ 11 < z ∧ z < 10 ^ 12) ∨ 2 ^ 1024 - 2 ^ 970 ≤ z.natAbs := by
  have hinf := toDouble_inf_iff (z := z)
  rw [← hx] at hinf
  cases hn : x.number.toDouble with
  | nan =>
    rw [hx, Number.toDouble] at hn
    split_ifs at hn
  | inf b =>
    refine iff_of_true ?_ (.inr (hinf.mp ⟨b, hn⟩))
    have hword : (bytes "inf").length = 3 := by decide
    rw [LongDouble.text, hn, List.length_append, hword]
    split <;> decide
  | finite n =>
    have hbelow : ¬ 2 ^ 1024 - 2 ^ 970 ≤ z.natAbs := by
      rw [← hinf, hn]
      exact nofun
    rw [length_text hn, or_iff_left hbelow]
    have hn' := hx ▸ hn
    rcases lt_or_ge z.natAbs (2 ^ 53) with hsmall | hlarge
    · rw [digits_small hsmall hn']
      by_cases hz : z = 0
      · subst hz
        refine iff_of_true ?_ (by norm_num)
        split <;> decide
      rw [negative_eq hx hz]
      have htwelve := length_decimal_le_iff (n := z.natAbs) (k := 12) (by norm_num)
      have heleven := length_decimal_le_iff (n := z.natAbs) (k := 11) (by norm_num)
      by_cases hneg : z < 0
      · simp only [hneg, decide_true, if_true]
        omega
      · simp only [hneg, decide_false, Bool.false_eq_true, if_false]
        omega
    · have hdigits := digits_large hlarge hn'
      have htwelve := length_decimal_le_iff (n := LongDouble.digits n) (k := 12) (by norm_num)
      constructor <;> omega

end Length

lemma arith_eq {op : String} {garbage : Value} {f : LongDouble → LongDouble → LongDouble}
    {one two : TValue} (h : one.tt = .number) (h' : two.tt = .number) :
    TValue.arith op garbage f one two =
      some (⟨.number, one.value.setNum (f one.value.n two.value.n)⟩, []) := by
  rw [TValue.arith, TValue.binary, if_neg (by simp [h, h'])]
  rfl

/-- What constants, sums, differences and products give as long as no result has to be rounded. -/
inductive Computed (a : Arithmetic) : TValue → ℤ → Prop
  | const (t : List Byte) (temp : Value) : Computed a ((Entry.number (atol t)).tvalue temp) (atol t)
  | add {x y r : TValue} {m n : ℤ} {garbage : Value} (one : Computed a x m) (two : Computed a y n)
      (result : TValue.numAdd a garbage x y = some (r, []))
      (exact : r.value.n.number = .finite ((m + n) * 2 ^ 16445)) : Computed a r (m + n)
  | sub {x y r : TValue} {m n : ℤ} {garbage : Value} (one : Computed a x m) (two : Computed a y n)
      (result : TValue.numSub a garbage x y = some (r, []))
      (exact : r.value.n.number = .finite ((m - n) * 2 ^ 16445)) : Computed a r (m - n)
  | mul {x y r : TValue} {m n : ℤ} {garbage : Value} (one : Computed a x m) (two : Computed a y n)
      (result : TValue.numMul a garbage x y = some (r, []))
      (exact : r.value.n.number = .finite (m * n * 2 ^ 16445)) : Computed a r (m * n)

section Computed

variable {a : Arithmetic} {x r : TValue} {z : ℤ}

lemma arith_number {op : String} {garbage : Value} {f : LongDouble → LongDouble → LongDouble}
    {one two : TValue} (h : TValue.arith op garbage f one two = some (r, [])) : r.tt = .number := by
  by_cases htt : one.tt = .number ∧ two.tt = .number
  · rw [arith_eq htt.1 htt.2] at h
    cases h
    rfl
  · have hbad : one.tt ≠ .number ∨ two.tt ≠ .number := by tauto
    rw [TValue.arith, TValue.binary, if_pos hbad] at h
    cases h

lemma Computed.number (h : Computed a x z) :
    x.tt = .number ∧ x.value.n.number = .finite (z * 2 ^ 16445) := by
  cases h with
  | const t temp => exact ⟨rfl, by rw [Entry.tvalue, Value.setNum_n, number_ofInt (natAbs_atol t)]⟩
  | add _ _ result exact => exact ⟨arith_number result, exact⟩
  | sub _ _ result exact => exact ⟨arith_number result, exact⟩
  | mul _ _ result exact => exact ⟨arith_number result, exact⟩

theorem toText_fits_iff (h : Computed a x z) (cells : List Byte) (here : BitVec 64) :
    (x.toText cells here).Fits ↔ (-10 ^ 11 < z ∧ z < 10 ^ 12) ∨ 2 ^ 1024 - 2 ^ 970 ≤ z.natAbs := by
  obtain ⟨htt, hx⟩ := h.number
  rw [TValue.toText, htt, ← length_text_lt_iff hx]
  exact sprintf_inside_iff cells _

def longArithmetic : Arithmetic :=
  let lift (f : ℤ → ℤ → ℤ) (x y : LongDouble) : LongDouble :=
    .ofInt (f (x.toInt 64).toInt (y.toInt 64).toInt)
  ⟨lift (· + ·), lift (· - ·), lift (· * ·), lift Int.tdiv, lift (fun x y => x ^ y.toNat)⟩

theorem toText_fits_iff_product : ∃ r, Computed longArithmetic r (6 * -7) ∧
    ∀ (cells : List Byte) (here : BitVec 64), (r.toText cells here).Fits ↔
      (-10 ^ 11 < (6 * -7 : ℤ) ∧ (6 * -7 : ℤ) < 10 ^ 12) ∨ 2 ^ 1024 - 2 ^ 970 ≤ (6 * -7 : ℤ).natAbs := by
  have hsix : Computed longArithmetic _ 6 := .const (bytes "6") ⟨0, 0, .empty⟩
  have hseven : Computed longArithmetic _ (-7) := .const (bytes "-7") ⟨0, 0, .empty⟩
  have hmul : longArithmetic.mul (.ofInt 6) (.ofInt (-7)) = .ofInt (6 * -7) := by decide +kernel
  let garbage : Value := ⟨0, 0, .empty⟩
  have hresult : TValue.numMul longArithmetic garbage ((Entry.number 6).tvalue garbage)
      ((Entry.number (-7)).tvalue garbage) =
        some (⟨.number, (garbage.setNum (.ofInt 6)).setNum (.ofInt (6 * -7))⟩, []) := by
    rw [TValue.numMul, arith_eq rfl rfl, Entry.tvalue, Entry.tvalue, Value.setNum_n, Value.setNum_n, hmul]
  have hexact : ((garbage.setNum (.ofInt 6)).setNum (.ofInt (6 * -7))).n.number =
      .finite (6 * -7 * 2 ^ 16445) := by
    rw [Value.setNum_n]
    exact number_ofInt (by decide)
  have hproduct := Computed.mul hsix hseven hresult hexact
  exact ⟨_, hproduct, fun cells here => toText_fits_iff hproduct cells here⟩

theorem constant_overflows : ∃ x, Computed longArithmetic x (10 ^ 12) ∧
    (∀ (cells : List Byte) (here : BitVec 64), ¬ (x.toText cells here).Fits) ∧
    ¬ ∀ a y z cells here, Computed a y z → (TValue.toText cells here y).Fits := by
  have hx : Computed longArithmetic _ (10 ^ 12) := .const (bytes "1000000000000") ⟨0, 0, .empty⟩
  have hlong (cells : List Byte) (here : BitVec 64) : ¬ (TValue.toText cells here
      ((Entry.number (10 ^ 12)).tvalue ⟨0, 0, .empty⟩)).Fits := by
    have hlength := length_text_lt_iff (number_ofInt (z := 10 ^ 12) (by norm_num))
    have hlarge : ¬ 2 ^ 1024 - 2 ^ 970 ≤ Int.natAbs (10 ^ 12) := by decide +kernel
    intro hfits
    rcases hlength.mp ((sprintf_inside_iff cells _).mp hfits) with hlt | hinf
    · exact absurd hlt.2 (lt_irrefl _)
    · exact hlarge hinf
  exact ⟨_, hx, hlong, fun h => hlong [] 0 (h _ _ _ [] 0 hx)⟩

end Computed

end Bijou
