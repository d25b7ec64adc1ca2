import Bijou.Library.CString
import Mathlib.Tactic.Ring

/-! The tagged values of bijou.h, value.c and string.c on x86-64: a `Value` is sixteen bytes seen as
a string, an 80 bit long double or an int; unwritten bytes keep what was there before. -/

namespace Bijou

open CString

def toByte (n : BitVec 32) : Byte := UInt8.ofBitVec (n.setWidth 8)

def CStr : Type := {s : List Byte // 0 ∉ s}

instance : DecidableEq CStr := inferInstanceAs (DecidableEq {s : List Byte // 0 ∉ s})

def CStr.chars (s : CStr) : List Byte := s.val

def CStr.at (mem : List Byte) : CStr := ⟨cstr mem, fun h => by
  have := List.mem_takeWhile_imp h
  simp at this⟩

def CStr.empty : CStr := ⟨[], by simp⟩

lemma CStr.at_eq {d : List Byte} (h : 0 ∉ d) : (CStr.at d).chars = d :=
  List.takeWhile_eq_self_iff.mpr (fun _ hc => bne_iff_ne.mpr (fun h0 => h (h0 ▸ hc)))

lemma CStr.at_terminated {d : List Byte} (h : 0 ∉ d) (t : List Byte) :
    CStr.at (d ++ 0 :: t) = CStr.at d := by
  apply Subtype.ext
  have hd := cstr_terminated h []
  change cstr (d ++ 0 :: t) = cstr d
  rw [cstr_terminated h t, cstr, List.takeWhile_eq_self_iff.mpr]
  exact fun c hc => bne_iff_ne.mpr (fun h0 => h (h0 ▸ hc))

@[ext] structure LongDouble where
  mant : BitVec 64
  se : BitVec 16
  deriving DecidableEq

/-- A finite number is a multiple of `2 ^ (-16445)`. -/
inductive Number where
  | nan
  | inf (negative : Bool)
  | finite (m : ℤ)
  deriving DecidableEq

def LongDouble.exponent (x : LongDouble) : ℕ := x.se.toNat % 2 ^ 15

def LongDouble.number (x : LongDouble) : Number :=
  if x.exponent = 2 ^ 15 - 1 then
    if x.mant = BitVec.ofNat 64 (2 ^ 63) then .inf x.se.msb else .nan
  else if x.exponent ≠ 0 ∧ x.mant.msb = false then .nan
  else
    .finite ((if x.se.msb then -1 else 1) * (x.mant.toNat * 2 ^ (max x.exponent 1 - 1) : ℕ))

def LongDouble.ofInt (z : ℤ) : LongDouble :=
  if z = 0 then ⟨0, 0⟩
  else
    let e := z.natAbs.log2
    ⟨BitVec.ofNat 64 (z.natAbs * 2 ^ (63 - e)),
      BitVec.ofNat 16 ((if z < 0 then 2 ^ 15 else 0) + (16383 + e))⟩

def LongDouble.eq (x y : LongDouble) : Bool :=
  match x.number, y.number with
  | .nan, _ => false
  | a, b => a = b

section OfInt

variable {z : ℤ}

lemma ofInt_mant (hz : z ≠ 0) (h : z.natAbs < 2 ^ 64) :
    (LongDouble.ofInt z).mant.toNat = z.natAbs * 2 ^ (63 - z.natAbs.log2) ∧
      2 ^ 63 ≤ (LongDouble.ofInt z).mant.toNat := by
  have hpos : z.natAbs ≠ 0 := by omega
  have hl := Nat.log2_self_le hpos
  have hu := Nat.lt_log2_self (n := z.natAbs)
  have he : z.natAbs.log2 < 64 := (Nat.log2_lt hpos).mpr h
  have hlow : 2 ^ 63 ≤ z.natAbs * 2 ^ (63 - z.natAbs.log2) := by
    calc 2 ^ 63 = 2 ^ z.natAbs.log2 * 2 ^ (63 - z.natAbs.log2) := by rw [← pow_add]; congr 1; omega
      _ ≤ _ := Nat.mul_le_mul_right _ hl
  have hhigh : z.natAbs * 2 ^ (63 - z.natAbs.log2) < 2 ^ 64 := by
    calc z.natAbs * 2 ^ (63 - z.natAbs.log2)
        < 2 ^ (z.natAbs.log2 + 1) * 2 ^ (63 - z.natAbs.log2) :=
          Nat.mul_lt_mul_of_pos_right hu (by positivity)
      _ = 2 ^ 64 := by rw [← pow_add]; congr 1; omega
  have hm : (LongDouble.ofInt z).mant.toNat = z.natAbs * 2 ^ (63 - z.natAbs.log2) := by
    simp only [LongDouble.ofInt, if_neg hz, BitVec.toNat_ofNat]
    exact Nat.mod_eq_of_lt hhigh
  exact ⟨hm, hm ▸ hlow⟩

lemma ofInt_se (hz : z ≠ 0) (h : z.natAbs < 2 ^ 64) :
    (LongDouble.ofInt z).exponent = 16383 + z.natAbs.log2 ∧
      (LongDouble.ofInt z).se.msb = decide (z < 0) := by
  have hpos : z.natAbs ≠ 0 := by omega
  have he : z.natAbs.log2 < 64 := (Nat.log2_lt hpos).mpr h
  have hse : (LongDouble.ofInt z).se.toNat =
      (if z < 0 then 2 ^ 15 else 0) + (16383 + z.natAbs.log2) := by
    simp only [LongDouble.ofInt, if_neg hz, BitVec.toNat_ofNat]
    split <;> omega
  constructor
  · rw [LongDouble.exponent, hse]
    split <;> omega
  · rw [BitVec.msb_eq_decide, hse, decide_eq_decide]
    split <;> omega

lemma number_ofInt (h : z.natAbs < 2 ^ 64) :
    (LongDouble.ofInt z).number = .finite (z * 2 ^ 16445) := by
  by_cases hz : z = 0
  · rw [hz, zero_mul]
    rfl
  obtain ⟨hm, hge⟩ := ofInt_mant hz h
  obtain ⟨he, hs⟩ := ofInt_se hz h
  have hlog : z.natAbs.log2 < 64 := (Nat.log2_lt (by omega)).mpr h
  have hmsb : (LongDouble.ofInt z).mant.msb = true := by
    rw [BitVec.msb_eq_decide]
    simpa using hge
  have hscale : z.natAbs * 2 ^ (63 - z.natAbs.log2) * 2 ^ (max (16383 + z.natAbs.log2) 1 - 1) =
      z.natAbs * 2 ^ 16445 := by
    rw [mul_assoc, ← pow_add]
    congr 2
    omega
  rw [LongDouble.number, if_neg (by omega), if_neg (by simp [hmsb]), hm, he, hs, hscale]
  have hsign : (if decide (z < 0) = true then -1 else 1) * (z.natAbs : ℤ) = z := by
    by_cases hn : z < 0
    · simp only [hn, decide_true, if_true]
      omega
    · simp only [hn, decide_false, Bool.false_eq_true, if_false]
      omega
  rw [Nat.cast_mul, Nat.cast_pow, Nat.cast_ofNat, ← mul_assoc, hsign]

lemma eq_ofInt {z w : ℤ} (hz : z.natAbs < 2 ^ 64) (hw : w.natAbs < 2 ^ 64) :
    (LongDouble.ofInt z).eq (LongDouble.ofInt w) = decide (z = w) := by
  have hp : (2 ^ 16445 : ℤ) ≠ 0 := by positivity
  simp only [LongDouble.eq, number_ofInt hz, number_ofInt hw, Number.finite.injEq]
  congr 1
  exact propext (mul_left_inj' hp)

lemma ofInt_inj {z w : ℤ} (hz : z.natAbs < 2 ^ 64) (hw : w.natAbs < 2 ^ 64)
    (h : LongDouble.ofInt z = LongDouble.ofInt w) : z = w := by
  have heq := eq_ofInt hz hw
  rw [h, eq_ofInt hw hw] at heq
  simpa using heq

end OfInt

structure CharPtr where
  addr : BitVec 64
  text : CStr
  deriving DecidableEq

lemma one_addr : (1 : BitVec 64) ≠ 0 := by decide

def CharPtr.null : CharPtr := ⟨0, CStr.empty⟩

def CharPtr.to (text : CStr) : CharPtr := ⟨1, text⟩

structure BijouString where
  ptr : CharPtr
  len : BitVec 64
  deriving DecidableEq

def strlen (s : CStr) : BitVec 64 := BitVec.ofNat 64 s.chars.length

def BijouString.new (str : CharPtr) : BijouString where
  ptr := str
  len := if str.addr = 0 then 0 else strlen str.text

def BijouString.chars (s : BijouString) : List Byte :=
  if s.ptr.addr = 0 then [] else s.ptr.text.chars

def BijouString.equal (one two : BijouString) : Option Bool :=
  if one.len = two.len then
    if one.ptr.addr = 0 ∨ two.ptr.addr = 0 then none
    else some (one.ptr.text = two.ptr.text)
  else some false

structure Value where
  lo : BitVec 64
  hi : BitVec 64
  text : CStr
  deriving DecidableEq

namespace Value

def s (v : Value) : BijouString := ⟨⟨v.lo, v.text⟩, v.hi⟩

def n (v : Value) : LongDouble := ⟨v.lo, v.hi.setWidth 16⟩

def b (v : Value) : BitVec 32 := v.lo.setWidth 32

def ofString (s : BijouString) : Value := ⟨s.ptr.addr, s.len, s.ptr.text⟩

def setNum (v : Value) (x : LongDouble) : Value :=
  { v with lo := x.mant, hi := v.hi.extractLsb' 16 48 ++ x.se }

def setBool (v : Value) (x : BitVec 32) : Value :=
  { v with lo := v.lo.extractLsb' 32 32 ++ x }

@[simp] lemma ofString_s (s : BijouString) : (ofString s).s = s := rfl

@[simp] lemma setNum_n (v : Value) (x : LongDouble) : (v.setNum x).n = x := by
  ext1
  · rfl
  · exact BitVec.setWidth_append_eq_right (a := v.hi.extractLsb' 16 48)

@[simp] lemma setBool_b (v : Value) (x : BitVec 32) : (v.setBool x).b = x :=
  BitVec.setWidth_append_eq_right

end Value

inductive Tag where
  | none | null | number | boolean | string | function | pointer
  deriving DecidableEq

def Tag.code : Tag → ℤ
  | none => -1
  | null => 0
  | number => 1
  | boolean => 2
  | string => 3
  | function => 4
  | pointer => 5

structure TValue where
  tt : Tag
  value : Value
  deriving DecidableEq

/-- Two functions are compared by the addresses of the two parameters, which differ. -/
def TValue.equal (f s : TValue) : Option Bool :=
  if f.tt = s.tt then
    match f.tt with
    | .null => some true
    | .number | .boolean => some (f.value.n.eq s.value.n)
    | .string => f.value.s.equal s.value.s
    | _ => some false
  else some false

def TValue.same (f s : TValue) : Bool := f.equal s = some true

end Bijou
