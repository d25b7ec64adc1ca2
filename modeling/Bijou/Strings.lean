import Bijou.Numbers
import Bijou.Library.Buffer

namespace Bijou

open CString

/-- The memory that malloc returns, from there to its end; it reads as NUL behind the list. -/
structure Chunk where
  addr : {a : BitVec 64 // a ≠ 0}
  cells : List Byte

def chunk (cells : List Byte) : Chunk := ⟨⟨1, one_addr⟩, cells⟩

structure HeapString where
  addr : BitVec 64
  buffer : Buffer Byte
  len : BitVec 64

def HeapString.string (s : HeapString) : BijouString := ⟨⟨s.addr, CStr.at s.buffer.cells⟩, s.len⟩

namespace BijouString

def cat (mem : Chunk) (base append : BijouString) : Option HeapString :=
  if base.ptr.addr = 0 ∨ append.ptr.addr = 0 then none
  else
    let cat := Buffer.malloc mem.cells (base.len + append.len).toNat
    let cat := cat.fill base.ptr.text.chars 0
    let cat := cat.fill (append.ptr.text.chars ++ [0]) base.ptr.text.chars.length
    some ⟨mem.addr, cat, strlen (CStr.at cat.cells)⟩

def length (b : BijouString) : Option (BitVec 32) :=
  if b.ptr.addr = 0 then none else some ((strlen b.ptr.text).setWidth 32)

/-- A negative length is too much for malloc, and the string object ends with its NUL. -/
def substr (mem : Chunk) (str : BijouString) (first length : BitVec 32) : Option HeapString :=
  if str.ptr.addr = 0 ∨ first.toInt < 0 ∨ length.toInt < 0 ∨ str.ptr.text.chars.length < first.toNat then
    none
  else
    let dest := Buffer.malloc mem.cells length.toNat
    let dest := dest.fill (strncpy (str.ptr.text.chars.drop first.toNat) length.toNat) 0
    some ⟨mem.addr, dest, strlen (CStr.at dest.cells)⟩

end BijouString

/-- The conversion to size_t, which C defines only for what a size_t can hold. -/
def LongDouble.toSize (x : LongDouble) : BitVec 64 :=
  match x.number.trunc with
  | none => x.toInt 64
  | some z => if 0 ≤ z ∧ z < 2 ^ 64 then BitVec.ofInt 64 z else x.toInt 64

def createString (s : BijouString) : TValue := ⟨.string, .ofString s⟩

inductive StringError where
  | expected (type : Tag) (got : TValue)
  | outOfRange (index : BitVec 64) (s : BijouString)
  | fault
  deriving DecidableEq

def StringError.text (toString : TValue → List Byte) : StringError → List Byte
  | expected type got => printf (bytes "Expected type %d,but got %d (%s)\n")
      [signed type.code, signed got.tt.code, toString got]
  | outOfRange index s => bytes "char_at: index " ++ decimal index.toNat ++
      bytes " out of range for string " ++ s.chars ++ bytes " (length: " ++ decimal s.len.toNat ++
      bytes ")\n"
  | fault => []

def shouldBe (v : TValue) (type : Tag) : Except StringError Unit :=
  if v.tt = type then .ok () else .error (.expected type v)

def orFault {α : Type} : Option α → Except StringError α
  | some a => .ok a
  | none => .error .fault

section Library

variable (mem : Chunk) (argv : ℕ → TValue)

def funcStringCat : Except StringError TValue := do
  shouldBe (argv 0) .string
  shouldBe (argv 1) .string
  let ret ← orFault (BijouString.cat mem (argv 0).value.s (argv 1).value.s)
  return createString ret.string

def funcCharAt : Except StringError TValue := do
  shouldBe (argv 0) .string
  shouldBe (argv 1) .number
  let index := (argv 1).value.n.toSize
  if (argv 0).value.s.len.toNat ≤ index.toNat then .error (.outOfRange index (argv 0).value.s)
  else
    let ret ← orFault (BijouString.substr mem (argv 0).value.s (index.setWidth 32) 1)
    return createString ret.string

def funcSubstr : Except StringError TValue := do
  shouldBe (argv 0) .string
  shouldBe (argv 1) .number
  shouldBe (argv 2) .number
  let ret ← orFault (BijouString.substr mem (argv 0).value.s ((argv 1).value.n.toInt 32)
    ((argv 2).value.n.toInt 32))
  return createString ret.string

def funcLength (garbage : Value) : Except StringError TValue := do
  shouldBe (argv 0) .string
  let length ← orFault (argv 0).value.s.length
  return createNumber garbage (.ofInt length.toInt)

end Library

lemma HeapString.chars_eq {s : HeapString} (h : s.addr ≠ 0) : s.string.chars = cstr s.buffer.cells :=
  if_neg h

structure HeapString.Holds (s : HeapString) (chars : List Byte) : Prop where
  addr : s.addr ≠ 0
  cells : ∃ beyond, s.buffer.cells = chars ++ 0 :: beyond
  noNul : 0 ∉ chars
  inside : chars.length < s.buffer.size
  len : s.len.toNat = chars.length

lemma HeapString.Holds.text {s : HeapString} {chars : List Byte} (h : s.Holds chars) :
    s.string.ptr.text.chars = chars := by
  obtain ⟨beyond, hcells⟩ := h.cells
  change cstr s.buffer.cells = chars
  rw [hcells, cstr_terminated h.noNul]

section Operations

variable {base append str : BijouString} (mem : Chunk)

lemma length_eq (h : str.ptr.addr ≠ 0) :
    str.length = some (BitVec.ofNat 32 str.ptr.text.chars.length) := by
  rw [BijouString.length, if_neg h, strlen]
  congr 1
  apply BitVec.eq_of_toNat_eq
  simp only [BitVec.toNat_setWidth, BitVec.toNat_ofNat]
  omega

lemma toInt_ofNat_iff {n : ℕ} : (BitVec.ofNat 32 n).toInt = n ↔ n < 2 ^ 31 := by
  rw [BitVec.toInt_eq_toNat_cond, BitVec.toNat_ofNat]
  split <;> omega

lemma equal_of_live {one two : BijouString} (h : one.ptr.addr ≠ 0) (h' : two.ptr.addr ≠ 0)
    (hlen : one.len = strlen one.ptr.text) (hlen' : two.len = strlen two.ptr.text) :
    one.equal two = some (decide (one.ptr.text = two.ptr.text)) := by
  rw [BijouString.equal, if_neg (not_or.mpr ⟨h, h'⟩)]
  by_cases heq : one.ptr.text = two.ptr.text
  · rw [if_pos (by rw [hlen, hlen', heq])]
  · rw [decide_eq_false heq, ite_self]

lemma cat_eq (hb : base.ptr.addr ≠ 0) (ha : append.ptr.addr ≠ 0) :
    base.cat mem append = some ⟨mem.addr, ⟨(base.len + append.len).toNat,
      base.ptr.text.chars ++ append.ptr.text.chars ++ 0 :: mem.cells.drop
        (base.ptr.text.chars.length + (append.ptr.text.chars.length + 1)),
      base.ptr.text.chars.length + (append.ptr.text.chars.length + 1)⟩,
      strlen (CStr.at (base.ptr.text.chars ++ append.ptr.text.chars))⟩ := by
  obtain ⟨c, hc⟩ : ∃ c, base.ptr.text.chars = c := ⟨_, rfl⟩
  obtain ⟨d, hd⟩ : ∃ d, append.ptr.text.chars = d := ⟨_, rfl⟩
  have hnul : 0 ∉ c ++ d :=
    List.not_mem_append (hc ▸ base.ptr.text.property) (hd ▸ append.ptr.text.property)
  have hcells : splice c.length (d ++ [0]) (splice 0 c mem.cells) =
      c ++ d ++ 0 :: mem.cells.drop (c.length + (d.length + 1)) := by
    rw [splice_zero, splice_append, List.drop_drop, List.length_append, List.length_singleton]
    simp
  have hreach (n : ℕ) (hn : n ≤ c.length) : max n (c.length + (d ++ [0]).length) =
      c.length + (d.length + 1) := by
    rw [List.length_append, List.length_singleton]
    omega
  rw [BijouString.cat, if_neg (by rintro (h | h); exacts [hb h, ha h]), hc, hd]
  simp only [Buffer.malloc, Buffer.fill, hcells]
  rw [if_neg (by simp), hreach, CStr.at_terminated hnul]
  split <;> simp

lemma chars_of_cat {r : HeapString} (hb : base.ptr.addr ≠ 0) (ha : append.ptr.addr ≠ 0)
    (h : base.cat mem append = some r) :
    r.string.chars = base.ptr.text.chars ++ append.ptr.text.chars := by
  have hnul : 0 ∉ base.ptr.text.chars ++ append.ptr.text.chars :=
    List.not_mem_append base.ptr.text.property append.ptr.text.property
  rw [cat_eq mem hb ha] at h
  obtain rfl := Option.some.inj h
  exact (HeapString.chars_eq mem.addr.property).trans (cstr_terminated hnul _)

lemma chars_of_substr {mem : Chunk} {first length : BitVec 32} {r : HeapString}
    (h : str.substr mem first length = some r) :
    r.string.chars = cstr (strncpy (str.ptr.text.chars.drop first.toNat) length.toNat ++
      mem.cells.drop length.toNat) := by
  have hlen : (strncpy (str.ptr.text.chars.drop first.toNat) length.toNat).length = length.toNat := by
    rw [strncpy, List.length_append, List.length_take, List.length_replicate]
    omega
  rw [BijouString.substr] at h
  split_ifs at h
  obtain rfl := Option.some.inj h
  refine (HeapString.chars_eq mem.addr.property).trans ?_
  change cstr (splice 0 _ mem.cells) = _
  rw [splice_zero, hlen]

lemma fresh_of_substr {mem : Chunk} {first length : BitVec 32} {r : HeapString}
    (h : str.substr mem first length = some r) : r.addr ≠ 0 ∧ r.len = strlen r.string.ptr.text := by
  rw [BijouString.substr] at h
  split_ifs at h
  obtain rfl := Option.some.inj h
  exact ⟨mem.addr.property, rfl⟩

lemma exists_substr {first length : BitVec 32} (hs : str.ptr.addr ≠ 0) (hf : 0 ≤ first.toInt)
    (hl : 0 ≤ length.toInt) (hle : first.toNat ≤ str.ptr.text.chars.length) :
    ∃ r, str.substr mem first length = some r := by
  rw [BijouString.substr, if_neg (by simp only [hs, false_or]; omega)]
  exact ⟨_, rfl⟩

end Operations

section Laws

variable (a b : HeapString) (s t : List Byte)

def CatLaw : Prop := ∀ mem, ∃ r, a.string.cat mem b.string = some r ∧ r.string.chars = s ++ t ∧
  r.len.toNat = s.length + t.length ∧ r.buffer.Inside

def SubstrLaw : Prop := ∀ (mem : Chunk) (first length : BitVec 32), 0 ≤ first.toInt →
  0 ≤ length.toInt → first.toInt + length.toInt ≤ s.length →
    ∃ r, a.string.substr mem first length = some r ∧
      r.string.chars = (s.drop first.toNat).take length.toNat ∧ r.len.toNat = length.toNat

def SubstrCatLaw : Prop := ∀ mem mem' r, a.string.cat mem b.string = some r →
  ∃ r', r.string.substr mem' (BitVec.ofNat 32 s.length) (BitVec.ofNat 32 t.length) = some r' ∧
    r'.string.chars = t

def CharAtLaw : Prop := ∀ (mem : Chunk) (argv : ℕ → TValue) (i : ℕ) (c : Byte), s[i]? = some c →
  argv 0 = createString a.string → (argv 1).tt = .number → (argv 1).value.n = .ofInt i →
    ∃ v, funcCharAt mem argv = .ok v ∧ v.tt = .string ∧ v.value.s.chars = [c]

end Laws

section Fails

variable {a b : HeapString} {s t : List Byte}

lemma cat_chars {mem : Chunk} {r : HeapString} (ha : a.Holds s) (hb : b.Holds t)
    (h : a.string.cat mem b.string = some r) : r.string.chars = s ++ t ∧
      r.len = BitVec.ofNat 64 (s.length + t.length) := by
  have hchars := chars_of_cat mem ha.addr hb.addr h
  rw [ha.text, hb.text] at hchars
  refine ⟨hchars, ?_⟩
  rw [cat_eq mem ha.addr hb.addr, ha.text, hb.text] at h
  obtain rfl := Option.some.inj h
  have hnul : 0 ∉ s ++ t := List.not_mem_append ha.noNul hb.noNul
  have hself : cstr (s ++ t) = s ++ t := by simpa [cstr] using cstr_append_of_not_mem hnul []
  change BitVec.ofNat 64 (cstr (s ++ t)).length = _
  rw [hself, List.length_append]

lemma cat_reach {mem : Chunk} {r : HeapString} (ha : a.Holds s) (hb : b.Holds t)
    (h : a.string.cat mem b.string = some r) : r.buffer.reach = s.length + t.length + 1 ∧
      r.buffer.size ≤ s.length + t.length := by
  rw [cat_eq mem ha.addr hb.addr, ha.text, hb.text] at h
  obtain rfl := Option.some.inj h
  refine ⟨rfl, ?_⟩
  change (a.len + b.len).toNat ≤ _
  rw [BitVec.toNat_add, ha.len, hb.len]
  exact Nat.mod_le _ _

lemma substr_chars {first length : BitVec 32} {mem : Chunk} {r : HeapString} (ha : a.Holds s)
    (hle : first.toNat + length.toNat ≤ s.length) (h : a.string.substr mem first length = some r) :
    r.string.chars = (s.drop first.toNat).take length.toNat ++ cstr (mem.cells.drop length.toNat) := by
  have hnul : 0 ∉ s.drop first.toNat := fun h => ha.noNul (List.mem_of_mem_drop h)
  rw [chars_of_substr h, ha.text, cstr_strncpy hnul, if_pos (by rw [List.length_drop]; omega)]

lemma substr_exact_iff {first length : BitVec 32} {mem : Chunk} {r : HeapString} (ha : a.Holds s)
    (hle : first.toNat + length.toNat ≤ s.length) (h : a.string.substr mem first length = some r) :
    r.string.chars = (s.drop first.toNat).take length.toNat ↔ mem.cells.getD length.toNat 0 = 0 := by
  have hdrop : mem.cells.getD length.toNat 0 = (mem.cells.drop length.toNat).getD 0 0 := by
    simp [List.getD_eq_getElem?_getD, List.getElem?_drop]
  rw [substr_chars ha hle h, List.append_right_eq_self, hdrop]
  cases mem.cells.drop length.toNat with
  | nil => simp [cstr]
  | cons c l => simp [cstr]

lemma not_catLaw (ha : a.Holds s) (hb : b.Holds t) : ¬ CatLaw a b s t := by
  intro h
  obtain ⟨r, hr, -, -, hinside⟩ := h (chunk [])
  obtain ⟨hreach, hsize⟩ := cat_reach ha hb hr
  rw [Buffer.Inside, hreach] at hinside
  omega

lemma not_substrLaw (ha : a.Holds s) : ¬ SubstrLaw a s := by
  intro h
  obtain ⟨r, hr, hchars, -⟩ := h (chunk [1]) 0 0 le_rfl le_rfl (by simp)
  rw [substr_chars ha (Nat.zero_le _) hr] at hchars
  cases hchars

lemma not_substrCatLaw (ha : a.Holds s) (hb : b.Holds t) : ¬ SubstrCatLaw a b s t := by
  intro h
  obtain ⟨n, hn⟩ : ∃ n, (BitVec.ofNat 32 t.length).toNat = n := ⟨_, rfl⟩
  obtain ⟨r', hr', hchars⟩ := h (chunk []) (chunk (List.replicate n 0 ++ [1])) _
    (cat_eq _ ha.addr hb.addr)
  have hdrop : (chunk (List.replicate n 0 ++ [1])).cells.drop n = [1] := by simp [chunk]
  rw [chars_of_substr hr', hn, hdrop, cstr_strncpy] at hchars
  · rw [BitVec.toNat_ofNat] at hn
    have hlen := congrArg List.length hchars
    split_ifs at hlen with hle
    · rw [List.length_append, List.length_take] at hlen
      have hone : (cstr [1]).length = 1 := by decide
      omega
    · omega
  · exact fun h0 => (HeapString.string _).ptr.text.property (List.mem_of_mem_drop h0)

lemma toSize_ofInt {i : ℕ} (h : i < 2 ^ 64) : (LongDouble.ofInt i).toSize = BitVec.ofNat 64 i := by
  have htrunc : (LongDouble.ofInt i).number.trunc = some (i : ℤ) := by
    rw [number_ofInt (by omega)]
    exact congrArg some (Int.mul_tdiv_cancel _ (by positivity))
  rw [LongDouble.toSize, htrunc]
  dsimp only
  rw [if_pos (by omega)]
  rfl

lemma funcCharAt_eq {mem : Chunk} {argv : ℕ → TValue} {i : ℕ} (ha : a.Holds s) (hi : i < s.length)
    (hstring : argv 0 = createString a.string) (htt : (argv 1).tt = .number)
    (hn : (argv 1).value.n = .ofInt i) : funcCharAt mem argv =
      (orFault (a.string.substr mem (BitVec.ofNat 32 i) 1) >>= fun r => .ok (createString r.string)) := by
  have hlt := a.len.isLt
  have hlen := ha.len
  have hindex : (BitVec.ofNat 64 i).toNat = i := by
    rw [BitVec.toNat_ofNat, Nat.mod_eq_of_lt (by omega)]
  have hnarrow : (BitVec.ofNat 64 i).setWidth 32 = BitVec.ofNat 32 i := by
    apply BitVec.eq_of_toNat_eq
    rw [BitVec.toNat_setWidth, hindex, BitVec.toNat_ofNat]
  have hin : ¬ (argv 0).value.s.len.toNat ≤ i := by
    rw [hstring]
    change ¬ a.len.toNat ≤ i
    omega
  have hv : (argv 0).value.s = a.string := by rw [hstring]; rfl
  rw [funcCharAt, shouldBe, shouldBe, if_pos (by rw [hstring]; rfl), if_pos htt, hn,
    toSize_ofInt (by omega)]
  dsimp only [bind, Except.bind]
  rw [hindex, if_neg hin, hv, hnarrow]
  rfl

lemma not_charAtLaw (ha : a.Holds s) (hs : s ≠ []) : ¬ CharAtLaw a s := by
  intro h
  obtain ⟨c, l, rfl⟩ := List.exists_cons_of_ne_nil hs
  let argv : ℕ → TValue := fun i =>
    if i = 0 then createString a.string else createNumber ⟨0, 0, .empty⟩ (.ofInt (0 : ℕ))
  obtain ⟨v, hv, -, hchars⟩ := h (chunk [0, 1]) argv 0 c rfl rfl rfl (Value.setNum_n _ _)
  rw [funcCharAt_eq ha (by simp) rfl rfl (Value.setNum_n _ _)] at hv
  obtain ⟨r, hr⟩ : ∃ r, a.string.substr (chunk [0, 1]) (BitVec.ofNat 32 0) 1 = some r :=
    exists_substr _ ha.addr (by decide) (by decide) (Nat.zero_le _)
  rw [hr] at hv
  obtain rfl := Except.ok.inj hv
  have hr' := substr_chars ha (by simp) hr
  change r.string.chars = [c] at hchars
  rw [hchars] at hr'
  cases hr'

theorem stringLaws_fail (ha : a.Holds s) (hb : b.Holds t) (hs : s ≠ []) :
    ¬ CatLaw a b s t ∧ ¬ SubstrLaw a s ∧ ¬ SubstrCatLaw a b s t ∧ ¬ CharAtLaw a s :=
  ⟨not_catLaw ha hb, not_substrLaw ha, not_substrCatLaw ha hb, not_charAtLaw ha hs⟩

end Fails

def heapString (s : List Byte) : HeapString :=
  ⟨1, ⟨s.length + 1, s ++ [0], s.length + 1⟩, BitVec.ofNat 64 s.length⟩

lemma heapString_holds {s : List Byte} (hs : 0 ∉ s) (hlen : s.length < 2 ^ 64) : (heapString s).Holds s where
  addr := one_addr
  cells := ⟨[], rfl⟩
  noNul := hs
  inside := Nat.lt_succ_self s.length
  len := Nat.mod_eq_of_lt hlen

theorem stringLaws_fail_words :
    ¬ CatLaw (heapString (bytes "one")) (heapString (bytes "two")) (bytes "one") (bytes "two") ∧
    ¬ SubstrLaw (heapString (bytes "one")) (bytes "one") ∧
    ¬ SubstrCatLaw (heapString (bytes "one")) (heapString (bytes "two")) (bytes "one") (bytes "two") ∧
    ¬ CharAtLaw (heapString (bytes "one")) (bytes "one") :=
  stringLaws_fail (heapString_holds (by decide) (by decide)) (heapString_holds (by decide) (by decide)) (by decide)

theorem cat_outside :
    ((heapString (bytes "A")).string.cat (chunk []) (heapString (bytes "B")).string).map
        (fun r => (r.buffer.size, r.buffer.reach)) = some (2, 3) ∧
      ((heapString (bytes "A")).string.substr (chunk [0, 66, 0]) 0 1).map (fun r => r.string.chars) =
        some (bytes "AB") ∧
      ¬ (∀ a b s t, a.Holds s → b.Holds t → s ≠ [] → t ≠ [] →
        CatLaw a b s t ∧ SubstrLaw a s ∧ SubstrCatLaw a b s t ∧ CharAtLaw a s) := by
  have hA : (heapString (bytes "A")).Holds (bytes "A") := heapString_holds (by decide) (by decide)
  have hB : (heapString (bytes "B")).Holds (bytes "B") := heapString_holds (by decide) (by decide)
  refine ⟨by decide +kernel, by decide +kernel, fun h => ?_⟩
  exact not_catLaw hA hB (h _ _ _ _ hA hB (by decide) (by decide)).1

end Bijou
