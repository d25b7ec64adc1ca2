import Bijou.Opcodes

namespace Bijou

open BitField

inductive Part where
  | op | a | b | c | bx
  deriving DecidableEq

namespace Part

def width : Part → ℕ
  | op => 6
  | a => 8
  | b | c => 9
  | bx => 18

def pos : Part → ℕ
  | op => 0
  | a => 6
  | b => 23
  | c | bx => 14

def get : Part → Inst → BitVec 32
  | op => getOpcode
  | a => getA
  | b => getB
  | c => getC
  | bx => getBx

def set : Part → Inst → BitVec 32 → Inst
  | op => setOpcode
  | a => setA
  | b => setB
  | c => setC
  | bx => setBx

def Disjoint (p q : Part) : Prop := p.pos + p.width ≤ q.pos ∨ q.pos + q.width ≤ p.pos

instance (p q : Part) : Decidable (p.Disjoint q) := inferInstanceAs (Decidable (_ ∨ _))

lemma get_eq (p : Part) : p.get = BitField.get p.width p.pos := by cases p <;> rfl

lemma set_eq (p : Part) : p.set = BitField.set p.width p.pos := by cases p <;> rfl

lemma fits (p : Part) : p.pos + p.width ≤ 32 := by cases p <;> decide

end Part

def createABC (o a b c : BitVec 32) : Inst := o <<< 0 ||| a <<< 6 ||| b <<< 23 ||| c <<< 14

def createABx (o a bc : BitVec 32) : Inst := o <<< 0 ||| a <<< 6 ||| bc <<< 14

structure Part.Lens (p : Part) : Prop where
  get_set : ∀ i u, (p.get (p.set i u)).toNat = u.toNat % 2 ^ p.width
  get_other : ∀ q, p.Disjoint q → ∀ i u, q.get (p.set i u) = q.get i
  set_set : ∀ i u v, p.set (p.set i u) v = p.set i v
  set_get : ∀ i, p.set i (p.get i) = i

lemma Part.lens (p : Part) : p.Lens where
  get_set i u := by
    rw [p.get_eq, p.set_eq, get_set_same p.fits, toNat_get, pow_zero, Nat.div_one]
  get_other q h i u := by
    rw [q.get_eq, p.set_eq, get_set_disjoint h]
  set_set i u v := by
    rw [p.set_eq, BitField.set_set]
  set_get i := by
    rw [p.get_eq, p.set_eq, BitField.set_get]

section Signed

variable {s : ℤ}

lemma getSBx_setSBx (i : Inst) (hlow : -131071 ≤ s) (hhigh : s ≤ 131072) :
    (getSBx (setSBx i (BitVec.ofInt 32 s))).toInt = s := by
  obtain ⟨n, hn⟩ := Int.eq_ofNat_of_zero_le (show 0 ≤ s + 131071 by omega)
  have hstored : BitVec.ofInt 32 s + maxargSBx = BitVec.ofNat 32 n := by
    have hmax : maxargSBx = BitVec.ofInt 32 131071 := by decide
    rw [hmax, ← BitVec.ofInt_add, hn, BitVec.ofInt_natCast]
  have hread : getBx (setBx i (BitVec.ofNat 32 n)) = BitVec.ofNat 32 n := by
    apply BitVec.eq_of_toNat_eq
    have hget : (getBx (setBx i (BitVec.ofNat 32 n))).toNat = _ := Part.bx.lens.get_set i _
    rw [hget, BitVec.toNat_ofNat]
    change n % 2 ^ 32 % 2 ^ 18 = n % 2 ^ 32
    omega
  rw [getSBx, setSBx, hstored, hread, ← hstored, BitVec.add_sub_cancel, BitVec.toInt_ofInt]
  exact Int.bmod_eq_of_le (by omega) (by omega)

end Signed

section Create

variable {o a b c bx : BitVec 32}

lemma set_fresh {p : Part} {i u : BitVec 32} (hi : p.get i = 0) (hu : u.toNat < 2 ^ p.width) :
    p.set i u = i ||| u <<< p.pos := by
  rw [p.get_eq] at hi
  rw [p.set_eq, set_empty hi hu]

lemma get_zero (p : Part) : p.get 0 = 0 := by rw [p.get_eq, BitField.get_zero]

lemma head_eq (ho : o.toNat < 2 ^ 6) (ha : a.toNat < 2 ^ 8) :
    setA (setOpcode 0 o) a = o <<< 0 ||| a <<< 6 := by
  have hop : setOpcode 0 o = o <<< 0 :=
    (set_fresh (p := .op) (get_zero .op) ho).trans BitVec.zero_or
  have hfree : getA (setOpcode 0 o) = 0 :=
    (Part.op.lens.get_other .a (by decide) 0 o).trans (get_zero .a)
  rw [← hop]
  exact set_fresh (p := .a) hfree ha

lemma head_free (p : Part) (hop : Part.op.Disjoint p) (ha : Part.a.Disjoint p) :
    p.get (setA (setOpcode 0 o) a) = 0 :=
  (Part.a.lens.get_other p ha _ a).trans ((Part.op.lens.get_other p hop 0 o).trans (get_zero p))

lemma createABx_eq (ho : o.toNat < 2 ^ 6) (ha : a.toNat < 2 ^ 8) (hbx : bx.toNat < 2 ^ 18) :
    createABx o a bx = setBx (setA (setOpcode 0 o) a) bx := by
  have hfree := head_free (o := o) (a := a) .bx (by decide) (by decide)
  rw [createABx, ← head_eq ho ha]
  exact (set_fresh (p := .bx) hfree hbx).symm

lemma createABC_eq (ho : o.toNat < 2 ^ 6) (ha : a.toNat < 2 ^ 8) (hb : b.toNat < 2 ^ 9)
    (hc : c.toNat < 2 ^ 9) : createABC o a b c = setC (setB (setA (setOpcode 0 o) a) b) c := by
  have hfree (p : Part) := head_free (o := o) (a := a) p
  have hsetb : setB (setA (setOpcode 0 o) a) b = setA (setOpcode 0 o) a ||| b <<< 23 :=
    set_fresh (p := .b) (hfree .b (by decide) (by decide)) hb
  have hC : getC (setB (setA (setOpcode 0 o) a) b) = 0 :=
    (Part.b.lens.get_other .c (by decide) _ b).trans (hfree .c (by decide) (by decide))
  rw [createABC, ← head_eq ho ha, ← hsetb]
  exact (set_fresh (p := .c) hC hc).symm

end Create

structure FieldLaws : Prop where
  lens : ∀ p : Part, p.Lens
  pair : ∀ i, (getBx i).toNat = (getB i).toNat * 2 ^ 9 + (getC i).toNat
  signed : ∀ i s, -131071 ≤ s → s ≤ 131072 → (getSBx (setSBx i (BitVec.ofInt 32 s))).toInt = s
  createABC : ∀ o a b c : BitVec 32, o.toNat < 2 ^ 6 → a.toNat < 2 ^ 8 → b.toNat < 2 ^ 9 →
    c.toNat < 2 ^ 9 → createABC o a b c = setC (setB (setA (setOpcode 0 o) a) b) c
  createABx : ∀ o a bx : BitVec 32, o.toNat < 2 ^ 6 → a.toNat < 2 ^ 8 → bx.toNat < 2 ^ 18 →
    createABx o a bx = setBx (setA (setOpcode 0 o) a) bx

theorem fieldLaws : FieldLaws where
  lens := Part.lens
  pair := toNat_get_pair 9 9 14
  signed i _ hlow hhigh := getSBx_setSBx i hlow hhigh
  createABC _ _ _ _ := createABC_eq
  createABx _ _ _ := createABx_eq

end Bijou
