import Bijou.Blocks
import Bijou.Library.Buffer

/-! The growing arrays of kvec.h, in which a block of block.c keeps its constants, its locals and its
code. -/

namespace Bijou

/-- `n` values, and the number `m` that realloc was last asked to make room for. -/
structure Kvec (α : Type) where
  n : BitVec 64
  m : BitVec 64
  a : Buffer α

namespace Kvec

section Macros

variable {α : Type} [Inhabited α]

def init : Kvec α := ⟨0, 0, ⟨0, [], 0⟩⟩

/-- What `kv_push` begins with: realloc finds room for twice as many values, of `size` bytes, where
`heap` lies. -/
def grow (size : BitVec 64) (heap : List α) (v : Kvec α) : Kvec α :=
  if v.n = v.m then
    let m := if v.m ≠ 0 then v.m <<< 1 else 2
    ⟨v.n, m, v.a.realloc heap ((size * m).toNat / size.toNat)⟩
  else v

def push (size : BitVec 64) (heap : List α) (v : Kvec α) (x : α) : Kvec α :=
  let v := v.grow size heap
  ⟨v.n + 1, v.m, v.a.fill [x] v.n.toNat⟩

def get (v : Kvec α) (i : ℕ) : α := v.a.cells.getD i default

def values (v : Kvec α) : List α := (List.range v.n.toNat).map v.get

def moves (v : Kvec α) : ℕ := if v.n = v.m then v.n.toNat else 0

end Macros

section Law

variable {α : Type} [Inhabited α] {v w : Kvec α} {l : List α} {x : α} {size : BitVec 64}
  {heap : List α}

structure Holds (v : Kvec α) (l : List α) : Prop where
  count : v.n.toNat = l.length
  values : v.values = l
  room : v.a.size = v.m.toNat
  enough : l.length ≤ v.m.toNat
  power : v.m.toNat = 0 ∨ ∃ e, v.m.toNat = 2 ^ (e + 1)
  thrifty : v.m.toNat ≤ 2 * l.length
  inside : v.a.Inside

lemma init_holds : (init : Kvec α).Holds [] :=
  ⟨rfl, rfl, rfl, Nat.zero_le _, .inl rfl, Nat.zero_le _, Nat.le_refl _⟩

lemma values_eq_iff (h : v.n.toNat = l.length) :
    v.values = l ↔ ∀ i < l.length, v.get i = l.getD i default := by
  constructor
  · rintro rfl i hi
    rw [values, List.length_map, List.length_range] at hi
    rw [values, List.getD_eq_getElem?_getD, List.getElem?_map, List.getElem?_range hi]
    rfl
  · intro hget
    refine List.ext_getElem ?_ (fun i hi hi' => ?_)
    · rw [values, List.length_map, List.length_range, h]
    · rw [← List.getD_eq_getElem _ default hi', ← hget i hi']
      simp [values]

lemma doubled_toNat {m : BitVec 64} (h : 2 * m.toNat < 2 ^ 64) :
    (if m ≠ 0 then m <<< 1 else 2).toNat = if m.toNat = 0 then 2 else 2 * m.toNat := by
  by_cases h0 : m = 0
  · subst h0
    rfl
  · have hne : m.toNat ≠ 0 := fun hz => h0 (BitVec.eq_of_toNat_eq hz)
    rw [if_pos h0, if_neg hne, BitVec.toNat_shiftLeft, Nat.shiftLeft_eq]
    omega

lemma asked_for (hsize : size ≠ 0) {m : BitVec 64} (h : size.toNat * m.toNat < 2 ^ 64) :
    (size * m).toNat / size.toNat = m.toNat := by
  have hpos : 0 < size.toNat := Nat.pos_of_ne_zero (fun hz => hsize (BitVec.eq_of_toNat_eq hz))
  rw [BitVec.toNat_mul, Nat.mod_eq_of_lt h, Nat.mul_div_cancel_left _ hpos]

structure Ready (v : Kvec α) (l : List α) : Prop where
  count : v.n.toNat = l.length
  values : v.values = l
  room : v.a.size = v.m.toNat
  enough : l.length < v.m.toNat
  power : ∃ e, v.m.toNat = 2 ^ (e + 1)
  thrifty : v.m.toNat ≤ 2 * (l.length + 1)
  inside : v.a.Inside

lemma Holds.grow (h : v.Holds l) (hsize : size ≠ 0)
    (hlen : size.toNat * (2 * (l.length + 1)) < 2 ^ 64) : (v.grow size heap).Ready l := by
  have hpos : 0 < size.toNat := Nat.pos_of_ne_zero (fun hz => hsize (BitVec.eq_of_toNat_eq hz))
  have hshort : 2 * (l.length + 1) < 2 ^ 64 :=
    (Nat.le_mul_of_pos_left _ hpos).trans_lt hlen
  obtain ⟨hcount, hvalues, hroom, henough, hpower, hthrifty, hinside⟩ := h
  by_cases hfull : v.n = v.m
  · have hm : v.m.toNat = l.length := by rw [← hfull, hcount]
    obtain ⟨m, hm'⟩ : ∃ m, m = if v.m ≠ 0 then v.m <<< 1 else 2 := ⟨_, rfl⟩
    have hdouble : m.toNat = if v.m.toNat = 0 then 2 else 2 * v.m.toNat :=
      hm' ▸ doubled_toNat (by omega)
    have hle : m.toNat ≤ 2 * (l.length + 1) := by
      rw [hdouble]
      split_ifs <;> omega
    have hasked : (size * m).toNat / size.toNat = m.toNat :=
      asked_for hsize ((Nat.mul_le_mul_left _ hle).trans_lt hlen)
    have hmore : l.length < m.toNat := by
      rw [hdouble]
      split_ifs <;> omega
    rw [Kvec.grow, if_pos hfull, ← hm']
    dsimp only
    rw [hasked]
    refine ⟨hcount, ?_, rfl, hmore, ?_, hle, Buffer.realloc_inside⟩
    · refine (@values_eq_iff α _ ⟨v.n, m, v.a.realloc heap m.toNat⟩ l hcount).mpr (fun i hi => ?_)
      rw [← (values_eq_iff hcount).mp hvalues i hi]
      exact Buffer.realloc_getD (by omega) (by omega)
    · change ∃ e, m.toNat = 2 ^ (e + 1)
      rcases hpower with hzero | ⟨e, he⟩
      · exact ⟨0, hdouble.trans (if_pos hzero)⟩
      · have hne : v.m.toNat ≠ 0 := by
          rw [he]
          positivity
        exact ⟨e + 1, by rw [hdouble, if_neg hne, he, pow_succ' 2 (e + 1)]⟩
  · have hne : v.m.toNat ≠ l.length := fun heq => hfull (BitVec.eq_of_toNat_eq (hcount.trans heq.symm))
    rw [Kvec.grow, if_neg hfull]
    exact ⟨hcount, hvalues, hroom, by omega, hpower.resolve_left (by omega), by omega, hinside⟩

lemma Ready.put (h : v.Ready l) (x : α) :
    (⟨v.n + 1, v.m, v.a.fill [x] v.n.toNat⟩ : Kvec α).Holds (l ++ [x]) := by
  obtain ⟨hcount, hvalues, hroom, henough, hpower, hthrifty, hinside⟩ := h
  have hlen : (l ++ [x]).length = l.length + 1 := List.length_append
  have hnext : (v.n + 1).toNat = (l ++ [x]).length := by
    have hm := v.m.isLt
    rw [BitVec.toNat_add, hcount, hlen]
    exact Nat.mod_eq_of_lt (show l.length + 1 < 2 ^ 64 by omega)
  refine ⟨hnext, (values_eq_iff hnext).mpr (fun i hi => ?_), hroom, hlen ▸ henough, .inr hpower,
    hlen ▸ hthrifty, hinside.fill_one x (by omega)⟩
  refine (Buffer.fill_getD_one x i).trans ?_
  by_cases hi' : i = v.n.toNat
  · subst hi'
    rw [if_pos rfl, hcount, List.getD_append_right _ _ _ _ (Nat.le_refl _), Nat.sub_self]
    rfl
  · rw [if_neg hi', List.getD_append _ _ _ _ (by omega)]
    exact (values_eq_iff hcount).mp hvalues i (by omega)

lemma Holds.push (h : v.Holds l) (hsize : size ≠ 0)
    (hlen : size.toNat * (2 * (l.length + 1)) < 2 ^ 64) (x : α) :
    (v.push size heap x).Holds (l ++ [x]) :=
  (h.grow hsize hlen).put x

lemma Holds.moves (h : v.Holds l) (hsize : size ≠ 0)
    (hlen : size.toNat * (2 * (l.length + 1)) < 2 ^ 64) (x : α) :
    v.moves + v.m.toNat ≤ (v.push size heap x).m.toNat := by
  have hpos : 0 < size.toNat := Nat.pos_of_ne_zero (fun hz => hsize (BitVec.eq_of_toNat_eq hz))
  have hshort : 2 * (l.length + 1) < 2 ^ 64 :=
    (Nat.le_mul_of_pos_left _ hpos).trans_lt hlen
  rw [Kvec.moves, Kvec.push, Kvec.grow]
  by_cases hfull : v.n = v.m
  · have hm : v.m.toNat = l.length := by rw [← hfull, h.count]
    simp only [if_pos hfull]
    rw [doubled_toNat (by omega), h.count]
    split_ifs <;> omega
  · simp only [if_neg hfull]
    exact (Nat.zero_add _).le

end Law

section Run

variable {α : Type} [Inhabited α] (size : BitVec 64) (heap : ℕ → List α)

def pushes : ℕ → Kvec α → List α → Kvec α
  | _, v, [] => v
  | k, v, x :: l => pushes (k + 1) (v.push size (heap k) x) l

def moved : ℕ → Kvec α → List α → ℕ
  | _, _, [] => 0
  | k, v, x :: l => v.moves + moved (k + 1) (v.push size (heap k) x) l

variable {size}

lemma pushes_holds (hsize : size ≠ 0) (l : List α) : ∀ (k : ℕ) (v : Kvec α) (l₀ : List α),
    v.Holds l₀ → size.toNat * (2 * (l₀.length + l.length)) < 2 ^ 64 →
      (pushes size heap k v l).Holds (l₀ ++ l) ∧
        moved size heap k v l + v.m.toNat ≤ (pushes size heap k v l).m.toNat := by
  induction l with
  | nil =>
    intro k v l₀ h _
    rw [List.append_nil]
    exact ⟨h, (Nat.zero_add _).le⟩
  | cons x l ih =>
    intro k v l₀ h hlen
    have hone : size.toNat * (2 * (l₀.length + 1)) < 2 ^ 64 := by
      refine (Nat.mul_le_mul_left _ ?_).trans_lt hlen
      rw [List.length_cons]
      omega
    have hmoves := @Holds.moves α _ v l₀ size (heap k) h hsize hone x
    have hmore : (l₀ ++ [x]).length + l.length = l₀.length + (x :: l).length := by
      rw [List.length_append, List.length_singleton, List.length_cons]
      omega
    obtain ⟨hholds, hmoved⟩ := ih (k + 1) _ _ (@Holds.push α _ v l₀ size (heap k) h hsize hone x) (hmore ▸ hlen)
    rw [List.append_assoc] at hholds
    refine ⟨hholds, ?_⟩
    change v.moves + moved size heap (k + 1) (v.push size (heap k) x) l + v.m.toNat ≤
      (pushes size heap (k + 1) (v.push size (heap k) x) l).m.toNat
    omega

end Run

end Kvec

theorem kvec_pushes {α : Type} [Inhabited α] {size : BitVec 64} (heap : ℕ → List α) (l : List α)
    (hsize : size ≠ 0) (hlen : size.toNat * (2 * l.length) < 2 ^ 64) :
    (∀ i, (Kvec.pushes size heap 0 .init (l.take i)).Holds (l.take i)) ∧
      Kvec.moved size heap 0 .init l ≤ 2 * l.length := by
  have hpushes : ∀ m : List α, m.length ≤ l.length → _ := fun m hm =>
    Kvec.pushes_holds heap hsize m 0 .init [] Kvec.init_holds
      ((Nat.mul_le_mul_left _ (by rw [List.length_nil]; omega)).trans_lt hlen)
  refine ⟨fun i => (hpushes (l.take i) (List.length_take_le' i l)).1, ?_⟩
  obtain ⟨hholds, hmoved⟩ := hpushes l (Nat.le_refl _)
  have hthrifty := hholds.thrifty
  rw [List.nil_append] at hthrifty
  omega

theorem kvec_pushes_three :
    (∀ i, (Kvec.pushes 8 (fun _ => [7]) 0 .init ([1, 2, 3].take i)).Holds ([1, 2, 3].take i)) ∧
      Kvec.moved 8 (fun _ => [7]) 0 .init [1, 2, 3] ≤ 2 * 3 :=
  kvec_pushes (fun _ => [7]) [1, 2, 3] (by decide) (by decide)

instance : Inhabited TValue := ⟨⟨.null, ⟨0, 0, .empty⟩⟩⟩

inductive Push where
  | const (v : TValue)
  | local (v : TValue)
  | instruction (inst : Inst)

def Push.onto (b : Block) : Push → Option (ℤ × Block)
  | const v => b.pushConst v
  | «local» v => b.pushLocal v
  | instruction inst => some (b.code.length, b.pushInstruction inst)

structure Vectors where
  k : Kvec TValue
  locals : Kvec TValue
  code : Kvec Inst

namespace Vectors

def init : Vectors := ⟨.init, .init, .init⟩

structure Found where
  values : List TValue
  words : List Inst

structure Sizes where
  value : BitVec 64
  inst : BitVec 64

variable (sizes : Sizes)

def pushNew (found : Found) (l : Kvec TValue) (v : TValue) : Option (BitVec 32 × Kvec TValue) := do
  if ← l.values.anyM (fun u => u.equal v) then
    return (-1, l)
  else
    let l := l.push sizes.value found.values v
    return ((l.n - 1).setWidth 32, l)

def push (found : Found) (b : Vectors) : Push → Option (BitVec 32 × Vectors)
  | .const v => (pushNew sizes found b.k v).map (fun r => (r.1, { b with k := r.2 }))
  | .local v => (pushNew sizes found b.locals v).map (fun r => (r.1, { b with locals := r.2 }))
  | .instruction inst =>
    let code := b.code.push sizes.inst found.words inst
    some ((code.n - 1).setWidth 32, { b with code })

def pushAll (heap : ℕ → Found) : ℕ → List Push → Vectors → Option (List (BitVec 32) × Vectors)
  | _, [], b => some ([], b)
  | t, x :: l, b => do
    let (i, b) ← b.push sizes (heap t) x
    let (is, b) ← pushAll heap (t + 1) l b
    return (i :: is, b)

end Vectors

def Block.pushAll : List Push → Block → Option (List ℤ × Block)
  | [], b => some ([], b)
  | x :: l, b => do
    let (i, b) ← x.onto b
    let (is, b) ← b.pushAll l
    return (i :: is, b)

section Refinement

variable {sizes : Vectors.Sizes} {w : Vectors} {b : Block} {n : ℕ}

structure Vectors.Represents (w : Vectors) (b : Block) : Prop where
  k : w.k.Holds b.k
  locals : w.locals.Holds b.locals
  code : w.code.Holds b.code

structure Block.Shorter (b : Block) (n : ℕ) : Prop where
  k : b.k.length ≤ n
  locals : b.locals.length ≤ n
  code : b.code.length ≤ n

structure Vectors.Sizes.Fit (sizes : Vectors.Sizes) (n : ℕ) : Prop where
  value : sizes.value ≠ 0
  inst : sizes.inst ≠ 0
  values : sizes.value.toNat * (2 * n) < 2 ^ 64
  words : sizes.inst.toNat * (2 * n) < 2 ^ 64

lemma Kvec.Holds.index {α : Type} [Inhabited α] {v : Kvec α} {l : List α} {x : α}
    (h : v.Holds (l ++ [x])) : (v.n - 1).setWidth 32 = BitVec.ofInt 32 l.length := by
  have hn : v.n = BitVec.ofNat 64 (l.length + 1) := by
    refine BitVec.eq_of_toNat_eq ?_
    rw [h.count, BitVec.toNat_ofNat, List.length_append, List.length_singleton, Nat.mod_eq_of_lt]
    have hm := v.m.isLt
    have henough := h.enough
    rw [List.length_append, List.length_singleton] at henough
    omega
  have hlast : v.n - 1 = BitVec.ofNat 64 l.length := by
    rw [hn, BitVec.ofNat_add]
    exact BitVec.add_sub_cancel _ _
  rw [hlast, BitVec.ofInt_natCast]
  exact BitVec.setWidth_ofNat_of_le (by norm_num) _

/-- The arrays and the block return the same int, if they return at all, and agree after it. -/
def Vectors.Refines {α β : Type} (R : α → β → Prop) (x : Option (BitVec 32 × α))
    (y : Option (ℤ × β)) : Prop :=
  Option.Rel (fun x y => x.1 = BitVec.ofInt 32 y.1 ∧ R x.2 y.2) x y

def pushNewValue (l : List TValue) (v : TValue) : Option (ℤ × List TValue) := do
  if ← l.anyM (fun u => u.equal v) then
    return (-1, l)
  else
    return ((l.length : ℤ), l ++ [v])

lemma Block.pushConst_eq (v : TValue) :
    b.pushConst v = (pushNewValue b.k v).map (fun r => (r.1, { b with k := r.2 })) := by
  rw [pushConst, pushNewValue]
  generalize b.k.anyM (fun u => u.equal v) = r
  rcases r with _ | _ | _
  · rfl
  · rfl
  · cases b
    rfl

lemma Block.pushLocal_eq (v : TValue) :
    b.pushLocal v = (pushNewValue b.locals v).map (fun r => (r.1, { b with locals := r.2 })) := by
  rw [pushLocal, pushNewValue]
  generalize b.locals.anyM (fun u => u.equal v) = r
  rcases r with _ | _ | _
  · rfl
  · rfl
  · cases b
    rfl

variable {l : List TValue} {a : Kvec TValue} {found : Vectors.Found}

lemma Vectors.Refines.map {α β γ δ : Type} {R : α → β → Prop} {S : γ → δ → Prop}
    {x : Option (BitVec 32 × α)} {y : Option (ℤ × β)} {F : α → γ} {G : β → δ} (h : Refines R x y)
    (hRS : ∀ u v, R u v → S (F u) (G v)) :
    Refines S (x.map (fun r => (r.1, F r.2))) (y.map (fun r => (r.1, G r.2))) := by
  cases h with
  | some h => exact .some ⟨h.1, hRS _ _ h.2⟩
  | none => exact .none

lemma pushNew_refines (h : a.Holds l) (hl : l.length ≤ n) (hfit : sizes.Fit (n + 1)) (v : TValue) :
    Vectors.Refines (fun a l => a.Holds l ∧ l.length ≤ n + 1) (Vectors.pushNew sizes found a v)
      (pushNewValue l v) := by
  have hroom : sizes.value.toNat * (2 * (l.length + 1)) < 2 ^ 64 :=
    (Nat.mul_le_mul_left _ (by omega)).trans_lt hfit.values
  have hpush := @Kvec.Holds.push TValue _ a l sizes.value found.values h hfit.value hroom v
  rw [Vectors.pushNew, pushNewValue, h.values]
  generalize l.anyM (fun u => u.equal v) = r
  rcases r with _ | _ | _
  · exact .none
  · refine .some ⟨hpush.index, hpush, ?_⟩
    rw [List.length_append, List.length_singleton]
    omega
  · exact .some ⟨rfl, h, hl.trans n.le_succ⟩

lemma push_refines (h : w.Represents b) (hb : b.Shorter n) (hfit : sizes.Fit (n + 1)) (x : Push) :
    Vectors.Refines (fun w b => w.Represents b ∧ b.Shorter (n + 1)) (w.push sizes found x) (x.onto b) := by
  obtain ⟨hk, hlocals, hcode⟩ := h
  obtain ⟨lk, llocals, lcode⟩ := hb
  cases x with
  | const v =>
    rw [Push.onto, Block.pushConst_eq, Vectors.push]
    refine (pushNew_refines hk lk hfit v).map (F := fun k => { w with k }) (G := fun k => { b with k })
      (fun k l h => ?_)
    exact ⟨⟨h.1, hlocals, hcode⟩, h.2, llocals.trans n.le_succ, lcode.trans n.le_succ⟩
  | «local» v =>
    rw [Push.onto, Block.pushLocal_eq, Vectors.push]
    refine (pushNew_refines hlocals llocals hfit v).map (F := fun locals => { w with locals })
      (G := fun locals => { b with locals }) (fun k l h => ?_)
    exact ⟨⟨hk, h.1, hcode⟩, lk.trans n.le_succ, h.2, lcode.trans n.le_succ⟩
  | instruction inst =>
    have hroom : sizes.inst.toNat * (2 * (b.code.length + 1)) < 2 ^ 64 :=
      (Nat.mul_le_mul_left _ (by omega)).trans_lt hfit.words
    have hpush := @Kvec.Holds.push Inst _ w.code b.code sizes.inst found.words hcode hfit.inst hroom inst
    refine .some ⟨hpush.index, ⟨hk, hlocals, hpush⟩, lk.trans n.le_succ, llocals.trans n.le_succ, ?_⟩
    change (b.code ++ [inst]).length ≤ n + 1
    rw [List.length_append, List.length_singleton]
    omega

lemma pushAll_refines (heap : ℕ → Vectors.Found) (l : List Push) : ∀ {t n : ℕ} {w : Vectors} {b : Block},
    w.Represents b → b.Shorter n → sizes.Fit (n + l.length) →
      Option.Rel (fun x y => x.1 = y.1.map (BitVec.ofInt 32) ∧ x.2.Represents y.2)
        (Vectors.pushAll sizes heap t l w) (b.pushAll l) := by
  induction l with
  | nil => exact fun h _ _ => .some ⟨rfl, h⟩
  | cons x l ih =>
    intro t n w b h hb hfit
    have hone : sizes.Fit (n + 1) := by
      obtain ⟨hvalue, hinst, hvalues, hwords⟩ := hfit
      rw [List.length_cons] at hvalues hwords
      exact ⟨hvalue, hinst, (Nat.mul_le_mul_left _ (by omega)).trans_lt hvalues,
        (Nat.mul_le_mul_left _ (by omega)).trans_lt hwords⟩
    rw [List.length_cons, Nat.add_comm l.length 1, ← Nat.add_assoc] at hfit
    have hpush := @push_refines sizes w b n (heap t) h hb hone x
    rw [Vectors.pushAll, Block.pushAll]
    generalize w.push sizes (heap t) x = p at hpush
    generalize x.onto b = q at hpush
    cases hpush with
    | none => exact .none
    | @some r r' hr =>
      obtain ⟨hi, hw, hb'⟩ := hr
      have hrest := @ih (t + 1) (n + 1) r.2 r'.2 hw hb' hfit
      change Option.Rel _ ((Vectors.pushAll sizes heap (t + 1) l r.2).bind _) ((r'.2.pushAll l).bind _)
      generalize Vectors.pushAll sizes heap (t + 1) l r.2 = p at hrest
      generalize r'.2.pushAll l = q at hrest
      cases hrest with
      | none => exact .none
      | some hr =>
        refine .some ⟨?_, hr.2⟩
        rw [List.map_cons, ← hi, ← hr.1]

end Refinement

/-- Whatever is pushed, and wherever realloc finds room: the arrays of a block come to hold what the
lists of the block hold, the same ints are returned, and the comparison of values fails for both or
for neither. -/
theorem vectors_refine {sizes : Vectors.Sizes} (heap : ℕ → Vectors.Found) (mem : Fresh) (l : List Push)
    (hfit : sizes.Fit l.length) :
    Option.Rel (fun x y => x.1 = y.1.map (BitVec.ofInt 32) ∧ x.2.Represents y.2)
      (Vectors.pushAll sizes heap 0 l .init) ((Block.new mem).pushAll l) := by
  have hinit : Vectors.init.Represents (Block.new mem) :=
    ⟨Kvec.init_holds, Kvec.init_holds, Kvec.init_holds⟩
  have hshort : (Block.new mem).Shorter 0 := ⟨Nat.le_refl 0, Nat.le_refl 0, Nat.le_refl 0⟩
  exact pushAll_refines heap l hinit hshort (by rwa [Nat.zero_add])

theorem vectors_refine_constant :
    let l := [Push.instruction 0, .const default, .const default]
    Option.Rel (fun x y => x.1 = y.1.map (BitVec.ofInt 32) ∧ x.2.Represents y.2)
      (Vectors.pushAll ⟨24, 4⟩ (fun _ => ⟨[], [1]⟩) 0 l .init) ((Block.new default).pushAll l) := by
  intro l
  exact vectors_refine _ default l ⟨by decide, by decide, by decide, by decide⟩

end Bijou
