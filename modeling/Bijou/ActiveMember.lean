import Bijou.Equality

namespace Bijou

variable {u v u' v' : TValue}

def TValue.Agree (u v : TValue) : Prop :=
  u.tt = v.tt ∧
    match u.tt with
    | .boolean => u.value.b = v.value.b
    | .number => u.value.n = v.value.n
    | .string => u.value.s = v.value.s
    | .function | .pointer => u.value.lo = v.value.lo
    | .null | .none => True

section Significand

variable {x y : LongDouble}

lemma finite_significand {z : ℤ} (h : x.number = .finite z) :
    ∃ k, z.natAbs = x.mant.toNat * 2 ^ k ∧ (k ≠ 0 → 2 ^ 63 ≤ x.mant.toNat) := by
  rw [LongDouble.number] at h
  by_cases hinf : x.exponent = 2 ^ 15 - 1
  · rw [if_pos hinf] at h
    split_ifs at h
  by_cases hbad : x.exponent ≠ 0 ∧ x.mant.msb = false
  · rw [if_neg hinf, if_pos hbad] at h
    cases h
  rw [if_neg hinf, if_neg hbad, Number.finite.injEq] at h
  refine ⟨max x.exponent 1 - 1, ?_, fun hk => ?_⟩
  · rw [← h, Int.natAbs_mul, Int.natAbs_natCast]
    split_ifs <;> simp
  · have he : x.exponent ≠ 0 := by omega
    have hmsb : x.mant.msb = true := by
      by_contra hm
      exact hbad ⟨he, by simpa using hm⟩
    rw [BitVec.msb_eq_decide, decide_eq_true_iff] at hmsb
    exact hmsb

lemma significand_unique {m n k l : ℕ} (h : m * 2 ^ k = n * 2 ^ l) (hm : m < 2 ^ 64)
    (hl : l ≠ 0 → 2 ^ 63 ≤ n) (hkl : k ≤ l) : m = n := by
  obtain ⟨d, rfl⟩ := Nat.exists_eq_add_of_le hkl
  have hmn : m = n * 2 ^ d := by
    have hp : 0 < 2 ^ k := by positivity
    rw [pow_add, mul_left_comm, mul_comm m] at h
    exact Nat.eq_of_mul_eq_mul_left hp h
  cases d with
  | zero => simpa using hmn
  | succ d =>
    have hn := hl (by omega)
    have hlow : n * 2 ≤ n * 2 ^ (d + 1) := by
      rw [pow_succ]
      exact Nat.mul_le_mul_left n (Nat.le_mul_of_pos_left 2 (by positivity))
    omega

lemma mant_of_eq (h : x.eq y = true) : x.mant = y.mant := by
  rw [LongDouble.eq_iff] at h
  obtain ⟨hnan, heq⟩ := h
  have hinf : ∀ (w : LongDouble) n, w.number = .inf n → w.mant = BitVec.ofNat 64 (2 ^ 63) := by
    intro w n hw
    rw [LongDouble.number] at hw
    split_ifs at hw with he hm
    exact hm
  cases hx : x.number with
  | nan => exact absurd hx hnan
  | inf n => rw [hinf x n hx, hinf y n (heq ▸ hx)]
  | finite z =>
    obtain ⟨k, hk, hknorm⟩ := finite_significand hx
    obtain ⟨l, hl, hlnorm⟩ := finite_significand (x := y) (z := z) (heq ▸ hx)
    have hkl : x.mant.toNat * 2 ^ k = y.mant.toNat * 2 ^ l := hk.symm.trans hl
    apply BitVec.eq_of_toNat_eq
    rcases Nat.le_total k l with h | h
    · exact significand_unique hkl x.mant.isLt hlnorm h
    · exact (significand_unique hkl.symm y.mant.isLt hknorm h).symm

end Significand

namespace TValue

lemma agree_refl : u.Agree u := by
  refine ⟨rfl, ?_⟩
  cases u.tt <;> trivial

lemma equal_of_b_ne (hu : u.tt = .boolean) (hv : v.tt = .boolean) (hb : u.value.b ≠ v.value.b) :
    u.equal v = some false := by
  rw [equal, if_pos (hu.trans hv.symm), hu]
  dsimp only
  rw [Option.some_inj, Bool.eq_false_iff]
  intro heq
  have hlo : u.value.lo = v.value.lo := mant_of_eq heq
  exact hb (congrArg (BitVec.setWidth 32) hlo)

lemma equal_agree (hb : ¬ (u.tt = .boolean ∧ v.tt = .boolean ∧ u.value.b = v.value.b))
    (hu : u.Agree u') (hv : v.Agree v') : u'.equal v' = u.equal v := by
  obtain ⟨htu, hu⟩ := hu
  obtain ⟨htv, hv⟩ := hv
  by_cases ht : u.tt = v.tt
  · cases htt : u.tt with
    | boolean =>
      have hvt : v.tt = .boolean := ht ▸ htt
      rw [htt] at hu
      rw [hvt] at hv
      have hne : u.value.b ≠ v.value.b := fun h => hb ⟨htt, hvt, h⟩
      have hne' : u'.value.b ≠ v'.value.b := by
        rw [← show u.value.b = u'.value.b from hu, ← show v.value.b = v'.value.b from hv]
        exact hne
      rw [equal_of_b_ne htt hvt hne, equal_of_b_ne (htu ▸ htt) (htv ▸ hvt) hne']
    | number =>
      rw [htt] at hu
      rw [← ht, htt] at hv
      rw [equal, equal, if_pos (htu ▸ htv ▸ ht), if_pos ht, ← htu, htt]
      dsimp only
      rw [show u.value.n = u'.value.n from hu, show v.value.n = v'.value.n from hv]
    | string =>
      rw [htt] at hu
      rw [← ht, htt] at hv
      rw [equal, equal, if_pos (htu ▸ htv ▸ ht), if_pos ht, ← htu, htt]
      dsimp only
      rw [show u.value.s = u'.value.s from hu, show v.value.s = v'.value.s from hv]
    | null | none | function | pointer =>
      rw [equal, equal, if_pos (htu ▸ htv ▸ ht), if_pos ht, ← htu, htt]
  · rw [equal_of_tt ht, equal_of_tt (by rwa [← htu, ← htv])]

end TValue

variable {host : Host} {prog b : Block} {f : Frame} {s : Shared} {argv : List TValue}

lemma exec_not (h : f.At prog b .not) (hops : f.operands b .not = some [v]) :
    exec host b f argv s = .ok (.store
      (createBoolean (host.garbage s.clock) (.ofInt (v.value.b == 0).toNat)), s) := by
  rw [exec_operate h.op (by decide), hops]
  rfl

lemma createBoolean_b (g : Value) (r : Bool) :
    (createBoolean g (.ofInt r.toNat)).value.b = BitVec.ofNat 32 r.toNat := by
  rw [createBoolean, Value.setBool_b]
  cases r <;> decide +kernel

structure Ready where
  host : Host
  prog : Block
  b : Block
  f : Frame
  s : Shared
  argv : List TValue

namespace Ready

def On (m : Ready) (o : OpCode) (vs : List TValue) : Prop :=
  m.f.At m.prog m.b o ∧ m.f.operands m.b o = some vs

def action (m : Ready) : Except Halt Action := (exec m.host m.b m.f m.argv m.s).map Prod.fst

def word (o : OpCode) (v : TValue) : Ready where
  host := plainHost
  prog := wordBlock [] o.code
  b := wordBlock [] o.code
  f := wordFrame [v] o.code
  s := wordState []
  argv := []

end Ready

def SameNegation (v v' : TValue) : Prop :=
  ∀ m m' : Ready, m.On .not [v] → m'.On .not [v'] → ∃ t t' : TValue,
    m.action = .ok (.store t) ∧ m'.action = .ok (.store t') ∧ t.tt = .boolean ∧ t'.tt = .boolean ∧
      t.value.b = t'.value.b

structure ActiveOnly (u v : TValue) : Prop where
  equal : ∀ u' v' : TValue, u.Agree u' → v.Agree v' → u'.equal v' = u.equal v
  eq : ∀ (u' v' : TValue) (m m' : Ready), u.Agree u' → v.Agree v' → m.On .eq [u, v] →
    m'.On .eq [u', v'] → m'.action = m.action
  not_left : ∀ u' : TValue, u.Agree u' → SameNegation u u'
  not_right : ∀ v' : TValue, v.Agree v' → SameNegation v v'
  booleans : u.tt = .boolean → v.tt = .boolean → u.value.b = v.value.b → u.equal v = some true

lemma Ready.action_eq {m : Ready} (h : m.On .eq [u, v]) : m.action =
    match u.equal v with
    | none => .error .fault
    | some r => .ok (.go (if r then 1 else 0)) := by
  rw [action, exec_eq h.1 h.2]
  cases u.equal v <;> rfl

lemma Ready.action_not {m : Ready} (h : m.On .not [v]) : m.action = .ok (.store
    (createBoolean (m.host.garbage m.s.clock) (.ofInt (v.value.b == 0).toNat))) := by
  rw [action, exec_not h.1 h.2]
  rfl

lemma Ready.word_on (v : TValue) : (word .not v).On .not [v] := by
  refine ⟨wordFrame_at (by decide), ?_⟩
  have hfield : Field.B.get OpCode.not.code = 0 := by decide
  have hzero : selectedRK (wordBlock [] OpCode.not.code) (wordFrame [v] OpCode.not.code) 0 = some v := rfl
  change Frame.operands (wordBlock [] OpCode.not.code) (wordFrame [v] OpCode.not.code) _ = _
  rw [Frame.operands_one rfl]
  change (selectedRK _ _ (Field.B.get OpCode.not.code)).bind _ = _
  rw [hfield, hzero]
  rfl

lemma sameNegation_iff : SameNegation v v' ↔ (v.value.b = 0 ↔ v'.value.b = 0) := by
  have hbit : ∀ r r' : Bool, BitVec.ofNat 32 r.toNat = BitVec.ofNat 32 r'.toNat → r = r' := by decide
  constructor
  · intro h
    obtain ⟨t, t', ht, ht', -, -, hb⟩ := h _ _ (Ready.word_on v) (Ready.word_on v')
    rw [Ready.action_not (Ready.word_on v)] at ht
    rw [Ready.action_not (Ready.word_on v')] at ht'
    cases ht
    cases ht'
    rw [createBoolean_b, createBoolean_b] at hb
    simpa using hbit _ _ hb
  · intro h m m' hm hm'
    refine ⟨_, _, Ready.action_not hm, Ready.action_not hm', rfl, rfl, ?_⟩
    rw [createBoolean_b, createBoolean_b]
    have hsame : (v.value.b == 0) = (v'.value.b == 0) := by
      rw [Bool.eq_iff_iff, beq_iff_eq, beq_iff_eq]
      exact h
    rw [hsame]

def TValue.Empty (v : TValue) : Prop := v.tt = .null ∨ v.tt = .none

lemma sameNegation_of_agree (h : v.Agree v') (hv : ¬ v.Empty) : SameNegation v v' := by
  rw [sameNegation_iff]
  obtain ⟨ht, h⟩ := h
  have hb : v.value.b = v'.value.b := by
    cases htt : v.tt with
    | boolean =>
      rw [htt] at h
      exact h
    | number =>
      rw [htt] at h
      exact congrArg (fun x : LongDouble => x.mant.setWidth 32) h
    | string =>
      rw [htt] at h
      exact congrArg (fun x : BijouString => x.ptr.addr.setWidth 32) h
    | function | pointer =>
      rw [htt] at h
      exact congrArg (BitVec.setWidth 32) h
    | null => exact absurd (.inl htt) hv
    | none => exact absurd (.inr htt) hv
  rw [hb]

lemma not_empty_of_sameNegation (h : ∀ v' : TValue, v.Agree v' → SameNegation v v') : ¬ v.Empty := by
  intro hv
  have hb : ∀ v' : TValue, v'.tt = v.tt → (v.value.b = 0 ↔ v'.value.b = 0) := by
    intro v' ht
    refine sameNegation_iff.mp (h v' ⟨ht.symm, ?_⟩)
    rcases hv with hv | hv <;> simp [hv]
  have hzero := (hb ⟨v.tt, ⟨0, 0, .empty⟩⟩ rfl).mpr rfl
  have hone : (1 : BitVec 64).setWidth 32 = 0 := (hb ⟨v.tt, ⟨1, 0, .empty⟩⟩ rfl).mp hzero
  exact absurd hone (by decide)

def nanBoolean (x : BitVec 32) : TValue := ⟨.boolean, ⟨0#32 ++ x, 1, .empty⟩⟩

lemma nanBoolean_b (x : BitVec 32) : (nanBoolean x).value.b = x :=
  BitVec.setWidth_append_eq_right (a := 0#32)

lemma nanBoolean_number (x : BitVec 32) : (nanBoolean x).value.n.number = .nan := by
  have hexp : (nanBoolean x).value.n.exponent = 1 := rfl
  have hmsb : (nanBoolean x).value.n.mant.msb = false := by
    change (0#32 ++ x).msb = false
    rw [BitVec.msb_append]
    rfl
  rw [LongDouble.number, hexp, if_neg (by decide), if_pos ⟨by decide, hmsb⟩]

theorem activeOnly_iff (u v : TValue) : ActiveOnly u v ↔
    ¬ u.Empty ∧ ¬ v.Empty ∧ ¬ (u.tt = .boolean ∧ v.tt = .boolean ∧ u.value.b = v.value.b) := by
  constructor
  · intro h
    refine ⟨not_empty_of_sameNegation h.not_left, not_empty_of_sameNegation h.not_right, ?_⟩
    rintro ⟨hu, hv, hb⟩
    have htrue := h.booleans hu hv hb
    have hagree : u.Agree (nanBoolean u.value.b) := by
      refine ⟨hu, ?_⟩
      rw [hu]
      exact (nanBoolean_b _).symm
    have hnan := h.equal _ v hagree TValue.agree_refl
    have htt : (nanBoolean u.value.b).tt = v.tt := hv.symm
    rw [htrue, TValue.equal, if_pos htt] at hnan
    exact (LongDouble.eq_iff.mp (Option.some.inj hnan)).1 (nanBoolean_number _)
  · rintro ⟨hu, hv, hb⟩
    exact {
      equal := fun _ _ => TValue.equal_agree hb
      eq := fun u' v' m m' hu' hv' hm hm' => by
        rw [Ready.action_eq hm, Ready.action_eq hm', TValue.equal_agree hb hu' hv']
      not_left := fun _ h => sameNegation_of_agree h hu
      not_right := fun _ h => sameNegation_of_agree h hv
      booleans := fun hu hv h => absurd ⟨hu, hv, h⟩ hb }

theorem booleans_differ :
    let one := createBoolean ⟨0, 0, .empty⟩ (.ofInt 1)
    let two := createBoolean ⟨BitVec.ofNat 64 (2 ^ 32), 0, .empty⟩ (.ofInt 1)
    one.value.b = 1 ∧ two.value.b = 1 ∧ one.equal two = some false ∧ ¬ ActiveOnly one two := by
  intro one two
  have hfalse : one.equal two = some false := by decide +kernel
  refine ⟨by decide +kernel, by decide +kernel, hfalse, fun h => ?_⟩
  have htrue := h.booleans rfl rfl (by decide +kernel)
  cases hfalse.symm.trans htrue

end Bijou
