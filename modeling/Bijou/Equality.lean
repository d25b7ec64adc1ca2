import Bijou.Operators

namespace Bijou

variable {u v w : TValue}

namespace LongDouble

variable {x y z : LongDouble}

lemma eq_iff : x.eq y = true ↔ x.number ≠ .nan ∧ x.number = y.number := by
  rw [LongDouble.eq]
  cases x.number <;> simp

lemma eq_comm : x.eq y = y.eq x := by
  rw [Bool.eq_iff_iff, eq_iff, eq_iff]
  grind

lemma eq_trans (h : x.eq y = true) (h' : y.eq z = true) : x.eq z = true := by
  rw [eq_iff] at *
  exact ⟨h.1, h.2.trans h'.2⟩

lemma eq_self : x.eq x = true ↔ x.number ≠ .nan := by simp [eq_iff]

end LongDouble

namespace BijouString

variable {one two three : BijouString}

lemma equal_true : one.equal two = some true ↔
    one.len = two.len ∧ one.Live ∧ two.Live ∧ one.ptr.text = two.ptr.text := by
  rw [equal]
  by_cases hl : one.len = two.len
  · by_cases hn : one.ptr.addr = 0 ∨ two.ptr.addr = 0
    · simp only [if_pos hl, if_pos hn, reduceCtorEq, false_iff]
      rintro ⟨-, h, h', -⟩
      exact hn.elim h h'
    · rw [if_pos hl, if_neg hn]
      simp only [Option.some.injEq, decide_eq_true_eq, hl, true_and]
      rw [not_or] at hn
      exact ⟨fun ht => ⟨hn.1, hn.2, ht⟩, fun h => h.2.2⟩
  · simp [hl]

lemma equal_comm : one.equal two = two.equal one := by
  by_cases hl : one.len = two.len
  · simp only [equal, if_pos hl, if_pos hl.symm, or_comm, Eq.comm (a := one.ptr.text)]
  · simp [equal, hl, Ne.symm hl]

lemma equal_trans (h : one.equal two = some true) (h' : two.equal three = some true) :
    one.equal three = some true := by
  rw [equal_true] at *
  exact ⟨h.1.trans h'.1, h.2.1, h'.2.2.1, h.2.2.2.trans h'.2.2.2⟩

lemma equal_self : one.equal one = some true ↔ one.Live := by simp [equal_true]

end BijouString

namespace TValue

lemma equal_of_tt (h : u.tt ≠ v.tt) : u.equal v = some false := if_neg h

lemma tt_of_equal (h : u.equal v = some true) : u.tt = v.tt := by
  by_contra hne
  simp [equal_of_tt hne] at h

lemma equal_comm : u.equal v = v.equal u := by
  by_cases ht : u.tt = v.tt
  · rw [equal, equal, if_pos ht, if_pos ht.symm, ← ht]
    cases u.tt with
    | number | boolean => exact congrArg some LongDouble.eq_comm
    | string => exact BijouString.equal_comm
    | _ => rfl
  · rw [equal_of_tt ht, equal_of_tt (Ne.symm ht)]

lemma equal_trans (h : u.equal v = some true) (h' : v.equal w = some true) :
    u.equal w = some true := by
  have ht := tt_of_equal h
  have ht' := tt_of_equal h'
  rw [equal, if_pos ht] at h
  rw [equal, if_pos ht', ← ht] at h'
  rw [equal, if_pos (ht.trans ht')]
  cases hu : u.tt with
  | null => rfl
  | number | boolean =>
    rw [hu] at h h'
    exact congrArg some (LongDouble.eq_trans (Option.some.inj h) (Option.some.inj h'))
  | string =>
    rw [hu] at h h'
    exact BijouString.equal_trans h h'
  | _ =>
    rw [hu] at h
    cases h

/-- Functions and pointers are compared by the addresses of parameters, a boolean by the long double
that its bytes are, and a string through its pointer. -/
def Comparable (v : TValue) : Prop :=
  match v.tt with
  | .null => True
  | .number | .boolean => v.value.n.number ≠ .nan
  | .string => v.value.s.Live
  | .function | .pointer | .none => False

lemma equal_self : v.equal v = some true ↔ v.Comparable := by
  rw [equal, if_pos rfl, Comparable]
  cases v.tt with
  | null => simp
  | number | boolean => exact (Option.some_inj.trans LongDouble.eq_self)
  | string => exact BijouString.equal_self
  | _ => simp

end TValue

section Pools

variable {b b' : Block} {i : ℤ}

def Finds (l : List TValue) (v : TValue) (i : Option ℤ) : Prop :=
  ∃ (j : ℕ) (u : TValue), i = some (j : ℤ) ∧ l[j]? = some u ∧ u.equal v = some true

lemma finds_of_insert {l l' : List TValue} {r : Option ℕ} (hv : v.Comparable)
    (h : Pool.insert TValue.equal l v = some (r, l')) : Finds l' v (Block.findIn l' v) := by
  have hsymm : ∀ u v : TValue, u.equal v = v.equal u := fun _ _ => TValue.equal_comm
  obtain ⟨j, u, hj, hu, heq⟩ := Pool.locate_insert hsymm (TValue.equal_self.mpr hv) h
  refine ⟨j, u, ?_, hu, heq⟩
  rw [Pool.locate] at hj
  rw [Block.findIn, hj]
  rfl

lemma Block.pushConst_insert (h : b.pushConst v = some (i, b')) :
    ∃ r, Pool.insert TValue.equal b.k v = some (r, b'.k) := by
  obtain ⟨found, hany, h⟩ := Option.bind_eq_some_iff.mp h
  rw [Pool.insert, hany]
  cases found <;> cases h <;> exact ⟨_, rfl⟩

lemma Block.pushLocal_insert (h : b.pushLocal v = some (i, b')) :
    ∃ r, Pool.insert TValue.equal b.locals v = some (r, b'.locals) := by
  obtain ⟨found, hany, h⟩ := Option.bind_eq_some_iff.mp h
  rw [Pool.insert, hany]
  cases found <;> cases h <;> exact ⟨_, rfl⟩

end Pools

variable {host : Host} {prog b : Block} {f : Frame} {s : Shared} {argv : List TValue} {r : Bool}

lemma exec_eq (h : f.At prog b .eq) (hops : f.operands b .eq = some [u, v]) :
    exec host b f argv s =
      (do return .go (if ← found (u.equal v) then 1 else 0) : Exec Action) s := by
  rw [exec_operate h.op (by decide), hops]
  rfl

lemma exec_eq_some (h : f.At prog b .eq) (hops : f.operands b .eq = some [u, v])
    (hr : u.equal v = some r) : exec host b f argv s = .ok (.go (if r then 1 else 0), s) := by
  rw [exec_eq h hops, hr]
  rfl

structure EqualityLaw (v : TValue) : Prop where
  refl : v.equal v = some true
  symm : ∀ u : TValue, v.equal u = u.equal v
  trans : ∀ u w : TValue, u.equal v = some true → v.equal w = some true → u.equal w = some true
  findsConst : ∀ (b b' : Block) (i : ℤ), b.pushConst v = some (i, b') → Finds b'.k v (b'.findConst v)
  findsLocal : ∀ (b b' : Block) (i : ℤ), b.pushLocal v = some (i, b') →
    Finds b'.locals v (b'.findLocal v)
  skips : ∀ (host : Host) (prog b : Block) (f : Frame) (s : Shared) (argv : List TValue),
    f.At prog b .eq → f.operands b .eq = some [v, v] → exec host b f argv s = .ok (.go 1, s)

theorem equalityLaw_iff (v : TValue) : EqualityLaw v ↔ v.Comparable := by
  refine ⟨fun h => TValue.equal_self.mp h.refl, fun h => ?_⟩
  have hself := TValue.equal_self.mpr h
  exact {
    refl := hself
    symm := fun _ => TValue.equal_comm
    trans := fun _ _ => TValue.equal_trans
    findsConst := fun _ _ _ hpush => finds_of_insert h (Block.pushConst_insert hpush).choose_spec
    findsLocal := fun _ _ _ hpush => finds_of_insert h (Block.pushLocal_insert hpush).choose_spec
    skips := fun _ _ _ _ _ _ hat hops => exec_eq_some hat hops hself }

def TValue.Proper (v : TValue) : Prop :=
  v.tt ≠ .none ∧ (v.tt = .number → v.value.n.number ≠ .nan)

theorem function_not_found :
    let func := createFunction ⟨0, 0, .empty⟩ 1
    (∃ b, (Block.new default).pushConst func = some (0, b) ∧ b.findConst func = some (-1)) ∧
      ¬ ∀ v : TValue, v.Proper → EqualityLaw v := by
  intro func
  refine ⟨⟨_, rfl, rfl⟩, fun h => ?_⟩
  have hlaw := h func ⟨by decide, by decide⟩
  cases hlaw.refl

end Bijou
