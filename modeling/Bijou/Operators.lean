import Bijou.Selection

namespace Bijou

variable {host : Host} {prog b : Block} {f : Frame} {s s' : Shared} {argv : List TValue}
  {callers : List Frame} {o : OpCode} {x y : TValue}

def OpCode.arithmetic : List OpCode := [add, sub, mul, div, pow, rem, unm]

def OpCode.comparisons : List OpCode := [lt, gt, le, ge]

section TypeError

variable {op : String} {g : Value}

lemma rem_type_error (hbad : x.tt ≠ .number ∨ y.tt ≠ .number) :
    TValue.numRem g x y = some (⟨.none, g⟩, [.operands "rem" x.tt y.tt]) := if_pos hbad

lemma arith_type_error {h : LongDouble → LongDouble → LongDouble}
    (hbad : x.tt ≠ .number ∨ y.tt ≠ .number) :
    TValue.arith op g h x y = some (⟨.none, g⟩, [.operands op x.tt y.tt]) := if_pos hbad

lemma compare_type_error {h : LongDouble → LongDouble → Bool}
    (hbad : x.tt ≠ .number ∨ y.tt ≠ .number) :
    TValue.compare op g h x y = some (⟨.none, g⟩, [.operands op x.tt y.tt]) := if_pos hbad

lemma calculate_none {m : List Message} {v : Value} :
    calculate (some (⟨.none, v⟩, m)) s = .ok (.go 0, s.report m) := rfl

lemma calculate_number {v : Value} :
    calculate (some (⟨.number, v⟩, [])) s = .ok (.store ⟨.number, v⟩, s) := by
  change Except.ok (Action.store ⟨.number, v⟩, s.report []) = _
  rw [Shared.report, List.append_nil]

lemma skip_some {m : List Message} {t : TValue} :
    skip (some (t, m)) s = .ok (.go (if t.value.b ≠ 0 then 1 else 0), s.report m) := rfl

def OpCode.complaint : OpCode → List TValue → List Message
  | add, [x, y] => [.operands "add" x.tt y.tt]
  | sub, [x, y] => [.operands "sub" x.tt y.tt]
  | mul, [x, y] => [.operands "mul" x.tt y.tt]
  | div, [x, y] => [.operands "div" x.tt y.tt]
  | pow, [x, y] => [.operands "pow" x.tt y.tt]
  | rem, [x, y] => [.operands "rem" x.tt y.tt]
  | unm, [x] => [.operand "unm" x.tt]
  | lt, [x, y] => [.operands "lt" x.tt y.tt]
  | gt, [x, y] => [.operands "gt" x.tt y.tt]
  | le, [x, y] => [.operands "le" x.tt y.tt]
  | ge, [x, y] => [.operands "ge" x.tt y.tt]
  | _, _ => []

lemma Frame.operands_length {vs : List TValue} (hvs : f.operands b o = some vs) :
    vs.length = o.rkFields.length := by
  rw [operands] at hvs
  generalize o.rkFields = fields at hvs
  induction fields generalizing vs with
  | nil =>
    obtain rfl : [] = vs := by simpa using hvs
    rfl
  | cons field fields ih =>
    rw [List.mapM_cons] at hvs
    obtain ⟨v, -, hrest⟩ := Option.bind_eq_some_iff.mp hvs
    obtain ⟨l, hl, hcons⟩ := Option.bind_eq_some_iff.mp hrest
    obtain rfl := Option.some.inj hcons
    rw [List.length_cons, List.length_cons, ih hl]

lemma operate_arithmetic {a : Arithmetic} {vs : List TValue} (ho : o ∈ OpCode.arithmetic)
    (hlen : vs.length = o.rkFields.length) (hbad : ∃ v ∈ vs, v.tt ≠ .number) :
    o.operate a g vs s = .ok (.go 0, s.report (o.complaint vs)) := by
  cases o with
  | add | sub | mul | div | pow =>
    obtain ⟨x, y, rfl⟩ := List.length_eq_two.mp hlen
    have hbad : x.tt ≠ .number ∨ y.tt ≠ .number := by simpa using hbad
    change calculate (TValue.arith _ _ _ x y) s = _
    rw [arith_type_error hbad]
    exact calculate_none
  | rem =>
    obtain ⟨x, y, rfl⟩ := List.length_eq_two.mp hlen
    have hbad : x.tt ≠ .number ∨ y.tt ≠ .number := by simpa using hbad
    exact congrArg (fun r => calculate r s) (rem_type_error hbad)
  | unm =>
    obtain ⟨x, rfl⟩ := List.length_eq_one_iff.mp hlen
    have hbad : x.tt ≠ .number := by simpa using hbad
    exact congrArg (fun r => calculate (some r) s) (if_pos hbad)
  | _ => simp [OpCode.arithmetic] at ho

lemma operate_comparison {a : Arithmetic} {vs : List TValue} (ho : o ∈ OpCode.comparisons)
    (hlen : vs.length = o.rkFields.length) (hbad : ∃ v ∈ vs, v.tt ≠ .number) :
    o.operate a g vs s =
      .ok (.go (if g.b ≠ 0 then 1 else 0), s.report (o.complaint vs)) := by
  cases o with
  | lt | gt | le | ge =>
    obtain ⟨x, y, rfl⟩ := List.length_eq_two.mp hlen
    have hbad : x.tt ≠ .number ∨ y.tt ≠ .number := by simpa using hbad
    change skip (TValue.compare _ _ _ x y) s = _
    rw [compare_type_error hbad]
    exact skip_some
  | _ => simp [OpCode.comparisons] at ho

end TypeError

lemma rkFields_of_mem (ho : o ∈ OpCode.arithmetic ++ OpCode.comparisons) : o.rkFields ≠ [] := by
  cases o with
  | add | sub | mul | div | pow | rem | unm | lt | gt | le | ge => exact List.cons_ne_nil _ _
  | _ => simp [OpCode.arithmetic, OpCode.comparisons] at ho

section Harmless

variable (host : Host) (prog b : Block) (f : Frame) (s : Shared) (argv : List TValue)
  (callers : List Frame)

def Harmless : Prop := ∃ m, ∀ garbage : ℕ → Value,
  exec { host with garbage } b f (window argv callers) s = .ok (.go 0, s.report m) ∧
    advance { host with garbage } prog argv (.run f callers) s =
      f.dispatch host b callers (s.report m)

end Harmless

theorem harmless_iff (h : f.At prog b o) (ho : o ∈ OpCode.arithmetic ++ OpCode.comparisons)
    {vs : List TValue} (hvs : f.operands b o = some vs) (hbad : ∃ v ∈ vs, v.tt ≠ .number) :
    Harmless host prog b f s argv callers ↔ o ∈ OpCode.arithmetic := by
  have hlen := Frame.operands_length hvs
  have hexec (garbage : ℕ → Value) :
      exec { host with garbage } b f (window argv callers) s =
        o.operate host.arithmetic (garbage s.clock) vs s := by
    rw [exec_operate h.op (rkFields_of_mem ho), hvs]
    rfl
  constructor
  · rintro ⟨m, hm⟩
    by_contra hno
    have hcomp := (List.mem_append.mp ho).resolve_left hno
    have hgo := (hm (fun _ => ⟨1, 0, .empty⟩)).1
    rw [hexec, operate_comparison hcomp hlen hbad] at hgo
    cases hgo
  · intro harith
    refine ⟨o.complaint vs, fun garbage => ?_⟩
    have hgo := (hexec garbage).trans (operate_arithmetic harith hlen hbad)
    exact ⟨hgo, h.advance_go hgo⟩

theorem harmless_iff_add :
    let i := OpCode.add.code
    Harmless plainHost (wordBlock [] i) (wordBlock [] i) (wordFrame [nullValue] i) (wordState []) [] [] ↔
      OpCode.add ∈ OpCode.arithmetic := by
  intro i
  have hvs : (wordFrame [nullValue] i).operands (wordBlock [] i) .add = some [nullValue, nullValue] := by
    decide
  exact harmless_iff (wordFrame_at (by decide)) (by decide) hvs ⟨nullValue, by decide, by decide⟩

theorem lt_follows_garbage :
    let i := OpCode.lt.code
    (wordFrame [nullValue] i).operands (wordBlock [] i) .lt = some [nullValue, nullValue] ∧
      ¬ Harmless plainHost (wordBlock [] i) (wordBlock [] i) (wordFrame [nullValue] i) (wordState [])
        [] [] := by
  intro i
  have hvs : (wordFrame [nullValue] i).operands (wordBlock [] i) .lt = some [nullValue, nullValue] := by
    decide
  refine ⟨hvs, ?_⟩
  rintro ⟨m, hm⟩
  have ho : opcode i = some .lt := by decide
  have hgo := (hm (fun _ => ⟨1, 0, .empty⟩)).1
  rw [exec_operate (f := wordFrame [nullValue] i) ho (by decide), hvs] at hgo
  have hskip : OpCode.lt.operate plainHost.arithmetic ⟨1, 0, .empty⟩ [nullValue, nullValue]
      (wordState []) = _ :=
    operate_comparison (by decide) rfl ⟨nullValue, by decide, by decide⟩
  cases hskip.symm.trans hgo

section Remainder

variable {z w : ℤ}

lemma toInt_of_trunc {v : LongDouble} (hz : v.number.trunc = some z) (hlow : -2 ^ 63 ≤ z)
    (hhigh : z < 2 ^ 63) : (v.toInt 64).toInt = z := by
  rw [LongDouble.toInt, hz]
  dsimp only
  rw [if_pos ⟨hlow, hhigh⟩, BitVec.toInt_ofInt]
  exact Int.bmod_eq_of_le (by norm_num; omega) (by norm_num; omega)

lemma remainder_eq_none {p q : BitVec 64} :
    TValue.remainder p q = none ↔ q.toInt = 0 ∨ p.toInt = -2 ^ 63 ∧ q.toInt = -1 := by
  have hzero : q = 0 ↔ q.toInt = 0 := by rw [← BitVec.toInt_inj]; rfl
  have hmin : p = BitVec.intMin 64 ↔ p.toInt = -2 ^ 63 := by rw [← BitVec.toInt_inj]; rfl
  have hone : q = -1 ↔ q.toInt = -1 := by rw [← BitVec.toInt_inj]; rfl
  rw [TValue.remainder, ← hzero, ← hmin, ← hone]
  split_ifs with h
  · exact iff_of_true rfl h
  · exact iff_of_false nofun h

lemma remainder_eq_some {p q r : BitVec 64} (h : TValue.remainder p q = some r) :
    r.toInt = p.toInt.tmod q.toInt := by
  rw [TValue.remainder] at h
  split_ifs at h
  rw [← Option.some.inj h, BitVec.toInt_srem]

lemma numRem_eq {g : Value} (hx : x.tt = .number) (hy : y.tt = .number) :
    TValue.numRem g x y = (TValue.remainder (x.value.n.toInt 64) (y.value.n.toInt 64)).map
      (fun r => (⟨.number, x.value.setNum (.ofInt r.toInt)⟩, [])) := by
  rw [TValue.numRem, TValue.binary, if_neg (by simp [hx, hy]), Option.map_map]
  rfl

end Remainder

section Remainder

variable (host : Host) (prog b : Block) (f : Frame) (s : Shared) (argv : List TValue)
  (callers : List Frame)

structure Remains (z w : ℤ) : Prop where
  completes : ∃ r, exec host b f (window argv callers) s = .ok r
  stores : w ≠ 0 → (getA f.i).toNat < f.stack.length ∧ ∃ v, v.tt = .number ∧
    v.value.n.number = .finite (z.tmod w * 2 ^ 16445) ∧
      advance host prog argv (.run f callers) s =
        Frame.dispatch host b { f with stack := f.stack.set (getA f.i).toNat v } callers s

end Remainder

variable {z w : ℤ}

theorem remains_iff (h : f.At prog b .rem) (hvs : f.operands b .rem = some [x, y])
    (hx : x.tt = .number) (hy : y.tt = .number)
    (hz : x.value.n.number.trunc = some z) (hzlow : -2 ^ 63 ≤ z) (hzhigh : z < 2 ^ 63)
    (hw : y.value.n.number.trunc = some w) (hwlow : -2 ^ 63 ≤ w) (hwhigh : w < 2 ^ 63) :
    Remains host prog b f s argv callers z w ↔
      w ≠ 0 ∧ ¬ (z = -2 ^ 63 ∧ w = -1) ∧ (getA f.i).toNat < f.stack.length := by
  have hexec : exec host b f (window argv callers) s =
      calculate (TValue.numRem (host.garbage s.clock) x y) s := by
    rw [exec_operate h.op (by decide), hvs]
    rfl
  rw [numRem_eq hx hy] at hexec
  have hzi := toInt_of_trunc hz hzlow hzhigh
  have hwi := toInt_of_trunc hw hwlow hwhigh
  have hnone : TValue.remainder (x.value.n.toInt 64) (y.value.n.toInt 64) = none ↔
      w = 0 ∨ z = -2 ^ 63 ∧ w = -1 := by rw [remainder_eq_none, hzi, hwi]
  rcases hr : TValue.remainder (x.value.n.toInt 64) (y.value.n.toInt 64) with _ | r
  · rw [hr] at hexec
    refine iff_of_false ?_ (fun hclear => ?_)
    · rintro ⟨⟨r, hr⟩, -⟩
      rw [hexec] at hr
      cases hr
    · rcases hnone.mp hr with h0 | htrap
      · exact hclear.1 h0
      · exact hclear.2.1 htrap
  rw [hr] at hnone
  have hstore : exec host b f (window argv callers) s =
      .ok (.store ⟨.number, x.value.setNum (.ofInt r.toInt)⟩, s) := by
    rw [hexec, hr]
    exact calculate_number
  have htrap : ¬ (w = 0 ∨ z = -2 ^ 63 ∧ w = -1) := fun h => Option.some_ne_none r (hnone.mpr h)
  have hvalue : r.toInt = z.tmod w := by rw [remainder_eq_some hr, hzi, hwi]
  have hnumber : (LongDouble.ofInt r.toInt).number = .finite (z.tmod w * 2 ^ 16445) := by
    have hlow := BitVec.le_toInt r
    have hhigh := BitVec.toInt_lt (x := r)
    rw [number_ofInt (by omega), hvalue]
  constructor
  · rintro ⟨-, hstores⟩
    have hw0 : w ≠ 0 := fun h0 => htrap (.inl h0)
    exact ⟨hw0, fun h => htrap (.inr h), (hstores hw0).1⟩
  · rintro ⟨-, -, ha⟩
    refine ⟨⟨_, hstore⟩, fun _ => ⟨ha, _, rfl, ?_, h.advance_store hstore ha⟩⟩
    exact (congrArg LongDouble.number (Value.setNum_n _ _)).trans hnumber

lemma intValue_trunc (hz : z.natAbs < 2 ^ 64) : (intValue z).value.n.number.trunc = some z := by
  have hvalue : (intValue z).value.n = .ofInt z := Value.setNum_n _ _
  have hp : (2 ^ 16445 : ℤ) ≠ 0 := by positivity
  rw [hvalue, number_ofInt hz, Number.trunc, Int.mul_tdiv_cancel _ hp]

theorem remains_iff_seven :
    let i := setC (setB OpCode.rem.code (makeK 0)) (makeK 1)
    let b := wordBlock [intValue 7, intValue (-2)] i
    Remains plainHost b b (wordFrame [nullValue] i) (wordState []) [] [] 7 (-2) ↔
      (-2 : ℤ) ≠ 0 ∧ ¬ ((7 : ℤ) = -2 ^ 63 ∧ (-2 : ℤ) = -1) ∧ (getA i).toNat < 1 := by
  intro i b
  exact remains_iff (x := intValue 7) (y := intValue (-2)) (wordFrame_at (by decide)) (by decide)
    rfl rfl (intValue_trunc (by decide)) (by decide) (by decide) (intValue_trunc (by decide))
    (by decide) (by decide)

theorem rem_traps_on_fraction :
    let i := setC (setB OpCode.rem.code (makeK 0)) (makeK 1)
    let half := createNumber ⟨0, 0, .empty⟩ ⟨BitVec.ofNat 64 (2 ^ 63), 16382⟩
    let b := wordBlock [intValue 7, half] i
    half.value.n.number = .finite (2 ^ 16444) ∧ half.value.n.number.trunc = some 0 ∧
      ¬ Remains plainHost b b (wordFrame [nullValue] i) (wordState []) [] [] 7 0 := by
  intro i half b
  have htrunc : half.value.n.number.trunc = some 0 := by decide +kernel
  refine ⟨by decide +kernel, htrunc, ?_⟩
  rintro ⟨⟨r, hr⟩, -⟩
  have hvs : (wordFrame [nullValue] i).operands b .rem = some [intValue 7, half] := by
    decide +kernel
  have ho : opcode i = some .rem := by decide
  rw [exec_operate (f := wordFrame [nullValue] i) ho (by decide), hvs] at hr
  have htrap : TValue.numRem (plainHost.garbage (wordState []).clock) (intValue 7) half = none := by
    rw [numRem_eq rfl rfl, Option.map_eq_none_iff, remainder_eq_none]
    exact .inl (toInt_of_trunc htrunc (by decide) (by decide))
  have hfault : calculate (TValue.numRem (plainHost.garbage (wordState []).clock) (intValue 7) half)
      (wordState []) = .ok r := hr
  rw [htrap] at hfault
  cases hfault

end Bijou
