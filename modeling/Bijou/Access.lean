import Bijou.Dispatch

/-! The guards of GETGLOBAL, SETGLOBAL, GETLOCAL and SETLOCAL. All four find the index of a variable
in the constants; they compare Bx itself with the number of variables, only SETLOCAL with the number
of constants. -/

namespace Bijou

inductive Variables where
  | globals
  | locals
  deriving DecidableEq

inductive Access where
  | get
  | set
  deriving DecidableEq

namespace Variables

def cells (f : Frame) (s : Shared) : Variables → List TValue
  | globals => s.vm.globals
  | locals => s.locals f.path

def written (f : Frame) (s : Shared) (l : List TValue) : Variables → Shared
  | globals => { s with vm := { s.vm with globals := l } }
  | locals => { s with locals := Function.update s.locals f.path l }

end Variables

def Access.op : Access → Variables → OpCode
  | get, .globals => .getglobal
  | get, .locals => .getlocal
  | set, .globals => .setglobal
  | set, .locals => .setlocal

def Access.name : Access → Variables → String
  | get, .globals => "getglobal"
  | get, .locals => "getlocal"
  | set, .globals => "setglobal"
  | set, .locals => "setlocal"

def Access.limit (b : Block) (count : ℕ) : Access → Variables → ℕ
  | set, .locals => b.k.length
  | _, _ => count

def Block.variable (b : Block) (bx : BitVec 32) (count : ℕ) : Option ℕ :=
  match b.k[bx.toNat]? with
  | some ⟨.number, value⟩ =>
    match value.n.number.trunc with
    | some z => if 0 ≤ z ∧ z < count then some z.toNat else none
    | none => none
  | _ => none

variable {host : Host} {prog b : Block} {f : Frame} {s s' : Shared} {argv : List TValue}
  {callers : List Frame} {o : OpCode} {vars : Variables}

section Index

variable {op : String} {limit count : ℕ}

def Value.index (v : Value) : ℕ := ((v.n.toInt 32).signExtend 64).toNat

lemma variableIndex_eq : variableIndex b f op limit count s =
    if limit ≤ (getBx f.i).toNat then
      .ok (none, s.report [.variableIndex f.x op (getBx f.i).toNat limit])
    else
      match b.k[(getBx f.i).toNat]? with
      | none => .error .fault
      | some t =>
        if t.tt ≠ .number then
          .ok (none, s.report [.variableType f.x op (getBx f.i).toNat t.tt])
        else if count ≤ t.value.index then
          .ok (none, s.report [.variableIndex f.x op t.value.index count])
        else .ok (some t.value.index, s) := by
  rw [variableIndex]
  by_cases hlimit : limit ≤ (getBx f.i).toNat
  · simp only [if_pos hlimit]
    rfl
  simp only [if_neg hlimit]
  cases hk : b.k[(getBx f.i).toNat]? with
  | none => exact bind_apply_error (by rw [constant, hk]; rfl) _
  | some t =>
    refine (bind_apply_ok (by rw [constant, hk]; rfl) _).trans ?_
    by_cases htt : t.tt ≠ .number
    · simp only [if_pos htt]
      rfl
    simp only [if_neg htt]
    rw [Value.index]
    split <;> rfl

lemma Value.index_cases (v : Value) :
    (∃ z : ℤ, v.n.number.trunc = some z ∧ 0 ≤ z ∧ z < 2 ^ 31 ∧ v.index = z.toNat) ∨
      2 ^ 59 < v.index ∧ ∀ z, v.n.number.trunc = some z → z < 0 ∨ 2 ^ 31 ≤ z := by
  have hwide : ((v.n.toInt 32).signExtend 64).toInt = (v.n.toInt 32).toInt :=
    BitVec.toInt_signExtend_of_le (by omega)
  have hindex : v.index = ((v.n.toInt 32).signExtend 64).toNat := rfl
  have hcond := BitVec.toInt_eq_toNat_cond ((v.n.toInt 32).signExtend 64)
  have hlt := ((v.n.toInt 32).signExtend 64).isLt
  rw [hwide, ← hindex] at hcond
  rw [← hindex] at hlt
  have hmin : v.n.toInt 32 = BitVec.intMin 32 → 2 ^ 59 < v.index := by
    intro h
    have hvalue : (v.n.toInt 32).toInt = -2 ^ 31 := by rw [h]; decide
    split at hcond <;> omega
  cases hz : v.n.number.trunc with
  | none =>
    have hconv : v.n.toInt 32 = BitVec.intMin 32 := by rw [LongDouble.toInt, hz]
    refine .inr ⟨hmin hconv, fun z hz' => ?_⟩
    cases hz'
  | some z =>
    have hconv : v.n.toInt 32 =
        if -2 ^ 31 ≤ z ∧ z < 2 ^ 31 then BitVec.ofInt 32 z else BitVec.intMin 32 := by
      rw [LongDouble.toInt, hz]
    split_ifs at hconv with hrange
    · have hvalue : (v.n.toInt 32).toInt = z := by
        rw [hconv, BitVec.toInt_ofInt]
        exact Int.bmod_eq_of_le (by norm_num; omega) (by norm_num; omega)
      by_cases hneg : z < 0
      · refine .inr ⟨?_, fun w hw => ?_⟩
        · split at hcond <;> omega
        · cases hw
          exact .inl hneg
      · refine .inl ⟨z, rfl, by omega, hrange.2, ?_⟩
        split at hcond <;> omega
    · refine .inr ⟨hmin hconv, fun w hw => ?_⟩
      cases hw
      omega

lemma Block.variable_eq_some {bx : BitVec 32} {n : ℕ} : b.variable bx count = some n ↔
    ∃ v, b.k[bx.toNat]? = some ⟨.number, v⟩ ∧ v.n.number.trunc = some (n : ℤ) ∧ n < count := by
  rw [Block.variable]
  constructor
  · intro h
    split at h
    · rename_i v hk
      split at h
      · rename_i z hz
        split_ifs at h with hrange
        cases h
        exact ⟨v, hk, by rw [hz, Int.toNat_of_nonneg hrange.1], by omega⟩
      · cases h
    · cases h
  · rintro ⟨v, hk, hz, hn⟩
    simp [hk, hz, hn]

def Frame.checked (b : Block) (f : Frame) (limit count : ℕ) : Option (Option ℕ) :=
  if limit ≤ (getBx f.i).toNat then some none
  else (b.k[(getBx f.i).toNat]?).map fun t =>
    if t.tt ≠ .number ∨ count ≤ t.value.index then none else some t.value.index

lemma variableIndex_checked (b : Block) (f : Frame) (s : Shared) (op : String) (limit count : ℕ) :
    match f.checked b limit count with
    | none => variableIndex b f op limit count s = .error .fault
    | some none => ∃ m, variableIndex b f op limit count s = .ok (none, s.report m)
    | some (some n) => variableIndex b f op limit count s = .ok (some n, s) := by
  rw [variableIndex_eq, Frame.checked]
  by_cases hlimit : limit ≤ (getBx f.i).toNat
  · simp only [if_pos hlimit]
    exact ⟨_, rfl⟩
  simp only [if_neg hlimit]
  cases hk : b.k[(getBx f.i).toNat]? with
  | none => rfl
  | some t =>
    by_cases htt : t.tt = .number
    · by_cases hcount : count ≤ t.value.index
      · simp only [Option.map_some, htt, hcount, ne_eq, not_true, or_true, if_true, if_false]
        exact ⟨_, rfl⟩
      · simp [htt, hcount]
    · simp only [Option.map_some, htt, ne_eq, not_false_iff, true_or, if_true]
      exact ⟨_, rfl⟩

lemma Frame.checked_eq_none :
    f.checked b limit count = none ↔ (getBx f.i).toNat < limit ∧ b.k.length ≤ (getBx f.i).toNat := by
  rw [checked]
  split_ifs with hlimit
  · exact iff_of_false nofun (by omega)
  · rw [Option.map_eq_none_iff, List.getElem?_eq_none_iff]
    omega

lemma Frame.checked_eq_some {n : ℕ} (hcount : count ≤ 2 ^ 59) :
    f.checked b limit count = some (some n) ↔
      (getBx f.i).toNat < limit ∧ b.variable (getBx f.i) count = some n ∧ n < 2 ^ 31 := by
  rw [checked, Block.variable_eq_some]
  by_cases hlimit : limit ≤ (getBx f.i).toNat
  · rw [if_pos hlimit]
    exact iff_of_false nofun (fun h => absurd h.1 (by omega))
  rw [if_neg hlimit, Option.map_eq_some_iff]
  constructor
  · rintro ⟨⟨tt, v⟩, hk, hn⟩
    split_ifs at hn with hbad
    push Not at hbad
    obtain ⟨htt, hlt⟩ := hbad
    cases hn
    obtain rfl : tt = .number := htt
    rcases v.index_cases with ⟨z, hz, hpos, hsmall, hindex⟩ | ⟨hlarge, -⟩
    · dsimp only at hlt ⊢
      refine ⟨by omega, ⟨v, hk, ?_, hlt⟩, by omega⟩
      rw [hz, hindex, Int.toNat_of_nonneg hpos]
    · dsimp only at hlt
      omega
  · rintro ⟨-, ⟨v, hk, hz, hn⟩, hsmall⟩
    refine ⟨⟨.number, v⟩, hk, ?_⟩
    rcases v.index_cases with ⟨z, hz', hpos, -, hindex⟩ | ⟨-, hout⟩
    · cases hz.symm.trans hz'
      rw [Int.toNat_natCast] at hindex
      simp [hindex, hn]
    · have := hout _ hz
      omega

end Index

section Exec

variable {a : Access} {n : ℕ} {v : TValue}

def Access.guard (a : Access) (vars : Variables) (b : Block) (f : Frame) (s : Shared) :
    Option (Option ℕ) :=
  f.checked b (a.limit b (vars.cells f s).length vars) (vars.cells f s).length

def Access.perform (vars : Variables) (f : Frame) (cells : List TValue) (n : ℕ) : Access → Exec Action
  | get => do return .store (← found cells[n]?)
  | set => do
    let v ← reg f (getA f.i)
    modify (fun s => vars.written f s (cells.set n v))
    return .go 0

lemma exec_access_eq (ho : opcode f.i = some (a.op vars)) : exec host b f argv s =
    (variableIndex b f (a.name vars) (a.limit b (vars.cells f s).length vars)
      (vars.cells f s).length >>= fun r => match r with
        | none => pure (.leave (createNone (host.garbage s.clock)))
        | some n => a.perform vars f (vars.cells f s) n) s := by
  cases a <;> cases vars <;>
  · rw [exec, bind_apply_ok (get_eq_ok.mpr rfl)]
    simp only [ho]
    rfl

variable (host b s argv) in
lemma exec_access (ho : opcode f.i = some (a.op vars)) : match a.guard vars b f s with
    | none => exec host b f argv s = .error .fault
    | some none => ∃ m,
      exec host b f argv s = .ok (.leave (createNone (host.garbage s.clock)), s.report m)
    | some (some n) => exec host b f argv s = a.perform vars f (vars.cells f s) n s := by
  have hindex := variableIndex_checked b f s (a.name vars) (a.limit b (vars.cells f s).length vars)
    (vars.cells f s).length
  rw [exec_access_eq ho, Access.guard]
  rcases hg : f.checked b (a.limit b (vars.cells f s).length vars) (vars.cells f s).length
    with _ | _ | n
  · rw [hg] at hindex
    exact bind_apply_error hindex _
  · rw [hg] at hindex
    obtain ⟨m, hm⟩ := hindex
    exact ⟨m, bind_apply_ok hm _⟩
  · rw [hg] at hindex
    exact bind_apply_ok hindex _

end Exec

section Exact

variable (host : Host) (prog b : Block) (f : Frame) (s : Shared) (argv : List TValue)
  (callers : List Frame)

def StopsWithNone : Prop := ∃ g m,
  advance host prog argv (.run f callers) s = .ok (.ret (createNone g) callers, s.report m)

def Access.Done (vars : Variables) (n : ℕ) : Access → Prop
  | get => ∃ v, (getA f.i).toNat < f.stack.length ∧ (vars.cells f s)[n]? = some v ∧
      advance host prog argv (.run f callers) s =
        Frame.dispatch host b { f with stack := f.stack.set (getA f.i).toNat v } callers s
  | set => ∃ v, f.stack[(getA f.i).toNat]? = some v ∧
      advance host prog argv (.run f callers) s =
        f.dispatch host b callers (vars.written f s ((vars.cells f s).set n v))

def ReadsBack (vars : Variables) : Prop :=
  ∀ s', exec host b f (window argv callers) s = .ok (.go 0, s') →
    ∀ f' : Frame, f'.path = f.path → opcode f'.i = some (Access.get.op vars) →
      getBx f'.i = getBx f.i → ∃ v, f.stack[(getA f.i).toNat]? = some v ∧
        ∀ argv', exec host b f' argv' s' = .ok (.store v, s')

structure Access.Exact (vars : Variables) (a : Access) : Prop where
  stops : StopsWithNone host prog f s argv callers ↔
    b.variable (getBx f.i) (vars.cells f s).length = none
  done : ∀ n, b.variable (getBx f.i) (vars.cells f s).length = some n →
    a.Done host prog b f s argv callers vars n
  readsBack : a = .set → ReadsBack host b f s argv callers vars

/-- Bx itself is below the number of variables when it is below the number of constants, and the
other way round where that is not checked; the index fits in an int. -/
structure Access.Clear (vars : Variables) (a : Access) : Prop where
  bound : b.k.length ≤ (getBx f.i).toNat →
    a = .set ∧ vars = .locals ∨ (vars.cells f s).length ≤ (getBx f.i).toNat
  index : ∀ n, b.variable (getBx f.i) (vars.cells f s).length = some n →
    (getBx f.i).toNat < (vars.cells f s).length ∧ n < 2 ^ 31 ∧
      (getA f.i).toNat < f.stack.length

end Exact

section Exact

variable {a : Access} {n : ℕ}

lemma Access.limit_eq (b : Block) (count : ℕ) (a : Access) (vars : Variables) :
    a = .set ∧ vars = .locals ∧ a.limit b count vars = b.k.length ∨
      ¬ (a = .set ∧ vars = .locals) ∧ a.limit b count vars = count := by
  cases a <;> cases vars <;> simp [limit]

lemma Block.variable_lt {bx : BitVec 32} {count : ℕ} (h : b.variable bx count = some n) :
    bx.toNat < b.k.length ∧ n < count := by
  obtain ⟨v, hk, -, hn⟩ := Block.variable_eq_some.mp h
  exact ⟨(List.getElem?_eq_some_iff.mp hk).1, hn⟩

lemma exec_get (ho : opcode f.i = some (Access.get.op vars)) {v : TValue}
    (hg : Access.get.guard vars b f s = some (some n)) (hv : (vars.cells f s)[n]? = some v) :
    exec host b f argv s = .ok (.store v, s) := by
  have hexec := exec_access host b s argv ho
  rw [hg] at hexec
  exact hexec.trans (bind_apply_ok (found_eq_ok.mpr ⟨hv, rfl⟩) _)

lemma exec_set (ho : opcode f.i = some (Access.set.op vars)) {v : TValue}
    (hg : Access.set.guard vars b f s = some (some n))
    (hv : f.stack[(getA f.i).toNat]? = some v) :
    exec host b f argv s = .ok (.go 0, vars.written f s ((vars.cells f s).set n v)) := by
  have hexec := exec_access host b s argv ho
  rw [hg] at hexec
  exact hexec.trans (bind_apply_ok (found_eq_ok.mpr ⟨hv, rfl⟩) _)

lemma Access.done_of_guard (h : f.At prog b (a.op vars))
    (hg : a.guard vars b f s = some (some n)) (hn : n < (vars.cells f s).length)
    (ha : (getA f.i).toNat < f.stack.length) : a.Done host prog b f s argv callers vars n := by
  cases a with
  | get =>
    have hv := List.getElem?_eq_getElem hn
    exact ⟨_, ha, hv, h.advance_store (exec_get h.op hg hv) ha⟩
  | set =>
    have hv := List.getElem?_eq_getElem ha
    exact ⟨_, hv, h.advance_go (exec_set h.op hg hv)⟩

lemma Access.stops_of_guard (h : f.At prog b (a.op vars)) (hg : a.guard vars b f s = some none) :
    StopsWithNone host prog f s argv callers := by
  have hexec := exec_access host b s (window argv callers) h.op
  rw [hg] at hexec
  obtain ⟨m, hm⟩ := hexec
  exact ⟨_, m, h.advance_leave hm⟩

lemma Access.Done.not_stops (h : a.Done host prog b f s argv callers vars n) :
    ¬ StopsWithNone host prog f s argv callers := by
  rintro ⟨g, m, hstop⟩
  cases a with
  | get =>
    obtain ⟨v, -, -, hadv⟩ := h
    exact Frame.dispatch_ne_ret (hadv.symm.trans hstop)
  | set =>
    obtain ⟨v, -, hadv⟩ := h
    exact Frame.dispatch_ne_ret (hadv.symm.trans hstop)

lemma Variables.cells_written {f' : Frame} (hpath : f'.path = f.path) (l : List TValue) :
    vars.cells f' (vars.written f s l) = l := by
  cases vars with
  | globals => rfl
  | locals =>
    rw [cells, hpath]
    exact Function.update_self _ _ _

lemma Access.guard_eq_some (hsize : (vars.cells f s).length ≤ 2 ^ 59) :
    a.guard vars b f s = some (some n) ↔
      (getBx f.i).toNat < a.limit b (vars.cells f s).length vars ∧
        b.variable (getBx f.i) (vars.cells f s).length = some n ∧ n < 2 ^ 31 :=
  Frame.checked_eq_some hsize

lemma Access.readsBack (ho : opcode f.i = some (Access.set.op vars))
    (hsize : (vars.cells f s).length ≤ 2 ^ 59)
    (hin : ∀ n, Access.set.guard vars b f s = some (some n) →
      (getBx f.i).toNat < (vars.cells f s).length) : ReadsBack host b f s argv callers vars := by
  intro s' hset f' hpath hop hbx
  have hexec := exec_access host b s (window argv callers) ho
  rcases hg : Access.set.guard vars b f s with _ | _ | n
  · rw [hg, hset] at hexec
    cases hexec
  · rw [hg, hset] at hexec
    obtain ⟨m, hm⟩ := hexec
    cases hm
  rw [hg, hset] at hexec
  obtain ⟨v, s₁, hreg, hstore⟩ := bind_eq_ok.mp hexec.symm
  obtain ⟨hv, rfl⟩ := found_eq_ok.mp hreg
  obtain ⟨hlimit, hvar, hsmall⟩ := (guard_eq_some hsize).mp hg
  cases hstore
  have hcells : vars.cells f' (vars.written f s₁ ((vars.cells f s₁).set n v)) =
      (vars.cells f s₁).set n v := Variables.cells_written hpath _
  have hlen : (vars.cells f' (vars.written f s₁ ((vars.cells f s₁).set n v))).length =
      (vars.cells f s₁).length := by rw [hcells, List.length_set]
  refine ⟨v, hv, fun argv' => ?_⟩
  have hget : Access.get.guard vars b f' (vars.written f s₁ ((vars.cells f s₁).set n v)) =
      some (some n) := by
    rw [guard_eq_some (by rwa [hlen]), hbx, hlen]
    refine ⟨?_, hvar, hsmall⟩
    cases vars <;> exact hin n hg
  refine exec_get hop hget ?_
  rw [hcells, List.getElem?_set_self (Block.variable_lt hvar).2]

lemma Access.lt_of_readsBack (ho : opcode f.i = some (Access.set.op vars))
    (hread : ReadsBack host b f s argv callers vars)
    (hg : Access.set.guard vars b f s = some (some n)) (ha : (getA f.i).toNat < f.stack.length) :
    (getBx f.i).toNat < (vars.cells f s).length := by
  obtain ⟨f', hpath, hi⟩ : ∃ f' : Frame, f'.path = f.path ∧
      f'.i = setOpcode f.i (Access.get.op vars).code :=
    ⟨{ f with i := setOpcode f.i (Access.get.op vars).code }, rfl, rfl⟩
  have hop : opcode f'.i = some (Access.get.op vars) := by
    rw [hi, opcode, getOpcode_setOpcode, OpCode.all_code]
  have hbx : getBx f'.i = getBx f.i := by
    rw [hi]
    exact BitField.get_set_disjoint (by omega) _ _
  obtain ⟨v, -, hload⟩ := hread _ (exec_set ho hg (List.getElem?_eq_getElem ha)) f' hpath hop hbx
  by_contra hle
  have hstop : Access.get.guard vars b f'
      (vars.written f s ((vars.cells f s).set n f.stack[(getA f.i).toNat])) = some none := by
    rw [guard, Variables.cells_written hpath, List.length_set, Frame.checked, hbx, if_pos]
    cases vars <;> exact Nat.le_of_not_lt hle
  have hexec := exec_access host b
    (vars.written f s ((vars.cells f s).set n f.stack[(getA f.i).toNat])) [] hop
  rw [hstop] at hexec
  obtain ⟨m, hm⟩ := hexec
  rw [hload []] at hm
  cases hm

section Clear

variable (h : f.At prog b (a.op vars)) (hsize : (vars.cells f s).length ≤ 2 ^ 59)

include h hsize

lemma Access.Exact.guard (hexact : a.Exact host prog b f s argv callers vars)
    (hn : b.variable (getBx f.i) (vars.cells f s).length = some n) :
    a.guard vars b f s = some (some n) := by
  have hk := (Block.variable_lt hn).1
  rcases hg : a.guard vars b f s with _ | _ | m
  · have := Frame.checked_eq_none.mp hg
    omega
  · exact absurd (Access.stops_of_guard h hg) (hexact.done n hn).not_stops
  · have hvar := ((Access.guard_eq_some hsize).mp hg).2.1
    rw [Option.some.inj (hvar.symm.trans hn)]

omit hsize in
lemma Access.Exact.bound (hexact : a.Exact host prog b f s argv callers vars)
    (hk : b.k.length ≤ (getBx f.i).toNat) :
    a = .set ∧ vars = .locals ∨ (vars.cells f s).length ≤ (getBx f.i).toNat := by
  by_contra hnot
  have hlt : (getBx f.i).toNat < a.limit b (vars.cells f s).length vars := by
    rcases Access.limit_eq b (vars.cells f s).length a vars with ⟨ha, hv, -⟩ | ⟨-, hcount⟩
    · exact absurd (.inl ⟨ha, hv⟩) hnot
    · rw [hcount]
      by_contra hle
      exact hnot (.inr (by omega))
  have hnone : b.variable (getBx f.i) (vars.cells f s).length = none := by
    by_contra hsome
    obtain ⟨n, hn⟩ := Option.ne_none_iff_exists'.mp hsome
    have := (Block.variable_lt hn).1
    omega
  obtain ⟨g, m, hstop⟩ := hexact.stops.mpr hnone
  have hexec := exec_access host b s (window argv callers) h.op
  have hfault : a.guard vars b f s = none := Frame.checked_eq_none.mpr ⟨hlt, hk⟩
  rw [hfault] at hexec
  rw [h.advance_error hexec] at hstop
  cases hstop

lemma Access.Exact.clear (hexact : a.Exact host prog b f s argv callers vars) :
    a.Clear b f s vars := by
  refine ⟨hexact.bound h, fun n hn => ?_⟩
  have hg := hexact.guard h hsize hn
  have ha : (getA f.i).toNat < f.stack.length := by
    have hdone := hexact.done n hn
    cases a with
    | get => exact hdone.choose_spec.1
    | set => exact (List.getElem?_eq_some_iff.mp hdone.choose_spec.1).1
  obtain ⟨hbound, -, hsmall⟩ := (Access.guard_eq_some hsize).mp hg
  refine ⟨?_, hsmall, ha⟩
  rcases Access.limit_eq b (vars.cells f s).length a vars with ⟨rfl, rfl, -⟩ | ⟨-, hcount⟩
  · exact Access.lt_of_readsBack h.op (hexact.readsBack rfl) hg ha
  · rwa [hcount] at hbound

omit h in
lemma Access.Clear.guard (hclear : a.Clear b f s vars)
    (hn : b.variable (getBx f.i) (vars.cells f s).length = some n) :
    a.guard vars b f s = some (some n) := by
  have hk := (Block.variable_lt hn).1
  have hb := hclear.index n hn
  refine (Access.guard_eq_some hsize).mpr ⟨?_, hn, hb.2.1⟩
  rcases Access.limit_eq b (vars.cells f s).length a vars with ⟨-, -, hlimit⟩ | ⟨-, hlimit⟩ <;> omega

lemma Access.Clear.stops (hclear : a.Clear b f s vars)
    (hnone : b.variable (getBx f.i) (vars.cells f s).length = none) :
    StopsWithNone host prog f s argv callers := by
  have hlimit := Access.limit_eq b (vars.cells f s).length a vars
  rcases hg : a.guard vars b f s with _ | _ | n
  · have hbeyond := Frame.checked_eq_none.mp hg
    rcases hclear.bound hbeyond.2 with hset | hle
    · rcases hlimit with ⟨-, -, hk⟩ | ⟨hother, -⟩
      · omega
      · exact absurd hset hother
    · rcases hlimit with ⟨-, -, hk⟩ | ⟨-, hcount⟩ <;> omega
  · exact Access.stops_of_guard h hg
  · have hvar := ((Access.guard_eq_some hsize).mp hg).2.1
    cases hnone.symm.trans hvar

lemma Access.Clear.exact (hclear : a.Clear b f s vars) :
    a.Exact host prog b f s argv callers vars := by
  have hdone : ∀ n, b.variable (getBx f.i) (vars.cells f s).length = some n →
      a.Done host prog b f s argv callers vars n := fun n hn =>
    Access.done_of_guard h (hclear.guard hsize hn) (Block.variable_lt hn).2 (hclear.index n hn).2.2
  refine ⟨⟨fun hstop => ?_, hclear.stops h hsize⟩, hdone, ?_⟩
  · by_contra hsome
    obtain ⟨n, hn⟩ := Option.ne_none_iff_exists'.mp hsome
    exact (hdone n hn).not_stops hstop
  · rintro rfl
    refine Access.readsBack h.op hsize (fun n hg => ?_)
    exact (hclear.index n ((Access.guard_eq_some hsize).mp hg).2.1).1

end Clear

theorem access_exact_iff (h : f.At prog b (a.op vars))
    (hsize : (vars.cells f s).length ≤ 2 ^ 59) :
    a.Exact host prog b f s argv callers vars ↔ a.Clear b f s vars :=
  ⟨fun hexact => hexact.clear h hsize, fun hclear => hclear.exact h hsize⟩

end Exact

theorem access_exact_iff_getglobal :
    let k := [intValue 0]
    let i := OpCode.getglobal.code
    Access.get.Exact plainHost (wordBlock k i) (wordBlock k i) (wordFrame [nullValue] i)
        (wordState [nullValue]) [] [] .globals ↔
      Access.get.Clear (wordBlock k i) (wordFrame [nullValue] i) (wordState [nullValue]) .globals := by
  intro k i
  exact access_exact_iff (wordFrame_at (by decide)) (by decide)

theorem getglobal_stops_early :
    let k := [nullValue, intValue 0]
    let i := setBx OpCode.getglobal.code 1
    (wordBlock k i).variable (getBx i) 1 = some 0 ∧
      ¬ Access.get.Exact plainHost (wordBlock k i) (wordBlock k i) (wordFrame [nullValue] i)
        (wordState [nullValue]) [] [] .globals := by
  intro k i
  have hvar : (wordBlock k i).variable (getBx i) 1 = some 0 := by decide +kernel
  refine ⟨hvar, fun h => ?_⟩
  have hat : (wordFrame [nullValue] i).At (wordBlock k i) (wordBlock k i)
    (Access.get.op .globals) := wordFrame_at (by decide)
  have hnone := h.stops.mp (Access.stops_of_guard hat (by decide))
  cases hvar.symm.trans hnone

end Bijou
