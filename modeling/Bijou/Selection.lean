import Bijou.Dispatch

namespace Bijou

variable {host : Host} {prog b : Block} {f : Frame} {s s' : Shared} {argv : List TValue}
  {callers : List Frame} {o : OpCode} {x : BitVec 32}

def constantBit (x : BitVec 32) : Bool := x.getLsbD 8

def plainIndex (x : BitVec 32) : ℕ := if constantBit x then x.toNat - 2 ^ 8 else x.toNat

def selectedRK (b : Block) (f : Frame) (x : BitVec 32) : Option TValue :=
  if constantBit x then b.k[plainIndex x]? else f.stack[plainIndex x]?

def selectedConstant (b : Block) (s : Shared) (x : BitVec 32) : Option TValue :=
  if constantBit x then s.vm.constants[plainIndex x]? else b.k[plainIndex x]?

def selectedFunction (host : Host) (b : Block) (f : Frame) (s : Shared) (x : BitVec 32) :
    Option (TValue × Shared) :=
  if constantBit x then
    s.vm.functions[plainIndex x]?.map fun func =>
      (createFunction (host.garbage s.clock) func, s)
  else
    b.children[plainIndex x]?.map fun child =>
      let func : BijouFunction :=
        ⟨none, BitVec.ofNat 32 child.argc.toNat, child.funcname, 0, some (f.path ++ [plainIndex x])⟩
      (createFunction (host.garbage s.clock) (host.malloc s.clock),
        { s with
          heap := (host.malloc s.clock, func) :: s.heap
          locals := Function.update s.locals (f.path ++ [plainIndex x]) [] })

def functionCount (b : Block) (s : Shared) (x : BitVec 32) : ℕ :=
  if constantBit x then s.vm.functions.length else b.numchildren.toNat

def functionMessage (b : Block) (s : Shared) (x : BitVec 32) : Message :=
  if constantBit x then .internalFunction x.toNat s.vm.functions.length
  else .function x.toNat b.numchildren.toNat

lemma isK_eq_constantBit (x : BitVec 32) : isK x = constantBit x := by
  rw [isK_eq, constantBit, BitField.getLsbD_eq_div]
  rfl

lemma plainIndex_eq (x : BitVec 32) :
    plainIndex x = if isK x then (indexRK x).toNat else x.toNat := by
  have hindex := toNat_indexRK x
  rw [plainIndex, isK_eq_constantBit]
  split_ifs with h
  · rw [← isK_eq_constantBit, isK_eq, decide_eq_true_iff] at h
    omega
  · rfl

lemma closure_eq : closure host b f s =
    if functionCount b s (getBx f.i) < plainIndex (getBx f.i) then
      .error (.exit 1 (functionMessage b s (getBx f.i)))
    else
      match selectedFunction host b f s (getBx f.i) with
      | none => .error .fault
      | some (v, s') => .ok (.store v, s') := by
  rw [closure, bind_apply_ok (get_eq_ok.mpr rfl), functionCount, functionMessage, selectedFunction,
    plainIndex_eq, ← isK_eq_constantBit]
  by_cases hk : isK (getBx f.i)
  · simp only [hk, if_true]
    split_ifs with hlt
    · rfl
    · cases s.vm.functions[(indexRK (getBx f.i)).toNat]? <;> rfl
  · simp only [hk, Bool.false_eq_true, if_false]
    split_ifs with hlt
    · rfl
    · cases b.children[(getBx f.i).toNat]? <;> rfl

lemma exec_closure (ho : opcode f.i = some .closure) :
    exec host b f argv s = closure host b f s := by
  rw [exec, bind_apply_ok (get_eq_ok.mpr rfl)]
  simp only [ho]

section Fetch

variable (host : Host) (prog b : Block) (f : Frame) (s : Shared) (argv : List TValue)
  (callers : List Frame)

structure FetchesInside : Prop where
  fetches : plainIndex (getBx f.i) < functionCount b s (getBx f.i) →
    ∃ v s', selectedFunction host b f s (getBx f.i) = some (v, s') ∧
      (getA f.i).toNat < f.stack.length ∧ advance host prog argv (.run f callers) s =
        Frame.dispatch host b { f with stack := f.stack.set (getA f.i).toNat v } callers s'
  stops : functionCount b s (getBx f.i) ≤ plainIndex (getBx f.i) →
    advance host prog argv (.run f callers) s =
      .error (.exit 1 (functionMessage b s (getBx f.i)))

end Fetch

def OpCode.operate (a : Arithmetic) (garbage : Value) : OpCode → List TValue → Exec Action
  | add, [x, y] => calculate (TValue.numAdd a garbage x y)
  | sub, [x, y] => calculate (TValue.numSub a garbage x y)
  | mul, [x, y] => calculate (TValue.numMul a garbage x y)
  | div, [x, y] => calculate (TValue.numDiv a garbage x y)
  | pow, [x, y] => calculate (TValue.numPow a garbage x y)
  | rem, [x, y] => calculate (TValue.numRem garbage x y)
  | unm, [x] => calculate (some (TValue.numUnm x))
  | not, [x] => return .store (createBoolean garbage (.ofInt (x.value.b == 0).toNat))
  | eq, [x, y] => return .go (if ← found (x.equal y) then 1 else 0)
  | lt, [x, y] => skip (TValue.numLt garbage x y)
  | gt, [x, y] => skip (TValue.numGt garbage x y)
  | le, [x, y] => skip (TValue.numLe garbage x y)
  | ge, [x, y] => skip (TValue.numGe garbage x y)
  | «return», [x] => return .leave x
  | _, _ => throw .fault

def Frame.operands (b : Block) (f : Frame) (o : OpCode) : Option (List TValue) :=
  o.rkFields.mapM (fun field => selectedRK b f (field.get f.i))

lemma rkValue_eq (x : BitVec 32) : rkValue b f x = found (selectedRK b f x) := by
  rw [rkValue, rk, selectedRK, plainIndex_eq, ← isK_eq_constantBit]
  split_ifs <;> rfl

lemma Frame.operands_one {g : Field} (h : o.rkFields = [g]) :
    f.operands b o = (selectedRK b f (g.get f.i)).bind fun x => some [x] := by
  rw [operands, h]
  cases hx : selectedRK b f (g.get f.i) <;> simp [hx]

lemma Frame.operands_two {g g' : Field} (h : o.rkFields = [g, g']) :
    f.operands b o = (selectedRK b f (g.get f.i)).bind fun x =>
      (selectedRK b f (g'.get f.i)).bind fun y => some [x, y] := by
  rw [operands, h]
  cases hx : selectedRK b f (g.get f.i) <;> cases hy : selectedRK b f (g'.get f.i) <;>
    simp [hx, hy]

lemma found_one (p : Option TValue) (g : List TValue → Exec Action) :
    (found p >>= fun x => g [x]) s = (found (p.bind fun x => some [x]) >>= g) s := by
  cases p <;> rfl

lemma found_two (p q : Option TValue) (g : List TValue → Exec Action) :
    (found p >>= fun x => found q >>= fun y => g [x, y]) s =
      (found (p.bind fun x => q.bind fun y => some [x, y]) >>= g) s := by
  cases p with
  | none => rfl
  | some x => cases q <;> rfl

lemma exec_operate (ho : opcode f.i = some o) (hrk : o.rkFields ≠ []) :
    exec host b f argv s = (do
      let operands ← found (f.operands b o)
      o.operate host.arithmetic (host.garbage s.clock) operands) s := by
  rw [exec, bind_apply_ok (get_eq_ok.mpr rfl)]
  simp only [ho, rkValue_eq]
  cases o with
  | add | sub | mul | div | pow | rem | eq | lt | gt | le | ge =>
    rw [Frame.operands_two rfl]
    refine Eq.trans ?_ (found_two _ _ _)
    rfl
  | unm | not | «return» =>
    rw [Frame.operands_one rfl]
    refine Eq.trans ?_ (found_one _ _)
    rfl
  | _ => exact absurd rfl hrk

def Block.Counted (b : Block) : Prop := b.numchildren.toNat ≤ b.children.length

lemma selectedFunction_of_lt (hb : b.Counted) (hx : plainIndex x < functionCount b s x) :
    ∃ v s', selectedFunction host b f s x = some (v, s') := by
  rw [functionCount] at hx
  rw [selectedFunction]
  split_ifs at hx ⊢ with hk
  · rw [List.getElem?_eq_getElem hx]
    exact ⟨_, _, rfl⟩
  · rw [List.getElem?_eq_getElem (hx.trans_le hb)]
    exact ⟨_, _, rfl⟩

theorem closure_inside_iff (h : f.At prog b .closure) (hb : b.Counted) :
    FetchesInside host prog b f s argv callers ↔
      plainIndex (getBx f.i) ≠ functionCount b s (getBx f.i) ∧
        (plainIndex (getBx f.i) < functionCount b s (getBx f.i) →
          (getA f.i).toNat < f.stack.length) := by
  have hexec : exec host b f (window argv callers) s = _ := (exec_closure h.op).trans closure_eq
  constructor
  · rintro ⟨hfetch, hstop⟩
    refine ⟨fun heq => ?_, fun hlt => ?_⟩
    · have hadv := hstop heq.ge
      rw [if_neg (by omega)] at hexec
      rcases hsel : selectedFunction host b f s (getBx f.i) with _ | ⟨v, s'⟩
      · rw [hsel] at hexec
        rw [h.advance_error hexec] at hadv
        cases hadv
      · rw [hsel] at hexec
        by_cases ha : (getA f.i).toNat < f.stack.length
        · exact Frame.dispatch_ne_exit ((h.advance_store hexec ha).symm.trans hadv)
        · rw [h.advance_store_fault hexec (by omega)] at hadv
          cases hadv
    · obtain ⟨v, s', -, ha, -⟩ := hfetch hlt
      exact ha
  · rintro ⟨hne, ha⟩
    refine ⟨fun hlt => ?_, fun hle => ?_⟩
    · obtain ⟨v, s', hsel⟩ : ∃ v s', selectedFunction host b f s (getBx f.i) = some (v, s') :=
        selectedFunction_of_lt hb hlt
      rw [if_neg (by omega), hsel] at hexec
      exact ⟨v, s', hsel, ha hlt, h.advance_store hexec (ha hlt)⟩
    · rw [if_pos (by omega)] at hexec
      exact h.advance_error hexec

def childBlock (i : Inst) : Block :=
  { wordBlock [] i with numchildren := 1, children := [Block.new default] }

theorem closure_inside_iff_child :
    let i := OpCode.closure.code
    FetchesInside plainHost (childBlock i) (childBlock i) (wordFrame [nullValue] i) (wordState [])
        [] [] ↔
      plainIndex (getBx i) ≠ functionCount (childBlock i) (wordState []) (getBx i) ∧
        (plainIndex (getBx i) < functionCount (childBlock i) (wordState []) (getBx i) →
          (getA i).toNat < 1) := by
  intro i
  exact closure_inside_iff ⟨rfl, rfl, by decide⟩ (by decide : 1 ≤ 1)

theorem closure_reads_behind :
    let i := OpCode.closure.code
    plainIndex (getBx i) = 0 ∧ functionCount (wordBlock [] i) (wordState []) (getBx i) = 0 ∧
      ¬ FetchesInside plainHost (wordBlock [] i) (wordBlock [] i) (wordFrame [nullValue] i)
        (wordState []) [] [] := by
  intro i
  refine ⟨by decide, by decide, fun h => ?_⟩
  have hat : (wordFrame [nullValue] i).At (wordBlock [] i) (wordBlock [] i) .closure :=
    wordFrame_at (by decide)
  have hexec : exec plainHost (wordBlock [] i) (wordFrame [nullValue] i) (window [] [])
      (wordState []) = .error .fault := by
    rw [exec_closure hat.op, closure_eq, if_neg (by decide), selectedFunction, if_neg (by decide)]
    rfl
  have hstop := h.stops (by decide)
  rw [hat.advance_error hexec] at hstop
  cases hstop

section Resolution

variable (host b f s argv)

structure OperandsResolve : Prop where
  rk : ∀ o, opcode f.i = some o → o.rkFields ≠ [] → exec host b f argv s = (do
    let operands ← found (f.operands b o)
    o.operate host.arithmetic (host.garbage s.clock) operands) s
  function : opcode f.i = some .closure → ∀ v s', exec host b f argv s = .ok (.store v, s') →
    selectedFunction host b f s (getBx f.i) = some (v, s')
  constant : opcode f.i = some .loadk → exec host b f argv s =
    (do return Action.store (← found (selectedConstant b s (getBx f.i)))) s

end Resolution

lemma exec_loadk (ho : opcode f.i = some .loadk) : exec host b f argv s =
    (do return Action.store (← found b.k[(getBx f.i).toNat]?)) s := by
  rw [exec, bind_apply_ok (get_eq_ok.mpr rfl)]
  simp only [ho]
  rfl

lemma found_store_inj {p q : Option TValue}
    (h : (do return Action.store (← found p) : Exec Action) s =
      (do return Action.store (← found q) : Exec Action) s) : p = q := by
  cases p <;> cases q
  · rfl
  · cases h
  · cases h
  · cases h
    rfl

theorem resolves_iff : OperandsResolve host b f s argv ↔
    (opcode f.i = some .loadk → constantBit (getBx f.i) →
      b.k[(getBx f.i).toNat]? = s.vm.constants[plainIndex (getBx f.i)]?) := by
  have hselected : selectedConstant b s (getBx f.i) =
      if constantBit (getBx f.i) then s.vm.constants[plainIndex (getBx f.i)]?
      else b.k[(getBx f.i).toNat]? := by
    rw [selectedConstant]
    split_ifs with hbit
    · rfl
    · rw [plainIndex, if_neg hbit]
  constructor
  · intro h hk hbit
    have hexec := h.constant hk
    rw [exec_loadk hk, hselected, if_pos hbit] at hexec
    exact found_store_inj hexec
  · intro hclear
    refine ⟨fun o ho hrk => exec_operate ho hrk, fun ho v s' hstore => ?_, fun hk => ?_⟩
    · rw [exec_closure ho, closure_eq] at hstore
      split_ifs at hstore
      rcases hsel : selectedFunction host b f s (getBx f.i) with _ | ⟨w, s₁⟩
      · rw [hsel] at hstore
        cases hstore
      · rw [hsel] at hstore
        cases hstore
        rfl
    · rw [exec_loadk hk, hselected]
      split_ifs with hbit
      · rw [hclear hk hbit]
      · rfl

theorem loadk_reads_own_constant :
    let i := setBx OpCode.loadk.code (makeK 0)
    selectedConstant (wordBlock [nullValue] i) (wordState []) (getBx i) = some (intValue 5) ∧
      ¬ OperandsResolve plainHost (wordBlock [nullValue] i) (wordFrame [nullValue] i) (wordState []) [] := by
  intro i
  have hselected : selectedConstant (wordBlock [nullValue] i) (wordState []) (getBx i) =
      some (intValue 5) := by decide +kernel
  refine ⟨hselected, fun h => ?_⟩
  have hk : opcode i = some .loadk := by decide
  have hexec := h.constant hk
  rw [exec_loadk (f := wordFrame [nullValue] i) hk] at hexec
  have hload := found_store_inj hexec
  have hnone : (wordBlock [nullValue] i).k[(getBx i).toNat]? = none := by decide
  cases hselected.symm.trans (hload.symm.trans hnone)

end Bijou
