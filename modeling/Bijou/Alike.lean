import Bijou.Library.Agreement
import Bijou.Operators
import Bijou.Safety

/-! Two machines whose values agree in the member that the tag selects. They go the same way for as
long as no word looks beneath it. -/

namespace Bijou

open Agreement CString

variable {host host' : Host} {prog prog' b b' : Block} {f g : Frame} {s s' t t' : Shared}
  {argv argv' : List TValue} {o : OpCode} {v w : TValue}

section Relations

/-- Strings may lie at different addresses, and a boolean is only true or false. -/
def TValue.Alike (v w : TValue) : Prop :=
  v.tt = w.tt ∧ match v.tt with
  | .none | .null => True
  | .number => v.value.n = w.value.n
  | .boolean => v.value.b = 0 ↔ w.value.b = 0
  | .string => v.value.s.len = w.value.s.len ∧ v.value.s.ptr.text = w.value.s.ptr.text ∧
      (v.value.s.ptr.addr = 0 ↔ w.value.s.ptr.addr = 0)
  | .function | .pointer => v.value.lo = w.value.lo

def Values : List TValue → List TValue → Prop := List.Forall₂ TValue.Alike

structure BijouFunction.Alike (p q : BijouFunction) : Prop where
  func : q.func = p.func
  arity : q.arity = p.arity
  name : q.name.text = p.name.text
  internal : q.internal = p.internal
  block : q.block = p.block

structure BijouVM.Alike (vm vm' : BijouVM) : Prop where
  globals : Values vm.globals vm'.globals
  functions : vm'.functions = vm.functions
  constants : Values vm.constants vm'.constants
  libs : vm'.libs = vm.libs

structure Shared.Alike (s t : Shared) : Prop where
  vm : s.vm.Alike t.vm
  heap : List.Forall₂ (fun p q => q.1 = p.1 ∧ p.2.Alike q.2) s.heap t.heap
  locals : ∀ path, Values (s.locals path) (t.locals path)
  printed : t.printed = s.printed
  clock : t.clock = s.clock

def Frame.Alike (f g : Frame) : Prop := ∃ stack, g = { f with stack } ∧ Values f.stack stack

inductive Control.Alike : Control → Control → Prop
  | run {f g : Frame} {callers callers' : List Frame} (top : f.Alike g)
      (waiting : List.Forall₂ Frame.Alike callers callers') :
      Control.Alike (.run f callers) (.run g callers')
  | ret {v w : TValue} {callers callers' : List Frame} (value : v.Alike w)
      (waiting : List.Forall₂ Frame.Alike callers callers') :
      Control.Alike (.ret v callers) (.ret w callers')

structure Config.Alike (c d : Config) : Prop where
  shared : c.shared.Alike d.shared
  control : c.control.Alike d.control
  argv : Values c.argv d.argv

inductive Step.Alike : Step → Step → Prop
  | on {c d : Config} (h : c.Alike d) : Step.Alike (.on c) (.on d)
  | done {v w : TValue} (h : v.Alike w) : Step.Alike (.done v) (.done w)
  | halt (h : Halt) : Step.Alike (.halt h) (.halt h)

inductive Action.Alike : Action → Action → Prop
  | store {v w : TValue} (h : v.Alike w) : Action.Alike (.store v) (.store w)
  | go (distance : ℤ) : Action.Alike (.go distance) (.go distance)
  | leave {v w : TValue} (h : v.Alike w) : Action.Alike (.leave v) (.leave w)
  | enter (path : Path) (args : ℕ) (argc : BitVec 32) :
    Action.Alike (.enter path args argc) (.enter path args argc)

inductive Block.Alike : Block → Block → Prop
  | mk {b b' : Block} (code : b'.code = b.code) (regc : b'.regc = b.regc) (argc : b'.argc = b.argc)
      (funcname : b'.funcname.text = b.funcname.text) (numchildren : b'.numchildren = b.numchildren)
      (k : List.Forall₂ (fun u u' => u.tt = .function ∨ u.Alike u') b.k b'.k)
      (children : List.Forall₂ Block.Alike b.children b'.children) : Block.Alike b b'

structure Host.Resembles (host host' : Host) : Prop where
  arithmetic : host'.arithmetic = host.arithmetic
  malloc : host'.malloc = host.malloc
  allocator : host'.allocator = host.allocator
  int : host'.int = host.int
  stdin : host'.stdin = host.stdin
  stdout : host'.stdout = host.stdout
  stderr : host'.stderr = host.stderr

def Host.Blind (host host' : Host) (native : Native) (t : ℕ) (vm : BijouVM) (path : Path)
    (args : List TValue) : Prop :=
  ∀ vm' args', vm.Alike vm' → Values args args' →
    Option.Rel TValue.Alike (host.call native t vm path args) (host'.call native t vm' path args')

/-- The word looks beneath the member that the tag of a value selects: it reads the slot of a
function as a constant, negates what is neither a number nor a boolean, compares two booleans, or
calls a native function that does so. -/
def Frame.Peeks (host host' : Host) (b : Block) (f : Frame) (s : Shared) : Prop :=
  (∃ j ∈ constants f.i, ∃ v, b.k[j]? = some v ∧ v.tt = .function) ∨
  (opcode f.i = some .not ∧ ∃ v, f.operands b .not = some [v] ∧
    (v.tt = .none ∨ v.tt = .null ∨ v.tt = .string)) ∨
  (opcode f.i = some .eq ∧ ∃ v w, f.operands b .eq = some [v, w] ∧ v.tt = .boolean ∧
    w.tt = .boolean) ∨
  (opcode f.i = some .call ∧ ∃ native, f.Calls s native ∧ ¬ host.Blind host' native s.clock s.vm f.path
    ((f.stack.drop ((getB f.i).toNat + 1)).take (getC f.i).toNat))

def numeric : List OpCode := [.add, .sub, .mul, .div, .pow, .rem, .unm, .lt, .gt, .le, .ge]

def Frame.Mistyped (b : Block) (f : Frame) : Prop :=
  ∃ o ∈ numeric, opcode f.i = some o ∧ ∃ vs, f.operands b o = some vs ∧ ∃ v ∈ vs, v.tt ≠ .number

def readRegisters (i : Inst) : List ℕ :=
  match opcode i with
  | none => []
  | some .move => [(getB i).toNat]
  | some .setglobal | some .setlocal => [(getA i).toNat]
  | some .call => List.range' (getB i).toNat ((getC i).toNat + 1)
  | some o => (o.rkFields.map (fun g => g.get i)).flatMap rkRegister

lemma Host.Resembles.refl (host : Host) : host.Resembles host := ⟨rfl, rfl, rfl, rfl, rfl, rfl, rfl⟩

end Relations

section Values

lemma TValue.Alike.refl (v : TValue) : v.Alike v := by
  refine ⟨rfl, ?_⟩
  cases v.tt with
  | none | null => trivial
  | number | function | pointer => rfl
  | boolean => exact Iff.rfl
  | string => exact ⟨rfl, rfl, Iff.rfl⟩

lemma TValue.Alike.number (h : v.Alike w) (htt : v.tt = .number) : w.value.n = v.value.n := by
  obtain ⟨-, h⟩ := h
  rw [htt] at h
  exact h.symm

lemma TValue.Alike.string (h : v.Alike w) (htt : v.tt = .string) :
    w.value.s.len = v.value.s.len ∧ w.value.s.ptr.text = v.value.s.ptr.text ∧
      (w.value.s.ptr.addr = 0 ↔ v.value.s.ptr.addr = 0) := by
  obtain ⟨-, h⟩ := h
  rw [htt] at h
  exact ⟨h.1.symm, h.2.1.symm, h.2.2.symm⟩

lemma TValue.Alike.lo (h : v.Alike w) (htt : v.tt = .function ∨ v.tt = .pointer) :
    w.value.lo = v.value.lo := by
  obtain ⟨-, h⟩ := h
  rcases htt with htt | htt
  · rw [htt] at h
    exact h.symm
  · rw [htt] at h
    exact h.symm

lemma none_alike (g g' : Value) : (createNone g).Alike (createNone g') := ⟨rfl, trivial⟩

lemma null_alike (g g' : Value) : (createNull g).Alike (createNull g') := ⟨rfl, trivial⟩

lemma boolean_alike (g g' : Value) (x : LongDouble) :
    (createBoolean g x).Alike (createBoolean g' x) := by
  refine ⟨rfl, ?_⟩
  change (g.setBool _).b = 0 ↔ (g'.setBool _).b = 0
  rw [Value.setBool_b, Value.setBool_b]

lemma function_alike (g g' : Value) (func : BitVec 64) :
    (createFunction g func).Alike (createFunction g' func) := ⟨rfl, rfl⟩

lemma Values.refl (l : List TValue) : Values l l := List.forall₂_same.mpr (fun v _ => .refl v)

lemma heap_lookup {heap heap' : Heap}
    (h : List.Forall₂ (fun p q => q.1 = p.1 ∧ p.2.Alike q.2) heap heap') (a : BitVec 64) :
    Option.Rel BijouFunction.Alike (heap.lookup a) (heap'.lookup a) := by
  induction h with
  | nil => exact .none
  | @cons p q heap heap' hpq _ ih =>
    obtain ⟨a₁, func⟩ := p
    obtain ⟨a₂, func'⟩ := q
    obtain ⟨haddr, hfunc⟩ := hpq
    dsimp only at haddr hfunc
    subst haddr
    rw [List.lookup_cons, List.lookup_cons]
    cases a == a₂ with
    | true => exact .some hfunc
    | false => exact ih

lemma equal_alike {x x' y y' : TValue} (hx : x.Alike x') (hy : y.Alike y')
    (hbool : ¬ (x.tt = .boolean ∧ y.tt = .boolean)) : x'.equal y' = x.equal y := by
  rw [TValue.equal, TValue.equal, ← hx.1, ← hy.1]
  by_cases htt : x.tt = y.tt
  · rw [if_pos htt, if_pos htt]
    cases htag : x.tt with
    | number => simp only [hx.number htag, hy.number (htt ▸ htag)]
    | boolean => exact absurd ⟨htag, htt ▸ htag⟩ hbool
    | string =>
      obtain ⟨hxlen, hxtext, hxaddr⟩ := hx.string htag
      obtain ⟨hylen, hytext, hyaddr⟩ := hy.string (htt ▸ htag)
      simp only [BijouString.equal, hxlen, hxtext, hxaddr, hylen, hytext, hyaddr]
    | _ => rfl
  · rw [if_neg htt, if_neg htt]

end Values

section Parts

variable {R : Action → Action → Prop}

lemma agrees_found {α β : Type} {R : α → β → Prop} {p : Option α} {q : Option β}
    (h : Option.Rel R p q) (hs : s.Alike t) : Agrees Shared.Alike R (found p s) (found q t) := by
  cases h with
  | some h => exact agrees_pure h hs
  | none => exact agrees_throw _

lemma agrees_found_same {α : Type} (p : Option α) (hs : s.Alike t) :
    Agrees Shared.Alike Eq (found p s) (found p t) := by
  cases p with
  | some a => exact agrees_pure rfl hs
  | none => exact agrees_throw _

lemma agrees_print (messages : List Message) (hs : s.Alike t) :
    Agrees Shared.Alike (fun _ _ => True) (print messages s) (print messages t) := by
  refine agrees_modify trivial ⟨hs.vm, hs.heap, hs.locals, ?_, hs.clock⟩
  rw [hs.printed]

lemma constant_alike {j : ℕ} (hb : b.Alike b') (hpeek : ¬ f.Peeks host host' b s)
    (hj : j ∈ constants f.i) :
    Option.Rel TValue.Alike b.k[j]? b'.k[j]? := by
  obtain ⟨-, -, -, -, -, hk, -⟩ := hb
  have hrel := forall₂_getElem? hk j
  have hslot : ∀ v, b.k[j]? = some v → v.tt ≠ .function :=
    fun v hv htt => hpeek (.inl ⟨_, hj, v, hv, htt⟩)
  generalize b.k[j]? = p at hrel hslot ⊢
  generalize b'.k[j]? = q at hrel ⊢
  cases hrel with
  | none => exact .none
  | some h => exact .some (h.resolve_left (hslot _ rfl))

lemma variableIndex_agrees {op : String} {limit count : ℕ} {stack : List TValue} (hs : s.Alike t)
    (hk : Option.Rel TValue.Alike b.k[(getBx f.i).toNat]? b'.k[(getBx f.i).toNat]?) :
    Agrees Shared.Alike Eq (variableIndex b f op limit count s)
      (variableIndex b' { f with stack } op limit count t) := by
  rw [variableIndex, variableIndex]
  dsimp only
  by_cases hlimit : limit ≤ (getBx f.i).toNat
  · simp only [if_pos hlimit]
    exact (agrees_print _ hs).bind (fun _ _ _ _ _ hs => agrees_pure rfl hs)
  simp only [if_neg hlimit]
  refine (agrees_found hk hs).bind (fun v w s t hv hs => ?_)
  rw [← hv.1]
  by_cases hnumber : v.tt = .number
  · rw [if_neg (not_not.mpr hnumber), if_neg (not_not.mpr hnumber), hv.number hnumber]
    by_cases hcount : count ≤ ((v.value.n.toInt 32).signExtend 64).toNat
    · simp only [if_pos hcount]
      exact (agrees_print _ hs).bind (fun _ _ _ _ _ hs => agrees_pure rfl hs)
    · simp only [if_neg hcount]
      exact agrees_pure rfl hs
  · rw [if_pos hnumber, if_pos hnumber]
    exact (agrees_print _ hs).bind (fun _ _ _ _ _ hs => agrees_pure rfl hs)

def Results (r r' : TValue × List Message) : Prop :=
  r.2 = r'.2 ∧ (r.1.tt = .none ∧ r'.1.tt = .none ∨ r.1.tt ≠ .none ∧ r.1.Alike r'.1)

lemma calculate_agrees {r r' : Option (TValue × List Message)} (hs : s.Alike t)
    (h : Option.Rel Results r r') : Agrees Shared.Alike Action.Alike (calculate r s) (calculate r' t) := by
  refine (agrees_found h hs).bind (fun p q s t hpq hs => ?_)
  obtain ⟨u, messages⟩ := p
  obtain ⟨u', messages'⟩ := q
  obtain ⟨hmessages, htt⟩ := hpq
  obtain rfl : messages = messages' := hmessages
  refine (agrees_print _ hs).bind (fun _ _ s t _ hs => agrees_pure ?_ hs)
  rcases htt with ⟨hp, hq⟩ | ⟨hp, hpq⟩
  · rw [if_pos hp, if_pos hq]
    exact .go 0
  · rw [if_neg hp, if_neg (hpq.1 ▸ hp)]
    exact .store hpq

def Verdicts (r r' : TValue × List Message) : Prop := r'.2 = r.2 ∧ r'.1.value.b = r.1.value.b

lemma skip_agrees {r r' : Option (TValue × List Message)} (hs : s.Alike t)
    (h : Option.Rel Verdicts r r') : Agrees Shared.Alike Action.Alike (skip r s) (skip r' t) := by
  refine (agrees_found h hs).bind (fun p q s t hpq hs => ?_)
  obtain ⟨u, messages⟩ := p
  obtain ⟨u', messages'⟩ := q
  obtain ⟨hmessages, htruth⟩ := hpq
  dsimp only at hmessages htruth ⊢
  rw [hmessages, htruth]
  exact (agrees_print _ hs).bind (fun _ _ s t _ hs => agrees_pure (.go _) hs)

end Parts

section Operators

variable {x x' y y' : TValue} {op : String} {garbage garbage' : Value}

lemma number_alike {p q : Value} (h : q.n = p.n) : TValue.Alike ⟨.number, p⟩ ⟨.number, q⟩ :=
  ⟨rfl, h.symm⟩

lemma binary_results {F : Value → Value → Option Value} (hx : x.Alike x') (hy : y.Alike y')
    (hF : x.tt = .number → y.tt = .number →
      Option.Rel (fun p q => q.n = p.n) (F x.value y.value) (F x'.value y'.value)) :
    Option.Rel Results (TValue.binary op garbage F .number x y)
      (TValue.binary op garbage' F .number x' y') := by
  rw [TValue.binary, TValue.binary, ← hx.1, ← hy.1]
  by_cases hbad : x.tt ≠ .number ∨ y.tt ≠ .number
  · rw [if_pos hbad, if_pos hbad]
    exact .some ⟨rfl, .inl ⟨rfl, rfl⟩⟩
  · rw [if_neg hbad, if_neg hbad]
    push Not at hbad
    have hrel := hF hbad.1 hbad.2
    generalize F x.value y.value = p at hrel ⊢
    generalize F x'.value y'.value = q at hrel ⊢
    cases hrel with
    | none => exact .none
    | some h => exact .some ⟨rfl, .inr ⟨fun h => Tag.noConfusion h, number_alike h⟩⟩

lemma arith_results {F : LongDouble → LongDouble → LongDouble} (hx : x.Alike x') (hy : y.Alike y') :
    Option.Rel Results (TValue.arith op garbage F x y) (TValue.arith op garbage' F x' y') := by
  refine binary_results hx hy (fun htx hty => .some ?_)
  rw [Value.setNum_n, Value.setNum_n, hx.number htx, hy.number hty]

lemma numRem_results (hx : x.Alike x') (hy : y.Alike y') :
    Option.Rel Results (TValue.numRem garbage x y) (TValue.numRem garbage' x' y') := by
  refine binary_results hx hy (fun htx hty => ?_)
  rw [hx.number htx, hy.number hty]
  cases TValue.remainder (x.value.n.toInt 64) (y.value.n.toInt 64) with
  | none => exact .none
  | some r => exact .some (by rw [Value.setNum_n, Value.setNum_n])

lemma numUnm_results (hx : x.Alike x') : Results (TValue.numUnm x) (TValue.numUnm x') := by
  rw [TValue.numUnm, TValue.numUnm, ← hx.1]
  by_cases hbad : x.tt ≠ .number
  · rw [if_pos hbad, if_pos hbad]
    exact ⟨rfl, .inl ⟨rfl, rfl⟩⟩
  · rw [if_neg hbad, if_neg hbad]
    have htt := not_not.mp hbad
    refine ⟨rfl, .inr ⟨by rw [htt]; decide, rfl, ?_⟩⟩
    simp only [htt, Value.setNum_n, hx.number htt]

lemma compare_verdicts {F : LongDouble → LongDouble → Bool} (hx : x.Alike x') (hy : y.Alike y')
    (hgarbage : garbage' = garbage ∨ x.tt = .number ∧ y.tt = .number) :
    Option.Rel Verdicts (TValue.compare op garbage F x y) (TValue.compare op garbage' F x' y') := by
  rw [TValue.compare, TValue.compare, TValue.binary, TValue.binary, ← hx.1, ← hy.1]
  by_cases hbad : x.tt ≠ .number ∨ y.tt ≠ .number
  -- The result is never written, and its boolean is what memory held.
  · rw [if_pos hbad, if_pos hbad]
    rcases hgarbage with rfl | ⟨htx, hty⟩
    · exact .some ⟨rfl, rfl⟩
    · exact absurd hbad (not_or.mpr ⟨not_not.mpr htx, not_not.mpr hty⟩)
  · rw [if_neg hbad, if_neg hbad]
    push Not at hbad
    rw [hx.number hbad.1, hy.number hbad.2]
    refine .some ⟨rfl, ?_⟩
    change (garbage'.setBool _).b = (garbage.setBool _).b
    rw [Value.setBool_b, Value.setBool_b]

lemma truth_alike (hx : x.Alike x') (htt : ¬ (x.tt = .none ∨ x.tt = .null ∨ x.tt = .string)) :
    (x'.value.b == 0) = (x.value.b == 0) := by
  have hlo : x'.value.lo = x.value.lo → (x'.value.b == 0) = (x.value.b == 0) := by
    intro h
    rw [Value.b, Value.b, h]
  cases htag : x.tt with
  | none => exact absurd (.inl htag) htt
  | null => exact absurd (.inr (.inl htag)) htt
  | string => exact absurd (.inr (.inr htag)) htt
  | number => exact hlo (congrArg LongDouble.mant (hx.number htag))
  | function => exact hlo (hx.lo (.inl htag))
  | pointer => exact hlo (hx.lo (.inr htag))
  | boolean =>
    obtain ⟨-, h⟩ := hx
    rw [htag] at h
    rw [Bool.eq_iff_iff, beq_iff_eq, beq_iff_eq]
    exact h.symm

lemma operate_agrees {a : Arithmetic} {vs vs' : List TValue} (hrk : o.rkFields ≠ [])
    (hvs : Values vs vs') (hlen : vs.length = o.rkFields.length) (hs : s.Alike t)
    (hnot : o = .not → ∀ v, vs = [v] → ¬ (v.tt = .none ∨ v.tt = .null ∨ v.tt = .string))
    (heq : o = .eq → ∀ v w, vs = [v, w] → ¬ (v.tt = .boolean ∧ w.tt = .boolean))
    (hgarbage : garbage' = garbage ∨ (o ∈ numeric → ∀ v ∈ vs, v.tt = .number)) :
    Agrees Shared.Alike Action.Alike (o.operate a garbage vs s) (o.operate a garbage' vs' t) := by
  have hone : o.rkFields.length = 1 → ∃ x x', vs = [x] ∧ vs' = [x'] ∧ x.Alike x' := by
    intro h
    obtain ⟨x, rfl⟩ := List.length_eq_one_iff.mp (hlen.trans h)
    obtain ⟨x', l, hx, hl, rfl⟩ := List.forall₂_cons_left_iff.mp hvs
    obtain rfl := List.forall₂_nil_left_iff.mp hl
    exact ⟨x, x', rfl, rfl, hx⟩
  have htwo : o.rkFields.length = 2 →
      ∃ x y x' y', vs = [x, y] ∧ vs' = [x', y'] ∧ x.Alike x' ∧ y.Alike y' := by
    intro h
    obtain ⟨x, y, rfl⟩ := List.length_eq_two.mp (hlen.trans h)
    obtain ⟨x', l, hx, hl, rfl⟩ := List.forall₂_cons_left_iff.mp hvs
    obtain ⟨y', l', hy, hl', rfl⟩ := List.forall₂_cons_left_iff.mp hl
    obtain rfl := List.forall₂_nil_left_iff.mp hl'
    exact ⟨x, y, x', y', rfl, rfl, hx, hy⟩
  cases o with
  | add | sub | mul | div | pow =>
    obtain ⟨x, y, x', y', rfl, rfl, hx, hy⟩ := htwo rfl
    exact calculate_agrees hs (arith_results hx hy)
  | rem =>
    obtain ⟨x, y, x', y', rfl, rfl, hx, hy⟩ := htwo rfl
    exact calculate_agrees hs (numRem_results hx hy)
  | unm =>
    obtain ⟨x, x', rfl, rfl, hx⟩ := hone rfl
    exact calculate_agrees hs (.some (numUnm_results hx))
  | not =>
    obtain ⟨x, x', rfl, rfl, hx⟩ := hone rfl
    rw [OpCode.operate, OpCode.operate, truth_alike hx (hnot rfl x rfl)]
    exact agrees_pure (.store (boolean_alike _ _ _)) hs
  | eq =>
    obtain ⟨x, y, x', y', rfl, rfl, hx, hy⟩ := htwo rfl
    rw [OpCode.operate, OpCode.operate, equal_alike hx hy (heq rfl x y rfl)]
    refine (agrees_found_same (x.equal y) hs).bind (fun p q s t hpq hs => ?_)
    obtain rfl := hpq
    exact agrees_pure (.go _) hs
  | lt | gt | le | ge =>
    obtain ⟨x, y, x', y', rfl, rfl, hx, hy⟩ := htwo rfl
    have hnumbers : garbage' = garbage ∨ x.tt = .number ∧ y.tt = .number := by
      refine hgarbage.imp_right (fun h => ?_)
      exact ⟨h (by decide) x List.mem_cons_self, h (by decide) y (List.mem_cons_of_mem _ (by simp))⟩
    exact skip_agrees hs (compare_verdicts hx hy hnumbers)
  | «return» =>
    obtain ⟨x, x', rfl, rfl, hx⟩ := hone rfl
    exact agrees_pure (.leave hx) hs
  | _ => exact absurd rfl hrk

end Operators

section Functions

lemma plainIndex_mem_readRegisters {i : Inst} {g : Field} (ho : opcode i = some o)
    (hrk : o.rkFields ≠ []) (hg : g ∈ o.rkFields) (hbit : ¬ constantBit (g.get i) = true) :
    plainIndex (g.get i) ∈ readRegisters i := by
  have hplain : plainIndex (g.get i) = (g.get i).toNat := if_neg hbit
  have hregister : rkRegister (g.get i) = [(g.get i).toNat] := by
    rw [rkRegister, isK_eq_constantBit, if_neg hbit]
  have hmem : (g.get i).toNat ∈ (o.rkFields.map (fun g => g.get i)).flatMap rkRegister :=
    List.mem_flatMap.mpr ⟨_, List.mem_map_of_mem hg, hregister ▸ List.mem_singleton_self _⟩
  rw [hplain, readRegisters, ho]
  cases o with
  | add | sub | mul | div | pow | rem | unm | not | eq | lt | gt | le | ge | «return» => exact hmem
  | _ => exact absurd rfl hrk

lemma operands_alike {stack : List TValue} (ho : opcode f.i = some o) (hrk : o.rkFields ≠ [])
    (hb : b.Alike b') (hreads : ∀ r ∈ readRegisters f.i, Option.Rel TValue.Alike f.stack[r]? stack[r]?)
    (hpeek : ¬ f.Peeks host host' b s) :
    Option.Rel Values (f.operands b o) (Frame.operands b' { f with stack } o) := by
  refine mapM_rel (fun g hg => ?_)
  rw [selectedRK, selectedRK]
  by_cases hbit : constantBit (g.get f.i)
  · rw [if_pos hbit, if_pos hbit]
    exact constant_alike hb hpeek (plainIndex_mem_constants ho hrk hg hbit)
  · rw [if_neg hbit, if_neg hbit]
    exact hreads _ (plainIndex_mem_readRegisters ho hrk hg hbit)

variable (hh : host.Resembles host')

include hh

lemma newFunction_agrees {func : Option Native} {arity internal : BitVec 32} {name name' : CharPtr}
    {path : Option Path} (hname : name'.text = name.text) (hs : s.Alike t) :
    Agrees Shared.Alike Eq (newFunction host func arity name internal path s)
      (newFunction host' func arity name' internal path t) := by
  refine agrees_bind_get ?_
  have hclock : host'.malloc t.clock = host.malloc s.clock := by rw [hh.malloc, hs.clock]
  have hheap : Shared.Alike
      { s with heap := (host.malloc s.clock, ⟨func, arity, name, internal, path⟩) :: s.heap }
      { t with heap := (host'.malloc t.clock, ⟨func, arity, name', internal, path⟩) :: t.heap } :=
    ⟨hs.vm, .cons ⟨hclock, rfl, rfl, hname, rfl, rfl⟩ hs.heap, hs.locals, hs.printed, hs.clock⟩
  refine (agrees_set (R := fun _ _ => True) trivial hheap).bind (fun _ _ s₁ t₁ _ hs₁ => ?_)
  by_cases hinternal : internal = 0
  · simp only [if_pos hinternal]
    refine (agrees_found_same path hs₁).bind (fun p q s₂ t₂ hpq hs₂ => ?_)
    obtain rfl := hpq
    refine (agrees_modify (R := fun _ _ => True) trivial
      ⟨hs₂.vm, hs₂.heap, fun path => ?_, hs₂.printed, hs₂.clock⟩).bind
      (fun _ _ _ _ _ hs => agrees_pure hclock.symm hs)
    by_cases hpath : path = p
    · simp only [hpath, Function.update_self]
      exact .nil
    · simp only [Function.update_of_ne hpath]
      exact hs₂.locals path
  · simp only [if_neg hinternal]
    exact agrees_pure hclock.symm hs₁

lemma getExternal_agrees {tval tval' : TValue} (h : tval.Alike tval') (hs : s.Alike t) :
    Agrees Shared.Alike TValue.Alike (getExternal host tval s) (getExternal host' tval' t) := by
  refine agrees_bind_get ?_
  dsimp only
  rw [← h.1, hs.vm.libs, hs.clock, hh.int, hh.allocator]
  by_cases htt : tval.tt = .string
  · obtain ⟨-, htext, haddr⟩ := h.string htt
    simp only [if_neg (not_not.mpr htt)]
    rw [htext]
    by_cases hlibs : s.vm.libs = []
    · simp only [if_pos hlibs]
      exact agrees_throw_bind _
    simp only [if_neg hlibs]
    by_cases hnull : tval.value.s.ptr.addr = 0
    · rw [if_pos hnull, if_pos (haddr.mpr hnull)]
      exact agrees_throw_bind _
    rw [if_neg hnull, if_neg (fun h0 => hnull (haddr.mp h0))]
    have hfind : Agrees Shared.Alike Eq
        ((liftM (findExternal host.allocator tval.value.s.ptr.text.chars s.vm.libs none) :
          Exec (Option (BitVec 64 × BitVec 64) × Option CStr)) s)
        ((liftM (findExternal host.allocator tval.value.s.ptr.text.chars s.vm.libs none) :
          Exec (Option (BitVec 64 × BitVec 64) × Option CStr)) t) := by
      cases findExternal host.allocator tval.value.s.ptr.text.chars s.vm.libs none with
      | ok r => exact .ok rfl hs
      | error e => exact .error e
    refine hfind.bind (fun r r' s₁ t₁ hr hs₁ => ?_)
    obtain rfl := hr
    rcases r with ⟨_ | ⟨fptr, numArgs⟩, _ | error⟩
    · exact agrees_throw _
    · exact agrees_throw _
    · refine (newFunction_agrees hh htext hs₁).bind (fun p q s₂ t₂ hpq hs₂ => ?_)
      obtain rfl := hpq
      exact agrees_pure (function_alike _ _ _) hs₂
    · exact agrees_throw _
  · simp only [if_pos htt]
    exact agrees_throw_bind _

omit hh in
lemma callFunction_agrees {func func' : BijouFunction} {stack : List TValue} {args : ℕ}
    {argc : BitVec 32} (hfunc : func.Alike func') (hs : s.Alike t)
    (hargs : Values ((f.stack.drop args).take argc.toNat) ((stack.drop args).take argc.toNat))
    (hblind : ∀ native, func.internal ≠ 0 → func.func = some native →
      host.Blind host' native s.clock s.vm f.path ((f.stack.drop args).take argc.toNat)) :
    Agrees Shared.Alike Action.Alike (callFunction host f func args argc s)
      (callFunction host' { f with stack } func' args argc t) := by
  obtain ⟨hnative, harity, hname, hinternal, hblock⟩ := hfunc
  rw [callFunction, callFunction, hnative, harity, hname, hinternal, hblock]
  by_cases hcount : func.arity ≠ -1 ∧ argc ≠ func.arity
  · simp only [if_pos hcount]
    exact agrees_throw_bind _
  simp only [if_neg hcount]
  by_cases hzero : func.internal ≠ 0
  · simp only [if_pos hzero]
    refine agrees_bind_get ?_
    cases hfunc : func.func with
    | none => exact agrees_throw_bind _
    | some native =>
      have hcall := hblind native hzero hfunc t.vm _ hs.vm hargs
      refine (agrees_found_same (some native) hs).bind_of (fun p q s₁ t₁ hp hpq hs₁ => ?_)
      obtain rfl := hpq
      obtain ⟨rfl, rfl⟩ := Prod.mk.inj (pure_eq_ok.mp hp)
      rw [hs.clock]
      exact (agrees_found hcall hs₁).bind (fun v w s₂ t₂ hvw hs₂ => agrees_pure (.store hvw) hs₂)
  · simp only [if_neg hzero]
    refine (agrees_found_same func.block hs).bind (fun p q s₁ t₁ hpq hs₁ => ?_)
    obtain rfl := hpq
    exact agrees_pure (.enter p args argc) hs₁

lemma closure_agrees {stack : List TValue} (hb : b.Alike b') (hs : s.Alike t) :
    Agrees Shared.Alike Action.Alike (closure host b f s) (closure host' b' { f with stack } t) := by
  obtain ⟨-, -, -, -, hnum, -, hchildren⟩ := hb
  refine agrees_bind_get ?_
  dsimp only
  rw [hs.clock, hs.vm.functions, hnum]
  by_cases hbit : isK (getBx f.i)
  · simp only [if_pos hbit]
    by_cases hlt : s.vm.functions.length < (indexRK (getBx f.i)).toNat
    · simp only [if_pos hlt]
      exact agrees_throw_bind _
    simp only [if_neg hlt]
    refine (agrees_found_same _ hs).bind (fun p q s₁ t₁ hpq hs₁ => ?_)
    obtain rfl := hpq
    exact agrees_pure (.store (function_alike _ _ _)) hs₁
  · simp only [if_neg hbit]
    by_cases hlt : b.numchildren.toNat < (getBx f.i).toNat
    · simp only [if_pos hlt]
      exact agrees_throw_bind _
    simp only [if_neg hlt]
    refine (agrees_found (forall₂_getElem? hchildren _) hs).bind (fun c c' s₁ t₁ hc hs₁ => ?_)
    obtain ⟨-, -, hargc, hname, -, -, -⟩ := hc
    rw [hargc]
    refine (newFunction_agrees hh hname hs₁).bind (fun p q s₂ t₂ hpq hs₂ => ?_)
    obtain rfl := hpq
    exact agrees_pure (.store (function_alike _ _ _)) hs₂

variable {stack : List TValue} (hb : b.Alike b') (hs : s.Alike t)
  (hreads : ∀ r ∈ readRegisters f.i, Option.Rel TValue.Alike f.stack[r]? stack[r]?)

include hb hs hreads

omit hh in
lemma access_agrees (a : Access) (vars : Variables) (ho : opcode f.i = some (a.op vars))
    (hk : Option.Rel TValue.Alike b.k[(getBx f.i).toNat]? b'.k[(getBx f.i).toNat]?) :
    Agrees Shared.Alike Action.Alike (exec host b f argv s)
      (exec host' b' { f with stack } argv' t) := by
  have hlen : b'.k.length = b.k.length := by
    obtain ⟨-, -, -, -, -, hk, -⟩ := hb
    exact hk.length_eq.symm
  have hcells : Values (vars.cells f s) (vars.cells { f with stack } t) := by
    cases vars with
    | globals => exact hs.vm.globals
    | locals => exact hs.locals f.path
  have hlimit : a.limit b' (vars.cells { f with stack } t).length vars =
      a.limit b (vars.cells f s).length vars := by
    rw [← hcells.length_eq]
    cases a <;> cases vars <;> first | rfl | exact hlen
  rw [exec_access_eq ho, exec_access_eq (f := { f with stack }) ho, hlimit, ← hcells.length_eq]
  refine (variableIndex_agrees hs hk).bind (fun r r' s₁ t₁ hr hs₁ => ?_)
  obtain rfl := hr
  cases r with
  | none => exact agrees_pure (.leave (none_alike _ _)) hs₁
  | some n =>
    cases a with
    | get =>
      exact (agrees_found (forall₂_getElem? hcells n) hs₁).bind
        (fun v w _ _ hv hs => agrees_pure (.store hv) hs)
    | set =>
      have hmem : (getA f.i).toNat ∈ readRegisters f.i := by
        rw [readRegisters, ho]
        cases vars <;> exact List.mem_singleton_self _
      refine (agrees_found (hreads _ hmem) hs₁).bind (fun v w s₂ t₂ hv hs₂ => ?_)
      have hwritten := forall₂_set hcells hv n
      refine (agrees_modify (R := fun _ _ => True) trivial ?_).bind
        (fun _ _ _ _ _ hs => agrees_pure (.go 0) hs)
      cases vars with
      | globals =>
        exact ⟨⟨hwritten, hs₂.vm.functions, hs₂.vm.constants, hs₂.vm.libs⟩, hs₂.heap, hs₂.locals,
          hs₂.printed, hs₂.clock⟩
      | locals =>
        refine ⟨hs₂.vm, hs₂.heap, fun path => ?_, hs₂.printed, hs₂.clock⟩
        change Values (Function.update s₂.locals f.path _ path) (Function.update t₂.locals f.path _ path)
        by_cases hpath : path = f.path
        · rw [hpath, Function.update_self, Function.update_self]
          exact hwritten
        · rw [Function.update_of_ne hpath, Function.update_of_ne hpath]
          exact hs₂.locals path

omit hh hb hs in
lemma handed_alike (ho : opcode f.i = some .call) :
    Values ((f.stack.drop ((getB f.i).toNat + 1)).take (getC f.i).toNat)
      ((stack.drop ((getB f.i).toNat + 1)).take (getC f.i).toNat) := by
  refine forall₂_window (fun r hr => hreads r ?_)
  rw [readRegisters, ho]
  exact List.mem_range'_1.mpr ⟨by omega, by omega⟩

omit hh hb in
lemma call_agrees (hpeek : ¬ f.Peeks host host' b s) (ho : opcode f.i = some .call) :
    Agrees Shared.Alike Action.Alike (exec host b f argv s)
      (exec host' b' { f with stack } argv' t) := by
  have hregister := hreads (getB f.i).toNat (by simp [readRegisters, ho])
  refine agrees_bind_get ?_
  simp only [ho]
  refine (agrees_found hregister hs).bind_of (fun v w s₁ t₁ hx hv hs₁ => ?_)
  obtain ⟨hvalue, rfl⟩ := found_eq_ok.mp hx
  rw [← hv.1]
  by_cases htt : v.tt = .function
  · rw [if_neg (not_not.mpr htt), if_neg (not_not.mpr htt), hv.lo (.inl htt)]
    refine (agrees_found (heap_lookup hs.heap _) hs₁).bind_of (fun p q s₂ t₂ hx hpq hs₂ => ?_)
    obtain ⟨hlookup, rfl⟩ := found_eq_ok.mp hx
    refine callFunction_agrees hpq hs₂ (handed_alike hreads ho) (fun native hzero hnative => ?_)
    by_contra hblind
    exact hpeek (.inr (.inr (.inr ⟨ho, native, ⟨v, p, hvalue, htt, hlookup, hzero, hnative⟩, hblind⟩)))
  · rw [if_pos htt, if_pos htt]
    exact agrees_throw_bind _

omit hh hb hreads in
lemma getarg_agrees (ho : opcode f.i = some .getarg) (harg : (getBx f.i).toInt < f.argc.toInt →
      Option.Rel TValue.Alike argv[f.args + (getBx f.i).toNat]? argv'[f.args + (getBx f.i).toNat]?) :
    Agrees Shared.Alike Action.Alike (exec host b f argv s)
      (exec host' b' { f with stack } argv' t) := by
  refine agrees_bind_get ?_
  simp only [ho]
  by_cases hcount : f.argc.toInt ≤ (getBx f.i).toInt
  · simp only [if_pos hcount]
    exact (agrees_print _ hs).bind (fun _ _ _ _ _ hs => agrees_pure (.leave (none_alike _ _)) hs)
  · simp only [if_neg hcount]
    exact (agrees_found (harg (not_le.mp hcount)) hs).bind
      (fun v w _ _ hv hs => agrees_pure (.store hv) hs)

omit hb hreads in
lemma getexternal_agrees (ho : opcode f.i = some .getexternal)
    (hk : Option.Rel TValue.Alike b.k[(getB f.i).toNat]? b'.k[(getB f.i).toNat]?) :
    Agrees Shared.Alike Action.Alike (exec host b f argv s)
      (exec host' b' { f with stack } argv' t) := by
  refine agrees_bind_get ?_
  simp only [ho]
  refine (agrees_found hk hs).bind (fun v w s₁ t₁ hv hs₁ => ?_)
  exact (getExternal_agrees hh hv hs₁).bind (fun _ _ _ _ hv hs => agrees_pure (.store hv) hs)

lemma exec_plain_agrees (hpeek : ¬ f.Peeks host host' b s)
    (hargs : opcode f.i = some .getarg → (getBx f.i).toInt < f.argc.toInt →
      Option.Rel TValue.Alike argv[f.args + (getBx f.i).toNat]? argv'[f.args + (getBx f.i).toNat]?)
    (ho : opcode f.i = some o) (hrk : o.rkFields = []) :
    Agrees Shared.Alike Action.Alike (exec host b f argv s)
      (exec host' b' { f with stack } argv' t) := by
  have hconst : ∀ j ∈ constants f.i, Option.Rel TValue.Alike b.k[j]? b'.k[j]? :=
    fun j hj => constant_alike hb hpeek hj
  simp only [constants, ho] at hconst
  cases o with
  | getglobal =>
    exact access_agrees hb hs hreads .get .globals ho (hconst _ (by simp))
  | setglobal =>
    exact access_agrees hb hs hreads .set .globals ho (hconst _ (by simp))
  | getlocal =>
    exact access_agrees hb hs hreads .get .locals ho (hconst _ (by simp))
  | setlocal =>
    exact access_agrees hb hs hreads .set .locals ho (hconst _ (by simp))
  | nop | jmp =>
    refine agrees_bind_get ?_
    simp only [ho]
    exact agrees_pure (.go _) hs
  | move =>
    have hregister := hreads (getB f.i).toNat (by simp [readRegisters, ho])
    refine agrees_bind_get ?_
    simp only [ho]
    exact (agrees_found hregister hs).bind (fun v w _ _ hv hs => agrees_pure (.store hv) hs)
  | loadk =>
    refine agrees_bind_get ?_
    simp only [ho]
    exact (agrees_found (hconst _ (by simp)) hs).bind
      (fun v w _ _ hv hs => agrees_pure (.store hv) hs)
  | loadbool =>
    refine agrees_bind_get ?_
    simp only [ho]
    exact agrees_pure (.store (boolean_alike _ _ _)) hs
  | loadnull =>
    refine agrees_bind_get ?_
    simp only [ho]
    exact agrees_pure (.store (null_alike _ _)) hs
  | getarg => exact getarg_agrees hs ho (hargs ho)
  | getexternal => exact getexternal_agrees hh hs ho (hconst _ (by simp))
  | call => exact call_agrees hs hreads hpeek ho
  | closure =>
    refine agrees_bind_get ?_
    simp only [ho]
    exact closure_agrees hh hb hs
  | _ => exact absurd hrk (List.cons_ne_nil _ _)

lemma exec_agrees (hpeek : ¬ f.Peeks host host' b s)
    (hargs : opcode f.i = some .getarg → (getBx f.i).toInt < f.argc.toInt →
      Option.Rel TValue.Alike argv[f.args + (getBx f.i).toNat]? argv'[f.args + (getBx f.i).toNat]?)
    (hgarbage : host'.garbage = host.garbage ∨ ¬ f.Mistyped b) :
    Agrees Shared.Alike Action.Alike (exec host b f argv s)
      (exec host' b' { f with stack } argv' t) := by
  cases ho : opcode f.i with
  | none =>
    refine agrees_bind_get ?_
    simp only [ho]
    exact (agrees_print _ hs).bind (fun _ _ _ _ _ hs => agrees_pure (.leave (none_alike _ _)) hs)
  | some o =>
    by_cases hrk : o.rkFields = []
    · exact exec_plain_agrees hh hb hs hreads hpeek hargs ho hrk
    rw [exec_operate ho hrk, exec_operate (f := { f with stack }) ho hrk, hs.clock, hh.arithmetic]
    have hoperands := operands_alike ho hrk hb hreads hpeek
    refine (agrees_found hoperands hs).bind_of (fun vs vs' s₁ t₁ hx hvs hs₁ => ?_)
    obtain ⟨hmem, rfl⟩ := found_eq_ok.mp hx
    refine operate_agrees hrk hvs (Frame.operands_length hmem) hs₁ ?_ ?_ ?_
    · rintro rfl v rfl htt
      exact hpeek (.inr (.inl ⟨ho, v, hmem, htt⟩))
    · rintro rfl v w rfl htt
      exact hpeek (.inr (.inr (.inl ⟨ho, v, w, hmem, htt⟩)))
    · refine hgarbage.imp (fun h => congrFun h _) (fun hmistyped hnumeric v hv => ?_)
      by_contra htt
      exact hmistyped ⟨o, hnumeric, ho, vs, hmem, v, hv, htt⟩

end Functions

end Bijou
