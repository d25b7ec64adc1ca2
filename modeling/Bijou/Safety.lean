import Bijou.Library.Postconditions
import Bijou.Calls
import Bijou.Operators
import Bijou.Registers

/-! Bytecode that can be checked before it is run: every word names registers, constants, functions
and places of the code that are there. A run of checked bytecode reads and writes no memory but its
own. -/

namespace Bijou

open CString Postconditions Runs

variable {host : Host} {prog b : Block} {f g : Frame} {s s' : Shared} {argv : List TValue}
  {callers : List Frame} {c d : Config} {o : OpCode} {v : TValue}

section Check

def constants (i : Inst) : List ℕ :=
  match opcode i with
  | none => []
  | some .loadk | some .getglobal | some .setglobal | some .getlocal | some .setlocal =>
    [(getBx i).toNat]
  | some .getexternal => [(getB i).toNat]
  | some o => ((o.rkFields.map (fun g => g.get i)).filter constantBit).map plainIndex

def Block.HasFunction (b : Block) (x : BitVec 32) : Prop :=
  if constantBit x then plainIndex x < internalFunctions.length else plainIndex x < b.children.length

instance (b : Block) (x : BitVec 32) : Decidable (b.HasFunction x) :=
  inferInstanceAs (Decidable (if constantBit x then plainIndex x < internalFunctions.length
    else plainIndex x < b.children.length))

structure Block.Checked (b : Block) : Prop where
  code : b.code ≠ []
  targets : ∀ p ∈ b.code.zipIdx, ∀ d ∈ distances p.1,
    0 ≤ (p.2 : ℤ) + d + 1 ∧ (p.2 : ℤ) + d + 1 < b.code.length
  registers : ∀ i ∈ b.code, ∀ r ∈ registers i, r < b.regc.toNat
  constants : ∀ i ∈ b.code, ∀ j ∈ constants i, j < b.k.length
  functions : ∀ i ∈ b.code, opcode i = some .closure → b.HasFunction (getBx i)
  k : ∀ v ∈ b.k, v.Live ∧ v.tt ≠ .function
  locals : ∀ v ∈ b.locals, v.Live ∧ v.tt ≠ .function

def Block.check (b : Block) : Bool :=
  !b.code.isEmpty &&
  (b.code.zipIdx.map (fun p => (distances p.1).map (fun d => (p.2 : ℤ) + d + 1))).all
    (fun l => l.all (fun pc => decide (0 ≤ pc ∧ pc < b.code.length))) &&
  (b.code.map registers).all (fun l => l.all (fun r => decide (r < b.regc.toNat))) &&
  (b.code.map constants).all (fun l => l.all (fun j => decide (j < b.k.length))) &&
  (b.code.map (fun i => decide (opcode i = some .closure → b.HasFunction (getBx i)))).all id &&
  (b.k ++ b.locals).all (fun v =>
    decide ((v.tt = .string → v.value.s.ptr.addr ≠ 0) ∧ v.tt ≠ .function))

lemma Block.check_iff : b.check = true ↔ b.Checked := by
  simp only [check, Bool.and_eq_true, List.all_eq_true, List.forall_mem_map, decide_eq_true_eq,
    List.forall_mem_append, id, Bool.not_eq_true', List.isEmpty_eq_false_iff, and_assoc]
  constructor
  · rintro ⟨hcode, htargets, hregisters, hconstants, hfunctions, hk, hlocals⟩
    exact ⟨hcode, htargets, hregisters, hconstants, hfunctions, hk, hlocals⟩
  · rintro ⟨hcode, htargets, hregisters, hconstants, hfunctions, hk, hlocals⟩
    exact ⟨hcode, htargets, hregisters, hconstants, hfunctions, hk, hlocals⟩

inductive Block.Verified : Block → Prop
  | mk {b : Block} (checked : b.Checked) (children : ∀ c ∈ b.children, Block.Verified c) :
    Block.Verified b

lemma Block.Verified.find {path : Path} (h : prog.Verified) (hb : prog.find path = some b) :
    b.Checked := by
  induction path generalizing prog with
  | nil =>
    cases hb
    obtain ⟨hchecked, -⟩ := h
    exact hchecked
  | cons i path ih =>
    obtain ⟨child, hi, hrest⟩ := Option.bind_eq_some_iff.mp hb
    obtain ⟨-, hchildren⟩ := h
    exact ih (hchildren child (List.mem_of_getElem? hi)) hrest

end Check

section Values

abbrev Heap := List (BitVec 64 × BijouFunction)

variable {heap heap' : Heap}

structure TValue.Valid (heap : Heap) (v : TValue) : Prop where
  live : v.Live
  function : v.tt = .function → ∃ func, heap.lookup v.value.lo = some func

lemma TValue.valid_of_tag {t : Tag} (htag : v.tt = t) (ht : t ≠ .string ∧ t ≠ .function) :
    v.Valid heap :=
  ⟨fun h => absurd (htag.symm.trans h) ht.1, fun h => absurd (htag.symm.trans h) ht.2⟩

def Heap.Extends (heap heap' : Heap) : Prop :=
  ∀ a func, heap.lookup a = some func → ∃ func', heap'.lookup a = some func'

lemma Heap.Extends.refl (heap : Heap) : heap.Extends heap := fun _ func h => ⟨func, h⟩

lemma Heap.extends_cons (heap : Heap) (a : BitVec 64) (func : BijouFunction) :
    heap.Extends ((a, func) :: heap) := by
  intro a' func' h
  rw [List.lookup_cons]
  cases a' == a with
  | true => exact ⟨func, rfl⟩
  | false => exact ⟨func', h⟩

lemma Heap.lookup_self (a : BitVec 64) (func : BijouFunction) :
    List.lookup a ((a, func) :: heap) = some func := by
  rw [List.lookup_cons, beq_self_eq_true]

lemma TValue.Valid.extends (h : v.Valid heap) (hheap : heap.Extends heap') : v.Valid heap' :=
  ⟨h.live, fun htt => (h.function htt).elim (fun func hf => hheap _ func hf)⟩

def Action.Valid (prog : Block) (heap : Heap) : Action → Prop
  | .store v => v.Valid heap
  | .go _ => True
  | .leave v => v.Valid heap
  | .enter path _ _ => ∃ b, prog.find path = some b

end Values

section Invariant

/-- What the frames share: only values that can be used, and functions that can be called. -/
structure Shared.Sound (prog : Block) (s : Shared) : Prop where
  globals : ∀ v ∈ s.vm.globals, v.Valid s.heap
  locals : ∀ path, ∀ v ∈ s.locals path, v.Valid s.heap
  count : s.vm.functions.length = internalFunctions.length
  functions : ∀ a ∈ s.vm.functions, ∃ func, s.heap.lookup a = some func
  natives : ∀ p ∈ s.heap, p.2.internal ≠ 0 → ∃ native, p.2.func = some native
  built : s.Built prog

/-- Memory that was never written holds no functions and no null strings, and a native function gives
back neither a null string nor a function that it was not given. -/
structure Host.Honest (host : Host) : Prop where
  stack : ∀ t j, (host.stack t j).Live ∧ (host.stack t j).tt ≠ .function
  native : ∀ native t vm path args v, host.call native t vm path args = some v →
    v.Live ∧ (v.tt = .function → v ∈ args)

structure Frame.Sound (prog : Block) (heap : Heap) (f : Frame) : Prop where
  start : f.start = 0
  word : ∃ b, prog.find f.path = some b ∧ f.stack.length = b.regc.toNat ∧
    ∃ j : ℕ, f.pc = j ∧ b.code[j]? = some f.i
  stack : ∀ v ∈ f.stack, v.Valid heap

def Linked (argv : List TValue) : List Frame → Prop
  | [] => True
  | f :: callers => f.args + f.argc.toNat ≤ (window argv callers).length ∧ Linked argv callers

structure Control.Sound (prog : Block) (argv : List TValue) (heap : Heap) (control : Control) :
    Prop where
  frames : ∀ f ∈ control.frames, f.Sound prog heap
  waiting : ∀ f ∈ control.waiting, opcode f.i = some .call
  linked : Linked argv control.frames
  argv : ∀ v ∈ argv, v.Valid heap
  value : ∀ v callers, control = .ret v callers → v.Valid heap

structure Config.Sound (prog : Block) (c : Config) : Prop where
  shared : c.shared.Sound prog
  control : c.control.Sound prog c.argv c.shared.heap

def Frame.Calls (f : Frame) (s : Shared) (native : Native) : Prop :=
  ∃ v func, f.stack[(getB f.i).toNat]? = some v ∧ v.tt = .function ∧
    s.heap.lookup v.value.lo = some func ∧ func.internal ≠ 0 ∧ func.func = some native

/-- REM traps on a quotient that does not exist or does not fit, GETEXTERNAL can write behind the memory
that it has for a name, and a native function may crash. -/
def Frame.Traps (host : Host) (b : Block) (f : Frame) (s : Shared) : Prop :=
  (opcode f.i = some .rem ∧ ∃ x y, f.operands b .rem = some [x, y] ∧ x.tt = .number ∧
    y.tt = .number ∧ TValue.remainder (x.value.n.toInt 64) (y.value.n.toInt 64) = none) ∨
  (opcode f.i = some .getexternal ∧ ∃ v, b.k[(getB f.i).toNat]? = some v ∧
    ¬ host.allocator.Spare (5 + v.value.s.ptr.text.chars.length)) ∨
  (opcode f.i = some .call ∧ ∃ native, f.Calls s native ∧ host.call native s.clock s.vm f.path
    ((f.stack.drop ((getB f.i).toNat + 1)).take (getC f.i).toNat) = none)

end Invariant

section Operands

variable {E : Halt → Prop} {heap : Heap}

lemma mapM_some {α β : Type} {F : α → Option β} {P : β → Prop} {l : List α}
    (h : ∀ a ∈ l, ∃ v, F a = some v ∧ P v) : ∃ vs, l.mapM F = some vs ∧ ∀ v ∈ vs, P v := by
  induction l with
  | nil => exact ⟨[], rfl, nofun⟩
  | cons a l ih =>
    obtain ⟨v, hv, hP⟩ := h a List.mem_cons_self
    obtain ⟨vs, hvs, hPs⟩ := ih (fun a ha => h a (List.mem_cons_of_mem _ ha))
    refine ⟨v :: vs, ?_, List.forall_mem_cons.mpr ⟨hP, hPs⟩⟩
    simp [List.mapM_cons, hv, hvs]

lemma plainIndex_mem_constants {i : Inst} {g : Field} (ho : opcode i = some o) (hrk : o.rkFields ≠ [])
    (hg : g ∈ o.rkFields) (hbit : constantBit (g.get i) = true) :
    plainIndex (g.get i) ∈ constants i := by
  have hfield : plainIndex (g.get i) ∈
      ((o.rkFields.map (fun g => g.get i)).filter constantBit).map plainIndex :=
    List.mem_map_of_mem (List.mem_filter.mpr ⟨List.mem_map_of_mem hg, hbit⟩)
  rw [constants, ho]
  cases o with
  | add | sub | mul | div | pow | rem | unm | not | eq | lt | gt | le | ge | «return» => exact hfield
  | _ => exact absurd rfl hrk

lemma Frame.operands_valid (ho : opcode f.i = some o) (hrk : o.rkFields ≠ [])
    (hregisters : ∀ r ∈ registers f.i, r < f.stack.length)
    (hconstants : ∀ j ∈ constants f.i, j < b.k.length)
    (hstack : ∀ v ∈ f.stack, v.Valid heap) (hk : ∀ v ∈ b.k, v.Valid heap) :
    ∃ vs, f.operands b o = some vs ∧ ∀ v ∈ vs, v.Valid heap := by
  refine mapM_some (fun g hg => ?_)
  rw [selectedRK]
  split_ifs with hbit
  · have hmem := plainIndex_mem_constants ho hrk hg hbit
    have hlt := hconstants _ hmem
    exact ⟨_, List.getElem?_eq_getElem hlt, hk _ (List.getElem_mem hlt)⟩
  · have hplain : plainIndex (g.get f.i) = (g.get f.i).toNat := if_neg hbit
    have hmem : (g.get f.i).toNat ∈ registers f.i := by
      have hreg : (g.get f.i).toNat ∈ rkRegister (g.get f.i) := by
        rw [rkRegister, isK_eq_constantBit, if_neg hbit]
        exact List.mem_singleton_self _
      rw [registers, ho]
      cases o with
      | add | sub | mul | div | pow | rem =>
        rcases List.mem_cons.mp hg with rfl | hg
        · exact List.mem_cons_of_mem _ (List.mem_append_left _ hreg)
        · obtain rfl := List.mem_singleton.mp hg
          exact List.mem_cons_of_mem _ (List.mem_append_right _ hreg)
      | unm | not =>
        obtain rfl := List.mem_singleton.mp hg
        exact List.mem_cons_of_mem _ hreg
      | eq | lt | gt | le | ge =>
        rcases List.mem_cons.mp hg with rfl | hg
        · exact List.mem_cons_self
        · obtain rfl := List.mem_singleton.mp hg
          exact List.mem_cons_of_mem _ hreg
      | «return» =>
        obtain rfl := List.mem_singleton.mp hg
        exact List.mem_cons_self
      | _ => exact absurd rfl hrk
    have hlt := hregisters _ hmem
    rw [hplain]
    exact ⟨_, List.getElem?_eq_getElem hlt, hstack _ (List.getElem_mem hlt)⟩

variable {Q : Action → Shared → Prop}

lemma meets_found {α : Type} {P : α → Shared → Prop} {p : Option α} (h : ∃ a, p = some a ∧ P a s) :
    Meets E P (found p) s := by
  obtain ⟨a, rfl, ha⟩ := h
  exact ha

lemma meets_report (messages : List Message) {P : Unit → Shared → Prop} (h : P () (s.report messages)) :
    Meets E P (print messages) s := h

lemma meets_calculate {r : Option (TValue × List Message)}
    (h : ∃ p, r = some p ∧ (p.1.tt = .none ∨ p.1.tt = .number)) :
    Meets E (fun a s' => a.Valid prog heap ∧ s'.heap = s.heap) (calculate r) s := by
  obtain ⟨⟨t, messages⟩, rfl, htt⟩ := h
  refine meets_bind (meets_found ⟨_, rfl, meets_bind (meets_report _ (meets_pure ?_))⟩)
  refine ⟨?_, rfl⟩
  split_ifs with hnone
  · trivial
  · have hnumber := htt.resolve_left hnone
    exact TValue.valid_of_tag hnumber (by decide)

lemma meets_skip {r : Option (TValue × List Message)} (h : ∃ p, r = some p) :
    Meets E (fun a s' => a.Valid prog heap ∧ s'.heap = s.heap) (skip r) s := by
  obtain ⟨⟨t, messages⟩, rfl⟩ := h
  exact meets_bind (meets_found ⟨_, rfl, meets_bind (meets_report _ (meets_pure ⟨trivial, rfl⟩))⟩)

lemma arith_some (op : String) (garbage : Value) (h : LongDouble → LongDouble → LongDouble)
    (x y : TValue) : ∃ p, TValue.arith op garbage h x y = some p ∧ (p.1.tt = .none ∨ p.1.tt = .number) := by
  rw [TValue.arith, TValue.binary]
  split_ifs
  · exact ⟨_, rfl, .inl rfl⟩
  · exact ⟨_, rfl, .inr rfl⟩

lemma compare_some (op : String) (garbage : Value) (h : LongDouble → LongDouble → Bool)
    (x y : TValue) : ∃ p, TValue.compare op garbage h x y = some p := by
  rw [TValue.compare, TValue.binary]
  split_ifs
  · exact ⟨_, rfl⟩
  · exact ⟨_, rfl⟩

lemma numRem_some {garbage : Value} {x y : TValue}
    (h : ¬ (x.tt = .number ∧ y.tt = .number ∧
      TValue.remainder (x.value.n.toInt 64) (y.value.n.toInt 64) = none)) :
    ∃ p, TValue.numRem garbage x y = some p ∧ (p.1.tt = .none ∨ p.1.tt = .number) := by
  by_cases hbad : x.tt ≠ .number ∨ y.tt ≠ .number
  · exact ⟨_, rem_type_error hbad, .inl rfl⟩
  · push Not at hbad
    obtain ⟨r, hr⟩ := Option.ne_none_iff_exists'.mp (fun hnone => h ⟨hbad.1, hbad.2, hnone⟩)
    rw [numRem_eq hbad.1 hbad.2, hr]
    exact ⟨_, rfl, .inr rfl⟩

lemma meets_operate {a : Arithmetic} {garbage : Value} {vs : List TValue} (hrk : o.rkFields ≠ [])
    (hvs : f.operands b o = some vs) (hvalid : ∀ v ∈ vs, v.Valid heap)
    (htrap : o = .rem → (∃ x y, vs = [x, y] ∧ x.tt = .number ∧ y.tt = .number ∧
      TValue.remainder (x.value.n.toInt 64) (y.value.n.toInt 64) = none) → E .fault) :
    Meets E (fun a s' => a.Valid prog heap ∧ s'.heap = s.heap) (o.operate a garbage vs) s := by
  have hlen := Frame.operands_length hvs
  have hone : o.rkFields.length = 1 → ∃ x, vs = [x] ∧ x.Valid heap := by
    intro h
    obtain ⟨x, rfl⟩ := List.length_eq_one_iff.mp (hlen.trans h)
    exact ⟨x, rfl, hvalid x List.mem_cons_self⟩
  have htwo : o.rkFields.length = 2 → ∃ x y, vs = [x, y] ∧ x.Valid heap ∧ y.Valid heap := by
    intro h
    obtain ⟨x, y, rfl⟩ := List.length_eq_two.mp (hlen.trans h)
    exact ⟨x, y, rfl, hvalid x (by simp), hvalid y (by simp)⟩
  cases o with
  | add | sub | mul | div | pow =>
    obtain ⟨x, y, rfl, -, -⟩ := htwo rfl
    exact meets_calculate (arith_some _ _ _ _ _)
  | rem =>
    obtain ⟨x, y, rfl, -, -⟩ := htwo rfl
    by_cases hbad : x.tt = .number ∧ y.tt = .number ∧
        TValue.remainder (x.value.n.toInt 64) (y.value.n.toInt 64) = none
    · have hrem : TValue.numRem garbage x y = none := by
        rw [numRem_eq hbad.1 hbad.2.1, hbad.2.2]
        rfl
      rw [OpCode.operate, hrem]
      exact htrap rfl ⟨x, y, rfl, hbad⟩
    · exact meets_calculate (numRem_some hbad)
  | unm =>
    obtain ⟨x, rfl, -⟩ := hone rfl
    refine meets_calculate ⟨_, rfl, ?_⟩
    rw [TValue.numUnm]
    split_ifs with h
    · exact .inl rfl
    · exact .inr (not_not.mp h)
  | not =>
    obtain ⟨x, rfl, -⟩ := hone rfl
    exact meets_pure ⟨TValue.valid_of_tag (t := .boolean) rfl (by decide), rfl⟩
  | eq =>
    obtain ⟨x, y, rfl, hx, hy⟩ := htwo rfl
    exact meets_bind (meets_found ⟨_, TValue.equal_live hx.live hy.live, meets_pure ⟨trivial, rfl⟩⟩)
  | lt | gt | le | ge =>
    obtain ⟨x, y, rfl, -, -⟩ := htwo rfl
    exact meets_skip (compare_some _ _ _ _ _)
  | «return» =>
    obtain ⟨x, rfl, hx⟩ := hone rfl
    exact meets_pure ⟨hx, rfl⟩
  | _ => exact absurd rfl hrk

end Operands

section Words

variable {E : Halt → Prop}

def Excused (host : Host) (b : Block) (f : Frame) (s : Shared) (e : Halt) : Prop :=
  e = .fault → f.Traps host b s

lemma excused_exit {status : ℕ} {m : Message} : Excused host b f s (.exit status m) := nofun

lemma meets_variableIndex {op : String} {limit count : ℕ} (hk : (getBx f.i).toNat < b.k.length) :
    Meets E (fun r s' => s'.heap = s.heap ∧ ∀ n, r = some n → n < count)
      (variableIndex b f op limit count) s := by
  have hnone : ∀ n, (none : Option ℕ) = some n → n < count := by
    rintro n ⟨⟩
  rw [variableIndex]
  split_ifs
  · exact meets_bind (meets_report _ (meets_pure ⟨rfl, hnone⟩))
  · refine meets_bind (meets_found ⟨_, List.getElem?_eq_getElem hk, ?_⟩)
    dsimp only
    split_ifs with htt hcount
    · exact meets_bind (meets_report _ (meets_pure ⟨rfl, hnone⟩))
    · exact meets_bind (meets_report _ (meets_pure ⟨rfl, hnone⟩))
    · refine meets_pure ⟨rfl, ?_⟩
      rintro _ ⟨⟩
      omega

lemma meets_variable {op : String} {limit count : ℕ} {g : Option ℕ → Exec Action} {Q : Action → Shared → Prop}
    (hk : (getBx f.i).toNat < b.k.length) (hnone : ∀ s₁, s₁.heap = s.heap → Meets E Q (g none) s₁)
    (hsome : ∀ n s₁, n < count → s₁.heap = s.heap → Meets E Q (g (some n)) s₁) :
    Meets E Q (variableIndex b f op limit count >>= g) s := by
  refine (meets_variableIndex hk).bind (fun r s₁ hr => ?_)
  cases r with
  | none => exact hnone s₁ hr.1
  | some n => exact hsome n s₁ (hr.2 n rfl) hr.1

lemma argument_lt (hargs : f.args + f.argc.toNat ≤ argv.length) (h : ¬ f.argc.toInt ≤ (getBx f.i).toInt) :
    f.args + (getBx f.i).toNat < argv.length := by
  have hcond := BitVec.toInt_eq_toNat_cond f.argc
  have hlow := f.argc.isLt
  rw [getBx_toInt] at h
  split at hcond <;> omega

lemma findExternal_ends {a : Allocator} {name : List Byte} {libs : List (Option Library)} {error : Option CStr}
    {e : Halt} (h : findExternal a name libs error = .error e) :
    (∃ status m, e = .exit status m) ∨ e = .fault ∧ ¬ a.Spare (5 + name.length) := by
  induction libs generalizing error with
  | nil => cases h
  | cons lib libs ih =>
    cases lib with
    | none =>
      cases h
      exact .inl ⟨_, _, rfl⟩
    | some lib =>
      rw [findExternal] at h
      by_cases hroom : a.Spare (5 + name.length)
      · simp only [if_neg (not_not.mpr hroom)] at h
        cases hf : lib.sym (bytes "func_" ++ name) with
        | none => simp only [hf] at h; exact ih h
        | some fptr =>
          cases ha : lib.sym (bytes "args_" ++ name) with
          | none => simp only [hf, ha] at h; exact ih h
          | some args => simp only [hf, ha] at h; cases h
      · rw [if_pos hroom] at h
        cases h
        exact .inr ⟨rfl, hroom⟩

lemma meets_getExternal {tval : TValue} (hlive : tval.Live) (hE : ∀ status m, E (.exit status m))
    (hover : ¬ host.allocator.Spare (5 + tval.value.s.ptr.text.chars.length) → E .fault) :
    Meets E (fun v s' => v.tt = .function ∧ ∃ func, func.func ≠ none ∧
      s'.heap = (v.value.lo, func) :: s.heap) (getExternal host tval) s := by
  refine meets_bind (meets_get ?_)
  dsimp only
  by_cases htt : tval.tt ≠ .string
  · rw [if_pos htt]
    exact meets_bind (meets_throw (hE _ _))
  by_cases hlibs : s.vm.libs = []
  · rw [if_neg htt, if_pos hlibs]
    exact meets_bind (meets_throw (hE _ _))
  rw [if_neg htt, if_neg hlibs, if_neg (hlive (not_not.mp htt))]
  refine Meets.bind (R := fun _ s₁ => s = s₁) ?_ ?_
  · cases hf : findExternal host.allocator tval.value.s.ptr.text.chars s.vm.libs none with
    | ok r => exact rfl
    | error e =>
      obtain ⟨status, m, rfl⟩ | ⟨rfl, hroom⟩ := findExternal_ends hf
      · exact hE _ _
      · exact hover hroom
  · rintro ⟨_ | ⟨fptr, numArgs⟩, _ | error⟩ _ rfl
    · exact meets_throw (hE _ _)
    · exact meets_throw (hE _ _)
    · have hnew : newFunction host (some (.external fptr)) (host.int numArgs) tval.value.s.ptr 2 none s =
          .ok (host.malloc s.clock, { s with heap := (host.malloc s.clock,
            ⟨some (.external fptr), host.int numArgs, tval.value.s.ptr, 2, none⟩) :: s.heap }) := rfl
      exact meets_bind_ok hnew (meets_pure ⟨rfl, _, Option.some_ne_none _, rfl⟩)
    · exact meets_throw (hE _ _)

lemma meets_external (ho : opcode f.i = some .getexternal) (hk : b.k[(getB f.i).toNat]? = some v)
    (hlive : v.Live) : Meets (Excused host b f s) (fun (a : Action) s' => a.Valid prog s'.heap)
      (getExternal host v >>= fun u => pure (.store u)) s := by
  refine (meets_getExternal hlive (fun _ _ => excused_exit)
    (fun hroom _ => .inr (.inl ⟨ho, v, hk, hroom⟩))).bind (fun u s' hu => meets_pure ?_)
  obtain ⟨htt, func, -, hheap⟩ := hu
  refine ⟨fun hstring => absurd (htt.symm.trans hstring) (by decide), fun _ => ⟨func, ?_⟩⟩
  rw [hheap]
  exact Heap.lookup_self _ _

lemma meets_callFunction {func : BijouFunction} (hhost : host.Honest) (hs : s.Sound prog)
    (hstack : ∀ v ∈ f.stack, v.Valid s.heap) (hcall : opcode f.i = some .call)
    (hreg : f.stack[(getB f.i).toNat]? = some v) (htag : v.tt = .function)
    (hfunc : s.heap.lookup v.value.lo = some func) :
    Meets (Excused host b f s) (fun a s' => a.Valid prog s'.heap)
      (callFunction host f func ((getB f.i).toNat + 1) (getC f.i)) s := by
  have hmem : (v.value.lo, func) ∈ s.heap := by
    obtain ⟨l₁, l₂, hl, -⟩ := List.lookup_eq_some_iff.mp hfunc
    rw [hl]
    simp
  rw [callFunction]
  by_cases harity : func.arity ≠ -1 ∧ getC f.i ≠ func.arity
  · rw [if_pos harity]
    exact meets_bind (meets_throw excused_exit)
  rw [if_neg harity]
  dsimp only
  split_ifs with hinternal
  · refine meets_bind (meets_get ?_)
    obtain ⟨native, hnative⟩ := hs.natives _ hmem hinternal
    refine meets_bind (meets_found ⟨native, hnative, ?_⟩)
    cases hv : host.call native s.clock s.vm f.path
        ((f.stack.drop ((getB f.i).toNat + 1)).take (getC f.i).toNat) with
    | none => exact fun _ => .inr (.inr ⟨hcall, native, ⟨v, func, hreg, htag, hfunc, hinternal, hnative⟩, hv⟩)
    | some u =>
      obtain ⟨hlive, harg⟩ := hhost.native _ _ _ _ _ _ hv
      refine meets_bind (meets_found ⟨u, rfl, meets_pure ⟨hlive, fun htt => ?_⟩⟩)
      exact (hstack u (List.mem_of_mem_drop (List.mem_of_mem_take (harg htt)))).function htt
  · obtain ⟨path, blk, hblock, hfind, -⟩ := hs.built _ hmem (not_not.mp hinternal)
    exact meets_bind (meets_found ⟨path, hblock, meets_pure ⟨blk, hfind⟩⟩)

lemma meets_closure {E : Halt → Prop} (hE : ∀ status m, E (.exit status m)) (hs : s.Sound prog)
    (hfun : b.HasFunction (getBx f.i)) :
    Meets E (fun a s' => a.Valid prog s'.heap) (closure host b f) s := by
  rw [Block.HasFunction] at hfun
  rw [Meets, closure_eq]
  split_ifs
  · exact hE _ _
  · rw [selectedFunction]
    split_ifs at hfun ⊢ with hbit
    · have hlt : plainIndex (getBx f.i) < s.vm.functions.length := hs.count ▸ hfun
      rw [List.getElem?_eq_getElem hlt]
      exact ⟨fun h => Tag.noConfusion h, fun _ => hs.functions _ (List.getElem_mem hlt)⟩
    · rw [List.getElem?_eq_getElem hfun]
      exact ⟨fun h => Tag.noConfusion h, fun _ => ⟨_, Heap.lookup_self _ _⟩⟩

lemma meets_call (hhost : host.Honest) (hs : s.Sound prog) (hstack : ∀ v ∈ f.stack, v.Valid s.heap)
    (ho : opcode f.i = some .call) (hv : f.stack[(getB f.i).toNat]? = some v) (htt : v.tt = .function) :
    Meets (Excused host b f s) (fun a s' => a.Valid prog s'.heap)
      (found (s.heap.lookup v.value.lo) >>=
        fun func => callFunction host f func ((getB f.i).toNat + 1) (getC f.i)) s := by
  obtain ⟨func, hfunc⟩ := (hstack v (List.mem_of_getElem? hv)).function htt
  exact meets_bind (meets_found ⟨func, hfunc, meets_callFunction hhost hs hstack ho hv htt hfunc⟩)

lemma Block.Checked.k_valid (hcheck : b.Checked) (heap : Heap) : ∀ v ∈ b.k, v.Valid heap := fun v hv =>
  ⟨(hcheck.k v hv).1, fun htt => absurd htt (hcheck.k v hv).2⟩

lemma Frame.constant_valid (hcheck : b.Checked) (hi : f.i ∈ b.code) (heap : Heap) {x : BitVec 32}
    (hx : x.toNat ∈ constants f.i) : ∃ v, b.k[x.toNat]? = some v ∧ v.Valid heap :=
  ⟨_, List.getElem?_eq_getElem (hcheck.constants f.i hi _ hx), hcheck.k_valid heap _ (List.getElem_mem _)⟩

section Exec

variable (hlen : f.stack.length = b.regc.toNat) (hs : s.Sound prog) (hcheck : b.Checked) (hi : f.i ∈ b.code)
  (hstack : ∀ v ∈ f.stack, v.Valid s.heap)

include hlen hcheck hi hstack

lemma Frame.register_valid {x : BitVec 32} (hx : x.toNat ∈ registers f.i) :
    ∃ v, f.stack[x.toNat]? = some v ∧ v.Valid s.heap :=
  ⟨_, List.getElem?_eq_getElem (hlen ▸ hcheck.registers f.i hi _ hx), hstack _ (List.getElem_mem _)⟩

include hs

lemma exec_plain_meets (ho : opcode f.i = some o) (hrk : o.rkFields = []) (hhost : host.Honest)
    (hargs : f.args + f.argc.toNat ≤ argv.length) (hargv : ∀ v ∈ argv, v.Valid s.heap) :
    Meets (Excused host b f s) (fun a s' => a.Valid prog s'.heap) (exec host b f argv) s := by
  have hleave : (createNone (host.garbage s.clock)).Valid s.heap :=
    TValue.valid_of_tag (t := .none) rfl (by decide)
  have hreg {x : BitVec 32} (hx : x.toNat ∈ registers f.i) := Frame.register_valid hlen hcheck hi hstack hx
  have hconst {x : BitVec 32} (hx : x.toNat ∈ constants f.i) := Frame.constant_valid hcheck hi s.heap hx
  have hvariable {x : BitVec 32} (hx : x.toNat ∈ constants f.i) := hcheck.constants f.i hi _ hx
  rw [exec]
  refine meets_bind (meets_get ?_)
  simp only [ho]
  simp only [registers, ho] at hreg
  simp only [constants, ho] at hconst hvariable
  cases o with
  | nop | jmp => exact meets_pure trivial
  | move =>
    obtain ⟨v, hv, hvalid⟩ := hreg (x := getB f.i) (by simp)
    exact meets_bind (meets_found ⟨v, hv, meets_pure hvalid⟩)
  | loadk =>
    obtain ⟨v, hv, hvalid⟩ := hconst (x := getBx f.i) (by simp)
    exact meets_bind (meets_found ⟨v, hv, meets_pure hvalid⟩)
  | loadbool => exact meets_pure (TValue.valid_of_tag (t := .boolean) rfl (by decide))
  | loadnull => exact meets_pure (TValue.valid_of_tag (t := .null) rfl (by decide))
  | getglobal =>
    refine meets_variable (hvariable (by simp)) (fun s₁ h₁ => meets_pure (h₁ ▸ hleave))
      (fun n s₁ hn h₁ => meets_bind (meets_found ⟨_, List.getElem?_eq_getElem hn, meets_pure ?_⟩))
    exact h₁ ▸ hs.globals _ (List.getElem_mem hn)
  | getlocal =>
    refine meets_variable (hvariable (by simp)) (fun s₁ h₁ => meets_pure (h₁ ▸ hleave))
      (fun n s₁ hn h₁ => meets_bind (meets_found ⟨_, List.getElem?_eq_getElem hn, meets_pure ?_⟩))
    exact h₁ ▸ hs.locals _ _ (List.getElem_mem hn)
  | setglobal | setlocal =>
    obtain ⟨v, hv, -⟩ := hreg (x := getA f.i) (by simp)
    exact meets_variable (hvariable (by simp)) (fun s₁ h₁ => meets_pure (h₁ ▸ hleave))
      (fun n s₁ _ _ => meets_bind (meets_found ⟨v, hv, meets_bind (meets_modify (meets_pure trivial))⟩))
  | getarg =>
    dsimp only
    split_ifs with hle
    · exact meets_bind (meets_report _ (meets_pure hleave))
    · have hlt := argument_lt hargs hle
      exact meets_bind (meets_found ⟨_, List.getElem?_eq_getElem hlt,
        meets_pure (hargv _ (List.getElem_mem hlt))⟩)
  | getexternal =>
    obtain ⟨v, hv, hvalid⟩ := hconst (x := getB f.i) (by simp)
    exact meets_bind (meets_found ⟨v, hv, meets_external ho hv hvalid.live⟩)
  | call =>
    obtain ⟨v, hv, -⟩ := hreg (x := getB f.i) (by simp)
    refine meets_bind (meets_found ⟨v, hv, ?_⟩)
    by_cases htt : v.tt ≠ .function
    · rw [if_pos htt]
      exact meets_bind (meets_throw excused_exit)
    · rw [if_neg htt]
      exact meets_call hhost hs hstack ho hv (not_not.mp htt)
  | closure => exact meets_closure (fun _ _ => excused_exit) hs (hcheck.functions _ hi ho)
  | _ => exact absurd hrk (List.cons_ne_nil _ _)

lemma exec_meets (hhost : host.Honest) (hargs : f.args + f.argc.toNat ≤ argv.length)
    (hargv : ∀ v ∈ argv, v.Valid s.heap) :
    Meets (Excused host b f s) (fun a s' => a.Valid prog s'.heap) (exec host b f argv) s := by
  cases ho : opcode f.i with
  | none =>
    rw [exec]
    refine meets_bind (meets_get ?_)
    simp only [ho]
    exact meets_bind (meets_report _ (meets_pure (TValue.valid_of_tag (t := .none) rfl (by decide))))
  | some o =>
    by_cases hrk : o.rkFields = []
    · exact exec_plain_meets hlen hs hcheck hi hstack ho hrk hhost hargs hargv
    · obtain ⟨vs, hvs, hvalid⟩ := Frame.operands_valid ho hrk (fun r hr => hlen ▸ hcheck.registers f.i hi r hr)
        (hcheck.constants f.i hi) hstack (hcheck.k_valid s.heap)
      refine Meets.of_eq ?_ (exec_operate ho hrk)
      refine meets_bind (meets_found ⟨vs, hvs, ?_⟩)
      refine (meets_operate hrk hvs hvalid ?_).weaken (fun a s' ha => ha.2 ▸ ha.1)
      rintro rfl ⟨x, y, rfl, hx, hy, htrap⟩ -
      exact .inl ⟨ho, x, y, hvs, hx, hy, htrap⟩

end Exec

end Words

section Preservation

variable {heap heap' : Heap}

lemma exec_setlocal_valid {a : Action} (ho : opcode f.i = some .setlocal)
    (hx : exec host b f argv s = .ok (a, s')) (hs : ∀ path, ∀ v ∈ s.locals path, v.Valid s.heap)
    (hstack : ∀ v ∈ f.stack, v.Valid s.heap) :
    s'.heap = s.heap ∧ s'.vm = s.vm ∧ ∀ path, ∀ v ∈ s'.locals path, v.Valid s.heap := by
  have hop : opcode f.i = some (Access.set.op .locals) := ho
  have hexec := exec_access host b s argv hop
  rcases hg : Access.set.guard .locals b f s with _ | _ | n
  · rw [hg, hx] at hexec
    cases hexec
  · rw [hg, hx] at hexec
    obtain ⟨m, hm⟩ := hexec
    cases hm
    exact ⟨rfl, rfl, hs⟩
  · rw [hg, hx] at hexec
    obtain ⟨v, s₁, hreg, hmodify⟩ := bind_eq_ok.mp hexec.symm
    obtain ⟨hv, rfl⟩ := found_eq_ok.mp hreg
    cases hmodify
    refine ⟨rfl, rfl, fun path u hu => ?_⟩
    by_cases hpath : path = f.path
    · subst hpath
      have hu : u ∈ (s₁.locals f.path).set n v := by
        simpa [Variables.written, Variables.cells] using hu
      rcases List.mem_or_eq_of_mem_set hu with hu | rfl
      · exact hs _ u hu
      · exact hstack u (List.mem_of_getElem? hv)
    · exact hs path u (by simpa [Variables.written, hpath] using hu)

lemma exec_getexternal_native {a : Action} {func : BijouFunction} {addr : BitVec 64}
    (ho : opcode f.i = some .getexternal) (hk : ∀ v ∈ b.k, v.Live)
    (hx : exec host b f argv s = .ok (a, s')) (hheap : s'.heap = (addr, func) :: s.heap) :
    ∃ native, func.func = some native := by
  rw [exec, bind_apply_ok (get_eq_ok.mpr rfl)] at hx
  simp only [ho] at hx
  obtain ⟨tval, s₁, hconst, hget⟩ := bind_eq_ok.mp hx
  obtain ⟨hmem, rfl⟩ := found_eq_ok.mp hconst
  obtain ⟨v, s₂, hnew, hpure⟩ := bind_eq_ok.mp hget
  cases pure_eq_ok.mp hpure
  have hlive := hk tval (List.mem_of_getElem? hmem)
  obtain ⟨-, func', hfunc, hheap'⟩ :=
    (meets_getExternal (E := fun _ => True) hlive (fun _ _ => trivial) (fun _ => trivial)).of_ok hnew
  rw [hheap'] at hheap
  cases hheap
  exact Option.ne_none_iff_exists'.mp hfunc

lemma Shared.Sound.exec {a : Action} (hs : s.Sound prog) (hb : prog.find f.path = some b)
    (hk : ∀ v ∈ b.k, v.Live) (hstack : ∀ v ∈ f.stack, v.Valid s.heap) (hx : exec host b f argv s = .ok (a, s')) :
    s'.Sound prog ∧ Heap.Extends s.heap s'.heap := by
  have hbuilt := (exec_effect hx).built hb hs.built
  cases exec_effect hx with
  | print messages => exact ⟨⟨hs.globals, hs.locals, hs.count, hs.functions, hs.natives, hbuilt⟩, .refl _⟩
  | @setGlobal n v ho hg hv =>
    refine ⟨⟨fun u hu => ?_, hs.locals, hs.count, hs.functions, hs.natives, hbuilt⟩, .refl _⟩
    rcases List.mem_or_eq_of_mem_set hu with hu | rfl
    · exact hs.globals u hu
    · exact hstack u (List.mem_of_getElem? hv)
  | setLocal l ho =>
    obtain ⟨-, -, hlocals⟩ := exec_setlocal_valid ho hx hs.locals hstack
    exact ⟨⟨hs.globals, hlocals, hs.count, hs.functions, hs.natives, hbuilt⟩, .refl _⟩
  | getExternal func ho hfunc =>
    have hnative : ∃ native, func.func = some native := exec_getexternal_native ho hk hx rfl
    have hext := Heap.extends_cons s.heap (host.malloc s.clock) func
    refine ⟨⟨fun v hv => (hs.globals v hv).extends hext, fun path v hv =>
      (hs.locals path v hv).extends hext, hs.count, fun a ha => ?_, ?_, hbuilt⟩, hext⟩
    · exact (hs.functions a ha).elim (fun func' h' => hext a func' h')
    · exact List.forall_mem_cons.mpr ⟨fun _ => hnative, hs.natives⟩
  | @closure child j ho hj =>
    have hext := Heap.extends_cons s.heap (host.malloc s.clock)
      ⟨none, BitVec.ofNat 32 child.argc.toNat, child.funcname, 0, some (f.path ++ [j])⟩
    refine ⟨⟨fun v hv => (hs.globals v hv).extends hext, fun path v hv => ?_, hs.count,
      fun a ha => ?_, ?_, hbuilt⟩, hext⟩
    · by_cases hpath : path = f.path ++ [j]
      · subst hpath
        simp at hv
      · exact (hs.locals path v (by simpa [hpath] using hv)).extends hext
    · exact (hs.functions a ha).elim (fun func' h' => hext a func' h')
    · exact List.forall_mem_cons.mpr ⟨fun h => absurd rfl h, hs.natives⟩

lemma Frame.Sound.extends (h : f.Sound prog heap) (hext : heap.Extends heap') : f.Sound prog heap' :=
  ⟨h.start, h.word, fun v hv => (h.stack v hv).extends hext⟩

lemma Frame.Sound.target {distance : ℤ} (h : f.Sound prog heap) (hb : prog.find f.path = some b)
    (hcheck : b.Checked) (hd : distance ∈ distances f.i) :
    ∃ k : ℕ, f.pc + distance + 1 = k ∧ k < b.code.length := by
  obtain ⟨b', hb', -, j, hj, hi⟩ := h.word
  cases hb.symm.trans hb'
  have hmem : (f.i, j) ∈ b.code.zipIdx := List.mem_zipIdx_iff_getElem?.mpr hi
  obtain ⟨hlow, hhigh⟩ := hcheck.targets _ hmem _ hd
  rw [← hj] at hlow hhigh
  obtain ⟨k, hk⟩ := Int.eq_ofNat_of_zero_le hlow
  exact ⟨k, hk, by omega⟩

lemma Frame.Sound.dispatched (h : f.Sound prog heap) (hb : prog.find f.path = some b) :
    f.dispatched b = some f.i := by
  obtain ⟨b', hb', -, j, hj, hi⟩ := h.word
  cases hb.symm.trans hb'
  have hlt := (List.getElem?_eq_some_iff.mp hi).1
  rw [Frame.dispatched, h.start, if_pos (by omega)]

lemma Frame.Sound.mem_code (h : f.Sound prog heap) (hb : prog.find f.path = some b) :
    f.i ∈ b.code := by
  obtain ⟨b', hb', -, j, -, hi⟩ := h.word
  cases hb.symm.trans hb'
  exact List.mem_of_getElem? hi

lemma Frame.Sound.length (h : f.Sound prog heap) (hb : prog.find f.path = some b) :
    f.stack.length = b.regc.toNat := by
  obtain ⟨b', hb', hlen, -⟩ := h.word
  cases hb.symm.trans hb'
  exact hlen

lemma Frame.Sound.registers (h : f.Sound prog heap) (hprog : prog.Verified) :
    ∀ r ∈ registers f.i, r < f.stack.length := by
  obtain ⟨b, hb, hlen, j, -, hi⟩ := h.word
  rw [hlen]
  exact (hprog.find hb).registers f.i (List.mem_of_getElem? hi)

lemma Frame.Sound.moved {distance : ℤ} {clock : ℕ} {i : Inst} (h : f.Sound prog heap)
    (hprog : prog.Verified) (hb : prog.find f.path = some b) (hd : distance ∈ distances f.i)
    (hi : fetch host clock b f.path (f.pc + distance + 1) = some i) :
    (f.moved distance i).Sound prog heap := by
  obtain ⟨k, hk, hlt⟩ := h.target hb (hprog.find hb) hd
  rw [hk, fetch_code hlt] at hi
  exact ⟨h.start, ⟨b, hb, h.length hb, k, hk, hi⟩, h.stack⟩

lemma Frame.Sound.stored (h : f.Sound prog heap) (hv : v.Valid heap) : (f.stored v).Sound prog heap := by
  refine ⟨h.start, ?_, fun u hu => ?_⟩
  · obtain ⟨b, hb, hlen, hword⟩ := h.word
    exact ⟨b, hb, by rw [Frame.stored, List.length_set, hlen], hword⟩
  · rcases List.mem_or_eq_of_mem_set hu with hu | rfl
    · exact h.stack u hu
    · exact hv

lemma fresh_sound {path : Path} {args : ℕ} {argc : BitVec 32} {clock : ℕ} {i : Inst}
    (hhost : host.Honest) (hprog : prog.Verified) (hb : prog.find path = some b)
    (hi : fetch host clock b path 0 = some i) :
    (Frame.fresh host clock b path args argc i).Sound prog heap := by
  have hlt : 0 < b.code.length := List.length_pos_iff.mpr (hprog.find hb).code
  refine ⟨rfl, ⟨b, hb, by simp [Frame.fresh], 0, rfl, ?_⟩, fun v hv => ?_⟩
  · rw [← Nat.cast_zero, fetch_code hlt] at hi
    exact hi
  · obtain ⟨j, -, rfl⟩ := List.mem_map.mp hv
    exact ⟨(hhost.stack clock j).1, fun htt => absurd htt (hhost.stack clock j).2⟩

lemma Control.Sound.exec_meets (h : (Control.run f callers).Sound prog argv s.heap)
    (hs : s.Sound prog) (hhost : host.Honest) (hprog : prog.Verified)
    (hb : prog.find f.path = some b) :
    Meets (Excused host b f s) (fun a s' => a.Valid prog s'.heap)
      (exec host b f (window argv callers)) s := by
  have hf : f.Sound prog s.heap := h.frames f List.mem_cons_self
  refine Bijou.exec_meets (hf.length hb) hs (hprog.find hb) (hf.mem_code hb) hf.stack hhost
    h.linked.1 ?_
  cases callers with
  | nil => exact h.argv
  | cons g callers => exact (h.frames g (List.mem_cons_of_mem _ List.mem_cons_self)).stack

lemma Control.Sound.extends {control : Control} (h : control.Sound prog argv heap)
    (hext : heap.Extends heap') : control.Sound prog argv heap' :=
  ⟨fun f hf => (h.frames f hf).extends hext, h.waiting, h.linked,
    fun v hv => (h.argv v hv).extends hext, fun v callers hc => (h.value v callers hc).extends hext⟩

lemma Control.Sound.goes (h : (Control.run f callers).Sound prog argv heap) (hg : g.Sound prog heap)
    (hargs : g.args = f.args) (hargc : g.argc = f.argc) :
    (Control.run g callers).Sound prog argv heap := by
  refine ⟨List.forall_mem_cons.mpr ⟨hg, (List.forall_mem_cons.mp h.frames).2⟩, h.waiting, ?_, h.argv,
    nofun⟩
  obtain ⟨hfirst, hrest⟩ := h.linked
  exact ⟨by rw [hargs, hargc]; exact hfirst, hrest⟩

lemma Control.Sound.leaves (h : (Control.run f callers).Sound prog argv heap) (hv : v.Valid heap) :
    (Control.ret v callers).Sound prog argv heap := by
  refine ⟨(List.forall_mem_cons.mp h.frames).2, h.waiting, h.linked.2, h.argv, ?_⟩
  rintro _ _ ⟨⟩
  exact hv

lemma call_distances (ho : opcode f.i = some .call) : 0 ∈ distances f.i :=
  zero_mem_distances ho nofun nofun

lemma Control.Sound.advances {control control' : Control} (h : control.Sound prog argv s.heap)
    (hs : s.Sound prog) (hhost : host.Honest) (hprog : prog.Verified)
    (hadv : Advances host prog s argv control control' s') :
    s'.Sound prog ∧ control'.Sound prog argv s'.heap := by
  have hexec : ∀ {f callers b a s₁}, (Control.run f callers).Sound prog argv s.heap →
      prog.find f.path = some b → exec host b f (window argv callers) s = .ok (a, s₁) →
      s₁.Sound prog ∧ (Control.run f callers).Sound prog argv s₁.heap ∧ a.Valid prog s₁.heap := by
    intro f callers b a s₁ h hb hx
    have hk : ∀ v ∈ b.k, v.Live := fun v hv => ((hprog.find hb).k v hv).1
    obtain ⟨hsound, hext⟩ := hs.exec hb hk (h.frames f List.mem_cons_self).stack hx
    exact ⟨hsound, h.extends hext, (h.exec_meets hs hhost hprog hb).of_ok hx⟩
  cases hadv with
  | @back v f callers b i hb ha hi =>
    have hf := h.frames f List.mem_cons_self
    have hv := h.value v (f :: callers) rfl
    have hd := call_distances (h.waiting f List.mem_cons_self)
    have hrun : (Control.run f callers).Sound prog argv s.heap :=
      ⟨h.frames, (List.forall_mem_cons.mp h.waiting).2, h.linked, h.argv,
        fun _ _ hc => Control.noConfusion hc⟩
    exact ⟨hs, hrun.goes ((hf.stored hv).moved hprog hb hd hi) rfl rfl⟩
  | ended hb hd => exact ⟨hs, h.leaves (TValue.valid_of_tag (t := .none) rfl (by decide))⟩
  | store hb hd hx ha hi =>
    obtain ⟨hsound, hrun, hv⟩ := hexec h hb hx
    have hf := hrun.frames _ List.mem_cons_self
    exact ⟨hsound, hrun.goes ((hf.stored hv).moved hprog hb (exec_within _ _ _ hx) hi) rfl rfl⟩
  | go hb hd hx hi =>
    obtain ⟨hsound, hrun, -⟩ := hexec h hb hx
    have hf := hrun.frames _ List.mem_cons_self
    exact ⟨hsound, hrun.goes (hf.moved hprog hb (exec_within _ _ _ hx) hi) rfl rfl⟩
  | leave hb hd hx =>
    obtain ⟨hsound, hrun, hv⟩ := hexec h hb hx
    exact ⟨hsound, hrun.leaves hv⟩
  | @enter f callers b callee path args argc s₁ i hb hd hx hcallee hi =>
    obtain ⟨hsound, hrun, -⟩ := hexec h hb hx
    obtain ⟨ho, rfl, rfl⟩ := exec_enter hx
    have hlast : (getB f.i).toNat + (getC f.i).toNat ∈ registers f.i := by
      simp only [registers, ho]
      exact List.mem_cons_of_mem _ (List.mem_range'_1.mpr ⟨by omega, by omega⟩)
    have hlt := (hrun.frames f List.mem_cons_self).registers hprog _ hlast
    refine ⟨hsound, List.forall_mem_cons.mpr ⟨fresh_sound hhost hprog hcallee hi, hrun.frames⟩,
      List.forall_mem_cons.mpr ⟨ho, hrun.waiting⟩, ⟨?_, hrun.linked⟩, hrun.argv,
      fun _ _ hc => Control.noConfusion hc⟩
    change (getB f.i).toNat + 1 + (getC f.i).toNat ≤ f.stack.length
    omega

lemma Config.Sound.step (h : c.Sound prog) (hhost : host.Honest) (hprog : prog.Verified)
    (hstep : c.step host prog = .on d) : d.Sound prog := by
  obtain ⟨s, hadv, hshared, hargv⟩ := Config.step_cases hstep
  obtain ⟨hs, hcontrol⟩ := h.control.advances h.shared hhost hprog hadv
  refine ⟨?_, ?_⟩
  · rw [hshared]
    exact ⟨hs.globals, hs.locals, hs.count, hs.functions, hs.natives, hs.built⟩
  · rw [hshared, hargv]
    exact hcontrol

end Preservation

section Progress

def Config.Traps (host : Host) (prog : Block) (c : Config) : Prop :=
  ∃ f callers b, c.control = .run f callers ∧ prog.find f.path = some b ∧ f.Traps host b c.shared

lemma Frame.Sound.meets_next {E : Halt → Prop} {heap : Heap} {distance : ℤ} (h : f.Sound prog heap)
    (hprog : prog.Verified) (hb : prog.find f.path = some b) (hd : distance ∈ distances f.i)
    (hg : g.path = f.path ∧ g.pc = f.pc) : Meets E (fun _ _ => True) (g.next host b distance) s := by
  obtain ⟨k, hk, hlt⟩ := h.target hb (hprog.find hb) hd
  refine meets_bind (meets_get (meets_bind (meets_found ?_)))
  refine ⟨b.code[k], ?_, meets_pure trivial⟩
  rw [hg.1, hg.2, hk, fetch_code hlt, List.getElem?_eq_getElem hlt]

lemma Frame.meets_setA {E : Halt → Prop} (ha : (getA f.i).toNat < f.stack.length) :
    Meets E (fun g _ => g.path = f.path ∧ g.pc = f.pc) (f.setA v) s :=
  meets_iff.mpr ⟨fun g s' hx => by
    obtain ⟨-, rfl, -⟩ := Frame.setA_stored hx
    exact ⟨rfl, rfl⟩, fun e hx => by
    rw [Frame.setA_of_lt ha] at hx
    cases hx⟩

lemma Control.Sound.meets_advance {control : Control} (h : control.Sound prog argv s.heap)
    (hs : s.Sound prog) (hhost : host.Honest) (hprog : prog.Verified) :
    Meets (fun e => e = .fault → ∃ f callers b, control = .run f callers ∧
      prog.find f.path = some b ∧ f.Traps host b s) (fun _ _ => True)
      (advance host prog argv control) s := by
  cases control with
  | ret v callers =>
    cases callers with
    | nil => exact meets_pure trivial
    | cons f callers =>
      have hf := h.frames f List.mem_cons_self
      have ho := h.waiting f List.mem_cons_self
      obtain ⟨b, hb, -⟩ := hf.word
      refine meets_bind (meets_found ⟨b, hb, ?_⟩)
      have ha := hf.registers hprog _ (getA_mem_registers ho nofun nofun)
      refine (Frame.meets_setA ha).bind (fun g s₁ hg => ?_)
      exact (hf.meets_next hprog hb (call_distances ho) hg).bind (fun _ _ _ => meets_pure trivial)
  | run f callers =>
    have hf := h.frames f List.mem_cons_self
    obtain ⟨b, hb, -⟩ := hf.word
    refine meets_bind (meets_found ⟨b, hb, ?_⟩)
    have hword := hf.dispatched hb
    generalize f.dispatched b = w at hword ⊢
    subst hword
    dsimp only
    have hexec := (h.exec_meets hs hhost hprog hb).and
      (R := fun a _ => a.Within (distances f.i) ∧
        ∀ v, a = .store v → (getA f.i).toNat ∈ registers f.i)
      (fun a s' hx => ⟨exec_within _ _ _ hx, fun v hv => exec_stores (hv ▸ hx)⟩)
    refine Meets.bind (hexec.throws fun e he hfault => ⟨f, callers, b, rfl, hb, he hfault⟩)
      (fun a s₁ ha => ?_)
    obtain ⟨hvalid, hwithin, hstore⟩ := ha
    cases a with
    | store v =>
      refine (Frame.meets_setA (hf.registers hprog _ (hstore v rfl))).bind (fun g s₂ hg => ?_)
      exact (hf.meets_next hprog hb hwithin hg).bind (fun _ _ _ => meets_pure trivial)
    | go distance =>
      exact (hf.meets_next hprog hb hwithin ⟨rfl, rfl⟩).bind (fun _ _ _ => meets_pure trivial)
    | leave v => exact meets_pure trivial
    | enter path args argc =>
      obtain ⟨callee, hcallee⟩ := hvalid
      have hlt : 0 < callee.code.length := List.length_pos_iff.mpr (hprog.find hcallee).code
      have hi : fetch host s₁.clock callee path 0 = some callee.code[0] := by
        rw [← Nat.cast_zero, fetch_code hlt, List.getElem?_eq_getElem hlt]
      exact meets_bind (meets_bind (meets_get (meets_bind (meets_found ⟨callee, hcallee,
        meets_bind (meets_found ⟨_, hi, meets_pure (meets_pure trivial)⟩)⟩))))

lemma Config.Sound.traps (h : c.Sound prog) (hhost : host.Honest) (hprog : prog.Verified)
    (hfault : c.step host prog = .halt .fault) : c.Traps host prog := by
  have hmeets := h.control.meets_advance h.shared hhost hprog
  rw [Config.step] at hfault
  split at hfault
  · cases hfault
  · split at hfault
    · cases hfault
    · next hadv =>
      cases hfault
      exact hmeets.of_error hadv rfl

end Progress

section Start

def Shared.loaded (host : Host) (prog : Block) (libs : List (Option Library)) (numglobal : ℕ) :
    Shared :=
  { Shared.new host prog libs with vm := BijouVM.new host numglobal libs }

variable {libs : List (Option Library)} {n : ℕ}

lemma lookup_mapIdx {α β : Type} {F : ℕ → α → β} {key : ℕ → BitVec 64} {l : List α} {j : ℕ}
    (hj : j < l.length) : ∃ func, (l.mapIdx (fun i a => (key i, F i a))).lookup (key j) = some func := by
  refine Option.ne_none_iff_exists'.mp (fun hnone => ?_)
  rw [List.lookup_eq_none_iff] at hnone
  have hmem : (key j, F j l[j]) ∈ l.mapIdx (fun i a => (key i, F i a)) :=
    List.mem_mapIdx.mpr ⟨j, hj, rfl⟩
  exact absurd (hnone _ hmem) (by simp)

lemma loaded_sound (hhost : host.Honest) (hprog : prog.Verified) :
    (Shared.loaded host prog libs n).Sound prog := by
  refine ⟨fun v hv => ?_, fun path v hv => ?_, ?_, fun a ha => ?_, fun p hp _ => ?_,
    fun p hp h0 => absurd h0 (@Shared.new_heap host prog libs p hp)⟩
  · obtain ⟨j, -, rfl⟩ := List.mem_map.mp hv
    exact ⟨(hhost.stack 0 j).1, fun htt => absurd htt (hhost.stack 0 j).2⟩
  · change v ∈ ((prog.find path).map Block.locals).getD [] at hv
    cases hb : prog.find path with
    | none =>
      rw [hb] at hv
      cases hv
    | some b =>
      rw [hb] at hv
      have hlocal := (hprog.find hb).locals v hv
      exact ⟨hlocal.1, fun htt => absurd htt hlocal.2⟩
  · exact (List.length_map _).trans List.length_range
  · obtain ⟨j, hj, rfl⟩ := List.mem_map.mp ha
    exact lookup_mapIdx (List.mem_range.mp hj)
  · obtain ⟨j, hj, rfl⟩ := List.mem_mapIdx.mp hp
    exact ⟨_, rfl⟩

lemma interpret_ok {path : Path} {args : ℕ} {argc : BitVec 32} {i : Inst}
    (hb : prog.find path = some b) (hi : fetch host s.clock b path 0 = some i) :
    interpret host prog path 0 args argc s = .ok (.fresh host s.clock b path args argc i, s) := by
  rw [interpret, bind_apply_ok (get_eq_ok.mpr rfl), bind_apply_ok (found_eq_ok.mpr ⟨hb, rfl⟩),
    bind_apply_ok (found_eq_ok.mpr ⟨hi, rfl⟩)]
  rfl

lemma initial_sound (hhost : host.Honest) (hprog : prog.Verified) : ∃ c,
    Config.initial host prog (Shared.loaded host prog libs n) [] 0 [] = .ok c ∧ c.Sound prog := by
  have hlt : 0 < prog.code.length := List.length_pos_iff.mpr (@Block.Verified.find prog prog [] hprog rfl).code
  have hi : fetch host (Shared.loaded host prog libs n).clock prog [] 0 = some prog.code[0] := by
    rw [← Nat.cast_zero, fetch_code hlt, List.getElem?_eq_getElem hlt]
  refine ⟨⟨Shared.loaded host prog libs n,
    .run (.fresh host internalFunctions.length prog [] 0 0 prog.code[0]) [], []⟩, ?_,
    loaded_sound hhost hprog, ?_⟩
  · rw [Config.initial, interpret_ok rfl hi]
    rfl
  · refine ⟨List.forall_mem_singleton.mpr (fresh_sound hhost hprog rfl hi),
      List.forall_mem_nil _, ⟨?_, trivial⟩, List.forall_mem_nil _, fun _ _ hc => Control.noConfusion hc⟩
    exact Nat.le_refl 0

lemma Config.Sound.reaches {k : ℕ} (h : c.Sound prog) (hhost : host.Honest) (hprog : prog.Verified)
    (hreach : Reaches (fun c d : Config => c.step host prog = .on d) k c d) : d.Sound prog :=
  hreach.keeps h (fun hstep hc => hc.step hhost hprog hstep)

end Start

/-- Checked bytecode begins to run, every state that it comes to is sound, and the machine faults
nowhere but in a quotient that does not exist, in the names of external functions and in native
functions. -/
theorem verified_runs_safely (libs : List (Option Library)) (n : ℕ) (hprog : prog.Verified)
    (hhost : host.Honest) :
    ∃ c, Config.initial host prog (Shared.loaded host prog libs n) [] 0 [] = .ok c ∧
      ∀ k d, Reaches (fun c d : Config => c.step host prog = .on d) k c d →
        d.Sound prog ∧ (d.step host prog = .halt .fault → d.Traps host prog) := by
  obtain ⟨c, hinit, hc⟩ := @initial_sound host prog libs n hhost hprog
  refine ⟨c, hinit, fun k d hreach => ?_⟩
  have hd := hc.reaches hhost hprog hreach
  exact ⟨hd, hd.traps hhost hprog⟩

lemma plainHost_honest : plainHost.Honest :=
  ⟨fun _ _ => ⟨nofun, nofun⟩, nofun⟩

lemma callBlock_verified : callBlock.Verified := by
  have hmain : callBlock.check = true := by decide +kernel
  have hecho : echoBlock.check = true := by decide +kernel
  refine .mk (Block.check_iff.mp hmain) (List.forall_mem_singleton.mpr ?_)
  exact .mk (Block.check_iff.mp hecho) (List.forall_mem_nil _)

theorem verified_runs_safely_call : ∃ c,
    Config.initial plainHost callBlock (Shared.loaded plainHost callBlock [] 2) [] 0 [] = .ok c ∧
      ∀ k d, Reaches (fun c d : Config => c.step plainHost callBlock = .on d) k c d →
        d.Sound callBlock ∧
          (d.step plainHost callBlock = .halt .fault → d.Traps plainHost callBlock) :=
  verified_runs_safely [] 2 callBlock_verified plainHost_honest

end Bijou
