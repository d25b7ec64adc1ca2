import Bijou.Calls
import Bijou.Safety
import Bijou.Selection
import Bijou.Library.Growth
import Bijou.Library.Runs

/-! Function values over whole runs. A function value is an address; what lies there is the function
that was put there, however long the program has run since. -/

namespace Bijou

open CString Growth Runs

variable {host : Host} {prog b b' : Block} {f g : Frame} {s s' t : Shared} {argv : List TValue}
  {callers callers' : List Frame} {control : Control} {c d e : Config} {n k m : ℕ}
  {func : BijouFunction}

section Growth

structure Shared.Grows (s t : Shared) : Prop where
  heap : Extends s.heap t.heap
  functions : t.vm.functions = s.vm.functions
  constants : t.vm.constants = s.vm.constants
  libs : t.vm.libs = s.vm.libs
  globals : t.vm.globals.length = s.vm.globals.length
  printed : s.printed <+: t.printed

lemma Shared.Grows.refl (s : Shared) : s.Grows s :=
  ⟨.refl, rfl, rfl, rfl, rfl, List.prefix_rfl⟩

lemma Shared.Grows.trans {u : Shared} (h : s.Grows t) (h' : t.Grows u) : s.Grows u :=
  ⟨h.heap.trans h'.heap, h'.functions.trans h.functions, h'.constants.trans h.constants,
    h'.libs.trans h.libs, h'.globals.trans h.globals, h.printed.trans h'.printed⟩

lemma Effect.grows (h : Effect host b f s s') (hfresh : ∀ p ∈ s.heap, p.1 ≠ host.malloc s.clock) :
    s.Grows s' := by
  cases h with
  | print messages => exact ⟨.refl, rfl, rfl, rfl, rfl, List.prefix_append _ _⟩
  | setGlobal ho hg hv => exact ⟨.refl, rfl, rfl, rfl, List.length_set, List.prefix_rfl⟩
  | setLocal l ho => exact ⟨.refl, rfl, rfl, rfl, rfl, List.prefix_rfl⟩
  | getExternal func ho hfunc => exact ⟨.add _ _ .refl hfresh, rfl, rfl, rfl, rfl, List.prefix_rfl⟩
  | closure ho hj => exact ⟨.add _ _ .refl hfresh, rfl, rfl, rfl, rfl, List.prefix_rfl⟩

def Shared.Stamped (host : Host) (s : Shared) : Prop := Growth.Stamped host.malloc s.clock s.heap

lemma Effect.stamped (h : Effect host b f s s') (hs : s.Stamped host) :
    ({ s' with clock := s'.clock + 1 } : Shared).Stamped host := by
  cases h with
  | print messages => exact hs.mono (Nat.le_succ _)
  | setGlobal ho hg hv => exact hs.mono (Nat.le_succ _)
  | setLocal l ho => exact hs.mono (Nat.le_succ _)
  | getExternal func ho hfunc => exact hs.add func
  | closure ho hj => exact hs.add _

lemma Effect.clock (h : Effect host b f s s') : s'.clock = s.clock := by
  cases h with
  | _ => rfl

lemma step_grows (h : c.step host prog = .on d) (hs : c.shared.Stamped host)
    (hfresh : ∀ p ∈ c.shared.heap, p.1 ≠ host.malloc c.shared.clock) :
    c.shared.Grows d.shared ∧ d.shared.Stamped host ∧ d.shared.clock = c.shared.clock + 1 := by
  obtain ⟨s, hd, rfl | ⟨f, callers, b, a, -, -, -, hx⟩⟩ := Config.step_shared h
  · rw [hd]
    exact ⟨⟨.refl, rfl, rfl, rfl, rfl, List.prefix_rfl⟩, hs.mono (Nat.le_succ _), rfl⟩
  · have heffect := exec_effect hx
    obtain ⟨hheap, hfunctions, hconstants, hlibs, hglobals, hprinted⟩ := heffect.grows hfresh
    rw [hd]
    refine ⟨⟨hheap, hfunctions, hconstants, hlibs, hglobals, hprinted⟩, heffect.stamped hs, ?_⟩
    exact congrArg (· + 1) heffect.clock

lemma run_grows (h : Reaches (fun c d : Config => c.step host prog = .on d) k c d)
    (hs : c.shared.Stamped host) (hmalloc : Set.InjOn host.malloc {t | t < c.shared.clock + k}) :
    c.shared.Grows d.shared ∧ d.shared.Stamped host ∧ d.shared.clock = c.shared.clock + k := by
  induction h with
  | refl c => exact ⟨.refl _, hs, rfl⟩
  | @head k c d e hstep _ ih =>
    obtain ⟨hgrows, hstamped, hclock⟩ := step_grows hstep hs (hs.fresh hmalloc (by omega))
    rw [hclock, Nat.add_assoc, Nat.add_comm 1 k] at ih
    obtain ⟨hrest, hlast, htime⟩ := ih hstamped hmalloc
    exact ⟨hgrows.trans hrest, hlast, htime⟩

end Growth

section Start

variable {libs : List (Option Library)} {numglobal : ℕ}

lemma loaded_keys : (Shared.loaded host prog libs numglobal).heap.map Prod.fst =
    (List.range internalFunctions.length).map host.malloc := by
  refine List.ext_getElem ?_ (fun i hi hi' => ?_)
  · simp [Shared.loaded, Shared.new]
  · simp [Shared.loaded, Shared.new]

lemma loaded_stamped : (Shared.loaded host prog libs numglobal).Stamped host := by
  intro p hp
  have hkey : p.1 ∈ (List.range internalFunctions.length).map host.malloc := by
    rw [← @loaded_keys host prog libs numglobal]
    exact List.mem_map.mpr ⟨p, hp, rfl⟩
  obtain ⟨i, hi, heq⟩ := List.mem_map.mp hkey
  exact ⟨i, List.mem_range.mp hi, heq.symm⟩

lemma loaded_lookup {i : ℕ} {p : List Byte × BitVec 32}
    (hmalloc : Set.InjOn host.malloc {t | t < internalFunctions.length})
    (hi : internalFunctions[i]? = some p) :
    (Shared.loaded host prog libs numglobal).heap.lookup (host.malloc i) =
      some (internalFunction p.1 p.2) := by
  refine lookup_of_nodup ?_ ?_
  · rw [loaded_keys]
    refine List.Nodup.map_on (fun i hi j hj heq => ?_) List.nodup_range
    exact hmalloc (List.mem_range.mp hi) (List.mem_range.mp hj) heq
  · obtain ⟨hlt, rfl⟩ := List.getElem?_eq_some_iff.mp hi
    exact List.mem_mapIdx.mpr ⟨i, hlt, rfl⟩

end Start

section Step

def Action.Leads (f : Frame) (callers : List Frame) : Action → Control → Prop
  | .store v, control => (getA f.i).toNat < f.stack.length ∧
    ∃ i, control = .run ((f.stored v).moved 0 i) callers
  | .go distance, control => ∃ i, control = .run (f.moved distance i) callers
  | .leave v, control => control = .ret v callers
  | .enter path args argc, control => ∃ g, control = .run g (f :: callers) ∧ g.path = path ∧
    g.pc = 0 ∧ g.args = args ∧ g.argc = argc

lemma Frame.At.step {o : OpCode} (hat : f.At prog b o) (hc : c.control = .run f callers)
    (h : c.step host prog = .on d) : ∃ a s,
      exec host b f (window c.argv callers) c.shared = .ok (a, s) ∧ a.Leads f callers d.control ∧
        d.shared = { s with clock := s.clock + 1 } := by
  obtain ⟨s, hadv, hshared, -⟩ := Config.step_cases h
  have hfind := hat.block
  rw [hc] at hadv
  generalize d.control = control at hadv
  cases hadv with
  | ended hb hd =>
    cases hb.symm.trans hfind
    cases hd.symm.trans hat.word
  | store hb hd hx ha hi =>
    cases hb.symm.trans hfind
    exact ⟨_, s, hx, ⟨ha, _, rfl⟩, hshared⟩
  | go hb hd hx hi =>
    cases hb.symm.trans hfind
    exact ⟨_, s, hx, ⟨_, rfl⟩, hshared⟩
  | leave hb hd hx =>
    cases hb.symm.trans hfind
    exact ⟨_, s, hx, rfl, hshared⟩
  | enter hb hd hx hcallee hi =>
    cases hb.symm.trans hfind
    exact ⟨_, s, hx, ⟨_, rfl, rfl, rfl, rfl, rfl⟩, hshared⟩

end Step

section Made

/-- The function that CLOSURE stands for: one of the machine, or one that the program defines inside
of the function that runs. -/
def selected (b : Block) (f : Frame) (x : BitVec 32) : Option BijouFunction :=
  if constantBit x then
    internalFunctions[plainIndex x]?.map (fun p => internalFunction p.1 p.2)
  else
    b.children[plainIndex x]?.map (fun child => ⟨none, BitVec.ofNat 32 child.argc.toNat,
      child.funcname, 0, some (f.path ++ [plainIndex x])⟩)

variable {v : TValue} {libs : List (Option Library)} {numglobal : ℕ} {x : BitVec 32}

lemma selectedFunction_lookup
    (hgrows : (Shared.loaded host prog libs numglobal).Grows s)
    (hmalloc : Set.InjOn host.malloc {t | t < internalFunctions.length})
    (h : selectedFunction host b f s x = some (v, s')) :
    v.tt = .function ∧ ∃ func, selected b f x = some func ∧
      s'.heap.lookup v.value.lo = some func := by
  rw [selectedFunction] at h
  split_ifs at h with hbit
  · obtain ⟨a, ha, hpair⟩ := Option.map_eq_some_iff.mp h
    cases hpair
    have hfunctions : s.vm.functions = (List.range internalFunctions.length).map host.malloc :=
      hgrows.functions
    rw [hfunctions, List.getElem?_map] at ha
    obtain ⟨i, hi, rfl⟩ := Option.map_eq_some_iff.mp ha
    have hlt : plainIndex x < internalFunctions.length := by
      obtain ⟨hlt, -⟩ := List.getElem?_eq_some_iff.mp hi
      rwa [List.length_range] at hlt
    rw [List.getElem?_range hlt] at hi
    obtain rfl := Option.some.inj hi
    have hfunc := List.getElem?_eq_getElem hlt
    refine ⟨rfl, _, ?_, hgrows.heap.lookup (loaded_lookup hmalloc hfunc)⟩
    rw [selected, if_pos hbit, hfunc, Option.map_some]
  · obtain ⟨child, hchild, hpair⟩ := Option.map_eq_some_iff.mp h
    cases hpair
    refine ⟨rfl, _, ?_, List.lookup_cons_self⟩
    rw [selected, if_neg hbit, hchild]
    rfl

end Made

section Called

variable {v w : TValue} {args : ℕ} {argc : BitVec 32} {a : Action}

lemma callFunction_native (hinternal : func.internal ≠ 0)
    (h : callFunction host f func args argc s = .ok (a, s')) : ∃ native w,
      func.func = some native ∧ a = .store w ∧
        host.call native s.clock s.vm f.path ((f.stack.drop args).take argc.toNat) = some w := by
  have harity : ¬(func.arity ≠ -1 ∧ argc ≠ func.arity) := by
    intro hne
    rw [callFunction, if_pos hne] at h
    cases h
  rw [callFunction, if_neg harity] at h
  dsimp only at h
  rw [if_pos hinternal] at h
  obtain ⟨s₁, s₂, hget, hnative⟩ := bind_eq_ok.mp h
  cases get_eq_ok.mp hget
  obtain ⟨native, s₃, hfound, hcall⟩ := bind_eq_ok.mp hnative
  obtain ⟨hfunc, rfl⟩ := found_eq_ok.mp hfound
  obtain ⟨w, s₄, hanswer, hpure⟩ := bind_eq_ok.mp hcall
  obtain ⟨hresult, rfl⟩ := found_eq_ok.mp hanswer
  cases pure_eq_ok.mp hpure
  exact ⟨native, w, hfunc, rfl, hresult⟩

inductive Frame.CallsTo (host : Host) (f : Frame) (callers : List Frame) (s : Shared)
    (func : BijouFunction) : Control → Prop
  | enters {path : Path} {g : Frame} (hinternal : func.internal = 0) (hblock : func.block = some path)
    (hpath : g.path = path) (hpc : g.pc = 0) (hargs : g.args = (getB f.i).toNat + 1)
    (hargc : g.argc = getC f.i) : CallsTo host f callers s func (.run g (f :: callers))
  | answers {native : Native} {w : TValue} {i : Inst} (hinternal : func.internal ≠ 0)
    (hnative : func.func = some native) (hcall : host.call native s.clock s.vm f.path
      ((f.stack.drop ((getB f.i).toNat + 1)).take (getC f.i).toNat) = some w) :
    CallsTo host f callers s func (.run ((f.stored w).moved 0 i) callers)

lemma exec_call (ho : opcode f.i = some .call) (hv : f.stack[(getB f.i).toNat]? = some v)
    (htt : v.tt = .function) (hfunc : s.heap.lookup v.value.lo = some func) :
    exec host b f argv s =
      callFunction host f func ((getB f.i).toNat + 1) (getC f.i) s := by
  rw [exec, bind_apply_ok (get_eq_ok.mpr rfl)]
  simp only [ho]
  have htag : ¬ v.tt ≠ .function := not_not.mpr htt
  rw [reg, bind_apply_ok (found_eq_ok.mpr ⟨hv, rfl⟩), if_neg htag]
  exact bind_apply_ok (found_eq_ok.mpr ⟨hfunc, rfl⟩) _

lemma call_goes (hat : f.At prog b .call) (hc : c.control = .run f callers)
    (hv : f.stack[(getB f.i).toNat]? = some v) (htt : v.tt = .function)
    (hfunc : c.shared.heap.lookup v.value.lo = some func) :
    (func.arity ≠ -1 ∧ getC f.i ≠ func.arity → c.step host prog =
      .halt (.exit 0 (.arity func.name.text (getC f.i).toInt func.arity.toInt))) ∧
    ∀ d, c.step host prog = .on d → (func.arity = -1 ∨ getC f.i = func.arity) ∧
      f.CallsTo host callers c.shared func d.control := by
  have hcall := @exec_call host b f c.shared (window c.argv callers) func v hat.op hv htt hfunc
  constructor
  · intro hne
    rw [callFunction, if_pos hne] at hcall
    have hadv := hat.advance_error hcall
    simp only [Config.step, hc, hadv]
  · intro d hstep
    obtain ⟨a, s, hx, hleads, -⟩ := hat.step hc hstep
    rw [hcall] at hx
    obtain ⟨harity, -, henter⟩ := callFunction_cases hx
    refine ⟨harity, ?_⟩
    by_cases hinternal : func.internal = 0
    · obtain ⟨path, hblock, rfl⟩ := henter hinternal
      obtain ⟨g, hd, hpath, hpc, hargs, hargc⟩ := hleads
      rw [hd]
      exact .enters hinternal hblock hpath hpc hargs hargc
    · obtain ⟨native, w, hnative, rfl, hw⟩ := callFunction_native hinternal hx
      obtain ⟨-, i, hd⟩ := hleads
      rw [hd]
      exact .answers hinternal hnative hw

end Called

/-- In a program that was loaded, whatever is run between: a call through a value that CLOSURE has
stored goes to the function that this CLOSURE stood for, and to no other. -/
theorem function_values_last (libs : List (Option Library)) (numglobal : ℕ) {c₀ : Config}
    (hinit : Config.initial host prog (Shared.loaded host prog libs numglobal) [] 0 [] = .ok c₀)
    (hmalloc : Set.InjOn host.malloc {t | t < internalFunctions.length + (k + (m + 1))})
    (hc : Reaches (fun c d : Config => c.step host prog = .on d) k c₀ c)
    (hcontrol : c.control = .run f callers) (hat : f.At prog b .closure)
    (hmade : c.step host prog = .on d)
    (hd : Reaches (fun c d : Config => c.step host prog = .on d) m d e) :
    ∃ v func f', selected b f (getBx f.i) = some func ∧ d.control = .run f' callers ∧
      f'.stack[(getA f.i).toNat]? = some v ∧ d.shared.Grows e.shared ∧
      ∀ g callers' b', e.control = .run g callers' → g.At prog b' .call →
        g.stack[(getB g.i).toNat]? = some v →
        (func.arity ≠ -1 ∧ getC g.i ≠ func.arity → e.step host prog =
          .halt (.exit 0 (.arity func.name.text (getC g.i).toInt func.arity.toInt))) ∧
        ∀ e', e.step host prog = .on e' → (func.arity = -1 ∨ getC g.i = func.arity) ∧
          g.CallsTo host callers' e.shared func e'.control := by
  have hstart := Config.initial_shared hinit
  have hbegin : (Shared.loaded host prog libs numglobal).Grows c.shared ∧ c.shared.Stamped host ∧
      c.shared.clock = internalFunctions.length + k := by
    have hclock : c₀.shared.clock = internalFunctions.length := congrArg Shared.clock hstart
    have hgrows := run_grows hc (hstart ▸ loaded_stamped) (injOn_sooner hmalloc (by omega))
    rwa [hstart] at hgrows
  obtain ⟨hgrows, hstamped, hclock⟩ := hbegin
  obtain ⟨a, s, hx, hleads, hshared⟩ := hat.step hcontrol hmade
  rw [exec_closure hat.op, closure_eq] at hx
  split_ifs at hx
  rcases hsel : selectedFunction host b f c.shared (getBx f.i) with _ | ⟨v, s₁⟩
  · rw [hsel] at hx
    cases hx
  rw [hsel] at hx
  cases hx
  obtain ⟨htt, func, hfunc, hlookup⟩ := selectedFunction_lookup hgrows
    (injOn_sooner hmalloc (Nat.le_add_right _ _)) hsel
  have hnext : d.shared.Grows e.shared := by
    obtain ⟨-, hd', hclock'⟩ := step_grows hmade hstamped (hstamped.fresh hmalloc (by omega))
    exact (run_grows hd hd' (injOn_sooner hmalloc (by omega))).1
  obtain ⟨ha, i, hcontrol'⟩ := hleads
  refine ⟨v, func, _, hfunc, hcontrol', ?_, hnext, fun g callers' b' hg hcall hv => ?_⟩
  · exact List.getElem?_set_self ha
  · refine call_goes hcall hg hv htt (hnext.heap.lookup ?_)
    rw [hshared]
    exact hlookup

lemma plainHost_malloc : Set.InjOn plainHost.malloc {t | t < 2 ^ 59} := by
  intro t (ht : t < 2 ^ 59) u (hu : u < 2 ^ 59) heq
  have hnat := congrArg BitVec.toNat heq
  simp only [plainHost, BitVec.toNat_ofNat] at hnat
  omega

theorem function_values_last_call : ∃ v func f',
    selected callBlock (.fresh plainHost internalFunctions.length callBlock [] 0 0 OpCode.closure.code)
      (getBx OpCode.closure.code) = some func ∧ (callTrace 1).control = .run f' [] ∧
    f'.stack[0]? = some v ∧ (callTrace 1).shared.Grows (callTrace 1).shared ∧
    ∀ g callers' b', (callTrace 1).control = .run g callers' → g.At callBlock b' .call →
      g.stack[(getB g.i).toNat]? = some v →
      (func.arity ≠ -1 ∧ getC g.i ≠ func.arity → (callTrace 1).step plainHost callBlock =
        .halt (.exit 0 (.arity func.name.text (getC g.i).toInt func.arity.toInt))) ∧
      ∀ e', (callTrace 1).step plainHost callBlock = .on e' →
        (func.arity = -1 ∨ getC g.i = func.arity) ∧
          g.CallsTo plainHost callers' (callTrace 1).shared func e'.control := by
  have hinit : Config.initial plainHost callBlock (Shared.loaded plainHost callBlock [] 0) [] 0 [] =
      .ok (callTrace 0) := rfl
  have hstep : (callTrace 0).step plainHost callBlock = .on (callTrace 1) :=
    Config.step_after (by decide +kernel)
  have hmalloc := injOn_sooner plainHost_malloc (t := internalFunctions.length + (0 + (0 + 1))) (by decide)
  exact function_values_last [] 0 hinit hmalloc (.refl _) rfl ⟨rfl, rfl, by decide⟩ hstep (.refl _)

end Bijou
