import Bijou.Calls
import Bijou.CompilerRules
import Bijou.Library.Runs
import Bijou.Safety

/-! Local variables. The instruction set reads and writes them, but no program has any: neither the
assembler nor the loader makes one, and making a function takes them away. -/

namespace Bijou

open CString Incremental Runs

variable {host : Host} {prog b b' c : Block} {f : Frame} {s s' t : Shared} {argv : List TValue}
  {callers : List Frame}

section Assembler

structure Block.Invariant (I : Block → Prop) : Prop where
  new : ∀ (mem : Fresh) (filename funcname : CharPtr), I { Block.new mem with filename, funcname }
  store : ∀ {b : Block} (d : Directive) (tmp : List Byte), I b → I (d.store tmp b)
  pushInstruction : ∀ {b : Block} (inst : Inst), I b → I (b.pushInstruction inst)
  pushConst : ∀ {b b' : Block} {v : TValue} {i : ℤ}, I b → b.pushConst v = some (i, b') → I b'
  pushChild : ∀ {b c : Block}, I b → I c → I (b.pushChild c)

namespace Block.Invariant

variable {I : Block → Prop} {s r : List Byte}

lemma header (hI : Block.Invariant I) (hb : I b) (h : compileHeader b s = .done b' r) :
    I b' := by
  obtain ⟨u, m, -, h⟩ := bind_eq_done.mp h
  refine headerRound_guarded.fix_result ?_ hb h
  intro b s hb hloop b' r h
  obtain ⟨string, m, hm, h⟩ := bind_eq_done.mp h
  have hlen := readNext_eats s _ _ hm
  split_ifs at h with hclose
  · obtain ⟨rfl, -⟩ : b = b' ∧ m = r := by simpa using h
    exact hb
  · cases hd : Directive.named (cstr string) with
    | none => simp [hd] at h
    | some d =>
      simp only [hd] at h
      obtain ⟨tmp, m', hm', h⟩ := bind_eq_done.mp h
      exact hloop _ m' ((readNext_eats m _ _ hm').trans hlen) (hI.store d tmp hb) b' r h

lemma code (hI : Block.Invariant I) (hb : I b) (h : compileCode b s = .done b' r) : I b' := by
  obtain ⟨u, m, -, h⟩ := bind_eq_done.mp h
  refine codeRound_guarded.fix_result ?_ hb h
  intro b s hb hloop b' r h
  obtain ⟨string, m, hm, h⟩ := bind_eq_done.mp h
  have hlen := readNext_eats s _ _ hm
  split_ifs at h with hclose
  · obtain ⟨rfl, -⟩ : b = b' ∧ m = r := by simpa using h
    exact hb
  · cases ho : OpCode.named (cstr string) with
    | none => simp [ho] at h
    | some o =>
      simp only [ho] at h
      obtain ⟨args, m', hm', h⟩ := bind_eq_done.mp h
      exact hloop _ m' (((readArgs_shrinks m).length_le hm').trans_lt hlen)
        (hI.pushInstruction _ hb) b' r h

variable (mem : Memory)

lemma entry (hI : Block.Invariant I) {loop : ConstState → Scan Block} {st : ConstState} {tt : Tag}
    {value : Value} (hst : I st.b) (h : pushEntry loop st tt value s = .done b r)
    (hloop : ∀ st', I st'.b → ∀ b r, loop st' s = .done b r → I b) : I b := by
  rw [pushEntry] at h
  cases hp : st.push tt value with
  | none => simp [hp] at h
  | some st' =>
    simp only [hp] at h
    obtain ⟨⟨i, b'⟩, hb', hst'⟩ := Option.bind_eq_some_iff.mp hp
    obtain rfl := Option.some.inj hst'
    exact hloop _ (hI.pushConst hst hb') b r h

lemma function (hI : Block.Invariant I) {loop : ConstState → Scan Block} {path : Path}
    (hb : I b) (hloop : ∀ st' s', s'.length ≤ s.length → I st'.b → ∀ b r, loop st' s' = .done b r →
      I b) (h : compileFunctionWith mem loop path b s = .done b' r) : I b' := by
  obtain ⟨b₁, r₁, h₁, h⟩ := bind_eq_done.mp h
  have l₁ := compileHeader_length h₁
  obtain ⟨b₂, r₂, h₂, h⟩ := bind_eq_done.mp h
  have l₂ := compileCode_length h₂
  obtain ⟨u, r₃, h₃, h⟩ := bind_eq_done.mp h
  have l₃ := expectConst_length h₃
  exact hloop _ r₃ (by omega) (hI.code (hI.header hb h₁) h₂) b' r h

lemma constants (hI : Block.Invariant I) {st : ConstState} (hst : I st.b)
    (h : constLoop mem st s = .done b r) : I b := by
  refine (constRound_guarded mem).fix_result (I := fun st => I st.b) ?_ hst h
  intro st s hst hloop b r h
  obtain ⟨string, m, hm, h⟩ := bind_eq_done.mp h
  have hlen := readLine_eats s _ _ hm
  have hnext : ∀ st', I st'.b → ∀ b r, constLoop mem st' m = .done b r → I b :=
    fun st' => hloop st' m hlen
  cases hl : constLine (string ++ mem.line st.here) with
  | close =>
    rw [hl] at h
    obtain ⟨rfl, -⟩ : st.b = b ∧ m = r := by simpa [constEntry] using h
    exact hst
  | comment =>
    rw [hl] at h
    exact hnext st hst b r h
  | bad e => simp [hl, constEntry] at h
  | null | number | boolean | string =>
    rw [hl] at h
    exact hI.entry hst h hnext
  | function =>
    rw [hl] at h
    obtain ⟨func, m', hfunc, h⟩ := bind_eq_done.mp h
    have hle : m'.length ≤ m.length := (compileFunction_shrinks mem _ _ m).length_le hfunc
    have hfunc := hI.function mem (hI.new _ _ _)
      (fun st' s' hs' => hloop st' s' (by omega)) hfunc
    exact hI.entry (hI.pushChild hst hfunc) h (fun st' => hloop st' m' (by omega))

lemma file (hI : Block.Invariant I) {filename : CharPtr}
    (h : compileFile mem filename s = .done b r) : I b := by
  have hloop : ∀ st' s', s'.length ≤ s.length → I st'.b → ∀ b r,
      constLoop mem st' s' = .done b r → I b := fun st' s' _ hst' b r => hI.constants mem hst'
  exact hI.function mem (hI.new (mem.block []) filename (.to (CStr.at (bytes "main")))) hloop h

end Block.Invariant

inductive Block.Bare : Block → Prop
  | mk {b : Block} (locals : b.locals = []) (children : ∀ c ∈ b.children, Block.Bare c) : Block.Bare b

lemma Block.Bare.find {path : Path} (h : prog.Bare) (hb : prog.find path = some b) : b.locals = [] := by
  induction path generalizing prog with
  | nil =>
    cases hb
    obtain ⟨hlocals, -⟩ := h
    exact hlocals
  | cons i path ih =>
    obtain ⟨child, hi, hrest⟩ := Option.bind_eq_some_iff.mp hb
    obtain ⟨-, hchildren⟩ := h
    exact ih (hchildren child (List.mem_of_getElem? hi)) hrest

lemma bare_invariant : Block.Invariant Block.Bare where
  new _ _ _ := .mk rfl (List.forall_mem_nil _)
  store d tmp h := by
    obtain ⟨hlocals, hchildren⟩ := h
    cases d with
    | _ => exact .mk hlocals hchildren
  pushInstruction _ h := by
    obtain ⟨hlocals, hchildren⟩ := h
    exact .mk hlocals hchildren
  pushConst h hp := by
    obtain ⟨hlocals, hchildren⟩ := h
    obtain ⟨found, -, hp⟩ := Option.bind_eq_some_iff.mp hp
    split_ifs at hp
    · cases hp
      exact .mk hlocals hchildren
    · cases hp
      exact .mk hlocals hchildren
  pushChild h h' := by
    obtain ⟨hlocals, hchildren⟩ := h
    refine .mk hlocals (fun d hd => ?_)
    rcases List.mem_append.mp hd with hd | hd
    · exact hchildren d (List.mem_of_mem_take hd)
    · rcases List.mem_cons.mp hd with rfl | hd
      · exact h'
      · exact hchildren d (List.mem_of_mem_drop hd)

end Assembler

section Loader

variable (mem : LoadMemory)

lemma pushConsts_bare {k : List TValue} (hb : b.Bare) (h : pushConsts b k = some b') : b'.Bare := by
  induction k generalizing b with
  | nil =>
    obtain rfl := Option.some.inj h
    exact hb
  | cons v k ih =>
    obtain ⟨⟨i, b₁⟩, hpush, hrest⟩ := Option.bind_eq_some_iff.mp h
    exact ih (bare_invariant.pushConst hb hpush) hrest

mutual

lemma protoToBlock2_bare : ∀ (path : Path) (p : Proto) (b : Block),
    protoToBlock2 mem path p = some b → b.Bare
  | path, ⟨source, name, linedefined, lastlinedefined, maxregisters, numglobal, numupval, numparam, k,
      code, p⟩, b, h => by
    rw [protoToBlock2] at h
    obtain ⟨b₁, hk, h⟩ := Option.bind_eq_some_iff.mp h
    obtain ⟨l, hl, h⟩ := Option.bind_eq_some_iff.mp h
    obtain rfl := Option.some.inj h
    obtain ⟨hlocals, -⟩ := pushConsts_bare (.mk rfl (List.forall_mem_nil _)) hk
    refine .mk ?_ (protosToBlocks_bare path 0 p l hl)
    rw [foldl_pushInstruction]
    exact hlocals

lemma protosToBlocks_bare : ∀ (path : Path) (i : ℕ) (p : List Proto) (l : List Block),
    protosToBlocks mem path i p = some l → ∀ c ∈ l, c.Bare
  | path, i, [], l, h => by
    obtain rfl := Option.some.inj h
    exact List.forall_mem_nil _
  | path, i, f :: p, l, h => by
    rw [protosToBlocks] at h
    obtain ⟨c, hc, h⟩ := Option.bind_eq_some_iff.mp h
    obtain ⟨l', hl', h⟩ := Option.bind_eq_some_iff.mp h
    obtain rfl := Option.some.inj h
    exact List.forall_mem_cons.mpr ⟨protoToBlock2_bare (i :: path) f c hc,
      protosToBlocks_bare path (i + 1) p l' hl'⟩

end

lemma protoToBlock_bare {p : Proto} {n : Byte} (h : protoToBlock mem p = some (n, b)) : b.Bare := by
  obtain ⟨b', hb, hpair⟩ := Option.bind_eq_some_iff.mp h
  cases hpair
  exact protoToBlock2_bare mem [] p _ hb

end Loader

section Run

def Shared.NoLocals (s : Shared) : Prop := ∀ path, s.locals path = []

lemma Block.Bare.loaded_noLocals (h : prog.Bare) (libs : List (Option Library)) (n : ℕ) :
    (Shared.loaded host prog libs n).NoLocals := by
  intro path
  change ((prog.find path).map Block.locals).getD [] = []
  cases hb : prog.find path with
  | none => rfl
  | some b => exact h.find hb

lemma guard_noLocals (hs : s.NoLocals) (b : Block) (f : Frame) (a : Access) :
    a.guard .locals b f s = some none := by
  have hcells : Variables.cells f s .locals = [] := hs f.path
  rw [Access.guard, hcells]
  cases a with
  | get => exact if_pos (Nat.zero_le _)
  | set =>
    change f.checked b b.k.length 0 = some none
    rw [Frame.checked]
    split_ifs with hlimit
    · rfl
    · rw [List.getElem?_eq_getElem (Nat.lt_of_not_le hlimit), Option.map_some,
        if_pos (.inr (Nat.zero_le _))]

lemma exec_noLocals (hs : s.NoLocals) {a : Access} (ho : opcode f.i = some (a.op .locals)) : ∃ m,
    exec host b f argv s = .ok (.leave (createNone (host.garbage s.clock)), s.report m) := by
  have hexec := exec_access host b s argv ho
  rw [guard_noLocals hs] at hexec
  exact hexec

lemma Shared.NoLocals.exec {a : Action} (hs : s.NoLocals) (hx : exec host b f argv s = .ok (a, s')) :
    s'.NoLocals := by
  by_cases ho : opcode f.i = some .setlocal
  · obtain ⟨m, hm⟩ := exec_noLocals (a := .set) hs ho
    cases hm.symm.trans hx
    exact hs
  cases exec_effect hx with
  | print messages => exact hs
  | setGlobal ho hg hv => exact hs
  | setLocal l hset => exact absurd hset ho
  | getExternal func ho hfunc => exact hs
  | @closure child j ho hj =>
    intro path
    by_cases hpath : path = f.path ++ [j]
    · simp only [hpath, Function.update_self]
    · simp only [Function.update_of_ne hpath]
      exact hs path

lemma Shared.NoLocals.step {c d : Config} (hs : c.shared.NoLocals) (h : c.step host prog = .on d) :
    d.shared.NoLocals := by
  obtain ⟨s, hd, rfl | ⟨f, callers, b, a, -, -, -, hx⟩⟩ := Config.step_shared h
  · rw [hd]
    exact hs
  · have hs' : s.NoLocals := hs.exec hx
    rw [hd]
    exact hs'

end Run

theorem locals_never_used (mem : LoadMemory) {p : Proto} {n : Byte} (libs : List (Option Library))
    (hprog : protoToBlock mem p = some (n, prog)) {c : Config}
    (hinit : Config.initial host prog (Shared.loaded host prog libs n.toNat) [] 0 [] = .ok c)
    {k : ℕ} {d : Config} (hreach : Reaches (fun c d : Config => c.step host prog = .on d) k c d) :
    d.shared.NoLocals ∧ ∀ f callers b a, d.control = .run f callers →
      f.At prog b (Access.op a .locals) → StopsWithNone host prog f d.shared d.argv callers := by
  have hbare : prog.Bare := protoToBlock_bare mem hprog
  have hstart : c.shared.NoLocals := by
    rw [Config.initial_shared hinit]
    exact hbare.loaded_noLocals libs n.toNat
  have hd : d.shared.NoLocals :=
    @Reaches.keeps _ _ (fun c : Config => c.shared.NoLocals) _ _ _ hreach hstart
      (fun hstep hc => hc.step hstep)
  exact ⟨hd, fun f callers b a _ hat => a.stops_of_guard hat (guard_noLocals hd b f a)⟩

def localProto : Proto where
  source := .new .null
  name := .new .null
  linedefined := 1
  lastlinedefined := 1
  maxregisters := 1
  numglobal := 0
  numupval := 0
  numparam := 0
  k := [intValue 0]
  code := [OpCode.nop.code, OpCode.setlocal.code]
  p := []

theorem locals_never_used_set : ∃ prog c d,
    protoToBlock default localProto = some (0, prog) ∧
    Reaches (fun c d : Config => c.step plainHost prog = .on d) 1 c d ∧
    d.shared.NoLocals ∧ ∀ f callers b a, d.control = .run f callers →
      f.At prog b (Access.op a .locals) → StopsWithNone plainHost prog f d.shared d.argv callers := by
  have hcheck : (protoToBlock default localProto).bind (fun x =>
      (Config.initial plainHost x.2 (Shared.loaded plainHost x.2 [] 0) [] 0 []).toOption.bind
        (fun c => (c.step plainHost x.2).config.map (fun _ => x.1))) = some 0 := by decide +kernel
  obtain ⟨⟨n, prog⟩, hprog, hcheck⟩ := Option.bind_eq_some_iff.mp hcheck
  obtain ⟨c, hinit, hcheck⟩ := Option.bind_eq_some_iff.mp hcheck
  obtain ⟨d, hstep, rfl⟩ := Option.map_eq_some_iff.mp hcheck
  have hreach : Reaches (fun c d : Config => c.step plainHost prog = .on d) 1 c d :=
    .one (Step.config_eq hstep)
  exact ⟨prog, c, d, hprog, hreach,
    locals_never_used default [] hprog (eq_ok_of_toOption hinit) hreach⟩

end Bijou
