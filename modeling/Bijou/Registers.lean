import Bijou.Effects
import Bijou.Skeleton

namespace Bijou

open CString Incremental Runs

variable {host : Host} {prog source b b' : Block} {f g : Frame} {s s' : Shared} {argv : List TValue}
  {callers : List Frame} {control control' : Control} {c d : Config}

section Named

def rkRegister (x : BitVec 32) : List ℕ := if isK x then [] else [x.toNat]

/-- The registers that a word reads or writes; CALL also hands the `C` registers behind `B` to the
function. -/
def registers (i : Inst) : List ℕ :=
  let a := (getA i).toNat
  let rb := rkRegister (getB i)
  let rc := rkRegister (getC i)
  match opcode i with
  | none | some .nop | some .jmp => []
  | some .loadk | some .loadbool | some .loadnull | some .getglobal | some .setglobal
  | some .getlocal | some .setlocal | some .getarg | some .getexternal | some .closure
  | some .return => [a]
  | some .move => [a, (getB i).toNat]
  | some .unm | some .not | some .eq | some .lt | some .gt | some .le | some .ge => a :: rb
  | some .add | some .sub | some .mul | some .div | some .pow | some .rem => a :: (rb ++ rc)
  | some .call => a :: List.range' (getB i).toNat ((getC i).toNat + 1)

lemma getA_mem_registers {o : OpCode} (ho : opcode f.i = some o) (hnop : o ≠ .nop) (hjmp : o ≠ .jmp) :
    (getA f.i).toNat ∈ registers f.i := by
  simp only [registers, ho]
  cases o with
  | nop => exact absurd rfl hnop
  | jmp => exact absurd rfl hjmp
  | _ => simp

lemma exec_stores {v : TValue} (hx : exec host b f argv s = .ok (.store v, s')) :
    (getA f.i).toNat ∈ registers f.i := by
  rw [exec, bind_apply_ok (get_eq_ok.mpr rfl)] at hx
  cases ho : opcode f.i with
  | none =>
    simp only [ho] at hx
    obtain ⟨u, s₁, -, hpure⟩ := bind_eq_ok.mp hx
    cases pure_eq_ok.mp hpure
  | some o =>
    refine getA_mem_registers ho ?_ ?_ <;>
    · rintro rfl
      simp only [ho] at hx
      cases hx

section Reads

variable {stack : List TValue}

lemma rkValue_reads {x : BitVec 32} (h : ∀ r ∈ rkRegister x, stack[r]? = f.stack[r]?) :
    rkValue b { f with stack } x = rkValue b f x := by
  rw [rkValue, rkValue, rk]
  by_cases hk : isK x
  · simp only [hk, if_true]
  · have hx := h x.toNat (by simp [rkRegister, hk])
    simp only [hk, Bool.false_eq_true, if_false, reg, hx]

lemma rkRegister_subset (x : BitVec 32) : rkRegister x ⊆ [x.toNat] := by
  rw [rkRegister]
  split_ifs <;> simp

lemma window_reads {args n : ℕ} (h : ∀ r ∈ List.range' args n, stack[r]? = f.stack[r]?) :
    (stack.drop args).take n = (f.stack.drop args).take n := by
  refine List.ext_getElem? (fun j => ?_)
  by_cases hj : j < n
  · rw [List.getElem?_take_of_lt hj, List.getElem?_take_of_lt hj, List.getElem?_drop,
      List.getElem?_drop]
    exact h _ (List.mem_range'_1.mpr ⟨by omega, by omega⟩)
  · rw [List.getElem?_take_eq_none (by omega), List.getElem?_take_eq_none (by omega)]

lemma exec_reads (h : ∀ r ∈ registers f.i, stack[r]? = f.stack[r]?) :
    exec host b { f with stack } argv s = exec host b f argv s := by
  rw [exec, exec, bind_apply_ok (get_eq_ok.mpr rfl), bind_apply_ok (get_eq_ok.mpr rfl)]
  cases ho : opcode f.i with
  | none => rfl
  | some o =>
    simp only [registers, ho] at h
    have hrk : ∀ {x : BitVec 32}, (∀ r ∈ rkRegister x, stack[r]? = f.stack[r]?) →
        rkValue b { f with stack } x = rkValue b f x := rkValue_reads
    cases o with
    | nop | loadk | loadbool | loadnull | getglobal | getlocal | getarg | getexternal | jmp => rfl
    | closure => rfl
    | move =>
      have hb := h (getB f.i).toNat (by simp)
      simp only [reg, hb]
    | setglobal | setlocal =>
      have ha := h (getA f.i).toNat (by simp)
      simp only [reg, ha]
      rfl
    | unm | not =>
      have hb := hrk (fun r hr => h r (List.mem_cons_of_mem _ hr))
      simp only [hb]
    | eq | lt | gt | le | ge =>
      have ha := hrk (x := getA f.i) (fun r hr => h r
        (List.mem_cons.mpr (.inl (List.mem_singleton.mp (rkRegister_subset _ hr)))))
      have hb := hrk (fun r hr => h r (List.mem_cons_of_mem _ hr))
      simp only [ha, hb]
    | «return» =>
      have ha := hrk (x := getA f.i) (fun r hr => h r (rkRegister_subset _ hr))
      simp only [ha]
    | add | sub | mul | div | pow | rem =>
      have hb := hrk (fun r hr => h r (List.mem_cons_of_mem _ (List.mem_append_left _ hr)))
      have hc := hrk (fun r hr => h r (List.mem_cons_of_mem _ (List.mem_append_right _ hr)))
      simp only [hb, hc]
    | call =>
      have hb := h (getB f.i).toNat (by simp)
      have hargs : (stack.drop ((getB f.i).toNat + 1)).take (getC f.i).toNat =
          (f.stack.drop ((getB f.i).toNat + 1)).take (getC f.i).toNat :=
        window_reads (fun r hr => h r (by simp at hr ⊢; omega))
      simp only [reg, hb, callFunction, hargs]

end Reads

end Named

section Touched

def Frame.argument (f : Frame) : List Frame → List (Frame × ℕ)
  | [] => []
  | g :: _ =>
    if opcode f.i = some .getarg ∧ (getBx f.i).toInt < f.argc.toInt then
      [(g, f.args + (getBx f.i).toNat)]
    else []

variable (prog) in
/-- The registers that the next step reads or writes, with the frames that they belong to. -/
def Control.touched : Control → List (Frame × ℕ)
  | .ret _ [] => []
  | .ret _ (f :: _) => [(f, (getA f.i).toNat)]
  | .run f callers =>
    match (prog.find f.path).bind f.dispatched with
    | none => []
    | some i => (registers i).map (fun r => (f, r)) ++ f.argument callers

variable (prog source) in
def Control.RegistersInside (control : Control) : Prop :=
  ∀ p ∈ control.touched prog, ∃ b, source.find p.1.path = some b ∧ p.1.stack.length = b.regc.toNat ∧
    p.2 < b.regc.toNat

def Block.KeepsRegisters (source : Block) : Prop :=
  ∀ path b, source.find path = some b → ∀ i ∈ b.code, ∀ r ∈ registers i, r < b.regc.toNat

variable (prog) in
def Control.InCode : Control → Prop
  | .ret _ _ => True
  | .run f _ => ∀ b ∈ prog.find f.path, ∀ _i ∈ f.dispatched b, 0 ≤ f.pc ∧ f.pc < b.code.length

lemma Config.Confined.inCode (h : c.Confined host prog)
    (hcode : ∀ path b, prog.find path = some b → b.code ≠ []) : c.control.InCode prog := by
  cases hc : c.control with
  | ret v callers => trivial
  | run f callers =>
    intro b hb i hi
    obtain ⟨j, hj, hj'⟩ := (h f callers b hc hb (hcode _ _ hb)).1 i hi
    have hlt := (List.getElem?_eq_some_iff.mp hj').1
    omega

end Touched

section Loading

inductive Block.Loaded : Block → Block → Prop
  | mk {b b' : Block} (regc : b'.regc = b.regc) (code : b'.code ⊆ b.code)
      (functions : List.Forall₂ Block.Loaded b.functions b'.children) : Block.Loaded b b'

lemma rebuild_loaded {reader : ℕ → BitVec 32} (mem : LoadMemory) {path : Path} (ha : b.Addressable)
    (h : rebuild reader mem path b = some b') : b.Loaded b' := by
  induction ha generalizing path b' with
  | @mk b hfile hfunc hk _ ih =>
    obtain ⟨source, name, k, l, -, -, hl, rfl⟩ := rebuild_fields mem h
    have hfunctions : List.Forall₂ Block.Loaded b.functions l := by
      have hboth := (List.forall₂_and_left _ _).mpr ⟨ih, rebuilds_forall₂ mem hl⟩
      exact hboth.imp (fun c c' hc => hc.2.elim (fun p hp => hc.1 hp))
    exact .mk rfl (List.take_subset _ _) hfunctions

lemma Block.Loaded.find {path : Path} {c' : Block} (h : b.Loaded b') (hc' : b'.find path = some c') :
    ∃ c, b.find path = some c ∧ c.Loaded c' := by
  induction path generalizing b b' with
  | nil =>
    cases hc'
    exact ⟨b, rfl, h⟩
  | cons i path ih =>
    obtain ⟨-, -, hfunctions⟩ := h
    rw [Block.find] at hc'
    obtain ⟨d', hd', hrest⟩ := Option.bind_eq_some_iff.mp hc'
    obtain ⟨hi', rfl⟩ := List.getElem?_eq_some_iff.mp hd'
    have hi : i < b.functions.length := by
      rw [hfunctions.length_eq]
      exact hi'
    obtain ⟨c, hc, hloaded⟩ := ih (hfunctions.get hi hi') hrest
    have hchild : b.children[i]? = some b.functions[i] := by
      have hcount : i < b.numchildren.toNat := by
        rw [Block.functions, List.length_take] at hi
        omega
      rw [← List.getElem?_eq_getElem hi, Block.functions, List.getElem?_take, if_pos hcount]
    exact ⟨c, by rw [Block.find, hchild]; exact hc, hloaded⟩

end Loading

section Invariant

variable (source) in
def Frame.Allocated (f : Frame) : Prop :=
  ∃ b, source.find f.path = some b ∧ f.stack.length = b.regc.toNat

def Control.waiting : Control → List Frame
  | .run _ callers => callers
  | .ret _ callers => callers

variable (host prog source) in
/-- What holds of the frames as long as no word names a register that its frame has not: they have
the registers that the source asks for, their arguments lie in the registers of the caller, and so
does the register that a result goes to. -/
structure Control.Sized (control : Control) : Prop where
  allocated : ∀ f ∈ control.frames, f.Allocated source
  linked : control.frames.IsChain (fun f g => f.args + f.argc.toNat ≤ g.stack.length)
  waits : ∀ f ∈ control.waiting, (getA f.i).toNat < f.stack.length
  fetched : ∀ f callers, control = .run f callers → ∃ clock b, prog.find f.path = some b ∧
    fetch host clock b f.path f.pc = some f.i

lemma linked_replace {f' : Frame} (h : (f :: callers).IsChain
      (fun f g => f.args + f.argc.toNat ≤ g.stack.length))
    (hargs : f'.args = f.args) (hargc : f'.argc = f.argc) :
    (f' :: callers).IsChain (fun f g => f.args + f.argc.toNat ≤ g.stack.length) := by
  rw [List.isChain_cons] at h ⊢
  rw [hargs, hargc]
  exact h

lemma Control.Sized.goes {distance : ℤ} {clock : ℕ} {i : Inst} (hb : prog.find f.path = some b)
    (hallocated : ∀ g ∈ f :: callers, g.Allocated source)
    (hlinked : (f :: callers).IsChain (fun f g => f.args + f.argc.toNat ≤ g.stack.length))
    (hwaits : ∀ g ∈ callers, (getA g.i).toNat < g.stack.length)
    (hi : fetch host clock b f.path (f.pc + distance + 1) = some i) (hg : g.path = f.path)
    (hlen : g.stack.length = f.stack.length) (hargs : g.args = f.args) (hargc : g.argc = f.argc)
    (hpc : g.pc = f.pc) : (Control.run (g.moved distance i) callers).Sized host prog source := by
  obtain ⟨⟨b₀, hb₀, hlen₀⟩, hcallers⟩ := List.forall_mem_cons.mp hallocated
  refine ⟨List.forall_mem_cons.mpr ⟨⟨b₀, ?_, hlen.trans hlen₀⟩, hcallers⟩,
    linked_replace hlinked hargs hargc, hwaits, ?_⟩
  · change source.find g.path = some b₀
    rw [hg, hb₀]
  · rintro _ _ ⟨⟩
    refine ⟨clock, b, ?_, ?_⟩
    · change prog.find g.path = some b
      rw [hg, hb]
    · change fetch host clock b g.path (g.pc + distance + 1) = some i
      rw [hg, hpc, hi]

lemma Control.Sized.enters {args : ℕ} {argc : BitVec 32} {path : Path} {clock : ℕ} {i : Inst}
    (hload : source.Loaded prog) (hb : prog.find path = some b)
    (h : (Control.run f callers).Sized host prog source) (hargs : args + argc.toNat ≤ f.stack.length)
    (ha : (getA f.i).toNat < f.stack.length) (hi : fetch host clock b path 0 = some i) :
    (Control.run (.fresh host clock b path args argc i) (f :: callers)).Sized host prog source := by
  obtain ⟨b₀, hb₀, hregc, -, -⟩ := hload.find hb
  refine ⟨List.forall_mem_cons.mpr ⟨⟨b₀, hb₀, ?_⟩, h.allocated⟩,
    .cons_cons hargs h.linked, List.forall_mem_cons.mpr ⟨ha, h.waits⟩, ?_⟩
  · simp [Frame.fresh, hregc]
  · rintro _ _ ⟨⟩
    exact ⟨clock, b, hb, hi⟩

lemma Control.Sized.advances (hload : source.Loaded prog) (h : control.Sized host prog source)
    (hregisters : ∀ f callers b, control = .run f callers → prog.find f.path = some b →
      f.dispatched b = some f.i → ∀ r ∈ registers f.i, r < f.stack.length)
    (hadv : Advances host prog s argv control control' s') : control'.Sized host prog source := by
  cases hadv with
  | @back v f callers b i hb ha hi =>
    exact .goes hb h.allocated h.linked (List.forall_mem_cons.mp h.waits).2 hi rfl
      (List.length_set) rfl rfl rfl
  | ended hb hd =>
    exact ⟨(List.forall_mem_cons.mp h.allocated).2, h.linked.tail, h.waits, nofun⟩
  | store hb hd hx ha hi =>
    exact .goes hb h.allocated h.linked h.waits hi rfl (List.length_set) rfl rfl rfl
  | go hb hd hx hi => exact .goes hb h.allocated h.linked h.waits hi rfl rfl rfl rfl rfl
  | leave hb hd hx =>
    exact ⟨(List.forall_mem_cons.mp h.allocated).2, h.linked.tail, h.waits, nofun⟩
  | @enter f callers b callee path args argc s₁ i hb hd hx hcallee hi =>
    obtain ⟨ho, rfl, rfl⟩ := exec_enter hx
    have hword := hregisters f callers b rfl hb hd
    have hlast : (getB f.i).toNat + (getC f.i).toNat ∈ registers f.i := by
      simp only [registers, ho]
      exact List.mem_cons_of_mem _ (List.mem_range'_1.mpr ⟨by omega, by omega⟩)
    refine .enters hload hcallee h ?_ ?_ hi
    · have := hword _ hlast
      omega
    · exact hword _ (getA_mem_registers ho nofun nofun)

lemma Control.Sized.names (hload : source.Loaded prog) (hkeeps : source.KeepsRegisters)
    (h : (Control.run f callers).Sized host prog source) (hb : prog.find f.path = some b)
    (hin : 0 ≤ f.pc ∧ f.pc < b.code.length) : ∀ r ∈ registers f.i, r < f.stack.length := by
  obtain ⟨clock, b', hb', hi⟩ := h.fetched f callers rfl
  cases hb.symm.trans hb'
  rw [fetch, if_pos hin] at hi
  obtain ⟨b₁, hb₁, hlen⟩ := h.allocated f List.mem_cons_self
  obtain ⟨b₀, hb₀, hregc, hcode, -⟩ := hload.find hb
  cases hb₀.symm.trans hb₁
  rw [hlen]
  exact hkeeps _ _ hb₀ f.i (hcode (List.mem_of_getElem? hi))

lemma Control.Sized.registersInside (hload : source.Loaded prog) (hkeeps : source.KeepsRegisters)
    (h : control.Sized host prog source) (hin : control.InCode prog) :
    control.RegistersInside prog source := by
  rw [RegistersInside]
  cases control with
  | ret v frames =>
    cases frames with
    | nil => nofun
    | cons f callers =>
      obtain ⟨b, hb, hlen⟩ := h.allocated f List.mem_cons_self
      exact List.forall_mem_singleton.mpr ⟨b, hb, hlen, hlen ▸ h.waits f List.mem_cons_self⟩
  | run f callers =>
    rw [touched]
    cases hword : (prog.find f.path).bind f.dispatched with
    | none => nofun
    | some i =>
      obtain ⟨b', hb', hi⟩ := Option.bind_eq_some_iff.mp hword
      obtain rfl := Frame.dispatched_word hi
      obtain ⟨b, hb, hlen⟩ := h.allocated f List.mem_cons_self
      refine List.forall_mem_append.mpr ⟨List.forall_mem_map.mpr (fun r hr => ?_), ?_⟩
      · exact ⟨b, hb, hlen, hlen ▸ h.names hload hkeeps hb' (hin b' hb' _ hi) r hr⟩
      · cases callers with
        | nil => nofun
        | cons g callers =>
          rw [Frame.argument]
          split_ifs with harg
          · obtain ⟨b₁, hb₁, hlen₁⟩ := h.allocated g (by simp [Control.frames])
            obtain ⟨hargs, -⟩ := List.isChain_cons_cons.mp h.linked
            have hargc := BitVec.toInt_eq_toNat_cond f.argc
            have hlow := f.argc.isLt
            have hlt := harg.2
            rw [getBx_toInt] at hlt
            refine List.forall_mem_singleton.mpr ⟨b₁, hb₁, hlen₁, ?_⟩
            split_ifs at hargc <;> omega
          · nofun

end Invariant

lemma Config.initial_sized {path : Path} {argc : BitVec 32} (hload : source.Loaded prog)
    (h : Config.initial host prog s path argc argv = .ok c) : c.control.Sized host prog source := by
  rw [Config.initial] at h
  cases henter : interpret host prog path 0 0 argc s with
  | error e => simp [henter, bind, Except.bind] at h
  | ok x =>
    obtain ⟨f, s'⟩ := x
    simp only [henter] at h
    obtain ⟨callee, i, hcallee, hi, rfl, -⟩ := interpret_fresh henter
    obtain ⟨b₀, hb₀, hregc, -, -⟩ := hload.find hcallee
    rw [← Except.ok.inj h]
    refine ⟨List.forall_mem_singleton.mpr ⟨b₀, hb₀, ?_⟩, .singleton _,
      fun g hg => absurd hg List.not_mem_nil, ?_⟩
    · simp [Frame.fresh, hregc]
    · rintro _ _ ⟨⟩
      exact ⟨_, callee, hcallee, hi⟩

lemma Config.step_sized (hload : source.Loaded prog) (hkeeps : source.KeepsRegisters)
    (hstep : c.step host prog = .on d) (h : c.control.Sized host prog source)
    (hin : c.control.InCode prog) : d.control.Sized host prog source := by
  obtain ⟨s, hadv, -, -⟩ := Config.step_cases hstep
  refine h.advances hload (fun f callers b hc hb hd => ?_) hadv
  rw [hc] at h hin
  exact h.names hload hkeeps hb (hin b hb _ hd)

theorem registers_inside {mem : Memory} (lmem : LoadMemory) (padding : List Output → BitVec 48)
    {filename : CharPtr} {file r : List Byte} {n : Byte} {argc : BitVec 32} {c : ℕ → Config} {m : ℕ}
    (hname : filename.addr ≠ 0) (h : compileFile mem filename file = .done source r)
    (ha : source.Addressable) (hfile : throughFile reader lmem memmove padding source = some (n, prog))
    (hinit : Config.initial host prog s [] argc argv = .ok (c 0))
    (hrun : ∀ t < m, (c t).step host prog = .on (c (t + 1))) (hkeeps : source.KeepsRegisters)
    (hin : ∀ t ≤ m, (c t).control.InCode prog) :
    ∀ t ≤ m, (c t).control.RegistersInside prog source := by
  have hassembled := compileFile_assembled mem hname h
  rw [throughFile_eq lmem padding reader_reports (hassembled.toProto_sound ha)] at hfile
  obtain ⟨prog', hrebuild, heq⟩ := Option.map_eq_some_iff.mp hfile
  obtain ⟨-, rfl⟩ := Prod.mk.inj heq
  have hload := rebuild_loaded lmem ha hrebuild
  have hr : Run (fun c d : Config => c.step host prog' = .on d) c m := hrun
  have hsized := hr.invariant (Config.initial_sized hload hinit)
    (fun hstep hs hc => Config.step_sized hload hkeeps hstep hs hc) (fun t ht => hin t (by omega))
  exact fun t ht => (hsized t ht).registersInside hload hkeeps (hin t ht)

/-- sample/function.s without its comments, and with a number for the string: it asks for one register
and calls into the second. -/
def functionSource : List Byte := bytes (
  ">HEAD\n.regs 1\n<HEAD\n>CODE\nclosure 0 0 ;\ncall 1 0 0 ;\nreturn 1 ;\n<CODE\n>CONST\n4#\n" ++
  ">HEAD\n.regs 1\n<HEAD\n>CODE\nloadk 0 0 ;\nreturn 0 ;\n<CODE\n>CONST\n1#7\n<CONST\n<CONST\n")

def firstConfig (prog : Block) : Except Halt Config :=
  Config.initial plainHost prog (Shared.new plainHost prog []) [] 0 []

lemma eq_ok_of_toOption {α : Type} {x : Except Halt α} {a : α} (h : x.toOption = some a) :
    x = .ok a := by
  cases x with
  | error e => cases h
  | ok b => rw [Option.some.inj h]

theorem function_writes_outside : ∃ source r n prog c d,
    compileFile default sampleName functionSource = .done source r ∧
    throughFile reader default memmove (fun _ => 0) source = some (n, prog) ∧
    firstConfig prog = .ok c ∧ c.step plainHost prog = .on d ∧
    ¬ d.control.RegistersInside prog source := by
  have hcheck : (compileFile default sampleName functionSource).value?.bind (fun source =>
      (throughFile reader default memmove (fun _ => 0) source).bind (fun x =>
        (firstConfig x.2).toOption.bind (fun c => (c.step plainHost x.2).config.map (fun d =>
          (source.regc, (d.control.touched x.2).map (fun p => (p.1.path, p.2))))))) =
      some (1, [([], 1), ([], 0)]) := by decide +kernel
  obtain ⟨source, hsource, hcheck⟩ := Option.bind_eq_some_iff.mp hcheck
  obtain ⟨r, hr⟩ := Outcome.done_of_value hsource
  obtain ⟨⟨n, prog⟩, hfile, hcheck⟩ := Option.bind_eq_some_iff.mp hcheck
  obtain ⟨c, hc, hcheck⟩ := Option.bind_eq_some_iff.mp hcheck
  obtain ⟨d, hd, hcheck⟩ := Option.map_eq_some_iff.mp hcheck
  obtain ⟨hregc, htouched⟩ := Prod.mk.inj hcheck
  have hmem : ([], 1) ∈ (d.control.touched prog).map (fun p => (p.1.path, p.2)) := by
    rw [htouched]
    exact List.mem_cons_self
  obtain ⟨⟨f, x⟩, hp, heq⟩ := List.mem_map.mp hmem
  obtain ⟨hpath, rfl⟩ := Prod.mk.inj heq
  refine ⟨source, r, n, prog, c, d, hr, hfile, eq_ok_of_toOption hc, Step.config_eq hd,
    fun hinside => ?_⟩
  obtain ⟨b, hb, -, hlt⟩ := hinside _ hp
  rw [hpath] at hb
  cases hb
  rw [hregc] at hlt
  exact absurd hlt (Nat.lt_irrefl 1)

def keptSource : List Byte :=
  bytes ">HEAD\n.regs 1 ;\n<HEAD\n>CODE\nloadnull 0 ;\nreturn 0 ;\n<CODE\n>CONST\n<CONST\n"

def keptCode : List Inst := [0xffffc004, 0xffffc01b]

lemma Block.find_childless (h : b.children = []) {path : Path} {b' : Block}
    (hb : b.find path = some b') : b' = b := by
  cases path with
  | nil => exact (Option.some.inj hb).symm
  | cons i path =>
    rw [find, h] at hb
    cases hb

lemma keptCode_closed (h : b.children = []) (hcode : b.code = keptCode) :
    ∀ path c, b.find path = some c → c.code ≠ [] ∧ c.Closed := by
  intro path c hc
  obtain rfl := Block.find_childless h hc
  simp only [Block.Closed, Lands, hcode]
  decide

lemma keptCode_keepsRegisters (h : b.children = []) (hcode : b.code = keptCode)
    (hregc : b.regc.toNat = 1) : b.KeepsRegisters := by
  intro path c hc
  rw [Block.find_childless h hc, hcode, hregc]
  have hnames : keptCode.map registers = [[0], [0]] := by decide
  intro i hi r hr
  have hi' : registers i = [0] := by simpa [hnames] using List.mem_map_of_mem (f := registers) hi
  rw [hi', List.mem_singleton] at hr
  omega

theorem registers_inside_loadnull : ∃ source r n prog c,
    compileFile default sampleName keptSource = .done source r ∧
    throughFile reader default memmove (fun _ => 0) source = some (n, prog) ∧ firstConfig prog = .ok c ∧
    ∀ t ≤ 1, (c.after plainHost prog t).control.RegistersInside prog source := by
  have hcheck : (compileFile default sampleName keptSource).value?.bind (fun source =>
      (throughFile reader default memmove (fun _ => 0) source).bind (fun x =>
        (firstConfig x.2).toOption.map (fun c =>
          ([source.children.length, source.k.length, x.2.children.length, source.regc.toNat],
            [source.code, x.2.code], (c.step plainHost x.2).config.isSome,
            decide (source.filename.text.chars.length + 1 < 2 ^ 64),
            decide (source.funcname.text.chars.length + 1 < 2 ^ 64))))) =
      some ([0, 0, 0, 1], [keptCode, keptCode], true, true, true) := by decide +kernel
  obtain ⟨source, hsource, hcheck⟩ := Option.bind_eq_some_iff.mp hcheck
  obtain ⟨r, hr⟩ := Outcome.done_of_value hsource
  obtain ⟨⟨n, prog⟩, hfile, hcheck⟩ := Option.bind_eq_some_iff.mp hcheck
  obtain ⟨c, hc, hcheck⟩ := Option.map_eq_some_iff.mp hcheck
  obtain ⟨⟨hchildren, hk, hchildren', hregc⟩, ⟨hcode, hcode'⟩, hstep, hfilename, hfuncname⟩ :
      (source.children = [] ∧ source.k = [] ∧ prog.children = [] ∧ source.regc.toNat = 1) ∧
      (source.code = keptCode ∧ prog.code = keptCode) ∧
      (c.step plainHost prog).config.isSome = true ∧ source.filename.text.chars.length + 1 < 2 ^ 64 ∧
      source.funcname.text.chars.length + 1 < 2 ^ 64 := by simpa using hcheck
  have haddr : source.Addressable := by
    refine .mk hfilename hfuncname (by simp [hk]) (fun b hb => ?_)
    rw [Block.functions, hchildren] at hb
    simp at hb
  have hclosed := keptCode_closed hchildren' hcode'
  have hrun : ∀ t < 1, (c.after plainHost prog t).step plainHost prog =
      .on (c.after plainHost prog (t + 1)) := by
    intro t ht
    obtain rfl := Nat.lt_one_iff.mp ht
    exact Config.step_after hstep
  have hinit : firstConfig prog = .ok (c.after plainHost prog 0) := eq_ok_of_toOption hc
  have hconfined := closed_confined (fun path b hb _ => (hclosed path b hb).2) hinit hrun
  refine ⟨source, r, n, prog, c, hr, hfile, hinit, ?_⟩
  exact registers_inside default _ (by decide) hr haddr hfile hinit hrun
    (keptCode_keepsRegisters hchildren hcode hregc)
    (fun t ht => (hconfined t ht).inCode (fun path b hb => (hclosed path b hb).1))

end Bijou
