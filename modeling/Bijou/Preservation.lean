import Bijou.Alike
import Bijou.Locals
import Bijou.Skeleton

/-! Running a program that went through its file: every step of the source tree, for as long as no
word looks beneath its values, is a step of the tree that was loaded. -/

namespace Bijou

open Agreement CString Incremental Runs

variable {host host' : Host} {prog prog' b b' : Block} {f g : Frame} {s t : Shared}
  {argv argv' : List TValue} {callers callers' : List Frame} {control control' : Control}
  {c d : Config} {v w : TValue}

section Steps

lemma Block.Alike.refl (b : Block) : b.Alike b := by
  refine @Block.rec (fun b => b.Alike b) (fun l => List.Forall₂ Block.Alike l l) ?_ .nil ?_ b
  · intro k locals upvals code regc numglobal argc linedefined lastlinedefined filename funcname
      numchildren children ih
    exact .mk rfl rfl rfl rfl rfl (List.forall₂_same.mpr (fun v _ => .inr (.refl v))) ih
  · exact fun b children hb hchildren => .cons hb hchildren

lemma Block.Alike.find (h : prog.Alike prog') (path : Path) :
    Option.Rel Block.Alike (prog.find path) (prog'.find path) := by
  induction path generalizing prog prog' with
  | nil => exact .some h
  | cons i path ih =>
    obtain ⟨-, -, -, -, -, -, hchildren⟩ := h
    have hchild := forall₂_getElem? hchildren i
    rw [Block.find, Block.find]
    generalize prog.children[i]? = p at hchild ⊢
    generalize prog'.children[i]? = q at hchild ⊢
    cases hchild with
    | none => exact .none
    | some h => exact ih h

lemma fetch_alike (hb : b.Alike b') (clock : ℕ) (path : Path) (pc : ℤ) :
    fetch host clock b' path pc = fetch host clock b path pc := by
  obtain ⟨hcode, -⟩ := hb
  rw [fetch, fetch, hcode]

lemma interpret_agrees (hprog : prog.Alike prog') (hs : s.Alike t) (path : Path) (start : ℤ)
    (args : ℕ) (argc : BitVec 32) :
    Agrees Shared.Alike Frame.Alike (interpret host prog path start args argc s)
      (interpret host prog' path start args argc t) := by
  refine agrees_bind_get ?_
  refine (agrees_found (hprog.find path) hs).bind (fun b b' s₁ t₁ hb hs₁ => ?_)
  rw [fetch_alike hb, hs.clock]
  obtain ⟨-, hregc, -⟩ := hb
  refine (agrees_found_same _ hs₁).bind (fun i i' s₂ t₂ hi hs₂ => ?_)
  obtain rfl := hi
  refine agrees_pure ⟨(List.range b.regc.toNat).map (host.stack s.clock), ?_, .refl _⟩ hs₂
  rw [hregc]

lemma setA_agrees {stack : List TValue} (hstack : Values f.stack stack) (hv : v.Alike w)
    (hs : s.Alike t) :
    Agrees Shared.Alike Frame.Alike (f.setA v s) (Frame.setA { f with stack } w t) := by
  rw [Frame.setA, Frame.setA]
  dsimp only
  rw [← hstack.length_eq]
  by_cases ha : (getA f.i).toNat < f.stack.length
  · rw [if_pos ha, if_pos ha]
    exact agrees_pure ⟨_, rfl, forall₂_set hstack hv _⟩ hs
  · rw [if_neg ha, if_neg ha]
    exact agrees_throw _

lemma next_agrees {stack : List TValue} (hb : b.Alike b') (hstack : Values f.stack stack)
    (hs : s.Alike t) (distance : ℤ) :
    Agrees Shared.Alike Frame.Alike (f.next host b distance s)
      (Frame.next host b' { f with stack } distance t) := by
  refine agrees_bind_get ?_
  dsimp only
  rw [fetch_alike hb, hs.clock]
  refine (agrees_found_same _ hs).bind (fun i i' s₁ t₁ hi hs₁ => ?_)
  obtain rfl := hi
  exact agrees_pure ⟨stack, rfl, hstack⟩ hs₁

lemma stored_agrees {stack : List TValue} (hb : b.Alike b') (hstack : Values f.stack stack)
    (hv : v.Alike w) (hs : s.Alike t) (hcallers : List.Forall₂ Frame.Alike callers callers') :
    Agrees Shared.Alike Control.Alike
      ((do return .run (← (← f.setA v).next host b 0) callers : Exec Control) s)
      ((do return .run (← (← Frame.setA { f with stack } w).next host b' 0) callers' : Exec Control) t) := by
  refine (setA_agrees hstack hv hs).bind (fun g g' s₁ t₁ hg hs₁ => ?_)
  obtain ⟨stack₁, rfl, hstack₁⟩ := hg
  exact (next_agrees hb hstack₁ hs₁ 0).bind (fun _ _ _ _ hg hs => agrees_pure (.run hg hcallers) hs)

lemma window_agrees (hargv : Values argv argv') (hcallers : List.Forall₂ Frame.Alike callers callers') :
    Values (window argv callers) (window argv' callers') := by
  cases hcallers with
  | nil => exact hargv
  | cons hf _ =>
    obtain ⟨stack, rfl, hstack⟩ := hf
    exact hstack

def Config.Peeks (host : Host) (prog : Block) (c : Config) : Prop :=
  ∃ f callers b, c.control = .run f callers ∧ prog.find f.path = some b ∧
    f.dispatched b = some f.i ∧ f.Peeks host host b c.shared

lemma advance_agrees (hprog : prog.Alike prog') (hcontrol : control.Alike control')
    (hargv : Values argv argv') (hs : s.Alike t)
    (hpeek : ∀ f callers b, control = .run f callers → prog.find f.path = some b →
      f.dispatched b = some f.i → ¬ f.Peeks host host b s) :
    Agrees Shared.Alike Control.Alike (advance host prog argv control s)
      (advance host prog' argv' control' t) := by
  cases hcontrol with
  | @ret v w callers callers' hv hcallers =>
    cases hcallers with
    | nil => exact agrees_pure (.ret hv .nil) hs
    | @cons f g callers callers' hf hcallers =>
      obtain ⟨stack, rfl, hstack⟩ := hf
      refine (agrees_found (hprog.find f.path) hs).bind (fun b b' s₁ t₁ hb hs₁ => ?_)
      exact stored_agrees hb hstack hv hs₁ hcallers
  | @run f g callers callers' hf hcallers =>
    obtain ⟨stack, rfl, hstack⟩ := hf
    refine (agrees_found (hprog.find f.path) hs).bind_of (fun b b' s₁ t₁ hx hb hs₁ => ?_)
    obtain ⟨hfind, rfl⟩ := found_eq_ok.mp hx
    have hdispatched : Frame.dispatched b' { f with stack } = f.dispatched b := by
      obtain ⟨hcode, -⟩ := hb
      rw [Frame.dispatched, Frame.dispatched, hcode]
    rw [hdispatched]
    cases hd : f.dispatched b with
    | none =>
      refine agrees_bind_get ?_
      rw [hs₁.clock]
      exact agrees_pure (.ret (.refl _) hcallers) hs₁
    | some word =>
      obtain rfl := Frame.dispatched_word hd
      have hwindow := window_agrees hargv hcallers
      have hexec := exec_agrees (.refl host) hb hs₁ (fun r _ => forall₂_getElem? hstack r)
        (hpeek f callers b rfl hfind hd) (fun _ _ => forall₂_getElem? hwindow _) (.inl rfl)
      refine hexec.bind (fun a a' s₂ t₂ ha hs₂ => ?_)
      cases ha with
      | store hv => exact stored_agrees hb hstack hv hs₂ hcallers
      | go distance =>
        exact (next_agrees hb hstack hs₂ distance).bind
          (fun _ _ _ _ hg hs => agrees_pure (.run hg hcallers) hs)
      | leave hv => exact agrees_pure (.ret hv hcallers) hs₂
      | enter path args argc =>
        exact (interpret_agrees hprog hs₂ path 0 args argc).bind
          (fun _ _ _ _ hg hs => agrees_pure (.run hg (.cons ⟨stack, rfl, hstack⟩ hcallers)) hs)

lemma Shared.Alike.tick (hs : s.Alike t) :
    Shared.Alike { s with clock := s.clock + 1 } { t with clock := t.clock + 1 } :=
  ⟨hs.vm, hs.heap, hs.locals, hs.printed, congrArg (· + 1) hs.clock⟩

def Config.goes (c : Config) : Except Halt (Control × Shared) → Step
  | .ok (control, s) => .on { c with shared := { s with clock := s.clock + 1 }, control }
  | .error h => .halt h

lemma goes_alike (hargv : Values c.argv d.argv) {x y : Except Halt (Control × Shared)}
    (h : Agrees Shared.Alike Control.Alike x y) : (c.goes x).Alike (d.goes y) := by
  cases h with
  | ok hcontrol hs => exact .on ⟨hs.tick, hcontrol, hargv⟩
  | error e => exact .halt e

lemma Config.step_agrees (hprog : prog.Alike prog') (h : c.Alike d) (hpeek : ¬ c.Peeks host prog) :
    (c.step host prog).Alike (d.step host prog') := by
  obtain ⟨hs, hcontrol, hargv⟩ := h
  have hadvance := advance_agrees hprog hcontrol hargv hs
    (fun f callers b hc hb hd hp => hpeek ⟨f, callers, b, hc, hb, hd, hp⟩)
  rw [Config.step, Config.step]
  generalize c.control = control at hcontrol hadvance
  generalize d.control = control' at hcontrol hadvance
  cases hcontrol with
  | run hf hcallers => exact goes_alike hargv hadvance
  | ret hv hcallers =>
    cases hcallers with
    | nil => exact .done hv
    | cons hf hcallers => exact goes_alike hargv hadvance

def Config.PlainStep (host : Host) (prog : Block) (c d : Config) : Prop :=
  ¬ c.Peeks host prog ∧ c.step host prog = .on d

lemma run_agrees (hprog : prog.Alike prog') {c c' : Config} {n : ℕ}
    (hrun : Reaches (Config.PlainStep host prog) n c c') (h : c.Alike d) :
    ∃ d', Reaches (fun c d : Config => c.step host prog' = .on d) n d d' ∧ c'.Alike d' := by
  refine hrun.follows (fun c₀ c₁ d₀ hstep h => ?_) h
  have hboth := Config.step_agrees hprog h hstep.1
  rw [hstep.2] at hboth
  generalize d₀.step host prog' = x at hboth ⊢
  cases hboth with
  | on h₁ => exact ⟨_, rfl, h₁⟩

end Steps

section File

/-- Strings that are not empty and that no escape changes, and fewer than `2 ^ 32` words in every
function. -/
inductive Block.Portable : Block → Prop
  | mk {b : Block} (code : b.code.length < 2 ^ 32)
      (strings : ∀ o ∈ b.k, o.tt = .string → backslash ∉ o.value.s.chars ∧ o.value.s.chars ≠ [])
      (children : ∀ c ∈ b.children, Block.Portable c) : Block.Portable b

lemma legible_of_plain {s : BijouString} (hs : backslash ∉ s.chars) (hlen : s.chars.length < 2 ^ 31) :
    s.Legible reader := by
  refine ⟨s.chars, decode_plain hs, fun h => ?_⟩
  have h' : (s.chars.length + 1) % 2 ^ 32 = 2 ^ 32 - 1 := by
    simpa [reader] using congrArg BitVec.toNat h
  omega

lemma TValue.Kept.alike {o o' : TValue} (h : o.Kept o') (hmade : o.Made)
    (hsound : o.tt = .string → o.value.s.Sound)
    (hplain : o.tt = .string → backslash ∉ o.value.s.chars ∧ o.value.s.chars ≠ []) :
    o.tt = .function ∨ o.Alike o' := by
  rw [TValue.Kept] at h
  rw [TValue.Made] at hmade
  rw [TValue.Alike]
  cases htt : o.tt with
  | null =>
    rw [htt] at h
    exact .inr ⟨h.symm, trivial⟩
  | number =>
    rw [htt] at h
    exact .inr ⟨h.1.symm, h.2.symm⟩
  | boolean =>
    rw [htt] at h
    exact .inr ⟨h.1.symm, h.2.symm⟩
  | function => exact .inl rfl
  | none | pointer =>
    rw [htt] at hmade
    exact hmade.elim
  | string =>
    rw [htt] at h
    obtain ⟨htag, hdecode, hlen⟩ := h
    obtain ⟨hescape, hne⟩ := hplain htt
    rw [decode_plain hescape, Option.some_inj] at hdecode
    have haddr : o.value.s.ptr.addr ≠ 0 := fun h0 => hne (if_pos h0)
    have haddr' : o'.value.s.ptr.addr ≠ 0 := fun h0 => hne (hdecode.trans (if_pos h0))
    refine .inr ⟨htag.symm, ?_, ?_, iff_of_false haddr haddr'⟩
    · exact BitVec.eq_of_toNat_eq (by rw [(hsound htt).len, hlen, hdecode])
    · rw [BijouString.chars, BijouString.chars, if_neg haddr, if_neg haddr'] at hdecode
      exact Subtype.ext hdecode

lemma Block.Copied.alike {b b' : Block} (h : b.Copied b') (hkept : b.Kept b') (hb : Assembled b)
    (hplain : b.Plain) (hport : b.Portable) : b.Alike b' := by
  induction hport generalizing b' with
  | @mk b hlen hstrings hports ih =>
    obtain ⟨-, hname, -, -, hregc, hargc, hcode, hnum, hchildren⟩ := h
    obtain ⟨hk, hfunctions⟩ := hkept
    obtain ⟨-, -, hmade, -, hassembled⟩ := hb
    obtain ⟨-, -, -, -, hsound, hcount, hplains⟩ := hplain
    have hall : b.functions = b.children := by rw [Block.functions, hcount, List.take_length]
    have hall' : b'.functions = b'.children := by
      rw [Block.functions, hnum, hcount, hchildren.length_eq, List.take_length]
    rw [hall, hall'] at hfunctions
    refine .mk (hcode.trans (take_mod_iff.mpr hlen)) hregc hargc hname hnum ?_ ?_
    · have hboth := (List.forall₂_and_left _ _).mpr ⟨fun o ho => ho, hk⟩
      exact hboth.imp fun o o' ho => ho.2.alike (hmade o ho.1) (hsound o ho.1) (hstrings o ho.1)
    · have hboth := (List.forall₂_and_left _ _).mpr ⟨fun c hc => hc, hchildren⟩
      exact List.Forall₂.mp (fun c c' hc hkept => ih c hc.1 hc.2 hkept (hassembled c hc.1)
        (hplains c hc.1)) hboth hfunctions

lemma Assembled.addressable {b : Block} (hb : Assembled b) (hplain : b.Plain) : b.Addressable := by
  induction hplain with
  | @mk b hfile hname _ _ hsound _ _ ih =>
    obtain ⟨-, -, hmade, -, hchildren⟩ := hb
    refine .mk hfile.fits hname.fits (fun o ho htt => ?_) (fun c hc => ?_)
    · have hlive : o.value.s.ptr.addr ≠ 0 := (hmade o ho).live htt
      have hfits := (hsound o ho htt).fits
      rw [BijouString.chars, if_neg hlive] at hfits
      exact hfits
    · have hmem := List.mem_of_mem_take hc
      exact ih c hmem (hchildren c hmem)

lemma Block.Portable.unescaped {b : Block} (hport : b.Portable) (hplain : b.Plain) : b.Unescaped := by
  induction hport with
  | @mk b _ hstrings _ ih =>
    obtain ⟨hfile, hfunc, -, -, -, -, hplains⟩ := hplain
    refine .mk hfile.unescaped hfunc.unescaped (fun o ho htt => (hstrings o ho htt).1) (fun c hc => ?_)
    have hmem := List.mem_of_mem_take hc
    exact ih c hmem (hplains c hmem)

lemma throughFile_alike (lmem : LoadMemory) (strcpy : Strcpy) (padding : List Output → BitVec 48) {b : Block}
    (hb : Assembled b) (hplain : b.Plain) (hport : b.Portable) (hintact : Intact reader lmem [] b) :
    ∃ b', throughFile reader lmem strcpy padding b = some (b.numglobal, b') ∧ b.Alike b' := by
  obtain ⟨b', hrebuild, hkept⟩ :=
    (survives_iff lmem [] reader_reports hb (hb.addressable hplain)).mpr hintact
  refine ⟨b', ?_, (rebuild_copied lmem hplain hrebuild).alike hkept hb hplain hport⟩
  rw [throughFile_unescaped lmem strcpy padding (hport.unescaped hplain) hplain.toProto_sound,
    throughFile_eq lmem padding reader_reports hplain.toProto_sound, hrebuild]
  rfl

lemma throughFile_bare {reader : ℕ → BitVec 32} {mem : LoadMemory} {strcpy : Strcpy}
    {padding : List Output → BitVec 48} {b b' : Block} {n : Byte}
    (h : throughFile reader mem strcpy padding b = some (n, b')) : b'.Bare := by
  rw [throughFile] at h
  rcases hdump : bijouDump strcpy padding (toProto b) [] with ⟨out, e | f⟩
  · simp [hdump] at h
  · simp only [hdump] at h
    cases hload : bijouLoad reader mem (out.flatMap Output.bytes) with
    | done p r =>
      simp only [hload] at h
      exact protoToBlock_bare mem h
    | exit e => simp [hload] at h
    | await q => simp [hload] at h

lemma internalConstants_alike (hh : host.Resembles host') :
    Values (internalConstants host) (internalConstants host') := by
  have hnumber : ∀ (g g' : Value) (x : LongDouble), (createNumber g x).Alike (createNumber g' x) :=
    fun g g' x => number_alike (by rw [Value.setNum_n, Value.setNum_n])
  have hpointer : ∀ (g g' : Value) (p : BitVec 64), (createPointer g p).Alike (createPointer g' p) :=
    fun _ _ _ => ⟨rfl, rfl⟩
  rw [internalConstants, internalConstants, hh.stdin, hh.stdout, hh.stderr]
  exact .cons (hnumber _ _ _) (.cons (hnumber _ _ _) (.cons (hnumber _ _ _) (.cons (hpointer _ _ _)
    (.cons (hpointer _ _ _) (.cons (hpointer _ _ _) .nil)))))

lemma loaded_resembles (prog prog' : Block) (libs : List (Option Library)) {n : ℕ}
    (hh : host.Resembles host') (hglobals : ∀ j < n, (host.stack 0 j).Alike (host'.stack 0 j))
    (hlocals : ∀ path, Values ((Shared.loaded host prog libs n).locals path)
      ((Shared.loaded host' prog' libs n).locals path)) :
    (Shared.loaded host prog libs n).Alike (Shared.loaded host' prog' libs n) := by
  refine ⟨⟨?_, ?_, internalConstants_alike hh, rfl⟩, ?_, hlocals, rfl, rfl⟩
  · change Values ((List.range n).map (host.stack 0)) ((List.range n).map (host'.stack 0))
    rw [Values, List.forall₂_map_left_iff, List.forall₂_map_right_iff]
    exact List.forall₂_same.mpr (fun j hj => hglobals j (List.mem_range.mp hj))
  · change (List.range _).map host'.malloc = (List.range _).map host.malloc
    rw [hh.malloc]
  · change List.Forall₂ _
      (internalFunctions.mapIdx (fun i f => (host.malloc i, internalFunction f.1 f.2)))
      (internalFunctions.mapIdx (fun i f => (host'.malloc i, internalFunction f.1 f.2)))
    rw [hh.malloc]
    exact List.forall₂_same.mpr (fun p _ => ⟨rfl, rfl, rfl, rfl, rfl, rfl⟩)

lemma loaded_alike (hprog : prog.Bare) (hprog' : prog'.Bare) (libs : List (Option Library)) (n : ℕ) :
    (Shared.loaded host prog libs n).Alike (Shared.loaded host prog' libs n) := by
  refine loaded_resembles prog prog' libs (.refl host) (fun j _ => .refl _) (fun path => ?_)
  rw [hprog.loaded_noLocals libs n path, hprog'.loaded_noLocals libs n path]
  exact .nil

lemma initial_agrees (hprog : prog.Alike prog') (hs : s.Alike t) {path : Path} {argc : BitVec 32}
    (h : Config.initial host prog s path argc argv = .ok c) :
    ∃ d, Config.initial host prog' t path argc argv = .ok d ∧ c.Alike d := by
  have hagrees : Agrees Shared.Alike Frame.Alike (interpret host prog path 0 0 argc s)
      (interpret host prog' path 0 0 argc t) := interpret_agrees hprog hs path 0 0 argc
  rw [Config.initial] at h ⊢
  generalize interpret host prog path 0 0 argc s = x at hagrees h
  generalize interpret host prog' path 0 0 argc t = y at hagrees ⊢
  cases hagrees with
  | error e => cases h
  | ok hf hs' =>
    cases h
    exact ⟨_, rfl, hs', .run hf .nil, .refl _⟩

/-- From the start on the machines go through alike states, for as long as no word of the first
looks beneath its values. -/
def Block.RunsAlike (host : Host) (libs : List (Option Library)) (n : ℕ) (b b' : Block) : Prop :=
  ∀ c, Config.initial host b (Shared.loaded host b libs n) [] 0 [] = .ok c →
    ∃ d, Config.initial host b' (Shared.loaded host b' libs n) [] 0 [] = .ok d ∧
      ∀ k c', Reaches (Config.PlainStep host b) k c c' →
        ∃ d', Reaches (fun c d : Config => c.step host b' = .on d) k d d' ∧ c'.Alike d' ∧
          (¬ c'.Peeks host b → (c'.step host b).Alike (d'.step host b'))

lemma Block.Alike.runsAlike (h : prog.Alike prog') (hbare : prog.Bare) (hbare' : prog'.Bare)
    (host : Host) (libs : List (Option Library)) (n : ℕ) : prog.RunsAlike host libs n prog' := by
  intro c hc
  obtain ⟨d, hd, hcd⟩ := initial_agrees h (loaded_alike hbare hbare' libs n) hc
  refine ⟨d, hd, fun k c' hrun => ?_⟩
  obtain ⟨d', hreach, hcd'⟩ := run_agrees h hrun hcd
  exact ⟨d', hreach, hcd', fun hpeek => Config.step_agrees h hcd' hpeek⟩

end File

/-- A program runs from its file as the assembler made it: for as long as no word looks beneath its
values, the two machines print the same, call the same, stop on the same error and return the same
value, up to the addresses of strings. -/
theorem reloaded_runs_alike {mem : Memory} (lmem : LoadMemory) (strcpy : Strcpy)
    (padding : List Output → BitVec 48) (host : Host) (libs : List (Option Library)) {filename : CharPtr}
    {file r : List Byte} {b : Block}
    (hname : filename.addr ≠ 0) (h : compileFile mem filename file = .done b r) (hplain : b.Plain)
    (hport : b.Portable) (hintact : Intact reader lmem [] b) :
    ∃ b', throughFile reader lmem strcpy padding b = some (b.numglobal, b') ∧
      b.RunsAlike host libs b.numglobal.toNat b' := by
  have hassembled := compileFile_assembled mem hname h
  obtain ⟨b', hfile, halike⟩ := throughFile_alike lmem strcpy padding hassembled hplain hport hintact
  exact ⟨b', hfile, halike.runsAlike (bare_invariant.file mem h) (throughFile_bare hfile) host libs _⟩

def greetingSource : List Byte :=
  bytes ">HEAD\n.regs 1\n<HEAD\n>CODE\nloadk 0 0 ;\nreturn 0 ;\n<CODE\n>CONST\n3#\"hi\"\n<CONST\n"

def greeting : TValue := ⟨.string, .ofString (.new ⟨1, CStr.at (bytes "hi")⟩)⟩

lemma greeting_assembled : ∃ b r,
    compileFile default sampleName greetingSource = .done b r ∧ b.k = [greeting] ∧ b.Plain ∧
      b.Portable ∧ Intact reader default [] b := by
  have hcheck : (compileFile default sampleName greetingSource).value?.map (fun b =>
      (b.k, b.code, [b.children.length, b.numchildren.toNat, b.linedefined.toNat,
        b.lastlinedefined.toNat], [b.filename, b.funcname])) =
      some ([greeting], [2, 4294950939], [0, 0, 0, 0],
        [sampleName, .to (CStr.at (bytes "main"))]) := by decide +kernel
  obtain ⟨b, hb, hval⟩ := Option.map_eq_some_iff.mp hcheck
  obtain ⟨r, hr⟩ := Outcome.done_of_value hb
  simp only [Prod.mk.injEq, List.cons.injEq, and_true, List.length_eq_zero_iff] at hval
  obtain ⟨hk, hcode, ⟨hchildren, hnum, hline, hlast⟩, hfile, hfunc⟩ := hval
  have hstring : greeting.value.s.chars = bytes "hi" := by decide +kernel
  have hplain : b.Plain := by
    refine .mk (hfile ▸ .of_text (by decide) (by decide +kernel))
      (hfunc ▸ .of_text (by decide) (by decide +kernel)) (by omega) (by omega) ?_
      (by rw [hchildren, hnum]; rfl) (hchildren ▸ List.forall_mem_nil _)
    rw [hk]
    exact List.forall_mem_singleton.mpr (fun _ => ⟨by decide +kernel, by decide +kernel⟩)
  have hport : b.Portable := by
    refine .mk (by simp [hcode]) ?_ (hchildren ▸ List.forall_mem_nil _)
    rw [hk]
    exact List.forall_mem_singleton.mpr (fun _ => by rw [hstring]; decide +kernel)
  have hintact : Intact reader default [] b := by
    refine .mk ⟨?_, ?_, by omega, by omega, by simp [hcode]⟩ (by simp [hk]) ?_ ?_ ?_ ?_
    · rw [hfile]
      exact legible_of_plain (by decide +kernel) (by decide +kernel)
    · rw [hfunc]
      exact legible_of_plain (by decide +kernel) (by decide +kernel)
    · rw [hk]
      exact List.forall_mem_singleton.mpr (legible_of_plain (by decide +kernel) (by decide +kernel))
    · rw [hk]
      exact List.forall_mem_singleton.mpr (fun htt => absurd htt (by decide))
    · rw [hk]
      exact List.pairwise_singleton _ _
    · intro i c hc
      simp [Block.functions, hchildren] at hc
  exact ⟨b, r, hr, hk, hplain, hport, hintact⟩

theorem reloaded_runs_alike_greeting : ∃ b r,
    compileFile default sampleName greetingSource = .done b r ∧ b.k = [greeting] ∧
    ∃ b', throughFile reader default memmove (fun _ => 0) b = some (b.numglobal, b') ∧
      b.RunsAlike plainHost [] b.numglobal.toNat b' := by
  obtain ⟨b, r, hr, hk, hplain, hport, hintact⟩ := greeting_assembled
  exact ⟨b, r, hr, hk, reloaded_runs_alike default memmove _ plainHost [] (by decide) hr hplain hport hintact⟩

end Bijou
