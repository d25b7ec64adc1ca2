import Bijou.Calls
import Bijou.Library.CallStack

/-! The interpreter as vm.c and func.c write it: `bijou_interpret` calls itself, through
`BijouFunction_call`, for every function of the program that is called. The machine with its waiting
frames does the same. -/

namespace Bijou

open CallStack Runs

variable {host : Host} {prog b : Block} {f f' : Frame} {s s' : Shared} {argv : List TValue}
  {callers : List Frame} {c d : Config} {v : TValue}

section Interpreter

def timed {α : Type} (x : Exec α) : Exec α := do
  let a ← x
  modify (fun s => { s with clock := s.clock + 1 })
  return a

variable (host : Host) (prog : Block)

def Frame.pass (argv : List TValue) (f : Frame) : Exec (Pass Frame TValue) := do
  let b ← found (prog.find f.path)
  match f.dispatched b with
  | none =>
    let s ← get
    return .leave (createNone (host.garbage s.clock))
  | some _ =>
    match ← exec host b f argv with
    | .store v => return .on (← (← f.setA v).next host b 0)
    | .go distance => return .on (← f.next host b distance)
    | .leave v => return .leave v
    | .enter path args argc => return .call (← interpret host prog path 0 args argc)

def Frame.resume (f : Frame) (v : TValue) : Exec Frame := do
  let b ← found (prog.find f.path)
  (← f.setA v).next host b 0

def interpreter : Interpreter Frame Shared (List TValue) TValue Halt where
  pass argv f := timed (f.pass host prog argv)
  resume f v := timed (f.resume host prog v)
  window f := f.stack

/-- The loop of `bijou_interpret` from a frame on, with the calls in it; no result where the fuel
does not last. -/
def bijouInterpret (fuel : ℕ) (argv : List TValue) (f : Frame) (s : Shared) :
    Option (Except Halt (TValue × Shared)) := (interpreter host prog).recurse fuel argv f s

def Config.Deeper (base : List Frame) (c d : Config) : Prop :=
  base.length < c.control.frames.length ∧ c.step host prog = .on d

def Config.Returns (callers : List Frame) (c : Config) (v : TValue) (s' : Shared) : Prop :=
  ∃ k d, Reaches (Config.Deeper host prog callers) k c d ∧ d.control = .ret v callers ∧
    d.shared = s'

def Config.Aborts (callers : List Frame) (c : Config) (h : Halt) : Prop :=
  ∃ k d, Reaches (Config.Deeper host prog callers) k c d ∧
    callers.length < d.control.frames.length ∧ d.step host prog = .halt h

end Interpreter

section Steps

def Control.calls : Control → CallStack.Control Frame TValue
  | .run f callers => .run f callers
  | .ret v callers => .ret v callers

def Config.calls (c : Config) : CallStack.Control Frame TValue × Shared := (c.control.calls, c.shared)

lemma Control.calls_depth (control : Control) : control.calls.depth = control.frames.length := by
  cases control <;> rfl

lemma Control.calls_inj {control control' : Control} (h : control.calls = control'.calls) :
    control = control' := by
  cases control <;> cases control' <;> cases h <;> rfl

variable (host prog)

lemma view_eq (argv : List TValue) (callers : List Frame) :
    (interpreter host prog).view argv callers = window argv callers := by
  cases callers <;> rfl

def passed (f : Frame) (callers : List Frame) : Pass Frame TValue → Control
  | .on f' => .run f' callers
  | .leave v => .ret v callers
  | .call g => .run g (f :: callers)

lemma advance_pass (argv : List TValue) (f : Frame) (callers : List Frame) :
    advance host prog argv (.run f callers) = (do
      let p ← f.pass host prog (window argv callers)
      return passed f callers p) := by
  rw [advance, Frame.pass, bind_assoc]
  refine bind_congr (fun b => ?_)
  cases f.dispatched b with
  | none => rfl
  | some w =>
    dsimp only
    rw [bind_assoc]
    refine bind_congr (fun a => ?_)
    cases a with
    | leave v => rfl
    | store v | go distance | enter path args argc => simp only [bind_assoc, pure_bind, passed]

lemma advance_resume (argv : List TValue) (f : Frame) (callers : List Frame) (v : TValue) :
    advance host prog argv (.ret v (f :: callers)) = (do
      return .run (← f.resume host prog v) callers) := by
  rw [advance, Frame.resume, bind_assoc]
  refine bind_congr (fun b => ?_)
  rw [bind_assoc]

lemma timed_eq {α : Type} (x : Exec α) (s : Shared) :
    timed x s = (x s).map (fun p => (p.1, { p.2 with clock := p.2.clock + 1 })) := by
  rw [timed]
  cases h : x s with
  | error e => rw [bind_apply_error h]; rfl
  | ok p => rw [bind_apply_ok h]; rfl

lemma interpreter_pass (argv : List TValue) (f : Frame) (s : Shared) :
    (interpreter host prog).pass argv f s =
      (f.pass host prog argv s).map (fun p => (p.1, { p.2 with clock := p.2.clock + 1 })) :=
  timed_eq _ s

lemma interpreter_resume (f : Frame) (v : TValue) (s : Shared) :
    (interpreter host prog).resume f v s =
      (f.resume host prog v s).map (fun p => (p.1, { p.2 with clock := p.2.clock + 1 })) :=
  timed_eq _ s

lemma Config.step_calls (c : Config) :
    (interpreter host prog).step c.argv c.control.calls c.shared = match c.step host prog with
      | .on d => some (.ok d.calls)
      | .done _ => none
      | .halt e => some (.error e) := by
  rcases c with ⟨s, ⟨f, callers⟩ | ⟨v, _ | ⟨f, callers⟩⟩, argv⟩
  · have hadv := congrFun (advance_pass host prog argv f callers) s
    simp only [Config.step, Control.calls, Interpreter.step, view_eq, interpreter_pass]
    rw [hadv]
    rcases hp : f.pass host prog (window argv callers) s with e | ⟨p, s₁⟩
    · rw [bind_apply_error hp]
      rfl
    · rw [bind_apply_ok hp]
      cases p <;> rfl
  · rfl
  · have hadv := congrFun (advance_resume host prog argv f callers v) s
    simp only [Config.step, Control.calls, Interpreter.step, interpreter_resume]
    rw [hadv]
    rcases hr : f.resume host prog v s with e | ⟨f', s₁⟩
    · rw [bind_apply_error hr]
      rfl
    · rw [bind_apply_ok hr]
      rfl

variable {host prog}

lemma Config.deeper_iff {base : List Frame} : c.Deeper host prog base d ↔
    (interpreter host prog).Above c.argv base c.calls d.calls ∧ d.argv = c.argv := by
  have hstep := Config.step_calls host prog c
  rw [Config.Deeper, Interpreter.Above, Config.calls, Control.calls_depth, hstep]
  constructor
  · rintro ⟨hdepth, h⟩
    obtain ⟨-, -, -, hargv⟩ := Config.step_cases h
    exact ⟨⟨hdepth, by rw [h]⟩, hargv⟩
  · rintro ⟨⟨hdepth, h⟩, hargv⟩
    refine ⟨hdepth, ?_⟩
    cases hc : c.step host prog with
    | on d' =>
      rw [hc] at h
      obtain ⟨-, -, -, hargv'⟩ := Config.step_cases hc
      obtain ⟨hcontrol, hshared⟩ := Prod.mk.inj (Except.ok.inj (Option.some.inj h))
      rcases d with ⟨s₁, control, argv₁⟩
      rcases d' with ⟨s₂, control', argv₂⟩
      obtain rfl : s₂ = s₁ := hshared
      obtain rfl : control' = control := Control.calls_inj hcontrol
      obtain rfl : argv₂ = argv₁ := hargv'.trans hargv.symm
      rfl
    | done v => rw [hc] at h; cases h
    | halt e => rw [hc] at h; cases h

lemma Config.reaches_calls {base : List Frame} {k : ℕ}
    (h : Reaches (Config.Deeper host prog base) k c d) :
    Reaches ((interpreter host prog).Above c.argv base) k c.calls d.calls ∧ d.argv = c.argv := by
  induction h with
  | refl x => exact ⟨.refl _, rfl⟩
  | head hs _ ih =>
    obtain ⟨habove, hargv⟩ := Config.deeper_iff.mp hs
    rw [hargv] at ih
    exact ⟨.head habove ih.1, ih.2⟩

lemma Config.reaches_of_calls {base : List Frame} {k : ℕ} {y : CallStack.Control Frame TValue × Shared}
    (h : Reaches ((interpreter host prog).Above c.argv base) k c.calls y) :
    ∃ d, Reaches (Config.Deeper host prog base) k c d ∧ d.calls = y ∧ d.argv = c.argv := by
  generalize hx : c.calls = x at h
  generalize ha : c.argv = argv at h
  induction h generalizing c with
  | refl x => exact ⟨c, .refl c, hx, ha⟩
  | @head n x y z hs _ ih =>
    -- a control of the library stands for one of the machine
    obtain ⟨d, hd, hargv⟩ : ∃ d : Config, d.calls = y ∧ d.argv = argv := by
      obtain ⟨control, s⟩ := y
      cases control with
      | run f callers => exact ⟨⟨s, .run f callers, argv⟩, rfl, rfl⟩
      | ret v callers => exact ⟨⟨s, .ret v callers, argv⟩, rfl, rfl⟩
    obtain ⟨e, he, hcalls, heargv⟩ := ih hd hargv
    rw [← hx, ← hd, ← ha] at hs
    exact ⟨e, .head (Config.deeper_iff.mpr ⟨hs, hargv.trans ha.symm⟩) he, hcalls, heargv⟩

end Steps

variable (host prog c) in
lemma recurse_calls_iff (hc : c.control = .run f callers) :
    (∀ v s', (∃ fuel, bijouInterpret host prog fuel (window c.argv callers) f c.shared =
        some (.ok (v, s'))) ↔ c.Returns host prog callers v s') ∧
    ∀ h, (∃ fuel, bijouInterpret host prog fuel (window c.argv callers) f c.shared =
        some (.error h)) ↔ c.Aborts host prog callers h := by
  have hcalls : c.calls = (.run f callers, c.shared) := by rw [Config.calls, hc]; rfl
  simp only [bijouInterpret, ← view_eq host prog]
  constructor
  · intro v s'
    rw [Interpreter.recurse_iff]
    constructor
    · rintro ⟨k, hk⟩
      rw [← hcalls] at hk
      obtain ⟨d, hd, hdc, -⟩ := Config.reaches_of_calls hk
      obtain ⟨hcontrol, hshared⟩ := Prod.mk.inj hdc
      exact ⟨k, d, hd, Control.calls_inj hcontrol, hshared⟩
    · rintro ⟨k, d, hd, hcontrol, hshared⟩
      refine ⟨k, ?_⟩
      have hk := (Config.reaches_calls hd).1
      rwa [hcalls, Config.calls, hcontrol, hshared] at hk
  · intro h
    rw [Interpreter.recurse_error_iff]
    constructor
    · rintro ⟨k, x, hk, hdepth, hhalt⟩
      rw [← hcalls] at hk
      obtain ⟨d, hd, rfl, hargv⟩ := Config.reaches_of_calls hk
      have hstep := Config.step_calls host prog d
      rw [hargv] at hstep
      refine ⟨k, d, hd, Control.calls_depth d.control ▸ hdepth, ?_⟩
      replace hhalt := hstep.symm.trans hhalt
      cases hs : d.step host prog with
      | on e => rw [hs] at hhalt; cases hhalt
      | done v => rw [hs] at hhalt; cases hhalt
      | halt e => rw [hs] at hhalt; cases hhalt; rfl
    · rintro ⟨k, d, hd, hdepth, hhalt⟩
      obtain ⟨hk, hargv⟩ := Config.reaches_calls hd
      have hstep := Config.step_calls host prog d
      rw [hcalls] at hk
      rw [hargv, hhalt] at hstep
      exact ⟨k, d.calls, hk, (Control.calls_depth d.control).symm ▸ hdepth, hstep⟩

/-- The machine comes back to the callers of a frame just when the recursion of the source returns,
with the same value and the same state, and it halts where the recursion does. -/
theorem bijouInterpret_iff (s : Shared) (f : Frame) (callers : List Frame) (argv : List TValue) :
    (∀ v s', (∃ fuel, bijouInterpret host prog fuel (window argv callers) f s = some (.ok (v, s'))) ↔
      Config.Returns host prog callers ⟨s, .run f callers, argv⟩ v s') ∧
    ∀ h, (∃ fuel, bijouInterpret host prog fuel (window argv callers) f s = some (.error h)) ↔
      Config.Aborts host prog callers ⟨s, .run f callers, argv⟩ h :=
  recurse_calls_iff host prog ⟨s, .run f callers, argv⟩ rfl

section Arguments

variable {w w' : List TValue}

def Frame.SameArguments (f : Frame) (w w' : List TValue) : Prop :=
  ∀ j, j < f.argc.toInt.toNat → w[f.args + j]? = w'[f.args + j]?

lemma exec_arguments (h : f.SameArguments w w') : exec host b f w s = exec host b f w' s := by
  rw [exec, exec, bind_apply_ok (get_eq_ok.mpr rfl), bind_apply_ok (get_eq_ok.mpr rfl)]
  cases ho : opcode f.i with
  | none => rfl
  | some o =>
    cases o with
    | getarg =>
      dsimp only
      by_cases hle : f.argc.toInt ≤ (getBx f.i).toInt
      · simp only [if_pos hle]
      · have hread := h (getBx f.i).toNat (by rw [getBx_toInt] at hle; omega)
        simp only [if_neg hle, hread]
    | _ => rfl

lemma Frame.pass_arguments (h : f.SameArguments w w') :
    f.pass host prog w s = f.pass host prog w' s := by
  rw [Frame.pass, Frame.pass]
  cases hb : prog.find f.path with
  | none => rfl
  | some b =>
    rw [bind_apply_ok (found_eq_ok.mpr ⟨rfl, rfl⟩), bind_apply_ok (found_eq_ok.mpr ⟨rfl, rfl⟩)]
    cases f.dispatched b with
    | none => rfl
    | some i =>
      dsimp only
      cases hx : exec host b f w s with
      | error e =>
        rw [bind_apply_error hx, bind_apply_error ((exec_arguments h).symm.trans hx)]
      | ok p => rw [bind_apply_ok hx, bind_apply_ok ((exec_arguments h).symm.trans hx)]

lemma Frame.pass_on (h : f.pass host prog w s = .ok (.on f', s')) :
    f'.args = f.args ∧ f'.argc = f.argc := by
  obtain ⟨b, s₁, -, h⟩ := bind_eq_ok.mp h
  cases hd : f.dispatched b with
  | none =>
    simp only [hd] at h
    obtain ⟨s₂, s₃, -, hpure⟩ := bind_eq_ok.mp h
    cases pure_eq_ok.mp hpure
  | some i =>
    simp only [hd] at h
    obtain ⟨a, s₂, -, hact⟩ := bind_eq_ok.mp h
    cases a with
    | store v =>
      obtain ⟨g, s₃, hset, hnext⟩ := bind_eq_ok.mp hact
      obtain ⟨-, rfl, -⟩ := Frame.setA_stored hset
      obtain ⟨g', s₄, hmove, hpure⟩ := bind_eq_ok.mp hnext
      obtain ⟨i, -, rfl, -⟩ := Frame.next_eq hmove
      cases pure_eq_ok.mp hpure
      exact ⟨rfl, rfl⟩
    | go distance =>
      obtain ⟨g, s₃, hmove, hpure⟩ := bind_eq_ok.mp hact
      obtain ⟨i, -, rfl, -⟩ := Frame.next_eq hmove
      cases pure_eq_ok.mp hpure
      exact ⟨rfl, rfl⟩
    | leave v => cases pure_eq_ok.mp hact
    | enter path args argc =>
      obtain ⟨g, s₃, -, hpure⟩ := bind_eq_ok.mp hact
      cases pure_eq_ok.mp hpure

lemma Frame.resume_arguments (h : f.resume host prog v s = .ok (f', s')) :
    f'.args = f.args ∧ f'.argc = f.argc := by
  obtain ⟨b, s₁, -, h⟩ := bind_eq_ok.mp h
  obtain ⟨g, s₂, hset, hmove⟩ := bind_eq_ok.mp h
  obtain ⟨-, rfl, -⟩ := Frame.setA_stored hset
  obtain ⟨i, -, rfl, -⟩ := Frame.next_eq hmove
  exact ⟨rfl, rfl⟩

lemma Frame.SameArguments.of_eq (h : f.SameArguments w w') (hf : f'.args = f.args ∧ f'.argc = f.argc) :
    f'.SameArguments w w' := by
  rw [Frame.SameArguments, hf.1, hf.2]
  exact h

lemma interpreter_pass_on (h : (interpreter host prog).pass w f s = .ok (.on f', s')) :
    f'.args = f.args ∧ f'.argc = f.argc := by
  rw [interpreter_pass] at h
  cases hp : f.pass host prog w s with
  | error e => rw [hp] at h; cases h
  | ok p =>
    obtain ⟨q, s₁⟩ := p
    rw [hp] at h
    cases h
    exact Frame.pass_on hp

lemma interpreter_resume_arguments (h : (interpreter host prog).resume f v s = .ok (f', s')) :
    f'.args = f.args ∧ f'.argc = f.argc := by
  rw [interpreter_resume] at h
  cases hr : f.resume host prog v s with
  | error e => rw [hr] at h; cases h
  | ok p =>
    obtain ⟨g, s₁⟩ := p
    rw [hr] at h
    cases h
    exact Frame.resume_arguments hr

variable (host prog s) in
lemma bijouInterpret_arguments (fuel : ℕ) (h : f.SameArguments w w') :
    bijouInterpret host prog fuel w f s = bijouInterpret host prog fuel w' f s := by
  induction fuel generalizing f s with
  | zero => rfl
  | succ fuel ih =>
    have hpass : (interpreter host prog).pass w f s = (interpreter host prog).pass w' f s := by
      rw [interpreter_pass, interpreter_pass, Frame.pass_arguments h]
    rw [bijouInterpret, bijouInterpret, Interpreter.recurse, Interpreter.recurse, ← hpass]
    rcases hp : (interpreter host prog).pass w f s with e | ⟨f' | v | g, s₁⟩
    · rfl
    · exact ih s₁ (h.of_eq (interpreter_pass_on hp))
    · rfl
    · dsimp only
      rcases (interpreter host prog).recurse fuel _ g s₁ with _ | e | ⟨v, s₂⟩
      · rfl
      · rfl
      · dsimp only
        rcases hr : (interpreter host prog).resume f v s₂ with e | ⟨f', s₃⟩
        · rfl
        · exact ih s₃ (h.of_eq (interpreter_resume_arguments hr))

end Arguments

/-- A function that runs sees no more of the frames below it than its arguments: on top of any others
it returns the same value with the same effects, or halts in the same way, or runs forever too. -/
theorem callee_sees_arguments {callers' : List Frame} {argv' : List TValue}
    (h : f.SameArguments (window argv callers) (window argv' callers')) :
    (∀ v s', Config.Returns host prog callers ⟨s, .run f callers, argv⟩ v s' ↔
      Config.Returns host prog callers' ⟨s, .run f callers', argv'⟩ v s') ∧
    ∀ e, Config.Aborts host prog callers ⟨s, .run f callers, argv⟩ e ↔
      Config.Aborts host prog callers' ⟨s, .run f callers', argv'⟩ e := by
  have hiff := recurse_calls_iff host prog ⟨s, .run f callers, argv⟩ rfl
  have hiff' := recurse_calls_iff host prog ⟨s, .run f callers', argv'⟩ rfl
  have hsame (fuel : ℕ) := bijouInterpret_arguments host prog s fuel h
  refine ⟨fun v s' => ?_, fun e => ?_⟩
  · rw [← hiff.1, ← hiff'.1]
    simp only [hsame]
  · rw [← hiff.2, ← hiff'.2]
    simp only [hsame]

def echoFrame : Frame := .fresh plainHost 0 echoBlock [0] 1 1 OpCode.getarg.code

theorem callee_sees_arguments_echo :
    let s := Shared.new plainHost callBlock []
    (∀ v s', Config.Returns plainHost callBlock [callFrame] ⟨s, .run echoFrame [callFrame], []⟩ v s' ↔
      Config.Returns plainHost callBlock [] ⟨s, .run echoFrame [], [intValue 7, nullValue]⟩ v s') ∧
    ∀ e, Config.Aborts plainHost callBlock [callFrame] ⟨s, .run echoFrame [callFrame], []⟩ e ↔
      Config.Aborts plainHost callBlock [] ⟨s, .run echoFrame [], [intValue 7, nullValue]⟩ e := by
  have hsame : echoFrame.SameArguments (window [] [callFrame]) (window [intValue 7, nullValue] []) := by
    intro j hj
    obtain rfl : j = 0 := Nat.lt_one_iff.mp hj
    rfl
  exact callee_sees_arguments hsame

end Bijou
