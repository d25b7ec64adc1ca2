import Bijou.Effects

namespace Bijou

open Runs

variable {host : Host} {prog b : Block} {f : Frame} {s s' : Shared} {argv : List TValue}
  {callers : List Frame} {control control' : Control} {c d : Config}

section Heap

lemma Block.find_append (prog : Block) (path : Path) (j : ℕ) :
    prog.find (path ++ [j]) = (prog.find path).bind (fun b => b.children[j]?) := by
  induction path generalizing prog with
  | nil =>
    cases hj : prog.children[j]? <;> simp [find, hj]
  | cons i path ih =>
    rw [List.cons_append, find, find]
    cases prog.children[i]? with
    | none => rfl
    | some child => exact ih child

def Shared.Built (prog : Block) (s : Shared) : Prop :=
  ∀ p ∈ s.heap, p.2.internal = 0 → ∃ path blk, p.2.block = some path ∧
    prog.find path = some blk ∧ p.2.arity = BitVec.ofNat 32 blk.argc.toNat

lemma Effect.built (h : Effect host b f s s') (hb : prog.find f.path = some b)
    (hs : s.Built prog) : s'.Built prog := by
  cases h with
  | print messages => exact hs
  | setGlobal ho hg hv => exact hs
  | setLocal l ho => exact hs
  | getExternal func ho hfunc =>
    exact List.forall_mem_cons.mpr ⟨fun h0 => absurd h0 hfunc, hs⟩
  | @closure child j ho hj =>
    refine List.forall_mem_cons.mpr ⟨fun _ => ⟨_, child, rfl, ?_, rfl⟩, hs⟩
    rw [Block.find_append, hb]
    exact hj

end Heap

section Globals

def Frame.globalWrite (b : Block) (f : Frame) (s : Shared) : Option (ℕ × TValue) :=
  if opcode f.i = some .setglobal then
    match Access.set.guard .globals b f s, f.stack[(getA f.i).toNat]? with
    | some (some n), some v => some (n, v)
    | _, _ => none
  else none

def Config.globalWrite (prog : Block) (c : Config) : Option (ℕ × TValue) :=
  match c.control with
  | .ret _ _ => none
  | .run f _ => do
    let b ← prog.find f.path
    let _ ← f.dispatched b
    f.globalWrite b c.shared

def written (write : Option (ℕ × TValue)) (globals : List TValue) : List TValue :=
  match write with
  | none => globals
  | some (n, v) => globals.set n v

lemma exec_globals {a : Action} (hx : exec host b f argv s = .ok (a, s')) :
    s'.vm.globals = written (f.globalWrite b s) s.vm.globals := by
  rw [Frame.globalWrite]
  split_ifs with ho
  · have hop : opcode f.i = some (Access.set.op .globals) := ho
    have hexec := exec_access host b s argv hop
    rcases hg : Access.set.guard .globals b f s with _ | _ | n
    · rw [hg, hx] at hexec
      cases hexec
    · rw [hg, hx] at hexec
      obtain ⟨m, hm⟩ := hexec
      cases hm
      rfl
    · rw [hg, hx] at hexec
      obtain ⟨v, s₁, hreg, hmodify⟩ := bind_eq_ok.mp hexec.symm
      obtain ⟨hv, rfl⟩ := found_eq_ok.mp hreg
      cases hmodify
      rw [hv]
      rfl
  · cases exec_effect hx with
    | setGlobal ho' hg hv => exact absurd ho' ho
    | _ => rfl

lemma step_globals (h : c.step host prog = .on d) :
    d.shared.vm.globals = written (c.globalWrite prog) c.shared.vm.globals := by
  obtain ⟨s, hadv, hshared, -⟩ := Config.step_cases h
  rw [hshared, Config.globalWrite]
  generalize c.control = control at hadv
  generalize d.control = control' at hadv
  cases hadv with
  | back hb ha hi => rfl
  | ended hb hd => simp [hb, hd, written]
  | store hb hd hx ha hi => simp [hb, hd, exec_globals hx]
  | go hb hd hx hi => simp [hb, hd, exec_globals hx]
  | leave hb hd hx => simp [hb, hd, exec_globals hx]
  | enter hb hd hx hcallee hi => simp [hb, hd, exec_globals hx]

lemma run_globals {c : ℕ → Config} {m t : ℕ} (hrun : ∀ k < m, (c k).step host prog = .on (c (k + 1)))
    (n : ℕ) (hn : t + n ≤ m) : (c (t + n)).shared.vm.globals =
      (List.range' t n).foldl (fun l k => written ((c k).globalWrite prog) l)
        (c t).shared.vm.globals := by
  induction n with
  | zero => rfl
  | succ n ih =>
    rw [List.range'_concat, List.foldl_append, ← ih (by omega), Nat.one_mul]
    exact step_globals (hrun (t + n) (by omega))

end Globals

section Inside

variable {base : List Frame} {args : ℕ} {argc : BitVec 32}

inductive Control.Inside (base : List Frame) (args : ℕ) (argc : BitVec 32) : Control → Prop
  | callee {g : Frame} (hargs : g.args = args) (hargc : g.argc = argc) :
    Inside base args argc (.run g base)
  | deeper {g h : Frame} {l : List Frame} (hargs : g.args = args) (hargc : g.argc = argc) :
    Inside base args argc (.run h (l ++ g :: base))
  | back {g : Frame} {l : List Frame} {v : TValue} (hargs : g.args = args) (hargc : g.argc = argc) :
    Inside base args argc (.ret v (l ++ g :: base))
  | ends {v : TValue} : Inside base args argc (.ret v base)

section Rules

variable {f f' g : Frame} {cs : List Frame}

lemma Control.Inside.goes (h : Inside base args argc (.run f cs)) (hargs : f'.args = f.args)
    (hargc : f'.argc = f.argc) : Inside base args argc (.run f' cs) := by
  cases h with
  | callee ha hc => exact .callee (hargs.trans ha) (hargc.trans hc)
  | deeper ha hc => exact .deeper ha hc

lemma Control.Inside.leaves (h : Inside base args argc (.run f cs)) (v : TValue) :
    Inside base args argc (.ret v cs) := by
  cases h with
  | callee ha hc => exact .ends
  | deeper ha hc => exact .back ha hc

lemma Control.Inside.enters (h : Inside base args argc (.run f cs)) (g : Frame) :
    Inside base args argc (.run g (f :: cs)) := by
  cases h with
  | callee ha hc => exact .deeper (l := []) ha hc
  | deeper ha hc => exact .deeper (l := _ :: _) ha hc

lemma Control.Inside.resumes {v : TValue} (h : Inside base args argc (.ret v (f :: cs)))
    (hne : f :: cs ≠ base) (hargs : f'.args = f.args) (hargc : f'.argc = f.argc) :
    Inside base args argc (.run f' cs) := by
  generalize hframes : f :: cs = frames at h
  cases h with
  | ends => exact absurd hframes hne
  | back ha hc =>
    rcases List.cons_eq_append_iff.mp hframes with ⟨-, hg⟩ | ⟨l, -, rfl⟩
    · obtain ⟨rfl, rfl⟩ := List.cons.inj hg
      exact .callee (hargs.trans ha) (hargc.trans hc)
    · exact .deeper ha hc

end Rules

lemma Control.Inside.advances (h : control.Inside base args argc)
    (hne : ∀ v, control ≠ .ret v base) (hadv : Advances host prog s argv control control' s') :
    control'.Inside base args argc := by
  cases hadv with
  | back hb ha hi => exact h.resumes (fun hbase => hne _ (by rw [hbase])) rfl rfl
  | ended hb hd => exact h.leaves _
  | store hb hd hx ha hi => exact h.goes rfl rfl
  | go hb hd hx hi => exact h.goes rfl rfl
  | leave hb hd hx => exact h.leaves _
  | enter hb hd hx hcallee hi => exact h.enters _

lemma Control.Inside.callee_window {f : Frame} {cs : List Frame}
    (h : Inside base args argc (.run f cs)) (hcs : cs = base) : f.args = args ∧ f.argc = argc := by
  cases h with
  | callee ha hc => exact ⟨ha, hc⟩
  | deeper ha hc =>
    have hlen := congrArg List.length hcs
    simp at hlen
    omega

end Inside

structure Completes (c : ℕ → Config) (f : Frame) (callers : List Frame) (v : TValue) (t u : ℕ) :
    Prop where
  order : t < u
  calls : (c t).control = .run f callers
  returns : (c u).control = .ret v (f :: callers)
  first : ∀ k, t < k → k < u → ∀ w, (c k).control ≠ .ret w (f :: callers)

structure Disciplined (prog : Block) (c : ℕ → Config) (f : Frame) (callers : List Frame)
    (v : TValue) (t u : ℕ) (path : Path) : Prop where
  params : ∃ callee, prog.find path = some callee ∧ (getC f.i).toNat = callee.argc.toNat
  enters : ∃ g, (c (t + 1)).control = .run g (f :: callers) ∧ g.path = path
  argument : ∀ k g b, t < k → k < u → (c k).control = .run g (f :: callers) → g.At prog b .getarg →
    (getBx g.i).toNat < (getC f.i).toNat → ∃ w g',
      f.stack[(getB f.i).toNat + 1 + (getBx g.i).toNat]? = some w ∧
      (c (k + 1)).control = .run g' (f :: callers) ∧ g'.stack[(getA g.i).toNat]? = some w
  noArgument : ∀ k g b, t < k → k < u → (c k).control = .run g (f :: callers) →
    g.At prog b .getarg → (getC f.i).toNat ≤ (getBx g.i).toNat →
      ∃ garbage, (c (k + 1)).control = .ret (createNone garbage) (f :: callers)
  resumes : ∃ f', (c (u + 1)).control = .run f' callers ∧ f'.pc = f.pc + 1 ∧ f'.path = f.path ∧
    (getA f.i).toNat < f.stack.length ∧ f'.stack = f.stack.set (getA f.i).toNat v ∧
    f'.args = f.args ∧ f'.argc = f.argc
  argv : (c (u + 1)).argv = (c t).argv
  globals : (c (u + 1)).shared.vm.globals =
    (List.range' (t + 1) (u - t)).foldl (fun l k => written ((c k).globalWrite prog) l)
      (c t).shared.vm.globals

section Run

variable {c : ℕ → Config} {m t u : ℕ}

lemma run_argv (hrun : ∀ k < m, (c k).step host prog = .on (c (k + 1))) :
    ∀ k ≤ m, (c k).argv = (c 0).argv := by
  intro k
  induction k with
  | zero => exact fun _ => rfl
  | succ k ih =>
    intro hk
    obtain ⟨s, -, -, hargv⟩ := Config.step_cases (hrun k (by omega))
    exact hargv.trans (ih (by omega))

lemma step_built {c d : Config} (h : c.step host prog = .on d) (hc : c.shared.Built prog) :
    d.shared.Built prog := by
  obtain ⟨s, hadv, hshared, -⟩ := Config.step_cases h
  suffices hs : s.Built prog by
    rw [hshared]
    exact hs
  generalize c.control = control at hadv
  generalize d.control = control' at hadv
  cases hadv with
  | back hb ha hi => exact hc
  | ended hb hd => exact hc
  | store hb hd hx ha hi => exact (exec_effect hx).built hb hc
  | go hb hd hx hi => exact (exec_effect hx).built hb hc
  | leave hb hd hx => exact (exec_effect hx).built hb hc
  | enter hb hd hx hcallee hi => exact (exec_effect hx).built hb hc

lemma Config.initial_shared {path : Path} {argc : BitVec 32} {c : Config}
    (h : Config.initial host prog s path argc argv = .ok c) : c.shared = s := by
  rw [Config.initial] at h
  cases henter : interpret host prog path 0 0 argc s with
  | error e => simp [henter, bind, Except.bind] at h
  | ok r =>
    obtain ⟨f, s'⟩ := r
    simp only [henter] at h
    obtain ⟨callee, i, -, -, -, hs⟩ := interpret_fresh henter
    rw [← Except.ok.inj h, ← hs]

end Run

section Steps

variable {g : Frame} {cs : List Frame}

lemma Shared.new_heap {libs : List (Option Library)} :
    ∀ p ∈ (Shared.new host prog libs).heap, p.2.internal ≠ 0 := by
  intro p hp
  obtain ⟨i, hi, rfl⟩ := List.mem_mapIdx.mp hp
  exact show (1 : BitVec 32) ≠ 0 by decide

lemma step_getarg (h : c.step host prog = .on d) (hc : c.control = .run g cs)
    (hat : g.At prog b .getarg) :
    g.argc.toInt ≤ (getBx g.i).toInt ∧ (∃ garbage, d.control = .ret (createNone garbage) cs) ∨
      (getBx g.i).toInt < g.argc.toInt ∧ ∃ w g',
        (window c.argv cs)[g.args + (getBx g.i).toNat]? = some w ∧ d.control = .run g' cs ∧
          g'.stack[(getA g.i).toNat]? = some w := by
  obtain ⟨s, hadv, -, -⟩ := Config.step_cases h
  rw [hc] at hadv
  generalize d.control = control' at hadv
  cases hadv with
  | ended hb hd =>
    rw [hat.block] at hb
    cases hb
    rw [hat.word] at hd
    cases hd
  | store hb hd hx ha hi =>
    rcases exec_getarg hat.op hx with ⟨-, hleave⟩ | ⟨hlt, w, hw, hstore⟩
    · cases hleave
    · cases hstore
      exact .inr ⟨hlt, _, _, hw, rfl, List.getElem?_set_self ha⟩
  | leave hb hd hx =>
    rcases exec_getarg hat.op hx with ⟨hle, hleave⟩ | ⟨-, w, -, hstore⟩
    · cases hleave
      exact .inl ⟨hle, _, rfl⟩
    · cases hstore
  | go hb hd hx hi => rcases exec_getarg hat.op hx with ⟨-, h⟩ | ⟨-, w, -, h⟩ <;> cases h
  | enter hb hd hx hcallee hi =>
    rcases exec_getarg hat.op hx with ⟨-, h⟩ | ⟨-, w, -, h⟩ <;> cases h

lemma step_call {v : TValue} {func : BijouFunction} (h : c.step host prog = .on d)
    (hc : c.control = .run f callers) (hat : f.At prog b .call) (hbuilt : c.shared.Built prog)
    (hv : f.stack[(getB f.i).toNat]? = some v)
    (hfunc : c.shared.heap.lookup v.value.lo = some func) (hinternal : func.internal = 0) :
    ∃ path callee g, func.block = some path ∧ prog.find path = some callee ∧
      (getC f.i).toNat = callee.argc.toNat ∧ d.control = .run g (f :: callers) ∧ g.path = path ∧
        g.args = (getB f.i).toNat + 1 ∧ g.argc = getC f.i := by
  obtain ⟨l, l', hheap, -⟩ := List.lookup_eq_some_iff.mp hfunc
  obtain ⟨path, callee, hpath, hfind, harity⟩ :=
    hbuilt (v.value.lo, func) (by rw [hheap]; simp) hinternal
  -- the word can do nothing but enter the function
  have hexec : ∀ {a s₁}, exec host b f (window c.argv callers) c.shared = .ok (a, s₁) →
      (getC f.i).toNat = callee.argc.toNat ∧ a = .enter path ((getB f.i).toNat + 1) (getC f.i) := by
    intro a s₁ hx
    obtain ⟨v', func', hv', -, hfunc', hparams, -, henter⟩ := exec_call_cases hat.op hx
    cases hv.symm.trans hv'
    cases hfunc.symm.trans hfunc'
    obtain ⟨path', hpath', ha⟩ := henter hinternal
    cases hpath.symm.trans hpath'
    refine ⟨?_, ha⟩
    have hbyte := callee.argc.toNat_lt
    rcases hparams with hany | hparams
    · rw [harity] at hany
      have := congrArg BitVec.toNat hany
      simp at this
      omega
    · rw [hparams, harity, BitVec.toNat_ofNat, Nat.mod_eq_of_lt (by omega)]
  obtain ⟨s, hadv, -, -⟩ := Config.step_cases h
  rw [hc] at hadv
  generalize d.control = control' at hadv
  have hblock : ∀ {b'}, prog.find f.path = some b' → b' = b := fun hb =>
    Option.some.inj (hb.symm.trans hat.block)
  cases hadv with
  | ended hb hd =>
    rw [hblock hb, hat.word] at hd
    cases hd
  | enter hb hd hx hcallee hi =>
    obtain ⟨hparams, ha⟩ := hexec (hblock hb ▸ hx)
    cases ha
    exact ⟨path, callee, _, hpath, hfind, hparams, rfl, rfl, rfl, rfl⟩
  | store hb hd hx ha hi => cases (hexec (hblock hb ▸ hx)).2
  | go hb hd hx hi => cases (hexec (hblock hb ▸ hx)).2
  | leave hb hd hx => cases (hexec (hblock hb ▸ hx)).2

lemma step_back {v : TValue} (h : c.step host prog = .on d) (hc : c.control = .ret v (f :: callers)) :
    ∃ f', d.control = .run f' callers ∧ f'.pc = f.pc + 1 ∧ f'.path = f.path ∧
      (getA f.i).toNat < f.stack.length ∧ f'.stack = f.stack.set (getA f.i).toNat v ∧
        f'.args = f.args ∧ f'.argc = f.argc := by
  obtain ⟨s, hadv, -, -⟩ := Config.step_cases h
  rw [hc] at hadv
  generalize d.control = control' at hadv
  cases hadv with
  | back hb ha hi => exact ⟨_, rfl, by simp [Frame.moved, Frame.stored], rfl, ha, rfl, rfl, rfl⟩

end Steps

section Completes

variable {c : ℕ → Config} {m t u k : ℕ} {v : TValue} {g : Frame}
  (hcomplete : Completes c f callers v t u)
  (hrun : ∀ k < m, (c k).step host prog = .on (c (k + 1))) (hu : u < m)

include hcomplete hrun hu

lemma Completes.inside {args : ℕ} {argc : BitVec 32}
    (henter : (c (t + 1)).control.Inside (f :: callers) args argc) (htk : t + 1 ≤ k) :
    k ≤ u → (c k).control.Inside (f :: callers) args argc := by
  induction k, htk using Nat.le_induction with
  | base => exact fun _ => henter
  | succ k htk ih =>
    intro hk
    obtain ⟨s, hadv, -, -⟩ := Config.step_cases (hrun k (by omega))
    exact (ih (by omega)).advances (hcomplete.first k (by omega) (by omega)) hadv

lemma Completes.getarg (henter : (c (t + 1)).control.Inside (f :: callers)
      ((getB f.i).toNat + 1) (getC f.i)) (htk : t < k) (hku : k < u)
    (hk : (c k).control = .run g (f :: callers)) (hat : g.At prog b .getarg) :
    (getC f.i).toNat ≤ (getBx g.i).toNat ∧
        (∃ garbage, (c (k + 1)).control = .ret (createNone garbage) (f :: callers)) ∨
      (getBx g.i).toNat < (getC f.i).toNat ∧ ∃ w g',
        f.stack[(getB f.i).toNat + 1 + (getBx g.i).toNat]? = some w ∧
        (c (k + 1)).control = .run g' (f :: callers) ∧ g'.stack[(getA g.i).toNat]? = some w := by
  have hin := hcomplete.inside hrun hu henter (k := k) (by omega) (by omega)
  rw [hk] at hin
  obtain ⟨hargs, hargc⟩ := hin.callee_window rfl
  have hcount : (getC f.i).toInt = (getC f.i).toNat :=
    toInt_small (n := 9) (by norm_num) (BitField.get_lt _ _ _)
  have hstep := step_getarg (hrun k (by omega)) hk hat
  rw [hargs, hargc, hcount, getBx_toInt, Nat.cast_le, Nat.cast_lt] at hstep
  exact hstep

lemma Completes.globals (hat : f.At prog b .call) : (c (u + 1)).shared.vm.globals =
    (List.range' (t + 1) (u - t)).foldl (fun l k => written ((c k).globalWrite prog) l)
      (c t).shared.vm.globals := by
  have horder := hcomplete.order
  have hall := run_globals hrun (u + 1 - t) (t := t) (by omega)
  have hcall : (c t).globalWrite prog = none := by
    rw [Config.globalWrite, hcomplete.calls]
    simp [hat.block, Frame.globalWrite, hat.op]
  rw [show t + (u + 1 - t) = u + 1 by omega, show u + 1 - t = (u - t) + 1 by omega,
    List.range'_succ, List.foldl_cons, hcall] at hall
  exact hall

end Completes

/-- In every run, at every depth of calls: a call of a bytecode function that comes back was made
with as many arguments as the function has parameters, gave it these arguments for as long as it
ran, and changed nothing but the register A of its caller and the globals that were set
meanwhile. -/
theorem call_disciplined {path : Path} {argc : BitVec 32} {c : ℕ → Config} {m t u : ℕ}
    {v w : TValue} {func : BijouFunction}
    (hinit : Config.initial host prog s path argc argv = .ok (c 0))
    (hheap : ∀ p ∈ s.heap, p.2.internal ≠ 0)
    (hrun : ∀ k < m, (c k).step host prog = .on (c (k + 1)))
    (hcomplete : Completes c f callers v t u) (hu : u < m) (hat : f.At prog b .call)
    (hw : f.stack[(getB f.i).toNat]? = some w)
    (hfunc : (c t).shared.heap.lookup w.value.lo = some func) (hinternal : func.internal = 0) :
    ∃ path, func.block = some path ∧ Disciplined prog c f callers v t u path := by
  have hr : Run (fun c d : Config => c.step host prog = .on d) c m := hrun
  have hstart : (c 0).shared.Built prog := by
    rw [Config.initial_shared hinit]
    exact fun p hp h0 => absurd h0 (hheap p hp)
  have hkeep : ∀ {x y : Config}, x.step host prog = .on y → x.shared.Built prog → True →
      y.shared.Built prog := fun h hb _ => step_built h hb
  have horder := hcomplete.order
  have hbuilt : (c t).shared.Built prog :=
    hr.invariant hstart hkeep (fun _ _ => trivial) t (by omega)
  obtain ⟨path, callee, g, hpath, hcallee, hparams, henter, hg, hargs, hargc⟩ :=
    step_call (hrun t (by omega)) hcomplete.calls hat hbuilt hw hfunc hinternal
  have hinside : (c (t + 1)).control.Inside (f :: callers) ((getB f.i).toNat + 1) (getC f.i) := by
    rw [henter]
    exact .callee hargs hargc
  refine ⟨path, hpath, ⟨callee, hcallee, hparams⟩, ⟨g, henter, hg⟩, ?_, ?_,
    step_back (hrun u hu) hcomplete.returns,
    (run_argv hrun _ hu).trans (run_argv hrun _ (by omega)).symm, hcomplete.globals hrun hu hat⟩
  · intro k g b htk hku hk hget hlt
    rcases hcomplete.getarg hrun hu hinside htk hku hk hget with ⟨hle, -⟩ | ⟨-, hread⟩
    · omega
    · exact hread
  · intro k g b htk hku hk hget hle
    rcases hcomplete.getarg hrun hu hinside htk hku hk hget with ⟨-, hleave⟩ | ⟨hlt, -⟩
    · exact hleave
    · omega

def echoBlock : Block :=
  { Block.new default with regc := 1, argc := 1, code := [OpCode.getarg.code, OpCode.return.code] }

def callBlock : Block :=
  { Block.new default with
    regc := 2
    code := [OpCode.closure.code, setC OpCode.call.code 1, OpCode.return.code]
    numchildren := 1
    children := [echoBlock] }

def callConfig : Config where
  shared := Shared.new plainHost callBlock []
  control := .run (.fresh plainHost internalFunctions.length callBlock [] 0 0 OpCode.closure.code) []
  argv := []

def callTrace : ℕ → Config := callConfig.after plainHost callBlock

def callFrame : Frame where
  path := []
  start := 0
  pc := 1
  i := setC OpCode.call.code 1
  stack := [⟨.function, ⟨BitVec.ofNat 64 (16 * (internalFunctions.length + 1)), 0, .empty⟩⟩, nullValue]
  args := 0
  argc := 0
  x := 1

def echoFunction : BijouFunction := ⟨none, 1, echoBlock.funcname, 0, some [0]⟩

theorem call_disciplined_echo : ∃ path, echoFunction.block = some path ∧
    Disciplined callBlock callTrace callFrame [] nullValue 1 4 path := by
  have hruns : ∀ k, 1 < k → k < 4 → ∃ g callers, (callTrace k).control = .run g callers := by
    intro k hk hk'
    interval_cases k
    · exact ⟨_, _, rfl⟩
    · exact ⟨_, _, rfl⟩
  have hcomplete : Completes callTrace callFrame [] nullValue 1 4 := by
    refine ⟨by norm_num, rfl, rfl, fun k hk hk' w hret => ?_⟩
    obtain ⟨g, callers, hrun⟩ := hruns k hk hk'
    rw [hrun] at hret
    cases hret
  have hinit : Config.initial plainHost callBlock (Shared.new plainHost callBlock []) [] 0 [] =
      .ok (callTrace 0) := rfl
  have hsteps : ∀ k < 5, ((callTrace k).step plainHost callBlock).config.isSome = true := by decide +kernel
  have hrun : ∀ k < 5, (callTrace k).step plainHost callBlock = .on (callTrace (k + 1)) :=
    fun k hk => Config.step_after (hsteps k hk)
  have hat : callFrame.At callBlock callBlock .call := ⟨rfl, rfl, by decide⟩
  exact call_disciplined hinit Shared.new_heap hrun hcomplete (by norm_num) hat rfl rfl rfl

end Bijou
