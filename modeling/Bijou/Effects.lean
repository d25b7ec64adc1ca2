import Bijou.Access
import Bijou.Selection

namespace Bijou

variable {host : Host} {prog b : Block} {f : Frame} {s s' : Shared} {argv : List TValue}
  {callers : List Frame}

lemma Shared.report_nil (s : Shared) : s.report [] = s := by
  rw [report, List.append_nil]

lemma Shared.report_report (s : Shared) (l m : List Message) :
    (s.report l).report m = s.report (l ++ m) := by
  rw [report, report, report, List.append_assoc]

def Quiet {α : Type} (x : Exec α) : Prop := ∀ s a s', x s = .ok (a, s') → ∃ m, s' = s.report m

section Quiet

variable {α β : Type}

lemma quiet_pure (a : α) : Quiet (pure a) := by
  intro s a' s' h
  cases pure_eq_ok.mp h
  exact ⟨[], s.report_nil.symm⟩

lemma quiet_throw (e : Halt) : Quiet (throw e : Exec α) := by
  intro s a s' h
  cases h

lemma quiet_get : Quiet get := by
  intro s a s' h
  cases get_eq_ok.mp h
  exact ⟨[], s.report_nil.symm⟩

lemma quiet_found (o : Option α) : Quiet (found o) := by
  intro s a s' h
  obtain ⟨-, rfl⟩ := found_eq_ok.mp h
  exact ⟨[], s'.report_nil.symm⟩

lemma quiet_print (messages : List Message) : Quiet (print messages) := by
  intro s a s' h
  cases h
  exact ⟨messages, rfl⟩

lemma Quiet.bind {x : Exec α} {g : α → Exec β} (hx : Quiet x) (hg : ∀ a, Quiet (g a)) :
    Quiet (x >>= g) := by
  intro s b s' h
  obtain ⟨a, s₁, ha, hb⟩ := bind_eq_ok.mp h
  obtain ⟨l, rfl⟩ := hx _ _ _ ha
  obtain ⟨m, rfl⟩ := hg a _ _ _ hb
  exact ⟨l ++ m, s.report_report l m⟩

lemma quiet_rkValue (x : BitVec 32) : Quiet (rkValue b f x) := by
  rw [rkValue_eq]
  exact quiet_found _

lemma quiet_variableIndex (op : String) (limit count : ℕ) :
    Quiet (variableIndex b f op limit count) := by
  rw [variableIndex]
  split_ifs
  · exact (quiet_print _).bind (fun _ => quiet_pure _)
  · refine (quiet_found _).bind (fun t => ?_)
    dsimp only
    split_ifs
    · exact (quiet_print _).bind (fun _ => quiet_pure _)
    · exact (quiet_print _).bind (fun _ => quiet_pure _)
    · exact quiet_pure _

lemma quiet_calculate (r : Option (TValue × List Message)) : Quiet (calculate r) :=
  (quiet_found r).bind (fun _ => (quiet_print _).bind (fun _ => quiet_pure _))

lemma quiet_skip (r : Option (TValue × List Message)) : Quiet (skip r) :=
  (quiet_found r).bind (fun _ => (quiet_print _).bind (fun _ => quiet_pure _))

lemma quiet_callFunction (func : BijouFunction) (args : ℕ) (argc : BitVec 32) :
    Quiet (callFunction host f func args argc) := by
  have hnative : Quiet (do
      let s ← get
      let native ← found func.func
      return Action.store (← found
        (host.call native s.clock s.vm f.path ((f.stack.drop args).take argc.toNat)))) :=
    quiet_get.bind (fun _ => (quiet_found _).bind (fun _ => (quiet_found _).bind
      (fun _ => quiet_pure _)))
  have henter : Quiet (do return Action.enter (← found func.block) args argc) :=
    (quiet_found _).bind (fun _ => quiet_pure _)
  rw [callFunction]
  split_ifs
  · exact (quiet_throw _).bind (fun _ => hnative)
  · exact (quiet_throw _).bind (fun _ => henter)
  · exact hnative
  · exact henter

end Quiet

variable (host b f s) in
/-- What a word does to the state that the frames share: it prints, SETGLOBAL and SETLOCAL write one
cell, and GETEXTERNAL and CLOSURE make a function. -/
inductive Effect : Shared → Prop
  | print (messages : List Message) : Effect (s.report messages)
  | setGlobal {n : ℕ} {v : TValue} (ho : opcode f.i = some .setglobal)
    (hg : Access.set.guard .globals b f s = some (some n))
    (hv : f.stack[(getA f.i).toNat]? = some v) :
    Effect { s with vm := { s.vm with globals := s.vm.globals.set n v } }
  | setLocal (l : List TValue) (ho : opcode f.i = some .setlocal) :
    Effect { s with locals := Function.update s.locals f.path l }
  | getExternal (func : BijouFunction) (ho : opcode f.i = some .getexternal)
    (hfunc : func.internal ≠ 0) : Effect { s with heap := (host.malloc s.clock, func) :: s.heap }
  | closure {child : Block} {j : ℕ} (ho : opcode f.i = some .closure)
    (hj : b.children[j]? = some child) :
    Effect { s with
      heap := (host.malloc s.clock, ⟨none, BitVec.ofNat 32 child.argc.toNat, child.funcname, 0,
        some (f.path ++ [j])⟩) :: s.heap
      locals := Function.update s.locals (f.path ++ [j]) [] }

section Effect

variable {a : Action}

lemma Quiet.effect {α : Type} {a : α} {x : Exec α} (h : Quiet x) (hx : x s = .ok (a, s')) :
    Effect host b f s s' := by
  obtain ⟨m, rfl⟩ := h _ _ _ hx
  exact .print m

lemma newFunction_external {func : Option Native} {arity internal : BitVec 32} {name : CharPtr}
    {block : Option Path} {v : BitVec 64} (hinternal : internal ≠ 0)
    (h : newFunction host func arity name internal block s = .ok (v, s')) :
    s' = { s with heap := (host.malloc s.clock, ⟨func, arity, name, internal, block⟩) :: s.heap } := by
  simp only [newFunction, if_neg hinternal] at h
  cases h
  rfl

lemma getExternal_effect {tval v : TValue} (h : getExternal host tval s = .ok (v, s')) :
    ∃ func : BijouFunction, func.internal ≠ 0 ∧
      s' = { s with heap := (host.malloc s.clock, func) :: s.heap } := by
  rw [getExternal, bind_apply_ok (get_eq_ok.mpr rfl)] at h
  dsimp only at h
  have hthrow : ∀ {β : Type} (e : Halt) (g : Unit → Exec β) {r : β × Shared},
      ((throw e : Exec Unit) >>= g) s ≠ .ok r := fun e g r hr => by cases hr
  by_cases htt : tval.tt ≠ .string
  · rw [if_pos htt] at h
    exact absurd h (hthrow _ _)
  by_cases hlibs : s.vm.libs = []
  · rw [if_neg htt, if_pos hlibs] at h
    exact absurd h (hthrow _ _)
  by_cases hnull : tval.value.s.ptr.addr = 0
  · rw [if_neg htt, if_neg hlibs, if_pos hnull] at h
    exact absurd h (hthrow _ _)
  rw [if_neg htt, if_neg hlibs, if_neg hnull] at h
  obtain ⟨r, s₁, hfind, h⟩ := bind_eq_ok.mp h
  obtain rfl : s₁ = s := by
    cases hf : findExternal host.allocator tval.value.s.ptr.text.chars s.vm.libs none with
    | error e =>
      rw [hf] at hfind
      cases hfind
    | ok r' =>
      rw [hf] at hfind
      cases hfind
      rfl
  rcases r with ⟨_ | ⟨fptr, numArgs⟩, _ | error⟩
  · cases h
  · cases h
  · obtain ⟨func, s₂, hnew, hpure⟩ := bind_eq_ok.mp h
    cases pure_eq_ok.mp hpure
    exact ⟨_, show (2 : BitVec 32) ≠ 0 by decide, newFunction_external (by decide) hnew⟩
  · cases h

lemma exec_setGlobal (ho : opcode f.i = some .setglobal) (hx : exec host b f argv s = .ok (a, s')) :
    Effect host b f s s' := by
  have hop : opcode f.i = some (Access.set.op .globals) := ho
  have hexec := exec_access host b s argv hop
  rcases hg : Access.set.guard .globals b f s with _ | _ | n
  · rw [hg, hx] at hexec
    cases hexec
  · rw [hg, hx] at hexec
    obtain ⟨m, hm⟩ := hexec
    cases hm
    exact .print m
  · rw [hg, hx] at hexec
    obtain ⟨v, s₁, hreg, hmodify⟩ := bind_eq_ok.mp hexec.symm
    obtain ⟨hv, rfl⟩ := found_eq_ok.mp hreg
    cases hmodify
    exact .setGlobal ho hg hv

lemma exec_setLocal (ho : opcode f.i = some .setlocal) (hx : exec host b f argv s = .ok (a, s')) :
    Effect host b f s s' := by
  have hop : opcode f.i = some (Access.set.op .locals) := ho
  have hexec := exec_access host b s argv hop
  rcases hg : Access.set.guard .locals b f s with _ | _ | n
  · rw [hg, hx] at hexec
    cases hexec
  · rw [hg, hx] at hexec
    obtain ⟨m, hm⟩ := hexec
    cases hm
    exact .print m
  · rw [hg, hx] at hexec
    obtain ⟨v, s₁, hreg, hmodify⟩ := bind_eq_ok.mp hexec.symm
    obtain ⟨hv, rfl⟩ := found_eq_ok.mp hreg
    cases hmodify
    exact .setLocal _ ho

lemma exec_closure_effect (ho : opcode f.i = some .closure) (hx : exec host b f argv s = .ok (a, s')) :
    Effect host b f s s' := by
  rw [exec_closure ho, closure_eq] at hx
  split_ifs at hx
  rcases hsel : selectedFunction host b f s (getBx f.i) with _ | ⟨v, s₁⟩
  · rw [hsel] at hx
    cases hx
  · rw [hsel] at hx
    cases hx
    rw [selectedFunction] at hsel
    split_ifs at hsel
    · obtain ⟨func, -, hfunc⟩ := Option.map_eq_some_iff.mp hsel
      cases hfunc
      exact (quiet_pure ()).effect rfl
    · obtain ⟨child, hj, hfunc⟩ := Option.map_eq_some_iff.mp hsel
      cases hfunc
      exact .closure ho hj

lemma exec_effect (hx : exec host b f argv s = .ok (a, s')) : Effect host b f s s' := by
  have hstore : ∀ {x : Exec TValue}, Quiet x → Quiet (do return Action.store (← x)) :=
    fun h => h.bind (fun _ => quiet_pure _)
  have hbody := hx
  rw [exec, bind_apply_ok (get_eq_ok.mpr rfl)] at hbody
  cases ho : opcode f.i with
  | none =>
    simp only [ho] at hbody
    exact ((quiet_print _).bind (fun _ => quiet_pure _)).effect hbody
  | some o =>
    simp only [ho] at hbody
    cases o with
    | setglobal => exact exec_setGlobal ho hx
    | setlocal => exact exec_setLocal ho hx
    | closure => exact exec_closure_effect ho hx
    | getexternal =>
      obtain ⟨tval, s₁, hconst, hget⟩ := bind_eq_ok.mp hbody
      obtain ⟨-, rfl⟩ := found_eq_ok.mp hconst
      obtain ⟨v, s₂, hnew, hpure⟩ := bind_eq_ok.mp hget
      cases pure_eq_ok.mp hpure
      obtain ⟨func, hfunc, rfl⟩ := getExternal_effect hnew
      exact .getExternal func ho hfunc
    | nop | loadbool | loadnull | jmp => exact (quiet_pure _).effect hbody
    | move | loadk => exact (hstore (quiet_found _)).effect hbody
    | getglobal | getlocal =>
      refine ((quiet_variableIndex _ _ _).bind (fun r => ?_)).effect hbody
      cases r with
      | none => exact quiet_pure _
      | some n => exact hstore (quiet_found _)
    | getarg =>
      refine Quiet.effect ?_ hbody
      split_ifs
      · exact (quiet_print _).bind (fun _ => quiet_pure _)
      · exact hstore (quiet_found _)
    | add | sub | mul | div | pow | rem =>
      exact ((quiet_rkValue _).bind (fun _ => (quiet_rkValue _).bind
        (fun _ => quiet_calculate _))).effect hbody
    | unm => exact ((quiet_rkValue _).bind (fun _ => quiet_calculate _)).effect hbody
    | not | «return» => exact ((quiet_rkValue _).bind (fun _ => quiet_pure _)).effect hbody
    | eq =>
      exact ((quiet_rkValue _).bind (fun _ => (quiet_rkValue _).bind
        (fun _ => (quiet_found _).bind (fun _ => quiet_pure _)))).effect hbody
    | lt | gt | le | ge =>
      exact ((quiet_rkValue _).bind (fun _ => (quiet_rkValue _).bind
        (fun _ => quiet_skip _))).effect hbody
    | call =>
      refine ((quiet_found _).bind (fun v => ?_)).effect hbody
      split_ifs
      · exact (quiet_throw _).bind
          (fun _ => (quiet_found _).bind (fun func => quiet_callFunction func _ _))
      · exact (quiet_found _).bind (fun func => quiet_callFunction func _ _)

lemma toInt_small {n : ℕ} {x : BitVec 32} (hn : n < 32) (h : x.toNat < 2 ^ n) :
    x.toInt = x.toNat := by
  have hpow : 2 ^ n ≤ 2 ^ 31 := Nat.pow_le_pow_right (by norm_num) (by omega)
  exact BitVec.toInt_eq_toNat_of_lt (by omega)

lemma getBx_toInt (i : Inst) : (getBx i).toInt = (getBx i).toNat :=
  toInt_small (n := 18) (by norm_num) (BitField.get_lt _ _ _)

lemma callFunction_cases {func : BijouFunction} {args : ℕ} {argc : BitVec 32}
    (h : callFunction host f func args argc s = .ok (a, s')) :
    (func.arity = -1 ∨ argc = func.arity) ∧ s' = s ∧
      (func.internal = 0 → ∃ path, func.block = some path ∧ a = .enter path args argc) := by
  rw [callFunction] at h
  by_cases harity : func.arity ≠ -1 ∧ argc ≠ func.arity
  · rw [if_pos harity] at h
    cases h
  rw [if_neg harity] at h
  refine ⟨by tauto, ?_⟩
  dsimp only at h
  split_ifs at h with hinternal
  · obtain ⟨s₁, s₂, hget, hnative⟩ := bind_eq_ok.mp h
    cases get_eq_ok.mp hget
    obtain ⟨native, s₃, hfunc, hcall⟩ := bind_eq_ok.mp hnative
    obtain ⟨-, rfl⟩ := found_eq_ok.mp hfunc
    obtain ⟨v, s₄, hresult, hpure⟩ := bind_eq_ok.mp hcall
    obtain ⟨-, rfl⟩ := found_eq_ok.mp hresult
    cases pure_eq_ok.mp hpure
    exact ⟨rfl, fun h0 => absurd h0 hinternal⟩
  · obtain ⟨path, s₁, hblock, hpure⟩ := bind_eq_ok.mp h
    obtain ⟨hpath, rfl⟩ := found_eq_ok.mp hblock
    cases pure_eq_ok.mp hpure
    exact ⟨rfl, fun _ => ⟨path, hpath, rfl⟩⟩

lemma exec_call_cases (ho : opcode f.i = some .call) (hx : exec host b f argv s = .ok (a, s')) :
    ∃ v func, f.stack[(getB f.i).toNat]? = some v ∧ v.tt = .function ∧
      s.heap.lookup v.value.lo = some func ∧ (func.arity = -1 ∨ getC f.i = func.arity) ∧ s' = s ∧
      (func.internal = 0 → ∃ path, func.block = some path ∧
        a = .enter path ((getB f.i).toNat + 1) (getC f.i)) := by
  rw [exec, bind_apply_ok (get_eq_ok.mpr rfl)] at hx
  simp only [ho] at hx
  obtain ⟨v, s₁, hreg, hcall⟩ := bind_eq_ok.mp hx
  obtain ⟨hv, rfl⟩ := found_eq_ok.mp hreg
  by_cases htt : v.tt ≠ .function
  · rw [if_pos htt] at hcall
    cases hcall
  rw [if_neg htt] at hcall
  obtain ⟨func, s₂, hlookup, hfunc⟩ := bind_eq_ok.mp hcall
  obtain ⟨hheap, rfl⟩ := found_eq_ok.mp hlookup
  obtain ⟨harity, rfl, henter⟩ := callFunction_cases hfunc
  exact ⟨v, func, hv, not_not.mp htt, hheap, harity, rfl, henter⟩

lemma exec_getarg (ho : opcode f.i = some .getarg) (hx : exec host b f argv s = .ok (a, s')) :
    f.argc.toInt ≤ (getBx f.i).toInt ∧ a = .leave (createNone (host.garbage s.clock)) ∨
      (getBx f.i).toInt < f.argc.toInt ∧
        ∃ v, argv[f.args + (getBx f.i).toNat]? = some v ∧ a = .store v := by
  rw [exec, bind_apply_ok (get_eq_ok.mpr rfl)] at hx
  simp only [ho] at hx
  split_ifs at hx with hle
  · obtain ⟨u, s₁, -, hpure⟩ := bind_eq_ok.mp hx
    cases pure_eq_ok.mp hpure
    exact .inl ⟨hle, rfl⟩
  · obtain ⟨v, s₁, hfound, hpure⟩ := bind_eq_ok.mp hx
    obtain ⟨hv, rfl⟩ := found_eq_ok.mp hfound
    cases pure_eq_ok.mp hpure
    exact .inr ⟨by omega, v, hv, rfl⟩

end Effect

end Bijou
