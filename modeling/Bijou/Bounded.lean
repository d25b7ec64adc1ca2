import Bijou.Calls
import Bijou.Registers

namespace Bijou

open Runs

variable {host : Host} {prog b : Block} {f g : Frame} {s s' : Shared} {argv : List TValue}
  {callers : List Frame} {control control' : Control} {c d : Config} {size depth : ℕ}

def Block.Forward (b : Block) : Prop := ∀ i ∈ b.code, ∀ d ∈ distances i, 0 ≤ d

structure Block.Straight (prog : Block) (size : ℕ) : Prop where
  code : ∀ path b, prog.find path = some b → b.code ≠ []
  closed : ∀ path b, prog.find path = some b → b.Closed
  forward : ∀ path b, prog.find path = some b → b.Forward
  length : ∀ path b, prog.find path = some b → b.code.length ≤ size

section Work

def Frame.ahead (size : ℕ) (f : Frame) : ℕ := ((size : ℤ) + 1 - f.pc).toNat + 1

def passCost (size : ℕ) : ℕ → ℕ
  | 0 => 2
  | depth + 1 => 2 + (size + 2) * passCost size depth

def waitingCost (size depth : ℕ) : List Frame → ℕ
  | [] => 0
  | f :: callers =>
    (f.ahead size - 1) * passCost size (depth - (callers.length + 1)) + 1 +
      waitingCost size depth callers

def Control.cost (size depth : ℕ) : Control → ℕ
  | .run f callers =>
    f.ahead size * passCost size (depth - (callers.length + 1)) + waitingCost size depth callers
  | .ret _ callers => waitingCost size depth callers

lemma two_le_passCost (size depth : ℕ) : 2 ≤ passCost size depth := by
  cases depth with
  | zero => exact Nat.le_refl 2
  | succ depth => exact Nat.le_add_right 2 _

lemma Frame.ahead_moved {distance : ℤ} {i : Inst} (hd : 0 ≤ distance) (hpc : f.pc ≤ size) :
    (f.moved distance i).ahead size + 1 ≤ f.ahead size := by
  simp only [ahead, moved]
  omega

lemma cost_goes (h : g.ahead size + 1 ≤ f.ahead size) :
    (Control.run g callers).cost size depth < (Control.run f callers).cost size depth := by
  have htwo := two_le_passCost size (depth - (callers.length + 1))
  have hmul := Nat.mul_le_mul_right (passCost size (depth - (callers.length + 1))) h
  rw [Nat.succ_mul] at hmul
  simp only [Control.cost]
  omega

lemma cost_leaves (v : TValue) :
    (Control.ret v callers).cost size depth < (Control.run f callers).cost size depth := by
  have htwo := two_le_passCost size (depth - (callers.length + 1))
  have hmul := Nat.mul_le_mul_right (passCost size (depth - (callers.length + 1)))
    (show 1 ≤ f.ahead size from Nat.le_add_left 1 _)
  simp only [Control.cost]
  omega

lemma cost_enters (hdepth : callers.length + 2 ≤ depth) (hg : g.ahead size = size + 2) :
    (Control.run g (f :: callers)).cost size depth < (Control.run f callers).cost size depth := by
  obtain ⟨n, rfl⟩ := Nat.exists_eq_add_of_le hdepth
  have hlevel : callers.length + 2 + n - (callers.length + 1) = n + 1 := by omega
  have hbelow : callers.length + 2 + n - ((f :: callers).length + 1) = n := by
    rw [List.length_cons]
    omega
  obtain ⟨k, hk⟩ : ∃ k, f.ahead size = k + 1 := ⟨_, rfl⟩
  simp only [Control.cost, waitingCost, hlevel, hbelow, hg, hk, passCost, Nat.add_sub_cancel,
    Nat.succ_mul]
  omega

lemma cost_back {v : TValue} (h : g.ahead size + 1 ≤ f.ahead size) :
    (Control.run g callers).cost size depth < (Control.ret v (f :: callers)).cost size depth := by
  have hmul := Nat.mul_le_mul_right (passCost size (depth - (callers.length + 1)))
    (show g.ahead size ≤ f.ahead size - 1 by omega)
  simp only [Control.cost, waitingCost]
  omega

end Work

section Run

structure Control.Paced (prog : Block) (size : ℕ) (control : Control) : Prop where
  placed : ∀ f ∈ control.frames, f.Placed prog
  waits : control.Waits
  inside : ∀ f ∈ control.waiting, f.pc ≤ size

lemma Frame.Placed.word (h : f.Placed prog) (hprog : prog.Straight size)
    (hb : prog.find f.path = some b) (hd : f.dispatched b = some f.i) :
    f.pc ≤ size ∧ ∀ d ∈ distances f.i, 0 ≤ d := by
  obtain ⟨j, hj, hi⟩ := h.dispatched hb (hprog.code _ _ hb) hd
  have hlt := (List.getElem?_eq_some_iff.mp hi).1
  have hlen := hprog.length _ _ hb
  exact ⟨by omega, hprog.forward _ _ hb f.i (List.mem_of_getElem? hi)⟩

lemma Control.Paced.advances (h : control.Paced prog size) (hprog : prog.Straight size)
    (hdepth : control'.frames.length ≤ depth) (hadv : Advances host prog s argv control control' s') :
    control'.cost size depth < control.cost size depth ∧
      ∀ f ∈ control'.waiting, f.pc ≤ size := by
  cases hadv with
  | @back v f callers b i hb ha hi =>
    obtain ⟨hpc, hinside⟩ := List.forall_mem_cons.mp h.inside
    have hmoved := Frame.ahead_moved (f := f.stored v) (i := i) (Int.le_refl 0) hpc
    exact ⟨cost_back hmoved, hinside⟩
  | ended hb hd => exact ⟨cost_leaves _, h.inside⟩
  | @store f callers b v s₁ i hb hd hx ha hi =>
    obtain ⟨hpc, -⟩ := (h.placed f List.mem_cons_self).word hprog hb hd
    have hmoved := Frame.ahead_moved (f := f.stored v) (i := i) (Int.le_refl 0) hpc
    exact ⟨cost_goes hmoved, h.inside⟩
  | @go f callers b distance s₁ i hb hd hx hi =>
    obtain ⟨hpc, hforward⟩ := (h.placed f List.mem_cons_self).word hprog hb hd
    have hmoved := Frame.ahead_moved (i := i) (hforward distance (exec_within _ _ _ hx)) hpc
    exact ⟨cost_goes hmoved, h.inside⟩
  | leave hb hd hx => exact ⟨cost_leaves _, h.inside⟩
  | @enter f callers b callee path args argc s₁ i hb hd hx hcallee hi =>
    obtain ⟨hpc, -⟩ := (h.placed f List.mem_cons_self).word hprog hb hd
    refine ⟨cost_enters hdepth ?_, List.forall_mem_cons.mpr ⟨hpc, h.inside⟩⟩
    simp only [Frame.ahead, Frame.fresh]
    omega

lemma Config.initial_fresh {path : Path} {argc : BitVec 32}
    (h : Config.initial host prog s path argc argv = .ok c) :
    ∃ b i, c.control = .run (.fresh host s.clock b path 0 argc i) [] := by
  rw [Config.initial] at h
  cases henter : interpret host prog path 0 0 argc s with
  | error e => simp [henter, bind, Except.bind] at h
  | ok r =>
    obtain ⟨f, s'⟩ := r
    simp only [henter] at h
    obtain ⟨b, i, -, -, rfl, -⟩ := interpret_fresh henter
    rw [← Except.ok.inj h]
    exact ⟨b, i, rfl⟩

lemma Config.paced_step (hprog : prog.Straight size) (h : c.control.Paced prog size)
    (hstep : c.step host prog = .on d) : d.control.Paced prog size := by
  obtain ⟨s, hadv, -, -⟩ := Config.step_cases hstep
  have hstays : c.Stays host prog :=
    Config.stays_of_closed (fun path b hb _ => hprog.closed path b hb) h.placed h.waits
  exact ⟨Config.step_placed hstep h.placed hstays, Config.step_waits hstep h.waits,
    (h.advances hprog (Nat.le_refl _) hadv).2⟩

theorem straight_run_bounded (hprog : prog.Straight size) {path : Path} {argc : BitVec 32}
    {c : ℕ → Config} {m : ℕ} (hinit : Config.initial host prog s path argc argv = .ok (c 0))
    (hrun : ∀ t < m, (c t).step host prog = .on (c (t + 1)))
    (hdepth : ∀ t ≤ m, (c t).control.frames.length ≤ depth) :
    m ≤ (size + 2) * passCost size (depth - 1) := by
  obtain ⟨b, i, hc⟩ := Config.initial_fresh hinit
  obtain ⟨f, hf, hplaced⟩ := Config.initial_control hinit
  have hr : Run (fun c d : Config => c.step host prog = .on d) c m := hrun
  have hpaced : (c 0).control.Paced prog size := by
    rw [hf]
    exact ⟨List.forall_mem_singleton.mpr hplaced, nofun, nofun⟩
  have hfirst : (c 0).control.cost size depth = (size + 2) * passCost size (depth - 1) := by
    rw [hc]
    simp only [Control.cost, waitingCost, Frame.ahead, Frame.fresh, List.length_nil, Nat.zero_add,
      Nat.add_zero, Int.sub_zero]
    rw [show ((size : ℤ) + 1).toNat + 1 = size + 2 by omega]
  have hless : ∀ t < m, (c t).control.Paced prog size →
      (c (t + 1)).control.cost size depth < (c t).control.cost size depth := by
    intro t ht h
    obtain ⟨s, hadv, -, -⟩ := Config.step_cases (hrun t ht)
    exact (h.advances hprog (hdepth (t + 1) ht) hadv).1
  have hlength := @Run.length_le Config _ c m (fun c => c.control.Paced prog size)
    (fun c => c.control.cost size depth) hr hpaced
    (fun hstep h => Config.paced_step hprog h hstep) hless
  rwa [hfirst] at hlength

lemma Block.forward_of_map (h : (b.code.map distances).all (fun ds => ds.all (0 ≤ ·)) = true) :
    b.Forward := by
  intro i hi d hd
  rw [List.all_eq_true] at h
  have hall := List.all_eq_true.mp (h _ (List.mem_map_of_mem hi)) d hd
  exact of_decide_eq_true hall

lemma callBlock_straight : callBlock.Straight 3 := by
  have hfind : ∀ path b, callBlock.find path = some b → b = callBlock ∨ b = echoBlock := by
    intro path b hb
    rcases path with _ | ⟨_ | i, _ | ⟨j, path⟩⟩
    · exact .inl (Option.some.inj hb).symm
    · exact .inr (Option.some.inj hb).symm
    · cases hb
    · cases hb
    · cases hb
  have hcall : callBlock.Closed ∧ callBlock.Forward :=
    ⟨by decide +kernel, Block.forward_of_map (by decide +kernel)⟩
  have hecho : echoBlock.Closed ∧ echoBlock.Forward :=
    ⟨by decide +kernel, Block.forward_of_map (by decide +kernel)⟩
  refine ⟨?_, ?_, ?_, ?_⟩
  · intro path b hb
    rcases hfind path b hb with rfl | rfl
    · exact List.cons_ne_nil _ _
    · exact List.cons_ne_nil _ _
  · intro path b hb
    rcases hfind path b hb with rfl | rfl
    · exact hcall.1
    · exact hecho.1
  · intro path b hb
    rcases hfind path b hb with rfl | rfl
    · exact hcall.2
    · exact hecho.2
  · intro path b hb
    rcases hfind path b hb with rfl | rfl
    · exact Nat.le_refl 3
    · exact Nat.le_succ 2

theorem straight_run_bounded_call : 5 ≤ (3 + 2) * passCost 3 (2 - 1) := by
  have hinit : Config.initial plainHost callBlock (Shared.new plainHost callBlock []) [] 0 [] =
      .ok (callTrace 0) := rfl
  have hsteps : ∀ k < 5, ((callTrace k).step plainHost callBlock).config.isSome = true := by
    decide +kernel
  have hdepth : ∀ k < 6, (callTrace k).control.frames.length ≤ 2 := by decide +kernel
  exact straight_run_bounded callBlock_straight hinit
    (fun k hk => Config.step_after (hsteps k hk)) (fun k hk => hdepth k (Nat.lt_succ_of_le hk))

end Run

end Bijou
