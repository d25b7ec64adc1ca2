import Bijou.Library.Runs
import Bijou.MachineRules

namespace Bijou

open Runs

variable {host : Host} {prog b : Block} {f f' : Frame} {s s' : Shared} {argv : List TValue}
  {callers : List Frame}

def Lands (b : Block) (pc : ℤ) : Prop := 0 ≤ pc ∧ pc ≠ b.code.length

def Frame.Placed (prog : Block) (f : Frame) : Prop :=
  f.start = 0 ∧ ∀ b, prog.find f.path = some b → b.code ≠ [] →
    (∃ j : ℕ, f.pc = j ∧ b.code[j]? = some f.i) ∨ b.code.length < f.pc

def Control.frames : Control → List Frame
  | .run f callers => f :: callers
  | .ret _ callers => callers

lemma fetch_code {clock : ℕ} {path : Path} {j : ℕ} {i : Inst} (hj : j < b.code.length) :
    fetch host clock b path j = some i ↔ b.code[j]? = some i := by
  rw [fetch, if_pos (by omega), Int.toNat_natCast]

lemma Frame.Enters.placed {clock : ℕ} (h : f.Enters host prog clock) : f.Placed prog := by
  refine ⟨h.start, fun b hb hcode => .inl ⟨0, h.pc, ?_⟩⟩
  obtain ⟨b', hb', hi⟩ := h.fetched
  cases hb.symm.trans hb'
  exact (fetch_code (List.length_pos_iff.mpr hcode)).mp hi

lemma Frame.MovesTo.placed {clock : ℕ} {d : ℤ} (h : f.MovesTo host b clock d f')
    (hb : prog.find f.path = some b) (hf : f.Placed prog)
    (hl : b.code ≠ [] → Lands b (f.pc + d + 1)) : f'.Placed prog := by
  refine ⟨h.start.trans hf.1, fun b' hb' hcode => ?_⟩
  rw [h.path, hb, Option.some.injEq] at hb'
  subst hb'
  obtain ⟨hge, hne⟩ := h.pc ▸ hl hcode
  by_cases hlt : f'.pc < b.code.length
  · obtain ⟨j, hj⟩ := Int.eq_ofNat_of_zero_le hge
    have hfetch := hj ▸ h.fetched
    exact .inl ⟨j, hj, (fetch_code (by omega)).mp hfetch⟩
  · exact .inr (by omega)

variable (host prog) in
/-- The instruction about to be carried out, where it goes on in its frame, and the call about to be
completed, lead to a word of the code or past its end: no jump goes below the first word, and
neither a jump, a comparison nor the next word is the one right after the last. -/
def Config.Stays (c : Config) : Prop :=
  match c.control with
  | .ret _ [] => True
  | .ret _ (f :: _) => ∀ b, prog.find f.path = some b → b.code ≠ [] → Lands b (f.pc + 1)
  | .run f callers => ∀ b, prog.find f.path = some b → b.code ≠ [] →
    ∀ w, f.dispatched b = some w →
    ∀ a s d, exec host b f (window c.argv callers) c.shared = .ok (a, s) → a.distance = some d →
      Lands b (f.pc + d + 1)

variable (host prog) in
def Config.Confined (c : Config) : Prop :=
  ∀ f callers b, c.control = .run f callers → prog.find f.path = some b → b.code ≠ [] →
    (∀ w, f.dispatched b = some w → ∃ j : ℕ, f.pc = j ∧ b.code[j]? = some w) ∧
    (¬ (0 ≤ f.pc ∧ f.pc < b.code.length) → f.dispatched b = none ∧ ∃ g,
      c.step host prog = .on { c with
        shared := { c.shared with clock := c.shared.clock + 1 }
        control := .ret (createNone g) callers })

variable {c d : Config}

lemma Frame.Placed.dispatched {w : Inst} (hf : f.Placed prog) (hb : prog.find f.path = some b)
    (hcode : b.code ≠ []) (hd : f.dispatched b = some w) :
    ∃ j : ℕ, f.pc = j ∧ b.code[j]? = some w := by
  rw [Frame.dispatched, hf.1] at hd
  split at hd
  · cases hd
    rcases hf.2 b hb hcode with hin | hpast
    · exact hin
    · omega
  · cases hd

lemma Config.confined_of_placed (h : ∀ f ∈ c.control.frames, f.Placed prog) :
    c.Confined host prog := by
  intro f callers b hc hb hcode
  have hf : f.Placed prog := h f (by rw [hc]; exact List.mem_cons_self)
  refine ⟨fun w hd => hf.dispatched hb hcode hd, fun hout => ?_⟩
  have hd : f.dispatched b = none := by
    by_contra hne
    obtain ⟨w, hw⟩ := Option.ne_none_iff_exists'.mp hne
    obtain ⟨j, hj, hi⟩ := hf.dispatched hb hcode hw
    have hlt := (List.getElem?_eq_some_iff.mp hi).1
    exact hout ⟨by omega, by omega⟩
  exact ⟨hd, host.garbage c.shared.clock, step_of_stop hc hb hd⟩

lemma Config.step_placed (hstep : c.step host prog = .on d)
    (h : ∀ f ∈ c.control.frames, f.Placed prog) (hs : c.Stays host prog) :
    ∀ f ∈ d.control.frames, f.Placed prog := by
  obtain ⟨s, hadv, hret⟩ := step_on hstep
  cases hc : c.control with
  | ret v callers =>
    cases callers with
    | nil => exact absurd hc (hret v)
    | cons f callers =>
      rw [hc] at hadv h
      obtain ⟨b, f', hb, hm, hd⟩ := advance_ret hadv
      simp only [Config.Stays, hc] at hs
      rw [hd]
      refine List.forall_mem_cons.mpr ⟨hm.placed hb (h f List.mem_cons_self) ?_, ?_⟩
      · simpa using hs b hb
      · exact fun g hg => h g (List.mem_cons_of_mem _ hg)
  | run f callers =>
    rw [hc] at hadv h
    obtain ⟨b, hb, hpass⟩ := advance_run hadv
    obtain ⟨hf, hcallers⟩ := List.forall_mem_cons.mp h
    simp only [Config.Stays, hc] at hs
    generalize d.control = control at hpass
    cases hpass with
    | stops g hd => exact hcallers
    | moves clock hd hx ha hm =>
      refine List.forall_mem_cons.mpr ⟨hm.placed hb hf ?_, hcallers⟩
      exact fun hcode => hs b hb hcode _ hd _ _ _ hx ha
    | leaves v hd hx => exact hcallers
    | enters clock hd hx he => exact List.forall_mem_cons.mpr ⟨he.placed, h⟩

lemma Frame.MovesTo.lands {clock : ℕ} {distance : ℤ} (h : f.MovesTo host b clock distance f')
    (hstart : f.start = 0) (hb : prog.find f.path = some b) (hcode : b.code ≠ [])
    (hd : d.control = .run f' callers) (hconf : d.Confined host prog) :
    Lands b (f.pc + distance + 1) := by
  obtain ⟨hin, hout⟩ := hconf f' callers b hd (h.path ▸ hb) hcode
  rw [← h.pc]
  by_cases hrange : 0 ≤ f'.pc ∧ f'.pc < b.code.length
  · exact ⟨hrange.1, by omega⟩
  · have hpast := Frame.dispatched_eq_none (hout hrange).1
    rw [h.start, hstart] at hpast
    exact ⟨by omega, by omega⟩

lemma Config.stays_of_confined (hstep : c.step host prog = .on d)
    (h : ∀ f ∈ c.control.frames, f.Placed prog) (hconf : d.Confined host prog) :
    c.Stays host prog := by
  obtain ⟨s, hadv, hret⟩ := step_on hstep
  cases hc : c.control with
  | ret v callers =>
    cases callers with
    | nil => exact absurd hc (hret v)
    | cons f callers =>
      rw [hc] at hadv h
      obtain ⟨b, f', hb, hm, hd⟩ := advance_ret hadv
      simp only [Config.Stays, hc]
      intro b' hb' hcode
      cases hb.symm.trans hb'
      have hl := hm.lands (h f List.mem_cons_self).1 hb hcode hd hconf
      simpa using hl
  | run f callers =>
    rw [hc] at hadv h
    obtain ⟨b, hb, hpass⟩ := advance_run hadv
    simp only [Config.Stays, hc]
    intro b' hb' hcode w hw a s' distance hx ha
    cases hb.symm.trans hb'
    have hstart := (h f List.mem_cons_self).1
    generalize hd : d.control = control at hpass
    cases hpass with
    | stops g hnone => rw [hw] at hnone; cases hnone
    | moves clock hsome hx' ha' hm =>
      rw [hx] at hx'
      cases hx'
      cases ha.symm.trans ha'
      exact hm.lands hstart hb hcode hd hconf
    | leaves v hsome hx' =>
      rw [hx] at hx'
      cases hx'
      cases ha
    | enters clock hsome hx' he =>
      rw [hx] at hx'
      cases hx'
      cases ha

lemma Config.initial_control {path : Path} {argc : BitVec 32}
    (h : Config.initial host prog s path argc argv = .ok c) :
    ∃ f, c.control = .run f [] ∧ f.Placed prog := by
  rw [Config.initial] at h
  cases henter : interpret host prog path 0 0 argc s with
  | error e => simp [henter, bind, Except.bind] at h
  | ok r =>
    obtain ⟨f, s'⟩ := r
    simp only [henter] at h
    rw [← Except.ok.inj h]
    exact ⟨f, rfl, (interpret_enters henter).1.placed⟩

lemma Config.initial_placed {path : Path} {argc : BitVec 32}
    (h : Config.initial host prog s path argc argv = .ok c) : ∀ f ∈ c.control.frames, f.Placed prog := by
  obtain ⟨f, hf, hplaced⟩ := Config.initial_control h
  rw [hf]
  exact List.forall_mem_singleton.mpr hplaced

lemma confined_iff_stays {path : Path} {argc : BitVec 32} {c : ℕ → Config} {m : ℕ}
    (hinit : Config.initial host prog s path argc argv = .ok (c 0))
    (hrun : ∀ t < m, (c t).step host prog = .on (c (t + 1))) :
    (∀ t ≤ m, (c t).Confined host prog) ↔ ∀ t < m, (c t).Stays host prog := by
  have hr : Run (fun c d : Config => c.step host prog = .on d) c m := hrun
  exact hr.shown_iff (Config.initial_placed hinit) Config.step_placed Config.confined_of_placed
    Config.stays_of_confined

variable (host prog) in
inductive Config.Goes (c : Config) : Frame → Block → ℕ → ℤ → Prop
  | back {v : TValue} {f : Frame} {callers : List Frame} {b : Block}
    (hc : c.control = .ret v (f :: callers)) (hb : prog.find f.path = some b)
    (ha : (getA f.i).toNat < f.stack.length) : Goes c f b c.shared.clock (f.pc + 1)
  | word {f : Frame} {callers : List Frame} {b : Block} {w : Inst} {a : Action} {s : Shared} {distance : ℤ}
    (hc : c.control = .run f callers) (hb : prog.find f.path = some b) (hd : f.dispatched b = some w)
    (hx : exec host b f (window c.argv callers) c.shared = .ok (a, s)) (ha : a.distance = some distance)
    (hstore : ∀ v, a = .store v → (getA f.i).toNat < f.stack.length) :
    Goes c f b s.clock (f.pc + distance + 1)

variable (host prog) in
/-- Control is at a word of the code before the step and after it, or outside, where none is returned at
once; and reading the next word does not fault. -/
structure Config.Kept (c : Config) : Prop where
  confined : c.Confined host prog
  next : ∀ d, c.step host prog = .on d → d.Confined host prog
  reads : ∀ f b clock pc, c.Goes host prog f b clock pc → b.code ≠ [] → ∃ d, c.step host prog = .on d

variable (host prog) in
/-- The next word is in the code, or past its end, but not right behind it, in memory that can be
read. -/
def Config.FindsWord (c : Config) : Prop :=
  ∀ f b clock pc, c.Goes host prog f b clock pc → b.code ≠ [] →
    Lands b pc ∧ fetch host clock b f.path pc ≠ none

lemma Config.step_of_advance {control control' : Control} {s : Shared} (hc : c.control = control)
    (hne : ∀ v, control ≠ .ret v []) (hadv : advance host prog c.argv control c.shared = .ok (control', s)) :
    c.step host prog = .on { c with shared := { s with clock := s.clock + 1 }, control := control' } := by
  rw [Config.step]
  split
  · next v hret => exact absurd (hc.symm.trans hret) (hne v)
  · simp only [hc, hadv]

lemma Config.step_next_iff {control : Control} {g : Frame} {distance : ℤ} (hc : c.control = control)
    (hne : ∀ v, control ≠ .ret v []) (hadv : advance host prog c.argv control c.shared =
      (g.next host b distance >>= fun h => pure (.run h callers)) s) :
    (∃ d, c.step host prog = .on d) ↔ fetch host s.clock b g.path (g.pc + distance + 1) ≠ none := by
  cases hi : fetch host s.clock b g.path (g.pc + distance + 1) with
  | none =>
    refine iff_of_false (fun ⟨d, hstep⟩ => ?_) (fun h => h rfl)
    obtain ⟨s', hon, -⟩ := Config.step_on hstep
    rw [hc, hadv, bind_apply_error (Frame.next_of_none hi)] at hon
    cases hon
  | some i =>
    rw [bind_apply_ok (Frame.next_of_some hi)] at hadv
    exact iff_of_true ⟨_, Config.step_of_advance hc hne hadv⟩ (Option.some_ne_none i)

lemma Config.Goes.step_iff {clock : ℕ} {pc : ℤ} (h : c.Goes host prog f b clock pc) :
    (∃ d, c.step host prog = .on d) ↔ fetch host clock b f.path pc ≠ none := by
  cases h with
  | @back v _ callers _ hc hb ha =>
    have hadv : advance host prog c.argv (.ret v (f :: callers)) c.shared =
        ((f.stored v).next host b 0 >>= fun h => pure (.run h callers)) c.shared := by
      rw [advance, bind_apply_ok (found_eq_ok.mpr ⟨hb, rfl⟩), bind_apply_ok (Frame.setA_of_lt ha)]
      rfl
    rw [Config.step_next_iff hc nofun hadv]
    simp [Frame.stored]
  | @word _ callers _ w a s distance hc hb hd hx ha hstore =>
    cases a with
    | store v =>
      cases ha
      have hadv : advance host prog c.argv (.run f callers) c.shared =
          ((f.stored v).next host b 0 >>= fun h => pure (.run h callers)) s := by
        rw [advance, bind_apply_ok (found_eq_ok.mpr ⟨hb, rfl⟩)]
        simp only [hd]
        rw [bind_apply_ok hx]
        exact bind_apply_ok (Frame.setA_of_lt (hstore v rfl)) _
      exact Config.step_next_iff (g := f.stored v) hc nofun hadv
    | go d =>
      cases ha
      have hadv : advance host prog c.argv (.run f callers) c.shared =
          (f.next host b distance >>= fun h => pure (.run h callers)) s := by
        rw [advance, bind_apply_ok (found_eq_ok.mpr ⟨hb, rfl⟩)]
        simp only [hd]
        rw [bind_apply_ok hx]
      exact Config.step_next_iff hc nofun hadv
    | leave v => cases ha
    | enter path args argc => cases ha

lemma Config.FindsWord.stays (h : c.FindsWord host prog) (hstep : c.step host prog = .on d) :
    c.Stays host prog := by
  obtain ⟨s, hadv, -, -⟩ := Config.step_cases hstep
  rw [Config.Stays]
  generalize hcontrol : d.control = control at hadv
  cases hc : c.control with
  | ret v callers =>
    rw [hc] at hadv
    cases hadv with
    | back hb ha hi =>
      intro b' hb' hcode
      cases hb.symm.trans hb'
      exact (h _ _ _ _ (.back hc hb ha) hcode).1
  | run f callers =>
    rw [hc] at hadv
    intro b' hb' hcode w hw a s' distance hx' ha'
    have hgoes : (∀ v, a = .store v → (getA f.i).toNat < f.stack.length) → Lands b' (f.pc + distance + 1) :=
      fun hstore => (h _ _ _ _ (.word hc hb' hw hx' ha' hstore) hcode).1
    cases hadv with
    | ended hb hd =>
      cases hb.symm.trans hb'
      cases hd.symm.trans hw
    | store hb hd hx ha hi =>
      exact hgoes (fun _ _ => ha)
    | go hb hd hx hi =>
      cases hb.symm.trans hb'
      cases hx.symm.trans hx'
      exact hgoes nofun
    | leave hb hd hx =>
      cases hb.symm.trans hb'
      cases hx.symm.trans hx'
      cases ha'
    | enter hb hd hx hcallee hi =>
      cases hb.symm.trans hb'
      cases hx.symm.trans hx'
      cases ha'

lemma Config.Kept.findsWord (h : c.Kept host prog) (hplaced : ∀ f ∈ c.control.frames, f.Placed prog) :
    c.FindsWord host prog := by
  intro f b clock pc hgoes hcode
  obtain ⟨d, hstep⟩ := h.reads f b clock pc hgoes hcode
  have hstays := Config.stays_of_confined hstep hplaced (h.next d hstep)
  refine ⟨?_, hgoes.step_iff.mp ⟨d, hstep⟩⟩
  rw [Config.Stays] at hstays
  cases hgoes with
  | back hc hb ha =>
    rw [hc] at hstays
    exact hstays b hb hcode
  | word hc hb hd hx ha hstore =>
    rw [hc] at hstays
    exact hstays b hb hcode _ hd _ _ _ hx ha

lemma Config.FindsWord.kept (h : c.FindsWord host prog) (hplaced : ∀ f ∈ c.control.frames, f.Placed prog) :
    c.Kept host prog where
  confined := Config.confined_of_placed hplaced
  next _ hstep := Config.confined_of_placed (Config.step_placed hstep hplaced (h.stays hstep))
  reads f b clock pc hgoes hcode := hgoes.step_iff.mpr (h f b clock pc hgoes hcode).2

theorem interpret_confined_iff {path : Path} {argc : BitVec 32} {c : ℕ → Config} {m : ℕ}
    (hinit : Config.initial host prog s path argc argv = .ok (c 0))
    (hrun : ∀ t < m, (c t).step host prog = .on (c (t + 1))) :
    (∀ t ≤ m, (c t).Kept host prog) ↔ ∀ t ≤ m, (c t).FindsWord host prog := by
  have hr : Run (fun c d : Config => c.step host prog = .on d) c m := hrun
  constructor
  · intro h t ht
    have hstays := (confined_iff_stays hinit hrun).mp (fun u hu => (h u hu).confined)
    have hplaced := hr.invariant (Config.initial_placed hinit) Config.step_placed hstays t ht
    exact (h t ht).findsWord hplaced
  · intro h t ht
    have hplaced := hr.invariant (Config.initial_placed hinit) Config.step_placed
      (fun u hu => (h u (by omega)).stays (hrun u hu)) t ht
    exact (h t ht).kept hplaced

/-- A code that no step leaves downwards or to the place right behind it: no jump of it leads there,
and what stands at its end is a return or a jump. -/
def Block.Closed (b : Block) : Prop :=
  ∀ p ∈ b.code.zipIdx, ∀ d ∈ distances p.1, Lands b (p.2 + d + 1)

instance (b : Block) (pc : ℤ) : Decidable (Lands b pc) := inferInstanceAs (Decidable (_ ∧ _))

instance (b : Block) : Decidable b.Closed :=
  inferInstanceAs (Decidable (∀ p ∈ b.code.zipIdx, ∀ d ∈ distances p.1, Lands b (p.2 + d + 1)))

def Control.Waits : Control → Prop
  | .run _ callers => ∀ f ∈ callers, 0 ∈ distances f.i
  | .ret _ callers => ∀ f ∈ callers, 0 ∈ distances f.i

lemma Frame.Placed.lands_of_closed {distance : ℤ} (h : f.Placed prog)
    (hb : prog.find f.path = some b) (hcode : b.code ≠ []) (hclosed : b.Closed)
    (hd : distance ∈ distances f.i) (hin : f.pc < b.code.length) :
    Lands b (f.pc + distance + 1) := by
  rcases h.2 b hb hcode with ⟨j, hj, hi⟩ | hpast
  · have hmem : (f.i, j) ∈ b.code.zipIdx := List.mem_zipIdx_iff_getElem?.mpr hi
    rw [hj]
    exact hclosed _ hmem _ hd
  · omega

lemma Config.stays_of_closed
    (hclosed : ∀ path b, prog.find path = some b → b.code ≠ [] → b.Closed)
    (h : ∀ f ∈ c.control.frames, f.Placed prog) (hwait : c.control.Waits) : c.Stays host prog := by
  cases hc : c.control with
  | ret v callers =>
    cases callers with
    | nil => simp only [Config.Stays, hc]
    | cons f callers =>
      simp only [Config.Stays, hc]
      rw [hc] at h hwait
      intro b hb hcode
      have hf := h f List.mem_cons_self
      by_cases hin : f.pc < b.code.length
      · simpa using hf.lands_of_closed hb hcode (hclosed _ b hb hcode)
          (hwait f List.mem_cons_self) hin
      · rcases hf.2 b hb hcode with ⟨j, hj, hi⟩ | hpast
        · have hlt := (List.getElem?_eq_some_iff.mp hi).1
          omega
        · exact ⟨by omega, by omega⟩
  | run f callers =>
    simp only [Config.Stays, hc]
    rw [hc] at h
    intro b hb hcode w hw a s' d hx ha
    have hf := h f List.mem_cons_self
    obtain ⟨j, hj, hi⟩ := hf.dispatched hb hcode hw
    have hlt := (List.getElem?_eq_some_iff.mp hi).1
    exact hf.lands_of_closed hb hcode (hclosed _ b hb hcode)
      ((exec_within _ _ _ hx).distance ha) (by omega)

lemma Config.step_waits (hstep : c.step host prog = .on d) (hwait : c.control.Waits) :
    d.control.Waits := by
  obtain ⟨s, hadv, hret⟩ := step_on hstep
  cases hc : c.control with
  | ret v callers =>
    cases callers with
    | nil => exact absurd hc (hret v)
    | cons f callers =>
      rw [hc] at hadv hwait
      obtain ⟨b, f', -, -, hd⟩ := advance_ret hadv
      rw [hd]
      exact fun g hg => hwait g (List.mem_cons_of_mem _ hg)
  | run f callers =>
    rw [hc] at hadv hwait
    obtain ⟨b, hb, hpass⟩ := advance_run hadv
    generalize d.control = control at hpass
    cases hpass with
    | stops g hd => exact hwait
    | moves clock hd hx ha hm => exact hwait
    | leaves v hd hx => exact hwait
    | enters clock hd hx he =>
      exact List.forall_mem_cons.mpr ⟨exec_within _ _ _ hx, hwait⟩

theorem closed_confined (hclosed : ∀ path b, prog.find path = some b → b.code ≠ [] → b.Closed)
    {path : Path} {argc : BitVec 32} {c : ℕ → Config} {m : ℕ}
    (hinit : Config.initial host prog s path argc argv = .ok (c 0))
    (hrun : ∀ t < m, (c t).step host prog = .on (c (t + 1))) :
    ∀ t ≤ m, (c t).Confined host prog := by
  obtain ⟨f, hf, hplaced⟩ := Config.initial_control hinit
  have hr : Run (fun c d : Config => c.step host prog = .on d) c m := hrun
  have hkeep : ∀ {x y : Config}, x.step host prog = .on y →
      ((∀ f ∈ x.control.frames, f.Placed prog) ∧ x.control.Waits) → True →
        (∀ f ∈ y.control.frames, f.Placed prog) ∧ y.control.Waits :=
    fun hstep h _ => ⟨Config.step_placed hstep h.1 (Config.stays_of_closed hclosed h.1 h.2),
      Config.step_waits hstep h.2⟩
  have hinv := hr.invariant
    (by rw [hf]; exact ⟨List.forall_mem_singleton.mpr hplaced, by simp [Control.Waits]⟩) hkeep
    (fun _ _ => trivial)
  exact fun t ht => Config.confined_of_placed (hinv t ht).1

def plainHost : Host where
  arithmetic := ⟨fun x _ => x, fun x _ => x, fun x _ => x, fun x _ => x, fun x _ => x⟩
  garbage _ := ⟨0, 0, .empty⟩
  stack _ _ := ⟨.null, ⟨0, 0, .empty⟩⟩
  beyond _ _ _ := some OpCode.nop.code
  malloc t := BitVec.ofNat 64 (16 * (t + 1))
  allocator := .chunks
  int _ := 0
  stdin := 1
  stdout := 2
  stderr := 3
  call _ _ _ _ _ := none

def nopThen (code : List Inst) : Block :=
  { Block.new default with regc := 1, code := OpCode.nop.code :: code }

example : (nopThen [OpCode.return.code]).Closed ∧ ¬ (nopThen []).Closed := by decide

def nopFrame (pc : ℕ) (i : Inst) : Frame where
  path := []
  start := 0
  pc := pc
  i := i
  stack := [⟨.null, ⟨0, 0, .empty⟩⟩]
  args := 0
  argc := 0
  x := pc

def nopConfig (code : List Inst) (pc : ℕ) (i : Inst) : Config where
  shared := { Shared.new plainHost (nopThen code) [] with clock := internalFunctions.length + pc }
  control := .run (nopFrame pc i) []
  argv := []

theorem interpret_confined_iff_return :
    let code := [OpCode.return.code]
    let c (t : ℕ) := nopConfig code t (OpCode.code (if t = 0 then .nop else .return))
    (∀ t ≤ 1, (c t).Kept plainHost (nopThen code)) ↔
      ∀ t ≤ 1, (c t).FindsWord plainHost (nopThen code) := by
  intro code c
  have hinit : Config.initial plainHost (nopThen code) (Shared.new plainHost (nopThen code) []) [] 0 []
      = .ok (c 0) := rfl
  refine interpret_confined_iff hinit (fun t ht => ?_)
  rw [Nat.lt_one_iff.mp ht]
  rfl

theorem interpret_runs_past_end :
    let c (t : ℕ) := nopConfig [] t OpCode.nop.code
    Config.initial plainHost (nopThen []) (Shared.new plainHost (nopThen []) []) [] 0 [] =
        .ok (c 0) ∧
      (c 0).step plainHost (nopThen []) = .on (c 1) ∧
      ¬ (c 1).Kept plainHost (nopThen []) := by
  refine ⟨rfl, rfl, fun h => ?_⟩
  have hcode : (nopThen []).code ≠ [] := List.cons_ne_nil _ _
  obtain ⟨j, hj, hi⟩ := (h.confined (nopFrame 1 OpCode.nop.code) [] (nopThen []) rfl rfl hcode).1 _ rfl
  have hone : j = 1 := Int.ofNat_inj.mp hj.symm
  rw [hone] at hi
  cases hi

end Bijou
