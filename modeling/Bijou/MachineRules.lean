import Bijou.Machine

namespace Bijou

section Exec

variable {α β : Type} {s s' : Shared}

lemma bind_eq_ok {x : Exec α} {g : α → Exec β} {r : β × Shared} :
    (x >>= g) s = .ok r ↔ ∃ a s₁, x s = .ok (a, s₁) ∧ g a s₁ = .ok r := by
  change (x s >>= fun p => g p.1 p.2) = .ok r ↔ _
  cases h : x s with
  | error e => simp [bind, Except.bind]
  | ok p =>
    obtain ⟨a, s₁⟩ := p
    constructor
    · exact fun hr => ⟨a, s₁, rfl, hr⟩
    · rintro ⟨_, _, ⟨⟩, hr⟩
      exact hr

lemma bind_apply_ok {x : Exec α} {a : α} (hx : x s = .ok (a, s')) (g : α → Exec β) :
    (x >>= g) s = g a s' := by
  change (x s >>= fun p => g p.1 p.2) = _
  rw [hx]
  rfl

lemma bind_apply_error {x : Exec α} {e : Halt} (hx : x s = .error e) (g : α → Exec β) :
    (x >>= g) s = .error e := by
  change (x s >>= fun p => g p.1 p.2) = _
  rw [hx]
  rfl

lemma pure_eq_ok {a : α} {r : α × Shared} : (pure a : Exec α) s = .ok r ↔ r = (a, s) := by
  change Except.ok (a, s) = .ok r ↔ _
  simp [eq_comm]

lemma found_eq_ok {o : Option α} {a : α} :
    found o s = .ok (a, s') ↔ o = some a ∧ s' = s := by
  cases o with
  | none =>
    change Except.error Halt.fault = .ok (a, s') ↔ _
    simp
  | some u =>
    change Except.ok (u, s) = .ok (a, s') ↔ _
    simp [eq_comm]

lemma get_eq_ok {r : Shared × Shared} : (get : Exec Shared) s = .ok r ↔ r = (s, s) := by
  change Except.ok (s, s) = .ok r ↔ _
  simp [eq_comm]

end Exec

variable {host : Host} {prog b : Block} {f f' : Frame} {s s' : Shared} {argv : List TValue}
  {callers : List Frame}

def Ensures {α : Type} (x : Exec α) (Q : α → Prop) : Prop := ∀ s a s', x s = .ok (a, s') → Q a

section Ensures

variable {α β : Type} {Q : β → Prop}

lemma ensures_pure {a : β} (h : Q a) : Ensures (pure a) Q := by
  intro s a' s' hr
  cases pure_eq_ok.mp hr
  exact h

lemma ensures_bind {x : Exec α} {g : α → Exec β} (h : ∀ a, Ensures (g a) Q) :
    Ensures (x >>= g) Q := by
  intro s a s' hr
  obtain ⟨a₁, s₁, -, hg⟩ := bind_eq_ok.mp hr
  exact h a₁ s₁ a s' hg

end Ensures

def distances (i : Inst) : List ℤ :=
  match opcode i with
  | none | some .return => []
  | some .jmp => [(getSBx i).toInt]
  | some .eq | some .lt | some .gt | some .le | some .ge => [0, 1]
  | some _ => [0]

def Action.Within (ds : List ℤ) : Action → Prop
  | .store _ => 0 ∈ ds
  | .go d => d ∈ ds
  | .leave _ => True
  | .enter _ _ _ => 0 ∈ ds

section Exec

variable {Q : Action → Prop}

lemma ensures_store {α : Type} (h : ∀ v, Q (.store v)) (x : Exec α) (g : α → TValue) :
    Ensures (do return .store (g (← x))) Q :=
  ensures_bind (fun _ => ensures_pure (h _))

lemma calculate_ensures (hgo : Q (.go 0)) (hstore : ∀ v, Q (.store v))
    (r : Option (TValue × List Message)) : Ensures (calculate r) Q := by
  refine ensures_bind (fun p => ensures_bind (fun _ => ensures_pure ?_))
  split
  · exact hgo
  · exact hstore _

lemma skip_ensures (hgo : Q (.go 0)) (hskip : Q (.go 1)) (r : Option (TValue × List Message)) :
    Ensures (skip r) Q := by
  refine ensures_bind (fun p => ensures_bind (fun _ => ensures_pure ?_))
  split
  · exact hskip
  · exact hgo

lemma callFunction_ensures {args : ℕ} {argc : BitVec 32} (hstore : ∀ v, Q (.store v))
    (henter : ∀ path, Q (.enter path args argc)) (func : BijouFunction) :
    Ensures (callFunction host f func args argc) Q := by
  rw [callFunction]
  split
  · refine ensures_bind (fun _ => ?_)
    dsimp only
    split
    · exact ensures_bind (fun _ => ensures_bind (fun _ => ensures_store hstore _ _))
    · exact ensures_bind (fun _ => ensures_pure (henter _))
  · dsimp only
    split
    · exact ensures_bind (fun _ => ensures_bind (fun _ => ensures_store hstore _ _))
    · exact ensures_bind (fun _ => ensures_pure (henter _))

lemma closure_ensures (hstore : ∀ v, Q (.store v)) : Ensures (closure host b f) Q := by
  refine ensures_bind (fun s => ?_)
  dsimp only
  split
  · split
    · exact ensures_bind (fun _ => ensures_store hstore _ _)
    · exact ensures_store hstore _ _
  · split
    · exact ensures_bind (fun _ => ensures_bind (fun _ => ensures_store hstore _ _))
    · exact ensures_bind (fun _ => ensures_store hstore _ _)

lemma zero_mem_distances {i : Inst} {o : OpCode} (ho : opcode i = some o) (hj : o ≠ .jmp)
    (hr : o ≠ .return) : 0 ∈ distances i := by
  rw [distances, ho]
  cases o with
  | jmp => exact absurd rfl hj
  | «return» => exact absurd rfl hr
  | _ => simp

lemma exec_ensures (hstore : 0 ∈ distances f.i → ∀ v, Q (.store v))
    (hgo : ∀ d ∈ distances f.i, Q (.go d)) (hleave : ∀ v, Q (.leave v))
    (henter : opcode f.i = some .call → 0 ∈ distances f.i →
      ∀ path, Q (.enter path ((getB f.i).toNat + 1) (getC f.i))) :
    Ensures (exec host b f argv) Q := by
  refine ensures_bind (fun s => ?_)
  dsimp only
  cases ho : opcode f.i with
  | none => exact ensures_bind (fun _ => ensures_pure (hleave _))
  | some o =>
    have hzero := zero_mem_distances ho
    cases o with
    | jmp => exact ensures_pure (hgo _ (by simp [distances, ho]))
    | «return» => exact ensures_bind (fun _ => ensures_pure (hleave _))
    | nop => exact ensures_pure (hgo _ (hzero (by decide) (by decide)))
    | loadbool | loadnull => exact ensures_pure (hstore (hzero (by decide) (by decide)) _)
    | move | loadk | not => exact ensures_store (hstore (hzero (by decide) (by decide))) _ _
    | getexternal =>
      exact ensures_bind (fun _ => ensures_store (hstore (hzero (by decide) (by decide))) _ _)
    | getglobal | getlocal =>
      refine ensures_bind (fun r => ?_)
      cases r with
      | none => exact ensures_pure (hleave _)
      | some index => exact ensures_store (hstore (hzero (by decide) (by decide))) _ _
    | setglobal | setlocal =>
      refine ensures_bind (fun r => ?_)
      cases r with
      | none => exact ensures_pure (hleave _)
      | some index =>
        exact ensures_bind (fun _ => ensures_bind (fun _ =>
          ensures_pure (hgo _ (hzero (by decide) (by decide)))))
    | getarg =>
      dsimp only
      split
      · exact ensures_bind (fun _ => ensures_pure (hleave _))
      · exact ensures_store (hstore (hzero (by decide) (by decide))) _ _
    | add | sub | mul | div | pow | rem =>
      exact ensures_bind (fun _ => ensures_bind (fun _ =>
        calculate_ensures (hgo _ (hzero (by decide) (by decide)))
          (hstore (hzero (by decide) (by decide))) _))
    | unm =>
      exact ensures_bind (fun _ => calculate_ensures (hgo _ (hzero (by decide) (by decide)))
        (hstore (hzero (by decide) (by decide))) _)
    | lt | gt | le | ge =>
      refine ensures_bind (fun _ => ensures_bind (fun _ => skip_ensures (hgo _ ?_) (hgo _ ?_) _)) <;>
        simp [distances, ho]
    | eq =>
      refine ensures_bind (fun _ => ensures_bind (fun _ => ensures_bind (fun r =>
        ensures_pure (hgo _ ?_))))
      split <;> simp [distances, ho]
    | call =>
      have hcall : ∀ func, Ensures
          (callFunction host f func ((getB f.i).toNat + 1) (getC f.i)) Q :=
        callFunction_ensures (hstore (hzero (by decide) (by decide)))
          (henter ho (hzero (by decide) (by decide)))
      refine ensures_bind (fun v => ?_)
      split
      · exact ensures_bind (fun _ => ensures_bind hcall)
      · exact ensures_bind hcall
    | closure => exact closure_ensures (hstore (hzero (by decide) (by decide)))

lemma exec_within : Ensures (exec host b f argv) (Action.Within (distances f.i)) :=
  exec_ensures (fun h _ => h) (fun _ h => h) (fun _ => trivial) (fun _ h _ => h)

lemma exec_enter {path : Path} {args : ℕ} {argc : BitVec 32}
    (h : exec host b f argv s = .ok (.enter path args argc, s')) :
    opcode f.i = some .call ∧ args = (getB f.i).toNat + 1 ∧ argc = getC f.i := by
  have hQ : Ensures (exec host b f argv) (fun a => ∀ path args argc, a = .enter path args argc →
      opcode f.i = some .call ∧ args = (getB f.i).toNat + 1 ∧ argc = getC f.i) := by
    refine exec_ensures nofun nofun nofun (fun ho _ path => ?_)
    rintro _ _ _ ⟨⟩
    exact ⟨ho, rfl, rfl⟩
  exact hQ _ _ _ h _ _ _ rfl

end Exec

def Frame.moved (f : Frame) (distance : ℤ) (i : Inst) : Frame :=
  { f with pc := f.pc + distance + 1, i := i, x := f.x + 1 }

def Frame.stored (f : Frame) (v : TValue) : Frame :=
  { f with stack := f.stack.set (getA f.i).toNat v }

def Frame.fresh (host : Host) (clock : ℕ) (b : Block) (path : Path) (args : ℕ) (argc : BitVec 32)
    (i : Inst) : Frame where
  path := path
  start := 0
  pc := 0
  i := i
  stack := (List.range b.regc.toNat).map (host.stack clock)
  args := args
  argc := argc
  x := 0

variable (host prog s argv) in
/-- All that one step can do with the frames: a value comes back to the frame that called, the code
has come to its end, or a word is carried out. -/
inductive Advances : Control → Control → Shared → Prop
  | back {v : TValue} {f : Frame} {callers : List Frame} {b : Block} {i : Inst}
    (hb : prog.find f.path = some b) (ha : (getA f.i).toNat < f.stack.length)
    (hi : fetch host s.clock b f.path (f.pc + 0 + 1) = some i) :
    Advances (.ret v (f :: callers)) (.run ((f.stored v).moved 0 i) callers) s
  | ended {f : Frame} {callers : List Frame} {b : Block} (hb : prog.find f.path = some b)
    (hd : f.dispatched b = none) :
    Advances (.run f callers) (.ret (createNone (host.garbage s.clock)) callers) s
  | store {f : Frame} {callers : List Frame} {b : Block} {v : TValue} {s₁ : Shared} {i : Inst}
    (hb : prog.find f.path = some b) (hd : f.dispatched b = some f.i)
    (hx : exec host b f (window argv callers) s = .ok (.store v, s₁))
    (ha : (getA f.i).toNat < f.stack.length)
    (hi : fetch host s₁.clock b f.path (f.pc + 0 + 1) = some i) :
    Advances (.run f callers) (.run ((f.stored v).moved 0 i) callers) s₁
  | go {f : Frame} {callers : List Frame} {b : Block} {distance : ℤ} {s₁ : Shared} {i : Inst}
    (hb : prog.find f.path = some b) (hd : f.dispatched b = some f.i)
    (hx : exec host b f (window argv callers) s = .ok (.go distance, s₁))
    (hi : fetch host s₁.clock b f.path (f.pc + distance + 1) = some i) :
    Advances (.run f callers) (.run (f.moved distance i) callers) s₁
  | leave {f : Frame} {callers : List Frame} {b : Block} {v : TValue} {s₁ : Shared}
    (hb : prog.find f.path = some b) (hd : f.dispatched b = some f.i)
    (hx : exec host b f (window argv callers) s = .ok (.leave v, s₁)) :
    Advances (.run f callers) (.ret v callers) s₁
  | enter {f : Frame} {callers : List Frame} {b callee : Block} {path : Path} {args : ℕ}
    {argc : BitVec 32} {s₁ : Shared} {i : Inst} (hb : prog.find f.path = some b)
    (hd : f.dispatched b = some f.i)
    (hx : exec host b f (window argv callers) s = .ok (.enter path args argc, s₁))
    (hcallee : prog.find path = some callee) (hi : fetch host s₁.clock callee path 0 = some i) :
    Advances (.run f callers) (.run (.fresh host s₁.clock callee path args argc i) (f :: callers)) s₁

lemma Frame.next_eq {distance : ℤ} (h : f.next host b distance s = .ok (f', s')) :
    ∃ i, fetch host s.clock b f.path (f.pc + distance + 1) = some i ∧ f' = f.moved distance i ∧
      s' = s := by
  obtain ⟨s₁, s₂, hget, hnext⟩ := bind_eq_ok.mp h
  cases get_eq_ok.mp hget
  obtain ⟨i, s₃, hfetch, hframe⟩ := bind_eq_ok.mp hnext
  obtain ⟨hi, rfl⟩ := found_eq_ok.mp hfetch
  cases pure_eq_ok.mp hframe
  exact ⟨i, hi, rfl, rfl⟩

lemma Frame.next_of_some {distance : ℤ} {i : Inst}
    (hi : fetch host s.clock b f.path (f.pc + distance + 1) = some i) :
    f.next host b distance s = .ok (f.moved distance i, s) := by
  rw [Frame.next, bind_apply_ok (get_eq_ok.mpr rfl), hi]
  rfl

lemma Frame.next_of_none {distance : ℤ} (hi : fetch host s.clock b f.path (f.pc + distance + 1) = none) :
    f.next host b distance s = .error .fault := by
  rw [Frame.next, bind_apply_ok (get_eq_ok.mpr rfl), hi]
  rfl

lemma Frame.setA_stored {v : TValue} (h : f.setA v s = .ok (f', s')) :
    (getA f.i).toNat < f.stack.length ∧ f' = f.stored v ∧ s' = s := by
  by_cases ha : (getA f.i).toNat < f.stack.length
  · rw [setA, if_pos ha] at h
    cases pure_eq_ok.mp h
    exact ⟨ha, rfl, rfl⟩
  · rw [setA, if_neg ha] at h
    exact absurd h (by rintro ⟨⟩)

lemma Frame.setA_of_lt {v : TValue} (ha : (getA f.i).toNat < f.stack.length) :
    f.setA v s = .ok ({ f with stack := f.stack.set (getA f.i).toNat v }, s) := by
  rw [setA, if_pos ha]
  rfl

lemma Frame.setA_of_le {v : TValue} (ha : f.stack.length ≤ (getA f.i).toNat) :
    f.setA v s = .error .fault := by
  rw [setA, if_neg (by omega)]
  rfl

lemma interpret_fresh {g : Frame} {path : Path} {args : ℕ} {argc : BitVec 32}
    (h : interpret host prog path 0 args argc s = .ok (g, s')) : ∃ callee i,
      prog.find path = some callee ∧ fetch host s.clock callee path 0 = some i ∧
        g = .fresh host s.clock callee path args argc i ∧ s' = s := by
  obtain ⟨s₁, s₂, hget, hfind⟩ := bind_eq_ok.mp h
  cases get_eq_ok.mp hget
  obtain ⟨callee, s₃, hb, hfetch⟩ := bind_eq_ok.mp hfind
  obtain ⟨hcallee, rfl⟩ := found_eq_ok.mp hb
  obtain ⟨i, s₄, hword, hframe⟩ := bind_eq_ok.mp hfetch
  obtain ⟨hi, rfl⟩ := found_eq_ok.mp hword
  cases pure_eq_ok.mp hframe
  exact ⟨callee, i, hcallee, hi, rfl, rfl⟩

lemma Frame.dispatched_word {w : Inst} (h : f.dispatched b = some w) : w = f.i := by
  rw [dispatched] at h
  split_ifs at h
  exact (Option.some.inj h).symm

lemma advance_cases {control control' : Control}
    (h : advance host prog argv control s = .ok (control', s')) (hne : ∀ v, control ≠ .ret v []) :
    Advances host prog s argv control control' s' := by
  cases control with
  | ret v callers =>
    cases callers with
    | nil => exact absurd rfl (hne v)
    | cons f callers =>
      obtain ⟨b, s₁, hfind, hstore⟩ := bind_eq_ok.mp h
      obtain ⟨hb, rfl⟩ := found_eq_ok.mp hfind
      obtain ⟨g, s₂, hset, hnext⟩ := bind_eq_ok.mp hstore
      obtain ⟨ha, rfl, rfl⟩ := Frame.setA_stored hset
      obtain ⟨f', s₃, hmove, hcontrol⟩ := bind_eq_ok.mp hnext
      obtain ⟨i, hi, rfl, rfl⟩ := Frame.next_eq hmove
      cases pure_eq_ok.mp hcontrol
      exact .back hb ha hi
  | run f callers =>
    obtain ⟨b, s₁, hfind, hpass⟩ := bind_eq_ok.mp h
    obtain ⟨hb, rfl⟩ := found_eq_ok.mp hfind
    cases hd : f.dispatched b with
    | none =>
      simp only [hd] at hpass
      obtain ⟨s₂, s₃, hget, hret⟩ := bind_eq_ok.mp hpass
      cases get_eq_ok.mp hget
      cases pure_eq_ok.mp hret
      exact .ended hb hd
    | some w =>
      obtain rfl := Frame.dispatched_word hd
      simp only [hd] at hpass
      obtain ⟨a, s₂, hx, hact⟩ := bind_eq_ok.mp hpass
      cases a with
      | store v =>
        obtain ⟨g, s₃, hset, hnext⟩ := bind_eq_ok.mp hact
        obtain ⟨ha, rfl, rfl⟩ := Frame.setA_stored hset
        obtain ⟨f', s₄, hmove, hcontrol⟩ := bind_eq_ok.mp hnext
        obtain ⟨i, hi, rfl, rfl⟩ := Frame.next_eq hmove
        cases pure_eq_ok.mp hcontrol
        exact .store hb hd hx ha hi
      | go distance =>
        obtain ⟨f', s₃, hmove, hcontrol⟩ := bind_eq_ok.mp hact
        obtain ⟨i, hi, rfl, rfl⟩ := Frame.next_eq hmove
        cases pure_eq_ok.mp hcontrol
        exact .go hb hd hx hi
      | leave v =>
        cases pure_eq_ok.mp hact
        exact .leave hb hd hx
      | enter path args argc =>
        obtain ⟨g, s₃, henter, hcontrol⟩ := bind_eq_ok.mp hact
        obtain ⟨callee, i, hcallee, hi, rfl, rfl⟩ := interpret_fresh henter
        cases pure_eq_ok.mp hcontrol
        exact .enter hb hd hx hcallee hi

lemma Config.step_cases {c d : Config} (h : c.step host prog = .on d) :
    ∃ s, Advances host prog c.shared c.argv c.control d.control s ∧
      d.shared = { s with clock := s.clock + 1 } ∧ d.argv = c.argv := by
  rw [step] at h
  split at h
  · cases h
  · next hret =>
    split at h
    · next control s hadv =>
      cases h
      exact ⟨s, advance_cases hadv hret, rfl, rfl⟩
    · cases h

lemma Config.step_shared {c d : Config} (h : c.step host prog = .on d) :
    ∃ s, d.shared = { s with clock := s.clock + 1 } ∧ (s = c.shared ∨ ∃ f callers b a,
      c.control = .run f callers ∧ prog.find f.path = some b ∧ f.dispatched b = some f.i ∧
      exec host b f (window c.argv callers) c.shared = .ok (a, s)) := by
  obtain ⟨s, hadv, hshared, -⟩ := Config.step_cases h
  refine ⟨s, hshared, ?_⟩
  generalize c.control = control at hadv
  generalize d.control = control' at hadv
  cases hadv with
  | back hb ha hi => exact .inl rfl
  | ended hb hd => exact .inl rfl
  | store hb hd hx ha hi => exact .inr ⟨_, _, _, _, rfl, hb, hd, hx⟩
  | go hb hd hx hi => exact .inr ⟨_, _, _, _, rfl, hb, hd, hx⟩
  | leave hb hd hx => exact .inr ⟨_, _, _, _, rfl, hb, hd, hx⟩
  | enter hb hd hx hcallee hi => exact .inr ⟨_, _, _, _, rfl, hb, hd, hx⟩

structure Frame.MovesTo (host : Host) (b : Block) (clock : ℕ) (f : Frame) (distance : ℤ)
    (f' : Frame) : Prop where
  path : f'.path = f.path
  start : f'.start = f.start
  pc : f'.pc = f.pc + distance + 1
  fetched : fetch host clock b f'.path f'.pc = some f'.i

structure Frame.Enters (host : Host) (prog : Block) (clock : ℕ) (f : Frame) : Prop where
  start : f.start = 0
  pc : f.pc = 0
  fetched : ∃ b, prog.find f.path = some b ∧ fetch host clock b f.path 0 = some f.i

lemma interpret_enters {path : Path} {args : ℕ} {argc : BitVec 32}
    (h : interpret host prog path 0 args argc s = .ok (f, s')) :
    f.Enters host prog s.clock ∧ s' = s := by
  obtain ⟨callee, i, hcallee, hi, rfl, rfl⟩ := interpret_fresh h
  exact ⟨⟨rfl, rfl, callee, hcallee, hi⟩, rfl⟩

def Action.distance : Action → Option ℤ
  | .store _ => some 0
  | .go d => some d
  | .leave _ => none
  | .enter _ _ _ => none

lemma Action.Within.distance {a : Action} {ds : List ℤ} {d : ℤ} (h : a.Within ds)
    (ha : a.distance = some d) : d ∈ ds := by
  cases a with
  | store v => cases ha; exact h
  | go d => cases ha; exact h
  | leave v => cases ha
  | enter path args argc => cases ha

variable {control : Control} {v : TValue}

lemma advance_ret (h : advance host prog argv (.ret v (f :: callers)) s = .ok (control, s')) :
    ∃ b f', prog.find f.path = some b ∧ f.MovesTo host b s.clock 0 f' ∧
      control = .run f' callers := by
  cases advance_cases h nofun with
  | back hb ha hi =>
    refine ⟨_, _, hb, ?_, rfl⟩
    exact ⟨rfl, rfl, rfl, hi⟩

inductive Passes (host : Host) (prog : Block) (argv : List TValue) (s : Shared) (b : Block)
    (f : Frame) (callers : List Frame) : Control → Prop
  | stops (g : Value) (hd : f.dispatched b = none) :
    Passes host prog argv s b f callers (.ret (createNone g) callers)
  | moves {w : Inst} {a : Action} {s₁ : Shared} {d : ℤ} {f' : Frame} (clock : ℕ)
    (hd : f.dispatched b = some w) (hx : exec host b f (window argv callers) s = .ok (a, s₁))
    (ha : a.distance = some d) (hm : f.MovesTo host b clock d f') :
    Passes host prog argv s b f callers (.run f' callers)
  | leaves {w : Inst} {s₁ : Shared} (v : TValue) (hd : f.dispatched b = some w)
    (hx : exec host b f (window argv callers) s = .ok (.leave v, s₁)) :
    Passes host prog argv s b f callers (.ret v callers)
  | enters {w : Inst} {s₁ : Shared} {path : Path} {args : ℕ} {argc : BitVec 32} {f' : Frame}
    (clock : ℕ) (hd : f.dispatched b = some w)
    (hx : exec host b f (window argv callers) s = .ok (.enter path args argc, s₁))
    (he : f'.Enters host prog clock) :
    Passes host prog argv s b f callers (.run f' (f :: callers))

lemma advance_run (h : advance host prog argv (.run f callers) s = .ok (control, s')) :
    ∃ b, prog.find f.path = some b ∧ Passes host prog argv s b f callers control := by
  cases advance_cases h nofun with
  | ended hb hd => exact ⟨_, hb, .stops _ hd⟩
  | store hb hd hx ha hi => exact ⟨_, hb, .moves _ hd hx rfl ⟨rfl, rfl, rfl, hi⟩⟩
  | go hb hd hx hi => exact ⟨_, hb, .moves _ hd hx rfl ⟨rfl, rfl, rfl, hi⟩⟩
  | leave hb hd hx => exact ⟨_, hb, .leaves _ hd hx⟩
  | enter hb hd hx hcallee hi =>
    exact ⟨_, hb, .enters _ hd hx ⟨rfl, rfl, _, hcallee, hi⟩⟩

lemma Frame.dispatched_eq_none (h : f.dispatched b = none) : f.start + b.code.length < f.pc := by
  by_contra hle
  rw [dispatched, if_pos (by omega)] at h
  cases h

lemma Config.step_of_stop {c : Config} (hc : c.control = .run f callers)
    (hb : prog.find f.path = some b) (hd : f.dispatched b = none) :
    c.step host prog = .on { c with
      shared := { c.shared with clock := c.shared.clock + 1 }
      control := .ret (createNone (host.garbage c.shared.clock)) callers } := by
  have hadv : advance host prog c.argv (.run f callers) c.shared =
      .ok (.ret (createNone (host.garbage c.shared.clock)) callers, c.shared) := by
    refine bind_eq_ok.mpr ⟨b, c.shared, found_eq_ok.mpr ⟨hb, rfl⟩, ?_⟩
    simp only [hd]
    exact bind_eq_ok.mpr ⟨_, _, get_eq_ok.mpr rfl, pure_eq_ok.mpr rfl⟩
  simp only [Config.step, hc, hadv]

lemma Config.step_on {c d : Config} (h : c.step host prog = .on d) :
    ∃ s, advance host prog c.argv c.control c.shared = .ok (d.control, s) ∧
      ∀ v, c.control ≠ .ret v [] := by
  rw [step] at h
  split at h
  · cases h
  · rename_i hret
    split at h
    · rename_i control s hadv
      cases h
      exact ⟨s, hadv, hret⟩
    · cases h

def Step.config : Step → Option Config
  | .on c => some c
  | _ => none

lemma Step.config_eq {x : Step} {d : Config} (h : x.config = some d) : x = .on d := by
  cases x with
  | on c => rw [Option.some.inj h]
  | done v => cases h
  | halt e => cases h

def Config.after (host : Host) (prog : Block) (c : Config) : ℕ → Config
  | 0 => c
  | n + 1 => ((c.after host prog n).step host prog).config.getD (c.after host prog n)

lemma Config.step_after {c : Config} {n : ℕ}
    (h : ((c.after host prog n).step host prog).config.isSome = true) :
    (c.after host prog n).step host prog = .on (c.after host prog (n + 1)) := by
  obtain ⟨d, hd⟩ := Option.isSome_iff_exists.mp h
  rw [after, hd]
  exact Step.config_eq hd

end Bijou
