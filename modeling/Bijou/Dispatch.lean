import Bijou.Control

namespace Bijou

variable {host : Host} {prog b : Block} {f : Frame} {s s' : Shared} {argv : List TValue}
  {callers : List Frame} {o : OpCode}

structure Frame.At (prog b : Block) (f : Frame) (o : OpCode) : Prop where
  block : prog.find f.path = some b
  word : f.dispatched b = some f.i
  op : opcode f.i = some o

def Frame.dispatch (host : Host) (b : Block) (f : Frame) (callers : List Frame) : Exec Control := do
  return .run (← f.next host b 0) callers

def Shared.report (s : Shared) (messages : List Message) : Shared :=
  { s with printed := s.printed ++ messages }

lemma Frame.dispatch_ne_ret {v : TValue} {cs : List Frame} :
    f.dispatch host b callers s ≠ .ok (.ret v cs, s') := by
  intro h
  obtain ⟨f', s₁, -, hpure⟩ := bind_eq_ok.mp h
  cases pure_eq_ok.mp hpure

lemma Frame.dispatch_ne_exit {status : ℕ} {m : Message} :
    f.dispatch host b callers s ≠ .error (.exit status m) := by
  intro h
  cases hi : fetch host s.clock b f.path (f.pc + 0 + 1) with
  | none =>
    rw [dispatch, bind_apply_error (Frame.next_of_none hi)] at h
    cases h
  | some i =>
    rw [dispatch, bind_apply_ok (Frame.next_of_some hi)] at h
    cases h

namespace Frame.At

variable (h : f.At prog b o)

include h

lemma advance_eq : advance host prog argv (.run f callers) s =
    (exec host b f (window argv callers) >>= fun a =>
      match a with
      | .store v => do return .run (← (← f.setA v).next host b 0) callers
      | .go distance => do return .run (← f.next host b distance) callers
      | .leave v => return .ret v callers
      | .enter path args argc => do
        return .run (← interpret host prog path 0 args argc) (f :: callers)) s := by
  rw [advance, bind_apply_ok (found_eq_ok.mpr ⟨h.block, rfl⟩)]
  have hword := h.word
  generalize f.dispatched b = w at hword ⊢
  cases hword
  rfl

lemma advance_store {v : TValue}
    (hx : exec host b f (window argv callers) s = .ok (.store v, s'))
    (ha : (getA f.i).toNat < f.stack.length) :
    advance host prog argv (.run f callers) s =
      Frame.dispatch host b { f with stack := f.stack.set (getA f.i).toNat v } callers s' := by
  rw [h.advance_eq, bind_apply_ok hx]
  exact bind_apply_ok (setA_of_lt ha) _

lemma advance_store_fault {v : TValue}
    (hx : exec host b f (window argv callers) s = .ok (.store v, s'))
    (ha : f.stack.length ≤ (getA f.i).toNat) :
    advance host prog argv (.run f callers) s = .error .fault := by
  rw [h.advance_eq, bind_apply_ok hx]
  exact bind_apply_error (setA_of_le ha) _

lemma advance_go (hx : exec host b f (window argv callers) s = .ok (.go 0, s')) :
    advance host prog argv (.run f callers) s = f.dispatch host b callers s' := by
  rw [h.advance_eq, bind_apply_ok hx]
  rfl

lemma advance_leave {v : TValue} (hx : exec host b f (window argv callers) s = .ok (.leave v, s')) :
    advance host prog argv (.run f callers) s = .ok (.ret v callers, s') := by
  rw [h.advance_eq, bind_apply_ok hx]
  rfl

lemma advance_error {e : Halt} (hx : exec host b f (window argv callers) s = .error e) :
    advance host prog argv (.run f callers) s = .error e := by
  rw [h.advance_eq]
  exact bind_apply_error hx _

end Frame.At

def wordBlock (k : List TValue) (i : Inst) : Block :=
  { Block.new default with regc := 1, k := k, code := [i] }

def wordFrame (stack : List TValue) (i : Inst) : Frame where
  path := []
  start := 0
  pc := 0
  i := i
  stack := stack
  args := 0
  argc := 0
  x := 0

lemma wordFrame_at {k stack : List TValue} {i : Inst} (h : opcode i = some o) :
    (wordFrame stack i).At (wordBlock k i) (wordBlock k i) o :=
  ⟨rfl, rfl, h⟩

def wordState (globals : List TValue) : Shared :=
  let s := Shared.new plainHost (wordBlock [] 0) []
  { s with vm := { s.vm with globals := globals } }

def nullValue : TValue := createNull ⟨0, 0, .empty⟩

def intValue (z : ℤ) : TValue := createNumber ⟨0, 0, .empty⟩ (.ofInt z)

end Bijou
