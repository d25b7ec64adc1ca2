import Bijou.Blocks
import Bijou.Library.Buffer
import Bijou.Numbers

/-! The virtual machine of vm.c, func.c, lib.c and const.c. One step is one pass through the loop of
`bijou_interpret`, or the return of a value to the frame that called. What the C library, the linked
libraries and unwritten memory answer is taken from a `Host`, which is asked with the time. -/

namespace Bijou

open CString

inductive Native where
  | internal (name : CStr)
  | external (addr : BitVec 64)
  deriving DecidableEq

structure BijouFunction where
  func : Option Native
  arity : BitVec 32
  name : CharPtr
  internal : BitVec 32
  block : Option Path

structure Library where
  sym : List Byte → Option (BitVec 64)
  error : List Byte → CStr

/-- There are as many globals as `numglobals` says. A null handle is a library that is not there. -/
structure BijouVM where
  globals : List TValue
  functions : List (BitVec 64)
  constants : List TValue
  libs : List (Option Library)

structure Host where
  arithmetic : Arithmetic
  garbage : ℕ → Value
  stack : ℕ → ℕ → TValue
  beyond : ℕ → Path → ℤ → Option Inst
  malloc : ℕ → BitVec 64
  allocator : Allocator
  int : BitVec 64 → BitVec 32
  stdin : BitVec 64
  stdout : BitVec 64
  stderr : BitVec 64
  call : Native → ℕ → BijouVM → Path → List TValue → Option TValue

structure Shared where
  vm : BijouVM
  heap : List (BitVec 64 × BijouFunction)
  locals : Path → List TValue
  printed : List Message
  clock : ℕ

/-- A run of `bijou_interpret`; `args` is where its arguments start among the caller's registers. -/
structure Frame where
  path : Path
  start : ℤ
  pc : ℤ
  i : Inst
  stack : List TValue
  args : ℕ
  argc : BitVec 32
  x : ℕ

inductive Halt where
  | exit (status : ℕ) (message : Message)
  | fault
  deriving DecidableEq

abbrev Exec := StateT Shared (Except Halt)

inductive Action where
  | store (v : TValue)
  | go (distance : ℤ)
  | leave (v : TValue)
  | enter (path : Path) (args : ℕ) (argc : BitVec 32)

def Block.find (b : Block) : Path → Option Block
  | [] => some b
  | i :: path => do (← b.children[i]?).find path

def opcode (i : Inst) : Option OpCode := OpCode.all[(getOpcode i).toNat]?

def found {α : Type} : Option α → Exec α
  | some a => pure a
  | none => throw .fault

def print (messages : List Message) : Exec Unit :=
  modify (fun s => { s with printed := s.printed ++ messages })

section Setup

variable (host : Host)

def internalFunctions : List (List Byte × BitVec 32) :=
  [(bytes "print", -1), (bytes "println", -1), (bytes "sin", 1), (bytes "cos", 1),
    (bytes "tan", 1), (bytes "exp", 1), (bytes "log", 1), (bytes "ceil", 1), (bytes "floor", 1),
    (bytes "rand", 0), (bytes "rand_int", 1)]

def internalFunction (name : List Byte) (arity : BitVec 32) : BijouFunction :=
  ⟨some (.internal (CStr.at name)), arity, .to (CStr.at name), 1, none⟩

def internalConstants : List TValue :=
  [createNumber (host.garbage 0) (.ofInt 5), createNumber (host.garbage 1) (.ofInt 0),
    createNumber (host.garbage 2) (.ofInt 5), createPointer (host.garbage 3) host.stdin,
    createPointer (host.garbage 4) host.stdout, createPointer (host.garbage 5) host.stderr]

def BijouVM.new (numglobals : ℕ) (libs : List (Option Library)) : BijouVM where
  globals := (List.range numglobals).map (host.stack 0)
  functions := (List.range internalFunctions.length).map host.malloc
  constants := internalConstants host
  libs := libs

def Shared.new (prog : Block) (libs : List (Option Library)) : Shared where
  vm := BijouVM.new host 0 libs
  heap := internalFunctions.mapIdx (fun i f => (host.malloc i, internalFunction f.1 f.2))
  locals := fun path => ((prog.find path).map Block.locals).getD []
  printed := []
  clock := internalFunctions.length

end Setup

section Functions

variable (host : Host)

def newFunction (func : Option Native) (arity : BitVec 32) (name : CharPtr) (internal : BitVec 32)
    (b : Option Path) : Exec (BitVec 64) := do
  let s ← get
  let bf := host.malloc s.clock
  set { s with heap := (bf, ⟨func, arity, name, internal, b⟩) :: s.heap }
  if internal = 0 then
    let path ← found b
    modify (fun s => { s with locals := Function.update s.locals path [] })
  return bf

/-- Each pass frees the two symbols of the pass before, and stores its own in blocks of `5 + strlen` bytes:
the prefix, the name, and a NUL behind the block. -/
def findExternal (a : Allocator) (name : List Byte) : List (Option Library) → Option CStr →
    Except Halt (Option (BitVec 64 × BitVec 64) × Option CStr)
  | [], error => pure (none, error)
  | none :: _, _ => throw (.exit 1 (.dynamicLoad none))
  | some lib :: libs, _ => do
    if ¬ a.Spare (5 + name.length) then throw .fault
    let args := bytes "args_" ++ name
    let func := bytes "func_" ++ name
    let error :=
      if lib.sym func = none then some (lib.error func)
      else if lib.sym args = none then some (lib.error args)
      else none
    match lib.sym func, lib.sym args with
    | some fptr, some numArgs => pure (some (fptr, numArgs), error)
    | _, _ => findExternal a name libs error

def getExternal (tval : TValue) : Exec TValue := do
  let s ← get
  let garbage := host.garbage s.clock
  if tval.tt ≠ .string then throw (.exit 1 (.externalType tval.tt))
  if s.vm.libs = [] then throw (.exit 1 (.noLibraries tval.value.s.ptr.text))
  if tval.value.s.ptr.addr = 0 then throw .fault
  match ← findExternal host.allocator tval.value.s.ptr.text.chars s.vm.libs none with
  | (some (fptr, numArgs), none) =>
    return createFunction garbage
      (← newFunction host (some (.external fptr)) (host.int numArgs) tval.value.s.ptr 2 none)
  | (_, error) => throw (.exit 1 (.dynamicLoad error))

def callFunction (f : Frame) (func : BijouFunction) (args : ℕ) (argc : BitVec 32) :
    Exec Action := do
  if func.arity ≠ -1 ∧ argc ≠ func.arity then
    throw (.exit 0 (.arity func.name.text argc.toInt func.arity.toInt))
  if func.internal ≠ 0 then
    let s ← get
    let native ← found func.func
    return .store (← found
      (host.call native s.clock s.vm f.path ((f.stack.drop args).take argc.toNat)))
  else
    return .enter (← found func.block) args argc

end Functions

section Instructions

variable (host : Host) (b : Block) (f : Frame) (argv : List TValue)

def reg (x : BitVec 32) : Exec TValue := found f.stack[x.toNat]?

def constant (x : BitVec 32) : Exec TValue := found b.k[x.toNat]?

def rkValue (x : BitVec 32) : Exec TValue :=
  match rk x with
  | .const index => constant b index
  | .reg index => reg f index

/-- The index that the constant Bx holds, of `count` variables; `limit` is what Bx itself is
compared with. -/
def variableIndex (op : String) (limit count : ℕ) : Exec (Option ℕ) := do
  let bx := getBx f.i
  if limit ≤ bx.toNat then
    print [.variableIndex f.x op bx.toNat limit]
    return none
  let tvindex ← constant b bx
  if tvindex.tt ≠ .number then
    print [.variableType f.x op bx.toNat tvindex.tt]
    return none
  let index := ((tvindex.value.n.toInt 32).signExtend 64).toNat
  if count ≤ index then
    print [.variableIndex f.x op index count]
    return none
  return some index

def calculate (result : Option (TValue × List Message)) : Exec Action := do
  let (t, messages) ← found result
  print messages
  return if t.tt = .none then .go 0 else .store t

def skip (result : Option (TValue × List Message)) : Exec Action := do
  let (t, messages) ← found result
  print messages
  return .go (if t.value.b ≠ 0 then 1 else 0)

def closure : Exec Action := do
  let s ← get
  let garbage := host.garbage s.clock
  let bx := getBx f.i
  if isK bx then
    if s.vm.functions.length < (indexRK bx).toNat then
      throw (.exit 1 (.internalFunction bx.toNat s.vm.functions.length))
    return .store (createFunction garbage (← found s.vm.functions[(indexRK bx).toNat]?))
  else
    if b.numchildren.toNat < bx.toNat then
      throw (.exit 1 (.function bx.toNat b.numchildren.toNat))
    let block ← found b.children[bx.toNat]?
    return .store (createFunction garbage (← newFunction host none
      (BitVec.ofNat 32 block.argc.toNat) block.funcname 0 (some (f.path ++ [bx.toNat]))))

def exec : Exec Action := do
  let s ← get
  let garbage := host.garbage s.clock
  let exit := Action.leave (createNone garbage)
  let a := getA f.i
  let rb := rkValue b f (getB f.i)
  let rc := rkValue b f (getC f.i)
  match opcode f.i with
  | none =>
    print [.opcode (getOpcode f.i).toNat]
    return exit
  | some .nop => return .go 0
  | some .move => return .store (← reg f (getB f.i))
  | some .loadk => return .store (← constant b (getBx f.i))
  | some .loadbool => return .store (createBoolean garbage (.ofInt (getB f.i).toInt))
  | some .loadnull => return .store (createNull garbage)
  | some .getglobal =>
    let globals := s.vm.globals
    match ← variableIndex b f "getglobal" globals.length globals.length with
    | none => return exit
    | some index => return .store (← found globals[index]?)
  | some .setglobal =>
    let globals := s.vm.globals
    match ← variableIndex b f "setglobal" globals.length globals.length with
    | none => return exit
    | some index =>
      let v ← reg f a
      modify (fun s => { s with vm := { s.vm with globals := globals.set index v } })
      return .go 0
  | some .getlocal =>
    let locals := s.locals f.path
    match ← variableIndex b f "getlocal" locals.length locals.length with
    | none => return exit
    | some index => return .store (← found locals[index]?)
  | some .setlocal =>
    let locals := s.locals f.path
    match ← variableIndex b f "setlocal" b.k.length locals.length with
    | none => return exit
    | some index =>
      let v ← reg f a
      modify (fun s =>
        { s with locals := Function.update s.locals f.path (locals.set index v) })
      return .go 0
  | some .getarg =>
    let bx := getBx f.i
    if f.argc.toInt ≤ bx.toInt then
      print [.argument f.x bx.toNat f.argc.toInt]
      return exit
    return .store (← found argv[f.args + bx.toNat]?)
  | some .getexternal => return .store (← getExternal host (← constant b (getB f.i)))
  | some .add => calculate (TValue.numAdd host.arithmetic garbage (← rb) (← rc))
  | some .sub => calculate (TValue.numSub host.arithmetic garbage (← rb) (← rc))
  | some .mul => calculate (TValue.numMul host.arithmetic garbage (← rb) (← rc))
  | some .div => calculate (TValue.numDiv host.arithmetic garbage (← rb) (← rc))
  | some .pow => calculate (TValue.numPow host.arithmetic garbage (← rb) (← rc))
  | some .rem => calculate (TValue.numRem garbage (← rb) (← rc))
  | some .unm => calculate (some (TValue.numUnm (← rb)))
  | some .not =>
    let t ← rb
    return .store (createBoolean garbage (.ofInt (t.value.b == 0).toNat))
  | some .eq => return .go (if ← found ((← rkValue b f a).equal (← rb)) then 1 else 0)
  | some .lt => skip (TValue.numLt garbage (← rkValue b f a) (← rb))
  | some .gt => skip (TValue.numGt garbage (← rkValue b f a) (← rb))
  | some .le => skip (TValue.numLe garbage (← rkValue b f a) (← rb))
  | some .ge => skip (TValue.numGe garbage (← rkValue b f a) (← rb))
  | some .jmp => return .go (getSBx f.i).toInt
  | some .return => return .leave (← rkValue b f a)
  | some .call =>
    let v ← reg f (getB f.i)
    if v.tt ≠ .function then throw (.exit 1 .notClosure)
    callFunction host f (← found (s.heap.lookup v.value.lo)) ((getB f.i).toNat + 1) (getC f.i)
  | some .closure => closure host b f

end Instructions

section Loop

variable (host : Host) (prog : Block)

/-- The word at an index of the code, or what lies in memory before and after it. -/
def fetch (clock : ℕ) (b : Block) (path : Path) (pc : ℤ) : Option Inst :=
  if 0 ≤ pc ∧ pc < b.code.length then b.code[pc.toNat]? else host.beyond clock path pc

def interpret (path : Path) (start : ℤ) (args : ℕ) (argc : BitVec 32) : Exec Frame := do
  let s ← get
  let b ← found (prog.find path)
  return {
    path, start, args, argc
    pc := start
    i := ← found (fetch host s.clock b path start)
    stack := (List.range b.regc.toNat).map (host.stack s.clock)
    x := 0 }

def Frame.setA (f : Frame) (v : TValue) : Exec Frame := do
  let a := (getA f.i).toNat
  if a < f.stack.length then return { f with stack := f.stack.set a v } else throw .fault

def Frame.next (b : Block) (f : Frame) (distance : ℤ) : Exec Frame := do
  let s ← get
  let pc := f.pc + distance + 1
  return { f with pc, i := ← found (fetch host s.clock b f.path pc), x := f.x + 1 }

/-- The word that the next pass through the loop executes, if the bound still lets it. -/
def Frame.dispatched (b : Block) (f : Frame) : Option Inst :=
  if f.pc ≤ f.start + b.code.length then some f.i else none

inductive Control where
  | run (f : Frame) (callers : List Frame)
  | ret (v : TValue) (callers : List Frame)

structure Config where
  shared : Shared
  control : Control
  argv : List TValue

inductive Step where
  | on (c : Config)
  | done (v : TValue)
  | halt (h : Halt)

def window (argv : List TValue) : List Frame → List TValue
  | [] => argv
  | f :: _ => f.stack

def advance (argv : List TValue) : Control → Exec Control
  | .ret v [] => return .ret v []
  | .ret v (f :: callers) => do
    let b ← found (prog.find f.path)
    return .run (← (← f.setA v).next host b 0) callers
  | .run f callers => do
    let b ← found (prog.find f.path)
    match f.dispatched b with
    | none =>
      let s ← get
      return .ret (createNone (host.garbage s.clock)) callers
    | some _ =>
      match ← exec host b f (window argv callers) with
      | .store v => return .run (← (← f.setA v).next host b 0) callers
      | .go distance => return .run (← f.next host b distance) callers
      | .leave v => return .ret v callers
      | .enter path args argc =>
        return .run (← interpret host prog path 0 args argc) (f :: callers)

def Config.step (c : Config) : Step :=
  match c.control with
  | .ret v [] => .done v
  | control =>
    match advance host prog c.argv control c.shared with
    | .ok (control', s) => .on { c with shared := { s with clock := s.clock + 1 }, control := control' }
    | .error h => .halt h

def Config.initial (s : Shared) (path : Path) (argc : BitVec 32) (argv : List TValue) :
    Except Halt Config := do
  let (f, s) ← interpret host prog path 0 0 argc s
  return { shared := s, control := .run f [], argv }

end Loop

end Bijou
