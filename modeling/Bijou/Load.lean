import Bijou.Dump

/-! Reading bytecode, after load.c on x86-64: a file is read into a `Proto`, and a block is built
from it. What malloc returns is taken from a `LoadMemory`, looked up by the path of the function. -/

namespace Bijou

open CString Incremental LittleEndian

inductive LoadError where
  | unexpectedEof
  | badInteger
  | unknownType (type : ℤ)
  | badHeader

namespace LoadError

def text (name : List Byte) : LoadError → List Byte
  | unexpectedEof => name ++ bytes ": Unexpected end of file in bytecode\n"
  | badInteger => name ++ bytes ": bad integer in bytecode\n"
  | unknownType type =>
    bytes "Got: " ++ signed type ++ [10] ++ name ++ bytes ": Unknown type in bytecode\n"
  | badHeader => name ++ bytes ": bad header, recompile program in bytecode\n"

end LoadError

inductive Slot where
  | source
  | name
  | const (i : ℕ)
  deriving DecidableEq

structure LoadMemory where
  k : Path → ℕ → Value
  addr : Path → Slot → {a : BitVec 64 // a ≠ 0}
  after : Path → Slot → List Byte
  block : Path → Fresh

instance : Inhabited LoadMemory :=
  ⟨⟨fun _ _ => ⟨0, 0, .empty⟩, fun _ _ => ⟨1, one_addr⟩, fun _ _ => [], fun _ => default⟩⟩

abbrev Load := Reader Byte Unit LoadError

/-- The `reader` of bijou.c stores all the bytes it is asked for, and returns their number as an
int. -/
def reader (size : ℕ) : BitVec 32 := BitVec.ofNat 32 size

section Load

variable (reader : ℕ → BitVec 32)

def loadBlock (size : ℕ) : Load (List Byte) := do
  let b ← take () size
  if reader size = -1 then fail .unexpectedEof else return b

def loadChar : Load Byte := do
  let b ← loadBlock reader 1
  return b.getD 0 0

def loadInt : Load (BitVec 32) := do
  let x := BitVec.ofNat 32 (ofBytes (← loadBlock reader 4))
  if x.toInt < 0 then fail .badInteger else return x

def loadNumber : Load LongDouble := do
  let b ← loadBlock reader 16
  return ⟨BitVec.ofNat 64 (ofBytes (b.take 8)), BitVec.ofNat 16 (ofBytes ((b.drop 8).take 2))⟩

variable (mem : LoadMemory)

def loadString (path : Path) (slot : Slot) : Load CharPtr := do
  let size := BitVec.ofNat 64 (ofBytes (← loadBlock reader 8))
  if size = 0 then return .null
  else
    let s ← loadBlock reader size.toNat
    return ⟨(mem.addr path slot).val, CStr.at (s ++ mem.after path slot)⟩

def loadCode : Load (List Inst) := do
  let n ← loadInt reader
  let b ← loadBlock reader (4 * n.toNat)
  return (List.range n.toNat).map (fun i => BitVec.ofNat 32 (ofBytes ((b.drop (4 * i)).take 4)))

/-- A function keeps the null that its slot was set to before. -/
def loadConstant (path : Path) (i : ℕ) : Load TValue := do
  let value := mem.k path i
  let type := (← loadChar reader).toInt8.toInt
  match type with
  | 0 => return ⟨.null, value⟩
  | 1 => return ⟨.number, value.setNum (← loadNumber reader)⟩
  | 2 => return ⟨.boolean, value.setBool (if (← loadChar reader) = 0 then 0 else 1)⟩
  | 3 => return ⟨.string, .ofString (.new (← loadString reader mem path (.const i)))⟩
  | 4 => return ⟨.null, value⟩
  | _ => fail (.unknownType type)

def loadFunctionRound (loop : Path → Load Proto) (path : Path) : Load Proto := do
  let source ← loadString reader mem path .source
  let name ← loadString reader mem path .name
  let linedefined ← loadInt reader
  let lastlinedefined ← loadInt reader
  let maxregisters ← loadChar reader
  let numglobal ← loadChar reader
  let numupval ← loadChar reader
  let numparam ← loadChar reader
  let code ← loadCode reader
  let sizek ← loadInt reader
  let k ← forN (loadConstant reader mem path) 0 sizek.toNat
  let sizep ← loadInt reader
  let p ← forN (fun i => loop (i :: path)) 0 sizep.toNat
  return ⟨.new source, .new name, linedefined, lastlinedefined, maxregisters, numglobal, numupval,
    numparam, k, code, p⟩

abbrev loadFunction : Path → Load Proto := fix (loadFunctionRound reader mem)

def loadHeader : Load Unit := do
  let s ← loadBlock reader 6
  if s = header then return () else fail .badHeader

def bijouLoad : Load Proto := do
  loadHeader reader
  loadFunction reader mem []

end Load

variable (mem : LoadMemory)

/-- Pushing a constant compares strings, and stops at a null one of the same length. -/
def pushConsts (b : Block) : List TValue → Option Block
  | [] => some b
  | v :: k => do
    let (_, b) ← b.pushConst v
    pushConsts b k

mutual

def protoToBlock2 (path : Path) : Proto → Option Block
  | ⟨source, name, linedefined, _, maxregisters, _, _, numparam, k, code, p⟩ => do
    let b := Block.new (mem.block path)
    let b := { b with
      filename := source.ptr
      funcname := name.ptr
      linedefined := linedefined
      lastlinedefined := linedefined
      regc := maxregisters
      argc := numparam }
    let b ← pushConsts b k
    let b := code.foldl Block.pushInstruction b
    let children ← protosToBlocks path 0 p
    return { b with
      numchildren := UInt8.ofNat p.length
      children := children }

def protosToBlocks (path : Path) : ℕ → List Proto → Option (List Block)
  | _, [] => some []
  | i, f :: p => do
    let b ← protoToBlock2 (i :: path) f
    let l ← protosToBlocks path (i + 1) p
    return b :: l

end

def protoToBlock (p : Proto) : Option (Byte × Block) := do
  return (p.numglobal, ← protoToBlock2 mem [] p)

end Bijou
