import Bijou.Blocks
import Bijou.Scanner

/-! The assembler of compiler.c: header, code and constants of a function, and in the constants
the functions nested in it. -/

namespace Bijou

open CString Incremental

def parseArg (arg : List Byte) : Except CompileError (BitVec 32) :=
  match (cstr arg).dropWhile isdigit with
  | [] => .ok (atoi arg)
  | c :: _ =>
    if ((cstr arg).takeWhile isdigit).length ≠ 0 ∧ c = minus then .error (.malformedArgument arg)
    else if c = letterK then .ok (makeK (atoi arg))
    else .ok (atoi arg)

def readArgsFrom : ℕ → List (BitVec 32) → List Byte → Scan (List (BitVec 32))
  | 0, args, _ => pure args
  | n + 1, args, arg =>
    match parseArg arg with
    | .error e => fail e
    | .ok v => do
      let args := args ++ [v]
      if ← skipBlank then return args
      else
        match ← readArg with
        | none => return args
        | some arg => readArgsFrom n args arg

def readArgs : Scan (List (BitVec 32)) := do
  let arg ← readNext
  readArgsFrom 3 [] arg

/-- The instruction word; an argument that was not given is -1. -/
def assemble (o : OpCode) (args : List (BitVec 32)) : Inst :=
  let arg (i : ℕ) : BitVec 32 := args.getD i (-1)
  let inst := setOpcode 0 o.code
  if OpCode.hasArg OpCode.argBx o.args then
    setBx (setA inst (arg 0)) (arg 1)
  else if OpCode.hasArg OpCode.argSBx o.args then
    let argA := if OpCode.hasArg OpCode.argA o.args then arg 0 else 0
    let argSBx := if OpCode.hasArg OpCode.argA o.args then arg 1 else arg 0
    setSBx (setA inst argA) argSBx
  else
    setC (setB (setA inst (arg 0)) (arg 1)) (arg 2)

inductive Directive where
  | regs | name | globals | upvals | params
  deriving DecidableEq

def Directive.word : Directive → List Byte
  | regs => bytes ".regs"
  | name => bytes ".name"
  | globals => bytes ".globals"
  | upvals => bytes ".upvals"
  | params => bytes ".params"

def Directive.named (word : List Byte) : Option Directive :=
  [regs, name, globals, upvals, params].find? (fun d => d.word = word)

def Directive.store (d : Directive) (tmp : List Byte) (b : Block) : Block :=
  match d with
  | regs => { b with regc := toByte (atoi tmp) }
  | name => { b with funcname := .to (CStr.at tmp) }
  | globals => { b with numglobal := toByte (atoi tmp) }
  | upvals => { b with upvals := [] }
  | params => { b with argc := toByte (atoi tmp) }

def headerRound (loop : Block → Scan Block) (b : Block) : Scan Block := do
  let string ← readNext
  if cstr string = bytes "<HEAD" then return b
  else
    match Directive.named (cstr string) with
    | none => fail (.unknownDirective string)
    | some d => do
      let tmp ← readNext
      loop (d.store tmp b)

abbrev headerLoop : Block → Scan Block := fix headerRound

def compileHeader (b : Block) : Scan Block := do
  expect (bytes ">HEAD")
  headerLoop b

def codeRound (loop : Block → Scan Block) (b : Block) : Scan Block := do
  let string ← readNext
  if cstr string = bytes "<CODE" then return b
  else
    match OpCode.named (cstr string) with
    | none => fail (.unknownOpcode string)
    | some o => do
      let args ← readArgs
      loop (b.pushInstruction (assemble o args))

abbrev codeLoop : Block → Scan Block := fix codeRound

def compileCode (b : Block) : Scan Block := do
  expect (bytes ">CODE")
  codeLoop b

inductive ConstLine where
  | close
  | comment
  | bad (e : CompileError)
  | null
  | number (n : ℤ)
  | boolean (n : BitVec 32)
  | string (text : List Byte)
  | function

def constLine (line : List Byte) : ConstLine :=
  if cstr line = bytes "<CONST" then .close
  else
    let type := atoi line
    if line.getD 0 0 = semicolon then .comment
    else if line.getD 1 0 ≠ hash then .bad (.malformedConstant line)
    else
      match type.toInt with
      | 0 => .null
      | 1 => .number (atol (line.drop 2))
      | 2 => .boolean (atoi (line.drop 2))
      | 3 => .string (line.drop 3)
      | 4 => .function
      | 5 => .bad .pointerObject
      | _ => .bad (.unknownType type line)

/-- The state of the loop of compile_const, with the temporary `t` that its entries reuse. -/
structure ConstState where
  path : Path
  b : Block
  t : Value
  entry : ℕ

namespace ConstState

def here (st : ConstState) : Path := st.entry :: st.path

def push (st : ConstState) (tt : Tag) (value : Value) : Option ConstState := do
  let (_, b) ← st.b.pushConst ⟨tt, value⟩
  return { st with b := b, t := value, entry := st.entry + 1 }

end ConstState

variable (mem : Memory)

def compileFunctionWith (loop : ConstState → Scan Block) (path : Path) (b : Block) : Scan Block := do
  let b ← compileHeader b
  let b ← compileCode b
  expect (bytes ">CONST")
  loop ⟨path, b, mem.temp path, 0⟩

def pushEntry (loop : ConstState → Scan Block) (st : ConstState) (tt : Tag) (value : Value) : Scan Block :=
  match st.push tt value with
  | none => fail .nullCompare
  | some st => loop st

def constEntry (loop : ConstState → Scan Block) (st : ConstState) : ConstLine → Scan Block
  | .close => return st.b
  | .comment => loop st
  | .bad e => fail e
  | .null => pushEntry loop st .null st.t
  | .number n => pushEntry loop st .number (st.t.setNum (.ofInt n))
  | .boolean n => pushEntry loop st .boolean (st.t.setBool n)
  | .string text =>
    pushEntry loop st .string (.ofString (.new ⟨(mem.addr st.here).val, CStr.at text⟩))
  | .function => do
    let func ← compileFunctionWith mem loop st.here (Block.new (mem.block st.here))
    pushEntry loop { st with b := st.b.pushChild func } .function st.t

def constRound (loop : ConstState → Scan Block) (st : ConstState) : Scan Block := do
  let string ← readLine
  constEntry mem loop st (constLine (string ++ mem.line st.here))

abbrev constLoop : ConstState → Scan Block := fix (constRound mem)

def compileConst (path : Path) (b : Block) : Scan Block := do
  expect (bytes ">CONST")
  constLoop mem ⟨path, b, mem.temp path, 0⟩

def compileFunction (path : Path) (b : Block) : Scan Block := do
  let b ← compileHeader b
  let b ← compileCode b
  compileConst mem path b

def compileFile (filename : CharPtr) : Scan Block :=
  compileFunction mem []
    { Block.new (mem.block []) with filename := filename, funcname := .to (CStr.at (bytes "main")) }

lemma compileFunctionWith_constLoop (path : Path) (b : Block) :
    compileFunctionWith mem (constLoop mem) path b = compileFunction mem path b := rfl

end Bijou
