import Bijou.Compiler

/-! The sections of compiler.c over the scanners that they are given. -/

namespace Bijou

open CString Incremental

/-- The scanners, `BijouBlock_push_child`, and what an error of the assembler is to them. -/
structure Scanners (ε : Type) where
  error : CompileError → ε
  expect : List Byte → Reader Byte Place ε Unit
  readNext : Reader Byte Place ε (List Byte)
  readArgs : Reader Byte Place ε (List (BitVec 32))
  readLine : Reader Byte Place ε (List Byte)
  pushChild : Block → Block → Reader Byte Place ε Block

namespace Scanners

def plain : Scanners CompileError where
  error := id
  expect := Bijou.expect
  readNext := Bijou.readNext
  readArgs := Bijou.readArgs
  readLine := Bijou.readLine
  pushChild b func := pure (b.pushChild func)

variable {ε : Type} (S : Scanners ε)

def headerRound (loop : Block → Reader Byte Place ε Block) (b : Block) : Reader Byte Place ε Block := do
  let string ← S.readNext
  if cstr string = bytes "<HEAD" then return b
  else
    match Directive.named (cstr string) with
    | none => fail (S.error (.unknownDirective string))
    | some d => do
      let tmp ← S.readNext
      loop (d.store tmp b)

abbrev headerLoop : Block → Reader Byte Place ε Block := fix S.headerRound

def compileHeader (b : Block) : Reader Byte Place ε Block := do
  S.expect (bytes ">HEAD")
  S.headerLoop b

def codeRound (loop : Block → Reader Byte Place ε Block) (b : Block) : Reader Byte Place ε Block := do
  let string ← S.readNext
  if cstr string = bytes "<CODE" then return b
  else
    match OpCode.named (cstr string) with
    | none => fail (S.error (.unknownOpcode string))
    | some o => do
      let args ← S.readArgs
      loop (b.pushInstruction (assemble o args))

abbrev codeLoop : Block → Reader Byte Place ε Block := fix S.codeRound

def compileCode (b : Block) : Reader Byte Place ε Block := do
  S.expect (bytes ">CODE")
  S.codeLoop b

variable (mem : Memory)

def compileFunctionWith (loop : ConstState → Reader Byte Place ε Block) (path : Path) (b : Block) :
    Reader Byte Place ε Block := do
  let b ← S.compileHeader b
  let b ← S.compileCode b
  S.expect (bytes ">CONST")
  loop ⟨path, b, mem.temp path, 0⟩

def pushEntry (loop : ConstState → Reader Byte Place ε Block) (st : ConstState) (tt : Tag) (value : Value) :
    Reader Byte Place ε Block :=
  match st.push tt value with
  | none => fail (S.error .nullCompare)
  | some st => loop st

def constEntry (loop : ConstState → Reader Byte Place ε Block) (st : ConstState) :
    ConstLine → Reader Byte Place ε Block
  | .close => return st.b
  | .comment => loop st
  | .bad e => fail (S.error e)
  | .null => S.pushEntry loop st .null st.t
  | .number n => S.pushEntry loop st .number (st.t.setNum (.ofInt n))
  | .boolean n => S.pushEntry loop st .boolean (st.t.setBool n)
  | .string text =>
    S.pushEntry loop st .string (.ofString (.new ⟨(mem.addr st.here).val, CStr.at text⟩))
  | .function => do
    let func ← S.compileFunctionWith mem loop st.here (Block.new (mem.block st.here))
    let b ← S.pushChild st.b func
    S.pushEntry loop { st with b := b } .function st.t

def constRound (loop : ConstState → Reader Byte Place ε Block) (st : ConstState) :
    Reader Byte Place ε Block := do
  let string ← S.readLine
  S.constEntry mem loop st (constLine (string ++ mem.line st.here))

abbrev constLoop : ConstState → Reader Byte Place ε Block := fix (S.constRound mem)

def compileFunction (path : Path) (b : Block) : Reader Byte Place ε Block :=
  S.compileFunctionWith mem (S.constLoop mem) path b

def compileFile (filename : CharPtr) : Reader Byte Place ε Block :=
  S.compileFunction mem []
    { Block.new (mem.block []) with filename := filename, funcname := .to (CStr.at (bytes "main")) }

lemma compileFunction_plain : plain.compileFunction mem = Bijou.compileFunction mem := rfl

lemma compileFile_plain : plain.compileFile mem = Bijou.compileFile mem := rfl

end Scanners

end Bijou
