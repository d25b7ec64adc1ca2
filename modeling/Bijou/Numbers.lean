import Bijou.Values

/-! The operators of number.c and the constructors of value.c. The rounding operations of the long
doubles are a parameter; comparisons and conversions to integers are exact. -/

namespace Bijou

open CString

namespace Number

def lt : Number → Number → Bool
  | .nan, _ => false
  | _, .nan => false
  | .inf a, .inf b => a && !b
  | .inf a, .finite _ => a
  | .finite _, .inf b => !b
  | .finite m, .finite n => m < n

def trunc : Number → Option ℤ
  | .finite m => some (m.tdiv (2 ^ 16445))
  | _ => none

end Number

namespace LongDouble

def lt (x y : LongDouble) : Bool := x.number.lt y.number
def le (x y : LongDouble) : Bool := x.lt y || x.eq y

/-- The conversion to a signed integer of x87, which has one answer for all that is out of range. -/
def toInt (w : ℕ) (x : LongDouble) : BitVec w :=
  match x.number.trunc with
  | none => BitVec.intMin w
  | some z => if -2 ^ (w - 1) ≤ z ∧ z < 2 ^ (w - 1) then BitVec.ofInt w z else BitVec.intMin w

def neg (x : LongDouble) : LongDouble := { x with se := x.se ^^^ BitVec.ofNat 16 (2 ^ 15) }

end LongDouble

structure Arithmetic where
  add : LongDouble → LongDouble → LongDouble
  sub : LongDouble → LongDouble → LongDouble
  mul : LongDouble → LongDouble → LongDouble
  div : LongDouble → LongDouble → LongDouble
  pow : LongDouble → LongDouble → LongDouble

section Create

variable (garbage : Value)

def createNumber (num : LongDouble) : TValue := ⟨.number, garbage.setNum num⟩
def createBoolean (val : LongDouble) : TValue := ⟨.boolean, garbage.setBool (val.toInt 32)⟩
def createNull : TValue := ⟨.null, garbage⟩
def createNone : TValue := ⟨.none, garbage⟩
def createFunction (func : BitVec 64) : TValue := ⟨.function, { garbage with lo := func }⟩
def createPointer (p : BitVec 64) : TValue := ⟨.pointer, { garbage with lo := p }⟩

end Create

inductive Message where
  | operands (op : String) (one two : Tag)
  | operand (op : String) (one : Tag)
  | variableIndex (x : ℕ) (op : String) (index count : ℕ)
  | variableType (x : ℕ) (op : String) (index : ℕ) (type : Tag)
  | argument (x index : ℕ) (count : ℤ)
  | externalType (type : Tag)
  | noLibraries (name : CStr)
  | dynamicLoad (error : Option CStr)
  | notClosure
  | arity (name : CStr) (argc arity : ℤ)
  | internalFunction (index count : ℕ)
  | function (index count : ℕ)
  | opcode (code : ℕ)
  deriving DecidableEq

namespace TValue

section Operators

variable (op : String) (garbage : Value)

def binary (f : Value → Value → Option Value) (tt : Tag) (one two : TValue) :
    Option (TValue × List Message) :=
  if one.tt ≠ .number ∨ two.tt ≠ .number then
    some (⟨.none, garbage⟩, [.operands op one.tt two.tt])
  else (f one.value two.value).map (⟨tt, ·⟩, [])

def arith (f : LongDouble → LongDouble → LongDouble) : TValue → TValue →
    Option (TValue × List Message) :=
  binary op garbage (fun one two => some (one.setNum (f one.n two.n))) .number

def compare (f : LongDouble → LongDouble → Bool) : TValue → TValue →
    Option (TValue × List Message) :=
  binary op garbage
    (fun one two => some (createBoolean garbage (.ofInt (f one.n two.n).toNat)).value) .boolean

end Operators

variable (a : Arithmetic) (garbage : Value)

def numAdd := arith "add" garbage a.add
def numSub := arith "sub" garbage a.sub
def numMul := arith "mul" garbage a.mul
def numPow := arith "pow" garbage a.pow
def numDiv := arith "div" garbage a.div

/-- The remainder of two long longs, which traps when the quotient does not exist or does not
fit. -/
def remainder (x y : BitVec 64) : Option (BitVec 64) :=
  if y = 0 ∨ (x = BitVec.intMin 64 ∧ y = -1) then none else some (x.srem y)

def numRem := binary "rem" garbage
  (fun one two =>
    (remainder (one.n.toInt 64) (two.n.toInt 64)).map (fun r => one.setNum (.ofInt r.toInt)))
  .number

def numUnm (t : TValue) : TValue × List Message :=
  if t.tt ≠ .number then ({ t with tt := .none }, [.operand "unm" t.tt])
  else ({ t with value := t.value.setNum t.value.n.neg }, [])

def numLt := compare "lt" garbage LongDouble.lt
def numLe := compare "le" garbage LongDouble.le
def numGt := compare "gt" garbage (fun x y => y.lt x)
def numGe := compare "ge" garbage (fun x y => y.le x)

end TValue

end Bijou
