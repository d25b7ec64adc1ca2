import Bijou.Library.BitField
import Bijou.Library.CString

namespace Bijou

open CString BitField

abbrev Inst := BitVec 32

def getOpcode (i : Inst) : BitVec 32 := get 6 0 i
def getA (i : Inst) : BitVec 32 := get 8 6 i
def getB (i : Inst) : BitVec 32 := get 9 23 i
def getC (i : Inst) : BitVec 32 := get 9 14 i
def getBx (i : Inst) : BitVec 32 := get 18 14 i

def setOpcode (i o : Inst) : Inst := set 6 0 i o
def setA (i u : Inst) : Inst := set 8 6 i u
def setB (i u : Inst) : Inst := set 9 23 i u
def setC (i u : Inst) : Inst := set 9 14 i u
def setBx (i u : Inst) : Inst := set 18 14 i u

def maxargBx : BitVec 32 := (1 <<< 18) - 1
def maxargSBx : BitVec 32 := maxargBx >>> 1

def getSBx (i : Inst) : BitVec 32 := getBx i - maxargSBx
def setSBx (i b : Inst) : Inst := setBx i (b + maxargSBx)

def bitRK : BitVec 32 := 1 <<< 8
def makeK (x : BitVec 32) : BitVec 32 := x ||| bitRK
def isK (x : BitVec 32) : Bool := x &&& bitRK != 0
def indexRK (r : BitVec 32) : BitVec 32 := r &&& ~~~bitRK

inductive RK where
  | const (index : BitVec 32)
  | reg (index : BitVec 32)
  deriving DecidableEq

def rk (x : BitVec 32) : RK := if isK x then .const (indexRK x) else .reg x

lemma isK_eq (x : BitVec 32) : isK x = decide (x.toNat / 256 % 2 = 1) := by
  have hflag := toNat_flag (x := x) (i := 8) (by omega)
  have hbit : bitRK = BitVec.twoPow 32 8 := rfl
  rw [isK, hbit, bne, Bool.eq_iff_iff]
  have hzero : (0 : BitVec 32).toNat = 0 := rfl
  simp only [Bool.not_eq_true', beq_eq_false_iff_ne, ne_eq, decide_eq_true_eq, ← BitVec.toNat_inj, hflag,
    hzero]
  omega

lemma toNat_indexRK (x : BitVec 32) : (indexRK x).toNat + x.toNat / 256 % 2 * 256 = x.toNat :=
  toNat_clear_add (i := 8) (by omega)

lemma toNat_makeK (x : BitVec 32) :
    (makeK x).toNat = x.toNat - x.toNat / 256 % 2 * 256 + 256 := toNat_mark (i := 8) (by omega)

inductive OpCode where
  | nop | move | loadk | loadbool | loadnull | getglobal | setglobal | getlocal | setlocal | getarg
  | getexternal | add | sub | mul | div | pow | rem | unm | not | eq | lt | gt | le | ge | jmp | call
  | closure | return
  deriving DecidableEq

namespace OpCode

def all : List OpCode :=
  [nop, move, loadk, loadbool, loadnull, getglobal, setglobal, getlocal, setlocal, getarg,
    getexternal, add, sub, mul, div, pow, rem, unm, not, eq, lt, gt, le, ge, jmp, call, closure,
    «return»]

def code (o : OpCode) : Inst := BitVec.ofNat 32 (all.idxOf o)

def label : OpCode → List Byte
  | nop => bytes "nop"
  | move => bytes "move"
  | loadk => bytes "loadk"
  | loadbool => bytes "loadbool"
  | loadnull => bytes "loadnull"
  | getglobal => bytes "getglobal"
  | setglobal => bytes "setglobal"
  | getlocal => bytes "getlocal"
  | setlocal => bytes "setlocal"
  | getarg => bytes "getarg"
  | getexternal => bytes "getexternal"
  | add => bytes "add"
  | sub => bytes "sub"
  | mul => bytes "mul"
  | div => bytes "div"
  | pow => bytes "pow"
  | rem => bytes "rem"
  | unm => bytes "unm"
  | not => bytes "not"
  | eq => bytes "eq"
  | lt => bytes "lt"
  | gt => bytes "gt"
  | le => bytes "le"
  | ge => bytes "ge"
  | jmp => bytes "jmp"
  | call => bytes "call"
  | closure => bytes "closure"
  | «return» => bytes "return"

def argNone : BitVec 32 := 1 <<< 0
def argA : BitVec 32 := 1 <<< 1
def argB : BitVec 32 := 1 <<< 2
def argC : BitVec 32 := 1 <<< 3
def argBx : BitVec 32 := 1 <<< 4
def argSBx : BitVec 32 := 1 <<< 5

def hasArg (mask i : BitVec 32) : Bool := i &&& mask != 0

def args : OpCode → BitVec 32
  | nop => argNone
  | move | loadbool | getexternal | unm | not | eq | lt | gt | le | ge => argA ||| argB
  | loadk | getglobal | setglobal | getlocal | setlocal | getarg | closure => argA ||| argBx
  | loadnull | «return» => argA
  | add | sub | mul | div | pow | rem | call => argA ||| argB ||| argC
  | jmp => argSBx

def named (word : List Byte) : Option OpCode := all.find? (fun o => o.label = word)

lemma named_label (o : OpCode) : named o.label = some o := by
  cases o <;> decide

lemma all_code (o : OpCode) : all[o.code.toNat]? = some o := by
  cases o <;> decide

lemma label_of_named {word : List Byte} {o : OpCode} (h : named word = some o) :
    o.label = word := by
  simpa using List.find?_some h

end OpCode

lemma getOpcode_setOpcode (i : Inst) (o : OpCode) : getOpcode (setOpcode i o.code) = o.code := by
  have hcode : get 6 0 o.code = o.code := by cases o <;> decide
  rw [getOpcode, setOpcode, get_set_same (by omega), hcode]

inductive Field where
  | A | B | C | Bx | sBx
  deriving DecidableEq

namespace Field

def mask : Field → BitVec 32
  | A => OpCode.argA
  | B => OpCode.argB
  | C => OpCode.argC
  | Bx => OpCode.argBx
  | sBx => OpCode.argSBx

def get : Field → Inst → BitVec 32
  | A => getA
  | B => getB
  | C => getC
  | Bx => getBx
  | sBx => getSBx

def width : Field → ℕ
  | A => 8
  | B | C => 9
  | Bx | sBx => 18

def stored : Field → BitVec 32 → BitVec 32
  | sBx, v => BitField.get 18 0 (v + maxargSBx) - maxargSBx
  | f, v => BitField.get f.width 0 v

end Field

namespace OpCode

def fields (o : OpCode) : List Field :=
  [Field.A, .B, .C, .Bx, .sBx].filter (fun f => hasArg f.mask o.args)

def rkFields : OpCode → List Field
  | add | sub | mul | div | pow | rem => [.B, .C]
  | unm | not => [.B]
  | eq | lt | gt | le | ge => [.A, .B]
  | «return» => [.A]
  | _ => []

end OpCode

end Bijou
