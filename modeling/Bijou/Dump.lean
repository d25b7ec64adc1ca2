import Bijou.Blocks
import Bijou.Library.LittleEndian
import Bijou.Library.Transfer

/-! Writing bytecode, after dump.c on x86-64: a block becomes a `Proto`, and the blocks of memory
that bijou_dump hands to the writer are its output. -/

namespace Bijou

open CString Incremental LittleEndian

/-- The counts `sizek`, `sizecode` and `sizep` are the lengths of the lists as the 32 bits hold
them. -/
structure Proto where
  source : BijouString
  name : BijouString
  linedefined : BitVec 32
  lastlinedefined : BitVec 32
  maxregisters : Byte
  numglobal : Byte
  numupval : Byte
  numparam : Byte
  k : List TValue
  code : List Inst
  p : List Proto

def count {α : Type} (l : List α) : BitVec 32 := BitVec.ofNat 32 l.length

def upTo (n : BitVec 32) : ℕ := n.toInt.toNat

def counted {α : Type} (l : List α) : List α := l.take (upTo (count l))

mutual

def toProto : Block → Proto
  | ⟨k, _, upvals, code, regc, numglobal, argc, linedefined, lastlinedefined, filename, funcname,
      numchildren, children⟩ => {
    source := .new filename
    name := .new funcname
    linedefined := linedefined
    lastlinedefined := lastlinedefined
    maxregisters := regc
    numglobal := numglobal
    numupval := UInt8.ofNat upvals.length
    numparam := argc
    k := k
    code := code
    p := (toProtos children).take numchildren.toNat }

def toProtos : List Block → List Proto
  | [] => []
  | b :: l => toProto b :: toProtos l

end

inductive Output where
  | block (blk : List Byte)
  | message (text : List Byte)

def Output.bytes : Output → List Byte
  | block blk => blk
  | message _ => []

inductive DumpError where
  | unterminated (str : List Byte)
  | unrecognized (c : Byte) (str : List Byte)
  | outOfBounds

namespace DumpError

def text : DumpError → List Byte
  | unterminated str => bytes "Unterminated string: " ++ str ++ [10]
  | unrecognized c str =>
    bytes "Unrecognized escape \"\\" ++ [c] ++ bytes "\" in string " ++ str ++ [10]
  | outOfBounds => []

end DumpError

abbrev Dump := Incremental.Writer Output DumpError

def dumpBlock (blk : List Byte) : Dump Unit := Writer.write [.block blk]

def dumpChar (x : Byte) : Dump Unit := dumpBlock [x]

def dumpInt (x : BitVec 32) : Dump Unit := dumpBlock (toBytes 4 x.toNat)

def dumpSize (x : BitVec 64) : Dump Unit := dumpBlock (toBytes 8 x.toNat)

def header : List Byte := bytes "\x10bij" ++ [5, 1]

def dumpHeader : Dump Unit := dumpBlock header

abbrev backslash : Byte := 92

def escape (c : Byte) : Option Byte :=
  if c = 110 then some 10
  else if c = 114 then some 13
  else if c = 116 then some 9
  else if c = 97 then some 7
  else if c = backslash then some backslash
  else none

def strchr (str : List Byte) (start : ℕ) (c : Byte) : Option ℕ :=
  ((str.drop start).findIdx? (· == c)).map (start + ·)

/-- The text that `strcpy(str + i, str + i + 1)` leaves in `str`. The two strings overlap, and the
standard does not say what becomes of them. -/
abbrev Strcpy := List Byte → ℕ → List Byte

def memmove : Strcpy := fun str i => str.take i ++ str.drop (i + 1)

variable (strcpy : Strcpy)

def escapeRound (loop : List Byte → ℕ → BitVec 64 → Except DumpError (List Byte × BitVec 64))
    (str : List Byte) (start : ℕ) (size : BitVec 64) : Except DumpError (List Byte × BitVec 64) :=
  match strchr str start backslash with
  | none => .ok (str, size)
  | some i =>
    let size := size - 1
    if size.toNat ≤ i + 1 then .error (.unterminated str)
    else
      let c := str.getD (i + 1) 0
      match escape c with
      | none => .error (.unrecognized c str)
      | some c => loop (strcpy (str.set (i + 1) c) i) (i + 1) size

def escapeLoop : ℕ → List Byte → ℕ → BitVec 64 → Except DumpError (List Byte × BitVec 64)
  | 0 => fun str _ size => .ok (str, size)
  | n + 1 => escapeRound strcpy (escapeLoop n)

/-- The string is left with its escapes replaced, under its old length. -/
def dumpString (s : BijouString) : Dump BijouString :=
  if s.len = 0 then do
    dumpSize 0
    return s
  else
    let str := s.ptr.text.chars
    match escapeLoop strcpy str.length str 0 (s.len + 1) with
    | .error e => Writer.stop e
    | .ok (str, size) => do
      dumpSize size
      dumpBlock ((str ++ [0]).takeD size.toNat 0)
      return { s with ptr := { s.ptr with text := CStr.at str } }

/-- DumpVector at the code: with a negative count the block reaches past the end of memory. -/
def dumpCode (code : List Inst) : Dump Unit := do
  let n := count code
  dumpInt n
  if n.toInt < 0 then Writer.stop .outOfBounds
  else dumpBlock ((code.take n.toNat).flatMap (fun i => toBytes 4 i.toNat))

-- the six bytes that follow a long double on the stack
variable (padding : List Output → BitVec 48)

def dumpNumber (x : LongDouble) : Dump Unit := do
  let out ← Writer.written
  dumpBlock (toBytes 8 x.mant.toNat ++ toBytes 2 x.se.toNat ++ toBytes 6 (padding out).toNat)

def Tag.char (tt : Tag) : Byte := toByte (BitVec.ofInt 32 tt.code)

def dumpConstant (o : TValue) : Dump TValue := do
  dumpChar o.tt.char
  match o.tt with
  | .null => return o
  | .number =>
    dumpNumber padding o.value.n
    return o
  | .boolean =>
    dumpChar (toByte o.value.b)
    return o
  | .string =>
    let s ← dumpString strcpy o.value.s
    return { o with value := .ofString s }
  | .function => return o
  | .none | .pointer =>
    Writer.write [.message (bytes "Unrecognized type!\n")]
    return o

def dumpConstants : ℕ → List TValue → Dump (List TValue)
  | n + 1, o :: k => do
    let o ← dumpConstant strcpy padding o
    let k ← dumpConstants n k
    return o :: k
  | _, k => pure k

mutual

def dumpFunction : Proto → Dump Proto
  | ⟨source, name, linedefined, lastlinedefined, maxregisters, numglobal, numupval, numparam, k, code,
      p⟩ => do
    let source ← dumpString strcpy source
    let name ← dumpString strcpy name
    dumpInt linedefined
    dumpInt lastlinedefined
    dumpChar maxregisters
    dumpChar numglobal
    dumpChar numupval
    dumpChar numparam
    dumpCode code
    dumpInt (count k)
    let k ← dumpConstants strcpy padding (upTo (count k)) k
    dumpInt (count p)
    let p ← dumpFunctions (upTo (count p)) p
    return ⟨source, name, linedefined, lastlinedefined, maxregisters, numglobal, numupval, numparam,
      k, code, p⟩

def dumpFunctions : ℕ → List Proto → Dump (List Proto)
  | n + 1, f :: p => do
    let f ← dumpFunction f
    let p ← dumpFunctions n p
    return f :: p
  | 0, p => pure p
  | _ + 1, [] => pure []

end

def bijouDump (proto : Proto) : Dump Proto := do
  dumpHeader
  dumpFunction strcpy padding proto

end Bijou
