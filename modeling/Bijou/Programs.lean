import Bijou.CodeText

/-! Programs laid out as the samples are: one directive, one instruction or one constant on a line,
and a nested function below the line of its constant. -/

namespace Bijou

open CString Incremental

def isNameChar (c : Byte) : Bool :=
  isdigit c || (65 ≤ c && c ≤ 90) || (97 ≤ c && c ≤ 122) || c = 95

structure DirectiveLine where
  indent : List Byte
  directive : Directive
  gap : List Byte
  trail : List Byte

structure Header where
  indent : List Byte
  regs : ℕ
  params : ℕ
  globals : ℕ
  upvals : ℕ
  name : List Byte
  lines : List DirectiveLine
  closing : List Byte

namespace Header

def argument (h : Header) : Directive → List Byte
  | .regs => decimal h.regs
  | .name => h.name
  | .globals => decimal h.globals
  | .upvals => decimal h.upvals
  | .params => decimal h.params

def lineText (h : Header) (l : DirectiveLine) : List Byte :=
  l.indent ++ l.directive.word ++ l.gap ++ h.argument l.directive ++ l.trail ++ [newline]

def text (h : Header) : List Byte :=
  h.indent ++ bytes ">HEAD" ++ newline :: h.lines.flatMap h.lineText ++ h.closing ++ bytes "<HEAD" ++ [newline]

structure WellFormed (h : Header) : Prop where
  indent : Space h.indent
  closing : Space h.closing
  regs : h.regs < 256
  params : h.params < 256
  name : h.name ≠ [] ∧ ∀ c ∈ h.name, isNameChar c = true
  layout : ∀ l ∈ h.lines, Space l.indent ∧ Blank l.gap ∧ l.gap ≠ [] ∧ Blank l.trail
  complete : ∀ d ∈ [Directive.regs, .params, .name], ∃ l ∈ h.lines, l.directive = d

structure Built (h : Header) (b : Block) : Prop where
  regs : b.regc.toNat = h.regs
  params : b.argc.toNat = h.params
  name : b.funcname.text.chars = h.name

end Header

structure Instruction where
  indent : List Byte
  op : OpCode
  operands : List (List Byte × Operand)
  blank : Byte
  blanks : List Byte
  comment : Option (List Byte)

namespace Instruction

def written (l : Instruction) : List (List Byte × List Byte) := l.operands.map (fun x => (x.1, x.2.text))

def ending (l : Instruction) : List Byte :=
  l.blanks ++ (l.comment.elim [] (fun text => semicolon :: text)) ++ [newline]

def text (l : Instruction) : List Byte :=
  l.indent ++ l.op.label ++ operandText l.written ++ l.blank :: l.ending

def line (l : Instruction) : CodeLine := ⟨l.op, l.written.map Prod.snd⟩

structure WellFormed (l : Instruction) : Prop where
  indent : Space l.indent
  gaps : ∀ x ∈ l.operands, Blank x.1 ∧ x.1 ≠ []
  takes : l.op.fields ≠ []
  operands : List.Forall₂ (fun f x => x.2.WrittenFor f ∧ x.2.Fits l.op f) l.op.fields l.operands
  blank : isspace l.blank = true
  blanks : Blank l.blanks
  comment : ∀ text ∈ l.comment, newline ∉ text

def Built (l : Instruction) (word : Inst) : Prop :=
  getOpcode word = l.op.code ∧
    List.Forall₂ (fun f x => x.2.ReadFrom l.op f (f.get word)) l.op.fields l.operands

end Instruction

structure Code where
  indent : List Byte
  lines : List Instruction
  closing : List Byte

namespace Code

def text (c : Code) : List Byte :=
  c.indent ++ bytes ">CODE" ++ newline :: c.lines.flatMap Instruction.text ++ c.closing ++ bytes "<CODE" ++
    [newline]

structure WellFormed (c : Code) : Prop where
  indent : Space c.indent
  closing : Space c.closing
  lines : ∀ l ∈ c.lines, l.WellFormed

end Code

inductive Literal where
  | null (text : List Byte)
  | number (n : ℤ)
  | string (s : List Byte)

namespace Literal

def text : Literal → List Byte
  | null text => bytes "0#" ++ text
  | number n => bytes "1#" ++ signed n
  | string s => bytes "3#" ++ quote :: s ++ [quote]

def WellFormed : Literal → Prop
  | null text => newline ∉ text ∧ semicolon ∉ text ∧ quote ∉ text
  | number n => -2 ^ 63 ≤ n ∧ n < 2 ^ 63
  | string s => quote ∉ s ∧ newline ∉ s ∧ 0 ∉ s ∧ eof ∉ s

def Differ : Literal → Literal → Prop
  | null _, null _ => False
  | number n, number m => n ≠ m
  | string x, string y => x ≠ y
  | _, _ => True

end Literal

def SlotHolds : Option Literal → TValue → Prop
  | some (.null _), v => v.tt = .null
  | some (.number n), v => v.tt = .number ∧ v.value.n = .ofInt n
  | some (.string s), v => v.tt = .string ∧ v.value.s.chars = s
  | none, v => v.tt = .function

/-- The constants of a function up to the end of the section; a nested function stands with its
header, its code and its own constants. -/
inductive Consts where
  | close (indent : List Byte)
  | literal (indent : List Byte) (l : Literal) (rest : Consts)
  | function (indent : List Byte) (header : Header) (code : Code) (opening : List Byte) (body : Consts)
      (rest : Consts)

namespace Consts

def text : Consts → List Byte
  | close indent => indent ++ bytes "<CONST" ++ [newline]
  | literal indent l rest => indent ++ l.text ++ newline :: rest.text
  | function indent h code opening body rest =>
    indent ++ bytes "4#" ++ newline ::
      (h.text ++ code.text ++ (opening ++ bytes ">CONST" ++ newline :: body.text)) ++ rest.text

def slots : Consts → List (Option Literal)
  | close _ => []
  | literal _ l rest => some l :: rest.slots
  | function _ _ _ _ _ rest => none :: rest.slots

/-- The constants of one function: at most 255 functions among them, and no value twice. -/
structure Level (c : Consts) : Prop where
  functions : c.slots.countP Option.isNone ≤ 255
  distinct : (c.slots.filterMap id).Pairwise Literal.Differ

def WellFormed : Consts → Prop
  | close indent => Space indent
  | literal indent l rest => Space indent ∧ l.WellFormed ∧ rest.WellFormed
  | function indent h code opening body rest =>
    Space indent ∧ h.WellFormed ∧ code.WellFormed ∧ Space opening ∧ body.Level ∧ body.WellFormed ∧
      rest.WellFormed

end Consts

structure Program where
  header : Header
  code : Code
  opening : List Byte
  consts : Consts

namespace Program

def text (p : Program) : List Byte :=
  p.header.text ++ p.code.text ++ (p.opening ++ bytes ">CONST" ++ newline :: p.consts.text)

structure WellFormed (p : Program) : Prop where
  header : p.header.WellFormed
  code : p.code.WellFormed
  opening : Space p.opening
  level : p.consts.Level
  consts : p.consts.WellFormed

end Program

structure BuiltFrom (h : Header) (code : Code) (c : Consts) (b : Block) : Prop where
  header : h.Built b
  code : List.Forall₂ Instruction.Built code.lines b.code
  consts : List.Forall₂ SlotHolds c.slots b.k
  children : b.numchildren.toNat = b.children.length

def Consts.Children : Consts → List Block → Prop
  | close _, children => children = []
  | literal _ _ rest, children => rest.Children children
  | function _ h code _ body rest, children => ∃ func children', children = func :: children' ∧
      BuiltFrom h code body func ∧ body.Children func.children ∧ rest.Children children'

structure Program.Built (p : Program) (b : Block) : Prop where
  block : BuiltFrom p.header p.code p.consts b
  children : p.consts.Children b.children

end Bijou
