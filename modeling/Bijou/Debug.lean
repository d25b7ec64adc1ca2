import Bijou.Compiler
import Bijou.Dump
import Bijou.Library.Simulation

/-! compile_file with its options: the parser as it prints on stdout in debug mode, and the guard
that decides whether the file is written. -/

namespace Bijou

open CString Incremental

structure Debug where
  debug : Bool
  indent : ℕ
  text : List Byte

abbrev Traced := StateT Debug Scan

namespace Traced

def printNoIndent (x : List Byte) : Traced Unit := modify fun d =>
  if d.debug then { d with text := d.text ++ x } else d

def print (x : List Byte) : Traced Unit := modify fun d =>
  if d.debug then { d with text := d.text ++ List.replicate d.indent 9 ++ x } else d

def loop {β γ : Type} (round : (β → Traced γ) → β → Traced γ) (b : β) : Traced γ := fun d =>
  fix (fun next x => round (fun b d => next (b, d)) x.1 x.2) (b, d)

def labelled (label : String) (n : BitVec 32) : List Byte :=
  bytes label ++ signed n.toInt ++ [newline]

def directiveText (d : Directive) (tmp : List Byte) : List Byte :=
  match d with
  | .regs => labelled "\tRegisters: " (atoi tmp)
  | .name => bytes "\tName: " ++ cstr tmp ++ [newline]
  | .globals => labelled "\tGlobals: " (atoi tmp)
  | .upvals => labelled "\tUpvals: " (atoi tmp)
  | .params => labelled "\tParams: " (atoi tmp)

def headerRound (loop : Block → Traced Block) (b : Block) : Traced Block := do
  let string ← readNext
  if cstr string = bytes "<HEAD" then return b
  else
    match Directive.named (cstr string) with
    | none => (fail (.unknownDirective string) : Scan Block)
    | some d => do
      let tmp ← readNext
      print (directiveText d tmp)
      loop (d.store tmp b)

def compileHeader (b : Block) : Traced Block := do
  print (bytes "Header\n")
  expect (bytes ">HEAD")
  loop headerRound b

def readArgsFrom : ℕ → List (BitVec 32) → List Byte → Traced (List (BitVec 32))
  | 0, args, _ => pure args
  | n + 1, args, arg =>
    match parseArg arg with
    | .error e => (fail e : Scan (List (BitVec 32)))
    | .ok v => do
      printNoIndent (cstr arg ++ bytes " ")
      let args := args ++ [v]
      if ← skipBlank then return args
      else
        match ← readArg with
        | none => return args
        | some arg => readArgsFrom n args arg

def readArgs : Traced (List (BitVec 32)) := do
  let arg ← readNext
  readArgsFrom 3 [] arg

def codeRound (loop : Block → Traced Block) (b : Block) : Traced Block := do
  let string ← readNext
  if cstr string = bytes "<CODE" then return b
  else
    match OpCode.named (cstr string) with
    | none => (fail (.unknownOpcode string) : Scan Block)
    | some o => do
      print (bytes "\t" ++ o.label ++ bytes "\t")
      let args ← readArgs
      print (bytes "\n")
      loop (b.pushInstruction (assemble o args))

def compileCode (b : Block) : Traced Block := do
  print (bytes "Code\n")
  expect (bytes ">CODE")
  loop codeRound b

variable (mem : Memory)

def compileFunctionWith (loop : ConstState → Traced Block) (path : Path) (b : Block) :
    Traced Block := do
  let b ← compileHeader b
  let b ← compileCode b
  print (bytes "Const\n")
  expect (bytes ">CONST")
  loop ⟨path, b, mem.temp path, 0⟩

def pushEntry (loop : ConstState → Traced Block) (st : ConstState) (tt : Tag) (value : Value) :
    Traced Block :=
  match st.push tt value with
  | none => (fail .nullCompare : Scan Block)
  | some st => loop st

/-- The line is printed unless it opens a function; `_indent_` is never taken back. -/
def constEntry (loop : ConstState → Traced Block) (st : ConstState) (line : List Byte) :
    ConstLine → Traced Block
  | .close => return st.b
  | .comment => loop st
  | .bad e => (fail e : Scan Block)
  | .null => do
    print (bytes "\t" ++ cstr line ++ bytes "\n")
    pushEntry loop st .null st.t
  | .number n => do
    print (bytes "\t" ++ cstr line ++ bytes "\n")
    pushEntry loop st .number (st.t.setNum (.ofInt n))
  | .boolean n => do
    print (bytes "\t" ++ cstr line ++ bytes "\n")
    pushEntry loop st .boolean (st.t.setBool n)
  | .string text => do
    print (bytes "\t" ++ cstr line ++ bytes "\n")
    pushEntry loop st .string (.ofString (.new ⟨(mem.addr st.here).val, CStr.at text⟩))
  | .function => do
    modify fun d => { d with indent := d.indent + 1 }
    let func ← compileFunctionWith mem loop st.here (Block.new (mem.block st.here))
    pushEntry loop { st with b := st.b.pushChild func } .function st.t

def constRound (loop : ConstState → Traced Block) (st : ConstState) : Traced Block := do
  let string ← readLine
  let line := string ++ mem.line st.here
  constEntry mem loop st line (constLine line)

def compileFunction (path : Path) (b : Block) : Traced Block :=
  compileFunctionWith mem (loop (constRound mem)) path b

def optParse : BitVec 32 := 1 <<< 0
def optDebug : BitVec 32 := 1 <<< 1

def compileFile (filename : CharPtr) (options : BitVec 32) : Traced Block := do
  modify fun d => if options &&& optDebug ≠ 0 then { d with debug := true } else d
  compileFunction mem []
    { Block.new (mem.block []) with filename := filename, funcname := .to (CStr.at (bytes "main")) }

section Erasure

variable {α β : Type}

def Erases (p : Traced α) (q : Scan α) : Prop := ∀ d, Simulates (fun x a => x.1 = a) (p d) q

lemma Erases.pure (a : α) : Erases (Pure.pure a) (Pure.pure a) := fun _ => Simulates.pure rfl

lemma Erases.lift (p : Scan α) : Erases (liftM p) p := by
  intro d
  have h : Simulates (fun x a => x.1 = a) (p >>= fun a => (Pure.pure (a, d) : Scan (α × Debug)))
      (p >>= Pure.pure) := Simulates.bind_same p (fun a => Simulates.pure rfl)
  rwa [bind_pure] at h

lemma Erases.bind {p : Traced α} {q : Scan α} {f : α → Traced β} {g : α → Scan β}
    (hp : Erases p q) (hf : ∀ a, Erases (f a) (g a)) : Erases (p >>= f) (q >>= g) := by
  intro d
  refine (hp d).bind ?_
  rintro ⟨a, d'⟩ _ rfl
  exact hf a d'

lemma Erases.modify {f : Debug → Debug} {k : Unit → Traced α} {q : Scan α} (h : Erases (k ()) q) :
    Erases (modify f >>= k) q := fun d => h (f d)

lemma Erases.loop {F : (α → Traced β) → α → Traced β} {G : (α → Scan β) → α → Scan β}
    (h : ∀ f g, (∀ a, Erases (f a) (g a)) → ∀ a, Erases (F f a) (G g a)) (a : α) :
    Erases (loop F a) (fix G a) := by
  intro d
  refine Simulates.fix (I := fun x b => x.1 = b) ?_ rfl
  rintro n hn ⟨b, d⟩ _ rfl
  exact h _ _ (fun b d => hn (b, d) b rfl) b d

lemma compileHeader_erases (b : Block) : Erases (compileHeader b) (Bijou.compileHeader b) := by
  refine .modify (.bind (.lift _) (fun _ => .loop ?_ b))
  intro f g hfg b
  refine .bind (.lift _) (fun string => ?_)
  split_ifs
  · exact .pure b
  · cases Directive.named (cstr string) with
    | none => exact .lift _
    | some d => exact .bind (.lift _) (fun tmp => .modify (hfg _))

lemma readArgsFrom_erases (n : ℕ) (args : List (BitVec 32)) (arg : List Byte) :
    Erases (readArgsFrom n args arg) (Bijou.readArgsFrom n args arg) := by
  induction n generalizing args arg with
  | zero => exact .pure args
  | succ n ih =>
    rw [readArgsFrom, Bijou.readArgsFrom]
    cases parseArg arg with
    | error e => exact .lift _
    | ok v =>
      refine .modify (.bind (.lift _) (fun eol => ?_))
      split_ifs
      · exact .pure _
      · refine .bind (.lift _) (fun arg' => ?_)
        cases arg' with
        | none => exact .pure _
        | some arg' => exact ih _ arg'

lemma compileCode_erases (b : Block) : Erases (compileCode b) (Bijou.compileCode b) := by
  refine .modify (.bind (.lift _) (fun _ => .loop ?_ b))
  intro f g hfg b
  refine .bind (.lift _) (fun string => ?_)
  split_ifs
  · exact .pure b
  · cases OpCode.named (cstr string) with
    | none => exact .lift _
    | some o =>
      exact .modify (.bind (.bind (.lift _) (readArgsFrom_erases 3 [])) (fun args => .modify (hfg _)))

variable (mem : Memory) {f : ConstState → Traced Block} {g : ConstState → Scan Block}

lemma compileFunctionWith_erases (h : ∀ st, Erases (f st) (g st)) (path : Path) (b : Block) :
    Erases (compileFunctionWith mem f path b) (Bijou.compileFunctionWith mem g path b) :=
  .bind (compileHeader_erases b) (fun b => .bind (compileCode_erases b)
    (fun _ => .modify (.bind (.lift _) (fun _ => h _))))

lemma pushEntry_erases (h : ∀ st, Erases (f st) (g st)) (st : ConstState) (tt : Tag) (value : Value) :
    Erases (pushEntry f st tt value) (Bijou.pushEntry g st tt value) := by
  rw [pushEntry, Bijou.pushEntry]
  cases st.push tt value with
  | none => exact .lift _
  | some st => exact h st

lemma constEntry_erases (h : ∀ st, Erases (f st) (g st)) (st : ConstState) (line : List Byte)
    (c : ConstLine) : Erases (constEntry mem f st line c) (Bijou.constEntry mem g st c) := by
  cases c with
  | close => exact .pure st.b
  | comment => exact h st
  | bad e => exact .lift _
  | null => exact .modify (pushEntry_erases h _ _ _)
  | number n => exact .modify (pushEntry_erases h _ _ _)
  | boolean n => exact .modify (pushEntry_erases h _ _ _)
  | string text => exact .modify (pushEntry_erases h _ _ _)
  | function =>
    exact .modify (.bind (compileFunctionWith_erases mem h _ _)
      (fun _ => pushEntry_erases h _ _ _))

lemma compileFunction_erases (path : Path) (b : Block) :
    Erases (compileFunction mem path b) (Bijou.compileFunction mem path b) := by
  refine compileFunctionWith_erases mem (.loop (fun f g hfg st => ?_)) path b
  exact .bind (.lift _) (fun string => constEntry_erases mem hfg st _ _)

lemma compileFile_erases (filename : CharPtr) (options : BitVec 32) :
    Erases (compileFile mem filename options) (Bijou.compileFile mem filename) :=
  .modify (compileFunction_erases mem [] _)

end Erasure

end Traced

def logicalNot (x : BitVec 32) : BitVec 32 := if x = 0 then 1 else 0

def fileBytes (strcpy : Strcpy) (padding : List Output → BitVec 48) (b : Block) : List Byte :=
  (bijouDump strcpy padding (toProto b) []).1.flatMap Output.bytes

/-- What compile_file writes to the file: nothing when it comes to an exit before the dump. -/
def compiledBytes (strcpy : Strcpy) (mem : Memory) (padding : List Output → BitVec 48)
    (filename : CharPtr) (options : BitVec 32) (file : List Byte) : List Byte :=
  match Traced.compileFile mem filename options ⟨false, 0, []⟩ file with
  | .done (b, _) _ =>
    if logicalNot options &&& Traced.optParse ≠ 0 then fileBytes strcpy padding b else []
  | _ => []

lemma dumps_iff (options : BitVec 32) :
    logicalNot options &&& Traced.optParse ≠ 0 ↔ options = 0 := by
  by_cases h : options = 0
  · rw [logicalNot, if_pos h]
    exact iff_of_true (by decide) h
  · rw [logicalNot, if_neg h]
    exact iff_of_false (not_not.mpr (by decide)) h

lemma fileBytes_ne_nil (strcpy : Strcpy) (padding : List Output → BitVec 48) (b : Block) :
    fileBytes strcpy padding b ≠ [] := by
  have hheader : dumpHeader [] = ([.block header], .ok ()) := rfl
  rw [fileBytes, bijouDump, Writer.bind_ok hheader, List.flatMap_append, List.flatMap_singleton]
  exact List.append_ne_nil_of_left_ne_nil (by decide) _

section Options

variable (strcpy : Strcpy) (mem : Memory) (padding : List Output → BitVec 48)
  (filename : CharPtr) (options : BitVec 32) {file : List Byte}

lemma compiledBytes_done {b : Block} {r : List Byte} (h : compileFile mem filename file = .done b r) :
    compiledBytes strcpy mem padding filename options file =
      if options = 0 then fileBytes strcpy padding b else [] := by
  have herases := Traced.compileFile_erases mem filename options ⟨false, 0, []⟩
  obtain ⟨⟨b', d⟩, hdone, rfl⟩ := herases.done_right h
  rw [compiledBytes, hdone]
  simp only [dumps_iff]

lemma compiledBytes_rejected (h : ∀ b r, compileFile mem filename file ≠ .done b r) :
    compiledBytes strcpy mem padding filename options file = [] := by
  have herases := Traced.compileFile_erases mem filename options ⟨false, 0, []⟩
  rw [compiledBytes]
  split
  · next b d r hdone =>
    obtain ⟨b', hb', rfl⟩ := herases.done hdone
    exact absurd hb' (h _ r)
  · rfl

end Options

theorem compiledBytes_independent_iff (strcpy : Strcpy) (mem : Memory)
    (padding : List Output → BitVec 48) (filename : CharPtr) (options : BitVec 32) (file : List Byte) :
    ((options &&& Traced.optParse = 0 → compiledBytes strcpy mem padding filename options file =
        compiledBytes strcpy mem padding filename 0 file) ∧
      (options &&& Traced.optParse ≠ 0 → compiledBytes strcpy mem padding filename options file = [])) ↔
    options = 0 ∨ options &&& Traced.optParse ≠ 0 ∨
      ∀ b r, compileFile mem filename file ≠ .done b r := by
  by_cases hdone : ∃ b r, compileFile mem filename file = .done b r
  · obtain ⟨b, r, h⟩ := hdone
    have hnone : ¬ ∀ b r, compileFile mem filename file ≠ .done b r := fun hall => hall b r h
    rw [compiledBytes_done strcpy mem padding filename options h, compiledBytes_done strcpy mem padding filename 0 h,
      if_pos rfl]
    constructor
    · rintro ⟨hsame, -⟩
      by_cases hparse : options &&& Traced.optParse = 0
      · left
        by_contra hne
        have hsame := hsame hparse
        rw [if_neg hne] at hsame
        exact fileBytes_ne_nil strcpy padding b hsame.symm
      · exact .inr (.inl hparse)
    · intro hoptions
      constructor
      · intro hparse
        rw [if_pos (hoptions.resolve_right (not_or.mpr ⟨not_not.mpr hparse, hnone⟩))]
      · intro hparse
        exact if_neg (fun h0 => hparse (by rw [h0]; rfl))
  · have hnone : ∀ b r, compileFile mem filename file ≠ .done b r :=
      fun b r h => hdone ⟨b, r, h⟩
    rw [compiledBytes_rejected strcpy mem padding filename options hnone,
      compiledBytes_rejected strcpy mem padding filename 0 hnone]
    exact iff_of_true ⟨fun _ => rfl, fun _ => rfl⟩ (.inr (.inr hnone))

def sampleSource : List Byte := bytes ">HEAD\n<HEAD\n>CODE\n<CODE\n>CONST\n<CONST\n"

theorem debug_writes_nothing : ∃ mem padding filename file,
    Traced.optDebug &&& Traced.optParse = 0 ∧
    compiledBytes memmove mem padding filename 0 file ≠ [] ∧
    compiledBytes memmove mem padding filename Traced.optDebug file = [] :=
  ⟨default, fun _ => 0, .to (CStr.at (bytes "a.s")), sampleSource, by decide, by decide +kernel,
    by decide +kernel⟩

end Bijou
