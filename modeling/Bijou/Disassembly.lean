import Bijou.Assembly
import Bijou.Machine
import Bijou.Printing

namespace Bijou

open CString Incremental

abbrev tab : Byte := 9

def decimalInt (x : BitVec 32) : List Byte := signed x.toInt

def printOp (op : Inst) : Option (List Byte) := do
  let o ← opcode op
  let arg (f : Field) : List Byte :=
    if OpCode.hasArg f.mask o.args then printf (bytes " %d") [decimalInt (f.get op)] else []
  let label := printf (bytes "\t%s") [o.label]
  if o.args = OpCode.argNone then return label
  return label ++ arg .A ++ arg .B ++ arg .C ++ arg .Bx ++ arg .sBx

def closureName (functions : List CharPtr) (children : List Block) (bx : BitVec 32) :
    Option (List Byte) :=
  if isK bx then functions[(indexRK bx).toNat]?.map CharPtr.printed
  else children[bx.toNat]?.map (fun child => child.funcname.printed)

section Listing

variable (name : BitVec 32 → Option (List Byte)) (level : ℕ)

def dumpComment (i : Inst) : Option (List Byte) := do
  let a := decimalInt (getA i)
  let b := decimalInt (getB i)
  let c := decimalInt (getC i)
  let bx := decimalInt (getBx i)
  match ← opcode i with
  | .move => return printf (bytes "; R[%d] = R[%d]") [a, b]
  | .loadk => return printf (bytes "; R[%d] = K[%d]") [a, bx]
  | .loadbool =>
    return printf (bytes "; R[%d] = %s") [a, if getB i = 0 then bytes "false" else bytes "true"]
  | .loadnull => return printf (bytes "; R[%d] = null") [a]
  | .getglobal => return printf (bytes "; R[%d] = globals[K[%d]]") [a, bx]
  | .setglobal => return printf (bytes "; globals[K[%d]] = R[%d]") [bx, a]
  | .getlocal => return printf (bytes "; R[%d] = locals[K[%d]]") [a, bx]
  | .setlocal => return printf (bytes "; locals[K[%d]] = R[%d]") [bx, a]
  | .add => return printf (bytes "; R[%d] = RK[%d] + RK[%d]") [a, b, c]
  | .sub => return printf (bytes "; R[%d] = RK[%d] - RK[%d]") [a, b, c]
  | .mul => return printf (bytes "; R[%d] = RK[%d] * RK[%d]") [a, b, c]
  | .div => return printf (bytes "; R[%d] = RK[%d] / RK[%d]") [a, b, c]
  | .pow => return printf (bytes "; R[%d] = RK[%d] ** RK[%d]") [a, b, c]
  | .rem => return printf (bytes "; R[%d] = RK[%d] %% RK[%d]") [a, b, c]
  | .unm => return printf (bytes "; R[%d] = -RK[%d]") [a, b]
  | .not => return printf (bytes "; R[%d] = !RK[%d]") [a, b]
  | .closure => do
    let text ← name (getBx i)
    return printf (bytes "; R[%d] = ") [a] ++
      if isK (getBx i) then printf (bytes "%s\n") [text]
      else printf (bytes "closure[%d] (%s)\n") [bx, text]
  | .call =>
    return printf (bytes "; R[%d] = R[%d](") [a, b] ++
      (List.range (getC i).toNat).flatMap (fun x => printf (bytes "R[%zu], ") [decimal x]) ++
      (if 0 < (getC i).toNat then bytes "\x08\x08" else []) ++ bytes ")"
  | .getexternal => return printf (bytes "; R[%d] = closure(K[%d])") [a, b]
  | .nop | .getarg | .eq | .lt | .gt | .le | .ge | .jmp | .return => return []

def dumpLine (i : Inst) : Option (List Byte) := do
  return List.replicate level tab ++ (← printOp i) ++ [tab] ++ (← dumpComment name i) ++ [newline]

def dumpCodeLines (code : List Inst) : Option (List Byte) :=
  (code.mapM (dumpLine name level)).map List.flatten

end Listing

def printedOperands (o : OpCode) (i : Inst) : List (List Byte × List Byte) :=
  o.fields.map (fun f => ([32], decimalInt (f.get i)))

lemma printOp_eq {i : Inst} {o : OpCode} (h : opcode i = some o) :
    printOp i = some (tab :: o.label ++ operandText (printedOperands o i)) := by
  have harg (f : Field) : printf (bytes " %d") [decimalInt (f.get i)] =
      32 :: decimalInt (f.get i) := by
    change 32 :: (decimalInt (f.get i) ++ []) = _
    rw [List.append_nil]
  have hlabel : printf (bytes "\t%s") [o.label] = tab :: o.label := by
    change 9 :: (o.label ++ []) = _
    rw [List.append_nil]
  rw [printOp, h, Option.bind_eq_bind, Option.bind_some, hlabel]
  simp only [harg]
  cases o <;> simp [OpCode.args, OpCode.hasArg, printedOperands, OpCode.fields, operandText,
    OpCode.argNone, OpCode.argA, OpCode.argB, OpCode.argC, OpCode.argBx, OpCode.argSBx, Field.mask]

lemma dumpComment_some_iff {name : BitVec 32 → Option (List Byte)} {i : Inst} :
    (∃ c, dumpComment name i = some c) ↔
      ∃ o, opcode i = some o ∧ (o = .closure → ∃ t, name (getBx i) = some t) := by
  rw [dumpComment]
  cases opcode i with
  | none => simp
  | some o =>
    cases o with
    | closure =>
      cases name (getBx i) with
      | none => simp
      | some t => exact iff_of_true ⟨_, rfl⟩ ⟨.closure, rfl, fun _ => ⟨t, rfl⟩⟩
    | _ => exact iff_of_true ⟨_, rfl⟩ ⟨_, rfl, nofun⟩

lemma dumpLine_some_iff {name : BitVec 32 → Option (List Byte)} {level : ℕ} {i : Inst} :
    (∃ text, dumpLine name level i = some text) ↔
      ∃ o, opcode i = some o ∧ (o = .closure → ∃ t, name (getBx i) = some t) := by
  rw [← dumpComment_some_iff]
  constructor
  · rintro ⟨text, h⟩
    obtain ⟨op, -, h⟩ := Option.bind_eq_some_iff.mp h
    obtain ⟨c, hc, -⟩ := Option.bind_eq_some_iff.mp h
    exact ⟨c, hc⟩
  · rintro ⟨c, hc⟩
    obtain ⟨o, ho, -⟩ := dumpComment_some_iff.mp ⟨c, hc⟩
    exact ⟨_, by rw [dumpLine, printOp_eq ho, hc]; rfl⟩

section Comment

variable {i : Inst} {name : BitVec 32 → Option (List Byte)} {c : List Byte}

lemma newline_decimalInt (x : BitVec 32) : newline ∉ decimalInt x := by
  intro h
  rcases mem_signed h with h | h
  · exact absurd h (by decide)
  · exact absurd h (by decide)

lemma newline_printf (f : List Byte) (args : List (List Byte)) (hf : newline ∉ f)
    (h : ∀ a ∈ args, newline ∉ a) : newline ∉ printf f args := by
  intro hmem
  rcases mem_printf f args hmem with hmem | ⟨a, ha, hmem⟩
  · exact hf hmem
  · exact h a ha hmem

def IsTail (t : List Byte) : Prop := ∃ e x, t = e ++ x ∧ IsLineEnd e ∧ Space x

lemma isTail_nil : IsTail [newline] :=
  ⟨[] ++ [newline], [], rfl, .plain (by simp [Blank]), by simp [Space]⟩

lemma isTail_comment {t x : List Byte} (ht : newline ∉ t) (hx : Space x) :
    IsTail (semicolon :: t ++ newline :: x) := by
  refine ⟨[] ++ semicolon :: t ++ [newline], x, by simp, .comment (by simp [Blank]) ht, hx⟩

lemma isTail_printf {f : List Byte} {args : List (List Byte)} (hf : newline ∉ f)
    (h : ∀ a ∈ args, newline ∉ a) : IsTail (printf (semicolon :: f) args ++ [newline]) := by
  rw [printf_cons (by decide : semicolon ≠ 37)]
  exact isTail_comment (newline_printf f args hf h) (by simp [Space])

lemma newline_call (n : ℕ) : newline ∉ (List.range n).flatMap
    (fun x => printf (bytes "R[%zu], ") [decimal x]) := by
  intro h
  obtain ⟨x, -, hx⟩ := List.mem_flatMap.mp h
  refine newline_printf _ _ (by decide) ?_ hx
  intro a ha hmem
  rw [List.mem_singleton.mp ha] at hmem
  exact absurd (decimal_isdigit x _ hmem) (by decide)

lemma closure_tail {text : List Byte} (i : Inst) (htext : newline ∉ text) :
    IsTail (printf (bytes "; R[%d] = ") [decimalInt (getA i)] ++
      (if isK (getBx i) then printf (bytes "%s\n") [text]
        else printf (bytes "closure[%d] (%s)\n") [decimalInt (getBx i), text]) ++ [newline]) := by
  have hint := newline_decimalInt
  have hopen := newline_printf (bytes " R[%d] = ") [decimalInt (getA i)] (by decide)
    (by simpa using hint _)
  have hhead : printf (bytes "; R[%d] = ") [decimalInt (getA i)] =
      semicolon :: printf (bytes " R[%d] = ") [decimalInt (getA i)] := printf_cons (by decide) _ _
  rw [hhead]
  split_ifs
  · have hline : printf (bytes "%s\n") [text] = text ++ [newline] := rfl
    have hnot : newline ∉ printf (bytes " R[%d] = ") [decimalInt (getA i)] ++ text := by
      simp [hopen, htext]
    rw [hline]
    simpa using isTail_comment hnot (by decide : Space [newline])
  · have hline : printf (bytes "closure[%d] (%s)\n") [decimalInt (getBx i), text] =
        bytes "closure[" ++ (decimalInt (getBx i) ++ (bytes "] (" ++ (text ++ (bytes ")" ++ [newline])))) := rfl
    have hnot : newline ∉ printf (bytes " R[%d] = ") [decimalInt (getA i)] ++
        (bytes "closure[" ++ (decimalInt (getBx i) ++ (bytes "] (" ++ (text ++ bytes ")")))) := by
      have hparts : newline ∉ bytes "closure[" ∧ newline ∉ bytes "] (" ∧ newline ∉ bytes ")" := by
        decide
      simp [hopen, htext, hint, hparts]
    rw [hline]
    simpa using isTail_comment hnot (by decide : Space [newline])

lemma call_tail (i : Inst) :
    IsTail (printf (bytes "; R[%d] = R[%d](") [decimalInt (getA i), decimalInt (getB i)] ++
    (List.range (getC i).toNat).flatMap (fun x => printf (bytes "R[%zu], ") [decimal x]) ++
    (if 0 < (getC i).toNat then bytes "\x08\x08" else []) ++ bytes ")" ++ [newline]) := by
  have hhead : printf (bytes "; R[%d] = R[%d](") [decimalInt (getA i), decimalInt (getB i)] =
      semicolon :: printf (bytes " R[%d] = R[%d](") [decimalInt (getA i), decimalInt (getB i)] :=
    printf_cons (by decide) _ _
  have hopen := newline_printf (bytes " R[%d] = R[%d](") [decimalInt (getA i), decimalInt (getB i)]
    (by decide) (by simp [newline_decimalInt])
  have hcall := newline_call (getC i).toNat
  have hback : newline ∉ if 0 < (getC i).toNat then bytes "\x08\x08" else [] := by
    split_ifs <;> decide
  have hclose : newline ∉ bytes ")" := by decide
  rw [hhead]
  refine isTail_comment (t := _ ++ _ ++ _ ++ _) (x := []) ?_ (by simp [Space])
  exact List.not_mem_append (List.not_mem_append (List.not_mem_append hopen hcall) hback) hclose

lemma dumpComment_tail (h : dumpComment name i = some c)
    (hname : opcode i = some .closure → ∀ t, name (getBx i) = some t → newline ∉ t) :
    IsTail (c ++ [newline]) := by
  obtain ⟨o, ho, h⟩ := Option.bind_eq_some_iff.mp h
  cases o with
  | nop | getarg | eq | lt | gt | le | ge | jmp | «return» =>
    obtain rfl := Option.some.inj h
    exact isTail_nil
  | move | loadk | loadnull | getglobal | setglobal | getlocal | setlocal | add | sub | mul | div | pow
  | rem | unm | not | getexternal =>
    obtain rfl := Option.some.inj h
    refine isTail_printf (by decide) (fun x hx => ?_)
    simp only [List.mem_cons, List.not_mem_nil, or_false] at hx
    rcases hx with rfl | rfl | rfl <;> exact newline_decimalInt _
  | loadbool =>
    obtain rfl := Option.some.inj h
    refine isTail_printf (by decide) (fun x hx => ?_)
    simp only [List.mem_cons, List.not_mem_nil, or_false] at hx
    rcases hx with rfl | rfl
    · exact newline_decimalInt _
    · split_ifs <;> decide
  | closure =>
    obtain ⟨text, htext, h⟩ := Option.bind_eq_some_iff.mp h
    obtain rfl := Option.some.inj h
    exact closure_tail i (hname ho text htext)
  | call =>
    obtain rfl := Option.some.inj h
    exact call_tail i

end Comment

def numeral : ℤ → Operand
  | .ofNat n => ⟨[], decimal n, false⟩
  | .negSucc n => ⟨[minus], decimal (n + 1), false⟩

lemma numeral_text (z : ℤ) : (numeral z).text = signed z := by
  cases z <;> simp [numeral, Operand.text, signed]

lemma numeral_number (z : ℤ) : (numeral z).number = z := by
  cases z with
  | ofNat n => simp [numeral, Operand.number, digitsValue_decimal]
  | negSucc n =>
    simp [numeral, Operand.number, digitsValue_decimal, Int.negSucc_eq]

lemma numeral_const (z : ℤ) : (numeral z).const = false := by
  cases z <;> rfl

section Fields

variable {f : Field}

lemma toInt_get (hf : f ≠ .sBx) (i : Inst) : 0 ≤ (f.get i).toInt := by
  have hlt : (f.get i).toNat < 2 ^ 18 := by
    cases f with
    | A => exact (BitField.get_lt 8 6 i).trans (by norm_num)
    | B => exact (BitField.get_lt 9 23 i).trans (by norm_num)
    | C => exact (BitField.get_lt 9 14 i).trans (by norm_num)
    | Bx => exact BitField.get_lt 18 14 i
    | sBx => exact absurd rfl hf
  rw [BitVec.toInt_eq_toNat_of_lt (by omega)]
  exact Int.natCast_nonneg _

lemma stored_get (f : Field) (i : Inst) : f.stored (f.get i) = f.get i := by
  have hget (n p : ℕ) : BitField.get n 0 (BitField.get n p i) = BitField.get n p i := by
    apply BitVec.eq_of_toNat_eq
    rw [BitField.toNat_get, pow_zero, Nat.div_one, Nat.mod_eq_of_lt (BitField.get_lt n p i)]
  cases f with
  | A => exact hget 8 6
  | B => exact hget 9 23
  | C => exact hget 9 14
  | Bx => exact hget 18 14
  | sBx =>
    change BitField.get 18 0 (getBx i - maxargSBx + maxargSBx) - maxargSBx = getBx i - maxargSBx
    rw [BitVec.sub_add_cancel]
    exact congrArg (· - maxargSBx) (hget 18 14)

lemma numeral_written (f : Field) (i : Inst) : (numeral (f.get i).toInt).WrittenFor f := by
  have hsigned : f = .sBx ∨ 0 ≤ (f.get i).toInt := by
    by_cases hf : f = .sBx
    · exact .inl hf
    · exact .inr (toInt_get hf i)
  cases hz : (f.get i).toInt with
  | ofNat n => exact ⟨decimal_ne_nil n, decimal_isdigit n, .inl rfl⟩
  | negSucc n =>
    have hf : f = .sBx := hsigned.resolve_right (by rw [hz]; omega)
    exact ⟨decimal_ne_nil (n + 1), decimal_isdigit (n + 1), .inr ⟨hf, .inl rfl⟩⟩

lemma argValue_decimalInt (f : Field) (i : Inst) : argValue (decimalInt (f.get i)) = f.get i := by
  have hlow := BitVec.le_toInt (f.get i)
  have hhigh := BitVec.toInt_lt (x := f.get i)
  have hvalue := argValue_plain (numeral_written f i) (.inr (numeral_const _))
  rwa [numeral_text, numeral_number, clampLong_of_mem (by omega) (by omega), BitVec.ofInt_toInt]
    at hvalue

end Fields

def SameWord (i w : Inst) : Prop :=
  ∃ o, opcode i = some o ∧ opcode w = some o ∧ ∀ f ∈ o.fields, f.get w = f.get i

section Lines

variable {i : Inst} {o : OpCode} {name : BitVec 32 → Option (List Byte)} (level : ℕ)

def printedLine (o : OpCode) (i : Inst) : CodeLine := ⟨o, (printedOperands o i).map Prod.snd⟩

lemma printedOperands_operand (o : OpCode) (i : Inst) : ∀ x ∈ printedOperands o i, IsOperand x := by
  intro x hx
  obtain ⟨f, -, rfl⟩ := List.mem_map.mp hx
  have hgap : Blank [32] := by decide
  have hop := IsOperand.of_numeral (numeral_written f i) hgap (by decide)
  rwa [numeral_text] at hop

lemma printedLine_same (h : opcode i = some o) : SameWord i (printedLine o i).word := by
  refine ⟨o, h, ?_, fun f hf => ?_⟩
  · rw [opcode, CodeLine.word, getOpcode_assemble]
    exact OpCode.all_code o
  · obtain ⟨n, hn, rfl⟩ := List.mem_iff_getElem.mp hf
    have hget := get_assemble o ((printedLine o i).operands.map argValue) n _
      (List.getElem?_eq_getElem hn)
    have harg : ((printedLine o i).operands.map argValue).getD n (-1) = o.fields[n].get i := by
      simp [printedLine, printedOperands, List.getD_eq_getElem?_getD, List.getElem?_eq_getElem hn,
        argValue_decimalInt]
    refine (show o.fields[n].get (printedLine o i).word = _ from hget).trans ?_
    rw [harg, stored_get]

lemma codeLine_printed (h : opcode i = some o) (hne : o.fields ≠ [])
    (hname : o = .closure → ∃ t, name (getBx i) = some t ∧ newline ∉ t) :
    ∃ text, dumpLine name level i = some text ∧ ∀ s, ∃ x, Space x ∧
      codeLine (text ++ s) = .done (some (printedLine o i)) (x ++ s) := by
  obtain ⟨c, hc⟩ : ∃ c, dumpComment name i = some c :=
    dumpComment_some_iff.mpr ⟨o, h, fun ho => (hname ho).imp fun _ ht => ht.1⟩
  have hnames : opcode i = some .closure → ∀ t, name (getBx i) = some t → newline ∉ t := by
    intro hclosure t ht
    obtain ⟨t', ht', hn⟩ := hname (Option.some.inj (h.symm.trans hclosure))
    exact Option.some.inj (ht.symm.trans ht') ▸ hn
  obtain ⟨e, x, hex, he, hx⟩ := dumpComment_tail hc hnames
  refine ⟨_, by rw [dumpLine, printOp_eq h, hc]; rfl, fun s => ⟨x, hx, ?_⟩⟩
  have hlen : (printedOperands o i).length = o.fields.length := List.length_map _
  have hthree : (printedOperands o i).length ≤ 3 := by
    rw [hlen]
    cases o <;> decide
  have hops : printedOperands o i ≠ [] := by simpa [printedOperands] using hne
  have hindent : Space (List.replicate level tab ++ [tab]) := by
    intro c hc
    obtain rfl : c = tab := by
      rcases List.mem_append.mp hc with hc | hc
      · exact List.eq_of_mem_replicate hc
      · exact List.mem_singleton.mp hc
    decide
  have hread := codeLine_written (r := x ++ s) hindent o (printedOperands_operand o i) hops hthree
    (by decide : isspace tab = true) he
  rw [← List.append_assoc e, ← hex] at hread
  have htext : List.replicate level tab ++ (tab :: o.label ++ operandText (printedOperands o i)) ++ [tab] ++
      c ++ [newline] ++ s = List.replicate level tab ++ [tab] ++ o.label ++
        (operandText (printedOperands o i) ++ tab :: (c ++ [newline] ++ s)) := by simp
  rw [htext]
  exact hread

lemma codeLoop_space {x : List Byte} (hx : Space x) (b : Block) (s : List Byte) :
    codeLoop b (x ++ s) = codeLoop b s := by
  induction x with
  | nil => rfl
  | cons c x ih =>
    rw [← ih (fun d hd => hx d (by simp [hd])), codeLoop_eq, codeLoop_eq b (x ++ s)]
    exact bind_congr_left (codeLine_skip (hx c (by simp)) _) _

end Lines

section Section

variable {name : BitVec 32 → Option (List Byte)} {code : List Inst}

def Listed (name : BitVec 32 → Option (List Byte)) (i : Inst) : Prop :=
  ∃ o, opcode i = some o ∧ o.fields ≠ [] ∧
    (o = .closure → ∃ t, name (getBx i) = some t ∧ newline ∉ t)

lemma codeLoop_printed (h : ∀ i ∈ code, Listed name i) (level : ℕ) :
    ∃ text, dumpCodeLines name level code = some text ∧ ∃ words, List.Forall₂ SameWord code words ∧
      ∀ (b : Block) (r : List Byte), codeLoop b (text ++ (bytes "<CODE" ++ newline :: r)) =
        .done { b with code := b.code ++ words } r := by
  induction code with
  | nil =>
    refine ⟨[], rfl, [], .nil, fun b r => ?_⟩
    have hclose : codeLine (bytes "<CODE" ++ newline :: r) = .done none r :=
      codeLine_close (g := []) (by simp [Space]) (by decide)
    rw [List.nil_append, codeLoop_close hclose, List.append_nil]
    cases b
    rfl
  | cons i code ih =>
    obtain ⟨o, ho, hne, hname⟩ := h i (by simp)
    obtain ⟨line, hline, hread⟩ := codeLine_printed level ho hne hname
    obtain ⟨text, htext, words, hwords, hrun⟩ := ih (fun j hj => h j (by simp [hj]))
    obtain ⟨lines, hlines, rfl⟩ := Option.map_eq_some_iff.mp htext
    refine ⟨line ++ lines.flatten, ?_, (printedLine o i).word :: words,
      .cons (printedLine_same ho) hwords, fun b r => ?_⟩
    · rw [dumpCodeLines, List.mapM_cons, hline, hlines]
      rfl
    · obtain ⟨x, hx, hdone⟩ := hread (lines.flatten ++ (bytes "<CODE" ++ newline :: r))
      rw [List.append_assoc, codeLoop_line hdone, codeLoop_space hx, hrun]
      simp [Block.pushInstruction]

theorem disassembly_reassembles (h : ∀ i ∈ code, Listed name i) (level : ℕ) :
    ∃ text, dumpCodeLines name level code = some text ∧ ∃ words, List.Forall₂ SameWord code words ∧
      ∀ (b : Block) (rest : List Byte),
        compileCode b (bytes ">CODE" ++ newline :: (text ++ (bytes "<CODE" ++ newline :: rest))) =
          .done { b with code := b.code ++ words } rest := by
  obtain ⟨text, htext, words, hwords, hrun⟩ := codeLoop_printed h level
  refine ⟨text, htext, words, hwords, fun b rest => ?_⟩
  have hexpect := expect_word (g := []) (r := newline :: (text ++ (bytes "<CODE" ++ newline :: rest)))
    (by simp [Space]) (by decide : IsWord (bytes ">CODE"))
  rw [List.nil_append] at hexpect
  have hskip := codeLoop_space (by decide : Space [newline]) b
    (text ++ (bytes "<CODE" ++ newline :: rest))
  rw [compileCode, bind_done hexpect, ← hrun b rest, ← hskip]
  rfl

def listedCode : List Inst :=
  [setBx (setA OpCode.closure.code 3) (makeK 1), setSBx OpCode.jmp.code (-2),
    setC (setB (setA OpCode.add.code 255) (makeK 5)) 7, setA OpCode.return.code 4]

theorem disassembly_reassembles_sample :
    let name := closureName [.to (CStr.at (bytes "print")), .to (CStr.at (bytes "println"))] []
    ∃ text, dumpCodeLines name 1 listedCode = some text ∧ ∃ words,
      List.Forall₂ SameWord listedCode words ∧ ∀ (b : Block) (rest : List Byte),
        compileCode b (bytes ">CODE" ++ newline :: (text ++ (bytes "<CODE" ++ newline :: rest))) =
          .done { b with code := b.code ++ words } rest := by
  intro name
  apply disassembly_reassembles
  intro i hi
  simp only [listedCode, List.mem_cons, List.not_mem_nil, or_false] at hi
  rcases hi with rfl | rfl | rfl | rfl
  · exact ⟨.closure, by decide, by decide, fun _ => ⟨bytes "println", by decide, by decide⟩⟩
  · exact ⟨.jmp, by decide, by decide, by decide⟩
  · exact ⟨.add, by decide, by decide, by decide⟩
  · exact ⟨.return, by decide, by decide, by decide⟩

end Section

end Bijou
