import Bijou.BufferedWords
import Bijou.Constants

namespace Bijou

open Buffered CString Incremental Scanners

section Fits

variable (a : Allocator)

structure Header.Fits (h : Header) : Prop where
  lines : ∀ l ∈ h.lines, a.Spare l.directive.word.length ∧ a.Spare (h.argument l.directive).length
  closing : a.Spare (bytes "<HEAD").length

def Instruction.Fits (l : Instruction) : Prop :=
  a.Spare l.op.label.length ∧ ∀ x ∈ l.written, a.Spare x.2.length

structure Code.Fits (c : Code) : Prop where
  lines : ∀ l ∈ c.lines, l.Fits a
  closing : a.Spare (bytes "<CODE").length

namespace Consts

def functions (c : Consts) : ℕ := c.slots.countP Option.isNone

/-- The pointers to the functions can be stored behind those of `m` others, one after the other. -/
def TableFits (c : Consts) (m : ℕ) : Prop := ∀ n < c.functions, a.Holds (m + n + 1)

def Fits : Consts → Prop
  | close _ => a.Spare (bytes "<CONST").length
  | literal _ l rest => a.Spare l.text.length ∧ rest.Fits
  | function _ h code _ body rest => a.Spare (bytes "4#").length ∧
    (h.Fits a ∧ code.Fits a ∧ body.Fits ∧ body.TableFits a 0) ∧ rest.Fits

end Consts

structure Program.Fits (p : Program) : Prop where
  header : p.header.Fits a
  code : p.code.Fits a
  consts : p.consts.Fits a
  table : p.consts.TableFits a 0

end Fits

variable {a : Allocator} {r : List Byte}

section HeaderText

variable {h : Header}

lemma isNameChar_ordinary {c : Byte} (hc : isNameChar c = true) : Ordinary c := by
  refine ⟨?_, ?_, ?_, ?_, ?_⟩
  · simp only [isNameChar, isdigit, Bool.or_eq_true, Bool.and_eq_true, decide_eq_true_eq,
      UInt8.le_iff_toNat_le, ← UInt8.toNat_inj, UInt8.reduceToNat] at hc
    simp only [isspace, Bool.or_eq_false_iff, beq_eq_false_iff_ne, Bool.and_eq_false_iff,
      decide_eq_false_iff_not, ne_eq, UInt8.le_iff_toNat_le, ← UInt8.toNat_inj, UInt8.reduceToNat]
    omega
  all_goals
    rintro rfl
    exact absurd hc (by decide)

lemma decimal_isWord (n : ℕ) : IsWord (decimal n) := by
  refine ⟨decimal_ne_nil n, fun c hc => isNameChar_ordinary ?_⟩
  simp [isNameChar, decimal_isdigit n c hc]

lemma atoi_decimal {n : ℕ} (hn : n < 256) : toByte (atoi (decimal n)) = UInt8.ofNat n := by
  have hv := strtol_digits (t := []) (decimal_ne_nil n) (decimal_isdigit n) (by simp)
  have hc : clampLong n = n := clampLong_of_mem (by omega) (by omega)
  rw [List.append_nil, digitsValue_decimal, hc] at hv
  rw [atoi, hv, toByte, ← UInt8.toNat_inj]
  simp only [UInt8.toNat_ofBitVec, UInt8.toNat_ofNat', BitVec.toNat_setWidth, BitVec.toNat_ofInt]
  omega

lemma argument_isWord (hh : h.WellFormed) (d : Directive) : IsWord (h.argument d) := by
  cases d with
  | name => exact ⟨hh.name.1, fun c hc => isNameChar_ordinary (hh.name.2 c hc)⟩
  | _ => exact decimal_isWord _

lemma headerLoop_skip {g : List Byte} (hg : Space g) (b : Block) (s : List Byte) :
    (buffered a).headerLoop b (g ++ s) = (buffered a).headerLoop b s := by
  induction g with
  | nil => rfl
  | cons c g ih =>
    have hfix := Scanners.headerRound_guarded (buffered_advances a)
    rw [← ih (fun d hd => hg d (by simp [hd])), Scanners.headerLoop, hfix.fix_eq, List.cons_append]
    exact bind_congr_left (Buffered.readNext_skip (hg c (by simp)) (g ++ s)) _

lemma headerLoop_close {g : List Byte} (hg : Space g) (b : Block) :
    Gates (a.Spare (bytes "<HEAD").length) ((buffered a).headerLoop b) (g ++ bytes "<HEAD" ++ newline :: r) b r := by
  have hw : IsWord (bytes "<HEAD") := by decide
  have hnext := Buffered.readNext_word (a := a) (r := r) hg hw (by decide : isspace newline = true)
  rw [Scanners.headerLoop, (Scanners.headerRound_guarded (buffered_advances a)).fix_eq, Scanners.headerRound]
  refine .iff (hnext.bind (.of_done ?_)) (and_iff_left trivial)
  rfl

lemma headerLoop_line (hh : h.WellFormed) {l : DirectiveLine} (hl : l ∈ h.lines) {b b' : Block} {s : List Byte}
    {F : Prop} (hrest : Gates F ((buffered a).headerLoop (l.directive.store (h.argument l.directive) b)) s b' r) :
    Gates ((a.Spare l.directive.word.length ∧ a.Spare (h.argument l.directive).length) ∧ F)
      ((buffered a).headerLoop b) (h.lineText l ++ s) b' r := by
  obtain ⟨hindent, hgap, hne, htrail⟩ := hh.layout l hl
  obtain ⟨c, g, hcg⟩ := List.exists_cons_of_ne_nil hne
  obtain ⟨e, t, het⟩ := List.exists_cons_of_ne_nil (l := l.trail ++ [newline]) (by simp)
  have hend : Space (e :: t) := by
    rw [← het]
    intro d hd
    rcases List.mem_append.mp hd with hd | hd
    · exact (htrail d hd).1
    · exact (by decide : Space [newline]) d hd
  have htext : h.lineText l ++ s =
      l.indent ++ l.directive.word ++ c :: (g ++ h.argument l.directive ++ e :: (t ++ s)) := by
    have hcons : e :: (t ++ s) = l.trail ++ newline :: s := by
      rw [← List.cons_append, ← het]
      simp
    rw [hcons]
    simp [Header.lineText, hcg]
  have hword : IsWord l.directive.word := by cases l.directive <;> decide
  have hclose : cstr l.directive.word ≠ bytes "<HEAD" := by cases l.directive <;> decide
  have hnamed : Directive.named (cstr l.directive.word) = some l.directive := by
    cases l.directive <;> decide
  have hspace : Space g := fun d hd => (hgap d (by simp [hcg, hd])).1
  have hc : isspace c = true := (hgap c (by simp [hcg])).1
  have hfirst := Buffered.readNext_word (a := a) (r := g ++ h.argument l.directive ++ e :: (t ++ s)) hindent hword hc
  have hsecond := Buffered.readNext_word (a := a) (r := t ++ s) hspace (argument_isWord hh l.directive)
    (hend e (by simp))
  have hskip : Gates F ((buffered a).headerLoop (l.directive.store (h.argument l.directive) b)) (t ++ s) b' r :=
    .of_eq (headerLoop_skip (fun d hd => hend d (by simp [hd])) _ s) hrest
  rw [htext, Scanners.headerLoop, (Scanners.headerRound_guarded (buffered_advances a)).fix_eq,
    Scanners.headerRound]
  refine .iff (hfirst.bind (F := a.Spare l.directive.word.length) ?_) and_assoc.symm
  rw [if_neg hclose]
  simp only [hnamed]
  exact hsecond.bind hskip

def Header.stored (h : Header) (lines : List DirectiveLine) (b : Block) : Block :=
  lines.foldl (fun b l => l.directive.store (h.argument l.directive) b) b

lemma headerLoop_lines (hh : h.WellFormed) {lines : List DirectiveLine} (hsub : lines ⊆ h.lines)
    {b b' : Block} {s : List Byte} {F : Prop}
    (hrest : Gates F ((buffered a).headerLoop (h.stored lines b)) s b' r) :
    Gates ((∀ l ∈ lines, a.Spare l.directive.word.length ∧ a.Spare (h.argument l.directive).length) ∧ F)
      ((buffered a).headerLoop b) (lines.flatMap h.lineText ++ s) b' r := by
  induction lines generalizing b with
  | nil => exact hrest.iff (by simp)
  | cons l lines ih =>
    obtain ⟨hl, hlines⟩ := List.cons_subset.mp hsub
    rw [List.flatMap_cons, List.append_assoc]
    exact (headerLoop_line hh hl (ih hlines hrest)).iff
      (by rw [List.forall_mem_cons]; exact and_assoc.symm)

lemma compileHeader_text (hh : h.WellFormed) (b : Block) :
    Gates (h.Fits a) ((buffered a).compileHeader b) (h.text ++ r) (h.stored h.lines b) r := by
  have htext : h.text ++ r = h.indent ++ bytes ">HEAD" ++
      ([newline] ++ (h.lines.flatMap h.lineText ++ (h.closing ++ bytes "<HEAD" ++ newline :: r))) := by
    simp [Header.text]
  have hlines := headerLoop_lines (a := a) hh (List.Subset.refl _) (headerLoop_close (r := r) hh.closing
    (h.stored h.lines b))
  rw [htext]
  refine .of_bind (lift_done.mpr (expect_word hh.indent (by decide))) (.of_eq (headerLoop_skip (by decide) _ _) ?_)
  exact hlines.iff ⟨fun ⟨h, h'⟩ => ⟨h, h'⟩, fun ⟨h, h'⟩ => ⟨h, h'⟩⟩

section Stored

variable {α : Type} {p : Block → α} {lines : List DirectiveLine}

lemma stored_unchanged (hp : ∀ (d : Directive) b, p (d.store (h.argument d) b) = p b) (b : Block) :
    p (h.stored lines b) = p b := by
  induction lines generalizing b with
  | nil => rfl
  | cons l lines ih => exact (ih _).trans (hp _ b)

lemma stored_value {d : Directive} {v : α} (hset : ∀ b, p (d.store (h.argument d) b) = v)
    (hkeep : ∀ d' b, d' ≠ d → p (d'.store (h.argument d') b) = p b) {b : Block}
    (hmem : p b = v ∨ ∃ l ∈ lines, l.directive = d) : p (h.stored lines b) = v := by
  induction lines generalizing b with
  | nil =>
    rcases hmem with hb | ⟨l, hl, -⟩
    · exact hb
    · simp at hl
  | cons l lines ih =>
    apply ih
    by_cases hd : l.directive = d
    · subst hd
      exact .inl (hset b)
    · rcases hmem with hb | ⟨l', hl', hd'⟩
      · exact .inl ((hkeep _ b hd).trans hb)
      · rcases List.mem_cons.mp hl' with rfl | hl'
        · exact (hd hd').elim
        · exact .inr ⟨l', hl', hd'⟩

end Stored

lemma stored_built (hh : h.WellFormed) (b : Block) : h.Built (h.stored h.lines b) where
  regs := by
    have hv : (h.stored h.lines b).regc = UInt8.ofNat h.regs := by
      apply stored_value (d := .regs) (fun b => atoi_decimal hh.regs) ?_ (.inr (hh.complete _ (by simp)))
      intro d' b hd
      cases d' <;> first | rfl | exact (hd rfl).elim
    rw [hv, UInt8.toNat_ofNat']
    exact Nat.mod_eq_of_lt hh.regs
  params := by
    have hv : (h.stored h.lines b).argc = UInt8.ofNat h.params := by
      apply stored_value (d := .params) (fun b => atoi_decimal hh.params) ?_ (.inr (hh.complete _ (by simp)))
      intro d' b hd
      cases d' <;> first | rfl | exact (hd rfl).elim
    rw [hv, UInt8.toNat_ofNat']
    exact Nat.mod_eq_of_lt hh.params
  name := by
    apply stored_value (p := fun b : Block => b.funcname.text.chars) (d := .name) ?_ ?_
      (.inr (hh.complete _ (by simp)))
    · exact fun b => (argument_isWord hh .name).cstr
    · intro d' b hd
      cases d' <;> first | rfl | exact (hd rfl).elim

end HeaderText

section CodeText

lemma getOpcode_assemble (o : OpCode) (args : List (BitVec 32)) : getOpcode (assemble o args) = o.code := by
  have hset := getOpcode_setOpcode 0 o
  rw [assemble]
  dsimp only
  split_ifs <;>
  · simp only [getOpcode, setSBx, setBx, setA, setB, setC] at hset ⊢
    repeat rw [BitField.get_set_disjoint (by omega)]
    exact hset

variable {l : Instruction}

lemma Instruction.WellFormed.operand (hl : l.WellFormed) : ∀ x ∈ l.written, IsOperand x := by
  intro x hx
  obtain ⟨y, hy, rfl⟩ := List.mem_map.mp hx
  obtain ⟨hg, hne⟩ := hl.gaps y hy
  obtain ⟨i, hi, rfl⟩ := List.mem_iff_getElem.mp hy
  have hif : i < l.op.fields.length := hl.operands.length_eq ▸ hi
  exact .of_numeral (hl.operands.get hif hi).1 hg hne

lemma Instruction.WellFormed.lineEnd (hl : l.WellFormed) : IsLineEnd l.ending := by
  have hc := hl.comment
  rw [Instruction.ending]
  cases htext : l.comment with
  | none =>
    rw [Option.elim_none, List.append_nil]
    exact .plain hl.blanks
  | some text => exact .comment hl.blanks (hc text htext)

lemma codeRound_instruction (hl : l.WellFormed) {loop : Block → Buffered.Scan Block} {b b' : Block}
    {s : List Byte} {F : Prop} (hrest : Gates F (loop (b.pushInstruction l.line.word)) s b' r) :
    Gates (l.Fits a ∧ F) ((buffered a).codeRound loop b) (l.text ++ s) b' r := by
  have hlen : l.written.length = l.op.fields.length := by
    rw [Instruction.written, List.length_map, hl.operands.length_eq]
  have hne : l.written ≠ [] := by
    rw [← List.length_pos_iff, hlen, List.length_pos_iff]
    exact hl.takes
  have hthree : l.written.length ≤ 3 := by
    rw [hlen]
    cases l.op <;> decide
  have hargs := readArgs_line (a := a) (r := s) hl.operand hne hthree hl.blank hl.lineEnd
  obtain ⟨c, t, hct, hc⟩ := operandText_space hl.operand hl.blank (l.ending ++ s)
  have hnext := Buffered.readNext_word (a := a) (r := t) hl.indent (label_isWord l.op) hc
  have htext : l.text ++ s = l.indent ++ l.op.label ++ c :: t := by
    rw [← hct]
    simp [Instruction.text]
  rw [hct, List.tail_cons] at hargs
  rw [htext, Scanners.codeRound]
  refine .iff (hnext.bind (F := a.Spare l.op.label.length) ?_) and_assoc.symm
  rw [(label_isWord l.op).cstr, if_neg (label_ne_close l.op)]
  simp only [OpCode.named_label]
  exact hargs.bind hrest

lemma instruction_built (hl : l.WellFormed) : l.Built l.line.word := by
  refine ⟨getOpcode_assemble _ _, ?_⟩
  rw [List.forall₂_iff_get]
  refine ⟨hl.operands.length_eq, fun i hi hi' => ?_⟩
  obtain ⟨hd, hfits⟩ := hl.operands.get hi hi'
  have hf : l.op.fields[i]? = some l.op.fields[i] := List.getElem?_eq_getElem hi
  have ho : l.line.operands[i]? = some l.operands[i].2.text := by
    simp [Instruction.line, Instruction.written, List.getElem?_eq_getElem hi']
  have hget := CodeLine.get_word (l := l.line) hf ho
  simp only [List.get_eq_getElem] at hd hfits ⊢
  rw [hget]
  exact (readFrom_iff_fits hd l.op).mpr hfits

lemma codeLoop_closing {g : List Byte} (hg : Space g) (b : Block) :
    Gates (a.Spare (bytes "<CODE").length) ((buffered a).codeLoop b) (g ++ bytes "<CODE" ++ newline :: r) b r := by
  have hw : IsWord (bytes "<CODE") := by decide
  have hnext := Buffered.readNext_word (a := a) (r := r) hg hw (by decide : isspace newline = true)
  rw [Scanners.codeLoop, (Scanners.codeRound_guarded (buffered_advances a)).fix_eq, Scanners.codeRound]
  refine .iff (hnext.bind (.of_done ?_)) (and_iff_left trivial)
  rfl

lemma codeLoop_instructions {lines : List Instruction} (h : ∀ l ∈ lines, l.WellFormed) {g : List Byte}
    (hg : Space g) (b : Block) :
    Gates ((∀ l ∈ lines, l.Fits a) ∧ a.Spare (bytes "<CODE").length) ((buffered a).codeLoop b)
      (lines.flatMap Instruction.text ++ (g ++ bytes "<CODE" ++ newline :: r))
      { b with code := b.code ++ lines.map (fun l => l.line.word) } r := by
  induction lines generalizing b with
  | nil =>
    have hb : { b with code := b.code ++ [] } = b := by
      cases b
      simp
    rw [List.map_nil, hb]
    exact (codeLoop_closing hg b).iff (by simp)
  | cons l lines ih =>
    have hrest := ih (fun l' hl' => h l' (by simp [hl'])) (b.pushInstruction l.line.word)
    have hcode : { b.pushInstruction l.line.word with
        code := (b.pushInstruction l.line.word).code ++ lines.map (fun l : Instruction => l.line.word) } =
        { b with code := b.code ++ (l :: lines).map (fun l : Instruction => l.line.word) } := by
      simp [Block.pushInstruction]
    rw [hcode] at hrest
    rw [List.flatMap_cons, List.append_assoc, Scanners.codeLoop,
      (Scanners.codeRound_guarded (buffered_advances a)).fix_eq]
    exact (codeRound_instruction (h l (by simp)) hrest).iff (by rw [List.forall_mem_cons]; exact and_assoc.symm)

lemma compileCode_text {c : Code} (hc : c.WellFormed) (b : Block) :
    Gates (c.Fits a) ((buffered a).compileCode b) (c.text ++ r)
      { b with code := b.code ++ c.lines.map (fun l => l.line.word) } r := by
  have htext : c.text ++ r = c.indent ++ bytes ">CODE" ++
      newline :: (c.lines.flatMap Instruction.text ++ (c.closing ++ bytes "<CODE" ++ newline :: r)) := by
    simp [Code.text]
  have hskip (s : List Byte) : (buffered a).codeLoop b (newline :: s) = (buffered a).codeLoop b s := by
    rw [Scanners.codeLoop, (Scanners.codeRound_guarded (buffered_advances a)).fix_eq]
    exact bind_congr_left (Buffered.readNext_skip (by decide) s) _
  rw [htext]
  refine .of_bind (lift_done.mpr (expect_word hc.indent (by decide))) (.of_eq (hskip _) ?_)
  exact (codeLoop_instructions hc.lines hc.closing b).iff ⟨fun ⟨h, h'⟩ => ⟨h, h'⟩, fun ⟨h, h'⟩ => ⟨h, h'⟩⟩

end CodeText

section ConstText

lemma constLine_typed {d : Byte} (hd : isdigit d = true) (t : List Byte) :
    constLine (d :: hash :: t) =
      match (digit d : ℤ) with
      | 0 => .null
      | 1 => .number (atol t)
      | 2 => .boolean (atoi t)
      | 3 => .string (t.drop 1)
      | 4 => .function
      | 5 => .bad .pointerObject
      | _ => .bad (.unknownType (atoi (d :: hash :: t)) (d :: hash :: t)) := by
  have hzero : d ≠ 0 := by rintro rfl; exact absurd hd (by decide)
  have hopen : d ≠ 60 := by rintro rfl; exact absurd hd (by decide)
  have hsemi : d ≠ semicolon := by rintro rfl; exact absurd hd (by decide)
  have hclose : cstr (d :: hash :: t) ≠ bytes "<CONST" := by
    intro h
    rw [cstr, List.takeWhile_cons_of_pos (by simpa using hzero)] at h
    exact hopen (List.cons.inj h).1
  have hlt : digit d < 256 := by
    have := d.toNat_lt
    rw [digit]
    omega
  have hatoi : (atoi (d :: hash :: t)).toInt = digit d := by
    have hv : digitsValue [d] = digit d := by simp [digitsValue, hd]
    have hone : ∀ e ∈ [d], isdigit e = true := by simpa using hd
    have hs : strtol (d :: hash :: t) = digit d := by
      have hhash : ∀ e ∈ (hash :: t).head?, isdigit e = false := by
        intro e he
        obtain rfl : hash = e := by simpa using he
        decide
      have := strtol_digits (by simp) hone hhash
      rw [hv, clampLong_of_mem (by omega) (by omega)] at this
      exact this
    rw [atoi, hs, BitVec.toInt_ofInt_eq_self (by omega) (by omega) (by omega)]
  rw [← hatoi]
  exact (if_neg hclose).trans ((if_neg hsemi).trans (if_neg (not_not.mpr rfl)))

end ConstText

section Entries

inductive EntryOf : Option Literal → Entry → Prop
  | null (text : List Byte) : EntryOf (some (.null text)) .null
  | number (n : ℤ) : EntryOf (some (.number n)) (.number n)
  | string (buffer : {a : BitVec 64 // a ≠ 0}) (text : CStr) :
    EntryOf (some (.string text.chars)) (.string buffer text)
  | function (func : Block) : EntryOf none (.function func)

lemma EntryOf.holds {o : Option Literal} {e : Entry} {v : TValue} (h : EntryOf o e) (hv : e.Holds v) :
    SlotHolds o v := by
  cases h with
  | null text => exact hv
  | number n => exact hv
  | string buffer text =>
    refine ⟨hv.1, ?_⟩
    rw [hv.2, BijouString.chars, BijouString.new, if_neg buffer.property]
  | function func => exact hv

lemma EntryOf.not_clash {l : Literal} {o' : Option Literal} {e e' : Entry} (h : EntryOf (some l) e)
    (h' : EntryOf o' e') (hd : ∀ l', o' = some l' → l.Differ l') (t t' : Value) : ¬ Entry.Clash t t' e e' := by
  intro hc
  cases h <;> cases h' <;> first | exact hc | exact hd _ rfl | skip
  case number.number n m => exact hd _ rfl hc
  case string.string x _ y => exact hd _ rfl (congrArg CStr.chars hc)

lemma distinct_of_level {slots : List (Option Literal)} {es : List Entry} (h : List.Forall₂ EntryOf slots es)
    (hd : (slots.filterMap id).Pairwise Literal.Differ) (t : Value) : Distinct t es := by
  induction h generalizing t with
  | nil => exact List.Pairwise.nil
  | @cons o e slots es ho hrest ih =>
    have hmem : ∀ y ∈ withTemp (e.tvalue t).value es, ∃ o' ∈ slots, EntryOf o' y.2 := by
      intro y hy
      have hye : y.2 ∈ es := by
        rw [← withTemp_snd (e.tvalue t).value es]
        exact List.mem_map_of_mem hy
      obtain ⟨i, hi, hie⟩ := List.mem_iff_getElem.mp hye
      have his : i < slots.length := hrest.length_eq ▸ hi
      refine ⟨slots[i], List.getElem_mem his, ?_⟩
      rw [← hie]
      exact hrest.get his hi
    refine List.Pairwise.cons ?_ (ih ?_ _)
    · intro y hy
      obtain ⟨o', ho', hy'⟩ := hmem y hy
      cases o with
      | none =>
        cases ho
        exact fun hc => hc
      | some l =>
        apply ho.not_clash hy'
        rintro l' rfl
        rw [List.filterMap_cons_some (by rfl)] at hd
        exact (List.pairwise_cons.mp hd).1 l' (List.mem_filterMap.mpr ⟨some l', ho', rfl⟩)
    · cases o with
      | none => exact hd
      | some l =>
        rw [List.filterMap_cons_some (by rfl)] at hd
        exact (List.pairwise_cons.mp hd).2

end Entries

section Literals

variable {l : Literal} {indent : List Byte}

namespace Literal

def stored : Literal → List Byte
  | null text => (null text).text ++ [0]
  | number n => (number n).text ++ [0]
  | string s => bytes "3#" ++ quote :: s ++ [0] ++ [0]

def line (behind : List Byte) : Literal → ConstLine
  | null _ => .null
  | number n => .number n
  | string s => .string (s ++ 0 :: 0 :: behind)

end Literal

lemma signed_outside {n : ℤ} {d : Byte} (hd : ¬ Ordinary d) : d ∉ signed n := by
  intro hmem
  apply hd
  cases n with
  | ofNat n => exact (decimal_isWord n).ordinary d hmem
  | negSucc n =>
    rcases List.mem_cons.mp hmem with rfl | hmem
    · decide
    · exact (decimal_isWord _).ordinary d hmem

lemma readLine_literal (h : Space indent) (hl : l.WellFormed) (s : List Byte) :
    Gates (a.Spare l.text.length) (Buffered.readLine a) (indent ++ l.text ++ newline :: s) l.stored s := by
  cases l with
  | null text =>
    obtain ⟨hn, hs, hq⟩ := hl
    have htext : (Literal.null text).text = 48 :: (hash :: text) := rfl
    rw [Literal.stored, htext]
    exact Buffered.readLine_plain h (by decide)
      ⟨by simpa using ⟨by decide, hn⟩, by simpa using ⟨by decide, hs⟩, by simpa using ⟨by decide, hq⟩⟩
  | number n =>
    have htext : (Literal.number n).text = 49 :: (hash :: signed n) := rfl
    have hout : ∀ d : Byte, ¬ Ordinary d → d ≠ hash → d ∉ hash :: signed n := by
      intro d hd hh hmem
      rcases List.mem_cons.mp hmem with rfl | hmem
      · exact hh rfl
      · exact signed_outside hd hmem
    rw [Literal.stored, htext]
    exact Buffered.readLine_plain h (by decide)
      ⟨hout _ (by decide) (by decide), hout _ (by decide) (by decide), hout _ (by decide) (by decide)⟩
  | string t =>
    obtain ⟨hq, hn, hz, he⟩ := hl
    have htext : (Literal.string t).text = 51 :: [hash] ++ quote :: t ++ [quote] := rfl
    have hstored : (Literal.string t).stored = 51 :: [hash] ++ quote :: t ++ [0] ++ [0] := rfl
    have hall : indent ++ (Literal.string t).text ++ newline :: s =
        indent ++ 51 :: [hash] ++ quote :: t ++ quote :: newline :: s := by
      rw [htext]
      simp
    rw [hall, hstored, htext]
    exact Buffered.readLine_string h (by decide) (by decide) ⟨hq, hn, he⟩

lemma constLine_literal (hl : l.WellFormed) (behind : List Byte) :
    constLine (l.stored ++ behind) = l.line behind := by
  cases l with
  | null text => exact constLine_typed (by decide) _
  | number n =>
    obtain ⟨hlo, hhi⟩ := hl
    have hzero : ∀ c ∈ (0 :: behind).head?, isdigit c = false := by
      intro c hc
      obtain rfl : 0 = c := by simpa using hc
      decide
    have hvalue : atol (signed n ++ 0 :: behind) = n := by
      rw [atol, strtol_signed n _ hzero, clampLong_of_mem hlo hhi]
    have happ : (Literal.number n).stored ++ behind = 49 :: hash :: (signed n ++ 0 :: behind) := by
      have htext : (Literal.number n).text = 49 :: (hash :: signed n) := rfl
      simp [Literal.stored, htext]
    rw [happ, constLine_typed (by decide), hvalue]
    rfl
  | string t =>
    have happ : (Literal.string t).stored ++ behind = 51 :: hash :: (quote :: t ++ 0 :: 0 :: behind) := by
      have htype : bytes "3#" = [51, hash] := rfl
      simp [Literal.stored, htype]
    rw [happ, constLine_typed (by decide)]
    rfl

lemma constEntry_literal (mem : Memory) (hl : l.WellFormed) (loop : ConstState → Buffered.Scan Block)
    (st : ConstState) : ∃ e tt value, EntryOf (some l) e ∧ e.Ranged ∧ e.tvalue st.t = ⟨tt, value⟩ ∧
      (buffered a).constEntry mem loop st (l.line (mem.line st.here)) =
        (buffered a).pushEntry loop st tt value := by
  cases l with
  | null text => exact ⟨.null, .null, st.t, .null text, trivial, rfl, rfl⟩
  | number n =>
    obtain ⟨hlo, hhi⟩ := hl
    have hranged : n.natAbs < 2 ^ 64 := by omega
    exact ⟨.number n, .number, st.t.setNum (.ofInt n), .number n, hranged, rfl, rfl⟩
  | string t =>
    obtain ⟨-, -, hz, -⟩ := hl
    have hat : CStr.at (t ++ 0 :: 0 :: mem.line st.here) = ⟨t, hz⟩ :=
      (CStr.at_terminated hz _).trans (Subtype.ext (CStr.at_eq hz))
    refine ⟨.string (mem.addr st.here) ⟨t, hz⟩, _, _, .string _ ⟨t, hz⟩, trivial, rfl, ?_⟩
    rw [← hat]
    rfl

end Literals

section Consts

variable {mem : Memory}

def Reads (a : Allocator) (mem : Memory) (c : Consts) : Prop :=
  ∀ (path : Path) (es : List Entry) (st : ConstState) (r : List Byte), After mem path es st →
    st.b.numchildren.toNat = st.b.children.length → st.b.children.length + c.functions ≤ 255 →
    ∃ es' children k n,
      Gates (c.Fits a ∧ c.TableFits a st.b.children.length) ((buffered a).constLoop mem st) (c.text ++ r)
        { st.b with k := k, numchildren := n, children := st.b.children ++ children } r ∧
      k = (entryConstants (mem.temp path) (es ++ es')).foldl (Pool.push TValue.same) [] ∧
      (∀ e ∈ es ++ es', e.Ranged) ∧ List.Forall₂ EntryOf c.slots es' ∧ c.Children children ∧
      n.toNat = st.b.children.length + children.length

lemma constLoop_line {st : ConstState} {s m line : List Byte} {F G : Prop} {b' : Block}
    (hline : Gates G (Buffered.readLine a) s line m)
    (hrest : Gates F ((buffered a).constEntry mem ((buffered a).constLoop mem) st
      (constLine (line ++ mem.line st.here))) m b' r) :
    Gates (G ∧ F) ((buffered a).constLoop mem st) s b' r :=
  .of_eq (congrFun (Scanners.constLoop_eq mem (buffered_advances a) st) s) (hline.bind hrest)

lemma constLoop_skip {g : List Byte} (hg : Space g) (st : ConstState) (s : List Byte) :
    (buffered a).constLoop mem st (g ++ s) = (buffered a).constLoop mem st s := by
  induction g with
  | nil => rfl
  | cons c g ih =>
    have hgo : lineTable a .blank c = .go .blank := checked_go (by simp [lineStep, hg c (by simp)]) rfl
    have hline : Buffered.readLine a (c :: (g ++ s)) = Buffered.readLine a (g ++ s) := scan_go hgo
    have heq := Scanners.constLoop_eq mem (buffered_advances a) st
    rw [← ih (fun d hd => hg d (by simp [hd])), heq]
    exact bind_congr_left hline _

lemma reads_close {indent : List Byte} (h : Space indent) : Reads a mem (.close indent) := by
  intro path es st r hafter hn _
  have hline : Gates (a.Spare (bytes "<CONST").length) (Buffered.readLine a) ((Consts.close indent).text ++ r)
      (bytes "<CONST" ++ [0]) r := by
    have hclose : bytes "<CONST" = 60 :: bytes "CONST" := rfl
    have htext : (Consts.close indent).text ++ r = indent ++ 60 :: bytes "CONST" ++ newline :: r := by
      simp [Consts.text, hclose]
    rw [htext, hclose]
    exact Buffered.readLine_plain h (by decide) (by decide)
  have hb : ∀ b : Block, { b with children := b.children ++ [] } = b := by
    intro b
    cases b
    simp
  refine ⟨[], [], st.b.k, st.b.numchildren, ?_, ?_, ?_, .nil, rfl, by simpa using hn⟩
  · rw [hb]
    refine .iff (constLoop_line hline (.of_done rfl)) ?_
    simp [Consts.Fits, Consts.TableFits, Consts.functions, Consts.slots]
  · rw [List.append_nil, hafter.k]
  · simpa using hafter.ranged

lemma reads_literal {indent : List Byte} {l : Literal} {rest : Consts} (h : Space indent) (hl : l.WellFormed)
    (hrest : Reads a mem rest) : Reads a mem (.literal indent l rest) := by
  intro path es st r hafter hn hle
  obtain ⟨e, tt, value, hof, hranged, hvalue, hentry⟩ :=
    constEntry_literal (a := a) mem hl ((buffered a).constLoop mem) st
  obtain ⟨st', k, hpush, hafter', hb⟩ := hafter.push hranged rfl hvalue
  have hn' : st'.b.numchildren.toNat = st'.b.children.length := by simpa [hb] using hn
  have hle' : st'.b.children.length + rest.functions ≤ 255 := by
    simpa [hb, Consts.functions, Consts.slots] using hle
  obtain ⟨es', children, k', n, hrun, hk, hall, hslots, hchildren, hnum⟩ := hrest path _ st' r hafter' hn' hle'
  have htext : (Consts.literal indent l rest).text ++ r = indent ++ l.text ++ newline :: (rest.text ++ r) := by
    simp [Consts.text]
  have hpush' : st.push tt value = some st' := hpush
  rw [hb] at hrun
  refine ⟨e :: es', children, k', n, ?_, ?_, ?_, .cons hof hslots, hchildren, by simpa [hb] using hnum⟩
  · rw [htext]
    refine .iff (constLoop_line (readLine_literal h hl _) ?_) and_assoc.symm
    rw [constLine_literal hl, hentry, Scanners.pushEntry, hpush']
    exact hrun
  · simpa using hk
  · simpa using hall

def codeBlock (h : Header) (code : Code) (b : Block) : Block :=
  let b := h.stored h.lines b
  { b with code := b.code ++ code.lines.map (fun l => l.line.word) }

section CodeBlock

variable {h : Header} {code : Code} {b : Block}

lemma codeBlock_unchanged {α : Type} {p : Block → α}
    (hstore : ∀ (d : Directive) (w : List Byte) b, p (d.store w b) = p b)
    (hcode : ∀ (b : Block) c, p { b with code := c } = p b) : p (codeBlock h code b) = p b :=
  (hcode _ _).trans (stored_unchanged (fun d b => hstore d _ b) b)

lemma codeBlock_code (hempty : b.code = []) :
    (codeBlock h code b).code = code.lines.map (fun l => l.line.word) := by
  have hcode : (h.stored h.lines b).code = [] :=
    (stored_unchanged (p := Block.code) (fun d b => by cases d <;> rfl) b).trans hempty
  change (h.stored h.lines b).code ++ _ = _
  rw [hcode, List.nil_append]

end CodeBlock

lemma compileFunction_text {h : Header} {code : Code} {opening : List Byte} {body : Consts}
    (hh : h.WellFormed) (hcode : code.WellFormed) (hopening : Space opening) (hlevel : body.Level)
    (hbody : Reads a mem body) (path : Path) {b : Block} (hk : b.k = []) (hempty : b.code = [])
    (hn : b.numchildren = 0) (hchildren : b.children = []) (r : List Byte) :
    ∃ func, Gates (h.Fits a ∧ code.Fits a ∧ body.Fits a ∧ body.TableFits a 0)
        ((buffered a).compileFunction mem path b)
        (h.text ++ code.text ++ (opening ++ bytes ">CONST" ++ newline :: body.text) ++ r) func r ∧
      BuiltFrom h code body func ∧ body.Children func.children := by
  have hk₁ : (codeBlock h code b).k = [] :=
    (codeBlock_unchanged (p := Block.k) (fun d w b => by cases d <;> rfl) (fun b c => rfl)).trans hk
  have hn₁ : (codeBlock h code b).numchildren = 0 :=
    (codeBlock_unchanged (p := Block.numchildren) (fun d w b => by cases d <;> rfl) (fun b c => rfl)).trans hn
  have hchildren₁ : (codeBlock h code b).children = [] :=
    (codeBlock_unchanged (p := Block.children) (fun d w b => by cases d <;> rfl) (fun b c => rfl)).trans
      hchildren
  have hafter : After mem path [] ⟨path, codeBlock h code b, mem.temp path, 0⟩ := ⟨rfl, rfl, hk₁, by simp⟩
  obtain ⟨es, children, k, n, hrun, hkeq, hall, hslots, hfuncs, hnum⟩ :=
    hbody path [] ⟨path, codeBlock h code b, mem.temp path, 0⟩ r hafter (by simp [hn₁, hchildren₁])
      (by simpa [hchildren₁, Consts.functions] using hlevel.functions)
  have hconst : lift Fault.error (expect (bytes ">CONST"))
      (opening ++ bytes ">CONST" ++ ([newline] ++ (body.text ++ r))) =
      .done () ([newline] ++ (body.text ++ r)) := lift_done.mpr (expect_word hopening (by decide))
  have htext : h.text ++ code.text ++ (opening ++ bytes ">CONST" ++ newline :: body.text) ++ r =
      h.text ++ (code.text ++ (opening ++ bytes ">CONST" ++ ([newline] ++ (body.text ++ r)))) := by simp
  dsimp only at hrun
  rw [hchildren₁, List.nil_append, List.length_nil] at hrun
  rw [List.nil_append] at hkeq hall
  refine ⟨{ codeBlock h code b with k := k, numchildren := n, children := children },
    ?_, ⟨?_, ?_, ?_, ?_⟩, ?_⟩
  · rw [htext]
    refine (compileHeader_text hh b).bind ((compileCode_text hcode _).bind (.of_bind hconst ?_))
    exact .of_eq (constLoop_skip (by decide) _ _) hrun
  · exact ⟨(stored_built hh b).regs, (stored_built hh b).params, (stored_built hh b).name⟩
  · change List.Forall₂ Instruction.Built code.lines (codeBlock h code b).code
    rw [codeBlock_code hempty, List.forall₂_map_right_iff, List.forall₂_same]
    exact fun l hl => instruction_built (hcode.lines l hl)
  · change List.Forall₂ SlotHolds body.slots k
    have hpair := (distinct_iff hall).mp (distinct_of_level hslots hlevel.distinct (mem.temp path))
    rw [hkeq, Pool.foldl_push_new hpair (by simp), List.nil_append]
    have hholds := entryConstants_holds (mem.temp path) es
    rw [List.forall₂_iff_get] at hslots hholds ⊢
    refine ⟨hslots.1.trans hholds.1, fun i hi hi' => ?_⟩
    exact (hslots.2 i hi (hslots.1 ▸ hi)).holds (hholds.2 i _ hi')
  · change n.toNat = children.length
    simpa [hchildren₁] using hnum
  · exact hfuncs

section Push

variable {b func : Block}

lemma pushChild_counted (func : Block) (hn : b.numchildren.toNat = b.children.length)
    (hlt : b.children.length < 255) :
    b.pushChild func = { b with numchildren := b.numchildren + 1, children := b.children ++ [func] } ∧
      (b.numchildren + 1).toNat = b.children.length + 1 := by
  have hone : (1 : Byte).toNat = 1 := rfl
  have hadd : (b.numchildren + 1).toNat = b.children.length + 1 := by
    rw [UInt8.toNat_add, hn, hone]
    exact Nat.mod_eq_of_lt (by omega)
  exact ⟨by simp [Block.pushChild, hn], hadd⟩

lemma pushChild_gates (hn : b.numchildren.toNat = b.children.length) (hlt : b.children.length < 255)
    (s : List Byte) :
    Gates (a.Holds (b.children.length + 1)) (Buffered.pushChild a b func) s (b.pushChild func) s := by
  have hadd := (pushChild_counted func hn hlt).2
  refine .iff (Gated.check.bind (.of_done rfl)) ?_
  rw [and_iff_left trivial, hadd, hn]
  rfl

end Push

lemma tableFits_function {indent : List Byte} {h : Header} {code : Code} {opening : List Byte}
    {body rest : Consts} {m : ℕ} : (Consts.function indent h code opening body rest).TableFits a m ↔
      a.Holds (m + 1) ∧ rest.TableFits a (m + 1) := by
  have hcount : (Consts.function indent h code opening body rest).functions = rest.functions + 1 := by
    simp [Consts.functions, Consts.slots]
  have hshift : ∀ i, m + (i + 1) + 1 = m + 1 + i + 1 := by omega
  rw [Consts.TableFits, Consts.TableFits, hcount, Nat.forall_lt_succ_left, Nat.add_zero]
  simp only [hshift]

lemma reads_function {indent : List Byte} {h : Header} {code : Code} {opening : List Byte} {body rest : Consts}
    (hindent : Space indent) (hh : h.WellFormed) (hcode : code.WellFormed) (hopening : Space opening)
    (hlevel : body.Level) (hbody : Reads a mem body) (hrest : Reads a mem rest) :
    Reads a mem (.function indent h code opening body rest) := by
  intro path es st r hafter hn hle
  obtain ⟨func, hfunc, hbuilt, hfuncs⟩ := compileFunction_text hh hcode hopening hlevel hbody st.here
    (b := Block.new (mem.block st.here)) rfl rfl rfl rfl (rest.text ++ r)
  have hcount : (Consts.function indent h code opening body rest).functions = rest.functions + 1 := by
    simp [Consts.functions, Consts.slots]
  have hlt : st.b.children.length < 255 := by omega
  obtain ⟨hchild, hadd⟩ := pushChild_counted func hn hlt
  obtain ⟨st', k, hpush, hafter', hb⟩ := hafter.push (e := .function func) trivial
    (b := st.b.pushChild func) (by rw [hchild]) rfl
  rw [hchild] at hb
  have hn' : st'.b.numchildren.toNat = st'.b.children.length := by
    rw [hb]
    simpa using hadd
  have hlen' : st'.b.children.length = st.b.children.length + 1 := by simp [hb]
  obtain ⟨es', children, k', n, hrun, hk, hall, hslots, hchildren, hnum⟩ :=
    hrest path _ st' r hafter' hn' (by omega)
  have hline : Gates (a.Spare (bytes "4#").length) (Buffered.readLine a)
      (indent ++ 52 :: [hash] ++ newline :: (h.text ++ code.text ++ (opening ++ bytes ">CONST" ++
        newline :: body.text) ++ (rest.text ++ r))) (52 :: [hash] ++ [0]) _ :=
    Buffered.readLine_plain hindent (by decide) (by decide)
  have hconst : constLine (52 :: [hash] ++ [0] ++ mem.line st.here) = .function := constLine_typed (by decide) _
  have htext : (Consts.function indent h code opening body rest).text ++ r = indent ++ 52 :: [hash] ++
      newline :: (h.text ++ code.text ++ (opening ++ bytes ">CONST" ++ newline :: body.text) ++ (rest.text ++ r)) := by
    have htype : bytes "4#" = [52, hash] := rfl
    simp [Consts.text, htype]
  refine ⟨.function func :: es', func :: children, k', n, ?_, by simpa using hk, by simpa using hall,
    .cons (.function func) hslots, ⟨func, children, rfl, hbuilt, hfuncs, hchildren⟩, ?_⟩
  · rw [hb] at hrun
    have hentry : Gates ((h.Fits a ∧ code.Fits a ∧ body.Fits a ∧ body.TableFits a 0) ∧
        a.Holds (st.b.children.length + 1) ∧ rest.Fits a ∧ rest.TableFits a (st.b.children.length + 1))
        ((buffered a).constEntry mem ((buffered a).constLoop mem) st .function)
        (h.text ++ code.text ++ (opening ++ bytes ">CONST" ++ newline :: body.text) ++ (rest.text ++ r))
        { st.b with k := k', numchildren := n, children := st.b.children ++ func :: children } r := by
      refine hfunc.bind ((pushChild_gates hn hlt _).bind ?_)
      rw [Scanners.pushEntry, hpush]
      simpa [hb] using hrun
    rw [htext]
    refine .iff (constLoop_line hline (hconst ▸ hentry)) ?_
    rw [tableFits_function, Consts.Fits]
    tauto
  · rw [hb] at hnum
    simp only [List.length_append, List.length_cons, List.length_nil] at hnum ⊢
    omega

lemma reads (a : Allocator) (mem : Memory) (c : Consts) (hc : c.WellFormed) : Reads a mem c := by
  induction c with
  | close indent => exact reads_close hc
  | literal indent l rest ih =>
    obtain ⟨hindent, hl, hrest⟩ := hc
    exact reads_literal hindent hl (ih hrest)
  | function indent h code opening body rest ihbody ihrest =>
    obtain ⟨hindent, hh, hcode, hopening, hlevel, hbody, hrest⟩ := hc
    exact reads_function hindent hh hcode hopening hlevel (ihbody hbody) (ihrest hrest)

end Consts

/-- The text of a program, whatever comes behind it, is assembled to the blocks of the program exactly
when each word, line and table of functions fits into the memory that it is given. -/
theorem compileFunction_program_iff {p : Program} (hp : p.WellFormed) (a : Allocator) (mem : Memory)
    (path : Path) (fresh : Fresh) (filename funcname : CharPtr) (rest : List Byte) :
    (∃ b, (buffered a).compileFunction mem path
        { Block.new fresh with filename := filename, funcname := funcname } (p.text ++ rest) = .done b rest ∧
      p.Built b) ↔ p.Fits a := by
  obtain ⟨b, hrun, hbuilt, hchildren⟩ := compileFunction_text hp.header hp.code hp.opening hp.level
    (reads a mem p.consts hp.consts) path
    (b := { Block.new fresh with filename := filename, funcname := funcname }) rfl rfl rfl rfl rest
  constructor
  · rintro ⟨b', hdone, -⟩
    obtain ⟨hheader, hcode, hconsts, htable⟩ := hrun.done_iff.mp ⟨b', rest, hdone⟩
    exact ⟨hheader, hcode, hconsts, htable⟩
  · rintro ⟨hheader, hcode, hconsts, htable⟩
    exact ⟨b, hrun.opens ⟨hheader, hcode, hconsts, htable⟩, hbuilt, hchildren⟩

def sampleHeader (name : List Byte) : Header where
  indent := []
  regs := 1
  params := 0
  globals := 0
  upvals := 0
  name := name
  lines := [⟨[32], .regs, [32], [32]⟩, ⟨[32], .params, [32], []⟩, ⟨[32], .name, [32], []⟩]
  closing := []

def sampleCode (o : OpCode) (operands : List (List Byte × Operand)) : Code where
  indent := [newline]
  lines := [⟨[32], o, operands, 32, [32], some (bytes " done")⟩]
  closing := []

def sampleProgram : Program where
  header := sampleHeader (bytes "outer")
  code := sampleCode .closure [([32], ⟨[], bytes "0", false⟩), ([32], ⟨[], bytes "0", false⟩)]
  opening := [newline]
  consts := .literal [32] (.number 42) (.function [32] (sampleHeader (bytes "inner"))
    (sampleCode .return [([32], ⟨[], bytes "0", false⟩)]) []
    (.literal [] (.string (bytes "a;b")) (.close [])) (.close []))

lemma sampleHeader_wellFormed {name : List Byte} (h : name ≠ [] ∧ ∀ c ∈ name, isNameChar c = true) :
    (sampleHeader name).WellFormed := by
  refine ⟨by simp [sampleHeader, Space], by simp [sampleHeader, Space], ?_, ?_, h, ?_, ?_⟩
  · exact (by decide : 1 < 256)
  · exact (by decide : 0 < 256)
  · have hgap : Space [32] ∧ Blank [32] ∧ Blank [] := by decide
    simp only [sampleHeader, List.mem_cons, List.not_mem_nil, or_false]
    rintro l (rfl | rfl | rfl) <;> simp [hgap]
  · intro d hd
    simp only [List.mem_cons, List.not_mem_nil, or_false] at hd
    rcases hd with rfl | rfl | rfl <;> simp [sampleHeader]

lemma sampleCode_wellFormed {o : OpCode} {operands : List (List Byte × Operand)}
    (hgaps : ∀ x ∈ operands, Blank x.1 ∧ x.1 ≠ []) (hne : o.fields ≠ [])
    (hops : List.Forall₂ (fun f x => x.2.WrittenFor f ∧ x.2.Fits o f) o.fields operands) :
    (sampleCode o operands).WellFormed := by
  refine ⟨(by decide : Space [newline]), by simp [sampleCode, Space], ?_⟩
  intro l hl
  obtain rfl := List.mem_singleton.mp hl
  have hspace : Space [32] ∧ Blank [32] ∧ isspace 32 = true ∧ newline ∉ bytes " done" := by decide
  exact ⟨hspace.1, hgaps, hne, hops, hspace.2.2.1, hspace.2.1, by simpa using hspace.2.2.2⟩

lemma sampleProgram_wellFormed : sampleProgram.WellFormed := by
  have hgap : Blank [32] ∧ ([32] : List Byte) ≠ [] := by decide
  have hname : ∀ name ∈ [bytes "outer", bytes "inner"],
      name ≠ [] ∧ ∀ c ∈ name, isNameChar c = true := by
    simp only [List.forall_mem_cons]
    exact ⟨⟨by decide, List.all_eq_true.mp (by decide)⟩,
      ⟨by decide, List.all_eq_true.mp (by decide)⟩, nofun⟩
  refine ⟨sampleHeader_wellFormed (hname _ (by simp)), sampleCode_wellFormed ?_ (by decide) ?_,
    by decide, ?_, ?_⟩
  · intro x hx
    simp only [List.mem_cons, List.not_mem_nil, or_false, or_self] at hx
    exact hx ▸ hgap
  · exact .cons (unsigned_fits (by decide)) (.cons (unsigned_fits (by decide)) .nil)
  · exact ⟨by decide, by simp [sampleProgram, Consts.slots]⟩
  · refine ⟨by decide, ⟨by decide, by decide⟩, by decide,
      sampleHeader_wellFormed (hname _ (by simp)), sampleCode_wellFormed ?_ (by decide) ?_,
      by simp [Space], ⟨by decide, by simp [Consts.slots]⟩,
      ⟨by simp [Space], ⟨by decide, by decide, by decide, by decide⟩, by simp [Consts.WellFormed, Space]⟩,
      by simp [Consts.WellFormed, Space]⟩
    · intro x hx
      exact List.mem_singleton.mp hx ▸ hgap
    · exact .cons (unsigned_fits (by decide)) .nil

section SampleFits

lemma chunks_spare {n : ℕ} (h : n < 24) : Allocator.chunks.Spare n := lt_max_of_lt_left h

lemma chunks_holds {n : ℕ} (h : n ≤ 3) : Allocator.chunks.Holds n := le_max_of_le_left (by omega)

lemma sampleHeader_fits {name : List Byte} (h : name.length < 24) :
    (sampleHeader name).Fits Allocator.chunks := by
  have hlines : ∀ l ∈ (sampleHeader name).lines, l.directive.word.length < 24 ∧
      ((sampleHeader name).argument l.directive).length < 24 := by
    simp only [sampleHeader, List.mem_cons, List.not_mem_nil, or_false]
    have hregs : (decimal 1).length < 24 := by decide
    have hparams : (decimal 0).length < 24 := by decide
    rintro l (rfl | rfl | rfl)
    · exact ⟨by decide, hregs⟩
    · exact ⟨by decide, hparams⟩
    · exact ⟨by decide, h⟩
  exact ⟨fun l hl => ⟨chunks_spare (hlines l hl).1, chunks_spare (hlines l hl).2⟩, chunks_spare (by decide)⟩

lemma label_short (o : OpCode) : o.label.length < 24 := by
  cases o <;> decide

lemma sampleCode_fits {o : OpCode} {operands : List (List Byte × Operand)}
    (h : ∀ x ∈ operands, x.2.text.length < 24) : (sampleCode o operands).Fits Allocator.chunks := by
  refine ⟨fun l hl => ?_, chunks_spare (by decide)⟩
  obtain rfl := List.mem_singleton.mp hl
  refine ⟨chunks_spare (label_short o), fun x hx => ?_⟩
  obtain ⟨y, hy, rfl⟩ := List.mem_map.mp hx
  exact chunks_spare (h y hy)

lemma sampleProgram_fits : sampleProgram.Fits Allocator.chunks := by
  have hzero : (⟨[], bytes "0", false⟩ : Operand).text.length < 24 := by decide
  have hops : ∀ x ∈ [(([32] : List Byte), (⟨[], bytes "0", false⟩ : Operand))], x.2.text.length < 24 :=
    List.forall_mem_singleton.mpr hzero
  refine ⟨sampleHeader_fits (by decide), sampleCode_fits (List.forall_mem_cons.mpr ⟨hzero, hops⟩),
    ⟨chunks_spare (by decide +kernel), chunks_spare (by decide),
      ⟨sampleHeader_fits (by decide), sampleCode_fits hops, ⟨chunks_spare (by decide), chunks_spare (by decide)⟩,
        ?_⟩, chunks_spare (by decide)⟩, ?_⟩
  · intro n hn
    exact (Nat.not_lt_zero n hn).elim
  · intro n hn
    have hone : n < 1 := hn
    exact chunks_holds (by omega)

end SampleFits

theorem compileFunction_program_iff_sample :
    ((∃ b, (buffered Allocator.chunks).compileFunction default []
        { Block.new default with filename := .null, funcname := .null } (sampleProgram.text ++ []) = .done b [] ∧
      sampleProgram.Built b) ↔ sampleProgram.Fits Allocator.chunks) ∧ sampleProgram.Fits Allocator.chunks :=
  ⟨compileFunction_program_iff sampleProgram_wellFormed Allocator.chunks default [] default .null .null [],
    sampleProgram_fits⟩

section Nested

def nested : ℕ → Consts
  | 0 => .close []
  | n + 1 => .function [] (sampleHeader (bytes "inner")) (sampleCode .return [([32], ⟨[], bytes "0", false⟩)]) []
    (.close []) (nested n)

def nestedProgram (n : ℕ) : Program where
  header := sampleHeader (bytes "outer")
  code := sampleCode .return [([32], ⟨[], bytes "0", false⟩)]
  opening := []
  consts := nested n

lemma return_wellFormed : (sampleCode .return [([32], ⟨[], bytes "0", false⟩)]).WellFormed := by
  refine sampleCode_wellFormed ?_ (by decide) (.cons (unsigned_fits (by decide)) .nil)
  exact List.forall_mem_singleton.mpr ⟨by decide, by decide⟩

lemma close_level : (Consts.close []).Level := ⟨by decide, by simp [Consts.slots]⟩

lemma nested_slots (n : ℕ) : (nested n).slots = List.replicate n none := by
  induction n with
  | zero => rfl
  | succ n ih => rw [nested, Consts.slots, ih, List.replicate_succ]

lemma nested_wellFormed (n : ℕ) : (nested n).WellFormed := by
  have hspace : Space [] := by simp [Space]
  have hname : bytes "inner" ≠ [] ∧ ∀ c ∈ bytes "inner", isNameChar c = true :=
    ⟨by decide, List.all_eq_true.mp (by decide)⟩
  induction n with
  | zero => exact hspace
  | succ n ih =>
    exact ⟨hspace, sampleHeader_wellFormed hname, return_wellFormed, hspace, close_level, hspace, ih⟩

lemma nestedProgram_wellFormed {n : ℕ} (h : n ≤ 255) : (nestedProgram n).WellFormed := by
  refine ⟨sampleHeader_wellFormed ⟨by decide, List.all_eq_true.mp (by decide)⟩, return_wellFormed,
    by simp [nestedProgram, Space], ⟨?_, ?_⟩, nested_wellFormed n⟩
  · rw [nestedProgram, nested_slots, List.countP_replicate]
    exact h
  · simp [nestedProgram, nested_slots]

end Nested

theorem nested_overrun : (nestedProgram 5).WellFormed ∧
    (buffered Allocator.chunks).compileFunction default []
      { Block.new default with filename := .null, funcname := .null } ((nestedProgram 5).text ++ []) =
        .exit .overrun ∧
    ¬ ∀ (p : Program), p.WellFormed → ∀ (a : Allocator) mem path fresh filename funcname rest,
      ∃ b, (buffered a).compileFunction mem path
          { Block.new fresh with filename := filename, funcname := funcname } (p.text ++ rest) = .done b rest ∧
        p.Built b := by
  have hwell := nestedProgram_wellFormed (show 5 ≤ 255 by decide)
  obtain ⟨b, hrun, -⟩ := compileFunction_text (r := []) hwell.header hwell.code hwell.opening hwell.level
    (reads Allocator.chunks default (nestedProgram 5).consts hwell.consts) []
    (b := { Block.new default with filename := .null, funcname := .null }) rfl rfl rfl rfl
  have hover : (buffered Allocator.chunks).compileFunction default []
      { Block.new default with filename := .null, funcname := .null } ((nestedProgram 5).text ++ []) =
        .exit .overrun := by
    refine hrun.shut (fun ⟨_, _, _, htable⟩ => ?_)
    exact absurd (htable 3 (by decide)) (by decide)
  refine ⟨hwell, hover, fun h => ?_⟩
  obtain ⟨b', hdone, -⟩ := h _ hwell Allocator.chunks default [] default .null .null []
  cases hdone.symm.trans hover

end Bijou
