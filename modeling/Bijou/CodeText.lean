import Bijou.Operands

namespace Bijou

open CString Incremental

def operandText (ops : List (List Byte × List Byte)) : List Byte := ops.flatMap (fun x => x.1 ++ x.2)

structure IsOperand (x : List Byte × List Byte) : Prop where
  gap : Blank x.1
  gap_ne_nil : x.1 ≠ []
  word : IsWord x.2
  parses : parseArg x.2 = .ok (argValue x.2)

inductive IsLineEnd : List Byte → Prop
  | plain {g : List Byte} (hg : Blank g) : IsLineEnd (g ++ [newline])
  | comment {g text : List Byte} (hg : Blank g) (ht : newline ∉ text) :
      IsLineEnd (g ++ semicolon :: text ++ [newline])

lemma Operand.text_isWord {d : Operand} {f : Field} (h : d.WrittenFor f) : IsWord d.text := by
  have hdigit : ∀ c : Byte, isdigit c = true → Ordinary c := by
    intro c hc
    refine ⟨isdigit_not_isspace hc, ?_, ?_, ?_, ?_⟩ <;>
    · rintro rfl
      exact absurd hc (by decide)
  refine ⟨fun hnil => h.ne_nil (by simp_all [Operand.text]), fun c hc => ?_⟩
  simp only [Operand.text, List.mem_append] at hc
  rcases hc with (hs | hd) | hk
  · rcases h.sign with hsign | ⟨-, hsign | hsign⟩
    · simp [hsign] at hs
    · obtain rfl : c = minus := by simpa [hsign] using hs
      decide
    · obtain rfl : c = plus := by simpa [hsign] using hs
      decide
  · exact hdigit c (h.digits c hd)
  · obtain rfl : c = letterK := by
      split at hk <;> simp at hk
      exact hk
    decide

lemma IsOperand.of_numeral {d : Operand} {f : Field} (h : d.WrittenFor f) {g : List Byte} (hg : Blank g)
    (hne : g ≠ []) : IsOperand (g, d.text) :=
  ⟨hg, hne, Operand.text_isWord h, parseArg_eq h⟩

variable {ops : List (List Byte × List Byte)} {w e r : List Byte} {sp : Byte}

lemma operandText_space (h : ∀ x ∈ ops, IsOperand x) (hsp : isspace sp = true) (e : List Byte) :
    ∃ c t, operandText ops ++ sp :: e = c :: t ∧ isspace c = true := by
  cases ops with
  | nil => exact ⟨sp, e, rfl, hsp⟩
  | cons x ops =>
    obtain ⟨c, g, hg⟩ := List.exists_cons_of_ne_nil (h x (by simp)).gap_ne_nil
    refine ⟨c, g ++ x.2 ++ operandText ops ++ sp :: e, by simp [operandText, hg], ?_⟩
    exact ((h x (by simp)).gap c (by simp [hg])).1

lemma readTokensFrom_word {g t : List Byte} (hw : parseArg w = .ok (argValue w)) (hg : Blank g)
    {v : List Byte} (hv : IsWord v) (hsp : isspace sp = true) (n : ℕ) (toks : List (List Byte)) :
    readTokensFrom (n + 1) toks w (g ++ v ++ sp :: t) = readTokensFrom n (toks ++ [w]) v t := by
  obtain ⟨c, u, rfl, hc, -⟩ := hv.cons
  have hskip : skipBlank (g ++ (c :: u) ++ sp :: t) = .done false ((c :: u) ++ sp :: t) := by
    rw [List.append_assoc]
    exact skipBlank_back hg hc.1 hc.2.2.2.1
  rw [readTokensFrom, hw]
  dsimp only
  rw [bind_done hskip, if_neg Bool.false_ne_true, bind_done (readArg_word hv hsp)]

lemma readTokensFrom_operands (h : ∀ x ∈ ops, IsOperand x) (hw : parseArg w = .ok (argValue w))
    (hsp : isspace sp = true) (n : ℕ) (toks : List (List Byte)) :
    readTokensFrom (n + 1 + ops.length) toks w ((operandText ops ++ sp :: e).tail) =
      readTokensFrom (n + 1) (toks ++ (w :: ops.map Prod.snd).dropLast)
        ((w :: ops.map Prod.snd).getLast (by simp)) e := by
  induction ops generalizing toks w with
  | nil => simp [operandText]
  | cons x ops ih =>
    obtain ⟨g, v⟩ := x
    have hx := h (g, v) (by simp)
    have hops : ∀ y ∈ ops, IsOperand y := fun y hy => h y (by simp [hy])
    obtain ⟨c, t, hct, hc⟩ := operandText_space hops hsp e
    obtain ⟨c₀, g', rfl⟩ := List.exists_cons_of_ne_nil hx.gap_ne_nil
    have htext : (operandText ((c₀ :: g', v) :: ops) ++ sp :: e).tail = g' ++ v ++ c :: t := by
      simp [operandText, ← hct]
    have hgap : Blank g' := fun d hd => hx.gap d (by simp [hd])
    have hih := ih hops hx.parses (toks ++ [w])
    rw [hct, List.tail_cons] at hih
    rw [htext, List.length_cons, ← Nat.add_assoc, readTokensFrom_word hw hgap hx.word hc, hih]
    simp

lemma readTokensFrom_end (hw : parseArg w = .ok (argValue w)) (he : IsLineEnd e) (n : ℕ)
    (toks : List (List Byte)) : readTokensFrom (n + 1) toks w (e ++ r) = .done (toks ++ [w]) r := by
  rw [readTokensFrom, hw]
  dsimp only
  cases he with
  | @plain g hg =>
    have hskip : skipBlank (g ++ [newline] ++ r) = .done true r := by
      rw [List.append_assoc]
      exact skipBlank_newline hg
    rw [bind_done hskip]
    rfl
  | @comment g text hg ht =>
    have hskip : skipBlank (g ++ semicolon :: text ++ [newline] ++ r) =
        .done false (semicolon :: text ++ newline :: r) := by
      have : g ++ semicolon :: text ++ [newline] ++ r = g ++ semicolon :: (text ++ newline :: r) := by simp
      rw [this]
      exact skipBlank_back hg (by decide) (by decide)
    rw [bind_done hskip, if_neg Bool.false_ne_true, bind_done (readArg_comment ht)]
    rfl

lemma readTokens_first {x : List Byte × List Byte} (hx : IsOperand x) (h : ∀ y ∈ ops, IsOperand y)
    (hsp : isspace sp = true) :
    readTokens ((operandText (x :: ops) ++ sp :: e).tail) =
      readTokensFrom 3 [] x.2 ((operandText ops ++ sp :: e).tail) := by
  obtain ⟨g, v⟩ := x
  obtain ⟨c, t, hct, hc⟩ := operandText_space h hsp e
  obtain ⟨c₀, g', rfl⟩ := List.exists_cons_of_ne_nil hx.gap_ne_nil
  have htext : (operandText ((c₀ :: g', v) :: ops) ++ sp :: e).tail = g' ++ v ++ c :: t := by
    simp [operandText, ← hct]
  have hgap : Space g' := fun d hd => (hx.gap d (by simp [hd])).1
  rw [htext, readTokens, bind_done (readNext_word hgap hx.word hc), hct, List.tail_cons]

lemma last_parses {x : List Byte × List Byte} (h : ∀ y ∈ x :: ops, IsOperand y) :
    parseArg ((x.2 :: ops.map Prod.snd).getLast (by simp)) =
      .ok (argValue ((x.2 :: ops.map Prod.snd).getLast (by simp))) := by
  have hmem : (x.2 :: ops.map Prod.snd).getLast (by simp) ∈ (x :: ops).map Prod.snd :=
    List.getLast_mem _
  obtain ⟨y, hy, hyl⟩ := List.mem_map.mp hmem
  rw [← hyl]
  exact (h y hy).parses

lemma readTokens_line (h : ∀ x ∈ ops, IsOperand x) (hne : ops ≠ []) (hlen : ops.length ≤ 3)
    (hsp : isspace sp = true) (he : IsLineEnd e) :
    readTokens ((operandText ops ++ sp :: (e ++ r)).tail) = .done (ops.map Prod.snd) r := by
  obtain ⟨x, ops, rfl⟩ := List.exists_cons_of_ne_nil hne
  have hx := h x (by simp)
  have hops : ∀ y ∈ ops, IsOperand y := fun y hy => h y (by simp [hy])
  have hthree : 3 = (2 - ops.length) + 1 + ops.length := by
    simp only [List.length_cons] at hlen
    omega
  rw [readTokens_first hx hops hsp, hthree, readTokensFrom_operands hops hx.parses hsp,
    readTokensFrom_end (last_parses h) he, List.nil_append, List.dropLast_append_getLast]
  rfl

lemma label_isWord (o : OpCode) : IsWord o.label := by
  cases o <;> decide

lemma label_ne_close (o : OpCode) : o.label ≠ bytes "<CODE" := by
  cases o <;> decide

lemma codeLine_mnemonic {g : List Byte} (hg : Space g) (o : OpCode) (hsp : isspace sp = true) (t : List Byte) :
    codeLine (g ++ o.label ++ sp :: t) =
      (readTokens >>= fun operands => pure (some ⟨o, operands⟩)) t := by
  have hw := label_isWord o
  rw [codeLine, bind_done (readNext_word hg hw hsp)]
  simp only [hw.cstr, if_neg (label_ne_close o), OpCode.named_label]

lemma codeLine_close {g : List Byte} (hg : Space g) (hsp : isspace sp = true) :
    codeLine (g ++ bytes "<CODE" ++ sp :: r) = .done none r := by
  have hw : IsWord (bytes "<CODE") := by decide
  rw [codeLine, bind_done (readNext_word hg hw hsp)]
  rfl

lemma codeLine_written {g : List Byte} (hg : Space g) (o : OpCode) (h : ∀ x ∈ ops, IsOperand x)
    (hne : ops ≠ []) (hlen : ops.length ≤ 3) (hsp : isspace sp = true) (he : IsLineEnd e) :
    codeLine (g ++ o.label ++ (operandText ops ++ sp :: (e ++ r))) =
      .done (some ⟨o, ops.map Prod.snd⟩) r := by
  have htokens := readTokens_line (r := r) h hne hlen hsp he
  obtain ⟨c, t, hct, hc⟩ := operandText_space h hsp (e ++ r)
  rw [hct, List.tail_cons] at htokens
  rw [hct, codeLine_mnemonic hg o hc, bind_done htokens]
  rfl

lemma codeLoop_lines {α : Type} {text : α → List Byte} {line : α → CodeLine} {lines : List α}
    (h : ∀ a ∈ lines, ∀ s, codeLine (text a ++ s) = .done (some (line a)) s) {g : List Byte} (hg : Space g)
    (hsp : isspace sp = true) (b : Block) :
    codeLoop b (lines.flatMap text ++ (g ++ bytes "<CODE" ++ sp :: r)) =
      .done { b with code := b.code ++ lines.map (fun a => (line a).word) } r := by
  induction lines generalizing b with
  | nil =>
    have hclose : codeLine ([] ++ (g ++ bytes "<CODE" ++ sp :: r)) = .done none r := codeLine_close hg hsp
    rw [List.flatMap_nil, codeLoop_close hclose, List.map_nil, List.append_nil]
    cases b
    rfl
  | cons a lines ih =>
    have hline := h a (by simp) (lines.flatMap text ++ (g ++ bytes "<CODE" ++ sp :: r))
    rw [List.flatMap_cons, List.append_assoc, codeLoop_line hline, ih (fun a' ha' => h a' (by simp [ha']))]
    simp [Block.pushInstruction]

end Bijou
