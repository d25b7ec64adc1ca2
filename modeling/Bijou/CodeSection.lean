import Bijou.CodeText

/-! A code section with an instruction on each line. How many instructions a stream can give is
bounded by the mnemonics in it, and a line that reaches into the next one spends one too many. -/

namespace Bijou

open CString Incremental

noncomputable def words (s : List Byte) : List (List Byte) := (s.splitOnP isspace).filter (fun w => w ≠ [])

lemma words_word {w : List Byte} (hne : w ≠ []) (hw : ∀ c ∈ w, isspace c = false) {sp : Byte}
    (hsp : isspace sp = true) (s : List Byte) : words (w ++ sp :: s) = w :: words s := by
  rw [words, List.splitOnP_append_cons_of_forall_mem hw sp hsp, List.filter_cons_of_pos (by simpa using hne)]
  rfl

lemma words_space {g : List Byte} (hg : Space g) (s : List Byte) : words (g ++ s) = words s := by
  induction g with
  | nil => rfl
  | cons c g ih =>
    have hnil : ∀ d ∈ ([] : List Byte), isspace d = false := by simp
    have hsplit := List.splitOnP_append_cons_of_forall_mem hnil c (hg c (by simp)) (g ++ s)
    rw [List.nil_append] at hsplit
    rw [List.cons_append, words, hsplit, List.filter_cons_of_neg (by simp)]
    exact ih (fun d hd => hg d (by simp [hd]))

def isKeyword (w : List Byte) : Bool := w = bytes "<CODE" || (OpCode.named w).isSome

noncomputable def keywords (s : List Byte) : ℕ := (words s).countP isKeyword

def Clean (s : List Byte) : Prop := ∀ c ∈ s, c ≠ quote ∧ c ≠ semicolon ∧ c ≠ eof ∧ c ≠ 0

lemma Clean.tail {c : Byte} {s : List Byte} (h : Clean (c :: s)) : Clean s := fun d hd => h d (by simp [hd])

lemma Clean.suffix {s r : List Byte} (h : Clean s) (hr : r <:+ s) : Clean r :=
  fun c hc => h c (hr.subset hc)

section Done

variable {s r w acc : List Byte}

lemma readChar_done {c : Byte} (hs : Clean s) (h : readChar true s = .done c r) :
    ∃ g, s = g ++ c :: r ∧ Space g ∧ isspace c = false := by
  induction s with
  | nil => simp [readChar] at h
  | cons d s ih =>
    by_cases hd : isspace d = true
    · have hgo : charStep true .blank d = .go .blank := by simp [charStep, hd]
      rw [readChar, scan_go hgo] at h
      obtain ⟨g, rfl, hg, hc⟩ := ih hs.tail h
      refine ⟨d :: g, rfl, ?_, hc⟩
      intro e he
      rcases List.mem_cons.mp he with rfl | he
      · exact hd
      · exact hg e he
    · have hstop : charStep true .blank d = .stop d := by
        simp [charStep, hd, (hs d (by simp)).2.1]
      rw [readChar, scan_stop hstop] at h
      obtain ⟨rfl, rfl⟩ : d = c ∧ s = r := by simpa using h
      exact ⟨[], rfl, by simp [Space], by simpa using hd⟩

lemma nextBody_done (hs : Clean s) (h : scan NextMode.place nextStep (.body acc) s = .done w r) :
    ∃ u sp, s = u ++ sp :: r ∧ w = acc ++ u ∧ (∀ c ∈ u, isspace c = false) ∧ isspace sp = true := by
  induction s generalizing acc with
  | nil => simp at h
  | cons d s ih =>
    obtain ⟨hquote, -, heof, -⟩ := hs d (by simp)
    by_cases hd : isspace d = true
    · have hstop : nextStep (.body acc) d = .stop acc := by simp [nextStep, hd]
      rw [scan_stop hstop] at h
      obtain ⟨rfl, rfl⟩ : acc = w ∧ s = r := by simpa using h
      exact ⟨[], d, rfl, by simp, by simp, hd⟩
    · have hgo : nextStep (.body acc) d = .go (.body (acc ++ [d])) := by
        simp [nextStep, hd, hquote, heof]
      rw [scan_go hgo] at h
      obtain ⟨u, sp, rfl, rfl, hu, hsp⟩ := ih hs.tail h
      exact ⟨d :: u, sp, rfl, by simp, by simpa using ⟨by simpa using hd, hu⟩, hsp⟩

lemma argBody_done {a : Option (List Byte)} (hs : Clean s)
    (h : scan ArgMode.place argStep (.body acc) s = .done a r) :
    ∃ u sp, s = u ++ sp :: r ∧ (∀ c ∈ u, isspace c = false) ∧ isspace sp = true := by
  induction s generalizing acc with
  | nil => simp at h
  | cons d s ih =>
    obtain ⟨-, hsemi, -⟩ := hs d (by simp)
    by_cases hd : isspace d = true
    · have hstop : argStep (.body acc) d = .stop (some acc) := by simp [argStep, hd]
      rw [scan_stop hstop] at h
      obtain ⟨-, rfl⟩ : some acc = a ∧ s = r := by simpa using h
      exact ⟨[], d, rfl, by simp, hd⟩
    · have hgo : argStep (.body acc) d = .go (.body (acc ++ [d])) := by simp [argStep, hd, hsemi]
      rw [scan_go hgo] at h
      obtain ⟨u, sp, rfl, hu, hsp⟩ := ih hs.tail h
      exact ⟨d :: u, sp, rfl, by simpa using ⟨by simpa using hd, hu⟩, hsp⟩

lemma skipBlank_done {eol : Bool} (hs : Clean s) (h : skipBlank s = .done eol r) :
    ∃ g, s = g ++ r ∧ Space g := by
  induction s with
  | nil => simp [skipBlank] at h
  | cons d s ih =>
    by_cases hnl : d = newline
    · have hstop : blankStep () d = .stop true := by simp [blankStep, hnl]
      rw [skipBlank, scan_stop hstop] at h
      obtain ⟨-, rfl⟩ : true = eol ∧ s = r := by simpa using h
      exact ⟨[d], rfl, hnl ▸ (by decide : Space [newline])⟩
    by_cases hd : isspace d = true
    · have hgo : blankStep () d = .go () := by simp [blankStep, hd, hnl]
      rw [skipBlank, scan_go hgo] at h
      obtain ⟨g, rfl, hg⟩ := ih hs.tail h
      refine ⟨d :: g, rfl, ?_⟩
      intro e he
      rcases List.mem_cons.mp he with rfl | he
      · exact hd
      · exact hg e he
    · have hback : blankStep () d = .back false := by
        simp [blankStep, hd, hnl, (hs d (by simp)).2.2.1]
      rw [skipBlank, scan_back hback] at h
      obtain ⟨-, rfl⟩ : false = eol ∧ d :: s = r := by simpa using h
      exact ⟨[], rfl, by simp [Space]⟩

end Done

section Words

variable {s r w : List Byte}

lemma readNext_words (hs : Clean s) (h : readNext s = .done w r) :
    words s = w :: words r ∧ cstr w = w := by
  obtain ⟨c, m, hc, hm⟩ := bind_eq_done.mp h
  obtain ⟨g, rfl, hg, hspace⟩ := readChar_done hs hc
  obtain ⟨u, sp, rfl, rfl, hu, hsp⟩ := nextBody_done (hs.suffix ⟨g ++ [c], by simp⟩) hm
  have hw : ∀ d ∈ [c] ++ u, isspace d = false := by simpa using ⟨hspace, hu⟩
  refine ⟨?_, ?_⟩
  · rw [words_space hg]
    exact words_word (by simp) hw hsp r
  · apply List.takeWhile_eq_self_iff.mpr
    intro d hd
    have hmem : d ∈ g ++ c :: (u ++ sp :: r) := by
      simp only [List.mem_append, List.mem_cons] at hd ⊢
      tauto
    simpa using (hs d hmem).2.2.2

lemma readArg_words {a : Option (List Byte)} (hs : Clean s) (h : readArg s = .done a r) :
    words r <:+ words s := by
  obtain ⟨u, sp, rfl, hu, hsp⟩ := argBody_done hs h
  by_cases hne : u = []
  · rw [hne, List.nil_append, ← List.singleton_append, words_space (by simpa [Space] using hsp)]
  · rw [words_word hne hu hsp]
    exact List.suffix_cons _ _

lemma readTokensFrom_words (hs : Clean s) {n : ℕ} {toks toks' : List (List Byte)} {arg : List Byte}
    (h : readTokensFrom n toks arg s = .done toks' r) : words r <:+ words s := by
  induction n generalizing toks arg s with
  | zero =>
    obtain ⟨-, rfl⟩ : toks = toks' ∧ s = r := by simpa [readTokensFrom] using h
    exact List.suffix_refl _
  | succ n ih =>
    rw [readTokensFrom] at h
    cases hp : parseArg arg with
    | error e => simp [hp] at h
    | ok v =>
      rw [hp] at h
      obtain ⟨eol, m, hskip, hm⟩ := bind_eq_done.mp h
      obtain ⟨g, rfl, hg⟩ := skipBlank_done hs hskip
      have hclean : Clean m := hs.suffix (List.suffix_append _ _)
      rw [words_space hg]
      cases eol with
      | true =>
        obtain ⟨-, rfl⟩ : toks ++ [arg] = toks' ∧ m = r := by simpa using hm
        exact List.suffix_refl _
      | false =>
        obtain ⟨a, m', harg, hm'⟩ := bind_eq_done.mp hm
        have hsub := readArg_words hclean harg
        cases a with
        | none =>
          obtain ⟨-, rfl⟩ : toks ++ [arg] = toks' ∧ m' = r := by simpa using hm'
          exact hsub
        | some a =>
          exact (ih (hclean.suffix (scan_shrinks _ _ _ _ harg)) hm').trans hsub

lemma readTokens_words (hs : Clean s) {toks : List (List Byte)} (h : readTokens s = .done toks r) :
    words r <:+ (words s).tail := by
  obtain ⟨arg, m, hnext, hm⟩ := bind_eq_done.mp h
  rw [(readNext_words hs hnext).1]
  exact readTokensFrom_words (hs.suffix (readNext_shrinks s _ _ hnext)) hm

lemma keywords_le {ws : List (List Byte)} (h : words r <:+ ws) : keywords r ≤ ws.countP isKeyword :=
  h.sublist.countP_le

lemma codeLine_keywords (hs : Clean s) {l : Option CodeLine} (h : codeLine s = .done l r) :
    keywords r + 1 ≤ keywords s := by
  obtain ⟨w, m, hnext, hm⟩ := bind_eq_done.mp h
  obtain ⟨hwords, hcstr⟩ := readNext_words hs hnext
  have hshrink := readNext_shrinks s _ _ hnext
  rw [hcstr] at hm
  by_cases hclose : w = bytes "<CODE"
  · rw [if_pos hclose] at hm
    obtain ⟨-, rfl⟩ : none = l ∧ m = r := by simpa using hm
    simp [keywords, hwords, isKeyword, hclose]
  · rw [if_neg hclose] at hm
    cases ho : OpCode.named w with
    | none => simp [ho] at hm
    | some o =>
      rw [ho] at hm
      obtain ⟨toks, m', htoks, hm'⟩ := bind_eq_done.mp hm
      obtain ⟨-, rfl⟩ : some ⟨o, toks⟩ = l ∧ m' = r := by simpa using hm'
      have hle := keywords_le ((readTokens_words (hs.suffix hshrink) htoks).trans (List.tail_suffix _))
      simp only [keywords, hwords, isKeyword, ho, List.countP_cons_of_pos, Option.isSome_some,
        Bool.or_true] at hle ⊢
      omega

lemma codeLoop_keywords (hs : Clean s) {b b' : Block} (h : codeLoop b s = .done b' r) :
    b'.code.length + 1 ≤ b.code.length + keywords s := by
  induction hn : s.length using Nat.strong_induction_on generalizing b s with
  | _ n ih =>
    subst hn
    cases hl : codeLine s with
    | exit e => simp [codeLoop_eq, bind_exit hl] at h
    | await q => simp [codeLoop_eq, bind_await hl] at h
    | done l m =>
      have hkey := codeLine_keywords hs hl
      cases l with
      | none =>
        rw [codeLoop_close hl] at h
        obtain ⟨rfl, rfl⟩ : b = b' ∧ m = r := by simpa using h
        omega
      | some l =>
        rw [codeLoop_line hl] at h
        have hrec := ih m.length (codeLine_eats s _ _ hl) (hs.suffix (codeLine_shrinks s _ _ hl)) h rfl
        simp only [Block.pushInstruction, List.length_append, List.length_singleton] at hrec
        omega

end Words

structure WrittenLine where
  indent : List Byte
  op : OpCode
  operands : List (List Byte × List Byte)
  trail : List Byte

namespace WrittenLine

def line (l : WrittenLine) : CodeLine := ⟨l.op, l.operands.map Prod.snd⟩

def word (l : WrittenLine) : Inst := l.line.word

def text (l : WrittenLine) : List Byte :=
  l.indent ++ l.op.label ++ operandText l.operands ++ l.trail ++ [newline]

structure WellFormed (l : WrittenLine) : Prop where
  indent : Blank l.indent
  gaps : ∀ x ∈ l.operands, Blank x.1 ∧ x.1 ≠ []
  trail : Blank l.trail
  arity : l.operands.length = l.op.fields.length
  fits : l.line.Fits

def Closed (l : WrittenLine) : Prop := l.operands ≠ [] ∧ l.trail ≠ []

end WrittenLine

def linesText (lines : List WrittenLine) : List Byte :=
  lines.flatMap WrittenLine.text ++ bytes "<CODE" ++ [newline]

def sectionText (lines : List WrittenLine) : List Byte := bytes ">CODE" ++ newline :: linesText lines

def OnePerLine (word : WrittenLine → Inst) (lines : List WrittenLine) : Prop :=
  ∀ (b : Block) (rest : List Byte), compileCode b (sectionText lines ++ rest) =
    .done { b with code := b.code ++ lines.map word } rest

section Texts

variable {d : Operand} {f : Field} (h : d.WrittenFor f)

include h

lemma Operand.text_not_keyword : isKeyword d.text = false := by
  obtain ⟨c, u, hcu, hc⟩ : ∃ c u, d.text = c :: u ∧ (isdigit c = true ∨ c = minus ∨ c = plus) := by
    obtain ⟨c, u, hcu⟩ := List.exists_cons_of_ne_nil h.ne_nil
    rcases h.sign with hs | ⟨-, hs | hs⟩
    · exact ⟨c, u ++ _, by rw [Operand.text, hs, hcu]; rfl, .inl (h.digits c (by simp [hcu]))⟩
    · exact ⟨minus, d.digits ++ _, by rw [Operand.text, hs]; rfl, .inr (.inl rfl)⟩
    · exact ⟨plus, d.digits ++ _, by rw [Operand.text, hs]; rfl, .inr (.inr rfl)⟩
  have hlabel : ∀ o : OpCode, o.label ≠ c :: u := by
    intro o ho
    have hhead : o.label.head? = some c := by rw [ho]; rfl
    have : isdigit c = false ∧ c ≠ minus ∧ c ≠ plus := by
      cases o <;> obtain rfl := Option.some.inj hhead <;> decide
    simp_all
  have hclose : bytes "<CODE" ≠ c :: u := by
    intro hclose
    obtain rfl : 60 = c := (List.cons.inj hclose).1
    exact absurd hc (by decide)
  have hnamed : OpCode.named (c :: u) = none := by
    cases ho : OpCode.named (c :: u) with
    | none => rfl
    | some o => exact (hlabel o (OpCode.label_of_named ho)).elim
  simp [isKeyword, hcu, hnamed, hclose.symm]

end Texts

lemma Clean.append {s t : List Byte} (hs : Clean s) (ht : Clean t) : Clean (s ++ t) := by
  intro c hc
  rcases List.mem_append.mp hc with hc | hc
  · exact hs c hc
  · exact ht c hc

lemma Space.clean {g : List Byte} (h : Space g) : Clean g := by
  intro c hc
  have hspace := h c hc
  refine ⟨?_, ?_, ?_, ?_⟩ <;>
  · rintro rfl
    exact absurd hspace (by decide)

lemma IsWord.clean {w : List Byte} (h : IsWord w) : Clean w := fun c hc => (h.ordinary c hc).2

lemma operandText_clean {ops : List (List Byte × List Byte)} (h : ∀ x ∈ ops, IsOperand x) :
    Clean (operandText ops) := by
  intro c hc
  obtain ⟨x, hx, hcx⟩ := List.mem_flatMap.mp hc
  exact ((h x hx).gap.space.clean.append (h x hx).word.clean) c hcx

lemma words_operands {ops : List (List Byte × List Byte)} (h : ∀ x ∈ ops, IsOperand x) {w : List Byte}
    (hw : IsWord w) {sp : Byte} (hsp : isspace sp = true) (t : List Byte) :
    words (w ++ (operandText ops ++ sp :: t)) = w :: (ops.map Prod.snd ++ words t) := by
  induction ops generalizing w with
  | nil => exact words_word hw.ne_nil (fun c hc => (hw.ordinary c hc).1) hsp t
  | cons x ops ih =>
    have hx := h x (by simp)
    have hrec := ih (fun y hy => h y (by simp [hy])) hx.word
    obtain ⟨c, g, hg⟩ := List.exists_cons_of_ne_nil hx.gap_ne_nil
    have hspace : Space (c :: g) := hg ▸ hx.gap.space
    have htext : w ++ (operandText (x :: ops) ++ sp :: t) =
        w ++ c :: (g ++ (x.2 ++ (operandText ops ++ sp :: t))) := by
      simp [operandText, hg]
    rw [htext, words_word hw.ne_nil (fun d hd => (hw.ordinary d hd).1) (hspace c (by simp)),
      words_space (fun d hd => hspace d (by simp [hd])), hrec]
    rfl

namespace WrittenLine

variable {l : WrittenLine}

lemma WellFormed.numeral (hl : l.WellFormed) {x : List Byte × List Byte} (hx : x ∈ l.operands) :
    ∃ (d : Operand) (f : Field), d.WrittenFor f ∧ d.text = x.2 := by
  obtain ⟨i, hi, rfl⟩ := List.mem_iff_getElem.mp hx
  have hif : i < l.op.fields.length := hl.arity ▸ hi
  have hf : l.op.fields[i]? = some l.op.fields[i] := List.getElem?_eq_getElem hif
  have ho : l.line.operands[i]? = some l.operands[i].2 := by simp [line, List.getElem?_eq_getElem hi]
  obtain ⟨d, hd, htext, -⟩ := hl.fits i _ _ hf ho
  exact ⟨d, _, hd, htext⟩

lemma WellFormed.operand (hl : l.WellFormed) : ∀ x ∈ l.operands, IsOperand x := by
  intro x hx
  obtain ⟨d, f, hd, htext⟩ := hl.numeral hx
  obtain ⟨hg, hne⟩ := hl.gaps x hx
  have hop := IsOperand.of_numeral hd hg hne
  rwa [htext] at hop

lemma WellFormed.not_keyword (hl : l.WellFormed) : (l.operands.map Prod.snd).countP isKeyword = 0 := by
  rw [List.countP_eq_zero]
  intro w hw
  obtain ⟨x, hx, rfl⟩ := List.mem_map.mp hw
  obtain ⟨d, f, hd, htext⟩ := hl.numeral hx
  simp [← htext, Operand.text_not_keyword hd]

lemma WellFormed.length_le (hl : l.WellFormed) : l.operands.length ≤ 3 := by
  rw [hl.arity]
  cases l.op <;> decide

lemma text_append (l : WrittenLine) (s : List Byte) :
    l.text ++ s = l.indent ++ l.op.label ++ (operandText l.operands ++ (l.trail ++ newline :: s)) := by
  simp [text]

lemma WellFormed.clean (hl : l.WellFormed) : Clean l.text := by
  have hnl : Space [newline] := by decide
  exact ((((hl.indent.space.clean.append (label_isWord l.op).clean).append
    (operandText_clean hl.operand)).append hl.trail.space.clean).append hnl.clean)

end WrittenLine

lemma linesText_clean {lines : List WrittenLine} (h : ∀ l ∈ lines, l.WellFormed) :
    Clean (linesText lines) := by
  have hend : IsWord (bytes "<CODE") := by decide
  have hnl : Space [newline] := by decide
  refine Clean.append (Clean.append ?_ hend.clean) hnl.clean
  intro c hc
  obtain ⟨l, hl, hcl⟩ := List.mem_flatMap.mp hc
  exact (h l hl).clean c hcl

lemma linesText_cons (l : WrittenLine) (lines : List WrittenLine) :
    linesText (l :: lines) = l.text ++ linesText lines := by
  simp [linesText]

section Keywords

variable {l : WrittenLine} {lines : List WrittenLine}

lemma WrittenLine.WellFormed.end_space (hl : l.WellFormed) : Space (l.trail ++ [newline]) := by
  intro c hc
  rcases List.mem_append.mp hc with hc | hc
  · exact (hl.trail c hc).1
  · exact (by decide : Space [newline]) c hc

lemma text_first (hl : l.WellFormed) (s : List Byte) : ∃ sp t,
    l.text ++ s = l.indent ++ l.op.label ++ sp :: t ∧ isspace sp = true ∧
      words t = l.operands.map Prod.snd ++ words s := by
  obtain ⟨c, e, hce⟩ := List.exists_cons_of_ne_nil (l := l.trail ++ [newline]) (by simp)
  have hspace : Space (c :: e) := hce ▸ hl.end_space
  have htail : l.trail ++ newline :: s = c :: (e ++ s) := by
    rw [← List.cons_append, ← hce]
    simp
  obtain ⟨sp, t, ht, hsp⟩ := operandText_space hl.operand (hspace c (by simp)) (e ++ s)
  refine ⟨sp, t, by rw [WrittenLine.text_append, htail, ht], hsp, ?_⟩
  have hwords := words_operands hl.operand (label_isWord l.op) (hspace c (by simp)) (e ++ s)
  rw [ht, words_word (label_isWord l.op).ne_nil (fun c hc => ((label_isWord l.op).ordinary c hc).1) hsp,
    words_space (fun d hd => hspace d (by simp [hd]))] at hwords
  exact (List.cons.inj hwords).2

lemma keywords_text (hl : l.WellFormed) (s : List Byte) : keywords (l.text ++ s) = keywords s + 1 := by
  obtain ⟨sp, t, ht, hsp, hwords⟩ := text_first hl s
  have hlabel : isKeyword l.op.label = true := by simp [isKeyword, OpCode.named_label]
  rw [keywords, ht, List.append_assoc, words_space hl.indent.space, words_word (label_isWord l.op).ne_nil
    (fun c hc => ((label_isWord l.op).ordinary c hc).1) hsp, hwords, List.countP_cons_of_pos hlabel,
    List.countP_append, hl.not_keyword, Nat.zero_add, keywords]

lemma keywords_linesText (h : ∀ l ∈ lines, l.WellFormed) :
    keywords (linesText lines) = lines.length + 1 := by
  induction lines with
  | nil =>
    have hend : IsWord (bytes "<CODE") := by decide
    have hnl : isspace newline = true := by decide
    have hwords := words_word hend.ne_nil (fun c hc => (hend.ordinary c hc).1) hnl []
    have hnil : words [] = [] := by simp [words]
    rw [keywords, linesText, List.flatMap_nil, List.nil_append, hwords, hnil]
    rfl
  | cons l lines ih =>
    rw [linesText_cons, keywords_text (h l (by simp)), ih (fun l' hl' => h l' (by simp [hl'])),
      List.length_cons]

lemma linesText_first (h : ∀ l ∈ lines, l.WellFormed) : ∃ g w sp t,
    linesText lines = g ++ w ++ sp :: t ∧ Blank g ∧ IsWord w ∧ isspace sp = true ∧
      keywords t = lines.length := by
  cases lines with
  | nil =>
    have hnil : words [] = [] := by simp [words]
    exact ⟨[], bytes "<CODE", newline, [], rfl, by simp [Blank], by decide, by decide,
      by simp [keywords, hnil]⟩
  | cons l lines =>
    have hl := h l (by simp)
    obtain ⟨sp, t, ht, hsp, hwords⟩ := text_first hl (linesText lines)
    have hkey := keywords_linesText (fun l' hl' => h l' (List.mem_cons_of_mem l hl'))
    rw [keywords] at hkey
    refine ⟨l.indent, l.op.label, sp, t, by rw [linesText_cons, ht], hl.indent, label_isWord l.op, hsp, ?_⟩
    rw [keywords, hwords, List.countP_append, hl.not_keyword, hkey, List.length_cons, Nat.zero_add]

end Keywords

section Lines

variable {l : WrittenLine} {lines : List WrittenLine} {s r : List Byte}

lemma codeLine_closed (hl : l.WellFormed) (hc : l.Closed) (s : List Byte) :
    codeLine (l.text ++ s) = .done (some l.line) s := by
  obtain ⟨sp, e, he⟩ := List.exists_cons_of_ne_nil hc.2
  have htrail : Blank (sp :: e) := he ▸ hl.trail
  have hend : IsLineEnd (e ++ [newline]) := .plain (fun c hc => htrail c (by simp [hc]))
  have htext : l.text ++ s =
      l.indent ++ l.op.label ++ (operandText l.operands ++ sp :: ((e ++ [newline]) ++ s)) := by
    rw [WrittenLine.text_append, he]
    simp
  rw [htext, codeLine_written hl.indent.space l.op hl.operand hc.1 hl.length_le (htrail sp (by simp)).1 hend]
  rfl

lemma codeLine_open (hl : l.WellFormed) (hopen : ¬ l.Closed) {g w t : List Byte} {sp : Byte}
    (hs : s = g ++ w ++ sp :: t) (hg : Blank g) (hw : IsWord w) (hsp : isspace sp = true) (hclean : Clean s)
    {l' : Option CodeLine} (h : codeLine (l.text ++ s) = .done l' r) : words r <:+ words t := by
  have hwords : words s = w :: words t := by
    rw [hs, List.append_assoc, words_space hg.space, words_word hw.ne_nil (fun c hc => (hw.ordinary c hc).1) hsp]
  have hcleant : Clean t := hclean.suffix ⟨g ++ w ++ [sp], by simp [hs]⟩
  rw [WrittenLine.text_append] at h
  by_cases hops : l.operands = []
  · obtain ⟨c, e, hce⟩ := List.exists_cons_of_ne_nil (l := l.trail ++ [newline]) (by simp)
    have hspace : Space (c :: e) := hce ▸ hl.end_space
    have htail : operandText l.operands ++ (l.trail ++ newline :: s) = c :: (e ++ s) := by
      rw [← List.cons_append, ← hce, hops]
      simp [operandText]
    have he : Space e := fun d hd => hspace d (by simp [hd])
    rw [htail, codeLine_mnemonic hl.indent.space l.op (hspace c (by simp))] at h
    obtain ⟨toks, m, htoks, hm⟩ := bind_eq_done.mp h
    obtain ⟨-, rfl⟩ : some ⟨l.op, toks⟩ = l' ∧ m = r := by simpa using hm
    have := readTokens_words (he.clean.append hclean) htoks
    rwa [words_space he, hwords] at this
  · have htrail : l.trail = [] := by
      by_contra hne
      exact hopen ⟨hops, hne⟩
    obtain ⟨x, ops, hxops⟩ := List.exists_cons_of_ne_nil hops
    have hall : ∀ y ∈ x :: ops, IsOperand y := hxops ▸ hl.operand
    have hx := hall x (by simp)
    have hrest : ∀ y ∈ ops, IsOperand y := fun y hy => hall y (by simp [hy])
    have hlen := hl.length_le
    have hthree : 3 = (2 - ops.length) + 1 + ops.length := by
      simp only [hxops, List.length_cons] at hlen
      omega
    obtain ⟨c, e, hce, hc⟩ := operandText_space hall (by decide : isspace newline = true) s
    rw [htrail, List.nil_append, hxops, hce, codeLine_mnemonic hl.indent.space l.op hc] at h
    obtain ⟨toks, m, htoks, hm⟩ := bind_eq_done.mp h
    obtain ⟨-, rfl⟩ : some ⟨l.op, toks⟩ = l' ∧ m = r := by simpa using hm
    have hread := readTokens_first (e := s) hx hrest (by decide : isspace newline = true)
    rw [hce, List.tail_cons] at hread
    rw [hread, hthree, readTokensFrom_operands hrest hx.parses (by decide), hs,
      readTokensFrom_word (last_parses hall) hg hw hsp] at htoks
    exact readTokensFrom_words hcleant htoks

lemma codeLoop_closed (h : ∀ l ∈ lines, l.WellFormed ∧ l.Closed) (b : Block) (rest : List Byte) :
    codeLoop b (linesText lines ++ rest) = .done { b with code := b.code ++ lines.map WrittenLine.word } rest := by
  have htext : linesText lines ++ rest =
      lines.flatMap WrittenLine.text ++ ([] ++ bytes "<CODE" ++ newline :: rest) := by
    simp [linesText]
  rw [htext]
  have hline : ∀ l ∈ lines, ∀ s, codeLine (l.text ++ s) = .done (some l.line) s :=
    fun l hl => codeLine_closed (h l hl).1 (h l hl).2
  exact codeLoop_lines hline (by simp [Space]) (by decide) b

lemma codeLoop_open (h : ∀ l ∈ lines, l.WellFormed) {b b' : Block}
    (hdone : codeLoop b (linesText lines) = .done b' r)
    (hlen : b'.code.length = b.code.length + lines.length) : ∀ l ∈ lines, l.Closed := by
  induction lines generalizing b with
  | nil => simp
  | cons l lines ih =>
    have hl := h l (by simp)
    have hrest : ∀ l' ∈ lines, l'.WellFormed := fun l' hl' => h l' (by simp [hl'])
    rw [linesText_cons] at hdone
    have hclosed : l.Closed := by
      by_contra hopen
      obtain ⟨g, w, sp, t, hs, hg, hw, hsp, hkey⟩ := linesText_first hrest
      have hclean := linesText_clean hrest
      cases hline : codeLine (l.text ++ linesText lines) with
      | exit e => simp [codeLoop_eq, bind_exit hline] at hdone
      | await q => simp [codeLoop_eq, bind_await hline] at hdone
      | done l' m =>
        have hwords := codeLine_open hl hopen hs hg hw hsp hclean hline
        have hm := keywords_le hwords
        have hcleanm : Clean m := (hl.clean.append hclean).suffix (codeLine_shrinks _ _ _ hline)
        rw [← keywords, hkey] at hm
        cases l' with
        | none =>
          rw [codeLoop_close hline] at hdone
          obtain ⟨rfl, rfl⟩ : b = b' ∧ m = r := by simpa using hdone
          simp at hlen
        | some l' =>
          rw [codeLoop_line hline] at hdone
          have hbound := codeLoop_keywords hcleanm hdone
          simp only [Block.pushInstruction, List.length_append, List.length_singleton] at hbound
          simp only [List.length_cons] at hlen
          omega
    rw [codeLoop_line (codeLine_closed hl hclosed _)] at hdone
    have hih := ih hrest hdone (by
      simp only [Block.pushInstruction, List.length_append, List.length_cons, List.length_nil] at hlen ⊢
      omega)
    intro l' hl'
    rcases List.mem_cons.mp hl' with rfl | hl'
    · exact hclosed
    · exact hih l' hl'

end Lines

lemma compileCode_section (b : Block) (lines : List WrittenLine) (rest : List Byte) :
    compileCode b (sectionText lines ++ rest) = codeLoop b (linesText lines ++ rest) := by
  have hexpect : expect (bytes ">CODE") (sectionText lines ++ rest) =
      .done () (newline :: (linesText lines ++ rest)) := by
    have htext : sectionText lines ++ rest = [] ++ bytes ">CODE" ++ newline :: (linesText lines ++ rest) := by
      simp [sectionText]
    rw [htext]
    exact expect_word (by simp [Space]) (by decide)
  have hskip := codeLine_skip (by decide : isspace newline = true) (linesText lines ++ rest)
  rw [compileCode, bind_done hexpect, codeLoop_eq, codeLoop_eq]
  exact bind_congr_left hskip _

theorem onePerLine_iff {lines : List WrittenLine} (h : ∀ l ∈ lines, l.WellFormed) :
    ((∀ l ∈ lines, l.Closed) → OnePerLine WrittenLine.word lines) ∧
      ((∃ word, OnePerLine word lines) → ∀ l ∈ lines, l.Closed) := by
  constructor
  · intro hc b rest
    rw [compileCode_section]
    exact codeLoop_closed (fun l hl => ⟨h l hl, hc l hl⟩) b rest
  · rintro ⟨word, hword⟩
    have hdone := hword (Block.new default) []
    rw [compileCode_section, List.append_nil] at hdone
    exact codeLoop_open h hdone (by simp [Block.new])

def numeralLine (o : OpCode) (operands : List Operand) (trail : List Byte) : WrittenLine :=
  ⟨[], o, operands.map (fun d => ([32], d.text)), trail⟩

lemma numeralLine_wellFormed {o : OpCode} {operands : List Operand} {trail : List Byte}
    (h : List.Forall₂ (fun d f => d.WrittenFor f ∧ d.Fits o f) operands o.fields) (ht : Blank trail) :
    (numeralLine o operands trail).WellFormed := by
  have hgap : Blank [32] := by decide
  refine ⟨by simp [numeralLine, Blank], fun x hx => ?_, ht, by simpa [numeralLine] using h.length_eq, ?_⟩
  · obtain ⟨d, -, rfl⟩ := List.mem_map.mp hx
    exact ⟨hgap, by simp⟩
  · intro i f operand hf ho
    obtain ⟨d, hd, rfl⟩ : ∃ d, operands[i]? = some d ∧ d.text = operand := by
      simpa [numeralLine, WrittenLine.line] using ho
    obtain ⟨hi, rfl⟩ := List.getElem?_eq_some_iff.mp hd
    obtain ⟨hi', rfl⟩ := List.getElem?_eq_some_iff.mp hf
    have hboth := h.get hi hi'
    exact ⟨operands[i], hboth.1, rfl, hboth.2⟩

def sampleLines : List WrittenLine :=
  [numeralLine .loadnull [⟨[], bytes "0", false⟩] [32],
    numeralLine .move [⟨[], bytes "1", false⟩, ⟨[], bytes "0", false⟩] [32],
    numeralLine .add [⟨[], bytes "2", false⟩, ⟨[], bytes "1", false⟩, ⟨[], bytes "3", true⟩] [32, 32]]

theorem onePerLine_iff_sample :
    ((∀ l ∈ sampleLines, l.Closed) → OnePerLine WrittenLine.word sampleLines) ∧
      ((∃ word, OnePerLine word sampleLines) → ∀ l ∈ sampleLines, l.Closed) := by
  apply onePerLine_iff
  rw [sampleLines, List.forall_mem_cons, List.forall_mem_cons, List.forall_mem_singleton]
  refine ⟨numeralLine_wellFormed ?_ (by decide), numeralLine_wellFormed ?_ (by decide),
    numeralLine_wellFormed ?_ (by decide)⟩
  · exact .cons (unsigned_fits (by decide)) .nil
  · exact .cons (unsigned_fits (by decide)) (.cons (unsigned_fits (by decide)) .nil)
  · exact .cons (unsigned_fits (by decide)) (.cons (unsigned_fits (by decide))
      (.cons (unsigned_fits (by decide)) .nil))

theorem onePerLine_fails_at_newline :
    WrittenLine.WellFormed ⟨[], .loadnull, [([32], bytes "0")], []⟩ ∧
      ¬ ∃ word, OnePerLine word [⟨[], .loadnull, [([32], bytes "0")], []⟩] := by
  have hwellFormed : (numeralLine .loadnull [⟨[], bytes "0", false⟩] []).WellFormed :=
    numeralLine_wellFormed (.cons (unsigned_fits (by decide)) .nil) (by decide)
  refine ⟨hwellFormed, ?_⟩
  rintro ⟨word, h⟩
  have hnone : (compileCode (Block.new default)
      (sectionText [⟨[], .loadnull, [([32], bytes "0")], []⟩] ++ [])).value?.isNone = true := by
    decide +kernel
  rw [h] at hnone
  simp [Outcome.value?] at hnone

end Bijou
