import Bijou.CompilerRules

namespace Bijou

open CString Incremental

def Space (g : List Byte) : Prop := ∀ c ∈ g, isspace c = true

def Blank (g : List Byte) : Prop := ∀ c ∈ g, isspace c = true ∧ c ≠ newline

def Ordinary (c : Byte) : Prop :=
  isspace c = false ∧ c ≠ quote ∧ c ≠ semicolon ∧ c ≠ eof ∧ c ≠ 0

structure IsWord (w : List Byte) : Prop where
  ne_nil : w ≠ []
  ordinary : ∀ c ∈ w, Ordinary c

-- the quantifiers run over the list, not over all bytes
instance (g : List Byte) : Decidable (Space g) := List.decidableBAll _ g

instance (g : List Byte) : Decidable (Blank g) := List.decidableBAll _ g

instance (c : Byte) : Decidable (Ordinary c) := inferInstanceAs (Decidable (_ ∧ _))

instance (w : List Byte) : Decidable (IsWord w) :=
  have : Decidable (∀ c ∈ w, Ordinary c) := List.decidableBAll _ w
  decidable_of_iff (w ≠ [] ∧ ∀ c ∈ w, Ordinary c) ⟨fun h => ⟨h.1, h.2⟩, fun h => ⟨h.1, h.2⟩⟩

lemma Blank.space {g : List Byte} (h : Blank g) : Space g := fun c hc => (h c hc).1

lemma IsWord.cstr {w : List Byte} (h : IsWord w) : cstr w = w := by
  apply List.takeWhile_eq_self_iff.mpr
  intro c hc
  simpa using (h.ordinary c hc).2.2.2.2

lemma IsWord.cons {w : List Byte} (h : IsWord w) : ∃ c u, w = c :: u ∧ Ordinary c ∧ ∀ d ∈ u, Ordinary d := by
  cases w with
  | nil => exact (h.ne_nil rfl).elim
  | cons c u => exact ⟨c, u, rfl, h.ordinary c (by simp), fun d hd => h.ordinary d (by simp [hd])⟩

variable {g w r : List Byte} {c sp : Byte}

lemma readChar_first (hg : Space g) (hc : isspace c = false) (hsemi : c ≠ semicolon) :
    readChar true (g ++ c :: r) = .done c r := by
  have hmode : modeAfter (charStep true) .blank g = some .blank := by
    apply modeAfter_stay
    intro d hd
    simp [charStep, hg d hd]
  have hstop : charStep true .blank c = .stop c := by simp [charStep, hc, hsemi]
  rw [readChar, scan_append hmode, scan_stop hstop]

lemma readNext_word (hg : Space g) (hw : IsWord w) (hsp : isspace sp = true) :
    readNext (g ++ w ++ sp :: r) = .done w r := by
  obtain ⟨c, u, rfl, hc, hu⟩ := hw.cons
  have hmode : modeAfter nextStep (.body [c]) u = some (.body ([c] ++ u)) := by
    apply modeAfter_store
    intro d hd l
    obtain ⟨hspace, hquote, -, heof, -⟩ := hu d hd
    simp [nextStep, hspace, hquote, heof]
  have hstop : nextStep (.body ([c] ++ u)) sp = .stop ([c] ++ u) := by simp [nextStep, hsp]
  have hfirst : readChar true (g ++ (c :: u) ++ sp :: r) = .done c (u ++ sp :: r) := by
    rw [List.append_assoc]
    exact readChar_first hg hc.1 hc.2.2.1
  rw [readNext, bind_done hfirst, scan_append hmode, scan_stop hstop]
  rfl

lemma expect_word (hg : Space g) (hw : IsWord w) : expect w (g ++ w ++ r) = .done () r := by
  have hcstr := hw.cstr
  obtain ⟨c, u, rfl, hc, -⟩ := hw.cons
  have hfirst : readChar true (g ++ (c :: u) ++ r) = .done c (u ++ r) := by
    rw [List.append_assoc]
    exact readChar_first hg hc.1 hc.2.2.1
  rw [expect, if_neg (by simp), bind_done hfirst, forN_next]
  have ht := take_append CompileError Place.expectBody u r
  rw [List.length_cons, Nat.add_sub_cancel, bind_done ht, if_pos hcstr]
  rfl

lemma readNext_skip (hc : isspace c = true) (s : List Byte) : readNext (c :: s) = readNext s := by
  have hgo : charStep true .blank c = .go .blank := by simp [charStep, hc]
  have hchar : readChar true (c :: s) = readChar true s := scan_go hgo
  exact bind_congr_left hchar _

lemma skipBlank_newline (hg : Blank g) : skipBlank (g ++ newline :: r) = .done true r := by
  have hmode : modeAfter blankStep () g = some () := by
    apply modeAfter_stay
    intro d hd
    simp [blankStep, hg d hd]
  have hstop : blankStep () newline = .stop true := rfl
  rw [skipBlank, scan_append hmode, scan_stop hstop]

lemma skipBlank_back (hg : Blank g) (hc : isspace c = false) (heof : c ≠ eof) :
    skipBlank (g ++ c :: r) = .done false (c :: r) := by
  have hmode : modeAfter blankStep () g = some () := by
    apply modeAfter_stay
    intro d hd
    simp [blankStep, hg d hd]
  have hnl : c ≠ newline := by
    rintro rfl
    exact absurd hc (by decide)
  have hback : blankStep () c = .back false := by simp [blankStep, hc, hnl, heof]
  rw [skipBlank, scan_append hmode, scan_back hback]

lemma readArg_word (hw : IsWord w) (hsp : isspace sp = true) :
    readArg (w ++ sp :: r) = .done (some w) r := by
  have hmode : modeAfter argStep (.body []) w = some (.body ([] ++ w)) := by
    apply modeAfter_store
    intro d hd l
    obtain ⟨hspace, -, hsemi, -⟩ := hw.ordinary d hd
    simp [argStep, hspace, hsemi]
  have hstop : argStep (.body ([] ++ w)) sp = .stop (some w) := by simp [argStep, hsp]
  rw [readArg, scan_append hmode, scan_stop hstop]

lemma readArg_comment {text : List Byte} (h : newline ∉ text) :
    readArg (semicolon :: text ++ newline :: r) = .done none r := by
  have hgo : argStep (.body []) semicolon = .go .comment := rfl
  have hmode : modeAfter argStep .comment text = some .comment := by
    apply modeAfter_stay
    rintro d hd
    have : d ≠ newline := fun hn => h (hn ▸ hd)
    simp [argStep, this]
  have hstop : argStep .comment newline = .stop none := rfl
  rw [readArg, List.cons_append, scan_go hgo, scan_append hmode, scan_stop hstop]

def argValue (arg : List Byte) : BitVec 32 :=
  match parseArg arg with
  | .ok v => v
  | .error _ => 0

def readTokensFrom : ℕ → List (List Byte) → List Byte → Scan (List (List Byte))
  | 0, toks, _ => pure toks
  | n + 1, toks, arg =>
    match parseArg arg with
    | .error e => fail e
    | .ok _ => do
      let toks := toks ++ [arg]
      if ← skipBlank then return toks
      else
        match ← readArg with
        | none => return toks
        | some arg => readTokensFrom n toks arg

def readTokens : Scan (List (List Byte)) := do
  let arg ← readNext
  readTokensFrom 3 [] arg

lemma readArgsFrom_tokens (n : ℕ) (toks : List (List Byte)) (arg s : List Byte) :
    readArgsFrom n (toks.map argValue) arg s =
      (readTokensFrom n toks arg >>= fun toks => pure (toks.map argValue)) s := by
  induction n generalizing toks arg s with
  | zero => rfl
  | succ n ih =>
    unfold readArgsFrom readTokensFrom
    cases hp : parseArg arg with
    | error e => rfl
    | ok v =>
      have hv : toks.map argValue ++ [v] = (toks ++ [arg]).map argValue := by simp [argValue, hp]
      simp only [hv, bind_assoc]
      apply bind_apply_congr rfl
      intro eol m _
      cases eol with
      | true => rfl
      | false =>
        simp only [Bool.false_eq_true, if_false, bind_assoc]
        apply bind_apply_congr rfl
        intro arg' m' _
        cases arg' with
        | none => rfl
        | some arg' => exact ih _ _ _

lemma readArgs_tokens (s : List Byte) :
    readArgs s = (readTokens >>= fun toks => pure (toks.map argValue)) s := by
  rw [readArgs, readTokens, bind_assoc]
  apply bind_apply_congr rfl
  intro arg r _
  exact readArgsFrom_tokens 3 [] arg r

lemma readTokensFrom_shrinks (n : ℕ) (toks : List (List Byte)) (arg s : List Byte) :
    Shrinks (readTokensFrom n toks arg) s := by
  induction n generalizing toks arg s with
  | zero => exact shrinks_scanned.pure _ _
  | succ n ih =>
    unfold readTokensFrom
    split
    · exact shrinks_scanned.fail _ _
    · apply shrinks_scanned.bind (scan_shrinks _ s)
      intro eol m _
      split
      · exact shrinks_scanned.pure _ _
      · apply shrinks_scanned.bind (scan_shrinks _ m)
        intro arg' m' _
        split
        · exact shrinks_scanned.pure _ _
        · exact ih _ _ _

lemma readTokens_shrinks (s : List Byte) : Shrinks readTokens s :=
  (readNext_shrinks s).bind (fun arg r _ => readTokensFrom_shrinks 3 [] arg r)

structure CodeLine where
  op : OpCode
  operands : List (List Byte)
  deriving DecidableEq

def CodeLine.word (l : CodeLine) : Inst := assemble l.op (l.operands.map argValue)

def codeLine : Scan (Option CodeLine) := do
  let string ← readNext
  if cstr string = bytes "<CODE" then return none
  else
    match OpCode.named (cstr string) with
    | none => fail (.unknownOpcode string)
    | some o => do
      let operands ← readTokens
      return some ⟨o, operands⟩

lemma codeLine_eats (s : List Byte) : Eats codeLine s := by
  apply (readNext_eats s).bind_left
  intro string r _
  split
  · exact shrinks_scanned.pure _ _
  · split
    · exact shrinks_scanned.fail _ _
    · exact (readTokens_shrinks r).bind (fun _ m _ => shrinks_scanned.pure _ m)

lemma codeLine_shrinks (s : List Byte) : Shrinks codeLine s := by
  apply (readNext_shrinks s).bind
  intro string r _
  split
  · exact shrinks_scanned.pure _ _
  · split
    · exact shrinks_scanned.fail _ _
    · exact (readTokens_shrinks r).bind (fun _ m _ => shrinks_scanned.pure _ m)

lemma codeLine_skip {c : Byte} (hc : isspace c = true) (s : List Byte) :
    codeLine (c :: s) = codeLine s := bind_congr_left (readNext_skip hc s) _

lemma codeRound_eq (loop : Block → Scan Block) (b : Block) (s : List Byte) :
    codeRound loop b s = (codeLine >>= fun l =>
      match l with
      | none => pure b
      | some l => loop (b.pushInstruction l.word)) s := by
  rw [codeRound, codeLine, bind_assoc]
  apply bind_apply_congr rfl
  intro string r _
  by_cases hclose : cstr string = bytes "<CODE"
  · simp only [if_pos hclose]
    rfl
  simp only [if_neg hclose]
  cases OpCode.named (cstr string) with
  | none => rfl
  | some o =>
    dsimp only
    rw [bind_assoc]
    have hargs := readArgs_tokens r
    cases htoks : readTokens r with
    | done toks m =>
      rw [bind_done htoks] at hargs ⊢
      rw [bind_done hargs]
      rfl
    | exit e =>
      rw [bind_exit htoks] at hargs ⊢
      rw [bind_exit hargs]
    | await q =>
      rw [bind_await htoks] at hargs ⊢
      rw [bind_await hargs]

lemma codeLoop_eq (b : Block) (s : List Byte) :
    codeLoop b s = (codeLine >>= fun l =>
      match l with
      | none => pure b
      | some l => codeLoop (b.pushInstruction l.word)) s := by
  rw [codeLoop, codeRound_guarded.fix_eq]
  exact codeRound_eq _ b s

lemma codeRound_line {s r : List Byte} {l : CodeLine} (h : codeLine s = .done (some l) r)
    (loop : Block → Scan Block) (b : Block) :
    codeRound loop b s = loop (b.pushInstruction l.word) r := by
  rw [codeRound_eq, bind_done h]

lemma codeLoop_line {b : Block} {s r : List Byte} {l : CodeLine} (h : codeLine s = .done (some l) r) :
    codeLoop b s = codeLoop (b.pushInstruction l.word) r := by
  rw [codeLoop_eq, bind_done h]

lemma codeLoop_close {b : Block} {s r : List Byte} (h : codeLine s = .done none r) :
    codeLoop b s = .done b r := by
  rw [codeLoop_eq, bind_done h]
  rfl

end Bijou
