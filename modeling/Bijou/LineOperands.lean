import Bijou.CodeText

namespace Bijou

open CString Incremental

/-- The operands of a line; `cut` says that a semicolon stands right behind the last one. -/
structure LineText where
  operands : List (List Byte)
  cut : Bool
  deriving DecidableEq

def ended (word : List Byte) : List (List Byte) := if word = [] then [] else [word]

/-- The words up to a comment or the end of the line, where `word` has begun. -/
def lineText : List Byte → List Byte → LineText
  | word, [] => ⟨ended word, false⟩
  | word, c :: s =>
    if c = semicolon then ⟨ended word, word ≠ []⟩
    -- a newline right behind a word is a blank to read_args, which goes on with the next line
    else if c = newline ∧ word = [] then ⟨[], false⟩
    else if isspace c then
      let l := lineText [] s
      ⟨ended word ++ l.operands, l.cut⟩
    else lineText (word ++ [c]) s

/-- The operands as they are written, from the first character that is no blank and in no comment. -/
def operandsAt (s : List Byte) : LineText :=
  match readChar true s with
  | .done c t => lineText [c] t
  | _ => ⟨[], false⟩

def lineOperands (s : List Byte) : LineText :=
  match readNext s with
  | .done _ t => operandsAt t
  | _ => ⟨[], false⟩

def Solid (w : List Byte) : Prop := w ≠ [] ∧ ∀ c ∈ w, isspace c = false ∧ c ≠ semicolon

inductive LineText.Shape : List Byte → LineText → Prop
  | empty {s : List Byte} : Shape s ⟨[], false⟩
  | last {g w : List Byte} (hg : Blank g) (hw : Solid w) : Shape (g ++ w) ⟨[w], false⟩
  | comment {g w : List Byte} (hg : Blank g) (hw : Solid w) (s : List Byte) :
    Shape (g ++ w ++ semicolon :: s) ⟨[w], true⟩
  | more {g w : List Byte} {sp : Byte} (hg : Blank g) (hw : Solid w) (hsp : isspace sp = true)
    (s : List Byte) : Shape (g ++ w ++ sp :: s) ⟨w :: (lineText [] s).operands, (lineText [] s).cut⟩

section Shape

variable {s word g : List Byte} {c : Byte}

lemma lineText_blank (hc : isspace c = true) (hnl : c ≠ newline) : lineText [] (c :: s) = lineText [] s := by
  have hsemi : c ≠ semicolon := by
    rintro rfl
    exact absurd hc (by decide)
  rw [lineText, if_neg hsemi, if_neg (fun h => hnl h.1), if_pos hc]
  rfl

lemma Solid.concat (hword : ∀ d ∈ word, isspace d = false ∧ d ≠ semicolon) (hc : isspace c = false)
    (hsemi : c ≠ semicolon) : Solid (word ++ [c]) := by
  refine ⟨by simp, fun d hd => ?_⟩
  rcases List.mem_append.mp hd with hd | hd
  · exact hword d hd
  · obtain rfl := List.mem_singleton.mp hd
    exact ⟨hc, hsemi⟩

lemma lineText_solid (hg : Blank g) (hword : Solid word) (s : List Byte) :
    LineText.Shape (g ++ word ++ s) (lineText word s) := by
  have hended : ended word = [word] := if_neg hword.1
  induction s generalizing word with
  | nil =>
    rw [lineText, hended, List.append_nil]
    exact .last hg hword
  | cons c s ih =>
    rw [lineText, hended, if_neg (fun h : c = newline ∧ word = [] => hword.1 h.2)]
    split_ifs with hsemi hsp
    · rw [hsemi, decide_eq_true hword.1]
      exact .comment hg hword s
    · exact .more hg hword hsp s
    · have hnext : Solid (word ++ [c]) := .concat hword.2 (by simpa using hsp) hsemi
      have hshape := ih hnext (if_neg hnext.1)
      rwa [← List.append_assoc, List.append_assoc, List.singleton_append] at hshape

lemma lineText_shape (s : List Byte) (hg : Blank g) : LineText.Shape (g ++ s) (lineText [] s) := by
  induction s generalizing g with
  | nil => exact .empty
  | cons c s ih =>
    by_cases hsemi : c = semicolon
    · rw [lineText, if_pos hsemi]
      exact .empty
    by_cases hnl : c = newline
    · rw [lineText, if_neg hsemi, if_pos ⟨hnl, rfl⟩]
      exact .empty
    by_cases hsp : isspace c = true
    · rw [lineText_blank hsp hnl]
      have hmore : Blank (g ++ [c]) := by
        intro d hd
        rcases List.mem_append.mp hd with hd | hd
        · exact hg d hd
        · obtain rfl := List.mem_singleton.mp hd
          exact ⟨hsp, hnl⟩
      simpa using ih hmore
    · have hfirst : lineText [] (c :: s) = lineText [c] s := by
        rw [lineText, if_neg hsemi, if_neg (fun h => hnl h.1), if_neg hsp]
        rfl
      have hsolid : Solid ([] ++ [c]) := .concat (by simp) (by simpa using hsp) hsemi
      rw [hfirst]
      simpa using lineText_solid hg hsolid s

end Shape

section Scan

variable {s r g w : List Byte} {toks ops : List (List Byte)} {n : ℕ}

lemma skipBlank_word (hg : Blank g) (hw : IsWord w) (s : List Byte) :
    skipBlank (g ++ w ++ s) = .done false (w ++ s) := by
  obtain ⟨c, u, rfl, hc, -⟩ := hw.cons
  rw [List.append_assoc]
  exact skipBlank_back hg hc.1 hc.2.2.2.1

lemma modeAfter_arg (hw : IsWord w) : modeAfter argStep (.body []) w = some (.body w) := by
  have hstore : ∀ d ∈ w, ∀ l, argStep (.body l) d = .go (.body (l ++ [d])) := by
    intro d hd l
    obtain ⟨hspace, -, hsemi, -⟩ := hw.ordinary d hd
    simp [argStep, hspace, hsemi]
  exact modeAfter_store hstore []

lemma readArg_awaits (hw : IsWord w) : readArg w = .await .argsBody := by
  have hscan : readArg (w ++ []) = scan ArgMode.place argStep (.body w) [] := scan_append (modeAfter_arg hw)
  rwa [List.append_nil] at hscan

lemma comment_done {a : Option (List Byte)} (h : scan ArgMode.place argStep .comment s = .done a r) :
    a = none := by
  induction s with
  | nil => cases h
  | cons c s ih =>
    by_cases hc : c = newline
    · have hstop : argStep .comment c = .stop none := if_pos hc
      rw [scan_stop hstop] at h
      cases h
      rfl
    · have hgo : argStep .comment c = .go .comment := if_neg hc
      rw [scan_go hgo] at h
      exact ih h

lemma readArg_cut {a : Option (List Byte)} (hw : IsWord w) (h : readArg (w ++ semicolon :: s) = .done a r) :
    a = none := by
  have hgo : argStep (.body w) semicolon = .go .comment := rfl
  rw [readArg, scan_append (modeAfter_arg hw), scan_go hgo] at h
  exact comment_done h

lemma readTokensFrom_parses (h : readTokensFrom (n + 1) toks w s = .done ops r) :
    parseArg w = .ok (argValue w) := by
  rw [readTokensFrom] at h
  rw [argValue]
  cases hp : parseArg w with
  | error e =>
    rw [hp] at h
    cases h
  | ok v => rfl

lemma readTokensFrom_cases (h : readTokensFrom (n + 1) toks w s = .done ops r) : ops = toks ++ [w] ∨
    ∃ a m, readTokensFrom n (toks ++ [w]) a m = .done ops r := by
  rw [readTokensFrom, readTokensFrom_parses h] at h
  obtain ⟨eol, m, -, h⟩ := bind_eq_done.mp h
  cases eol with
  | true =>
    cases h
    exact .inl rfl
  | false =>
    obtain ⟨a, m', -, h⟩ := bind_eq_done.mp h
    cases a with
    | none =>
      cases h
      exact .inl rfl
    | some a => exact .inr ⟨a, m', h⟩

lemma readTokensFrom_prefix (h : readTokensFrom (n + 1) toks w s = .done ops r) :
    ∃ more, ops = toks ++ w :: more := by
  induction n generalizing toks w s with
  | zero =>
    rcases readTokensFrom_cases h with rfl | ⟨a, m, h⟩
    · exact ⟨[], rfl⟩
    · cases h
      exact ⟨[], rfl⟩
  | succ n ih =>
    rcases readTokensFrom_cases h with rfl | ⟨a, m, h⟩
    · exact ⟨[], rfl⟩
    · obtain ⟨more, rfl⟩ := ih h
      exact ⟨a :: more, by simp⟩

lemma LineText.Shape.not_cut {l : LineText} (h : LineText.Shape s l) (hnil : l.operands = []) :
    l.cut = false := by
  cases h with
  | empty => rfl
  | last => cases hnil
  | comment => cases hnil
  | more => cases hnil

lemma lineText_shape_self (s : List Byte) : LineText.Shape s (lineText [] s) := by
  have hg : Blank [] := by simp [Blank]
  simpa using lineText_shape s hg

def LineText.Taken (n : ℕ) (l : LineText) (more : List (List Byte)) : Prop :=
  ∀ i < n, ∀ w, l.operands[i]? = some w → (∀ u ∈ l.operands.take (i + 1), IsWord u) →
    if l.cut = true ∧ i + 1 = l.operands.length then more[i]? = none else more[i]? = some w

lemma LineText.Taken.cons {l : LineText} {more : List (List Byte)} (h : l.Taken n more)
    (hcut : l.operands = [] → l.cut = false) (w : List Byte) :
    LineText.Taken (n + 1) ⟨w :: l.operands, l.cut⟩ (w :: more) := by
  intro i hi u hu hwords
  cases i with
  | zero =>
    rw [if_neg]
    · exact hu
    · rintro ⟨htrue, hlen⟩
      have hnil : l.operands = [] := List.eq_nil_of_length_eq_zero (by simpa using hlen.symm)
      rw [hcut hnil] at htrue
      cases htrue
  | succ i =>
    have hrest := h i (by omega) u hu (fun v hv => hwords v (List.mem_cons_of_mem _ hv))
    simpa using hrest

lemma readTokensFrom_taken {more : List (List Byte)}
    (h : readTokensFrom (n + 1) toks w s = .done (toks ++ w :: more) r) : (lineText [] s).Taken n more := by
  induction n generalizing toks w s more with
  | zero => exact fun i hi => absurd hi (Nat.not_lt_zero i)
  | succ n ih =>
    have hparse := readTokensFrom_parses h
    have hshape := lineText_shape_self s
    generalize lineText [] s = l at hshape ⊢
    intro i hi u hu hwords
    have hfirst (v : List Byte) (hv : l.operands.head? = some v) : IsWord v := by
      obtain ⟨k, hk⟩ := List.head?_eq_some_iff.mp hv
      exact hwords v (by simp [hk])
    -- a word up to a blank is the next to be handed over
    have hword {g v y : List Byte} {sp : Byte} (hs : s = g ++ v ++ sp :: y) (hg : Blank g) (hv : IsWord v)
        (hsp : isspace sp = true) : ∃ more', more = v :: more' ∧ (lineText [] y).Taken n more' := by
      rw [hs, readTokensFrom_word hparse hg hv hsp] at h
      obtain ⟨more', hmore⟩ := readTokensFrom_prefix h
      have heq : more = v :: more' := by simpa using hmore
      rw [hmore] at h
      exact ⟨more', heq, ih h⟩
    cases hshape with
    | empty => cases hu
    | @last g v hg hv =>
      have hv' := hfirst v rfl
      have hskip := skipBlank_word hg hv' []
      rw [List.append_nil, List.append_nil] at hskip
      rw [readTokensFrom, hparse] at h
      dsimp only at h
      rw [bind_done hskip, if_neg Bool.false_ne_true, bind_await (readArg_awaits hv')] at h
      cases h
    | @comment g v hg hv y =>
      have hv' := hfirst v rfl
      rw [readTokensFrom, hparse] at h
      dsimp only at h
      rw [bind_done (skipBlank_word hg hv' _), if_neg Bool.false_ne_true] at h
      obtain ⟨a, m, harg, h⟩ := bind_eq_done.mp h
      obtain rfl := readArg_cut hv' harg
      have hnil : more = [] := by
        have hpair : toks ++ [w] = toks ++ w :: more ∧ m = r := by simpa using h
        simpa using hpair.1.symm
      have hi0 : i = 0 := by
        have hlt := (List.getElem?_eq_some_iff.mp hu).1
        simpa using hlt
      rw [hnil, hi0, if_pos ⟨rfl, rfl⟩]
      rfl
    | @more g v sp hg hv hsp y =>
      obtain ⟨more', rfl, htaken⟩ := hword rfl hg (hfirst v rfl) hsp
      exact htaken.cons (lineText_shape_self y).not_cut v i hi u hu hwords

lemma nextStep_prefix {x : List Byte} :
    (scan NextMode.place nextStep (.body w) s = .done x r → ∃ t, x = w ++ t) ∧
      (scan NextMode.place nextStep (.quote w) s = .done x r → ∃ t, x = w ++ t) := by
  induction s generalizing w with
  | nil => constructor <;> · intro h; cases h
  | cons c s ih =>
    have hlonger (h : ∃ t, x = w ++ [c] ++ t) : ∃ t, x = w ++ t := by
      obtain ⟨t, rfl⟩ := h
      exact ⟨c :: t, by simp⟩
    refine ⟨fun h => ?_, fun h => ?_⟩
    · by_cases hsp : isspace c = true
      · have hstop : nextStep (.body w) c = .stop w := if_pos hsp
        rw [scan_stop hstop] at h
        cases h
        exact ⟨[], by simp⟩
      by_cases heof : c = eof
      · have hexit : nextStep (.body w) c = .exit .unexpectedEof := by
          rw [nextStep, if_neg hsp, if_pos heof]
        rw [scan_exit hexit] at h
        cases h
      by_cases hquote : c = quote
      · have hgo : nextStep (.body w) c = .go (.quote (w ++ [c])) := by
          rw [nextStep, if_neg hsp, if_neg heof, if_pos hquote]
        rw [scan_go hgo] at h
        exact hlonger (ih.2 h)
      · have hgo : nextStep (.body w) c = .go (.body (w ++ [c])) := by
          rw [nextStep, if_neg hsp, if_neg heof, if_neg hquote]
        rw [scan_go hgo] at h
        exact hlonger (ih.1 h)
    · by_cases hquote : c = quote
      · have hgo : nextStep (.quote w) c = .go (.body w) := if_pos hquote
        rw [scan_go hgo] at h
        exact ih.1 h
      · have hgo : nextStep (.quote w) c = .go (.quote (w ++ [c])) := if_neg hquote
        rw [scan_go hgo] at h
        exact hlonger (ih.2 h)

lemma modeAfter_next {c : Byte} {u : List Byte} (hw : IsWord (c :: u)) :
    modeAfter nextStep (.body [c]) u = some (.body (c :: u)) := by
  have hstore : ∀ d ∈ u, ∀ l, nextStep (.body l) d = .go (.body (l ++ [d])) := by
    intro d hd l
    obtain ⟨hspace, hquote, -, heof, -⟩ := hw.ordinary d (List.mem_cons_of_mem _ hd)
    simp [nextStep, hspace, hquote, heof]
  exact modeAfter_store hstore [c]

lemma readNext_cut {x : List Byte} (hg : Blank g) (hw : IsWord w)
    (h : readNext (g ++ w ++ semicolon :: s) = .done x r) : ∃ t, x = w ++ semicolon :: t := by
  obtain ⟨c, u, rfl, hc, -⟩ := hw.cons
  have hfirst : readChar true (g ++ (c :: u) ++ semicolon :: s) = .done c (u ++ semicolon :: s) := by
    rw [List.append_assoc]
    exact readChar_first hg.space hc.1 hc.2.2.1
  have hgo : nextStep (.body (c :: u)) semicolon = .go (.body (c :: u ++ [semicolon])) := rfl
  rw [readNext, bind_done hfirst, scan_append (modeAfter_next hw), scan_go hgo] at h
  obtain ⟨t, rfl⟩ := nextStep_prefix.1 h
  exact ⟨t, by simp⟩

lemma readNext_awaits (hg : Blank g) (hw : IsWord w) : readNext (g ++ w) = .await .nextBody := by
  obtain ⟨c, u, rfl, hc, -⟩ := hw.cons
  have hfirst : readChar true (g ++ c :: u) = .done c u := readChar_first hg.space hc.1 hc.2.2.1
  have hscan : scan NextMode.place nextStep (.body [c]) (u ++ []) =
      scan NextMode.place nextStep (.body (c :: u)) [] := scan_append (modeAfter_next hw)
  rw [List.append_nil] at hscan
  rw [readNext, bind_done hfirst, hscan]
  rfl

lemma readChar_stops {mode : CharMode} {c : Byte} (h : scan CharMode.place (charStep true) mode s = .done c r) :
    isspace c = false ∧ c ≠ semicolon := by
  induction s generalizing mode with
  | nil => cases h
  | cons d s ih =>
    cases mode with
    | comment =>
      have hgo : ∃ mode, charStep true .comment d = .go mode := by
        by_cases hnl : d = newline
        · exact ⟨.blank, if_pos hnl⟩
        · exact ⟨.comment, if_neg hnl⟩
      obtain ⟨mode, hgo⟩ := hgo
      rw [scan_go hgo] at h
      exact ih h
    | blank =>
      by_cases hsp : isspace d = true
      · have hgo : charStep true .blank d = .go .blank := by simp [charStep, hsp]
        rw [scan_go hgo] at h
        exact ih h
      by_cases hsemi : d = semicolon
      · have hgo : charStep true .blank d = .go .comment := by
          rw [hsemi]
          rfl
        rw [scan_go hgo] at h
        exact ih h
      have hstop : charStep true .blank d = .stop d := by simp [charStep, hsp, hsemi]
      rw [scan_stop hstop] at h
      cases h
      exact ⟨by simpa using hsp, hsemi⟩

inductive LineText.Read : LineText → List (List Byte) → Prop
  | none {l : LineText} {ops : List (List Byte)} (h : ∀ w, l.operands.head? = some w → ¬ IsWord w) :
    Read l ops
  | cut {w : List Byte} (t : List Byte) (ops : List (List Byte)) :
    Read ⟨[w], true⟩ ((w ++ semicolon :: t) :: ops)
  | taken {l : LineText} {ops : List (List Byte)} (hcut : l.cut = true → 1 < l.operands.length)
    (h : l.Taken 3 ops) : Read l ops

lemma readTokens_read (h : readTokens s = .done ops r) : (operandsAt s).Read ops := by
  rw [readTokens] at h
  obtain ⟨v, m, hnext, h⟩ := bind_eq_done.mp h
  obtain ⟨c, t, hchar, -⟩ := bind_eq_done.mp hnext
  obtain ⟨hsp, hsemi⟩ := readChar_stops hchar
  have hg : Blank [] := by simp [Blank]
  have hskip : readNext (c :: t) = .done v m := by
    have hself : readChar true (c :: t) = .done c t := readChar_first hg.space hsp hsemi
    rw [readNext, bind_done hself, ← hnext, readNext, bind_done hchar]
  have hsolid : Solid ([] ++ [c]) := .concat (by simp) hsp hsemi
  have hshape : LineText.Shape (c :: t) (lineText [c] t) := by simpa using lineText_solid hg hsolid t
  have hat : operandsAt s = lineText [c] t := by rw [operandsAt, hchar]
  rw [hat]
  generalize c :: t = u at hskip hshape
  generalize lineText [c] t = l at hshape ⊢
  by_cases hword : ∃ w, l.operands.head? = some w ∧ IsWord w
  · obtain ⟨w, hhead, hw⟩ := hword
    cases hshape with
    | empty => cases hhead
    | last hg' hw' =>
      cases hhead
      rw [readNext_awaits hg' hw] at hskip
      cases hskip
    | comment hg' hw' y =>
      cases hhead
      obtain ⟨t', rfl⟩ := readNext_cut hg' hw hskip
      obtain ⟨more, rfl⟩ := readTokensFrom_prefix h
      exact .cut t' more
    | more hg' hw' hsp' y =>
      cases hhead
      rw [readNext_word hg'.space hw hsp'] at hskip
      cases hskip
      obtain ⟨more, rfl⟩ := readTokensFrom_prefix h
      change readTokensFrom 3 [] _ _ = .done ([] ++ _ :: more) r at h
      refine .taken (fun hcut => ?_) ((readTokensFrom_taken h).cons (lineText_shape_self _).not_cut _)
      have hne : (lineText [] m).operands ≠ [] := fun hnil => by
        rw [(lineText_shape_self m).not_cut hnil] at hcut
        cases hcut
      simpa [List.length_pos_iff] using hne
  · exact .none fun w hhead hw => hword ⟨w, hhead, hw⟩

end Scan

section Value

variable {s r : List Byte} {ops : List (List Byte)} {o : OpCode} {l : LineText} {i : ℕ} {f : Field}
  {d : Operand}

/-- Behind the first operand, a word that a semicolon follows at once is not stored. -/
def LineText.Drops (l : LineText) (i : ℕ) : Prop := l.cut = true ∧ i + 1 = l.operands.length ∧ 0 < i

instance (l : LineText) (i : ℕ) : Decidable (l.Drops i) := by
  unfold LineText.Drops
  infer_instance

def LineText.value (l : LineText) (i : ℕ) (operand : List Byte) : BitVec 32 :=
  if l.Drops i then -1 else argValue operand

lemma LineText.Read.value_eq (h : l.Read ops) (hi : i < 3) (hd : d.WrittenFor f)
    (hop : l.operands[i]? = some d.text) (hwords : ∀ u ∈ l.operands.take (i + 1), IsWord u) :
    (ops.map argValue).getD i (-1) = l.value i d.text := by
  cases h with
  | none h =>
    cases hl : l.operands with
    | nil =>
      rw [hl] at hop
      cases hop
    | cons w ws =>
      have hw : IsWord w := hwords w (by simp [hl])
      exact absurd hw (h w (by rw [hl]; rfl))
  | @cut w t ops =>
    obtain rfl : i = 0 := by
      have hlt := (List.getElem?_eq_some_iff.mp hop).1
      simpa using hlt
    obtain rfl : w = d.text := by simpa using hop
    have hvalue : argValue (d.text ++ semicolon :: t) = argValue d.text :=
      argValue_text hd (fun c hc => (Option.some.inj hc).symm)
    rw [LineText.value, if_neg (fun h => absurd h.2.2 (lt_irrefl 0)), ← hvalue]
    rfl
  | taken hcut htaken =>
    have hmore := htaken i hi d.text hop hwords
    by_cases hlast : l.cut = true ∧ i + 1 = l.operands.length
    · have hpos : 0 < i := by
        have := hcut hlast.1
        omega
      rw [if_pos hlast] at hmore
      rw [LineText.value, if_pos ⟨hlast.1, hlast.2, hpos⟩]
      simp [List.getD_eq_getElem?_getD, hmore]
    · rw [if_neg hlast] at hmore
      rw [LineText.value, if_neg (fun h => hlast ⟨h.1, h.2.1⟩)]
      simp [List.getD_eq_getElem?_getD, hmore]

def Operand.Missing (d : Operand) (o : OpCode) (f : Field) : Prop :=
  if d.const then d.number + 257 = 2 ^ f.width else f ∉ o.rkFields ∧ d.number + 1 = 2 ^ f.width

instance (d : Operand) (o : OpCode) (f : Field) : Decidable (d.Missing o f) := by
  unfold Operand.Missing
  infer_instance

lemma field_behind (hf : o.fields[i]? = some f) (hi : 0 < i) : f = .B ∨ f = .C ∨ f = .Bx := by
  have hall : ∀ o : OpCode, ∀ f ∈ o.fields.tail, f = .B ∨ f = .C ∨ f = .Bx := by
    intro o
    cases o <;> decide
  apply hall o
  obtain ⟨n, rfl⟩ : ∃ n, i = n + 1 := ⟨i - 1, by omega⟩
  rw [← List.getElem?_tail] at hf
  exact List.mem_of_getElem? hf

lemma fields_length (o : OpCode) : o.fields.length ≤ 3 := by cases o <;> decide

lemma readFrom_iff_missing (hf : f = .B ∨ f = .C ∨ f = .Bx) :
    d.ReadFrom o f (f.stored (-1)) ↔ d.Missing o f := by
  have hB : (Field.B.stored (-1)).toNat = 511 ∧ (Field.B.stored (-1)).toInt = 511 := by decide
  have hC : (Field.C.stored (-1)).toNat = 511 ∧ (Field.C.stored (-1)).toInt = 511 := by decide
  have hBx : (Field.Bx.stored (-1)).toNat = 262143 ∧ (Field.Bx.stored (-1)).toInt = 262143 := by decide
  rw [Operand.ReadFrom, Operand.Missing, selects_iff]
  rcases hf with rfl | rfl | rfl
  · rw [hB.1, hB.2]
    cases d.const <;> by_cases hrk : Field.B ∈ o.rkFields <;> simp [hrk, Field.width] <;> omega
  · rw [hC.1, hC.2]
    cases d.const <;> by_cases hrk : Field.C ∈ o.rkFields <;> simp [hrk, Field.width] <;> omega
  · rw [hBx.1, hBx.2]
    cases d.const <;> by_cases hrk : Field.Bx ∈ o.rkFields <;> simp [hrk, Field.width] <;> omega

/-- Every operand of a field is a numeral, and the VM takes this number from the word. -/
def LineText.Faithful (l : LineText) (o : OpCode) (word : Inst) : Prop :=
  ∀ (i : ℕ) (f : Field) (operand : List Byte), o.fields[i]? = some f → l.operands[i]? = some operand →
    ∃ d : Operand, d.WrittenFor f ∧ d.text = operand ∧ d.ReadFrom o f (f.get word)

def LineText.Fits (l : LineText) (o : OpCode) : Prop :=
  ∀ (i : ℕ) (f : Field) (operand : List Byte), o.fields[i]? = some f → l.operands[i]? = some operand →
    ∃ d : Operand, d.WrittenFor f ∧ d.text = operand ∧ if l.Drops i then d.Missing o f else d.Fits o f

lemma readFrom_value_iff (hf : o.fields[i]? = some f) (hd : d.WrittenFor f) :
    d.ReadFrom o f (f.stored (l.value i d.text)) ↔ if l.Drops i then d.Missing o f else d.Fits o f := by
  rw [LineText.value]
  split_ifs with hdrop
  · exact readFrom_iff_missing (field_behind hf hdrop.2.2)
  · exact readFrom_iff_fits hd o

lemma words_upTo {P : ℕ → Field → Operand → Prop} (hf : o.fields[i]? = some f)
    (h : ∀ (i : ℕ) (f : Field) (operand : List Byte), o.fields[i]? = some f →
      l.operands[i]? = some operand → ∃ d : Operand, d.WrittenFor f ∧ d.text = operand ∧ P i f d) :
    ∀ u ∈ l.operands.take (i + 1), IsWord u := by
  intro u hu
  obtain ⟨j, hj, rfl⟩ := List.mem_take_iff_getElem.mp hu
  have hlen := (List.getElem?_eq_some_iff.mp hf).1
  have hlt : j < o.fields.length := by omega
  obtain ⟨d, hd, htext, -⟩ := h j _ _ (List.getElem?_eq_getElem hlt) (List.getElem?_eq_getElem (by omega))
  rw [← htext]
  exact Operand.text_isWord hd

lemma CodeLine.get_written {line : CodeLine} (h : codeLine s = .done (some line) r)
    (hf : line.op.fields[i]? = some f) (hd : d.WrittenFor f) (hop : (lineOperands s).operands[i]? = some d.text)
    (hwords : ∀ u ∈ (lineOperands s).operands.take (i + 1), IsWord u) :
    f.get line.word = f.stored ((lineOperands s).value i d.text) := by
  rw [codeLine] at h
  obtain ⟨string, t, hnext, h⟩ := bind_eq_done.mp h
  rw [lineOperands, hnext] at hop hwords ⊢
  dsimp only at hop hwords ⊢
  by_cases hclose : cstr string = bytes "<CODE"
  · rw [if_pos hclose] at h
    cases h
  rw [if_neg hclose] at h
  cases ho : OpCode.named (cstr string) with
  | none =>
    rw [ho] at h
    cases h
  | some o =>
    rw [ho] at h
    obtain ⟨ops, m, htoks, h⟩ := bind_eq_done.mp h
    cases h
    have hi : i < 3 := lt_of_lt_of_le (List.getElem?_eq_some_iff.mp hf).1 (fields_length o)
    rw [CodeLine.word, get_assemble o _ i f hf, (readTokens_read htoks).value_eq hi hd hop hwords]

lemma faithful_iff_fits {line : CodeLine} (h : codeLine s = .done (some line) r) :
    (lineOperands s).Faithful line.op line.word ↔ (lineOperands s).Fits line.op := by
  constructor
  · intro hread i f operand hf hop
    have hwords := words_upTo hf hread
    obtain ⟨d, hd, rfl, hvm⟩ := hread i f operand hf hop
    rw [CodeLine.get_written h hf hd hop hwords] at hvm
    exact ⟨d, hd, rfl, (readFrom_value_iff hf hd).mp hvm⟩
  · intro hfits i f operand hf hop
    have hwords := words_upTo hf hfits
    obtain ⟨d, hd, rfl, hfit⟩ := hfits i f operand hf hop
    refine ⟨d, hd, rfl, ?_⟩
    rw [CodeLine.get_written h hf hd hop hwords]
    exact (readFrom_value_iff hf hd).mpr hfit

theorem codeRound_faithful_iff {line : CodeLine} (h : codeLine s = .done (some line) r) :
    ∃ word, (∀ loop b, codeRound loop b s = loop (b.pushInstruction word) r) ∧
      ((lineOperands s).Faithful line.op word ↔ (lineOperands s).Fits line.op) :=
  ⟨line.word, codeRound_line h, faithful_iff_fits h⟩

theorem codeRound_faithful_iff_add :
    lineOperands (bytes "add 0 1K 2 ; sum\n") = ⟨[bytes "0", bytes "1K", bytes "2"], false⟩ ∧ ∃ r word,
      (∀ loop b, codeRound loop b (bytes "add 0 1K 2 ; sum\n") = loop (b.pushInstruction word) r) ∧
      ((lineOperands (bytes "add 0 1K 2 ; sum\n")).Faithful .add word ↔
        (lineOperands (bytes "add 0 1K 2 ; sum\n")).Fits .add) := by
  have hline : (codeLine (bytes "add 0 1K 2 ; sum\n")).value? =
      some (some ⟨.add, [bytes "0", bytes "1K", bytes "2"]⟩) := by decide +kernel
  obtain ⟨r, hr⟩ := Outcome.done_of_value hline
  exact ⟨by decide +kernel, r, codeRound_faithful_iff hr⟩

lemma LineText.not_faithful {word : Inst} {n : List Byte} (hf : o.fields[i]? = some f) (hsBx : f ≠ .sBx)
    (hrk : f ∉ o.rkFields) (hop : l.operands[i]? = some n) (hn : n.all isdigit = true)
    (hne : (f.get word).toInt ≠ digitsValue n) : ¬ l.Faithful o word := by
  intro h
  obtain ⟨d, hd, htext, hread⟩ := h i f n hf hop
  obtain ⟨hs, hnum⟩ := number_of_not_sBx hd hsBx
  have hc : d.const = false := by
    cases hc : d.const with
    | false => rfl
    | true =>
      have hk : letterK ∈ n := by
        rw [← htext, Operand.text, hc]
        simp
      exact absurd (List.all_eq_true.mp hn _ hk) (by decide)
  have hdigits : d.digits = n := by simpa [Operand.text, hs, hc] using htext
  rw [Operand.ReadFrom, if_neg (by simp [hc, hrk]), hnum, hdigits] at hread
  exact hne hread

theorem compileCode_truncates : ∃ b r move loadk,
    compileCode (Block.new default) (bytes ">CODE\nmove 300 1 \nloadk 0 1;c\n<CODE\n") = .done b r ∧
    b.code = [move, loadk] ∧ getA move = 44 ∧ getBx loadk = 262143 ∧
    ¬ (lineOperands (bytes "move 300 1 \n")).Faithful .move move ∧
    ¬ (lineOperands (bytes "loadk 0 1;c\n")).Faithful .loadk loadk := by
  let move := assemble .move [300, 1]
  let loadk := assemble .loadk [0]
  have hcode : (compileCode (Block.new default) (bytes ">CODE\nmove 300 1 \nloadk 0 1;c\n<CODE\n")).value?.map
      Block.code = some [move, loadk] := by decide +kernel
  obtain ⟨b, hb, hwords⟩ := Option.map_eq_some_iff.mp hcode
  obtain ⟨r, hr⟩ := Outcome.done_of_value hb
  have hmove : (lineOperands (bytes "move 300 1 \n")).operands[0]? = some (bytes "300") := by decide +kernel
  have hloadk : (lineOperands (bytes "loadk 0 1;c\n")).operands[1]? = some (bytes "1") := by decide +kernel
  refine ⟨b, r, move, loadk, hr, hwords, by decide, by decide, ?_, ?_⟩
  · exact LineText.not_faithful (f := .A) rfl (by decide) (by decide) hmove (by decide) (by decide +kernel)
  · exact LineText.not_faithful (f := .Bx) rfl (by decide) (by decide) hloadk (by decide) (by decide +kernel)

end Value

end Bijou
