import Bijou.Buffers

namespace Bijou

open CString Incremental

inductive Lexeme where
  | code
  | string
  | comment
  deriving DecidableEq

def lexStep : Lexeme → Byte → Lexeme
  | .code, c => if c = semicolon then .comment else if c = quote then .string else .code
  | .string, c => if c = quote then .code else .string
  | .comment, c => if c = newline then .code else .comment

def lexeme (s : List Byte) : Lexeme := s.foldl lexStep .code

def uncomment : Lexeme → List Byte → List Byte
  | _, [] => []
  | l, c :: s =>
    if lexStep l c = .comment then uncomment .comment s else c :: uncomment (lexStep l c) s

/-- Lines that compile_const makes the same of, or that it rejects both. -/
inductive ConstLine.Alike : ConstLine → ConstLine → Prop
  | refl (x : ConstLine) : Alike x x
  | string {text text' : List Byte} (h : CStr.at text = CStr.at text') : Alike (.string text) (.string text')
  | bad (e e' : CompileError) : Alike (.bad e) (.bad e')

/-- Where a comment with this text can start without being seen as anything else. At the start of a
line of constants the whole line has to be read as a comment; after an entry, cutting off the
character before the semicolon must not change the entry, and without the comment the line must have
room for its NUL. -/
def Place.Clear (a : Allocator) (text : List Byte) : Place → Prop
  | charBlank | charComment | expectBody | argsBlank | argsComment | lineComment => True
  | lineBlank => ∃ line,
    Buffered.readLine a (semicolon :: (text ++ [newline])) = .done line [] ∧ line.head? = some semicolon
  | lineBody string => a.Spare string.length ∧ ∀ behind,
    (constLine (string.dropLast ++ [0] ++ behind)).Alike (constLine (string ++ [0] ++ behind))
  | nextBody | nextQuote | argsBody | lineQuote => False

section Delete

variable {a : Allocator} {text rest : List Byte}

lemma scan_comment {τ ε α : Type} {place : τ → Place} {step : τ → Byte → Verdict τ ε α} {t : τ}
    (ht : newline ∉ text) (h : ∀ c, c ≠ newline → step t c = .go t) (s : List Byte) :
    scan place step t (text ++ s) = scan place step t s :=
  scan_append (modeAfter_stay (fun c hc => h c (fun hn => ht (hn ▸ hc))))

abbrev Skips (a : Allocator) (text rest : List Byte) {ε : Type} (mild : ε → Prop) {α : Type}
    (p : Reader Byte Place ε α) (s : List Byte) : Prop :=
  Interchanges Place.Blind (Place.Clear a text) mild (semicolon :: (text ++ newline :: rest))
    (newline :: rest) p s

lemma skips_compositional {ε : Type} (mild : ε → Prop) : Compositional (fun _ => Skips a text rest mild) :=
  interchanges_compositional _ _ _ _ _

lemma Skips.lifted {α : Type} {p : Scan α} {s : List Byte} (h : Skips a text rest (fun _ => True) p s) :
    Skips a text rest Fault.Mild (lift Fault.error p) s := h.lift (fun _ _ => trivial)

lemma constLine_comment {line behind : List Byte} (h : line.head? = some semicolon) :
    constLine (line ++ behind) = .comment := by
  obtain ⟨l, rfl⟩ := List.head?_eq_some_iff.mp h
  have hne : cstr (semicolon :: l ++ behind) ≠ bytes "<CONST" := by
    have hc : cstr (semicolon :: l ++ behind) = semicolon :: cstr (l ++ behind) := rfl
    rw [hc]
    exact fun h => absurd (List.head_eq_of_cons_eq h) (by decide)
  rw [constLine, if_neg hne]
  exact if_pos rfl

lemma ConstLine.Alike.agrees {x y : ConstLine} (h : x.Alike y) (mem : Memory)
    (loop : ConstState → Buffered.Scan Block) (st : ConstState) (s : List Byte) :
    ((Scanners.buffered a).constEntry mem loop st x s).Agrees Place.Blind Fault.Mild
      ((Scanners.buffered a).constEntry mem loop st y s) := by
  cases h with
  | refl => exact .of_eq rfl
  | string h =>
    apply Outcome.Agrees.of_eq
    rw [Scanners.constEntry, Scanners.constEntry, h]
  | bad e e' => exact .rejects trivial trivial

lemma take_rejects {str l s : List Byte} {c d : Byte} {n : ℕ} (hn : str.length = n + 1)
    (hl : l.length < n) (hd : d ∉ str) :
    ((do
      let l ← take .expectBody n
      if cstr (c :: l) = str then pure () else fail (.expected str (c :: l)) : Scan Unit)
        (l ++ d :: s)).Rejects Place.Blind (fun _ => True) := by
  by_cases hlen : n ≤ (l ++ d :: s).length
  · have ht : (take .expectBody n : Scan (List Byte)) (l ++ d :: s) =
        .done ((l ++ d :: s).take n) ((l ++ d :: s).drop n) := if_pos hlen
    have hmem : d ∈ (l ++ d :: s).take n := by
      rw [List.take_append]
      obtain ⟨k, hk⟩ : ∃ k, n - l.length = k + 1 := ⟨n - l.length - 1, by omega⟩
      simp [hk]
    have hne : cstr (c :: (l ++ d :: s).take n) ≠ str :=
      expect_mismatch hd (List.mem_cons_of_mem _ hmem) (by simp [hn])
    rw [bind_done ht, if_neg hne]
    trivial
  · have ht : (take .expectBody n : Scan (List Byte)) (l ++ d :: s) = .await .expectBody :=
      if_neg hlen
    rw [bind_await ht]
    exact id

lemma argComment_stays {c : Byte} (hc : c ≠ newline) :
    checked (ArgMode.inside a) Fault.error .overrun argStep .comment c = .go .comment :=
  checked_go (if_neg hc) rfl

lemma lineComment_stays {line : List Byte} {c : Byte} (hc : c ≠ newline) :
    checked (LineMode.inside a) Fault.error .overrun lineStep (.comment line) c = .go (.comment line) :=
  checked_go (if_neg hc) rfl

lemma readLine_after {s : List Byte} {t : LineMode}
    (h : modeAfter (checked (LineMode.inside a) Fault.error .overrun lineStep) .blank s = some t)
    (x : List Byte) : Buffered.readLine a (s ++ x) =
      scan LineMode.place (checked (LineMode.inside a) Fault.error .overrun lineStep) t x :=
  scan_append h

variable (ht : newline ∉ text)

include ht

lemma readChar_skips (s : List Byte) : Skips a text rest (fun _ => True) (readChar true) s := by
  apply scan_interchanges
  have hstay : ∀ c, c ≠ newline → charStep true .comment c = .go .comment := fun c hc => if_neg hc
  have hend : scan CharMode.place (charStep true) .comment (text ++ newline :: rest) =
      scan CharMode.place (charStep true) .blank rest :=
    (scan_comment ht hstay _).trans (scan_go rfl)
  intro t _
  have hopen : charStep true t semicolon = .go .comment := by cases t <;> rfl
  have hclose : charStep true t newline = .go .blank := by cases t <;> rfl
  rw [scan_go hopen, hend, scan_go hclose]

lemma expect_skips (str s : List Byte) (hsemi : semicolon ∉ str) (hnl : newline ∉ str) :
    Skips a text rest (fun _ => True) (expect str) s := by
  have hC : Compositional (fun _ => Skips a text rest (fun _ : CompileError => True)) := skips_compositional _
  unfold expect
  split
  · exact hC.pure _ _
  obtain ⟨n, hn⟩ : ∃ n, str.length = n + 1 :=
    Nat.exists_eq_succ_of_ne_zero (List.length_eq_zero_iff.not.mpr ‹_›)
  rw [forN_next, hn, Nat.add_sub_cancel]
  apply hC.bind (readChar_skips ht s)
  intro c r _
  refine (take_steady _ _ r).interchanges_bind ?_ ?_
  · intro q hq _
    have hlt := (take_await hq).2
    exact .rejects (take_rejects hn hlt hsemi) (take_rejects hn hlt hnl)
  · intro l m _
    split
    · exact hC.pure _ _
    · exact hC.fail _ _

lemma readNext_skips (s : List Byte) : Skips a text rest Fault.Mild (Buffered.readNext a) s := by
  apply (skips_compositional _).bind (readChar_skips ht s).lifted
  intro c r _
  apply scan_interchanges
  intro t hclear
  cases t <;> exact hclear.elim

lemma readArg_skips (s : List Byte) : Skips a text rest Fault.Mild (Buffered.readArg a) s := by
  apply scan_interchanges
  intro t hclear
  cases t with
  | body arg => exact hclear.elim
  | comment =>
    exact (scan_go (argComment_stays (by decide))).trans (scan_comment ht (fun _ => argComment_stays) _)

lemma readArgsFrom_skips (n : ℕ) (args : List (BitVec 32)) (arg s : List Byte) :
    Skips a text rest Fault.Mild (Buffered.readArgsFrom a n args arg) s := by
  have hC : Compositional (fun _ => Skips a text rest Fault.Mild) := skips_compositional _
  induction n generalizing args arg s with
  | zero => exact hC.pure _ _
  | succ n ih =>
    unfold Buffered.readArgsFrom
    cases parseArg arg with
    | error e => exact hC.fail _ _
    | ok v =>
      have hsteady : Steady (lift Fault.error skipBlank) s := (scan_steady _ s).lift
      refine hsteady.interchanges_bind ?_ ?_
      · intro q hq _
        obtain ⟨m, hm, -⟩ := modeAfter_of_await (lift_await.mp hq)
        have hskip : skipBlank (s ++ semicolon :: (text ++ newline :: rest)) =
            .done false (semicolon :: (text ++ newline :: rest)) :=
          (scan_append hm).trans (scan_back rfl)
        have hline : skipBlank (s ++ newline :: rest) = .done true rest :=
          (scan_append hm).trans (scan_stop rfl)
        have hopen : checked (ArgMode.inside a) Fault.error .overrun argStep (.body []) semicolon =
            .go .comment := checked_go rfl rfl
        have harg : Buffered.readArg a (semicolon :: (text ++ newline :: rest)) = .done none rest := by
          rw [Buffered.readArg, scan_go hopen, scan_comment ht (fun _ => argComment_stays)]
          exact scan_stop rfl
        rw [bind_done (lift_done.mpr hskip), bind_done (lift_done.mpr hline), if_neg Bool.false_ne_true,
          if_pos rfl, bind_done harg]
        exact .of_eq rfl
      · intro eol r _
        split
        · exact hC.pure _ _
        · apply hC.bind (readArg_skips ht r)
          intro arg' m _
          cases arg' with
          | none => exact hC.pure _ _
          | some arg' => exact ih _ _ _

lemma skips_tokenized : (Scanners.buffered a).Tokenized (fun _ => Skips a text rest Fault.Mild) where
  toCompositional := skips_compositional _
  expect str s h := (expect_skips ht str s
    ((by decide : ∀ str ∈ sectionWords, semicolon ∉ str) str h)
    ((by decide : ∀ str ∈ sectionWords, newline ∉ str) str h)).lifted
  readNext := readNext_skips ht
  readArgs s := (skips_compositional _).bind (readNext_skips ht s)
    (fun arg r _ => readArgsFrom_skips ht 3 [] arg r)
  pushChild := Buffered.pushChild_rule a (skips_compositional _)

variable (mem : Memory)

section Line

variable (st : ConstState) {s : List Byte}

omit ht in
/-- At the start of a line the comment is an entry of its own, after which the loop starts anew. -/
lemma constRound_skips_blank
    (h : modeAfter (checked (LineMode.inside a) Fault.error .overrun lineStep) .blank s = some .blank)
    (hclear : Place.lineBlank.Clear a text) :
    ((Scanners.buffered a).constRound mem ((Scanners.buffered a).constLoop mem) st
      (s ++ semicolon :: (text ++ newline :: rest))).Agrees Place.Blind Fault.Mild
    ((Scanners.buffered a).constRound mem ((Scanners.buffered a).constLoop mem) st (s ++ newline :: rest)) := by
  obtain ⟨line, hline, hhead⟩ := hclear
  have hx : Buffered.readLine a (s ++ semicolon :: (text ++ newline :: rest)) = .done line rest := by
    have hfull := (scan_steady _ _ : Steady (Buffered.readLine a) _).append_done hline rest
    rw [readLine_after h]
    simpa using hfull
  have hgo : checked (LineMode.inside a) Fault.error .overrun lineStep .blank newline = .go .blank :=
    checked_go rfl rfl
  have hy : Buffered.readLine a (s ++ newline :: rest) = Buffered.readLine a rest :=
    (readLine_after h _).trans (scan_go hgo)
  have hfix := Scanners.constLoop_eq mem (buffered_advances a) st
  apply Outcome.Agrees.of_eq
  calc _ = (Scanners.buffered a).constEntry mem ((Scanners.buffered a).constLoop mem) st
          (constLine (line ++ mem.line st.here)) rest := bind_done hx _
    _ = (Scanners.buffered a).constLoop mem st rest := by rw [constLine_comment hhead]; rfl
    _ = (Scanners.buffered a).constRound mem ((Scanners.buffered a).constLoop mem) st rest := by
      rw [← hfix]
    _ = _ := (bind_congr_left hy _).symm

lemma constRound_skips_body {string : List Byte}
    (h : modeAfter (checked (LineMode.inside a) Fault.error .overrun lineStep) .blank s =
      some (.body string))
    (hclear : (Place.lineBody string).Clear a text) (loop : ConstState → Buffered.Scan Block) :
    ((Scanners.buffered a).constRound mem loop st (s ++ semicolon :: (text ++ newline :: rest))).Agrees
      Place.Blind Fault.Mild ((Scanners.buffered a).constRound mem loop st (s ++ newline :: rest)) := by
  obtain ⟨hspare, halike⟩ := hclear
  have hopen : checked (LineMode.inside a) Fault.error .overrun lineStep (.body string) semicolon =
      .go (.comment (string.dropLast ++ [0])) := checked_go rfl rfl
  have hx : Buffered.readLine a (s ++ semicolon :: (text ++ newline :: rest)) =
      .done (string.dropLast ++ [0]) rest := by
    rw [readLine_after h, scan_go hopen, scan_comment ht (fun _ => lineComment_stays)]
    exact scan_stop rfl
  have hstop : checked (LineMode.inside a) Fault.error .overrun lineStep (.body string) newline =
      .stop (string ++ [0]) := by
    rw [checked, if_pos (by simpa [LineMode.inside] using hspare)]
    rfl
  have hy : Buffered.readLine a (s ++ newline :: rest) = .done (string ++ [0]) rest :=
    (readLine_after h _).trans (scan_stop hstop)
  change ((Buffered.readLine a >>= _) _).Agrees _ _ ((Buffered.readLine a >>= _) _)
  rw [bind_done hx, bind_done hy]
  exact (halike (mem.line st.here)).agrees mem _ st rest

end Line

lemma constRound_skips (st : ConstState) (s : List Byte)
    (hloop : ∀ st' s', s'.length < s.length →
      Skips a text rest Fault.Mild ((Scanners.buffered a).constLoop mem st') s') :
    Skips a text rest Fault.Mild
      ((Scanners.buffered a).constRound mem ((Scanners.buffered a).constLoop mem) st) s := by
  have hsteady : Steady (Buffered.readLine a) s := scan_steady _ s
  refine hsteady.interchanges_bind ?_ ?_
  · intro q hq hclear
    obtain ⟨t, hmode, rfl⟩ := modeAfter_of_await hq
    cases t with
    | blank => exact constRound_skips_blank mem st hmode hclear
    | body string => exact constRound_skips_body ht mem st hmode hclear _
    | quote string => exact hclear.elim
    | comment string =>
      have hsame : Buffered.readLine a (s ++ semicolon :: (text ++ newline :: rest)) =
          Buffered.readLine a (s ++ newline :: rest) := by
        rw [readLine_after hmode, readLine_after hmode, scan_go (lineComment_stays (by decide)),
          scan_comment ht (fun _ => lineComment_stays)]
      exact .of_eq (bind_congr_left hsame _)
  · intro string r hr
    have hlen := (buffered_advances a).readLine_eats s _ _ hr
    have hshrinks : ∀ path b s, Shrinks
        ((Scanners.buffered a).compileFunctionWith mem ((Scanners.buffered a).constLoop mem) path b) s :=
      fun path b s => Scanners.compileFunction_shrinks mem (buffered_advances a) path b s
    exact Scanners.constEntry_rule mem (buffered_advances a) (skips_tokenized ht) hshrinks st _ r
      (fun st' s' hs' => hloop st' s' (by omega))

lemma compileFunction_skips (path : Path) (b : Block) (s : List Byte) :
    Skips a text rest Fault.Mild ((Scanners.buffered a).compileFunction mem path b) s :=
  Scanners.compileFunctionWith_rule mem (buffered_advances a) (skips_tokenized ht) path b s
    (fun st s' _ => (Scanners.constRound_guarded mem (buffered_advances a)).fix_property
      (constRound_skips ht mem) st s')

end Delete

section Lexemes

variable {u text v : List Byte} {c : Byte} {l : Lexeme}

lemma lexeme_append : lexeme (u ++ v) = v.foldl lexStep (lexeme u) := List.foldl_append

lemma lexStep_comment (hl : l ≠ .comment) (h : lexStep l c = .comment) :
    l = .code ∧ c = semicolon := by
  cases l with
  | code =>
    refine ⟨rfl, ?_⟩
    by_contra hc
    rw [lexStep, if_neg hc] at h
    split at h <;> cases h
  | string =>
    rw [lexStep] at h
    split at h <;> cases h
  | comment => exact absurd rfl hl

lemma foldl_comment (ht : newline ∉ text) : text.foldl lexStep .comment = .comment := by
  induction text with
  | nil => rfl
  | cons c text ih =>
    obtain ⟨hc, ht⟩ := not_or.mp (List.mem_cons.not.mp ht)
    have hstep : lexStep .comment c = .comment := if_neg (fun h => hc h.symm)
    rw [List.foldl_cons, hstep]
    exact ih ht

lemma lexeme_comment (hu : lexeme u = .code) (ht : newline ∉ text) :
    lexeme (u ++ semicolon :: (text ++ [newline])) = .code := by
  have hsemi : lexStep .code semicolon = .comment := rfl
  rw [lexeme_append, hu, List.foldl_cons, hsemi, List.foldl_append, foldl_comment ht]
  rfl

lemma uncomment_comment (ht : newline ∉ text) :
    uncomment .comment (text ++ newline :: v) = newline :: uncomment .code v := by
  induction text with
  | nil => rfl
  | cons c text ih =>
    obtain ⟨hc, ht⟩ := not_or.mp (List.mem_cons.not.mp ht)
    have hstep : lexStep .comment c = .comment := if_neg (fun h => hc h.symm)
    rw [List.cons_append, uncomment, if_pos hstep]
    exact ih ht

lemma comment_split (h : newline ∈ v) : ∃ w, v = v.takeWhile (· != newline) ++ newline :: w ∧
    newline ∉ v.takeWhile (· != newline) := by
  have hnot : newline ∉ v.takeWhile (· != newline) := fun hmem => by
    simpa using List.mem_takeWhile_imp hmem
  refine ⟨(v.dropWhile (· != newline)).tail, ?_, hnot⟩
  have hdrop : v.dropWhile (· != newline) ≠ [] := by
    intro hnil
    have hall := List.dropWhile_eq_nil_iff.mp hnil newline h
    simp at hall
  have hhead : (v.dropWhile (· != newline)).head hdrop = newline := by
    simpa using List.head_dropWhile_not (· != newline) hdrop
  conv_lhs => rw [← List.takeWhile_append_dropWhile (p := (· != newline)) (l := v),
    ← List.cons_head_tail hdrop, hhead]

end Lexemes

section Uncomment

variable (a : Allocator) (mem : Memory) (path : Path) (b : Block)

def CommentsClear (file : List Byte) : Prop :=
  ∀ u v q, file = u ++ semicolon :: v → lexeme u = .code →
    (Scanners.buffered a).compileFunction mem path b u = .await q →
      newline ∈ v ∧ q.Clear a (v.takeWhile (· != newline))

variable {a mem path b}

lemma uncomment_sameEnd (v : List Byte) : ∀ (u : List Byte), lexeme u ≠ .comment →
    CommentsClear a mem path b (u ++ v) →
      SameEnd eof Fault.Mild ((Scanners.buffered a).compileFunction mem path b) (u ++ v)
        (u ++ uncomment (lexeme u) v) := by
  have hs := Scanners.compileFunction_rule mem (buffered_advances a) (buffered_steady a) path b
  have hr := Scanners.compileFunction_rule mem (buffered_advances a) (buffered_ends a) path b
  induction hn : v.length using Nat.strong_induction_on generalizing v with
  | _ n ih =>
    intro u hu hclear
    cases v with
    | nil => exact .refl _
    | cons c v =>
      by_cases hc : lexStep (lexeme u) c = .comment
      · obtain ⟨hcode, rfl⟩ := lexStep_comment hu hc
        by_cases hawait : ∃ q, (Scanners.buffered a).compileFunction mem path b u = .await q
        · -- the comment goes after all that follow it
          obtain ⟨q, hq⟩ := hawait
          obtain ⟨hnl, hplace⟩ := hclear u v q rfl hcode hq
          obtain ⟨w, hw, htext⟩ := comment_split hnl
          generalize v.takeWhile (· != newline) = text at hw htext hplace
          subst hw
          have hcomment := lexeme_comment hcode htext
          have hassoc (x : List Byte) : u ++ semicolon :: (text ++ newline :: x) =
              u ++ semicolon :: (text ++ [newline]) ++ x := by simp
          have hlater := ih w.length (by rw [← hn]; simp; omega) w rfl
            (u ++ semicolon :: (text ++ [newline])) (by rw [hcomment]; decide)
            (by rw [← hassoc]; exact hclear)
          rw [hcomment, ← hassoc, ← hassoc] at hlater
          refine hlater.trans ?_
          rw [uncomment, if_pos hc, uncomment_comment htext]
          exact ((compileFunction_skips htext mem path b u).2 q hq hplace).sameEnd hs hr
        · exact sameEnd_append hs (fun q hq => hawait ⟨q, hq⟩) _ _
      · have happ : lexeme (u ++ [c]) = lexStep (lexeme u) c := lexeme_append
        have hkeep := ih v.length (by rw [← hn]; simp) v rfl (u ++ [c]) (by rwa [happ])
          (by simpa using hclear)
        rw [uncomment, if_neg hc, ← happ]
        simpa using hkeep

theorem uncomment_transparent {file : List Byte} (h : CommentsClear a mem path b file) :
    SameEnd eof Fault.Mild ((Scanners.buffered a).compileFunction mem path b) file (uncomment .code file) :=
  uncomment_sameEnd file [] (by decide) h

end Uncomment

section Clear

abbrev clearSource : List Byte :=
  bytes ";c\n>HEAD <HEAD >CODE <CODE >CONST\n1#5 ;d\n3#\"a b\";e\n3#\"hi\" ;f\n;g h\n<CONST\n"

abbrev compileClear (s : List Byte) : Incremental.Outcome Byte Place Fault Block :=
  (Scanners.buffered .chunks).compileFunction default [] (Block.new default) s

lemma clearSource_places :
    (compileClear (clearSource.take 0)).place? = some .charBlank ∧
    (compileClear (clearSource.take 38)).place? = some (.lineBody (bytes "1#5 ")) ∧
    (compileClear (clearSource.take 48)).place? = some (.lineBody (bytes "3#\"a b" ++ [0])) ∧
    (compileClear (clearSource.take 58)).place? = some (.lineBody (bytes "3#\"hi" ++ [0, 32])) ∧
    (compileClear (clearSource.take 61)).place? = some .lineBlank := by
  refine ⟨?_, ?_, ?_, ?_, ?_⟩ <;> decide +kernel

lemma lineBlank_clear : Place.lineBlank.Clear .chunks (bytes "g h") :=
  ⟨bytes ";g h" ++ [0], rfl, rfl⟩

lemma clearSource_clear : CommentsClear .chunks default [] (Block.new default) clearSource := by
  intro u v q hfile _ hawait
  have hat : clearSource[u.length]? = some semicolon := by rw [hfile]; simp
  have htake : u = clearSource.take u.length := by rw [hfile]; simp
  have hdrop : v = clearSource.drop (u.length + 1) := by rw [hfile]; simp
  have hlt : u.length < clearSource.length := (List.getElem?_eq_some_iff.mp hat).1
  have hwhere : ∀ p < clearSource.length, clearSource[p]? = some semicolon →
      p = 0 ∨ p = 38 ∨ p = 48 ∨ p = 58 ∨ p = 61 := by
    decide
  have hplace {place : Place} (h : (compileClear u).place? = some place) : place = q := by
    rw [show compileClear u = .await q from hawait] at h
    exact (Option.some_inj.mp h).symm
  obtain ⟨hstart, hnumber, hstring, hblank, hline⟩ := clearSource_places
  rcases hwhere _ hlt hat with hp | hp | hp | hp | hp <;> rw [hp] at htake hdrop
  · obtain rfl := hplace (htake ▸ hstart)
    exact ⟨by rw [hdrop]; decide, trivial⟩
  · obtain rfl := hplace (htake ▸ hnumber)
    exact ⟨by rw [hdrop]; decide, by decide, fun behind => .refl _⟩
  · -- behind the quote that closes a string there is a NUL already
    obtain rfl := hplace (htake ▸ hstring)
    exact ⟨by rw [hdrop]; decide, by decide, fun behind => .string rfl⟩
  · obtain rfl := hplace (htake ▸ hblank)
    exact ⟨by rw [hdrop]; decide, by decide, fun behind => .string rfl⟩
  · obtain rfl := hplace (htake ▸ hline)
    exact ⟨by rw [hdrop]; decide, by rw [hdrop]; exact lineBlank_clear⟩

theorem uncomment_transparent_entry :
    SameEnd eof Fault.Mild compileClear clearSource (uncomment .code clearSource) :=
  uncomment_transparent clearSource_clear

abbrev numberSource : List Byte := bytes ">HEAD <HEAD >CODE <CODE >CONST\n1#5;c\n<CONST\n"

theorem uncomment_changes_number :
    ¬ SameEnd eof Fault.Mild compileClear numberSource (uncomment .code numberSource) := by
  intro h
  have hx : (compileClear numberSource).value?.map (fun b => b.k.map (fun v => v.value.n)) =
      some [.ofInt 0] := by decide +kernel
  have hy : (compileClear (uncomment .code numberSource)).value?.map
      (fun b => b.k.map (fun v => v.value.n)) = some [.ofInt 5] := by decide +kernel
  obtain ⟨b, hb, hk⟩ := Option.map_eq_some_iff.mp hx
  obtain ⟨b', hb', hk'⟩ := Option.map_eq_some_iff.mp hy
  obtain ⟨r, hr⟩ := Outcome.done_of_value hb
  obtain ⟨r', hr'⟩ := Outcome.done_of_value hb'
  have hs : ∀ s, Steady compileClear s :=
    Scanners.compileFunction_rule default (buffered_advances .chunks) (buffered_steady .chunks) [] _
  have hboth := h.accepts b
  rw [(hs _).accepts_done hr, (hs _).accepts_done hr'] at hboth
  rw [← hboth.mp rfl, hk] at hk'
  exact absurd hk' (by decide)

end Clear

end Bijou
