import Bijou.Buffers
import Bijou.Programs

namespace Bijou.Buffered

open CString Incremental

variable {a : Allocator} {g w u r : List Byte} {c sp : Byte}

abbrev Gates {α : Type} (F : Prop) (p : Scan α) (s : List Byte) (x : α) (r : List Byte) : Prop :=
  Gated Fault.overrun F p s x r

lemma readNext_word (hg : Space g) (hw : IsWord w) (hsp : isspace sp = true) :
    Gates (a.Spare w.length) (readNext a) (g ++ w ++ sp :: r) w r := by
  obtain ⟨c, u, rfl, hc, hu⟩ := hw.cons
  have hmode : modeAfter (checked (NextMode.inside a) Fault.error .overrun nextStep) (.body [c]) u =
      some (.body ([c] ++ u)) := by
    apply modeAfter_store
    intro d hd l
    obtain ⟨hspace, hquote, -, heof, -⟩ := hu d hd
    exact checked_go (by simp [nextStep, hspace, hquote, heof]) (by simp [NextMode.inside, hspace])
  have hstop : nextStep (.body ([c] ++ u)) sp = .stop ([c] ++ u) := by simp [nextStep, hsp]
  have hfirst : readChar true (g ++ (c :: u) ++ sp :: r) = .done c (u ++ sp :: r) := by
    rw [List.append_assoc]
    exact readChar_first hg hc.1 hc.2.2.1
  refine .of_bind (lift_done.mpr hfirst) (.of_eq (scan_append hmode) (.scan_stop hstop ?_))
  simp [NextMode.inside, hsp]

lemma readNext_skip (hc : isspace c = true) (s : List Byte) : readNext a (c :: s) = readNext a s := by
  have hgo : charStep true .blank c = .go .blank := by simp [charStep, hc]
  have hchar : lift Fault.error (readChar true) (c :: s) = lift Fault.error (readChar true) s :=
    congrArg (Outcome.mapExit Fault.error) (scan_go hgo)
  exact bind_congr_left hchar _

section Lines

abbrev lineTable (a : Allocator) : LineMode → Byte → Verdict LineMode Fault (List Byte) :=
  checked (LineMode.inside a) Fault.error .overrun lineStep

lemma lineStart (hg : Space g) (hc : isspace c = false) :
    modeAfter (lineTable a) .blank (g ++ [c]) = some (.body [c]) := by
  have hblank : modeAfter (lineTable a) .blank g = some .blank := by
    apply modeAfter_stay
    intro d hd
    exact checked_go (by simp [lineStep, hg d hd]) rfl
  have hgo : lineTable a .blank c = .go (.body [c]) := checked_go (by simp [lineStep, hc]) rfl
  rw [modeAfter_append hblank]
  simp only [modeAfter, hgo]

lemma lineBody (hu : newline ∉ u ∧ semicolon ∉ u ∧ quote ∉ u) (l : List Byte) :
    modeAfter (lineTable a) (.body l) u = some (.body (l ++ u)) := by
  apply modeAfter_store
  intro d hd l
  have hn : d ≠ newline := fun h => hu.1 (h ▸ hd)
  have hs : d ≠ semicolon := fun h => hu.2.1 (h ▸ hd)
  have hq : d ≠ quote := fun h => hu.2.2 (h ▸ hd)
  exact checked_go (by simp [lineStep, hn, hs, hq]) (by simp [LineMode.inside, hn])

lemma lineEnd (l : List Byte) : Gates (a.Spare l.length) (scan LineMode.place (lineTable a) (.body l))
    (newline :: r) (l ++ [0]) r := .scan_stop rfl (by simp [LineMode.inside])

lemma readLine_plain (hg : Space g) (hc : isspace c = false) (hu : newline ∉ u ∧ semicolon ∉ u ∧ quote ∉ u) :
    Gates (a.Spare (c :: u).length) (readLine a) (g ++ c :: u ++ newline :: r) (c :: u ++ [0]) r := by
  have htext : g ++ c :: u ++ newline :: r = (g ++ [c]) ++ (u ++ newline :: r) := by simp
  rw [htext]
  exact .of_eq ((scan_append (lineStart hg hc)).trans (scan_append (lineBody hu [c]))) (lineEnd ([c] ++ u))

lemma readLine_string {s : List Byte} (hg : Space g) (hc : isspace c = false)
    (hu : newline ∉ u ∧ semicolon ∉ u ∧ quote ∉ u) (hs : quote ∉ s ∧ newline ∉ s ∧ eof ∉ s) :
    Gates (a.Spare (c :: u ++ quote :: s ++ [quote]).length) (readLine a)
      (g ++ c :: u ++ quote :: s ++ quote :: newline :: r) (c :: u ++ quote :: s ++ [0] ++ [0]) r := by
  have htext : g ++ c :: u ++ quote :: s ++ quote :: newline :: r =
      (g ++ [c]) ++ (u ++ quote :: (s ++ quote :: newline :: r)) := by simp
  have hopen : lineTable a (.body ([c] ++ u)) quote = .go (.quote ([c] ++ u ++ [quote])) :=
    checked_go rfl rfl
  have hstore : modeAfter (lineTable a) (.quote ([c] ++ u ++ [quote])) s =
      some (.quote ([c] ++ u ++ [quote] ++ s)) := by
    apply modeAfter_store
    intro d hd l
    have hq : d ≠ quote := fun h => hs.1 (h ▸ hd)
    have hn : d ≠ newline := fun h => hs.2.1 (h ▸ hd)
    have he : d ≠ eof := fun h => hs.2.2 (h ▸ hd)
    exact checked_go (by simp [lineStep, hq, hn, he]) rfl
  have hclose : lineTable a (.quote ([c] ++ u ++ [quote] ++ s)) quote =
      .go (.body ([c] ++ u ++ [quote] ++ s ++ [0])) := checked_go rfl rfl
  have hscan : readLine a (g ++ c :: u ++ quote :: s ++ quote :: newline :: r) =
      scan LineMode.place (lineTable a) (.body ([c] ++ u ++ [quote] ++ s ++ [0])) (newline :: r) := by
    rw [htext, readLine, scan_append (lineStart hg hc), scan_append (lineBody hu [c]), scan_go hopen,
      scan_append hstore, scan_go hclose]
  have hlen : (c :: u ++ quote :: s ++ [quote]).length = ([c] ++ u ++ [quote] ++ s ++ [0]).length := by simp
  have hline : c :: u ++ quote :: s ++ [0] ++ [0] = [c] ++ u ++ [quote] ++ s ++ [0] ++ [0] := by simp
  rw [hlen, hline]
  exact .of_eq hscan (lineEnd _)

end Lines

section Arguments

lemma readArg_word (hw : IsWord w) (hsp : isspace sp = true) :
    Gates (a.Spare w.length) (readArg a) (w ++ sp :: r) (some w) r := by
  have hmode : modeAfter (checked (ArgMode.inside a) Fault.error .overrun argStep) (.body []) w =
      some (.body ([] ++ w)) := by
    apply modeAfter_store
    intro d hd l
    obtain ⟨hspace, -, hsemi, -⟩ := hw.ordinary d hd
    exact checked_go (by simp [argStep, hspace, hsemi]) (by simp [ArgMode.inside, hspace])
  have hstop : argStep (.body ([] ++ w)) sp = .stop (some w) := by simp [argStep, hsp]
  refine .of_eq (scan_append hmode) (.scan_stop hstop ?_)
  simp [ArgMode.inside, hsp, hw.ne_nil]

lemma readArg_comment {text : List Byte} (h : newline ∉ text) :
    readArg a (semicolon :: text ++ newline :: r) = .done none r := by
  have hgo : checked (ArgMode.inside a) Fault.error .overrun argStep (.body []) semicolon = .go .comment :=
    checked_go rfl rfl
  have hmode : modeAfter (checked (ArgMode.inside a) Fault.error .overrun argStep) .comment text =
      some .comment := by
    apply modeAfter_stay
    intro d hd
    have hn : d ≠ newline := fun hn => h (hn ▸ hd)
    exact checked_go (by simp [argStep, hn]) rfl
  have hstop : checked (ArgMode.inside a) Fault.error .overrun argStep .comment newline = .stop none := rfl
  rw [readArg, List.cons_append, scan_go hgo, scan_append hmode, scan_stop hstop]

variable {ops : List (List Byte × List Byte)} {e : List Byte}

lemma readArgsFrom_end (hw : parseArg w = .ok (argValue w)) (he : IsLineEnd e) (n : ℕ)
    (args : List (BitVec 32)) :
    readArgsFrom a (n + 1) args w (e ++ r) = .done (args ++ [argValue w]) r := by
  rw [readArgsFrom, hw]
  dsimp only
  cases he with
  | @plain g hg =>
    have hskip : skipBlank (g ++ [newline] ++ r) = .done true r := by
      rw [List.append_assoc]
      exact skipBlank_newline hg
    rw [bind_done (lift_done.mpr hskip)]
    rfl
  | @comment g text hg ht =>
    have hskip : skipBlank (g ++ semicolon :: text ++ [newline] ++ r) =
        .done false (semicolon :: text ++ newline :: r) := by
      have htext : g ++ semicolon :: text ++ [newline] ++ r = g ++ semicolon :: (text ++ newline :: r) := by simp
      rw [htext]
      exact skipBlank_back hg (by decide) (by decide)
    rw [bind_done (lift_done.mpr hskip), if_neg Bool.false_ne_true, bind_done (readArg_comment ht)]
    rfl

lemma readArgsFrom_word {F : Prop} {t v : List Byte} {args args' : List (BitVec 32)} {n : ℕ}
    (hw : parseArg w = .ok (argValue w)) (hg : Blank g) (hv : IsWord v) (hsp : isspace sp = true)
    (hrest : Gates F (readArgsFrom a n (args ++ [argValue w]) v) t args' r) :
    Gates (a.Spare v.length ∧ F) (readArgsFrom a (n + 1) args w) (g ++ v ++ sp :: t) args' r := by
  have hread := readArg_word (a := a) (r := t) hv hsp
  obtain ⟨c, u, rfl, hc, -⟩ := hv.cons
  have hskip : skipBlank (g ++ (c :: u) ++ sp :: t) = .done false ((c :: u) ++ sp :: t) := by
    rw [List.append_assoc]
    exact skipBlank_back hg hc.1 hc.2.2.2.1
  rw [readArgsFrom, hw]
  refine .of_bind (lift_done.mpr hskip) ?_
  rw [if_neg Bool.false_ne_true]
  exact hread.bind hrest

lemma readArgsFrom_operands (h : ∀ x ∈ ops, IsOperand x) (hw : parseArg w = .ok (argValue w))
    (hsp : isspace sp = true) (he : IsLineEnd e) (n : ℕ) (args : List (BitVec 32)) :
    Gates (∀ x ∈ ops, a.Spare x.2.length) (readArgsFrom a (n + 1 + ops.length) args w)
      ((operandText ops ++ sp :: (e ++ r)).tail) (args ++ (w :: ops.map Prod.snd).map argValue) r := by
  induction ops generalizing args w with
  | nil => exact .iff (.of_done (readArgsFrom_end hw he n args)) (by simp)
  | cons x ops ih =>
    obtain ⟨g, v⟩ := x
    have hx := h (g, v) (by simp)
    have hops : ∀ y ∈ ops, IsOperand y := fun y hy => h y (by simp [hy])
    obtain ⟨c, t, hct, hc⟩ := operandText_space hops hsp (e ++ r)
    obtain ⟨c₀, g', rfl⟩ := List.exists_cons_of_ne_nil hx.gap_ne_nil
    have htext : (operandText ((c₀ :: g', v) :: ops) ++ sp :: (e ++ r)).tail = g' ++ v ++ c :: t := by
      simp [operandText, ← hct]
    have hgap : Blank g' := fun d hd => hx.gap d (by simp [hd])
    have hih := ih hops hx.parses (args ++ [argValue w])
    rw [hct, List.tail_cons] at hih
    have hword := readArgsFrom_word hw hgap hx.word hc hih
    have hargs : args ++ [argValue w] ++ (v :: ops.map Prod.snd).map argValue =
        args ++ (w :: ((c₀ :: g', v) :: ops).map Prod.snd).map argValue := by simp
    rw [hargs] at hword
    rw [htext, List.length_cons, ← Nat.add_assoc]
    exact hword.iff (by simp)

lemma readArgs_line (h : ∀ x ∈ ops, IsOperand x) (hne : ops ≠ []) (hlen : ops.length ≤ 3)
    (hsp : isspace sp = true) (he : IsLineEnd e) :
    Gates (∀ x ∈ ops, a.Spare x.2.length) (readArgs a) ((operandText ops ++ sp :: (e ++ r)).tail)
      ((ops.map Prod.snd).map argValue) r := by
  obtain ⟨⟨g, v⟩, ops, rfl⟩ := List.exists_cons_of_ne_nil hne
  have hx := h (g, v) (by simp)
  have hops : ∀ y ∈ ops, IsOperand y := fun y hy => h y (by simp [hy])
  have hthree : 3 = (2 - ops.length) + 1 + ops.length := by
    simp only [List.length_cons] at hlen
    omega
  obtain ⟨c, t, hct, hc⟩ := operandText_space hops hsp (e ++ r)
  obtain ⟨c₀, g', rfl⟩ := List.exists_cons_of_ne_nil hx.gap_ne_nil
  have htext : (operandText ((c₀ :: g', v) :: ops) ++ sp :: (e ++ r)).tail = g' ++ v ++ c :: t := by
    simp [operandText, ← hct]
  have hgap : Space g' := fun d hd => (hx.gap d (by simp [hd])).1
  have hrest := readArgsFrom_operands (a := a) (r := r) hops hx.parses hsp he (2 - ops.length) []
  rw [← hthree, hct, List.tail_cons, List.nil_append] at hrest
  rw [htext]
  exact ((readNext_word hgap hx.word hc).bind hrest).iff (by simp)

end Arguments

end Bijou.Buffered
