import Bijou.Parser

/-! A property that sequences inherit passes from the scanners to the assembler: one rule for each
section, and the recursion of the sections is guarded by the lines they read. -/

namespace Bijou

open CString Incremental

lemma readChar_eats (ws : Bool) (s : List Byte) : Eats (readChar ws) s :=
  scan_eats (by
    intro t c a h
    cases t <;> simp only [charStep] at h <;> split_ifs at h) _ s

lemma readNext_eats (s : List Byte) : Eats readNext s :=
  (readChar_eats true s).bind_left (fun _ _ _ => scan_shrinks _ _)

lemma readNext_shrinks (s : List Byte) : Shrinks readNext s :=
  (scan_shrinks _ s).bind (fun _ _ _ => scan_shrinks _ _)

lemma readNext_steady (s : List Byte) : Steady readNext s :=
  (scan_steady _ s).bind (fun _ _ _ => scan_steady _ _)

lemma readLine_eats (s : List Byte) : Eats readLine s :=
  scan_eats (by
    intro t c a h
    cases t <;> simp only [lineStep] at h <;> split_ifs at h) _ s

section Rules

variable {P : ∀ α : Type, Scan α → List Byte → Prop} (hP : Compositional P)

include hP

lemma readArgsFrom_rule (hskip : ∀ s, P _ skipBlank s) (harg : ∀ s, P _ readArg s) (n : ℕ)
    (args : List (BitVec 32)) (arg s : List Byte) : P _ (readArgsFrom n args arg) s := by
  induction n generalizing args arg s with
  | zero => exact hP.pure _ _
  | succ n ih =>
    unfold readArgsFrom
    split
    · exact hP.fail _ _
    · apply hP.bind (hskip s)
      intro eol r _
      split
      · exact hP.pure _ _
      · apply hP.bind (harg r)
        intro arg' m _
        split
        · exact hP.pure _ _
        · exact ih _ _ _

lemma expect_rule (hchar : ∀ s, P _ (readChar true) s) (hnext : ∀ s, P _ (next .expectBody) s)
    (str s : List Byte) : P _ (expect str) s := by
  unfold expect
  split
  · exact hP.pure _ _
  · apply hP.bind (hchar s)
    intro c r _
    apply hP.bind (forN_property hP _ _ _ (fun _ r _ => hnext r) (fun _ => next_shrinks _))
    intro l m _
    split
    · exact hP.pure _ _
    · exact hP.fail _ _

end Rules

lemma readArgs_shrinks (s : List Byte) : Shrinks readArgs s :=
  (readNext_shrinks s).bind (fun arg r _ => readArgsFrom_rule shrinks_compositional
    (scan_shrinks _) (scan_shrinks _) 3 [] arg r)

lemma readArgs_steady (s : List Byte) : Steady readArgs s :=
  (readNext_steady s).bind (fun arg r _ => readArgsFrom_rule steady_compositional
    (scan_steady _) (scan_steady _) 3 [] arg r)

def sectionWords : List (List Byte) := [bytes ">HEAD", bytes ">CODE", bytes ">CONST"]

namespace Scanners

variable {ε : Type} (S : Scanners ε)

structure Tokenized (P : ∀ α : Type, Reader Byte Place ε α → List Byte → Prop) : Prop extends
    Compositional P where
  expect : ∀ str s, str ∈ sectionWords → P Unit (S.expect str) s
  readNext : ∀ s, P (List Byte) S.readNext s
  readArgs : ∀ s, P (List (BitVec 32)) S.readArgs s
  pushChild : ∀ b func s, P Block (S.pushChild b func) s

structure Scanned (P : ∀ α : Type, Reader Byte Place ε α → List Byte → Prop) : Prop extends
    S.Tokenized P where
  readLine : ∀ s, P (List Byte) S.readLine s

structure Advances : Prop extends S.Scanned (fun _ => Shrinks) where
  readNext_eats : ∀ s, Eats S.readNext s
  readLine_eats : ∀ s, Eats S.readLine s

variable {S}

section Rounds

variable {P : ∀ α : Type, Reader Byte Place ε α → List Byte → Prop} (hS : S.Advances) (hP : S.Tokenized P)

include hP

lemma pushEntry_rule {loop : ConstState → Reader Byte Place ε Block} {s : List Byte}
    (hloop : ∀ st', P _ (loop st') s) (st : ConstState) (tt : Tag) (value : Value) :
    P _ (S.pushEntry loop st tt value) s := by
  unfold pushEntry
  split
  · exact hP.fail _ _
  · exact hloop _

include hS

lemma headerRound_rule {loop : Block → Reader Byte Place ε Block} (b : Block) (s : List Byte)
    (hloop : ∀ b' s', s'.length < s.length → P _ (loop b') s') : P _ (S.headerRound loop b) s := by
  apply hP.bind (hP.readNext s)
  intro string r hr
  have hlen := hS.readNext_eats s _ _ hr
  split
  · exact hP.pure _ _
  · split
    · exact hP.fail _ _
    · apply hP.bind (hP.readNext r)
      intro tmp m hm
      exact hloop _ _ ((hS.readNext_eats r _ _ hm).trans hlen)

lemma codeRound_rule {loop : Block → Reader Byte Place ε Block} (b : Block) (s : List Byte)
    (hloop : ∀ b' s', s'.length < s.length → P _ (loop b') s') : P _ (S.codeRound loop b) s := by
  apply hP.bind (hP.readNext s)
  intro string r hr
  have hlen := hS.readNext_eats s _ _ hr
  split
  · exact hP.pure _ _
  · split
    · exact hP.fail _ _
    · apply hP.bind (hP.readArgs r)
      intro args m hm
      exact hloop _ _ (((hS.readArgs r).length_le hm).trans_lt hlen)

end Rounds

section Guards

variable (hS : S.Advances)

include hS

lemma headerRound_guarded : Guarded S.headerRound where
  shrinks f hf b s := headerRound_rule hS hS.toTokenized b s (fun b' s' _ => hf b' s')
  congr f g b s _ hfg := by
    apply bind_apply_congr rfl
    intro string r hr
    have hlen := hS.readNext_eats s _ _ hr
    by_cases hclose : cstr string = bytes "<HEAD"
    · rw [if_pos hclose, if_pos hclose]
    rw [if_neg hclose, if_neg hclose]
    cases Directive.named (cstr string) with
    | none => rfl
    | some d =>
      apply bind_apply_congr rfl
      intro tmp m hm
      exact hfg _ _ ((hS.readNext_eats r _ _ hm).trans hlen)

lemma codeRound_guarded : Guarded S.codeRound where
  shrinks f hf b s := codeRound_rule hS hS.toTokenized b s (fun b' s' _ => hf b' s')
  congr f g b s _ hfg := by
    apply bind_apply_congr rfl
    intro string r hr
    have hlen := hS.readNext_eats s _ _ hr
    by_cases hclose : cstr string = bytes "<CODE"
    · rw [if_pos hclose, if_pos hclose]
    rw [if_neg hclose, if_neg hclose]
    cases OpCode.named (cstr string) with
    | none => rfl
    | some o =>
      apply bind_apply_congr rfl
      intro args m hm
      exact hfg _ _ (((hS.readArgs r).length_le hm).trans_lt hlen)

end Guards

section Sections

variable {P : ∀ α : Type, Reader Byte Place ε α → List Byte → Prop} (hS : S.Advances) (hP : S.Tokenized P)

include hS hP

lemma compileHeader_rule (b : Block) (s : List Byte) : P _ (S.compileHeader b) s := by
  apply hP.bind (hP.expect _ s (by decide))
  intro u r _
  exact (headerRound_guarded hS).fix_property (headerRound_rule hS hP) b r

lemma compileCode_rule (b : Block) (s : List Byte) : P _ (S.compileCode b) s := by
  apply hP.bind (hP.expect _ s (by decide))
  intro u r _
  exact (codeRound_guarded hS).fix_property (codeRound_rule hS hP) b r

end Sections

section Lengths

variable (hS : S.Advances) {s r : List Byte}

include hS

lemma compileHeader_length {b b' : Block} (h : S.compileHeader b s = .done b' r) : r.length ≤ s.length :=
  (compileHeader_rule hS hS.toTokenized b s).length_le h

lemma compileCode_length {b b' : Block} (h : S.compileCode b s = .done b' r) : r.length ≤ s.length :=
  (compileCode_rule hS hS.toTokenized b s).length_le h

lemma expectConst_length {u : Unit} (h : S.expect (bytes ">CONST") s = .done u r) : r.length ≤ s.length :=
  (hS.expect _ s (by decide)).length_le h

end Lengths

variable (mem : Memory)

section Sections

variable {P : ∀ α : Type, Reader Byte Place ε α → List Byte → Prop} (hS : S.Advances) (hP : S.Tokenized P)

include hS hP

lemma compileFunctionWith_rule {loop : ConstState → Reader Byte Place ε Block} (path : Path) (b : Block)
    (s : List Byte) (hloop : ∀ st s', s'.length ≤ s.length → P _ (loop st) s') :
    P _ (S.compileFunctionWith mem loop path b) s := by
  apply hP.bind (compileHeader_rule hS hP b s)
  intro b₁ r₁ h₁
  have l₁ := compileHeader_length hS h₁
  apply hP.bind (compileCode_rule hS hP b₁ r₁)
  intro b₂ r₂ h₂
  have l₂ := compileCode_length hS h₂
  apply hP.bind (hP.expect _ r₂ (by decide))
  intro u r₃ h₃
  have l₃ := expectConst_length hS h₃
  exact hloop _ r₃ (by omega)

lemma constEntry_rule {loop : ConstState → Reader Byte Place ε Block}
    (hshrinks : ∀ path b s, Shrinks (S.compileFunctionWith mem loop path b) s) (st : ConstState)
    (line : ConstLine) (r : List Byte) (hloop : ∀ st' s', s'.length ≤ r.length → P _ (loop st') s') :
    P _ (S.constEntry mem loop st line) r := by
  have hr : ∀ st', P _ (loop st') r := fun st' => hloop st' r le_rfl
  cases line with
  | close => exact hP.pure _ _
  | comment => exact hr _
  | bad e => exact hP.fail _ _
  | null => exact pushEntry_rule hP hr _ _ _
  | number n => exact pushEntry_rule hP hr _ _ _
  | boolean n => exact pushEntry_rule hP hr _ _ _
  | string text => exact pushEntry_rule hP hr _ _ _
  | function =>
    apply hP.bind
    · exact compileFunctionWith_rule mem hS hP _ _ r hloop
    · intro func m hm
      have hle := (hshrinks _ _ r).length_le hm
      apply hP.bind (hP.pushChild st.b func m)
      intro b m' hm'
      have hle' := (hS.pushChild _ _ m).length_le hm'
      exact pushEntry_rule hP (fun st' => hloop st' m' (hle'.trans hle)) _ _ _

end Sections

lemma constRound_rule {P : ∀ α : Type, Reader Byte Place ε α → List Byte → Prop} (hS : S.Advances)
    (hP : S.Scanned P) {loop : ConstState → Reader Byte Place ε Block}
    (hshrinks : ∀ path b s, Shrinks (S.compileFunctionWith mem loop path b) s) (st : ConstState)
    (s : List Byte) (hloop : ∀ st' s', s'.length < s.length → P _ (loop st') s') :
    P _ (S.constRound mem loop st) s := by
  apply hP.bind (hP.readLine s)
  intro string r hr
  have hlen := hS.readLine_eats s _ _ hr
  exact constEntry_rule mem hS hP.toTokenized hshrinks st _ r
    (fun st' s' hs' => hloop st' s' (by omega))

section Guards

variable (hS : S.Advances)

include hS

lemma compileFunctionWith_congr {f g : ConstState → Reader Byte Place ε Block} (path : Path) (b : Block)
    (s : List Byte) (h : ∀ st s', s'.length ≤ s.length → f st s' = g st s') :
    S.compileFunctionWith mem f path b s = S.compileFunctionWith mem g path b s := by
  apply bind_apply_congr rfl
  intro b₁ r₁ h₁
  have l₁ := compileHeader_length hS h₁
  apply bind_apply_congr rfl
  intro b₂ r₂ h₂
  have l₂ := compileCode_length hS h₂
  apply bind_apply_congr rfl
  intro u r₃ h₃
  have l₃ := expectConst_length hS h₃
  exact h _ r₃ (by omega)

lemma constRound_guarded : Guarded (S.constRound mem) where
  shrinks f hf st s := by
    apply constRound_rule mem hS hS.toScanned
    · exact fun path b s => compileFunctionWith_rule mem hS hS.toTokenized path b s
        (fun st' s' _ => hf st' s')
    · exact fun st' s' _ => hf st' s'
  congr f g st s hf hfg := by
    apply bind_apply_congr rfl
    intro string r hr
    have hlen := hS.readLine_eats s _ _ hr
    have hpush : ∀ st' tt v m, m.length < s.length →
        S.pushEntry f st' tt v m = S.pushEntry g st' tt v m := by
      intro st' tt v m hm
      unfold pushEntry
      cases st'.push tt v with
      | none => rfl
      | some st'' => exact hfg _ _ hm
    cases constLine (string ++ mem.line st.here) with
    | close => rfl
    | comment => exact hfg _ _ hlen
    | bad e => rfl
    | null => exact hpush _ _ _ _ hlen
    | number n => exact hpush _ _ _ _ hlen
    | boolean n => exact hpush _ _ _ _ hlen
    | string text => exact hpush _ _ _ _ hlen
    | function =>
      apply bind_apply_congr
      · exact compileFunctionWith_congr mem hS _ _ r (fun st' s' hs' => hfg st' s' (by omega))
      · intro func m hm
        have hle := (compileFunctionWith_rule mem hS hS.toTokenized st.here
          (Block.new (mem.block st.here)) r (fun st' s' _ => hf st' s')).length_le hm
        apply bind_apply_congr rfl
        intro b m' hm'
        have hle' := (hS.pushChild _ _ m).length_le hm'
        exact hpush _ _ _ _ ((hle'.trans hle).trans_lt hlen)

lemma constLoop_eq (st : ConstState) : S.constLoop mem st = S.constRound mem (S.constLoop mem) st :=
  (constRound_guarded mem hS).fix_eq st

lemma constLoop_shrinks (st : ConstState) (s : List Byte) : Shrinks (S.constLoop mem st) s :=
  (constRound_guarded mem hS).fix_shrinks st s

end Guards

theorem compileFunction_rule {P : ∀ α : Type, Reader Byte Place ε α → List Byte → Prop} (hS : S.Advances)
    (hP : S.Scanned P) (path : Path) (b : Block) (s : List Byte) : P _ (S.compileFunction mem path b) s := by
  refine compileFunctionWith_rule mem hS hP.toTokenized path b s (fun st s' _ => ?_)
  apply (constRound_guarded mem hS).fix_property
  intro st s hloop
  exact constRound_rule mem hS hP (fun path b s => compileFunctionWith_rule mem hS hS.toTokenized path b s
    (fun st' s' _ => constLoop_shrinks mem hS st' s')) st s hloop

lemma compileFunction_shrinks (hS : S.Advances) (path : Path) (b : Block) (s : List Byte) :
    Shrinks (S.compileFunction mem path b) s := compileFunction_rule mem hS hS.toScanned path b s

end Scanners

lemma shrinks_scanned : Scanners.plain.Scanned (fun _ => Shrinks) where
  toCompositional := shrinks_compositional
  expect str s _ := expect_rule shrinks_compositional (scan_shrinks _) (next_shrinks _) str s
  readNext := readNext_shrinks
  readArgs := readArgs_shrinks
  pushChild _ _ s := shrinks_compositional.pure _ s
  readLine := scan_shrinks _

lemma steady_scanned : Scanners.plain.Scanned (fun _ => Steady) where
  toCompositional := steady_compositional
  expect str s _ := expect_rule steady_compositional (scan_steady _) (next_steady _) str s
  readNext := readNext_steady
  readArgs := readArgs_steady
  pushChild _ _ s := steady_compositional.pure _ s
  readLine := scan_steady _

lemma plain_advances : Scanners.plain.Advances where
  toScanned := shrinks_scanned
  readNext_eats := readNext_eats
  readLine_eats := readLine_eats

section Plain

lemma headerRound_guarded : Guarded headerRound := Scanners.headerRound_guarded plain_advances

lemma codeRound_guarded : Guarded codeRound := Scanners.codeRound_guarded plain_advances

variable {s r : List Byte}

lemma compileHeader_length {b b' : Block} (h : compileHeader b s = .done b' r) : r.length ≤ s.length :=
  Scanners.compileHeader_length plain_advances h

lemma compileCode_length {b b' : Block} (h : compileCode b s = .done b' r) : r.length ≤ s.length :=
  Scanners.compileCode_length plain_advances h

lemma expectConst_length {u : Unit} (h : expect (bytes ">CONST") s = .done u r) : r.length ≤ s.length :=
  Scanners.expectConst_length plain_advances h

variable (mem : Memory)

lemma constRound_guarded : Guarded (constRound mem) := Scanners.constRound_guarded mem plain_advances

lemma constLoop_eq (st : ConstState) : constLoop mem st = constRound mem (constLoop mem) st :=
  (constRound_guarded mem).fix_eq st

variable (path : Path) (b : Block)

lemma compileFunction_rule {P : ∀ α : Type, Scan α → List Byte → Prop} (hP : Scanners.plain.Scanned P)
    (s : List Byte) : P _ (compileFunction mem path b) s :=
  Scanners.compileFunction_rule mem plain_advances hP path b s

lemma compileFunction_steady (s : List Byte) : Steady (compileFunction mem path b) s :=
  compileFunction_rule mem path b steady_scanned s

lemma compileFunction_shrinks (s : List Byte) : Shrinks (compileFunction mem path b) s :=
  compileFunction_rule mem path b shrinks_scanned s

end Plain

end Bijou
