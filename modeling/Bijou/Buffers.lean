import Bijou.Library.Buffer
import Bijou.Library.Checked
import Bijou.Termination

/-! The assembler with the blocks of memory that it writes to. A string of `n` characters lies in a block
of `n` bytes, and the NUL, or the closing quote, is stored behind it; the pointers of `n` children lie in a
block of `n` bytes. -/

namespace Allocator

variable (a : Allocator)

def Holds (n : ℕ) : Prop := 8 * n ≤ a.room n

instance (n : ℕ) : Decidable (a.Holds n) := inferInstanceAs (Decidable (_ ≤ _))

structure Roomy : Prop where
  spare : ∀ n, a.Spare n
  holds : ∀ index < 256, 8 * (index + 1) ≤ a.room ((index + 1) % 256)

end Allocator

namespace Bijou

open CString Incremental

inductive Fault where
  | error (e : CompileError)
  | overrun
  deriving DecidableEq

def Fault.Mild : Fault → Prop
  | error _ => True
  | overrun => False

variable (a : Allocator)

def NextMode.inside : NextMode → Byte → Bool
  | .body string, c => !isspace c || a.Spare string.length
  | .quote string, c => c ≠ Bijou.quote || a.Spare string.length

/-- Cutting a line off at its comment writes inside it. -/
def LineMode.inside : LineMode → Byte → Bool
  | .body string, c => c ≠ newline || a.Spare string.length
  | _, _ => true

def ArgMode.inside : ArgMode → Byte → Bool
  | .body arg, c => !isspace c || arg = [] || a.Spare arg.length
  | .comment, _ => true

namespace Buffered

abbrev Scan := Reader Byte Place Fault

def readNext : Scan (List Byte) := do
  let c ← lift Fault.error (readChar true)
  scan NextMode.place (checked (NextMode.inside a) .error .overrun nextStep) (.body [c])

def readLine : Scan (List Byte) :=
  scan LineMode.place (checked (LineMode.inside a) .error .overrun lineStep) .blank

def readArg : Scan (Option (List Byte)) :=
  scan ArgMode.place (checked (ArgMode.inside a) .error .overrun argStep) (.body [])

def readArgsFrom : ℕ → List (BitVec 32) → List Byte → Scan (List (BitVec 32))
  | 0, args, _ => pure args
  | n + 1, args, arg =>
    match parseArg arg with
    | .error e => fail (.error e)
    | .ok v => do
      let args := args ++ [v]
      if ← lift Fault.error skipBlank then return args
      else
        match ← readArg a with
        | none => return args
        | some arg => readArgsFrom n args arg

def readArgs : Scan (List (BitVec 32)) := do
  let arg ← readNext a
  readArgsFrom a 3 [] arg

/-- realloc is asked for `numchildren` bytes, as many as there are pointers. -/
def pushChild (block child : Block) : Scan Block := do
  check (8 * (block.numchildren.toNat + 1) ≤ a.room (block.numchildren + 1).toNat) Fault.overrun
  return block.pushChild child

lemma pushChild_done {block child block' : Block} {s r : List Byte}
    (h : pushChild a block child s = .done block' r) :
    8 * (block.numchildren.toNat + 1) ≤ a.room (block.numchildren + 1).toNat ∧
      block' = block.pushChild child := by
  obtain ⟨u, m, hcheck, hpush⟩ := bind_eq_done.mp h
  rw [check] at hcheck
  split at hcheck
  · cases hpush
    exact ⟨‹_›, rfl⟩
  · cases hcheck

end Buffered

def Scanners.buffered : Scanners Fault where
  error := .error
  expect str := lift .error (Bijou.expect str)
  readNext := Buffered.readNext a
  readArgs := Buffered.readArgs a
  readLine := Buffered.readLine a
  pushChild := Buffered.pushChild a

namespace Buffered

section Rules

variable {P : ∀ α : Type, Scan α → List Byte → Prop} (hP : Compositional P)

include hP

lemma readArgsFrom_rule (hskip : ∀ s, P _ (lift Fault.error skipBlank) s) (harg : ∀ s, P _ (readArg a) s)
    (n : ℕ) (args : List (BitVec 32)) (arg s : List Byte) : P _ (readArgsFrom a n args arg) s := by
  induction n generalizing args arg s with
  | zero => exact hP.pure _ _
  | succ n ih =>
    unfold readArgsFrom
    split
    · exact hP.fail _ _
    · apply hP.bind (hskip s)
      intro eol r _
      split
      · exact hP.pure _ _
      · apply hP.bind (harg r)
        intro arg' m _
        split
        · exact hP.pure _ _
        · exact ih _ _ _

lemma pushChild_rule (b func : Block) (s : List Byte) : P _ (pushChild a b func) s := by
  refine hP.bind ?_ (fun _ r _ => hP.pure _ _)
  rw [check]
  split
  · exact hP.pure _ _
  · exact hP.fail _ _

end Rules

lemma readNext_shrinks (s : List Byte) : Shrinks (readNext a) s :=
  (scan_shrinks _ s).lift.bind (fun _ _ _ => scan_shrinks _ _)

lemma readNext_steady (s : List Byte) : Steady (readNext a) s :=
  (scan_steady _ s).lift.bind (fun _ _ _ => scan_steady _ _)

lemma checked_not_back {τ α : Type} {allowed : τ → Byte → Bool} {step : τ → Byte → Verdict τ CompileError α}
    (h : ∀ t c x, step t c ≠ .back x) (t : τ) (c : Byte) (x : α) :
    checked allowed Fault.error .overrun step t c ≠ .back x := by
  intro hback
  rw [checked] at hback
  split_ifs at hback
  cases hstep : step t c with
  | back y => exact h t c y hstep
  | go t' => rw [hstep] at hback; cases hback
  | stop y => rw [hstep] at hback; cases hback
  | exit e => rw [hstep] at hback; cases hback

lemma readLine_eats (s : List Byte) : Eats (readLine a) s := by
  apply scan_eats
  apply checked_not_back
  intro t c x h
  cases t <;> simp only [lineStep] at h <;> split_ifs at h

end Buffered

open Scanners

lemma buffered_shrinks : (buffered a).Scanned (fun _ => Shrinks) where
  toCompositional := shrinks_compositional
  expect str s h := (shrinks_scanned.expect str s h).lift
  readNext := Buffered.readNext_shrinks a
  readArgs s := (Buffered.readNext_shrinks a s).bind (fun arg r _ => Buffered.readArgsFrom_rule a shrinks_compositional
    (fun s => (scan_shrinks _ s).lift) (scan_shrinks _) 3 [] arg r)
  pushChild := Buffered.pushChild_rule a shrinks_compositional
  readLine := scan_shrinks _

lemma buffered_advances : (buffered a).Advances where
  toScanned := buffered_shrinks a
  readNext_eats s := (readChar_eats true s).lift.bind_left (fun _ _ _ => scan_shrinks _ _)
  readLine_eats := Buffered.readLine_eats a

lemma buffered_steady : (buffered a).Scanned (fun _ => Steady) where
  toCompositional := steady_compositional
  expect str s h := (steady_scanned.expect str s h).lift
  readNext := Buffered.readNext_steady a
  readArgs s := (Buffered.readNext_steady a s).bind (fun arg r _ => Buffered.readArgsFrom_rule a steady_compositional
    (fun s => (scan_steady _ s).lift) (scan_steady _) 3 [] arg r)
  pushChild := Buffered.pushChild_rule a steady_compositional
  readLine := scan_steady _

namespace Buffered

section Resolves

lemma checked_eof {τ α : Type} {allowed : τ → Byte → Bool} {step : τ → Byte → Verdict τ CompileError α}
    {t : τ} (h : allowed t eof = true) :
    checked allowed Fault.error .overrun step t eof = (step t eof).mapExit Fault.error := if_pos h

lemma nextInside_eof (t : NextMode) : t.inside a eof = true := by cases t <;> rfl

lemma lineInside_eof (t : LineMode) : t.inside a eof = true := by cases t <;> rfl

lemma argInside_eof (t : ArgMode) : t.inside a eof = true := by cases t <;> rfl

abbrev Ends {α : Type} (p : Scan α) (s : List Byte) : Prop := Resolves eof Place.Blind Fault.Mild p s

lemma ends_lift {α : Type} {p : Bijou.Scan α} {s : List Byte}
    (h : Resolves eof Place.Blind (fun _ => True) p s) : Ends (lift Fault.error p) s :=
  h.lift (fun _ _ => trivial)

lemma readNext_ends (s : List Byte) : Ends (readNext a) s := by
  refine Steady.resolves_bind (scan_steady _ s).lift ?_ ?_ ?_
  · intro q hq hb k
    obtain ⟨q', hk⟩ := readChar_blind (lift_await.mp hq) hb k
    exact ⟨q', bind_await (lift_await.mpr hk) _⟩
  · intro q hq hb
    have hchar := readChar_eof (lift_await.mp hq) hb [eof]
    exact ⟨2, .error .unexpectedEof, trivial, bind_done (lift_done.mpr hchar) _⟩
  · intro c r _
    apply scan_resolves
    · intro t ht
      rw [checked_eof (nextInside_eof a t)]
      cases t with
      | body string => exact ht.elim
      | quote string => exact ⟨_, rfl, trivial⟩
    · intro t ht
      rw [checked_eof (nextInside_eof a t)]
      cases t with
      | body string => exact ⟨.error .unexpectedEof, trivial, rfl⟩
      | quote string => exact (ht trivial).elim

lemma readLine_ends (s : List Byte) : Ends (readLine a) s := by
  apply scan_resolves
  · intro t ht
    rw [checked_eof (lineInside_eof a t)]
    cases t with
    | quote string => exact ht.elim
    | _ => exact ⟨_, rfl, trivial⟩
  · intro t ht
    rw [checked_eof (lineInside_eof a t)]
    cases t with
    | quote string => exact ⟨.error (.eofInString string), trivial, rfl⟩
    | _ => exact (ht trivial).elim

lemma readArg_ends (s : List Byte) : Ends (readArg a) s := by
  apply scan_resolves
  · intro t ht
    rw [checked_eof (argInside_eof a t)]
    cases t <;> exact ⟨_, rfl, trivial⟩
  · intro t ht
    cases t <;> exact (ht trivial).elim

lemma readArg_eof (k : ℕ) : ∃ q, readArg a (List.replicate k eof) = .await q := by
  have hlive : ∀ t : ArgMode, (∃ arg, t = .body arg) →
      ∃ t', checked (ArgMode.inside a) Fault.error .overrun argStep t eof = .go t' ∧ ∃ arg, t' = .body arg := by
    rintro t ⟨arg, rfl⟩
    rw [checked_eof (argInside_eof a _)]
    exact ⟨_, rfl, _, rfl⟩
  exact scan_replicate hlive ⟨[], rfl⟩ k

lemma readArgsFrom_ends (n : ℕ) (args : List (BitVec 32)) (arg s : List Byte) :
    Ends (readArgsFrom a n args arg) s := by
  have hC : Compositional (fun _ => Ends) := resolves_compositional eof Place.Blind Fault.Mild
  induction n generalizing args arg s with
  | zero => exact hC.pure _ _
  | succ n ih =>
    unfold readArgsFrom
    cases parseArg arg with
    | error e => exact hC.fail _ _
    | ok v =>
      refine Steady.resolves_bind (scan_steady _ s).lift ?_ ?_ ?_
      · intro q hq _ k
        cases k with
        | zero =>
          rw [List.replicate_zero, List.append_nil]
          exact ⟨q, bind_await hq _⟩
        | succ k =>
          obtain ⟨q', hk⟩ := readArg_eof a k
          have hskip := skipBlank_eof (lift_await.mp hq) k
          rw [List.replicate_succ, bind_done (lift_done.mpr hskip), if_neg Bool.false_ne_true]
          exact ⟨q', bind_await hk _⟩
      · intro q hq hb
        obtain ⟨m, -, rfl⟩ := modeAfter_of_await (lift_await.mp hq)
        exact (hb trivial).elim
      · intro eol r _
        split
        · exact hC.pure _ _
        · apply hC.bind (readArg_ends a r)
          intro arg' m _
          cases arg' with
          | none => exact hC.pure _ _
          | some arg' => exact ih _ _ _

end Resolves

end Buffered

lemma buffered_ends : (buffered a).Scanned (fun _ => Buffered.Ends) where
  toCompositional := resolves_compositional _ _ _
  expect str s h := Buffered.ends_lift (resolves_scanned.expect str s h)
  readNext := Buffered.readNext_ends a
  readArgs s := (resolves_compositional eof Place.Blind Fault.Mild).bind (Buffered.readNext_ends a s)
    (fun arg r _ => Buffered.readArgsFrom_ends a 3 [] arg r)
  pushChild := Buffered.pushChild_rule a (resolves_compositional _ _ _)
  readLine := Buffered.readLine_ends a

section Restricts

abbrev Confines {α : Type} (p : Scan α) (q : Buffered.Scan α) : Prop :=
  Restricts Fault.error .overrun (¬ a.Roomy) p q

variable {a}

lemma readNext_confines : Confines a readNext (Buffered.readNext a) := by
  refine (Restricts.lift _).bind (fun c => Restricts.scan (fun h t c => ?_) _)
  have hroom := (not_not.mp h).spare
  cases t <;> simp [NextMode.inside, hroom]

lemma readLine_confines : Confines a readLine (Buffered.readLine a) := by
  refine Restricts.scan (fun h t c => ?_) _
  have hroom := (not_not.mp h).spare
  cases t <;> simp [LineMode.inside, hroom]

lemma readArg_confines : Confines a readArg (Buffered.readArg a) := by
  refine Restricts.scan (fun h t c => ?_) _
  have hroom := (not_not.mp h).spare
  cases t <;> simp [ArgMode.inside, hroom]

lemma readArgsFrom_confines (n : ℕ) (args : List (BitVec 32)) (arg : List Byte) :
    Confines a (readArgsFrom n args arg) (Buffered.readArgsFrom a n args arg) := by
  induction n generalizing args arg with
  | zero => exact .pure args
  | succ n ih =>
    rw [readArgsFrom, Buffered.readArgsFrom]
    cases parseArg arg with
    | error e => exact .fail e
    | ok v =>
      refine (Restricts.lift _).bind (fun eol => ?_)
      split_ifs
      · exact .pure _
      · refine readArg_confines.bind (fun arg' => ?_)
        cases arg' with
        | none => exact .pure _
        | some arg' => exact ih _ arg'

lemma readArgs_confines : Confines a readArgs (Buffered.readArgs a) :=
  readNext_confines.bind (readArgsFrom_confines 3 [])

lemma pushChild_confines (b func : Block) :
    Confines a (Pure.pure (b.pushChild func)) (Buffered.pushChild a b func) := by
  refine Restricts.checks (fun h => ?_) (.pure _)
  have hone : UInt8.toNat 1 = 1 := rfl
  have hroom := (not_not.mp h).holds b.numchildren.toNat b.numchildren.toNat_lt
  rwa [UInt8.toNat_add, hone]

lemma compileHeader_confines (b : Block) : Confines a (compileHeader b) ((buffered a).compileHeader b) := by
  refine (Restricts.lift _).bind (fun _ => Restricts.fix (fun f g hfg b => ?_) b)
  refine readNext_confines.bind (fun string => ?_)
  split_ifs
  · exact .pure b
  · cases Directive.named (cstr string) with
    | none => exact .fail _
    | some d => exact readNext_confines.bind (fun tmp => hfg _)

lemma compileCode_confines (b : Block) : Confines a (compileCode b) ((buffered a).compileCode b) := by
  refine (Restricts.lift _).bind (fun _ => Restricts.fix (fun f g hfg b => ?_) b)
  refine readNext_confines.bind (fun string => ?_)
  split_ifs
  · exact .pure b
  · cases OpCode.named (cstr string) with
    | none => exact .fail _
    | some o => exact readArgs_confines.bind (fun args => hfg _)

variable (mem : Memory) {f : ConstState → Scan Block} {g : ConstState → Buffered.Scan Block}

lemma compileFunctionWith_confines (h : ∀ st, Confines a (f st) (g st)) (path : Path) (b : Block) :
    Confines a (compileFunctionWith mem f path b) ((buffered a).compileFunctionWith mem g path b) :=
  (compileHeader_confines b).bind (fun b => (compileCode_confines b).bind
    (fun _ => (Restricts.lift _).bind (fun _ => h _)))

lemma pushEntry_confines (h : ∀ st, Confines a (f st) (g st)) (st : ConstState) (tt : Tag) (value : Value) :
    Confines a (pushEntry f st tt value) ((buffered a).pushEntry g st tt value) := by
  rw [pushEntry, Scanners.pushEntry]
  cases st.push tt value with
  | none => exact .fail _
  | some st => exact h st

lemma constEntry_confines (h : ∀ st, Confines a (f st) (g st)) (st : ConstState) (c : ConstLine) :
    Confines a (constEntry mem f st c) ((buffered a).constEntry mem g st c) := by
  cases c with
  | close => exact .pure st.b
  | comment => exact h st
  | bad e => exact .fail e
  | null => exact pushEntry_confines h _ _ _
  | number n => exact pushEntry_confines h _ _ _
  | boolean n => exact pushEntry_confines h _ _ _
  | string text => exact pushEntry_confines h _ _ _
  | function =>
    refine (compileFunctionWith_confines mem h _ _).bind (fun func => ?_)
    have hpush := fun b => pushEntry_confines (a := a) h { st with b := b } .function st.t
    exact (pushChild_confines st.b func).bind hpush

theorem compileFunction_confines (path : Path) (b : Block) :
    Confines a (compileFunction mem path b) ((buffered a).compileFunction mem path b) := by
  refine compileFunctionWith_confines mem (Restricts.fix (fun f g hfg st => ?_)) path b
  exact readLine_confines.bind (fun string => constEntry_confines mem hfg st _)

lemma compileFile_confines (filename : CharPtr) :
    Confines a (compileFile mem filename) ((buffered a).compileFile mem filename) :=
  compileFunction_confines mem [] _

end Restricts

end Bijou
