import Bijou.Debug
import Bijou.Machine

namespace Bijou

open CString

structure Ended where
  status : ℕ
  out : List Byte
  err : List Byte

inductive Switch (σ : Type) where
  | set (f : σ → σ)
  | take (f : Option CStr → σ → Except Ended σ)
  | stop (e : Ended)

def dash : Byte := 45

def CStr.isSwitch (arg : CStr) : Bool := arg.chars.getD 0 0 == dash

def CStr.letter (arg : CStr) : Byte := arg.chars.getD 1 0

section Loop

variable {σ : Type} (usage : Ended) (switch : Byte → Switch σ)

/-- The loop over `argv`; a switch that takes a word finds a null pointer behind the last one. -/
def readArgv : σ → CStr → List CStr → Except Ended (σ × CStr)
  | s, inputfile, [] => .ok (s, inputfile)
  | s, inputfile, arg :: argv =>
    if arg.isSwitch then
      match switch arg.letter with
      | .set f => readArgv (f s) inputfile argv
      | .take f =>
        match argv with
        | [] => do return (← f none s, inputfile)
        | word :: argv => do readArgv (← f (some word) s) inputfile argv
      | .stop e => .error e
    else if inputfile.chars.length ≠ 0 then .error usage
    else readArgv s arg argv

def commandLine (s : σ) (argv : List CStr) : Except Ended (σ × CStr) :=
  if argv = [] then .error usage
  else do
    let (s, inputfile) ← readArgv usage switch s .empty argv
    if inputfile.chars.length = 0 then .error usage else return (s, inputfile)

end Loop

section Items

inductive Item where
  | word (w : CStr)
  | taking (w : CStr) (behind : Option CStr)

def Item.head : Item → CStr
  | word w => w
  | taking w _ => w

variable {σ : Type} (usage : Ended) (switch : Byte → Switch σ)

def Switch.takes : Switch σ → Bool
  | take _ => true
  | _ => false

def Switch.apply (behind : Option CStr) (s : σ) : Switch σ → Except Ended σ
  | set f => .ok (f s)
  | take f => f behind s
  | stop e => .error e

def items : List CStr → List Item
  | [] => []
  | arg :: argv =>
    if arg.isSwitch && (switch arg.letter).takes then
      match argv with
      | [] => [.taking arg none]
      | word :: argv => .taking arg (some word) :: items argv
    else .word arg :: items argv

def Item.act (s : σ) : Item → Except Ended σ
  | word w => if w.isSwitch then (switch w.letter).apply none s else .ok s
  | taking w behind => (switch w.letter).apply behind s

def Item.name? : Item → Option CStr
  | word w => if w.isSwitch then none else some w
  | taking _ _ => none

def Named : CStr → List CStr → CStr → Prop
  | file, [], file' => file = file'
  | file, n :: l, file' => file.chars.length = 0 ∧ Named n l file'

variable {usage} {switch}

lemma items_word {arg : CStr} (h : ¬ (arg.isSwitch && (switch arg.letter).takes) = true)
    (argv : List CStr) : items switch (arg :: argv) = .word arg :: items switch argv := by
  cases argv <;> simp [items, h]

lemma except_bind_ok {ε α β : Type} {x : Except ε α} {f : α → Except ε β} {b : β} :
    (x >>= f) = .ok b ↔ ∃ a, x = .ok a ∧ f a = .ok b := by
  cases x with
  | error e => exact iff_of_false nofun (fun ⟨_, h, _⟩ => nomatch h)
  | ok a => exact ⟨fun h => ⟨a, rfl, h⟩, fun ⟨_, ha, h⟩ => Except.ok.inj ha ▸ h⟩

lemma exists_ok {ε α : Type} {a : α} {p : α → Prop} :
    (∃ x, (Except.ok a : Except ε α) = .ok x ∧ p x) ↔ p a :=
  ⟨fun ⟨_, hx, h⟩ => Except.ok.inj hx ▸ h, fun h => ⟨a, rfl, h⟩⟩

lemma readArgv_switch {arg : CStr} (harg : arg.isSwitch = true)
    (h : ¬ (switch arg.letter).takes = true) (s : σ) (file : CStr) (argv : List CStr) :
    readArgv usage switch s file (arg :: argv) =
      (Item.act switch s (.word arg) >>= fun s => readArgv usage switch s file argv) := by
  rw [Item.act, if_pos harg]
  cases hs : switch arg.letter with
  | set f => cases argv <;> simp [readArgv, harg, hs, Switch.apply, bind, Except.bind]
  | take f => exact absurd (by rw [hs]; rfl) h
  | stop e => cases argv <;> simp [readArgv, harg, hs, Switch.apply, bind, Except.bind]

lemma readArgv_taking {arg : CStr} (h : (arg.isSwitch && (switch arg.letter).takes) = true) (s : σ)
    (file : CStr) (argv : List CStr) : readArgv usage switch s file (arg :: argv) =
      (Item.act switch s (.taking arg argv.head?) >>= fun s =>
        readArgv usage switch s file argv.tail) := by
  obtain ⟨harg, htakes⟩ := Bool.and_eq_true_iff.mp h
  rw [Item.act]
  cases hs : switch arg.letter with
  | set f => simp [hs, Switch.takes] at htakes
  | take f =>
    cases argv with
    | nil =>
      simp only [readArgv, harg, hs, Switch.apply, List.head?_nil, List.tail_nil, if_true]
      rfl
    | cons word argv => simp [readArgv, harg, hs, Switch.apply]
  | stop e => simp [hs, Switch.takes] at htakes

lemma readArgv_name {arg : CStr} (harg : arg.isSwitch = false) (s : σ) (file : CStr)
    (argv : List CStr) : readArgv usage switch s file (arg :: argv) =
      if file.chars.length ≠ 0 then .error usage else readArgv usage switch s arg argv := by
  cases argv <;> simp [readArgv, harg]

structure Follows (switch : Byte → Switch σ) (l : List Item) (s s' : σ) (file file' : CStr) : Prop where
  acts : l.foldlM (Item.act switch) s = .ok s'
  named : Named file (l.filterMap Item.name?) file'

lemma follows_nil {s s' : σ} {file file' : CStr} :
    Follows switch [] s s' file file' ↔ s = s' ∧ file = file' := by
  constructor
  · rintro ⟨hacts, hnamed⟩
    exact ⟨Except.ok.inj hacts, hnamed⟩
  · rintro ⟨rfl, rfl⟩
    exact ⟨rfl, rfl⟩

lemma follows_act {x : Item} (hx : x.name? = none) {l : List Item} {s s' : σ} {file file' : CStr} :
    Follows switch (x :: l) s s' file file' ↔
      ∃ s₁, x.act switch s = .ok s₁ ∧ Follows switch l s₁ s' file file' := by
  have hname : (x :: l).filterMap Item.name? = l.filterMap Item.name? := List.filterMap_cons_none hx
  constructor
  · rintro ⟨hacts, hnamed⟩
    rw [List.foldlM_cons, except_bind_ok] at hacts
    obtain ⟨s₁, hact, hacts⟩ := hacts
    exact ⟨s₁, hact, hacts, hname ▸ hnamed⟩
  · rintro ⟨s₁, hact, hacts, hnamed⟩
    refine ⟨?_, hname ▸ hnamed⟩
    rw [List.foldlM_cons, except_bind_ok]
    exact ⟨s₁, hact, hacts⟩

lemma follows_name {arg : CStr} (harg : ¬ arg.isSwitch = true) {l : List Item} {s s' : σ} {file file' : CStr} :
    Follows switch (.word arg :: l) s s' file file' ↔
      file.chars.length = 0 ∧ Follows switch l s s' arg file' := by
  have hact : Item.act switch s (.word arg) = .ok s := if_neg harg
  have hname : (Item.word arg :: l).filterMap Item.name? = arg :: l.filterMap Item.name? :=
    List.filterMap_cons_some (if_neg harg)
  have hfold : (Item.word arg :: l).foldlM (Item.act switch) s = l.foldlM (Item.act switch) s := by
    rw [List.foldlM_cons, hact]
    rfl
  constructor
  · rintro ⟨hacts, hnamed⟩
    rw [hname] at hnamed
    exact ⟨hnamed.1, hfold ▸ hacts, hnamed.2⟩
  · rintro ⟨hfile, hacts, hnamed⟩
    refine ⟨hfold ▸ hacts, ?_⟩
    rw [hname]
    exact ⟨hfile, hnamed⟩

lemma readArgv_ok_iff (argv : List CStr) : ∀ (s s' : σ) (file file' : CStr),
    readArgv usage switch s file argv = .ok (s', file') ↔ Follows switch (items switch argv) s s' file file' := by
  induction argv using items.induct switch with
  | case1 =>
    intro s s' file file'
    rw [items, follows_nil, readArgv, Except.ok.injEq, Prod.mk.injEq]
  | case2 arg h =>
    intro s s' file file'
    rw [readArgv_taking h, items, if_pos h, except_bind_ok, follows_act rfl]
    simp only [List.tail_nil, readArgv, follows_nil, Except.ok.injEq, Prod.mk.injEq]
    rfl
  | case3 arg h word argv ih =>
    intro s s' file file'
    rw [readArgv_taking h, items, if_pos h, except_bind_ok, follows_act rfl]
    exact exists_congr fun s₁ => and_congr_right fun _ => ih s₁ s' file file'
  | case4 arg argv h ih =>
    intro s s' file file'
    rw [items_word h]
    by_cases harg : arg.isSwitch = true
    · have htakes : ¬ (switch arg.letter).takes = true := by simpa [harg] using h
      have hname : (Item.word arg).name? = none := if_pos harg
      rw [readArgv_switch harg htakes, except_bind_ok, follows_act hname]
      exact exists_congr fun s₁ => and_congr_right fun _ => ih s₁ s' file file'
    · rw [readArgv_name (Bool.not_eq_true _ ▸ harg), follows_name harg]
      by_cases hfile : file.chars.length = 0
      · rw [if_neg (not_not.mpr hfile), ih, and_iff_right hfile]
      · rw [if_pos hfile]
        exact iff_of_false nofun (fun h => hfile h.1)

lemma named_iff (l : List CStr) : ∀ (file file' : CStr), file'.chars.length ≠ 0 →
    file.chars.length = 0 → (Named file l file' ↔ ∃ k, l = List.replicate k .empty ++ [file']) := by
  induction l with
  | nil =>
    intro file file' hfile' hfile
    refine iff_of_false ?_ (fun ⟨k, h⟩ => by simp at h)
    rintro rfl
    exact hfile' hfile
  | cons n l ih =>
    intro file file' hfile' hfile
    rw [Named]
    by_cases hn : n.chars.length = 0
    · have hempty : n = .empty := Subtype.ext (List.eq_nil_of_length_eq_zero hn)
      rw [ih n file' hfile' hn, hempty]
      constructor
      · rintro ⟨-, k, rfl⟩
        exact ⟨k + 1, rfl⟩
      · rintro ⟨k, hk⟩
        cases k with
        | zero =>
          obtain ⟨heq, -⟩ := List.cons.inj hk
          exact absurd (heq ▸ rfl) hfile'
        | succ k => exact ⟨hfile, k, (List.cons.inj hk).2⟩
    · constructor
      · rintro ⟨-, hnamed⟩
        cases l with
        | nil => exact ⟨0, congrArg (fun f => [f]) hnamed⟩
        | cons m l => exact absurd hnamed.1 hn
      · rintro ⟨k, hk⟩
        cases k with
        | zero =>
          obtain ⟨rfl, rfl⟩ := List.cons.inj hk
          exact ⟨hfile, rfl⟩
        | succ k =>
          obtain ⟨heq, -⟩ := List.cons.inj hk
          exact absurd (heq ▸ rfl) hn

lemma commandLine_ok_iff {s s' : σ} {argv : List CStr} {file : CStr} :
    commandLine usage switch s argv = .ok (s', file) ↔ file.chars.length ≠ 0 ∧
      (∃ k, (items switch argv).filterMap Item.name? = List.replicate k .empty ++ [file]) ∧
      (items switch argv).foldlM (Item.act switch) s = .ok s' := by
  have hempty : CStr.empty.chars.length = 0 := rfl
  rw [commandLine]
  by_cases hargv : argv = []
  · subst hargv
    refine iff_of_false (by rw [if_pos rfl]; exact nofun) ?_
    rintro ⟨-, ⟨k, hk⟩, -⟩
    rw [items, List.filterMap_nil] at hk
    simp at hk
  rw [if_neg hargv, except_bind_ok]
  constructor
  · rintro ⟨⟨s₁, file₁⟩, harguments, hrest⟩
    dsimp only at hrest
    split_ifs at hrest with hlength
    cases hrest
    obtain ⟨hfold, hnamed⟩ := (readArgv_ok_iff argv s s' .empty file).mp harguments
    exact ⟨hlength, (named_iff _ .empty file hlength hempty).mp hnamed, hfold⟩
  · rintro ⟨hlength, hnames, hfold⟩
    have hnamed := (named_iff _ .empty file hlength hempty).mpr hnames
    refine ⟨(s', file), (readArgv_ok_iff argv s s' .empty file).mpr ⟨hfold, hnamed⟩, ?_⟩
    exact if_neg hlength

end Items

def unrecognized (usage : Ended) (c : Byte) : Ended :=
  ⟨1, [], bytes "Unrecognized switch -" ++ [c] ++ bytes "\n" ++ usage.err⟩

section Read

variable {σ : Type} (switch : Byte → Switch σ) (argv : List CStr)

def Item.letter? : Item → Option Byte
  | word w => if w.isSwitch then some w.letter else none
  | taking w _ => some w.letter

def Item.behind? : Item → Option (Option CStr)
  | word _ => none
  | taking _ behind => some behind

def names : List CStr := (items switch argv).filterMap Item.name?

def letters : List Byte := (items switch argv).filterMap Item.letter?

def behinds : List (Option CStr) := (items switch argv).filterMap Item.behind?

end Read

section Proper

variable {σ : Type} {switch : Byte → Switch σ}

def Item.Proper (switch : Byte → Switch σ) : Item → Prop
  | word w => w.isSwitch = true → (switch w.letter).takes = false
  | taking w _ => w.isSwitch = true ∧ (switch w.letter).takes = true

lemma items_proper (argv : List CStr) : ∀ i ∈ items switch argv, i.Proper switch := by
  induction argv using items.induct switch with
  | case1 => exact List.forall_mem_nil _
  | case2 arg h =>
    rw [items, if_pos h]
    exact List.forall_mem_singleton.mpr (Bool.and_eq_true_iff.mp h)
  | case3 arg h word argv ih =>
    rw [items, if_pos h]
    exact List.forall_mem_cons.mpr ⟨Bool.and_eq_true_iff.mp h, ih⟩
  | case4 arg argv h ih =>
    rw [items_word h]
    refine List.forall_mem_cons.mpr ⟨fun harg => ?_, ih⟩
    simpa [harg] using h

variable {i : Item} {l : List Item}

lemma Item.Proper.cases (h : i.Proper switch) (l : List Item) (s : σ) :
    (i.act switch s = .ok s ∧ (i :: l).filterMap letter? = l.filterMap letter? ∧
      (i :: l).filterMap behind? = l.filterMap behind?) ∨
    (∃ c, i.act switch s = (switch c).apply none s ∧ (switch c).takes = false ∧
      (i :: l).filterMap letter? = c :: l.filterMap letter? ∧
      (i :: l).filterMap behind? = l.filterMap behind?) ∨
    ∃ c behind, i.act switch s = (switch c).apply behind s ∧ (switch c).takes = true ∧
      (i :: l).filterMap letter? = c :: l.filterMap letter? ∧
      (i :: l).filterMap behind? = behind :: l.filterMap behind? := by
  cases i with
  | word w =>
    by_cases hw : w.isSwitch = true
    · exact .inr (.inl ⟨w.letter, if_pos hw, h hw, List.filterMap_cons_some (if_pos hw),
        List.filterMap_cons_none rfl⟩)
    · exact .inl ⟨if_neg hw, List.filterMap_cons_none (if_neg hw), List.filterMap_cons_none rfl⟩
  | taking w behind =>
    exact .inr (.inr ⟨w.letter, behind, rfl, h.2, List.filterMap_cons_some rfl,
      List.filterMap_cons_some rfl⟩)

end Proper

namespace Bijouc

structure Settings where
  outputfile : Option CStr
  options : BitVec 32

def usage : Ended where
  status := 1
  out := []
  err := bytes "Usage:\nbijouc [options] file\n" ++
    bytes "-o\tSpecify an output file (default is 'b.out')\n" ++
    bytes "-v\tOutput version and exit\n" ++ bytes "-p\tParse only, don't generate output\n" ++
    bytes "-d\tDebug, display some extra information\n" ++ bytes "-h\tDisplay this help message\n"

def switch (c : Byte) : Switch Settings :=
  if c = 'o'.toUInt8 then .take fun outputfile s => .ok { s with outputfile }
  else if c = 'v'.toUInt8 then .stop ⟨0, bytes "Version 0.5\n", []⟩
  else if c = 'p'.toUInt8 then .set fun s => { s with options := s.options ||| Traced.optParse }
  else if c = 'd'.toUInt8 then .set fun s => { s with options := s.options ||| Traced.optDebug }
  else if c = 'h'.toUInt8 then .stop usage
  else .stop (unrecognized usage c)

def line (argv : List CStr) : Except Ended (Settings × CStr) :=
  commandLine usage switch ⟨some (CStr.at (bytes "b.out")), 0⟩ argv

def optionsOf (l : List Byte) : BitVec 32 :=
  (if 'p'.toUInt8 ∈ l then Traced.optParse else 0) ||| if 'd'.toUInt8 ∈ l then Traced.optDebug else 0

lemma or_ite (a : BitVec 32) (p : Prop) [Decidable p] : a ||| (if p then a else 0) = a := by
  split_ifs
  · exact BitVec.or_self
  · exact BitVec.or_zero

lemma optionsOf_parse (o : BitVec 32) (l : List Byte) :
    o ||| Traced.optParse ||| optionsOf l = o ||| optionsOf ('p'.toUInt8 :: l) := by
  have hd : 'd'.toUInt8 ≠ 'p'.toUInt8 := by decide
  simp only [optionsOf, List.mem_cons, true_or, if_true, hd, false_or]
  rw [BitVec.or_assoc, ← BitVec.or_assoc Traced.optParse, or_ite]

lemma optionsOf_debug (o : BitVec 32) (l : List Byte) :
    o ||| Traced.optDebug ||| optionsOf l = o ||| optionsOf ('d'.toUInt8 :: l) := by
  have hp : 'p'.toUInt8 ≠ 'd'.toUInt8 := by decide
  simp only [optionsOf, List.mem_cons, true_or, if_true, hp, false_or]
  rw [BitVec.or_assoc, BitVec.or_comm _ (if 'd'.toUInt8 ∈ l then _ else _),
    ← BitVec.or_assoc Traced.optDebug, or_ite, BitVec.or_comm Traced.optDebug]

lemma optionsOf_output (l : List Byte) : optionsOf ('o'.toUInt8 :: l) = optionsOf l := by
  have hp : 'p'.toUInt8 ≠ 'o'.toUInt8 := by decide
  have hd : 'd'.toUInt8 ≠ 'o'.toUInt8 := by decide
  simp only [optionsOf, List.mem_cons, hp, hd, false_or]

lemma switch_cases (c : Byte) :
    c = 'o'.toUInt8 ∧ switch c = .take (fun outputfile s => .ok { s with outputfile }) ∨
    c = 'p'.toUInt8 ∧ switch c = .set (fun s => { s with options := s.options ||| Traced.optParse }) ∨
    c = 'd'.toUInt8 ∧ switch c = .set (fun s => { s with options := s.options ||| Traced.optDebug }) ∨
    c ∉ bytes "opd" ∧ ∃ e, switch c = .stop e := by
  by_cases ho : c = 'o'.toUInt8
  · exact .inl ⟨ho, if_pos ho⟩
  by_cases hp : c = 'p'.toUInt8
  · exact .inr (.inl ⟨hp, by subst hp; rfl⟩)
  by_cases hd : c = 'd'.toUInt8
  · exact .inr (.inr (.inl ⟨hd, by subst hd; rfl⟩))
  have hnot : c ∉ bytes "opd" := by
    have hbytes : bytes "opd" = ['o'.toUInt8, 'p'.toUInt8, 'd'.toUInt8] := rfl
    rw [hbytes]
    simp only [List.mem_cons, List.not_mem_nil, ho, hp, hd, or_false, not_false_eq_true]
  refine .inr (.inr (.inr ⟨hnot, ?_⟩))
  rw [switch, if_neg ho, if_neg hp, if_neg hd]
  split_ifs
  · exact ⟨_, rfl⟩
  · exact ⟨_, rfl⟩
  · exact ⟨_, rfl⟩

lemma foldlM_ok_iff (l : List Item) (hl : ∀ i ∈ l, i.Proper switch) : ∀ s s' : Settings,
    l.foldlM (Item.act switch) s = .ok s' ↔
      (∀ c ∈ l.filterMap Item.letter?, c ∈ bytes "opd") ∧
        s' = ⟨(l.filterMap Item.behind?).getLast?.getD s.outputfile,
          s.options ||| optionsOf (l.filterMap Item.letter?)⟩ := by
  induction l with
  | nil =>
    intro s s'
    rw [List.foldlM_nil]
    have hzero : s.options ||| optionsOf [] = s.options := BitVec.or_zero
    simp only [pure, Except.pure, Except.ok.injEq, List.filterMap_nil, List.not_mem_nil,
      false_imp_iff, implies_true, true_and, hzero]
    exact eq_comm
  | cons i l ih =>
    intro s s'
    have hrest := ih (fun i hi => hl i (List.mem_cons_of_mem _ hi))
    rw [List.foldlM_cons, except_bind_ok]
    rcases (hl i List.mem_cons_self).cases l s with ⟨hact, hletters, hbehinds⟩ |
      ⟨c, hact, htakes, hletters, hbehinds⟩ | ⟨c, behind, hact, htakes, hletters, hbehinds⟩ <;>
      rw [hact, hletters, hbehinds]
    · rw [exists_ok, hrest]
    · rw [List.forall_mem_cons]
      rcases switch_cases c with ⟨-, hs⟩ | ⟨hc, hs⟩ | ⟨hc, hs⟩ | ⟨hc, e, hs⟩
      · rw [hs] at htakes
        cases htakes
      · rw [hs, hc, Switch.apply, exists_ok, hrest, optionsOf_parse]
        exact ⟨fun h => ⟨⟨by decide, h.1⟩, h.2⟩, fun h => ⟨h.1.2, h.2⟩⟩
      · rw [hs, hc, Switch.apply, exists_ok, hrest, optionsOf_debug]
        exact ⟨fun h => ⟨⟨by decide, h.1⟩, h.2⟩, fun h => ⟨h.1.2, h.2⟩⟩
      · rw [hs, Switch.apply]
        exact iff_of_false (fun ⟨_, h, _⟩ => nomatch h) (fun h => hc h.1.1)
    · rw [List.forall_mem_cons]
      rcases switch_cases c with ⟨hc, hs⟩ | ⟨-, hs⟩ | ⟨-, hs⟩ | ⟨-, e, hs⟩
      · rw [hs, hc, Switch.apply, exists_ok, hrest, optionsOf_output, List.getLast?_cons]
        exact ⟨fun h => ⟨⟨by decide, h.1⟩, h.2⟩, fun h => ⟨h.1.2, h.2⟩⟩
      · rw [hs] at htakes
        cases htakes
      · rw [hs] at htakes
        cases htakes
      · rw [hs] at htakes
        cases htakes

end Bijouc

namespace BijouMain

structure Settings where
  dump : BitVec 32
  libs : List Library

def usage : Ended where
  status := 1
  out := []
  err := bytes "Usage:\nbijou [options] file\n" ++ bytes "-d\tDump bytecode in human readable format\n" ++
    bytes "-l\tLink to a dynamically loaded library\n" ++ bytes "-v\tDisplay version and exit\n" ++
    bytes "-h\tDisplay this help text\n"

variable (place : List Byte) (load : CStr → Except CStr Library)

def link : Option CStr → Settings → Except Ended Settings
  | none, _ => .error ⟨1, [], bytes "Expected lib name\n" ++ usage.err⟩
  | some arg, s =>
    match load arg with
    | .ok handle => .ok { s with libs := s.libs ++ [handle] }
    | .error e =>
      .error ⟨1, [], place ++ bytes ": Error occured on dynamic load: " ++ e.chars ++ bytes "\n"⟩

def switch (c : Byte) : Switch Settings :=
  if c = 'd'.toUInt8 then .set fun s => { s with dump := 1 }
  else if c = 'l'.toUInt8 then .take (link place load)
  else if c = 'v'.toUInt8 then .stop ⟨0, bytes "Bijou v0.5\n", []⟩
  else if c = 'h'.toUInt8 then .stop usage
  else .stop (unrecognized usage c)

def line (argv : List CStr) : Except Ended (Settings × CStr) :=
  commandLine usage (switch place load) ⟨0, []⟩ argv

variable {place} {load}

lemma switch_cases (c : Byte) :
    c = 'd'.toUInt8 ∧ switch place load c = .set (fun s => { s with dump := 1 }) ∨
    c = 'l'.toUInt8 ∧ switch place load c = .take (link place load) ∨
    c ∉ bytes "dl" ∧ ∃ e, switch place load c = .stop e := by
  by_cases hd : c = 'd'.toUInt8
  · exact .inl ⟨hd, if_pos hd⟩
  by_cases hl : c = 'l'.toUInt8
  · exact .inr (.inl ⟨hl, by subst hl; rfl⟩)
  have hnot : c ∉ bytes "dl" := by
    have hbytes : bytes "dl" = ['d'.toUInt8, 'l'.toUInt8] := rfl
    rw [hbytes]
    simp only [List.mem_cons, List.not_mem_nil, hd, hl, or_false, not_false_eq_true]
  refine .inr (.inr ⟨hnot, ?_⟩)
  rw [switch, if_neg hd, if_neg hl]
  split_ifs
  · exact ⟨_, rfl⟩
  · exact ⟨_, rfl⟩
  · exact ⟨_, rfl⟩

variable (load) in
def Linked (behind : Option CStr) (lib : Library) : Prop := ∃ arg, behind = some arg ∧ load arg = .ok lib

lemma link_ok_iff {behind : Option CStr} {s s' : Settings} : link place load behind s = .ok s' ↔
    ∃ lib, Linked load behind lib ∧ s' = { s with libs := s.libs ++ [lib] } := by
  cases behind with
  | none => exact iff_of_false nofun (fun ⟨_, ⟨_, h, _⟩, _⟩ => nomatch h)
  | some arg =>
    rw [link]
    cases hload : load arg with
    | error e =>
      refine iff_of_false nofun ?_
      rintro ⟨lib, ⟨arg', harg, hlib⟩, -⟩
      rw [← Option.some.inj harg, hload] at hlib
      cases hlib
    | ok lib =>
      constructor
      · intro h
        exact ⟨lib, ⟨arg, rfl, hload⟩, (Except.ok.inj h).symm⟩
      · rintro ⟨lib', ⟨arg', harg, hlib⟩, rfl⟩
        rw [← Option.some.inj harg, hload] at hlib
        cases hlib
        rfl

lemma foldlM_ok_iff (l : List Item) (hl : ∀ i ∈ l, i.Proper (switch place load)) : ∀ s s' : Settings,
    l.foldlM (Item.act (switch place load)) s = .ok s' ↔
      (∀ c ∈ l.filterMap Item.letter?, c ∈ bytes "dl") ∧
        ∃ libs, List.Forall₂ (Linked load) (l.filterMap Item.behind?) libs ∧
          s' = ⟨if 'd'.toUInt8 ∈ l.filterMap Item.letter? then 1 else s.dump, s.libs ++ libs⟩ := by
  induction l with
  | nil =>
    intro s s'
    rw [List.foldlM_nil]
    simp only [pure, Except.pure, Except.ok.injEq, List.filterMap_nil, List.not_mem_nil,
      false_imp_iff, implies_true, true_and, if_false, List.forall₂_nil_left_iff, exists_eq_left,
      List.append_nil]
    exact eq_comm
  | cons i l ih =>
    intro s s'
    have hrest := ih (fun i hi => hl i (List.mem_cons_of_mem _ hi))
    rw [List.foldlM_cons, except_bind_ok]
    rcases (hl i List.mem_cons_self).cases l s with ⟨hact, hletters, hbehinds⟩ |
      ⟨c, hact, htakes, hletters, hbehinds⟩ | ⟨c, behind, hact, htakes, hletters, hbehinds⟩ <;>
      rw [hact, hletters, hbehinds]
    · rw [exists_ok, hrest]
    · rw [List.forall_mem_cons]
      rcases @switch_cases place load c with ⟨hc, hs⟩ | ⟨-, hs⟩ | ⟨hc, e, hs⟩
      · rw [hs, hc, Switch.apply, exists_ok, hrest, if_pos List.mem_cons_self, ite_self]
        exact ⟨fun h => ⟨⟨by decide, h.1⟩, h.2⟩, fun h => ⟨h.1.2, h.2⟩⟩
      · rw [hs] at htakes
        cases htakes
      · rw [hs, Switch.apply]
        exact iff_of_false (fun ⟨_, h, _⟩ => nomatch h) (fun h => hc h.1.1)
    · rw [List.forall_mem_cons]
      rcases @switch_cases place load c with ⟨-, hs⟩ | ⟨hc, hs⟩ | ⟨-, e, hs⟩
      · rw [hs] at htakes
        cases htakes
      · have hletter : 'd'.toUInt8 ∈ 'l'.toUInt8 :: l.filterMap Item.letter? ↔
            'd'.toUInt8 ∈ l.filterMap Item.letter? := by
          have hne : 'd'.toUInt8 ≠ 'l'.toUInt8 := by decide
          simp only [List.mem_cons, hne, false_or]
        rw [hs, hc, Switch.apply]
        simp only [hletter, link_ok_iff, hrest]
        constructor
        · rintro ⟨-, ⟨lib, hlib, rfl⟩, hall, libs, hlibs, rfl⟩
          refine ⟨⟨by decide, hall⟩, lib :: libs, .cons hlib hlibs, ?_⟩
          rw [List.append_assoc]
          rfl
        · rintro ⟨⟨-, hall⟩, libs, hlibs, rfl⟩
          obtain ⟨lib, libs, hlib, hmore, rfl⟩ := List.forall₂_cons_left_iff.mp hlibs
          refine ⟨_, ⟨lib, hlib, rfl⟩, hall, libs, hmore, ?_⟩
          rw [List.append_assoc]
          rfl
      · rw [hs] at htakes
        cases htakes

end BijouMain

/-- The assembler goes on to its files for exactly the lines of switches `-o`, `-p` and `-d` and of one
name, behind empty ones at most; the last `-o` tells the file that is written. -/
theorem bijouc_line_iff {argv : List CStr} {s : Bijouc.Settings} {file : CStr} :
    Bijouc.line argv = .ok (s, file) ↔ file.chars.length ≠ 0 ∧
      (∃ k, names Bijouc.switch argv = List.replicate k .empty ++ [file]) ∧
      (∀ c ∈ letters Bijouc.switch argv, c ∈ bytes "opd") ∧
      s.outputfile = (behinds Bijouc.switch argv).getLast?.getD (some (CStr.at (bytes "b.out"))) ∧
      s.options = Bijouc.optionsOf (letters Bijouc.switch argv) := by
  have hstart : ∀ l, (0 : BitVec 32) ||| Bijouc.optionsOf l = Bijouc.optionsOf l :=
    fun l => BitVec.zero_or
  rw [Bijouc.line, commandLine_ok_iff, Bijouc.foldlM_ok_iff _ (items_proper argv), hstart]
  refine and_congr_right (fun _ => and_congr_right (fun _ => and_congr_right (fun _ => ?_)))
  obtain ⟨outputfile, options⟩ := s
  exact Bijouc.Settings.mk.injEq .. ▸ Iff.rfl

/-- The machine goes on to its file for exactly the lines of switches `-d` and `-l` and of one name,
behind empty ones at most, where every `-l` has a word behind it that names a library. -/
theorem bijou_line_iff {place : List Byte} {load : CStr → Except CStr Library} {argv : List CStr}
    {s : BijouMain.Settings} {file : CStr} :
    BijouMain.line place load argv = .ok (s, file) ↔ file.chars.length ≠ 0 ∧
      (∃ k, names (BijouMain.switch place load) argv = List.replicate k .empty ++ [file]) ∧
      (∀ c ∈ letters (BijouMain.switch place load) argv, c ∈ bytes "dl") ∧
      List.Forall₂ (BijouMain.Linked load) (behinds (BijouMain.switch place load) argv) s.libs ∧
      s.dump = if 'd'.toUInt8 ∈ letters (BijouMain.switch place load) argv then 1 else 0 := by
  rw [BijouMain.line, commandLine_ok_iff, BijouMain.foldlM_ok_iff _ (items_proper argv)]
  refine and_congr_right (fun _ => and_congr_right (fun _ => and_congr_right (fun _ => ?_)))
  constructor
  · rintro ⟨libs, hlibs, rfl⟩
    exact ⟨hlibs, rfl⟩
  · rintro ⟨hlibs, hdump⟩
    refine ⟨s.libs, hlibs, ?_⟩
    change s = ⟨if 'd'.toUInt8 ∈ letters (BijouMain.switch place load) argv then 1 else 0, s.libs⟩
    rw [← hdump]

end Bijou
