import Bijou.Buffers
import Bijou.Commands
import Bijou.Preservation
import Bijou.Truncation

/-! The two programs of the repository, bijouc and bijou, from their command lines to the files that
they read and write. -/

namespace Bijou

open CString Incremental Runs

abbrev Files := CStr → Option (List Byte)

/-- The end of a program: its status and the files that it leaves, or an access to memory that is not
there. -/
inductive Fate where
  | ended (status : ℕ) (files : Files)
  | fault

section Assembler

variable (a : Allocator) (mem : Memory) (strcpy : Strcpy) (padding : List Output → BitVec 48)
  (writable : CStr → Bool)

def openOutput (s : Bijouc.Settings) (files : Files) : Option (Option CStr × Files) :=
  if s.options &&& Traced.optParse ≠ 0 then some (none, files)
  else do
    let name ← s.outputfile
    return if writable name then (some name, Function.update files name (some [])) else (none, files)

def finish (options : BitVec 32) (out : Option CStr) (files : Files) (b : Block) : Fate :=
  if logicalNot options &&& Traced.optParse ≠ 0 then
    match out with
    | none => .fault
    | some name =>
      let files := Function.update files name (some (fileBytes strcpy padding b))
      match (bijouDump strcpy padding (toProto b) []).2 with
      | .ok _ => .ended 0 files
      | .error .outOfBounds => .fault
      | .error _ => .ended 1 files
  else if options &&& Traced.optParse = 0 ∧ out = none then .fault
  else .ended 0 files

/-- main of bijouc.c, where `fgetc` returns EOF `k` times behind the source; there is no end yet if it
reads on. What -d prints on the way is left to `Traced.compileFile`. -/
def bijouc (k : ℕ) (argv : List CStr) (files : Files) : Option Fate :=
  match Bijouc.line argv with
  | .error e => some (.ended e.status files)
  | .ok (s, inputfile) =>
    match openOutput writable s files with
    | none => some .fault
    | some (out, files') =>
      if files inputfile = none then some (.ended 1 files')
      else
        match (Scanners.buffered a).compileFile mem (.to inputfile)
            ((files' inputfile).getD [] ++ List.replicate k eof) with
        | .await _ => none
        | .exit .overrun => some .fault
        | .exit (.error .nullCompare) => some .fault
        | .exit (.error _) => some (.ended 1 files')
        | .done b _ => some (finish strcpy padding s.options out files' b)

end Assembler

section Machine

variable (host : Host) (lmem : LoadMemory) (place : List Byte) (load : CStr → Except CStr Library)

/-- main of bijou.c up to the call of bijou_interpret: an end before it, or the program and the state
that it is called in. With -d it comes first to BijouBlock_dump, which can fault. -/
inductive Start where
  | ended (status : ℕ)
  | fault
  | lists (prog : Block) (s : Shared)
  | runs (prog : Block) (s : Shared)

def bijou (k : ℕ) (argv : List CStr) (files : Files) : Option Start :=
  match BijouMain.line place load argv with
  | .error e => some (.ended e.status)
  | .ok (s, inputfile) =>
    match files inputfile with
    | none => some (.ended 1)
    | some content =>
      match bijouLoad reader lmem (content ++ List.replicate k eof) with
      | .await _ => none
      | .exit _ => some (.ended 1)
      | .done p _ =>
        match protoToBlock lmem p with
        | none => some .fault
        | some (numglobal, prog) =>
          let shared := Shared.loaded host prog (s.libs.map some) numglobal.toNat
          some (if s.dump ≠ 0 then .lists prog shared else .runs prog shared)

end Machine

section Effect

variable {a : Allocator} {mem : Memory} {strcpy : Strcpy} {padding : List Output → BitVec 48}
  {writable : CStr → Bool} {files files' : Files} {options : BitVec 32} {out : Option CStr} {status k : ℕ}
  {b : Block} {file : List Byte}

lemma compileFile_of_eofs {filename : CharPtr} {r : List Byte}
    (h : compileFile mem filename (file ++ List.replicate k eof) = .done b r) :
    ∃ r', compileFile mem filename file = .done b r' :=
  (compileFunction_resolves mem [] _ file).done_of_done (compileFunction_steady mem [] _) h

lemma buffered_exit {filename : CharPtr} {e : CompileError}
    (h : (Scanners.buffered a).compileFile mem filename (file ++ List.replicate k eof) = .exit (.error e)) :
    ∀ b r, compileFile mem filename file ≠ .done b r := by
  intro b r hdone
  have hsteady : Steady (compileFile mem filename) file := compileFunction_steady mem [] _ file
  have hmore := hsteady.append_done hdone (List.replicate k eof)
  have hexit := (compileFile_confines mem filename).exit (fun _ _ => Fault.error.inj)
    (show Fault.error e ≠ .overrun by simp) h
  cases hexit.symm.trans hmore

lemma buffered_done {filename : CharPtr} {r : List Byte}
    (h : (Scanners.buffered a).compileFile mem filename (file ++ List.replicate k eof) = .done b r) :
    ∃ r', compileFile mem filename file = .done b r' :=
  compileFile_of_eofs ((compileFile_confines mem filename).done h)

lemma finish_ended (h : finish strcpy padding options out files b = .ended status files') :
    options = 0 ∧ (∃ name, out = some name ∧
        files' = Function.update files name (some (fileBytes strcpy padding b))) ∧
        (status = 0 ↔ ∃ x, (bijouDump strcpy padding (toProto b) []).2 = .ok x) ∨
      options ≠ 0 ∧ files' = files ∧ status = 0 := by
  rw [finish.eq_def] at h
  by_cases hoptions : options = 0
  · rw [if_pos ((dumps_iff options).mpr hoptions)] at h
    cases out with
    | none => cases h
    | some name =>
      dsimp only at h
      rcases hdump : (bijouDump strcpy padding (toProto b) []).2 with e | x
      · rw [hdump] at h
        have hfiles : status = 1 ∧ files' = Function.update files name (some (fileBytes strcpy padding b)) := by
          cases e with
          | outOfBounds => cases h
          | unterminated str =>
            cases h
            exact ⟨rfl, rfl⟩
          | unrecognized c str =>
            cases h
            exact ⟨rfl, rfl⟩
        obtain ⟨rfl, rfl⟩ := hfiles
        exact .inl ⟨hoptions, ⟨name, rfl, rfl⟩, iff_of_false (by decide) nofun⟩
      · rw [hdump] at h
        cases h
        exact .inl ⟨hoptions, ⟨name, rfl, rfl⟩, iff_of_true rfl ⟨x, rfl⟩⟩
  · rw [if_neg (fun hne => hoptions ((dumps_iff options).mp hne))] at h
    split_ifs at h
    cases h
    exact .inr ⟨hoptions, rfl, rfl⟩

def Bijouc.Settings.Overwrites (writable : CStr → Bool) (s : Bijouc.Settings) (n : CStr) : Prop :=
  s.options &&& Traced.optParse = 0 ∧ s.outputfile = some n ∧ writable n = true

instance (s : Bijouc.Settings) (n : CStr) : Decidable (s.Overwrites writable n) :=
  inferInstanceAs (Decidable (_ ∧ _ ∧ _))

def Bijouc.Settings.source (writable : CStr → Bool) (s : Bijouc.Settings) (files : Files)
    (inputfile : CStr) : List Byte :=
  if s.Overwrites writable inputfile then [] else (files inputfile).getD []

variable {s : Bijouc.Settings} {inputfile : CStr} {argv : List CStr}

lemma openOutput_cases (h : openOutput writable s files = some (out, files')) :
    (∀ n, out = some n ↔ s.Overwrites writable n) ∧
      ∀ n, files' n = if s.Overwrites writable n then some [] else files n := by
  rw [openOutput] at h
  by_cases hparse : s.options &&& Traced.optParse = 0
  · rw [if_neg (not_not.mpr hparse)] at h
    obtain ⟨name, hname, h⟩ := Option.bind_eq_some_iff.mp h
    have hover : ∀ n, s.Overwrites writable n ↔ n = name ∧ writable name = true := by
      intro n
      rw [Bijouc.Settings.Overwrites, hname]
      constructor
      · rintro ⟨-, heq, hn⟩
        obtain rfl := Option.some.inj heq
        exact ⟨rfl, hn⟩
      · rintro ⟨rfl, hn⟩
        exact ⟨hparse, rfl, hn⟩
    have hpair := Option.some.inj h
    by_cases hn : writable name = true
    · rw [if_pos hn] at hpair
      cases hpair
      refine ⟨fun n => ?_, fun n => ?_⟩
      · rw [hover, Option.some.injEq]
        exact ⟨fun heq => ⟨heq.symm, hn⟩, fun h => h.1.symm⟩
      · simp only [hover, hn, and_true, Function.update_apply]
    · rw [if_neg hn] at hpair
      cases hpair
      have hnone : ∀ n, ¬ s.Overwrites writable n := fun n h => hn ((hover n).mp h).2
      exact ⟨fun n => iff_of_false nofun (hnone n), fun n => (if_neg (hnone n)).symm⟩
  · rw [if_pos hparse] at h
    cases h
    have hnone : ∀ n, ¬ s.Overwrites writable n := fun n h => hparse h.1
    exact ⟨fun n => iff_of_false nofun (hnone n), fun n => (if_neg (hnone n)).symm⟩

lemma opened_source (h : openOutput writable s files = some (out, files')) (inputfile : CStr) :
    (files' inputfile).getD [] = s.source writable files inputfile := by
  rw [(openOutput_cases h).2, Bijouc.Settings.source]
  split_ifs
  · rfl
  · rfl

lemma accepted_ended {filename : CharPtr} {files₁ : Files} {r : List Byte}
    (hopen : openOutput writable s files = some (out, files₁))
    (hdone : compileFile mem filename file = .done b r)
    (hend : finish strcpy padding s.options out files₁ b = .ended status files') :
    (∀ n, files' n = if s.Overwrites writable n then
        some (compiledBytes strcpy mem padding filename s.options file) else files n) ∧
      (status = 0 ↔ (s.options = 0 → ∃ x, (bijouDump strcpy padding (toProto b) []).2 = .ok x)) := by
  obtain ⟨hout, hfiles⟩ := openOutput_cases hopen
  rw [compiledBytes_done strcpy mem padding filename s.options hdone]
  rcases finish_ended hend with ⟨hoptions, ⟨name, hname, rfl⟩, hstatus⟩ | ⟨hoptions, rfl, rfl⟩
  · refine ⟨fun n => ?_, hstatus.trans ⟨fun h _ => h, fun h => h hoptions⟩⟩
    have hn : n = name ↔ s.Overwrites writable n := by
      rw [← hout, hname, Option.some.injEq]
      exact eq_comm
    rw [if_pos hoptions, Function.update_apply, hfiles]
    simp only [hn]
    split_ifs
    · rfl
    · rfl
  · refine ⟨fun n => ?_, iff_of_true rfl (fun h => absurd h hoptions)⟩
    rw [if_neg hoptions, hfiles]

lemma rejected_files {filename : CharPtr} {files₁ : Files}
    (hopen : openOutput writable s files = some (out, files₁))
    (hrejected : ∀ b r, compileFile mem filename file ≠ .done b r) (n : CStr) :
    files₁ n = if s.Overwrites writable n then
      some (compiledBytes strcpy mem padding filename s.options file) else files n := by
  rw [(openOutput_cases hopen).2, compiledBytes_rejected strcpy mem padding filename s.options hrejected]

lemma bijouc_ended {a : Allocator} {k : ℕ} (hline : Bijouc.line argv = .ok (s, inputfile))
    (hend : bijouc a mem strcpy padding writable k argv files = some (.ended status files')) :
    let source := s.source writable files inputfile
    ∃ out files₁, openOutput writable s files = some (out, files₁) ∧
      (files inputfile = none ∧ status = 1 ∧ files' = files₁ ∨
        files inputfile ≠ none ∧ status = 1 ∧ files' = files₁ ∧
          (∀ b r, compileFile mem (.to inputfile) source ≠ .done b r) ∨
        files inputfile ≠ none ∧ ∃ b r, compileFile mem (.to inputfile) source = .done b r ∧
          finish strcpy padding s.options out files₁ b = .ended status files') := by
  intro source
  rw [bijouc, hline] at hend
  dsimp only at hend
  cases hopen : openOutput writable s files with
  | none =>
    rw [hopen] at hend
    cases hend
  | some x =>
    obtain ⟨out, files₁⟩ := x
    refine ⟨out, files₁, rfl, ?_⟩
    rw [hopen] at hend
    dsimp only at hend
    rw [opened_source hopen inputfile] at hend
    by_cases hinput : files inputfile = none
    · rw [if_pos hinput] at hend
      cases hend
      exact .inl ⟨hinput, rfl, rfl⟩
    rw [if_neg hinput] at hend
    cases hbuffered : (Scanners.buffered a).compileFile mem (.to inputfile)
        (source ++ List.replicate k eof) with
    | await q =>
      rw [hbuffered] at hend
      cases hend
    | exit f =>
      rw [hbuffered] at hend
      cases f with
      | overrun => cases hend
      | error e =>
        have hrejected := buffered_exit hbuffered
        cases e with
        | nullCompare => cases hend
        | _ =>
          cases hend
          exact .inr (.inl ⟨hinput, rfl, rfl, hrejected⟩)
    | done b r =>
      rw [hbuffered] at hend
      obtain ⟨r', hdone⟩ := buffered_done hbuffered
      exact .inr (.inr ⟨hinput, b, r', hdone, Option.some.inj hend⟩)

end Effect

section Both

variable {a : Allocator} {mem : Memory} {lmem : LoadMemory} {strcpy : Strcpy}
  {padding : List Output → BitVec 48} {writable : CStr → Bool} {host : Host} {place : List Byte}
  {load : CStr → Except CStr Library} {files : Files}
  {argv argv' : List CStr} {s : Bijouc.Settings} {t : BijouMain.Settings}
  {inputfile outputfile : CStr} {file r : List Byte} {b b' : Block} {n : Byte}

lemma throughFile_halves (h : throughFile reader lmem strcpy padding b = some (n, b')) : ∃ x p r,
    (bijouDump strcpy padding (toProto b) []).2 = .ok x ∧
      bijouLoad reader lmem (fileBytes strcpy padding b) = .done p r ∧ protoToBlock lmem p = some (n, b') := by
  rw [throughFile] at h
  rw [fileBytes]
  rcases hdump : bijouDump strcpy padding (toProto b) [] with ⟨out, e | x⟩
  · rw [hdump] at h
    cases h
  · rw [hdump] at h
    dsimp only at h
    cases hload : bijouLoad reader lmem (out.flatMap Output.bytes) with
    | done p r =>
      rw [hload] at h
      exact ⟨x, p, r, rfl, rfl, h⟩
    | exit e =>
      rw [hload] at h
      cases h
    | await q =>
      rw [hload] at h
      cases h

lemma bijouc_done (k : ℕ) (hline : Bijouc.line argv = .ok (s, inputfile)) (hoptions : s.options = 0)
    (hout : s.outputfile = some outputfile) (hwritable : writable outputfile = true)
    (hne : inputfile ≠ outputfile) (hfile : files inputfile = some file)
    (h : (Scanners.buffered a).compileFile mem (.to inputfile) file = .done b r) {x : Proto}
    (hdump : (bijouDump strcpy padding (toProto b) []).2 = .ok x) : ∃ files',
      bijouc a mem strcpy padding writable k argv files = some (.ended 0 files') ∧
        files' outputfile = some (fileBytes strcpy padding b) := by
  have hopen : openOutput writable s files =
      some (some outputfile, Function.update files outputfile (some [])) := by
    rw [openOutput, hoptions, if_neg (not_not.mpr (by decide)), hout]
    exact congrArg some (if_pos hwritable)
  have hsource : (Function.update files outputfile (some []) inputfile).getD [] = file := by
    rw [Function.update_of_ne hne, hfile]
    rfl
  have hsteady : Steady ((Scanners.buffered a).compileFile mem (.to inputfile)) file :=
    Scanners.compileFunction_rule mem (buffered_advances a) (buffered_steady a) [] _ file
  have hmore := hsteady.append_done h (List.replicate k eof)
  have hinput : files inputfile ≠ none := by
    rw [hfile]
    exact nofun
  refine ⟨_, ?_, Function.update_self outputfile (some (fileBytes strcpy padding b))
    (Function.update files outputfile (some []))⟩
  rw [bijouc, hline]
  dsimp only
  rw [hopen]
  dsimp only
  rw [if_neg hinput, hsource, hmore]
  refine congrArg some ?_
  rw [finish.eq_def, if_pos ((dumps_iff s.options).mpr hoptions)]
  dsimp only
  rw [hdump]

lemma bijou_runs (k : ℕ) (hline : BijouMain.line place load argv = .ok (t, inputfile)) (hlist : t.dump = 0)
    (hfile : files inputfile = some file) {p : Proto} (hload : bijouLoad reader lmem file = .done p r)
    (hprog : protoToBlock lmem p = some (n, b)) : bijou host lmem place load k argv files =
      some (.runs b (Shared.loaded host b (t.libs.map some) n.toNat)) := by
  obtain ⟨c, rfl, hread⟩ := bijouLoad_exact reader lmem file p r hload
  have hmore := hread (r ++ List.replicate k eof)
  rw [← List.append_assoc] at hmore
  rw [bijou, hline]
  dsimp only
  rw [hfile]
  dsimp only
  rw [hmore]
  dsimp only
  rw [hprog]
  exact congrArg some (if_neg (not_not.mpr hlist))

end Both

def sampleFile : CStr := CStr.at (bytes "a.s")

def outputFile : CStr := CStr.at (bytes "b.out")

def greetingFiles : Files := fun n => if n = sampleFile then some greetingSource else none

lemma greeting_buffered : ∃ b r,
    (Scanners.buffered .chunks).compileFile default (.to sampleFile) greetingSource = .done b r ∧
      b.k = [greeting] ∧ b.Plain ∧ b.Portable ∧ Intact reader default [] b := by
  obtain ⟨b, r, hr, hk, hplain, hport, hintact⟩ := greeting_assembled
  have hcheck :
      ((Scanners.buffered .chunks).compileFile default (.to sampleFile) greetingSource).value?.isSome := by
    decide +kernel
  obtain ⟨b', hb'⟩ := Option.isSome_iff_exists.mp hcheck
  obtain ⟨r', hr'⟩ := Outcome.done_of_value hb'
  cases hr.symm.trans ((compileFile_confines default (.to sampleFile)).done hr')
  exact ⟨b, r, hr', hk, hplain, hport, hintact⟩

/-- Where bijouc comes to an end, and does not touch memory that is not its own: with a line that it does
not accept it leaves all files alone; else it changes no file but the one it opens for its output, which
holds in the end what compile_file writes of the source, nothing if the source is not there or is
rejected. The status is 0 when the source is accepted, and can be written if it is to be. -/
theorem bijouc_files {a : Allocator} {mem : Memory} {strcpy : Strcpy} {padding : List Output → BitVec 48}
    {writable : CStr → Bool} {files files' : Files} {argv : List CStr} {k status : ℕ}
    (hend : bijouc a mem strcpy padding writable k argv files = some (.ended status files')) :
    (∀ e, Bijouc.line argv = .error e → status = e.status ∧ files' = files) ∧
    ∀ s inputfile, Bijouc.line argv = .ok (s, inputfile) →
      let source := s.source writable files inputfile
      (∀ n, files' n =
        if s.Overwrites writable n then
          some (if files inputfile = none then []
            else compiledBytes strcpy mem padding (.to inputfile) s.options source)
        else files n) ∧
      (status = 0 ↔ files inputfile ≠ none ∧ ∃ b r, compileFile mem (.to inputfile) source = .done b r ∧
        (s.options = 0 → ∃ x, (bijouDump strcpy padding (toProto b) []).2 = .ok x)) := by
  refine ⟨fun e hline => ?_, fun s inputfile hline => ?_⟩
  · rw [bijouc, hline] at hend
    cases hend
    exact ⟨rfl, rfl⟩
  intro source
  obtain ⟨out, files₁, hopen, hcases⟩ := bijouc_ended hline hend
  rcases hcases with ⟨hinput, rfl, rfl⟩ | ⟨hinput, rfl, rfl, hrejected⟩ | ⟨hinput, b, r, hdone, hfinish⟩
  · refine ⟨fun n => ?_, iff_of_false (by decide) (fun h => h.1 hinput)⟩
    rw [(openOutput_cases hopen).2, if_pos hinput]
  · simp only [if_neg hinput]
    exact ⟨rejected_files hopen hrejected,
      iff_of_false (by decide) (fun ⟨_, b, r, h, _⟩ => hrejected b r h)⟩
  · simp only [if_neg hinput]
    obtain ⟨hwritten, hstatus⟩ := accepted_ended hopen hdone hfinish
    refine ⟨hwritten, hstatus.trans ⟨fun h => ⟨hinput, b, r, hdone, h⟩, ?_⟩⟩
    rintro ⟨-, b', r', h, hdump⟩
    cases h.symm.trans hdone
    exact hdump

theorem bijouc_files_greeting : ∃ files',
    bijouc .chunks default memmove (fun _ => 0) (fun _ => true) 0 [sampleFile] greetingFiles =
        some (.ended 0 files') ∧
      files' sampleFile = some greetingSource ∧
      files' outputFile =
        some (compiledBytes memmove default (fun _ => 0) (.to sampleFile) 0 greetingSource) := by
  obtain ⟨b, r, hbuffered, -, hplain, hport, hintact⟩ := greeting_buffered
  have hr := (compileFile_confines default (.to sampleFile)).done hbuffered
  have hassembled := compileFile_assembled default (CharPtr.to_addr sampleFile) hr
  obtain ⟨b', hthrough, -⟩ := throughFile_alike default memmove (fun _ => 0) hassembled hplain hport hintact
  obtain ⟨x, -, -, hdump, -, -⟩ := throughFile_halves hthrough
  have hline : Bijouc.line [sampleFile] = .ok (⟨some outputFile, 0⟩, sampleFile) := rfl
  have hfile : greetingFiles sampleFile = some greetingSource := if_pos rfl
  obtain ⟨files', hend, -⟩ : ∃ files',
      bijouc .chunks default memmove (fun _ => 0) (fun _ => true) 0 [sampleFile] greetingFiles =
          some (.ended 0 files') ∧ files' outputFile = some (fileBytes memmove (fun _ => 0) b) :=
    bijouc_done 0 hline rfl rfl rfl (by decide) hfile hbuffered hdump
  obtain ⟨-, hfiles⟩ := bijouc_files hend
  obtain ⟨h, -⟩ := hfiles _ _ hline
  have hsample : ¬ Bijouc.Settings.Overwrites (fun _ => true) ⟨some outputFile, 0⟩ sampleFile := by
    decide
  have hsource : Bijouc.Settings.source (fun _ => true) ⟨some outputFile, 0⟩ greetingFiles sampleFile =
      greetingSource := by
    rw [Bijouc.Settings.source, if_neg hsample, hfile]
    rfl
  have hinput : greetingFiles sampleFile ≠ none := by
    rw [hfile]
    exact nofun
  rw [hsource] at h
  refine ⟨files', hend, ?_, ?_⟩
  · rw [h, if_neg hsample, hfile]
  · rw [h, if_pos ⟨rfl, rfl, rfl⟩, if_neg hinput]

/-- bijouc and bijou together: a source that was assembled and can be read back is run by bijou, from
the file that bijouc has left, as the assembler made it, for as long as no word looks beneath its
values. -/
theorem toolchain_runs_alike {a : Allocator} {mem : Memory} (lmem : LoadMemory) (strcpy : Strcpy)
    (padding : List Output → BitVec 48)
    {writable : CStr → Bool} (host : Host) {place : List Byte} {load : CStr → Except CStr Library}
    {files : Files} {argv argv' : List CStr} {s : Bijouc.Settings} {t : BijouMain.Settings}
    {inputfile outputfile : CStr} {file r : List Byte} {b : Block} (k k' : ℕ)
    (hline : Bijouc.line argv = .ok (s, inputfile)) (hoptions : s.options = 0)
    (hout : s.outputfile = some outputfile) (hwritable : writable outputfile = true)
    (hne : inputfile ≠ outputfile) (hfile : files inputfile = some file)
    (h : (Scanners.buffered a).compileFile mem (.to inputfile) file = .done b r)
    (hplain : b.Plain) (hport : b.Portable) (hintact : Intact reader lmem [] b)
    (hline' : BijouMain.line place load argv' = .ok (t, outputfile)) (hlist : t.dump = 0) :
    ∃ files' b', bijouc a mem strcpy padding writable k argv files = some (.ended 0 files') ∧
      bijou host lmem place load k' argv' files' =
        some (.runs b' (Shared.loaded host b' (t.libs.map some) b.numglobal.toNat)) ∧
      b.RunsAlike host (t.libs.map some) b.numglobal.toNat b' := by
  have hplainly := (compileFile_confines mem (.to inputfile)).done h
  have hassembled := compileFile_assembled mem (CharPtr.to_addr _) hplainly
  obtain ⟨b', hthrough, halike⟩ := throughFile_alike lmem strcpy padding hassembled hplain hport hintact
  obtain ⟨x, p, r', hdump, hload, hprog⟩ := throughFile_halves hthrough
  obtain ⟨files', hend, hfiles⟩ :=
    bijouc_done k hline hoptions hout hwritable hne hfile h hdump
  exact ⟨files', b', hend, bijou_runs k' hline' hlist hfiles hload hprog,
    halike.runsAlike (bare_invariant.file mem hplainly) (throughFile_bare hthrough) host _ _⟩

theorem toolchain_runs_alike_greeting : ∃ b r,
    (Scanners.buffered .chunks).compileFile default (.to sampleFile) greetingSource = .done b r ∧
    b.k = [greeting] ∧
    ∃ files' b', bijouc .chunks default memmove (fun _ => 0) (fun _ => true) 0 [sampleFile] greetingFiles =
        some (.ended 0 files') ∧
      bijou plainHost default [] (fun _ => .error .empty) 0 [outputFile] files' =
        some (.runs b' (Shared.loaded plainHost b' [] b.numglobal.toNat)) ∧
      b.RunsAlike plainHost [] b.numglobal.toNat b' := by
  obtain ⟨b, r, hr, hk, hplain, hport, hintact⟩ := greeting_buffered
  have hline : Bijouc.line [sampleFile] = .ok (⟨some outputFile, 0⟩, sampleFile) := rfl
  have hline' : BijouMain.line [] (fun _ => .error .empty) [outputFile] = .ok (⟨0, []⟩, outputFile) :=
    rfl
  exact ⟨b, r, hr, hk, toolchain_runs_alike default memmove _ plainHost 0 0 hline rfl rfl rfl (by decide)
    (if_pos rfl) hr hplain hport hintact hline' rfl⟩

end Bijou
