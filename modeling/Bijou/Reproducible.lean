import Bijou.Debug
import Bijou.Rebuild

namespace Bijou

open CString Incremental LittleEndian

section Header

def entriesRound (loop : List (Directive × List Byte) → Scan (List (Directive × List Byte)))
    (l : List (Directive × List Byte)) : Scan (List (Directive × List Byte)) := do
  let string ← readNext
  if cstr string = bytes "<HEAD" then return l
  else
    match Directive.named (cstr string) with
    | none => fail (.unknownDirective string)
    | some d => do
      let tmp ← readNext
      loop (l ++ [(d, tmp)])

def headerEntries : Scan (List (Directive × List Byte)) := do
  expect (bytes ">HEAD")
  fix entriesRound []

def Block.storeAll (b : Block) (l : List (Directive × List Byte)) : Block :=
  l.foldl (fun b e => e.1.store e.2 b) b

def mainName (l : List (Directive × List Byte)) : CStr :=
  l.foldl (fun name e => if e.1 = .name then CStr.at e.2 else name) (CStr.at (bytes "main"))

lemma compileHeader_entries (b : Block) :
    Simulates (fun l b' => b' = b.storeAll l) headerEntries (compileHeader b) := by
  refine .bind_same _ (fun _ => .fix (I := fun l b' => b' = b.storeAll l) ?_ rfl)
  rintro n hn l _ rfl
  refine .bind_same _ (fun string => ?_)
  split_ifs
  · exact .pure rfl
  · cases Directive.named (cstr string) with
    | none => exact .fail _
    | some d =>
      refine .bind_same _ (fun tmp => hn _ _ ?_)
      rw [Block.storeAll, Block.storeAll, List.foldl_append]
      rfl

lemma storeAll_filename (b : Block) (l : List (Directive × List Byte)) :
    (b.storeAll l).filename = b.filename := by
  induction l generalizing b with
  | nil => rfl
  | cons e l ih =>
    rw [Block.storeAll, List.foldl_cons]
    refine (ih _).trans ?_
    cases e.1 <;> rfl

lemma storeAll_funcname {b : Block} (hb : b.funcname = .to (CStr.at (bytes "main")))
    (l : List (Directive × List Byte)) : (b.storeAll l).funcname = .to (mainName l) := by
  rw [Block.storeAll, mainName]
  generalize CStr.at (bytes "main") = name at hb
  induction l generalizing b name with
  | nil => exact hb
  | cons e l ih =>
    rw [List.foldl_cons, List.foldl_cons]
    refine ih _ ?_
    rcases e with ⟨d, tmp⟩
    cases d <;> first | rfl | exact hb

lemma storeAll_linedefined (b : Block) (line : BitVec 32) (l : List (Directive × List Byte)) :
    ({ b with linedefined := line } : Block).storeAll l =
      { b.storeAll l with linedefined := line } := by
  induction l generalizing b with
  | nil => rfl
  | cons e l ih =>
    rw [Block.storeAll, Block.storeAll, List.foldl_cons, List.foldl_cons]
    refine Eq.trans ?_ (ih _)
    cases e.1 <;> rfl

end Header

section Lines

variable (line : BitVec 32) (filename funcname : CharPtr)

structure Relined (b c : Block) : Prop where
  block : c = { b with linedefined := line }
  filename : b.filename = filename
  funcname : b.funcname = funcname

variable {line filename funcname} {b c : Block}

lemma pushConst_linedefined (b : Block) (line : BitVec 32) (v : TValue) :
    ({ b with linedefined := line } : Block).pushConst v =
      (b.pushConst v).map (fun x => (x.1, { x.2 with linedefined := line })) := by
  rw [Block.pushConst, Block.pushConst]
  cases b.k.anyM (fun u => u.equal v) with
  | none => rfl
  | some found => cases found <;> rfl

lemma pushConst_names {v : TValue} {x : ℤ × Block} (h : b.pushConst v = some x) :
    x.2.filename = b.filename ∧ x.2.funcname = b.funcname := by
  obtain ⟨found, -, h⟩ := Option.bind_eq_some_iff.mp h
  cases found <;> obtain rfl := Option.some.inj h <;> exact ⟨rfl, rfl⟩

lemma codeLoop_relined (h : Relined line filename funcname b c) :
    Simulates (Relined line filename funcname) (codeLoop b) (codeLoop c) := by
  refine .fix (fun n hn b c hbc => .bind_same _ (fun string => ?_)) h
  split_ifs
  · exact .pure hbc
  · cases OpCode.named (cstr string) with
    | none => exact .fail _
    | some o =>
      refine .bind_same _ (fun args => hn _ _ ?_)
      obtain ⟨rfl, hfile, hfunc⟩ := hbc
      exact ⟨rfl, hfile, hfunc⟩

structure RelinedState (line : BitVec 32) (filename funcname : CharPtr) (st st' : ConstState) :
    Prop where
  state : st' = { st with b := st'.b }
  blocks : Relined line filename funcname st.b st'.b

lemma pushEntry_relined {loop : ConstState → Scan Block}
    (hloop : ∀ st st', RelinedState line filename funcname st st' →
      Simulates (Relined line filename funcname) (loop st) (loop st'))
    {st st' : ConstState} (h : RelinedState line filename funcname st st') (tt : Tag) (value : Value) :
    Simulates (Relined line filename funcname) (pushEntry loop st tt value)
      (pushEntry loop st' tt value) := by
  obtain ⟨hstate, hblock, hfile, hfunc⟩ := h
  rw [hstate, hblock, pushEntry, pushEntry, ConstState.push, ConstState.push, pushConst_linedefined]
  cases hpush : st.b.pushConst ⟨tt, value⟩ with
  | none => exact .fail _
  | some x =>
    obtain ⟨hfile', hfunc'⟩ := pushConst_names hpush
    exact hloop _ _ ⟨rfl, rfl, hfile'.trans hfile, hfunc'.trans hfunc⟩

lemma constLoop_relined (mem : Memory) {st st' : ConstState}
    (h : RelinedState line filename funcname st st') :
    Simulates (Relined line filename funcname) (constLoop mem st) (constLoop mem st') := by
  refine .fix (fun n hn st st' h => ?_) h
  have hhere : st'.here = st.here := by rw [h.state]; rfl
  have ht : st'.t = st.t := by rw [h.state]
  rw [constRound, constRound, hhere]
  refine .bind_same _ (fun string => ?_)
  cases constLine (string ++ mem.line st.here) with
  | close => exact .pure h.blocks
  | comment => exact hn _ _ h
  | bad e => exact .fail e
  | null =>
    rw [constEntry, constEntry, ht]
    exact pushEntry_relined hn h _ _
  | number n =>
    rw [constEntry, constEntry, ht]
    exact pushEntry_relined hn h _ _
  | boolean n =>
    rw [constEntry, constEntry, ht]
    exact pushEntry_relined hn h _ _
  | string text =>
    rw [constEntry, constEntry, hhere]
    exact pushEntry_relined hn h _ _
  | function =>
    rw [constEntry, constEntry, hhere, ht]
    refine .bind_same _ (fun func => pushEntry_relined hn ?_ _ _)
    obtain ⟨hstate, hblock, hfile, hfunc⟩ := h
    refine ⟨?_, ?_, hfile, hfunc⟩
    · rw [hstate]
    · rw [hblock]; rfl

def compileRest (mem : Memory) (b : Block) : Scan Block := do
  let b ← compileCode b
  compileConst mem [] b

lemma compileRest_relined (mem : Memory) (h : Relined line filename funcname b c) :
    Simulates (Relined line filename funcname) (compileRest mem b) (compileRest mem c) :=
  (Simulates.bind_same _ (fun _ => codeLoop_relined h)).bind
    (fun _ _ h => .bind_same _ (fun _ => constLoop_relined mem ⟨rfl, h⟩))

end Lines

def mainBlock (mem : Memory) (filename : CharPtr) : Block :=
  { Block.new (mem.block []) with filename := filename, funcname := .to (CStr.at (bytes "main")) }

lemma compileFile_done_iff {mem : Memory} {filename : CharPtr} {file r : List Byte} {b : Block} :
    compileFile mem filename file = .done b r ↔ ∃ l m, headerEntries file = .done l m ∧
      compileRest mem ((mainBlock mem filename).storeAll l) m = .done b r := by
  have hentries := compileHeader_entries (mainBlock mem filename)
  constructor
  · intro h
    obtain ⟨b₁, m, hheader, hrest⟩ := bind_eq_done.mp h
    obtain ⟨l, hl, rfl⟩ := hentries.done_right hheader
    exact ⟨l, m, hl, hrest⟩
  · rintro ⟨l, m, hl, hrest⟩
    obtain ⟨b₁, hheader, rfl⟩ := hentries.done hl
    exact bind_eq_done.mpr ⟨_, m, hheader, hrest⟩

def Memory.reline (mem : Memory) (line : BitVec 32) : Memory :=
  { mem with block := fun path => if path = [] then { mem.block [] with linedefined := line }
      else mem.block path }

lemma compileConst_reline (mem : Memory) (line : BitVec 32) :
    compileConst (mem.reline line) = compileConst mem := by
  have hentry : constEntry (mem.reline line) = constEntry mem := by
    funext loop st l
    cases l <;> rfl
  have hround : constRound (mem.reline line) = constRound mem := by
    funext loop st
    rw [constRound, constRound, hentry]
    rfl
  funext path b
  rw [compileConst, compileConst, constLoop, constLoop, hround]
  rfl

lemma compileFile_reline {mem : Memory} {filename : CharPtr} {file r : List Byte} {b : Block}
    (line : BitVec 32) (h : compileFile mem filename file = .done b r) :
    compileFile (mem.reline line) filename file = .done { b with linedefined := line } r := by
  obtain ⟨l, m, hl, hrest⟩ := compileFile_done_iff.mp h
  refine compileFile_done_iff.mpr ⟨l, m, hl, ?_⟩
  have hblock : mainBlock (mem.reline line) filename =
      { mainBlock mem filename with linedefined := line } := rfl
  rw [hblock, storeAll_linedefined, compileRest, compileConst_reline]
  obtain ⟨c, hc, rfl, -, -⟩ := (compileRest_relined mem ⟨rfl, rfl, rfl⟩).done hrest
  exact hc

lemma compileFile_names {mem : Memory} {filename : CharPtr} {file r : List Byte} {b : Block}
    (h : compileFile mem filename file = .done b r) : ∃ l m, headerEntries file = .done l m ∧
      b.filename = filename ∧ b.funcname = .to (mainName l) := by
  obtain ⟨l, m, hl, hrest⟩ := compileFile_done_iff.mp h
  have hsame : Relined ((mainBlock mem filename).storeAll l).linedefined _ _
      ((mainBlock mem filename).storeAll l) _ := ⟨rfl, rfl, rfl⟩
  obtain ⟨c, -, -, hfile, hfunc⟩ := (compileRest_relined mem hsame).done hrest
  exact ⟨l, m, hl, hfile.trans (storeAll_filename _ l), hfunc.trans (storeAll_funcname rfl l)⟩

section Output

def dumpNames (strcpy : Strcpy) (filename funcname : CharPtr) : Dump Unit := do
  dumpHeader
  let _ ← dumpString strcpy (.new filename)
  let _ ← dumpString strcpy (.new funcname)
  return ()

lemma dumpString_fixed {s : BijouString} (hs : s.Sound) : ∃ l x, (∀ h, dumpString memmove s h = (l, x)) ∧
    ((∃ s', x = .ok s') ↔ ∃ d, decode s.chars = some d) := by
  by_cases hlen : s.len = 0
  · have hdump : ∀ h, dumpString memmove s h = ([.block (toBytes 8 0)], .ok s) := by
      intro h
      rw [dumpString, if_pos hlen]
      rfl
    refine ⟨_, _, hdump, iff_of_true ⟨s, rfl⟩ ⟨[], ?_⟩⟩
    rw [hs.chars_nil_iff.mpr hlen]
    rfl
  obtain ⟨hstop, hwrite⟩ := dumpString_decode hs hlen
  cases hd : decode s.chars with
  | none =>
    obtain ⟨e, he⟩ := hstop hd
    refine ⟨[], .error e, fun h => by rw [he]; rfl, iff_of_false ?_ ?_⟩
    · rintro ⟨s', hs'⟩
      cases hs'
    · rintro ⟨d, hd'⟩
      cases hd'
  | some d =>
    have hdump : ∀ h, dumpString memmove s h =
        ([.block (toBytes 8 (BitVec.ofNat 64 (d.length + 1)).toNat), .block (d ++ [0])],
          .ok (s.rewrite d)) := by
      intro h
      rw [hwrite d hd]
      rfl
    exact ⟨_, _, hdump, iff_of_true ⟨_, rfl⟩ ⟨d, rfl⟩⟩

variable (padding : List Output → BitVec 48) {b : Block} {filename funcname : CharPtr}

lemma fileBytes_names (hfile : b.filename = filename) (hfunc : b.funcname = funcname)
    (hs : (BijouString.new filename).Sound) (ht : (BijouString.new funcname).Sound) :
    ((∃ d, decode (BijouString.new filename).chars = some d) ∧
      (∃ d, decode (BijouString.new funcname).chars = some d) → ∃ post, fileBytes memmove padding b =
        (dumpNames memmove filename funcname []).1.flatMap Output.bytes ++
          (toBytes 4 b.linedefined.toNat ++ post)) ∧
    (¬ ((∃ d, decode (BijouString.new filename).chars = some d) ∧
      ∃ d, decode (BijouString.new funcname).chars = some d) → fileBytes memmove padding b =
        (dumpNames memmove filename funcname []).1.flatMap Output.bytes) := by
  have hheader : dumpHeader [] = ([.block header], .ok ()) := rfl
  obtain ⟨l, x, hx, hxs⟩ := dumpString_fixed hs
  obtain ⟨m, y, hy, hys⟩ := dumpString_fixed ht
  rw [← hxs, ← hys, dumpNames, fileBytes, bijouDump, Writer.bind_ok hheader, Writer.bind_ok hheader]
  cases b
  obtain rfl : _ = filename := hfile
  obtain rfl : _ = funcname := hfunc
  rw [toProto, dumpFunction]
  cases x with
  | error e =>
    rw [Writer.bind_error (hx _), Writer.bind_error (hx _)]
    exact ⟨fun h => by simp at h, fun _ => rfl⟩
  | ok s =>
    rw [Writer.bind_ok (hx _), Writer.bind_ok (hx _)]
    cases y with
    | error e =>
      rw [Writer.bind_error (hy _), Writer.bind_error (hy _)]
      exact ⟨fun h => by simp at h, fun _ => rfl⟩
    | ok t =>
      have hline : ∀ (line : BitVec 32) h,
          dumpInt line h = ([.block (toBytes 4 line.toNat)], .ok ()) := fun _ _ => rfl
      rw [Writer.bind_ok (hy _), Writer.bind_ok (hy _), Writer.bind_ok (hline _ _)]
      refine ⟨fun _ => ?_, fun h => absurd ⟨⟨s, rfl⟩, ⟨t, rfl⟩⟩ h⟩
      simp only [List.flatMap_append, List.flatMap_singleton, List.append_assoc]
      exact ⟨_, rfl⟩

end Output

structure Memory.Alike (mem mem' : Memory) : Prop where
  temp : mem'.temp = mem.temp
  addr : mem'.addr = mem.addr

lemma toBytes_injective {x y : BitVec 32} (h : toBytes 4 x.toNat = toBytes 4 y.toNat) : x = y := by
  rw [← ofBytes_toNat x (show 32 = 8 * 4 by norm_num), h, ofBytes_toNat y (by norm_num)]

def NamesDecode (filename : CharPtr) (name : CStr) : Prop :=
  (∃ d, decode filename.text.chars = some d) ∧ ∃ d, decode name.chars = some d

lemma not_namesDecode_iff {filename : CharPtr} {file m : List Byte} {l : List (Directive × List Byte)}
    (hl : headerEntries file = .done l m) :
    ¬ NamesDecode filename (mainName l) ↔ decode filename.text.chars = none ∨
      ∃ l m, headerEntries file = .done l m ∧ decode (mainName l).chars = none := by
  rw [NamesDecode, not_and_or, not_exists, not_exists, ← Option.eq_none_iff_forall_ne_some,
    ← Option.eq_none_iff_forall_ne_some]
  refine or_congr Iff.rfl ⟨fun hd => ⟨l, m, hl, hd⟩, ?_⟩
  rintro ⟨l', m', hl', hd⟩
  rw [hl] at hl'
  cases hl'
  exact hd

section Accepted

variable {mem : Memory} (padding : List Output → BitVec 48) {filename : CharPtr}
  {file m r : List Byte} {b : Block} {l : List (Directive × List Byte)}

lemma compiledBytes_names (hname : filename.addr ≠ 0) (h : compileFile mem filename file = .done b r)
    (hl : headerEntries file = .done l m) (hfile : filename.text.chars.length + 1 < 2 ^ 64)
    (hfunc : (mainName l).chars.length + 1 < 2 ^ 64) :
    (NamesDecode filename (mainName l) → ∃ post, compiledBytes memmove mem padding filename 0 file =
        (dumpNames memmove filename (.to (mainName l)) []).1.flatMap Output.bytes ++
          (toBytes 4 b.linedefined.toNat ++ post)) ∧
    (¬ NamesDecode filename (mainName l) → compiledBytes memmove mem padding filename 0 file =
        (dumpNames memmove filename (.to (mainName l)) []).1.flatMap Output.bytes) := by
  obtain ⟨l', m', hl', hfilename, hfuncname⟩ := compileFile_names h
  rw [hl] at hl'
  cases hl'
  have hnames := fileBytes_names padding hfilename hfuncname (BijouString.new_sound hname hfile)
    (BijouString.new_sound (CharPtr.to_addr _) hfunc)
  have hfilechars : (BijouString.new filename).chars = filename.text.chars := if_neg hname
  have hfuncchars : (BijouString.new (.to (mainName l))).chars = (mainName l).chars :=
    if_neg (CharPtr.to_addr _)
  rwa [hfilechars, hfuncchars, ← (compiledBytes_done memmove mem padding filename 0 h).trans (if_pos rfl)]
    at hnames

end Accepted

theorem compiledBytes_reproducible_iff {mem : Memory} (padding : List Output → BitVec 48)
    {filename : CharPtr} {file r : List Byte} {b : Block} (hname : filename.addr ≠ 0)
    (h : compileFile mem filename file = .done b r)
    (hfile : filename.text.chars.length + 1 < 2 ^ 64)
    (hfunc : b.funcname.text.chars.length + 1 < 2 ^ 64) :
    (∀ mem' b' r', mem.Alike mem' → compileFile mem' filename file = .done b' r' →
        compiledBytes memmove mem padding filename 0 file = compiledBytes memmove mem' padding filename 0 file) ↔
      decode filename.text.chars = none ∨
        ∃ l m, headerEntries file = .done l m ∧ decode (mainName l).chars = none := by
  obtain ⟨l, m, hl, -, hfuncname⟩ := compileFile_names h
  rw [hfuncname] at hfunc
  have hwritten : ∀ mem' b' r', compileFile mem' filename file = .done b' r' → _ :=
    fun mem' b' r' h' => compiledBytes_names padding hname h' hl hfile hfunc
  rw [← not_namesDecode_iff hl]
  constructor
  · intro hsame hdecode
    -- another line in the memory of the main block is written at the same place
    have hother := compileFile_reline (b.linedefined + 1) h
    obtain ⟨post, hpost⟩ := (hwritten _ _ _ h).1 hdecode
    obtain ⟨post', hpost'⟩ := (hwritten _ _ _ hother).1 hdecode
    have heq := hsame (mem.reline _) _ _ ⟨rfl, rfl⟩ hother
    rw [hpost, hpost'] at heq
    have hline := (List.append_inj (List.append_cancel_left heq) (by simp)).1
    have := toBytes_injective hline
    simp at this
  · intro hstop mem' b' r' _ h'
    rw [(hwritten _ _ _ h).2 hstop, (hwritten _ _ _ h').2 hstop]

theorem compiledBytes_reproducible_iff_escape : ∃ b r,
    compileFile default (.to (CStr.at (bytes "a\\s"))) sampleSource = .done b r ∧
    ((∀ mem' b' r', Memory.Alike default mem' →
        compileFile mem' (.to (CStr.at (bytes "a\\s"))) sampleSource = .done b' r' →
        compiledBytes memmove default (fun _ => 0) (.to (CStr.at (bytes "a\\s"))) 0 sampleSource =
          compiledBytes memmove mem' (fun _ => 0) (.to (CStr.at (bytes "a\\s"))) 0 sampleSource) ↔
      decode (CharPtr.to (CStr.at (bytes "a\\s"))).text.chars = none ∨
        ∃ l m, headerEntries sampleSource = .done l m ∧ decode (mainName l).chars = none) := by
  have hb : (compileFile default (.to (CStr.at (bytes "a\\s"))) sampleSource).value?.map
      (fun b => decide (b.funcname.text.chars.length + 1 < 2 ^ 64)) = some true := by decide +kernel
  obtain ⟨b, hb, hval⟩ := Option.map_eq_some_iff.mp hb
  obtain ⟨r, hr⟩ := Outcome.done_of_value hb
  exact ⟨b, r, hr, compiledBytes_reproducible_iff _ (CharPtr.to_addr _) hr (by decide +kernel)
    (of_decide_eq_true hval)⟩

theorem file_depends_on_memory : ∃ mem mem' filename file b r b' r' f t, mem.Alike mem' ∧
    compileFile mem filename file = .done b r ∧ compileFile mem' filename file = .done b' r' ∧
    bijouLoad reader default (compiledBytes memmove mem (fun _ => 0) filename 0 file) = .done f t ∧
    bijouLoad reader default (compiledBytes memmove mem' (fun _ => 0) filename 0 file) = .exit .badInteger ∧
    compiledBytes memmove mem (fun _ => 0) filename 0 file ≠
      compiledBytes memmove mem' (fun _ => 0) filename 0 file := by
  have hb : (compileFile default (.to (CStr.at (bytes "a.s"))) sampleSource).value?.isSome = true := by
    decide +kernel
  have hf : (bijouLoad reader default (compiledBytes memmove default (fun _ => 0)
      (.to (CStr.at (bytes "a.s"))) 0 sampleSource)).value?.isSome = true := by decide +kernel
  have hbad : (match bijouLoad reader default (compiledBytes memmove (Memory.reline default (-1))
      (fun _ => 0) (.to (CStr.at (bytes "a.s"))) 0 sampleSource) with
      | .exit .badInteger => true
      | _ => false) = true := by decide +kernel
  obtain ⟨b, hb⟩ := Option.isSome_iff_exists.mp hb
  obtain ⟨r, hr⟩ := Outcome.done_of_value hb
  obtain ⟨f, hf⟩ := Option.isSome_iff_exists.mp hf
  obtain ⟨t, ht⟩ := Outcome.done_of_value hf
  split at hbad
  · next hexit =>
    refine ⟨default, Memory.reline default (-1), .to (CStr.at (bytes "a.s")), sampleSource, b, r, _, r,
      f, t, ⟨rfl, rfl⟩, hr, compileFile_reline (-1) hr, ht, hexit, fun heq => ?_⟩
    rw [← heq, ht] at hexit
    cases hexit
  · cases hbad

end Bijou
