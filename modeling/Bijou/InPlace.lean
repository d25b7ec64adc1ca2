import Bijou.FileFormat
import Bijou.Library.TextMemory
import Bijou.RoundTrip

/-! The dump on the memory that its strings lie in. DumpString replaces the escapes in place, and all
that points there sees it; of a pointer only the address counts, for the memory has the text. -/

namespace Bijou

open CString Incremental LittleEndian TextMemory

abbrev MemoryDump := StateT (List Byte) Dump

def BijouString.textIn (m : List Byte) (s : BijouString) : List Byte := textAt m s.ptr.addr.toNat

section Loop

variable (a : ℕ)

def escapeRoundIn (loop : List Byte → ℕ → BitVec 64 → Except DumpError (List Byte × BitVec 64))
    (m : List Byte) (start : ℕ) (size : BitVec 64) : Except DumpError (List Byte × BitVec 64) :=
  let str := textAt m a
  match strchr str start backslash with
  | none => .ok (m, size)
  | some i =>
    let size := size - 1
    if size.toNat ≤ i + 1 then .error (.unterminated str)
    else
      let c := str.getD (i + 1) 0
      match escape c with
      | none => .error (.unrecognized c str)
      | some c => loop (splice (a + i) (c :: str.drop (i + 2) ++ [0]) m) (i + 1) size

def escapeLoopIn : ℕ → List Byte → ℕ → BitVec 64 → Except DumpError (List Byte × BitVec 64)
  | 0 => fun m _ size => .ok (m, size)
  | n + 1 => escapeRoundIn a (escapeLoopIn n)

end Loop

/-- As many bytes are written as the size says, whatever the text has become. -/
def dumpStringIn (s : BijouString) : MemoryDump Unit := fun m =>
  if s.len = 0 then do
    dumpSize 0
    return ((), m)
  else
    let a := s.ptr.addr.toNat
    match escapeLoopIn a (textAt m a).length m 0 (s.len + 1) with
    | .error e => Writer.stop e
    | .ok (m, size) => do
      dumpSize size
      dumpBlock ((List.range size.toNat).map (fun i => m.getD (a + i) 0))
      return ((), m)

section Dump

variable (padding : List Output → BitVec 48)

/-- DumpConstants copies the constant, and not the buffer of its string. -/
def dumpConstantIn (o : TValue) : MemoryDump Unit := do
  dumpChar o.tt.char
  match o.tt with
  | .null => return ()
  | .number => dumpNumber padding o.value.n
  | .boolean => dumpChar (toByte o.value.b)
  | .string => dumpStringIn o.value.s
  | .function => return ()
  | .none | .pointer => (Writer.write [.message (bytes "Unrecognized type!\n")] : Dump Unit)

def dumpConstantsIn : ℕ → List TValue → MemoryDump Unit
  | n + 1, o :: k => do
    dumpConstantIn padding o
    dumpConstantsIn n k
  | _, _ => pure ()

mutual

def dumpFunctionIn : Proto → MemoryDump Unit
  | ⟨source, name, linedefined, lastlinedefined, maxregisters, numglobal, numupval, numparam, k, code,
      p⟩ => do
    dumpStringIn source
    dumpStringIn name
    dumpInt linedefined
    dumpInt lastlinedefined
    dumpChar maxregisters
    dumpChar numglobal
    dumpChar numupval
    dumpChar numparam
    dumpCode code
    dumpInt (count k)
    dumpConstantsIn padding (upTo (count k)) k
    dumpInt (count p)
    dumpFunctionsIn (upTo (count p)) p

def dumpFunctionsIn : ℕ → List Proto → MemoryDump Unit
  | n + 1, f :: p => do
    dumpFunctionIn f
    dumpFunctionsIn n p
  | 0, _ => pure ()
  | _ + 1, [] => pure ()

end

def bijouDumpIn (f : Proto) : MemoryDump Unit := do
  dumpHeader
  dumpFunctionIn padding f

end Dump

section Rounds

variable {a n i start : ℕ} {m m' str : List Byte} {size size' : BitVec 64} {c e : Byte}

lemma strchr_getElem (h : strchr str start c = some i) : ∃ hi : i < str.length, str[i] = c := by
  obtain ⟨j, hj, rfl⟩ := Option.map_eq_some_iff.mp h
  obtain ⟨hlt, hc, -⟩ := List.findIdx?_eq_some_iff_getElem.mp hj
  rw [List.length_drop] at hlt
  refine ⟨by omega, ?_⟩
  simpa using hc

lemma escape_split (hi : strchr str start backslash = some i) (hc : escape (str.getD (i + 1) 0) = some e) :
    str = str.take i ++ backslash :: str.getD (i + 1) 0 :: str.drop (i + 2) ∧ (str.take i).length = i := by
  obtain ⟨hlt, hslash⟩ := strchr_getElem hi
  have hnext : i + 1 < str.length := by
    by_contra hle
    have hnul : escape 0 = none := by decide
    rw [List.getD_eq_default _ _ (not_lt.mp hle), hnul] at hc
    cases hc
  refine ⟨?_, List.length_take_of_le hlt.le⟩
  rw [List.getD_eq_getElem _ _ hnext, List.cons_getElem_drop_succ, ← hslash, List.cons_getElem_drop_succ,
    List.take_append_drop]

lemma escapeRoundIn_cases {loop : List Byte → ℕ → BitVec 64 → Except DumpError (List Byte × BitVec 64)}
    (h : escapeRoundIn a loop m start size = .ok (m', size')) :
    (strchr (textAt m a) start backslash = none ∧ m' = m) ∨
      ∃ u c w e i, textAt m a = u ++ backslash :: c :: w ∧ e ≠ 0 ∧
        loop (shift a u w e m) i (size - 1) = .ok (m', size') := by
  rw [escapeRoundIn] at h
  cases hi : strchr (textAt m a) start backslash with
  | none =>
    rw [hi] at h
    cases h
    exact .inl ⟨rfl, rfl⟩
  | some i =>
    simp only [hi] at h
    split_ifs at h
    cases he : escape ((textAt m a).getD (i + 1) 0) with
    | none =>
      rw [he] at h
      cases h
    | some e =>
      obtain ⟨hsplit, hlen⟩ := escape_split hi he
      simp only [he] at h
      refine .inr ⟨_, _, _, e, i + 1, hsplit, escape_ne_zero he, ?_⟩
      rw [shift, hlen]
      exact h

lemma escapeLoopIn_keepsNul (n : ℕ) : ∀ {m m' : List Byte} {start : ℕ} {size size' : BitVec 64},
    escapeLoopIn a n m start size = .ok (m', size') → KeepsNul m m' := by
  induction n with
  | zero =>
    rintro m _ _ _ _ ⟨⟩
    exact .refl m
  | succ n ih =>
    intro m m' start size size' h
    rcases escapeRoundIn_cases h with ⟨-, rfl⟩ | ⟨u, c, w, e, i, htext, -, hrest⟩
    · exact .refl m'
    · exact (shift_keepsNul htext).trans (ih hrest)

lemma escapeLoopIn_cut (h : escapeLoopIn a (textAt m a).length m 0 size = .ok (m', size')) :
    (m' = m ∧ backslash ∉ textAt m a) ∨ Cut a m m' := by
  cases hn : (textAt m a).length with
  | zero =>
    rw [hn] at h
    cases h
    exact .inl ⟨rfl, by rw [List.length_eq_zero_iff.mp hn]; exact List.not_mem_nil⟩
  | succ n =>
    rw [hn] at h
    rcases escapeRoundIn_cases h with ⟨hnone, rfl⟩ | ⟨u, c, w, e, i, htext, -, hrest⟩
    · exact .inl ⟨rfl, strchr_none (u := []) hnone⟩
    · exact .inr ((shift_cut htext).after (escapeLoopIn_keepsNul n hrest))

lemma escapeLoopIn_plain (h : backslash ∉ textAt m a) (n : ℕ) :
    escapeLoopIn a n m 0 size = .ok (m, size) := by
  have hnone : strchr (textAt m a) 0 backslash = none := by
    rw [strchr, List.drop_zero, Option.map_eq_none_iff, List.findIdx?_eq_none_iff]
    intro c hc
    exact beq_false_of_ne (fun heq => h (heq ▸ hc))
  cases n with
  | zero => rfl
  | succ n => rw [escapeLoopIn, escapeRoundIn, hnone]

end Rounds

section DumpLaw

def BijouString.Untouched (m : List Byte) (s : BijouString) : Prop := s.len = 0 ∨ backslash ∉ s.textIn m

/-- What a part of the dump does to the memory: nothing, if all that it dumps is plain, or else it cuts
the text of one of the strings in `S`. -/
structure DumpLaw (S : BijouString → Prop) (w : MemoryDump Unit) (Plain : List Byte → Prop) : Prop where
  memory : ∀ m h out m', w m h = (out, .ok ((), m')) → KeepsNul m m' ∧
    ((m' = m ∧ Plain m) ∨ ∃ s, S s ∧ Cut s.ptr.addr.toNat m m')
  plain : ∀ m h, Plain m → ∃ out, w m h = (out, .ok ((), m))

variable {S : BijouString → Prop} {w w' : MemoryDump Unit} {P Q : List Byte → Prop}

lemma DumpLaw.congr (hw : DumpLaw S w P) (h : ∀ m, P m ↔ Q m) : DumpLaw S w Q := by
  obtain rfl : P = Q := funext fun m => propext (h m)
  exact hw

lemma DumpLaw.bind (hw : DumpLaw S w P) (hw' : DumpLaw S w' Q) : DumpLaw S (do w; w') (fun m => P m ∧ Q m) where
  memory m h out m' hrun := by
    rcases hm : w m h with ⟨l, e | ⟨⟨⟩, m₁⟩⟩
    · have hbind : (w >>= fun _ => w') m h = (l, .error e) := Writer.bind_error hm _
      cases hbind.symm.trans hrun
    · have hbind : (w >>= fun _ => w') m h =
          (l ++ (w' m₁ (h ++ l)).1, (w' m₁ (h ++ l)).2) := Writer.bind_ok hm _
      obtain ⟨hkeep, hfirst⟩ := hw.memory m h l m₁ hm
      obtain ⟨-, hok⟩ := Prod.mk.inj (hbind.symm.trans hrun)
      obtain ⟨hkeep', hsecond⟩ := hw'.memory m₁ (h ++ l) _ m' (Prod.ext rfl hok)
      refine ⟨hkeep.trans hkeep', ?_⟩
      rcases hfirst with ⟨rfl, hP⟩ | ⟨s, hs, hcut⟩
      · exact hsecond.imp (fun hQ => ⟨hQ.1, hP, hQ.2⟩) id
      · exact .inr ⟨s, hs, hcut.after hkeep'⟩
  plain m h hPQ := by
    obtain ⟨l, hl⟩ := hw.plain m h hPQ.1
    obtain ⟨l', hl'⟩ := hw'.plain m (h ++ l) hPQ.2
    have hbind : (w >>= fun _ => w') m h = (l ++ (w' m (h ++ l)).1, (w' m (h ++ l)).2) := Writer.bind_ok hl _
    exact ⟨l ++ l', by rw [hbind, hl']⟩

lemma DumpLaw.lift {w : Dump Unit} {p : Prop} (h : ∀ h, (∃ out, w h = (out, .ok ())) ↔ p) :
    DumpLaw S (liftM w) (fun _ => p) where
  memory m hist out m' hrun := by
    rcases hw : w hist with ⟨l, e | ⟨⟩⟩
    · have hbind : (liftM w : MemoryDump Unit) m hist = (l, .error e) := Writer.bind_error hw _
      cases hbind.symm.trans hrun
    · have hbind : (liftM w : MemoryDump Unit) m hist = (l ++ [], .ok ((), m)) := Writer.bind_ok hw _
      cases hbind.symm.trans hrun
      exact ⟨.refl m, .inl ⟨rfl, (h hist).mp ⟨l, hw⟩⟩⟩
  plain m hist hp := by
    obtain ⟨l, hl⟩ := (h hist).mpr hp
    exact ⟨l ++ [], Writer.bind_ok hl _⟩

lemma DumpLaw.pure : DumpLaw S (Pure.pure ()) (fun _ => True) :=
  ⟨by rintro m _ _ _ ⟨⟩; exact ⟨.refl m, .inl ⟨rfl, trivial⟩⟩, fun _ _ _ => ⟨_, rfl⟩⟩

lemma dumpBlock_law (blk : List Byte) : DumpLaw S (liftM (dumpBlock blk)) (fun _ => True) :=
  .lift fun _ => iff_of_true ⟨_, rfl⟩ trivial

lemma dumpCode_law (code : List Inst) :
    DumpLaw S (liftM (dumpCode code)) (fun _ => 0 ≤ (count code).toInt) := by
  refine .lift fun h => ?_
  rw [dumpCode]
  by_cases hn : (count code).toInt < 0
  · simp only [if_pos hn]
    refine iff_of_false ?_ (by omega)
    rintro ⟨out, ⟨⟩⟩
  · simp only [if_neg hn]
    exact iff_of_true ⟨_, rfl⟩ (by omega)

lemma dumpStringIn_law {s : BijouString} (hs : S s) : DumpLaw S (dumpStringIn s) (fun m => s.Untouched m) := by
  by_cases hlen : s.len = 0
  · have hdump (m : List Byte) (h : List Output) :
        dumpStringIn s m h = ([.block (toBytes 8 0)], .ok ((), m)) := by
      rw [dumpStringIn, if_pos hlen]
      rfl
    constructor
    · intro m h out m' hrun
      cases (hdump m h).symm.trans hrun
      exact ⟨.refl m, .inl ⟨rfl, .inl hlen⟩⟩
    · exact fun m h _ => ⟨_, hdump m h⟩
  · constructor
    · intro m h out m' hrun
      rw [dumpStringIn, if_neg hlen] at hrun
      cases hloop : escapeLoopIn s.ptr.addr.toNat (textAt m s.ptr.addr.toNat).length m 0 (s.len + 1) with
      | error e =>
        simp only [hloop] at hrun
        cases hrun
      | ok x =>
        obtain ⟨m₁, size⟩ := x
        simp only [hloop] at hrun
        cases hrun
        refine ⟨escapeLoopIn_keepsNul _ hloop, (escapeLoopIn_cut hloop).imp ?_ fun hcut => ⟨s, hs, hcut⟩⟩
        exact fun hplain => ⟨hplain.1, .inr hplain.2⟩
    · rintro m h (hzero | hplain)
      · exact absurd hzero hlen
      · rw [dumpStringIn, if_neg hlen]
        simp only [escapeLoopIn_plain hplain]
        exact ⟨_, rfl⟩

variable (padding : List Output → BitVec 48)

lemma dumpConstantIn_law {o : TValue} (ho : o.tt = .string → S o.value.s) :
    DumpLaw S (dumpConstantIn padding o) (fun m => o.tt = .string → o.value.s.Untouched m) := by
  rw [dumpConstantIn]
  have hchar {w : MemoryDump Unit} {P : List Byte → Prop} (hw : DumpLaw S w P) :
      DumpLaw S (do dumpChar o.tt.char; w) P :=
    ((dumpBlock_law _).bind hw).congr fun m => and_iff_right trivial
  refine hchar ?_
  cases htt : o.tt with
  | null | function => exact DumpLaw.pure.congr fun m => by simp
  | number =>
    refine DumpLaw.congr (.lift (w := dumpNumber padding o.value.n) fun h => iff_of_true ⟨_, rfl⟩ trivial) ?_
    exact fun m => by simp
  | boolean => exact (dumpBlock_law _).congr fun m => by simp
  | string => exact (dumpStringIn_law (ho htt)).congr fun m => by simp
  | none | pointer =>
    refine DumpLaw.congr (.lift fun h => iff_of_true ⟨_, rfl⟩ trivial) ?_
    exact fun m => by simp

lemma dumpConstantsIn_law (n : ℕ) {k : List TValue} (hk : ∀ o ∈ k, o.tt = .string → S o.value.s) :
    DumpLaw S (dumpConstantsIn padding n k)
      (fun m => ∀ o ∈ k.take n, o.tt = .string → o.value.s.Untouched m) := by
  induction n generalizing k with
  | zero =>
    rw [dumpConstantsIn.eq_def]
    exact DumpLaw.pure.congr fun m => by simp
  | succ n ih =>
    cases k with
    | nil =>
      rw [dumpConstantsIn.eq_def]
      exact DumpLaw.pure.congr fun m => by simp
    | cons o k =>
      rw [dumpConstantsIn]
      refine ((dumpConstantIn_law padding (hk o (by simp))).bind
        (ih (fun o ho => hk o (by simp [ho])))).congr fun m => ?_
      rw [List.take_succ_cons, List.forall_mem_cons]

inductive Proto.Untouched (m : List Byte) : Proto → Prop
  | mk {f : Proto} (source : f.source.Untouched m) (name : f.name.Untouched m)
      (code : 0 ≤ (count f.code).toInt)
      (k : ∀ o ∈ counted f.k, o.tt = .string → o.value.s.Untouched m)
      (p : ∀ g ∈ counted f.p, g.Untouched m) : Proto.Untouched m f

mutual

lemma dumpFunctionIn_law : ∀ f : Proto, (∀ s ∈ f.strings, S s) →
    DumpLaw S (dumpFunctionIn padding f) (fun m => f.Untouched m)
  | ⟨source, name, linedefined, lastlinedefined, maxregisters, numglobal, numupval, numparam, k, code,
      p⟩, hS => by
    rw [Proto.strings, List.forall_mem_cons, List.forall_mem_cons, List.forall_mem_append] at hS
    obtain ⟨hsource, hname, hk, hp⟩ := hS
    have hstring : ∀ o ∈ k, o.tt = .string → S o.value.s := by
      intro o ho htt
      exact hk _ (List.mem_filterMap.mpr ⟨o, ho, by rw [TValue.string?, if_pos htt]⟩)
    rw [dumpFunctionIn]
    refine ((dumpStringIn_law hsource).bind <| (dumpStringIn_law hname).bind <|
      (dumpBlock_law _).bind <| (dumpBlock_law _).bind <| (dumpBlock_law _).bind <|
      (dumpBlock_law _).bind <| (dumpBlock_law _).bind <| (dumpBlock_law _).bind <|
      (dumpCode_law code).bind <| (dumpBlock_law _).bind <|
      (dumpConstantsIn_law padding (upTo (count k)) hstring).bind <| (dumpBlock_law _).bind <|
      dumpFunctionsIn_law p (upTo (count p)) hp).congr fun m => ?_
    simp only [true_and]
    constructor
    · rintro ⟨hsource, hname, hcode, hk, hp⟩
      exact .mk hsource hname hcode hk hp
    · rintro ⟨hsource, hname, hcode, hk, hp⟩
      exact ⟨hsource, hname, hcode, hk, hp⟩

lemma dumpFunctionsIn_law : ∀ (p : List Proto) (n : ℕ), (∀ s ∈ protosStrings p, S s) →
    DumpLaw S (dumpFunctionsIn padding n p) (fun m => ∀ g ∈ p.take n, g.Untouched m)
  | p, 0, _ => by
    rw [dumpFunctionsIn]
    exact DumpLaw.pure.congr fun m => by simp
  | [], n + 1, _ => by
    rw [dumpFunctionsIn]
    exact DumpLaw.pure.congr fun m => by simp
  | f :: p, n + 1, hS => by
    rw [protosStrings, List.forall_mem_append] at hS
    rw [dumpFunctionsIn]
    refine ((dumpFunctionIn_law f hS.1).bind (dumpFunctionsIn_law p n hS.2)).congr fun m => ?_
    rw [List.take_succ_cons, List.forall_mem_cons]

end

lemma bijouDumpIn_law {f : Proto} (hS : ∀ s ∈ f.strings, S s) :
    DumpLaw S (bijouDumpIn padding f) (fun m => f.Untouched m) :=
  ((dumpBlock_law header).bind (dumpFunctionIn_law padding f hS)).congr fun _ => and_iff_right trivial

end DumpLaw

def Preserves (padding : List Output → BitVec 48) (m : List Byte) (f : Proto) : Prop :=
  ∃ out m', bijouDumpIn padding f m [] = (out, .ok ((), m')) ∧
    (∀ s ∈ f.strings, s.textIn m' = s.textIn m ∧
      (s.len.toNat = (s.textIn m).length → s.len.toNat = (s.textIn m').length)) ∧
    ∃ m'', bijouDumpIn padding f m' [] = (out, .ok ((), m''))

theorem dump_preserves_iff (padding : List Output → BitVec 48) (m : List Byte) (f : Proto) :
    Preserves padding m f ↔ f.Untouched m := by
  have hlaw : DumpLaw (· ∈ f.strings) (bijouDumpIn padding f) (fun m => f.Untouched m) :=
    bijouDumpIn_law padding fun _ hs => hs
  constructor
  · rintro ⟨out, m', hrun, hsame, -⟩
    rcases (hlaw.memory m [] out m' hrun).2 with ⟨-, hplain⟩ | ⟨s, hs, hcut⟩
    · exact hplain
    · exact absurd (congrArg List.length (hsame s hs).1) hcut.length_lt.ne
  · intro hplain
    obtain ⟨out, hout⟩ := hlaw.plain m [] hplain
    exact ⟨out, m, hout, fun s _ => ⟨rfl, id⟩, m, hout⟩

def ValidEscapes (m : List Byte) (f : Proto) : Prop :=
  ∀ s ∈ f.strings, s.len.toNat = (s.textIn m).length ∧ ∃ d, decode (s.textIn m) = some d

def escapedMemory : List Byte := 0 :: bytes "a\\n" ++ [0]

def escapedString : BijouString := .new ⟨1, CStr.at (bytes "a\\n")⟩

def escapedProto : Proto :=
  ⟨.new .null, .new .null, 1, 1, 1, 0, 0, 0, [⟨.string, .ofString escapedString⟩],
    [OpCode.return.code], []⟩

theorem escape_consumed : ∃ out m' out' m'', ValidEscapes escapedMemory escapedProto ∧
    bijouDumpIn (fun _ => 0) escapedProto escapedMemory [] = (out, .ok ((), m')) ∧
    escapedString.textIn m' = bytes "a\n" ∧ escapedString.len = 3 ∧
    bijouDumpIn (fun _ => 0) escapedProto m' [] = (out', .ok ((), m'')) ∧
    (out.flatMap Output.bytes).length + 1 = (out'.flatMap Output.bytes).length ∧
    ¬ ∀ padding m f, ValidEscapes m f → Preserves padding m f := by
  have hvalid : ValidEscapes escapedMemory escapedProto := by
    intro s hs
    have hstrings : escapedProto.strings = [.new .null, .new .null, escapedString] := rfl
    rw [hstrings] at hs
    simp only [List.mem_cons, List.not_mem_nil, or_false] at hs
    rcases hs with rfl | rfl | rfl
    · exact ⟨by decide, [], by decide⟩
    · exact ⟨by decide, [], by decide⟩
    · exact ⟨by decide, bytes "a\n", by decide⟩
  obtain ⟨out, m', hrun, hlen, hm'⟩ : ∃ out m',
      bijouDumpIn (fun _ => 0) escapedProto escapedMemory [] = (out, .ok ((), m')) ∧
      (out.flatMap Output.bytes).length = 62 ∧ m' = 0 :: bytes "a\n" ++ [0, 0] :=
    ⟨_, _, rfl, by decide +kernel, by decide +kernel⟩
  obtain ⟨out', m'', hrun', hlen'⟩ : ∃ out' m'',
      bijouDumpIn (fun _ => 0) escapedProto m' [] = (out', .ok ((), m'')) ∧
      (out'.flatMap Output.bytes).length = 63 := by
    rw [hm']
    exact ⟨_, _, rfl, by decide +kernel⟩
  refine ⟨out, m', out', m'', hvalid, hrun, by rw [hm']; decide, by decide, hrun', by omega, fun h => ?_⟩
  obtain ⟨out₁, m₁, hrun₁, -, m₂, hrun₂⟩ := h (fun _ => 0) _ _ hvalid
  cases hrun.symm.trans hrun₁
  cases hrun'.symm.trans hrun₂
  omega

end Bijou
