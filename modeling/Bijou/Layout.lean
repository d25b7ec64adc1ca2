import Bijou.StringDump

namespace Bijou

open CString Incremental LittleEndian

/-- The width of the size of a string, and the bytes of a number and of a boolean. -/
structure Format where
  size : ℕ
  number : LongDouble → List Byte → Prop
  boolean : BitVec 32 → Byte

def Format.written : Format where
  size := 8
  number x l := ∃ padding, l = toBytes 8 x.mant.toNat ++ toBytes 2 x.se.toNat ++ toBytes 6 padding
  boolean := toByte

def Format.documented : Format where
  size := 4
  number _ l := l.length = 8
  boolean b := if b = 0 then 0 else 1

section Layout

variable (format : Format)

/-- The empty string may have the size 0, or be written with its NUL as any other. -/
def StringLayout (s : BijouString) (l : List Byte) : Prop :=
  ∃ text, decode s.chars = some text ∧ (text = [] ∧ l = toBytes format.size 0 ∨
    l = toBytes format.size (text.length + 1) ++ text ++ [0])

def ValueLayout (o : TValue) (l : List Byte) : Prop :=
  match o.tt with
  | .number => format.number o.value.n l
  | .boolean => l = [format.boolean o.value.b]
  | .string => StringLayout format o.value.s l
  | .none | .null | .function | .pointer => l = []

def ConstantLayout (o : TValue) (l : List Byte) : Prop :=
  ∃ value, l = o.tt.char :: value ∧ ValueLayout format o value

def codeLayout (code : List Inst) : List Byte :=
  toBytes 4 (count code).toNat ++ (counted code).flatMap (fun i => toBytes 4 i.toNat)

inductive FunctionLayout : Proto → List Byte → Prop
  | mk {f : Proto} {source name : List Byte} {k p : List (List Byte)}
      (hsource : StringLayout format f.source source) (hname : StringLayout format f.name name)
      (hk : List.Forall₂ (ConstantLayout format) (counted f.k) k)
      (hp : List.Forall₂ FunctionLayout (counted f.p) p) :
      FunctionLayout f (source ++ (name ++ (toBytes 4 f.linedefined.toNat ++
        (toBytes 4 f.lastlinedefined.toNat ++ ([f.maxregisters] ++ ([f.numglobal] ++ ([f.numupval] ++
        ([f.numparam] ++ (codeLayout f.code ++ (toBytes 4 (count f.k).toNat ++ (k.flatten ++
        (toBytes 4 (count f.p).toNat ++ p.flatten))))))))))))

def FileLayout (f : Proto) (l : List Byte) : Prop :=
  ∃ version endianness function, l = bytes "\x10bij" ++ [version, endianness] ++ function ∧
    FunctionLayout format f function

end Layout

section Written

variable (padding : List Output → BitVec 48)

lemma dumpBlock_yields (blk : List Byte) {P : List Byte → Prop} (h : P blk) :
    Writer.Yields Output.bytes (dumpBlock blk) P :=
  .write (by simpa [Output.bytes] using h)

lemma dumpBlock_before {α : Type} {f : Unit → Dump α} {Q : List Byte → Prop} (blk : List Byte)
    (hf : Writer.Yields Output.bytes (f ()) Q) :
    Writer.Yields Output.bytes (dumpBlock blk >>= f) (fun l => ∃ l', l = blk ++ l' ∧ Q l') := by
  refine ((dumpBlock_yields blk (P := (· = blk)) rfl).bind fun _ => hf).mono ?_
  rintro _ ⟨_, l, rfl, rfl, hl⟩
  exact ⟨l, rfl, hl⟩

lemma dumpString_yields {s : BijouString} (hs : s.Sound) :
    Writer.Yields Output.bytes (dumpString memmove s) (StringLayout .written s) := by
  by_cases hlen : s.len = 0
  · have hnil : s.chars = [] := by
      apply List.length_eq_zero_iff.mp
      rw [← hs.len, hlen]
      rfl
    rw [dumpString, if_pos hlen]
    refine ((dumpBlock_yields _ (P := (· = toBytes 8 0)) rfl).bind_pure fun _ => s).mono ?_
    rintro _ rfl
    exact ⟨[], by rw [hnil]; rfl, .inl ⟨rfl, rfl⟩⟩
  · obtain ⟨hstop, hdump⟩ := dumpString_decode hs hlen
    cases hd : decode s.chars with
    | none =>
      obtain ⟨e, he⟩ := hstop hd
      rw [he]
      exact .stop
    | some d =>
      have hle := (decode_bounds hd).2.1
      have hfit := hs.fits
      have hnat : (BitVec.ofNat 64 (d.length + 1)).toNat = d.length + 1 := by
        rw [BitVec.toNat_ofNat, Nat.mod_eq_of_lt (by omega)]
      rw [hdump d hd]
      refine (dumpBlock_before _ ((dumpBlock_yields _ (P := (· = d ++ [0])) rfl).bind_pure _)).mono ?_
      rintro _ ⟨_, rfl, rfl⟩
      exact ⟨d, hd, .inr (by simp [Format.written, hnat])⟩

lemma dumpCode_yields (code : List Inst) :
    Writer.Yields Output.bytes (dumpCode code) (· = codeLayout code) := by
  rw [dumpCode]
  by_cases hn : (count code).toInt < 0
  · simp only [if_pos hn]
    exact (dumpBlock_before _ (.stop (P := fun _ => False))).mono (by rintro _ ⟨_, -, ⟨⟩⟩)
  · have hcounted : counted code = code.take (count code).toNat := by
      rw [counted, upTo, BitVec.toInt_eq_toNat_of_lt (by
        rw [BitVec.toInt_neg_iff] at hn
        omega)]
      rfl
    simp only [if_neg hn]
    refine (dumpBlock_before _
      (dumpBlock_yields _ (P := (· = (counted code).flatMap fun i => toBytes 4 i.toNat)) ?_)).mono ?_
    · rw [hcounted]
    · rintro _ ⟨_, rfl, rfl⟩
      rfl

lemma dumpNumber_yields (x : LongDouble) :
    Writer.Yields Output.bytes (dumpNumber padding x) (Format.written.number x) := by
  rintro h _ _ ⟨⟩
  exact ⟨(padding h).toNat, List.append_nil _⟩

lemma dumpConstant_yields {o : TValue} (ho : o.tt = .string → o.value.s.Sound) :
    Writer.Yields Output.bytes (dumpConstant memmove padding o) (ConstantLayout .written o) := by
  rw [dumpConstant]
  apply dumpBlock_before
  unfold ValueLayout
  cases htt : o.tt with
  | null | function => exact .pure rfl
  | number => exact (dumpNumber_yields padding o.value.n).bind_pure fun _ => o
  | boolean => exact (dumpBlock_yields _ (P := (· = [toByte o.value.b])) rfl).bind_pure fun _ => o
  | string => exact (dumpString_yields (ho htt)).bind_pure _
  | none | pointer => exact Writer.Yields.bind_pure (.write (P := (· = [])) rfl) fun _ => o

lemma dumpConstants_yields (n : ℕ) {k : List TValue} (hk : ∀ o ∈ k, o.tt = .string → o.value.s.Sound) :
    Writer.Yields Output.bytes (dumpConstants memmove padding n k) (fun l =>
      ∃ parts, List.Forall₂ (ConstantLayout .written) (k.take n) parts ∧ l = parts.flatten) := by
  induction n generalizing k with
  | zero =>
    rw [dumpConstants.eq_def]
    exact .pure ⟨[], .nil, rfl⟩
  | succ n ih =>
    cases k with
    | nil =>
      rw [dumpConstants.eq_def]
      exact .pure ⟨[], .nil, rfl⟩
    | cons o k =>
      rw [dumpConstants]
      refine ((dumpConstant_yields padding (hk o (by simp))).bind fun _ =>
        (ih (fun o ho => hk o (by simp [ho]))).bind_pure _).mono ?_
      rintro _ ⟨l, _, rfl, hl, parts, hparts, rfl⟩
      exact ⟨l :: parts, .cons hl hparts, rfl⟩

mutual

lemma dumpFunction_yields : ∀ f : Proto, f.Sound →
    Writer.Yields Output.bytes (dumpFunction memmove padding f) (FunctionLayout .written f)
  | ⟨source, name, linedefined, lastlinedefined, maxregisters, numglobal, numupval, numparam, k, code,
      p⟩, hf => by
    obtain ⟨hsource, hname, hk, hp⟩ := hf
    rw [dumpFunction]
    refine ((dumpString_yields hsource).bind fun _ => (dumpString_yields hname).bind fun _ =>
      dumpBlock_before _ <| dumpBlock_before _ <| dumpBlock_before _ <| dumpBlock_before _ <|
      dumpBlock_before _ <| dumpBlock_before _ <| (dumpCode_yields code).bind fun _ =>
      dumpBlock_before _ <| (dumpConstants_yields padding (upTo (count k)) hk).bind fun _ =>
      dumpBlock_before _ <| (dumpFunctions_yields p (upTo (count p)) hp).bind_pure _).mono ?_
    rintro _ ⟨s, _, rfl, hs, n, _, rfl, hn, _, rfl, _, rfl, _, rfl, _, rfl, _, rfl, _, rfl, _, _, rfl, rfl,
      _, rfl, _, _, rfl, ⟨parts, hparts, rfl⟩, _, rfl, children, hchildren, rfl⟩
    exact .mk hs hn hparts hchildren

lemma dumpFunctions_yields : ∀ (p : List Proto) (n : ℕ), (∀ g ∈ p, g.Sound) →
    Writer.Yields Output.bytes (dumpFunctions memmove padding n p) (fun l =>
      ∃ parts, List.Forall₂ (FunctionLayout .written) (p.take n) parts ∧ l = parts.flatten)
  | p, 0, _ => by
    rw [dumpFunctions]
    exact .pure ⟨[], .nil, rfl⟩
  | [], n + 1, _ => by
    rw [dumpFunctions]
    exact .pure ⟨[], .nil, rfl⟩
  | f :: p, n + 1, hp => by
    rw [dumpFunctions]
    refine ((dumpFunction_yields f (hp f (by simp))).bind fun _ =>
      (dumpFunctions_yields p n (fun g hg => hp g (by simp [hg]))).bind_pure _).mono ?_
    rintro _ ⟨l, _, rfl, hl, parts, hparts, rfl⟩
    exact ⟨l :: parts, .cons hl hparts, rfl⟩

end

lemma bijouDump_yields {f : Proto} (hf : f.Sound) :
    Writer.Yields Output.bytes (bijouDump memmove padding f) (FileLayout .written f) := by
  refine (dumpBlock_before header (dumpFunction_yields padding f hf)).mono ?_
  rintro _ ⟨l, rfl, hl⟩
  exact ⟨5, 1, l, rfl, hl⟩

end Written

section Length

variable {l l' : List Byte}

lemma string_shorter {s : BijouString} (h : StringLayout .documented s l) (h' : StringLayout .written s l') :
    l.length < l'.length := by
  obtain ⟨text, htext, hl⟩ := h
  obtain ⟨text', htext', hl'⟩ := h'
  obtain rfl : text = text' := Option.some.inj (htext.symm.trans htext')
  rcases hl with ⟨rfl, rfl⟩ | rfl <;> rcases hl' with ⟨hnil, rfl⟩ | rfl <;>
    simp_all [Format.documented, Format.written]

lemma constant_le {o : TValue} (h : ConstantLayout .documented o l) (h' : ConstantLayout .written o l') :
    l.length ≤ l'.length := by
  obtain ⟨value, rfl, hl⟩ := h
  obtain ⟨value', rfl, hl'⟩ := h'
  rw [List.length_cons, List.length_cons, Nat.add_le_add_iff_right]
  rw [ValueLayout] at hl hl'
  cases htt : o.tt with
  | number =>
    rw [htt] at hl hl'
    obtain ⟨padding, rfl⟩ := hl'
    have hlen : value.length = 8 := hl
    simp [hlen]
  | string =>
    rw [htt] at hl hl'
    exact (string_shorter hl hl').le
  | boolean =>
    rw [htt] at hl hl'
    rw [hl, hl', List.length_singleton, List.length_singleton]
  | none | null | function | pointer =>
    rw [htt] at hl hl'
    rw [hl, hl']

lemma constants_le : ∀ {k : List TValue} {m m' : List (List Byte)},
    List.Forall₂ (ConstantLayout .documented) k m → List.Forall₂ (ConstantLayout .written) k m' →
      m.flatten.length ≤ m'.flatten.length
  | _, _, _, .nil, .nil => le_rfl
  | _, _, _, .cons h hk, .cons h' hk' => by
    have hhead := constant_le h h'
    have htail := constants_le hk hk'
    simp only [List.flatten_cons, List.length_append]
    omega

mutual

lemma function_shorter : ∀ (f : Proto) {l l' : List Byte}, FunctionLayout .documented f l →
    FunctionLayout .written f l' → l.length < l'.length
  | ⟨source, name, linedefined, lastlinedefined, maxregisters, numglobal, numupval, numparam, k, code,
      p⟩, _, _, .mk hsource hname hk hp, .mk hsource' hname' hk' hp' => by
    have hs := string_shorter hsource hsource'
    have hn := string_shorter hname hname'
    have hconst := constants_le hk hk'
    have hchildren := functions_le p (upTo (count p)) hp hp'
    simp only [List.length_append, toBytes_length]
    omega

lemma functions_le : ∀ (p : List Proto) (n : ℕ) {m m' : List (List Byte)},
    List.Forall₂ (FunctionLayout .documented) (p.take n) m →
      List.Forall₂ (FunctionLayout .written) (p.take n) m' → m.flatten.length ≤ m'.flatten.length
  | p, 0, _, _, .nil, .nil => le_rfl
  | [], n + 1, _, _, .nil, .nil => le_rfl
  | f :: p, n + 1, _, _, .cons h hp, .cons h' hp' => by
    have hhead := function_shorter f h h'
    have htail := functions_le p n hp hp'
    simp only [List.flatten_cons, List.length_append]
    omega

end

lemma file_shorter {f : Proto} (h : FileLayout .documented f l) (h' : FileLayout .written f l') :
    l.length < l'.length := by
  obtain ⟨_, _, m, rfl, hm⟩ := h
  obtain ⟨_, _, m', rfl, hm'⟩ := h'
  have := function_shorter f hm hm'
  simp only [List.length_append, List.length_cons, List.length_nil]
  omega

end Length

theorem dump_not_documented (padding : List Output → BitVec 48) {f f' : Proto} {out : List Output}
    (hf : f.Sound) (hdump : bijouDump memmove padding f [] = (out, .ok f')) :
    ¬ FileLayout .documented f (out.flatMap Output.bytes) :=
  fun h => absurd (file_shorter h (bijouDump_yields padding hf [] out f' hdump)) (lt_irrefl _)

def oneNumber : Proto :=
  ⟨.new (.to (CStr.at (bytes "one.jou"))), .new (.to (CStr.at (bytes "main"))), 1, 1, 1, 0, 0, 0,
    [⟨.number, .setNum ⟨0, 0, .empty⟩ (.ofInt 1)⟩], [OpCode.return.code], []⟩

lemma oneNumber_sound : oneNumber.Sound :=
  .mk ⟨by decide, by decide⟩ ⟨by decide, by decide⟩ (by simp [oneNumber]) (by simp [oneNumber])

theorem dump_not_documented_number : ∃ out f', bijouDump memmove (fun _ => 0) oneNumber [] = (out, .ok f') ∧
    ¬ FileLayout .documented oneNumber (out.flatMap Output.bytes) :=
  ⟨_, _, rfl, dump_not_documented (fun _ => 0) oneNumber_sound rfl⟩

theorem wide_sizes : ∃ out f', bijouDump memmove (fun _ => 0) oneNumber [] = (out, .ok f') ∧
    (out.flatMap Output.bytes).take 22 = header ++ toBytes 8 8 ++ bytes "one.jou" ++ [0] ∧
    ¬ ∀ padding f out f', f.Sound → bijouDump memmove padding f [] = (out, .ok f') →
      FileLayout .documented f (out.flatMap Output.bytes) := by
  refine ⟨_, _, rfl, by decide +kernel, fun h => ?_⟩
  have hwritten := bijouDump_yields (fun _ => 0) oneNumber_sound [] _ _ rfl
  exact absurd (file_shorter (h (fun _ => 0) oneNumber _ _ oneNumber_sound rfl) hwritten) (lt_irrefl _)

end Bijou
