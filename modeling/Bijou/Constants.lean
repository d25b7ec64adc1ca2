import Bijou.CompilerRules

namespace Bijou

open CString Incremental

inductive Entry where
  | null
  | number (n : ℤ)
  | boolean (n : BitVec 32)
  | string (buffer : {a : BitVec 64 // a ≠ 0}) (text : CStr)
  | function (func : Block)

variable (mem : Memory)

def entryRound (path : Path) (loop : List Entry → Scan (List Entry)) (es : List Entry) :
    Scan (List Entry) := do
  let here := es.length :: path
  let string ← readLine
  match constLine (string ++ mem.line here) with
  | .close => return es
  | .comment => loop es
  | .bad e => fail e
  | .null => loop (es ++ [.null])
  | .number n => loop (es ++ [.number n])
  | .boolean n => loop (es ++ [.boolean n])
  | .string text => loop (es ++ [.string (mem.addr here) (CStr.at text)])
  | .function => do
    let func ← compileFunction mem here (Block.new (mem.block here))
    loop (es ++ [.function func])

def constEntries (path : Path) : Scan (List Entry) := do
  expect (bytes ">CONST")
  fix (entryRound mem path) []

namespace Entry

def Holds : Entry → TValue → Prop
  | null, v => v.tt = .null
  | number n, v => v.tt = .number ∧ v.value.n = .ofInt n
  | boolean n, v => v.tt = .boolean ∧ v.value.b = n
  | string buffer text, v => v.tt = .string ∧ v.value.s = .new ⟨buffer.val, text⟩
  | function _, v => v.tt = .function

def tvalue (t : Value) : Entry → TValue
  | null => ⟨.null, t⟩
  | number n => ⟨.number, t.setNum (.ofInt n)⟩
  | boolean n => ⟨.boolean, t.setBool n⟩
  | string buffer text => ⟨.string, .ofString (.new ⟨buffer.val, text⟩)⟩
  | function _ => ⟨.function, t⟩

/-- Two entries that TValue_equal takes for one; booleans are compared as the numbers that the
bytes of the two temporaries spell. -/
def Clash (t t' : Value) : Entry → Entry → Prop
  | null, null => True
  | number n, number m => n = m
  | boolean n, boolean m => (t.setBool n).n.eq (t'.setBool m).n = true
  | string _ x, string _ y => x = y
  | _, _ => False

def Ranged : Entry → Prop
  | number n => n.natAbs < 2 ^ 64
  | _ => True

lemma tvalue_holds (t : Value) (e : Entry) : e.Holds (e.tvalue t) := by
  cases e <;> simp [Holds, tvalue]

lemma tvalue_live (t : Value) (e : Entry) : (e.tvalue t).Live := by
  cases e with
  | string buffer text => exact fun _ => buffer.property
  | _ => exact nofun

lemma string_same_iff (buffer buffer' : {a : BitVec 64 // a ≠ 0}) (x y : CStr) :
    (BijouString.new ⟨buffer.val, x⟩).equal (.new ⟨buffer'.val, y⟩) = some true ↔ x = y := by
  have hlive : (BijouString.new ⟨buffer.val, x⟩).Live := buffer.property
  have hlive' : (BijouString.new ⟨buffer'.val, y⟩).Live := buffer'.property
  rw [BijouString.equal_live hlive hlive']
  simp only [Option.some.injEq, decide_eq_true_eq]
  refine ⟨fun h => h.2, ?_⟩
  rintro rfl
  simp only [BijouString.new, if_neg buffer.property, if_neg buffer'.property, and_self]

lemma same_iff_clash {t t' : Value} {e e' : Entry} (h : e.Ranged) (h' : e'.Ranged) :
    (e.tvalue t).same (e'.tvalue t') = true ↔ Clash t t' e e' := by
  cases e <;> cases e' <;> simp only [Clash, tvalue, TValue.same, TValue.equal, reduceCtorEq, if_true,
    if_false, decide_eq_true_eq, Option.some.injEq, Bool.false_eq_true]
  case number.number n m => rw [Value.setNum_n, Value.setNum_n, eq_ofInt h h', decide_eq_true_eq]
  case string.string => exact string_same_iff _ _ _ _

end Entry

def withTemp : Value → List Entry → List (Value × Entry)
  | _, [] => []
  | t, e :: es => (t, e) :: withTemp (e.tvalue t).value es

def lastTemp (t : Value) (es : List Entry) : Value := es.foldl (fun t e => (e.tvalue t).value) t

def entryConstants (t : Value) (es : List Entry) : List TValue :=
  (withTemp t es).map (fun x => x.2.tvalue x.1)

def Distinct (t : Value) (es : List Entry) : Prop :=
  (withTemp t es).Pairwise (fun x y => ¬ x.2.Clash x.1 y.1 y.2)

lemma withTemp_append (t : Value) (es : List Entry) (e : Entry) :
    withTemp t (es ++ [e]) = withTemp t es ++ [(lastTemp t es, e)] := by
  induction es generalizing t with
  | nil => rfl
  | cons e' es ih => simp [withTemp, lastTemp, ih]

lemma entryConstants_append (t : Value) (es : List Entry) (e : Entry) :
    entryConstants t (es ++ [e]) = entryConstants t es ++ [e.tvalue (lastTemp t es)] := by
  simp [entryConstants, withTemp_append]

lemma lastTemp_append (t : Value) (es : List Entry) (e : Entry) :
    lastTemp t (es ++ [e]) = (e.tvalue (lastTemp t es)).value := by
  simp [lastTemp]

lemma withTemp_snd (t : Value) (es : List Entry) : (withTemp t es).map Prod.snd = es := by
  induction es generalizing t with
  | nil => rfl
  | cons e es ih => simp [withTemp, ih]

lemma entryConstants_length (t : Value) (es : List Entry) : (entryConstants t es).length = es.length := by
  have := congrArg List.length (withTemp_snd t es)
  simpa [entryConstants] using this

lemma entryConstants_holds (t : Value) (es : List Entry) :
    List.Forall₂ Entry.Holds es (entryConstants t es) := by
  induction es generalizing t with
  | nil => exact .nil
  | cons e es ih => exact .cons (e.tvalue_holds t) (ih _)

lemma entryConstants_live (t : Value) (es : List Entry) : ∀ v ∈ entryConstants t es, v.Live := by
  intro v hv
  obtain ⟨x, -, rfl⟩ := List.mem_map.mp hv
  exact Entry.tvalue_live _ _

lemma distinct_iff {t : Value} {es : List Entry} (h : ∀ e ∈ es, e.Ranged) :
    Distinct t es ↔ (entryConstants t es).Pairwise (fun u v => u.same v = false) := by
  have hmem : ∀ x ∈ withTemp t es, x.2.Ranged := by
    intro x hx
    apply h
    rw [← withTemp_snd t es]
    exact List.mem_map_of_mem hx
  rw [Distinct, entryConstants, List.pairwise_map]
  apply List.Pairwise.iff_of_mem
  intro x y hx hy
  rw [← Entry.same_iff_clash (hmem x hx) (hmem y hy), Bool.not_eq_true]

structure After (path : Path) (es : List Entry) (st : ConstState) : Prop where
  here : st.here = es.length :: path
  temp : st.t = lastTemp (mem.temp path) es
  k : st.b.k = (entryConstants (mem.temp path) es).foldl (Pool.push TValue.same) []
  ranged : ∀ e ∈ es, e.Ranged

variable {mem} {path : Path} {es : List Entry} {st : ConstState}

lemma After.push (h : After mem path es st) {e : Entry} (he : e.Ranged) {b : Block} (hb : b.k = st.b.k)
    {tt : Tag} {value : Value} (hv : e.tvalue st.t = ⟨tt, value⟩) :
    ∃ st' k, ConstState.push { st with b := b } tt value = some st' ∧ After mem path (es ++ [e]) st' ∧
      st'.b = { b with k := k } := by
  have hlive : ∀ u ∈ b.k, u.Live := by
    intro u hu
    rw [hb, h.k] at hu
    rcases Pool.mem_foldl_push hu with hu | hu
    · simp at hu
    · exact entryConstants_live _ _ u hu
  obtain ⟨i, hi⟩ := Block.pushConst_live hlive (hv ▸ e.tvalue_live st.t)
  obtain ⟨hentry, hpath⟩ := List.cons.inj h.here
  refine ⟨⟨st.path, { b with k := Pool.push TValue.same b.k ⟨tt, value⟩ }, value, st.entry + 1⟩, _,
    ?_, ⟨?_, ?_, ?_, ?_⟩, rfl⟩
  · simp only [ConstState.push, hi]
    rfl
  · simp [ConstState.here, hentry, hpath]
  · rw [lastTemp_append, ← h.temp, hv]
  · rw [entryConstants_append, List.foldl_append, ← h.k, ← h.temp, ← hb, hv]
    rfl
  · intro e' he'
    rcases List.mem_append.mp he' with he' | he'
    · exact h.ranged e' he'
    · exact List.mem_singleton.mp he' ▸ he

lemma natAbs_atol (t : List Byte) : (atol t).natAbs < 2 ^ 64 := by
  obtain ⟨z, hz⟩ : ∃ z, atol t = clampLong z := by
    rw [atol, strtol]
    split <;> exact ⟨_, rfl⟩
  rw [hz, clampLong]
  omega

lemma constLine_number {line : List Byte} {n : ℤ} (h : constLine line = .number n) :
    n.natAbs < 2 ^ 64 := by
  have hn : n = atol (line.drop 2) := by
    simp only [constLine] at h
    split_ifs at h
    split at h <;> simp_all
  rw [hn]
  exact natAbs_atol _

lemma entryRound_guarded (path : Path) : Guarded (entryRound mem path) where
  shrinks f hf es s := by
    apply shrinks_scanned.bind (shrinks_scanned.readLine s)
    intro string r _
    split
    · exact shrinks_scanned.pure _ _
    · exact hf _ _
    · exact shrinks_scanned.fail _ _
    · exact hf _ _
    · exact hf _ _
    · exact hf _ _
    · exact hf _ _
    · exact shrinks_scanned.bind (compileFunction_shrinks mem _ _ r) (fun func m _ => hf _ m)
  congr f g es s hf hfg := by
    apply bind_apply_congr rfl
    intro string r hr
    have hlen := readLine_eats s _ _ hr
    cases constLine (string ++ mem.line (es.length :: path)) with
    | close => rfl
    | bad e => rfl
    | function =>
      apply bind_apply_congr rfl
      intro func m hm
      exact hfg _ _ (((compileFunction_shrinks mem _ _ r).length_le hm).trans_lt hlen)
    | _ => exact hfg _ _ hlen

lemma constLoop_entries {b' : Block} {s r : List Byte} (h : After mem path es st)
    (hdone : constLoop mem st s = .done b' r) :
    ∃ es', fix (entryRound mem path) es s = .done es' r ∧ (∀ e ∈ es', e.Ranged) ∧
      b'.k = (entryConstants (mem.temp path) es').foldl (Pool.push TValue.same) [] := by
  induction hn : s.length using Nat.strong_induction_on generalizing es st s with
  | _ n ih =>
    subst hn
    rw [constLoop_eq] at hdone
    obtain ⟨string, m, hline, hdone⟩ := bind_eq_done.mp hdone
    have hlen := readLine_eats s _ _ hline
    rw [(entryRound_guarded path).fix_eq, entryRound, bind_done hline, ← h.here]
    -- an entry that takes no more of the stream than its line
    have hpush : ∀ {e : Entry} {tt value} {b : Block} {m' : List Byte}, e.Ranged → b.k = st.b.k →
        m'.length < s.length → e.tvalue st.t = ⟨tt, value⟩ →
        pushEntry (constLoop mem) { st with b := b } tt value m' = .done b' r →
        ∃ es', fix (entryRound mem path) (es ++ [e]) m' = .done es' r ∧ (∀ e ∈ es', e.Ranged) ∧
          b'.k = (entryConstants (mem.temp path) es').foldl (Pool.push TValue.same) [] := by
      intro e tt value b m' he hb hm' hv hp
      obtain ⟨st', k, hst', hafter, -⟩ := h.push he hb hv
      rw [pushEntry, hst'] at hp
      exact ih _ hm' hafter hp rfl
    cases hl : constLine (string ++ mem.line st.here) with
    | close =>
      rw [hl] at hdone
      obtain ⟨rfl, rfl⟩ : st.b = b' ∧ m = r := by simpa [constEntry] using hdone
      exact ⟨es, rfl, h.ranged, h.k⟩
    | comment => 
      rw [hl] at hdone
      exact ih _ hlen h hdone rfl
    | bad e => simp [hl, constEntry] at hdone
    | null =>
      rw [hl] at hdone
      exact hpush (e := .null) trivial rfl hlen rfl hdone
    | number n =>
      rw [hl] at hdone
      exact hpush (e := .number n) (constLine_number hl) rfl hlen rfl hdone
    | boolean n =>
      rw [hl] at hdone
      exact hpush (e := .boolean n) trivial rfl hlen rfl hdone
    | string text =>
      rw [hl] at hdone
      exact hpush (e := .string (mem.addr st.here) (CStr.at text)) trivial rfl hlen rfl hdone
    | function =>
      rw [hl] at hdone
      obtain ⟨func, m', hfunc, hdone⟩ := bind_eq_done.mp hdone
      rw [compileFunctionWith_constLoop] at hfunc
      have hm' := (compileFunction_shrinks mem _ _ m).length_le hfunc
      dsimp only
      rw [bind_done hfunc]
      exact hpush (e := .function func) (b := st.b.pushChild func) trivial rfl (by omega) rfl hdone

theorem compileConst_holds_iff {b b' : Block} {s r : List Byte} (hb : b.k = [])
    (h : compileConst mem path b s = .done b' r) :
    ∃ es, constEntries mem path s = .done es r ∧
      (List.Forall₂ Entry.Holds es b'.k ↔ Distinct (mem.temp path) es) := by
  obtain ⟨u, m, hexpect, hloop⟩ := bind_eq_done.mp h
  have hinit : After mem path [] ⟨path, b, mem.temp path, 0⟩ := ⟨rfl, rfl, hb, by simp⟩
  obtain ⟨es, hes, hranged, hk⟩ := constLoop_entries hinit hloop
  refine ⟨es, by rw [constEntries, bind_done hexpect, hes], ?_⟩
  rw [distinct_iff hranged, ← Pool.length_eq_iff, ← hk, entryConstants_length]
  constructor
  · exact fun hf => hf.length_eq.symm
  · intro hlen
    have hpair := Pool.length_eq_iff.mp (by rw [← hk, hlen, entryConstants_length])
    rw [hk, Pool.foldl_push_new hpair (by simp), List.nil_append]
    exact entryConstants_holds _ _

def sampleSection : List Byte :=
  bytes ">CONST\n1#5\n2#1\n3#\"one\"\n4#\n>HEAD\n<HEAD\n>CODE\n<CODE\n>CONST\n1#5\n<CONST\n0#\n1#6\n<CONST\n"

theorem compileConst_holds_iff_sample : ∃ b' r,
    compileConst default [] (Block.new default) sampleSection = .done b' r ∧
    b'.k.map TValue.tt = [.number, .boolean, .string, .function, .null, .number] ∧
    ∃ es, constEntries default [] sampleSection = .done es r ∧
      (List.Forall₂ Entry.Holds es b'.k ↔ Distinct (Memory.temp default []) es) := by
  have htags : (compileConst default [] (Block.new default) sampleSection).value?.map
      (fun b => b.k.map TValue.tt) = some [.number, .boolean, .string, .function, .null, .number] := by
    decide +kernel
  obtain ⟨b', hb', htt⟩ := Option.map_eq_some_iff.mp htags
  obtain ⟨r, hr⟩ := Outcome.done_of_value hb'
  exact ⟨b', r, hr, htt, compileConst_holds_iff rfl hr⟩

theorem compileConst_drops_duplicate : ∃ es b' r r',
    constEntries default [] (bytes ">CONST\n1#5\n1#5\n<CONST\n") = .done es r ∧
    compileConst default [] (Block.new default) (bytes ">CONST\n1#5\n1#5\n<CONST\n") = .done b' r' ∧
    es.length = 2 ∧ b'.k.length = 1 ∧ ¬ List.Forall₂ Entry.Holds es b'.k := by
  have hes : (constEntries default [] (bytes ">CONST\n1#5\n1#5\n<CONST\n")).value?.map List.length =
      some 2 := by decide +kernel
  have hk : (compileConst default [] (Block.new default)
      (bytes ">CONST\n1#5\n1#5\n<CONST\n")).value?.map (fun b => b.k.length) = some 1 := by
    decide +kernel
  obtain ⟨es, hes, hlen⟩ := Option.map_eq_some_iff.mp hes
  obtain ⟨b', hb', hlen'⟩ := Option.map_eq_some_iff.mp hk
  obtain ⟨r, hr⟩ := Outcome.done_of_value hes
  obtain ⟨r', hr'⟩ := Outcome.done_of_value hb'
  refine ⟨es, b', r, r', hr, hr', hlen, hlen', fun hf => ?_⟩
  have := hf.length_eq
  omega

end Bijou
