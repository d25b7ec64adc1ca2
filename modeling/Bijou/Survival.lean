import Bijou.Rebuild

/-! When the constants of a program survive its file: the last pass drops a constant that has become
the same as an earlier one, and all later constants move. -/

namespace Bijou

open CString Incremental LittleEndian

section Conditions

variable (reader : ℕ → BitVec 32) (mem : LoadMemory)

def Tag.back : Tag → Tag
  | function => null
  | tt => tt

def TValue.truth (o : TValue) : BitVec 32 := if toByte o.value.b = 0 then 0 else 1

/-- Two constants that come back as one: function slots come back as null, two escapes may stand for
the same text, and booleans are compared together with the bytes of `v` and `w` beneath them. -/
def TValue.Collide (v w : Value) (o o' : TValue) : Prop :=
  match o.tt.back, o'.tt.back with
  | .null, .null => True
  | .boolean, .boolean => (v.setBool o.truth).n.eq (w.setBool o'.truth).n = true
  | .string, .string => decode o.value.s.chars = decode o'.value.s.chars
  | _, _ => False

section Pair

variable {reader} {mem} {path : Path} {o o' : TValue} {i : ℕ}

lemma Reloads.cases (h : Reloads reader mem path (o, i) o') :
    o.tt.back = .null ∧ o' = ⟨.null, mem.k path i⟩ ∨
    o.tt.back = .number ∧ o' = ⟨.number, (mem.k path i).setNum o.value.n⟩ ∨
    o.tt.back = .boolean ∧ o' = ⟨.boolean, (mem.k path i).setBool o.truth⟩ ∨
    o.tt.back = .string ∧ ∃ s p,
      reloadString reader (mem.addr path (.const i)).val o.value.s = some (s, p) ∧
        o' = ⟨.string, .ofString (.new p)⟩ := by
  obtain ⟨o₁, h⟩ := h
  rw [reloadConstant] at h
  cases htt : o.tt with
  | null =>
    rw [htt] at h
    cases h
    exact .inl ⟨rfl, rfl⟩
  | number =>
    rw [htt] at h
    cases h
    exact .inr (.inl ⟨rfl, rfl⟩)
  | boolean =>
    rw [htt] at h
    cases h
    exact .inr (.inr (.inl ⟨rfl, rfl⟩))
  | string =>
    rw [htt] at h
    obtain ⟨⟨s, p⟩, hs, h⟩ := Option.bind_eq_some_iff.mp h
    cases h
    exact .inr (.inr (.inr ⟨rfl, s, p, hs, rfl⟩))
  | function =>
    rw [htt] at h
    cases h
    exact .inl ⟨rfl, rfl⟩
  | none => simp [htt] at h
  | pointer => simp [htt] at h

lemma Tag.back_eq {tt : Tag} (h : tt.back = .number ∨ tt.back = .boolean ∨ tt.back = .string) :
    tt.back = tt := by
  cases tt <;> simp_all [back]

lemma BijouString.equal_cached {s t : BijouString} (hs : s.len.toNat = s.chars.length)
    (ht : t.len.toNat = t.chars.length) (hne : s.chars ≠ [] ∨ t.chars ≠ []) :
    s.equal t = some (decide (s.chars = t.chars)) := by
  by_cases hlen : s.len = t.len
  · have heq : s.chars.length = t.chars.length := by rw [← hs, ← ht, hlen]
    have hboth : s.chars ≠ [] ∧ t.chars ≠ [] := by
      constructor <;> intro h0 <;> simp_all
    have haddr : ∀ u : BijouString, u.chars ≠ [] → u.ptr.addr ≠ 0 := fun u hu h0 => hu (if_pos h0)
    have hs' := haddr s hboth.1
    have ht' := haddr t hboth.2
    rw [BijouString.equal, if_pos hlen, if_neg (not_or.mpr ⟨hs', ht'⟩), BijouString.chars,
      BijouString.chars, if_neg hs', if_neg ht', Option.some.injEq, decide_eq_decide]
    exact ⟨congrArg CStr.chars, fun h => Subtype.ext h⟩
  · have hne : s.chars ≠ t.chars := fun h => hlen (BitVec.eq_of_toNat_eq (by rw [hs, ht, h]))
    rw [BijouString.equal, if_neg hlen, decide_eq_false hne]

lemma Reloads.equal {u v u' v' : TValue} {j : ℕ} (hu : Reloads reader mem path (u, i) u')
    (hv : Reloads reader mem path (v, j) v') (hus : u.tt = .string → u.value.s.Sound)
    (hvs : v.tt = .string → v.value.s.Sound) (hsame : u.same v = false)
    (hlive : u.Live) (hlive' : v.Live) :
    u'.equal v' = some (u'.same v') ∧
      (u'.same v' = true ↔ TValue.Collide (mem.k path i) (mem.k path j) u v) := by
  have hsome : ∀ {b : Bool}, u'.equal v' = some b →
      (b = true ↔ TValue.Collide (mem.k path i) (mem.k path j) u v) →
      u'.equal v' = some (u'.same v') ∧
        (u'.same v' = true ↔ TValue.Collide (mem.k path i) (mem.k path j) u v) := by
    intro b hb hiff
    have : u'.same v' = b := by simp [TValue.same, hb]
    exact ⟨this ▸ hb, this ▸ hiff⟩
  rcases hu.cases with ⟨htu, rfl⟩ | ⟨htu, rfl⟩ | ⟨htu, rfl⟩ | ⟨htu, s, p, hs, rfl⟩ <;>
    rcases hv.cases with ⟨htv, rfl⟩ | ⟨htv, rfl⟩ | ⟨htv, rfl⟩ | ⟨htv, t, q, ht, rfl⟩
  case inl.inl => exact hsome (b := true) rfl (iff_of_true rfl (by rw [TValue.Collide, htu, htv]; trivial))
  case inr.inl.inr.inl =>
    have hne : (u.value.n).eq v.value.n = false := by
      have htu' := Tag.back_eq (.inl htu) ▸ htu
      have htv' := Tag.back_eq (.inl htv) ▸ htv
      simpa [TValue.same, TValue.equal, htu', htv'] using hsame
    refine hsome (b := false) ?_ (iff_of_false Bool.false_ne_true (by rw [TValue.Collide, htu, htv]; exact id))
    simpa [TValue.equal] using hne
  case inr.inr.inl.inr.inr.inl =>
    exact hsome rfl (by rw [TValue.Collide, htu, htv])
  case inr.inr.inr.inr.inr.inr =>
    have htu' := Tag.back_eq (.inr (.inr htu)) ▸ htu
    have htv' := Tag.back_eq (.inr (.inr htv)) ▸ htv
    obtain ⟨hdu, hlu⟩ := reloadString_decoded (hus htu') (mem.addr path (.const i)).property hs
    obtain ⟨hdv, hlv⟩ := reloadString_decoded (hvs htv') (mem.addr path (.const j)).property ht
    have hchars : u.value.s.chars ≠ v.value.s.chars := by
      have hnot : u.value.s.equal v.value.s ≠ some true := by
        simpa [TValue.same, TValue.equal, htu', htv'] using hsame
      rw [BijouString.equal_live (hlive htu') (hlive' htv')] at hnot
      intro h
      refine hnot (congrArg some (decide_eq_true ⟨?_, ?_⟩))
      · rw [(hus htu').len_eq, (hvs htv').len_eq, h]
      · rw [BijouString.chars, BijouString.chars, if_neg (hlive htu'), if_neg (hlive' htv')] at h
        exact Subtype.ext h
    have hne : (BijouString.new p).chars ≠ [] ∨ (BijouString.new q).chars ≠ [] := by
      by_contra hc
      obtain ⟨hp, hq⟩ : (BijouString.new p).chars = [] ∧ (BijouString.new q).chars = [] := by
        simpa using hc
      exact hchars (((decode_bounds hdu).2.2.mp hp).trans ((decode_bounds hdv).2.2.mp hq).symm)
    refine hsome (BijouString.equal_cached hlu hlv hne) ?_
    rw [TValue.Collide, htu, htv, hdu, hdv, decide_eq_true_iff]
    exact (Option.some_inj).symm
  all_goals
    exact hsome (b := false) rfl (iff_of_false Bool.false_ne_true (by rw [TValue.Collide, htu, htv]; exact id))

lemma pairwise_of_forall₂ {α β : Type} {R : α → β → Prop} {P : α → α → Prop} {Q : β → β → Prop}
    {l : List α} {m : List β} (h : List.Forall₂ R l m)
    (hPQ : ∀ a b a' b', R a b → R a' b' → P a a' → Q b b') (hl : l.Pairwise P) : m.Pairwise Q := by
  rw [List.pairwise_iff_get] at hl ⊢
  intro i j hij
  have hi : i.val < l.length := h.length_eq.symm ▸ i.isLt
  have hj : j.val < l.length := h.length_eq.symm ▸ j.isLt
  exact hPQ _ _ _ _ (h.get hi i.isLt) (h.get hj j.isLt) (hl ⟨i, hi⟩ ⟨j, hj⟩ hij)

lemma reloads_push {k k₁ k' : List TValue} {n : ℕ} (hn : n ≤ k.length) (hmade : ∀ u ∈ k, u.Made)
    (hsound : ∀ u ∈ k, u.tt = .string → u.value.s.Sound)
    (hdist : k.Pairwise (fun u v => u.same v = false))
    (h : reloadConstants reader mem path n 0 k = some (k₁, k')) :
    k'.Pairwise (fun u v => u.equal v = some (u.same v)) ∧
      (k'.Pairwise (fun u v => u.same v = false) ↔ (k.take n).zipIdx.Pairwise
        fun u v => ¬ TValue.Collide (mem.k path u.2) (mem.k path v.2) u.1 v.1) := by
  have hmem : ∀ u ∈ (k.take n).zipIdx, u.1 ∈ k :=
    fun u hu => List.mem_of_mem_take (List.fst_mem_of_mem_zipIdx hu)
  have hreads := (List.forall₂_and_left _ _).mpr ⟨hmem, reloadConstants_reloads mem path hn h⟩
  have hdist' : (k.take n).zipIdx.Pairwise (fun u v => u.1.same v.1 = false) := by
    have := hdist.sublist (List.take_sublist n k)
    rw [← List.zipIdx_map_fst 0 (k.take n)] at this
    exact List.pairwise_map.mp this
  have hequal : ∀ u u' v v', u.1 ∈ k ∧ Reloads reader mem path u u' →
      v.1 ∈ k ∧ Reloads reader mem path v v' → u.1.same v.1 = false →
      u'.equal v' = some (u'.same v') ∧
        (u'.same v' = true ↔ TValue.Collide (mem.k path u.2) (mem.k path v.2) u.1 v.1) :=
    fun u u' v v' hu hv hs => hu.2.equal hv.2 (hsound _ hu.1) (hsound _ hv.1) hs
      (hmade _ hu.1).live (hmade _ hv.1).live
  refine ⟨pairwise_of_forall₂ hreads (fun u u' v v' hu hv hs => (hequal u u' v v' hu hv hs).1) hdist', ?_⟩
  constructor
  · intro hp
    refine (pairwise_of_forall₂ (Q := fun u v => u.1.same v.1 = false →
      ¬ TValue.Collide (mem.k path u.2) (mem.k path v.2) u.1 v.1) hreads.flip ?_ hp).imp₂
      (fun _ _ h h' => h h') hdist'
    intro u' u v' v hu hv hs hd hc
    rw [((hequal u u' v v' hu hv hd).2).mpr hc] at hs
    exact Bool.noConfusion hs
  · intro hp
    refine pairwise_of_forall₂ hreads ?_ (hdist'.and hp)
    intro u u' v v' hu hv hs
    exact Bool.eq_false_iff.mpr (fun ht => hs.2 ((hequal u u' v v' hu hv hs.1).2.mp ht))

end Pair

def TValue.Kept (o o' : TValue) : Prop :=
  match o.tt with
  | .null => o'.tt = .null
  | .number => o'.tt = .number ∧ o'.value.n = o.value.n
  | .boolean => o'.tt = .boolean ∧ (o'.value.b = 0 ↔ o.value.b = 0)
  | .string => o'.tt = .string ∧ o.value.s.Decoded o'.value.s
  | _ => True

inductive Block.Kept : Block → Block → Prop
  | mk {b b' : Block} (k : List.Forall₂ TValue.Kept b.k b'.k)
      (functions : List.Forall₂ Block.Kept b.functions b'.functions) : Block.Kept b b'

/-- `vm->numglobals` and the tree, after to_proto, bijou_dump, bijou_load and proto_to_block. -/
def throughFile (strcpy : Strcpy) (padding : List Output → BitVec 48) (b : Block) :
    Option (Byte × Block) :=
  match bijouDump strcpy padding (toProto b) [] with
  | (out, .ok _) =>
    match bijouLoad reader mem (out.flatMap Output.bytes) with
    | .done f _ => protoToBlock mem f
    | _ => none
  | _ => none

variable {reader}

lemma reload_numglobal {path : Path} {b : Block} {f : Proto × Proto}
    (h : reload reader mem path (toProto b) = some f) : f.2.numglobal = b.numglobal := by
  cases b
  rw [toProto, reload] at h
  simp only [Option.bind_eq_bind, Option.bind_eq_some_iff] at h
  obtain ⟨_, _, _, _, _, _, _, _, _, _, _, _, _, _, _, _, _, _, h⟩ := h
  obtain rfl := Option.some.inj h
  rfl

lemma throughFile_eq (padding : List Output → BitVec 48) (hr : Reports reader) {b : Block}
    (hb : (toProto b).Sound) :
    throughFile reader mem memmove padding b = (rebuild reader mem [] b).map (fun b' => (b.numglobal, b')) := by
  have htransfers := bijouDump_transfers mem padding hr hb []
  rw [throughFile, rebuild]
  rcases hd : bijouDump memmove padding (toProto b) [] with ⟨out, x⟩
  rw [hd] at htransfers
  cases hx : reload reader mem [] (toProto b) with
  | none =>
    rw [hx] at htransfers
    rcases htransfers with ⟨e, he⟩ | hexit
    · obtain rfl : x = .error e := he
      rfl
    · obtain ⟨e, he⟩ := hexit []
      rw [List.append_nil] at he
      cases x with
      | error e' => rfl
      | ok f => simp only [he]; rfl
  | some f =>
    have hnum := reload_numglobal mem hx
    rw [hx] at htransfers
    obtain ⟨hok, hread⟩ := htransfers
    obtain rfl : x = .ok f.1 := hok
    have hread := hread []
    rw [List.append_nil] at hread
    simp only [hread, protoToBlock, hnum]
    cases hb : protoToBlock2 mem [] f.2 <;> simp [hb]

inductive Block.Unescaped : Block → Prop
  | mk {b : Block} (filename : (BijouString.new b.filename).Unescaped)
      (funcname : (BijouString.new b.funcname).Unescaped) (k : ∀ o ∈ b.k, o.Unescaped)
      (functions : ∀ c ∈ b.functions, Block.Unescaped c) : Block.Unescaped b

lemma Block.Unescaped.toProto {b : Block} (hb : b.Unescaped) : (toProto b).Unescaped := by
  induction hb with
  | @mk b hfile hfunc hk _ ih =>
    have hp : ∀ g ∈ counted (Bijou.toProto b).p, g.Unescaped := by
      intro g hg
      have hmem := List.mem_of_mem_take hg
      rw [toProto_p] at hmem
      obtain ⟨c, hc, rfl⟩ := List.mem_map.mp hmem
      exact ih c hc
    cases b
    exact .mk hfile hfunc (fun o ho => hk o (List.mem_of_mem_take ho)) hp

lemma throughFile_unescaped (strcpy : Strcpy) (padding : List Output → BitVec 48) {b : Block}
    (hb : b.Unescaped) (hs : (toProto b).Sound) :
    throughFile reader mem strcpy padding b = throughFile reader mem memmove padding b := by
  rw [throughFile, throughFile, bijouDump_unescaped strcpy padding hb.toProto hs]

lemma throughFile_spoiled {padding : List Output → BitVec 48} {b : Block} {x : Byte × Block}
    (hs : (toProto b).Sound) (h : throughFile reader mem spoil padding b = some x) :
    (toProto b).Unescaped := by
  rw [throughFile] at h
  rcases hdump : bijouDump spoil padding (toProto b) [] with ⟨out, e | f⟩
  · rw [hdump] at h
    cases h
  · exact unescaped_of_spoiled padding hs hdump

structure Block.Fields (reader : ℕ → BitVec 32) (b : Block) : Prop where
  filename : (BijouString.new b.filename).Legible reader
  funcname : (BijouString.new b.funcname).Legible reader
  linedefined : b.linedefined.toNat < 2 ^ 31
  lastlinedefined : b.lastlinedefined.toNat < 2 ^ 31
  sizecode : b.code.length % 2 ^ 32 < 2 ^ 31

lemma toInt_neg_iff {x : BitVec 32} : x.toInt < 0 ↔ ¬ x.toNat < 2 ^ 31 := by
  rw [BitVec.toInt_neg_iff]
  omega

lemma count_neg_iff {α : Type} {l : List α} : (count l).toInt < 0 ↔ ¬ l.length % 2 ^ 32 < 2 ^ 31 := by
  rw [toInt_neg_iff, count, BitVec.toNat_ofNat]

lemma reloadInt_iff {x : BitVec 32} {y : Unit × BitVec 32} :
    reloadInt x = some y ↔ x.toNat < 2 ^ 31 ∧ y = ((), x) := by
  by_cases h : x.toNat < 2 ^ 31
  · rw [reloadInt_of_lt h, Option.some_inj, eq_comm]
    simp only [h, true_and]
  · rw [reloadInt, if_pos (toInt_neg_iff.mpr h)]
    simp only [h, false_and, reduceCtorEq]

lemma rebuild_eq (path : Path) {b : Block} (hb : Assembled b) (ha : b.Addressable) :
    rebuild reader mem path b = (do
      let source ← reloadString reader (mem.addr path .source).val (.new b.filename)
      let name ← reloadString reader (mem.addr path .name).val (.new b.funcname)
      let line ← reloadInt b.linedefined
      let _ ← reloadInt b.lastlinedefined
      let code ← reloadCode b.code
      let sizek ← reloadInt (count b.k)
      let k ← reloadConstants reader mem path sizek.2.toNat 0 b.k
      let l ← rebuilds reader mem path 0 b.functions
      return { Block.new (mem.block path) with
        filename := source.2
        funcname := name.2
        linedefined := line.2
        lastlinedefined := line.2
        regc := b.regc
        argc := b.argc
        k := k.2.foldl (Pool.push TValue.same) []
        code := code.2
        numchildren := UInt8.ofNat l.length
        children := l }) := by
  obtain ⟨-, -, hmade, hdist, -⟩ := hb
  obtain ⟨-, -, hk, -⟩ := ha
  have hsound : ∀ u ∈ b.k, u.tt = .string → u.value.s.Sound :=
    fun u hu => (hmade u hu).sound (hk u hu)
  rw [rebuild_bind]
  refine Option.bind_congr fun source _ => Option.bind_congr fun name _ =>
    Option.bind_congr fun line _ => Option.bind_congr fun _ _ => Option.bind_congr fun code _ => ?_
  refine Option.bind_congr fun sizek hsizek => Option.bind_congr fun k hk => ?_
  obtain ⟨-, rfl⟩ := reloadInt_iff.mp hsizek
  have hcompare := (reloads_push (count_le _) hmade hsound hdist hk).1
  refine Option.bind_congr fun l _ => ?_
  rw [pushConsts_comparable (by simpa [Block.new] using hcompare)]
  rfl

inductive Intact (reader : ℕ → BitVec 32) (mem : LoadMemory) : Path → Block → Prop
  | mk {path : Path} {b : Block} (fields : b.Fields reader) (sizek : b.k.length < 2 ^ 31)
      (legible : ∀ o ∈ b.k, o.Legible reader)
      (boolean : ∀ o ∈ b.k, o.tt = .boolean → (toByte o.value.b = 0 ↔ o.value.b = 0))
      (distinct : b.k.zipIdx.Pairwise
        fun u v => ¬ TValue.Collide (mem.k path u.2) (mem.k path v.2) u.1 v.1)
      (functions : ∀ i c, b.functions[i]? = some c → Intact reader mem (i :: path) c) :
      Intact reader mem path b

lemma Intact.unescaped {path : Path} {b : Block} (hb : Intact reader mem path b)
    (h : (toProto b).Unescaped) : b.Unescaped := by
  induction hb with
  | @mk path b _ hsizek _ _ _ _ ih =>
    have hp : counted (toProto b).p = b.functions.map toProto := by
      have hlt := functions_length_lt b
      rw [toProto_p, counted_eq (by rw [List.length_map]; omega)]
    obtain ⟨hfile, hfunc, hk, hfunctions⟩ := h
    rw [hp] at hfunctions
    have hchildren : ∀ c ∈ b.functions, c.Unescaped := by
      intro c hc
      obtain ⟨i, hi⟩ := List.mem_iff_getElem?.mp hc
      exact ih i c hi (hfunctions _ (List.mem_map_of_mem hc))
    cases b
    dsimp only at hsizek
    exact .mk hfile hfunc (by rwa [toProto, counted_eq hsizek] at hk) hchildren

lemma Reloads.kept_iff {path : Path} {o o' : TValue} {i : ℕ} (h : Reloads reader mem path (o, i) o')
    (ho : o.tt = .string → o.value.s.Sound) :
    o.Kept o' ↔ (o.tt = .boolean → (toByte o.value.b = 0 ↔ o.value.b = 0)) := by
  have htruth : o.truth = 0#32 ↔ toByte o.value.b = 0 := by
    rw [TValue.truth]
    split <;> simp_all
  rcases h.cases with ⟨htt, rfl⟩ | ⟨htt, rfl⟩ | ⟨htt, rfl⟩ | ⟨htt, s, p, hs, rfl⟩
  · rw [TValue.Kept]
    cases htag : o.tt <;> simp_all [Tag.back]
  · have htag := Tag.back_eq (.inl htt) ▸ htt
    simp [TValue.Kept, htag]
  · have htag := Tag.back_eq (.inr (.inl htt)) ▸ htt
    simp [TValue.Kept, htag, htruth]
  · have htag := Tag.back_eq (.inr (.inr htt)) ▸ htt
    have hdecoded := reloadString_decoded (ho htag) (mem.addr path (.const i)).property hs
    simpa [TValue.Kept, htag] using hdecoded

lemma forall₂_iff_forall {α β : Type} {R S : α → β → Prop} {P : α → Prop} {l : List α} {m : List β}
    (h : List.Forall₂ R l m) (hS : ∀ a b, R a b → (S a b ↔ P a)) :
    List.Forall₂ S l m ↔ ∀ a ∈ l, P a := by
  induction h with
  | nil => simp
  | cons hab _ ih => simp [hS _ _ hab, ih]

lemma table_iff (path : Path) (hr : Reports reader) {k : List TValue} (hmade : ∀ u ∈ k, u.Made)
    (hsound : ∀ u ∈ k, u.tt = .string → u.value.s.Sound)
    (hdist : k.Pairwise (fun u v => u.same v = false)) :
    (k.length % 2 ^ 32 < 2 ^ 31 ∧ ∃ k', reloadConstants reader mem path (count k).toNat 0 k = some k' ∧
      List.Forall₂ TValue.Kept k (k'.2.foldl (Pool.push TValue.same) [])) ↔
    k.length < 2 ^ 31 ∧ (∀ o ∈ k, o.Legible reader) ∧
      (∀ o ∈ k, o.tt = .boolean → (toByte o.value.b = 0 ↔ o.value.b = 0)) ∧
      k.zipIdx.Pairwise fun u v => ¬ TValue.Collide (mem.k path u.2) (mem.k path v.2) u.1 v.1 := by
  have hfull : ∀ k', reloadConstants reader mem path k.length 0 k = some k' →
      List.Forall₂ (fun u u' => u.1 ∈ k ∧ Reloads reader mem path u u') k.zipIdx k'.2 := by
    intro k' hk'
    have hreads := reloadConstants_reloads mem path le_rfl hk'
    rw [List.take_length] at hreads
    exact (List.forall₂_and_left _ _).mpr ⟨fun u hu => List.fst_mem_of_mem_zipIdx hu, hreads⟩
  have hkept : ∀ k', reloadConstants reader mem path k.length 0 k = some k' →
      (List.Forall₂ TValue.Kept k k'.2 ↔
        ∀ o ∈ k, o.tt = .boolean → (toByte o.value.b = 0 ↔ o.value.b = 0)) := by
    intro k' hk'
    have := forall₂_iff_forall (hfull k' hk') (fun u u' hu => hu.2.kept_iff mem (hsound _ hu.1))
    rw [← List.forall₂_map_left_iff, List.zipIdx_map_fst] at this
    rw [this]
    conv_rhs => rw [← List.zipIdx_map_fst 0 k]
    simp only [List.forall_mem_map]
  have hpush : ∀ k', reloadConstants reader mem path k.length 0 k = some k' →
      (k'.2.Pairwise (fun u v => u.same v = false) ↔ k.zipIdx.Pairwise
        fun u v => ¬ TValue.Collide (mem.k path u.2) (mem.k path v.2) u.1 v.1) := by
    intro k' hk'
    have := (reloads_push le_rfl hmade hsound hdist hk').2
    rwa [List.take_length] at this
  have hread := reloadConstants_legible_iff mem path hr k.length 0 hsound
  rw [List.take_length] at hread
  constructor
  · rintro ⟨hmod, k', hk', hall⟩
    have hlength : k'.2.length = (count k).toNat := by
      have := (reloadConstants_reloads mem path (count_le k) hk').length_eq
      rw [← this, List.length_zipIdx, List.length_take_of_le (count_le k)]
    have hfold : (k'.2.foldl (Pool.push TValue.same) []).length ≤ 0 + k'.2.length :=
      Pool.foldl_push_length_le _
    have hall' := hall.length_eq
    have hcount := count_le k
    have hfull : (count k).toNat = k.length := by omega
    rw [hfull] at hk' hlength
    have hpair := Pool.length_eq_iff.mp (by rw [← hall', hlength])
    rw [Pool.foldl_push_new hpair (by simp), List.nil_append] at hall
    refine ⟨?_, hread.mp ⟨k', hk'⟩, (hkept k' hk').mp hall, (hpush k' hk').mp hpair⟩
    rw [← hfull, count, BitVec.toNat_ofNat]
    exact hmod
  · rintro ⟨hlen, hlegible, hbool, hcollide⟩
    obtain ⟨k', hk'⟩ := hread.mpr hlegible
    have hpair := (hpush k' hk').mpr hcollide
    refine ⟨by omega, k', by rw [count_toNat hlen, hk'], ?_⟩
    rw [Pool.foldl_push_new hpair (by simp), List.nil_append]
    exact (hkept k' hk').mpr hbool

lemma reloadCode_iff {code : List Inst} {x : Unit × List Inst} :
    reloadCode code = some x ↔ code.length % 2 ^ 32 < 2 ^ 31 ∧ x = ((), code.take (count code).toNat) := by
  by_cases h : code.length % 2 ^ 32 < 2 ^ 31
  · rw [reloadCode, if_neg (count_neg_iff.not.mpr (not_not.mpr h)), Option.some_inj, eq_comm]
    simp only [h, true_and]
  · rw [reloadCode, if_pos (count_neg_iff.mpr h)]
    simp only [h, false_and, reduceCtorEq]

lemma rebuild_iff (path : Path) (hr : Reports reader) {b : Block} (hb : Assembled b)
    (ha : b.Addressable) (Q : List TValue → List Block → Prop) :
    (∃ b', rebuild reader mem path b = some b' ∧ Q b'.k b'.functions) ↔
      b.Fields reader ∧ b.k.length % 2 ^ 32 < 2 ^ 31 ∧ ∃ k l,
        reloadConstants reader mem path (count b.k).toNat 0 b.k = some k ∧
        rebuilds reader mem path 0 b.functions = some l ∧
        Q (k.2.foldl (Pool.push TValue.same) []) l := by
  have hsource := reloadString_legible_iff (mem.addr path .source).val hr
    (BijouString.new_sound (p := b.filename) (by cases hb; assumption) (by cases ha; assumption))
  have hname := reloadString_legible_iff (mem.addr path .name).val hr
    (BijouString.new_sound (p := b.funcname) (by cases hb; assumption) (by cases ha; assumption))
  have hchildren : ∀ l, rebuilds reader mem path 0 b.functions = some l →
      l.take (UInt8.ofNat l.length).toNat = l := by
    intro l hl
    have hlen := rebuilds_length reader mem hl
    have hlt := functions_length_lt b
    rw [UInt8.toNat_ofNat', Nat.mod_eq_of_lt (by omega), List.take_length]
  have hcount : (count b.k).toNat < 2 ^ 31 ↔ b.k.length % 2 ^ 32 < 2 ^ 31 := by
    rw [count, BitVec.toNat_ofNat]
  rw [rebuild_eq mem path hb ha]
  constructor
  · rintro ⟨b', h, hQ⟩
    obtain ⟨source, hsource', h⟩ := Option.bind_eq_some_iff.mp h
    obtain ⟨name, hname', h⟩ := Option.bind_eq_some_iff.mp h
    obtain ⟨line, hline, h⟩ := Option.bind_eq_some_iff.mp h
    obtain ⟨last, hlast, h⟩ := Option.bind_eq_some_iff.mp h
    obtain ⟨code, hcode, h⟩ := Option.bind_eq_some_iff.mp h
    obtain ⟨sizek, hsizek, h⟩ := Option.bind_eq_some_iff.mp h
    obtain ⟨k, hk, h⟩ := Option.bind_eq_some_iff.mp h
    obtain ⟨l, hl, h⟩ := Option.bind_eq_some_iff.mp h
    obtain rfl := Option.some.inj h
    obtain ⟨hlt, rfl⟩ := reloadInt_iff.mp hsizek
    refine ⟨⟨hsource.mp ⟨source, hsource'⟩, hname.mp ⟨name, hname'⟩, (reloadInt_iff.mp hline).1,
      (reloadInt_iff.mp hlast).1, (reloadCode_iff.mp hcode).1⟩, hcount.mp hlt, k, l, hk, hl, ?_⟩
    rw [Block.functions] at hQ
    dsimp only at hQ
    rwa [hchildren l hl] at hQ
  · rintro ⟨hfields, hsizek, k, l, hk, hl, hQ⟩
    obtain ⟨source, hsource'⟩ := hsource.mpr hfields.filename
    obtain ⟨name, hname'⟩ := hname.mpr hfields.funcname
    have hcode := reloadCode_iff.mpr ⟨hfields.sizecode, rfl⟩
    have hsizek' := reloadInt_of_lt (hcount.mpr hsizek)
    simp only [hsource', hname', reloadInt_of_lt hfields.linedefined,
      reloadInt_of_lt hfields.lastlinedefined, hcode, hsizek', hk, hl, Option.bind_eq_bind,
      Option.bind_some, Option.pure_def, Option.some_inj, exists_eq_left']
    rw [Block.functions]
    dsimp only
    rwa [hchildren l hl]

lemma rebuilds_iff (path : Path) (i : ℕ) (l : List Block) :
    (∃ l', rebuilds reader mem path i l = some l' ∧ List.Forall₂ Block.Kept l l') ↔
      ∀ j c, l[j]? = some c →
        ∃ c', rebuild reader mem ((i + j) :: path) c = some c' ∧ Block.Kept c c' := by
  induction l generalizing i with
  | nil => simp [rebuilds]
  | cons c l ih =>
    have hshift : ∀ j, i + (j + 1) = i + 1 + j := by omega
    constructor
    · rintro ⟨l', hl, hkept⟩
      obtain ⟨c', hc, hl⟩ := Option.bind_eq_some_iff.mp hl
      obtain ⟨l'', hl'', hl⟩ := Option.bind_eq_some_iff.mp hl
      obtain rfl := Option.some.inj hl
      obtain ⟨hcc, hll⟩ := List.forall₂_cons.mp hkept
      intro j d hd
      cases j with
      | zero =>
        obtain rfl : c = d := by simpa using hd
        exact ⟨c', hc, hcc⟩
      | succ j =>
        rw [hshift]
        exact (ih (i + 1)).mp ⟨l'', hl'', hll⟩ j d (by simpa using hd)
    · intro h
      obtain ⟨c', hc, hcc⟩ := h 0 c rfl
      obtain ⟨l', hl, hll⟩ := (ih (i + 1)).mpr (fun j d hd => hshift j ▸ h (j + 1) d (by simpa using hd))
      exact ⟨c' :: l', by rw [rebuilds]; simp only [Nat.add_zero] at hc; simp [hc, hl], .cons hcc hll⟩

lemma survives_iff (path : Path) (hr : Reports reader) {b : Block} (hb : Assembled b)
    (ha : b.Addressable) :
    (∃ b', rebuild reader mem path b = some b' ∧ Block.Kept b b') ↔ Intact reader mem path b := by
  induction hb generalizing path with
  | @mk b hfile hfunc hmade hdist hchildren ih =>
    have hb : Assembled b := .mk hfile hfunc hmade hdist hchildren
    have hsound : ∀ u ∈ b.k, u.tt = .string → u.value.s.Sound := by
      obtain ⟨-, -, hk, -⟩ := ha
      exact fun u hu => (hmade u hu).sound (hk u hu)
    have htable := table_iff mem path hr hmade hsound hdist
    have hfunctions : (∃ l, rebuilds reader mem path 0 b.functions = some l ∧
        List.Forall₂ Block.Kept b.functions l) ↔
        ∀ i c, b.functions[i]? = some c → Intact reader mem (i :: path) c := by
      rw [rebuilds_iff]
      refine forall₂_congr fun i c => imp_congr_right fun hc => ?_
      have hmem := List.mem_of_getElem? hc
      rw [Nat.zero_add]
      exact ih c (List.mem_of_mem_take hmem) (i :: path) (by obtain ⟨-, -, -, hf⟩ := ha; exact hf c hmem)
    have hkept : ∀ b', Block.Kept b b' ↔
        List.Forall₂ TValue.Kept b.k b'.k ∧ List.Forall₂ Block.Kept b.functions b'.functions :=
      fun b' => ⟨fun h => by cases h; exact ⟨‹_›, ‹_›⟩, fun h => .mk h.1 h.2⟩
    simp only [hkept]
    rw [rebuild_iff mem path hr hb ha
      (fun k l => List.Forall₂ TValue.Kept b.k k ∧ List.Forall₂ Block.Kept b.functions l)]
    constructor
    · rintro ⟨hfields, hsizek, k, l, hk, hl, hkk, hll⟩
      obtain ⟨hlen, hlegible, hbool, hcollide⟩ := htable.mp ⟨hsizek, k, hk, hkk⟩
      exact .mk hfields hlen hlegible hbool hcollide (hfunctions.mp ⟨l, hl, hll⟩)
    · rintro ⟨hfields, hlen, hlegible, hbool, hcollide, hfun⟩
      obtain ⟨hsizek, k, hk, hkk⟩ := htable.mpr ⟨hlen, hlegible, hbool, hcollide⟩
      obtain ⟨l, hl, hll⟩ := hfunctions.mpr hfun
      exact ⟨hfields, hsizek, k, l, hk, hl, hkk, hll⟩

end Conditions

theorem constants_survive_iff {mem : Memory} (lmem : LoadMemory) (padding : List Output → BitVec 48)
    {filename : CharPtr} {file r : List Byte} {b : Block} (hname : filename.addr ≠ 0)
    (h : compileFile mem filename file = .done b r) (hb : b.Addressable) :
    (∀ strcpy, ∃ n b', throughFile reader lmem strcpy padding b = some (n, b') ∧ Block.Kept b b') ↔
      Intact reader lmem [] b ∧ b.Unescaped := by
  have hassembled := compileFile_assembled mem hname h
  have hsound := hassembled.toProto_sound hb
  have hmoved : (∃ n b', throughFile reader lmem memmove padding b = some (n, b') ∧ Block.Kept b b') ↔
      Intact reader lmem [] b := by
    rw [← survives_iff lmem [] reader_reports hassembled hb, throughFile_eq lmem padding reader_reports hsound]
    simp only [Option.map_eq_some_iff, Prod.mk.injEq]
    constructor
    · rintro ⟨_, b', ⟨_, hb', rfl, rfl⟩, hkept⟩
      exact ⟨_, hb', hkept⟩
    · rintro ⟨b', hb', hkept⟩
      exact ⟨_, b', ⟨b', hb', rfl, rfl⟩, hkept⟩
  constructor
  · intro hall
    have hintact := hmoved.mp (hall memmove)
    obtain ⟨n, b', hspoiled, -⟩ := hall spoil
    exact ⟨hintact, hintact.unescaped lmem (throughFile_spoiled lmem hsound hspoiled)⟩
  · rintro ⟨hintact, hplain⟩ strcpy
    rw [throughFile_unescaped lmem strcpy padding hplain hsound]
    exact hmoved.mpr hintact

def sampleName : CharPtr := .to (CStr.at (bytes "a.s"))

theorem constants_survive_iff_string : ∃ b r,
    compileFile default sampleName
      (bytes ">HEAD\n<HEAD\n>CODE\n<CODE\n>CONST\n1#5\n3#\"a\\n\"\n<CONST\n") = .done b r ∧
    b.k.length = 2 ∧
    ((∀ strcpy, ∃ n b', throughFile reader default strcpy (fun _ => 0) b = some (n, b') ∧
      Block.Kept b b') ↔ Intact reader default [] b ∧ b.Unescaped) := by
  have hcheck : (compileFile default sampleName
      (bytes ">HEAD\n<HEAD\n>CODE\n<CODE\n>CONST\n1#5\n3#\"a\\n\"\n<CONST\n")).value?.map (fun b =>
        (b.k.length, b.numchildren, decide (b.filename.text.chars.length + 1 < 2 ^ 64),
          decide (b.funcname.text.chars.length + 1 < 2 ^ 64),
          b.k.all (fun o => decide (o.value.text.chars.length + 1 < 2 ^ 64)))) =
      some (2, 0, true, true, true) := by decide +kernel
  obtain ⟨b, hb, hval⟩ := Option.map_eq_some_iff.mp hcheck
  obtain ⟨r, hr⟩ := Outcome.done_of_value hb
  obtain ⟨hlen, hchildren, hfile, hfunc, hk⟩ : b.k.length = 2 ∧ b.numchildren = 0 ∧
      b.filename.text.chars.length + 1 < 2 ^ 64 ∧ b.funcname.text.chars.length + 1 < 2 ^ 64 ∧
      ∀ o ∈ b.k, o.value.text.chars.length + 1 < 2 ^ 64 := by simpa using hval
  have haddr : b.Addressable := by
    refine .mk hfile hfunc (fun o ho _ => hk o ho) (fun c hc => ?_)
    rw [Block.functions, hchildren] at hc
    simp at hc
  exact ⟨b, r, hr, hlen, constants_survive_iff default _ (by decide) hr haddr⟩

theorem constants_shift : ∃ b r n b',
    compileFile default sampleName (bytes (">HEAD\n<HEAD\n>CODE\n<CODE\n>CONST\n4#\n" ++
      ">HEAD\n<HEAD\n>CODE\n<CODE\n>CONST\n<CONST\n0#\n1#5\n<CONST\n")) = .done b r ∧
    throughFile reader default memmove (fun _ => 0) b = some (n, b') ∧
    b.k.map TValue.tt = [.function, .null, .number] ∧ b'.k.map TValue.tt = [.null, .number] ∧
    ¬ Block.Kept b b' := by
  have hb : (compileFile default sampleName (bytes (">HEAD\n<HEAD\n>CODE\n<CODE\n>CONST\n4#\n" ++
      ">HEAD\n<HEAD\n>CODE\n<CODE\n>CONST\n<CONST\n0#\n1#5\n<CONST\n"))).value?.map
        (fun b => (b.k.map TValue.tt, (throughFile reader default memmove (fun _ => 0) b).map
          (fun x => x.2.k.map TValue.tt))) =
      some ([.function, .null, .number], some [.null, .number]) := by decide +kernel
  obtain ⟨b, hb, hval⟩ := Option.map_eq_some_iff.mp hb
  obtain ⟨r, hr⟩ := Outcome.done_of_value hb
  obtain ⟨hk, hround⟩ := Prod.mk.inj hval
  obtain ⟨⟨n, b'⟩, hb', hk'⟩ := Option.map_eq_some_iff.mp hround
  refine ⟨b, r, n, b', hr, hb', hk, hk', ?_⟩
  rintro ⟨hkept, -⟩
  have hlen := hkept.length_eq
  have hk : b.k.length = 3 := by simpa using congrArg List.length hk
  have hk' : b'.k.length = 2 := by simpa using congrArg List.length hk'
  omega

end Bijou
