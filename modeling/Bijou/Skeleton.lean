import Bijou.Survival

namespace Bijou

open CString Incremental LittleEndian

structure CharPtr.Plain (p : CharPtr) : Prop where
  addr : p.addr ≠ 0
  ne_nil : p.text.chars ≠ []
  backslash : backslash ∉ p.text.chars
  fits : p.text.chars.length + 1 < 2 ^ 64

inductive Block.Plain : Block → Prop
  | mk {b : Block} (filename : b.filename.Plain) (funcname : b.funcname.Plain)
      (linedefined : b.linedefined.toNat < 2 ^ 31) (lastlinedefined : b.lastlinedefined.toNat < 2 ^ 31)
      (strings : ∀ o ∈ b.k, o.tt = .string → o.value.s.Sound)
      (numchildren : b.numchildren.toNat = b.children.length)
      (children : ∀ c ∈ b.children, Block.Plain c) : Block.Plain b

inductive Block.SameFields : Block → Block → Prop
  | mk {b b' : Block} (filename : b'.filename.text = b.filename.text)
      (funcname : b'.funcname.text = b.funcname.text) (linedefined : b'.linedefined = b.linedefined)
      (lastlinedefined : b'.lastlinedefined = b.lastlinedefined) (regc : b'.regc = b.regc)
      (argc : b'.argc = b.argc) (code : b'.code = b.code)
      (numchildren : b'.numchildren = b.numchildren)
      (children : List.Forall₂ Block.SameFields b.children b'.children) : Block.SameFields b b'

/-- What the passes make of a tree: the last line is lost, and a code of `2 ^ 32` words or more is
cut. -/
inductive Block.Copied : Block → Block → Prop
  | mk {b b' : Block} (filename : b'.filename.text = b.filename.text)
      (funcname : b'.funcname.text = b.funcname.text) (linedefined : b'.linedefined = b.linedefined)
      (lastlinedefined : b'.lastlinedefined = b.linedefined) (regc : b'.regc = b.regc)
      (argc : b'.argc = b.argc) (code : b'.code = b.code.take (b.code.length % 2 ^ 32))
      (numchildren : b'.numchildren = b.numchildren)
      (children : List.Forall₂ Block.Copied b.children b'.children) : Block.Copied b b'

/-- A constant whose slot is read back, whatever `strcpy` does. -/
def TValue.Carried (o : TValue) : Prop :=
  match o.tt with
  | .string => o.value.s.Carried
  | .none | .pointer => False
  | _ => True

/-- An empty string is loaded as a null pointer, which no second one can be compared with. -/
def TValue.isEmpty (o : TValue) : Bool := o.tt = .string && o.value.s.chars = []

/-- Every function of the tree ends on the line it starts on, its counts are not negative, its names
and the constants that are written can be read back, and one of these at most is the empty string. -/
inductive Block.Survives : Block → Prop
  | mk {b : Block} (lines : b.lastlinedefined = b.linedefined) (sizecode : b.code.length < 2 ^ 31)
      (sizek : b.k.length % 2 ^ 32 < 2 ^ 31)
      (filename : (b.filename.text.chars.length + 1) % 2 ^ 32 ≠ 2 ^ 32 - 1)
      (funcname : (b.funcname.text.chars.length + 1) % 2 ^ 32 ≠ 2 ^ 32 - 1)
      (k : ∀ o ∈ counted b.k, o.Carried) (empty : (counted b.k).countP TValue.isEmpty ≤ 1)
      (children : ∀ c ∈ b.children, Block.Survives c) : Block.Survives b

section Copy

variable {reader : ℕ → BitVec 32} (mem : LoadMemory)

lemma reloadString_plain {addr : BitVec 64} (haddr : addr ≠ 0) {p : CharPtr} (hp : p.Plain)
    {x : BijouString × CharPtr} (h : reloadString reader addr (.new p) = some x) :
    x.2.text = p.text := by
  have hchars : (BijouString.new p).chars = p.text.chars := if_neg hp.addr
  obtain ⟨hdecode, -⟩ := reloadString_decoded (BijouString.new_sound hp.addr hp.fits) haddr h
  rw [hchars, decode_plain hp.backslash, Option.some.injEq] at hdecode
  have hne : x.2.addr ≠ 0 := fun h0 => hp.ne_nil (hdecode.trans (if_pos h0))
  have hback : (BijouString.new x.2).chars = x.2.text.chars := if_neg hne
  exact (Subtype.ext (hdecode.trans hback)).symm

lemma pushConsts_fields {b b' : Block} {k : List TValue} (h : pushConsts b k = some b') :
    ∃ k', b' = { b with k := k' } := by
  induction k generalizing b with
  | nil =>
    obtain rfl := Option.some.inj h
    cases b
    exact ⟨_, rfl⟩
  | cons v k ih =>
    obtain ⟨⟨i, b₁⟩, hpush, hrest⟩ := Option.bind_eq_some_iff.mp h
    obtain ⟨k', rfl⟩ := ih hrest
    obtain ⟨c, -, hc⟩ := Option.bind_eq_some_iff.mp hpush
    split_ifs at hc
    · cases hc
      exact ⟨k', rfl⟩
    · cases hc
      exact ⟨k', rfl⟩

lemma rebuilds_forall₂ {path : Path} {i : ℕ} {l l' : List Block}
    (h : rebuilds reader mem path i l = some l') :
    List.Forall₂ (fun c c' => ∃ p, rebuild reader mem p c = some c') l l' := by
  induction l generalizing i l' with
  | nil =>
    obtain rfl := Option.some.inj h
    exact .nil
  | cons c l ih =>
    obtain ⟨c', hc, hrest⟩ := Option.bind_eq_some_iff.mp h
    obtain ⟨l'', hl, hcons⟩ := Option.bind_eq_some_iff.mp hrest
    obtain rfl := Option.some.inj hcons
    exact .cons ⟨_, hc⟩ (ih hl)

lemma rebuild_fields {path : Path} {b b' : Block} (h : rebuild reader mem path b = some b') :
    ∃ source name k l, reloadString reader (mem.addr path .source).val (.new b.filename) = some source ∧
      reloadString reader (mem.addr path .name).val (.new b.funcname) = some name ∧
      rebuilds reader mem path 0 b.functions = some l ∧ b' = { Block.new (mem.block path) with
        filename := source.2
        funcname := name.2
        linedefined := b.linedefined
        lastlinedefined := b.linedefined
        regc := b.regc
        argc := b.argc
        k := k
        code := b.code.take (b.code.length % 2 ^ 32)
        numchildren := UInt8.ofNat l.length
        children := l } := by
  rw [rebuild_bind] at h
  obtain ⟨source, hsource, h⟩ := Option.bind_eq_some_iff.mp h
  obtain ⟨name, hname, h⟩ := Option.bind_eq_some_iff.mp h
  obtain ⟨line, hline, h⟩ := Option.bind_eq_some_iff.mp h
  obtain ⟨last, -, h⟩ := Option.bind_eq_some_iff.mp h
  obtain ⟨code, hcode, h⟩ := Option.bind_eq_some_iff.mp h
  obtain ⟨sizek, -, h⟩ := Option.bind_eq_some_iff.mp h
  obtain ⟨k, -, h⟩ := Option.bind_eq_some_iff.mp h
  obtain ⟨l, hl, h⟩ := Option.bind_eq_some_iff.mp h
  obtain ⟨b₁, hpush, h⟩ := Option.bind_eq_some_iff.mp h
  obtain rfl := Option.some.inj h
  obtain ⟨k', rfl⟩ := pushConsts_fields hpush
  obtain ⟨-, rfl⟩ := reloadInt_iff.mp hline
  obtain ⟨-, rfl⟩ := reloadCode_iff.mp hcode
  have hcount : (count b.code).toNat = b.code.length % 2 ^ 32 := BitVec.toNat_ofNat _ _
  refine ⟨source, name, k', l, hsource, hname, hl, ?_⟩
  rw [hcount]
  rfl

lemma rebuild_copied {path : Path} {b b' : Block} (hb : b.Plain)
    (h : rebuild reader mem path b = some b') : b.Copied b' := by
  induction hb generalizing path b' with
  | @mk b hfile hfunc _ _ _ hnum _ ih =>
    obtain ⟨source, name, k, l, hsource, hname, hl, rfl⟩ := rebuild_fields mem h
    have hfunctions : b.functions = b.children := by rw [Block.functions, hnum, List.take_length]
    have hlen := rebuilds_length reader mem hl
    rw [hfunctions] at hl hlen
    have hcount : UInt8.ofNat l.length = b.numchildren := by rw [hlen, ← hnum, UInt8.ofNat_toNat]
    have hchildren : List.Forall₂ Block.Copied b.children l := by
      have hboth := (List.forall₂_and_left _ _).mpr ⟨ih, rebuilds_forall₂ mem hl⟩
      exact hboth.imp (fun c c' hc => hc.2.elim (fun p hp => hc.1 hp))
    exact .mk (reloadString_plain (mem.addr path .source).property hfile hsource)
      (reloadString_plain (mem.addr path .name).property hfunc hname) rfl rfl rfl rfl rfl hcount
      hchildren

end Copy

lemma Block.Plain.toProto_sound {b : Block} (hb : b.Plain) : (toProto b).Sound := by
  induction hb with
  | @mk b hfile hfunc _ _ hk _ _ ih =>
    have hp : ∀ f ∈ (toProto b).p, f.Sound := by
      intro f hf
      rw [toProto_p] at hf
      obtain ⟨c, hc, rfl⟩ := List.mem_map.mp hf
      exact ih c (List.mem_of_mem_take hc)
    cases b
    exact .mk (BijouString.new_sound hfile.addr hfile.fits)
      (BijouString.new_sound hfunc.addr hfunc.fits) hk hp

lemma take_mod_iff {α : Type} {l : List α} : l.take (l.length % 2 ^ 32) = l ↔ l.length < 2 ^ 32 := by
  constructor
  · intro h
    have hlen := congrArg List.length h
    rw [List.length_take] at hlen
    have := Nat.mod_lt l.length (show 0 < 2 ^ 32 by norm_num)
    omega
  · intro h
    rw [Nat.mod_eq_of_lt h, List.take_length]

lemma Block.Copied.sameFields {b b' : Block} (h : b.Copied b') (hb : b.Survives) : b.SameFields b' := by
  induction hb generalizing b' with
  | @mk b hlines hcode _ _ _ _ _ _ ih =>
    obtain ⟨hfile, hfunc, hline, hlast, hregc, hargc, hcode', hnum, hchildren⟩ := h
    exact .mk hfile hfunc hline (hlast.trans hlines.symm) hregc hargc
      (hcode'.trans (take_mod_iff.mpr (by omega))) hnum
      (((List.forall₂_and_left _ _).mpr ⟨ih, hchildren⟩).imp fun _ _ hc => hc.1 hc.2)

section Null

def TValue.Loaded (v : TValue) : Prop := v.tt = .string → (v.value.s.ptr.addr = 0 ↔ v.value.s.len = 0)

def TValue.isNull (v : TValue) : Bool := v.tt = .string && v.value.s.ptr.addr = 0

variable {u v : TValue}

lemma TValue.isNull_iff : v.isNull = true ↔ v.tt = .string ∧ v.value.s.ptr.addr = 0 := by
  rw [isNull, Bool.and_eq_true, decide_eq_true_iff, decide_eq_true_iff]

lemma TValue.equal_null (hu : u.Loaded) (hv : v.Loaded) (hun : u.isNull = true) (hvn : v.isNull = true) :
    u.equal v = none := by
  obtain ⟨htu, hu0⟩ := isNull_iff.mp hun
  obtain ⟨htv, hv0⟩ := isNull_iff.mp hvn
  have hlen : u.value.s.len = v.value.s.len := ((hu htu).mp hu0).trans ((hv htv).mp hv0).symm
  rw [equal, htu, htv, if_pos rfl]
  simp [BijouString.equal, hlen, hu0]

lemma TValue.equal_comparable (hu : u.Loaded) (hv : v.Loaded) (h : ¬ (u.isNull = true ∧ v.isNull = true)) :
    u.equal v = some (u.same v) := by
  have hr : ∃ r, u.equal v = some r := by
    rw [equal]
    by_cases ht : u.tt = v.tt
    · rw [if_pos ht]
      cases htu : u.tt with
      | string =>
        have htv : v.tt = .string := ht ▸ htu
        have hul := hu htu
        have hvl := hv htv
        dsimp only
        rw [BijouString.equal]
        by_cases hlen : u.value.s.len = v.value.s.len
        · have hlive : ¬ (u.value.s.ptr.addr = 0 ∨ v.value.s.ptr.addr = 0) := by
            rintro (h0 | h0)
            · exact h ⟨isNull_iff.mpr ⟨htu, h0⟩, isNull_iff.mpr ⟨htv, hvl.mpr (hlen ▸ hul.mp h0)⟩⟩
            · exact h ⟨isNull_iff.mpr ⟨htu, hul.mpr (hlen ▸ hvl.mp h0)⟩, isNull_iff.mpr ⟨htv, h0⟩⟩
          exact ⟨_, by rw [if_pos hlen, if_neg hlive]⟩
        · exact ⟨_, if_neg hlen⟩
      | _ => exact ⟨_, rfl⟩
    · exact ⟨false, if_neg ht⟩
  obtain ⟨r, hr⟩ := hr
  rw [hr, same, hr]
  simp

lemma TValue.same_null (hu : u.Loaded) (hv : v.Loaded) (hun : u.isNull = false) (hvn : v.isNull = true) :
    u.same v = false := by
  obtain ⟨htv, hv0⟩ := isNull_iff.mp hvn
  have heq : u.equal v = some false := by
    rw [equal]
    by_cases ht : u.tt = v.tt
    · have htu : u.tt = .string := ht.trans htv
      have hlen : u.value.s.len ≠ v.value.s.len := by
        intro hl
        have h0 : u.isNull = true := isNull_iff.mpr ⟨htu, (hu htu).mpr (hl ▸ (hv htv).mp hv0)⟩
        rw [hun] at h0
        cases h0
      rw [if_pos ht, htu]
      exact if_neg hlen
    · exact if_neg ht
  rw [same, heq]
  rfl

lemma anyM_null {k : List TValue} (hk : ∀ u ∈ k, u.Loaded) (hv : v.Loaded) (hvn : v.isNull = true)
    (h : ∃ u ∈ k, u.isNull = true) : k.anyM (fun u => u.equal v) = none := by
  induction k with
  | nil => simp at h
  | cons u k ih =>
    have hu := hk u (by simp)
    cases hun : u.isNull with
    | true => simp [List.anyM, TValue.equal_null hu hv hun hvn]
    | false =>
      have hrest : ∃ w ∈ k, w.isNull = true := by simpa [hun] using h
      have heq := TValue.equal_comparable hu hv (fun h => by simp [hun] at h)
      rw [TValue.same_null hu hv hun hvn] at heq
      simpa [List.anyM, heq] using ih (fun w hw => hk w (by simp [hw])) hrest

lemma countP_push {k : List TValue} (hk : ∀ u ∈ k, u.Loaded) (hv : v.Loaded)
    (h : ¬ (v.isNull = true ∧ ∃ u ∈ k, u.isNull = true)) :
    (Pool.push TValue.same k v).countP TValue.isNull = (k ++ [v]).countP TValue.isNull := by
  cases hvn : v.isNull with
  | true =>
    have hnone : ∀ u ∈ k, u.isNull = false :=
      fun u hu => Bool.eq_false_iff.mpr (fun hun => h ⟨hvn, u, hu, hun⟩)
    have hany : k.any (fun u => u.same v) = false := by
      rw [List.any_eq_false]
      intro u hu
      rw [TValue.same_null (hk u hu) hv (hnone u hu) hvn]
      exact Bool.false_ne_true
    rw [Pool.push, hany]
    rfl
  | false =>
    rw [Pool.push]
    split_ifs <;> simp [hvn]

lemma pushConsts_some_iff {b : Block} {l : List TValue} (hb : ∀ u ∈ b.k, u.Loaded)
    (hl : ∀ u ∈ l, u.Loaded) (hone : b.k.countP TValue.isNull ≤ 1) :
    (∃ b', pushConsts b l = some b') ↔ (b.k ++ l).countP TValue.isNull ≤ 1 := by
  induction l generalizing b with
  | nil => exact iff_of_true ⟨b, rfl⟩ (by simpa using hone)
  | cons v l ih =>
    have hv := hl v (by simp)
    by_cases hnull : v.isNull = true ∧ ∃ u ∈ b.k, u.isNull = true
    · have hpos : 0 < b.k.countP TValue.isNull := List.countP_pos_iff.mpr hnull.2
      rw [pushConsts, Block.pushConst, anyM_null hb hv hnull.1 hnull.2, List.countP_append,
        List.countP_cons_of_pos hnull.1]
      refine iff_of_false ?_ (by omega)
      rintro ⟨b', hb'⟩
      cases hb'
    · obtain ⟨i, hpush⟩ := Block.pushConst_comparable (b := b) (v := v) (fun u hu =>
        TValue.equal_comparable (hb u hu) hv (fun h => hnull ⟨h.2, u, hu, h.1⟩))
      have hcount := countP_push hb hv hnull
      have hloaded : ∀ u ∈ Pool.push TValue.same b.k v, u.Loaded := by
        intro u hu
        rcases List.mem_append.mp ((Pool.push_sublist v).subset hu) with hu | hu
        · exact hb u hu
        · exact List.mem_singleton.mp hu ▸ hv
      have hone' : (b.k ++ [v]).countP TValue.isNull ≤ 1 := by
        rw [List.countP_append, List.countP_singleton]
        by_cases hvn : v.isNull = true
        · have hzero : b.k.countP TValue.isNull = 0 :=
            List.countP_eq_zero.mpr (fun u hu h => hnull ⟨hvn, u, hu, h⟩)
          rw [if_pos hvn]
          omega
        · rw [if_neg hvn]
          omega
      have hrec := ih (b := { b with k := Pool.push TValue.same b.k v }) hloaded
        (fun u hu => hl u (by simp [hu])) (hcount ▸ hone')
      dsimp only at hrec
      rw [List.countP_append, hcount, ← List.countP_append, List.append_assoc, List.singleton_append] at hrec
      rw [pushConsts, hpush]
      exact hrec

end Null

section Rebuilt

variable (mem : LoadMemory) {path : Path}

lemma Reloads.null {o o' : TValue} {i : ℕ} (h : Reloads reader mem path (o, i) o')
    (ho : o.tt = .string → o.value.s.Sound) : o'.Loaded ∧ o'.isNull = o.isEmpty := by
  have hother : ∀ {tt : Tag} {value : Value}, o.tt.back = tt → tt ≠ .string →
      (⟨tt, value⟩ : TValue).Loaded ∧ (⟨tt, value⟩ : TValue).isNull = o.isEmpty := by
    rintro tt value rfl hne
    have htt : o.tt ≠ .string := fun h => hne (by rw [h]; rfl)
    exact ⟨fun h => absurd h hne, by simp [TValue.isNull, TValue.isEmpty, hne, htt]⟩
  rcases h.cases with ⟨ht, rfl⟩ | ⟨ht, rfl⟩ | ⟨ht, rfl⟩ | ⟨ht, s, p, hs, rfl⟩
  · exact hother ht (by decide)
  · exact hother ht (by decide)
  · exact hother ht (by decide)
  have htt : o.tt = .string := Tag.back_eq (.inr (.inr ht)) ▸ ht
  have hsound := ho htt
  have hsplit : (p.addr = 0 ∧ o.value.s.chars = []) ∨ (p.addr ≠ 0 ∧ o.value.s.chars ≠ []) := by
    rw [ne_eq, ne_eq, hsound.chars_nil_iff]
    rw [reloadString] at hs
    split_ifs at hs with hlen
    · obtain ⟨-, rfl⟩ : o.value.s = s ∧ CharPtr.null = p := by simpa using hs
      exact .inl ⟨rfl, hlen⟩
    · obtain ⟨d, -, hs⟩ := Option.bind_eq_some_iff.mp hs
      split_ifs at hs
      obtain ⟨-, rfl⟩ : _ = s ∧ (⟨_, CStr.at d⟩ : CharPtr) = p := by simpa using hs
      exact .inr ⟨(mem.addr path (.const i)).property, hlen⟩
  obtain ⟨hdecode, hlen⟩ := reloadString_decoded hsound (mem.addr path (.const i)).property hs
  have hnil := (decode_bounds hdecode).2.2
  have hzero : (BijouString.new p).len = 0 ↔ o.value.s.chars = [] := by
    rw [← hnil, ← List.length_eq_zero_iff, ← hlen, ← BitVec.toNat_inj]
    rfl
  constructor
  · intro _
    change p.addr = 0 ↔ (BijouString.new p).len = 0
    rw [hzero]
    tauto
  · have hiff : p.addr = 0 ↔ o.value.s.chars = [] := by tauto
    simp only [TValue.isNull, TValue.isEmpty, htt, decide_true, Bool.true_and, decide_eq_decide]
    exact hiff

lemma countP_forall₂ {α β : Type} {p : α → Bool} {q : β → Bool} {l : List α} {m : List β}
    (h : List.Forall₂ (fun a b => q b = p a) l m) : m.countP q = l.countP p := by
  induction h with
  | nil => rfl
  | cons hab _ ih => rw [List.countP_cons, List.countP_cons, ih, hab]

lemma reloadConstants_push {b : Block} {k : List TValue} {n : ℕ} {x : List TValue × List TValue}
    (hb : b.k = []) (hn : n ≤ k.length) (hk : ∀ o ∈ k, o.tt = .string → o.value.s.Sound)
    (h : reloadConstants reader mem path n 0 k = some x) :
    (∃ b', pushConsts b x.2 = some b') ↔ (k.take n).countP TValue.isEmpty ≤ 1 := by
  have hmem : ∀ o ∈ (k.take n).zipIdx, o.1 ∈ k :=
    fun o ho => List.mem_of_mem_take (List.fst_mem_of_mem_zipIdx ho)
  have hreads := ((List.forall₂_and_left _ _).mpr ⟨hmem, reloadConstants_reloads mem path hn h⟩).imp
    (fun o o' ho => ho.2.null mem (hk o.1 ho.1))
  have hloaded : ∀ v ∈ x.2, v.Loaded := by
    intro v hv
    obtain ⟨i, hi, rfl⟩ := List.mem_iff_getElem.mp hv
    exact (hreads.get (hreads.length_eq.symm ▸ hi) hi).1
  have hcount : x.2.countP TValue.isNull = (k.take n).countP TValue.isEmpty := by
    rw [countP_forall₂ (hreads.imp fun _ _ ho => ho.2)]
    conv_rhs => rw [← List.zipIdx_map_fst 0 (k.take n), List.countP_map]
    rfl
  rw [pushConsts_some_iff (by simp [hb]) hloaded (by simp [hb]), hb, List.nil_append, hcount]

lemma rebuild_some_iff {b : Block} (hb : b.Plain) :
    (∃ b', rebuild reader mem path b = some b') ↔ b.Fields reader ∧ b.k.length % 2 ^ 32 < 2 ^ 31 ∧
      (∀ o ∈ b.k.take (count b.k).toNat, o.Legible reader) ∧
      (b.k.take (count b.k).toNat).countP TValue.isEmpty ≤ 1 ∧
      ∃ l, rebuilds reader mem path 0 b.functions = some l := by
  obtain ⟨hfile, hfunc, -, -, hk, -, -⟩ := hb
  have hsource := reloadString_legible_iff (mem.addr path .source).val reader_reports
    (BijouString.new_sound hfile.addr hfile.fits)
  have hname := reloadString_legible_iff (mem.addr path .name).val reader_reports
    (BijouString.new_sound hfunc.addr hfunc.fits)
  have hlegible := reloadConstants_legible_iff mem path reader_reports (count b.k).toNat 0 hk
  have hcount : (count b.k).toNat < 2 ^ 31 ↔ b.k.length % 2 ^ 32 < 2 ^ 31 := by
    rw [count, BitVec.toNat_ofNat]
  rw [rebuild_bind]
  constructor
  · rintro ⟨b', h⟩
    obtain ⟨source, hsource', h⟩ := Option.bind_eq_some_iff.mp h
    obtain ⟨name, hname', h⟩ := Option.bind_eq_some_iff.mp h
    obtain ⟨line, hline, h⟩ := Option.bind_eq_some_iff.mp h
    obtain ⟨last, hlast, h⟩ := Option.bind_eq_some_iff.mp h
    obtain ⟨code, hcode, h⟩ := Option.bind_eq_some_iff.mp h
    obtain ⟨sizek, hsizek, h⟩ := Option.bind_eq_some_iff.mp h
    obtain ⟨k, hk', h⟩ := Option.bind_eq_some_iff.mp h
    obtain ⟨l, hl, h⟩ := Option.bind_eq_some_iff.mp h
    obtain ⟨b₁, hpush, -⟩ := Option.bind_eq_some_iff.mp h
    obtain ⟨hlt, rfl⟩ := reloadInt_iff.mp hsizek
    exact ⟨⟨hsource.mp ⟨source, hsource'⟩, hname.mp ⟨name, hname'⟩, (reloadInt_iff.mp hline).1,
      (reloadInt_iff.mp hlast).1, (reloadCode_iff.mp hcode).1⟩, hcount.mp hlt, hlegible.mp ⟨k, hk'⟩,
      (reloadConstants_push mem rfl (count_le b.k) hk hk').mp ⟨b₁, hpush⟩, l, hl⟩
  · rintro ⟨hfields, hsizek, hlegible', hempty, l, hl⟩
    obtain ⟨source, hsource'⟩ := hsource.mpr hfields.filename
    obtain ⟨name, hname'⟩ := hname.mpr hfields.funcname
    obtain ⟨k, hk'⟩ := hlegible.mpr hlegible'
    have hcode := reloadCode_iff.mpr ⟨hfields.sizecode, rfl⟩
    have hsizek' := reloadInt_of_lt (hcount.mpr hsizek)
    simp only [hsource', hname', reloadInt_of_lt hfields.linedefined,
      reloadInt_of_lt hfields.lastlinedefined, hcode, hsizek', hk', hl, Option.bind_eq_bind,
      Option.bind_some, Option.pure_def]
    obtain ⟨b₁, hpush⟩ := (reloadConstants_push mem (b := { Block.new (mem.block path) with
      filename := source.2, funcname := name.2, linedefined := b.linedefined,
      lastlinedefined := b.linedefined, regc := b.regc, argc := b.argc }) rfl (count_le b.k) hk hk').mpr hempty
    rw [hpush]
    exact ⟨_, rfl⟩

lemma rebuilds_some_iff {i : ℕ} {l : List Block} : (∃ l', rebuilds reader mem path i l = some l') ↔
    ∀ j c, l[j]? = some c → ∃ c', rebuild reader mem ((i + j) :: path) c = some c' := by
  induction l generalizing i with
  | nil => simp [rebuilds]
  | cons c l ih =>
    have hshift : ∀ j, i + (j + 1) = i + 1 + j := by omega
    constructor
    · rintro ⟨l', hl⟩ j d hd
      obtain ⟨c', hc, hl⟩ := Option.bind_eq_some_iff.mp hl
      obtain ⟨l'', hl'', -⟩ := Option.bind_eq_some_iff.mp hl
      cases j with
      | zero =>
        obtain rfl : c = d := by simpa using hd
        exact ⟨c', hc⟩
      | succ j =>
        rw [hshift]
        exact ih.mp ⟨l'', hl''⟩ j d (by simpa using hd)
    · intro h
      obtain ⟨c', hc⟩ := h 0 c rfl
      obtain ⟨l', hl⟩ := ih.mpr (fun j d hd => hshift j ▸ h (j + 1) d (by simpa using hd))
      exact ⟨c' :: l', by rw [rebuilds]; simp only [Nat.add_zero] at hc; simp [hc, hl]⟩

lemma counted_take {α : Type} {l : List α} (h : l.length % 2 ^ 32 < 2 ^ 31) :
    counted l = l.take (count l).toNat := by
  have hlt : (count l).toNat < 2 ^ 31 := by rwa [count, BitVec.toNat_ofNat]
  rw [counted, (reloadInt_some (reloadInt_of_lt hlt)).2]

lemma TValue.carried_iff {o : TValue} : o.Carried ↔ o.Unescaped ∧ o.Legible reader := by
  rw [Carried, Unescaped, Legible]
  cases htt : o.tt <;> simp_all [BijouString.carried_iff]

lemma CharPtr.Plain.unescaped {p : CharPtr} (hp : p.Plain) : (BijouString.new p).Unescaped := by
  have hchars : (BijouString.new p).chars = p.text.chars := if_neg hp.addr
  rw [BijouString.Unescaped, hchars]
  exact hp.backslash

lemma CharPtr.Plain.legible_iff {p : CharPtr} (hp : p.Plain) :
    (BijouString.new p).Legible reader ↔ (p.text.chars.length + 1) % 2 ^ 32 ≠ 2 ^ 32 - 1 := by
  have hchars : (BijouString.new p).chars = p.text.chars := if_neg hp.addr
  have hiff := BijouString.carried_iff (s := .new p)
  rw [BijouString.Carried, hchars] at hiff
  exact (hiff.trans (and_iff_right hp.unescaped)).symm.trans (and_iff_right hp.backslash)

lemma Block.Plain.functions {b : Block} (hb : b.Plain) : b.functions = b.children := by
  cases hb with
  | mk _ _ _ _ _ hnum _ => rw [Block.functions, hnum, List.take_length]

lemma Block.Plain.unescaped_iff {b : Block} (hb : b.Plain) : (toProto b).Unescaped ↔
    (∀ o ∈ counted b.k, o.Unescaped) ∧ ∀ c ∈ b.children, (toProto c).Unescaped := by
  have hp : counted (toProto b).p = b.children.map toProto := by
    have hlt := functions_length_lt b
    rw [toProto_p, counted_eq (by rw [List.length_map]; omega), hb.functions]
  cases hb with
  | mk hfile hfunc _ _ _ _ _ =>
    constructor
    · rintro ⟨-, -, hks, hps⟩
      rw [hp] at hps
      refine ⟨?_, fun c hc => hps _ (List.mem_map_of_mem hc)⟩
      cases b
      exact hks
    · rintro ⟨hks, hcs⟩
      have hps : ∀ g ∈ counted (toProto b).p, g.Unescaped := by
        rw [hp]
        exact List.forall_mem_map.mpr hcs
      cases b
      exact .mk hfile.unescaped hfunc.unescaped hks hps

section Node

variable {b : Block} {path : Path}

lemma Block.Plain.survives_of_rebuild (hb : b.Plain) {b' : Block} (hplain : (toProto b).Unescaped)
    (hrebuild : rebuild reader mem path b = some b') (hsame : b.SameFields b')
    (hchildren : ∀ c ∈ b.children, c.Survives) : b.Survives := by
  obtain ⟨hks, -⟩ := hb.unescaped_iff.mp hplain
  obtain ⟨hfields, hsizek, hlegible, hempty, -⟩ := (rebuild_some_iff mem hb).mp ⟨b', hrebuild⟩
  obtain ⟨-, -, -, hlast', -, -, hcode', -, -⟩ := hsame
  obtain ⟨-, -, -, hlast, -, -, hcode, -, -⟩ := rebuild_copied mem hb hrebuild
  have hwhole := take_mod_iff.mp (hcode.symm.trans hcode')
  have hsizecode := hfields.sizecode
  cases hb with
  | mk hfile hfunc _ _ _ _ _ =>
    rw [counted_take hsizek] at hks
    refine .mk (hlast'.symm.trans hlast) (by omega) hsizek (hfile.legible_iff.mp hfields.filename)
      (hfunc.legible_iff.mp hfields.funcname) ?_ ?_ hchildren
    · rw [counted_take hsizek]
      exact fun o ho => TValue.carried_iff.mpr ⟨hks o ho, hlegible o ho⟩
    · rwa [counted_take hsizek]

lemma Block.Plain.rebuild_of_survives (hb : b.Plain) (hsurv : b.Survives)
    (hchild : ∀ c ∈ b.children, ∀ path,
      (toProto c).Unescaped ∧ ∃ c', rebuild reader mem path c = some c' ∧ c.SameFields c') :
    (toProto b).Unescaped ∧ ∃ b', rebuild reader mem path b = some b' ∧ b.SameFields b' := by
  obtain ⟨-, hcode, hsizek, hfile', hfunc', hks, hempty, -⟩ := id hsurv
  have hboth := fun o ho => TValue.carried_iff.mp (hks o ho)
  have hl : ∃ l, rebuilds reader mem path 0 b.functions = some l := by
    rw [hb.functions, rebuilds_some_iff]
    intro j c hc
    obtain ⟨-, c', hc', -⟩ := hchild c (List.mem_of_getElem? hc) ((0 + j) :: path)
    exact ⟨c', hc'⟩
  have hunescaped := hb.unescaped_iff.mpr ⟨fun o ho => (hboth o ho).1, fun c hc => (hchild c hc []).1⟩
  rw [counted_take hsizek] at hempty hboth
  obtain ⟨b', hb'⟩ : ∃ b', rebuild reader mem path b = some b' := by
    rw [rebuild_some_iff mem hb]
    cases hb with
    | mk hfile hfunc hline hlast _ _ _ =>
      exact ⟨⟨hfile.legible_iff.mpr hfile', hfunc.legible_iff.mpr hfunc', hline, hlast, by omega⟩, hsizek,
        fun o ho => (hboth o ho).2, hempty, hl⟩
  exact ⟨hunescaped, b', hb', (rebuild_copied mem hb hb').sameFields hsurv⟩

end Node

lemma Block.Plain.survives_iff {b : Block} (hb : b.Plain) (path : Path) :
    ((toProto b).Unescaped ∧ ∃ b', rebuild reader mem path b = some b' ∧ b.SameFields b') ↔ b.Survives := by
  induction hb generalizing path with
  | @mk b hfile hfunc hline hlast hk hnum hchildren ih =>
    have hb : b.Plain := .mk hfile hfunc hline hlast hk hnum hchildren
    constructor
    · rintro ⟨hplain, b', hrebuild, hsame⟩
      refine hb.survives_of_rebuild mem hplain hrebuild hsame fun c hc => ?_
      obtain ⟨-, hcs⟩ := hb.unescaped_iff.mp hplain
      obtain ⟨_, _, _, l, -, -, hl, hb'⟩ := rebuild_fields mem hrebuild
      obtain ⟨-, -, -, -, -, -, -, -, hsames⟩ := hsame
      rw [hb.functions] at hl
      rw [hb'] at hsames
      obtain ⟨i, hi, rfl⟩ := List.mem_iff_getElem.mp hc
      have hlen := rebuilds_length reader mem hl
      obtain ⟨p, hp⟩ := (rebuilds_forall₂ mem hl).get hi (hlen ▸ hi)
      exact (ih _ hc p).mp ⟨hcs _ hc, _, hp, hsames.get hi (hlen ▸ hi)⟩
    · intro hsurv
      obtain ⟨-, -, -, -, -, -, -, hcs⟩ := id hsurv
      exact hb.rebuild_of_survives mem hsurv fun c hc path => (ih c hc path).mpr (hcs c hc)

end Rebuilt

theorem fields_survive_iff (mem : LoadMemory) (padding : List Output → BitVec 48) {b : Block}
    (hb : b.Plain) : (∀ strcpy, ∃ b', throughFile reader mem strcpy padding b = some (b.numglobal, b') ∧
      b.SameFields b') ↔ b.Survives := by
  have hsound := hb.toProto_sound
  have hmoved : (∃ b', throughFile reader mem memmove padding b = some (b.numglobal, b') ∧ b.SameFields b') ↔
      ∃ b', rebuild reader mem [] b = some b' ∧ b.SameFields b' := by
    simp [throughFile_eq mem padding reader_reports hsound]
  rw [← hb.survives_iff mem []]
  constructor
  · intro hall
    obtain ⟨b', hspoiled, -⟩ := hall spoil
    exact ⟨throughFile_spoiled mem hsound hspoiled, hmoved.mp (hall memmove)⟩
  · rintro ⟨hplain, hkept⟩ strcpy
    have hsame : throughFile reader mem strcpy padding b = throughFile reader mem memmove padding b := by
      rw [throughFile, throughFile, bijouDump_unescaped strcpy padding hplain hsound]
    rw [hsame]
    exact hmoved.mpr hkept

def sampleTree (last : BitVec 32) : Block where
  k := [⟨.number, Value.setNum ⟨0, 0, .empty⟩ (.ofInt 7)⟩, ⟨.string, .ofString (.new sampleName)⟩]
  locals := []
  upvals := []
  code := [0x17, 0x18]
  regc := 3
  numglobal := 2
  argc := 0
  linedefined := 1
  lastlinedefined := last
  filename := sampleName
  funcname := .to (CStr.at (bytes "main"))
  numchildren := 1
  children := [{ Block.new ⟨0, 1, 4, 4⟩ with
    filename := sampleName
    funcname := .to (CStr.at (bytes "f")) }]

lemma CharPtr.Plain.of_text {p : CharPtr} (haddr : p.addr ≠ 0)
    (h : p.text.chars ≠ [] ∧ (92 : Byte) ∉ p.text.chars ∧ p.text.chars.length + 1 < 2 ^ 64) :
    p.Plain := ⟨haddr, h.1, h.2.1, h.2.2⟩

lemma sampleTree_plain {last : BitVec 32} (h : last.toNat < 2 ^ 31) : (sampleTree last).Plain := by
  have hname : ∀ p ∈ [sampleName, .to (CStr.at (bytes "main")), .to (CStr.at (bytes "f"))],
      p.Plain := by
    simp only [List.forall_mem_cons]
    exact ⟨.of_text (by decide) (by decide +kernel), .of_text (by decide) (by decide +kernel),
      .of_text (by decide) (by decide +kernel), by simp⟩
  have hstrings : ∀ o ∈ (sampleTree last).k, o.tt = .string → o.value.s.Sound := by
    simp only [sampleTree, List.forall_mem_cons]
    exact ⟨fun h => Tag.noConfusion h, fun _ => BijouString.new_sound (by decide) (by decide +kernel), by simp⟩
  refine .mk (hname _ (by simp [sampleTree])) (hname _ (by simp [sampleTree]))
    (show (1 : BitVec 32).toNat < 2 ^ 31 by decide) h hstrings rfl (List.forall_mem_singleton.mpr ?_)
  exact .mk (hname _ (by simp)) (hname _ (by simp)) (by decide) (by decide) nofun rfl nofun

theorem fields_survive_iff_line :
    (∀ strcpy, ∃ b', throughFile reader default strcpy (fun _ => 0) (sampleTree 1) = some (2, b') ∧
      (sampleTree 1).SameFields b') ↔ (sampleTree 1).Survives :=
  fields_survive_iff default _ (sampleTree_plain (by decide))

theorem last_line_lost : ∃ n b', (sampleTree 2).Plain ∧
    throughFile reader default memmove (fun _ => 0) (sampleTree 2) = some (n, b') ∧
    b'.lastlinedefined = 1 ∧ ¬ (n = (sampleTree 2).numglobal ∧ (sampleTree 2).SameFields b') := by
  have hline : (throughFile reader default memmove (fun _ => 0) (sampleTree 2)).map
      (fun x => x.2.lastlinedefined) = some 1 := by decide +kernel
  obtain ⟨⟨n, b'⟩, h, hlast⟩ := Option.map_eq_some_iff.mp hline
  refine ⟨n, b', sampleTree_plain (by decide), h, hlast, ?_⟩
  rintro ⟨-, -, -, -, hsame, -⟩
  rw [hlast] at hsame
  exact absurd hsame (by decide)

end Bijou
