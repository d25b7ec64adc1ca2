import Bijou.Assembly
import Bijou.Equality
import Bijou.Strings
import Bijou.Survival

namespace Bijou

open CString Incremental

def Quotes (strcpy : Strcpy) (t : List Byte) (v : TValue) : Prop :=
  ∃ (e : Entry) (temp : Value) (padding : List Output → BitVec 48) (h : List Output) (o : TValue)
    (mem : LoadMemory) (path : Path) (i : ℕ) (s : List Byte), EntryOf (some (.string t)) e ∧
    (dumpConstant strcpy padding (e.tvalue temp) h).2 = .ok o ∧
    loadConstant reader mem path i
      ((dumpConstant strcpy padding (e.tvalue temp) h).1.flatMap Output.bytes ++ s) = .done v s

/-- A text that can stand between quotes, and that a loaded program can hold. -/
structure Quotable (t c : List Byte) : Prop where
  written : (Literal.string t).WellFormed
  fits : t.length + 1 < 2 ^ 64
  decoded : decode t = some c
  read : (c.length + 1) % 2 ^ 32 ≠ 2 ^ 32 - 1

section Value

variable {t t' c d : List Byte} {v w : TValue}

lemma new_sound {ptr : CharPtr} (haddr : ptr.addr ≠ 0) (hfit : ptr.text.chars.length + 1 < 2 ^ 64) :
    (BijouString.new ptr).Sound ∧ (BijouString.new ptr).chars = ptr.text.chars := by
  have hchars : (BijouString.new ptr).chars = ptr.text.chars := if_neg haddr
  refine ⟨⟨?_, by rwa [hchars]⟩, hchars⟩
  rw [BijouString.new, if_neg haddr, strlen, BitVec.toNat_ofNat, Nat.mod_eq_of_lt (by omega)]
  exact congrArg List.length hchars.symm

lemma reloadConstant_string {addr : BitVec 64} {temp : Value} {s : BijouString} {x : TValue × TValue}
    (h : reloadConstant reader addr temp ⟨.string, .ofString s⟩ = some x) :
    ∃ y, reloadString reader addr s = some y ∧ x.2 = ⟨.string, .ofString (.new y.2)⟩ := by
  obtain ⟨y, hy, hx⟩ := Option.bind_eq_some_iff.mp h
  exact ⟨y, hy, congrArg Prod.snd (Option.some.inj hx).symm⟩

lemma Quotes.value (h : Quotes memmove t v) (hq : Quotable t c) : v.tt = .string ∧ 0 ∉ c ∧
    ∃ addr : BitVec 64, addr ≠ 0 ∧
      v.value.s = .new (if c = [] then .null else ⟨addr, CStr.at c⟩) := by
  obtain ⟨e, temp, padding, out, o, mem, path, i, s, he, hdump, hload⟩ := h
  obtain ⟨-, hfit, hdec, -⟩ := hq
  cases he with
  | string buffer text =>
    obtain ⟨hs, hchars⟩ := new_sound (show (⟨buffer.val, text⟩ : CharPtr).addr ≠ 0 from buffer.property) hfit
    have htrans := dumpConstant_transfers mem padding reader_reports path i
      (o := (Entry.string buffer text).tvalue temp) (fun _ => hs) out
    obtain ⟨hzero, hle, hnil⟩ := decode_bounds hdec
    cases hre : reloadConstant reader (mem.addr path (.const i)).val (mem.k path i)
        ((Entry.string buffer text).tvalue temp) with
    | none =>
      rw [hre] at htrans
      rcases htrans with ⟨e, he⟩ | hexit
      · cases hdump.symm.trans he
      · obtain ⟨e, he⟩ := hexit s
        cases hload.symm.trans he
    | some x =>
      rw [hre] at htrans
      obtain ⟨-, hread⟩ := htrans
      obtain ⟨rfl, -⟩ : x.2 = v ∧ s = s := by simpa using (hread s).symm.trans hload
      obtain ⟨⟨s', ptr⟩, hy, hx⟩ := reloadConstant_string hre
      have hptr : ptr = if c = [] then .null else ⟨(mem.addr path (.const i)).val, CStr.at c⟩ := by
        rw [reloadString] at hy
        split_ifs at hy with hlen
        · have hc : c = [] := hnil.mpr (hchars.symm.trans (hs.chars_nil_iff.mpr hlen))
          obtain ⟨-, rfl⟩ : _ = s' ∧ CharPtr.null = ptr := by simpa using hy
          rw [if_pos hc]
        · have hc : c ≠ [] := fun h0 => hlen (hs.chars_nil_iff.mp (hchars.trans (hnil.mp h0)))
          have hdec' : decode (BijouString.new ⟨buffer.val, text⟩).chars = some c := by rw [hchars, hdec]
          rw [hdec', Option.bind_eq_bind, Option.bind_some] at hy
          split_ifs at hy
          obtain ⟨-, rfl⟩ : _ = s' ∧ (⟨_, CStr.at c⟩ : CharPtr) = ptr := by simpa using hy
          rw [if_neg hc]
      refine ⟨by rw [hx], hzero text.property, (mem.addr path (.const i)).val,
        (mem.addr path (.const i)).property, ?_⟩
      rw [hx, ← hptr]
      rfl

structure Full (c : List Byte) (s : BijouString) : Prop where
  live : s.ptr.addr ≠ 0
  text : s.ptr.text.chars = c
  len : s.len = strlen s.ptr.text

lemma Quotes.full (h : Quotes memmove t v) (hq : Quotable t c) (hc : c ≠ []) : Full c v.value.s := by
  obtain ⟨-, hnul, addr, haddr, hs⟩ := h.value hq
  rw [if_neg hc] at hs
  rw [hs]
  exact ⟨haddr, CStr.at_eq hnul, if_neg haddr⟩

lemma Quotes.null (h : Quotes memmove t v) (hq : Quotable t []) : v.value.s = .new .null := by
  obtain ⟨-, -, addr, -, hs⟩ := h.value hq
  rwa [if_pos rfl] at hs

end Value

structure StringPair (c d : List Byte) (v w : TValue) : Prop where
  equal : v.value.s.equal w.value.s = some (decide (c = d))
  tvalue : v.equal w = some (decide (c = d))
  eq : ∀ (host : Host) (prog b : Block) (f : Frame) (s : Shared) (argv : List TValue),
    f.At prog b .eq → f.operands b .eq = some [v, w] →
      exec host b f argv s = .ok (.go (if c = d then 1 else 0), s)
  push : ∀ b : Block, b.k = [v] → ∃ i b', b.pushConst w = some (i, b') ∧ (i = -1 ↔ c = d)
  lenLeft : ∃ n, v.value.s.length = some n ∧ n.toInt = c.length
  lenRight : ∃ n, w.value.s.length = some n ∧ n.toInt = d.length
  cat : ∀ mem, ∃ r, v.value.s.cat mem w.value.s = some r ∧ r.string.chars = c ++ d

section Pair

variable {t t' c d : List Byte} {v w : TValue}

lemma length_agrees_iff (h : Quotes memmove t v) (hq : Quotable t c) :
    (∃ n, v.value.s.length = some n ∧ n.toInt = c.length) ↔
    c ≠ [] ∧ c.length < 2 ^ 31 := by
  by_cases hc : c = []
  · subst hc
    rw [h.null hq]
    simp [BijouString.length, BijouString.new, CharPtr.null]
  · have hfull := h.full hq hc
    rw [length_eq hfull.live, hfull.text]
    constructor
    · rintro ⟨n, hn, hint⟩
      obtain rfl := Option.some.inj hn
      exact ⟨hc, toInt_ofNat_iff.mp hint⟩
    · rintro ⟨-, hlt⟩
      exact ⟨_, rfl, toInt_ofNat_iff.mpr hlt⟩

section Both

variable {s s' : BijouString} (h : Full c s) (h' : Full d s')

include h h'

lemma Full.equal : s.equal s' = some (decide (c = d)) := by
  rw [equal_of_live h.live h'.live h.len h'.len, ← h.text, ← h'.text]
  exact congrArg some (decide_eq_decide.mpr Subtype.ext_iff)

lemma Full.cat (mem : Chunk) : ∃ r, s.cat mem s' = some r ∧ r.string.chars = c ++ d := by
  refine ⟨_, cat_eq mem h.live h'.live, ?_⟩
  rw [chars_of_cat mem h.live h'.live (cat_eq mem h.live h'.live), h.text, h'.text]

end Both

lemma stringPair_moved (hv : Quotes memmove t v) (hw : Quotes memmove t' w) (hq : Quotable t c)
    (hq' : Quotable t' d) (hc : c ≠ []) (hd : d ≠ []) (hlen : c.length < 2 ^ 31) (hlen' : d.length < 2 ^ 31) :
    StringPair c d v w := by
  have hfull := hv.full hq hc
  have hfull' := hw.full hq' hd
  have hequal : v.equal w = some (decide (c = d)) := by
    rw [TValue.equal, (hv.value hq).1, (hw.value hq').1, if_pos rfl]
    exact hfull.equal hfull'
  refine ⟨hfull.equal hfull', hequal, ?_, ?_, (length_agrees_iff hv hq).mpr ⟨hc, hlen⟩,
    (length_agrees_iff hw hq').mpr ⟨hd, hlen'⟩, hfull.cat hfull'⟩
  · intro host prog b f s argv hat hops
    rw [exec_eq_some hat hops hequal]
    simp
  · intro b hb
    have hany : b.k.anyM (fun u => u.equal w) = some (decide (c = d)) := by
      rw [hb, List.anyM, hequal]
      by_cases hcd : c = d <;> simp [hcd]
    rw [Block.pushConst, hany, hb]
    by_cases hcd : c = d
    · exact ⟨-1, b, by simp [hcd], by simp [hcd]⟩
    · exact ⟨1, { b with k := [v, w] }, by simp [hcd], by simp [hcd]⟩

lemma Quotes.copied {strcpy strcpy' : Strcpy} (h : Quotes strcpy t v) (hq : Quotable t c)
    (hplain : backslash ∉ t) : Quotes strcpy' t v := by
  obtain ⟨e, temp, padding, out, o, mem, path, i, s, he, hdump, hload⟩ := h
  have hsame : dumpConstant strcpy padding (e.tvalue temp) = dumpConstant strcpy' padding (e.tvalue temp) := by
    cases he with
    | string buffer text =>
      obtain ⟨hs, hchars⟩ := new_sound (show (⟨buffer.val, text⟩ : CharPtr).addr ≠ 0 from buffer.property) hq.fits
      have hsound : ((Entry.string buffer text).tvalue temp).value.s.Sound := hs
      have hchars' : ((Entry.string buffer text).tvalue temp).Unescaped := fun _ => by
        rw [BijouString.Unescaped]
        exact hchars ▸ hplain
      rw [dumpConstant_unescaped strcpy padding (fun _ => hsound) hchars',
        dumpConstant_unescaped strcpy' padding (fun _ => hsound) hchars']
  rw [hsame] at hdump hload
  exact ⟨e, temp, padding, out, o, mem, path, i, s, he, hdump, hload⟩

lemma exists_quotes (hq : Quotable t c) : ∃ v, Quotes memmove t v := by
  have hzero : 0 ∉ t := hq.written.2.2.1
  obtain ⟨hs, hchars⟩ := new_sound (show (⟨1, ⟨t, hzero⟩⟩ : CharPtr).addr ≠ 0 from one_addr) hq.fits
  obtain ⟨⟨s', ptr⟩, hy⟩ := (reloadString_legible_iff 1 reader_reports hs).mpr
    ⟨c, by rw [hchars]; exact hq.decoded, fun h => hq.read ((reader_eof_iff _).mp h)⟩
  have hre : reloadConstant reader 1 ⟨0, 0, .empty⟩
      ((Entry.string ⟨1, one_addr⟩ ⟨t, hzero⟩).tvalue ⟨0, 0, .empty⟩) =
        some (⟨.string, .ofString s'⟩, ⟨.string, .ofString (.new ptr)⟩) := by
    change (reloadString reader 1 (.new ⟨1, ⟨t, hzero⟩⟩)).bind _ = _
    rw [hy]
    rfl
  obtain ⟨hdump, hload⟩ := loadConstant_dumped default (fun _ => 0) reader_reports [] 0 hre (fun _ => hs) [] []
  exact ⟨_, .string ⟨1, one_addr⟩ ⟨t, hzero⟩, ⟨0, 0, .empty⟩, fun _ => 0, [], _, default, [], 0, [],
    .string _ ⟨t, hzero⟩, hdump, hload⟩

lemma length_cut (h : v.value.s.ptr.addr ≠ 0 ∧ v.value.s.ptr.text.chars.length < c.length)
    (hlen : c.length < 2 ^ 31) : ¬ ∃ n, v.value.s.length = some n ∧ n.toInt = c.length := by
  rintro ⟨n, hn, hint⟩
  rw [length_eq h.1] at hn
  obtain rfl := Option.some.inj hn
  rw [toInt_ofNat_iff.mpr (h.2.trans hlen)] at hint
  have hlt := h.2
  omega

lemma exists_cut (hq : Quotable t c) (hescape : backslash ∈ t) (hlen : t.length < 2 ^ 32 - 1) :
    ∃ v, Quotes backwards t v ∧ v.value.s.ptr.addr ≠ 0 ∧ v.value.s.ptr.text.chars.length < c.length := by
  have hzero : 0 ∉ t := hq.written.2.2.1
  obtain ⟨hs, hchars⟩ := new_sound (show (⟨1, ⟨t, hzero⟩⟩ : CharPtr).addr ≠ 0 from one_addr) hq.fits
  have hfits := hq.fits
  obtain ⟨u, x, w, e, d, htext, hu, he, rfl⟩ := decode_escaped hescape hq.decoded
  have hdump := dumpString_backwards hs (hchars.trans htext) hu he
  rw [show (BijouString.new ⟨1, ⟨t, hzero⟩⟩).chars.length = t.length from congrArg List.length hchars] at hdump
  have hpos : 0 < t.length := List.length_pos_of_mem hescape
  have hnat : (BitVec.ofNat 64 t.length).toNat = t.length := by
    rw [BitVec.toNat_ofNat, Nat.mod_eq_of_lt (by omega)]
  have hne : BitVec.ofNat 64 t.length ≠ 0 := fun h0 => by
    rw [h0] at hnat
    exact hpos.ne hnat
  have hread : reader t.length ≠ -1 := fun h => by
    have := (reader_eof_iff _).mp h
    omega
  have hu0 : 0 ∉ u := fun h => hzero (htext ▸ List.mem_append_left _ h)
  have hsized := sized_transfers default reader_reports [] (.const 0)
    ((BijouString.new ⟨1, ⟨t, hzero⟩⟩).rewrite u) (u ++ 0 :: List.replicate (w.length + 1) 0) hne
    (by rw [hnat, htext]; simp)
  have hat : CStr.at (u ++ 0 :: List.replicate (w.length + 1) 0 ++ (default : LoadMemory).after [] (.const 0)) =
      CStr.at u := by
    rw [List.append_assoc, List.cons_append]
    exact CStr.at_terminated hu0 _
  rw [hnat, if_neg hread, hat, ← hdump] at hsized
  have hconst : Transfers Output.bytes
      (dumpConstant backwards (fun _ => 0) ((Entry.string ⟨1, one_addr⟩ ⟨t, hzero⟩).tvalue ⟨0, 0, .empty⟩))
      (loadConstant reader default [] 0) (some (_, _)) :=
    (dumpChar_transfers reader_reports _).bind_some (hsized.bind_some (.pure _ _))
  obtain ⟨hok, hload⟩ := hconst []
  refine ⟨_, ⟨.string ⟨1, one_addr⟩ ⟨t, hzero⟩, ⟨0, 0, .empty⟩, fun _ => 0, [], _, default, [], 0, [],
    .string _ ⟨t, hzero⟩, hok, hload []⟩, one_addr, ?_⟩
  change (CStr.at u).chars.length < _
  rw [CStr.at_eq hu0, List.length_append, List.length_cons]
  omega

lemma exists_backwards (hq : Quotable t c) (hlen : c.length < 2 ^ 31) : ∃ v, Quotes backwards t v ∧
    (backslash ∈ t → v.value.s.ptr.addr ≠ 0 ∧ v.value.s.ptr.text.chars.length < c.length) := by
  by_cases hescape : backslash ∈ t
  · have hshort := decode_length_le hq.decoded
    obtain ⟨v, hv, hcut⟩ := exists_cut hq hescape (by omega)
    exact ⟨v, hv, fun _ => hcut⟩
  · obtain ⟨v, hv⟩ := exists_quotes hq
    exact ⟨v, hv.copied hq hescape, fun h => absurd h hescape⟩

end Pair

theorem stringPair_iff {t t' c d : List Byte} (hq : Quotable t c) (hq' : Quotable t' d) :
    (∀ strcpy v w, Quotes strcpy t v → Quotes strcpy t' w → StringPair c d v w) ↔
      c ≠ [] ∧ d ≠ [] ∧ c.length < 2 ^ 31 ∧ d.length < 2 ^ 31 ∧ backslash ∉ t ∧ backslash ∉ t' := by
  constructor
  · intro h
    obtain ⟨v, hv⟩ := exists_quotes hq
    obtain ⟨w, hw⟩ := exists_quotes hq'
    have hmoved := h memmove v w hv hw
    obtain ⟨hc, hlen⟩ := (length_agrees_iff hv hq).mp hmoved.lenLeft
    obtain ⟨hd, hlen'⟩ := (length_agrees_iff hw hq').mp hmoved.lenRight
    obtain ⟨v', hv', hcut⟩ := exists_backwards hq hlen
    obtain ⟨w', hw', hcut'⟩ := exists_backwards hq' hlen'
    have hback := h backwards v' w' hv' hw'
    exact ⟨hc, hd, hlen, hlen', fun hescape => length_cut (hcut hescape) hlen hback.lenLeft,
      fun hescape => length_cut (hcut' hescape) hlen' hback.lenRight⟩
  · rintro ⟨hc, hd, hlen, hlen', hplain, hplain'⟩ strcpy v w hv hw
    exact stringPair_moved (hv.copied hq hplain) (hw.copied hq' hplain') hq hq' hc hd hlen hlen'

lemma Quotable.of_plain {t : List Byte} (h : (Literal.string t).WellFormed) (hlen : t.length < 2 ^ 20)
    (hplain : backslash ∉ t) : Quotable t t :=
  ⟨h, by omega, decode_plain hplain, by omega⟩

theorem stringPair_iff_words :
    (∀ strcpy v w, Quotes strcpy (bytes "hello") v → Quotes strcpy (bytes "big world") w →
      StringPair (bytes "hello") (bytes "big world") v w) ∧
      (∃ v, Quotes memmove (bytes "hello") v) ∧ ∃ w, Quotes memmove (bytes "big world") w := by
  have hq : Quotable (bytes "hello") (bytes "hello") :=
    .of_plain ⟨by decide, by decide, by decide, by decide⟩ (by decide) (by decide)
  have hq' : Quotable (bytes "big world") (bytes "big world") :=
    .of_plain ⟨by decide, by decide, by decide, by decide⟩ (by decide) (by decide)
  exact ⟨(stringPair_iff hq hq').mpr
    ⟨by decide, by decide, by decide, by decide, by decide, by decide⟩, exists_quotes hq, exists_quotes hq'⟩

theorem empty_undefined : ∃ v, Quotes memmove [] v ∧ v.equal v = none ∧ v.value.s.length = none ∧
    (∀ mem, v.value.s.cat mem v.value.s = none) ∧
      ¬ ∀ t t' c d, Quotable t c → Quotable t' d → ∀ strcpy v w, Quotes strcpy t v → Quotes strcpy t' w →
        StringPair c d v w := by
  have hq : Quotable [] [] := .of_plain ⟨by decide, by decide, by decide, by decide⟩ (by decide) (by decide)
  obtain ⟨v, hv⟩ := exists_quotes hq
  have hequal : v.value.s.equal v.value.s = none := by rw [hv.null hq]; rfl
  refine ⟨v, hv, ?_, by rw [hv.null hq]; rfl, by rw [hv.null hq]; exact fun _ => rfl, fun h => ?_⟩
  · rw [TValue.equal, if_pos rfl, (hv.value hq).1]
    exact hequal
  · cases hequal.symm.trans (h [] [] [] [] hq hq memmove v v hv hv).equal

end Bijou
