import Bijou.Escapes
import Bijou.LoadRules

namespace Bijou

open CString Incremental LittleEndian

structure BijouString.Sound (s : BijouString) : Prop where
  len : s.len.toNat = s.chars.length
  fits : s.chars.length + 1 < 2 ^ 64

def BijouString.rewrite (s : BijouString) (d : List Byte) : BijouString :=
  { s with ptr := { s.ptr with text := CStr.at d } }

def reloadString (reader : ℕ → BitVec 32) (addr : BitVec 64) (s : BijouString) :
    Option (BijouString × CharPtr) :=
  if s.len = 0 then some (s, .null)
  else do
    let d ← decode s.chars
    if reader (d.length + 1) = -1 then none else return (s.rewrite d, ⟨addr, CStr.at d⟩)

def reloadInt (x : BitVec 32) : Option (Unit × BitVec 32) :=
  if x.toInt < 0 then none else some ((), x)

def reloadCode (code : List Inst) : Option (Unit × List Inst) :=
  if (count code).toInt < 0 then none else some ((), code.take (count code).toNat)

def reloadConstant (reader : ℕ → BitVec 32) (addr : BitVec 64) (value : Value) (o : TValue) :
    Option (TValue × TValue) :=
  match o.tt with
  | .null | .function => some (o, ⟨.null, value⟩)
  | .number => some (o, ⟨.number, value.setNum o.value.n⟩)
  | .boolean => some (o, ⟨.boolean, value.setBool (if toByte o.value.b = 0 then 0 else 1)⟩)
  | .string => do
    let (s, p) ← reloadString reader addr o.value.s
    return ({ o with value := .ofString s }, ⟨.string, .ofString (.new p)⟩)
  | .none | .pointer => none

section Trees

variable (reader : ℕ → BitVec 32) (mem : LoadMemory) (path : Path)

def reloadConstants : ℕ → ℕ → List TValue → Option (List TValue × List TValue)
  | n + 1, i, o :: k => do
    let (o, o') ← reloadConstant reader (mem.addr path (.const i)).val (mem.k path i) o
    let (k, k') ← reloadConstants n (i + 1) k
    return (o :: k, o' :: k')
  | _, _, k => some (k, [])

end Trees

section Trees

variable (reader : ℕ → BitVec 32) (mem : LoadMemory)

mutual

def reload (path : Path) : Proto → Option (Proto × Proto)
  | ⟨source, name, linedefined, lastlinedefined, maxregisters, numglobal, numupval, numparam, k, code,
      p⟩ => do
    let (source, source') ← reloadString reader (mem.addr path .source).val source
    let (name, name') ← reloadString reader (mem.addr path .name).val name
    let (_, linedefined') ← reloadInt linedefined
    let (_, lastlinedefined') ← reloadInt lastlinedefined
    let (_, code') ← reloadCode code
    let (_, sizek) ← reloadInt (count k)
    let (k, k') ← reloadConstants reader mem path sizek.toNat 0 k
    let (_, sizep) ← reloadInt (count p)
    let (p, p') ← reloads path sizep.toNat 0 p
    return (⟨source, name, linedefined, lastlinedefined, maxregisters, numglobal, numupval, numparam,
        k, code, p⟩,
      ⟨.new source', .new name', linedefined', lastlinedefined', maxregisters, numglobal, numupval,
        numparam, k', code', p'⟩)

def reloads (path : Path) : ℕ → ℕ → List Proto → Option (List Proto × List Proto)
  | n + 1, i, f :: p => do
    let (f, f') ← reload (i :: path) f
    let (p, p') ← reloads path n (i + 1) p
    return (f :: p, f' :: p')
  | 0, _, p => some (p, [])
  | _ + 1, _, [] => some ([], [])

end

end Trees

inductive Proto.Sound : Proto → Prop
  | mk {f : Proto} (source : f.source.Sound) (name : f.name.Sound)
      (k : ∀ o ∈ f.k, o.tt = .string → o.value.s.Sound) (p : ∀ g ∈ f.p, g.Sound) : Proto.Sound f

variable {reader : ℕ → BitVec 32} (mem : LoadMemory) (padding : List Output → BitVec 48)

/-- Only the characters of a string may come in a block whose size the reader reports as EOF. -/
def Reports (reader : ℕ → BitVec 32) : Prop := ∀ n, n % 4 ≠ 3 → reader n ≠ -1

lemma dumpBlock_transfers (b : List Byte) : Transfers Output.bytes (dumpBlock b)
    (loadBlock reader b.length) (if reader b.length = -1 then none else some ((), b)) := by
  have htake : Transfers Output.bytes (dumpBlock b) (take () b.length : Load (List Byte))
      (some ((), b)) := by
    intro h
    refine ⟨rfl, fun t => ?_⟩
    simpa [dumpBlock, Writer.write, Output.bytes] using take_append LoadError () b t
  apply htake.read
  split
  · exact .fail _ _
  · exact .pure _ _

lemma dumpBlock_reported (hr : Reports reader) {b : List Byte} {n : ℕ} (hb : b.length = n)
    (hn : n % 4 ≠ 3) :
    Transfers Output.bytes (dumpBlock b) (loadBlock reader n) (some ((), b)) := by
  subst hb
  have : Transfers Output.bytes (dumpBlock b) (loadBlock reader b.length) _ := dumpBlock_transfers b
  rwa [if_neg (hr _ hn)] at this

lemma dumpChar_transfers (hr : Reports reader) (x : Byte) :
    Transfers Output.bytes (dumpChar x) (loadChar reader) (some ((), x)) :=
  (dumpBlock_reported hr (List.length_singleton) (by decide)).read (.pure _ _)

lemma dumpInt_transfers (hr : Reports reader) (x : BitVec 32) :
    Transfers Output.bytes (dumpInt x) (loadInt reader) (reloadInt x) := by
  rw [reloadInt]
  apply (dumpBlock_reported hr (toBytes_length 4 _) (by decide)).read
  rw [ofBytes_toNat x (by norm_num)]
  by_cases hx : x.toInt < 0
  · simp only [if_pos hx]
    exact .fail _ _
  · simp only [if_neg hx]
    exact .pure _ _

lemma dumpNumber_transfers (hr : Reports reader) (x : LongDouble) :
    Transfers Output.bytes (dumpNumber padding x) (loadNumber reader) (some ((), x)) := by
  intro h
  refine Transfers.read (dumpBlock_reported hr ?_ (by decide)) (y := some ((), x)) ?_ h
  · simp
  · rw [List.append_assoc, List.take_left' (toBytes_length 8 _), List.drop_left' (toBytes_length 8 _),
      List.take_left' (toBytes_length 2 _), ofBytes_toNat x.mant (by norm_num),
      ofBytes_toNat x.se (by norm_num)]
    exact .pure _ _

lemma words_toBytes (code : List Inst) :
    (List.range code.length).map (fun i => BitVec.ofNat 32
      (ofBytes (((code.flatMap (fun i => toBytes 4 i.toNat)).drop (4 * i)).take 4))) = code := by
  induction code with
  | nil => rfl
  | cons w code ih =>
    rw [List.length_cons, List.range_succ_eq_map, List.map_cons, List.map_map, List.flatMap_cons]
    have h4 : (toBytes 4 w.toNat).length = 4 := toBytes_length 4 _
    rw [mul_zero, List.drop_zero, List.take_left' h4, ofBytes_toNat w (by norm_num)]
    refine congrArg (w :: ·) (Eq.trans (List.map_congr_left ?_) ih)
    intro i _
    have hi : 4 * (i + 1) = 4 + 4 * i := by omega
    rw [Function.comp_apply, Nat.succ_eq_add_one, hi, ← List.drop_drop, List.drop_left' h4]

lemma dumpCode_transfers (hr : Reports reader) (code : List Inst) :
    Transfers Output.bytes (dumpCode code) (loadCode reader) (reloadCode code) := by
  have hint := dumpInt_transfers hr (count code)
  by_cases hn : (count code).toInt < 0
  · rw [reloadInt, if_pos hn] at hint
    rw [reloadCode, if_pos hn]
    exact hint.bind_none
  · rw [reloadInt, if_neg hn] at hint
    rw [reloadCode, if_neg hn]
    apply hint.bind_some
    have hle : (count code).toNat ≤ code.length := by
      rw [count, BitVec.toNat_ofNat]
      exact Nat.mod_le _ _
    have hlen : (code.take (count code).toNat).length = (count code).toNat := List.length_take_of_le hle
    rw [if_neg hn]
    apply (dumpBlock_reported hr _ (by omega)).read
    · have := words_toBytes (code.take (count code).toNat)
      rw [hlen] at this
      rw [this]
      exact .pure _ _
    · rw [List.length_flatMap]
      simp [Nat.mul_comm, Nat.min_eq_left hle]

lemma BijouString.Sound.chars_eq {s : BijouString} (hs : s.Sound) (hlen : s.len ≠ 0) :
    s.chars = s.ptr.text.chars := by
  rw [chars, if_neg]
  intro haddr
  have h0 : s.chars = [] := if_pos haddr
  exact hlen (BitVec.eq_of_toNat_eq (by rw [hs.len, h0]; rfl))

lemma BijouString.Sound.len_eq {s : BijouString} (hs : s.Sound) :
    s.len = BitVec.ofNat 64 s.chars.length := by
  apply BitVec.eq_of_toNat_eq
  have := hs.fits
  rw [hs.len, BitVec.toNat_ofNat, Nat.mod_eq_of_lt (by omega)]

lemma dumpString_decode {s : BijouString} (hs : s.Sound) (hlen : s.len ≠ 0) :
    (decode s.chars = none → ∃ e, dumpString memmove s = Writer.stop e) ∧
      ∀ d, decode s.chars = some d → dumpString memmove s = do
        dumpSize (BitVec.ofNat 64 (d.length + 1))
        dumpBlock (d ++ [0])
        return s.rewrite d := by
  have hloop : Replaced [] (decode s.chars)
      (escapeLoop memmove s.chars.length s.chars 0 (s.len + 1)) := by
    have h := escapeLoop_replaced s.chars.length [] s.chars le_rfl (by simpa using hs.fits)
    rwa [List.nil_append, List.length_nil, BitVec.ofNat_add, ← hs.len_eq] at h
  rw [dumpString, if_neg hlen, ← hs.chars_eq hlen]
  constructor
  · intro hd
    rw [hd] at hloop
    obtain ⟨e, he⟩ := hloop
    exact ⟨e, by simp only [he]⟩
  · intro d hd
    rw [hd] at hloop
    have hok : escapeLoop memmove s.chars.length s.chars 0 (s.len + 1) =
        .ok (d, BitVec.ofNat 64 (d.length + 1)) := hloop
    have hle := (decode_bounds hd).2.1
    have hfit := hs.fits
    have htake : (d ++ [0]).takeD (BitVec.ofNat 64 (d.length + 1)).toNat 0 = d ++ [0] := by
      rw [BitVec.toNat_ofNat, Nat.mod_eq_of_lt (by omega), List.takeD_eq_take 0 (by simp)]
      exact List.take_of_length_le (by simp)
    simp only [hok, htake]
    rfl

lemma sized_transfers (hr : Reports reader) (path : Path) (slot : Slot) (s : BijouString)
    (blk : List Byte) {size : BitVec 64} (hne : size ≠ 0) (hblk : blk.length = size.toNat) :
    Transfers Output.bytes (do dumpSize size; dumpBlock blk; return s) (loadString reader mem path slot)
      (if reader size.toNat = -1 then none
        else some (s, ⟨(mem.addr path slot).val, CStr.at (blk ++ mem.after path slot)⟩)) := by
  have hsize : Transfers Output.bytes (dumpSize size) (loadBlock reader 8)
      (some ((), toBytes 8 size.toNat)) := dumpBlock_reported hr (toBytes_length 8 _) (by decide)
  have hblock : Transfers Output.bytes (dumpBlock blk) (loadBlock reader _) _ := dumpBlock_transfers blk
  apply hsize.bind_some
  rw [ofBytes_toNat _ (show 64 = 8 * 8 by norm_num), if_neg hne]
  rw [hblk] at hblock
  by_cases hread : reader size.toNat = -1
  · rw [if_pos hread] at hblock ⊢
    exact hblock.bind_none
  · rw [if_neg hread] at hblock ⊢
    exact hblock.bind_some (.pure _ _)

lemma dumpString_transfers (hr : Reports reader) (path : Path) (slot : Slot) {s : BijouString}
    (hs : s.Sound) : Transfers Output.bytes (dumpString memmove s) (loadString reader mem path slot)
      (reloadString reader (mem.addr path slot).val s) := by
  by_cases hlen : s.len = 0
  · have hsize : Transfers Output.bytes (dumpSize 0) (loadBlock reader 8)
        (some ((), toBytes 8 (0 : BitVec 64).toNat)) := dumpBlock_reported hr (toBytes_length 8 _) (by decide)
    rw [dumpString, if_pos hlen, reloadString, if_pos hlen]
    exact hsize.bind_some (.pure _ _)
  obtain ⟨hstop, hdump⟩ := dumpString_decode hs hlen
  rw [reloadString, if_neg hlen]
  cases hd : decode s.chars with
  | none =>
    obtain ⟨e, he⟩ := hstop hd
    rw [he]
    exact .stop _ _
  | some d =>
    obtain ⟨hzero, hle, -⟩ := decode_bounds hd
    have hfit := hs.fits
    have hnat : (BitVec.ofNat 64 (d.length + 1)).toNat = d.length + 1 := by
      rw [BitVec.toNat_ofNat, Nat.mod_eq_of_lt (by omega)]
    have hne : BitVec.ofNat 64 (d.length + 1) ≠ 0 := by
      intro h
      rw [h] at hnat
      simp at hnat
    have hat : CStr.at (d ++ [0] ++ mem.after path slot) = CStr.at d := by
      rw [List.append_assoc]
      exact CStr.at_terminated (hzero (hs.chars_eq hlen ▸ s.ptr.text.property)) _
    have hsized := sized_transfers mem hr path slot (s.rewrite d) (d ++ [0]) hne (by simp [hnat])
    rw [hnat, hat] at hsized
    rw [hdump d hd]
    exact hsized

lemma dumpConstant_transfers (hr : Reports reader) (path : Path) (i : ℕ) {o : TValue}
    (ho : o.tt = .string → o.value.s.Sound) :
    Transfers Output.bytes (dumpConstant memmove padding o) (loadConstant reader mem path i)
      (reloadConstant reader (mem.addr path (.const i)).val (mem.k path i) o) := by
  apply (dumpChar_transfers hr o.tt.char).bind_some
  rw [reloadConstant]
  cases htt : o.tt with
  | null => exact .pure _ _
  | number => exact (dumpNumber_transfers padding hr _).bind_some (.pure _ _)
  | boolean => exact (dumpChar_transfers hr _).bind_some (.pure _ _)
  | string => exact (dumpString_transfers mem hr path _ (ho htt)).bind (fun _ _ => .pure _ _)
  | function => exact .pure _ _
  | none => exact fun h => .inr (fun t => ⟨_, rfl⟩)
  | pointer => exact fun h => .inr (fun t => ⟨_, rfl⟩)

lemma loadConstant_dumped (hr : Reports reader) (path : Path) (i : ℕ) {o : TValue} {x : TValue × TValue}
    (hx : reloadConstant reader (mem.addr path (.const i)).val (mem.k path i) o = some x)
    (ho : o.tt = .string → o.value.s.Sound) (h : List Output) (s : List Byte) :
    (dumpConstant memmove padding o h).2 = .ok x.1 ∧
      loadConstant reader mem path i ((dumpConstant memmove padding o h).1.flatMap Output.bytes ++ s) =
        .done x.2 s := by
  have htrans := dumpConstant_transfers mem padding hr path i ho h
  rw [hx] at htrans
  exact ⟨htrans.1, htrans.2 s⟩

lemma dumpConstants_transfers (hr : Reports reader) (path : Path) (n i : ℕ) {k : List TValue}
    (hn : n ≤ k.length) (hk : ∀ o ∈ k, o.tt = .string → o.value.s.Sound) :
    Transfers Output.bytes (dumpConstants memmove padding n k) (forN (loadConstant reader mem path) i n)
      (reloadConstants reader mem path n i k) := by
  induction n generalizing i k with
  | zero =>
    rw [reloadConstants.eq_def, dumpConstants.eq_def]
    exact .pure _ _
  | succ n ih =>
    cases k with
    | nil => simp at hn
    | cons o k =>
      rw [dumpConstants, forN, reloadConstants]
      apply (dumpConstant_transfers mem padding hr path i (hk o (by simp))).bind
      rintro ⟨o, o'⟩ -
      apply (ih (i + 1) (by simpa using hn) (fun o ho => hk o (by simp [ho]))).bind
      rintro ⟨k, k'⟩ -
      exact .pure _ _

lemma count_le {α : Type} (l : List α) : (count l).toNat ≤ l.length := by
  rw [count, BitVec.toNat_ofNat]
  exact Nat.mod_le _ _

lemma reloadInt_some {x y : BitVec 32} {u : Unit} (h : reloadInt x = some (u, y)) :
    y = x ∧ upTo x = x.toNat := by
  rw [reloadInt] at h
  split_ifs at h with hx
  obtain rfl : x = y := by simpa using h
  refine ⟨rfl, ?_⟩
  rw [upTo, BitVec.toInt_eq_toNat_cond]
  rw [BitVec.toInt_neg_iff] at hx
  rw [if_pos (by omega)]
  rfl

mutual

lemma dumpFunction_transfers (hr : Reports reader) : ∀ (path : Path) (f : Proto), f.Sound →
    Transfers Output.bytes (dumpFunction memmove padding f) (loadFunction reader mem path)
      (reload reader mem path f)
  | path, ⟨source, name, linedefined, lastlinedefined, maxregisters, numglobal, numupval, numparam, k,
      code, p⟩, hf => by
    obtain ⟨hsource, hname, hk, hp⟩ := hf
    rw [dumpFunction, loadFunction_eq, loadFunctionRound, reload]
    apply (dumpString_transfers mem hr path _ hsource).bind
    rintro ⟨source, source'⟩ -
    apply (dumpString_transfers mem hr path _ hname).bind
    rintro ⟨name, name'⟩ -
    apply (dumpInt_transfers hr linedefined).bind
    rintro ⟨⟨⟩, linedefined'⟩ -
    apply (dumpInt_transfers hr lastlinedefined).bind
    rintro ⟨⟨⟩, lastlinedefined'⟩ -
    apply (dumpChar_transfers hr maxregisters).bind_some
    apply (dumpChar_transfers hr numglobal).bind_some
    apply (dumpChar_transfers hr numupval).bind_some
    apply (dumpChar_transfers hr numparam).bind_some
    apply (dumpCode_transfers hr code).bind
    rintro ⟨⟨⟩, code'⟩ -
    apply (dumpInt_transfers hr (count k)).bind
    rintro ⟨⟨⟩, sizek⟩ hsizek
    obtain ⟨rfl, hup⟩ := reloadInt_some hsizek
    dsimp only
    rw [hup]
    apply (dumpConstants_transfers mem padding hr path _ 0 (count_le k) hk).bind
    rintro ⟨k, k'⟩ -
    apply (dumpInt_transfers hr (count p)).bind
    rintro ⟨⟨⟩, sizep⟩ hsizep
    obtain ⟨rfl, hup⟩ := reloadInt_some hsizep
    dsimp only
    rw [hup]
    apply (dumpFunctions_transfers hr path _ 0 p (count_le p) hp).bind
    rintro ⟨p, p'⟩ -
    exact .pure _ _

lemma dumpFunctions_transfers (hr : Reports reader) : ∀ (path : Path) (n i : ℕ) (p : List Proto),
    n ≤ p.length → (∀ f ∈ p, f.Sound) →
      Transfers Output.bytes (dumpFunctions memmove padding n p)
        (forN (fun i => loadFunction reader mem (i :: path)) i n) (reloads reader mem path n i p)
  | path, 0, i, p, _, _ => by
    rw [dumpFunctions, reloads]
    exact .pure _ _
  | path, n + 1, i, [], hn, _ => by simp at hn
  | path, n + 1, i, f :: p, hn, hp => by
    rw [dumpFunctions, forN, reloads]
    apply (dumpFunction_transfers hr (i :: path) f (hp f (by simp))).bind
    rintro ⟨f, f'⟩ -
    apply (dumpFunctions_transfers hr path n (i + 1) p (by simpa using hn)
      (fun f hf => hp f (by simp [hf]))).bind
    rintro ⟨p, p'⟩ -
    exact .pure _ _

end

theorem bijouDump_transfers (hr : Reports reader) {f : Proto} (hf : f.Sound) :
    Transfers Output.bytes (bijouDump memmove padding f) (bijouLoad reader mem) (reload reader mem [] f) := by
  apply Transfers.bind_some
  · apply (dumpBlock_reported hr (b := header) rfl (by decide)).read
    exact .pure _ _
  · exact dumpFunction_transfers mem padding hr [] f hf

end Bijou
