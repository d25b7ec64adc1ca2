import Bijou.Reload

namespace Bijou

open CString Incremental LittleEndian

def BijouString.Unescaped (s : BijouString) : Prop := backslash ∉ s.chars

def TValue.Unescaped (o : TValue) : Prop := o.tt = .string → o.value.s.Unescaped

inductive Proto.Unescaped : Proto → Prop
  | mk {f : Proto} (source : f.source.Unescaped) (name : f.name.Unescaped)
      (k : ∀ o ∈ counted f.k, o.Unescaped) (p : ∀ g ∈ counted f.p, g.Unescaped) : Proto.Unescaped f

section Same

variable (strcpy : Strcpy) (padding : List Output → BitVec 48)

lemma dumpString_unescaped {s : BijouString} (hs : s.Sound) (h : s.Unescaped) :
    dumpString strcpy s = dumpString memmove s := by
  by_cases hlen : s.len = 0
  · rw [dumpString, dumpString, if_pos hlen, if_pos hlen]
  · have hchars : backslash ∉ s.ptr.text.chars := hs.chars_eq hlen ▸ h
    rw [dumpString, dumpString, if_neg hlen, if_neg hlen]
    simp only [escapeLoop_plain strcpy hchars, escapeLoop_plain memmove hchars]

lemma dumpConstant_unescaped {o : TValue} (ho : o.tt = .string → o.value.s.Sound) (h : o.Unescaped) :
    dumpConstant strcpy padding o = dumpConstant memmove padding o := by
  rw [dumpConstant, dumpConstant]
  cases htt : o.tt with
  | string => simp only [dumpString_unescaped strcpy (ho htt) (h htt)]
  | _ => rfl

lemma dumpConstants_unescaped (n : ℕ) {k : List TValue} (hk : ∀ o ∈ k, o.tt = .string → o.value.s.Sound)
    (h : ∀ o ∈ k.take n, o.Unescaped) :
    dumpConstants strcpy padding n k = dumpConstants memmove padding n k := by
  induction n generalizing k with
  | zero => rw [dumpConstants.eq_def, dumpConstants.eq_def]
  | succ n ih =>
    cases k with
    | nil => rw [dumpConstants.eq_def, dumpConstants.eq_def]
    | cons o k =>
      rw [List.take_succ_cons, List.forall_mem_cons] at h
      rw [dumpConstants, dumpConstants, dumpConstant_unescaped strcpy padding (hk o (by simp)) h.1,
        ih (fun o ho => hk o (by simp [ho])) h.2]

lemma dumpFunctions_congr {n : ℕ} {p : List Proto}
    (h : ∀ g ∈ p.take n, dumpFunction strcpy padding g = dumpFunction memmove padding g) :
    dumpFunctions strcpy padding n p = dumpFunctions memmove padding n p := by
  induction n generalizing p with
  | zero => rw [dumpFunctions, dumpFunctions]
  | succ n ih =>
    cases p with
    | nil => rw [dumpFunctions, dumpFunctions]
    | cons f p =>
      rw [List.take_succ_cons, List.forall_mem_cons] at h
      rw [dumpFunctions, dumpFunctions, h.1, ih h.2]

lemma dumpFunction_unescaped {f : Proto} (h : f.Unescaped) (hf : f.Sound) :
    dumpFunction strcpy padding f = dumpFunction memmove padding f := by
  induction h with
  | @mk f hsource hname hk _ ih =>
    obtain ⟨hs, hn, hks, hps⟩ := hf
    have hp := dumpFunctions_congr strcpy padding (n := upTo (count f.p)) (p := f.p)
      (fun g hg => ih g hg (hps g (List.mem_of_mem_take hg)))
    have hk' := dumpConstants_unescaped strcpy padding (upTo (count f.k)) hks hk
    cases f
    rw [dumpFunction, dumpFunction, dumpString_unescaped strcpy hs hsource,
      dumpString_unescaped strcpy hn hname]
    dsimp only at hk' hp
    simp only [hk', hp]

lemma bijouDump_unescaped {f : Proto} (h : f.Unescaped) (hf : f.Sound) :
    bijouDump strcpy padding f = bijouDump memmove padding f := by
  rw [bijouDump, bijouDump, dumpFunction_unescaped strcpy padding h hf]

end Same

section Spoiled

variable (padding : List Output → BitVec 48)

lemma yields_and {α β : Type} {w : Dump α} {f : α → Dump β} {P Q : Prop}
    (hw : Writer.Yields Output.bytes w (fun _ => P)) (hf : ∀ a, Writer.Yields Output.bytes (f a) (fun _ => Q)) :
    Writer.Yields Output.bytes (w >>= f) (fun _ => P ∧ Q) := by
  refine (hw.bind hf).mono ?_
  rintro _ ⟨_, _, -, hP, hQ⟩
  exact ⟨hP, hQ⟩

lemma yields_then {α β : Type} {w : Dump α} {f : α → Dump β} {Q : Prop}
    (hf : ∀ a, Writer.Yields Output.bytes (f a) (fun _ => Q)) :
    Writer.Yields Output.bytes (w >>= f) (fun _ => Q) :=
  (yields_and (P := True) (fun _ _ _ _ => trivial) hf).mono fun _ h => h.2

lemma dumpString_spoiled {s : BijouString} (hs : s.Sound) :
    Writer.Yields Output.bytes (dumpString spoil s) (fun _ => s.Unescaped) := by
  by_cases h : s.Unescaped
  · exact fun _ _ _ _ => h
  · have hescape : backslash ∈ s.chars := not_not.mp h
    have hlen : s.len ≠ 0 := by
      intro h0
      have hnil : s.chars = [] := List.length_eq_zero_iff.mp (by rw [← hs.len, h0]; rfl)
      rw [hnil] at hescape
      cases hescape
    have hloop := escapeLoop_escaped hescape hs.fits
    rw [BitVec.ofNat_add, ← hs.len_eq, hs.chars_eq hlen] at hloop
    obtain ⟨e, he⟩ := hloop
    have hrun : escapeLoop spoil s.ptr.text.chars.length s.ptr.text.chars 0 (s.len + 1) = .error e := he
    rw [dumpString, if_neg hlen]
    simp only [hrun]
    exact .stop

lemma dumpConstant_spoiled {o : TValue} (ho : o.tt = .string → o.value.s.Sound) :
    Writer.Yields Output.bytes (dumpConstant spoil padding o) (fun _ => o.Unescaped) := by
  rw [dumpConstant]
  refine yields_then fun _ => ?_
  cases htt : o.tt with
  | string => exact ((dumpString_spoiled (ho htt)).bind_pure _).mono fun _ h _ => h
  | _ => exact fun _ _ _ _ h => by rw [htt] at h; cases h

lemma dumpConstants_spoiled (n : ℕ) {k : List TValue} (hk : ∀ o ∈ k, o.tt = .string → o.value.s.Sound) :
    Writer.Yields Output.bytes (dumpConstants spoil padding n k)
      (fun _ => ∀ o ∈ k.take n, o.Unescaped) := by
  induction n generalizing k with
  | zero => exact fun _ _ _ _ => by simp
  | succ n ih =>
    cases k with
    | nil => exact fun _ _ _ _ => by simp
    | cons o k =>
      rw [dumpConstants, List.take_succ_cons]
      refine (yields_and (dumpConstant_spoiled padding (hk o (by simp))) fun _ =>
        (ih (fun o ho => hk o (by simp [ho]))).bind_pure _).mono fun _ h => ?_
      exact List.forall_mem_cons.mpr h

mutual

lemma dumpFunction_spoiled : ∀ f : Proto, f.Sound →
    Writer.Yields Output.bytes (dumpFunction spoil padding f) (fun _ => f.Unescaped)
  | ⟨source, name, linedefined, lastlinedefined, maxregisters, numglobal, numupval, numparam, k, code,
      p⟩, hf => by
    obtain ⟨hsource, hname, hk, hp⟩ := hf
    rw [dumpFunction]
    refine (yields_and (dumpString_spoiled hsource) fun _ => yields_and (dumpString_spoiled hname) fun _ =>
      yields_then fun _ => yields_then fun _ => yields_then fun _ => yields_then fun _ =>
      yields_then fun _ => yields_then fun _ => yields_then fun _ => yields_then fun _ =>
      yields_and (dumpConstants_spoiled padding (upTo (count k)) hk) fun _ => yields_then fun _ =>
      (dumpFunctions_spoiled p (upTo (count p)) hp).bind_pure _).mono ?_
    rintro _ ⟨hs, hn, hks, hps⟩
    exact .mk hs hn hks hps

lemma dumpFunctions_spoiled : ∀ (p : List Proto) (n : ℕ), (∀ g ∈ p, g.Sound) →
    Writer.Yields Output.bytes (dumpFunctions spoil padding n p) (fun _ => ∀ g ∈ p.take n, g.Unescaped)
  | p, 0, _ => fun _ _ _ _ => by simp
  | [], n + 1, _ => fun _ _ _ _ => by simp
  | f :: p, n + 1, hp => by
    rw [dumpFunctions, List.take_succ_cons]
    refine (yields_and (dumpFunction_spoiled f (hp f (by simp))) fun _ =>
      (dumpFunctions_spoiled p n (fun g hg => hp g (by simp [hg]))).bind_pure _).mono fun _ h => ?_
    exact List.forall_mem_cons.mpr h

end

lemma unescaped_of_spoiled {f f' : Proto} {h out : List Output} (hf : f.Sound)
    (hdump : bijouDump spoil padding f h = (out, .ok f')) : f.Unescaped :=
  (yields_then fun _ => dumpFunction_spoiled padding f hf) h out f' hdump

end Spoiled

section Backwards

lemma takeD_append {α : Type} (l : List α) (n : ℕ) (a : α) :
    l.takeD (l.length + n) a = l ++ List.replicate n a := by
  induction l with
  | nil => rw [List.length_nil, Nat.zero_add, List.takeD_nil, List.nil_append]
  | cons b l ih =>
    rw [List.length_cons, Nat.add_right_comm, List.takeD_succ, List.head?_cons, Option.getD_some, List.tail_cons,
      ih, List.cons_append]

variable {s : BijouString} {u w : List Byte} {x e : Byte}

lemma dumpString_backwards (hs : s.Sound) (h : s.chars = u ++ backslash :: x :: w) (hu : backslash ∉ u)
    (he : escape x = some e) : dumpString backwards s = do
      dumpSize (BitVec.ofNat 64 s.chars.length)
      dumpBlock (u ++ 0 :: List.replicate (w.length + 1) 0)
      return s.rewrite u := by
  have hfits := hs.fits
  have hne : s.chars ≠ [] := by rw [h]; simp
  have hlen : s.len ≠ 0 := by
    intro h0
    exact hne (List.length_eq_zero_iff.mp (by rw [← hs.len, h0]; rfl))
  have hloop : escapeLoop backwards s.chars.length s.chars 0 (s.len + 1) =
      .ok (u, BitVec.ofNat 64 s.chars.length) := by
    have hrun := escapeLoop_backwards (w := w) hu he (h ▸ hfits)
    rw [← h, BitVec.ofNat_add] at hrun
    rwa [hs.len_eq]
  have hnat : (BitVec.ofNat 64 s.chars.length).toNat = (u ++ [0]).length + (w.length + 1) := by
    rw [BitVec.toNat_ofNat, Nat.mod_eq_of_lt (by omega), h]
    simp
    omega
  rw [hs.chars_eq hlen] at hloop hnat ⊢
  rw [dumpString, if_neg hlen]
  simp only [hloop, hnat, takeD_append, List.append_assoc, List.singleton_append]
  rfl

end Backwards

end Bijou
