import Bijou.Dump
import Mathlib.Data.List.GetD

namespace Bijou

open CString Incremental LittleEndian

def decode : List Byte → Option (List Byte)
  | [] => some []
  | c :: s =>
    if c = backslash then
      match s with
      | [] => none
      | d :: s => do
        let e ← escape d
        let t ← decode s
        return e :: t
    else do
      let t ← decode s
      return c :: t

lemma decode_cons {c : Byte} (h : c ≠ backslash) (s : List Byte) :
    decode (c :: s) = (decode s).map (c :: ·) := by
  rw [decode.eq_def]
  simp only [if_neg h]
  cases decode s <;> rfl

lemma decode_escape (d : Byte) (s : List Byte) :
    decode (backslash :: d :: s) = (escape d).bind fun e => (decode s).map (e :: ·) := by
  simp only [decode, if_pos]
  cases escape d <;> cases decode s <;> rfl

lemma decode_append {u : List Byte} (hu : backslash ∉ u) (s : List Byte) :
    decode (u ++ s) = (decode s).map (u ++ ·) := by
  induction u with
  | nil => simp
  | cons c u ih =>
    simp only [List.mem_cons, not_or] at hu
    rw [List.cons_append, decode_cons (Ne.symm hu.1), ih hu.2, Option.map_map]
    rfl

lemma decode_plain {u : List Byte} (hu : backslash ∉ u) : decode u = some u := by
  have := decode_append hu []
  rwa [List.append_nil, decode, Option.map_some, List.append_nil] at this

lemma escape_ne_zero {c e : Byte} (h : escape c = some e) : e ≠ 0 := by
  simp only [escape] at h
  split_ifs at h <;> obtain rfl := Option.some.inj h <;> decide

lemma decode_bounds {s d : List Byte} (h : decode s = some d) :
    (0 ∉ s → 0 ∉ d) ∧ d.length ≤ s.length ∧ (d = [] ↔ s = []) := by
  induction hn : s.length using Nat.strong_induction_on generalizing s d with
  | _ n ih =>
    subst hn
    match s with
    | [] =>
      obtain rfl : d = [] := by simpa [decode, eq_comm] using h
      simp
    | c :: s =>
      by_cases hc : c = backslash
      · subst hc
        cases s with
        | nil => simp [decode] at h
        | cons c s =>
          rw [decode_escape] at h
          obtain ⟨e, he, h⟩ := Option.bind_eq_some_iff.mp h
          obtain ⟨t, ht, rfl⟩ := Option.map_eq_some_iff.mp h
          obtain ⟨h0, hlen, -⟩ := ih s.length (by simp) ht rfl
          have := escape_ne_zero he
          refine ⟨?_, by simp; omega, by simp⟩
          simp only [List.mem_cons, not_or]
          exact fun h => ⟨this.symm, h0 h.2.2⟩
      · rw [decode_cons hc] at h
        obtain ⟨t, ht, rfl⟩ := Option.map_eq_some_iff.mp h
        obtain ⟨h0, hlen, -⟩ := ih s.length (by simp) ht rfl
        refine ⟨?_, by simpa using hlen, by simp⟩
        simp only [List.mem_cons, not_or]
        exact fun h => ⟨h.1, h0 h.2⟩

lemma decode_length_le {s d : List Byte} (h : decode s = some d) : s.length ≤ 2 * d.length := by
  induction hn : s.length using Nat.strong_induction_on generalizing s d with
  | _ n ih =>
    subst hn
    match s with
    | [] => simp
    | c :: s =>
      by_cases hc : c = backslash
      · subst hc
        cases s with
        | nil => simp [decode] at h
        | cons c s =>
          rw [decode_escape] at h
          obtain ⟨e, -, h⟩ := Option.bind_eq_some_iff.mp h
          obtain ⟨t, ht, rfl⟩ := Option.map_eq_some_iff.mp h
          have := ih s.length (by simp) ht rfl
          simp only [List.length_cons]
          omega
      · rw [decode_cons hc] at h
        obtain ⟨t, ht, rfl⟩ := Option.map_eq_some_iff.mp h
        have := ih s.length (by simp) ht rfl
        simp only [List.length_cons]
        omega

lemma strchr_append (u s : List Byte) (c : Byte) :
    strchr (u ++ s) u.length c = (s.findIdx? (· == c)).map (u.length + ·) := by
  rw [strchr, List.drop_left]

lemma strchr_none {u s : List Byte} {c : Byte} (h : strchr (u ++ s) u.length c = none) : c ∉ s := by
  rw [strchr_append, Option.map_eq_none_iff, List.findIdx?_eq_none_iff] at h
  intro hc
  simpa using h c hc

lemma strchr_some {u s : List Byte} {c : Byte} {i : ℕ}
    (h : strchr (u ++ s) u.length c = some i) :
    ∃ v w, s = v ++ c :: w ∧ c ∉ v ∧ i = (u ++ v).length := by
  rw [strchr_append] at h
  obtain ⟨j, hj, rfl⟩ := Option.map_eq_some_iff.mp h
  obtain ⟨hlt, hc, hbefore⟩ := List.findIdx?_eq_some_iff_getElem.mp hj
  have hc : s[j] = c := by simpa using hc
  have htake : (s.take j).length = j := List.length_take_of_le hlt.le
  refine ⟨s.take j, s.drop (j + 1), ?_, ?_, by rw [List.length_append, htake]⟩
  · rw [← hc, List.cons_getElem_drop_succ, List.take_append_drop]
  · intro hmem
    obtain ⟨k, hk, hck⟩ := List.mem_iff_getElem.mp hmem
    rw [List.getElem_take] at hck
    have hne : (s[k] == c) = false := by simpa using hbefore k (by omega)
    simp [hck] at hne

section Loop

def Replaced (u : List Byte) (d : Option (List Byte)) (x : Except DumpError (List Byte × BitVec 64)) :
    Prop :=
  match d with
  | some d => x = .ok (u ++ d, BitVec.ofNat 64 ((u ++ d).length + 1))
  | none => ∃ e, x = .error e

lemma Replaced.append {u v : List Byte} {d : Option (List Byte)} {x} (h : Replaced (u ++ v) d x) :
    Replaced u (d.map (v ++ ·)) x := by
  cases d with
  | none => exact h
  | some d => simpa [Replaced] using h

lemma size_sub_one (n : ℕ) : BitVec.ofNat 64 (n + 1) - 1 = BitVec.ofNat 64 n := by
  rw [BitVec.ofNat_add]
  exact BitVec.add_sub_cancel _ _

lemma getD_escaped (x : List Byte) (c : Byte) (w : List Byte) :
    (x ++ backslash :: c :: w).getD (x.length + 1) 0 = c := by
  rw [List.getD_eq_getElem?_getD, List.getElem?_append_right (Nat.le_succ _)]
  simp

lemma move_left (x : List Byte) (c e : Byte) (w : List Byte) :
    memmove ((x ++ backslash :: c :: w).set (x.length + 1) e) x.length = x ++ [e] ++ w := by
  have hset : (x ++ backslash :: c :: w).set (x.length + 1) e = x ++ backslash :: e :: w := by
    rw [List.set_append_right _ _ (Nat.le_succ _), Nat.succ_sub (Nat.le_refl _), Nat.sub_self]
    rfl
  rw [hset, memmove, List.take_left, ← List.drop_drop, List.drop_left]
  simp

lemma escapeLoop_replaced (n : ℕ) : ∀ u s : List Byte, s.length ≤ n → (u ++ s).length + 1 < 2 ^ 64 →
    Replaced u (decode s)
      (escapeLoop memmove n (u ++ s) u.length (BitVec.ofNat 64 ((u ++ s).length + 1))) := by
  induction n with
  | zero =>
    intro u s hn _
    obtain rfl : s = [] := List.length_eq_zero_iff.mp (by omega)
    rfl
  | succ n ih =>
    intro u s hn hlen
    rw [escapeLoop, escapeRound, size_sub_one]
    cases hi : strchr (u ++ s) u.length backslash with
    | none =>
      rw [decode_plain (strchr_none hi)]
      rfl
    | some i =>
      obtain ⟨v, w, rfl, hv, rfl⟩ := strchr_some hi
      rw [decode_append hv]
      apply Replaced.append
      rw [← List.append_assoc] at hlen ⊢
      have hsize : (BitVec.ofNat 64 (u ++ v ++ backslash :: w).length).toNat =
          (u ++ v).length + w.length + 1 := by
        rw [BitVec.toNat_ofNat, Nat.mod_eq_of_lt (by omega), List.length_append, List.length_cons]
        omega
      cases w with
      | nil =>
        exact ⟨_, if_pos (by rw [hsize, List.length_nil])⟩
      | cons c w =>
        have hlt : ¬ (BitVec.ofNat 64 (u ++ v ++ backslash :: c :: w).length).toNat ≤
            (u ++ v).length + 1 := by
          rw [hsize, List.length_cons]
          omega
        dsimp only
        rw [if_neg hlt, getD_escaped, decode_escape]
        cases escape c with
        | none => exact ⟨_, rfl⟩
        | some e =>
          dsimp only
          rw [move_left, Option.bind_some]
          have hmoved : (u ++ v ++ backslash :: c :: w).length = (u ++ v ++ [e] ++ w).length + 1 := by
            simp
            omega
          have hnext := ih (u ++ v ++ [e]) w (by simp at hn; omega) (by omega)
          have hstart : (u ++ v ++ [e]).length = (u ++ v).length + 1 := List.length_append
          rw [hmoved, ← hstart]
          exact hnext.append

end Loop

section Overlap

lemma strchr_eq_none {str : List Byte} {c : Byte} (h : c ∉ str) (start : ℕ) : strchr str start c = none := by
  rw [strchr, Option.map_eq_none_iff, List.findIdx?_eq_none_iff]
  intro d hd
  rw [beq_eq_false_iff_ne]
  rintro rfl
  exact h (List.mem_of_mem_drop hd)

lemma escapeLoop_plain (strcpy : Strcpy) {str : List Byte} (h : backslash ∉ str) (n start : ℕ)
    (size : BitVec 64) : escapeLoop strcpy n str start size = .ok (str, size) := by
  cases n with
  | zero => rfl
  | succ n => rw [escapeLoop, escapeRound, strchr_eq_none h]

def spoil : Strcpy := fun str _ => List.replicate str.length backslash

lemma escapeLoop_spoiled (n : ℕ) : ∀ {len start : ℕ} {size : BitVec 64}, len ≤ start + n → start < len →
    size.toNat ≤ len + 1 → size ≠ 0 →
      ∃ e, escapeLoop spoil n (List.replicate len backslash) start size = .error e := by
  induction n with
  | zero => intro len start size hn hstart; omega
  | succ n ih =>
    intro len start size hn hstart hsize hne
    have hfind : strchr (List.replicate len backslash) start backslash = some start := by
      have hdrop : len - start = (len - start - 1) + 1 := by omega
      rw [strchr, List.drop_replicate, hdrop, List.replicate_succ, List.findIdx?_cons, beq_self_eq_true, if_pos rfl]
      rfl
    have hpos : 0 < size.toNat := Nat.pos_of_ne_zero (fun h => hne (BitVec.eq_of_toNat_eq h))
    have hpred : (size - 1).toNat = size.toNat - 1 := by
      have hlt := size.isLt
      rw [BitVec.toNat_sub_of_le (by rw [BitVec.le_def]; exact hpos)]
      rfl
    rw [escapeLoop, escapeRound, hfind]
    dsimp only
    by_cases hend : (size - 1).toNat ≤ start + 1
    · exact ⟨_, if_pos hend⟩
    · have hin : start + 1 < len := by omega
      have hc : (List.replicate len backslash).getD (start + 1) 0 = backslash :=
        List.getD_replicate backslash hin
      have hescape : escape backslash = some backslash := by decide
      have hspoil : spoil ((List.replicate len backslash).set (start + 1) backslash) start =
          List.replicate len backslash := by
        rw [spoil, List.length_set, List.length_replicate]
      rw [if_neg hend, hc, hescape]
      dsimp only
      rw [hspoil]
      exact ih (by omega) hin (by omega) (fun h => by rw [h] at hend; exact hend (Nat.zero_le _))

lemma escapeLoop_escaped {str : List Byte} (h : backslash ∈ str) (hlen : str.length + 1 < 2 ^ 64) :
    ∃ e, escapeLoop spoil str.length str 0 (BitVec.ofNat 64 (str.length + 1)) = .error e := by
  obtain ⟨n, hn⟩ := Nat.exists_eq_succ_of_ne_zero (List.length_pos_of_mem h).ne'
  cases hi : strchr str 0 backslash with
  | none => exact absurd h (strchr_none (u := []) hi)
  | some i =>
    obtain ⟨v, w, rfl, -, rfl⟩ := strchr_some (u := []) hi
    rw [hn, escapeLoop, escapeRound, hi, ← hn, size_sub_one]
    dsimp only
    have hsize : (BitVec.ofNat 64 (v ++ backslash :: w).length).toNat = (v ++ backslash :: w).length := by
      rw [BitVec.toNat_ofNat, Nat.mod_eq_of_lt (by omega)]
    split_ifs with hend
    · exact ⟨_, rfl⟩
    · cases escape ((v ++ backslash :: w).getD (([] ++ v).length + 1) 0) with
      | none => exact ⟨_, rfl⟩
      | some c =>
        dsimp only
        rw [spoil, List.length_set]
        rw [hsize, List.nil_append] at hend
        refine escapeLoop_spoiled n (by rw [List.nil_append]; omega) (by rw [List.nil_append]; omega)
          (by omega) (fun h0 => ?_)
        rw [h0] at hsize
        rw [← hsize] at hend
        exact hend (Nat.zero_le _)

def backwards : Strcpy := fun str i => str.take i

lemma decode_escaped {t c : List Byte} (h : backslash ∈ t) (hdec : decode t = some c) :
    ∃ u x w e d, t = u ++ backslash :: x :: w ∧ backslash ∉ u ∧ escape x = some e ∧ c = u ++ e :: d := by
  cases hi : strchr t 0 backslash with
  | none => exact absurd h (strchr_none (u := []) hi)
  | some i =>
    obtain ⟨u, w, rfl, hu, -⟩ := strchr_some (u := []) hi
    rw [decode_append hu] at hdec
    obtain ⟨d, hd, rfl⟩ := Option.map_eq_some_iff.mp hdec
    cases w with
    | nil => simp [decode] at hd
    | cons x w =>
      rw [decode_escape] at hd
      obtain ⟨e, he, hd⟩ := Option.bind_eq_some_iff.mp hd
      obtain ⟨d', -, rfl⟩ := Option.map_eq_some_iff.mp hd
      exact ⟨u, x, w, e, d', rfl, hu, he, rfl⟩

lemma escapeLoop_backwards {u w : List Byte} {x e : Byte} (hu : backslash ∉ u) (he : escape x = some e)
    (hlen : (u ++ backslash :: x :: w).length + 1 < 2 ^ 64) :
    escapeLoop backwards (u ++ backslash :: x :: w).length (u ++ backslash :: x :: w) 0
      (BitVec.ofNat 64 ((u ++ backslash :: x :: w).length + 1)) =
      .ok (u, BitVec.ofNat 64 (u ++ backslash :: x :: w).length) := by
  obtain ⟨n, hn⟩ := Nat.exists_eq_succ_of_ne_zero
    (List.length_pos_of_mem (List.mem_append_right u (List.mem_cons_self (a := backslash) (l := x :: w)))).ne'
  have hfind : strchr (u ++ backslash :: x :: w) 0 backslash = some u.length := by
    have hnone : u.findIdx? (· == backslash) = none := by
      rw [List.findIdx?_eq_none_iff]
      intro d hd
      rw [beq_eq_false_iff_ne]
      rintro rfl
      exact hu hd
    rw [strchr, List.drop_zero, List.findIdx?_append, hnone, List.findIdx?_cons, beq_self_eq_true, if_pos rfl]
    simp
  have hsize : (BitVec.ofNat 64 (u ++ backslash :: x :: w).length).toNat = u.length + w.length + 2 := by
    rw [BitVec.toNat_ofNat, Nat.mod_eq_of_lt (by omega), List.length_append, List.length_cons, List.length_cons]
    omega
  have hleft : backwards ((u ++ backslash :: x :: w).set (u.length + 1) e) u.length = u := by
    rw [backwards, List.take_set_of_le (Nat.le_succ _), List.take_left]
  rw [hn, escapeLoop, escapeRound, hfind, ← hn, size_sub_one]
  dsimp only
  rw [if_neg (by omega), getD_escaped, he]
  dsimp only
  rw [hleft]
  exact escapeLoop_plain backwards hu n _ _

end Overlap

end Bijou
