import Bijou.Blocks
import Bijou.Strings
import Mathlib.Order.Bounds.Basic

namespace Bijou

open CString

abbrev Search := ExceptT StringError Option

instance {α : Type} [DecidableEq α] : DecidableEq (Search α) :=
  inferInstanceAs (DecidableEq (Option (Except StringError α)))

section IndexOf

variable (mem : ℕ → Chunk) (string search : BijouString) (searchSize : BitVec 64)

def indexOfRound (loop : ℕ → BitVec 32 → Search (BitVec 32)) (k : ℕ) (i : BitVec 32) :
    Search (BitVec 32) := do
  let length ← orFault string.length
  if length.toInt ≤ i.toInt then return -1
  else
    let s ← orFault (string.substr (mem k) i (searchSize.setWidth 32))
    if ← orFault (s.string.equal search) then return i
    else loop (k + 1) ((i.signExtend 64 + searchSize).setWidth 32)

def indexOfLoop : ℕ → ℕ → BitVec 32 → Search (BitVec 32)
  | 0 => fun _ _ => (none : Option (Except StringError (BitVec 32)))
  | n + 1 => indexOfRound mem string search searchSize (indexOfLoop n)

def funcIndexOf (garbage : Value) (argv : ℕ → TValue) (fuel : ℕ) : Search TValue := do
  shouldBe (argv 0) .string
  shouldBe (argv 1) .string
  let searchSize ← orFault (argv 1).value.s.length
  let index ← indexOfLoop mem (argv 0).value.s (argv 1).value.s (searchSize.signExtend 64) fuel 0 0
  return createNumber garbage (.ofInt index.toInt)

/-- BijouString_substr returns the exact slice, shorter near the end. -/
def ExactSlices : Prop := ∀ k str first length r, BijouString.substr (mem k) str first length = some r →
  r.string.chars = (str.ptr.text.chars.drop first.toNat).take length.toNat

end IndexOf

def asInt (s : List Byte) : ℤ := (BitVec.ofNat 32 s.length).toInt

lemma asInt_le (s : List Byte) : asInt s ≤ s.length := by
  rw [asInt, BitVec.toInt_eq_toNat_cond, BitVec.toNat_ofNat]
  split <;> omega

lemma asInt_lt (s : List Byte) : asInt s < 2 ^ 31 := BitVec.toInt_lt

lemma narrow_extend (x : BitVec 32) : (x.signExtend 64).setWidth 32 = x := by
  ext i hi
  simp [BitVec.getLsbD_signExtend, hi]
  omega

lemma add_extend (x y : BitVec 32) : (x.signExtend 64 + y.signExtend 64).setWidth 32 = x + y := by
  rw [BitVec.setWidth_add _ _ (by omega), narrow_extend, narrow_extend]

section Round

variable {mem : ℕ → Chunk} {string search : BijouString} {s t : List Byte}
  {loop : ℕ → BitVec 32 → Search (BitVec 32)} {i : BitVec 32} (k : ℕ)

structure Searches (mem : ℕ → Chunk) (string search : BijouString) (s t : List Byte) : Prop where
  live : string.Live
  searchLive : search.Live
  chars : string.ptr.text.chars = s
  searched : search.ptr.text.chars = t
  len : search.len = strlen search.ptr.text
  exact : ExactSlices mem

def searchSize (t : List Byte) : BitVec 64 := (BitVec.ofNat 32 t.length).signExtend 64

variable (h : Searches mem string search s t)

include h

lemma Searches.length : string.length = some (BitVec.ofNat 32 s.length) := by
  rw [length_eq h.live, h.chars]

lemma round_stop (hi : asInt s ≤ i.toInt) :
    indexOfRound mem string search (searchSize t) loop k i = some (.ok (-1)) := by
  rw [indexOfRound, h.length]
  change (if asInt s ≤ i.toInt then _ else _) = _
  rw [if_pos hi]
  rfl

lemma round_fault (hi : i.toInt < asInt s) (hneg : i.toInt < 0 ∨ asInt t < 0) :
    indexOfRound mem string search (searchSize t) loop k i = some (.error .fault) := by
  have hnone : string.substr (mem k) i (BitVec.ofNat 32 t.length) = none := by
    rw [BijouString.substr, if_pos]
    rcases hneg with hneg | hneg
    · exact .inr (.inl hneg)
    · exact .inr (.inr (.inl hneg))
  rw [indexOfRound, h.length, searchSize, narrow_extend, hnone]
  change (if asInt s ≤ i.toInt then _ else _) = _
  rw [if_neg (by omega)]
  rfl

lemma round_compare (hi : i.toInt < asInt s) (hnn : 0 ≤ i.toInt) (hsize : 0 ≤ asInt t) :
    indexOfRound mem string search (searchSize t) loop k i =
      if (s.drop i.toNat).take (BitVec.ofNat 32 t.length).toNat = t then some (.ok i)
      else loop (k + 1) (i + BitVec.ofNat 32 t.length) := by
  have hin : i.toNat ≤ string.ptr.text.chars.length := by
    rw [h.chars]
    have hle := asInt_le s
    rw [BitVec.toInt_eq_toNat_cond] at hi hnn
    split_ifs at hi hnn <;> omega
  obtain ⟨r, hr⟩ := exists_substr (mem k) h.live hnn hsize hin
  have hslice := h.exact k _ _ _ _ hr
  rw [h.chars] at hslice
  obtain ⟨haddr, hlen⟩ := fresh_of_substr hr
  have hequal : r.string.equal search = some (decide ((s.drop i.toNat).take
      (BitVec.ofNat 32 t.length).toNat = t)) := by
    rw [HeapString.chars_eq haddr] at hslice
    have htext : r.string.ptr.text = search.ptr.text ↔
        (s.drop i.toNat).take (BitVec.ofNat 32 t.length).toNat = t := by
      rw [← hslice, ← h.searched]
      exact Subtype.ext_iff
    rw [equal_of_live haddr h.searchLive hlen h.len]
    exact congrArg some (decide_eq_decide.mpr htext)
  rw [indexOfRound, h.length, searchSize, narrow_extend, add_extend, hr]
  change (if asInt s ≤ i.toInt then _ else _) = _
  rw [if_neg (by omega)]
  change (liftM (orFault (r.string.equal search)) >>= fun b => if b = true then pure i else _ :
    Search (BitVec 32)) = _
  rw [hequal]
  change (if decide _ = true then pure i else _ : Search (BitVec 32)) = _
  simp only [decide_eq_true_eq]
  rfl

end Round

section Walk

variable {mem : ℕ → Chunk} {string search : BijouString} {s t : List Byte}

def Occurs (s t : List Byte) (i : ℕ) : Prop := i ≤ s.length ∧ t <+: s.drop i

lemma take_eq_iff {i n : ℕ} (hn : n = t.length % 2 ^ 32) (hi : i ≤ s.length) :
    (s.drop i).take n = t ↔ n = t.length ∧ Occurs s t i := by
  constructor
  · intro h
    have hle : t.length ≤ n := by
      rw [← h, List.length_take]
      exact Nat.min_le_left _ _
    have hmod := Nat.mod_le t.length (2 ^ 32)
    exact ⟨by omega, hi, h ▸ List.take_prefix _ _⟩
  · rintro ⟨rfl, -, hpre⟩
    exact (List.prefix_iff_eq_take.mp hpre).symm

lemma toInt_of_lt {x : ℕ} (h : x < 2 ^ 31) : (BitVec.ofNat 32 x).toInt = x := toInt_ofNat_iff.mpr h

lemma toNat_of_lt {x : ℕ} (h : x < 2 ^ 31) : (BitVec.ofNat 32 x).toNat = x := by
  rw [BitVec.toNat_ofNat]
  omega

lemma asInt_of_ge {n : ℕ} (hn : n = t.length % 2 ^ 32) (h : 2 ^ 31 ≤ n) : asInt t < 0 := by
  rw [asInt, BitVec.toInt_eq_toNat_cond, BitVec.toNat_ofNat]
  split <;> omega

lemma asInt_of_lt {n : ℕ} (hn : n = t.length % 2 ^ 32) (h : n < 2 ^ 31) : asInt t = n := by
  have hmod : BitVec.ofNat 32 t.length = BitVec.ofNat 32 n :=
    BitVec.eq_of_toNat_eq (by rw [BitVec.toNat_ofNat, BitVec.toNat_ofNat]; omega)
  rw [asInt, hmod, toInt_of_lt h]

lemma loop_overflow (h : Searches mem string search s t) (k fuel : ℕ) {x : ℕ} (hs : 0 < asInt s)
    (hlow : 2 ^ 31 ≤ x) (hhigh : x < 2 ^ 32) (r : BitVec 32) :
    indexOfLoop mem string search (searchSize t) fuel k (BitVec.ofNat 32 x) ≠ some (.ok r) := by
  have hneg : (BitVec.ofNat 32 x).toInt < 0 := by
    rw [BitVec.toInt_eq_toNat_cond, BitVec.toNat_ofNat]
    split <;> omega
  intro hr
  cases fuel with
  | zero => cases hr
  | succ fuel => cases (round_fault k h (by omega) (.inl hneg)).symm.trans hr

section Multiples

variable (h : Searches mem string search s t) {n i : ℕ} (hn : n = t.length % 2 ^ 32)
  (hsize : n < 2 ^ 31) (k : ℕ)

include h hn hsize

lemma round_at (loop : ℕ → BitVec 32 → Search (BitVec 32)) (hi : i < asInt s) (hsmall : i < 2 ^ 31) :
    indexOfRound mem string search (searchSize t) loop k (BitVec.ofNat 32 i) =
      if (s.drop i).take n = t then some (.ok (BitVec.ofNat 32 i))
      else loop (k + 1) (BitVec.ofNat 32 (i + n)) := by
  have hadd : BitVec.ofNat 32 i + BitVec.ofNat 32 t.length = BitVec.ofNat 32 (i + n) := by
    apply BitVec.eq_of_toNat_eq
    rw [BitVec.toNat_add, BitVec.toNat_ofNat, BitVec.toNat_ofNat, BitVec.toNat_ofNat]
    omega
  have htake : (BitVec.ofNat 32 t.length).toNat = n := by rw [BitVec.toNat_ofNat, hn]
  have hzero : 0 ≤ asInt t := by rw [asInt_of_lt hn hsize]; omega
  rw [round_compare k h (by rw [toInt_of_lt hsmall]; exact hi) (by rw [toInt_of_lt hsmall]; omega) hzero,
    toNat_of_lt hsmall, htake, hadd]

-- the induction is on the multiples that are left, of which none matches before the last
lemma loop_found (hall : n = t.length) (d j : ℕ) (hocc : Occurs s t ((j + d) * n))
    (hmiss : ∀ l < j + d, ¬ Occurs s t (l * n)) (hin : (((j + d) * n : ℕ) : ℤ) < asInt s)
    (hsmall : (j + d) * n < 2 ^ 31) :
    indexOfLoop mem string search (searchSize t) (d + 1) k (BitVec.ofNat 32 (j * n)) =
      some (.ok (BitVec.ofNat 32 ((j + d) * n))) := by
  have hle (l : ℕ) (hl : l ≤ j + d) : l * n ≤ (j + d) * n := Nat.mul_le_mul_right n hl
  have hs := asInt_le s
  induction d generalizing j k with
  | zero =>
    rw [Nat.add_zero] at hocc hin hsmall ⊢
    have hmatch : (s.drop (j * n)).take n = t := (take_eq_iff hn (by omega)).mpr ⟨hall, hocc⟩
    exact (round_at h hn hsize k _ hin hsmall).trans (if_pos hmatch)
  | succ d ih =>
    have hj := hle j (by omega)
    have hne : ¬ (s.drop (j * n)).take n = t := fun hmatch =>
      hmiss j (by omega) ((take_eq_iff hn (by omega)).mp hmatch).2
    have hround := round_at h hn hsize k (indexOfLoop mem string search (searchSize t) (d + 1))
      (show ((j * n : ℕ) : ℤ) < asInt s by omega) (by omega)
    have hnext : j * n + n = (j + 1) * n := (Nat.succ_mul j n).symm
    have hend : j + 1 + d = j + (d + 1) := by omega
    rw [if_neg hne, hnext] at hround
    rw [← hend] at hocc hmiss hin hsmall hle ⊢
    exact hround.trans (ih (k + 1) (j + 1) hocc hmiss hin hsmall hle)

lemma loop_absent (hmiss : ∀ i, ¬ Occurs s t i) (d j : ℕ)
    (hend : asInt s ≤ ((j + d) * n : ℕ)) (hsmall : (j + d) * n < 2 ^ 31) :
    indexOfLoop mem string search (searchSize t) (d + 1) k (BitVec.ofNat 32 (j * n)) =
      some (.ok (-1)) := by
  have hj : j * n ≤ (j + d) * n := Nat.mul_le_mul_right n (by omega)
  have hs := asInt_le s
  have hstop (k : ℕ) {x : ℕ} (loop : ℕ → BitVec 32 → Search (BitVec 32)) (hx : asInt s ≤ x)
      (hlt : x < 2 ^ 31) : indexOfRound mem string search (searchSize t) loop k (BitVec.ofNat 32 x) =
        some (.ok (-1)) := round_stop k h (by rwa [toInt_of_lt hlt])
  induction d generalizing j k with
  | zero => exact hstop k _ hend hsmall
  | succ d ih =>
    by_cases hin : asInt s ≤ (j * n : ℕ)
    · exact hstop k _ hin (by omega)
    have hne : ¬ (s.drop (j * n)).take n = t := fun hmatch =>
      hmiss _ ((take_eq_iff hn (by omega)).mp hmatch).2
    have hround := round_at h hn hsize k (indexOfLoop mem string search (searchSize t) (d + 1))
      (show ((j * n : ℕ) : ℤ) < asInt s by omega) (by omega)
    have hnext : j * n + n = (j + 1) * n := (Nat.succ_mul j n).symm
    have hsum : j + 1 + d = j + (d + 1) := by omega
    rw [if_neg hne, hnext] at hround
    exact hround.trans (ih (k + 1) (j + 1) (by rwa [hsum]) (by rwa [hsum])
      (Nat.mul_le_mul_right n (by omega)))

lemma loop_result {fuel j : ℕ} {r : BitVec 32} (hsmall : j * n < 2 ^ 31)
    (hr : indexOfLoop mem string search (searchSize t) fuel k (BitVec.ofNat 32 (j * n)) =
      some (.ok r)) :
    (∃ m, r = BitVec.ofNat 32 (m * n) ∧ m * n < 2 ^ 31 ∧ ((m * n : ℕ) : ℤ) < asInt s ∧
      n = t.length ∧ Occurs s t (m * n)) ∨
    (r = -1 ∧ ∃ m, asInt s ≤ (m * n : ℕ) ∧ m * n < 2 ^ 31) := by
  induction fuel generalizing j k with
  | zero => cases hr
  | succ fuel ih =>
    by_cases hin : asInt s ≤ (j * n : ℕ)
    · have hstop : indexOfLoop mem string search (searchSize t) (fuel + 1) k (BitVec.ofNat 32 (j * n)) =
          some (.ok (-1)) := round_stop k h (by rwa [toInt_of_lt hsmall])
      obtain rfl : -1 = r := Except.ok.inj (Option.some.inj (hstop.symm.trans hr))
      exact .inr ⟨rfl, j, hin, hsmall⟩
    · have hs := asInt_le s
      have hround := round_at h hn hsize k (indexOfLoop mem string search (searchSize t) fuel)
        (show ((j * n : ℕ) : ℤ) < asInt s by omega) hsmall
      have hrun := hround.symm.trans hr
      split_ifs at hrun with hmatch
      · obtain rfl : BitVec.ofNat 32 (j * n) = r := Except.ok.inj (Option.some.inj hrun)
        obtain ⟨hall, hocc⟩ := (take_eq_iff hn (by omega)).mp hmatch
        exact .inl ⟨j, rfl, hsmall, by omega, hall, hocc⟩
      · have hnext : j * n + n = (j + 1) * n := (Nat.succ_mul j n).symm
        rw [hnext] at hrun
        by_cases hfits : (j + 1) * n < 2 ^ 31
        · exact ih (k + 1) hfits hrun
        · exact (loop_overflow h (k + 1) fuel (by omega) (by omega) (by omega) r hrun).elim

end Multiples

end Walk

def IsIndex (s t : List Byte) (r : ℤ) : Prop :=
  (∃ i : ℕ, IsLeast {i | Occurs s t i} i ∧ r = i) ∨ ((∀ i, ¬ Occurs s t i) ∧ r = -1)

/-- What steps as long as the search string find: its first occurrence at a multiple of its length,
or the end of the string before the index overflows. -/
def Stepped (s t : List Byte) : Prop :=
  (∃ i : ℕ, IsLeast {i | Occurs s t i} i ∧ t.length < 2 ^ 31 ∧ t.length ∣ i ∧ i < asInt s) ∨
    ((∀ i, ¬ Occurs s t i) ∧ (asInt s ≤ 0 ∨
      0 < asInt t ∧ ∃ m : ℕ, asInt s ≤ m * asInt t ∧ m * asInt t < 2 ^ 31))

section Result

variable {mem : ℕ → Chunk} {string search : BijouString} {s t : List Byte}

lemma IsIndex.absent {r : BitVec 32} (h : IsIndex s t r.toInt) (hr : r = -1) : ∀ i, ¬ Occurs s t i := by
  rcases h with ⟨i, -, hi⟩ | ⟨hnone, -⟩
  · rw [hr] at hi
    have hneg : (-1 : BitVec 32).toInt = -1 := by decide
    omega
  · exact hnone

lemma stepped_of_result (h : Searches mem string search s t) {fuel : ℕ} {r : BitVec 32}
    (hr : indexOfLoop mem string search (searchSize t) fuel 0 0 = some (.ok r))
    (hindex : IsIndex s t r.toInt) : Stepped s t := by
  obtain ⟨n, hn⟩ : ∃ n, n = t.length % 2 ^ 32 := ⟨_, rfl⟩
  by_cases hsize : n < 2 ^ 31
  · have hzero : BitVec.ofNat 32 (0 * n) = 0 := by simp
    rw [← hzero] at hr
    rcases loop_result h hn hsize 0 (by omega) hr with
      ⟨m, rfl, hsmall, hin, hall, hocc⟩ | ⟨hneg, m, hend, hsmall⟩
    · rw [toInt_of_lt hsmall] at hindex
      rcases hindex with ⟨i, hleast, hi⟩ | ⟨-, hi⟩
      · obtain rfl : m * n = i := by omega
        exact .inl ⟨m * n, hleast, by omega, hall ▸ Nat.dvd_mul_left n m, hin⟩
      · omega
    · refine .inr ⟨hindex.absent hneg, ?_⟩
      by_cases hs : asInt s ≤ 0
      · exact .inl hs
      · have hpos : 0 < m * n := by omega
        rw [asInt_of_lt hn hsize]
        exact .inr ⟨by have := Nat.pos_of_mul_pos_left hpos; omega, m, by exact_mod_cast hend,
          by exact_mod_cast hsmall⟩
  · have hneg := asInt_of_ge hn (not_lt.mp hsize)
    cases fuel with
    | zero => cases hr
    | succ fuel =>
      by_cases hs : asInt s ≤ 0
      · have hstop := (round_stop 0 h (i := 0) hs).symm.trans hr
        exact .inr ⟨hindex.absent (Except.ok.inj (Option.some.inj hstop)).symm, .inl hs⟩
      · cases (round_fault 0 h (i := 0) (not_le.mp hs) (.inr hneg)).symm.trans hr

lemma result_of_stepped (h : Searches mem string search s t) (hst : Stepped s t) : ∃ fuel r,
    indexOfLoop mem string search (searchSize t) fuel 0 0 = some (.ok r) ∧ IsIndex s t r.toInt := by
  obtain ⟨n, hn⟩ : ∃ n, n = t.length % 2 ^ 32 := ⟨_, rfl⟩
  have hs := asInt_lt s
  have hzero : BitVec.ofNat 32 (0 * n) = 0 := by simp
  rcases hst with ⟨i, hleast, hlen, hdvd, hin⟩ | ⟨hnone, hs | ⟨hpos, m, hend, hsmall⟩⟩
  · have hall : n = t.length := by omega
    have hmul : (0 + i / n) * n = i := by rw [Nat.zero_add, Nat.div_mul_cancel (hall ▸ hdvd)]
    have hmiss : ∀ l < 0 + i / n, ¬ Occurs s t (l * n) := by
      intro l hl hocc
      have hn0 : n ≠ 0 := by
        rintro h0
        simp [h0] at hl
      have hlt : l * n < (0 + i / n) * n := Nat.mul_lt_mul_of_pos_right hl (Nat.pos_of_ne_zero hn0)
      exact absurd (hleast.2 hocc) (by omega)
    have hfound := loop_found h hn (by omega) 0 hall (i / n) 0 (by rw [hmul]; exact hleast.1) hmiss
      (by rw [hmul]; exact hin) (by omega)
    rw [hzero, hmul] at hfound
    exact ⟨_, _, hfound, .inl ⟨i, hleast, toInt_of_lt (by omega)⟩⟩
  · exact ⟨1, _, round_stop 0 h (i := 0) hs, .inr ⟨hnone, by decide⟩⟩
  · have hsize : n < 2 ^ 31 := by
      by_contra hge
      have hneg := asInt_of_ge hn (not_lt.mp hge)
      omega
    rw [asInt_of_lt hn hsize] at hend hsmall
    have habsent := loop_absent h hn hsize 0 hnone m 0 (by rw [Nat.zero_add]; exact_mod_cast hend)
      (by rw [Nat.zero_add]; exact_mod_cast hsmall)
    rw [hzero] at habsent
    exact ⟨_, _, habsent, .inr ⟨hnone, by decide⟩⟩

end Result

lemma natAbs_toInt_lt (x : BitVec 32) : x.toInt.natAbs < 2 ^ 64 := by
  rw [BitVec.toInt_eq_toNat_cond]
  split <;> omega

section Function

variable (mem : ℕ → Chunk) (garbage : Value) (argv : ℕ → TValue)

def FindsFirst : Prop := ∃ (fuel : ℕ) (index : BitVec 32), funcIndexOf mem garbage argv fuel =
    some (.ok (createNumber garbage (.ofInt index.toInt))) ∧
  IsIndex (argv 0).value.s.chars (argv 1).value.s.chars index.toInt

variable {mem garbage argv} (hstring : (argv 0).tt = .string) (hsearch : (argv 1).tt = .string)

include hstring hsearch

lemma funcIndexOf_eq (fuel : ℕ) : funcIndexOf mem garbage argv fuel = (do
    let size ← orFault (argv 1).value.s.length
    let index ← indexOfLoop mem (argv 0).value.s (argv 1).value.s (size.signExtend 64) fuel 0 0
    return createNumber garbage (.ofInt index.toInt) : Search TValue) := by
  rw [funcIndexOf, shouldBe, shouldBe, if_pos hstring, if_pos hsearch]
  rfl

lemma funcIndexOf_result (hlive : (argv 1).value.s.Live) (fuel : ℕ) (index : BitVec 32) :
    funcIndexOf mem garbage argv fuel = some (.ok (createNumber garbage (.ofInt index.toInt))) ↔
      indexOfLoop mem (argv 0).value.s (argv 1).value.s
        (searchSize (argv 1).value.s.ptr.text.chars) fuel 0 0 = some (.ok index) := by
  rw [funcIndexOf_eq hstring hsearch, length_eq hlive]
  change (indexOfLoop mem (argv 0).value.s (argv 1).value.s (searchSize (argv 1).value.s.ptr.text.chars)
    fuel 0 0 >>= fun index => pure (createNumber garbage (.ofInt index.toInt)) : Search TValue) = _ ↔ _
  rcases indexOfLoop mem (argv 0).value.s (argv 1).value.s
    (searchSize (argv 1).value.s.ptr.text.chars) fuel 0 0 with _ | (e | r)
  · exact iff_of_false (by rintro ⟨⟩) (by rintro ⟨⟩)
  · exact iff_of_false (by rintro ⟨⟩) (by rintro ⟨⟩)
  · constructor
    · intro heq
      have hvalue := Except.ok.inj (Option.some.inj heq)
      have hnum : (garbage.setNum (.ofInt r.toInt)).n = (garbage.setNum (.ofInt index.toInt)).n :=
        congrArg (fun v : TValue => v.value.n) hvalue
      rw [Value.setNum_n, Value.setNum_n] at hnum
      have hint := ofInt_inj (natAbs_toInt_lt r) (natAbs_toInt_lt index) hnum
      rw [BitVec.eq_of_toInt_eq hint]
    · intro heq
      obtain rfl := Except.ok.inj (Option.some.inj heq)
      rfl

variable (hlen : (argv 1).value.s.len = BitVec.ofNat 64 (argv 1).value.s.chars.length)
  (hexact : ExactSlices mem)

include hlen hexact

omit hstring hsearch in
lemma searches_of_live (hlive : (argv 0).value.s.Live) (hlive' : (argv 1).value.s.Live) :
    Searches mem (argv 0).value.s (argv 1).value.s (argv 0).value.s.chars (argv 1).value.s.chars where
  live := hlive
  searchLive := hlive'
  chars := (if_neg hlive).symm
  searched := (if_neg hlive').symm
  len := by
    have hchars : (argv 1).value.s.chars = (argv 1).value.s.ptr.text.chars := if_neg hlive'
    rw [hlen, hchars]
    rfl
  exact := hexact

lemma FindsFirst.stepped (h : FindsFirst mem garbage argv) : (argv 0).value.s.Live ∧
    (argv 1).value.s.Live ∧ Stepped (argv 0).value.s.chars (argv 1).value.s.chars := by
  obtain ⟨fuel, r, hr, hindex⟩ := h
  have hlive : (argv 1).value.s.Live := by
    intro hnull
    have hnone : (argv 1).value.s.length = none := if_pos hnull
    rw [funcIndexOf_eq hstring hsearch, hnone] at hr
    cases hr
  rw [funcIndexOf_result hstring hsearch hlive] at hr
  have hlive' : (argv 0).value.s.Live := by
    intro hnull
    cases fuel with
    | zero => cases hr
    | succ fuel =>
      have hnone : (argv 0).value.s.length = none := if_pos hnull
      rw [indexOfLoop, indexOfRound, hnone] at hr
      cases hr
  have hs := searches_of_live hlen hexact hlive' hlive
  rw [hs.searched] at hr
  exact ⟨hlive', hlive, stepped_of_result hs hr hindex⟩

theorem findsFirst_iff : FindsFirst mem garbage argv ↔ (argv 0).value.s.Live ∧ (argv 1).value.s.Live ∧
    Stepped (argv 0).value.s.chars (argv 1).value.s.chars := by
  refine ⟨FindsFirst.stepped hstring hsearch hlen hexact, ?_⟩
  rintro ⟨hlive, hlive', hst⟩
  have hs := searches_of_live hlen hexact hlive hlive'
  obtain ⟨fuel, r, hr, hindex⟩ := result_of_stepped hs hst
  rw [← hs.searched] at hr
  exact ⟨fuel, r, (funcIndexOf_result hstring hsearch hlive' fuel r).mpr hr, hindex⟩

end Function

lemma exactSlices_zero : ExactSlices (fun _ => chunk []) := by
  intro k str first length r hr
  have hnul : 0 ∉ str.ptr.text.chars.drop first.toNat := fun h =>
    str.ptr.text.property (List.mem_of_mem_drop h)
  rw [chars_of_substr hr, cstr_strncpy hnul]
  split_ifs with hle
  · simp [chunk, cstr]
  · exact (List.take_of_length_le (by omega)).symm

def literal (s : String) : TValue := createString (.new (.to (CStr.at (bytes s))))

def arguments (v w : TValue) (i : ℕ) : TValue := if i = 0 then v else w

theorem findsFirst_hello :
    let argv := arguments (literal "Hello, ") (literal "ll")
    FindsFirst (fun _ => chunk []) ⟨0, 0, .empty⟩ argv ↔ (argv 0).value.s.Live ∧ (argv 1).value.s.Live ∧
      Stepped (argv 0).value.s.chars (argv 1).value.s.chars :=
  findsFirst_iff rfl rfl (by decide) exactSlices_zero

theorem skipped_occurrence :
    let argv := arguments (literal "abc") (literal "bc")
    funcIndexOf (fun _ => chunk []) ⟨0, 0, .empty⟩ argv 3 =
        some (.ok (createNumber ⟨0, 0, .empty⟩ (.ofInt (-1)))) ∧
      Occurs (bytes "abc") (bytes "bc") 1 ∧ ¬ FindsFirst (fun _ => chunk []) ⟨0, 0, .empty⟩ argv := by
  intro argv
  have hocc : Occurs (bytes "abc") (bytes "bc") 1 := ⟨by decide, by decide⟩
  refine ⟨by decide +kernel, hocc, fun h => ?_⟩
  obtain ⟨-, -, ⟨i, hleast, -, hdvd, -⟩ | ⟨hnone, -⟩⟩ := h.stepped rfl rfl (by decide) exactSlices_zero
  · have hle : i ≤ 1 := hleast.2 hocc
    have htwo : (2 : ℕ) ∣ i := hdvd
    obtain rfl : i = 0 := by omega
    exact absurd hleast.1.2 (by decide)
  · exact hnone 1 hocc

end Bijou
