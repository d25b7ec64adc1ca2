import Bijou.Library.Buffer
import Bijou.Library.CString

namespace TextMemory

open CString

variable {m m' m'' : List Byte} {a i : ℕ}

def textAt (m : List Byte) (a : ℕ) : List Byte := cstr (m.drop a)

lemma zero_notMem_textAt (m : List Byte) (a : ℕ) : 0 ∉ textAt m a := by
  intro h
  have := List.mem_takeWhile_imp h
  simp at this

lemma getD_textAt (h : i < (textAt m a).length) : m.getD (a + i) 0 = (textAt m a)[i] := by
  have hstart : textAt m a <+: m.drop a := List.takeWhile_prefix _
  have hlt : i < (m.drop a).length := h.trans_le hstart.length_le
  rw [List.getD_eq_getElem?_getD, ← List.getElem?_drop, List.getElem?_eq_getElem hlt, Option.getD_some]
  exact (hstart.getElem h).symm

lemma length_textAt_le (h : m.getD (a + i) 0 = 0) : (textAt m a).length ≤ i := by
  by_contra hlt
  rw [getD_textAt (not_le.mp hlt)] at h
  exact zero_notMem_textAt m a (h ▸ List.getElem_mem _)

lemma getD_textAt_end (m : List Byte) (a : ℕ) : m.getD (a + (textAt m a).length) 0 = 0 := by
  rw [List.getD_eq_getElem?_getD, ← List.getElem?_drop]
  have hsplit : textAt m a ++ (m.drop a).dropWhile (· != 0) = m.drop a := List.takeWhile_append_dropWhile
  rw [← hsplit, List.getElem?_append_right le_rfl, Nat.sub_self]
  cases hrest : (m.drop a).dropWhile (· != 0) with
  | nil => rfl
  | cons c l =>
    have hc := List.head_dropWhile_not (· != 0) (l := m.drop a) (by rw [hrest]; exact List.cons_ne_nil _ _)
    simpa [hrest] using hc

def KeepsNul (m m' : List Byte) : Prop := ∀ x, m.getD x 0 = 0 → m'.getD x 0 = 0

def Cut (a : ℕ) (m m' : List Byte) : Prop := ∃ i < (textAt m a).length, m'.getD (a + i) 0 = 0

lemma KeepsNul.refl (m : List Byte) : KeepsNul m m := fun _ h => h

lemma KeepsNul.trans (h : KeepsNul m m') (h' : KeepsNul m' m'') : KeepsNul m m'' :=
  fun x hx => h' x (h x hx)

lemma KeepsNul.length_le (h : KeepsNul m m') (a : ℕ) : (textAt m' a).length ≤ (textAt m a).length :=
  length_textAt_le (h _ (getD_textAt_end m a))

lemma Cut.length_lt (h : Cut a m m') : (textAt m' a).length < (textAt m a).length := by
  obtain ⟨i, hi, hnul⟩ := h
  exact (length_textAt_le hnul).trans_lt hi

lemma Cut.before (h : KeepsNul m m') (h' : Cut a m' m'') : Cut a m m'' := by
  obtain ⟨i, hi, hnul⟩ := h'
  exact ⟨i, hi.trans_le (h.length_le a), hnul⟩

lemma Cut.after (h : Cut a m m') (h' : KeepsNul m' m'') : Cut a m m'' := by
  obtain ⟨i, hi, hnul⟩ := h
  exact ⟨i, hi, h' _ hnul⟩

section Shift

variable {u w : List Byte} {c d e : Byte}

def shift (a : ℕ) (u w : List Byte) (e : Byte) (m : List Byte) : List Byte :=
  splice (a + u.length) (e :: w ++ [0]) m

lemma shift_keepsNul (h : textAt m a = u ++ c :: d :: w) : KeepsNul m (shift a u w e m) := by
  intro x hx
  have hget := splice_getD (a + u.length) (e :: w ++ [0]) m x
  change (splice (a + u.length) (e :: w ++ [0]) m).getD x default = 0
  rw [hget]
  split_ifs with hlow hhigh
  · exact hx
  · obtain ⟨i, rfl⟩ : ∃ i, x = a + i := ⟨x - a, by omega⟩
    have hle := length_textAt_le hx
    rw [h] at hle
    simp only [List.length_append, List.length_cons, List.length_nil] at hle hhigh
    omega
  · exact hx

lemma shift_cut (h : textAt m a = u ++ c :: d :: w) : Cut a m (shift a u w e m) := by
  refine ⟨u.length + w.length + 1, ?_, ?_⟩
  · rw [h]
    simp only [List.length_append, List.length_cons]
    omega
  · have hget := splice_getD (a + u.length) (e :: w ++ [0]) m (a + (u.length + w.length + 1))
    change (splice (a + u.length) (e :: w ++ [0]) m).getD _ default = 0
    have hindex : a + (u.length + w.length + 1) - (a + u.length) = (e :: w).length := by
      rw [List.length_cons]
      omega
    rw [hget, if_neg (by omega), if_pos (by simp; omega), hindex]
    simp

end Shift

end TextMemory
