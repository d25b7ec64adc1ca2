import Mathlib.Data.List.GetD

variable {α : Type} [Inhabited α]

def splice (off : ℕ) (l m : List α) : List α :=
  (m ++ List.replicate (off - m.length) default).take off ++ l ++ m.drop (off + l.length)

lemma splice_append (a l m : List α) : splice a.length l (a ++ m) = a ++ l ++ m.drop l.length := by
  have hpad : a.length - (a ++ m).length = 0 := by rw [List.length_append]; omega
  rw [splice, hpad, List.replicate_zero, List.append_nil, List.take_left, List.drop_append]
  simp

lemma splice_zero (l m : List α) : splice 0 l m = l ++ m.drop l.length := splice_append [] l m

lemma splice_getD (off : ℕ) (l m : List α) (i : ℕ) : (splice off l m).getD i default =
    if i < off then m.getD i default else if i < off + l.length then l.getD (i - off) default
    else m.getD i default := by
  have hhead : ((m ++ List.replicate (off - m.length) default).take off).length = off := by
    rw [List.length_take, List.length_append, List.length_replicate]
    omega
  rw [splice, List.append_assoc]
  by_cases hlow : i < off
  · rw [if_pos hlow, List.getD_append _ _ _ _ (by rwa [hhead]), List.getD_eq_getElem?_getD,
      List.getElem?_take_of_lt hlow, ← List.getD_eq_getElem?_getD]
    by_cases hm : i < m.length
    · rw [List.getD_append _ _ _ _ hm]
    · rw [List.getD_append_right _ _ _ _ (by omega), List.getD_replicate default (by omega),
        List.getD_eq_default _ _ (by omega)]
  rw [if_neg hlow, List.getD_append_right _ _ _ _ (by rw [hhead]; omega), hhead]
  by_cases hhigh : i < off + l.length
  · rw [if_pos hhigh, List.getD_append _ _ _ _ (by omega)]
  · have hindex : off + l.length + (i - off - l.length) = i := by omega
    rw [if_neg hhigh, List.getD_append_right _ _ _ _ (by omega), List.getD_eq_getElem?_getD,
      List.getElem?_drop, hindex, ← List.getD_eq_getElem?_getD]

/-- `reach` is one more than the last place that was written. -/
structure Buffer (α : Type) where
  size : ℕ
  cells : List α
  reach : ℕ

namespace Buffer

variable (b : Buffer α) (cells l : List α) (off n : ℕ)

def malloc (n : ℕ) : Buffer α := ⟨n, cells, 0⟩

def fill : Buffer α :=
  ⟨b.size, splice off l b.cells, if l = [] then b.reach else max b.reach (off + l.length)⟩

/-- As much as both sizes hold is kept; the rest is the memory at the new place. -/
def realloc : Buffer α :=
  ⟨n, splice 0 ((List.range (min b.size n)).map (fun i => b.cells.getD i default)) cells, 0⟩

def Inside : Prop := b.reach ≤ b.size

variable {b cells l off n}

lemma realloc_getD {i : ℕ} (hold : i < b.size) (hnew : i < n) :
    (b.realloc cells n).cells.getD i default = b.cells.getD i default := by
  have hi : i < min b.size n := Nat.lt_min.mpr ⟨hold, hnew⟩
  rw [realloc, splice_getD, if_neg (Nat.not_lt_zero i), List.length_map, List.length_range, Nat.zero_add,
    if_pos hi, Nat.sub_zero, List.getD_eq_getElem?_getD, List.getElem?_map, List.getElem?_range hi]
  rfl

lemma fill_getD_one (x : α) (i : ℕ) :
    (b.fill [x] off).cells.getD i default = if i = off then x else b.cells.getD i default := by
  rw [fill, splice_getD, List.length_singleton]
  by_cases hi : i = off
  · subst hi
    rw [if_neg (Nat.lt_irrefl i), if_pos (Nat.lt_succ_self i), if_pos rfl, Nat.sub_self]
    rfl
  · rw [if_neg hi]
    by_cases hlow : i < off
    · rw [if_pos hlow]
    · rw [if_neg hlow, if_neg (by omega)]

lemma realloc_inside : (b.realloc cells n).Inside := Nat.zero_le n

lemma Inside.fill_one (h : b.Inside) (x : α) (hoff : off < b.size) : (b.fill [x] off).Inside := by
  rw [Inside, fill, if_neg (List.cons_ne_nil x [])]
  exact Nat.max_le.mpr ⟨h, hoff⟩

end Buffer

/-- How many bytes can be written to what malloc or realloc returns for so many. -/
structure Allocator where
  room : ℕ → ℕ
  enough : ∀ n, n ≤ room n

namespace Allocator

/-- Blocks that lie sixteen bytes apart, or a multiple of it, with eight bytes of bookkeeping each. -/
def chunks : Allocator where
  room n := max 24 ((n + 23) / 16 * 16 - 8)
  enough n := by omega

def Spare (a : Allocator) (n : ℕ) : Prop := n < a.room n

instance (a : Allocator) (n : ℕ) : Decidable (a.Spare n) := inferInstanceAs (Decidable (_ < _))

end Allocator
