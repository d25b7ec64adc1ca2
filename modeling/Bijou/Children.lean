import Bijou.Library.Buffer
import Bijou.Library.LittleEndian
import Bijou.Buffers

namespace Bijou

open CString Incremental LittleEndian

structure ChildTable where
  numchildren : Byte
  children : Buffer Byte

namespace ChildTable

def new : ChildTable := ⟨0, ⟨0, [], 0⟩⟩

/-- The index that is returned, and the table; realloc is asked for `numchildren` bytes. -/
def pushChild (heap : List Byte) (block : ChildTable) (child : BitVec 64) : ℕ × ChildTable :=
  let index := block.numchildren.toNat
  let numchildren := block.numchildren + 1
  let children := block.children.realloc heap numchildren.toNat
  (index, ⟨numchildren, children.fill (toBytes 8 child.toNat) (8 * index)⟩)

def pushChildIn (a : Allocator) (heap : List Byte) (block : ChildTable) (child : BitVec 64) : ℕ × ChildTable :=
  let index := block.numchildren.toNat
  let numchildren := block.numchildren + 1
  let children := block.children.realloc heap (a.room numchildren.toNat)
  (index, ⟨numchildren, children.fill (toBytes 8 child.toNat) (8 * index)⟩)

def slot (block : ChildTable) (i : ℕ) : List Byte :=
  (List.range 8).map (fun j => block.children.cells.getD (8 * i + j) default)

lemma pushChildIn_exact : pushChildIn ⟨id, fun _ => le_rfl⟩ = pushChild := rfl

structure Shows (address : Block → BitVec 64) (table : ChildTable) (block : Block) : Prop where
  count : table.numchildren = block.numchildren
  whole : block.numchildren.toNat ≤ block.children.length
  room : 8 * table.numchildren.toNat ≤ table.children.size
  slots : ∀ i child, block.functions[i]? = some child → table.slot i = toBytes 8 (address child).toNat

end ChildTable

variable (heap : ℕ → List Byte)

def pushFrom : ℕ → ChildTable → List (BitVec 64) → ChildTable
  | _, block, [] => block
  | k, block, child :: children => pushFrom (k + 1) (block.pushChild (heap k) child).2 children

def pushAll (children : List (BitVec 64)) : ChildTable := pushFrom heap 0 .new children

def pushed (children : List (BitVec 64)) (i : ℕ) (child : BitVec 64) : ℕ × ChildTable :=
  (pushAll heap (children.take i)).pushChild (heap i) child

structure ChildLaw (children : List (BitVec 64)) : Prop where
  position : ∀ i child, children[i]? = some child → (pushed heap children i child).1 = i
  inside : ∀ i child, children[i]? = some child → (pushed heap children i child).2.children.Inside
  count : (pushAll heap children).numchildren.toNat = children.length
  blocks : ∀ i child, children[i]? = some child →
    (pushAll heap children).slot i = toBytes 8 child.toNat

variable {heap}

lemma pushFrom_append (k : ℕ) (block : ChildTable) (l m : List (BitVec 64)) :
    pushFrom heap k block (l ++ m) = pushFrom heap (k + l.length) (pushFrom heap k block l) m := by
  induction l generalizing k block with
  | nil => rfl
  | cons child l ih =>
    rw [List.cons_append, pushFrom, pushFrom, ih, List.length_cons]
    congr 1
    omega

lemma pushAll_concat (l : List (BitVec 64)) (child : BitVec 64) :
    pushAll heap (l ++ [child]) = ((pushAll heap l).pushChild (heap l.length) child).2 := by
  rw [pushAll, pushFrom_append, Nat.zero_add]
  rfl

lemma pushAll_numchildren (l : List (BitVec 64)) :
    (pushAll heap l).numchildren = UInt8.ofNat l.length := by
  induction l using List.reverseRecOn with
  | nil => rfl
  | append_singleton l child ih =>
    rw [pushAll_concat, ChildTable.pushChild, ih, List.length_append, List.length_singleton]
    exact (UInt8.ofNat_add _ _).symm

lemma pushed_index (l : List (BitVec 64)) {i : ℕ} (child : BitVec 64) (hi : i < l.length) :
    (pushed heap l i child).1 = i % 256 := by
  rw [pushed, ChildTable.pushChild, pushAll_numchildren, List.length_take, Nat.min_eq_left hi.le,
    UInt8.toNat_ofNat']

section Push

variable (block : ChildTable) (cells : List Byte) (child : BitVec 64)

lemma pushChildIn_slot (a : Allocator) :
    (block.pushChildIn a cells child).2.slot block.numchildren.toNat = toBytes 8 child.toNat := by
  have hlen : (toBytes 8 child.toNat).length = 8 := toBytes_length 8 _
  apply List.ext_getElem
  · rw [ChildTable.slot, List.length_map, List.length_range, hlen]
  · intro j hj hj'
    rw [hlen] at hj'
    simp only [ChildTable.slot, ChildTable.pushChildIn, Buffer.fill, List.getElem_map, List.getElem_range,
      splice_getD, hlen]
    rw [if_neg (by omega), if_pos (by omega), Nat.add_sub_cancel_left]
    exact List.getD_eq_getElem _ _ (by omega)

lemma pushChild_slot : (block.pushChild cells child).2.slot block.numchildren.toNat =
    toBytes 8 child.toNat := by
  rw [← ChildTable.pushChildIn_exact]
  exact pushChildIn_slot block cells child _

lemma pushChildIn_kept (a : Allocator) {i : ℕ} (hold : 8 * i + 8 ≤ block.children.size)
    (hnew : 8 * i + 8 ≤ a.room (block.numchildren + 1).toNat) (hi : i < block.numchildren.toNat) :
    (block.pushChildIn a cells child).2.slot i = block.slot i := by
  apply List.map_congr_left
  intro j hj
  have hj8 := List.mem_range.mp hj
  simp only [ChildTable.pushChildIn, Buffer.fill, splice_getD]
  rw [if_pos (by omega)]
  exact Buffer.realloc_getD (by omega) (by omega)

lemma pushChild_other {x : ℕ} (hx : (block.numchildren + 1).toNat ≤ x)
    (hout : x < 8 * block.numchildren.toNat ∨ 8 * block.numchildren.toNat + 8 ≤ x) :
    (block.pushChild cells child).2.children.cells.getD x default = cells.getD x default := by
  have hkept : (splice 0 ((List.range (min block.children.size (block.numchildren + 1).toNat)).map
      (fun i => block.children.cells.getD i default)) cells).getD x default = cells.getD x default := by
    rw [splice_getD, if_neg (by omega), List.length_map, List.length_range, if_neg (by omega)]
  simp only [ChildTable.pushChild, Buffer.fill, Buffer.realloc, splice_getD, toBytes_length, hkept]
  split_ifs <;> first | rfl | omega

end Push

lemma pushed_outside (block : ChildTable) (l : List Byte) (child : BitVec 64) :
    ¬ (block.pushChild l child).2.children.Inside := by
  intro h
  have hne : toBytes 8 child.toNat ≠ [] := by
    rw [← List.length_pos_iff, toBytes_length]
    decide
  have hreach : (block.pushChild l child).2.children.reach = 8 * block.numchildren.toNat + 8 := by
    simp only [ChildTable.pushChild, Buffer.fill, Buffer.realloc, if_neg hne, toBytes_length,
      Nat.zero_max]
  have hsize : (block.pushChild l child).2.children.size ≤ block.numchildren.toNat + 1 := by
    change (block.numchildren + 1).toNat ≤ _
    rw [UInt8.toNat_add]
    exact Nat.mod_le _ _
  rw [Buffer.Inside, hreach] at h
  omega

namespace ChildTable

variable {a : Allocator} {address : Block → BitVec 64} {table : ChildTable} {block : Block}

lemma new_shows (fresh : Fresh) : ChildTable.new.Shows address (Block.new fresh) where
  count := rfl
  whole := Nat.le_refl 0
  room := Nat.le_refl 0
  slots i child h := by cases h

lemma functions_pushChild {child child' : Block} {i : ℕ}
    (hwhole : block.numchildren.toNat ≤ block.children.length)
    (hi : (block.pushChild child).functions[i]? = some child') :
    i < block.numchildren.toNat ∧ block.functions[i]? = some child' ∨
      i = block.numchildren.toNat ∧ child' = child := by
  have hlen : (block.children.take block.numchildren.toNat).length = block.numchildren.toNat := by
    rw [List.length_take, Nat.min_eq_left hwhole]
  have hlt : i < block.numchildren.toNat + 1 := by
    have hshort := (List.getElem?_eq_some_iff.mp hi).1
    rw [Block.functions, List.length_take] at hshort
    have hstep : (block.numchildren + 1).toNat ≤ block.numchildren.toNat + 1 := by
      rw [UInt8.toNat_add]
      exact Nat.mod_le _ _
    exact lt_of_lt_of_le (lt_of_lt_of_le hshort (Nat.min_le_left _ _)) hstep
  have hat : (block.children.take block.numchildren.toNat ++
      child :: block.children.drop (block.numchildren.toNat + 1))[i]? = some child' := by
    rw [Block.functions, List.getElem?_take] at hi
    split at hi
    · exact hi
    · cases hi
  rcases Nat.lt_succ_iff_lt_or_eq.mp hlt with hbefore | rfl
  · rw [List.getElem?_append_left (by omega)] at hat
    exact .inl ⟨hbefore, hat⟩
  · rw [List.getElem?_append_right (by omega), hlen, Nat.sub_self] at hat
    exact .inr ⟨rfl, (Option.some_inj.mp hat).symm⟩

lemma Shows.push (h : table.Shows address block) {child block' : Block} {s r : List Byte}
    (hpush : Buffered.pushChild a block child s = .done block' r) (cells : List Byte) :
    (table.pushChildIn a cells (address child)).2.Shows address block' ∧
      (table.pushChildIn a cells (address child)).2.children.Inside := by
  obtain ⟨hroom, rfl⟩ : 8 * (block.numchildren.toNat + 1) ≤ a.room (block.numchildren + 1).toNat ∧
      block' = block.pushChild child := Buffered.pushChild_done a hpush
  have hcount := h.count
  have hstep : (table.numchildren + 1).toNat ≤ table.numchildren.toNat + 1 := by
    rw [UInt8.toNat_add]
    exact Nat.mod_le _ _
  rw [← hcount] at hroom
  refine ⟨⟨congrArg (· + 1) hcount, ?_, ?_, ?_⟩, ?_⟩
  · have hwhole := h.whole
    rw [hcount] at hstep
    simp only [Block.pushChild, List.length_append, List.length_take, List.length_cons]
    omega
  · change 8 * (table.numchildren + 1).toNat ≤ a.room (table.numchildren + 1).toNat
    omega
  · intro i child' hi
    rcases functions_pushChild h.whole hi with ⟨hbefore, hold⟩ | ⟨rfl, rfl⟩
    · have hsize := h.room
      rw [← hcount] at hbefore
      rw [pushChildIn_kept table cells _ a (by omega) (by omega) hbefore]
      exact h.slots i child' hold
    · rw [← hcount]
      exact pushChildIn_slot table cells _ a
  · have hne : toBytes 8 (address child).toNat ≠ [] := by
      rw [← List.length_pos_iff, toBytes_length]
      decide
    have hreach : (table.pushChildIn a cells (address child)).2.children.reach =
        8 * table.numchildren.toNat + 8 := by
      simp only [ChildTable.pushChildIn, Buffer.fill, Buffer.realloc, if_neg hne, toBytes_length,
        Nat.zero_max]
    rw [Buffer.Inside, hreach]
    exact hroom

variable (a) (address)

def pushIn (heap : ℕ → List Byte) : ℕ → ChildTable → List Block → ChildTable
  | _, table, [] => table
  | k, table, child :: children =>
    pushIn heap (k + 1) (table.pushChildIn a (heap k) (address child)).2 children

variable {a} {address}

lemma Shows.pushIn (heap : ℕ → List Byte) (children : List Block) (k : ℕ) (h : table.Shows address block)
    {block' : Block} {s r : List Byte}
    (hpush : children.foldlM (Buffered.pushChild a) block s = .done block' r) :
    (pushIn a address heap k table children).Shows address block' := by
  induction children generalizing k table block s with
  | nil =>
    cases hpush
    exact h
  | cons child children ih =>
    rw [List.foldlM_cons] at hpush
    obtain ⟨block₁, r₁, hone, hrest⟩ := bind_eq_done.mp hpush
    exact ih (k + 1) (h.push hone (heap k)).1 hrest

/-- As long as each call finds its room, the pointers in memory are those of the functions of the block
that the parser builds. -/
theorem pushIn_shows (heap : ℕ → List Byte) (children : List Block) (fresh : Fresh) {block' : Block}
    {s r : List Byte}
    (hpush : children.foldlM (Buffered.pushChild a) (Block.new fresh) s = .done block' r) :
    (ChildTable.pushIn a address heap 0 .new children).Shows address block' :=
  (new_shows fresh).pushIn heap children 0 hpush

end ChildTable

section Law

variable (children : List (BitVec 64))

lemma position_iff : (∀ i child, children[i]? = some child → (pushed heap children i child).1 = i) ↔
    children.length ≤ 256 := by
  constructor
  · intro h
    by_contra hlong
    have hget := List.getElem?_eq_getElem (show 256 < children.length by omega)
    have hwrap := h 256 _ hget
    rw [pushed_index children _ (by omega)] at hwrap
    cases hwrap
  · intro hlen i child hi
    have hlt := (List.getElem?_eq_some_iff.mp hi).1
    rw [pushed_index children child hlt]
    exact Nat.mod_eq_of_lt (by omega)

lemma count_iff : (pushAll heap children).numchildren.toNat = children.length ↔
    children.length ≤ 255 := by
  rw [pushAll_numchildren, UInt8.toNat_ofNat']
  omega

lemma blocks_iff : (∀ heap i child, children[i]? = some child →
    (pushAll heap children).slot i = toBytes 8 child.toNat) ↔ children.length ≤ 1 := by
  constructor
  · intro h
    by_contra hlong
    obtain ⟨m, c, rfl⟩ := (List.eq_nil_or_concat' children).resolve_left (by rintro rfl; simp at hlong)
    obtain ⟨l, d, rfl⟩ := (List.eq_nil_or_concat' m).resolve_left (by rintro rfl; simp at hlong)
    obtain ⟨w, hw⟩ : ∃ w, (toBytes 8 d.toNat).getD 7 default = w := ⟨_, rfl⟩
    obtain ⟨cells, hcells⟩ : ∃ cells, cells = List.replicate (8 * l.length + 8) (w + 1) := ⟨_, rfl⟩
    have hnum : (pushAll (fun _ => cells) (l ++ [d])).numchildren = UInt8.ofNat (l.length + 1) := by
      rw [pushAll_numchildren, List.length_append, List.length_singleton]
    have hone : UInt8.toNat 1 = 1 := rfl
    have hcell := pushChild_other (pushAll (fun _ => cells) (l ++ [d])) cells c
      (show _ ≤ 8 * l.length + 7 by rw [hnum, UInt8.toNat_add, UInt8.toNat_ofNat', hone]; omega)
      (by rw [hnum, UInt8.toNat_ofNat']; omega)
    have hslot := h (fun _ => cells) l.length d (by simp)
    rw [pushAll_concat] at hslot
    have hbyte : cells.getD (8 * l.length + 7) default = w :=
      hcell.symm.trans ((congrArg (fun s => s.getD 7 default) hslot).trans hw)
    rw [hcells, List.getD_replicate (w + 1) (by omega)] at hbyte
    have hnat := congrArg UInt8.toNat hbyte
    have hlt := w.toNat_lt
    rw [UInt8.toNat_add, hone] at hnat
    omega
  · intro hlen heap i child hi
    have hlt := (List.getElem?_eq_some_iff.mp hi).1
    obtain rfl : i = 0 := by omega
    obtain rfl : children = [child] := by
      cases children with
      | nil => cases hi
      | cons c l =>
        obtain rfl : c = child := Option.some.inj hi
        rw [List.length_cons] at hlen
        obtain rfl : l = [] := List.eq_nil_of_length_eq_zero (by omega)
        rfl
    have hall : pushAll heap [child] = (ChildTable.new.pushChild (heap 0) child).2 := rfl
    rw [hall]
    exact pushChild_slot .new (heap 0) child

theorem childLaw_iff (heap : ℕ → List Byte) : ChildLaw heap children ↔ children = [] := by
  constructor
  · intro h
    cases children with
    | nil => rfl
    | cons child l => exact (pushed_outside _ _ _ (h.inside 0 child rfl)).elim
  · rintro rfl
    exact ⟨by simp, by simp, rfl, by simp⟩

end Law

theorem first_child_outside :
    let table := (pushed (fun _ => []) [1] 0 1).2
    table.children.size = 1 ∧ table.children.reach = 8 ∧
      ¬ ∀ (heap : ℕ → List Byte) (children : List (BitVec 64)), ChildLaw heap children :=
  ⟨rfl, rfl, fun h => pushed_outside _ _ _ ((h (fun _ => []) [1]).inside 0 1 rfl)⟩

end Bijou
