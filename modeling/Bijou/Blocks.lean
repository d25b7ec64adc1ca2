import Bijou.Library.Pool
import Bijou.Opcodes
import Bijou.Values

/-! The blocks of block.c. What malloc and the stack hold before they are written is taken from a
`Memory`, looked up by the path of the function in the block tree. -/

namespace Bijou

open CString

structure Block where
  k : List TValue
  locals : List TValue
  upvals : List TValue
  code : List Inst
  regc : Byte
  numglobal : Byte
  argc : Byte
  linedefined : BitVec 32
  lastlinedefined : BitVec 32
  filename : CharPtr
  funcname : CharPtr
  numchildren : Byte
  children : List Block

/-- The fields that `BijouBlock_new` leaves as malloc returns them. -/
structure Fresh where
  numglobal : Byte
  argc : Byte
  linedefined : BitVec 32
  lastlinedefined : BitVec 32
  deriving Inhabited

abbrev Path := List ℕ

structure Memory where
  block : Path → Fresh
  temp : Path → Value
  line : Path → List Byte
  addr : Path → {a : BitVec 64 // a ≠ 0}

instance : Inhabited Memory :=
  ⟨⟨fun _ => default, fun _ => ⟨0, 0, .empty⟩, fun _ => [], fun _ => ⟨1, by decide⟩⟩⟩

namespace Block

def new (mem : Fresh) : Block where
  k := []
  locals := []
  upvals := []
  code := []
  regc := 0
  numglobal := mem.numglobal
  argc := mem.argc
  linedefined := mem.linedefined
  lastlinedefined := mem.lastlinedefined
  filename := .to .empty
  funcname := .to .empty
  numchildren := 0
  children := []

def pushConst (b : Block) (v : TValue) : Option (ℤ × Block) := do
  if ← b.k.anyM (fun u => u.equal v) then
    return (-1, b)
  else
    return ((b.k.length : ℤ), { b with k := b.k ++ [v] })

def pushLocal (b : Block) (v : TValue) : Option (ℤ × Block) := do
  if ← b.locals.anyM (fun u => u.equal v) then
    return (-1, b)
  else
    return ((b.locals.length : ℤ), { b with locals := b.locals ++ [v] })

def findIn (l : List TValue) (v : TValue) : Option ℤ :=
  (Pool.search v.equal l).map (fun i => (i.map Int.ofNat).getD (-1))

def findConst (b : Block) (v : TValue) : Option ℤ := findIn b.k v

def findLocal (b : Block) (v : TValue) : Option ℤ := findIn b.locals v

def pushInstruction (b : Block) (inst : Inst) : Block := { b with code := b.code ++ [inst] }

-- the pointers as a list; whether realloc leaves room for them is checked by `Buffered.pushChild`
def pushChild (b child : Block) : Block :=
  let index := b.numchildren.toNat
  { b with
    numchildren := b.numchildren + 1
    children := b.children.take index ++ child :: b.children.drop (index + 1) }

def functions (b : Block) : List Block := b.children.take b.numchildren.toNat

end Block

def BijouString.Live (s : BijouString) : Prop := s.ptr.addr ≠ 0

def TValue.Live (v : TValue) : Prop := v.tt = .string → v.value.s.Live

lemma BijouString.equal_live {one two : BijouString} (h : one.Live) (h' : two.Live) :
    one.equal two = some (decide (one.len = two.len ∧ one.ptr.text = two.ptr.text)) := by
  by_cases hl : one.len = two.len
  · rw [equal, if_pos hl, if_neg (not_or.mpr ⟨h, h'⟩)]
    simp [hl]
  · simp [equal, hl]

lemma TValue.equal_live {u v : TValue} (h : u.Live) (h' : v.Live) : u.equal v = some (u.same v) := by
  have hs : ∃ r, u.equal v = some r := by
    unfold TValue.equal
    by_cases ht : u.tt = v.tt
    · rw [if_pos ht]
      cases htt : u.tt with
      | string => exact ⟨_, BijouString.equal_live (h htt) (h' (ht ▸ htt))⟩
      | _ => exact ⟨_, rfl⟩
    · exact ⟨false, if_neg ht⟩
  obtain ⟨r, hr⟩ := hs
  simp [TValue.same, hr]

lemma anyM_equal {k : List TValue} {v : TValue} (h : ∀ u ∈ k, u.equal v = some (u.same v)) :
    k.anyM (fun u => u.equal v) = some (k.any (fun u => u.same v)) := by
  induction k with
  | nil => rfl
  | cons u k ih =>
    have hu := h u (by simp)
    have hr := ih (fun w hw => h w (by simp [hw]))
    cases hs : u.same v <;> simp [List.anyM, hu, hs, hr]

lemma Block.pushConst_comparable {b : Block} {v : TValue}
    (h : ∀ u ∈ b.k, u.equal v = some (u.same v)) :
    ∃ i, b.pushConst v = some (i, { b with k := Pool.push TValue.same b.k v }) := by
  by_cases hany : b.k.any (fun u => u.same v) = true
  · refine ⟨-1, ?_⟩
    cases b
    simp_all [pushConst, anyM_equal h, Pool.push]
  · exact ⟨b.k.length, by simp [pushConst, anyM_equal h, hany, Pool.push]⟩

lemma Block.pushConst_live {b : Block} {v : TValue} (hb : ∀ u ∈ b.k, u.Live) (hv : v.Live) :
    ∃ i, b.pushConst v = some (i, { b with k := Pool.push TValue.same b.k v }) :=
  pushConst_comparable (fun u hu => TValue.equal_live (hb u hu) hv)

end Bijou
