import Bijou.Reload

namespace Bijou

open CString Incremental LittleEndian

variable {c d : Byte} {s : List Byte} {i : ℕ}

structure BijouString.Placed (s : BijouString) : Prop where
  len : s.len.toNat = s.chars.length
  inside : s.ptr.addr.toNat + s.chars.length < 2 ^ 64

lemma BijouString.Placed.sound {s : BijouString} (h : s.Placed) : s.Sound := by
  refine ⟨h.len, ?_⟩
  have hinside := h.inside
  by_cases haddr : s.ptr.addr = 0
  · have hnil : s.chars = [] := if_pos haddr
    rw [hnil]
    decide
  · have hpos : s.ptr.addr.toNat ≠ 0 := fun h0 => haddr (BitVec.eq_of_toNat_eq h0)
    omega

end Bijou
