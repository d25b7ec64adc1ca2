import Bijou.Load

namespace Bijou

open CString Incremental

variable (reader : ℕ → BitVec 32) (mem : LoadMemory)

lemma loadBlock_rule {P : ∀ α : Type, Load α → List Byte → Prop} (hP : Compositional P)
    (htake : ∀ n s, P _ (take () n) s) (n : ℕ) (s : List Byte) : P _ (loadBlock reader n) s := by
  apply hP.bind (htake n s)
  intro b r _
  split
  · exact hP.fail _ _
  · exact hP.pure _ _

lemma loadBlock_done {n : ℕ} {s b r : List Byte} (h : loadBlock reader n s = .done b r) :
    s = b ++ r ∧ b.length = n := by
  obtain ⟨b', m, ht, hb⟩ := bind_eq_done.mp h
  split_ifs at hb with hr
  · simp at hb
  obtain ⟨rfl, rfl⟩ : b' = b ∧ m = r := by simpa using hb
  by_cases hn : n ≤ s.length
  · obtain ⟨rfl, rfl⟩ : s.take n = b' ∧ s.drop n = m := by simpa [take, hn] using ht
    exact ⟨(List.take_append_drop n s).symm, List.length_take_of_le hn⟩
  · simp [take, hn] at ht

section Rules

variable {P : ∀ α : Type, Load α → List Byte → Prop} (hP : Compositional P)
  (hblock : ∀ n s, P _ (loadBlock reader n) s)

include hP hblock

lemma loadChar_rule (s : List Byte) : P _ (loadChar reader) s :=
  hP.bind (hblock 1 s) (fun _ r _ => hP.pure _ r)

lemma loadInt_rule (s : List Byte) : P _ (loadInt reader) s := by
  apply hP.bind (hblock 4 s)
  intro b r _
  dsimp only
  split
  · exact hP.fail _ _
  · exact hP.pure _ _

lemma loadNumber_rule (s : List Byte) : P _ (loadNumber reader) s :=
  hP.bind (hblock 16 s) (fun _ r _ => hP.pure _ r)

lemma loadString_rule (path : Path) (slot : Slot) (s : List Byte) :
    P _ (loadString reader mem path slot) s := by
  apply hP.bind (hblock 8 s)
  intro b r _
  dsimp only
  split
  · exact hP.pure _ _
  · exact hP.bind (hblock _ r) (fun _ m _ => hP.pure _ m)

lemma loadCode_rule (s : List Byte) : P _ (loadCode reader) s := by
  apply hP.bind (loadInt_rule reader hP hblock s)
  intro n r _
  exact hP.bind (hblock _ r) (fun _ m _ => hP.pure _ m)

lemma loadConstant_rule (path : Path) (i : ℕ) (s : List Byte) :
    P _ (loadConstant reader mem path i) s := by
  apply hP.bind (loadChar_rule reader hP hblock s)
  intro type r _
  dsimp only
  split
  · exact hP.pure _ _
  · exact hP.bind (loadNumber_rule reader hP hblock r) (fun _ m _ => hP.pure _ m)
  · exact hP.bind (loadChar_rule reader hP hblock r) (fun _ m _ => hP.pure _ m)
  · exact hP.bind (loadString_rule reader mem hP hblock path _ r) (fun _ m _ => hP.pure _ m)
  · exact hP.pure _ _
  · exact hP.fail _ _

end Rules

lemma loadBlock_shrinks (n : ℕ) (s : List Byte) : Shrinks (loadBlock reader n) s :=
  loadBlock_rule reader shrinks_compositional (take_shrinks _) n s

lemma loadConstant_shrinks (path : Path) (i : ℕ) (s : List Byte) :
    Shrinks (loadConstant reader mem path i) s :=
  loadConstant_rule reader mem shrinks_compositional (loadBlock_shrinks reader) path i s

def loadFields (path : Path) : Load (List Proto → Proto) := do
  let source ← loadString reader mem path .source
  let name ← loadString reader mem path .name
  let linedefined ← loadInt reader
  let lastlinedefined ← loadInt reader
  let maxregisters ← loadChar reader
  let numglobal ← loadChar reader
  let numupval ← loadChar reader
  let numparam ← loadChar reader
  let code ← loadCode reader
  let sizek ← loadInt reader
  let k ← forN (loadConstant reader mem path) 0 sizek.toNat
  return fun p => ⟨.new source, .new name, linedefined, lastlinedefined, maxregisters, numglobal,
    numupval, numparam, k, code, p⟩

lemma loadFunctionRound_eq (loop : Path → Load Proto) (path : Path) :
    loadFunctionRound reader mem loop path = (do
      let f ← loadFields reader mem path
      let sizep ← loadInt reader
      let p ← forN (fun i => loop (i :: path)) 0 sizep.toNat
      return f p) := by
  simp only [loadFunctionRound, loadFields, bind_assoc, pure_bind]

section Rounds

variable {P : ∀ α : Type, Load α → List Byte → Prop} (hP : Compositional P)
  (hblock : ∀ n s, P _ (loadBlock reader n) s)

include hP hblock

lemma loadFields_rule (path : Path) (s : List Byte) : P _ (loadFields reader mem path) s := by
  apply hP.bind (loadString_rule reader mem hP hblock path _ s)
  intro _ s _
  apply hP.bind (loadString_rule reader mem hP hblock path _ s)
  intro _ s _
  apply hP.bind (loadInt_rule reader hP hblock s)
  intro _ s _
  apply hP.bind (loadInt_rule reader hP hblock s)
  intro _ s _
  apply hP.bind (loadChar_rule reader hP hblock s)
  intro _ s _
  apply hP.bind (loadChar_rule reader hP hblock s)
  intro _ s _
  apply hP.bind (loadChar_rule reader hP hblock s)
  intro _ s _
  apply hP.bind (loadChar_rule reader hP hblock s)
  intro _ s _
  apply hP.bind (loadCode_rule reader hP hblock s)
  intro _ s _
  apply hP.bind (loadInt_rule reader hP hblock s)
  intro _ s _
  apply hP.bind (forN_property hP _ _ _
    (fun _ r _ => loadConstant_rule reader mem hP hblock path _ r)
    (fun _ => loadConstant_shrinks reader mem path _))
  intro _ s _
  exact hP.pure _ _

end Rounds

lemma loadFields_shrinks (path : Path) (s : List Byte) : Shrinks (loadFields reader mem path) s :=
  loadFields_rule reader mem shrinks_compositional (loadBlock_shrinks reader) path s

lemma loadInt_eats (s : List Byte) : Eats (loadInt reader) s := by
  apply Eats.bind_left
  · intro b r h
    obtain ⟨rfl, hlen⟩ := loadBlock_done reader h
    simp [hlen]
  · intro b r _
    dsimp only
    split
    · exact shrinks_compositional.fail _ _
    · exact shrinks_compositional.pure _ _

section Rounds

variable {P : ∀ α : Type, Load α → List Byte → Prop} (hP : Compositional P)
  (hblock : ∀ n s, P _ (loadBlock reader n) s)

include hP hblock

lemma loadFunctionRound_rule {loop : Path → Load Proto} (hshrinks : ∀ path s, Shrinks (loop path) s)
    (path : Path) (s : List Byte)
    (hloop : ∀ path' s', s'.length < s.length → P _ (loop path') s') :
    P _ (loadFunctionRound reader mem loop path) s := by
  rw [loadFunctionRound_eq]
  apply hP.bind (loadFields_rule reader mem hP hblock path s)
  intro f r hf
  have hle := (loadFields_shrinks reader mem path s).length_le hf
  apply hP.bind (loadInt_rule reader hP hblock r)
  intro sizep m hm
  have hlt := loadInt_eats reader r _ _ hm
  apply hP.bind (forN_property hP _ _ _ ?_ (fun _ => hshrinks _))
  · intro _ m' _
    exact hP.pure _ _
  · intro j m' hm'
    have := hm'.length_le
    exact hloop _ m' (by omega)

end Rounds

lemma loadFunctionRound_guarded : Guarded (loadFunctionRound reader mem) where
  shrinks f hf path s := loadFunctionRound_rule reader mem shrinks_compositional
    (loadBlock_shrinks reader) hf path s (fun path' s' _ => hf path' s')
  congr f g path s hf hfg := by
    rw [loadFunctionRound_eq, loadFunctionRound_eq]
    apply bind_apply_congr rfl
    intro fields r hr
    have hle := (loadFields_shrinks reader mem path s).length_le hr
    apply bind_apply_congr rfl
    intro sizep m hm
    have hlt := loadInt_eats reader r _ _ hm
    apply bind_apply_congr
    · exact forN_congr _ _ _ (fun _ => hf _) (fun i m' hm' => hfg _ m' (by have := hm'.length_le; omega))
    · exact fun _ _ _ => rfl

lemma loadFunction_eq (path : Path) : loadFunction reader mem path =
    loadFunctionRound reader mem (loadFunction reader mem) path :=
  (loadFunctionRound_guarded reader mem).fix_eq path

lemma loadFunction_shrinks (path : Path) (s : List Byte) :
    Shrinks (loadFunction reader mem path) s :=
  (loadFunctionRound_guarded reader mem).fix_shrinks path s

section Rounds

variable {P : ∀ α : Type, Load α → List Byte → Prop} (hP : Compositional P)
  (hblock : ∀ n s, P _ (loadBlock reader n) s)

include hP hblock

theorem bijouLoad_rule (s : List Byte) : P _ (bijouLoad reader mem) s := by
  refine hP.bind (hP.bind (hblock 6 s) (fun b r _ => ?_)) (fun u r _ => ?_)
  · split
    · exact hP.pure _ _
    · exact hP.fail _ _
  · apply (loadFunctionRound_guarded reader mem).fix_property
    intro path s hloop
    exact loadFunctionRound_rule reader mem hP hblock (loadFunction_shrinks reader mem) path s hloop

end Rounds

end Bijou
