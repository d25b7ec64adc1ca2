import Bijou.Assembled
import Bijou.RoundTrip

namespace Bijou

open CString Incremental LittleEndian

lemma functions_length_lt (b : Block) : b.functions.length < 2 ^ 8 := by
  rw [Block.functions, List.length_take]
  exact (Nat.min_le_left _ _).trans_lt b.numchildren.toNat_lt

inductive Block.Addressable : Block → Prop
  | mk {b : Block} (filename : b.filename.text.chars.length + 1 < 2 ^ 64)
      (funcname : b.funcname.text.chars.length + 1 < 2 ^ 64)
      (k : ∀ o ∈ b.k, o.tt = .string → o.value.text.chars.length + 1 < 2 ^ 64)
      (functions : ∀ c ∈ b.functions, Block.Addressable c) : Block.Addressable b

lemma toProtos_eq_map (l : List Block) : toProtos l = l.map toProto := by
  induction l with
  | nil => rfl
  | cons b l ih => rw [toProtos, ih, List.map_cons]

lemma toProto_p (b : Block) : (toProto b).p = b.functions.map toProto := by
  cases b
  rw [toProto, toProtos_eq_map, Block.functions, List.map_take]

lemma BijouString.new_sound {p : CharPtr} (hp : p.addr ≠ 0) (h : p.text.chars.length + 1 < 2 ^ 64) :
    (BijouString.new p).Sound := by
  have hchars : (BijouString.new p).chars = p.text.chars := if_neg hp
  refine ⟨?_, hchars ▸ h⟩
  rw [hchars, new, if_neg hp, strlen, BitVec.toNat_ofNat, Nat.mod_eq_of_lt (by omega)]

lemma TValue.Made.sound {o : TValue} (ho : o.Made)
    (h : o.tt = .string → o.value.text.chars.length + 1 < 2 ^ 64) (htt : o.tt = .string) :
    o.value.s.Sound := by
  rw [Made, htt] at ho
  obtain ⟨p, hp, hs⟩ := ho
  have htext : o.value.text = p.text := congrArg (fun s : BijouString => s.ptr.text) hs
  rw [hs]
  exact BijouString.new_sound hp (htext ▸ h htt)

lemma Assembled.toProto_sound {b : Block} (hb : Assembled b) (ha : b.Addressable) :
    (toProto b).Sound := by
  induction ha with
  | @mk b hfile hfunc hk _ ih =>
    obtain ⟨hfile', hfunc', hmade, -, hchildren⟩ := hb
    have hp : ∀ f ∈ (toProto b).p, f.Sound := by
      intro f hf
      rw [toProto_p] at hf
      obtain ⟨c, hc, rfl⟩ := List.mem_map.mp hf
      exact ih c hc (hchildren c (List.mem_of_mem_take hc))
    cases b
    exact .mk (BijouString.new_sound hfile' hfile) (BijouString.new_sound hfunc' hfunc)
      (fun o ho => (hmade o ho).sound (hk o ho)) hp

lemma foldl_pushInstruction (code : List Inst) (b : Block) :
    code.foldl Block.pushInstruction b = { b with code := b.code ++ code } := by
  induction code generalizing b with
  | nil => cases b; simp
  | cons i code ih =>
    rw [List.foldl_cons, ih]
    simp [Block.pushInstruction]

section Rebuild

variable (reader : ℕ → BitVec 32) (mem : LoadMemory)

def rebuild (path : Path) (b : Block) : Option Block := do
  let (_, f) ← reload reader mem path (toProto b)
  protoToBlock2 mem path f

def rebuilds (path : Path) : ℕ → List Block → Option (List Block)
  | _, [] => some []
  | i, c :: l => do
    let c ← rebuild reader mem (i :: path) c
    let l ← rebuilds path (i + 1) l
    return c :: l

lemma rebuilds_eq (path : Path) (i : ℕ) (l : List Block) :
    ((reloads reader mem path l.length i (l.map toProto)).bind fun x => protosToBlocks mem path i x.2) =
      rebuilds reader mem path i l := by
  induction l generalizing i with
  | nil => rfl
  | cons c l ih =>
    rw [List.map_cons, List.length_cons, reloads, rebuilds, ← ih, rebuild]
    cases reload reader mem (i :: path) (toProto c) with
    | none => rfl
    | some f =>
      cases reloads reader mem path l.length (i + 1) (l.map toProto) with
      | none => cases h : protoToBlock2 mem (i :: path) f.2 <;> simp [h]
      | some p => simp [protosToBlocks]

lemma rebuilds_length {path : Path} {i : ℕ} {l l' : List Block}
    (h : rebuilds reader mem path i l = some l') : l'.length = l.length := by
  induction l generalizing i l' with
  | nil =>
    obtain rfl := Option.some.inj h
    rfl
  | cons c l ih =>
    obtain ⟨c', -, h⟩ := Option.bind_eq_some_iff.mp h
    obtain ⟨l'', hl, h⟩ := Option.bind_eq_some_iff.mp h
    obtain rfl := Option.some.inj h
    rw [List.length_cons, List.length_cons, ih hl]

lemma protosToBlocks_length {path : Path} {i : ℕ} {p : List Proto} {l : List Block}
    (h : protosToBlocks mem path i p = some l) : l.length = p.length := by
  induction p generalizing i l with
  | nil =>
    obtain rfl := Option.some.inj h
    rfl
  | cons f p ih =>
    obtain ⟨c, -, h⟩ := Option.bind_eq_some_iff.mp h
    obtain ⟨l', hl, h⟩ := Option.bind_eq_some_iff.mp h
    obtain rfl := Option.some.inj h
    rw [List.length_cons, List.length_cons, ih hl]

lemma rebuild_bind (path : Path) (b : Block) : rebuild reader mem path b = (do
    let source ← reloadString reader (mem.addr path .source).val (.new b.filename)
    let name ← reloadString reader (mem.addr path .name).val (.new b.funcname)
    let line ← reloadInt b.linedefined
    let _ ← reloadInt b.lastlinedefined
    let code ← reloadCode b.code
    let sizek ← reloadInt (count b.k)
    let k ← reloadConstants reader mem path sizek.2.toNat 0 b.k
    let l ← rebuilds reader mem path 0 b.functions
    let b' ← pushConsts { Block.new (mem.block path) with
      filename := source.2
      funcname := name.2
      linedefined := line.2
      lastlinedefined := line.2
      regc := b.regc
      argc := b.argc } k.2
    return { b' with
      code := b'.code ++ code.2
      numchildren := UInt8.ofNat l.length
      children := l }) := by
  have heta : toProto b = ⟨.new b.filename, .new b.funcname, b.linedefined, b.lastlinedefined, b.regc,
      b.numglobal, UInt8.ofNat b.upvals.length, b.argc, b.k, b.code, b.functions.map toProto⟩ := by
    rw [← toProto_p b]
    cases b
    rfl
  have hlen : (b.functions.map toProto).length = b.functions.length := List.length_map _
  have hsizep : (b.functions.map toProto).length < 2 ^ 31 := by
    rw [hlen]
    exact (functions_length_lt b).trans (by norm_num)
  rw [rebuild, heta, reload]
  simp only [Option.bind_eq_bind, Option.bind_assoc]
  refine Option.bind_congr fun source _ => Option.bind_congr fun name _ =>
    Option.bind_congr fun line _ => Option.bind_congr fun _ _ => Option.bind_congr fun code _ =>
    Option.bind_congr fun sizek _ => Option.bind_congr fun k _ => ?_
  rw [reloadInt_count hsizep, Option.bind_some]
  dsimp only
  rw [count_toNat hsizep, hlen, ← rebuilds_eq, Option.bind_assoc]
  refine Option.bind_congr fun p hp => ?_
  rw [Option.pure_def, Option.bind_some]
  dsimp only
  rw [protoToBlock2]
  simp only [Option.bind_eq_bind, Option.pure_def]
  rw [Option.bind_comm]
  refine Option.bind_congr fun l hl => Option.bind_congr fun b' _ => ?_
  rw [foldl_pushInstruction, ← protosToBlocks_length mem hl]

end Rebuild

lemma pushConsts_comparable {b : Block} {k : List TValue}
    (h : (b.k ++ k).Pairwise (fun u v => u.equal v = some (u.same v))) :
    pushConsts b k = some { b with k := k.foldl (Pool.push TValue.same) b.k } := by
  induction k generalizing b with
  | nil => cases b; rfl
  | cons v k ih =>
    obtain ⟨-, -, hcross⟩ := List.pairwise_append.mp h
    obtain ⟨i, hi⟩ := Block.pushConst_comparable (fun u hu => hcross u hu v (by simp))
    rw [pushConsts, hi]
    refine ih (b := { b with k := Pool.push TValue.same b.k v }) (h.sublist ?_)
    have hsub : (Pool.push TValue.same b.k v).Sublist (b.k ++ [v]) := Pool.push_sublist v
    simpa using hsub.append_right k

end Bijou
