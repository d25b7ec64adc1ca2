import Bijou.Disassembly
import Bijou.Skeleton
import Bijou.Truncation

namespace Bijou

open CString Incremental

structure Printing where
  cells : List Byte
  here : BitVec 64
  block : Path → BitVec 64

def indent (level : ℕ) : List Byte := List.replicate level tab

def Tag.text : Tag → List Byte
  | none => bytes "NONE"
  | null => bytes "null"
  | number => bytes "number"
  | boolean => bytes "bool"
  | string => bytes "string"
  | function => bytes "function"
  | pointer => bytes "pointer"

section Dump

variable (functions : List CharPtr) (p : Printing)

def valueLines (level : ℕ) (quote : TValue → List Byte) (l : List TValue) : List Byte :=
  (l.mapIdx fun x v => indent level ++ printf (bytes "\t%zu: (%s) %s%s%s\n")
    [decimal x, v.tt.text, quote v, (v.toText p.cells p.here).printed, quote v]).flatten

def constantLines (level : ℕ) (k : List TValue) : List Byte :=
  indent level ++ printf (bytes "; constants (%zu)\n") [decimal k.length] ++
    valueLines p level (fun v => if v.tt = .string then bytes "\"" else []) k

def localLines (level : ℕ) (locals : List TValue) : List Byte :=
  indent level ++ printf (bytes "; locals (%zu)\n") [decimal locals.length] ++
    valueLines p level (fun _ => []) locals

def upvalLines (level : ℕ) (upvals : List TValue) : List Byte :=
  indent level ++ printf (bytes "; upvals (%zu)\n") [decimal upvals.length] ++
    valueLines p level (fun _ => []) upvals

mutual

/-- A read behind one of the tables has no result. -/
def blockDump2 (path : Path) (level : ℕ) : Block → Option (List Byte)
  | ⟨k, locals, upvals, code, regc, _, _, _, _, _, funcname, numchildren, children⟩ => do
    let name := if funcname.addr ≠ 0 then funcname.text.chars else []
    let head := indent level ++ bytes "; block at: " ++ addressText (p.block path) ++
      printf (bytes ", %s (level %d)\n") [name, decimal level] ++
      indent level ++ printf (bytes "; %zu registers\n") [decimal regc.toNat] ++
      constantLines p level k ++ localLines p level locals ++ upvalLines p level upvals ++
      indent level ++ printf (bytes "; code section (%zu instructions)\n") [decimal code.length]
    let lines ← dumpCodeLines (closureName functions children) level code
    let between := indent level ++
      printf (bytes "; functions (%zu definitions)\n") [decimal numchildren.toNat]
    let nested ← blockDumps path (level + 1) numchildren.toNat 0 children
    return head ++ lines ++ between ++ nested

def blockDumps (path : Path) (level : ℕ) : ℕ → ℕ → List Block → Option (List Byte)
  | n + 1, i, b :: l => do
    let text ← blockDump2 (i :: path) level b
    let rest ← blockDumps path level n (i + 1) l
    return text ++ rest
  | 0, _, _ => some []
  | _ + 1, _, [] => none

end

def blockDump (b : Block) : Option (List Byte) := blockDump2 functions p [] 0 b

end Dump

def internalNames : List CharPtr := internalFunctions.map (fun f => (internalFunction f.1 f.2).name)

def Printable (children : ℕ) (i : Inst) : Prop :=
  ∃ o, opcode i = some o ∧ (o = .closure →
    if isK (getBx i) then (indexRK (getBx i)).toNat < internalFunctions.length
    else (getBx i).toNat < children)

inductive Proto.Printable : Proto → Prop
  | mk {f : Proto} (code : ∀ i ∈ f.code, Bijou.Printable f.p.length i)
      (p : ∀ g ∈ f.p.take (f.p.length % 256), g.Printable) : Proto.Printable f

def Loaded (mem : LoadMemory) (file : List Byte) (p : Proto) (b : Block) : Prop :=
  (∃ n, Returns mem file p n) ∧ ∃ numglobals, protoToBlock mem p = some (numglobals, b)

lemma both_some_iff {α β γ : Type} {x : Option α} {y : Option β} {f : α → β → γ} :
    (∃ t, (do let a ← x; let b ← y; return f a b) = some t) ↔ (∃ a, x = some a) ∧ ∃ b, y = some b := by
  cases x <;> cases y <;> simp

lemma closureName_some_iff {children : List Block} {bx : BitVec 32} :
    (∃ t, closureName internalNames children bx = some t) ↔
      if isK bx then (indexRK bx).toNat < internalFunctions.length else bx.toNat < children.length := by
  have hmap {α : Type} (l : List α) (f : α → List Byte) (i : ℕ) :
      (∃ t, l[i]?.map f = some t) ↔ i < l.length := by
    by_cases hi : i < l.length
    · simp [hi]
    · simp [hi]
  rw [closureName]
  split
  · rw [hmap, internalNames, List.length_map]
  · exact hmap _ _ _

lemma dumpCodeLines_some_iff {children : List Block} {level : ℕ} {code : List Inst} :
    (∃ text, dumpCodeLines (closureName internalNames children) level code = some text) ↔
      ∀ i ∈ code, Printable children.length i := by
  have hline (i : Inst) :
      (∃ text, dumpLine (closureName internalNames children) level i = some text) ↔
        Printable children.length i := by
    rw [dumpLine_some_iff, closureName_some_iff]
    rfl
  have hmap : (∃ text, dumpCodeLines (closureName internalNames children) level code = some text) ↔
      ∃ l, code.mapM (dumpLine (closureName internalNames children) level) = some l := by
    rw [dumpCodeLines]
    constructor
    · rintro ⟨text, h⟩
      exact (Option.map_eq_some_iff.mp h).imp fun _ hl => hl.1
    · rintro ⟨l, hl⟩
      exact ⟨_, by rw [hl]; rfl⟩
  rw [hmap]
  clear hmap
  induction code with
  | nil => exact iff_of_true ⟨[], rfl⟩ (List.forall_mem_nil _)
  | cons i code ih =>
    rw [List.mapM_cons, both_some_iff, List.forall_mem_cons]
    exact and_congr (hline i) ih

section Trees

variable (mem : LoadMemory) (heap : Printing)

lemma blockDump2_some_iff {path : Path} {level : ℕ} {b : Block} :
    (∃ text, blockDump2 internalNames heap path level b = some text) ↔
      (∀ i ∈ b.code, Printable b.children.length i) ∧
        ∃ text, blockDumps internalNames heap path (level + 1) b.numchildren.toNat 0 b.children = some text := by
  have hlines := @dumpCodeLines_some_iff b.children level b.code
  rw [← hlines]
  cases b
  rw [blockDump2]
  exact both_some_iff

lemma Proto.printable_iff {f : Proto} : f.Printable ↔ (∀ i ∈ f.code, Bijou.Printable f.p.length i) ∧
    ∀ g ∈ f.p.take (f.p.length % 256), g.Printable :=
  ⟨fun ⟨code, p⟩ => ⟨code, p⟩, fun ⟨code, p⟩ => .mk code p⟩

mutual

lemma protoDump_some_iff : ∀ (f : Proto) (path place : Path) (level : ℕ) (b : Block),
    protoToBlock2 mem path f = some b →
      ((∃ text, blockDump2 internalNames heap place level b = some text) ↔ f.Printable)
  | ⟨source, name, linedefined, _, maxregisters, _, _, numparam, k, code, p⟩, path, place, level, b, h => by
    obtain ⟨b₁, hpush, h⟩ := Option.bind_eq_some_iff.mp h
    obtain ⟨l, hl, h⟩ := Option.bind_eq_some_iff.mp h
    obtain ⟨k', rfl⟩ := pushConsts_fields hpush
    rw [foldl_pushInstruction] at h
    obtain rfl := Option.some.inj h
    have hcount : (UInt8.ofNat p.length).toNat = p.length % 256 := UInt8.toNat_ofNat'
    have hnested := protoDumps_some_iff p path place (level + 1) (p.length % 256) 0 0 l
      (Nat.mod_le _ _) hl
    rw [blockDump2_some_iff, Proto.printable_iff, protosToBlocks_length mem hl, hcount, hnested]
    rfl

lemma protoDumps_some_iff : ∀ (p : List Proto) (path place : Path) (level n i j : ℕ) (l : List Block),
    n ≤ p.length → protosToBlocks mem path i p = some l →
      ((∃ text, blockDumps internalNames heap place level n j l = some text) ↔
        ∀ g ∈ p.take n, g.Printable)
  | p, path, place, level, 0, i, j, l, _, _ => by
    refine iff_of_true ⟨[], ?_⟩ nofun
    rw [blockDumps]
  | [], path, place, level, n + 1, i, j, l, hn, _ => by simp at hn
  | f :: p, path, place, level, n + 1, i, j, l, hn, h => by
    obtain ⟨b, hb, h⟩ := Option.bind_eq_some_iff.mp h
    obtain ⟨l', hl, h⟩ := Option.bind_eq_some_iff.mp h
    obtain rfl := Option.some.inj h
    have hhead := protoDump_some_iff f (i :: path) (j :: place) level b hb
    have htail := protoDumps_some_iff p path place level n (i + 1) (j + 1) l' (by simpa using hn) hl
    rw [List.take_succ_cons, List.forall_mem_cons, ← hhead, ← htail, blockDumps]
    exact both_some_iff

end

end Trees

lemma Loaded.built {mem : LoadMemory} {file : List Byte} {p : Proto} {b : Block}
    (h : Loaded mem file p b) : protoToBlock2 mem [] p = some b := by
  obtain ⟨-, numglobals, hblock⟩ := h
  obtain ⟨b', hb, hsome⟩ := Option.bind_eq_some_iff.mp hblock
  obtain ⟨-, rfl⟩ := Prod.mk.inj (Option.some.inj hsome)
  exact hb

theorem blockDump_inside_iff {mem : LoadMemory} {file : List Byte} {p : Proto} {b : Block}
    (h : Loaded mem file p b) (heap : Printing) :
    (∃ text, blockDump internalNames heap b = some text) ↔ p.Printable :=
  protoDump_some_iff mem heap p [] [] 0 b h.built

def wordFile (i : Inst) : List Byte :=
  header ++ List.replicate 28 0 ++ LittleEndian.toBytes 4 1 ++ LittleEndian.toBytes 4 i.toNat ++
    List.replicate 8 0

lemma loaded_of_file (file : List Byte)
    (h : ((bijouLoad reader default file).value?.bind (protoToBlock default)).isSome = true) :
    ∃ p b, (bijouLoad reader default file).value? = some p ∧ Loaded default file p b := by
  obtain ⟨⟨numglobals, b⟩, hb⟩ := Option.isSome_iff_exists.mp h
  obtain ⟨p, hp, hb⟩ := Option.bind_eq_some_iff.mp hb
  obtain ⟨r, hr⟩ := Outcome.done_of_value hp
  obtain ⟨c, hc, -⟩ := bijouLoad_exact reader default _ p r hr
  have hlen := congrArg List.length hc
  refine ⟨p, b, hp, ⟨c.length, 0, r, ?_, ?_⟩, numglobals, hb⟩
  · simpa using hr
  · rw [hlen, List.length_append, add_zero]

def listedProto : Proto :=
  let text (s : String) : BijouString := .new (.to (CStr.at (bytes s)))
  ⟨text "list.s", text "main", 1, 9, 4, 0, 0, 0, [⟨.number, ⟨0, 0, .empty⟩⟩],
    [setBx (setA OpCode.closure.code 3) 0, setBx (setA OpCode.closure.code 2) (makeK 1), OpCode.code .return],
    [⟨text "", text "f", 2, 3, 1, 0, 0, 1, [], [OpCode.loadnull.code, OpCode.code .return], []⟩]⟩

def listedFile : List Byte := (bijouDump memmove (fun _ => 0) listedProto []).1.flatMap Output.bytes

theorem blockDump_inside_iff_closures : ∃ p b, p.code.length = 3 ∧ p.p.length = 1 ∧
    Loaded default listedFile p b ∧
      ∀ heap : Printing, (∃ text, blockDump internalNames heap b = some text) ↔ p.Printable := by
  obtain ⟨p, b, hp, hloaded⟩ := loaded_of_file listedFile (by decide +kernel)
  have hshape : (bijouLoad reader default listedFile).value?.map (fun p => (p.code.length, p.p.length)) =
      some (3, 1) := by decide +kernel
  rw [hp] at hshape
  obtain ⟨hcode, hchildren⟩ := Prod.mk.inj (Option.some.inj hshape)
  exact ⟨p, b, hcode, hchildren, hloaded, fun heap => blockDump_inside_iff hloaded heap⟩

theorem dump_leaves_table : ∃ p b, Loaded default (wordFile 63) p b ∧
    (∀ heap : Printing, blockDump internalNames heap b = none) ∧
    ¬ ∀ mem file p b, Loaded mem file p b → ∀ heap, ∃ text, blockDump internalNames heap b = some text := by
  obtain ⟨p, b, hp, hloaded⟩ := loaded_of_file (wordFile 63) (by decide +kernel)
  have hcode : p.code = [63] := by
    have hword : (bijouLoad reader default (wordFile 63)).value?.map Proto.code = some [63] := by
      decide +kernel
    rw [hp] at hword
    exact Option.some.inj hword
  have hnone (heap : Printing) : blockDump internalNames heap b = none := by
    apply Option.eq_none_iff_forall_ne_some.mpr
    intro text htext
    have hprintable := (protoDump_some_iff default heap p [] [] 0 b hloaded.built).mp ⟨text, htext⟩
    obtain ⟨hwords, -⟩ := Proto.printable_iff.mp hprintable
    obtain ⟨o, ho, -⟩ := hwords 63 (by simp [hcode])
    exact absurd ho (by cases o <;> decide)
  refine ⟨p, b, hloaded, hnone, fun h => ?_⟩
  let heap : Printing := ⟨[], 0, fun _ => 0⟩
  obtain ⟨text, htext⟩ := h _ _ p b hloaded heap
  rw [hnone heap] at htext
  cases htext

end Bijou
