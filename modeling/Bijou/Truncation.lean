import Bijou.LoadRules
import Bijou.Scanner

/-! What bijou_load accepts when a file ends too early: `fgetc` returns EOF for ever, of which
`reader` makes bytes 0xFF. The last field of a file is a count, and such a count is negative. -/

namespace Bijou

open CString Incremental LittleEndian

section EndsIn

variable (reader : ℕ → BitVec 32) (mem : LoadMemory)

lemma loadInt_endsIn (s : List Byte) : EndsIn (fun c => c.toNat < 128) (loadInt reader) s := by
  intro x r h
  obtain ⟨b, m, hb, hx⟩ := bind_eq_done.mp h
  obtain ⟨rfl, hlen⟩ := loadBlock_done reader hb
  split_ifs at hx with hneg
  · simp at hx
  obtain ⟨-, rfl⟩ : BitVec.ofNat 32 (ofBytes b) = x ∧ m = r := by simpa using hx
  have hne : b ≠ [] := by rintro rfl; simp at hlen
  obtain ⟨l, c, rfl⟩ := (List.eq_nil_or_concat b).resolve_left hne
  rw [List.concat_eq_append] at hlen hneg ⊢
  have hl : l.length = 3 := by simpa using hlen
  have hlt : ofBytes (l ++ [c]) < 256 ^ 4 := hlen ▸ ofBytes_lt (l ++ [c])
  refine ⟨l, c, by simp, last_lt (l := l) ?_⟩
  rw [hl]
  rw [BitVec.toInt_neg_iff, BitVec.toNat_ofNat] at hneg
  omega

lemma loadFunction_endsIn (path : Path) (s : List Byte) :
    EndsIn (fun c => c.toNat < 128) (loadFunction reader mem path) s := by
  apply (loadFunctionRound_guarded reader mem).fix_property
  intro path s hloop
  rw [loadFunctionRound_eq]
  apply EndsIn.bind_right (loadFields_shrinks reader mem path s)
  intro f r hf
  have hle := (loadFields_shrinks reader mem path s).length_le hf
  apply (loadInt_endsIn reader r).bind_left
  intro sizep m p m' hm h
  have hlt := loadInt_eats reader r _ _ hm
  obtain ⟨l, m'', hl, h⟩ := bind_eq_done.mp h
  obtain ⟨-, rfl⟩ : f l = p ∧ m'' = m' := by simpa using h
  apply forN_endsIn _ _ _ (fun i r hr => hloop _ r ?_) _ _ hl
  have := hr.length_le
  omega

lemma bijouLoad_endsIn (s : List Byte) :
    EndsIn (fun c => c.toNat < 128) (bijouLoad reader mem) s := by
  apply EndsIn.bind_right
  · apply shrinks_compositional.bind (loadBlock_shrinks reader 6 s)
    intro b r _
    split
    · exact shrinks_compositional.pure _ _
    · exact shrinks_compositional.fail _ _
  · exact fun _ r _ => loadFunction_endsIn reader mem [] r

lemma bijouLoad_exact (s : List Byte) : Exact (bijouLoad reader mem) s :=
  bijouLoad_rule reader mem exact_compositional
    (loadBlock_rule reader exact_compositional (take_exact _)) s

end EndsIn

/-- Of the bytes of the file and the EOFs that follow them, bijou_load reads `n` and returns `p`. -/
def Returns (mem : LoadMemory) (file : List Byte) (p : Proto) (n : ℕ) : Prop :=
  ∃ k r, bijouLoad reader mem (file ++ List.replicate k eof) = .done p r ∧
    n + r.length = file.length + k

variable {mem : LoadMemory} {file : List Byte} {p : Proto} {n : ℕ}

lemma Returns.le_length (h : Returns mem file p n) : n ≤ file.length := by
  obtain ⟨k, r, h, hn⟩ := h
  obtain ⟨l, c, heq, hc⟩ := bijouLoad_endsIn reader mem _ p r h
  by_contra hlt
  have hlen : file.length + k = l.length + (r.length + 1) := by
    simpa using congrArg List.length heq
  have hget : (file ++ List.replicate k eof)[l.length]? = some c := by rw [heq]; simp
  rw [List.getElem?_append_right (by omega), List.getElem?_replicate_of_lt (by omega)] at hget
  obtain rfl : eof = c := by simpa using hget
  exact absurd hc (by decide)

theorem bijouLoad_reads_inside (h : Returns mem file p n) : n ≤ file.length ∧
    (n = file.length → ∀ file', file' <+: file → file' ≠ file →
      ∀ p' n', ¬ Returns mem file' p' n') := by
  refine ⟨h.le_length, ?_⟩
  rintro hn file' ⟨y, rfl⟩ hne p' n' h'
  have hle := h'.le_length
  obtain ⟨k, r, h, hlen⟩ := h
  obtain ⟨k', r', h', hlen'⟩ := h'
  obtain ⟨c, hc, hread⟩ := bijouLoad_exact reader mem _ p' r' h'
  -- what was read of the shorter file is a prefix of it, and of the longer one
  have hcl : c.length ≤ file'.length := by
    have := congrArg List.length hc
    simp only [List.length_append, List.length_replicate] at this
    omega
  obtain ⟨x, rfl⟩ : c <+: file' :=
    List.prefix_of_prefix_length_le ⟨r', hc.symm⟩ (List.prefix_append _ _) hcl
  have hr : bijouLoad reader mem (c ++ (x ++ y ++ List.replicate k eof)) = .done p r := by
    simpa using h
  rw [hread] at hr
  obtain ⟨-, rfl⟩ : p' = p ∧ x ++ y ++ List.replicate k eof = r := by simpa using hr
  simp only [List.length_append, List.length_replicate] at hlen hn
  obtain rfl : y = [] := List.length_eq_zero_iff.mp (by omega)
  exact hne (by simp)

def sampleProto (greeting : String) : Proto :=
  let text (s : String) : BijouString := .new (.to (CStr.at (bytes s)))
  ⟨text "call.s", text "main", 1, 9, 3, 0, 0, 0,
    [⟨.null, ⟨0, 0, .empty⟩⟩, ⟨.number, ⟨0, 0, .empty⟩⟩, ⟨.boolean, ⟨1, 0, .empty⟩⟩,
      ⟨.string, .ofString (text greeting)⟩, ⟨.string, .ofString (text "")⟩,
      ⟨.function, ⟨0, 0, .empty⟩⟩],
    [0x12345678],
    [⟨text "", text "f", 2, 3, 1, 0, 0, 1, [], [0], []⟩]⟩

def sampleProgramFile : List Byte :=
  (bijouDump memmove (fun _ => 0) (sampleProto "hello; world") []).1.flatMap Output.bytes

theorem bijouLoad_reads_inside_sample : ∃ p, p.k.length = 6 ∧ p.code = [0x12345678] ∧ p.p.length = 1 ∧
    Returns default sampleProgramFile p sampleProgramFile.length ∧
    ∀ file', file' <+: sampleProgramFile → file' ≠ sampleProgramFile →
      ∀ p' n', ¬ Returns default file' p' n' := by
  have hload : (bijouLoad reader default sampleProgramFile).value?.map
      (fun p => (p.k.length, p.code, p.p.length)) = some (6, [0x12345678], 1) := by decide +kernel
  have hrest : (bijouLoad reader default sampleProgramFile).rest? = some [] := by decide +kernel
  obtain ⟨p, hr⟩ := Outcome.done_of_rest hrest
  obtain ⟨hk, hcode, hp⟩ : p.k.length = 6 ∧ p.code = [0x12345678] ∧ p.p.length = 1 := by
    simpa [hr, Outcome.value?] using hload
  have hret : Returns default sampleProgramFile p sampleProgramFile.length := by
    generalize sampleProgramFile = file at hr
    exact ⟨0, [], by simpa using hr, by simp⟩
  exact ⟨p, hk, hcode, hp, hret, (bijouLoad_reads_inside hret).2 rfl⟩

end Bijou
