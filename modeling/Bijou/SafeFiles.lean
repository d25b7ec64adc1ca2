import Bijou.Preservation

namespace Bijou

open Agreement CString Incremental Runs

variable {prog b b' : Block}

section Check

structure Block.NamesInside (b : Block) : Prop where
  code : b.code ≠ []
  targets : ∀ p ∈ b.code.zipIdx, ∀ d ∈ distances p.1,
    0 ≤ (p.2 : ℤ) + d + 1 ∧ (p.2 : ℤ) + d + 1 < b.code.length
  registers : ∀ i ∈ b.code, ∀ r ∈ registers i, r < b.regc.toNat
  constants : ∀ i ∈ b.code, ∀ j ∈ constants i, j < b.k.length
  functions : ∀ i ∈ b.code, opcode i = some .closure → b.HasFunction (getBx i)

inductive Block.InRange : Block → Prop
  | mk {b : Block} (names : b.NamesInside) (children : ∀ c ∈ b.children, Block.InRange c) :
    Block.InRange b

lemma Block.NamesInside.checked (h : b.NamesInside) (hk : ∀ v ∈ b.k, v.Live ∧ v.tt ≠ .function)
    (hlocals : b.locals = []) : b.Checked where
  code := h.code
  targets := h.targets
  registers := h.registers
  constants := h.constants
  functions := h.functions
  k := hk
  locals := by
    rw [hlocals]
    exact List.forall_mem_nil _

lemma Block.NamesInside.copied (h : b.NamesInside) (hcode : b'.code = b.code) (hregc : b'.regc = b.regc)
    (hk : b'.k.length = b.k.length) (hchildren : b'.children.length = b.children.length) :
    b'.NamesInside where
  code := hcode ▸ h.code
  targets := hcode ▸ h.targets
  registers := by
    rw [hcode, hregc]
    exact h.registers
  constants := by
    rw [hcode, hk]
    exact h.constants
  functions := by
    rw [hcode]
    intro i hi ho
    have hfunction := h.functions i hi ho
    rw [Block.HasFunction] at hfunction ⊢
    rwa [hchildren]

end Check

section Constants

variable {mem : LoadMemory} {path : Path}

lemma pushConsts_mem {k : List TValue} (h : pushConsts b k = some b') {v : TValue} (hv : v ∈ b'.k) :
    v ∈ b.k ∨ v ∈ k := by
  induction k generalizing b with
  | nil =>
    obtain rfl := Option.some.inj h
    exact .inl hv
  | cons u k ih =>
    obtain ⟨⟨i, b₁⟩, hpush, hrest⟩ := Option.bind_eq_some_iff.mp h
    obtain ⟨found, -, hb₁⟩ := Option.bind_eq_some_iff.mp hpush
    have hmem : ∀ w ∈ b₁.k, w ∈ b.k ∨ w = u := by
      intro w hw
      split_ifs at hb₁
      · cases hb₁
        exact .inl hw
      · cases hb₁
        exact (List.mem_append.mp hw).imp_right List.mem_singleton.mp
    rcases ih hrest with hv | hv
    · exact (hmem v hv).imp_right (fun heq => List.mem_cons.mpr (.inl heq))
    · exact .inr (List.mem_cons_of_mem _ hv)

lemma usable_of_tag {v : TValue} {t : Tag} (htag : v.tt = t) (ht : t ≠ .string ∧ t ≠ .function) :
    v.Live ∧ v.tt ≠ .function :=
  ⟨fun h => absurd (htag.symm.trans h) ht.1, fun h => ht.2 (htag.symm.trans h)⟩

lemma Reloads.usable {o v : TValue} {i : ℕ} (h : Reloads reader mem path (o, i) v)
    (hsound : o.tt = .string → o.value.s.Sound)
    (hstring : o.tt = .string → backslash ∉ o.value.s.chars ∧ o.value.s.chars ≠ []) :
    v.Live ∧ v.tt ≠ .function := by
  rcases h.cases with ⟨-, rfl⟩ | ⟨-, rfl⟩ | ⟨-, rfl⟩ | ⟨htt, s, p, hs, rfl⟩
  · exact usable_of_tag (t := .null) rfl (by decide)
  · exact usable_of_tag (t := .number) rfl (by decide)
  · exact usable_of_tag (t := .boolean) rfl (by decide)
  · have htag : o.tt = .string := Tag.back_eq (.inr (.inr htt)) ▸ htt
    obtain ⟨hescape, hne⟩ := hstring htag
    obtain ⟨hdecode, -⟩ := reloadString_decoded (hsound htag) (mem.addr path (.const i)).property hs
    rw [decode_plain hescape, Option.some_inj] at hdecode
    refine ⟨fun _ h0 => hne (hdecode.trans (if_pos h0)), fun h => Tag.noConfusion h⟩

lemma rebuild_usable (h : rebuild reader mem path b = some b')
    (hsound : ∀ o ∈ b.k, o.tt = .string → o.value.s.Sound)
    (hstring : ∀ o ∈ b.k, o.tt = .string → backslash ∉ o.value.s.chars ∧ o.value.s.chars ≠ []) :
    ∀ v ∈ b'.k, v.Live ∧ v.tt ≠ .function := by
  rw [rebuild_bind] at h
  obtain ⟨source, -, h⟩ := Option.bind_eq_some_iff.mp h
  obtain ⟨name, -, h⟩ := Option.bind_eq_some_iff.mp h
  obtain ⟨line, -, h⟩ := Option.bind_eq_some_iff.mp h
  obtain ⟨last, -, h⟩ := Option.bind_eq_some_iff.mp h
  obtain ⟨code, -, h⟩ := Option.bind_eq_some_iff.mp h
  obtain ⟨sizek, hsizek, h⟩ := Option.bind_eq_some_iff.mp h
  obtain ⟨⟨k₁, k'⟩, hk, h⟩ := Option.bind_eq_some_iff.mp h
  obtain ⟨l, -, h⟩ := Option.bind_eq_some_iff.mp h
  obtain ⟨b₁, hpush, h⟩ := Option.bind_eq_some_iff.mp h
  obtain rfl := Option.some.inj h
  obtain ⟨-, rfl⟩ := reloadInt_iff.mp hsizek
  have hcount : (count b.k).toNat ≤ b.k.length := by
    rw [count, BitVec.toNat_ofNat]
    exact Nat.mod_le _ _
  have hreads := reloadConstants_reloads mem path hcount hk
  have husable : ∀ v ∈ k', v.Live ∧ v.tt ≠ .function := by
    refine forall₂_right hreads (fun o ho v hv => ?_)
    have hmem : o.1 ∈ b.k := List.mem_of_mem_take (List.fst_mem_of_mem_zipIdx ho)
    exact hv.usable (hsound o.1 hmem) (hstring o.1 hmem)
  intro v hv
  rcases pushConsts_mem hpush hv with hnew | hv
  · cases hnew
  · exact husable v hv

end Constants

section Tree

variable {mem : LoadMemory}

lemma rebuild_children (hall : b.functions = b.children) {path : Path}
    (h : rebuild reader mem path b = some b') :
    List.Forall₂ (fun c c' => ∃ p, rebuild reader mem p c = some c') b.children b'.children := by
  obtain ⟨source, name, k, l, -, -, hl, rfl⟩ := rebuild_fields mem h
  exact hall ▸ rebuilds_forall₂ mem hl

lemma Block.InRange.rebuilt (hrange : b.InRange) {path : Path} (h : rebuild reader mem path b = some b')
    (hkept : b.Kept b') (hbare : b'.Bare) (hplain : b.Plain) (hport : b.Portable) : b'.Verified := by
  induction hrange generalizing path b' with
  | @mk b hnames hranges ih =>
    obtain ⟨-, -, -, -, hregc, -, hcode, hnum, hcopied⟩ := rebuild_copied mem hplain h
    obtain ⟨-, -, -, -, hsound, hcount, hplains⟩ := hplain
    obtain ⟨hlen, hstrings, hports⟩ := hport
    obtain ⟨hlocals, hbares⟩ := hbare
    obtain ⟨hk, hfunctions⟩ := hkept
    have hcode' : b'.code = b.code := hcode.trans (take_mod_iff.mpr hlen)
    have hnames' := hnames.copied hcode' hregc hk.length_eq.symm hcopied.length_eq.symm
    have hall : b.functions = b.children := by rw [Block.functions, hcount, List.take_length]
    have hall' : b'.functions = b'.children := by
      rw [Block.functions, hnum, hcount, hcopied.length_eq, List.take_length]
    have hchildren := rebuild_children hall h
    rw [hall, hall'] at hfunctions
    have hboth := List.Forall₂.mp (fun c c' hp hq => And.intro hp hq) hchildren hfunctions
    have hverified : ∀ c' ∈ b'.children, c'.Bare → c'.Verified := by
      refine forall₂_right hboth (fun c hc c' hc' hbare => ?_)
      obtain ⟨⟨p, hp⟩, hq⟩ := hc'
      exact ih c hc hp hq hbare (hplains c hc) (hports c hc)
    exact .mk (hnames'.checked (rebuild_usable h hsound hstrings) hlocals)
      (fun c' hc' => hverified c' hc' (hbares c' hc'))

end Tree

/-- From its source to any state of its run: a program whose words name only what is there runs from
its file without a fault, but for a quotient that does not exist and for native functions, and every
state of the run is sound. -/
theorem assembled_runs_safely {mem : Memory} (lmem : LoadMemory) (strcpy : Strcpy)
    (padding : List Output → BitVec 48) {host : Host} (libs : List (Option Library)) {filename : CharPtr}
    {file r : List Byte} {b : Block}
    (hhost : host.Honest) (hname : filename.addr ≠ 0)
    (h : compileFile mem filename file = .done b r) (hplain : b.Plain) (hport : b.Portable)
    (hintact : Intact reader lmem [] b) (hrange : b.InRange) : ∃ b' c,
      throughFile reader lmem strcpy padding b = some (b.numglobal, b') ∧
      Config.initial host b' (Shared.loaded host b' libs b.numglobal.toNat) [] 0 [] = .ok c ∧
      ∀ k d, Reaches (fun c d : Config => c.step host b' = .on d) k c d →
        d.Sound b' ∧ (d.step host b' = .halt .fault → d.Traps host b') := by
  have hassembled := compileFile_assembled mem hname h
  obtain ⟨b', hrebuild, hkept⟩ :=
    (survives_iff lmem [] reader_reports hassembled (hassembled.addressable hplain)).mpr hintact
  have hfile : throughFile reader lmem strcpy padding b = some (b.numglobal, b') := by
    rw [throughFile_unescaped lmem strcpy padding (hport.unescaped hplain) hplain.toProto_sound,
      throughFile_eq lmem padding reader_reports hplain.toProto_sound, hrebuild]
    rfl
  have hverified := hrange.rebuilt hrebuild hkept (throughFile_bare hfile) hplain hport
  obtain ⟨c, hinit, hc⟩ := @initial_sound host b' libs b.numglobal.toNat hhost hverified
  refine ⟨b', c, hfile, hinit, fun k d hreach => ?_⟩
  have hd := hc.reaches hhost hverified hreach
  exact ⟨hd, hd.traps hhost hverified⟩

lemma greeting_inRange {b : Block} {r : List Byte}
    (h : compileFile default sampleName greetingSource = .done b r) : b.InRange := by
  have hcheck : (compileFile default sampleName greetingSource).value?.map
      (fun b => (b.check, b.children.length)) = some (true, 0) := by decide +kernel
  rw [h] at hcheck
  obtain ⟨hchecked, hchildren⟩ := Prod.mk.inj (Option.some.inj hcheck)
  have hb := Block.check_iff.mp hchecked
  refine .mk ⟨hb.code, hb.targets, hb.registers, hb.constants, hb.functions⟩ ?_
  rw [List.eq_nil_of_length_eq_zero hchildren]
  exact List.forall_mem_nil _

theorem assembled_runs_safely_greeting : ∃ b r,
    compileFile default sampleName greetingSource = .done b r ∧ b.k = [greeting] ∧ ∃ b' c,
      throughFile reader default memmove (fun _ => 0) b = some (b.numglobal, b') ∧
      Config.initial plainHost b' (Shared.loaded plainHost b' [] b.numglobal.toNat) [] 0 [] = .ok c ∧
      ∀ k d, Reaches (fun c d : Config => c.step plainHost b' = .on d) k c d →
        d.Sound b' ∧ (d.step plainHost b' = .halt .fault → d.Traps plainHost b') := by
  obtain ⟨b, r, hr, hk, hplain, hport, hintact⟩ := greeting_assembled
  exact ⟨b, r, hr, hk, assembled_runs_safely default memmove _ [] plainHost_honest (by decide) hr hplain hport
    hintact (greeting_inRange hr)⟩

end Bijou
