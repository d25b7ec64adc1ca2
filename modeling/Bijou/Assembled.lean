import Bijou.CompilerRules

namespace Bijou

open CString Incremental

def TValue.Made (o : TValue) : Prop :=
  match o.tt with
  | .null | .number | .boolean | .function => True
  | .string => ∃ p : CharPtr, p.addr ≠ 0 ∧ o.value.s = .new p
  | .none | .pointer => False

inductive Assembled : Block → Prop
  | mk {b : Block} (filename : b.filename.addr ≠ 0) (funcname : b.funcname.addr ≠ 0)
      (k : ∀ o ∈ b.k, o.Made) (distinct : b.k.Pairwise (fun u v => u.same v = false))
      (children : ∀ c ∈ b.children, Assembled c) : Assembled b

lemma TValue.Made.live {o : TValue} (h : o.Made) : o.Live := by
  intro htt
  rw [Made, htt] at h
  obtain ⟨p, hp, hs⟩ := h
  rw [BijouString.Live, hs]
  exact hp

lemma CharPtr.to_addr (text : CStr) : (CharPtr.to text).addr ≠ 0 :=
  show (1 : BitVec 64) ≠ 0 by decide

namespace Assembled

variable {b c : Block}

lemma new (mem : Fresh) : Assembled (Block.new mem) :=
  .mk (CharPtr.to_addr _) (CharPtr.to_addr _) nofun .nil nofun

lemma store (h : Assembled b) (d : Directive) (tmp : List Byte) : Assembled (d.store tmp b) := by
  obtain ⟨hfile, hfunc, hk, hdist, hc⟩ := h
  cases d with
  | name => exact .mk hfile (CharPtr.to_addr _) hk hdist hc
  | _ => exact .mk hfile hfunc hk hdist hc

lemma pushInstruction (h : Assembled b) (inst : Inst) : Assembled (b.pushInstruction inst) := by
  obtain ⟨hfile, hfunc, hk, hdist, hc⟩ := h
  exact .mk hfile hfunc hk hdist hc

lemma pushConst (h : Assembled b) {v : TValue} (hv : v.Made) {i : ℤ} {b' : Block}
    (hp : b.pushConst v = some (i, b')) : Assembled b' := by
  obtain ⟨hfile, hfunc, hk, hdist, hc⟩ := h
  obtain ⟨j, hj⟩ := Block.pushConst_live (fun u hu => (hk u hu).live) hv.live
  obtain rfl : { b with k := Pool.push TValue.same b.k v } = b' := by
    rw [hj] at hp
    exact congrArg Prod.snd (Option.some.inj hp)
  refine .mk hfile hfunc (fun o ho => ?_) (Pool.push_pairwise hdist v) hc
  rcases Pool.mem_push ho with ho | rfl
  · exact hk o ho
  · exact hv

lemma pushChild (h : Assembled b) (h' : Assembled c) : Assembled (b.pushChild c) := by
  obtain ⟨hfile, hfunc, hk, hdist, hc⟩ := h
  refine .mk hfile hfunc hk hdist (fun d hd => ?_)
  rcases List.mem_append.mp hd with hd | hd
  · exact hc d (List.mem_of_mem_take hd)
  · rcases List.mem_cons.mp hd with rfl | hd
    · exact h'
    · exact hc d (List.mem_of_mem_drop hd)

end Assembled

section Sections

variable {b b' : Block} {s r : List Byte}

lemma compileHeader_assembled (hb : Assembled b) (h : compileHeader b s = .done b' r) :
    Assembled b' := by
  obtain ⟨u, m, -, h⟩ := bind_eq_done.mp h
  refine headerRound_guarded.fix_result (I := Assembled) ?_ hb h
  intro b s hb hloop b' r h
  obtain ⟨string, m, hm, h⟩ := bind_eq_done.mp h
  have hlen := readNext_eats s _ _ hm
  split_ifs at h with hclose
  · obtain ⟨rfl, -⟩ : b = b' ∧ m = r := by simpa using h
    exact hb
  · cases hd : Directive.named (cstr string) with
    | none => simp [hd] at h
    | some d =>
      simp only [hd] at h
      obtain ⟨tmp, m', hm', h⟩ := bind_eq_done.mp h
      exact hloop _ m' ((readNext_eats m _ _ hm').trans hlen) (hb.store d tmp) b' r h

lemma compileCode_assembled (hb : Assembled b) (h : compileCode b s = .done b' r) :
    Assembled b' := by
  obtain ⟨u, m, -, h⟩ := bind_eq_done.mp h
  refine codeRound_guarded.fix_result (I := Assembled) ?_ hb h
  intro b s hb hloop b' r h
  obtain ⟨string, m, hm, h⟩ := bind_eq_done.mp h
  have hlen := readNext_eats s _ _ hm
  split_ifs at h with hclose
  · obtain ⟨rfl, -⟩ : b = b' ∧ m = r := by simpa using h
    exact hb
  · cases ho : OpCode.named (cstr string) with
    | none => simp [ho] at h
    | some o =>
      simp only [ho] at h
      obtain ⟨args, m', hm', h⟩ := bind_eq_done.mp h
      exact hloop _ m' (((readArgs_shrinks m).length_le hm').trans_lt hlen)
        (hb.pushInstruction _) b' r h

variable (mem : Memory)

lemma pushEntry_assembled {loop : ConstState → Scan Block} {st : ConstState} {tt : Tag}
    {value : Value} (hst : Assembled st.b) (h : pushEntry loop st tt value s = .done b r)
    (hv : TValue.Made ⟨tt, value⟩)
    (hloop : ∀ st', Assembled st'.b → ∀ b r, loop st' s = .done b r → Assembled b) :
    Assembled b := by
  rw [pushEntry] at h
  cases hp : st.push tt value with
  | none => simp [hp] at h
  | some st' =>
    simp only [hp] at h
    obtain ⟨⟨i, b'⟩, hb', hst'⟩ := Option.bind_eq_some_iff.mp hp
    obtain rfl := Option.some.inj hst'
    exact hloop _ (hst.pushConst hv hb') b r h

lemma compileFunctionWith_assembled {loop : ConstState → Scan Block} {path : Path}
    (hb : Assembled b)
    (hloop : ∀ st' s', s'.length ≤ s.length → Assembled st'.b → ∀ b r, loop st' s' = .done b r →
      Assembled b) (h : compileFunctionWith mem loop path b s = .done b' r) : Assembled b' := by
  obtain ⟨b₁, r₁, h₁, h⟩ := bind_eq_done.mp h
  have l₁ := compileHeader_length h₁
  obtain ⟨b₂, r₂, h₂, h⟩ := bind_eq_done.mp h
  have l₂ := compileCode_length h₂
  obtain ⟨u, r₃, h₃, h⟩ := bind_eq_done.mp h
  have l₃ := expectConst_length h₃
  exact hloop _ r₃ (by omega) (compileCode_assembled (compileHeader_assembled hb h₁) h₂) b' r h

lemma constLoop_assembled {st : ConstState} (hst : Assembled st.b)
    (h : constLoop mem st s = .done b r) : Assembled b := by
  refine (constRound_guarded mem).fix_result (I := fun st => Assembled st.b) ?_ hst h
  intro st s hst hloop b r h
  obtain ⟨string, m, hm, h⟩ := bind_eq_done.mp h
  have hlen := readLine_eats s _ _ hm
  have hnext : ∀ st', Assembled st'.b → ∀ b r, constLoop mem st' m = .done b r → Assembled b :=
    fun st' => hloop st' m hlen
  cases hl : constLine (string ++ mem.line st.here) with
  | close =>
    rw [hl] at h
    obtain ⟨rfl, -⟩ : st.b = b ∧ m = r := by simpa [constEntry] using h
    exact hst
  | comment =>
    rw [hl] at h
    exact hnext st hst b r h
  | bad e => simp [hl, constEntry] at h
  | null =>
    rw [hl] at h
    exact pushEntry_assembled hst h trivial hnext
  | number n =>
    rw [hl] at h
    exact pushEntry_assembled hst h trivial hnext
  | boolean n =>
    rw [hl] at h
    exact pushEntry_assembled hst h trivial hnext
  | string text =>
    rw [hl] at h
    exact pushEntry_assembled hst h ⟨_, (mem.addr st.here).property, rfl⟩ hnext
  | function =>
    rw [hl] at h
    obtain ⟨func, m', hfunc, h⟩ := bind_eq_done.mp h
    have hle : m'.length ≤ m.length := (compileFunction_shrinks mem _ _ m).length_le hfunc
    have hfunc := compileFunctionWith_assembled mem (.new _)
      (fun st' s' hs' => hloop st' s' (by omega)) hfunc
    exact pushEntry_assembled (hst.pushChild hfunc) h trivial (fun st' => hloop st' m' (by omega))

theorem compileFile_assembled {filename : CharPtr} (hname : filename.addr ≠ 0)
    (h : compileFile mem filename s = .done b r) : Assembled b := by
  have hb : Assembled { Block.new (mem.block []) with
      filename := filename, funcname := .to (CStr.at (bytes "main")) } :=
    .mk hname (CharPtr.to_addr _) nofun .nil nofun
  have hloop : ∀ st' s', s'.length ≤ s.length → Assembled st'.b → ∀ b r,
      constLoop mem st' s' = .done b r → Assembled b :=
    fun st' s' _ hst' b r => constLoop_assembled mem hst'
  exact compileFunctionWith_assembled mem hb hloop h

end Sections

end Bijou
