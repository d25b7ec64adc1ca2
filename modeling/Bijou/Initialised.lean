import Bijou.Library.Flow
import Bijou.Preservation

/-! Functions that fill every register before they read it. What memory held before their frames were
made decides nothing. -/

namespace Bijou

open Agreement CString Flow Runs

variable {host host' : Host} {prog b : Block} {f g : Frame} {s s' t : Shared}
  {argv argv' : List TValue} {callers callers' : List Frame} {c d : Config} {o : OpCode} {v w : TValue}

section Check

def OpCode.fills : OpCode → Bool
  | .nop | .setglobal | .setlocal | .eq | .lt | .gt | .le | .ge | .jmp | .return => false
  | _ => true

def fills (i : Inst) : List ℕ := if (opcode i).any OpCode.fills then [(getA i).toNat] else []

def Block.Goes (b : Block) (j k : ℕ) : Prop :=
  ∃ i, b.code[j]? = some i ∧ ∃ d ∈ distances i, (k : ℤ) = j + d + 1

def Block.fillsAt (b : Block) (j : ℕ) : Set ℕ := {r | ∃ i, b.code[j]? = some i ∧ r ∈ fills i}

/-- Every way through the code from its start to the place fills the register. -/
def Block.FilledAt (b : Block) (r j : ℕ) : Prop := Filled b.Goes b.fillsAt 0 r j

structure Block.Initialised (b : Block) : Prop where
  code : b.code ≠ []
  targets : ∀ p ∈ b.code.zipIdx, ∀ d ∈ distances p.1,
    0 ≤ (p.2 : ℤ) + d + 1 ∧ (p.2 : ℤ) + d + 1 < b.code.length
  filled : ∀ j i, b.code[j]? = some i → ∀ r ∈ readRegisters i, b.FilledAt r j

lemma Block.initialised_of_table (table : ℕ → List ℕ) (hcode : b.code ≠ []) (hstart : table 0 = [])
    (hreads : ∀ p ∈ b.code.zipIdx, ∀ r ∈ readRegisters p.1, r ∈ table p.2)
    (htargets : ∀ p ∈ b.code.zipIdx, ∀ d ∈ distances p.1,
      (0 ≤ (p.2 : ℤ) + d + 1 ∧ (p.2 : ℤ) + d + 1 < b.code.length) ∧
        ∀ r ∈ table ((p.2 : ℤ) + d + 1).toNat, r ∈ table p.2 ∨ r ∈ fills p.1) : b.Initialised := by
  refine ⟨hcode, fun p hp d hd => (htargets p hp d hd).1, fun j i hi r hr => ?_⟩
  refine filled_of_table (fun j => {r | r ∈ table j}) ?_ (fun p q hpq hq => ?_)
    (hreads (i, j) (List.mem_zipIdx_iff_getElem?.mpr hi) r hr)
  · change r ∉ table 0
    rw [hstart]
    exact List.not_mem_nil
  · obtain ⟨i, hi, d, hd, hk⟩ := hpq
    have hedge := (htargets (i, p) (List.mem_zipIdx_iff_getElem?.mpr hi) d hd).2 r
    dsimp only at hedge
    rw [← hk, Int.toNat_natCast] at hedge
    exact (hedge hq).imp_right (fun hfills => ⟨i, hi, hfills⟩)

lemma mem_fills {i : Inst} {r : ℕ} (h : r ∈ fills i) : r = (getA i).toNat := by
  rw [fills] at h
  split_ifs at h
  · exact List.mem_singleton.mp h
  · cases h

lemma Block.FilledAt.back {i : Inst} {r j k : ℕ} {distance : ℤ} (h : b.FilledAt r k)
    (hi : b.code[j]? = some i) (hd : distance ∈ distances i) (hk : (k : ℤ) = j + distance + 1) :
    b.FilledAt r j ∨ r ∈ fills i := by
  refine (Filled.back h ⟨i, hi, distance, hd, hk⟩).imp_right ?_
  rintro ⟨i', hi', hr⟩
  cases hi.symm.trans hi'
  exact hr

lemma not_filledAt_zero (r : ℕ) : ¬ b.FilledAt r 0 := not_filled_start

lemma exec_plain_stores (ho : opcode f.i = some o) (hrk : o.rkFields = []) (hfills : o.fills = true) :
    Ensures (exec host b f argv) (fun a => ∀ distance, a ≠ .go distance) := by
  have hstore : ∀ v : TValue, ∀ distance, Action.store v ≠ .go distance := nofun
  have hleave : ∀ v : TValue, ∀ distance, Action.leave v ≠ .go distance := nofun
  refine ensures_bind (fun s => ?_)
  simp only [ho]
  cases o with
  | move | loadk => exact ensures_store hstore _ _
  | loadbool | loadnull => exact ensures_pure (hstore _)
  | getglobal | getlocal =>
    refine ensures_bind (fun r => ?_)
    cases r with
    | none => exact ensures_pure (hleave _)
    | some n => exact ensures_store hstore _ _
  | getarg =>
    dsimp only
    split_ifs
    · exact ensures_bind (fun _ => ensures_pure (hleave _))
    · exact ensures_store hstore _ _
  | getexternal => exact ensures_bind (fun _ => ensures_store hstore _ _)
  | call =>
    have hcall : ∀ func, Ensures (callFunction host f func ((getB f.i).toNat + 1) (getC f.i))
        (fun a => ∀ distance, a ≠ .go distance) :=
      callFunction_ensures hstore nofun
    refine ensures_bind (fun v => ?_)
    split_ifs
    · exact ensures_bind (fun _ => ensures_bind hcall)
    · exact ensures_bind hcall
  | closure => exact closure_ensures hstore
  | nop | setglobal | setlocal | jmp => cases hfills
  | _ => exact absurd hrk (List.cons_ne_nil _ _)

lemma calculate_go {r : Option (TValue × List Message)} {distance : ℤ}
    (hx : calculate r s = .ok (.go distance, s')) : ∃ p, r = some p ∧ p.1.tt = .none := by
  obtain ⟨p, s₁, hp, hprint⟩ := bind_eq_ok.mp hx
  obtain ⟨hr, rfl⟩ := found_eq_ok.mp hp
  obtain ⟨u, s₂, -, hpure⟩ := bind_eq_ok.mp hprint
  refine ⟨p, hr, ?_⟩
  by_contra htt
  rw [if_neg htt] at hpure
  cases pure_eq_ok.mp hpure

lemma binary_none {op : String} {garbage : Value} {F : Value → Value → Option Value} {x y : TValue}
    {p : TValue × List Message} (hp : TValue.binary op garbage F .number x y = some p)
    (htt : p.1.tt = .none) : ∃ v ∈ [x, y], v.tt ≠ .number := by
  by_cases hbad : x.tt ≠ .number ∨ y.tt ≠ .number
  · rcases hbad with hbad | hbad
    · exact ⟨x, List.mem_cons_self, hbad⟩
    · exact ⟨y, List.mem_cons_of_mem _ (List.mem_singleton_self _), hbad⟩
  · rw [TValue.binary, if_neg hbad] at hp
    cases hF : F x.value y.value with
    | none =>
      rw [hF] at hp
      cases hp
    | some value =>
      rw [hF] at hp
      cases hp
      cases htt

lemma arith_none {op : String} {garbage : Value} {F : LongDouble → LongDouble → LongDouble} {x y : TValue}
    {p : TValue × List Message} (hp : TValue.arith op garbage F x y = some p) (htt : p.1.tt = .none) :
    ∃ v ∈ [x, y], v.tt ≠ .number := binary_none hp htt

lemma operate_go {a : Arithmetic} {garbage : Value} {vs : List TValue} {distance : ℤ}
    (hx : o.operate a garbage vs s = .ok (.go distance, s')) (hlen : vs.length = o.rkFields.length)
    (hrk : o.rkFields ≠ []) : o.fills = false ∨ o ∈ numeric ∧ ∃ v ∈ vs, v.tt ≠ .number := by
  cases o with
  | eq | lt | gt | le | ge => exact .inl rfl
  | add | sub | mul | div | pow =>
    obtain ⟨x, y, rfl⟩ := List.length_eq_two.mp hlen
    rw [OpCode.operate] at hx
    obtain ⟨p, hp, hnone⟩ := calculate_go hx
    exact .inr ⟨by decide, arith_none hp hnone⟩
  | rem =>
    obtain ⟨x, y, rfl⟩ := List.length_eq_two.mp hlen
    rw [OpCode.operate] at hx
    obtain ⟨p, hp, hnone⟩ := calculate_go hx
    exact .inr ⟨by decide, binary_none hp hnone⟩
  | unm =>
    obtain ⟨x, rfl⟩ := List.length_eq_one_iff.mp hlen
    rw [OpCode.operate] at hx
    obtain ⟨p, hp, hnone⟩ := calculate_go hx
    obtain rfl := Option.some.inj hp
    refine .inr ⟨by decide, x, List.mem_singleton_self _, fun htt => ?_⟩
    rw [TValue.numUnm, if_neg (not_not.mpr htt)] at hnone
    cases htt.symm.trans hnone
  | not =>
    obtain ⟨x, rfl⟩ := List.length_eq_one_iff.mp hlen
    cases hx
  | «return» =>
    obtain ⟨x, rfl⟩ := List.length_eq_one_iff.mp hlen
    cases hx
  | _ => exact absurd rfl hrk

lemma exec_go_fills {distance : ℤ} (hx : exec host b f argv s = .ok (.go distance, s')) :
    fills f.i = [] ∨ f.Mistyped b := by
  rw [fills]
  cases ho : opcode f.i with
  | none => exact .inl rfl
  | some o =>
    cases hfills : o.fills with
    | false => exact .inl (by simp [hfills])
    | true =>
      by_cases hrk : o.rkFields = []
      · exact absurd rfl (exec_plain_stores ho hrk hfills _ _ _ hx distance)
      · rw [exec_operate ho hrk] at hx
        obtain ⟨vs, s₁, hvs, hoperate⟩ := bind_eq_ok.mp hx
        obtain ⟨hmem, rfl⟩ := found_eq_ok.mp hvs
        rcases operate_go hoperate (Frame.operands_length hmem) hrk with hcompares | ⟨hnumeric, v, hv, htt⟩
        · cases hfills.symm.trans hcompares
        · exact .inr ⟨o, hnumeric, ho, vs, hmem, v, hv, htt⟩

end Check

section Relation

def Frame.Matches (prog : Block) (f g : Frame) : Prop :=
  ∃ b j stack, prog.find f.path = some b ∧ f.start = 0 ∧ f.pc = (j : ℕ) ∧ b.code[j]? = some f.i ∧
    g = { f with stack } ∧ stack.length = f.stack.length ∧
    ∀ r, b.FilledAt r j → Option.Rel TValue.Alike f.stack[r]? stack[r]?

def Frame.Given (f : Frame) (registers registers' : List TValue) : Prop :=
  ∀ k < f.argc.toNat, Option.Rel TValue.Alike registers[f.args + k]? registers'[f.args + k]?

variable (prog argv argv') in
inductive Waiting : List Frame → List Frame → Prop
  | nil : Waiting [] []
  | cons {f g : Frame} {callers callers' : List Frame} (top : f.Matches prog g)
      (call : opcode f.i = some .call) (given : f.Given (window argv callers) (window argv' callers'))
      (rest : Waiting callers callers') : Waiting (f :: callers) (g :: callers')

variable (prog argv argv') in
inductive Control.Matches : Control → Control → Prop
  | run {f g : Frame} {callers callers' : List Frame} (top : f.Matches prog g)
      (given : f.Given (window argv callers) (window argv' callers'))
      (waiting : Waiting prog argv argv' callers callers') :
      Control.Matches (.run f callers) (.run g callers')
  | ret {v w : TValue} {callers callers' : List Frame} (value : v.Alike w)
      (waiting : Waiting prog argv argv' callers callers') :
      Control.Matches (.ret v callers) (.ret w callers')

structure Config.Matches (prog : Block) (c d : Config) : Prop where
  shared : c.shared.Alike d.shared
  control : c.control.Matches prog c.argv d.argv d.control

inductive Step.Matches (prog : Block) : Step → Step → Prop
  | on {c d : Config} (h : c.Matches prog d) : Step.Matches prog (.on c) (.on d)
  | done {v w : TValue} (h : v.Alike w) : Step.Matches prog (.done v) (.done w)
  | halt (h : Halt) : Step.Matches prog (.halt h) (.halt h)

/-- The word that comes next looks beneath its values, or is an operator that gets no numbers. -/
def Config.Strays (host host' : Host) (prog : Block) (c : Config) : Prop :=
  ∃ f callers b, c.control = .run f callers ∧ prog.find f.path = some b ∧
    (f.Peeks host host' b c.shared ∨ f.Mistyped b)

def Block.AllInitialised (prog : Block) : Prop :=
  ∀ path b, prog.find path = some b → b.Initialised

end Relation

section Steps

lemma Block.Initialised.next {i : Inst} {j : ℕ} {distance : ℤ} (h : b.Initialised)
    (hi : b.code[j]? = some i) (hd : distance ∈ distances i) :
    ∃ k : ℕ, (j : ℤ) + distance + 1 = k ∧ k < b.code.length := by
  obtain ⟨hlow, hhigh⟩ := h.targets (i, j) (List.mem_zipIdx_iff_getElem?.mpr hi) _ hd
  obtain ⟨k, hk⟩ := Int.eq_ofNat_of_zero_le hlow
  exact ⟨k, hk, by dsimp only at hk; omega⟩

variable (host host') in
lemma next_matches {stack : List TValue} {j : ℕ} {distance : ℤ} (hb : prog.find f.path = some b)
    (hinit : b.Initialised) (hstart : f.start = 0) (hpc : f.pc = j) (hi : b.code[j]? = some f.i)
    (hd : distance ∈ distances f.i) (hlen : stack.length = f.stack.length)
    (hfilled : ∀ r, b.FilledAt r j ∨ r ∈ fills f.i → Option.Rel TValue.Alike f.stack[r]? stack[r]?)
    (hs : s.Alike t) :
    Agrees Shared.Alike (fun g g' => g.Matches prog g' ∧ g.args = f.args ∧ g.argc = f.argc)
      (f.next host b distance s) (Frame.next host' b { f with stack } distance t) := by
  obtain ⟨k, hk, hlt⟩ := hinit.next hi hd
  have hword : ∀ (host : Host) (clock : ℕ),
      fetch host clock b f.path (f.pc + distance + 1) = some b.code[k] := by
    intro host clock
    rw [hpc, hk, fetch_code hlt, List.getElem?_eq_getElem hlt]
  refine agrees_bind_get ?_
  dsimp only
  rw [hword, hword]
  refine (agrees_found_same _ hs).bind_of (fun i i' s₁ t₁ hx heq hs₁ => ?_)
  obtain rfl := heq
  obtain ⟨hi', -⟩ := found_eq_ok.mp hx
  obtain rfl := Option.some.inj hi'
  have hword' := List.getElem?_eq_getElem hlt
  refine agrees_pure ⟨⟨b, k, stack, hb, hstart, ?_, hword', rfl, hlen, ?_⟩, rfl, rfl⟩ hs₁
  · exact (congrArg (fun pc => pc + distance + 1) hpc).trans hk
  · exact fun r hr => hfilled r (hr.back hi hd hk.symm)

lemma Frame.Given.run {f' : Frame} (hgiven : f.Given (window argv callers) (window argv' callers'))
    (hwaiting : Waiting prog argv argv' callers callers')
    (h : f'.Matches prog g ∧ f'.args = f.args ∧ f'.argc = f.argc) :
    Control.Matches prog argv argv' (.run f' callers) (.run g callers') := by
  obtain ⟨hmatches, hargs, hargc⟩ := h
  refine .run hmatches ?_ hwaiting
  rw [Frame.Given, hargs, hargc]
  exact hgiven

lemma stored_matches (hf : f.Matches prog g) (hb : prog.find f.path = some b) (hinit : b.Initialised)
    (hd : 0 ∈ distances f.i) (hv : v.Alike w) (hs : s.Alike t)
    (hgiven : f.Given (window argv callers) (window argv' callers'))
    (hwaiting : Waiting prog argv argv' callers callers') :
    Agrees Shared.Alike (Control.Matches prog argv argv')
      ((do return .run (← (← f.setA v).next host b 0) callers : Exec Control) s)
      ((do return .run (← (← g.setA w).next host' b 0) callers' : Exec Control) t) := by
  obtain ⟨b', j, stack, hb', hstart, hpc, hi, rfl, hlen, hfilled⟩ := hf
  cases hb.symm.trans hb'
  by_cases ha : (getA f.i).toNat < f.stack.length
  · have ha' : (getA f.i).toNat < stack.length := hlen ▸ ha
    rw [bind_apply_ok (Frame.setA_of_lt ha), bind_apply_ok (Frame.setA_of_lt (f := { f with stack }) ha')]
    have hset : (stack.set (getA f.i).toNat w).length = (f.stack.set (getA f.i).toNat v).length := by
      rw [List.length_set, List.length_set, hlen]
    have hnext := next_matches host host'
      (f := { f with stack := f.stack.set (getA f.i).toNat v }) hb hinit hstart hpc hi hd hset
      (fun r hr => ?_) hs
    · exact hnext.bind (fun _ _ _ _ h hs => agrees_pure (hgiven.run hwaiting h) hs)
    · dsimp only at hr ⊢
      by_cases hra : (getA f.i).toNat = r
      · subst hra
        rw [List.getElem?_set_self ha, List.getElem?_set_self ha']
        exact .some hv
      · rw [List.getElem?_set_ne hra, List.getElem?_set_ne hra]
        exact hfilled r (hr.resolve_right (fun h => hra (mem_fills h).symm))
  · have ha' : stack.length ≤ (getA f.i).toNat := by omega
    rw [bind_apply_error (Frame.setA_of_le (not_lt.mp ha)),
      bind_apply_error (Frame.setA_of_le (f := { f with stack }) ha')]
    exact .error _

variable (host host') in
lemma interpret_matches (path : Path) (args : ℕ) (argc : BitVec 32) (hinit : prog.AllInitialised)
    (hs : s.Alike t) :
    Agrees Shared.Alike (fun g g' => g.Matches prog g' ∧ g.args = args ∧ g.argc = argc)
      (interpret host prog path 0 args argc s) (interpret host' prog path 0 args argc t) := by
  refine agrees_bind_get ?_
  refine (agrees_found_same (prog.find path) hs).bind_of (fun b b' s₁ t₁ hx heq hs₁ => ?_)
  obtain rfl := heq
  obtain ⟨hb, -⟩ := found_eq_ok.mp hx
  have hlt : 0 < b.code.length := List.length_pos_iff.mpr (hinit path b hb).code
  have hword : ∀ (host : Host) (clock : ℕ), fetch host clock b path 0 = some b.code[0] := by
    intro host clock
    rw [← Nat.cast_zero, fetch_code hlt, List.getElem?_eq_getElem hlt]
  rw [hword, hword]
  refine agrees_pure ⟨⟨b, 0, _, hb, rfl, rfl, List.getElem?_eq_getElem hlt, rfl, ?_, ?_⟩, rfl, rfl⟩ hs₁
  · simp
  · exact fun r hr => absurd hr (not_filledAt_zero r)

lemma Frame.Given.argument (h : f.Given (window argv callers) (window argv' callers'))
    (hlt : (getBx f.i).toInt < f.argc.toInt) :
    Option.Rel TValue.Alike (window argv callers)[f.args + (getBx f.i).toNat]?
      (window argv' callers')[f.args + (getBx f.i).toNat]? := by
  refine h _ ?_
  have hcond := BitVec.toInt_eq_toNat_cond f.argc
  have hlow := f.argc.isLt
  rw [getBx_toInt] at hlt
  split at hcond <;> omega

variable (hh : host.Resembles host') (hinit : prog.AllInitialised)

include hh hinit

lemma advance_matches {control control' : Control} (h : control.Matches prog argv argv' control')
    (hs : s.Alike t) (hstray : ∀ f callers b, control = .run f callers → prog.find f.path = some b →
      ¬ f.Peeks host host' b s ∧ ¬ f.Mistyped b) :
    Agrees Shared.Alike (Control.Matches prog argv argv') (advance host prog argv control s)
      (advance host' prog argv' control' t) := by
  cases h with
  | ret hv hwaiting =>
    cases hwaiting with
    | nil => exact agrees_pure (.ret hv .nil) hs
    | @cons f g callers callers' hf hcall hgiven hrest =>
      -- The frame below waits at its CALL, which fills the register A now.
      have hpath : g.path = f.path := by
        obtain ⟨-, -, -, -, -, -, -, rfl, -, -⟩ := hf
        rfl
      rw [advance, advance, hpath]
      refine (agrees_found_same _ hs).bind_of (fun b b' s₁ t₁ hx heq hs₁ => ?_)
      obtain rfl := heq
      obtain ⟨hb, rfl⟩ := found_eq_ok.mp hx
      exact stored_matches hf hb (hinit _ _ hb) (call_distances hcall) hv hs₁ hgiven hrest
  | @run f g callers callers' hf hgiven hwaiting =>
    obtain ⟨b, j, stack, hb, hstart, hpc, hi, rfl, hlen, hfilled⟩ := hf
    have hlt := (List.getElem?_eq_some_iff.mp hi).1
    have hreads : ∀ r ∈ readRegisters f.i, Option.Rel TValue.Alike f.stack[r]? stack[r]? :=
      fun r hr => hfilled r ((hinit _ _ hb).filled j f.i hi r hr)
    obtain ⟨hpeek, hmistyped⟩ := hstray f callers b rfl hb
    have hdispatched : f.dispatched b = some f.i := by
      rw [Frame.dispatched, hstart, hpc, if_pos (by omega)]
    have hdispatched' : Frame.dispatched b { f with stack } = some f.i := hdispatched
    rw [advance, advance, bind_apply_ok (found_eq_ok.mpr ⟨hb, rfl⟩),
      bind_apply_ok (found_eq_ok.mpr ⟨hb, rfl⟩)]
    simp only [hdispatched, hdispatched']
    have hexec := exec_agrees hh (.refl b) hs hreads hpeek (fun _ => hgiven.argument) (.inr hmistyped)
    refine hexec.bind_of (fun a a' s₁ t₁ hx ha hs₁ => ?_)
    have hwithin := exec_within _ _ _ hx
    have hmatches : f.Matches prog { f with stack } :=
      ⟨b, j, stack, hb, hstart, hpc, hi, rfl, hlen, hfilled⟩
    cases ha with
    | store hv => exact stored_matches hmatches hb (hinit _ _ hb) hwithin hv hs₁ hgiven hwaiting
    | go distance =>
      -- No value, so that nothing may count as filled: the operands would be no numbers.
      have hnone : fills f.i = [] := (exec_go_fills hx).resolve_right hmistyped
      have hnext := next_matches host host' hb (hinit _ _ hb) hstart hpc hi hwithin
        hlen (fun r hr => hfilled r (hr.resolve_right (by simp [hnone]))) hs₁
      exact hnext.bind (fun _ _ _ _ h hs => agrees_pure (hgiven.run hwaiting h) hs)
    | leave hv => exact agrees_pure (.ret hv hwaiting) hs₁
    | enter path args argc =>
      -- GETARG reaches only what CALL counts as read.
      obtain ⟨hcall, rfl, rfl⟩ := exec_enter hx
      refine (interpret_matches host host' path _ _ hinit hs₁).bind (fun g g' s₂ t₂ h hs₂ => ?_)
      obtain ⟨hg, hargs, hargc⟩ := h
      refine agrees_pure (.run hg (fun k hk => ?_) (.cons hmatches hcall hgiven hwaiting)) hs₂
      rw [hargc] at hk
      rw [hargs]
      refine hreads _ ?_
      rw [readRegisters, hcall]
      exact List.mem_range'_1.mpr ⟨by omega, by omega⟩

lemma Config.Matches.step (h : c.Matches prog d) (hstray : ¬ c.Strays host host' prog) :
    (c.step host prog).Matches prog (d.step host' prog) := by
  obtain ⟨hs, hcontrol⟩ := h
  have hadvance := advance_matches hh hinit hcontrol hs (fun f callers b hc hb =>
    not_or.mp (fun h => hstray ⟨f, callers, b, hc, hb, h⟩))
  have hgoes : ∀ {x y : Except Halt (Control × Shared)},
      Agrees Shared.Alike (Control.Matches prog c.argv d.argv) x y → (c.goes x).Matches prog (d.goes y) := by
    intro x y h
    cases h with
    | ok hcontrol hs => exact .on ⟨hs.tick, hcontrol⟩
    | error e => exact .halt e
  rw [Config.step, Config.step]
  generalize c.control = control at hcontrol hadvance
  generalize d.control = control' at hcontrol hadvance
  cases hcontrol with
  | run hf hgiven hwaiting => exact hgoes hadvance
  | ret hv hwaiting =>
    cases hwaiting with
    | nil => exact .done hv
    | cons => exact hgoes hadvance

def Config.KnownStep (host host' : Host) (prog : Block) (c d : Config) : Prop :=
  ¬ c.Strays host host' prog ∧ c.step host prog = .on d

lemma Config.Matches.run {k : ℕ} {c' : Config} (h : c.Matches prog d)
    (hrun : Reaches (Config.KnownStep host host' prog) k c c') :
    ∃ d', Reaches (fun c d : Config => c.step host' prog = .on d) k d d' ∧ c'.Matches prog d' := by
  refine hrun.follows (fun c₀ c₁ d₀ hstep h => ?_) h
  have hboth := h.step hh hinit hstep.1
  rw [hstep.2] at hboth
  generalize d₀.step host' prog = x at hboth ⊢
  cases hboth with
  | on h₁ => exact ⟨_, rfl, h₁⟩

end Steps

section Start

variable {libs : List (Option Library)} {n : ℕ}

variable (libs) in
lemma initial_matches (hh : host.Resembles host') (hinit : prog.AllInitialised)
    (hglobals : ∀ j < n, (host.stack 0 j).Alike (host'.stack 0 j)) : ∃ c d,
    Config.initial host prog (Shared.loaded host prog libs n) [] 0 [] = .ok c ∧
    Config.initial host' prog (Shared.loaded host' prog libs n) [] 0 [] = .ok d ∧ c.Matches prog d := by
  have hs := loaded_resembles prog prog libs hh hglobals (fun _ => .refl _)
  have hagrees := interpret_matches host host' [] 0 0 hinit hs
  have hlt : 0 < prog.code.length := List.length_pos_iff.mpr (hinit [] prog rfl).code
  have hword : fetch host (Shared.loaded host prog libs n).clock prog [] 0 = some prog.code[0] := by
    rw [← Nat.cast_zero, fetch_code hlt, List.getElem?_eq_getElem hlt]
  rw [interpret_ok rfl hword] at hagrees
  obtain ⟨g, t, hg, hmatches, hs'⟩ := hagrees.of_ok
  refine ⟨⟨Shared.loaded host prog libs n, .run (.fresh host internalFunctions.length prog [] 0 0
    prog.code[0]) [], []⟩, ⟨t, .run g [], []⟩, ?_, ?_, hs', .run hmatches.1 ?_ .nil⟩
  · rw [Config.initial, interpret_ok rfl hword]
    rfl
  · rw [Config.initial, hg]
    rfl
  · exact fun k hk => absurd hk (Nat.not_lt_zero k)

end Start

def filledBlock : Block :=
  { callBlock with
    code := [OpCode.closure.code, setA OpCode.loadnull.code 1, setC OpCode.call.code 1,
      OpCode.return.code] }

lemma filledBlock_initialised : filledBlock.AllInitialised := by
  intro path b hb
  have hmain : filledBlock.Initialised :=
    Block.initialised_of_table (fun j => [[], [0], [0, 1], [0, 1]].getD j [])
      (List.cons_ne_nil _ _) rfl (by decide +kernel) (by decide +kernel)
  have hecho : echoBlock.Initialised :=
    Block.initialised_of_table (fun j => [[], [0]].getD j [])
      (List.cons_ne_nil _ _) rfl (by decide +kernel) (by decide +kernel)
  rcases path with _ | ⟨_ | i, _ | ⟨j, path⟩⟩
  · cases hb
    exact hmain
  · cases hb
    exact hecho
  · cases hb
  · cases hb
  · cases hb

def strangeHost : Host :=
  { plainHost with
    garbage := fun _ => ⟨7, 7, .empty⟩
    stack := fun _ _ => ⟨.string, ⟨0, 0, .empty⟩⟩ }

/-- A program that fills every register before it reads it does not depend on what memory held: on two
hosts that differ in that only it goes through the same states, up to the registers that are not
filled, for as long as every operator on numbers gets numbers and no word looks beneath its values. -/
theorem runs_ignore_memory (libs : List (Option Library)) (n : ℕ) (hh : host.Resembles host')
    (hinit : prog.AllInitialised) (hglobals : ∀ j < n, (host.stack 0 j).Alike (host'.stack 0 j)) : ∃ c d,
    Config.initial host prog (Shared.loaded host prog libs n) [] 0 [] = .ok c ∧
    Config.initial host' prog (Shared.loaded host' prog libs n) [] 0 [] = .ok d ∧
    ∀ k c', Reaches (Config.KnownStep host host' prog) k c c' →
      ∃ d', Reaches (fun c d : Config => c.step host' prog = .on d) k d d' ∧ c'.Matches prog d' ∧
        (¬ c'.Strays host host' prog → (c'.step host prog).Matches prog (d'.step host' prog)) := by
  obtain ⟨c, d, hc, hd, hmatches⟩ := initial_matches libs hh hinit hglobals
  refine ⟨c, d, hc, hd, fun k c' hrun => ?_⟩
  obtain ⟨d', hreach, hmatches'⟩ := hmatches.run hh hinit hrun
  exact ⟨d', hreach, hmatches', fun hstray => hmatches'.step hh hinit hstray⟩

theorem runs_ignore_memory_filled : ∃ c d,
    Config.initial plainHost filledBlock (Shared.loaded plainHost filledBlock [] 0) [] 0 [] = .ok c ∧
    Config.initial strangeHost filledBlock (Shared.loaded strangeHost filledBlock [] 0) [] 0 [] = .ok d ∧
    ∀ k c', Reaches (Config.KnownStep plainHost strangeHost filledBlock) k c c' →
      ∃ d', Reaches (fun c d : Config => c.step strangeHost filledBlock = .on d) k d d' ∧
        c'.Matches filledBlock d' ∧ (¬ c'.Strays plainHost strangeHost filledBlock →
          (c'.step plainHost filledBlock).Matches filledBlock (d'.step strangeHost filledBlock)) :=
  runs_ignore_memory [] 0 ⟨rfl, rfl, rfl, rfl, rfl, rfl, rfl⟩ filledBlock_initialised
    (fun j hj => absurd hj (Nat.not_lt_zero j))

section Safety

def Host.cleared (host : Host) (n : ℕ) : Host :=
  { host with stack := fun t j => if t = 0 ∧ j < n then host.stack 0 j else nullValue }

lemma cleared_resembles (host : Host) (n : ℕ) : host.Resembles (host.cleared n) :=
  ⟨rfl, rfl, rfl, rfl, rfl, rfl, rfl⟩

lemma cleared_honest {n : ℕ} (hglobals : ∀ j < n, (host.stack 0 j).Live ∧ (host.stack 0 j).tt ≠ .function)
    (hnative : ∀ native t vm path args v, host.call native t vm path args = some v →
      v.Live ∧ (v.tt = .function → v ∈ args)) : (host.cleared n).Honest := by
  refine ⟨fun t j => ?_, hnative⟩
  change TValue.Live (if t = 0 ∧ j < n then host.stack 0 j else nullValue) ∧
    (if t = 0 ∧ j < n then host.stack 0 j else nullValue).tt ≠ .function
  split_ifs with hglobal
  · exact hglobals j hglobal.2
  · exact ⟨fun h => Tag.noConfusion h, fun h => Tag.noConfusion h⟩

variable {n : ℕ} {stack : List TValue}

lemma Frame.Calls.of_alike {native : Native} (h : Frame.Calls { f with stack } t native)
    (hs : s.Alike t) (hcall : opcode f.i = some .call)
    (hreads : ∀ r ∈ readRegisters f.i, Option.Rel TValue.Alike f.stack[r]? stack[r]?) :
    f.Calls s native := by
  obtain ⟨v, func, hv, htag, hfunc, hinternal, hnative⟩ := h
  have hregister := hreads (getB f.i).toNat (by simp [readRegisters, hcall])
  dsimp only at hv
  rw [hv] at hregister
  generalize hu : f.stack[(getB f.i).toNat]? = p at hregister
  cases hregister with
  | @some u _ halike =>
    have htag' : u.tt = .function := halike.1.trans htag
    have hlookup := heap_lookup hs.heap u.value.lo
    rw [← halike.lo (.inl htag'), hfunc] at hlookup
    generalize hfound : s.heap.lookup v.value.lo = q at hlookup
    rw [halike.lo (.inl htag')] at hfound
    cases hlookup with
    | @some func' _ hboth =>
      exact ⟨u, func', hu, htag', hfound, hboth.internal ▸ hinternal, hboth.func.symm.trans hnative⟩

lemma Frame.Traps.of_alike (h : Frame.Traps (host.cleared n) b { f with stack } t) (hs : s.Alike t)
    (hreads : ∀ r ∈ readRegisters f.i, Option.Rel TValue.Alike f.stack[r]? stack[r]?)
    (hpeek : ¬ f.Peeks host host b s) : f.Traps host b s := by
  rcases h with ⟨ho, x, y, hvs, hx, hy, htrap⟩ | hname | ⟨ho, native, hcalls, htrap⟩
  · have hrk : OpCode.rem.rkFields ≠ [] := by decide
    have hboth := operands_alike (f := f) ho hrk (.refl b) hreads hpeek
    rw [hvs] at hboth
    generalize hmem : f.operands b .rem = p at hboth
    cases hboth with
    | @some vs _ hvalues =>
      obtain ⟨x', l, hx', hl, rfl⟩ := List.forall₂_cons_right_iff.mp hvalues
      obtain ⟨y', l', hy', hl', rfl⟩ := List.forall₂_cons_right_iff.mp hl
      obtain rfl := List.forall₂_nil_right_iff.mp hl'
      have htx := hx'.1.trans hx
      have hty := hy'.1.trans hy
      rw [hx'.number htx, hy'.number hty] at htrap
      exact .inl ⟨ho, x', y', hmem, htx, hty, htrap⟩
  · exact .inr (.inl hname)
  · have hcalls' := hcalls.of_alike hs ho hreads
    refine .inr (.inr ⟨ho, native, hcalls', ?_⟩)
    by_contra hsome
    have hblind : host.Blind host native s.clock s.vm f.path
        ((f.stack.drop ((getB f.i).toNat + 1)).take (getC f.i).toNat) := by
      by_contra hblind
      exact hpeek (.inr (.inr (.inr ⟨ho, native, hcalls', hblind⟩)))
    have hrel := hblind t.vm _ hs.vm (handed_alike hreads ho)
    change host.call native t.clock t.vm f.path _ = none at htrap
    rw [hs.clock] at htrap
    rw [htrap] at hrel
    generalize host.call native s.clock s.vm f.path _ = p at hrel hsome
    cases hrel with
    | none => exact hsome rfl

lemma Config.Matches.traps (h : c.Matches prog d) (hinit : prog.AllInitialised)
    (hstray : ¬ c.Strays host host prog) (htraps : d.Traps (host.cleared n) prog) :
    c.Traps host prog := by
  obtain ⟨g, callers', b, hd, hb, htraps⟩ := htraps
  obtain ⟨hs, hcontrol⟩ := h
  rw [hd] at hcontrol
  generalize hc : c.control = control at hcontrol
  cases hcontrol with
  | @run f _ callers _ hf hgiven hwaiting =>
    obtain ⟨b', j, stack, hb', hstart, hpc, hi, rfl, hlen, hfilled⟩ := hf
    cases hb.symm.trans hb'
    refine ⟨f, callers, b, hc, hb, htraps.of_alike hs (fun r hr => ?_) (fun hpeek => ?_)⟩
    · exact hfilled r ((hinit _ _ hb).filled j f.i hi r hr)
    · exact hstray ⟨f, callers, b, hc, hb, .inl hpeek⟩

end Safety

/-- Checked bytecode that fills every register before it reads it faults nowhere but in a quotient that
does not exist, in the names of external functions and in native functions, whatever memory held: of the
host only the globals and the answers of its native functions matter. -/
theorem initialised_runs_safely (libs : List (Option Library)) (n : ℕ) (hprog : prog.Verified)
    (hinit : prog.AllInitialised)
    (hglobals : ∀ j < n, (host.stack 0 j).Live ∧ (host.stack 0 j).tt ≠ .function)
    (hnative : ∀ native t vm path args v, host.call native t vm path args = some v →
      v.Live ∧ (v.tt = .function → v ∈ args)) :
    ∃ c, Config.initial host prog (Shared.loaded host prog libs n) [] 0 [] = .ok c ∧
      ∀ k d, Reaches (Config.KnownStep host host prog) k c d → ¬ d.Strays host host prog →
        d.step host prog = .halt .fault → d.Traps host prog := by
  have hsame : ∀ j < n, (host.stack 0 j).Alike ((host.cleared n).stack 0 j) := by
    intro j hj
    have hcleared : (host.cleared n).stack 0 j = host.stack 0 j := if_pos ⟨rfl, hj⟩
    rw [hcleared]
    exact .refl _
  have hhost := cleared_honest hglobals hnative
  obtain ⟨c, c', hc, hc', hmatches⟩ := initial_matches libs (cleared_resembles host n) hinit hsame
  obtain ⟨e, he, hsound⟩ := @initial_sound (host.cleared n) prog libs n hhost hprog
  cases hc'.symm.trans he
  refine ⟨c, hc, fun k d hrun hstray hfault => ?_⟩
  obtain ⟨d', hreach, hd⟩ := hmatches.run (cleared_resembles host n) hinit hrun
  have hstep := hd.step (cleared_resembles host n) hinit hstray
  rw [hfault] at hstep
  generalize hfault' : d'.step (host.cleared n) prog = x at hstep
  cases hstep with
  | halt => exact hd.traps hinit hstray ((hsound.reaches hhost hprog hreach).traps hhost hprog hfault')

lemma filledBlock_verified : filledBlock.Verified := by
  have hmain : filledBlock.check = true := by decide +kernel
  obtain ⟨-, hchildren⟩ := callBlock_verified
  exact .mk (Block.check_iff.mp hmain) hchildren

theorem initialised_runs_safely_filled : ∃ c,
    Config.initial strangeHost filledBlock (Shared.loaded strangeHost filledBlock [] 0) [] 0 [] = .ok c ∧
      ∀ k d, Reaches (Config.KnownStep strangeHost strangeHost filledBlock) k c d →
        ¬ d.Strays strangeHost strangeHost filledBlock →
        d.step strangeHost filledBlock = .halt .fault → d.Traps strangeHost filledBlock := by
  refine initialised_runs_safely [] 0 filledBlock_verified filledBlock_initialised
    (fun j hj => absurd hj (Nat.not_lt_zero j)) ?_
  rintro native t vm path args v ⟨⟩

end Bijou
