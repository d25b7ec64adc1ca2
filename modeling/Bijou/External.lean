import Bijou.Dispatch

namespace Bijou

open CString

abbrev Loader := StateM (Option CStr)

namespace Library

variable (lib : Library) (name : List Byte)

def dlsym : Loader (Option (BitVec 64)) := do
  match lib.sym name with
  | none =>
    set (some (lib.error name))
    return none
  | some addr => return addr

def func : Option (BitVec 64) := lib.sym (bytes "func_" ++ name)

def args : Option (BitVec 64) := lib.sym (bytes "args_" ++ name)

def Exports : Prop := (lib.func name).isSome = true ∧ (lib.args name).isSome = true

instance : Decidable (lib.Exports name) := inferInstanceAs (Decidable (_ ∧ _))

end Library

def dlerror : Loader (Option CStr) := do
  let error ← get
  set (none : Option CStr)
  return error

/-- The loop over `vm->libs`, with `error` as the pass before left it. -/
def searchLibs (name : List Byte) : List Library → Option CStr →
    Loader (Option (BitVec 64 × BitVec 64) × Option CStr)
  | [], error => return (none, error)
  | lib :: libs, _ => do
    let numArgs ← lib.dlsym (bytes "args_" ++ name)
    let fptr ← lib.dlsym (bytes "func_" ++ name)
    let error ← dlerror
    match fptr, numArgs with
    | some fptr, some numArgs => return (some (fptr, numArgs), error)
    | _, _ => searchLibs name libs error

section Search

variable {name : List Byte} {libs : List Library} {lib : Library} {error : Option CStr}

lemma findExternal_eq {a : Allocator} (hroom : a.Spare (5 + name.length)) (libs : List Library)
    (error : Option CStr) :
    findExternal a name (libs.map some) error = .ok (searchLibs name libs error none).1 := by
  induction libs generalizing error with
  | nil => rfl
  | cons lib libs ih =>
    simp only [List.map_cons, findExternal, if_neg (not_not.mpr hroom), searchLibs, Library.dlsym, dlerror]
    cases lib.sym (bytes "args_" ++ name) <;> cases lib.sym (bytes "func_" ++ name)
    · exact ih _
    · exact ih _
    · exact ih _
    · rfl

lemma findExternal_overrun {a : Allocator} (hroom : ¬ a.Spare (5 + name.length)) (hne : libs ≠ [])
    (error : Option CStr) : findExternal a name (libs.map some) error = .error .fault := by
  obtain ⟨lib, libs, rfl⟩ := List.exists_cons_of_ne_nil hne
  rw [List.map_cons, findExternal, if_pos hroom]
  rfl

lemma searchLibs_skip (h : ¬ lib.Exports name) (libs : List Library) (error : Option CStr) :
    ∃ error', (searchLibs name (lib :: libs) error none).1 = (searchLibs name libs error' none).1 := by
  simp only [searchLibs, Library.dlsym, dlerror]
  rw [Library.Exports, Library.func, Library.args] at h
  cases ha : lib.sym (bytes "args_" ++ name) with
  | none => cases lib.sym (bytes "func_" ++ name) <;> exact ⟨_, rfl⟩
  | some numArgs =>
    cases hf : lib.sym (bytes "func_" ++ name) with
    | none => exact ⟨_, rfl⟩
    | some fptr => exact absurd ⟨by rw [hf]; rfl, by rw [ha]; rfl⟩ h

lemma searchLibs_first {before after : List Library} {fptr numArgs : BitVec 64}
    (hbefore : ∀ l ∈ before, ¬ l.Exports name) (hf : lib.func name = some fptr)
    (ha : lib.args name = some numArgs) (error : Option CStr) :
    (searchLibs name (before ++ lib :: after) error none).1 = (some (fptr, numArgs), none) := by
  induction before generalizing error with
  | nil =>
    rw [Library.func] at hf
    rw [Library.args] at ha
    simp only [List.nil_append, searchLibs, Library.dlsym, dlerror, hf, ha]
    rfl
  | cons l before ih =>
    obtain ⟨error', hskip⟩ := searchLibs_skip (hbefore l (by simp)) (before ++ lib :: after) error
    exact hskip.trans (ih (fun m hm => hbefore m (by simp [hm])) error')

lemma searchLibs_none (h : ∀ l ∈ libs, ¬ l.Exports name) (error : Option CStr) :
    (searchLibs name libs error none).1.1 = none := by
  induction libs generalizing error with
  | nil => rfl
  | cons l libs ih =>
    obtain ⟨error', hskip⟩ := searchLibs_skip (h l (by simp)) libs error
    rw [hskip]
    exact ih (fun m hm => h m (by simp [hm])) error'

lemma first_exports (h : ∃ l ∈ libs, l.Exports name) : ∃ before lib after fptr numArgs,
    libs = before ++ lib :: after ∧ (∀ l ∈ before, ¬ l.Exports name) ∧ lib.func name = some fptr ∧
      lib.args name = some numArgs := by
  obtain ⟨l, hl, hexports⟩ := h
  obtain ⟨lib, hlib⟩ : ∃ lib, libs.find? (fun lib => decide (lib.Exports name)) = some lib :=
    Option.isSome_iff_exists.mp (List.find?_isSome.mpr ⟨l, hl, decide_eq_true hexports⟩)
  obtain ⟨hlib, before, after, hsplit, hbefore⟩ := List.find?_eq_some_iff_append.mp hlib
  obtain ⟨hf, ha⟩ := of_decide_eq_true hlib
  obtain ⟨fptr, hf⟩ := Option.isSome_iff_exists.mp hf
  obtain ⟨numArgs, ha⟩ := Option.isSome_iff_exists.mp ha
  exact ⟨before, lib, after, fptr, numArgs, hsplit, by simpa using hbefore, hf, ha⟩

end Search

def TValue.Names (v : TValue) (name : List Byte) : Prop :=
  v.tt = .string ∧ v.value.s.Live ∧ v.value.s.ptr.text.chars = name

section Word

variable {host : Host} {prog b : Block} {f : Frame} {s s' : Shared} {argv : List TValue}
  {callers : List Frame} {tval : TValue} {name : List Byte} {libs : List Library}

lemma exec_getexternal (ho : opcode f.i = some .getexternal)
    (hk : b.k[(getB f.i).toNat]? = some tval) : exec host b f argv s =
      (getExternal host tval >>= fun v => pure (.store v)) s := by
  rw [exec, bind_apply_ok (get_eq_ok.mpr rfl)]
  simp only [ho]
  exact bind_apply_ok (found_eq_ok.mpr ⟨hk, rfl⟩) _

lemma getExternal_find (hname : tval.Names name) (hlibs : s.vm.libs = libs.map some) (hne : libs ≠ []) :
    getExternal host tval s =
      match findExternal host.allocator name (libs.map some) none with
      | .ok (some (fptr, numArgs), none) => .ok
        (createFunction (host.garbage s.clock) (host.malloc s.clock), { s with
          heap := (host.malloc s.clock, ⟨some (.external fptr), host.int numArgs, tval.value.s.ptr, 2,
            none⟩) :: s.heap })
      | .ok (_, error) => .error (.exit 1 (.dynamicLoad error))
      | .error e => .error e := by
  obtain ⟨htt, hlive, rfl⟩ := hname
  have hsome : s.vm.libs ≠ [] := by rw [hlibs]; simpa using hne
  rw [getExternal, bind_apply_ok (get_eq_ok.mpr rfl)]
  dsimp only
  rw [if_neg (not_not.mpr htt), if_neg hsome, if_neg hlive, hlibs]
  rcases findExternal host.allocator tval.value.s.ptr.text.chars (libs.map some) none with
    e | ⟨_ | ⟨fptr, numArgs⟩, _ | error⟩ <;> rfl

lemma getExternal_overrun (hname : tval.Names name) (hlibs : s.vm.libs = libs.map some) (hne : libs ≠ [])
    (hroom : ¬ host.allocator.Spare (5 + name.length)) : getExternal host tval s = .error .fault := by
  rw [getExternal_find hname hlibs hne, findExternal_overrun hroom hne]

lemma getExternal_eq (hname : tval.Names name) (hlibs : s.vm.libs = libs.map some) (hne : libs ≠ [])
    (hroom : host.allocator.Spare (5 + name.length)) :
    getExternal host tval s =
      match (searchLibs name libs none none).1 with
      | (some (fptr, numArgs), none) => .ok
        (createFunction (host.garbage s.clock) (host.malloc s.clock), { s with
          heap := (host.malloc s.clock, ⟨some (.external fptr), host.int numArgs, tval.value.s.ptr, 2,
            none⟩) :: s.heap })
      | (_, error) => .error (.exit 1 (.dynamicLoad error)) := by
  rw [getExternal_find hname hlibs hne, findExternal_eq hroom]
  rcases (searchLibs name libs none none).1 with ⟨_ | ⟨fptr, numArgs⟩, _ | error⟩ <;> rfl

section Lookup

variable (host prog b f s argv callers) (tval : TValue) (name : List Byte) (libs : List Library)

structure ExternalLookup : Prop where
  stores : ∀ before lib after fptr numArgs, libs = before ++ lib :: after →
    (∀ l ∈ before, ¬ l.Exports name) → lib.func name = some fptr → lib.args name = some numArgs →
      ∃ v s', exec host b f (window argv callers) s = .ok (.store v, s') ∧ v.tt = .function ∧
        s'.heap.lookup v.value.lo =
          some ⟨some (.external fptr), host.int numArgs, tval.value.s.ptr, 2, none⟩ ∧
        ((getA f.i).toNat < f.stack.length → advance host prog argv (.run f callers) s =
          Frame.dispatch host b { f with stack := f.stack.set (getA f.i).toNat v } callers s')
  exits : (∃ status m, advance host prog argv (.run f callers) s = .error (.exit status m)) ↔
    ∀ lib ∈ libs, ¬ lib.Exports name

end Lookup

lemma external_found (h : f.At prog b .getexternal) (hk : b.k[(getB f.i).toNat]? = some tval)
    (hname : tval.Names name) (hlibs : s.vm.libs = libs.map some) (hne : libs ≠ [])
    (hroom : host.allocator.Spare (5 + name.length)) {before after : List Library} {lib : Library}
    {fptr numArgs : BitVec 64} (hsplit : libs = before ++ lib :: after)
    (hbefore : ∀ l ∈ before, ¬ l.Exports name) (hf : lib.func name = some fptr)
    (ha : lib.args name = some numArgs) :
    exec host b f (window argv callers) s = .ok (.store
      (createFunction (host.garbage s.clock) (host.malloc s.clock)), { s with
        heap := (host.malloc s.clock, ⟨some (.external fptr), host.int numArgs,
          tval.value.s.ptr, 2, none⟩) :: s.heap }) := by
  have hget : getExternal host tval s = _ := getExternal_eq hname hlibs hne hroom
  rw [hsplit, searchLibs_first hbefore hf ha none] at hget
  rw [exec_getexternal h.op hk, bind_apply_ok hget]
  rfl

lemma externalLookup_of_room (h : f.At prog b .getexternal) (hk : b.k[(getB f.i).toNat]? = some tval)
    (hname : tval.Names name) (hlibs : s.vm.libs = libs.map some) (hne : libs ≠ [])
    (hroom : host.allocator.Spare (5 + name.length)) :
    ExternalLookup host prog b f s argv callers tval name libs := by
  refine ⟨fun before lib after fptr numArgs hsplit hbefore hf ha => ?_, ?_, fun hnone => ?_⟩
  · have hx : exec host b f (window argv callers) s = _ :=
      external_found h hk hname hlibs hne hroom hsplit hbefore hf ha
    exact ⟨_, _, hx, rfl, List.lookup_cons_self, fun hA => h.advance_store hx hA⟩
  · rintro ⟨status, m, hexit⟩ l hl hexports
    obtain ⟨before, lib, after, fptr, numArgs, hsplit, hbefore, hf, ha⟩ := first_exports ⟨l, hl, hexports⟩
    have hx : exec host b f (window argv callers) s = _ :=
      external_found h hk hname hlibs hne hroom hsplit hbefore hf ha
    by_cases hA : (getA f.i).toNat < f.stack.length
    · exact Frame.dispatch_ne_exit ((h.advance_store hx hA).symm.trans hexit)
    · rw [h.advance_store_fault hx (by omega)] at hexit
      cases hexit
  · have hget : getExternal host tval s = _ := getExternal_eq hname hlibs hne hroom
    have hsearch := searchLibs_none hnone none
    rcases hfound : (searchLibs name libs none none).1 with ⟨found, error⟩
    rw [hfound] at hsearch hget
    obtain rfl : found = none := hsearch
    refine ⟨1, .dynamicLoad error, h.advance_error ?_⟩
    rw [exec_getexternal h.op hk]
    exact bind_apply_error hget _

lemma external_overruns (h : f.At prog b .getexternal) (hk : b.k[(getB f.i).toNat]? = some tval)
    (hname : tval.Names name) (hlibs : s.vm.libs = libs.map some) (hne : libs ≠ [])
    (hroom : ¬ host.allocator.Spare (5 + name.length)) :
    exec host b f (window argv callers) s = .error .fault := by
  rw [exec_getexternal h.op hk]
  exact bind_apply_error (getExternal_overrun hname hlibs hne hroom) _

lemma ExternalLookup.not_fault (h : f.At prog b .getexternal)
    (hlookup : ExternalLookup host prog b f s argv callers tval name libs) :
    exec host b f (window argv callers) s ≠ .error .fault := by
  intro hfault
  by_cases hnone : ∀ lib ∈ libs, ¬ lib.Exports name
  · obtain ⟨status, m, hexit⟩ := hlookup.exits.mpr hnone
    rw [h.advance_error hfault] at hexit
    cases hexit
  · push Not at hnone
    obtain ⟨before, lib, after, fptr, numArgs, hsplit, hbefore, hf, ha⟩ := first_exports hnone
    obtain ⟨v, s', hx, -⟩ := hlookup.stores before lib after fptr numArgs hsplit hbefore hf ha
    cases hx.symm.trans hfault

theorem external_lookup_iff (h : f.At prog b .getexternal) (hk : b.k[(getB f.i).toNat]? = some tval)
    (hname : tval.Names name) (hlibs : s.vm.libs = libs.map some) (hne : libs ≠ []) :
    ExternalLookup host prog b f s argv callers tval name libs ↔ host.allocator.Spare (5 + name.length) := by
  refine ⟨fun hlookup => ?_, externalLookup_of_room h hk hname hlibs hne⟩
  by_contra hroom
  exact hlookup.not_fault h (external_overruns h hk hname hlibs hne hroom)

end Word

def symbolLibrary (symbols : List (List Byte × BitVec 64)) : Library where
  sym name := symbols.lookup name
  error name := CStr.at (bytes "undefined symbol: " ++ name)

def nameValue (name : List Byte) : TValue := ⟨.string, .ofString (.new (.to (CStr.at name)))⟩

def linked (libs : List Library) : Shared :=
  { wordState [] with vm := { (wordState []).vm with libs := libs.map some } }

theorem external_lookup_iff_second :
    let libs := [symbolLibrary [(bytes "func_test", 1)],
      symbolLibrary [(bytes "args_test", 2), (bytes "func_test", 3)]]
    let name := nameValue (bytes "test")
    let i := OpCode.getexternal.code
    (ExternalLookup plainHost (wordBlock [name] i) (wordBlock [name] i) (wordFrame [nullValue] i) (linked libs)
      [] [] name (bytes "test") libs ↔ plainHost.allocator.Spare (5 + (bytes "test").length)) ∧
    plainHost.allocator.Spare (5 + (bytes "test").length) := by
  intro libs name i
  exact ⟨external_lookup_iff (wordFrame_at (by decide)) (by decide) ⟨rfl, one_addr, by decide⟩ rfl (by decide),
    by decide⟩

theorem long_name_overruns :
    let text := bytes "getaddrinfo_request"
    let libs := [symbolLibrary [], symbolLibrary [(bytes "args_" ++ text, 2), (bytes "func_" ++ text, 3)]]
    let name := nameValue text
    let i := OpCode.getexternal.code
    text.length = 19 ∧ exec plainHost (wordBlock [name] i) (wordFrame [nullValue] i) (window [] []) (linked libs) =
      .error .fault ∧
    ¬ ExternalLookup plainHost (wordBlock [name] i) (wordBlock [name] i) (wordFrame [nullValue] i) (linked libs)
      [] [] name text libs := by
  intro text libs name i
  have hat : (wordFrame [nullValue] i).At (wordBlock [name] i) (wordBlock [name] i) .getexternal :=
    wordFrame_at (by decide)
  have hname : name.Names text := ⟨rfl, one_addr, by decide⟩
  have hfault : exec plainHost (wordBlock [name] i) (wordFrame [nullValue] i) (window [] []) (linked libs) =
      .error .fault := external_overruns hat (by decide) hname rfl (by decide) (by decide)
  exact ⟨by decide, hfault, fun h => h.not_fault hat hfault⟩

end Bijou
