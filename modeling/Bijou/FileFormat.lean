import Bijou.LoadRules

namespace Bijou

open CString Incremental LittleEndian

inductive FileConst where
  | null
  | number (x : LongDouble)
  | boolean (x : BitVec 32)
  | string (text : List Byte)
  | function

/-- A string that the file gives the size 0 has no bytes. -/
structure FileProto where
  source : List Byte
  name : List Byte
  linedefined : BitVec 32
  lastlinedefined : BitVec 32
  maxregisters : Byte
  numglobal : Byte
  numupval : Byte
  numparam : Byte
  k : List FileConst
  code : List Inst
  p : List FileProto

section Read

variable (reader : ℕ → BitVec 32)

def fileString : Load (List Byte) := do
  let size := BitVec.ofNat 64 (ofBytes (← loadBlock reader 8))
  if size = 0 then return [] else loadBlock reader size.toNat

def fileConst : Load FileConst := do
  let type := (← loadChar reader).toInt8.toInt
  match type with
  | 0 => return .null
  | 1 => return .number (← loadNumber reader)
  | 2 => return .boolean (if (← loadChar reader) = 0 then 0 else 1)
  | 3 => return .string (← fileString reader)
  | 4 => return .function
  | _ => fail (.unknownType type)

def fileFields : Load FileProto := do
  let source ← fileString reader
  let name ← fileString reader
  let linedefined ← loadInt reader
  let lastlinedefined ← loadInt reader
  let maxregisters ← loadChar reader
  let numglobal ← loadChar reader
  let numupval ← loadChar reader
  let numparam ← loadChar reader
  let code ← loadCode reader
  let sizek ← loadInt reader
  let k ← forN (fun _ => fileConst reader) 0 sizek.toNat
  return ⟨source, name, linedefined, lastlinedefined, maxregisters, numglobal, numupval, numparam, k,
    code, []⟩

def fileFunctionRound (loop : Unit → Load FileProto) (_ : Unit) : Load FileProto := do
  let f ← fileFields reader
  let sizep ← loadInt reader
  let p ← forN (fun _ => loop ()) 0 sizep.toNat
  return { f with p := p }

abbrev fileFunction : Unit → Load FileProto := fix (fileFunctionRound reader)

def bijouFile : Load FileProto := do
  loadHeader reader
  fileFunction reader ()

end Read

section Store

variable (mem : LoadMemory) (path : Path)

def LoadMemory.string (slot : Slot) (text : List Byte) : CharPtr :=
  if text = [] then .null else ⟨(mem.addr path slot).val, CStr.at (text ++ mem.after path slot)⟩

def FileConst.store (i : ℕ) : FileConst → TValue
  | null => ⟨.null, mem.k path i⟩
  | number x => ⟨.number, (mem.k path i).setNum x⟩
  | boolean x => ⟨.boolean, (mem.k path i).setBool x⟩
  | string text => ⟨.string, .ofString (.new (mem.string path (.const i) text))⟩
  | function => ⟨.null, mem.k path i⟩

end Store

mutual

def FileProto.store (mem : LoadMemory) (path : Path) : FileProto → Proto
  | ⟨source, name, linedefined, lastlinedefined, maxregisters, numglobal, numupval, numparam, k, code,
      p⟩ =>
    ⟨.new (mem.string path .source source), .new (mem.string path .name name), linedefined,
      lastlinedefined, maxregisters, numglobal, numupval, numparam,
      mapFrom (FileConst.store mem path) 0 k, code, storeAll mem path 0 p⟩

def storeAll (mem : LoadMemory) (path : Path) : ℕ → List FileProto → List Proto
  | _, [] => []
  | i, f :: p => f.store mem (i :: path) :: storeAll mem path (i + 1) p

end

section Stored

variable (reader : ℕ → BitVec 32) (mem : LoadMemory) (path : Path)

lemma storeAll_eq (i : ℕ) (p : List FileProto) :
    storeAll mem path i p = mapFrom (fun i f => f.store mem (i :: path)) i p := by
  induction p generalizing i with
  | nil => rfl
  | cons f p ih => rw [storeAll, mapFrom, ih]

lemma store_children (f : FileProto) (p : List FileProto) :
    { f with p := p }.store mem path = { f.store mem path with p := storeAll mem path 0 p } := by
  cases f
  simp only [FileProto.store]

lemma loadString_store (slot : Slot) : loadString reader mem path slot =
    (fileString reader >>= fun text => pure (mem.string path slot text)) := by
  funext s
  rw [loadString, fileString, bind_assoc]
  apply bind_apply_congr rfl
  intro b r _
  dsimp only
  by_cases hsize : BitVec.ofNat 64 (ofBytes b) = 0
  · rw [if_pos hsize, if_pos hsize]
    rfl
  · rw [if_neg hsize, if_neg hsize]
    apply bind_apply_congr rfl
    intro text m hm
    have hne : text ≠ [] := by
      rintro rfl
      have hlen := (loadBlock_done reader hm).2
      exact hsize (BitVec.eq_of_toNat_eq hlen.symm)
    rw [LoadMemory.string, if_neg hne]

lemma loadConstant_store (i : ℕ) : loadConstant reader mem path i =
    (fileConst reader >>= fun c => pure (FileConst.store mem path i c)) := by
  have hstore {α : Type} (p : Load α) (f : α → FileConst) :
      (p >>= fun a => pure (FileConst.store mem path i (f a))) =
        ((p >>= fun a => pure (f a)) >>= fun c => pure (FileConst.store mem path i c)) := by
    simp only [bind_assoc, pure_bind]
  rw [loadConstant, fileConst, bind_assoc]
  congr 1
  funext type
  dsimp only
  cases (UInt8.toInt8 type).toInt with
  | negSucc n => rfl
  | ofNat n =>
    match n with
    | 0 => rfl
    | 1 => exact hstore (loadNumber reader) .number
    | 2 => exact hstore (loadChar reader) (fun c => .boolean (if c = 0 then 0 else 1))
    | 3 =>
      change (loadString reader mem path (.const i) >>= _) = _
      rw [loadString_store, bind_assoc]
      exact hstore (fileString reader) .string
    | 4 => rfl
    | n + 5 => rfl

lemma loadFields_store : loadFields reader mem path = (fileFields reader >>= fun f =>
    pure (fun p => { f.store mem path with p := p })) := by
  have hk (n : ℕ) : forN (loadConstant reader mem path) 0 n =
      (forN (fun _ => fileConst reader) 0 n >>= fun k => pure (mapFrom (FileConst.store mem path) 0 k)) := by
    rw [← forN_map]
    congr 1
    funext i
    exact loadConstant_store reader mem path i
  simp only [loadFields, fileFields, loadString_store, hk, bind_assoc, pure_bind]
  rfl

lemma Shrinks.of_map {α β : Type} {p : Load α} {g : α → β} {s : List Byte}
    (h : Shrinks (p >>= fun a => pure (g a)) s) : Shrinks p s := by
  intro a r hp
  exact h (g a) r (bind_done hp _)

lemma fileFields_shrinks (s : List Byte) : Shrinks (fileFields reader) s := by
  apply Shrinks.of_map (g := fun f p => { f.store default [] with p := p })
  rw [← loadFields_store]
  exact loadFields_shrinks reader default [] s

lemma fileFunctionRound_guarded : Guarded (fileFunctionRound reader) where
  shrinks f hf _ s := by
    apply Shrinks.bind (fileFields_shrinks reader s)
    intro _ r _
    apply Shrinks.bind (loadInt_rule reader shrinks_compositional (loadBlock_shrinks reader) r)
    intro _ m _
    apply Shrinks.bind (forN_property shrinks_compositional _ _ _ (fun _ _ _ => hf _ _) (fun _ => hf _))
    exact fun _ _ _ => shrinks_compositional.pure _ _
  congr f g _ s hf hfg := by
    apply bind_apply_congr rfl
    intro fields r hr
    have hle := (fileFields_shrinks reader s).length_le hr
    apply bind_apply_congr rfl
    intro sizep m hm
    have hlt := loadInt_eats reader r _ _ hm
    apply bind_apply_congr
    · exact forN_congr _ _ _ (fun _ => hf _) (fun i m' hm' => hfg _ m' (by have := hm'.length_le; omega))
    · exact fun _ _ _ => rfl

lemma fileFunction_eq : fileFunction reader () =
    fileFunctionRound reader (fileFunction reader) () :=
  (fileFunctionRound_guarded reader).fix_eq ()

lemma loadFunction_store (s : List Byte) : loadFunction reader mem path s =
    (fileFunction reader () >>= fun f => pure (f.store mem path)) s := by
  induction hn : s.length using Nat.strong_induction_on generalizing path s with
  | _ n ih =>
    rw [loadFunction_eq, loadFunctionRound_eq, loadFields_store, fileFunction_eq, fileFunctionRound]
    simp only [bind_assoc, pure_bind]
    apply bind_apply_congr rfl
    intro f r hf
    have hle := (fileFields_shrinks reader s).length_le hf
    apply bind_apply_congr rfl
    intro sizep m hm
    have hlt := loadInt_eats reader r _ _ hm
    have hloop : forN (fun i => loadFunction reader mem (i :: path)) 0 sizep.toNat m =
        forN (fun i => fileFunction reader () >>= fun f => pure (f.store mem (i :: path))) 0
          sizep.toNat m := by
      apply forN_congr _ _ _ (fun i => loadFunction_shrinks reader mem (i :: path))
      intro i m' hm'
      have := hm'.length_le
      exact ih m'.length (by omega) (i :: path) m' rfl
    rw [forN_map] at hloop
    rw [bind_congr_left hloop, bind_assoc]
    apply bind_apply_congr rfl
    intro p t _
    rw [pure_bind, ← storeAll_eq, store_children]

lemma bijouLoad_store : bijouLoad reader mem =
    (bijouFile reader >>= fun f => pure (f.store mem [])) := by
  rw [bijouLoad, bijouFile, bind_assoc]
  congr 1
  funext _ s
  exact loadFunction_store reader mem [] s

end Stored

structure FileString where
  path : Path
  slot : Slot
  text : List Byte

def constStrings (path : Path) : ℕ → List FileConst → List FileString
  | _, [] => []
  | i, .string text :: k => ⟨path, .const i, text⟩ :: constStrings path (i + 1) k
  | i, _ :: k => constStrings path (i + 1) k

mutual

def FileProto.strings (path : Path) : FileProto → List FileString
  | ⟨source, name, _, _, _, _, _, _, k, _, p⟩ =>
    ⟨path, .source, source⟩ :: ⟨path, .name, name⟩ ::
      (constStrings path 0 k ++ stringsAll path 0 p)

def stringsAll (path : Path) : ℕ → List FileProto → List FileString
  | _, [] => []
  | i, f :: p => f.strings (i :: path) ++ stringsAll path (i + 1) p

end

def TValue.string? (v : TValue) : Option BijouString :=
  if v.tt = .string then some v.value.s else none

mutual

def Proto.strings : Proto → List BijouString
  | ⟨source, name, _, _, _, _, _, _, k, _, p⟩ =>
    source :: name :: (k.filterMap TValue.string? ++ protosStrings p)

def protosStrings : List Proto → List BijouString
  | [] => []
  | f :: p => f.strings ++ protosStrings p

end

def LoadMemory.load (mem : LoadMemory) (t : FileString) : BijouString :=
  .new (mem.string t.path t.slot t.text)

section Strings

variable (mem : LoadMemory)

lemma constStrings_load (path : Path) (k : List FileConst) (i : ℕ) :
    (mapFrom (FileConst.store mem path) i k).filterMap TValue.string? =
      (constStrings path i k).map mem.load := by
  induction k generalizing i with
  | nil => rfl
  | cons c k ih =>
    rw [mapFrom]
    cases c with
    | string text =>
      have hload : TValue.string? (FileConst.store mem path i (.string text)) =
          some (mem.load ⟨path, .const i, text⟩) := rfl
      rw [constStrings, List.map_cons, List.filterMap_cons_some hload, ih]
    | _ =>
      rw [List.filterMap_cons_none rfl, ih]
      rfl

mutual

lemma strings_load (path : Path) :
    ∀ f : FileProto, (f.store mem path).strings = (f.strings path).map mem.load
  | ⟨source, name, linedefined, lastlinedefined, maxregisters, numglobal, numupval, numparam, k, code,
      p⟩ => by
    simp only [FileProto.store, Proto.strings, FileProto.strings, List.map_cons, List.map_append,
      constStrings_load, stringsAll_load path p]
    rfl

lemma stringsAll_load (path : Path) : ∀ (p : List FileProto) (i : ℕ),
    protosStrings (storeAll mem path i p) = (stringsAll path i p).map mem.load
  | [], _ => rfl
  | f :: p, i => by
    rw [storeAll, protosStrings, stringsAll, List.map_append, strings_load (i :: path) f,
      stringsAll_load path p]

end

variable {mem} {t : FileString}

lemma load_of_nil (h : t.text = []) : mem.load t = .new .null := by
  rw [LoadMemory.load, LoadMemory.string, if_pos h]

lemma load_of_ne (h : t.text ≠ []) :
    (mem.load t).len = BitVec.ofNat 64 (cstr (t.text ++ mem.after t.path t.slot)).length := by
  rw [LoadMemory.load, LoadMemory.string, if_neg h]
  exact if_neg (mem.addr t.path t.slot).property

lemma load_of_mem (h : 0 ∈ t.text) : (mem.load t).len = BitVec.ofNat 64 (cstr t.text).length := by
  rw [load_of_ne (List.ne_nil_of_mem h), cstr_append_of_mem h]

end Strings

def FitsInside (text : List Byte) (x : BijouString) : Prop :=
  if text = [] then x = .new .null else x.len.toNat < text.length

section Inside

variable (reader : ℕ → BitVec 32) (s : List Byte)

/-- Of every string that is loaded from a file: the length is smaller than the size in the file, and
no memory beyond the bytes of the file decides it. -/
structure StringsInside : Prop where
  inside : ∀ f r, bijouFile reader s = .done f r → ∀ mem p m, bijouLoad reader mem s = .done p m →
    List.Forall₂ FitsInside ((f.strings []).map FileString.text) p.strings
  determined : ∀ mem mem' p p' r r', bijouLoad reader mem s = .done p r →
    bijouLoad reader mem' s = .done p' r' →
      p.strings.map BijouString.len = p'.strings.map BijouString.len

def Terminated : Prop := ∀ f r, bijouFile reader s = .done f r →
  ∀ t ∈ f.strings [], t.text ≠ [] → 0 ∈ t.text

variable {reader s}

lemma load_fits {mem : LoadMemory} {t : FileString} (h : t.text ≠ [] → 0 ∈ t.text) :
    FitsInside t.text (mem.load t) := by
  by_cases hne : t.text = []
  · rw [FitsInside, if_pos hne]
    exact load_of_nil hne
  · have hlt := length_cstr_lt (h hne)
    rw [FitsInside, if_neg hne, load_of_mem (h hne), BitVec.toNat_ofNat]
    exact (Nat.mod_le _ _).trans_lt hlt

lemma load_len_eq (mem mem' : LoadMemory) {t : FileString} (h : t.text ≠ [] → 0 ∈ t.text) :
    (mem.load t).len = (mem'.load t).len := by
  by_cases hne : t.text = []
  · rw [load_of_nil hne, load_of_nil hne]
  · rw [load_of_mem (h hne), load_of_mem (h hne)]

def LoadMemory.followedBy (u : List Byte) : LoadMemory :=
  { (default : LoadMemory) with after := fun _ _ => u }

lemma mem_of_len_eq {t : FileString} (hne : t.text ≠ [])
    (h : ((LoadMemory.followedBy [0]).load t).len = ((LoadMemory.followedBy [1, 0]).load t).len) :
    0 ∈ t.text := by
  by_contra hmem
  have hcstr : cstr (t.text ++ [0]) = t.text := cstr_terminated hmem []
  have hcstr' : cstr (t.text ++ [1, 0]) = t.text ++ [1] := by
    have hmem' : 0 ∉ t.text ++ [1] := by simpa using hmem
    have hterm := cstr_terminated hmem' []
    rwa [List.append_assoc] at hterm
  rw [load_of_ne hne, load_of_ne hne] at h
  change BitVec.ofNat 64 (cstr (t.text ++ [0])).length =
    BitVec.ofNat 64 (cstr (t.text ++ [1, 0])).length at h
  rw [hcstr, hcstr', List.length_append, List.length_singleton, BitVec.ofNat_add] at h
  have hone : (1 : BitVec 64) = 0 := by simpa using h.symm
  cases hone

theorem stringsInside_iff (reader : ℕ → BitVec 32) (s : List Byte) :
    StringsInside reader s ↔ Terminated reader s := by
  have hload (mem : LoadMemory) {f : FileProto} {r : List Byte} (hf : bijouFile reader s = .done f r) :
      bijouLoad reader mem s = .done (f.store mem []) r := by
    rw [bijouLoad_store, bind_done hf]
    rfl
  constructor
  · rintro ⟨-, hdet⟩ f r hf t ht hne
    have hlens := hdet (.followedBy [0]) (.followedBy [1, 0]) _ _ _ _ (hload _ hf) (hload _ hf)
    rw [strings_load, strings_load, List.map_map, List.map_map, List.map_inj_left] at hlens
    exact mem_of_len_eq hne (hlens t ht)
  · intro h
    constructor
    · intro f r hf mem p m hp
      rw [hload mem hf] at hp
      obtain ⟨rfl, rfl⟩ : f.store mem [] = p ∧ r = m := by simpa using hp
      rw [strings_load, List.forall₂_map_left_iff, List.forall₂_map_right_iff, List.forall₂_same]
      exact fun t ht => load_fits (h f r hf t ht)
    · intro mem mem' p p' r r' hp hp'
      rw [bijouLoad_store, bind_eq_done] at hp
      obtain ⟨f, m, hf, hp⟩ := hp
      rw [hload mem' hf] at hp'
      obtain ⟨rfl, -⟩ : f.store mem [] = p ∧ m = r := by simpa using hp
      obtain ⟨rfl, -⟩ : f.store mem' [] = p' ∧ m = r' := by simpa using hp'
      rw [strings_load, strings_load, List.map_map, List.map_map, List.map_inj_left]
      exact fun t ht => load_len_eq mem mem' (h f m hf t ht)

def unterminatedFile : List Byte := header ++ toBytes 8 1 ++ [65] ++ List.replicate 32 0

theorem unterminated_source :
    let source (u : List Byte) :=
      (bijouLoad Bijou.reader (.followedBy u) unterminatedFile).value?.map (fun p => p.source.len)
    source [0] = some 1 ∧ source [1, 0] = some 2 ∧ ¬ ∀ s, StringsInside Bijou.reader s := by
  intro source
  have hone : source [0] = some 1 := by decide +kernel
  have htwo : source [1, 0] = some 2 := by decide +kernel
  refine ⟨hone, htwo, fun h => ?_⟩
  obtain ⟨p, hp, hlen⟩ := Option.map_eq_some_iff.mp hone
  obtain ⟨p', hp', hlen'⟩ := Option.map_eq_some_iff.mp htwo
  obtain ⟨r, hr⟩ := Outcome.done_of_value hp
  obtain ⟨r', hr'⟩ := Outcome.done_of_value hp'
  have hlens := (h unterminatedFile).determined _ _ p p' r r' hr hr'
  cases p
  cases p'
  rw [Proto.strings, Proto.strings, List.map_cons, List.map_cons] at hlens
  have hsource := (List.cons.inj hlens).1
  rw [hlen, hlen'] at hsource
  cases hsource

end Inside

end Bijou
