import Bijou.CompilerRules

namespace Bijou

open CString Incremental

def Place.Blind : Place → Prop
  | charBlank | nextBody | lineQuote | expectBody => False
  | charComment | nextQuote | lineBlank | lineBody _ | lineComment | argsBlank | argsBody
  | argsComment => True

lemma readChar_blind {s : List Byte} {q : Place} (h : readChar true s = .await q) (hq : q.Blind) (k : ℕ) :
    ∃ q', readChar true (s ++ List.replicate k eof) = .await q' := by
  obtain ⟨t, ht, rfl⟩ := modeAfter_of_await h
  rw [readChar, scan_append ht]
  cases t with
  | blank => exact hq.elim
  | comment =>
    have hlive : ∀ t : CharMode, t = .comment → ∃ t', charStep true t eof = .go t' ∧ t' = .comment := by
      rintro t rfl
      exact ⟨_, rfl, rfl⟩
    exact scan_replicate hlive rfl k

lemma readChar_eof {s : List Byte} {q : Place} (h : readChar true s = .await q) (hq : ¬ q.Blind)
    (t : List Byte) : readChar true (s ++ eof :: t) = .done eof t := by
  obtain ⟨m, hm, rfl⟩ := modeAfter_of_await h
  rw [readChar, scan_append hm]
  cases m with
  | blank => rfl
  | comment => exact (hq trivial).elim

lemma readNext_resolves (s : List Byte) : Resolves eof Place.Blind (fun _ => True) readNext s := by
  refine Steady.resolves_bind (scan_steady _ s) ?_ ?_ ?_
  · intro q hq hb k
    obtain ⟨q', hk⟩ := readChar_blind hq hb k
    exact ⟨q', bind_await hk _⟩
  · intro q hq hb
    exact ⟨2, .unexpectedEof, trivial, bind_done (readChar_eof hq hb [eof]) _⟩
  · intro c r _
    apply scan_resolves
    · intro t ht
      cases t with
      | body string => exact ht.elim
      | quote string => exact ⟨_, rfl, trivial⟩
    · intro t ht
      cases t with
      | body string => exact ⟨_, trivial, rfl⟩
      | quote string => exact (ht trivial).elim

lemma readLine_resolves (s : List Byte) : Resolves eof Place.Blind (fun _ => True) readLine s := by
  apply scan_resolves
  · intro t ht
    cases t with
    | quote string => exact ht.elim
    | _ => exact ⟨_, rfl, trivial⟩
  · intro t ht
    cases t with
    | quote string => exact ⟨_, trivial, rfl⟩
    | _ => exact (ht trivial).elim

lemma readArg_resolves (s : List Byte) : Resolves eof Place.Blind (fun _ => True) readArg s := by
  apply scan_resolves
  · intro t ht
    cases t <;> exact ⟨_, rfl, trivial⟩
  · intro t ht
    cases t <;> exact (ht trivial).elim

lemma readArg_eof (k : ℕ) : ∃ q, readArg (List.replicate k eof) = .await q := by
  have hlive : ∀ t : ArgMode, (∃ arg, t = .body arg) →
      ∃ t', argStep t eof = .go t' ∧ ∃ arg, t' = .body arg := by
    rintro t ⟨arg, rfl⟩
    exact ⟨_, rfl, _, rfl⟩
  exact scan_replicate hlive ⟨[], rfl⟩ k

lemma skipBlank_eof {s : List Byte} {q : Place} (h : skipBlank s = .await q) (k : ℕ) :
    skipBlank (s ++ eof :: List.replicate k eof) = .done false (List.replicate k eof) := by
  obtain ⟨m, hm, rfl⟩ := modeAfter_of_await h
  rw [skipBlank, scan_append hm]
  rfl

lemma readArgsFrom_resolves (n : ℕ) (args : List (BitVec 32)) (arg s : List Byte) :
    Resolves eof Place.Blind (fun _ => True) (readArgsFrom n args arg) s := by
  have hC := resolves_compositional eof Place.Blind (fun _ : CompileError => True)
  induction n generalizing args arg s with
  | zero => exact hC.pure _ _
  | succ n ih =>
    unfold readArgsFrom
    cases parseArg arg with
    | error e => exact hC.fail _ _
    | ok v =>
      refine Steady.resolves_bind (scan_steady _ s) ?_ ?_ ?_
      · intro q hq _ k
        cases k with
        | zero =>
          rw [List.replicate_zero, List.append_nil]
          exact ⟨q, bind_await hq _⟩
        | succ k =>
          obtain ⟨q', hk⟩ := readArg_eof k
          rw [List.replicate_succ, bind_done (skipBlank_eof hq k), if_neg Bool.false_ne_true]
          exact ⟨q', bind_await hk _⟩
      · intro q hq hb
        obtain ⟨m, -, rfl⟩ := modeAfter_of_await hq
        exact (hb trivial).elim
      · intro eol r _
        split
        · exact hC.pure _ _
        · apply hC.bind (readArg_resolves r)
          intro arg' m _
          cases arg' with
          | none => exact hC.pure _ _
          | some arg' => exact ih _ _ _

lemma readArgs_resolves (s : List Byte) : Resolves eof Place.Blind (fun _ => True) readArgs s :=
  (resolves_compositional eof Place.Blind _).bind (readNext_resolves s)
    (fun arg r _ => readArgsFrom_resolves 3 [] arg r)

lemma expect_mismatch {str l : List Byte} {c : Byte} (hstr : c ∉ str) (hl : c ∈ l)
    (hlen : l.length ≤ str.length) : cstr l ≠ str := by
  intro h
  have hle : l.length ≤ (cstr l).length := by rwa [h]
  have heq : cstr l = l := (List.takeWhile_prefix _).eq_of_length_le hle
  rw [heq] at h
  exact hstr (h ▸ hl)

lemma expect_resolves (str s : List Byte) (hstr : eof ∉ str) :
    Resolves eof Place.Blind (fun _ => True) (expect str) s := by
  have hC := resolves_compositional eof Place.Blind (fun _ : CompileError => True)
  unfold expect
  split
  · exact hC.pure _ _
  obtain ⟨n, hn⟩ : ∃ n, str.length = n + 1 :=
    Nat.exists_eq_succ_of_ne_zero (List.length_eq_zero_iff.not.mpr ‹_›)
  rw [forN_next, hn, Nat.add_sub_cancel]
  -- with EOFs enough the characters are read, and one of them is EOF
  have hfail : ∀ c l, l.length = n → eof ∈ c :: l →
      (do
        let l ← take .expectBody n
        if cstr (c :: l) = str then pure () else fail (.expected str (c :: l)) : Scan Unit) l =
        .exit (.expected str (c :: l)) := by
    rintro c l rfl he
    have ht : (take .expectBody l.length : Scan (List Byte)) l = .done l [] := by
      have := take_append CompileError Place.expectBody l []
      rwa [List.append_nil] at this
    rw [bind_done ht, if_neg (expect_mismatch hstr he (by simp [hn]))]
    rfl
  refine Steady.resolves_bind (scan_steady _ s) ?_ ?_ ?_
  · intro q hq hb k
    obtain ⟨q', hk⟩ := readChar_blind hq hb k
    exact ⟨q', bind_await hk _⟩
  · intro q hq hb
    refine ⟨n + 1, .expected str (eof :: List.replicate n eof), trivial, ?_⟩
    rw [List.replicate_succ, bind_done (readChar_eof hq hb _)]
    exact hfail _ _ (by simp) (by simp)
  · intro c r _
    refine Steady.resolves_bind (take_steady _ _ r) ?_ ?_ ?_
    · intro q hq hb
      exact ((take_await hq).1 ▸ hb : Place.expectBody.Blind).elim
    · intro q hq hb
      have hlt := (take_await hq).2
      refine ⟨n - r.length, .expected str (c :: (r ++ List.replicate (n - r.length) eof)), trivial, ?_⟩
      exact hfail _ _ (by simp; omega) (by simp; omega)
    · intro l m _
      split
      · exact hC.pure _ _
      · exact hC.fail _ _

lemma resolves_scanned : Scanners.plain.Scanned (fun _ => Resolves eof Place.Blind (fun _ => True)) where
  toCompositional := resolves_compositional _ _ _
  expect str s h := expect_resolves str s ((by decide : ∀ str ∈ sectionWords, eof ∉ str) str h)
  readNext := readNext_resolves
  readArgs := readArgs_resolves
  pushChild _ _ s := (resolves_compositional _ _ _).pure _ s
  readLine := readLine_resolves

variable (mem : Memory)

lemma compileFunction_resolves (path : Path) (b : Block) (file : List Byte) :
    Resolves eof Place.Blind (fun _ => True) (compileFunction mem path b) file :=
  compileFunction_rule mem path b resolves_scanned file

theorem compileFunction_terminates_iff (path : Path) (b : Block) (file : List Byte) :
    Terminates eof (compileFunction mem path b) file ↔
      ∀ q, compileFunction mem path b file = .await q → ¬ q.Blind :=
  (compileFunction_resolves mem path b file).terminates_iff

theorem compileFunction_hangs_in_comment :
    ¬ Terminates eof (compileFunction default [] (Block.new default)) [semicolon] := by
  have hchar : readChar true [semicolon] = .await .charComment := rfl
  have hexpect : expect (bytes ">HEAD") [semicolon] = .await .charComment := bind_await hchar _
  have hawait : compileFunction default [] (Block.new default) [semicolon] = .await .charComment :=
    bind_await (bind_await hexpect _) _
  rw [(compileFunction_resolves default [] _ _).terminates_iff]
  exact fun h => h _ hawait trivial

end Bijou
