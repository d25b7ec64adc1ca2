import Bijou.Dump

/-! The status of a dump: each block that is dumped is a call of the writer, and its answer is kept in
the `DumpState`. -/

namespace Bijou

open CString Incremental

abbrev BijouWriter := List (List Byte) → BitVec 32

structure DumpState where
  calls : List (List Byte)
  status : BitVec 32

def Output.call? : Output → Option (List Byte)
  | block blk => some blk
  | message _ => none

section Status

variable (strcpy : Strcpy) (padding : List Output → BitVec 48) (writer : BijouWriter) (proto : Proto)

/-- DumpBlock, of which only the answer to the last call is left. -/
def DumpState.block (D : DumpState) (blk : List Byte) : DumpState :=
  let calls := D.calls ++ [blk]
  ⟨calls, writer calls⟩

def writerCalls : List (List Byte) := (bijouDump strcpy padding proto []).1.filterMap Output.call?

def dumpStatus : Except DumpError (BitVec 32) :=
  match (bijouDump strcpy padding proto []).2 with
  | .error e => .error e
  | .ok _ => .ok ((writerCalls strcpy padding proto).foldl (DumpState.block writer) ⟨[], 0⟩).status

def answer (i : ℕ) : BitVec 32 := writer ((writerCalls strcpy padding proto).take (i + 1))

def ReportsFailure : Prop := dumpStatus strcpy padding writer proto = .ok 0 →
  ∀ i < (writerCalls strcpy padding proto).length, answer strcpy padding writer proto i = 0

def DumpCompletes : Prop := ∃ p, (bijouDump strcpy padding proto []).2 = .ok p

end Status

variable {strcpy : Strcpy} {padding : List Output → BitVec 48} {writer : BijouWriter} {proto : Proto}

lemma foldl_block_calls (D : DumpState) (l : List (List Byte)) :
    (l.foldl (DumpState.block writer) D).calls = D.calls ++ l := by
  induction l generalizing D with
  | nil => simp
  | cons blk l ih =>
    rw [List.foldl_cons, ih]
    simp [DumpState.block]

lemma foldl_block_status (D : DumpState) (l : List (List Byte)) (hl : l ≠ []) :
    (l.foldl (DumpState.block writer) D).status = writer (D.calls ++ l) := by
  obtain ⟨l, blk, rfl⟩ := (List.eq_nil_or_concat l).resolve_left hl
  rw [List.concat_eq_append, List.foldl_append, List.foldl_cons, List.foldl_nil, DumpState.block,
    foldl_block_calls, List.append_assoc]

lemma writerCalls_header (strcpy : Strcpy) (padding : List Output → BitVec 48) (proto : Proto) :
    ∃ l, writerCalls strcpy padding proto = header :: l := by
  have hheader : dumpHeader [] = ([.block header], .ok ()) := rfl
  have hdump : (bijouDump strcpy padding proto []).1 =
      .block header :: (dumpFunction strcpy padding proto [.block header]).1 := by
    rw [bijouDump, Writer.bind_ok hheader]
    rfl
  exact ⟨_, by rw [writerCalls, hdump]; rfl⟩

lemma dumpStatus_eq (h : DumpCompletes strcpy padding proto) : dumpStatus strcpy padding writer proto =
    .ok (answer strcpy padding writer proto ((writerCalls strcpy padding proto).length - 1)) := by
  obtain ⟨p, hp⟩ := h
  obtain ⟨l, hl⟩ := writerCalls_header strcpy padding proto
  have hne : writerCalls strcpy padding proto ≠ [] := by rw [hl]; exact List.cons_ne_nil _ _
  have hlen : (writerCalls strcpy padding proto).length - 1 + 1 = (writerCalls strcpy padding proto).length :=
    Nat.sub_add_cancel (List.length_pos_of_ne_nil hne)
  rw [dumpStatus, hp, answer, hlen, List.take_length]
  exact congrArg Except.ok (foldl_block_status _ _ hne)

theorem reportsFailure_iff (strcpy : Strcpy) (padding : List Output → BitVec 48)
    (writer : BijouWriter) (proto : Proto) : ReportsFailure strcpy padding writer proto ↔
    (DumpCompletes strcpy padding proto →
      (∃ i < (writerCalls strcpy padding proto).length - 1, answer strcpy padding writer proto i ≠ 0) →
        answer strcpy padding writer proto ((writerCalls strcpy padding proto).length - 1) ≠ 0) := by
  constructor
  · rintro h hc ⟨i, hi, hfail⟩ hlast
    have hzero : dumpStatus strcpy padding writer proto = .ok 0 := by rw [dumpStatus_eq hc, hlast]
    exact hfail (h hzero i (by omega))
  · intro h hzero i hi
    have hc : DumpCompletes strcpy padding proto := by
      cases hp : (bijouDump strcpy padding proto []).2 with
      | error e =>
        rw [dumpStatus, hp] at hzero
        cases hzero
      | ok p => exact ⟨p, hp⟩
    rw [dumpStatus_eq hc] at hzero
    have hlast := Except.ok.inj hzero
    by_contra hfail
    by_cases heq : i = (writerCalls strcpy padding proto).length - 1
    · exact hfail (heq ▸ hlast)
    · exact h hc ⟨i, by omega, hfail⟩ hlast

def emptyProto : Proto :=
  let name : BijouString := .new (.to .empty)
  ⟨name, name, 0, 0, 0, 0, 0, 0, [], [], []⟩

theorem lost_failure :
    let writer : BijouWriter := fun calls => if calls.length = 1 then 1 else 0
    answer memmove (fun _ => 0) writer emptyProto 0 = 1 ∧ dumpStatus memmove (fun _ => 0) writer emptyProto = .ok 0 ∧
      ¬ ReportsFailure memmove (fun _ => 0) writer emptyProto := by
  intro writer
  have hfirst : answer memmove (fun _ => 0) writer emptyProto 0 = 1 := by decide +kernel
  have hstatus : dumpStatus memmove (fun _ => 0) writer emptyProto = .ok 0 := by rfl
  refine ⟨hfirst, hstatus, fun h => ?_⟩
  have hzero := h hstatus 0 (by decide +kernel)
  rw [hfirst] at hzero
  cases hzero

end Bijou
