import Hobbes.Storage.PageLog

/-!
# The calls of a writer

What the steps of a pipe do to the history of calls: a `write` enters the history when it returns,
and until then its block can be read off the position of the writer.
-/

namespace Hobbes.Storage

open Core Function

variable {s s' : Pipe}

/-- The calls among the events of a schedule. -/
def PipeEvent.IsCall : PipeEvent → Bool
  | .write _ | .commit | .rollback => true
  | _ => false

def Call.event : Call → PipeEvent
  | .wrote src _ => .write src
  | .commit => .commit
  | .rollback => .rollback

/-- The block that a `write` under way was called with. -/
def WPc.block : WPc → Option (List UInt8)
  | .mark (.write src _) | .push (.write src _) | .next (.write src _) => some src
  | .settle _ src _ | .copy src _ => some src
  | _ => none

@[simp] lemma WPc.block_idle : WPc.idle.block = none := rfl

@[simp] lemma WPc.block_copy (src : List UInt8) (so : ℕ) : (WPc.copy src so).block = some src := rfl

/-- The calls that were made, the one under way included. -/
def Pipe.issued (s : Pipe) : List PipeEvent :=
  s.calls.map Call.event ++ (s.w.pc.block.map PipeEvent.write).toList

@[simp] lemma Pipe.acquire_calls (npage : Option ℕ) (t : Task) :
    (s.acquire npage t).calls = s.calls := by
  unfold Pipe.acquire
  split <;> [split; rfl; rfl] <;> rfl

@[simp] lemma Pipe.acquire_block (npage : Option ℕ) (t : Task) :
    (s.acquire npage t).w.pc.block = (WPc.next t).block := by
  unfold Pipe.acquire
  split <;> [split; rfl; rfl] <;> rfl

@[simp] lemma Pipe.acquire_qos (npage : Option ℕ) (t : Task) :
    (s.acquire npage t).qos = s.qos := by
  unfold Pipe.acquire
  split <;> [split; rfl; rfl] <;> rfl

lemma Pipe.copy_calls (src : List UInt8) (so : ℕ) :
    (s.copy src so).qos = s.qos ∧
      (((s.copy src so).calls = s.calls ∧ (s.copy src so).w.pc.block = some src) ∨
        ∃ ok, (ok = false → s.w.page = none) ∧
          (s.copy src so).calls = s.calls ++ [.wrote src ok] ∧
          (s.copy src so).w.pc.block = none) := by
  unfold Pipe.copy
  split
  · exact ⟨rfl, .inr ⟨false, fun _ => ‹_›, rfl, rfl⟩⟩
  · split_ifs
    · exact ⟨rfl, .inl ⟨rfl, rfl⟩⟩
    · exact ⟨rfl, .inr ⟨true, by simp, rfl, rfl⟩⟩
    · exact ⟨rfl, .inr ⟨true, by simp, rfl, rfl⟩⟩

/-- What a step of the writer does to the calls: it goes on with the block that it is at, or the
call returns. -/
lemma Pipe.runWriter_calls (hs : s.runWriter = some s') : s'.qos = s.qos ∧
    ((s'.calls = s.calls ∧ s'.w.pc.block = s.w.pc.block) ∨
      ∃ src so ok, s.w.pc = .copy src so ∧ (ok = false → s.w.page = none) ∧
        s'.calls = s.calls ++ [.wrote src ok] ∧ s'.w.pc.block = none) := by
  unfold Pipe.runWriter at hs
  cases hpc : s.w.pc with
  | idle => simp [hpc] at hs
  | mark t =>
    simp only [hpc, Option.map_eq_some_iff] at hs
    obtain ⟨p, -, rfl⟩ := hs
    exact ⟨rfl, .inl ⟨rfl, by cases t <;> rfl⟩⟩
  | push t =>
    simp only [hpc, Option.some.injEq] at hs
    subst hs
    exact ⟨rfl, .inl ⟨rfl, by cases t <;> rfl⟩⟩
  | next t =>
    simp only [hpc] at hs
    split at hs <;> cases hs
    exact ⟨by simp, .inl ⟨by simp, by simp⟩⟩
  | settle npage src so =>
    simp only [hpc, Option.map_eq_some_iff] at hs
    obtain ⟨p, -, rfl⟩ := hs
    exact ⟨rfl, .inl ⟨rfl, rfl⟩⟩
  | copy src so =>
    simp only [hpc, Option.some.injEq] at hs
    subst hs
    obtain ⟨hq, h | ⟨ok, h⟩⟩ := s.copy_calls src so
    · exact ⟨hq, .inl h⟩
    · exact ⟨hq, .inr ⟨src, so, ok, rfl, h⟩⟩

lemma Pipe.write_calls (src : List UInt8) (hpc : s.w.pc = .idle) : (s.write src).qos = s.qos ∧
    (((s.write src).calls = s.calls ∧ (s.write src).w.pc.block = some src ∧ s.w.page ≠ none) ∨
      ∃ ok, (ok = false ↔ s.w.page = none) ∧ (s.write src).calls = s.calls ++ [.wrote src ok] ∧
        (s.write src).w.pc.block = none) := by
  unfold Pipe.write
  split
  · exact ⟨rfl, .inr ⟨false, by simpa using ‹_›, rfl, by simp [hpc, WPc.block]⟩⟩
  · rename_i p hp
    dsimp only
    split_ifs
    · exact ⟨rfl, .inr ⟨true, by simp [hp], rfl, by simp [hpc, WPc.block]⟩⟩
    · exact ⟨rfl, .inl ⟨rfl, rfl, by simp [hp]⟩⟩

/-- The reader does not touch what belongs to the writer. -/
lemma Pipe.runReader_writer (hs : s.runReader = some s') :
    s'.qos = s.qos ∧ s'.calls = s.calls ∧ s'.w = s.w := by
  unfold Pipe.runReader at hs
  cases hpc : s.r.pc <;> simp only [hpc, Option.map_eq_some_iff, Option.some.injEq] at hs
  case idle => cases hs
  case loop =>
    have hret : s.return.qos = s.qos ∧ s.return.calls = s.calls ∧ s.return.w = s.w := by
      simp only [Pipe.return]
      split_ifs <;> exact ⟨rfl, rfl, rfl⟩
    split at hs
    · cases hs; exact hret
    · split_ifs at hs <;> cases hs
      · exact hret
      · exact ⟨rfl, rfl, rfl⟩
  case pop => subst hs; exact ⟨rfl, rfl, rfl⟩
  case poll => subst hs; exact ⟨rfl, rfl, rfl⟩
  all_goals
    obtain ⟨p, -, rfl⟩ := hs
    first | exact ⟨rfl, rfl, rfl⟩ | (split_ifs <;> exact ⟨rfl, rfl, rfl⟩)

lemma Pipe.finish_calls {t : Task} {c : Call} (ht : t = .commit ∨ t = .rollback) :
    (s.finish t c).qos = s.qos ∧ (s.finish t c).calls = s.calls ++ [c] ∧
      (s.finish t c).w.pc.block = none := by
  refine ⟨rfl, rfl, ?_⟩
  unfold Pipe.finish
  rcases ht with rfl | rfl <;> split_ifs <;> rfl

/-- What an event does to the history of calls. -/
inductive Pipe.CallStep (s s' : Pipe) : PipeEvent → Prop where
  | go {e : PipeEvent} (event : e.IsCall = false) (calls : s'.calls = s.calls)
      (block : s'.w.pc.block = s.w.pc.block) : CallStep s s' e
  | enter {src : List UInt8} (idle : s.w.pc = .idle) (page : s.w.page ≠ none)
      (calls : s'.calls = s.calls) (block : s'.w.pc.block = some src) : CallStep s s' (.write src)
  | wrote {src : List UInt8} {ok : Bool} (idle : s.w.pc = .idle)
      (page : ok = false ↔ s.w.page = none) (calls : s'.calls = s.calls ++ [.wrote src ok])
      (block : s'.w.pc.block = none) : CallStep s s' (.write src)
  | returned {src : List UInt8} {so : ℕ} {ok : Bool} (pc : s.w.pc = .copy src so)
      (page : ok = false → s.w.page = none) (calls : s'.calls = s.calls ++ [.wrote src ok])
      (block : s'.w.pc.block = none) : CallStep s s' .writer
  | commit (idle : s.w.pc = .idle) (calls : s'.calls = s.calls ++ [.commit])
      (block : s'.w.pc.block = none) : CallStep s s' .commit
  | rollback (idle : s.w.pc = .idle) (calls : s'.calls = s.calls ++ [.rollback])
      (block : s'.w.pc.block = none) : CallStep s s' .rollback

lemma Pipe.step_calls {e : PipeEvent} (hs : Pipe.step e s = some s') :
    s'.qos = s.qos ∧ s.CallStep s' e := by
  cases e with
  | write src =>
    simp only [Pipe.step, Option.ite_none_right_eq_some, Option.some.injEq] at hs
    obtain ⟨hpc, rfl⟩ := hs
    obtain ⟨hq, ⟨hc, hb, hp⟩ | ⟨ok, hok, hc, hb⟩⟩ := s.write_calls src hpc
    · exact ⟨hq, .enter hpc hp hc hb⟩
    · exact ⟨hq, .wrote hpc hok hc hb⟩
  | commit =>
    simp only [Pipe.step, Option.ite_none_right_eq_some, Option.some.injEq] at hs
    obtain ⟨hpc, rfl⟩ := hs
    obtain ⟨hq, hc, hb⟩ := Pipe.finish_calls (s := s) (c := .commit) (.inl rfl)
    exact ⟨hq, .commit hpc hc hb⟩
  | rollback =>
    simp only [Pipe.step, Option.ite_none_right_eq_some, Option.some.injEq] at hs
    obtain ⟨hpc, rfl⟩ := hs
    obtain ⟨hq, hc, hb⟩ := Pipe.finish_calls (s := s) (c := .rollback) (.inr rfl)
    exact ⟨hq, .rollback hpc hc hb⟩
  | writer =>
    obtain ⟨hq, ⟨hc, hb⟩ | ⟨src, so, ok, hpc, hok, hc, hb⟩⟩ := Pipe.runWriter_calls hs
    · exact ⟨hq, .go rfl hc hb⟩
    · exact ⟨hq, .returned hpc hok hc hb⟩
  | read sz =>
    simp only [Pipe.step, Option.ite_none_right_eq_some, Option.some.injEq] at hs
    obtain ⟨-, rfl⟩ := hs
    exact ⟨rfl, .go rfl rfl rfl⟩
  | reader =>
    obtain ⟨hq, hc, hw⟩ := Pipe.runReader_writer hs
    exact ⟨hq, .go rfl hc (by rw [hw])⟩

/-- The history is what the schedule called for. -/
lemma Pipe.step_issued {e : PipeEvent} (hs : Pipe.step e s = some s') :
    s'.issued = s.issued ++ if e.IsCall then [e] else [] := by
  cases (Pipe.step_calls hs).2 with
  | go event calls block => simp [Pipe.issued, event, calls, block]
  | enter idle _ calls block | wrote idle _ calls block | commit idle calls block
  | rollback idle calls block =>
    simp [Pipe.issued, idle, calls, block, PipeEvent.IsCall, Call.event]
  | returned pc _ calls block =>
    simp [Pipe.issued, pc, calls, block, PipeEvent.IsCall, Call.event]

lemma Pipe.run_issued {es : List PipeEvent} (hs : runEvents Pipe.step es s = some s') :
    s'.issued = s.issued ++ es.filter PipeEvent.IsCall := by
  induction es generalizing s with
  | nil => cases hs; simp
  | cons e es ih =>
    obtain ⟨t, ht, hs⟩ := Option.bind_eq_some_iff.mp hs
    rw [ih hs, Pipe.step_issued ht, List.append_assoc, List.filter_cons]
    split_ifs <;> rfl

/-- Writes that all succeed and a commit make up one transaction. -/
lemma txns_wrote (blocks : List (List UInt8)) :
    txns (blocks.map (Call.wrote · true) ++ [.commit]) = ⟨[blocks], [], false⟩ := by
  have hw : txns (blocks.map (Call.wrote · true)) = ⟨[], blocks, false⟩ := by
    induction blocks using List.reverseRecOn with
    | nil => rfl
    | append_singleton bs b ih => simp [ih, Txns.call]
  simp [hw, Txns.call]

/-- Without a failed write, the calls are known from their events. -/
lemma calls_eq_of_events {calls : List Call} (hok : ∀ src, Call.wrote src false ∉ calls)
    {blocks : List (List UInt8)}
    (h : calls.map Call.event = blocks.map PipeEvent.write ++ [.commit]) :
    calls = blocks.map (Call.wrote · true) ++ [.commit] := by
  induction calls generalizing blocks with
  | nil => simp at h
  | cons c cs ih =>
    have hcs : ∀ src, Call.wrote src false ∉ cs := fun src hm => hok src (List.mem_cons_of_mem _ hm)
    cases blocks with
    | nil =>
      simp only [List.map_cons, List.map_nil, List.nil_append, List.cons.injEq,
        List.map_eq_nil_iff] at h
      obtain ⟨hc, rfl⟩ := h
      cases c <;> simp_all [Call.event]
    | cons b bs =>
      simp only [List.map_cons, List.cons_append, List.cons.injEq] at h
      obtain ⟨hc, hcs'⟩ := h
      cases c with
      | wrote src ok =>
        obtain rfl : src = b := PipeEvent.write.inj hc
        cases ok with
        | false => exact absurd List.mem_cons_self (hok src)
        | true => rw [ih hcs hcs', List.map_cons, List.cons_append]
      | commit | rollback => simp [Call.event] at hc

end Hobbes.Storage
