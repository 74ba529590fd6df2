import Hobbes.Storage.Logger
import Hobbes.Storage.PipeCalls
import Hobbes.Storage.StorableSize

/-!
# The pages of a record

What a call of `write` still has to put into the pipe makes up the record with what it has put there.
When the space test was made for what is written, all of that goes to the page at hand.
-/

namespace Hobbes.Storage

open Core

/-- The bytes of a record: the statement id and the payload. -/
def Record.bytes (r : Record) : Bytes := leBytes 4 r.id.toNat ++ r.xs.encoding

def Record.put (r : Record) : Bytes := (r.puts.map Prod.snd).flatten

/-- The calls of a `write` on the pipe. -/
abbrev writes (wf : RecF) (bs : List Bytes) (ok : Bool) : Calls PipeCall (Bool × RecF) :=
  Calls.each (ok, wf) (false, wf) (bs.map PipeCall.write)

/-- The bytes `e` are what is left to put of a record, if the call is to return true. -/
def Record.Left (r : Record) (e : Bytes) (ok : Bool) : Prop :=
  r.put ++ e <+: r.bytes ∧ (ok = true → r.put ++ e = r.bytes)

/-- What a call of `write` promises: if it returns true it has put the whole record, and a record
that fits into an empty page is put on one page, if the group commits by itself. -/
structure Record.Done (cm : CommitMethod) (P : ℕ) (r : Record) : Prop where
  written : r.result = some true → r.put = r.bytes
  page : cm = .autoCommit → r.bytes.length ≤ P → ∀ a ∈ r.puts, ∀ b ∈ r.puts, a.1 = b.1

/-- What is left goes to the page at hand, where the record is. -/
def Logger.Fits (P : ℕ) (s : Logger) (r : Record) (e : Bytes) : Prop :=
  s.cm = .autoCommit → r.bytes.length ≤ P → ∃ k, (∀ a ∈ r.puts, a.1 = k) ∧
    (e = [] ∨ s.pipe.w.page = none ∨ k = s.turn ∧ s.pipe.w.offset + e.length ≤ P)

/-- The writer is between the first access of a `commit` and its last. -/
def WPc.Committing (pc : WPc) : Prop := pc = .mark .commit ∨ pc = .push .commit ∨ pc = .next .commit

/-- Where a call of `write` stands. -/
inductive Logger.Going (P : ℕ) (s : Logger) (r : Record) : Caller → Prop where
  | issue {wf : RecF} {bs : List Bytes} {ok : Bool} (pc : s.pipe.w.pc = .idle)
      (left : r.Left bs.flatten ok) (fits : s.Fits P r bs.flatten) :
      Going P s r (.issue (writes wf bs ok))
  | issueCommit {wf : RecF} {bs : List Bytes} {ok : Bool} (pc : s.pipe.w.pc = .idle)
      (puts : r.puts = []) (left : r.Left bs.flatten ok) :
      Going P s r (.issue (.call .commit fun _ => writes wf bs ok))
  | waitCommit {wf : RecF} {bs : List Bytes} {ok : Bool}
      (pc : s.pipe.w.pc.Committing ∨
        s.pipe.w.pc = .idle ∧ (s.pipe.w.page = none ∨ s.pipe.w.offset = 0))
      (puts : r.puts = []) (left : r.Left bs.flatten ok) :
      Going P s r (.wait fun _ => writes wf bs ok)
  | returned {wf : RecF} {bs : List Bytes} {ok : Bool} (src : Bytes) (res : Bool)
      (pc : s.pipe.w.pc = .idle) (calls : s.pipe.calls.getLast? = some (.wrote src res))
      (put : r.put <+: r.bytes) (left : res = true → r.Left bs.flatten ok)
      (fits : s.Fits P r (if res then bs.flatten else [])) :
      Going P s r (.wait fun ok' => if ok' then writes wf bs ok else .ret (false, wf))
  | wait {wf : RecF} {bs : List Bytes} {ok : Bool} (src : Bytes) (so : ℕ)
      (pc : s.pipe.w.pc = .mark (.write src so) ∨ s.pipe.w.pc = .push (.write src so) ∨
        s.pipe.w.pc = .next (.write src so) ∨ (∃ p, s.pipe.w.pc = .settle p src so) ∨
        s.pipe.w.pc = .copy src so)
      (left : r.Left (src.drop so ++ bs.flatten) ok) (fits : s.Fits P r [])
      (full : s.cm = .autoCommit → r.bytes.length ≤ P → src.drop so ++ bs.flatten = []) :
      Going P s r (.wait fun ok' => if ok' then writes wf bs ok else .ret (false, wf))

variable {P : ℕ} {s s' : Logger} {r : Record} {c : Caller} {e : Bytes} {ok : Bool}

/-! ### Records -/

@[simp] lemma Record.putOn_nil (k : ℕ) (r : Record) : r.putOn k [] = r := rfl

@[simp] lemma Record.putOn_bytes (k : ℕ) (b : Bytes) (r : Record) : (r.putOn k b).bytes = r.bytes := by
  unfold Record.putOn
  split_ifs <;> rfl

@[simp] lemma Record.putOn_result (k : ℕ) (b : Bytes) (r : Record) :
    (r.putOn k b).result = r.result := by
  unfold Record.putOn
  split_ifs <;> rfl

@[simp] lemma Record.putOn_put (k : ℕ) (b : Bytes) (r : Record) :
    (r.putOn k b).put = r.put ++ b := by
  unfold Record.putOn
  split_ifs with hb
  · simp [hb]
  · simp [Record.put]

lemma Record.putOn_page {k : ℕ} {b : Bytes} (h : ∀ a ∈ r.puts, a.1 = k) :
    ∀ a ∈ (r.putOn k b).puts, a.1 = k := by
  unfold Record.putOn
  split_ifs
  · exact h
  · intro a ha
    rcases List.mem_append.mp ha with ha | ha
    · exact h a ha
    · rw [List.mem_singleton.mp ha]

lemma Record.Left.putOn {k : ℕ} {b : Bytes} (h : r.Left (b ++ e) ok) : (r.putOn k b).Left e ok := by
  simpa [Record.Left] using h

lemma Record.Left.put_prefix (h : r.Left e ok) : r.put <+: r.bytes :=
  (List.prefix_append ..).trans h.1

/-- What the history says is put on a page is what a step copies into the memory of the page. -/
lemma Pipe.put_copyIn {e : PipeEvent} {p p' : Pipe} (hs : Pipe.step e p = some p')
    (hput : p.put e ≠ []) : ∃ q o, p.w.page = some q ∧
      p'.mem = Function.update p.mem q ((p.mem q).copyIn o (p.put e)) := by
  cases e with
  | commit | rollback | read sz | reader => exact absurd rfl hput
  | write src =>
    simp only [Pipe.step, Option.ite_none_right_eq_some, Option.some.injEq] at hs
    obtain ⟨-, rfl⟩ := hs
    cases hp : p.w.page with
    | none => simp [Pipe.put, hp] at hput
    | some q =>
      refine ⟨q, p.w.offset, rfl, ?_⟩
      by_cases hlt : src.length < p.pagesz - p.w.offset
      · simp [Pipe.write, Pipe.put, hp, hlt, Pipe.setPage, List.take_of_length_le hlt.le]
      · simp [Pipe.write, Pipe.put, hp, hlt, Pipe.setPage]
  | writer =>
    cases hpc : p.w.pc with
    | copy src so =>
      simp only [Pipe.step, Pipe.runWriter, hpc, Option.some.injEq] at hs
      subst hs
      cases hp : p.w.page with
      | none => simp [Pipe.put, hpc, hp] at hput
      | some q =>
        refine ⟨q, 0, rfl, ?_⟩
        by_cases hlarge : p.pagesz ≤ src.length - so
        · simp [Pipe.copy, Pipe.put, hpc, hp, hlarge, Pipe.setPage]
        · have htake : (src.drop so).take p.pagesz = src.drop so :=
            List.take_of_length_le (by rw [List.length_drop]; exact (Nat.lt_of_not_le hlarge).le)
          have hlt : so < src.length := by
            by_contra hge
            simp [Pipe.put, hpc, hp, List.drop_eq_nil_of_le (Nat.le_of_not_lt hge)] at hput
          simp [Pipe.copy, Pipe.put, hpc, hp, hlarge, hlt, htake, Pipe.setPage]
    | idle | mark t | push t | next t | settle npage src so => simp [Pipe.put, hpc] at hput

/-! ### Steps that the caller does not see -/

/-- What a call of `write` depends on. -/
lemma Logger.Going.frame (h : s.Going P r c) (hcm : s'.cm = s.cm) (hw : s'.pipe.w = s.pipe.w)
    (hcalls : s'.pipe.calls = s.pipe.calls) (hturn : s'.turn = s.turn) : s'.Going P r c := by
  have hfits : ∀ e, s.Fits P r e → s'.Fits P r e := fun e h => by
    rw [Logger.Fits, hcm, hw, hturn]
    exact h
  cases h with
  | issue pc left fits => exact .issue (by rwa [hw]) left (hfits _ fits)
  | issueCommit pc puts left => exact .issueCommit (by rwa [hw]) puts left
  | waitCommit pc puts left => exact .waitCommit (by rwa [hw]) puts left
  | returned src res pc calls put left fits =>
    exact .returned src res (by rwa [hw]) (by rwa [hcalls]) put left (hfits _ fits)
  | wait src so pc left fits full => exact .wait src so (by rwa [hw]) left (hfits _ fits) (by rwa [hcm])

/-! ### Steps of the writer -/

/-- A record that is on one page stays there while nothing is put. -/
lemma Logger.Fits.nil (h : s.Fits P r e) (hcm : s'.cm = s.cm) : s'.Fits P r [] := by
  intro hauto hlen
  obtain ⟨k, hk, -⟩ := h (hcm ▸ hauto) hlen
  exact ⟨k, hk, .inl rfl⟩

/-- Nothing of a record that fits is put on another page. -/
lemma Logger.Fits.putOn {k : ℕ} {b : Bytes} (h : s.Fits P r []) (hcm : s'.cm = s.cm)
    (hb : s.cm = .autoCommit → r.bytes.length ≤ P → b ++ e = []) :
    s'.Fits P (r.putOn k b) e := by
  intro hauto hlen
  rw [Record.putOn_bytes] at hlen
  obtain ⟨rfl, rfl⟩ := List.append_eq_nil_iff.mp (hb (hcm ▸ hauto) hlen)
  obtain ⟨j, hj, -⟩ := h (hcm ▸ hauto) hlen
  exact ⟨j, hj, .inl rfl⟩

/-- A block is written as far as the page goes. -/
lemma Logger.Going.copy {wf : RecF} {bs : List Bytes} {src : Bytes} {so : ℕ}
    (hpc : s.pipe.w.pc = .copy src so)
    (left : r.Left (src.drop so ++ bs.flatten) ok) (fits : s.Fits P r [])
    (full : s.cm = .autoCommit → r.bytes.length ≤ P → src.drop so ++ bs.flatten = []) :
    (s.stepped .writer (s.pipe.copy src so)).Going P (r.putOn s.turn (s.pipe.put .writer))
      (.wait fun ok' => if ok' then writes wf bs ok else .ret (false, wf)) := by
  have hput : s.pipe.put .writer =
      if s.pipe.w.page = none then [] else (src.drop so).take s.pipe.pagesz := by
    simp only [Pipe.put, hpc]
  have hlen : (src.drop so).length = src.length - so := List.length_drop
  rw [hput]
  cases hp : s.pipe.w.page with
  | none =>
    simp only [if_true, Record.putOn_nil]
    refine .returned src false ?_ ?_ left.put_prefix (by simp) (fits.nil rfl)
    all_goals simp [Logger.stepped, Pipe.copy, hp]
  | some q =>
    rw [if_neg (by simp)]
    by_cases hlarge : s.pipe.pagesz ≤ src.length - so
    · -- a whole page of the block
      have hdrop : (src.drop so).take s.pipe.pagesz ++ src.drop (so + s.pipe.pagesz) =
          src.drop so := by
        rw [← List.drop_drop, List.take_append_drop]
      rw [← hdrop, List.append_assoc] at left
      have hfull : s.cm = .autoCommit → r.bytes.length ≤ P →
          (src.drop so).take s.pipe.pagesz ++ (src.drop (so + s.pipe.pagesz) ++ bs.flatten) = [] := by
        intro hauto hle
        rw [← List.append_assoc, hdrop]
        exact full hauto hle
      refine .wait src (so + s.pipe.pagesz) (.inl ?_) left.putOn
        (fits.putOn rfl fun hauto hle => ?_) fun hauto hle => ?_
      · simp [Logger.stepped, Pipe.copy, hp, hlarge]
      · simpa using (List.append_eq_nil_iff.mp (hfull hauto hle)).1
      · rw [Record.putOn_bytes] at hle
        exact (List.append_eq_nil_iff.mp (hfull hauto hle)).2
    · -- the rest of the block
      have htake : (src.drop so).take s.pipe.pagesz = src.drop so :=
        List.take_of_length_le (by rw [hlen]; exact (Nat.lt_of_not_le hlarge).le)
      rw [htake]
      refine .returned src true ?_ ?_ left.putOn.put_prefix
        (fun _ => left.putOn) (fits.putOn rfl full)
      all_goals simp only [Logger.stepped, Pipe.copy, hp, if_neg hlarge]; split_ifs <;> simp

lemma Logger.Going.writer {p : Pipe} (h : s.Going P r c) (hs : s.pipe.runWriter = some p) :
    (s.stepped .writer p).Going P (r.putOn s.turn (s.pipe.put .writer)) c := by
  unfold Pipe.runWriter at hs
  cases h with
  | issue pc left fits | issueCommit pc puts left | returned src res pc calls put left fits =>
    simp [pc] at hs
  | waitCommit pc puts left =>
    obtain pc | ⟨pc, -⟩ := pc
    · have hput : s.pipe.put .writer = [] := by
        rcases pc with pc | pc | pc <;> simp only [Pipe.put, pc]
      rw [hput, Record.putOn_nil]
      refine .waitCommit ?_ puts left
      rcases pc with pc | pc | pc
      · simp only [pc, Option.map_eq_some_iff] at hs
        obtain ⟨q, -, rfl⟩ := hs
        exact .inl (.inr (.inl rfl))
      · simp only [pc, Option.some.injEq] at hs
        subst hs
        exact .inl (.inr (.inr rfl))
      · simp only [pc] at hs
        split at hs <;> cases hs
        exact .inr ⟨rfl, .inr rfl⟩
    · simp [pc] at hs
  | @wait wf bs ok src so pc left fits full =>
    rcases pc with pc | pc | pc | ⟨np, pc⟩ | pc
    · have hput : s.pipe.put .writer = [] := by simp only [Pipe.put, pc]
      rw [hput, Record.putOn_nil]
      simp only [pc, Option.map_eq_some_iff] at hs
      obtain ⟨q, -, rfl⟩ := hs
      exact .wait src _ (.inr (.inl rfl)) left (fits.nil rfl) full
    · have hput : s.pipe.put .writer = [] := by simp only [Pipe.put, pc]
      rw [hput, Record.putOn_nil]
      simp only [pc, Option.some.injEq] at hs
      subst hs
      exact .wait src _ (.inr (.inr (.inl rfl))) left (fits.nil rfl) full
    · have hput : s.pipe.put .writer = [] := by simp only [Pipe.put, pc]
      rw [hput, Record.putOn_nil]
      simp only [pc] at hs
      split at hs <;> cases hs
      refine .wait src so ?_ left (fits.nil rfl) full
      simp only [Logger.stepped, Pipe.acquire]
      split_ifs
      · exact .inr (.inr (.inr (.inr rfl)))
      · exact .inr (.inr (.inr (.inl ⟨_, rfl⟩)))
    · have hput : s.pipe.put .writer = [] := by simp only [Pipe.put, pc]
      rw [hput, Record.putOn_nil]
      simp only [pc, Option.map_eq_some_iff] at hs
      obtain ⟨q, -, rfl⟩ := hs
      exact .wait src _ (.inr (.inr (.inr (.inr rfl)))) left (fits.nil rfl) full
    · simp only [pc, Option.some.injEq] at hs
      subst hs
      exact .copy pc left fits full

/-! ### Steps of the caller -/

/-- A part of what is left is put on the page at hand. -/
lemma Logger.Fits.put {b : Bytes} (h : s.Fits P r (b ++ e)) (hpage : s.pipe.w.page ≠ none)
    (hauto : s.cm = .autoCommit) (hle : r.bytes.length ≤ P) {d : Bytes} (hd : d <+: b ++ e) :
    ∃ k, (∀ a ∈ (r.putOn s.turn d).puts, a.1 = k) ∧
      (b ++ e = [] ∨ k = s.turn ∧ s.pipe.w.offset + (b ++ e).length ≤ P) := by
  obtain ⟨k, hk, hnil | hnone | ⟨rfl, hroom⟩⟩ := h hauto hle
  · obtain rfl : d = [] := List.prefix_nil.mp (hnil ▸ hd)
    exact ⟨k, hk, .inl hnil⟩
  · exact absurd hnone hpage
  · exact ⟨s.turn, Record.putOn_page hk, .inr ⟨rfl, hroom⟩⟩

/-- The call of `write` makes a write on the pipe. -/
lemma Logger.Going.write {src : Bytes} {k : Bool → Calls PipeCall (Bool × RecF)}
    (h : s.Going P r (.issue (.call (.write src) k))) (hP : s.pipe.pagesz = P) :
    (s.stepped (.write src) (s.pipe.write src)).Going P
      (r.putOn s.turn (s.pipe.put (.write src))) (.wait k) := by
  generalize hc : Caller.issue (.call (.write src) k) = c at h
  cases h with
  | issueCommit | waitCommit | returned | wait => simp at hc
  | @issue wf bs ok pc left fits =>
    cases bs with
    | nil => simp [writes] at hc
    | cons b bs =>
      simp only [writes, List.map_cons, Calls.each_cons, Caller.issue.injEq, Calls.call.injEq,
        PipeCall.write.injEq] at hc
      obtain ⟨rfl, rfl⟩ := hc
      rw [List.flatten_cons] at left fits
      have hput : s.pipe.put (.write src) =
          if s.pipe.w.page = none then [] else src.take (s.pipe.pagesz - s.pipe.w.offset) := rfl
      rw [hput]
      cases hp : s.pipe.w.page with
      | none =>
        simp only [if_true, Record.putOn_nil]
        refine .returned src false ?_ ?_ left.put_prefix (by simp) (fits.nil rfl)
        all_goals simp [Logger.stepped, Pipe.write, hp, pc]
      | some q =>
        rw [if_neg (by simp)]
        have hpage : s.pipe.w.page ≠ none := by simp [hp]
        by_cases hsmall : src.length < s.pipe.pagesz - s.pipe.w.offset
        · -- the block fits
          rw [List.take_of_length_le hsmall.le]
          refine .returned src true ?_ ?_ left.putOn.put_prefix
            (fun _ => left.putOn) ?_
          · simp [Logger.stepped, Pipe.write, hp, hsmall, pc]
          · simp [Logger.stepped, Pipe.write, hp, hsmall]
          · intro hauto hle
            rw [Record.putOn_bytes] at hle
            obtain ⟨k, hk, hroom⟩ := fits.put hpage hauto hle (List.prefix_append ..)
            refine ⟨k, hk, ?_⟩
            rcases hroom with hnil | ⟨rfl, hroom⟩
            · exact .inl (List.append_eq_nil_iff.mp hnil).2
            · refine .inr (.inr ⟨rfl, ?_⟩)
              simpa [Logger.stepped, Pipe.write, hp, hsmall, Nat.add_assoc] using hroom
        · -- the block takes all that is left of the page
          have hcut : src.take (s.pipe.pagesz - s.pipe.w.offset) ++
              (src.drop (s.pipe.pagesz - s.pipe.w.offset) ++ bs.flatten) = src ++ bs.flatten := by
            rw [← List.append_assoc, List.take_append_drop]
          have hpre : src.take (s.pipe.pagesz - s.pipe.w.offset) <+: src ++ bs.flatten :=
            hcut ▸ List.prefix_append ..
          rw [← hcut] at left
          refine .wait src (s.pipe.pagesz - s.pipe.w.offset) (.inl ?_) left.putOn
            ?_ ?_
          · simp [Logger.stepped, Pipe.write, hp, hsmall]
          · intro hauto hle
            rw [Record.putOn_bytes] at hle
            obtain ⟨k, hk, -⟩ := fits.put hpage hauto hle hpre
            exact ⟨k, hk, .inl rfl⟩
          · intro hauto hle
            rw [Record.putOn_bytes] at hle
            obtain ⟨k, -, hnil | ⟨-, hroom⟩⟩ := fits.put hpage hauto hle hpre
            · exact (List.append_eq_nil_iff.mp (hcut.trans hnil)).2
            · rw [List.length_append] at hroom
              rw [← List.length_eq_zero_iff, List.length_append, List.length_drop]
              omega

/-- The call of `write` makes a commit on the pipe. -/
lemma Logger.Going.commit {k : Bool → Calls PipeCall (Bool × RecF)}
    (h : s.Going P r (.issue (.call .commit k))) :
    (s.stepped .commit (s.pipe.finish .commit .commit)).Going P r (.wait k) := by
  generalize hc : Caller.issue (.call .commit k) = c at h
  cases h with
  | @issue wf bs ok => cases bs <;> simp [writes, Calls.each_cons] at hc
  | waitCommit | returned | wait => simp at hc
  | @issueCommit wf bs ok pc puts left =>
    simp only [Caller.issue.injEq, Calls.call.injEq, true_and] at hc
    subst hc
    refine .waitCommit (.inl ?_) puts left
    simp only [Logger.stepped, Pipe.finish, WPc.Committing]
    split_ifs <;> simp

/-- A call on the pipe returns to the call of `write`. -/
lemma Logger.Going.answer {k : Bool → Calls PipeCall (Bool × RecF)} (h : s.Going P r (.wait k))
    (hpc : s.pipe.w.pc = .idle) :
    Logger.Going P { s with caller := .issue (k s.answer) } r (.issue (k s.answer)) := by
  cases h with
  | waitCommit pc puts left =>
    obtain pc | ⟨-, hpage⟩ := pc
    · rcases pc with pc | pc | pc <;> simp [pc] at hpc
    · refine .issue hpc left fun hauto hle => ⟨s.turn, by simp [puts], ?_⟩
      rcases hpage with hnone | hoff
      · exact .inr (.inl hnone)
      · refine .inr (.inr ⟨rfl, ?_⟩)
        have hlen := left.1.length_le
        rw [List.length_append] at hlen
        rw [hoff]
        omega
  | @returned wf bs ok src res pc calls put left fits =>
    have hans : s.answer = res := by simp [Logger.answer, calls]
    rw [hans]
    cases res with
    | true => exact .issue pc (left rfl) fits
    | false =>
      have hleft : r.Left (List.flatten []) false := ⟨by simpa using put, by simp⟩
      change Logger.Going P _ r (.issue (writes wf [] false))
      exact .issue pc hleft fits
  | wait src so pc left fits full =>
    rcases pc with pc | pc | pc | ⟨p, pc⟩ | pc <;> simp [pc] at hpc

/-- The call of `write` returns. -/
lemma Logger.Going.return {wf : RecF} (h : s.Going P r (.issue (.ret (ok, wf)))) :
    s.pipe.w.pc = .idle ∧ { r with result := some ok }.Done s.cm P := by
  generalize hc : Caller.issue (.ret (ok, wf)) = c at h
  cases h with
  | issueCommit | waitCommit | returned | wait => simp at hc
  | @issue wf' bs ok' pc left fits =>
    cases bs with
    | cons b bs => simp [writes, Calls.each_cons] at hc
    | nil =>
      simp only [writes, List.map_nil, Calls.each_nil, Caller.issue.injEq, Calls.ret.injEq,
        Prod.mk.injEq] at hc
      obtain ⟨rfl, rfl⟩ := hc
      refine ⟨pc, ?_, ?_⟩
      · intro hok
        have heq := left.2 (Option.some.inj hok)
        rwa [List.flatten_nil, List.append_nil] at heq
      · intro hauto hle a ha b hb
        obtain ⟨k, hk, -⟩ := fits hauto hle
        exact (hk a ha).trans (hk b hb).symm

/-- What `serialize` puts is the record. -/
lemma serialize_eq (id : UInt32) {ts : List Ty} (xs : Values none ts) (wf : RecF) :
    ∃ bs ok, (serialize id xs).run wf = writes wf bs ok ∧
      Record.Left ⟨id, ts, xs, [], none⟩ bs.flatten ok :=
  (WriteM.puts_write _ wf).and (xs.write_puts (RecF.serves_none wf))

/-- The space test is made for the bytes of the record. -/
lemma Pipe.hasSpaceFor_iff {p : Pipe} {n : ℕ} (hP : p.pagesz < 2 ^ 64) (hn : 4 + n ≤ p.pagesz) :
    p.hasSpaceFor (4 + UInt64.ofNat n) = true ↔
      p.w.page ≠ none ∧ p.w.offset + (4 + n) < p.pagesz := by
  have hadd : (4 + UInt64.ofNat n).toNat = 4 + n := by
    simp only [UInt64.toNat_add, UInt64.toNat_ofNat', UInt64.reduceToNat]
    omega
  simp only [Pipe.hasSpaceFor, hadd, Bool.and_eq_true, decide_eq_true_eq, Option.isSome_iff_ne_none]
  refine and_congr_right fun _ => ?_
  omega

/-- A call of `write` begins. -/
lemma Logger.write_going {ts : List Ty} {id : UInt32} {xs : Values none ts}
    (hpc : s.pipe.w.pc = .idle) (hP : s.pipe.pagesz < 2 ^ 64) (hs : s.write id xs = some s') :
    s'.pipe = s.pipe ∧ s'.cm = s.cm ∧ s'.records = ⟨id, ts, xs, [], none⟩ :: s.records ∧
      s'.Going s.pipe.pagesz ⟨id, ts, xs, [], none⟩ s'.caller := by
  obtain ⟨bs, ok, hrun, left⟩ := serialize_eq id xs s.writeF
  unfold Logger.write at hs
  cases hcm : s.cm with
  | manualCommit =>
    simp only [hcm, Option.some.injEq] at hs
    subst hs
    refine ⟨rfl, rfl, rfl, ?_⟩
    rw [hrun]
    refine .issue hpc left fun hauto => ?_
    simp at hauto
  | autoCommit =>
    have hsize := xs.size_eq (RecF.serves_none s.sizeF)
    simp only [hcm, hsize, Option.map_some, Option.some.injEq] at hs
    subst hs
    refine ⟨rfl, rfl, rfl, ?_⟩
    cases hspace : s.pipe.hasSpaceFor (4 + UInt64.ofNat xs.encoding.length) with
    | false =>
      have hcall : (commitAndSerialize id xs false).run s.writeF =
          .call .commit fun _ => writes s.writeF bs ok := by
        rw [← hrun]
        rfl
      rw [hcall]
      exact .issueCommit hpc rfl left
    | true =>
      have hcall : (commitAndSerialize id xs true).run s.writeF = writes s.writeF bs ok := hrun
      rw [hcall]
      refine .issue hpc left fun hauto hle => ⟨s.turn, by simp, .inr (.inr ⟨rfl, ?_⟩)⟩
      have hpre := left.1.length_le
      have hlen : List.length (Record.bytes ⟨id, ts, xs, [], none⟩) = 4 + xs.encoding.length := by
        simp [Record.bytes]
      rw [hlen] at hle hpre
      rw [Pipe.hasSpaceFor_iff hP hle] at hspace
      have hput : Record.put ⟨id, ts, xs, [], none⟩ = [] := rfl
      rw [hput, List.nil_append] at hpre
      have hroom := hspace.2
      dsimp only
      omega

/-! ### Runs -/

lemma Pipe.runWriter_pagesz {p p' : Pipe} (hs : p.runWriter = some p') : p'.pagesz = p.pagesz := by
  unfold Pipe.runWriter at hs
  cases hpc : p.w.pc with
  | idle => simp [hpc] at hs
  | mark t =>
    simp only [hpc, Option.map_eq_some_iff] at hs
    obtain ⟨q, -, rfl⟩ := hs
    rfl
  | push t =>
    simp only [hpc, Option.some.injEq] at hs
    subst hs
    rfl
  | next t =>
    simp only [hpc] at hs
    split at hs <;> cases hs
    unfold Pipe.acquire
    split <;> [split; rfl; rfl] <;> rfl
  | settle npage src so =>
    simp only [hpc, Option.map_eq_some_iff] at hs
    obtain ⟨q, -, rfl⟩ := hs
    rfl
  | copy src so =>
    simp only [hpc, Option.some.injEq] at hs
    subst hs
    unfold Pipe.copy
    split
    · rfl
    · split_ifs <;> rfl

lemma Pipe.runReader_pagesz {p p' : Pipe} (hs : p.runReader = some p') : p'.pagesz = p.pagesz := by
  unfold Pipe.runReader at hs
  cases hpc : p.r.pc <;> simp only [hpc, Option.map_eq_some_iff, Option.some.injEq] at hs
  case idle => cases hs
  case loop =>
    have hret : p.return.pagesz = p.pagesz := by
      simp only [Pipe.return]
      split_ifs <;> rfl
    split at hs
    · cases hs; exact hret
    · split_ifs at hs <;> cases hs
      · exact hret
      · rfl
  case pop | poll => subst hs; rfl
  all_goals
    obtain ⟨q, -, rfl⟩ := hs
    first | rfl | (split_ifs <;> rfl)

lemma Pipe.step_pagesz {e : PipeEvent} {p p' : Pipe} (hs : Pipe.step e p = some p') :
    p'.pagesz = p.pagesz := by
  cases e with
  | writer => exact Pipe.runWriter_pagesz hs
  | reader => exact Pipe.runReader_pagesz hs
  | write src =>
    simp only [Pipe.step, Option.ite_none_right_eq_some, Option.some.injEq] at hs
    obtain ⟨-, rfl⟩ := hs
    unfold Pipe.write
    split
    · rfl
    · dsimp only
      split_ifs <;> rfl
  | commit | rollback | read sz =>
    simp only [Pipe.step, Option.ite_none_right_eq_some, Option.some.injEq] at hs
    obtain ⟨-, rfl⟩ := hs
    rfl

/-- Every record keeps the promise, and the one under way will. -/
inductive Logger.Inv (cm : CommitMethod) (P : ℕ) (s : Logger) : Prop where
  | idle (caller : s.caller = .idle) (block : s.pipe.w.pc.block = none)
      (done : ∀ r ∈ s.records, r.Done cm P) : Inv cm P s
  | busy {r : Record} {rs : List Record} (records : s.records = r :: rs)
      (result : r.result = none) (going : s.Going P r s.caller) (done : ∀ r ∈ rs, r.Done cm P) :
      Inv cm P s

variable {cm : CommitMethod}

lemma Logger.Going.done (h : s.Going P r c) (hr : r.result = none) : r.Done s.cm P := by
  refine ⟨by simp [hr], fun hauto hle a ha b hb => ?_⟩
  cases h with
  | issueCommit pc puts left | waitCommit pc puts left => simp [puts] at ha
  | issue pc left fits | returned _ _ pc calls put left fits | wait _ _ pc left fits full =>
    obtain ⟨k, hk, -⟩ := fits hauto hle
    exact (hk a ha).trans (hk b hb).symm

lemma Logger.stepped_records {e : PipeEvent} {p : Pipe} (h : s.pipe.put e = []) :
    (s.stepped e p).records = s.records := by
  simp only [Logger.stepped, h, Record.putOn_nil]
  cases s.records <;> rfl

/-- A step of the pipe under no call of `write`. -/
lemma Logger.Inv.idle_step {e : PipeEvent} (hcaller : s.caller = .idle)
    (hblock : s.pipe.w.pc.block = none) (hdone : ∀ r ∈ s.records, r.Done cm P)
    (he : ∀ src, e ≠ .write src) (hs : s.pipeStep e = some s') : s'.Inv cm P := by
  obtain ⟨p, hp, rfl⟩ := Option.map_eq_some_iff.mp hs
  have hput : s.pipe.put e = [] := by
    cases e with
    | write src => exact absurd rfl (he src)
    | writer => cases hpc : s.pipe.w.pc <;> simp_all [Pipe.put]
    | commit | rollback | read sz | reader => rfl
  have hblock' : p.w.pc.block = none := by
    cases (Pipe.step_calls hp).2 with
    | go event calls block => exact block.trans hblock
    | enter => exact absurd rfl (he _)
    | wrote _ _ _ block | returned _ _ _ block | commit _ _ block | rollback _ _ block =>
      exact block
  refine .idle hcaller hblock' ?_
  rw [Logger.stepped_records hput]
  exact hdone

/-- A step of the pipe under a call of `write`. -/
lemma Logger.Going.pipe {e : PipeEvent} {rs : List Record} (h : s.Going P r c)
    (hcaller : s.caller = c) (records : s.records = r :: rs)
    (he : e.IsCall = false) (hs : s.pipeStep e = some s') :
    ∃ r', s'.records = r' :: rs ∧ r'.result = r.result ∧ s'.Going P r' s'.caller := by
  obtain ⟨p, hp, rfl⟩ := Option.map_eq_some_iff.mp hs
  refine ⟨r.putOn s.turn (s.pipe.put e), by simp [Logger.stepped, records], by simp, ?_⟩
  have hcaller' : (s.stepped e p).caller = c := hcaller
  rw [hcaller']
  cases e with
  | write src | commit | rollback => simp [PipeEvent.IsCall] at he
  | writer => exact h.writer hp
  | read sz =>
    simp only [Pipe.step, Option.ite_none_right_eq_some, Option.some.injEq] at hp
    obtain ⟨-, rfl⟩ := hp
    exact h.frame rfl rfl rfl rfl
  | reader =>
    obtain ⟨-, hcalls, hw⟩ := Pipe.runReader_writer hp
    exact h.frame rfl hw hcalls rfl

/-- A step of the caller. -/
lemma Logger.Inv.runCaller (h : s.Inv cm P) (hcm : s.cm = cm) (hP : s.pipe.pagesz = P)
    (hs : s.runCaller = some s') : s'.Inv cm P ∧ s'.cm = cm ∧ s'.pipe.pagesz = P := by
  subst hcm
  unfold Logger.runCaller at hs
  cases h with
  | idle caller => simp [caller] at hs
  | @busy r rs records result going done =>
    split at hs
    · cases hs
    · cases hs
    · rename_i ok wf hcaller
      rw [hcaller] at going
      obtain rfl := Option.some.inj hs
      obtain ⟨hpc, hdone⟩ := going.return
      refine ⟨.idle rfl (by simp [hpc]) ?_, rfl, hP⟩
      intro r' hr'
      simp only [records, List.modifyHead_cons, List.mem_cons] at hr'
      rcases hr' with rfl | hr'
      · exact hdone
      · exact done r' hr'
    · rename_i src k hcaller
      rw [hcaller] at going
      simp only [Logger.pipeStep, Pipe.step, Option.map_map, Option.map_eq_some_iff,
        Option.ite_none_right_eq_some, Option.some.injEq] at hs
      obtain ⟨p, ⟨hpc, rfl⟩, rfl⟩ := hs
      have hstep : Pipe.step (.write src) s.pipe = some (s.pipe.write src) := if_pos hpc
      have hrecords : (s.stepped (.write src) (s.pipe.write src)).records =
          r.putOn s.turn (s.pipe.put (.write src)) :: rs := by
        simp [Logger.stepped, records]
      exact ⟨.busy hrecords (by simpa) ((going.write hP).frame rfl rfl rfl rfl) done, rfl,
        (Pipe.step_pagesz hstep).trans hP⟩
    · rename_i k hcaller
      rw [hcaller] at going
      simp only [Logger.pipeStep, Pipe.step, Option.map_map, Option.map_eq_some_iff,
        Option.ite_none_right_eq_some, Option.some.injEq] at hs
      obtain ⟨p, ⟨-, rfl⟩, rfl⟩ := hs
      have hrecords : (s.stepped .commit (s.pipe.finish .commit .commit)).records = r :: rs :=
        (Logger.stepped_records rfl).trans records
      exact ⟨.busy hrecords result (going.commit.frame rfl rfl rfl rfl) done, rfl, hP⟩
    · rename_i k hcaller
      rw [hcaller] at going
      simp only [Option.ite_none_right_eq_some, Option.some.injEq] at hs
      obtain ⟨hpc, rfl⟩ := hs
      exact ⟨.busy records result (going.answer hpc) done, rfl, hP⟩

lemma Logger.pipeStep_cm {e : PipeEvent} (hs : s.pipeStep e = some s') :
    s'.cm = s.cm ∧ s'.pipe.pagesz = s.pipe.pagesz := by
  obtain ⟨p, hp, rfl⟩ := Option.map_eq_some_iff.mp hs
  exact ⟨rfl, Pipe.step_pagesz hp⟩

lemma Logger.Inv.pipeStep {e : PipeEvent} (h : s.Inv cm P) (hcm : s.cm = cm)
    (hP : s.pipe.pagesz = P) (he : e.IsCall = false) (hs : s.pipeStep e = some s') :
    s'.Inv cm P ∧ s'.cm = cm ∧ s'.pipe.pagesz = P := by
  obtain ⟨hcm', hP'⟩ := Logger.pipeStep_cm hs
  refine ⟨?_, hcm'.trans hcm, hP'.trans hP⟩
  cases h with
  | idle caller block done =>
    refine .idle_step caller block done (fun src => ?_) hs
    rintro rfl
    simp [PipeEvent.IsCall] at he
  | busy records result going done =>
    obtain ⟨r', hrecords', hresult', going'⟩ := going.pipe rfl records he hs
    exact .busy hrecords' (hresult'.trans result) going' done

/-- Every event keeps the promises. -/
lemma Logger.Inv.step {e : LogEvent} (h : s.Inv cm P ∧ s.cm = cm ∧ s.pipe.pagesz = P)
    (hlt : P < 2 ^ 64) (hs : Logger.step e s = some s') :
    s'.Inv cm P ∧ s'.cm = cm ∧ s'.pipe.pagesz = P := by
  obtain ⟨hinv, hcm, hP⟩ := h
  cases e with
  | caller => exact hinv.runCaller hcm hP hs
  | pipe e =>
    cases e with
    | write src | commit | rollback => cases hs
    | writer | read sz | reader => exact hinv.pipeStep hcm hP rfl hs
  | commit | rollback =>
    simp only [Logger.step] at hs
    split at hs
    · rename_i hcaller
      obtain ⟨hcm', hP'⟩ := Logger.pipeStep_cm hs
      refine ⟨?_, hcm'.trans hcm, hP'.trans hP⟩
      cases hinv with
      | idle caller block done => exact .idle_step caller block done (by simp) hs
      | busy records result going done =>
        rw [hcaller] at going
        cases going
    · cases hs
  | record id ts xs =>
    simp only [Logger.step] at hs
    split at hs
    · rename_i hcaller
      simp only [Option.ite_none_right_eq_some] at hs
      obtain ⟨hpc, hs⟩ := hs
      obtain ⟨hpipe, hcm', hrecords, hgoing⟩ := Logger.write_going hpc (hP ▸ hlt) hs
      refine ⟨?_, hcm'.trans hcm, by rw [hpipe, hP]⟩
      rw [hP] at hgoing
      cases hinv with
      | idle caller block done => exact .busy hrecords rfl hgoing done
      | busy records result going done =>
        rw [hcaller] at going
        cases going
    · cases hs

lemma Logger.run_done {count : ℕ} {pagesz : UInt64} {qos : PipeQOS} {es : List LogEvent}
    (hs : runEvents Logger.step es (Logger.init count pagesz qos cm) = some s) :
    ∀ r ∈ s.records, r.Done cm pagesz.toNat := by
  have hinv : s.Inv cm pagesz.toNat ∧ s.cm = cm ∧ s.pipe.pagesz = pagesz.toNat := by
    refine (Reachable.start.runEvents hs).invariant ⟨?_, rfl, rfl⟩
      fun e s s' h hs => Logger.Inv.step h pagesz.toNat_lt hs
    exact .idle rfl rfl (by simp [Logger.init])
  obtain ⟨hinv, rfl, -⟩ := hinv
  cases hinv with
  | idle caller block done => exact done
  | busy records result going done =>
    intro r hr
    rw [records, List.mem_cons] at hr
    rcases hr with rfl | hr
    · exact going.done result
    · exact done r hr

/-- What a call on the pipe is asked to put there. -/
def PipeCall.length : PipeCall → ℕ
  | .write src => src.length
  | .commit => 0

/-- The size of a value is the number of bytes that a successful `write` puts into the pipe, whatever
the pointers of the thread are. In a group, what `write` has put on pages is the statement id and as
many bytes as `size` has said; and in a group that commits by itself a record that fits into an empty
page is put on one page. -/
theorem Logger.size_eq_written (count : ℕ) (pagesz : UInt64) (qos : PipeQOS) (cm : CommitMethod) :
    (∀ {t : Ty} (v : Value none t) (sf wf wf' : RecF) (tr : List (PipeCall × Bool)),
      (v.write.run wf).Runs tr (true, wf') →
        v.size.run sf = some (.ofNat (tr.map fun c => c.1.length).sum, sf)) ∧
    ∀ es s, runEvents Logger.step es (Logger.init count pagesz qos cm) = some s →
      ∀ r ∈ s.records,
        (r.result = some true → r.put = r.bytes ∧
          ∃ n, r.xs.size.run none = some (n, none) ∧ .ofNat r.put.length = 4 + n) ∧
        (cm = .autoCommit → r.bytes.length ≤ pagesz.toNat →
          ∀ a ∈ r.puts, ∀ b ∈ r.puts, a.1 = b.1) := by
  refine ⟨fun v sf wf wf' tr htr => ?_, fun es s hs r hr => ⟨fun hres => ?_, ?_⟩⟩
  · obtain ⟨bs, ok, hrun, -, heq⟩ := v.write_puts (RecF.serves_none wf)
    rw [hrun] at htr
    obtain ⟨hok, rfl⟩ := Calls.runs_each htr (by simp)
    have hsum : ((bs.map PipeCall.write).map (·, true)).map (fun c => c.1.length) =
        bs.map List.length := by
      simp [PipeCall.length, Function.comp_def]
    rw [hsum, ← List.length_flatten, heq (by simpa using (Prod.mk.inj hok).1.symm)]
    exact v.size_eq (RecF.serves_none sf)
  · have hput := (Logger.run_done hs r hr).written hres
    refine ⟨hput, _, r.xs.size_eq (RecF.serves_none none), ?_⟩
    rw [hput, Record.bytes, List.length_append, leBytes_length, UInt64.ofNat_add]
    rfl
  · exact (Logger.run_done hs r hr).page

/-- A record of ten bytes and one of sixteen. -/
def twoRecords : List LogEvent :=
  [.record 7 [.prim 6] (.cons (.prim [1, 2, 3, 4, 5, 6] rfl) .nil)] ++
    List.replicate 5 .caller ++
    [.record 8 [.string] (.cons (.string [1, 2, 3, 4]) .nil), .caller] ++
    List.replicate 3 (.pipe .writer) ++ List.replicate 6 .caller ++
    List.replicate 4 (.pipe .writer) ++ List.replicate 2 .caller

/-- On pages of sixteen bytes the second record is put on a page of its own, and takes all of it. -/
theorem Logger.size_eq_written_two : ∃ s,
    runEvents Logger.step twoRecords (Logger.init 4 16 .reliable .autoCommit) = some s ∧
    s.records.map (fun r => (r.result, r.puts.map Prod.fst)) =
      [(some true, [1, 1, 1]), (some true, [0, 0])] ∧
    ∀ r ∈ s.records, r.bytes.length ≤ 16 → ∀ a ∈ r.puts, ∀ b ∈ r.puts, a.1 = b.1 := by
  have hrun : (runEvents Logger.step twoRecords (Logger.init 4 16 .reliable .autoCommit)).map
      (fun s => s.records.map fun r => (r.result, r.puts.map Prod.fst)) =
      some [(some true, [1, 1, 1]), (some true, [0, 0])] := by decide
  obtain ⟨s, hs, hrecords⟩ := Option.map_eq_some_iff.mp hrun
  exact ⟨s, hs, hrecords, fun r hr =>
    ((Logger.size_eq_written 4 16 .reliable .autoCommit).2 _ _ hs r hr).2 rfl⟩

end Hobbes.Storage
