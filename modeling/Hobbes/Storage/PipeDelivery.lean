import Hobbes.Storage.PipeCalls
import Hobbes.Storage.PipeReader
import Hobbes.Storage.PipeWriter

/-!
# What a pipe delivers
-/

namespace Hobbes.Storage

open Core Function

variable {count P : ℕ} {qos : PipeQOS} {s s' : Pipe} {log : List Entry}
  {w : Window (ringSize count)} {e : PipeEvent}

/-! ### Runs -/

/-- The caller of a pipe without a page commits only what has failed already. -/
def Pipe.Paged (s : Pipe) : Prop := s.w.page = none → (txns s.calls).failed = true

/-- What a block leaves on the page fits into the 24 bits of a stamp. -/
def Pipe.Fits (s : Pipe) (src : List UInt8) : Prop :=
  s.w.page ≠ none → s.pagesz < 2 ^ 24 ∨ s.w.offset + src.length < 2 ^ 24

lemma Pipe.Inv.step (hP : 0 < P) (h : s.Inv P log w) (hs : Pipe.step e s = some s')
    (hfit : ∀ src, e = .write src → s.Fits src) (hpaged : e = .commit → s.w.pc = .idle → s.Paged) :
    ∃ (log' : List Entry) (w' : Window (ringSize count)), s'.Inv P log' w' := by
  cases e with
  | write src =>
    simp only [Pipe.step, Option.ite_none_right_eq_some, Option.some.injEq] at hs
    exact ⟨log, w, hs.2 ▸ h.write hs.1 src (hfit src rfl)⟩
  | commit =>
    simp only [Pipe.step, Option.ite_none_right_eq_some, Option.some.injEq] at hs
    exact ⟨log, w, hs.2 ▸ h.finish hs.1 (.inl ⟨rfl, rfl⟩) fun _ => hpaged rfl hs.1⟩
  | rollback =>
    simp only [Pipe.step, Option.ite_none_right_eq_some, Option.some.injEq] at hs
    exact ⟨log, w, hs.2 ▸ h.finish hs.1 (.inr ⟨rfl, rfl⟩) (by simp)⟩
  | writer => exact h.runWriter hP hs
  | read sz =>
    simp only [Pipe.step, Option.ite_none_right_eq_some, Option.some.injEq] at hs
    exact ⟨log, w, hs.2 ▸ h.read hs.1 sz⟩
  | reader =>
    obtain ⟨w', hw'⟩ := h.runReader hs
    exact ⟨log, w', hw'⟩

lemma Pipe.init_inv (hc : 0 < ringSize count) (hP : 0 < P) :
    (Pipe.init count P qos).Inv P [] (Window.empty hc) where
  count_eq := rfl
  pagesz_eq := rfl
  len := rfl
  wi := by simp [Pipe.init, Window.empty]
  ri := by simp [Pipe.init, Window.empty]
  held i e _ he := by simp at he
  writing := by
    have hnext : nextIndex count 0 = (0 + 1) % ringSize count := nextIndex_eq hc
    rcases Nat.lt_or_ge 1 (ringSize count) with hr | hr
    · have hne : ¬ 0 = nextIndex count 0 := by rw [hnext, Nat.zero_add, Nat.mod_eq_of_lt hr]; decide
      have hpage : (Pipe.init count P qos).w.page = some 0 := by simp only [Pipe.init, hne, if_false]
      refine .idle ⟨by rw [hpage]; simp [Window.empty], by simpa [Window.empty]⟩ hP (by simp [Pipe.init])
        (by simp [Pipe.init, Txns.size]) rfl ?_
      rw [Pipe.filled_of_offset rfl]
      rfl
    · have hr : ringSize count = 1 := by omega
      have he : 0 = nextIndex count 0 := by rw [hnext, hr]
      refine .lost (by simp only [Pipe.init, if_pos he]) (.inr ?_) (.inr rfl) rfl
      unfold ringSize at hr
      omega
  reading := by
    have hview : ∀ r : RPipe, r.flag = 0 → r.buf = [] → r.txn = [] → r.view [] = ⟨[], []⟩ := by
      intro r h₁ h₂ h₃
      simp [RPipe.view, h₁, h₂, h₃, PageState.code]
    exact .idle ⟨by simp [Pipe.init, PageState.code], by simp [Pipe.init, PageState.code]⟩
      ⟨rfl, rfl, hview _ rfl rfl rfl⟩

/-! ### Deliveries -/

lemma RPipe.prefix_view (r : RPipe) (d : List (List UInt8)) : d <+: (r.view d).done := by
  unfold RPipe.view
  split_ifs <;> simp

/-- The reader has delivered a beginning of what the log holds. -/
lemma Pipe.Inv.delivered_prefix (h : s.Inv P log w) : s.delivered <+: (feed log).done := by
  have htake : (feed (log.take w.popped)).done <+: (feed log).done := by
    have := feed_done_prefix (log.take w.popped) (log.drop w.popped)
    rwa [List.take_append_drop] at this
  have hview : (s.r.view s.delivered).done = (feed (log.take w.popped)).done := by
    have hr := h.reading
    generalize s.r.pc = pc at hr
    cases hr with
    | idle _ hb | next _ hb | loop hb => rw [hb.eq]
    | idleAt ha | loopAt ha | copy ha | spin ha _ | state ha _ _ | pop ha _ _ =>
      rw [ha.eq, Feed.append_done]
    | poll _ _ eq => rw [eq]
  exact ((s.r.prefix_view s.delivered).trans (hview ▸ List.prefix_rfl)).trans htake

/-- The log holds a beginning of what the writer was to send. -/
lemma Pipe.Inv.done_prefix (h : s.Inv P log w) :
    (feed log).done <+: ((txns s.calls).feed P).done := by
  have hafter : ∀ {t : Task} {f : Feed}, t.After P (txns s.calls) f →
      f.done = ((txns s.calls).feed P).done := by
    intro t f ha
    cases t with
    | write src so =>
      have hdone := congrArg Feed.done ha.2.2.2.2
      exact hdone
    | commit => exact congrArg Feed.done ha.1
    | rollback => exact congrArg Feed.done ha.1
  have hw := h.writing
  generalize s.w.pc = pc at hw
  cases hw with
  | idle _ _ _ _ _ eq =>
    have hdone := congrArg Feed.done eq
    rw [Feed.append_done] at hdone
    exact hdone ▸ List.prefix_rfl
  | lost _ _ _ eq | copyLost _ _ eq => exact eq ▸ List.prefix_rfl
  | mark _ _ after | push _ _ _ after => rw [← hafter after]; exact Feed.done_prefix_take
  | next after _ | settle _ _ _ after | copy _ _ after => exact hafter after ▸ List.prefix_rfl

/-- Nothing is under way: the writer is between two calls, and the reader waits for a page. -/
def Pipe.Drained (s : Pipe) : Prop := s.w.pc = .idle ∧ s.r.pc = .next ∧ s.wi = s.ri

/-- Once the pipe is drained, everything has been delivered. -/
lemma Pipe.Inv.delivered_eq (h : s.Inv P log w) (hd : s.Drained) :
    s.delivered = ((txns s.calls).feed P).done := by
  obtain ⟨hwpc, hrpc, heq⟩ := hd
  have hall : w.popped = log.length := by
    rw [h.wi, h.ri] at heq
    rw [h.len]
    exact w.slot_eq_iff.mp heq.symm
  have hread : s.delivered = (feed log).done := by
    have hr := h.reading
    rw [hrpc] at hr
    cases hr with
    | next plain hb =>
      have hview := hb.eq
      rw [RPipe.view_of_plain plain, hall, List.take_length] at hview
      exact congrArg Feed.done hview
  have hw := h.writing
  rw [hwpc] at hw
  cases hw with
  | idle _ _ _ _ _ eq => rw [hread, ← eq, Feed.append_done]
  | lost _ _ _ eq => rw [hread, eq]; rfl

/-! ### A reliable pipe -/

/-- On a reliable pipe no write fails. -/
structure Pipe.Reliable (s : Pipe) : Prop where
  qos : s.qos = .reliable
  ok : ∀ src, Call.wrote src false ∉ s.calls

/-- A reliable pipe always has a page where it needs one. -/
lemma Pipe.Inv.paged (h : s.Inv P log w) (hc : 2 ≤ count) (hq : s.qos = .reliable)
    (hpc : s.w.pc = .idle ∨ ∃ src so, s.w.pc = .copy src so) : s.w.page ≠ none := by
  have hw := h.writing
  rcases hpc with hpc | ⟨src, so, hpc⟩
  · rw [hpc] at hw
    cases hw with
    | idle own => simp [own.page]
    | lost page qos => exact absurd qos (by simp [hq]; omega)
  · rw [hpc] at hw
    cases hw with
    | copy own => simp [own.page]
    | copyLost page qos => simp [hq] at qos

lemma Pipe.Reliable.step (hr : s.Reliable) (h : s.Inv P log w) (hc : 2 ≤ count)
    (hs : Pipe.step e s = some s') : s'.Reliable := by
  have hpaged := h.paged hc hr.qos
  obtain ⟨hq, hcall⟩ := Pipe.step_calls hs
  refine ⟨hq.trans hr.qos, ?_⟩
  cases hcall with
  | go _ calls | enter _ _ calls => rw [calls]; exact hr.ok
  | commit _ calls | rollback _ calls => simpa [calls] using hr.ok
  | @wrote src ok idle page calls =>
    have hok : ok ≠ false := mt page.mp (hpaged (.inl idle))
    simpa [calls, hok.symm] using hr.ok
  | @returned src so ok pc page calls =>
    have hok : ok ≠ false := mt page (hpaged (.inr ⟨src, so, pc⟩))
    simpa [calls, hok.symm] using hr.ok

lemma Pipe.reliable_inv (hc : 2 ≤ count) (hP : 0 < P) (hP' : P < 2 ^ 24)
    (h : Reachable Pipe.step (Pipe.init count P .reliable) s) :
    s.Reliable ∧ ∃ (log : List Entry) (w : Window (ringSize count)), s.Inv P log w := by
  have h₀ : (Pipe.init count P .reliable).Reliable := ⟨rfl, by simp [Pipe.init]⟩
  refine h.invariant (P := fun s => s.Reliable ∧
    ∃ (log : List Entry) (w : Window (ringSize count)), s.Inv P log w)
    ⟨h₀, _, _, Pipe.init_inv (Nat.zero_lt_of_lt (ringSize_pos hc)) hP⟩ ?_
  rintro e s s' ⟨hr, log, w, hi⟩ hs
  refine ⟨hr.step hi hc hs, hi.step hP hs (fun _ _ _ => .inl (by rwa [hi.pagesz_eq])) ?_⟩
  exact fun _ hpc hnone => absurd hnone (hi.paged hc hr.qos (.inl hpc))

/-- What is read of a sequence of blocks that was written to a reliable pipe and committed, in
whatever order the two processes run and whatever sizes the reader asks for: all of it exactly if
no page lies completely inside a block. -/
theorem Pipe.read_eq_written_iff (hc : 2 ≤ count) (hP : 0 < P) (hP' : P < 2 ^ 24)
    {es : List PipeEvent} {blocks : List (List UInt8)} {out : List UInt8}
    (hrun : runEvents Pipe.step es (Pipe.init count P .reliable) = some s)
    (hcalls : es.filter PipeEvent.IsCall = blocks.map PipeEvent.write ++ [.commit])
    (hout : s.delivered = [out]) : out = blocks.flatten ↔ Spread P 0 blocks := by
  obtain ⟨hr, log, w, hi⟩ := Pipe.reliable_inv hc hP hP' (Reachable.start.runEvents hrun)
  have hissued := Pipe.run_issued hrun
  rw [hcalls] at hissued
  -- the last call is the commit, so that no write is under way
  have hblock : s.w.pc.block = none := by
    cases hb : s.w.pc.block with
    | none => rfl
    | some src =>
      have hlast := congrArg List.getLast? hissued
      simp [Pipe.issued, hb, Pipe.init] at hlast
  simp only [Pipe.issued, hblock, Option.map_none, Option.toList_none, List.append_nil] at hissued
  have hhist : s.calls = blocks.map (Call.wrote · true) ++ [.commit] :=
    calls_eq_of_events hr.ok (hissued.trans (by simp [Pipe.init]))
  have hpre := hi.delivered_prefix.trans hi.done_prefix
  rw [hhist, txns_wrote, hout] at hpre
  have hvis : out = visible P 0 blocks := by
    obtain ⟨rest, hrest⟩ := hpre
    exact (List.cons.inj hrest).1
  rw [hvis]
  exact visible_eq_flatten_iff hP

/-- Three bytes in two blocks, the second of which runs over onto a second page. -/
theorem Pipe.read_eq_written_two_pages :
    ∃ (es : List PipeEvent) (s : Pipe) (out : List UInt8),
      runEvents Pipe.step es (Pipe.init 4 2 .reliable) = some s ∧ s.delivered = [out] ∧
      (out = [[1], [2, 3]].flatten ↔ Spread 2 0 [[1], [2, 3]]) := by
  let es : List PipeEvent := .write [1] :: .write [2, 3] :: List.replicate 4 .writer ++
    .commit :: List.replicate 3 .writer ++ .read 1024 :: List.replicate 14 .reader
  have hs : ∃ s, runEvents Pipe.step es (Pipe.init 4 2 .reliable) = some s ∧
      s.delivered = [[1, 2, 3]] := ⟨_, rfl, rfl⟩
  obtain ⟨s, hrun, hout⟩ := hs
  exact ⟨es, s, _, hrun, hout,
    Pipe.read_eq_written_iff (by decide) (by decide) (by decide) hrun rfl hout⟩

/-- A block of two pages of one byte each: the second page is marked with the offset `0`. -/
theorem Pipe.read_loses_full_page :
    ∃ (es : List PipeEvent) (s : Pipe) (out : List UInt8),
      runEvents Pipe.step es (Pipe.init 3 1 .reliable) = some s ∧
      es.filter PipeEvent.IsCall = [[1, 2]].map PipeEvent.write ++ [.commit] ∧
      s.delivered = [out] ∧ out ≠ [[1, 2]].flatten := by
  let es : List PipeEvent := .write [1, 2] :: List.replicate 6 .writer ++
    .read 1024 :: List.replicate 7 .reader ++ List.replicate 2 .writer ++
    .commit :: List.replicate 2 .writer ++ List.replicate 13 .reader
  have hs : ∃ s, runEvents Pipe.step es (Pipe.init 3 1 .reliable) = some s ∧
      s.delivered = [[1]] := ⟨_, rfl, rfl⟩
  obtain ⟨s, hrun, hout⟩ := hs
  exact ⟨es, s, _, hrun, rfl, hout, by decide⟩

/-! ### Careful writers -/

/-- The condition on a call under which the pipe loses nothing: a block leaves no page completely
inside it and fits the stamp, and an unreliable writer that got no page for its transaction does
not commit it without having tried to write. -/
def Pipe.Careful : PipeEvent → Pipe → Prop
  | .write src, s => s.w.page ≠ none → s.w.offset + src.length < 2 * s.pagesz ∧
      (s.pagesz < 2 ^ 24 ∨ s.w.offset + src.length < 2 ^ 24)
  | .commit, s => s.w.page = none → (txns s.calls).failed = true
  | _, _ => True

instance : ∀ (e : PipeEvent) (s : Pipe), Decidable (Pipe.Careful e s)
  | .write _, _ => inferInstanceAs (Decidable (_ → _))
  | .commit, _ => inferInstanceAs (Decidable (_ → _))
  | .rollback, _ | .writer, _ | .read _, _ | .reader, _ => isTrue trivial

lemma Spread.concat {o : ℕ} {bs : List (List UInt8)} {b : List UInt8} (ho : o < P)
    (h : Spread P o bs) (hb : (o + (bs.map List.length).sum) % P + b.length < 2 * P) :
    Spread P o (bs ++ [b]) := by
  induction bs generalizing o with
  | nil => simpa [Spread, Nat.mod_eq_of_lt ho] using hb
  | cons c bs ih =>
    refine ⟨h.1, ih (Nat.mod_lt _ (by omega)) h.2 ?_⟩
    rwa [Nat.mod_add_mod, Nat.add_assoc, ← List.sum_cons, ← List.map_cons]

/-- The blocks of the committed transactions and of the current one leave no page inside them. -/
structure Pipe.AllSpread (P : ℕ) (s : Pipe) : Prop where
  done : ∀ bs ∈ (txns s.calls).done, Spread P 0 bs
  cur : Spread P 0 (txns s.calls).cur
  block : ∀ src, s.w.pc.block = some src → (txns s.calls).size % P + src.length < 2 * P

lemma Pipe.AllSpread.step (hP : 0 < P) (ha : s.AllSpread P) (h : s.Inv P log w)
    (ho : Pipe.Careful e s) (hs : Pipe.step e s = some s') : s'.AllSpread P := by
  have hbound : ∀ src, e = .write src → s.w.pc = .idle → s.w.page ≠ none →
      (txns s.calls).size % P + src.length < 2 * P := by
    rintro src rfl hpc hpage
    have hw := h.writing
    rw [hpc] at hw
    cases hw with
    | idle _ _ _ size => rw [← size, ← h.pagesz_eq]; exact (ho hpage).1
    | lost page => exact absurd page hpage
  have hwrote : ∀ src ok, (ok = true → (txns s.calls).size % P + src.length < 2 * P) →
      s'.calls = s.calls ++ [.wrote src ok] → s'.w.pc.block = none → s'.AllSpread P := by
    intro src ok hok hcalls hblock
    refine ⟨?_, ?_, by simp [hblock]⟩ <;> rw [hcalls, txns_concat] <;> cases ok
    · exact ha.done
    · exact ha.done
    · exact ha.cur
    · exact ha.cur.concat hP (by simpa [Txns.size] using hok rfl)
  obtain ⟨-, hcall⟩ := Pipe.step_calls hs
  cases hcall with
  | go _ calls block =>
    exact ⟨by rw [calls]; exact ha.done, by rw [calls]; exact ha.cur,
      by rw [calls, block]; exact ha.block⟩
  | enter idle page calls block =>
    refine ⟨by rw [calls]; exact ha.done, by rw [calls]; exact ha.cur, fun src hsrc => ?_⟩
    rw [block, Option.some.injEq] at hsrc
    rw [calls]
    exact hbound src (by rw [hsrc]) idle page
  | @wrote src ok idle page calls block =>
    refine hwrote src ok (fun hok => hbound src rfl idle ?_) calls block
    exact mt page.mpr (by simp [hok])
  | @returned src so ok pc page calls block =>
    exact hwrote src ok (fun _ => ha.block src (by rw [pc]; rfl)) calls block
  | commit idle calls block =>
    refine ⟨?_, ?_, by simp [block]⟩ <;> rw [calls, txns_concat]
    · intro bs hbs
      simp only [Txns.call] at hbs
      split_ifs at hbs
      · exact ha.done bs hbs
      · rcases List.mem_append.mp hbs with hbs | hbs
        · exact ha.done bs hbs
        · rw [List.mem_singleton.mp hbs]; exact ha.cur
    · trivial
  | rollback idle calls block =>
    refine ⟨?_, ?_, by simp [block]⟩ <;> rw [calls, txns_concat]
    · exact ha.done
    · trivial

/-- Whatever the order in which the two processes run, a careful writer's committed transactions
are delivered whole, once each and in the order of the commits, and nothing else is: what has been
delivered is always a beginning of them, and all of them once nothing is under way. -/
theorem Pipe.delivered_of_careful (hc : 0 < count) (hP : 0 < P)
    (h : Reachable (guarded Pipe.Careful Pipe.step) (Pipe.init count P qos) s) :
    s.delivered <+: (txns s.calls).done.map List.flatten ∧
      (s.Drained → s.delivered = (txns s.calls).done.map List.flatten) := by
  have hr : 0 < ringSize count := by unfold ringSize; omega
  have hinv : s.AllSpread P ∧
      ∃ (log : List Entry) (w : Window (ringSize count)), s.Inv P log w := by
    refine h.invariant (P := fun s => s.AllSpread P ∧
      ∃ (log : List Entry) (w : Window (ringSize count)), s.Inv P log w)
      ⟨⟨by simp [Pipe.init], trivial, by simp [Pipe.init]⟩, _, _, Pipe.init_inv hr hP⟩ ?_
    rintro e s s' ⟨ha, log, w, hi⟩ hs
    obtain ⟨ho, hs⟩ := guarded_eq_some.mp hs
    refine ⟨ha.step hP hi ho hs, hi.step hP hs ?_ ?_⟩
    · rintro src rfl hpage
      exact (ho hpage).2
    · rintro rfl _ hpage
      exact ho hpage
  obtain ⟨ha, log, w, hi⟩ := hinv
  have hdone : ((txns s.calls).feed P).done = (txns s.calls).done.map List.flatten :=
    List.map_congr_left fun bs hbs => (visible_eq_flatten_iff hP).mpr (ha.done bs hbs)
  rw [← hdone]
  exact ⟨hi.delivered_prefix.trans hi.done_prefix, hi.delivered_eq⟩

/-- Two transactions of an unreliable writer, the second of which is rolled back. -/
theorem Pipe.delivered_of_careful_rollback :
    ∃ s, Reachable (guarded Pipe.Careful Pipe.step) (Pipe.init 4 4 .unreliable) s ∧ s.Drained ∧
      (txns s.calls).done = [[[1], [2, 3]]] ∧ s.delivered = [[1, 2, 3]] := by
  let es : List PipeEvent := .write [1] :: .write [2, 3] :: .commit :: List.replicate 3 .writer ++
    .write [4] :: .rollback :: List.replicate 3 .writer ++
    .read 2 :: List.replicate 4 .reader ++ .read 1024 :: List.replicate 7 .reader ++
    .read 1024 :: List.replicate 8 .reader ++ [.read 1024]
  have hs : ∃ s, runEvents (guarded Pipe.Careful Pipe.step) es (Pipe.init 4 4 .unreliable) = some s ∧
      s.calls = [.wrote [1] true, .wrote [2, 3] true, .commit, .wrote [4] true, .rollback] ∧
      s.Drained := ⟨_, rfl, rfl, rfl, rfl, rfl⟩
  obtain ⟨s, hrun, hcalls, hdrained⟩ := hs
  have h := Reachable.start.runEvents hrun
  have hdone : (txns s.calls).done = [[[1], [2, 3]]] := by rw [hcalls]; rfl
  have hall := (Pipe.delivered_of_careful (by decide) (by decide) h).2 hdrained
  rw [hdone] at hall
  exact ⟨s, h, hdrained, hdone, hall⟩

/-- A committed transaction that arrives without its second byte, and one without blocks that is
committed while there is no page and never arrives. -/
theorem Pipe.delivery_not_all_or_nothing :
    (∃ s, Reachable Pipe.step (Pipe.init 3 1 .reliable) s ∧
      (txns s.calls).done = [[[1, 2]]] ∧ s.delivered = [[1]]) ∧
    ∃ s, Reachable Pipe.step (Pipe.init 2 4 .unreliable) s ∧ s.Drained ∧
      (txns s.calls).done = [[[1]], []] ∧ s.delivered = [[1]] := by
  constructor
  · let es : List PipeEvent := .write [1, 2] :: List.replicate 6 .writer ++
      .read 1024 :: List.replicate 7 .reader ++ List.replicate 2 .writer ++
      .commit :: List.replicate 2 .writer ++ List.replicate 13 .reader
    have hs : ∃ s, runEvents Pipe.step es (Pipe.init 3 1 .reliable) = some s ∧
        (txns s.calls).done = [[[1, 2]]] ∧ s.delivered = [[1]] := ⟨_, rfl, rfl, rfl⟩
    obtain ⟨s, hrun, h⟩ := hs
    exact ⟨s, Reachable.start.runEvents hrun, h⟩
  · let es : List PipeEvent := .write [1] :: .commit :: List.replicate 3 .writer ++
      .commit :: .writer :: .read 1024 :: List.replicate 8 .reader ++ [.read 1024]
    have hs : ∃ s, runEvents Pipe.step es (Pipe.init 2 4 .unreliable) = some s ∧ s.Drained ∧
        (txns s.calls).done = [[[1]], []] ∧ s.delivered = [[1]] :=
      ⟨_, rfl, ⟨rfl, rfl, rfl⟩, rfl, rfl⟩
    obtain ⟨s, hrun, h⟩ := hs
    exact ⟨s, Reachable.start.runEvents hrun, h⟩

end Hobbes.Storage
