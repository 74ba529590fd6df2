import Hobbes.Core.Transition
import Hobbes.Hog.Session

/-!
# What the entries of a session point to

As long as every record of a statement can be read, a session notes for each record that it stores the
statement and the position, in the order of the statements in the transaction.
-/

namespace Hobbes.Hog

open Core Db Storage

/-- The entry for a record: the array of its batch begins with its size and the count of records. -/
def Stored.entry (place : ℕ → ℕ → ℕ) (st : Stored) : ℕ × ℕ :=
  (st.id, (place st.id st.batch + 16 + st.head) % 2 ^ 64)

namespace Session

variable (s : Session)

/-- Every record that was stored, in the order in which it was. -/
def allStored : List Stored := (s.past ++ [s.now]).flatMap (·.stored)

/-- The record is where it was stored. -/
def Holds (st : Stored) : Prop :=
  ∃ stream b, s.streams[st.id]? = some (some stream) ∧
    stream.series.batches[st.batch]? = some b ∧ b.data.Holds st.head st.value

/-- Each entry gives the position of a record of its statement, there is one for every record that was
stored, and those of a transaction are in the order of its statements. -/
structure Faithful (place : ℕ → ℕ → ℕ) : Prop where
  log : s.cm = .autoCommit → s.log = s.allStored.map (·.entry place)
  transactions : s.cm = .manualCommit →
    s.transactions.map Prod.snd = s.past.map fun p => p.stored.map (·.entry place)
  order : ∀ p ∈ s.past ++ [s.now], p.stored.map (·.id) = p.found
  holds : ∀ st ∈ s.allStored, s.Holds st

end Session

/-- When the loop finds the id of a statement, the record behind it can be read. -/
def SessionEvent.Complete : SessionEvent → Session → Prop
  | .begin .., _ => True
  | .next, s => ∀ p ∈ s.txn, p.2.canRead 4 = true → ∀ q ∈ p.2.readUInt32,
      ∀ stream ∈ s.streams[q.1]?.join, ∀ r ∈ stream.hstoreRead q.2, r.1.isSome = true

instance : ∀ (e : SessionEvent) (s : Session), Decidable (e.Complete s)
  | .begin .., _ => inferInstanceAs (Decidable True)
  | .next, s => inferInstanceAs (Decidable (∀ p ∈ s.txn, _))

/-! ### The series of a statement -/

/-- A record that a session stored is in its array, in front of where the session goes on. -/
structure Kept (series : SeriesFile) (st : Stored) : Prop where
  holds : ∃ b, series.batches[st.batch]? = some b ∧ b.data.Holds st.head st.value
  behind : ∃ ss, series.session = some ss ∧
    (st.batch = ss.batchDataRef → st.head + st.value.length ≤ ss.batchHead)

variable {series series' : SeriesFile} {ss : StoredSeries} {st : Stored} {v : Bytes} {id : ℕ}

/-- A record is stored behind those that are there. -/
lemma Kept.storeRecord (h : Kept series st) (hss : series.session = some ss) :
    Kept (series.storeRecord ss v) st := by
  obtain ⟨⟨b, hb, hdata⟩, ss', hss', hbehind⟩ := h
  obtain rfl : ss' = ss := Option.some.inj (hss'.symm.trans hss)
  refine ⟨?_, _, rfl, fun heq => Nat.le_trans (hbehind heq) (Nat.le_add_right ..)⟩
  by_cases heq : ss'.batchDataRef = st.batch
  · refine ⟨{ b with data := b.data.write ss'.batchHead v }, ?_, hdata.write (.inl ?_)⟩
    · simp [SeriesFile.storeRecord, heq, hb]
    · exact hbehind heq.symm
  · refine ⟨b, ?_, hdata⟩
    simp [SeriesFile.storeRecord, heq, hb]

/-- The record that is stored is there. -/
lemma kept_storeRecord {b : Batch} (hb : series.batches[ss.batchDataRef]? = some b)
    (hv : v.length = series.storageSize) :
    Kept (series.storeRecord ss v) ⟨id, ss.batchDataRef, ss.batchHead, v⟩ := by
  refine ⟨⟨{ b with data := b.data.write ss.batchHead v }, ?_, Disk.holds_write _ _ _⟩,
    _, rfl, fun _ => ?_⟩
  · simp [SeriesFile.storeRecord, hb]
  · simp [hv]

/-- Records are counted in front of them. -/
lemma Kept.countRecord (h : Kept series st) (hss : series.session = some ss)
    (hs : series.countRecord ss = some series') : Kept series' st := by
  obtain ⟨c, hc, rfl⟩ := Option.map_eq_some_iff.mp hs
  obtain ⟨⟨b, hb, hdata⟩, ss', hss', hbehind⟩ := h
  obtain rfl : ss' = ss := Option.some.inj (hss'.symm.trans hss)
  refine ⟨?_, _, rfl, hbehind⟩
  by_cases heq : ss'.batchDataRef = st.batch
  · have hlt : st.batch < series.batches.length := (List.getElem?_eq_some_iff.mp hb).1
    obtain rfl : c = b := Option.some.inj (hc.symm.trans (heq ▸ hb))
    refine ⟨{ c with count := (c.count + 1) % 2 ^ 64 }, ?_, hdata⟩
    simp [heq, hlt]
  · refine ⟨b, ?_, hdata⟩
    simp [heq, hb]

/-- A new batch is another one than those that are there. -/
lemma Kept.consBatchNode (h : Kept series st) (batchSize nextPtr : ℕ) :
    Kept (series.consBatchNode batchSize nextPtr) st := by
  obtain ⟨⟨b, hb, hdata⟩, -⟩ := h
  have hlt : st.batch < series.batches.length := (List.getElem?_eq_some_iff.mp hb).1
  refine ⟨⟨b, ?_, hdata⟩, _, rfl, fun heq => ?_⟩
  · simp [SeriesFile.consBatchNode, SeriesFile.unsafeStoreArrayToOffset, SeriesFile.allocBatchNode,
      List.getElem?_append_left hlt, hb]
  · exact absurd heq (Nat.ne_of_lt hlt)

lemma Kept.step (h : Kept series st) (hs : SeriesFile.step .step series = some series') :
    Kept series' st := by
  obtain ⟨ss, hss, hs⟩ := Option.bind_eq_some_iff.mp hs
  rw [SeriesFile.runRecord] at hs
  split at hs
  · cases hs
  · exact h.countRecord hss hs
  · obtain rfl := Option.some.inj hs
    exact h.consBatchNode _ _

/-- The two or three steps of a call of `record`. -/
lemma recordAll_cases (hss : series.session = some ss) (hs : recordAll series v = some series') :
    v.length = series.storageSize ∧
      ∃ counted, SeriesFile.step .step (series.storeRecord ss v) = some counted ∧
        (series' = counted ∨ SeriesFile.step .step counted = some series') := by
  obtain ⟨stored, hstored, hsteps⟩ := Option.bind_eq_some_iff.mp hs
  obtain ⟨counted, hcounted, hlast⟩ := Option.bind_eq_some_iff.mp hsteps
  simp only [SeriesFile.step, hss, Option.bind_some, Option.ite_none_right_eq_some,
    Option.some.injEq] at hstored
  obtain ⟨⟨-, hv⟩, rfl⟩ := hstored
  refine ⟨hv, counted, hcounted, ?_⟩
  split at hlast
  · exact .inr hlast
  · exact .inl (Option.some.inj hlast).symm

lemma Kept.recordAll (h : Kept series st) (hs : recordAll series v = some series') :
    Kept series' st := by
  obtain ⟨ss, hss, -⟩ := h.behind
  obtain ⟨-, counted, hcounted, rfl | hs⟩ := recordAll_cases hss hs
  · exact (h.storeRecord hss).step hcounted
  · exact ((h.storeRecord hss).step hcounted).step hs

/-- The record goes where the session was before. -/
lemma kept_recordAll (hss : series.session = some ss) (hs : recordAll series v = some series') :
    Kept series' ⟨id, ss.batchDataRef, ss.batchHead, v⟩ := by
  obtain ⟨hv, counted, hcounted, hs⟩ := recordAll_cases hss hs
  -- there is such a batch, as its records could be counted
  obtain ⟨b, hb⟩ : ∃ b, series.batches[ss.batchDataRef]? = some b := by
    obtain ⟨c, hc, -⟩ := Option.map_eq_some_iff.mp hcounted
    refine Option.ne_none_iff_exists'.mp fun hnone => ?_
    simp [SeriesFile.storeRecord, hnone] at hc
  have hstored : Kept (series.storeRecord ss v) ⟨id, ss.batchDataRef, ss.batchHead, v⟩ :=
    kept_storeRecord hb hv
  rcases hs with rfl | hs
  · exact hstored.step hcounted
  · exact (hstored.step hcounted).step hs

/-! ### The scratch space -/

/-- The two words that are pushed for a record. -/
def Stored.words (place : ℕ → ℕ → ℕ) (st : Stored) : List ℕ := [st.id, (st.entry place).2]

variable {place : ℕ → ℕ → ℕ} {sts : List Stored}

lemma entries_words (h : ∀ st ∈ sts, st.id < 2 ^ 32) :
    entries (sts.flatMap (·.words place)) = sts.map (·.entry place) := by
  induction sts with
  | nil => rfl
  | cons st sts ih =>
    have hid : st.id % 2 ^ 32 = st.id := Nat.mod_eq_of_lt (h st List.mem_cons_self)
    have hrest := ih fun t ht => h t (List.mem_cons_of_mem _ ht)
    rw [List.flatMap_cons, List.map_cons, ← hrest]
    simp only [Stored.words, List.cons_append, List.nil_append, entries, hid]
    rfl

/-- With the count in front, the scratch space is the array of the entries. -/
lemma scratchArray_words (h : ∀ st ∈ sts, st.id < 2 ^ 32) :
    let txnScratch := 0 :: sts.flatMap (·.words place)
    scratchArray (txnScratch.set 0 ((txnScratch.length - 1) / 2)) = sts.map (·.entry place) := by
  have hlen : (sts.flatMap (·.words place)).length = 2 * sts.length := by
    simp [List.length_flatMap, Stored.words, Nat.mul_comm]
  simp only [List.set_cons_zero, scratchArray, List.length_cons, hlen, entries_words h]
  rw [List.take_of_length_le]
  simp

/-! ### The invariant -/

/-- The record is kept in the series of its statement. -/
def Session.Keeps (s : Session) (st : Stored) : Prop :=
  ∃ stream, s.streams[st.id]? = some (some stream) ∧ Kept stream.series st

structure Session.Inv (place : ℕ → ℕ → ℕ) (s : Session) : Prop where
  keeps : ∀ st ∈ s.allStored, s.Keeps st
  log : s.cm = .autoCommit → s.log = s.allStored.map (·.entry place)
  transactions : s.cm = .manualCommit →
    s.transactions.map Prod.snd = s.past.map fun p => p.stored.map (·.entry place)
  order : ∀ p ∈ s.past ++ [s.now], p.stored.map (·.id) = p.found
  small : ∀ st ∈ s.now.stored, st.id < 2 ^ 32
  scratch : s.cm = .manualCommit → s.txnScratch =
    if s.txn.isSome then 0 :: s.now.stored.flatMap (·.words place) else []
  idle : s.txn = none → s.now = ⟨[], []⟩

namespace Session

variable {s s' : Session} {stream : Stream} {time : ℤ} {t : Transaction} {data : Bytes} {pos : ℕ}

lemma allStored_eq (s : Session) : s.allStored = s.past.flatMap (·.stored) ++ s.now.stored := by
  simp [allStored]

lemma Inv.faithful (h : s.Inv place) : s.Faithful place := by
  refine ⟨h.log, h.transactions, h.order, fun st hst => ?_⟩
  obtain ⟨stream, hstream, ⟨b, hb, hdata⟩, -⟩ := h.keeps st hst
  exact ⟨stream, b, hstream, hb, hdata⟩

/-- A record is stored in the series of a statement. -/
lemma Inv.keeps_store {series : SeriesFile} {ss : StoredSeries} (h : s.Inv place)
    (hid : s.streams[id]? = some (some stream)) (hss : stream.series.session = some ss)
    (hs : recordAll stream.series v = some series) (hstreams : s'.streams =
      s.streams.set id (some { stream with series }))
    (hst : st ∈ s.allStored ++ [⟨id, ss.batchDataRef, ss.batchHead, v⟩]) : s'.Keeps st := by
  have hlt : id < s.streams.length := (List.getElem?_eq_some_iff.mp hid).1
  have hnew : s'.streams[id]? = some (some { stream with series }) := by
    rw [hstreams, List.getElem?_set_self hlt]
  rcases List.mem_append.mp hst with hst | hst
  · obtain ⟨stream', hstream', hkept⟩ := h.keeps st hst
    by_cases heq : st.id = id
    · rw [heq, hid] at hstream'
      obtain rfl : stream = stream' := by simpa using hstream'
      exact ⟨_, heq ▸ hnew, hkept.recordAll hs⟩
    · refine ⟨stream', ?_, hkept⟩
      rw [hstreams, List.getElem?_set_ne (Ne.symm heq), hstream']
  · obtain rfl := List.mem_singleton.mp hst
    exact ⟨_, hnew, kept_recordAll hss hs⟩

/-- A record that can be read is stored where the session stands in the series. -/
lemma writeFn_cases (hs : s.writeFn id stream time t = some s')
    (hread : ∀ r ∈ stream.hstoreRead t, r.1.isSome = true) :
    ∃ v t' ss series, stream.series.session = some ss ∧
      recordAll stream.series v = some series ∧ s' = { s with
        streams := s.streams.set id (some { stream with series })
        txn := some (time, t')
        now.stored := s.now.stored ++ [⟨id, ss.batchDataRef, ss.batchHead, v⟩] } := by
  simp only [writeFn] at hs
  split at hs
  · cases hs
  · rename_i t' hr
    exact absurd (hread _ hr) (by simp)
  · rename_i v t' hr
    obtain ⟨ss, hss, hs⟩ := Option.bind_eq_some_iff.mp hs
    obtain ⟨series, hseries, hs⟩ := Option.bind_eq_some_iff.mp hs
    exact ⟨v, t', ss, series, hss, hseries, (Option.some.inj hs).symm⟩

/-- The position that is taken before a record is read is the one that it is stored at. -/
lemma entry_of_writePosition {ss : StoredSeries} (hss : stream.series.session = some ss)
    (hpos : stream.writePosition (place id) = some pos) (v : Bytes) :
    Stored.entry place ⟨id, ss.batchDataRef, ss.batchHead, v⟩ = (id, pos) := by
  simp only [Stream.writePosition, hss, Option.map_some, Option.some.injEq] at hpos
  have hplace : place id ss.batchDataRef + (8 + ss.batchHead) + 8 =
      place id ss.batchDataRef + 16 + ss.batchHead := by omega
  rw [← hpos, hplace]
  rfl

/-- What is noted for a record of a statement is where it is stored. -/
lemma Inv.processRecord (h : s.Inv place) (htxn : s.txn.isSome = true) (hsmall : id < 2 ^ 32)
    (hid : s.streams[id]? = some (some stream))
    (hpos : stream.writePosition (place id) = some pos)
    (hread : ∀ r ∈ stream.hstoreRead t, r.1.isSome = true)
    (hs : s.processRecord id pos stream time t = some s') : s'.Inv place := by
  simp only [Session.processRecord] at hs
  split at hs
  · rename_i hcm
    obtain ⟨s₁, hs₁, rfl⟩ := Option.map_eq_some_iff.mp hs
    obtain ⟨v, t', ss, series, hss, hseries, rfl⟩ := writeFn_cases hs₁ hread
    have hentry := entry_of_writePosition hss hpos v
    refine ⟨fun st hst => ?_, fun _ => ?_, ?_, ?_, ?_, ?_, by simp⟩
    · refine h.keeps_store hid hss hseries rfl ?_
      simpa [allStored_eq] using hst
    · simp [h.log hcm, allStored_eq, hentry]
    · exact h.transactions
    · intro p hp
      rcases List.mem_append.mp hp with hp | hp
      · exact h.order p (List.mem_append_left _ hp)
      · obtain rfl := List.mem_singleton.mp hp
        simp [h.order s.now (by simp)]
    · intro st hst
      rcases List.mem_append.mp hst with hst | hst
      · exact h.small st hst
      · rwa [List.mem_singleton.mp hst]
    · intro hmanual
      exact absurd (hcm.symm.trans hmanual) (by simp)
  · rename_i hcm
    obtain ⟨v, t', ss, series, hss, hseries, rfl⟩ := writeFn_cases hs hread
    have hentry := entry_of_writePosition hss hpos v
    refine ⟨fun st hst => ?_, ?_, ?_, ?_, ?_, fun _ => ?_, by simp⟩
    · refine h.keeps_store hid hss hseries rfl ?_
      simpa [allStored_eq] using hst
    · intro hauto
      exact absurd (hcm.symm.trans hauto) (by simp)
    · exact h.transactions
    · intro p hp
      rcases List.mem_append.mp hp with hp | hp
      · exact h.order p (List.mem_append_left _ hp)
      · obtain rfl := List.mem_singleton.mp hp
        simp [h.order s.now (by simp)]
    · intro st hst
      rcases List.mem_append.mp hst with hst | hst
      · exact h.small st hst
      · rwa [List.mem_singleton.mp hst]
    · simp [h.scratch hcm, htxn, Stored.words, hentry]

/-- A transaction whose end is reached becomes an element. -/
lemma Inv.endTransaction (h : s.Inv place) (htxn : s.txn.isSome = true) (time : ℤ) :
    (s.endTransaction time).Inv place := by
  have horder : ∀ p ∈ s.past ++ [s.now] ++ [⟨[], []⟩], p.stored.map (·.id) = p.found := by
    intro p hp
    rcases List.mem_append.mp hp with hp | hp
    · exact h.order p hp
    · rw [List.mem_singleton.mp hp, List.map_nil]
  simp only [Session.endTransaction]
  split
  · rename_i hcm
    refine ⟨fun st hst => h.keeps st ?_, fun _ => ?_, ?_, horder, by simp, ?_, by simp⟩
    · simpa [allStored_eq] using hst
    · simp [h.log hcm, allStored_eq]
    · intro hmanual
      exact absurd (hcm.symm.trans hmanual) (by simp)
    · intro hmanual
      exact absurd (hcm.symm.trans hmanual) (by simp)
  · rename_i hcm
    refine ⟨fun st hst => h.keeps st ?_, ?_, fun _ => ?_, horder, by simp, by simp, by simp⟩
    · simpa [allStored_eq] using hst
    · intro hauto
      exact absurd (hcm.symm.trans hauto) (by simp)
    · have hscratch := h.scratch hcm
      rw [if_pos htxn] at hscratch
      rw [List.map_append, List.map_append, h.transactions hcm, hscratch]
      exact congrArg (_ ++ [·]) (scratchArray_words h.small)

lemma Inv.begin (h : s.Inv place) (htxn : s.txn = none) (time : ℤ) (data : Bytes) :
    (s.begin time data).Inv place := by
  refine ⟨h.keeps, h.log, h.transactions, h.order, h.small, fun hmanual => ?_, by simp [Session.begin]⟩
  have hcm : s.cm = .manualCommit := hmanual
  simp [Session.begin, h.scratch hcm, htxn, hcm, h.idle htxn]

lemma readUInt32_lt {t' : Transaction} (h : t.readUInt32 = some (id, t')) : id < 2 ^ 32 := by
  simp only [Transaction.readUInt32, Option.ite_none_right_eq_some, Option.some.injEq,
    Prod.mk.injEq] at h
  obtain ⟨hle, rfl, -⟩ := h
  have hlt := leNat_lt ((t.data.drop t.i).take 4)
  rwa [List.length_take, List.length_drop, Nat.min_eq_left (by omega)] at hlt

lemma Inv.step {e : SessionEvent} (h : s.Inv place) (he : e.Complete s)
    (hs : s.step place e = some s') : s'.Inv place := by
  cases e with
  | begin time data =>
    simp only [Session.step, Option.ite_none_right_eq_some, Option.isNone_iff_eq_none,
      Option.some.injEq] at hs
    obtain ⟨htxn, rfl⟩ := hs
    exact h.begin htxn time data
  | next =>
    obtain ⟨⟨time, t⟩, htxn, hs⟩ := Option.bind_eq_some_iff.mp hs
    have hsome : s.txn.isSome = true := by simp [htxn]
    simp only [Session.next] at hs
    split at hs
    · rename_i hcan
      obtain ⟨⟨id, t'⟩, hid, hs⟩ := Option.bind_eq_some_iff.mp hs
      dsimp only at hs
      split at hs
      · split at hs
        · rename_i stream hstream
          obtain ⟨pos, hpos, hs⟩ := Option.bind_eq_some_iff.mp hs
          refine h.processRecord hsome (readUInt32_lt hid) hstream hpos ?_ hs
          exact he (time, t) htxn hcan (id, t') hid stream (by simp [hstream])
        · cases hs
      · obtain rfl := Option.some.inj hs
        refine ⟨h.keeps, h.log, h.transactions, h.order, h.small, fun hcm => ?_, by simp⟩
        rw [h.scratch hcm, if_pos hsome]
        rfl
    · obtain rfl := Option.some.inj hs
      exact h.endTransaction hsome time

end Session

lemma inv_initStorageSession {cm : CommitMethod} {stmts : List Statement} {s : Session}
    (h : initStorageSession cm stmts = some s) : s.Inv place := by
  obtain ⟨streams, -, rfl⟩ := Option.map_eq_some_iff.mp h
  refine ⟨?_, fun _ => rfl, fun _ => rfl, ?_, ?_, fun _ => rfl, fun _ => rfl⟩
  · simp [Session.allStored]
  · simp
  · simp

/-- In every run in which every record of a statement that is found can be read, each entry gives the
position of a record of its statement, and there is one for every record that was stored. -/
theorem Session.faithful_of_complete (place : ℕ → ℕ → ℕ) (cm : CommitMethod) (stmts : List Statement)
    {s₀ s : Session} {es : List SessionEvent} (hs₀ : initStorageSession cm stmts = some s₀)
    (hs : runEvents (guarded SessionEvent.Complete (Session.step place)) es s₀ = some s) :
    s.Faithful place := by
  refine ((Reachable.start.runEvents hs).invariant (inv_initStorageSession hs₀)
    fun e s s' h hs => ?_).faithful
  obtain ⟨he, hs⟩ := guarded_eq_some.mp hs
  exact h.step he hs

/-- Statements that log four bytes and one. -/
def twoStatements : List Statement :=
  [⟨0, 4, (·.hstoreReadFixed 4)⟩, ⟨1, 1, (·.hstoreReadFixed 1)⟩]

/-- A transaction of two records and an id that no statement has. -/
theorem Session.faithful_of_complete_two : ∃ s₀ s,
    initStorageSession .manualCommit twoStatements = some s₀ ∧
      runEvents (guarded SessionEvent.Complete (Session.step fun id k => 1000 * id + 100 * k))
        [.begin 5 [1, 0, 0, 0, 7, 0, 0, 0, 0, 1, 2, 3, 4, 9, 0, 0, 0], .next, .next, .next, .next]
        s₀ = some s ∧
      s.transactions = [(5, [(1, 1016), (0, 16)])] ∧
      s.Faithful fun id k => 1000 * id + 100 * k := by
  have hinit : (initStorageSession .manualCommit twoStatements).isSome = true := by decide +kernel
  obtain ⟨s₀, hs₀⟩ := Option.isSome_iff_exists.mp hinit
  have hrun : ((initStorageSession .manualCommit twoStatements).bind
      (runEvents (guarded SessionEvent.Complete (Session.step fun id k => 1000 * id + 100 * k))
        [.begin 5 [1, 0, 0, 0, 7, 0, 0, 0, 0, 1, 2, 3, 4, 9, 0, 0, 0], .next, .next, .next, .next])).map
      Session.transactions = some [(5, [(1, 1016), (0, 16)])] := by decide +kernel
  rw [hs₀, Option.bind_some] at hrun
  obtain ⟨s, hs, htransactions⟩ := Option.map_eq_some_iff.mp hrun
  exact ⟨s₀, s, hs₀, hs, htransactions, Session.faithful_of_complete _ _ _ hs₀ hs⟩

/-- A transaction ends inside of a record: there is an entry for it all the same. -/
theorem Session.not_faithful_cutOff : ∃ s₀ s,
    initStorageSession .autoCommit twoStatements = some s₀ ∧
      runEvents (Session.step fun _ _ => 0) [.begin 5 [0, 0, 0, 0, 1, 2], .next, .next] s₀ = some s ∧
      ¬ s.Faithful fun _ _ => 0 := by
  have hinit : (initStorageSession .autoCommit twoStatements).isSome = true := by decide +kernel
  obtain ⟨s₀, hs₀⟩ := Option.isSome_iff_exists.mp hinit
  have hrun : ((initStorageSession .autoCommit twoStatements).bind
      (runEvents (Session.step fun _ _ => 0) [.begin 5 [0, 0, 0, 0, 1, 2], .next, .next])).map
      (fun s => (s.cm, s.log.length, s.allStored.length)) = some (.autoCommit, 1, 0) := by rfl
  rw [hs₀, Option.bind_some] at hrun
  obtain ⟨s, hs, hlengths⟩ := Option.map_eq_some_iff.mp hrun
  obtain ⟨hcm, hlog, hstored⟩ : s.cm = .autoCommit ∧ s.log.length = 1 ∧ s.allStored.length = 0 := by
    simpa only [Prod.mk.injEq] using hlengths
  refine ⟨s₀, s, hs₀, hs, fun h => ?_⟩
  rw [h.log hcm, List.length_map, hstored] at hlog
  cases hlog

end Hobbes.Hog
