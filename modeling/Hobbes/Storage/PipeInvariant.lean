import Hobbes.Storage.PageLog
import Hobbes.Storage.WaitProtocol

/-!
# What holds in every run of a pipe

The pages between the two indices are the entries of a log that the reader has not popped. Where
the writer stands, the log and its own page make up the transactions it was given; where the reader
stands, the log up to its page makes up what it has delivered and collected. Neither of the two
facts mentions the other process.
-/

namespace Hobbes.Storage

open Core Function

variable {count P : ℕ}

/-! ### The invariant -/

structure Page.Holds (pg : Page) (e : Entry) : Prop where
  bytes : pg.copyOut 0 e.bytes.length = e.bytes
  pend : pg.pend = stamp e.state e.bytes.length
  short : e.bytes.length < 2 ^ 24

/-- What the writer has put on its own page. -/
def Pipe.filled (s : Pipe) : List UInt8 :=
  match s.w.page with
  | some p => (s.mem p).copyOut 0 s.w.offset
  | none => []

/-- What the reader should see of the transactions of the writer. -/
def Txns.feed (P : ℕ) (t : Txns) : Feed := ⟨t.done.map (visible P 0), visible P 0 t.cur⟩

/-- What the log amounts to once the page of a task has been pushed. -/
def Task.After (P : ℕ) (t : Txns) (f : Feed) : Task → Prop
  | .write src so => P < 2 ^ 24 ∧ so ≤ src.length ∧ P ∣ t.size + so ∧ t.failed = false ∧
      f.append (lastPage P (src.drop so)) = (t.call (.wrote src true)).feed P
  | .commit | .rollback => f = t.feed P ∧ t.cur = [] ∧ t.failed = false

/-- The writer's page is the slot behind the window. -/
structure Pipe.Owns (s : Pipe) (w : Window (ringSize count)) : Prop where
  page : s.w.page = some (w.pushed % ringSize count)
  room : w.pushed + 1 < w.popped + ringSize count

/-- The last page of the log is one that the writer has yet to decide about. -/
def Pipe.Tentative (s : Pipe) (log : List Entry) (w : Window (ringSize count)) : Prop :=
  ∃ log₀ bs, log = log₀ ++ [⟨bs, .tentative⟩] ∧ s.w.page = some (log₀.length % ringSize count) ∧
    s.w.offset = bs.length ∧ w.popped ≤ log₀.length

/-- The writer's part of the invariant, by its position. -/
inductive Pipe.Writing (P : ℕ) (s : Pipe) (log : List Entry) (w : Window (ringSize count)) :
    WPc → Prop where
  | idle (own : s.Owns w) (lt : s.w.offset < P) (short : s.w.offset < 2 ^ 24)
      (size : s.w.offset = (txns s.calls).size % P) (ok : (txns s.calls).failed = false)
      (eq : (feed log).append s.filled = (txns s.calls).feed P) : Writing P s log w .idle
  | lost (page : s.w.page = none) (qos : s.qos = .unreliable ∨ count ≤ 1)
      (failed : (txns s.calls).failed = true ∨ (txns s.calls).cur = [])
      (eq : feed log = ⟨(txns s.calls).done.map (visible P 0), []⟩) : Writing P s log w .idle
  | mark {t : Task} (own : s.Owns w) (short : s.w.offset < 2 ^ 24)
      (after : t.After P (txns s.calls) ((feed log).take ⟨s.filled, t.mark s.qos⟩)) :
      Writing P s log w (.mark t)
  | push {t : Task} (own : s.Owns w) (short : s.w.offset < 2 ^ 24)
      (pend : (s.mem (w.pushed % ringSize count)).pend = stamp (t.mark s.qos) s.w.offset)
      (after : t.After P (txns s.calls) ((feed log).take ⟨s.filled, t.mark s.qos⟩)) :
      Writing P s log w (.push t)
  | next {t : Task} (after : t.After P (txns s.calls) (feed log))
      (tent : ∀ src so, t = .write src so → s.qos = .unreliable → s.Tentative log w) :
      Writing P s log w (.next t)
  | settle {npage : Option ℕ} {src : List UInt8} {so : ℕ} (qos : s.qos = .unreliable)
      (tent : s.Tentative log w)
      (page : ∀ p, npage = some p →
        p = w.pushed % ringSize count ∧ w.pushed + 1 < w.popped + ringSize count)
      (after : (Task.write src so).After P (txns s.calls) (feed log)) :
      Writing P s log w (.settle npage src so)
  | copy {src : List UInt8} {so : ℕ} (own : s.Owns w) (offset : s.w.offset = 0)
      (after : (Task.write src so).After P (txns s.calls) (feed log)) :
      Writing P s log w (.copy src so)
  | copyLost {src : List UInt8} {so : ℕ} (page : s.w.page = none) (qos : s.qos = .unreliable)
      (eq : feed log = ⟨(txns s.calls).done.map (visible P 0), []⟩) :
      Writing P s log w (.copy src so)

/-- What the reader has delivered and collected, `txnFlag` being taken into account. -/
def RPipe.view (r : RPipe) (delivered : List (List UInt8)) : Feed :=
  if r.flag = PageState.rollback.code then ⟨delivered, []⟩
  else if r.flag = PageState.commit.code then ⟨delivered ++ [r.txn ++ r.buf], []⟩
  else ⟨delivered, r.txn ++ r.buf⟩

/-- No transaction has ended in the current call of `read`. -/
def RPipe.Plain (r : RPipe) : Prop :=
  r.flag ≠ PageState.rollback.code ∧ r.flag ≠ PageState.commit.code

/-- The reader holds a page, the first one of the window. -/
structure RPipe.AtPage (R : ℕ) (r : RPipe) (delivered : List (List UInt8)) (log : List Entry)
    (n : ℕ) (e : Entry) : Prop where
  page : r.page = some (n % R)
  entry : log[n]? = some e
  le : r.offset ≤ e.bytes.length
  plain : r.Plain
  eq : r.view delivered = (feed (log.take n)).append (e.bytes.take r.offset)

/-- The reader has read the log up to entry `n` and holds no page. -/
structure RPipe.Between (r : RPipe) (delivered : List (List UInt8)) (log : List Entry) (n : ℕ) :
    Prop where
  page : r.page = none
  offset : r.offset = 0
  eq : r.view delivered = feed (log.take n)

/-- The reader's part of the invariant, by its position. -/
inductive RPipe.Reading (R : ℕ) (r : RPipe) (delivered : List (List UInt8)) (log : List Entry)
    (n : ℕ) : RPc → Prop where
  | idle (plain : r.Plain) (h : r.Between delivered log n) : Reading R r delivered log n .idle
  | idleAt {e : Entry} (h : r.AtPage R delivered log n e) : Reading R r delivered log n .idle
  | next (plain : r.Plain) (h : r.Between delivered log n) : Reading R r delivered log n .next
  | loop (h : r.Between delivered log n) : Reading R r delivered log n .loop
  | loopAt {e : Entry} (h : r.AtPage R delivered log n e) : Reading R r delivered log n .loop
  | copy {e : Entry} (h : r.AtPage R delivered log n e) :
      Reading R r delivered log n (.copy e.bytes.length)
  | spin {e : Entry} (h : r.AtPage R delivered log n e) (offset : r.offset = e.bytes.length) :
      Reading R r delivered log n .spin
  | state {e : Entry} (h : r.AtPage R delivered log n e) (offset : r.offset = e.bytes.length)
      (state : e.state ≠ .tentative) : Reading R r delivered log n .state
  | pop {e : Entry} (h : r.AtPage R delivered log n e) (offset : r.offset = e.bytes.length)
      (state : e.state ≠ .tentative) : Reading R r delivered log n (.pop e.state.code)
  | poll {st : PageState} (flag : r.flag = st.code) (state : st ≠ .tentative)
      (eq : r.view delivered = feed (log.take n)) : Reading R r delivered log n (.poll st.code)

structure Pipe.Inv (P : ℕ) (s : Pipe) (log : List Entry) (w : Window (ringSize count)) : Prop where
  count_eq : s.count = count
  pagesz_eq : s.pagesz = P
  len : log.length = w.pushed
  wi : s.wi = w.pushed % ringSize count
  ri : s.ri = w.popped % ringSize count
  held : ∀ i e, w.popped ≤ i → log[i]? = some e → (s.mem (i % ringSize count)).Holds e
  writing : s.Writing P log w s.w.pc
  reading : s.r.Reading (ringSize count) s.delivered log w.popped s.r.pc

variable {s s' : Pipe} {log log' : List Entry} {w w' : Window (ringSize count)}

/-! ### What each process leaves to the other -/

/-- A step of the reader keeps the writer's part, as long as a tentative page is not popped. -/
lemma Pipe.Writing.frame {pc : WPc} (h : s.Writing P log w pc) (hw : s'.w = s.w)
    (hm : s'.mem = s.mem) (hq : s'.qos = s.qos) (hc : s'.calls = s.calls)
    (hpush : w'.pushed = w.pushed) (hpop : w.popped ≤ w'.popped)
    (ht : s.Tentative log w → s.Tentative log w') : s'.Writing P log w' pc := by
  have hown : s.Owns w → s'.Owns w' := fun ⟨hp, hr⟩ =>
    ⟨by rw [hw, hpush]; exact hp, by rw [hpush]; omega⟩
  have hfill : s'.filled = s.filled := by simp only [Pipe.filled, hw, hm]
  have htent : s.Tentative log w → s'.Tentative log w' := fun h => by
    simpa only [Pipe.Tentative, hw] using ht h
  cases h with
  | idle own lt short size ok eq =>
    exact .idle (hown own) (by rwa [hw]) (by rwa [hw]) (by rwa [hw, hc]) (by rwa [hc]) (by rwa [hfill, hc])
  | lost page qos failed eq =>
    exact .lost (by rwa [hw]) (by rwa [hq]) (by rwa [hc]) (by rwa [hc])
  | mark own short after =>
    exact .mark (hown own) (by rwa [hw]) (by rwa [hfill, hc, hq])
  | push own short pend after =>
    exact .push (hown own) (by rwa [hw]) (by rwa [hw, hm, hq, hpush]) (by rwa [hfill, hc, hq])
  | next after tent =>
    exact .next (by rwa [hc]) fun src so h₁ h₂ => htent (tent src so h₁ (by rwa [← hq]))
  | settle qos tent page after =>
    refine .settle (by rwa [hq]) (htent tent) (fun p hp => ?_) (by rwa [hc])
    have := page p hp
    rw [hpush]
    omega
  | copy own offset after => exact .copy (hown own) (by rwa [hw]) (by rwa [hc])
  | copyLost page qos eq => exact .copyLost (by rwa [hw]) (by rwa [hq]) (by rwa [hc])

/-- The log grows behind entry `n`, or what that entry leaves open is decided. -/
structure LogExt (log log' : List Entry) (n : ℕ) : Prop where
  take : log'.take n = log.take n
  entry : ∀ e, log[n]? = some e → ∃ e', log'[n]? = some e' ∧ e'.bytes = e.bytes ∧
    (e.state ≠ .tentative → e' = e)

/-- A step of the writer keeps the reader's part. -/
lemma RPipe.Reading.frame {R n : ℕ} {r : RPipe} {d : List (List UInt8)} {pc : RPc}
    (h : r.Reading R d log n pc) (hl : LogExt log log' n) : r.Reading R d log' n pc := by
  have hat : ∀ {e}, r.AtPage R d log n e → ∃ e', r.AtPage R d log' n e' ∧ e'.bytes = e.bytes ∧
      (e.state ≠ .tentative → e' = e) := by
    rintro e ⟨page, entry, le, plain, eq⟩
    obtain ⟨e', he', hb, hs⟩ := hl.entry e entry
    exact ⟨e', ⟨page, he', by rwa [hb], plain, by rwa [hb, hl.take]⟩, hb, hs⟩
  have hbet : r.Between d log n → r.Between d log' n := fun ⟨page, offset, eq⟩ =>
    ⟨page, offset, by rwa [hl.take]⟩
  cases h with
  | idle plain h => exact .idle plain (hbet h)
  | idleAt h => obtain ⟨e', h', -⟩ := hat h; exact .idleAt h'
  | next plain h => exact .next plain (hbet h)
  | loop h => exact .loop (hbet h)
  | loopAt h => obtain ⟨e', h', -⟩ := hat h; exact .loopAt h'
  | copy h => obtain ⟨e', h', hb, -⟩ := hat h; rw [← hb]; exact .copy h'
  | spin h offset => obtain ⟨e', h', hb, -⟩ := hat h; exact .spin h' (by rw [hb, offset])
  | state h offset state =>
    obtain ⟨e', h', hb, he⟩ := hat h
    exact .state h' (by rw [hb, offset]) (by rwa [he state])
  | pop h offset state =>
    obtain ⟨e', h', hb, he⟩ := hat h
    obtain rfl := he state
    exact .pop h' offset state
  | poll flag state eq => exact .poll flag state (by rwa [hl.take])

/-- A step of the writer that touches its own page only. -/
lemma Pipe.Inv.own (h : s.Inv P log w) (hc : s'.count = s.count) (hp : s'.pagesz = s.pagesz)
    (hwi : s'.wi = s.wi) (hri : s'.ri = s.ri) (hr : s'.r = s.r) (hd : s'.delivered = s.delivered)
    (hm : ∀ i, i ≠ w.pushed % ringSize count → s'.mem i = s.mem i)
    (hw : s'.Writing P log w s'.w.pc) : s'.Inv P log w where
  count_eq := hc.trans h.count_eq
  pagesz_eq := hp.trans h.pagesz_eq
  len := h.len
  wi := hwi.trans h.wi
  ri := hri.trans h.ri
  held i e hi he := by
    have hlt : i < log.length := (List.getElem?_eq_some_iff.mp he).1
    rw [hm _ (w.slot_ne hi (h.len ▸ hlt))]
    exact h.held i e hi he
  writing := hw
  reading := by rw [hr, hd]; exact h.reading

/-- A step of the reader that pops nothing. -/
lemma Pipe.Inv.look (h : s.Inv P log w) {r : RPipe} {d : List (List UInt8)}
    (hr : r.Reading (ringSize count) d log w.popped r.pc) :
    ({ s with r := r, delivered := d } : Pipe).Inv P log w where
  count_eq := h.count_eq
  pagesz_eq := h.pagesz_eq
  len := h.len
  wi := h.wi
  ri := h.ri
  held := h.held
  writing := h.writing.frame rfl rfl rfl rfl rfl le_rfl id
  reading := hr

end Hobbes.Storage
