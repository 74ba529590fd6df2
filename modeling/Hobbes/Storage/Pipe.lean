import Hobbes.Storage.Queue

/-!
# Pipes over the shared queue

`wpipe` cuts a stream of blocks into the pages of a queue, `rpipe` puts the stream together again,
and the read process collects what `rpipe` returns into transactions. Each access to a page that
the other process can see, or to an index, is one step. `next`, `push` and `pop` are single steps:
they are enabled as the queue below enables them.
-/

namespace Hobbes.Storage

open Core Function

/-- `PRIV_HSTORE_PAGE_STATE_TENTATIVE` and so on. -/
inductive PageState where
  | tentative
  | cont
  | commit
  | rollback
  deriving DecidableEq

def PageState.code : PageState → ℕ
  | .tentative => 0
  | .cont => 1
  | .commit => 2
  | .rollback => 3

inductive PipeQOS where
  | reliable
  | unreliable
  deriving DecidableEq

/-- A page of the queue: the payload, and behind it the word that `pend` points to. -/
structure Page where
  data : ℕ → UInt8
  pend : ℕ

/-- `memcpy(page + off, src, len)`. -/
def Page.copyIn (pg : Page) (off : ℕ) (src : List UInt8) : Page :=
  { pg with data := fun i =>
      if off ≤ i ∧ i < off + src.length then src.getD (i - off) 0 else pg.data i }

/-- The bytes that `memcpy(dst, page + off, len)` copies. -/
def Page.copyOut (pg : Page) (off len : ℕ) : List UInt8 := (List.range' off len).map pg.data

/-- The word that `markPage` stores. -/
def stamp (c : PageState) (offset : ℕ) : ℕ := c.code <<< 24 ||| offset

/-- What a writer is in the middle of: a `write` of `src` whose first `so` bytes are copied, a
`commit` or a `rollback`. -/
inductive Task where
  | write (src : List UInt8) (so : ℕ)
  | commit
  | rollback
  deriving DecidableEq

inductive WPc where
  /-- between two calls -/
  | idle
  /-- about to mark the current page and to push it -/
  | mark (t : Task)
  | push (t : Task)
  /-- about to ask for a page with `next` or `pollNext` -/
  | next (t : Task)
  /-- the rest of an unreliable `stepPage`: about to mark the page that was pushed -/
  | settle (npage : Option ℕ) (src : List UInt8) (so : ℕ)
  /-- `stepPage` has returned: about to copy from `src + so` -/
  | copy (src : List UInt8) (so : ℕ)
  deriving DecidableEq

structure WPipe where
  page : Option ℕ
  offset : ℕ
  pc : WPc

inductive RPc where
  /-- between two calls of `read` -/
  | idle
  /-- about to wait for a page in `next` -/
  | next
  /-- at the head of `while (sz != 0 && this->page)` -/
  | loop
  /-- about to copy, `rpagesz` having been read -/
  | copy (rpagesz : ℕ)
  /-- at the head of the loop that waits for the producer -/
  | spin
  /-- about to read the state of the page -/
  | state
  | pop (ps : ℕ)
  /-- popped: about to ask for the next page -/
  | poll (ps : ℕ)
  deriving DecidableEq

/-- An `rpipe` with the read process over it: `buf`, `sz` and `flag` belong to the call of `read`,
`txn` is what the read process has collected. -/
structure RPipe where
  page : Option ℕ
  offset : ℕ
  pc : RPc
  buf : List UInt8
  sz : ℕ
  flag : ℕ
  txn : List UInt8

/-- What the writer's caller sees: the calls it made, and what `write` returned. -/
inductive Call where
  | wrote (src : List UInt8) (ok : Bool)
  | commit
  | rollback
  deriving DecidableEq

structure Pipe where
  count : ℕ
  /-- `valuesz - sizeof(uint32_t)` -/
  pagesz : ℕ
  qos : PipeQOS
  mem : ℕ → Page
  wi : ℕ
  ri : ℕ
  w : WPipe
  r : RPipe
  /-- history: the calls of the writer, a `write` once it has returned -/
  calls : List Call
  /-- history: the transactions that `txnF` was called with -/
  delivered : List (List UInt8)

/-- The scheduler runs one of the processes, or the caller of an idle one makes a call. -/
inductive PipeEvent where
  | write (src : List UInt8)
  | commit
  | rollback
  | writer
  | read (sz : ℕ)
  | reader
  deriving DecidableEq

/-! ### The writer -/

section

variable (s : Pipe)

def Pipe.setPage (i : ℕ) (pg : Page) : Pipe := { s with mem := update s.mem i pg }

/-- `writer::pollNext`. -/
def Pipe.writePage : Option ℕ :=
  if s.ri = nextIndex s.count s.wi then none else some s.wi

/-- `markPage`. -/
def Pipe.markPage (p : ℕ) (c : PageState) : Pipe :=
  s.setPage p { s.mem p with pend := stamp c s.w.offset }

def Pipe.write (src : List UInt8) : Pipe :=
  match s.w.page with
  | none => { s with calls := s.calls ++ [.wrote src false] }
  | some p =>
    let remsz := s.pagesz - s.w.offset
    if src.length < remsz then
      { s.setPage p ((s.mem p).copyIn s.w.offset src) with
        w := { s.w with offset := s.w.offset + src.length }
        calls := s.calls ++ [.wrote src true] }
    else
      { s.setPage p ((s.mem p).copyIn s.w.offset (src.take remsz)) with
        w := { s.w with offset := s.w.offset + remsz, pc := .mark (.write src remsz) } }

/-- `commit` and `rollback` up to their first access: without a page there is nothing to mark. -/
def Pipe.finish (t : Task) (c : Call) : Pipe :=
  { s with
    w := { s.w with pc := if s.w.page = none then .next t else .mark t }
    calls := s.calls ++ [c] }

/-- What `stepPage`, `commit` and `rollback` mark the page with before they push it. -/
def Task.mark (qos : PipeQOS) : Task → PageState
  | .write _ _ => if qos = .reliable then .cont else .tentative
  | .commit => .commit
  | .rollback => .rollback

/-- The writer has the answer `npage` of `next` or `pollNext`. -/
def Pipe.acquire (npage : Option ℕ) : Task → Pipe
  | .write src so =>
    if s.qos = .reliable then { s with w := ⟨npage, 0, .copy src so⟩ }
    else { s with w := { s.w with pc := .settle npage src so } }
  | .commit | .rollback => { s with w := ⟨npage, 0, .idle⟩ }

/-- The body and the rest of the loop of `write`, after `stepPage`. -/
def Pipe.copy (src : List UInt8) (so : ℕ) : Pipe :=
  match s.w.page with
  | none => { s with w := { s.w with pc := .idle }, calls := s.calls ++ [.wrote src false] }
  | some p =>
    if s.pagesz ≤ src.length - so then
      { s.setPage p ((s.mem p).copyIn 0 ((src.drop so).take s.pagesz)) with
        w := { s.w with pc := .mark (.write src (so + s.pagesz)) } }
    else if so < src.length then
      { s.setPage p ((s.mem p).copyIn 0 (src.drop so)) with
        w := { s.w with offset := src.length - so, pc := .idle }
        calls := s.calls ++ [.wrote src true] }
    else { s with w := { s.w with pc := .idle }, calls := s.calls ++ [.wrote src true] }

/-- One step of the writer inside a call. -/
def Pipe.runWriter : Option Pipe :=
  match s.w.pc with
  | .idle => none
  | .mark t => s.w.page.map fun p =>
      { s.markPage p (t.mark s.qos) with w := { s.w with pc := .push t } }
  | .push t => some { s with wi := nextIndex s.count s.wi, w := { s.w with pc := .next t } }
  | .next t =>
    match s.qos, s.writePage with
    | .reliable, none => none
    | _, npage => some (s.acquire npage t)
  | .settle npage src so => s.w.page.map fun p =>
      { s.markPage p (if npage = none then .rollback else .cont) with
        w := ⟨npage, 0, .copy src so⟩ }
  | .copy src so => some (s.copy src so)

/-! ### The reader -/

/-- `reader::pollNext`. -/
def Pipe.readPage : Option ℕ := if s.wi = s.ri then none else some s.ri

/-- `read` returns to the read process, which looks at `txnFlag`. -/
def Pipe.return : Pipe :=
  let txn := s.r.txn ++ s.r.buf
  let r : RPipe := { s.r with pc := .idle, buf := [], sz := 0, flag := 0 }
  if s.r.flag = PageState.rollback.code then { s with r := { r with txn := [] } }
  else if s.r.flag = PageState.commit.code then
    { s with r := { r with txn := [] }, delivered := s.delivered ++ [txn] }
  else { s with r := { r with txn := txn } }

/-- The body of the loop of `read` up to the test for the end of the page. -/
def Pipe.copyPage (p rpagesz : ℕ) : Pipe :=
  let csz := min s.r.sz (rpagesz - s.r.offset)
  { s with r := { s.r with
    offset := s.r.offset + csz
    pc := if s.r.offset + csz = rpagesz then .spin else .loop
    buf := s.r.buf ++ (s.mem p).copyOut s.r.offset csz
    sz := s.r.sz - csz } }

/-- One step of the reader inside a call. -/
def Pipe.runReader : Option Pipe :=
  match s.r.pc with
  | .idle => none
  | .next => s.readPage.map fun p => { s with r := { s.r with page := some p, pc := .loop } }
  | .loop =>
    match s.r.page with
    | none => some s.return
    | some p =>
      if s.r.sz = 0 then some s.return
      else some { s with r := { s.r with pc := .copy ((s.mem p).pend &&& 0xFFFFFF) } }
  | .copy rpagesz => s.r.page.map fun p => s.copyPage p rpagesz
  | .spin => s.r.page.map fun p =>
      if (s.mem p).pend >>> 24 = PageState.tentative.code then s
      else { s with r := { s.r with pc := .state } }
  | .state => s.r.page.map fun p =>
      { s with r := { s.r with pc := .pop (((s.mem p).pend >>> 24) % 256) } }
  | .pop ps => some
      { s with ri := nextIndex s.count s.ri, r := { s.r with flag := ps, pc := .poll ps } }
  | .poll ps => some
      { s with r := { s.r with
        page := if ps = PageState.cont.code then s.readPage else none
        offset := 0
        pc := .loop } }

end

/-! ### The system -/

def Pipe.step : PipeEvent → Pipe → Option Pipe
  | .write src, s => if s.w.pc = .idle then some (s.write src) else none
  | .commit, s => if s.w.pc = .idle then some (s.finish .commit .commit) else none
  | .rollback, s => if s.w.pc = .idle then some (s.finish .rollback .rollback) else none
  | .writer, s => s.runWriter
  | .read sz, s =>
    if s.r.pc = .idle then
      some { s with r := { s.r with pc := if s.r.page = none then .next else .loop, sz := sz } }
    else none
  | .reader, s => s.runReader

/-- A `wpipe` and an `rpipe` on a fresh queue. -/
def Pipe.init (count pagesz : ℕ) (qos : PipeQOS) : Pipe where
  count := count
  pagesz := pagesz
  qos := qos
  mem _ := ⟨fun _ => 0, 0⟩
  wi := 0
  ri := 0
  w := ⟨if 0 = nextIndex count 0 then none else some 0, 0, .idle⟩
  r := ⟨none, 0, .idle, [], 0, 0, []⟩
  calls := []
  delivered := []

end Hobbes.Storage
