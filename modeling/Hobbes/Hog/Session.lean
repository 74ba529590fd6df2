import Hobbes.Db.Series
import Hobbes.Storage.GroupMeta
import Mathlib.Data.Int.Notation

/-!
# Storage sessions

A session of the logger has a stored series for each log statement. A transaction is a sequence of
statement ids, each in front of the record that the statement logged. For each of them the session
notes where the record goes.
-/

namespace Hobbes.Hog

open Core Db Storage

/-! ### Transactions -/

/-- `storage::Transaction`. -/
structure Transaction where
  data : Bytes
  i : ℕ

namespace Transaction

variable (t : Transaction)

def canRead (x : ℕ) : Bool := (t.i + x) % 2 ^ 64 ≤ t.data.length

def skip (d : ℕ) : Transaction := { t with i := (t.i + d) % 2 ^ 64 }

/-- `read<uint32_t>`, which has no result behind the end of the data. -/
def readUInt32 : Option (ℕ × Transaction) :=
  if t.i + 4 ≤ t.data.length then some (leNat ((t.data.drop t.i).take 4), t.skip 4) else none

/-- `hstoreRead` at a type of fixed width. -/
def hstoreReadFixed (n : ℕ) : Option (Option Bytes × Transaction) :=
  if t.canRead n then
    if t.i + n ≤ t.data.length then some (some ((t.data.drop t.i).take n), t.skip n) else none
  else
    some (none, t)

end Transaction

/-! ### Streams -/

/-- A log statement, with the reader of the records of its type: `nothing`, or a record as the bytes
that it is stored as, and what is left of the transaction. A reader that does not return has no result. -/
structure Statement where
  id : ℕ
  storageSize : ℕ
  hstoreRead : Transaction → Option (Option Bytes × Transaction)

/-- The series of a statement, and what its write function reads with. -/
structure Stream where
  hstoreRead : Transaction → Option (Option Bytes × Transaction)
  series : SeriesFile

/-- `writePosition`, when the arrays of the series are at these places of the file. -/
def Stream.writePosition (stream : Stream) (place : ℕ → ℕ) : Option ℕ :=
  stream.series.session.map fun ss => (place ss.batchDataRef + (8 + ss.batchHead) + 8) % 2 ^ 64

/-- A whole call of `StoredSeries::record`. -/
def recordAll (series : SeriesFile) (v : Bytes) : Option SeriesFile := do
  let stored ← SeriesFile.step (.record v) series
  let counted ← SeriesFile.step .step stored
  if counted.session.any (·.pc = .full) then SeriesFile.step .step counted else some counted

/-! ### Sessions -/

/-- A record that was stored: the batch of the series of `id`, and where in it. -/
structure Stored where
  id : ℕ
  batch : ℕ
  head : ℕ
  value : Bytes

/-- What happened to a transaction: the ids of statements that were found in it, and the records
that were stored. -/
structure Processed where
  found : List ℕ
  stored : List Stored

/-- A `Session`; the last stream is `log` or `transactions`. -/
structure Session where
  cm : CommitMethod
  /-- by the id of the statement, which need not have one -/
  streams : List (Option Stream)
  txnScratch : List ℕ
  log : List (ℕ × ℕ)
  transactions : List (ℤ × List (ℕ × ℕ))
  /-- the transaction that is processed, and its time -/
  txn : Option (ℤ × Transaction)
  /-- history: the transactions that were processed, and the one that is -/
  past : List Processed
  now : Processed

/-- `std::vector::resize`. -/
def resize {α : Type} (l : List (Option α)) (n : ℕ) : List (Option α) :=
  l.take n ++ List.replicate (n - l.length) none

/-- The body of the loop over the log statements, where ids are of 32 bits. -/
def addStatement (streams : List (Option Stream)) (stmt : Statement) :
    Option (List (Option Stream)) := do
  let streams :=
    if streams.length ≤ stmt.id then resize streams ((stmt.id + 1) % 2 ^ 32) else streams
  let ss ← SeriesFile.step (.open 10000) (SeriesFile.init stmt.storageSize)
  if stmt.id < streams.length then some (streams.set stmt.id (some ⟨stmt.hstoreRead, ss⟩)) else none

def initStorageSession (cm : CommitMethod) (stmts : List Statement) : Option Session :=
  (stmts.foldlM addStatement []).map fun streams =>
    { cm, streams, txnScratch := [], log := [], transactions := [], txn := none, past := [],
      now := ⟨[], []⟩ }

/-- The entries in the memory behind the count: a tag of 32 bits in eight bytes, and a position. -/
def entries : List ℕ → List (ℕ × ℕ)
  | id :: pos :: rest => (id % 2 ^ 32, pos) :: entries rest
  | _ => []

/-- The array that the scratch space is taken for. -/
def scratchArray : List ℕ → List (ℕ × ℕ)
  | n :: rest => (entries rest).take n
  | [] => []

namespace Session

variable (s : Session)

/-- `writeFns[id]`: what was read is stored. -/
def writeFn (id : ℕ) (stream : Stream) (time : ℤ) (t : Transaction) : Option Session :=
  match stream.hstoreRead t with
  | none => none
  | some (none, t) => some { s with txn := some (time, t) }
  | some (some v, t) => do
    let ss ← stream.series.session
    let series ← recordAll stream.series v
    some { s with
      streams := s.streams.set id (some { stream with series })
      txn := some (time, t)
      now.stored := s.now.stored ++ [⟨id, ss.batchDataRef, ss.batchHead, v⟩] }

/-- The body of the loop for the id of a statement. -/
def processRecord (id pos : ℕ) (stream : Stream) (time : ℤ) (t : Transaction) : Option Session :=
  let s := { s with now.found := s.now.found ++ [id] }
  match s.cm with
  | .autoCommit =>
    (s.writeFn id stream time t).map fun s => { s with log := s.log ++ [(id, pos)] }
  | .manualCommit =>
    { s with txnScratch := s.txnScratch ++ [id, pos] }.writeFn id stream time t

/-- What is done when the loop has ended. -/
def endTransaction (time : ℤ) : Session :=
  let s := { s with txn := none, past := s.past ++ [s.now], now := ⟨[], []⟩ }
  match s.cm with
  | .autoCommit => s
  | .manualCommit =>
    let txnScratch := s.txnScratch.set 0 ((s.txnScratch.length - 1) / 2)
    { s with
      transactions := s.transactions ++ [(time, scratchArray txnScratch)]
      txnScratch := [] }

/-- The loop is at its head: it goes round once, or ends. -/
def next (place : ℕ → ℕ → ℕ) (time : ℤ) (t : Transaction) : Option Session :=
  if t.canRead 4 then do
    let (id, t) ← t.readUInt32
    if id < s.streams.length then
      match s.streams[id]? with
      | some (some stream) => do
        let pos ← stream.writePosition (place id)
        s.processRecord id pos stream time t
      | _ => none
    else
      -- got bad log id
      some { s with txn := some (time, t) }
  else
    some (s.endTransaction time)

/-- The function that `initStorageSession` returns is called. -/
def begin (time : ℤ) (data : Bytes) : Session :=
  { s with
    txn := some (time, ⟨data, 0⟩)
    txnScratch := if s.cm = .autoCommit then s.txnScratch else s.txnScratch ++ [0] }

end Session

inductive SessionEvent where
  | begin (time : ℤ) (data : Bytes)
  /-- processing goes on -/
  | next

/-- One step of a session, whose arrays are at these places of the file: that of the `k`th batch of
the series of `id` is at `place id k`. -/
def Session.step (place : ℕ → ℕ → ℕ) : SessionEvent → Session → Option Session
  | .begin time data, s => if s.txn.isNone then some (s.begin time data) else none
  | .next, s => s.txn.bind fun (time, t) => s.next place time t

end Hobbes.Hog
