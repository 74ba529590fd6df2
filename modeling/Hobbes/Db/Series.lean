import Hobbes.Core.Disk
import Hobbes.Core.Transition

/-!
# Stored series

A series is a list of batches in a file: nodes that refer to an array and to the next node, and a
reference to the head node. A session keeps the place in the current batch where the next record goes.
It can end between any two steps, and only what is in the file is left then.
-/

namespace Hobbes.Db

open Core

/-- An array of records: how many bytes it was allocated for, how many records it says it has, and
its bytes. -/
structure Batch where
  space : ℕ
  count : ℕ
  data : Disk

/-- `dbseq<PBatchRef>`. -/
inductive BatchNode where
  | nil
  | cons (batch next : ℕ)

/-- What is left to do of a call of `record`. -/
inductive RecordPc where
  | idle
  /-- the record was stored: about to count it -/
  | stored
  /-- the batch is full: about to make a new one -/
  | full
  deriving DecidableEq

/-- A `StoredSeries`, `batchHead` being taken from the first record on. -/
structure StoredSeries where
  batchSize : ℕ
  batchDataRef : ℕ
  batchHead : ℕ
  batchNode : ℕ
  pc : RecordPc
  /-- the record that `record` was called with -/
  value : Bytes

/-- The part of a file that has to do with one series; arrays and nodes are known by the order in
which they were allocated. -/
structure SeriesFile where
  storageSize : ℕ
  batches : List Batch
  nodes : List BatchNode
  headNodeRef : Option ℕ
  session : Option StoredSeries
  /-- history: the records that were counted since the last `clear` -/
  recorded : List Bytes
  /-- history: a record was written outside of the array that it belongs to -/
  outside : Bool

namespace SeriesFile

variable (s : SeriesFile)

/-- `unsafeStoreArrayToOffset`. -/
def unsafeStoreArrayToOffset (len : ℕ) : SeriesFile × ℕ :=
  let datasz := (16 + len * s.storageSize) % 2 ^ 64
  ({ s with batches := s.batches ++ [⟨datasz - 16, 0, Disk.blank⟩] }, s.batches.length)

def allocBatchNode (n : BatchNode) : SeriesFile × ℕ :=
  ({ s with nodes := s.nodes ++ [n] }, s.nodes.length)

def consBatchNode (batchSize nextPtr : ℕ) : SeriesFile :=
  let (s, batchDataRef) := s.unsafeStoreArrayToOffset batchSize
  let (s, batchNode) := s.allocBatchNode (.cons batchDataRef nextPtr)
  { s with
    headNodeRef := some batchNode
    session := some ⟨batchSize, batchDataRef, 0, batchNode, .idle, []⟩ }

def restartFromBatchNode (batchSize head : ℕ) : Option SeriesFile :=
  match s.nodes[head]? with
  | none => none
  | some .nil =>
    let (s, node) := s.allocBatchNode .nil
    some (s.consBatchNode batchSize node)
  | some (.cons batch _) => s.batches[batch]?.map fun b =>
    let batchHead := b.count * s.storageSize % 2 ^ 64
    { s with session := some ⟨batchSize, batch, batchHead, head, .idle, []⟩ }

/-- The constructor: a field that is not there yet is defined. -/
def openSeries (batchSize : ℕ) : Option SeriesFile :=
  match s.headNodeRef with
  | some head => s.restartFromBatchNode batchSize head
  | none =>
    let (s, node) := s.allocBatchNode .nil
    some (s.consBatchNode batchSize node)

def clear (ss : StoredSeries) : SeriesFile :=
  let (s, node) := s.allocBatchNode .nil
  { s.consBatchNode ss.batchSize node with recorded := [] }

/-- `record` up to where the record is stored and the head is advanced. -/
def storeRecord (ss : StoredSeries) (v : Bytes) : SeriesFile :=
  { s with
    batches := s.batches.modify ss.batchDataRef fun b =>
      { b with data := b.data.write ss.batchHead v }
    session := some
      { ss with batchHead := ss.batchHead + s.storageSize, pc := .stored, value := v }
    outside := s.outside ||
      s.batches[ss.batchDataRef]?.all fun b => b.space < ss.batchHead + s.storageSize }

/-- `++(*((uint64_t*)this->batchData)) == this->batchSize`. -/
def countRecord (ss : StoredSeries) : Option SeriesFile :=
  s.batches[ss.batchDataRef]?.map fun b =>
    let count := (b.count + 1) % 2 ^ 64
    { s with
      batches := s.batches.set ss.batchDataRef { b with count := count }
      session := some { ss with pc := if count = ss.batchSize then .full else .idle }
      recorded := s.recorded ++ [ss.value] }

/-- One step of a call of `record`. -/
def runRecord (ss : StoredSeries) : Option SeriesFile :=
  match ss.pc with
  | .idle => none
  | .stored => s.countRecord ss
  | .full => some (s.consBatchNode ss.batchSize ss.batchNode)

end SeriesFile

inductive SeriesEvent where
  | open (batchSize : ℕ)
  | record (v : Bytes)
  /-- the call of `record` goes on -/
  | step
  | clear
  /-- the session ends, wherever it is -/
  | close

def SeriesFile.step : SeriesEvent → SeriesFile → Option SeriesFile
  | .open batchSize, s =>
    if s.session.isNone ∧ 1 ≤ batchSize ∧ batchSize < 2 ^ 64 then s.openSeries batchSize else none
  | .record v, s => s.session.bind fun ss =>
    if ss.pc = .idle ∧ v.length = s.storageSize then some (s.storeRecord ss v) else none
  | .step, s => s.session.bind s.runRecord
  | .clear, s => s.session.bind fun ss => if ss.pc = .idle then some (s.clear ss) else none
  | .close, s => s.session.map fun _ => { s with session := none }

/-- A file without the series. -/
def SeriesFile.init (storageSize : ℕ) : SeriesFile where
  storageSize := storageSize
  batches := []
  nodes := []
  headNodeRef := none
  session := none
  recorded := []
  outside := false

end Hobbes.Db
