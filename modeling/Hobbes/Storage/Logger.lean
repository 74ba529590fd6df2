import Hobbes.Storage.GroupMeta
import Hobbes.Storage.Storable

/-!
# Logging into a storage group

`write(g, id, xs...)` puts a statement id and a payload into the pipe of a group. A group that
commits by itself asks the pipe for space beforehand. The calls on the pipe are interleaved with the
steps of the pipe and of its reader.
-/

namespace Hobbes.Storage

open Core

/-- `wpipe::hasSpaceFor`. -/
def Pipe.hasSpaceFor (s : Pipe) (sz : UInt64) : Bool :=
  s.w.page.isSome && sz.toNat < s.pagesz - s.w.offset

def WriteM.commit : WriteM Unit := fun wf => .call .commit fun _ => .ret ((), wf)

section

variable {ts : List Ty} (id : UInt32) (xs : Values none ts)

/-- `store<uint32_t>::write(p, id) && serialize_values<Ts...>::write(p, xs...)`. -/
def serialize : WriteM Bool := do
  if ← .write (leBytes 4 id.toNat) then xs.write else pure false

/-- The end of `write` for `AutoCommit`, `space` being what `hasSpaceFor` has returned. -/
def commitAndSerialize (space : Bool) : WriteM Bool := do
  if !space then WriteM.commit
  serialize id xs

end

/-- What a thread is in the middle of: a call of `write`, whose next call on the pipe it is about to
make, or which waits for such a call to return. -/
inductive Caller where
  | idle
  | issue (p : Calls PipeCall (Bool × RecF))
  | wait (k : Bool → Calls PipeCall (Bool × RecF))

/-- History: a call of `write`, the bytes that it has put on pages, each with the number of the
page, and what it has returned. -/
structure Record where
  id : UInt32
  types : List Ty
  xs : Values none types
  puts : List (ℕ × Bytes)
  result : Option Bool

structure Logger where
  cm : CommitMethod
  pipe : Pipe
  sizeF : RecF
  writeF : RecF
  caller : Caller
  /-- history: how many pages the writer has pushed -/
  turn : ℕ
  /-- history: the calls of `write`, the last one first -/
  records : List Record

inductive LogEvent where
  | record (id : UInt32) (ts : List Ty) (xs : Values none ts)
  | commit
  | rollback
  | caller
  | pipe (e : PipeEvent)

/-- The bytes that a step of the writer copies to its page. -/
def Pipe.put (s : Pipe) : PipeEvent → Bytes
  | .write src => if s.w.page = none then [] else src.take (s.pagesz - s.w.offset)
  | .writer =>
    match s.w.pc with
    | .copy src so => if s.w.page = none then [] else (src.drop so).take s.pagesz
    | _ => []
  | _ => []

def Pipe.pushes (s : Pipe) : PipeEvent → Bool
  | .writer =>
    match s.w.pc with
    | .push _ => true
    | _ => false
  | _ => false

def Record.putOn (page : ℕ) (bytes : Bytes) (r : Record) : Record :=
  if bytes = [] then r else { r with puts := r.puts ++ [(page, bytes)] }

section

variable (s : Logger)

/-- The pipe has become `p`. -/
def Logger.stepped (e : PipeEvent) (p : Pipe) : Logger :=
  { s with
    pipe := p
    turn := if s.pipe.pushes e then s.turn + 1 else s.turn
    records := s.records.modifyHead (·.putOn s.turn (s.pipe.put e)) }

def Logger.pipeStep (e : PipeEvent) : Option Logger := (Pipe.step e s.pipe).map (s.stepped e)

/-- `write(g, id, xs...)` up to its first call on the pipe. -/
def Logger.write {ts : List Ty} (id : UInt32) (xs : Values none ts) : Option Logger :=
  let r : Record := ⟨id, ts, xs, [], none⟩
  match s.cm with
  | .autoCommit =>
    (xs.size.run s.sizeF).map fun (n, sf) =>
      { s with
        sizeF := sf
        caller := .issue ((commitAndSerialize id xs (s.pipe.hasSpaceFor (4 + n))).run s.writeF)
        records := r :: s.records }
  | .manualCommit => some
      { s with caller := .issue ((serialize id xs).run s.writeF), records := r :: s.records }

/-- What the last call on the pipe has returned. -/
def Logger.answer : Bool :=
  match s.pipe.calls.getLast? with
  | some (.wrote _ ok) => ok
  | _ => true

/-- One step of a call of `write`. -/
def Logger.runCaller : Option Logger :=
  match s.caller with
  | .idle | .issue .stuck => none
  | .issue (.ret (ok, wf)) => some
      { s with
        caller := .idle
        writeF := wf
        records := s.records.modifyHead ({ · with result := some ok }) }
  | .issue (.call (.write src) k) => (s.pipeStep (.write src)).map ({ · with caller := .wait k })
  | .issue (.call .commit k) => (s.pipeStep .commit).map ({ · with caller := .wait k })
  | .wait k =>
    if s.pipe.w.pc = .idle then some { s with caller := .issue (k s.answer) } else none

end

/-- The thread makes a call of the group, or one of the processes makes a step. -/
def Logger.step : LogEvent → Logger → Option Logger
  | .record id _ xs, s =>
    match s.caller with
    | .idle => if s.pipe.w.pc = .idle then s.write id xs else none
    | _ => none
  | .commit, s =>
    match s.caller with
    | .idle => s.pipeStep .commit
    | _ => none
  | .rollback, s =>
    match s.caller with
    | .idle => s.pipeStep .rollback
    | _ => none
  | .caller, s => s.runCaller
  | .pipe e, s =>
    match e with
    | .writer | .read _ | .reader => s.pipeStep e
    | _ => none

/-- A group whose pipe has just been made. -/
def Logger.init (count : ℕ) (pagesz : UInt64) (qos : PipeQOS) (cm : CommitMethod) : Logger where
  cm := cm
  pipe := .init count pagesz.toNat qos
  sizeF := none
  writeF := none
  caller := .idle
  turn := 0
  records := []

end Hobbes.Storage
