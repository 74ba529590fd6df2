import Hobbes.Core.Transition
import Mathlib.Algebra.Group.Nat.Defs
import Mathlib.Logic.Function.Basic

/-!
# The shared queue and its wait protocol

One writer and one reader share the indices `ri` and `wi` and the wait state `wstate`. Each load,
store and exchange on these three cells, each futex wait and each wake is one event. The two
sides run the same code with the roles exchanged, so it is written once, over the side that runs.
-/

namespace Hobbes.Storage

open Core Function

/-- The two processes of a queue. -/
inductive Side where
  | writer
  | reader
  deriving DecidableEq

/-- The values that `wstate` takes: `PRIV_HSTORE_STATE_UNBLOCKED` and so on. -/
inductive WaitState where
  | unblocked
  | readerWaiting
  | writerWaiting
  deriving DecidableEq

/-- Where a process stands between two accesses. A process that looped through `next` carries the
index `v` that it loaded on entry. -/
inductive Pc where
  /-- about to load its own index at the head of `next` -/
  | load
  /-- at the head of `while (*otherIndex() == v)` -/
  | test (v : ℕ)
  /-- about to `xchg` its own mark into the wait state -/
  | exchange (v : ℕ)
  /-- `case UNBLOCKED`: about to compare the indices again -/
  | recheck (v : ℕ)
  /-- about to enter `waitForUpdate` -/
  | wait (v : ℕ)
  /-- asleep in the futex -/
  | asleep (v : ℕ)
  /-- the other side's mark was found: about to store `UNBLOCKED` -/
  | reset (v : ℕ)
  /-- about to wake the other side, then to test again -/
  | wakeReset (v : ℕ)
  /-- `next` is about to return `value(*ownIndex())` -/
  | value
  /-- at the head of `push` or `pop`: about to load its own index -/
  | advance
  /-- about to store the advanced index -/
  | store (v : ℕ)
  /-- about to `xchg` `UNBLOCKED` into the wait state -/
  | release
  /-- about to wake the other side at the end of `push` or `pop` -/
  | wake
  deriving DecidableEq

/-- The process on the other end of the queue. -/
def Side.other : Side → Side
  | .writer => .reader
  | .reader => .writer

/-- The mark that a side leaves in the wait state before it sleeps. -/
def Side.mark : Side → WaitState
  | .writer => .writerWaiting
  | .reader => .readerWaiting

/-- The shared cells together with the positions of the two processes: `idx .writer` is `wi` and
`idx .reader` is `ri`. -/
structure Queue where
  count : ℕ
  idx : Side → ℕ
  wstate : WaitState
  pc : Side → Pc

/-- `(*i + 1) % count`, where the sum is taken in `uint32_t`. -/
def nextIndex (count i : ℕ) : ℕ := (i + 1) % 2 ^ 32 % count

/-- What `next` loads on entry: `nextIndex(writeIndex())` for the writer, `*readIndex()` for the
reader. The side has to wait while the other index has this value. -/
def Queue.bound (q : Queue) : Side → ℕ
  | .writer => nextIndex q.count (q.idx .writer)
  | .reader => q.idx .reader

/-- Move one side to a new position. -/
def Queue.goto (q : Queue) (s : Side) (p : Pc) : Queue := { q with pc := update q.pc s p }

/-- Store into the wait state. -/
def Queue.setWait (q : Queue) (w : WaitState) : Queue := { q with wstate := w }

/-- Store into the index that a side owns. -/
def Queue.setIdx (q : Queue) (s : Side) (v : ℕ) : Queue := { q with idx := update q.idx s v }

/-- `wakeN(waitState(), 1)`: a process asleep in the futex returns from `waitForUpdate`. -/
def Queue.wakeN (q : Queue) (s : Side) : Queue :=
  match q.pc s with
  | .asleep v => q.goto s (.test v)
  | _ => q

/-- One access of `writer::next`/`writer::push` or of `reader::next`/`reader::pop`. -/
def Queue.access (s : Side) (q : Queue) : Option Queue :=
  match q.pc s with
  | .load => some (q.goto s (.test (q.bound s)))
  | .test v => some (q.goto s (if q.idx s.other = v then .exchange v else .value))
  | .exchange v =>
    -- a mark of its own that was left behind is none of the cases of the switch
    some ((q.goto s (if q.wstate = .unblocked then .recheck v
      else if q.wstate = s.other.mark then .reset v else .test v)).setWait s.mark)
  | .recheck v => some (q.goto s (if q.idx s.other = v then .wait v else .test v))
  | .wait v => some (q.goto s (if q.wstate = s.mark then .asleep v else .test v))
  | .asleep _ => none
  | .reset v => some ((q.goto s (.wakeReset v)).setWait .unblocked)
  | .wakeReset v => some ((q.goto s (.test v)).wakeN s.other)
  | .value => some (q.goto s .advance)
  | .advance => some (q.goto s (.store (nextIndex q.count (q.idx s))))
  | .store v => some ((q.goto s .release).setIdx s v)
  | .release =>
    some ((q.goto s (if q.wstate = s.other.mark then .wake else .load)).setWait .unblocked)
  | .wake => some ((q.goto s .load).wakeN s.other)

/-- What can happen to a queue: a process makes its next access, the futex returns without a wake
(a signal), or the timed wait of the reader expires and is entered again. -/
inductive QueueEvent where
  | run (s : Side)
  | interrupt (s : Side)
  | timeout
  deriving DecidableEq

def Queue.step : QueueEvent → Queue → Option Queue
  | .run s, q => q.access s
  | .interrupt s, q =>
    match q.pc s with
    | .asleep v => some (q.goto s (.test v))
    | _ => none
  | .timeout, q =>
    match q.pc .reader with
    | .asleep v => some (q.goto .reader (.wait v))
    | _ => none

/-- A queue as it is mapped: both indices `0`, nobody waiting, both processes about to call
`next`. -/
def Queue.init (count : ℕ) : Queue := ⟨count, fun _ => 0, .unblocked, fun _ => .load⟩

/-- A process sleeps in the futex. -/
def Queue.Asleep (q : Queue) (s : Side) : Prop := ∃ v, q.pc s = .asleep v

/-- The queue holds no value. -/
def Queue.Empty (q : Queue) : Prop := q.idx .writer = q.idx .reader

/-- The queue has no room for another value. -/
def Queue.Full (q : Queue) : Prop := nextIndex q.count (q.idx .writer) = q.idx .reader

/-- A wake for the other side is on its way: the side's own next accesses, at most two and none of
them on an index, wake it. -/
def Queue.WakePending (q : Queue) (s : Side) : Prop :=
  ∃ n ≤ 2, ∃ q', runEvents Queue.step (List.replicate n (.run s)) q = some q' ∧
    ¬ q'.Asleep s.other ∧ q'.idx = q.idx

end Hobbes.Storage
