import Hobbes.Core.Stream
import Mathlib.Algebra.Group.Nat.Even
import Mathlib.Data.Int.Notation

/-!
# Frames on a socket

A string is sent behind its size. A call of `send` or `recv` moves some bytes, or fails and says why in `errno`, which
keeps its value while calls succeed. What is received comes in pieces, and the peer closes the connection after them.
-/

namespace Hobbes.Hog

open Core

/-- The call was interrupted. -/
def EINTR : ℕ := 4

/-- No call moves more bytes. -/
abbrev intMax : ℕ := 2 ^ 31 - 1

/-- An exception: what its text starts with, and the number that `strerror` is given for the rest. -/
structure IoError where
  text : String
  errno : ℕ
  deriving DecidableEq

/-- `none` for a call that has not returned. -/
abbrev IoResult (α : Type) := Option (Except IoError α)

/-- What follows is not reached when there is an exception. -/
def IoResult.bind {α β : Type} (x : IoResult α) (f : α → IoResult β) : IoResult β :=
  match x with
  | some (.ok a) => f a
  | some (.error e) => some (.error e)
  | none => none

/-! ### Sending -/

/-- What a call of `send` does. -/
inductive SendCall where
  /-- at most `k + 1` bytes are moved -/
  | moves (k : ℕ)
  | fails (errno : ℕ)

structure SendEnd where
  errno : ℕ
  /-- what the next calls do, and those after them move as much as they can -/
  calls : List SendCall
  sent : Bytes

namespace SendEnd

/-- `n` bytes are moved. -/
def move (c : SendEnd) (d : Bytes) (n : ℕ) (calls : List SendCall) : ℤ × SendEnd :=
  (n, { c with calls, sent := c.sent ++ d.take n })

def send (c : SendEnd) (d : Bytes) : ℤ × SendEnd :=
  match c.calls with
  | [] => c.move d (min d.length intMax) []
  | .moves k :: calls => c.move d (min (k + 1) (min d.length intMax)) calls
  | .fails e :: calls => (-1, { c with errno := e, calls })

/-- The loop of `ssend`. -/
def ssendLoop : ℕ → ℤ → SendEnd → Bytes → Option (ℤ × SendEnd)
  | _, rc, c, [] => some (rc, c)
  | 0, _, _, _ :: _ => none
  | fuel + 1, _, c, b :: d =>
    let (rc, c) := c.send (b :: d)
    if rc ≤ 0 then if c.errno ≠ EINTR then some (rc, c) else ssendLoop fuel rc c (b :: d)
    else ssendLoop fuel rc c ((b :: d).drop rc.toNat)

def ssend (fuel : ℕ) (c : SendEnd) (d : Bytes) : IoResult SendEnd :=
  (ssendLoop fuel 0 c d).map fun (rc, c) =>
    if rc ≤ 0 then .error ⟨"error sending on connection: ", c.errno⟩ else .ok c

def ssendString (fuel : ℕ) (c : SendEnd) (s : Bytes) : IoResult SendEnd :=
  IoResult.bind (c.ssend fuel (leBytes 8 s.length)) fun c => c.ssend fuel s

end SendEnd

/-! ### Receiving -/

/-- What comes next. -/
inductive Arrival where
  | piece (b : UInt8) (bs : Bytes)
  /-- a call fails before more comes -/
  | fails (errno : ℕ)

/-- What is left of a piece. -/
def Arrival.left : Bytes → List Arrival → List Arrival
  | [], as => as
  | b :: bs, as => .piece b bs :: as

structure RecvEnd where
  errno : ℕ
  /-- what comes before the peer closes the connection -/
  arrivals : List Arrival

namespace RecvEnd

/-- The result, the bytes, and the end. -/
def recv (c : RecvEnd) (dsz : ℕ) : ℤ × Bytes × RecvEnd :=
  match c.arrivals with
  | [] => (0, [], c)
  | .fails e :: as => (-1, [], ⟨e, as⟩)
  | .piece b bs :: as =>
    let n := min (bs.length + 1) (min dsz intMax)
    (n, (b :: bs).take n, { c with arrivals := Arrival.left ((b :: bs).drop n) as })

/-- The loop of `srecv`, with what was received before. -/
def srecvLoop : ℕ → ℤ → RecvEnd → Bytes → ℕ → Option (ℤ × Bytes × RecvEnd)
  | _, rc, c, d, 0 => some (rc, d, c)
  | 0, _, _, _, _ + 1 => none
  | fuel + 1, _, c, d, dsz + 1 =>
    let (rc, bs, c) := c.recv (dsz + 1)
    if rc ≤ 0 then if c.errno ≠ EINTR then some (rc, d, c) else srecvLoop fuel rc c d (dsz + 1)
    else srecvLoop fuel rc c (d ++ bs) (dsz + 1 - rc.toNat)

def srecv (fuel : ℕ) (c : RecvEnd) (dsz : ℕ) : IoResult (Bytes × RecvEnd) :=
  (srecvLoop fuel 0 c [] dsz).map fun (rc, d, c) =>
    if rc ≤ 0 then .error ⟨"error receiving on connection: ", c.errno⟩ else .ok (d, c)

/-- A size, and as many bytes. -/
def srecvSized (fuel : ℕ) (c : RecvEnd) : IoResult (Bytes × RecvEnd) :=
  IoResult.bind (c.srecv fuel 8) fun (d, c) => c.srecv fuel (leNat d)

/-- `srecv(int, std::string*)` -/
def srecvString (fuel : ℕ) (c : RecvEnd) : IoResult (Bytes × RecvEnd) := c.srecvSized fuel

/-- `srecv(int, std::vector<uint8_t>*)` -/
def srecvVector (fuel : ℕ) (c : RecvEnd) : IoResult (Bytes × RecvEnd) := c.srecvSized fuel

end RecvEnd

/-! ### Buffers -/

/-- The number that is doubled, at most as often as a `size_t` has bits. -/
def uptoPow2Loop (x : ℕ) : ℕ → ℕ → ℕ
  | 0, i => i
  | k + 1, i =>
    if i < x then
      let j := 2 * i % 2 ^ 64
      if j < i then x else uptoPow2Loop x k j
    else i

def uptoPow2 (x : ℕ) : ℕ := uptoPow2Loop x 64 1

structure Buffer where
  allocsz : ℕ
  data : Bytes
  size : ℕ

/-- `fresh` is what is in the memory that `malloc` returns. -/
def Buffer.reserve (b : Buffer) (fresh : Bytes) (sz : ℕ) : Buffer :=
  if b.allocsz < sz then { b with allocsz := uptoPow2 sz, data := fresh } else b

/-- `srecv(int, buffer*)` -/
def RecvEnd.srecvBuffer (fuel : ℕ) (c : RecvEnd) (b : Buffer) (fresh : Bytes) : IoResult (Buffer × RecvEnd) :=
  IoResult.bind (c.srecv fuel 8) fun (d, c) =>
    let sz := leNat d
    let b := b.reserve fresh sz
    IoResult.bind (c.srecv fuel sz) fun (d, c) => some (.ok ({ b with data := d ++ b.data.drop sz, size := sz }, c))

end Hobbes.Hog
