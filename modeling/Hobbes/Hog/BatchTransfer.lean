import Hobbes.Core.Transition
import Hobbes.Hog.Segments
import Mathlib.Data.List.Sort
import Mathlib.Data.Prod.Lex

/-!
# Batch transfer

One thread writes transactions to a temporary file and publishes it as a segment. Another one looks for
segment files in the directory, sends them over a connection and removes each when it is acknowledged.
A receiver runs a thread for each connection. Threads take steps in any order.
-/

namespace Hobbes.Hog

open Core

/-- What a transfer is about: the name of the group, what the init message says, and what is read out
of a compressed file. -/
structure Setup where
  groupName : Bytes
  init : Bytes
  gunzip : Bytes → Bytes
  small : groupName.length < 2 ^ 64

/-! ### The directory -/

/-- A segment file. -/
structure SegFile where
  name : List Char
  ctime : ℕ
  bytes : Bytes
  /-- history: which of the segments that were published it is -/
  seg : ℕ

/-- Where `stepFile` is. -/
inductive StepPc where
  | writing
  /-- the file was closed, and holds these bytes: about to link it -/
  | closed (gz : Bytes)
  /-- about to unlink the temporary name; was the other one made? -/
  | linked (made : Bool)

/-- The directory, and the thread that publishes. -/
structure Folder where
  /-- the time in seconds -/
  clock : ℕ
  c : ℕ
  pc : StepPc
  /-- what was written to the current file -/
  buffer : Bytes
  initGz : Option Bytes
  segments : List SegFile
  /-- history: the transactions that were written to the current file, and to those published -/
  current : List Bytes
  published : List (List Bytes)

namespace Folder

variable (d : Folder)

def names : List (List Char) := d.segments.map (·.name)

def find (name : List Char) : Option SegFile := d.segments.find? (·.name = name)

/-- A transaction is written, after the init message was published. -/
def write (txn : Bytes) : Option Folder :=
  match d.pc with
  | .writing =>
    if d.initGz.isSome ∧ txn.length < 2 ^ 64 then
      some { d with buffer := d.buffer ++ writeTxns [txn], current := d.current ++ [txn] }
    else none
  | _ => none

/-- `gzclose`: some file that the buffer is read out of, of a size that a file can have. -/
def gzclose (S : Setup) (gz : Bytes) : Option Folder :=
  match d.pc with
  | .writing =>
    if S.gunzip gz = d.buffer ∧ gz.length < 2 ^ 63 then some { d with pc := .closed gz } else none
  | _ => none

/-- `link(tempfilename, pubfilename)`, which does nothing when there is a file of that name. -/
def link : Option Folder :=
  match d.pc with
  | .closed gz =>
    if d.c = 0 then
      match d.initGz with
      | none => some { d with pc := .linked false, initGz := some gz }
      | some _ => some { d with pc := .linked false, published := d.published ++ [d.current] }
    else if segmentFileName d.c ∈ d.names then
      some { d with pc := .linked false, published := d.published ++ [d.current] }
    else
      some { d with
        pc := .linked true
        segments := d.segments ++ [⟨segmentFileName d.c, d.clock, gz, d.published.length⟩]
        published := d.published ++ [d.current] }
  | _ => none

/-- The status of the current file changes. -/
def touch (f : SegFile) : SegFile :=
  if f.name = segmentFileName d.c then { f with ctime := d.clock } else f

/-- `unlink(tempfilename)`, which changes the status of the file if it has another name. -/
def unlinkTemp : Option Folder :=
  match d.pc with
  | .linked made =>
    some { d with
      pc := .writing
      c := (d.c + 1) % 2 ^ 32
      segments := if made then d.segments.map d.touch else d.segments
      buffer := []
      current := [] }
  | _ => none

def unlink (name : List Char) : Folder :=
  { d with segments := d.segments.filter (·.name ≠ name) }

end Folder

/-! ### Connections -/

/-- Where a thread of the receiver is. -/
inductive RecvPc where
  /-- about to receive the name of the group -/
  | group
  | init
  | ackInit
  | segment
  /-- what is left of the segment, and the transactions that were passed on -/
  | passing (rest : Bytes) (passed : List Bytes)
  | ackSegment
  | closed

/-- A file that the sender began to send: a segment, or the init message. -/
structure Sent where
  seg : Option ℕ
  bytes : Bytes

/-- A connection, with the thread that it has at the receiver. -/
structure Conn where
  /-- what was sent and not received yet, in both directions -/
  wire : Bytes
  acks : Bytes
  pc : RecvPc
  /-- history: the files that the sender began to send, those that were processed to the end, and
  those whose acknowledgement it read -/
  sent : List Sent
  handled : List (Option ℕ)
  acked : List (Option ℕ)
  /-- history: the sender noticed that the connection failed -/
  failed : Bool

namespace Conn

/-- A connection that was made just now. -/
def new : Conn := ⟨[], [], .group, [], [], [], false⟩

variable (conn : Conn)

/-- The file that is received next. -/
def current : Option Sent := conn.sent[conn.handled.length]?

/-- One `srecv` of the thread. -/
def recv (S : Setup) : Option Conn :=
  match srecv conn.wire, conn.pc with
  | some (_, wire), .group => some { conn with wire, pc := .init }
  | some (_, wire), .init => some { conn with wire, pc := .ackInit, handled := conn.handled ++ [none] }
  | some (gz, wire), .segment => some { conn with wire, pc := .passing (S.gunzip gz) [] }
  | _, _ => none

def sendAck : Option Conn :=
  match conn.pc with
  | .ackInit | .ackSegment => some { conn with acks := conn.acks ++ [1], pc := .segment }
  | _ => none

end Conn

/-! ### The sender -/

/-- Where the sending thread is; `none` is the init message. -/
inductive SendPc where
  | offline
  /-- about to open `init.gz` -/
  | connected
  /-- this is left to be sent of a file, and these are to follow -/
  | sending (name : Option (List Char)) (todo : List (List Char)) (rest : Bytes)
  | removing (name : List Char) (todo : List (List Char))
  | polling
  /-- in `glob`, which began when these files were there -/
  | globbing (present : List (List Char))
  /-- these are still to be looked up with `stat` -/
  | stating (paths : List (List Char)) (segfiles : List (ℕ ×ₗ List Char))
  | listed (todo : List (List Char))

/-- A segment that was processed to the end, and the transactions that were passed on for it. -/
structure Done where
  conn : ℕ
  seg : ℕ
  txns : List Bytes

structure Transfer where
  folder : Folder
  sender : SendPc
  /-- the sender's is the last one -/
  conns : List Conn
  /-- history -/
  done : List Done

inductive TransferEvent where
  | tick
  | write (txn : Bytes)
  | gzclose (gz : Bytes)
  | link
  | unlinkTemp
  | connect
  | openInit
  | send (k : ℕ)
  | readAck
  /-- the sender notices that the connection failed -/
  | fail
  | unlink
  | glob
  /-- `glob` ends and gives these files -/
  | globbed (paths : List (List Char))
  | stat
  | openNext
  | recv (i : ℕ)
  /-- a transaction is passed on, or the segment is at its end -/
  | pass (i : ℕ)
  | sendAck (i : ℕ)
  /-- the receiver closes the connection -/
  | close (i : ℕ)

namespace Transfer

variable (S : Setup) (w : Transfer)

/-- The connection that the sender has. -/
def last : ℕ := w.conns.length - 1

def onFolder (f : Folder → Option Folder) : Option Transfer :=
  (f w.folder).map fun folder => { w with folder }

def onConn (i : ℕ) (f : Conn → Option Conn) : Option Transfer :=
  w.conns[i]?.bind fun conn => (f conn).map fun conn => { w with conns := w.conns.set i conn }

def openInit : Option Transfer :=
  match w.sender, w.folder.initGz with
  | .connected, some gz =>
    w.onConn w.last (fun conn => some { conn with sent := conn.sent ++ [⟨none, gz⟩] }) |>.map fun w =>
      { w with sender := .sending none [] (sized S.groupName ++ sized gz) }
  | _, _ => none

def send (k : ℕ) : Option Transfer :=
  match w.sender with
  | .sending name todo rest =>
    if 0 < k ∧ k ≤ rest.length then
      w.onConn w.last (fun conn => some { conn with wire := conn.wire ++ rest.take k }) |>.map fun w =>
        { w with sender := .sending name todo (rest.drop k) }
    else none
  | _ => none

/-- The file was sent, and an acknowledgement is there. -/
def readAck : Option Transfer :=
  match w.sender, w.conns[w.last]? with
  | .sending name todo [], some conn =>
    match conn.acks, conn.sent.getLast? with
    | ack :: acks, some file =>
      if ack = 1 then
        let conn := { conn with acks, acked := conn.acked ++ [file.seg] }
        some { w with
          conns := w.conns.set w.last conn
          sender := name.elim .polling fun name => .removing name todo }
      else none
    | _, _ => none
  | _, _ => none

def fail : Option Transfer :=
  match w.sender with
  | .sending .. =>
    w.onConn w.last (fun conn => some { conn with failed := true }) |>.map fun w =>
      { w with sender := .offline }
  | _ => none

/-- Every file that is in the directory all the time is found. -/
def globbed (paths : List (List Char)) : Option Transfer :=
  match w.sender with
  | .globbing present =>
    if paths.Nodup ∧ present ⊆ paths ∧ paths ⊆ w.folder.names then
      some { w with sender := .stating paths [] }
    else none
  | _ => none

/-- A file is put under its time; then all of them are taken in order. -/
def stat : Option Transfer :=
  match w.sender with
  | .stating [] segfiles => some { w with sender := .listed (segfiles.map fun x => (ofLex x).2) }
  | .stating (path :: paths) segfiles =>
    match w.folder.find path with
    | none => some { w with sender := .stating paths segfiles }
    | some f =>
      let segfiles := segfiles.orderedInsert (· ≤ ·) (toLex (f.ctime, path))
      some { w with sender := .stating paths segfiles }
  | _ => none

def openNext : Option Transfer :=
  match w.sender with
  | .listed [] => some { w with sender := .polling }
  | .listed (name :: todo) =>
    match w.folder.find name with
    | none => some { w with sender := .listed todo }
    | some f =>
      w.onConn w.last (fun conn => some { conn with sent := conn.sent ++ [⟨some f.seg, f.bytes⟩] })
        |>.map fun w => { w with sender := .sending (some name) todo (sized f.bytes) }
  | _ => none

/-- The loop over the transactions of a segment. -/
def pass (i : ℕ) : Option Transfer :=
  w.conns[i]?.bind fun conn =>
    match conn.pc with
    | .passing rest passed =>
      if rest = [] then
        match conn.current with
        | some ⟨some seg, _⟩ =>
          let conn := { conn with pc := .ackSegment, handled := conn.handled ++ [some seg] }
          some { w with conns := w.conns.set i conn, done := w.done ++ [⟨i, seg, passed⟩] }
        | _ => none
      else
        match readTxn rest with
        | some (txn, rest) =>
          some { w with conns := w.conns.set i { conn with pc := .passing rest (passed ++ [txn]) } }
        | none => none
    | _ => none

end Transfer

def Transfer.step (S : Setup) : TransferEvent → Transfer → Option Transfer
  | .tick, w => w.onFolder fun d => some { d with clock := d.clock + 1 }
  | .write txn, w => w.onFolder (·.write txn)
  | .gzclose gz, w => w.onFolder (·.gzclose S gz)
  | .link, w => w.onFolder (·.link)
  | .unlinkTemp, w => w.onFolder (·.unlinkTemp)
  | .connect, w =>
    match w.sender with
    | .offline => some { w with sender := .connected, conns := w.conns ++ [.new] }
    | _ => none
  | .openInit, w => w.openInit S
  | .send k, w => w.send k
  | .readAck, w => w.readAck
  | .fail, w => w.fail
  | .unlink, w =>
    match w.sender with
    | .removing name todo => some { w with folder := w.folder.unlink name, sender := .listed todo }
    | _ => none
  | .glob, w =>
    match w.sender with
    | .polling => some { w with sender := .globbing w.folder.names }
    | _ => none
  | .globbed paths, w => w.globbed paths
  | .stat, w => w.stat
  | .openNext, w => w.openNext
  | .recv i, w => w.onConn i (·.recv S)
  | .pass i, w => w.pass i
  | .sendAck i, w => w.onConn i (·.sendAck)
  | .close i, w => w.onConn i fun conn => some { conn with pc := .closed }

/-- A fresh directory, and the init message to be published. -/
def Transfer.start (S : Setup) : Transfer where
  folder := ⟨0, 0, .writing, S.init, none, [], [], []⟩
  sender := .offline
  conns := []
  done := []

end Hobbes.Hog
