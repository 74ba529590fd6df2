import Hobbes.Core.Handler
import Hobbes.Core.Stream
import Hobbes.Core.Transition
import Hobbes.Lang.Expr
import Hobbes.Lang.MemoryLayout
import Hobbes.Lang.TypeCodec
import Hobbes.Lang.ExprCodec
import Mathlib.Logic.Function.Basic

/-!
# The server of the net REPL

The handler of a connection reads requests from its descriptor, and the `CCServer` keeps the functions
that were prepared. All that a client is ever going to send before it closes its end is what there is to
read from the descriptor. `log` is not part of the server. It remembers what happened, the last first.
-/

namespace Hobbes.Ipc

open Core Lang

/-- What comes of the request to evaluate an expression. -/
inductive Outcome (F : Type) where
  | ran (f : F)
  | closed
  /-- a null function is called -/
  | crashed

inductive Act (F : Type) where
  | accepted (c : ℕ)
  /-- `cnetFns[c][eid]` is evaluated ahead of the function it is going to be -/
  | indexed (c eid : ℕ)
  | prepared (c eid : ℕ) (f : F)
  | evaluated (c eid : ℕ) (o : Outcome F)

/-- A descriptor: what there is to read from it, and what was written to it. -/
structure Conn where
  inp : Bytes
  out : Bytes

/-- `CCServer` and the descriptors of its process, with a compiler in states `κ` that compiles functions
of type `F`. -/
structure CCServer (κ F : Type) where
  cc : κ
  cnetFns : ℕ → ℕ → Option (Option F)
  conns : ℕ → Option Conn
  alive : Bool
  log : List (Act F)

/-- What the server uses. -/
structure Process (κ F : Type) where
  layout : Layout
  readExpr : Bytes → EStateM Bytes κ Expr
  unsweetenExpression : Expr → EStateM Bytes κ QualType
  compileFn : Expr → EStateM Bytes κ F
  /-- A compiled function reads from a descriptor and writes to it, or throws. -/
  call : F → Stream Bytes
  assume : Expr → MonoType → Except Bytes Expr
  fncall : Expr → List Expr → Except Bytes Expr
  letIn : Bytes → Expr → Expr → Except Bytes Expr
  showQualType : QualType → Bytes
  resize : ℕ → Except Bytes Unit
  /-- the texts of the exceptions for bytes that do not decode -/
  exprError : Bytes → Bytes
  typeError : Bytes → Bytes
  /-- the texts of the exceptions for tuples that cannot be laid out -/
  tupleError : List MonoType → Bytes
  /-- In `cnetFns[c][eid] = compileFn(..)` the left side is evaluated first. -/
  indexFirst : Bool

variable {κ F : Type}

namespace CCServer

def setConn (s : CCServer κ F) (c : ℕ) (conn : Option Conn) : CCServer κ F :=
  { s with conns := Function.update s.conns c conn }

def remember (s : CCServer κ F) (a : Act F) : CCServer κ F := { s with log := a :: s.log }

/-- `cnetFns[c][eid]` as the left side of an assignment. -/
def index (s : CCServer κ F) (c eid : ℕ) : CCServer κ F :=
  let fns := Function.update (s.cnetFns c) eid (some ((s.cnetFns c eid).getD none))
  { s with cnetFns := Function.update s.cnetFns c fns }

def assign (s : CCServer κ F) (c eid : ℕ) (f : F) : CCServer κ F :=
  let fns := Function.update (s.cnetFns c) eid (some (some f))
  { s with cnetFns := Function.update s.cnetFns c fns }

end CCServer

abbrev Handler (κ F : Type) := EStateM Bytes (CCServer κ F)

/-! ### Descriptors -/

def fdread (c k : ℕ) : Handler κ F Bytes := fun s =>
  if k = 0 then .ok [] s
  else
    match s.conns c with
    | none => .error (ascii "Couldn't read pipe: Bad file descriptor") s
    | some conn =>
      if k ≤ conn.inp.length then
        .ok (conn.inp.take k) (s.setConn c (some ⟨conn.inp.drop k, conn.out⟩))
      else
        .error (ascii "Process read error (closed pipe)") (s.setConn c (some ⟨[], conn.out⟩))

def fdwrite (c : ℕ) (bs : Bytes) : Handler κ F Unit := fun s =>
  match s.conns c with
  | none => .error (ascii "Couldn't write to pipe: Bad file descriptor") s
  | some conn => .ok () (s.setConn c (some ⟨conn.inp, conn.out ++ bs⟩))

def fdreadNumber (c k : ℕ) : Handler κ F ℕ := do
  let bs ← fdread c k
  return leNat bs

/-- `fdwrite` of a string or a vector of bytes. -/
def fdwriteBytes (c : ℕ) (bs : Bytes) : Handler κ F Unit := fdwrite c (writeString bs)

/-- Close the descriptor and forget its handler. -/
def hangUp (c : ℕ) : Handler κ F Unit := modify fun s => s.setConn c none

/-! ### Preparing and evaluating -/

section

variable (P : Process κ F)

/-- `fdread` of a string or a vector of bytes. -/
def fdreadBytes (c : ℕ) : Handler κ F Bytes := do
  let n ← fdreadNumber c 8
  liftExcept (P.resize n)
  fdread c n

def useCompiler {α : Type} (m : EStateM Bytes κ α) : Handler κ F α :=
  zoom CCServer.cc (fun k s => { s with cc := k }) m

def var (nm : String) : Expr := .mk (.var (ascii nm)) none

def readFrom (arg : Expr) (inty : MonoType) : Handler κ F Expr := do
  let e ← liftExcept (P.fncall (var "readFrom") [arg])
  liftExcept (P.assume e inty)

def zeroConstant : Expr := .mk (.prim (.int 0)) (some ⟨[], .prim (ascii "int") none⟩)

/-- `let .in = readFrom(.c) :: inty in writeTo(.c, expr(.in))` -/
def netExpr (expr : Expr) (inty : MonoType) : Handler κ F Expr := do
  let inp ← readFrom P (var ".c") inty
  let out ← liftExcept (P.fncall expr [var ".in"])
  let body ← liftExcept (P.fncall (var "writeTo") [var ".c", out])
  liftExcept (P.letIn (ascii ".in") inp body)

def requireMonotype (qt : QualType) : Except Bytes MonoType :=
  if qt.constraints.isEmpty then .ok qt.monoType
  else
    .error (ascii "Required monotype but encountered qualified type: " ++ P.showQualType qt)

/-- `CCServer::prepare` -/
def prepare (c eid : ℕ) (expr : Expr) (inty : MonoType) : Handler κ F MonoType := do
  let arg ← readFrom P zeroConstant inty
  let e ← liftExcept (P.fncall expr [arg])
  let ty ← useCompiler (P.unsweetenExpression e)
  let rty ← liftExcept (requireMonotype P ty)
  if P.indexFirst then modify fun s => (s.index c eid).remember (.indexed c eid)
  let fn ← netExpr P expr inty
  let f ← useCompiler (P.compileFn fn)
  modify fun s => (s.assign c eid f).remember (.prepared c eid f)
  return rty

/-- Call a function on a descriptor. -/
def call (c : ℕ) (f : F) : Handler κ F Unit := fun s =>
  match s.conns c with
  | none => .error [] s
  | some conn =>
    match P.call f conn.inp with
    | some (bs, rest) => .ok () (s.setConn c (some ⟨rest, conn.out ++ bs⟩))
    | none => .error [] s

/-- `CCServer::evaluate` -/
def evaluate (c eid : ℕ) : Handler κ F Unit := do
  let s ← get
  match s.cnetFns c eid with
  | some (some f) =>
    modify fun s => s.remember (.evaluated c eid (.ran f))
    call P c f
  | some none => modify fun s => { s.remember (.evaluated c eid .crashed) with alive := false }
  | none =>
    modify fun s => s.remember (.evaluated c eid .closed)
    hangUp c

/-! ### Requests -/

def decodeType (bs : Bytes) : Except Bytes MonoType :=
  match Lang.decode P.layout bs with
  | some (ty, _) => .ok ty
  | none => .error (P.typeError bs)

def decodeExpr (bs : Bytes) : Except Bytes Expr :=
  match Expr.decode P.layout bs with
  | some (e, _) => .ok e
  | none => .error (P.exprError bs)

def tuple (tys : List MonoType) : Except Bytes MonoType :=
  if tys.isEmpty then .ok (.prim (ascii "unit") none)
  else
    match Record.make P.layout (tys.mapIdx fun i ty => ⟨ascii (".f" ++ toString i), ty, -1⟩) with
    | some ty => .ok ty
    | none => .error (P.tupleError tys)

def isUnit (ty : MonoType) : Bool := P.layout.sizeOf ty == some 0

def prepareStrExpr (c eid : ℕ) (expr : Bytes) (intys : List MonoType) (outty : MonoType) :
    Handler κ F MonoType := do
  let e ← useCompiler (P.readExpr expr)
  let aty ← liftExcept (tuple P intys)
  if intys.isEmpty || intys.length == 1 && intys.all (isUnit P) then
    let f ← liftExcept (P.assume e (.func aty outty))
    let unit ← liftExcept (tuple P [])
    prepare P c eid f unit
  else
    let f ← liftExcept (P.assume e (.func aty outty))
    let args := intys.mapIdx fun i _ => .mk (.proj (var "p") (ascii (".f" ++ toString i))) none
    let body ← liftExcept (P.fncall f args)
    prepare P c eid (.mk (Fn.make [ascii "p"] body) none) aty

/-- The types of the arguments that a type description is for. -/
def argumentTypes : MonoType → List MonoType
  | .record ms => ms.map Record.Member.type
  | ty => [ty]

/-- A prepared lexical expression, once its frame is read. -/
def prepareText (c eid : ℕ) (expr ityd otyd : Bytes) : Handler κ F Unit := do
  let itye ← liftExcept (decodeType P ityd)
  let otye ← liftExcept (decodeType P otyd)
  let _ ← prepareStrExpr P c eid expr (argumentTypes itye) otye
  fdwrite c [1]

/-- What is left of preparing a serialized expression once its frame is read. -/
def prepareExpr (c eid : ℕ) (expr : Expr) (tyd : Bytes) : Handler κ F Unit := do
  let ty ← liftExcept (decodeType P tyd)
  let rty ← prepare P c eid expr ty
  fdwrite c [1]
  fdwriteBytes c (encode rty)

def replyError (c : ℕ) (what : Bytes) : Handler κ F Unit := do
  fdwrite c [0]
  fdwriteBytes c what

/-- The cases of `cmd`. The expression is decoded before its type is read. -/
def serve (c : ℕ) : ℕ → Handler κ F Unit
  | 0 => tryCatch (do
      let eid ← fdreadNumber c 4
      let expr ← fdreadBytes P c
      let ityd ← fdreadBytes P c
      let otyd ← fdreadBytes P c
      prepareText P c eid expr ityd otyd) (replyError c)
  | 1 => tryCatch (do
      let eid ← fdreadNumber c 4
      let exprd ← fdreadBytes P c
      let expr ← liftExcept (decodeExpr P exprd)
      let tyd ← fdreadBytes P c
      prepareExpr P c eid expr tyd) (replyError c)
  | 2 => do
    let eid ← fdreadNumber c 4
    evaluate P c eid
  | cmd => throw (ascii ("protocol violation: cmd=" ++ toString cmd))

def evaluateNetREPLRequest (c : ℕ) : Handler κ F Unit :=
  tryCatch (do
    let cmd ← fdreadNumber c 1
    serve P c cmd) fun _ => hangUp c

/-! ### Connections -/

/-- Registering a handler for a descriptor that is closed throws. -/
def registerEventHandler (c : ℕ) : Handler κ F Unit := do
  let s ← get
  match s.conns c with
  | some _ => pure ()
  | none => throw (ascii "Failed to add FD to epoll set: Bad file descriptor")

/-- The handler of `registerNetREPL` for a connection that is accepted. -/
def acceptNetREPL (c : ℕ) : Handler κ F Unit :=
  tryCatch (do
    let version ← fdreadNumber c 4
    if version ≠ 0x00010000 then hangUp c
    registerEventHandler c) fun _ => hangUp c

end

inductive Event where
  /-- A connection gets descriptor `c`, which is not in use. -/
  | accept (c : ℕ) (inp : Bytes)
  /-- The handler of descriptor `c` is run. -/
  | ready (c : ℕ)

def step (P : Process κ F) : Event → CCServer κ F → Option (CCServer κ F)
  | .accept c inp, s =>
    if s.alive ∧ s.conns c = none then
      some (finalState (acceptNetREPL c ((s.setConn c (some ⟨inp, []⟩)).remember (.accepted c))))
    else none
  | .ready c, s =>
    if s.alive ∧ s.conns c ≠ none then some (finalState (evaluateNetREPLRequest P c s)) else none

/-- A server that has just been started. -/
def CCServer.start (cc : κ) : CCServer κ F := ⟨cc, fun _ _ => none, fun _ => none, true, []⟩

/-- A process that compiles any expression to a function which sends a byte. -/
def sender : Process Unit Unit where
  layout := ⟨fun _ => some 4, fun _ => some 4⟩
  readExpr _ := pure (.mk (.prim .unit) none)
  unsweetenExpression _ := pure ⟨[], .prim [] none⟩
  compileFn _ := pure ()
  call _ := pure [1]
  assume e _ := .ok e
  fncall f args := .ok (.mk (.app f args) none)
  letIn id e b := .ok (.mk (.letIn id e b) none)
  showQualType _ := []
  resize _ := .ok ()
  exprError _ := []
  typeError _ := []
  tupleError _ := []
  indexFirst := false

end Hobbes.Ipc
