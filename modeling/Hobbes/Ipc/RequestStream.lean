import Hobbes.Ipc.ServerKeeps

/-!
# The place in the request stream

The requests of a connection and what the handler makes of each of them, up to the exact condition under
which the handler is at the front of a request whenever it reads a command.
-/

namespace Hobbes.Ipc

open Core Lang

variable {κ F : Type} {P : Process κ F} {s : CCServer κ F} {c : ℕ}

/-! ### Requests -/

inductive Request where
  | prepareStr (eid : BitVec 32) (expr ityd otyd : Bytes)
  | prepareExpr (eid : BitVec 32) (exprd tyd : Bytes)
  | invoke (eid : BitVec 32) (args : Bytes)

namespace Request

/-- What a client sends. -/
def bytes : Request → Bytes
  | prepareStr eid expr ityd otyd =>
    [0] ++ (writeInt eid ++ (writeString expr ++ (writeString ityd ++ writeString otyd)))
  | prepareExpr eid exprd tyd => [1] ++ (writeInt eid ++ (writeString exprd ++ writeString tyd))
  | invoke eid args => [2] ++ (writeInt eid ++ args)

/-- The server has memory for what it is sent. -/
def Fits (P : Process κ F) (bs : Bytes) : Prop := bs.length < 2 ^ 64 ∧ P.resize bs.length = .ok ()

/-- The frame is complete, and a function that is invoked takes exactly the arguments that come along,
whether or not it returns. -/
def WellFramed (P : Process κ F) (s : CCServer κ F) (c : ℕ) : Request → Prop
  | prepareStr _ expr ityd otyd => Fits P expr ∧ Fits P ityd ∧ Fits P otyd
  | prepareExpr _ exprd tyd => Fits P exprd ∧ Fits P tyd
  | invoke eid args =>
    match s.cnetFns c eid.toNat with
    | some (some f) => ∃ p out, Stream.Decodes (P.call f) p args out
    | some none => False
    | none => True

/-- A reply to a request to prepare an expression: what was asked for, or the text of an error. -/
def IsReply (reply : Bytes) : Request → Prop
  | prepareStr _ _ _ _ => reply = [1] ∨ ∃ what, reply = [0] ++ writeString what
  | prepareExpr _ _ _ => (∃ ty, reply = [1] ++ writeString ty) ∨ ∃ what, reply = [0] ++ writeString what
  | invoke _ _ => True

/-- The request is answered by one reply on a connection that stays open. -/
def Answered (before after : Option Conn) : Request → Prop
  | invoke _ _ => True
  | r => ∃ conn conn' reply, before = some conn ∧ after = some conn' ∧ r.IsReply reply ∧
      conn'.out = conn.out ++ reply

/-- A serialized expression can be decoded. -/
def Decodable (P : Process κ F) : Request → Prop
  | prepareExpr _ exprd _ => (Expr.decode P.layout exprd).isSome
  | _ => True

end Request

/-- The server after one run of the handler. -/
def afterRequest (P : Process κ F) (c : ℕ) (s : CCServer κ F) : CCServer κ F :=
  finalState (evaluateNetREPLRequest P c s)

/-- Each request to prepare an expression gets one reply, and unless the connection is closed, the next
command is read from behind the request. -/
def KeepsPlace (P : Process κ F) (c : ℕ) (rest : Bytes) : List Request → CCServer κ F → Prop
  | [], _ => True
  | r :: rs, s => r.Answered (s.conns c) ((afterRequest P c s).conns c) ∧
      ∀ conn, (afterRequest P c s).conns c = some conn →
        conn.inp = rs.flatMap Request.bytes ++ rest ∧ KeepsPlace P c rest rs (afterRequest P c s)

/-- The requests are well-framed as long as they are served in place. -/
def WellFramed (P : Process κ F) (c : ℕ) (rest : Bytes) : List Request → CCServer κ F → Prop
  | [], _ => True
  | r :: rs, s => r.WellFramed P s c ∧
      ∀ conn, (afterRequest P c s).conns c = some conn → conn.inp = rs.flatMap Request.bytes ++ rest →
        WellFramed P c rest rs (afterRequest P c s)

/-- The serialized expressions that are served before the connection is closed can be decoded. -/
def Decodable (P : Process κ F) (c : ℕ) : List Request → CCServer κ F → Prop
  | [], _ => True
  | r :: rs, s => r.Decodable P ∧
      ((afterRequest P c s).conns c ≠ none → Decodable P c rs (afterRequest P c s))

/-! ### Reading frames -/

/-- The handler takes exactly `bs` from descriptor `c` and changes nothing else. -/
def Takes {α : Type} (c : ℕ) (m : Handler κ F α) (bs : Bytes) (x : α) : Prop :=
  ∀ s rest out, s.conns c = some ⟨bs ++ rest, out⟩ → m s = .ok x (s.setConn c (some ⟨rest, out⟩))

namespace Takes

variable {α β : Type} {m : Handler κ F α} {bs rest out : Bytes} {x : α}

lemma bind_apply (h : Takes c m bs x) (k : α → Handler κ F β)
    (hs : s.conns c = some ⟨bs ++ rest, out⟩) :
    (m >>= k) s = k x (s.setConn c (some ⟨rest, out⟩)) := by
  simp only [Bind.bind, EStateM.bind, h s rest out hs]

lemma fdread (bs : Bytes) : Takes c (fdread c bs.length : Handler κ F Bytes) bs bs := by
  intro s rest out hs
  cases bs with
  | nil =>
    have hsame : s.setConn c (some ⟨rest, out⟩) = s := by
      rw [CCServer.setConn, ← List.nil_append rest, ← hs, Function.update_eq_self]
    rw [hsame]
    rfl
  | cons b bs =>
    simp only [Ipc.fdread, hs]
    simp

lemma map (h : Takes c m bs x) (f : α → β) : Takes c (do let x ← m; return f x) bs (f x) :=
  fun _ _ _ hs => h.bind_apply _ hs

lemma fdreadNumber {k n : ℕ} (hn : n < 256 ^ k) :
    Takes c (fdreadNumber c k : Handler κ F ℕ) (leBytes k n) n := by
  have h := (fdread (κ := κ) (F := F) (c := c) (leBytes k n)).map leNat
  rwa [leNat_leBytes, leBytes_length, Nat.mod_eq_of_lt hn] at h

lemma fdreadId (eid : BitVec 32) :
    Takes c (Ipc.fdreadNumber c 4 : Handler κ F ℕ) (writeInt eid) eid.toNat :=
  fdreadNumber (k := 4) eid.isLt

lemma fdreadBytes {bs : Bytes} (hbs : Request.Fits P bs) :
    Takes c (fdreadBytes P c) (writeString bs) bs := by
  intro s rest out hs
  rw [writeString, List.append_assoc] at hs
  rw [Ipc.fdreadBytes, (fdreadNumber (k := 8) hbs.1).bind_apply _ hs]
  have hconn : (s.setConn c (some ⟨bs ++ rest, out⟩)).conns c = some ⟨bs ++ rest, out⟩ := by
    simp [CCServer.setConn]
  have hresize : (liftExcept (P.resize bs.length) : Handler κ F Unit) = pure () := by
    rw [hbs.2]
    rfl
  rw [hresize, pure_bind, fdread bs _ rest out hconn]
  simp [CCServer.setConn]

end Takes

/-! ### Replies -/

@[simp] lemma setConn_conns (s : CCServer κ F) (conn : Option Conn) : (s.setConn c conn).conns c = conn := by
  simp [CCServer.setConn]

@[simp] lemma setConn_setConn (s : CCServer κ F) (conn conn' : Option Conn) :
    (s.setConn c conn).setConn c conn' = s.setConn c conn' := by
  simp [CCServer.setConn]

@[simp] lemma setConn_cnetFns (s : CCServer κ F) (conn : Option Conn) :
    (s.setConn c conn).cnetFns = s.cnetFns := rfl

lemma fdwrite_apply {inp out : Bytes} (bs : Bytes) (hs : s.conns c = some ⟨inp, out⟩) :
    (fdwrite c bs : Handler κ F Unit) s = .ok () (s.setConn c (some ⟨inp, out ++ bs⟩)) := by
  simp [fdwrite, hs]

lemma fdwrite_bind_apply {inp out : Bytes} (bs : Bytes) (k : Unit → Handler κ F Unit)
    (hs : s.conns c = some ⟨inp, out⟩) :
    (fdwrite c bs >>= k) s = k () (s.setConn c (some ⟨inp, out ++ bs⟩)) := by
  simp only [Bind.bind, EStateM.bind, fdwrite_apply bs hs]

lemma replyError_apply {inp out : Bytes} (what : Bytes) (hs : s.conns c = some ⟨inp, out⟩) :
    (replyError c what : Handler κ F Unit) s =
      .ok () (s.setConn c (some ⟨inp, out ++ ([0] ++ writeString what)⟩)) := by
  rw [replyError, fdwrite_bind_apply [0] _ hs, fdwriteBytes, fdwrite_apply _ (setConn_conns _ _)]
  simp

/-- Preparing an expression leaves the descriptors alone. -/
lemma keptByPrepare_conns (conns : ℕ → Option Conn) :
    KeptByPrepare (fun s : CCServer κ F => s.conns = conns) c :=
  ⟨fun _ _ h => h, fun _ _ h => h, fun _ _ _ h => h⟩

/-- A handler that leaves the descriptors alone and then writes is answered by what it writes or by
the text of an error. -/
lemma tryCatch_replyError {α : Type} {m : Handler κ F α} {w : α → Handler κ F Unit} {reply : α → Bytes}
    {inp out : Bytes} (hm : ∀ conns, Keeps (fun s => s.conns = conns) m)
    (hw : ∀ a s, s.conns c = some ⟨inp, out⟩ →
      w a s = .ok () (s.setConn c (some ⟨inp, out ++ reply a⟩)))
    (hs : s.conns c = some ⟨inp, out⟩) :
    ∃ s' bs, tryCatch (m >>= w) (replyError c) s = .ok () s' ∧ s'.conns c = some ⟨inp, out ++ bs⟩ ∧
      ((∃ a, bs = reply a) ∨ ∃ what, bs = [0] ++ writeString what) := by
  have hkeeps := hm s.conns s rfl
  rw [tryCatch_apply]
  simp only [Bind.bind, EStateM.bind]
  cases hr : m s with
  | ok a s' =>
    rw [hr] at hkeeps
    have hconn : s'.conns c = some ⟨inp, out⟩ := (congrFun hkeeps c).trans hs
    simp only [hw a s' hconn]
    exact ⟨_, reply a, rfl, setConn_conns _ _, .inl ⟨a, rfl⟩⟩
  | error what s' =>
    rw [hr] at hkeeps
    have hconn : s'.conns c = some ⟨inp, out⟩ := (congrFun hkeeps c).trans hs
    simp only [replyError_apply what hconn]
    exact ⟨_, _, rfl, setConn_conns _ _, .inr ⟨what, rfl⟩⟩

lemma prepareText_answered (eid : ℕ) (expr ityd otyd : Bytes) {inp out : Bytes}
    (hs : s.conns c = some ⟨inp, out⟩) :
    ∃ s' bs, tryCatch (prepareText P c eid expr ityd otyd) (replyError c) s = .ok () s' ∧
      s'.conns c = some ⟨inp, out ++ bs⟩ ∧ (bs = [1] ∨ ∃ what, bs = [0] ++ writeString what) := by
  have hprepare : prepareText P c eid expr ityd otyd = (do
      let itye ← liftExcept (decodeType P ityd)
      let otye ← liftExcept (decodeType P otyd)
      prepareStrExpr P c eid expr (argumentTypes itye) otye) >>= fun _ => fdwrite c [1] := by
    simp [prepareText]
  have hreply (_ : MonoType) (s : CCServer κ F) (h : s.conns c = some ⟨inp, out⟩) :
      (fdwrite c [1] : Handler κ F Unit) s = .ok () (s.setConn c (some ⟨inp, out ++ [1]⟩)) :=
    fdwrite_apply [1] h
  rw [hprepare]
  obtain ⟨s', bs, h, hconn, hbs⟩ := tryCatch_replyError
    (fun conns => (Keeps.liftExcept _).bind fun _ => (Keeps.liftExcept _).bind fun _ =>
      keeps_prepareStrExpr (keptByPrepare_conns conns) _ _ _ _) hreply hs
  exact ⟨s', bs, h, hconn, hbs.imp_left fun ⟨_, h⟩ => h⟩

lemma prepareExpr_answered (eid : ℕ) (expr : Expr) (tyd : Bytes) {inp out : Bytes}
    (hs : s.conns c = some ⟨inp, out⟩) :
    ∃ s' bs, tryCatch (prepareExpr P c eid expr tyd) (replyError c) s = .ok () s' ∧
      s'.conns c = some ⟨inp, out ++ bs⟩ ∧
      ((∃ ty, bs = [1] ++ writeString ty) ∨ ∃ what, bs = [0] ++ writeString what) := by
  have hprepare : prepareExpr P c eid expr tyd = (do
      let ty ← liftExcept (decodeType P tyd)
      prepare P c eid expr ty) >>= fun rty => fdwrite c [1] >>= fun _ =>
        fdwriteBytes c (encode rty) := by
    simp [prepareExpr]
  have hreply (rty : MonoType) (s : CCServer κ F) (h : s.conns c = some ⟨inp, out⟩) :
      (fdwrite c [1] >>= fun _ => fdwriteBytes c (encode rty) : Handler κ F Unit) s =
        .ok () (s.setConn c (some ⟨inp, out ++ ([1] ++ writeString (encode rty))⟩)) := by
    rw [fdwrite_bind_apply [1] _ h, fdwriteBytes, fdwrite_apply _ (setConn_conns _ _)]
    simp
  rw [hprepare]
  obtain ⟨s', bs, h, hconn, hbs⟩ := tryCatch_replyError
    (fun conns => (Keeps.liftExcept _).bind fun _ => keeps_prepare (keptByPrepare_conns conns) _ _ _)
    hreply hs
  exact ⟨s', bs, h, hconn, hbs.imp_left fun ⟨_, h⟩ => ⟨_, h⟩⟩

/-! ### Requests are served -/

variable {rest out : Bytes}

/-- The command is read and its case is taken. -/
lemma evaluateNetREPLRequest_apply {cmd : ℕ} {inp : Bytes} (hcmd : cmd < 256)
    (hs : s.conns c = some ⟨leBytes 1 cmd ++ inp, out⟩) :
    evaluateNetREPLRequest P c s =
      tryCatch (serve P c cmd) (fun _ => hangUp c) (s.setConn c (some ⟨inp, out⟩)) :=
  tryCatch_congr ((Takes.fdreadNumber (k := 1) hcmd).bind_apply _ hs)

/-- A case that returns is all that the handler does. -/
lemma afterRequest_of_serve {cmd : ℕ} {inp : Bytes} {s' : CCServer κ F} (hcmd : cmd < 256)
    (hs : s.conns c = some ⟨leBytes 1 cmd ++ inp, out⟩)
    (h : serve P c cmd (s.setConn c (some ⟨inp, out⟩)) = .ok () s') : afterRequest P c s = s' := by
  rw [afterRequest, evaluateNetREPLRequest_apply hcmd hs, tryCatch_apply, h]
  rfl

lemma served_prepareStr {eid : BitVec 32} {expr ityd otyd : Bytes}
    (hs : s.conns c = some ⟨(Request.prepareStr eid expr ityd otyd).bytes ++ rest, out⟩)
    (hexpr : Request.Fits P expr) (hityd : Request.Fits P ityd) (hotyd : Request.Fits P otyd) :
    ∃ bs, (afterRequest P c s).conns c = some ⟨rest, out ++ bs⟩ ∧
      (bs = [1] ∨ ∃ what, bs = [0] ++ writeString what) := by
  simp only [Request.bytes, List.append_assoc] at hs
  obtain ⟨s', bs, h, hconn, hbs⟩ := prepareText_answered (P := P) (c := c) eid.toNat expr ityd otyd
    (setConn_conns s (some ⟨rest, out⟩))
  have hafter : afterRequest P c s = s' := by
    refine afterRequest_of_serve (by decide : 0 < 256) hs ?_
    rw [← h]
    apply tryCatch_congr
    rw [(Takes.fdreadId eid).bind_apply _ (setConn_conns _ _),
      (Takes.fdreadBytes hexpr).bind_apply _ (setConn_conns _ _),
      (Takes.fdreadBytes hityd).bind_apply _ (setConn_conns _ _),
      (Takes.fdreadBytes hotyd).bind_apply _ (setConn_conns _ _)]
    simp
  rw [hafter]
  exact ⟨bs, hconn, hbs⟩

lemma served_prepareExpr {eid : BitVec 32} {exprd tyd : Bytes}
    (hs : s.conns c = some ⟨(Request.prepareExpr eid exprd tyd).bytes ++ rest, out⟩)
    (hexprd : Request.Fits P exprd) (htyd : Request.Fits P tyd)
    (hdecode : (Request.prepareExpr eid exprd tyd).Decodable P) :
    ∃ bs, (afterRequest P c s).conns c = some ⟨rest, out ++ bs⟩ ∧
      ((∃ ty, bs = [1] ++ writeString ty) ∨ ∃ what, bs = [0] ++ writeString what) := by
  simp only [Request.bytes, List.append_assoc] at hs
  obtain ⟨⟨expr, r⟩, hexpr⟩ := Option.isSome_iff_exists.mp hdecode
  obtain ⟨s', bs, h, hconn, hbs⟩ := prepareExpr_answered (P := P) (c := c) eid.toNat expr tyd
    (setConn_conns s (some ⟨rest, out⟩))
  have hlift : (liftExcept (decodeExpr P exprd) : Handler κ F Expr) = pure expr := by
    rw [decodeExpr, hexpr]
    rfl
  have hafter : afterRequest P c s = s' := by
    refine afterRequest_of_serve (by decide : 1 < 256) hs ?_
    rw [← h]
    apply tryCatch_congr
    rw [(Takes.fdreadId eid).bind_apply _ (setConn_conns _ _),
      (Takes.fdreadBytes hexprd).bind_apply _ (setConn_conns _ _), hlift, pure_bind,
      (Takes.fdreadBytes htyd).bind_apply _ (setConn_conns _ _)]
    simp
  rw [hafter]
  exact ⟨bs, hconn, hbs⟩

/-- An expression that cannot be decoded is answered before its type is read. -/
lemma served_undecodable {eid : BitVec 32} {exprd tyd : Bytes}
    (hs : s.conns c = some ⟨(Request.prepareExpr eid exprd tyd).bytes ++ rest, out⟩)
    (hexprd : Request.Fits P exprd) (hdecode : Expr.decode P.layout exprd = none) :
    (afterRequest P c s).conns c =
      some ⟨writeString tyd ++ rest, out ++ ([0] ++ writeString (P.exprError exprd))⟩ := by
  simp only [Request.bytes, List.append_assoc] at hs
  have hlift : (liftExcept (decodeExpr P exprd) : Handler κ F Expr) = throw (P.exprError exprd) := by
    rw [decodeExpr, hdecode]
    rfl
  have hreply := replyError_apply (c := c) (P.exprError exprd)
    (setConn_conns s (some ⟨writeString tyd ++ rest, out⟩))
  rw [setConn_setConn] at hreply
  have hafter : afterRequest P c s = s.setConn c
      (some ⟨writeString tyd ++ rest, out ++ ([0] ++ writeString (P.exprError exprd))⟩) := by
    refine afterRequest_of_serve (by decide : 1 < 256) hs ?_
    rw [serve, tryCatch_apply, (Takes.fdreadId eid).bind_apply _ (setConn_conns _ _),
      (Takes.fdreadBytes hexprd).bind_apply _ (setConn_conns _ _), hlift]
    simp only [setConn_setConn]
    exact hreply
  rw [hafter]
  exact setConn_conns _ _

lemma finalState_hangUp : finalState (hangUp c s) = s.setConn c none := rfl

lemma evaluate_apply (eid : ℕ) : evaluate P c eid s =
    match s.cnetFns c eid with
    | some (some f) => call P c f (s.remember (.evaluated c eid (.ran f)))
    | some none => .ok () { s.remember (.evaluated c eid .crashed) with alive := false }
    | none => .ok () ((s.remember (.evaluated c eid .closed)).setConn c none) := by
  have hget : EStateM.get s = (.ok s s : EStateM.Result Bytes (CCServer κ F) (CCServer κ F)) := rfl
  simp only [evaluate, Bind.bind, EStateM.bind, get, MonadState.get, getThe, MonadStateOf.get, hget]
  rcases s.cnetFns c eid with _ | _ | f <;> rfl

/-- An invocation leaves the rest of the stream, or the connection is closed. -/
lemma served_invoke {eid : BitVec 32} {args : Bytes}
    (hs : s.conns c = some ⟨(Request.invoke eid args).bytes ++ rest, out⟩)
    (hframed : (Request.invoke eid args).WellFramed P s c) (conn : Conn)
    (hconn : (afterRequest P c s).conns c = some conn) : conn.inp = rest := by
  simp only [Request.bytes, List.append_assoc] at hs
  have hserve : serve P c 2 (s.setConn c (some ⟨writeInt eid ++ (args ++ rest), out⟩)) =
      evaluate P c eid.toNat (s.setConn c (some ⟨args ++ rest, out⟩)) := by
    rw [serve, (Takes.fdreadId eid).bind_apply _ (setConn_conns _ _), setConn_setConn]
  rw [afterRequest, evaluateNetREPLRequest_apply (by decide : 2 < 256) hs, tryCatch_apply, hserve,
    evaluate_apply, setConn_cnetFns] at hconn
  rw [Request.WellFramed] at hframed
  cases hentry : s.cnetFns c eid.toNat with
  | none =>
    rw [hentry] at hconn
    simp [finalState] at hconn
  | some entry =>
    rw [hentry] at hconn hframed
    cases entry with
    | none => exact hframed.elim
    | some f =>
      obtain ⟨p, bs, hf⟩ := hframed
      simp only [call, CCServer.remember, setConn_conns] at hconn
      by_cases hp : p
      · rw [(hf rest).1 hp] at hconn
        simp only [finalState] at hconn
        rw [← Option.some.inj ((setConn_conns _ _).symm.trans hconn)]
      · rw [(hf rest).2 hp] at hconn
        rw [finalState_hangUp] at hconn
        cases (setConn_conns _ _).symm.trans hconn

/-! ### The place in the stream -/

/-- A server that a client has sent some requests to. -/
def sent (rs : List Request) : CCServer Unit Unit :=
  (CCServer.start ()).setConn 3 (some ⟨rs.flatMap Request.bytes ++ [], []⟩)

end Hobbes.Ipc
