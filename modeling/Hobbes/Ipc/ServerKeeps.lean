import Hobbes.Ipc.Server

/-!
# What the handlers keep

A condition on the server is kept by preparing an expression if it is kept by the changes that preparing
makes, and it is kept by a whole request if closing, reading, writing and evaluating keep it, too.
-/

namespace Hobbes.Ipc

open Core Lang

variable {κ F : Type} {P : Process κ F} {I : CCServer κ F → Prop} {c : ℕ}

lemma keeps_if {b : Bool} {m : Handler κ F Unit} (h : Keeps I m) :
    Keeps I (if b then m else pure ()) := by
  cases b
  · exact Keeps.pure ()
  · exact h

/-- The condition is kept by the changes that preparing an expression on descriptor `c` makes. -/
structure KeptByPrepare (I : CCServer κ F → Prop) (c : ℕ) : Prop where
  cc : ∀ k s, I s → I { s with cc := k }
  index : ∀ eid s, I s → I ((s.index c eid).remember (.indexed c eid))
  assign : ∀ eid f s, I s → I ((s.assign c eid f).remember (.prepared c eid f))

section

variable (h : KeptByPrepare I c)
include h

lemma keeps_useCompiler {α : Type} (m : EStateM Bytes κ α) : Keeps I (useCompiler m : Handler κ F α) :=
  Keeps.zoom h.cc

lemma keeps_prepare (eid : ℕ) (expr : Expr) (inty : MonoType) :
    Keeps I (prepare P c eid expr inty) := by
  have hreadFrom (arg : Expr) : Keeps I (readFrom P arg inty) :=
    (Keeps.liftExcept _).bind fun _ => Keeps.liftExcept _
  have hnetExpr : Keeps I (netExpr P expr inty) :=
    (hreadFrom _).bind fun _ => (Keeps.liftExcept _).bind fun _ => (Keeps.liftExcept _).bind fun _ =>
      Keeps.liftExcept _
  rw [prepare]
  refine (hreadFrom _).bind fun _ => (Keeps.liftExcept _).bind fun _ => ?_
  refine (keeps_useCompiler h _).bind fun _ => (Keeps.liftExcept _).bind fun rty => ?_
  have hrest : Keeps I (do
      let fn ← netExpr P expr inty
      let f ← useCompiler (P.compileFn fn)
      modify fun s => (s.assign c eid f).remember (.prepared c eid f)
      return rty) :=
    hnetExpr.bind fun _ => (keeps_useCompiler h _).bind fun f =>
      (Keeps.modify (h.assign eid f)).bind fun _ => Keeps.pure _
  split
  · exact (Keeps.modify (h.index eid)).bind fun _ => hrest
  · exact hrest

lemma keeps_prepareStrExpr (eid : ℕ) (expr : Bytes) (intys : List MonoType) (outty : MonoType) :
    Keeps I (prepareStrExpr P c eid expr intys outty) := by
  rw [prepareStrExpr]
  refine (keeps_useCompiler h _).bind fun _ => (Keeps.liftExcept _).bind fun _ => ?_
  split
  · exact (Keeps.liftExcept _).bind fun _ => (Keeps.liftExcept _).bind fun _ => keeps_prepare h _ _ _
  · exact (Keeps.liftExcept _).bind fun _ => (Keeps.liftExcept _).bind fun _ => keeps_prepare h _ _ _

end

/-- What comes of evaluating an entry of `cnetFns[c]`. -/
def Outcome.ofEntry : Option (Option F) → Outcome F
  | some (some f) => ran f
  | some none => crashed
  | none => closed

/-- The condition is kept by all that the handler of descriptor `c` does. -/
structure KeptByHandler (I : CCServer κ F → Prop) (c : ℕ) : Prop extends KeptByPrepare I c where
  conn : ∀ conn s, I s → I (s.setConn c conn)
  evaluated : ∀ eid s, I s → I (s.remember (.evaluated c eid (.ofEntry (s.cnetFns c eid))))
  alive : ∀ b s, I s → I { s with alive := b }

section

variable (h : KeptByHandler I c)
include h

lemma keeps_fdread (k : ℕ) : Keeps I (fdread c k : Handler κ F Bytes) := by
  intro s hs
  simp only [fdread]
  split
  · exact hs
  · split
    · exact hs
    · split
      · exact h.conn _ s hs
      · exact h.conn _ s hs

lemma keeps_fdreadNumber (k : ℕ) : Keeps I (fdreadNumber c k : Handler κ F ℕ) :=
  (keeps_fdread h k).bind fun _ => Keeps.pure _

lemma keeps_fdreadBytes : Keeps I (fdreadBytes P c) :=
  (keeps_fdreadNumber h 8).bind fun _ => (Keeps.liftExcept _).bind fun _ => keeps_fdread h _

lemma keeps_fdwrite (bs : Bytes) : Keeps I (fdwrite c bs : Handler κ F Unit) := by
  intro s hs
  simp only [fdwrite]
  split
  · exact hs
  · exact h.conn _ s hs

lemma keeps_hangUp : Keeps I (hangUp c : Handler κ F Unit) := Keeps.modify (h.conn none)

lemma keeps_call (f : F) : Keeps I (call P c f) := by
  intro s hs
  simp only [call]
  split
  · exact hs
  · split
    · exact h.conn _ s hs
    · exact hs

lemma keeps_evaluate (eid : ℕ) : Keeps I (evaluate P c eid) := by
  refine Keeps.get_bind fun s hs => ?_
  have hevaluated := h.evaluated eid s hs
  cases hf : s.cnetFns c eid with
  | none =>
    rw [hf] at hevaluated
    exact h.conn none _ hevaluated
  | some entry =>
    rw [hf] at hevaluated
    cases entry with
    | none => exact h.alive false _ hevaluated
    | some f => exact keeps_call h f _ hevaluated

lemma keeps_replyError (what : Bytes) : Keeps I (replyError c what : Handler κ F Unit) :=
  (keeps_fdwrite h _).bind fun _ => keeps_fdwrite h _

lemma keeps_prepareText (eid : ℕ) (expr ityd otyd : Bytes) :
    Keeps I (prepareText P c eid expr ityd otyd) :=
  (Keeps.liftExcept _).bind fun _ => (Keeps.liftExcept _).bind fun _ =>
    (keeps_prepareStrExpr h.toKeptByPrepare _ _ _ _).bind fun _ => keeps_fdwrite h _

lemma keeps_prepareExpr (eid : ℕ) (expr : Expr) (tyd : Bytes) :
    Keeps I (prepareExpr P c eid expr tyd) :=
  (Keeps.liftExcept _).bind fun _ => (keeps_prepare h.toKeptByPrepare _ _ _).bind fun _ =>
    (keeps_fdwrite h _).bind fun _ => keeps_fdwrite h _

lemma keeps_serve (cmd : ℕ) : Keeps I (serve P c cmd) := by
  rw [serve.eq_def]
  split
  · exact Keeps.tryCatch ((keeps_fdreadNumber h 4).bind fun _ => (keeps_fdreadBytes h).bind fun _ =>
      (keeps_fdreadBytes h).bind fun _ => (keeps_fdreadBytes h).bind fun _ =>
      keeps_prepareText h _ _ _ _) (keeps_replyError h)
  · exact Keeps.tryCatch ((keeps_fdreadNumber h 4).bind fun _ => (keeps_fdreadBytes h).bind fun _ =>
      (Keeps.liftExcept _).bind fun _ => (keeps_fdreadBytes h).bind fun _ =>
      keeps_prepareExpr h _ _ _) (keeps_replyError h)
  · exact (keeps_fdreadNumber h 4).bind fun _ => keeps_evaluate h _
  · exact Keeps.throw _

lemma keeps_evaluateNetREPLRequest : Keeps I (evaluateNetREPLRequest P c) :=
  Keeps.tryCatch ((keeps_fdreadNumber h 1).bind fun _ => keeps_serve h _) fun _ => keeps_hangUp h

lemma keeps_acceptNetREPL : Keeps I (acceptNetREPL c : Handler κ F Unit) := by
  have hregister : Keeps I (registerEventHandler c : Handler κ F Unit) := by
    refine Keeps.get_bind fun s hs => ?_
    cases s.conns c with
    | none => exact hs
    | some conn => exact hs
  refine Keeps.tryCatch ((keeps_fdreadNumber h 4).bind fun version => ?_) fun _ => keeps_hangUp h
  split
  · exact (keeps_hangUp h).bind fun _ => hregister
  · exact hregister

end

end Hobbes.Ipc
