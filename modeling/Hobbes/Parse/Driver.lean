import Hobbes.Parse.Lalr

/-!
# The LR driver

The driver keeps the states it went through on a stack, each with the tree of what it read to get
there, above the state 0.
-/

namespace Hobbes.Parse

open Core

variable {T : Type} [LinearOrder (Terminal T)]

namespace Driver

/-- The stack, its top first, and what is left of the input. -/
structure Config (T : Type) where
  stack : List (ℕ × Tree (Terminal T))
  rest : List T

inductive Outcome (T : Type) where
  | next (c : Config T)
  | accept (t : Tree (Terminal T))
  | reject

def init (w : List T) : Config T := ⟨[], w⟩

def topState : List (ℕ × Tree (Terminal T)) → ℕ
  | [] => 0
  | x :: _ => x.1

namespace Config

def state (c : Config T) : ℕ := topState c.stack

/-- The next terminal, which is the end marker after the input. -/
def lookahead (c : Config T) : Terminal T :=
  match c.rest with
  | [] => .endOfFile
  | t :: _ => .user t

end Config

/-- The entry of a table. -/
def entry (tbl : LrTable T) (q : ℕ) (t : Terminal T) : Option (Action T) := tbl[q]?.bind (List.lookup t ·)

def action (tbl : LrTable T) (c : Config T) : Option (Action T) := entry tbl c.state c.lookahead

def step (tbl : LrTable T) (c : Config T) : Outcome T :=
  match action tbl c with
  | some (.shift j) => .next ⟨(j, .leaf c.lookahead) :: c.stack, c.rest.tail⟩
  | some (.reduce x r n) =>
    let below := c.stack.drop n
    match entry tbl (topState below) x with
    | some (.goTo j) =>
      .next ⟨(j, .node x r ((c.stack.take n).reverse.map Prod.snd)) :: below, c.rest⟩
    | _ => .reject
  | some .accept =>
    match c.stack with
    | (_, t) :: _ => .accept t
    | [] => .reject
  | _ => .reject

/-- A run from `c` in which all configurations satisfy `P`. It ends with the tree that is accepted,
or without one. -/
inductive Runs (tbl : LrTable T) (P : Config T → Prop) :
    Config T → Option (Tree (Terminal T)) → Prop where
  | accept {c : Config T} {t : Tree (Terminal T)} (hc : P c) (h : step tbl c = .accept t) :
      Runs tbl P c (some t)
  | reject {c : Config T} (hc : P c) (h : step tbl c = .reject) : Runs tbl P c none
  | next {c c' : Config T} {o : Option (Tree (Terminal T))} (hc : P c) (h : step tbl c = .next c')
      (hr : Runs tbl P c' o) : Runs tbl P c o

/-- The driver accepts `w`, having read it as the tree `t`. -/
def Accepts (tbl : LrTable T) (w : List T) (t : Tree (Terminal T)) : Prop :=
  Runs tbl (fun _ => True) (init w) (some t)

/-- Run the driver for at most `k` steps. -/
def run (tbl : LrTable T) (P : Config T → Prop) [DecidablePred P] :
    ℕ → Config T → Option (Option (Tree (Terminal T)))
  | 0, _ => none
  | k + 1, c =>
    if P c then
      match step tbl c with
      | .next c => run tbl P k c
      | .accept t => some (some t)
      | .reject => some none
    else none

variable {tbl : LrTable T} {P : Config T → Prop} {c : Config T}
  {o o' : Option (Tree (Terminal T))}

lemma Runs.mono {Q : Config T → Prop} (h : Runs tbl P c o) (hPQ : ∀ c, P c → Q c) :
    Runs tbl Q c o := by
  induction h with
  | accept hc h => exact .accept (hPQ _ hc) h
  | reject hc h => exact .reject (hPQ _ hc) h
  | next hc h _ ih => exact .next (hPQ _ hc) h ih

lemma runs_of_run [DecidablePred P] {k : ℕ} (h : run tbl P k c = some o) : Runs tbl P c o := by
  induction k generalizing c with
  | zero => cases h
  | succ k ih =>
    rw [run] at h
    split_ifs at h with hc
    split at h
    · rename_i c' hstep
      exact .next hc hstep (ih h)
    · rename_i t hstep
      cases h
      exact .accept hc hstep
    · rename_i hstep
      cases h
      exact .reject hc hstep

/-- The ways in which a step goes. -/
inductive Stepped (tbl : LrTable T) (c : Config T) : Outcome T → Prop where
  | shift {j : ℕ} (h : action tbl c = some (.shift j)) :
      Stepped tbl c (.next ⟨(j, .leaf c.lookahead) :: c.stack, c.rest.tail⟩)
  | reduce {x : Terminal T} {r m j : ℕ} (h : action tbl c = some (.reduce x r m))
      (hj : entry tbl (topState (c.stack.drop m)) x = some (.goTo j)) :
      Stepped tbl c (.next ⟨(j, .node x r ((c.stack.take m).reverse.map Prod.snd)) ::
        c.stack.drop m, c.rest⟩)
  | noGoto {x : Terminal T} {r m : ℕ} (h : action tbl c = some (.reduce x r m))
      (hj : ∀ j, entry tbl (topState (c.stack.drop m)) x ≠ some (.goTo j)) : Stepped tbl c .reject
  | accept {z : ℕ × Tree (Terminal T)} {zs : List (ℕ × Tree (Terminal T))}
      (h : action tbl c = some .accept) (hs : c.stack = z :: zs) : Stepped tbl c (.accept z.2)
  | noTree (h : action tbl c = some .accept) (hs : c.stack = []) : Stepped tbl c .reject
  | noAction (h : action tbl c = none ∨ ∃ j, action tbl c = some (.goTo j)) : Stepped tbl c .reject

lemma stepped (tbl : LrTable T) (c : Config T) : Stepped tbl c (step tbl c) := by
  unfold step
  split
  · rename_i j h
    exact .shift h
  · rename_i x r m h
    dsimp only
    split
    · rename_i j hj
      exact .reduce h hj
    · rename_i hj
      exact .noGoto h hj
  · rename_i h
    split
    · rename_i hs
      exact .accept h hs
    · rename_i hs
      exact .noTree h hs
  · rename_i hshift hreduce haccept
    refine .noAction ?_
    cases h : action tbl c with
    | none => exact .inl rfl
    | some a =>
      cases a with
      | goTo j => exact .inr ⟨j, rfl⟩
      | shift j => exact absurd h (hshift j)
      | reduce x r m => exact absurd h (hreduce x r m)
      | accept => exact absurd h haccept

/-- The driver is deterministic. -/
lemma Runs.unique {Q : Config T → Prop} (h : Runs tbl P c o) (h' : Runs tbl Q c o') : o = o' := by
  induction h with
  | accept _ h =>
    cases h' with
    | accept _ h' => rw [h] at h'; injection h' with h'; rw [h']
    | reject _ h' => rw [h] at h'; cases h'
    | next _ h' _ => rw [h] at h'; cases h'
  | reject _ h =>
    cases h' with
    | accept _ h' => rw [h] at h'; cases h'
    | reject _ _ => rfl
    | next _ h' _ => rw [h] at h'; cases h'
  | next _ h _ ih =>
    cases h' with
    | accept _ h' => rw [h] at h'; cases h'
    | reject _ h' => rw [h] at h'; cases h'
    | next _ h' hr =>
      rw [h] at h'
      injection h' with h'
      exact ih (h' ▸ hr)

end Driver

end Hobbes.Parse
