import Hobbes.Core.Lists
import Hobbes.Core.Saturation

/-!
# Grammars

A grammar maps a symbol to its rules; a symbol without rules is a terminal. The symbols of the
caller are of a type `T`. The end of the input and the symbol of the boot rule are added to them,
so that no rule of the caller has them. Symbols are ordered by their addresses, and nothing is
known of this order.
-/

namespace Hobbes.Parse

open Core

inductive Terminal (T : Type) where
  | user (t : T)
  | endOfFile
  | privstart

abbrev Rule (α : Type) := List α

abbrev Grammar (α : Type) := List (α × List (Rule α))

section

variable {α : Type} [DecidableEq α]

def hasRule (g : Grammar α) (t : α) : Bool := (g.lookup t).isSome

def aggRules (g : Grammar α) (t : α) : Option (List (Rule α)) := g.lookup t

def nthRule (rs : List (Rule α)) (n : ℕ) : Option (Rule α) := rs[n]?

def ruleElement (r : Rule α) (i : ℕ) : Option α := r[i]?

/-- `nthRule(aggRules(g, t), n)`. -/
def ruleOf (g : Grammar α) (t : α) (n : ℕ) : Option (Rule α) := (aggRules g t).bind (nthRule · n)

def derivesNull (nullAggs : List α) (r : Rule α) : Bool := r.all (· ∈ nullAggs)

/-- One round of `symbolsDerivingNull`. -/
def nullRound (r : α → α → Prop) [DecidableRel r] (g : Grammar α) (nulls : List α) : List α :=
  g.foldl (fun nulls x =>
    if ((aggRules g x.1).getD []).any (derivesNull nulls) then insertOrd r x.1 nulls else nulls) nulls

/-- The symbols that derive the empty string. -/
def symbolsDerivingNull (n : ℕ) (r : α → α → Prop) [DecidableRel r] (g : Grammar α) :
    Option (List α) :=
  fixpoint (nullRound r g) n []

variable {g : Grammar α} {t : α} {n : ℕ} {rl : Rule α}

lemma ruleOf_eq_some : ruleOf g t n = some rl ↔ ∃ rs, g.lookup t = some rs ∧ rs[n]? = some rl :=
  Option.bind_eq_some_iff

lemma hasRule_of_ruleOf (h : ruleOf g t n = some rl) : hasRule g t = true := by
  obtain ⟨rs, hrs, -⟩ := ruleOf_eq_some.mp h
  simp [hasRule, hrs]

end

/-! ### Parse trees -/

inductive Tree (α : Type) where
  | leaf (t : α)
  | node (x : α) (r : ℕ) (ts : List (Tree α))

namespace Tree

variable {α : Type}

def root : Tree α → α
  | leaf t => t
  | node x _ _ => x

mutual

/-- The leaves from left to right. -/
def yield : Tree α → List α
  | leaf t => [t]
  | node _ _ ts => yields ts

def yields : List (Tree α) → List α
  | [] => []
  | t :: ts => t.yield ++ yields ts

end

/-- Every node is labelled by a rule of the grammar, and every leaf by a terminal. -/
inductive Valid [DecidableEq α] (g : Grammar α) : Tree α → Prop where
  | leaf {t : α} (h : hasRule g t = false) : Valid g (leaf t)
  | node {x : α} {r : ℕ} {ts : List (Tree α)} (hr : ruleOf g x r = some (ts.map root))
      (hts : ∀ t ∈ ts, Valid g t) : Valid g (node x r ts)

end Tree

end Hobbes.Parse
