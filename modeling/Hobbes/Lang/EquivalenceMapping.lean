import Mathlib.Data.List.AList
import Mathlib.Tactic.Common

/-!
# Union-find

The nodes of a mapping are kept by their keys, and a node points at its representative by its key. Looking for a
representative follows the pointers to their end, as far as there is fuel, and lets every node on the way point there.
-/

namespace Hobbes

structure Eqsetmem (K V : Type*) where
  value : V
  rank : ℕ
  representative : K

/-- Where a hash map's order matters, it is given. -/
abbrev EqNodes (K V : Type*) := AList fun _ : K => Eqsetmem K V

structure EquivalenceMapping (K V : Type*) where
  eqsz : ℕ
  nodes : EqNodes K V

namespace EquivalenceMapping

variable {K V : Type*} [DecidableEq K]

def empty : EquivalenceMapping K V := ⟨0, ∅⟩

def size (m : EquivalenceMapping K V) : ℕ := m.eqsz

def findRepresentative : ℕ → EqNodes K V → K → Option (EqNodes K V × K)
  | 0, _, _ => none
  | fuel + 1, nodes, k =>
    (nodes.lookup k).bind fun n =>
      if k = n.representative then some (nodes, k)
      else
        (findRepresentative fuel nodes n.representative).bind fun p =>
          (p.1.lookup k).map fun n' => (p.1.insert k { n' with representative := p.2 }, p.2)

variable (lift : K → V)

def findNode (m : EquivalenceMapping K V) (k : K) : Option (EquivalenceMapping K V × K) :=
  if k ∈ m.nodes then
    (findRepresentative (m.nodes.keys.length + 1) m.nodes k).map fun p => ({ m with nodes := p.1 }, p.2)
  else some ({ m with nodes := m.nodes.insert k ⟨lift k, 0, k⟩ }, k)

/-- The representative's value. -/
def find (m : EquivalenceMapping K V) (k : K) : Option (EquivalenceMapping K V × V) :=
  (findNode lift m k).bind fun p => (p.1.nodes.lookup p.2).map fun n => (p.1, n.value)

/-- The key of what `findNode` finds. -/
def representative (m : EquivalenceMapping K V) (k : K) : Option K := (findNode lift m k).map Prod.snd

variable [Add V]

/-- What `join` does with the two nodes it has found. -/
def joinNodes (m : EquivalenceMapping K V) (l r : K) (lhs rhs : Eqsetmem K V) : EquivalenceMapping K V :=
  if lhs.rank < rhs.rank then
    ⟨m.eqsz + 1, (m.nodes.insert l { lhs with representative := r }).insert r
      { rhs with value := rhs.value + lhs.value }⟩
  else if rhs.rank < lhs.rank then
    ⟨m.eqsz + 1, (m.nodes.insert r { rhs with representative := l }).insert l
      { lhs with value := lhs.value + rhs.value }⟩
  else if l = r then m
  else
    ⟨m.eqsz + 1, (m.nodes.insert r { rhs with representative := l }).insert l
      { lhs with rank := lhs.rank + 1, value := lhs.value + rhs.value }⟩

def join (m : EquivalenceMapping K V) (k0 k1 : K) : Option (EquivalenceMapping K V) :=
  (findNode lift m k0).bind fun p0 =>
    (findNode lift p0.1 k1).bind fun p1 =>
      (p1.1.nodes.lookup p0.2).bind fun lhs =>
        (p1.1.nodes.lookup p1.2).map fun rhs => joinNodes p1.1 p0.2 p1.2 lhs rhs

/-! ### Several mappings -/

variable {ι : Type*} [DecidableEq ι]

/-- The mappings that there are, by their places. -/
abbrev Pool (ι K V : Type*) := ι → EquivalenceMapping K V

/-- The nodes of another mapping that are new here. -/
def addNodes (m : EquivalenceMapping K V) (ks : List K) : EquivalenceMapping K V :=
  ks.foldl (fun m k => if k ∈ m.nodes then m else { m with nodes := m.nodes.insert k ⟨lift k, 0, k⟩ }) m

/-- The other mapping's classes are joined key by key. Its paths are compressed by that. -/
def replay (i j : ι) : List K → Pool ι K V → Option (Pool ι K V)
  | [], ms => some ms
  | k :: ks, ms =>
    (findRepresentative ((ms j).nodes.keys.length + 1) (ms j).nodes k).bind fun p =>
      let ms := Function.update ms j { ms j with nodes := p.1 }
      if k ≠ p.2 then (join lift (ms i) k p.2).bind fun m => replay i j ks (Function.update ms i m)
      else replay i j ks ms

/-- The mapping at `j` is merged into that at `i`. The keys at `j` come in the order `ks`. -/
def merge (i j : ι) (ks : List K) (ms : Pool ι K V) : Option (Pool ι K V × ℕ) :=
  (replay lift i j ks (Function.update ms i (addNodes lift (ms i) ks))).map fun ms' =>
    (ms', (ms' i).eqsz - (ms i).eqsz)

inductive Op (ι K : Type*) where
  | find (i : ι) (k : K)
  | join (i : ι) (k0 k1 : K)
  | merge (i j : ι) (ks : List K)

namespace Op

/-- The order in which a merge meets the keys is one that they can be in. -/
def Orders (ms : Pool ι K V) : Op ι K → Prop
  | merge _ j ks => ks.Perm (ms j).nodes.keys
  | _ => True

def step (ms : Pool ι K V) : Op ι K → Option (Pool ι K V)
  | find i k => (EquivalenceMapping.find lift (ms i) k).map fun p => Function.update ms i p.1
  | join i k0 k1 => (EquivalenceMapping.join lift (ms i) k0 k1).map (Function.update ms i)
  | merge i j ks => (EquivalenceMapping.merge lift i j ks ms).map Prod.fst

/-- The joins that have been performed on each mapping, with those of the mappings merged in. -/
def joins (js : ι → List (K × K)) : Op ι K → ι → List (K × K)
  | find _ _ => js
  | join i k0 k1 => Function.update js i (js i ++ [(k0, k1)])
  | merge i j _ => Function.update js i (js i ++ js j)

end Op

/-- The states that operations lead to, with the joins performed. -/
inductive Reached : Pool ι K V → (ι → List (K × K)) → Prop where
  | init : Reached (fun _ => empty) fun _ => []
  | step {ms ms' : Pool ι K V} {js : ι → List (K × K)} (h : Reached ms js) {op : Op ι K} (hop : op.Orders ms)
      (hs : op.step lift ms = some ms') : Reached ms' (op.joins js)

end EquivalenceMapping

end Hobbes
