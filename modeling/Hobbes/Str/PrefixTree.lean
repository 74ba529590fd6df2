import Mathlib.Data.Int.Notation
import Mathlib.Data.List.Basic
import Mathlib.Tactic.Common

/-!
# Prefix trees

A set of words as the tree of their prefixes, and the search for the words that are near to a string. The children of a
node are ordered by their characters, that are signed. A node is known by the prefix that leads to it.
-/

namespace Hobbes.Str

abbrev Word := List UInt8

structure PtNode where
  terminal : Bool
  children : List (UInt8 × PtNode)

namespace PtNode

def empty : PtNode := ⟨false, []⟩

/-- Change the child for a character, or a new one if there is none. -/
def modifyChild (c : UInt8) (f : PtNode → PtNode) : List (UInt8 × PtNode) → List (UInt8 × PtNode)
  | [] => [(c, f empty)]
  | (d, n) :: cs =>
    if c = d then (d, f n) :: cs
    else if c.toInt8 < d.toInt8 then (c, f empty) :: (d, n) :: cs
    else (d, n) :: modifyChild c f cs

def insert : Word → PtNode → PtNode
  | [], n => { n with terminal := true }
  | c :: x, n => { n with children := modifyChild c (insert x) n.children }

def ofWords (ws : List Word) : PtNode := ws.foldl (fun n x => n.insert x) empty

end PtNode

/-! ### The words of a tree -/

namespace PtNode

def child (c : UInt8) : List (UInt8 × PtNode) → Option PtNode
  | [] => none
  | (d, n) :: cs => if c = d then some n else child c cs

def Has : Word → PtNode → Prop
  | [], n => n.terminal
  | c :: w, n => ∃ m, child c n.children = some m ∧ Has w m

/-- At each node the characters of the children ascend. -/
inductive Ordered : PtNode → Prop
  | mk {n : PtNode} (hkeys : (n.children.map Prod.fst).Pairwise fun c d => c.toInt8 < d.toInt8)
      (hchildren : ∀ p ∈ n.children, Ordered p.2) : Ordered n

lemma Ordered.keys {n : PtNode} (h : Ordered n) :
    (n.children.map Prod.fst).Pairwise fun c d => c.toInt8 < d.toInt8 := by
  obtain ⟨hkeys, _⟩ := h
  exact hkeys

lemma Ordered.children {n : PtNode} (h : Ordered n) : ∀ p ∈ n.children, Ordered p.2 := by
  obtain ⟨_, hchildren⟩ := h
  exact hchildren

lemma ne_of_toInt8_lt {c d : UInt8} (h : c.toInt8 < d.toInt8) : c ≠ d := by
  rintro rfl
  exact Int8.lt_irrefl h

lemma toInt8_lt_of_not_lt {c d : UInt8} (hne : c ≠ d) (h : ¬ c.toInt8 < d.toInt8) : d.toInt8 < c.toInt8 := by
  refine Int8.not_le.mp fun hle => ?_
  rcases Int8.le_iff_lt_or_eq.mp hle with hlt | heq
  · exact h hlt
  · exact hne (by rw [← UInt8.toUInt8_toInt8 c, heq, UInt8.toUInt8_toInt8])

lemma child_eq_none {c : UInt8} {cs : List (UInt8 × PtNode)} (h : c ∉ cs.map Prod.fst) : child c cs = none := by
  induction cs with
  | nil => rfl
  | cons p cs ih =>
    rw [List.map_cons, List.mem_cons, not_or] at h
    rw [child, if_neg h.1, ih h.2]

lemma mem_of_child {c : UInt8} {m : PtNode} {cs : List (UInt8 × PtNode)} (h : child c cs = some m) :
    (c, m) ∈ cs := by
  induction cs with
  | nil => exact absurd h (by simp [child])
  | cons p cs ih =>
    rw [child] at h
    split_ifs at h with hc
    · cases h
      exact List.mem_cons.mpr (.inl (by rw [hc]))
    · exact List.mem_cons_of_mem _ (ih h)

/-- The other children stay as they are. -/
lemma child_modifyChild {c : UInt8} {f : PtNode → PtNode} {cs : List (UInt8 × PtNode)} (d : UInt8)
    (hcs : (cs.map Prod.fst).Pairwise fun c d => c.toInt8 < d.toInt8) :
    child d (modifyChild c f cs) = if d = c then some (f ((child c cs).getD empty)) else child d cs := by
  induction cs with
  | nil =>
    rw [modifyChild, child, child, child]
    rfl
  | cons p cs ih =>
    obtain ⟨e, n⟩ := p
    rw [List.map_cons, List.pairwise_cons] at hcs
    rw [modifyChild]
    by_cases hce : c = e
    · subst hce
      rw [if_pos rfl, child, child, child, if_pos rfl]
      split_ifs <;> rfl
    by_cases hlt : c.toInt8 < e.toInt8
    · -- a new child comes first, and none of those behind it has its character
      have hnot : c ∉ ((e, n) :: cs).map Prod.fst := fun hmem => by
        rcases List.mem_cons.mp hmem with h | h
        · exact hce h
        · exact ne_of_toInt8_lt (Int8.lt_trans hlt (hcs.1 c h)) rfl
      rw [if_neg hce, if_pos hlt, child, child_eq_none hnot]
      rfl
    · rw [if_neg hce, if_neg hlt, child, ih hcs.2, child, child, if_neg hce]
      split_ifs with hde hdc
      · exact absurd (hdc.symm.trans hde) hce
      · rfl
      · rfl
      · rfl

lemma map_fst_modifyChild {c : UInt8} {f : PtNode → PtNode} {cs : List (UInt8 × PtNode)} {d : UInt8}
    (h : d ∈ (modifyChild c f cs).map Prod.fst) : d = c ∨ d ∈ cs.map Prod.fst := by
  induction cs with
  | nil => exact .inl (List.mem_singleton.mp h)
  | cons p cs ih =>
    obtain ⟨e, n⟩ := p
    rw [modifyChild] at h
    split_ifs at h
    · exact .inr h
    · exact List.mem_cons.mp h
    · rcases List.mem_cons.mp h with h | h
      · exact .inr (List.mem_cons.mpr (.inl h))
      · exact (ih h).imp_right (List.mem_cons_of_mem _)

lemma pairwise_modifyChild {c : UInt8} {f : PtNode → PtNode} {cs : List (UInt8 × PtNode)}
    (h : (cs.map Prod.fst).Pairwise fun c d => c.toInt8 < d.toInt8) :
    ((modifyChild c f cs).map Prod.fst).Pairwise fun c d => c.toInt8 < d.toInt8 := by
  induction cs with
  | nil => exact List.pairwise_singleton _ _
  | cons p cs ih =>
    obtain ⟨e, n⟩ := p
    rw [List.map_cons, List.pairwise_cons] at h
    rw [modifyChild]
    split_ifs with hce hlt
    · exact List.pairwise_cons.mpr h
    · refine List.pairwise_cons.mpr ⟨fun d hd => ?_, List.pairwise_cons.mpr h⟩
      rcases List.mem_cons.mp hd with rfl | hd
      · exact hlt
      · exact Int8.lt_trans hlt (h.1 d hd)
    · refine List.pairwise_cons.mpr ⟨fun d hd => ?_, ih h.2⟩
      rcases map_fst_modifyChild hd with rfl | hd
      · exact toInt8_lt_of_not_lt hce hlt
      · exact h.1 d hd

lemma forall_modifyChild {P : PtNode → Prop} {c : UInt8} {f : PtNode → PtNode} {cs : List (UInt8 × PtNode)}
    (h : ∀ p ∈ cs, P p.2) (hf : ∀ n, P n → P (f n)) (hempty : P empty) : ∀ p ∈ modifyChild c f cs, P p.2 := by
  induction cs with
  | nil =>
    intro p hp
    rw [List.mem_singleton.mp hp]
    exact hf _ hempty
  | cons q cs ih =>
    obtain ⟨e, n⟩ := q
    rw [List.forall_mem_cons] at h
    rw [modifyChild]
    split_ifs
    · exact List.forall_mem_cons.mpr ⟨hf n h.1, h.2⟩
    · exact List.forall_mem_cons.mpr ⟨hf _ hempty, List.forall_mem_cons.mpr h⟩
    · exact List.forall_mem_cons.mpr ⟨h.1, ih h.2⟩

lemma ordered_empty : Ordered empty := .mk .nil fun _ hp => absurd hp List.not_mem_nil

lemma Ordered.insert {n : PtNode} (h : Ordered n) (x : Word) : Ordered (n.insert x) := by
  induction x generalizing n with
  | nil => exact .mk h.keys h.children
  | cons c x ih =>
    exact .mk (pairwise_modifyChild h.keys) (forall_modifyChild h.children (fun _ hn => ih hn) ordered_empty)

lemma not_has_empty (w : Word) : ¬ Has w empty := by
  cases w with
  | nil => exact Bool.false_ne_true
  | cons c w => exact fun ⟨m, hm, _⟩ => nomatch hm

lemma has_getD {c : UInt8} {w : Word} {cs : List (UInt8 × PtNode)} :
    Has w ((child c cs).getD empty) ↔ ∃ m, child c cs = some m ∧ Has w m := by
  cases child c cs with
  | none => exact ⟨fun h => absurd h (not_has_empty w), fun ⟨m, hm, _⟩ => nomatch hm⟩
  | some n => exact ⟨fun h => ⟨n, rfl, h⟩, fun ⟨m, hm, h⟩ => Option.some.inj hm ▸ h⟩

/-- A word is added, and nothing else. -/
lemma has_insert {n : PtNode} (h : Ordered n) (x w : Word) : Has w (n.insert x) ↔ w = x ∨ Has w n := by
  induction x generalizing n w with
  | nil =>
    cases w with
    | nil => simp [Has, PtNode.insert]
    | cons c w => simp [Has, PtNode.insert]
  | cons c x ih =>
    cases w with
    | nil => simp [Has, PtNode.insert]
    | cons d w =>
      have hchild : Ordered ((child c n.children).getD empty) := by
        cases hm : child c n.children with
        | none => exact ordered_empty
        | some m => exact h.children (c, m) (mem_of_child hm)
      rw [Has, PtNode.insert, child_modifyChild d h.keys]
      split_ifs with hdc
      · subst hdc
        simp only [Option.some.injEq, exists_eq_left', ih hchild, has_getD, List.cons.injEq, true_and, Has]
      · simp [Has, hdc]

lemma ordered_ofWords (ws : List Word) : Ordered (ofWords ws) :=
  List.foldlRecOn ws _ ordered_empty fun _ h x _ => h.insert x

lemma has_ofWords (ws : List Word) (w : Word) : Has w (ofWords ws) ↔ w ∈ ws := by
  suffices h : ∀ n, Ordered n → (Has w (ws.foldl (fun n x => n.insert x) n) ↔ w ∈ ws ∨ Has w n) by
    rw [ofWords, h empty ordered_empty, or_iff_left (not_has_empty w)]
  induction ws with
  | nil => exact fun n _ => (or_iff_right List.not_mem_nil).symm
  | cons x ws ih =>
    intro n hn
    rw [List.foldl_cons, ih _ (hn.insert x), has_insert hn, List.mem_cons]
    tauto

end PtNode

/-! ### The search -/

/-- The words by their distances, and the words whose nodes have been recorded. -/
structure Found where
  ranks : List (ℕ × List Word)
  inserted : List Word

/-- `(*r)[k].push_back(w)`. -/
def pushRank (k : ℕ) (w : Word) : List (ℕ × List Word) → List (ℕ × List Word)
  | [] => [(k, [w])]
  | (j, ws) :: r =>
    if k = j then (j, ws ++ [w]) :: r
    else if k < j then (k, [w]) :: (j, ws) :: r
    else (j, ws) :: pushRank k w r

local instance : LawfulBEq Word := inferInstance

def Found.record (s : Found) (w : Word) (k : ℕ) : Found :=
  if w ∈ s.inserted then s else ⟨pushRank k w s.ranks, w :: s.inserted⟩

/-- The edits for a word that ends here. Where deletions have gone past the end of `x` the difference of the unsigned
numbers wraps around, and so does the sum: the deletions that were too many are taken off again. -/
def totalEdits (x : Word) (xi edits : ℕ) : ℕ := (edits + (x.length - xi : ℤ)).toNat

lemma lex_of_le {a b c d : ℕ} (h : a ≤ b) (h' : c < d) : Prod.Lex (· < ·) (· < ·) (a, c) (b, d) :=
  (Nat.eq_or_lt_of_le h).elim (fun h => h ▸ .right _ h') fun h => .left _ _ h

namespace PtNode

mutual

def findRankedMatches (x : Word) (maxDist : ℕ) (n : PtNode) (pfx : Word) (xi edits : ℕ) (s : Found) : Found :=
  match n with
  | ⟨terminal, children⟩ =>
    if maxDist ≤ edits then s
    else
      let s := if terminal ∧ totalEdits x xi edits < maxDist then s.record pfx (totalEdits x xi edits) else s
      let s := findInChildren x maxDist children pfx xi edits s
      -- also try to delete a character
      findRankedMatches x maxDist ⟨terminal, children⟩ pfx (xi + 1) (edits + 1) s
termination_by (maxDist - edits, sizeOf n)

/-- A child is tried with its character matched or replaced, and with it inserted. -/
def findInChildren (x : Word) (maxDist : ℕ) (children : List (UInt8 × PtNode)) (pfx : Word) (xi edits : ℕ) (s : Found) :
    Found :=
  match children with
  | [] => s
  | (c, n) :: children =>
    let s := match x[xi]? with
      | none => s
      | some a =>
        if a = c then findRankedMatches x maxDist n (pfx ++ [c]) (xi + 1) edits s
        else findRankedMatches x maxDist n (pfx ++ [c]) (xi + 1) (edits + 1) s
    let s := findRankedMatches x maxDist n (pfx ++ [c]) xi (edits + 1) s
    findInChildren x maxDist children pfx xi edits s
termination_by (maxDist - edits, sizeOf children)
decreasing_by all_goals exact lex_of_le (by omega) (by simp only [List.cons.sizeOf_spec, Prod.mk.sizeOf_spec]; omega)

end

def rankedMatches (n : PtNode) (x : Word) (maxDist : ℕ) : List (ℕ × List Word) :=
  (n.findRankedMatches x maxDist [] 0 0 ⟨[], []⟩).ranks

def closestMatches (n : PtNode) (x : Word) (maxDist : ℕ) : List Word :=
  (n.rankedMatches x maxDist).flatMap Prod.snd

end PtNode

def rankedMatches (ws : List Word) (x : Word) (maxDist : ℕ) : List (ℕ × List Word) :=
  (PtNode.ofWords ws).rankedMatches x maxDist

def closestMatches (x : Word) (ws : List Word) (maxDist : ℕ) : List Word :=
  (PtNode.ofWords ws).closestMatches x maxDist

def editDistance (x y : Word) : ℕ :=
  match rankedMatches [y] x (max x.length y.length) with
  | (k, _) :: _ => k
  | [] => max x.length y.length

end Hobbes.Str
