import Hobbes.Core.EditDistance
import Hobbes.Core.Lists
import Hobbes.Str.PrefixTree

/-!
# The distances that a search records

A word is recorded under the distance of the first way the search comes to it, whatever comes later. Which ways there
are to a word depends on this word only, and not on the tree it is in.
-/

namespace Hobbes.Str

open Core

/-! ### Words and their ranks -/

/-- `w` is listed under `k`. -/
def Lists (r : List (ℕ × List Word)) (k : ℕ) (w : Word) : Prop := ∃ ws, (k, ws) ∈ r ∧ w ∈ ws

lemma not_lists_nil (k : ℕ) (w : Word) : ¬ Lists [] k w := fun ⟨_, h, _⟩ => List.not_mem_nil h

lemma lists_cons {j k : ℕ} {w : Word} {ws : List Word} {r : List (ℕ × List Word)} :
    Lists ((j, ws) :: r) k w ↔ k = j ∧ w ∈ ws ∨ Lists r k w := by
  simp only [Lists, List.mem_cons, Prod.mk.injEq]
  constructor
  · rintro ⟨vs, ⟨rfl, rfl⟩ | h, hw⟩
    · exact .inl ⟨rfl, hw⟩
    · exact .inr ⟨vs, h, hw⟩
  · rintro (⟨rfl, hw⟩ | ⟨vs, h, hw⟩)
    · exact ⟨ws, .inl ⟨rfl, rfl⟩, hw⟩
    · exact ⟨vs, .inr h, hw⟩

lemma lists_pushRank {i k : ℕ} {v w : Word} {r : List (ℕ × List Word)} :
    Lists (pushRank k w r) i v ↔ Lists r i v ∨ i = k ∧ v = w := by
  induction r with
  | nil => simp [pushRank, lists_cons, not_lists_nil]
  | cons p r ih =>
    obtain ⟨j, ws⟩ := p
    rw [pushRank]
    split_ifs with hkj hlt
    · rw [lists_cons, lists_cons, List.mem_append, List.mem_singleton, hkj]
      tauto
    · rw [lists_cons, List.mem_singleton]
      tauto
    · rw [lists_cons, lists_cons, ih]
      tauto

lemma perm_pushRank (k : ℕ) (w : Word) (r : List (ℕ × List Word)) :
    ((pushRank k w r).flatMap Prod.snd).Perm (w :: r.flatMap Prod.snd) := by
  induction r with
  | nil => exact .refl _
  | cons p r ih =>
    obtain ⟨j, ws⟩ := p
    rw [pushRank]
    split_ifs
    · rw [List.flatMap_cons, List.flatMap_cons, List.append_assoc]
      exact List.perm_middle
    · rw [List.flatMap_cons]
      exact .refl _
    · rw [List.flatMap_cons, List.flatMap_cons]
      exact (ih.append_left ws).trans List.perm_middle

lemma mem_keys_pushRank {i k : ℕ} {w : Word} {r : List (ℕ × List Word)} (h : i ∈ (pushRank k w r).map Prod.fst) :
    i = k ∨ i ∈ r.map Prod.fst := by
  induction r with
  | nil => exact .inl (List.mem_singleton.mp h)
  | cons p r ih =>
    obtain ⟨j, ws⟩ := p
    rw [pushRank] at h
    split_ifs at h
    · exact .inr h
    · exact List.mem_cons.mp h
    · rcases List.mem_cons.mp h with h | h
      · exact .inr (List.mem_cons.mpr (.inl h))
      · exact (ih h).imp_right (List.mem_cons_of_mem _)

lemma pairwise_pushRank {k : ℕ} {w : Word} {r : List (ℕ × List Word)} (h : (r.map Prod.fst).Pairwise (· < ·)) :
    ((pushRank k w r).map Prod.fst).Pairwise (· < ·) := by
  induction r with
  | nil => exact List.pairwise_singleton _ _
  | cons p r ih =>
    obtain ⟨j, ws⟩ := p
    rw [List.map_cons, List.pairwise_cons] at h
    rw [pushRank]
    split_ifs with hkj hlt
    · exact List.pairwise_cons.mpr h
    · refine List.pairwise_cons.mpr ⟨fun i hi => ?_, List.pairwise_cons.mpr h⟩
      rcases List.mem_cons.mp hi with rfl | hi
      · exact hlt
      · exact hlt.trans (h.1 i hi)
    · refine List.pairwise_cons.mpr ⟨fun i hi => ?_, ih h.2⟩
      rcases mem_keys_pushRank hi with rfl | hi
      · exact lt_of_le_of_ne (not_lt.mp hlt) (Ne.symm hkj)
      · exact h.1 i hi

lemma ne_nil_of_mem_pushRank {k : ℕ} {w : Word} {r : List (ℕ × List Word)} (h : ∀ p ∈ r, p.2 ≠ []) :
    ∀ p ∈ pushRank k w r, p.2 ≠ [] := by
  induction r with
  | nil =>
    intro p hp
    rw [List.mem_singleton.mp hp]
    exact List.cons_ne_nil w []
  | cons q r ih =>
    obtain ⟨j, ws⟩ := q
    rw [List.forall_mem_cons] at h
    rw [pushRank]
    split_ifs
    · exact List.forall_mem_cons.mpr ⟨List.append_ne_nil_of_right_ne_nil ws (List.cons_ne_nil w []), h.2⟩
    · exact List.forall_mem_cons.mpr ⟨List.cons_ne_nil w [], List.forall_mem_cons.mpr h⟩
    · exact List.forall_mem_cons.mpr ⟨h.1, ih h.2⟩

namespace Found

structure Inv (s : Found) : Prop where
  inserted (w : Word) : w ∈ s.inserted ↔ ∃ k, Lists s.ranks k w
  nonempty : ∀ p ∈ s.ranks, p.2 ≠ []
  nodup : (s.ranks.flatMap Prod.snd).Nodup
  ascending : (s.ranks.map Prod.fst).Pairwise (· < ·)

lemma inv_empty : Inv ⟨[], []⟩ where
  inserted w := ⟨fun h => absurd h List.not_mem_nil, fun ⟨k, h⟩ => absurd h (not_lists_nil k w)⟩
  nonempty _ h := absurd h List.not_mem_nil
  nodup := .nil
  ascending := .nil

lemma mem_flatMap_iff {r : List (ℕ × List Word)} {w : Word} :
    w ∈ r.flatMap Prod.snd ↔ ∃ k, Lists r k w := by
  simp only [List.mem_flatMap, Prod.exists, Lists]

lemma Inv.record {s : Found} (h : Inv s) (w : Word) (k : ℕ) : Inv (s.record w k) := by
  rw [Found.record]
  split_ifs with hw
  · exact h
  · refine ⟨fun v => ?_, ne_nil_of_mem_pushRank h.nonempty, ?_, pairwise_pushRank h.ascending⟩
    · simp only [List.mem_cons, lists_pushRank, h.inserted v, exists_or, exists_and_right, exists_eq, true_and]
      exact or_comm
    · refine (perm_pushRank k w s.ranks).nodup_iff.mpr (List.nodup_cons.mpr ⟨fun hmem => hw ?_, h.nodup⟩)
      exact (h.inserted w).mpr (mem_flatMap_iff.mp hmem)

def recordAll (s : Found) (es : List (Word × ℕ)) : Found := es.foldl (fun s e => s.record e.1 e.2) s

lemma recordAll_append (s : Found) (es es' : List (Word × ℕ)) :
    s.recordAll (es ++ es') = (s.recordAll es).recordAll es' := List.foldl_append

end Found

/-- The distances of the ways to `w`. -/
def costsOf (w : Word) (es : List (Word × ℕ)) : List ℕ := es.filterMap fun e => if e.1 = w then some e.2 else none

lemma costsOf_append (w : Word) (es es' : List (Word × ℕ)) :
    costsOf w (es ++ es') = costsOf w es ++ costsOf w es' := List.filterMap_append

lemma costsOf_cons_self (w : Word) (k : ℕ) (es : List (Word × ℕ)) :
    costsOf w ((w, k) :: es) = k :: costsOf w es := by
  simp [costsOf]

lemma costsOf_cons_of_ne {v w : Word} (h : v ≠ w) (k : ℕ) (es : List (Word × ℕ)) :
    costsOf w ((v, k) :: es) = costsOf w es := by
  simp [costsOf, h]

lemma costsOf_eq_nil {w : Word} {es : List (Word × ℕ)} (h : ∀ e ∈ es, e.1 ≠ w) : costsOf w es = [] := by
  rw [costsOf, List.filterMap_eq_nil_iff]
  exact fun e he => if_neg (h e he)

lemma Found.Inv.recordAll {s : Found} (h : s.Inv) (es : List (Word × ℕ)) : (s.recordAll es).Inv :=
  List.foldlRecOn es _ h fun _ h e _ => h.record e.1 e.2

/-- A word that has not been listed before is listed under the first of its distances. -/
lemma Found.Inv.lists_recordAll {s : Found} (h : s.Inv) (es : List (Word × ℕ)) (k : ℕ) (w : Word) :
    Lists (s.recordAll es).ranks k w ↔ Lists s.ranks k w ∨ w ∉ s.inserted ∧ (costsOf w es).head? = some k := by
  induction es generalizing s with
  | nil => simp [Found.recordAll, costsOf]
  | cons e es ih =>
    obtain ⟨v, j⟩ := e
    rw [Found.recordAll, List.foldl_cons, ← Found.recordAll, ih (h.record v j), Found.record]
    by_cases hv : v ∈ s.inserted
    · rw [if_pos hv]
      by_cases hvw : v = w
      · simp [hvw ▸ hv]
      · rw [costsOf_cons_of_ne hvw]
    · rw [if_neg hv, lists_pushRank]
      by_cases hvw : v = w
      · subst hvw
        simp [hv, costsOf_cons_self, eq_comm]
      · have hwv : w ≠ v := Ne.symm hvw
        simp [costsOf_cons_of_ne hvw, hwv]

/-! ### The ways of a search -/

namespace PtNode

mutual

/-- The words the search comes to, and their distances, one after the other. -/
def visits (x : Word) (maxDist : ℕ) (n : PtNode) (pfx : Word) (xi edits : ℕ) : List (Word × ℕ) :=
  match n with
  | ⟨terminal, children⟩ =>
    if maxDist ≤ edits then []
    else
      (if terminal ∧ totalEdits x xi edits < maxDist then [(pfx, totalEdits x xi edits)] else []) ++
        (visitsInChildren x maxDist children pfx xi edits ++
          visits x maxDist ⟨terminal, children⟩ pfx (xi + 1) (edits + 1))
termination_by (maxDist - edits, sizeOf n)

def visitsInChildren (x : Word) (maxDist : ℕ) (children : List (UInt8 × PtNode)) (pfx : Word) (xi edits : ℕ) :
    List (Word × ℕ) :=
  match children with
  | [] => []
  | (c, n) :: children =>
    (match x[xi]? with
      | none => []
      | some a =>
        if a = c then visits x maxDist n (pfx ++ [c]) (xi + 1) edits
        else visits x maxDist n (pfx ++ [c]) (xi + 1) (edits + 1)) ++
      (visits x maxDist n (pfx ++ [c]) xi (edits + 1) ++ visitsInChildren x maxDist children pfx xi edits)
termination_by (maxDist - edits, sizeOf children)
decreasing_by all_goals exact lex_of_le (by omega) (by simp only [List.cons.sizeOf_spec, Prod.mk.sizeOf_spec]; omega)

end

mutual

/-- The search records them in this order. -/
lemma findRankedMatches_eq (x : Word) (maxDist : ℕ) (n : PtNode) (pfx : Word) (xi edits : ℕ) (s : Found) :
    n.findRankedMatches x maxDist pfx xi edits s = s.recordAll (n.visits x maxDist pfx xi edits) := by
  obtain ⟨terminal, children⟩ := n
  rw [findRankedMatches, visits]
  by_cases hedits : maxDist ≤ edits
  · rw [if_pos hedits, if_pos hedits]
    rfl
  rw [if_neg hedits, if_neg hedits, Found.recordAll_append, Found.recordAll_append]
  have hrecord : (if terminal ∧ totalEdits x xi edits < maxDist then s.record pfx (totalEdits x xi edits) else s) =
      s.recordAll (if terminal ∧ totalEdits x xi edits < maxDist then [(pfx, totalEdits x xi edits)] else []) := by
    split_ifs <;> rfl
  rw [hrecord, ← findInChildren_eq x maxDist children, ← findRankedMatches_eq x maxDist ⟨terminal, children⟩]
termination_by (maxDist - edits, sizeOf n)

lemma findInChildren_eq (x : Word) (maxDist : ℕ) (children : List (UInt8 × PtNode)) (pfx : Word) (xi edits : ℕ)
    (s : Found) : findInChildren x maxDist children pfx xi edits s =
      s.recordAll (visitsInChildren x maxDist children pfx xi edits) := by
  match children with
  | [] =>
    rw [findInChildren, visitsInChildren]
    rfl
  | (c, n) :: children =>
    rw [findInChildren, visitsInChildren, Found.recordAll_append, Found.recordAll_append,
      ← findInChildren_eq x maxDist children, ← findRankedMatches_eq x maxDist n]
    cases x[xi]? with
    | none => rfl
    | some a =>
      dsimp only
      split_ifs <;> rw [← findRankedMatches_eq x maxDist n]
termination_by (maxDist - edits, sizeOf children)
decreasing_by all_goals exact lex_of_le (by omega) (by simp only [List.cons.sizeOf_spec, Prod.mk.sizeOf_spec]; omega)

end

/-! ### The ways to one word -/

/-- What the search comes to by one child. -/
def visitsByChild (x : Word) (maxDist : ℕ) (pfx : Word) (xi edits : ℕ) (p : UInt8 × PtNode) : List (Word × ℕ) :=
  (match x[xi]? with
    | none => []
    | some a => p.2.visits x maxDist (pfx ++ [p.1]) (xi + 1) (if a = p.1 then edits else edits + 1)) ++
    p.2.visits x maxDist (pfx ++ [p.1]) xi (edits + 1)

lemma visitsInChildren_eq (x : Word) (maxDist : ℕ) (children : List (UInt8 × PtNode)) (pfx : Word) (xi edits : ℕ) :
    visitsInChildren x maxDist children pfx xi edits = children.flatMap (visitsByChild x maxDist pfx xi edits) := by
  induction children with
  | nil =>
    rw [visitsInChildren]
    rfl
  | cons p children ih =>
    obtain ⟨c, n⟩ := p
    rw [visitsInChildren, ih, List.flatMap_cons, visitsByChild, List.append_assoc]
    cases x[xi]? with
    | none => rfl
    | some a =>
      dsimp only
      split_ifs <;> rfl

lemma visits_of_le {maxDist edits : ℕ} (h : maxDist ≤ edits) (x : Word) (n : PtNode) (pfx : Word) (xi : ℕ) :
    n.visits x maxDist pfx xi edits = [] := by
  obtain ⟨terminal, children⟩ := n
  rw [visits, if_pos h]

lemma visits_of_lt {maxDist edits : ℕ} (h : edits < maxDist) (x : Word) (n : PtNode) (pfx : Word) (xi : ℕ) :
    n.visits x maxDist pfx xi edits =
      (if n.terminal ∧ totalEdits x xi edits < maxDist then [(pfx, totalEdits x xi edits)] else []) ++
        (n.children.flatMap (visitsByChild x maxDist pfx xi edits) ++
          n.visits x maxDist pfx (xi + 1) (edits + 1)) := by
  obtain ⟨terminal, children⟩ := n
  rw [visits, if_neg (not_le.mpr h), visitsInChildren_eq]

lemma sizeOf_lt_of_mem {n : PtNode} {p : UInt8 × PtNode} (h : p ∈ n.children) : sizeOf p.2 < sizeOf n := by
  obtain ⟨terminal, children⟩ := n
  obtain ⟨c, m⟩ := p
  have hlt := List.sizeOf_lt_of_mem h
  rw [Prod.mk.sizeOf_spec] at hlt
  rw [PtNode.mk.sizeOf_spec]
  dsimp only at hlt ⊢
  omega

lemma mem_visitsByChild {x : Word} {maxDist : ℕ} {pfx : Word} {xi edits : ℕ} {p : UInt8 × PtNode} {e : Word × ℕ}
    (h : e ∈ visitsByChild x maxDist pfx xi edits p) :
    ∃ xi' edits', edits ≤ edits' ∧ e ∈ p.2.visits x maxDist (pfx ++ [p.1]) xi' edits' := by
  rcases List.mem_append.mp h with h | h
  · cases hx : x[xi]? with
    | none =>
      rw [hx] at h
      exact absurd h List.not_mem_nil
    | some a =>
      rw [hx] at h
      exact ⟨_, _, by split_ifs <;> omega, h⟩
  · exact ⟨_, _, Nat.le_succ edits, h⟩

/-- Only words below a node are found from it. -/
lemma prefix_of_mem_visits {x : Word} {maxDist : ℕ} (n : PtNode) (pfx : Word) (xi edits : ℕ) :
    ∀ e ∈ n.visits x maxDist pfx xi edits, pfx <+: e.1 := by
  intro e he
  rcases Nat.lt_or_ge edits maxDist with hlt | hle
  · rw [visits_of_lt hlt, List.mem_append, List.mem_append] at he
    rcases he with he | he | he
    · split_ifs at he
      · obtain rfl := List.mem_singleton.mp he
        exact List.prefix_rfl
      · exact absurd he List.not_mem_nil
    · obtain ⟨p, hp, he⟩ := List.mem_flatMap.mp he
      obtain ⟨xi', edits', hedits, he⟩ := mem_visitsByChild he
      have hsize := sizeOf_lt_of_mem hp
      exact (List.prefix_append pfx [p.1]).trans (prefix_of_mem_visits p.2 (pfx ++ [p.1]) xi' edits' e he)
    · exact prefix_of_mem_visits n pfx (xi + 1) (edits + 1) e he
  · rw [visits_of_le hle] at he
    exact absurd he List.not_mem_nil
termination_by (maxDist - edits, sizeOf n)
decreasing_by
  · exact lex_of_le (by omega) hsize
  · exact .left _ _ (by omega)

lemma prefix_of_mem_visitsByChild {x : Word} {maxDist : ℕ} {pfx : Word} {xi edits : ℕ} {p : UInt8 × PtNode}
    {e : Word × ℕ} (h : e ∈ visitsByChild x maxDist pfx xi edits p) : pfx ++ [p.1] <+: e.1 := by
  obtain ⟨xi', edits', _, h⟩ := mem_visitsByChild h
  exact prefix_of_mem_visits p.2 (pfx ++ [p.1]) xi' edits' e h

lemma eq_of_prefix_of_mem {pfx w v : Word} {c d : UInt8} (h : pfx ++ [d] <+: v) (hv : v = pfx ++ c :: w) : d = c := by
  obtain ⟨u, rfl⟩ := h
  rw [List.append_assoc, List.append_cancel_left_eq, List.singleton_append, List.cons.injEq] at hv
  exact hv.1

/-- The ways to a word are those by the child for its first character. -/
lemma costsOf_flatMap {x : Word} {maxDist : ℕ} {pfx : Word} {xi edits : ℕ} {cs : List (UInt8 × PtNode)} (c : UInt8)
    (w : Word) (h : (cs.map Prod.fst).Pairwise fun c d => c.toInt8 < d.toInt8) :
    costsOf (pfx ++ c :: w) (cs.flatMap (visitsByChild x maxDist pfx xi edits)) =
      match child c cs with
      | none => []
      | some m => costsOf (pfx ++ c :: w) (visitsByChild x maxDist pfx xi edits (c, m)) := by
  have hne {d : UInt8} (hd : d ≠ c) (m : PtNode) :
      costsOf (pfx ++ c :: w) (visitsByChild x maxDist pfx xi edits (d, m)) = [] :=
    costsOf_eq_nil fun e he hw => hd (eq_of_prefix_of_mem (prefix_of_mem_visitsByChild he) hw)
  induction cs with
  | nil => rfl
  | cons p cs ih =>
    obtain ⟨d, m⟩ := p
    rw [List.map_cons, List.pairwise_cons] at h
    rw [List.flatMap_cons, costsOf_append, child, ih h.2]
    by_cases hcd : c = d
    · subst hcd
      have hnot : c ∉ cs.map Prod.fst := fun hmem => Int8.lt_irrefl (h.1 c hmem)
      rw [if_pos rfl, child_eq_none hnot, List.append_nil]
    · rw [if_neg hcd, hne (Ne.symm hcd), List.nil_append]

/-- From a node that is not at the end of a word all the ways go by its children. -/
lemma costsOf_flatMap_self {x : Word} {maxDist : ℕ} {pfx : Word} {xi edits : ℕ} (cs : List (UInt8 × PtNode)) :
    costsOf pfx (cs.flatMap (visitsByChild x maxDist pfx xi edits)) = [] := by
  refine costsOf_eq_nil fun e he hw => ?_
  obtain ⟨p, _, he⟩ := List.mem_flatMap.mp he
  have hle := (prefix_of_mem_visitsByChild he).length_le
  rw [hw, List.length_append, List.length_singleton] at hle
  omega

end PtNode

/-- The distances of the ways to a word, whatever the tree it is in. -/
def waysTo (x : Word) (maxDist : ℕ) (w : Word) (xi edits : ℕ) : List ℕ :=
  if maxDist ≤ edits then []
  else
    (match w with
      | [] => if totalEdits x xi edits < maxDist then [totalEdits x xi edits] else []
      | c :: w =>
        (match x[xi]? with
          | none => []
          | some a => waysTo x maxDist w (xi + 1) (if a = c then edits else edits + 1)) ++
          waysTo x maxDist w xi (edits + 1)) ++
      waysTo x maxDist w (xi + 1) (edits + 1)
termination_by (maxDist - edits, w.length)
decreasing_by
  · exact lex_of_le (by split_ifs <;> omega) (by simp)
  · exact .left _ _ (by omega)
  · exact .left _ _ (by omega)

lemma waysTo_of_le {maxDist edits : ℕ} (h : maxDist ≤ edits) (x w : Word) (xi : ℕ) :
    waysTo x maxDist w xi edits = [] := by
  rw [waysTo.eq_def, if_pos h]

lemma waysTo_nil {maxDist edits : ℕ} (h : edits < maxDist) (x : Word) (xi : ℕ) : waysTo x maxDist [] xi edits =
    (if totalEdits x xi edits < maxDist then [totalEdits x xi edits] else []) ++
      waysTo x maxDist [] (xi + 1) (edits + 1) := by
  rw [waysTo.eq_def, if_neg (not_le.mpr h)]

lemma waysTo_cons {maxDist edits : ℕ} (h : edits < maxDist) (x : Word) (c : UInt8) (w : Word) (xi : ℕ) :
    waysTo x maxDist (c :: w) xi edits =
      (match x[xi]? with
        | none => []
        | some a => waysTo x maxDist w (xi + 1) (if a = c then edits else edits + 1)) ++
        waysTo x maxDist w xi (edits + 1) ++ waysTo x maxDist (c :: w) (xi + 1) (edits + 1) := by
  rw [waysTo.eq_def, if_neg (not_le.mpr h)]

namespace PtNode

/-- Of all visits, those of one word are the ways to it. -/
lemma costsOf_visits (x : Word) (maxDist : ℕ) {n : PtNode} (hn : n.Ordered) (pfx w : Word) (xi edits : ℕ) :
    (Has w n → costsOf (pfx ++ w) (n.visits x maxDist pfx xi edits) = waysTo x maxDist w xi edits) ∧
      (¬ Has w n → costsOf (pfx ++ w) (n.visits x maxDist pfx xi edits) = []) := by
  rcases Nat.lt_or_ge edits maxDist with hlt | hle
  · have hdelete := costsOf_visits x maxDist hn pfx w (xi + 1) (edits + 1)
    rw [visits_of_lt hlt, costsOf_append, costsOf_append]
    cases w with
    | nil =>
      rw [List.append_nil] at hdelete ⊢
      rw [waysTo_nil hlt]
      rw [costsOf_flatMap_self, List.nil_append]
      constructor
      · intro hw
        have hterminal : n.terminal = true := hw
        simp only [hdelete.1 hw, hterminal, true_and]
        congr 1
        split_ifs
        · exact costsOf_cons_self _ _ _
        · rfl
      · intro hw
        rw [hdelete.2 hw, if_neg fun h => hw h.1]
        rfl
    | cons c w =>
      have hself : costsOf (pfx ++ c :: w) (if n.terminal ∧ totalEdits x xi edits < maxDist then
          [(pfx, totalEdits x xi edits)] else []) = [] := by
        refine costsOf_eq_nil fun e he hw => ?_
        split_ifs at he
        · rw [List.mem_singleton.mp he] at hw
          simp at hw
        · exact List.not_mem_nil he
      rw [hself, List.nil_append, costsOf_flatMap c w hn.keys, waysTo_cons hlt]
      cases hm : child c n.children with
      | none =>
        have hnot : ¬ Has (c :: w) n := fun ⟨m, hm', _⟩ => nomatch hm.symm.trans hm'
        exact ⟨fun hw => absurd hw hnot, fun _ => hdelete.2 hnot⟩
      | some m =>
        have hmem := mem_of_child hm
        have hsize : sizeOf m < sizeOf n := sizeOf_lt_of_mem hmem
        have hiff : Has (c :: w) n ↔ Has w m :=
          ⟨fun ⟨m', hm', h⟩ => Option.some.inj (hm.symm.trans hm') ▸ h, fun h => ⟨m, hm, h⟩⟩
        have happ : pfx ++ c :: w = pfx ++ [c] ++ w := by simp
        have hinsert := costsOf_visits x maxDist (hn.children (c, m) hmem) (pfx ++ [c]) w xi
          (edits + 1)
        dsimp only
        rw [hiff] at hdelete ⊢
        rw [visitsByChild, costsOf_append, happ]
        cases hx : x[xi]? with
        | none =>
          exact ⟨fun hw => by rw [hinsert.1 hw, ← happ, hdelete.1 hw]; rfl,
            fun hw => by rw [hinsert.2 hw, ← happ, hdelete.2 hw]; rfl⟩
        | some a =>
          have hreplace := costsOf_visits x maxDist (hn.children (c, m) hmem) (pfx ++ [c]) w (xi + 1)
            (if a = c then edits else edits + 1)
          exact ⟨fun hw => by rw [hreplace.1 hw, hinsert.1 hw, ← happ, hdelete.1 hw],
            fun hw => by rw [hreplace.2 hw, hinsert.2 hw, ← happ, hdelete.2 hw]; rfl⟩
  · rw [visits_of_le hle, waysTo_of_le hle]
    exact ⟨fun _ => rfl, fun _ => rfl⟩
termination_by (maxDist - edits, sizeOf n)
decreasing_by
  · exact .left _ _ (by omega)
  · exact .left _ _ (by omega)
  · exact lex_of_le (by split_ifs <;> omega) hsize

end PtNode

/-! ### The first way to a word -/

/-- No way is shorter than the distance. What has been deleted behind the end of `x` does not count. -/
lemma le_of_mem_waysTo {x : Word} {maxDist : ℕ} {w : Word} {xi edits k : ℕ} (h : k ∈ waysTo x maxDist w xi edits) :
    edits + levenshtein (x.drop xi) w ≤ k + (xi - x.length) ∧ k < maxDist := by
  rcases Nat.lt_or_ge edits maxDist with hlt | hle
  · have hdelete (h : k ∈ waysTo x maxDist w (xi + 1) (edits + 1)) :
        edits + levenshtein (x.drop xi) w ≤ k + (xi - x.length) ∧ k < maxDist := by
      obtain ⟨hk, hd⟩ := le_of_mem_waysTo h
      cases hx : x[xi]? with
      | none =>
        have hlen := List.getElem?_eq_none_iff.mp hx
        rw [List.drop_eq_nil_of_le (by omega)] at hk ⊢
        omega
      | some a =>
        have hlen := (List.getElem?_eq_some_iff.mp hx).1
        have hdel := levenshtein_le_delete a (x.drop (xi + 1)) w
        rw [← drop_eq_cons hx] at hdel
        omega
    cases w with
    | nil =>
      rw [waysTo_nil hlt, List.mem_append] at h
      rcases h with h | h
      · split_ifs at h with htotal
        · rw [List.mem_singleton.mp h, levenshtein_nil_right, List.length_drop]
          refine ⟨?_, htotal⟩
          rw [totalEdits]
          omega
        · exact absurd h List.not_mem_nil
      · exact hdelete h
    | cons c w =>
      rw [waysTo_cons hlt, List.mem_append, List.mem_append] at h
      rcases h with (h | h) | h
      · cases hx : x[xi]? with
        | none =>
          rw [hx] at h
          exact absurd h List.not_mem_nil
        | some a =>
          rw [hx] at h
          have hlen := (List.getElem?_eq_some_iff.mp hx).1
          obtain ⟨hk, hd⟩ := le_of_mem_waysTo h
          have hrep := levenshtein_le_replace a c (x.drop (xi + 1)) w
          rw [← drop_eq_cons hx] at hrep
          split_ifs at hk hrep <;> omega
      · obtain ⟨hk, hd⟩ := le_of_mem_waysTo h
        have hins := levenshtein_le_insert (x.drop xi) c w
        omega
      · exact hdelete h
  · rw [waysTo_of_le hle] at h
    exact absurd h List.not_mem_nil
termination_by (maxDist - edits, w.length)
decreasing_by
  · exact .left _ _ (by omega)
  · exact lex_of_le (by split_ifs <;> omega) (by simp_all)
  · exact .left _ _ (by omega)

/-- Below the bound there is a way. -/
lemma waysTo_ne_nil {x : Word} {maxDist : ℕ} {w : Word} {xi edits : ℕ}
    (h : edits + levenshtein (x.drop xi) w < maxDist) : waysTo x maxDist w xi edits ≠ [] := by
  have hlt : edits < maxDist := by omega
  cases w with
  | nil =>
    rw [levenshtein_nil_right, List.length_drop] at h
    have htotal : totalEdits x xi edits < maxDist := by
      rw [totalEdits]
      omega
    rw [waysTo_nil hlt, if_pos htotal]
    exact List.cons_ne_nil _ _
  | cons c w =>
    rw [waysTo_cons hlt]
    cases hx : x[xi]? with
    | none =>
      rw [List.drop_eq_nil_of_le (List.getElem?_eq_none_iff.mp hx), levenshtein_nil_left, List.length_cons] at h
      have hinsert : waysTo x maxDist w xi (edits + 1) ≠ [] := waysTo_ne_nil (by
        rw [List.drop_eq_nil_of_le (List.getElem?_eq_none_iff.mp hx), levenshtein_nil_left]
        omega)
      simp [hinsert]
    | some a =>
      rw [drop_eq_cons hx, levenshtein_cons_cons] at h
      rcases min_choice ((if a = c then 0 else 1) + levenshtein (x.drop (xi + 1)) w)
        (min (1 + levenshtein (a :: x.drop (xi + 1)) w) (1 + levenshtein (x.drop (xi + 1)) (c :: w))) with hmin | hmin
      · have hreplace : waysTo x maxDist w (xi + 1) (if a = c then edits else edits + 1) ≠ [] := waysTo_ne_nil (by
          rw [hmin] at h
          split_ifs at h ⊢ <;> omega)
        simp [hreplace]
      rcases min_choice (1 + levenshtein (a :: x.drop (xi + 1)) w)
        (1 + levenshtein (x.drop (xi + 1)) (c :: w)) with hmin' | hmin'
      · have hinsert : waysTo x maxDist w xi (edits + 1) ≠ [] := waysTo_ne_nil (by
          rw [drop_eq_cons hx]
          omega)
        simp [hinsert]
      · have hdelete : waysTo x maxDist (c :: w) (xi + 1) (edits + 1) ≠ [] := waysTo_ne_nil (by omega)
        simp [hdelete]
termination_by (maxDist - edits, w.length)
decreasing_by
  · exact .left _ _ (by omega)
  · exact lex_of_le (by split_ifs <;> omega) (by simp_all)
  · exact .left _ _ (by omega)
  · exact .left _ _ (by omega)

/-- The first way goes through both words from the front: it keeps or replaces a character if it can still end below the
bound, else it inserts one if it can still end below the bound, and else it deletes one. It is a shortest way if each
of these steps is one of a shortest way. -/
def FirstIsShortest : Word → Word → ℕ → Prop
  | [], _, _ => True
  | _ :: _, [], _ => True
  | a :: x, c :: w, bound =>
    if (if a = c then 0 else 1) + levenshtein x w < bound then
      (if a = c then 0 else 1) + levenshtein x w = levenshtein (a :: x) (c :: w) ∧
        FirstIsShortest x w (bound - if a = c then 0 else 1)
    else if 1 + levenshtein (a :: x) w < bound then
      1 + levenshtein (a :: x) w = levenshtein (a :: x) (c :: w) ∧ FirstIsShortest (a :: x) w (bound - 1)
    else FirstIsShortest x (c :: w) (bound - 1)
termination_by x w => x.length + w.length

lemma firstIsShortest_nil_left (w : Word) (bound : ℕ) : FirstIsShortest [] w bound := by
  rw [FirstIsShortest]
  trivial

lemma firstIsShortest_nil_right (x : Word) (bound : ℕ) : FirstIsShortest x [] bound := by
  cases x with
  | nil => exact firstIsShortest_nil_left [] bound
  | cons a x =>
    rw [FirstIsShortest]
    trivial

lemma head?_append_of_ne_nil {α : Type*} {xs : List α} (h : xs ≠ []) (ys : List α) :
    (xs ++ ys).head? = xs.head? := by
  rw [List.head?_append, Option.or_of_isSome]
  exact List.isSome_head?.mpr h

/-- Where the ways that come first are `n` or longer, the first of all is a shortest one if `n` is the distance. -/
lemma head?_append_iff {ks rest : List ℕ} {n dist : ℕ} {P : Prop} (hne : ks ≠ []) (hmin : ∀ k ∈ ks, n ≤ k)
    (hle : dist ≤ n) (hP : ks.head? = some n ↔ P) : (ks ++ rest).head? = some dist ↔ n = dist ∧ P := by
  rw [head?_append_of_ne_nil hne]
  constructor
  · intro h
    obtain rfl : n = dist := le_antisymm (hmin dist (List.mem_of_head? h)) hle
    exact ⟨rfl, hP.mp h⟩
  · rintro ⟨rfl, h⟩
    exact hP.mpr h

/-- Where there is no way below the bound, none is found. -/
lemma waysTo_eq_nil {x : Word} {maxDist : ℕ} {w : Word} {xi edits : ℕ} (hxi : xi ≤ x.length)
    (h : ¬ edits + levenshtein (x.drop xi) w < maxDist) : waysTo x maxDist w xi edits = [] := by
  refine List.eq_nil_iff_forall_not_mem.mpr fun k hk => ?_
  obtain ⟨hle, hlt⟩ := le_of_mem_waysTo hk
  omega

lemma le_of_mem_waysTo_of_le {x : Word} {maxDist : ℕ} {w : Word} {xi edits : ℕ} (hxi : xi ≤ x.length) :
    ∀ k ∈ waysTo x maxDist w xi edits, edits + levenshtein (x.drop xi) w ≤ k := by
  intro k hk
  obtain ⟨hle, _⟩ := le_of_mem_waysTo hk
  omega

lemma head?_waysTo_iff {x : Word} {maxDist : ℕ} {w : Word} {xi edits : ℕ} (hxi : xi ≤ x.length)
    (h : edits + levenshtein (x.drop xi) w < maxDist) :
    (waysTo x maxDist w xi edits).head? = some (edits + levenshtein (x.drop xi) w) ↔
      FirstIsShortest (x.drop xi) w (maxDist - edits) := by
  have hlt : edits < maxDist := by omega
  cases hw : w with
  | nil =>
    subst hw
    rw [levenshtein_nil_right, List.length_drop] at h ⊢
    have htotal : totalEdits x xi edits = edits + (x.length - xi) := by
      rw [totalEdits]
      omega
    rw [waysTo_nil hlt, htotal, if_pos h]
    exact iff_of_true rfl (firstIsShortest_nil_right _ _)
  | cons c w =>
    rw [hw] at h
    rw [waysTo_cons hlt]
    cases hx : x[xi]? with
    | none =>
      have hnil : x.drop xi = [] := List.drop_eq_nil_of_le (List.getElem?_eq_none_iff.mp hx)
      have hinsert : edits + 1 + levenshtein (x.drop xi) w < maxDist := by
        rw [hnil, levenshtein_nil_left] at h ⊢
        rw [List.length_cons] at h
        omega
      have ih := head?_waysTo_iff hxi hinsert
      rw [hnil] at ih ⊢
      rw [List.nil_append, head?_append_of_ne_nil (waysTo_ne_nil hinsert)]
      refine iff_of_true ?_ (firstIsShortest_nil_left _ _)
      rw [ih.mpr (firstIsShortest_nil_left _ _)]
      simp only [levenshtein_nil_left, List.length_cons, Option.some.injEq]
      omega
    | some a =>
      have hlen : xi + 1 ≤ x.length := (List.getElem?_eq_some_iff.mp hx).1
      have hcost : (if a = c then edits else edits + 1) = edits + if a = c then 0 else 1 := by split_ifs <;> rfl
      have hrep := levenshtein_le_replace a c (x.drop (xi + 1)) w
      have hins := levenshtein_le_insert (a :: x.drop (xi + 1)) c w
      have hmin := levenshtein_cons_cons a c (x.drop (xi + 1)) w
      dsimp only
      rw [hcost, drop_eq_cons hx, FirstIsShortest, List.append_assoc]
      rw [drop_eq_cons hx] at h
      generalize hk : (if a = c then 0 else 1) = k at hrep hmin ⊢
      have hk1 : k ≤ 1 := by
        rw [← hk]
        split_ifs <;> omega
      by_cases hreplace : edits + k + levenshtein (x.drop (xi + 1)) w < maxDist
      · have ih := head?_waysTo_iff hlen hreplace
        rw [if_pos (by omega), head?_append_iff (waysTo_ne_nil hreplace) (le_of_mem_waysTo_of_le hlen) (by omega) ih,
          Nat.sub_add_eq]
        exact and_congr_left' (by omega)
      rw [if_neg (by omega), waysTo_eq_nil hlen hreplace, List.nil_append]
      by_cases hinsert : edits + 1 + levenshtein (x.drop xi) w < maxDist
      · have ih := head?_waysTo_iff hxi hinsert
        rw [head?_append_iff (waysTo_ne_nil hinsert) (le_of_mem_waysTo_of_le hxi)
          (by rw [drop_eq_cons hx]; omega) ih, drop_eq_cons hx, Nat.sub_add_eq]
        rw [drop_eq_cons hx] at hinsert
        rw [if_pos (by omega)]
        exact and_congr_left' (by omega)
      rw [waysTo_eq_nil hxi hinsert, List.nil_append]
      rw [drop_eq_cons hx] at hinsert
      rw [if_neg (by omega)]
      -- neither of the others is on a way below the bound
      have hdelete : levenshtein (a :: x.drop (xi + 1)) (c :: w) = 1 + levenshtein (x.drop (xi + 1)) (c :: w) := by
        omega
      have ih := head?_waysTo_iff (w := c :: w) hlen (show edits + 1 + _ < maxDist by omega)
      rw [hdelete, ← Nat.add_assoc, ih, Nat.sub_add_eq]
termination_by (maxDist - edits, w.length)
decreasing_by
  · exact .left _ _ (by omega)
  · exact lex_of_le (by omega) (hw ▸ Nat.lt_succ_self _)
  · exact .left _ _ (by omega)
  · exact .left _ _ (by omega)

/-! ### What is listed -/

lemma rankedMatches_eq (ws : List Word) (x : Word) (maxDist : ℕ) : rankedMatches ws x maxDist =
    (Found.recordAll ⟨[], []⟩ ((PtNode.ofWords ws).visits x maxDist [] 0 0)).ranks := by
  rw [rankedMatches, PtNode.rankedMatches, PtNode.findRankedMatches_eq]

lemma inv_rankedMatches (ws : List Word) (x : Word) (maxDist : ℕ) :
    (Found.recordAll ⟨[], []⟩ ((PtNode.ofWords ws).visits x maxDist [] 0 0)).Inv := Found.inv_empty.recordAll _

lemma nodup_rankedMatches (ws : List Word) (x : Word) (maxDist : ℕ) :
    ((rankedMatches ws x maxDist).flatMap Prod.snd).Nodup := by
  rw [rankedMatches_eq]
  exact (inv_rankedMatches ws x maxDist).nodup

lemma ascending_rankedMatches (ws : List Word) (x : Word) (maxDist : ℕ) :
    ((rankedMatches ws x maxDist).map Prod.fst).Pairwise (· < ·) := by
  rw [rankedMatches_eq]
  exact (inv_rankedMatches ws x maxDist).ascending

lemma lists_rankedMatches (ws : List Word) (x : Word) (maxDist k : ℕ) (w : Word) :
    Lists (rankedMatches ws x maxDist) k w ↔ w ∈ ws ∧ (waysTo x maxDist w 0 0).head? = some k := by
  obtain ⟨hhas, hnot⟩ := PtNode.costsOf_visits x maxDist (PtNode.ordered_ofWords ws) [] w 0 0
  rw [List.nil_append, PtNode.has_ofWords] at hhas hnot
  rw [rankedMatches_eq, Found.inv_empty.lists_recordAll, or_iff_right (not_lists_nil k w),
    and_iff_right List.not_mem_nil]
  by_cases hw : w ∈ ws
  · rw [hhas hw, and_iff_right hw]
  · rw [hnot hw]
    exact iff_of_false (fun h => nomatch h) fun h => hw h.1

lemma levenshtein_le_of_head? {x w : Word} {maxDist k : ℕ} (h : (waysTo x maxDist w 0 0).head? = some k) :
    levenshtein x w ≤ k ∧ k < maxDist := by
  obtain ⟨hle, hlt⟩ := le_of_mem_waysTo (List.mem_of_head? h)
  rw [List.drop_zero] at hle
  omega

lemma head?_iff_firstIsShortest {x w : Word} {maxDist : ℕ} (h : levenshtein x w < maxDist) :
    (waysTo x maxDist w 0 0).head? = some (levenshtein x w) ↔ FirstIsShortest x w maxDist := by
  have hiff := @head?_waysTo_iff x maxDist w 0 0 (Nat.zero_le _) (by rwa [List.drop_zero, Nat.zero_add])
  rwa [List.drop_zero, Nat.zero_add, Nat.sub_zero] at hiff

/-- Exactly the words below the bound are listed, each once and under its distance. -/
structure ListsExactly (ws : List Word) (x : Word) (maxDist : ℕ) (r : List (ℕ × List Word)) : Prop where
  lists (k : ℕ) (w : Word) : Lists r k w ↔ w ∈ ws ∧ k = levenshtein x w ∧ k < maxDist
  nodup : (r.flatMap Prod.snd).Nodup

/-- The words below the bound, each once, in the order of their distances. -/
structure ListsInOrder (ws : List Word) (x : Word) (maxDist : ℕ) (vs : List Word) : Prop where
  mem_iff (w : Word) : w ∈ vs ↔ w ∈ ws ∧ levenshtein x w < maxDist
  nodup : vs.Nodup
  ordered : vs.Pairwise fun v w => levenshtein x v ≤ levenshtein x w

lemma listsExactly_iff (ws : List Word) (x : Word) (maxDist : ℕ) :
    ListsExactly ws x maxDist (rankedMatches ws x maxDist) ↔
      ∀ w ∈ ws, levenshtein x w < maxDist → FirstIsShortest x w maxDist := by
  constructor
  · intro h w hw hlt
    rw [← head?_iff_firstIsShortest hlt]
    exact ((lists_rankedMatches _ _ _ _ _).mp ((h.lists _ w).mpr ⟨hw, rfl, hlt⟩)).2
  · intro h
    refine ⟨fun k w => ?_, nodup_rankedMatches ws x maxDist⟩
    rw [lists_rankedMatches]
    refine and_congr_right fun hw => ?_
    constructor
    · intro hhead
      obtain ⟨hle, hlt⟩ := levenshtein_le_of_head? hhead
      have hshortest := (head?_iff_firstIsShortest (by omega)).mpr (h w hw (by omega))
      exact ⟨Option.some.inj (hhead.symm.trans hshortest), hlt⟩
    · rintro ⟨rfl, hlt⟩
      exact (head?_iff_firstIsShortest hlt).mpr (h w hw hlt)

lemma ListsExactly.listsInOrder {ws : List Word} {x : Word} {maxDist : ℕ} {r : List (ℕ × List Word)}
    (h : ListsExactly ws x maxDist r) (hr : (r.map Prod.fst).Pairwise (· < ·)) :
    ListsInOrder ws x maxDist (r.flatMap Prod.snd) where
  mem_iff w := by
    rw [Found.mem_flatMap_iff]
    simp only [h.lists, exists_and_left]
    exact and_congr_right fun _ => ⟨fun ⟨k, hk, hlt⟩ => hk ▸ hlt, fun hlt => ⟨_, rfl, hlt⟩⟩
  nodup := h.nodup
  ordered := by
    have hdist {p : ℕ × List Word} (hp : p ∈ r) {w : Word} (hw : w ∈ p.2) : p.1 = levenshtein x w :=
      ((h.lists p.1 w).mp ⟨p.2, hp, hw⟩).2.1
    rw [List.pairwise_flatMap]
    constructor
    · intro p hp
      exact List.pairwise_of_forall_mem_list fun v hv w hw => (hdist hp hv ▸ hdist hp hw).le
    · rw [List.pairwise_map] at hr
      refine hr.imp_of_mem fun hp hq hlt v hv w hw => ?_
      rw [← hdist hp hv, ← hdist hq hw]
      exact hlt.le

/-- What `editDistance` gives is the first way below the longer one of the lengths, or this length. -/
lemma editDistance_cases (x y : Word) :
    (waysTo x (max x.length y.length) y 0 0).head? = some (editDistance x y) ∨
      levenshtein x y = max x.length y.length ∧ editDistance x y = levenshtein x y := by
  rw [editDistance]
  cases hr : rankedMatches [y] x (max x.length y.length) with
  | nil =>
    refine .inr ?_
    have hmax : levenshtein x y = max x.length y.length := by
      refine le_antisymm (levenshtein_le_max x y) (not_lt.mp fun hlt => ?_)
      have hne := @waysTo_ne_nil x _ y 0 0 (by rwa [List.drop_zero, Nat.zero_add])
      obtain ⟨k, ks, hk⟩ := List.exists_cons_of_ne_nil hne
      have hlists := (lists_rankedMatches [y] x _ k y).mpr ⟨List.mem_singleton_self y, by rw [hk]; rfl⟩
      rw [hr] at hlists
      exact not_lists_nil k y hlists
    exact ⟨hmax, hmax.symm⟩
  | cons p r =>
    obtain ⟨k, ws⟩ := p
    refine .inl ?_
    have hne := (inv_rankedMatches [y] x (max x.length y.length)).nonempty
    rw [← rankedMatches_eq, hr] at hne
    obtain ⟨w, hw⟩ := List.exists_mem_of_ne_nil ws (hne (k, ws) List.mem_cons_self)
    have hlists : Lists (rankedMatches [y] x (max x.length y.length)) k w := by
      rw [hr]
      exact ⟨ws, List.mem_cons_self, hw⟩
    obtain ⟨hmem, hhead⟩ := (lists_rankedMatches _ _ _ _ _).mp hlists
    rwa [List.mem_singleton.mp hmem] at hhead

lemma editDistance_eq_iff (x y : Word) : editDistance x y = levenshtein x y ↔
    (levenshtein x y < max x.length y.length → FirstIsShortest x y (max x.length y.length)) := by
  rcases editDistance_cases x y with hhead | ⟨hmax, heq⟩
  · obtain ⟨hle, hlt⟩ := levenshtein_le_of_head? hhead
    have hbelow : levenshtein x y < max x.length y.length := by omega
    rw [← head?_iff_firstIsShortest hbelow, hhead, Option.some_inj]
    exact ⟨fun h _ => h, fun h => h hbelow⟩
  · exact iff_of_true heq fun hlt => absurd hmax hlt.ne

lemma firstIsShortest_self (x : Word) {bound : ℕ} (h : 0 < bound) : FirstIsShortest x x bound := by
  induction x with
  | nil => exact firstIsShortest_nil_left [] bound
  | cons a x ih =>
    rw [FirstIsShortest, if_pos rfl, (levenshtein_eq_zero_iff x x).mpr rfl, if_pos h]
    exact ⟨((levenshtein_eq_zero_iff _ _).mpr rfl).symm, ih⟩

lemma editDistance_eq_zero_iff (x y : Word) : editDistance x y = 0 ↔ x = y := by
  constructor
  · intro h
    rw [← levenshtein_eq_zero_iff]
    rcases editDistance_cases x y with hhead | ⟨_, heq⟩
    · have hle := (levenshtein_le_of_head? hhead).1
      omega
    · exact heq ▸ h
  · rintro rfl
    rw [(editDistance_eq_iff x x).mpr fun hlt => firstIsShortest_self x (Nat.zero_lt_of_lt hlt)]
    exact (levenshtein_eq_zero_iff x x).mpr rfl

/-- The distances that are found are the right ones exactly where the first way below the bound is a shortest one.
`editDistance` searches below the longer one of the lengths. -/
theorem rankedMatches_exact_iff (ws : List Word) (x y : Word) (maxDist : ℕ) :
    (ListsExactly ws x maxDist (rankedMatches ws x maxDist) ∧
        ListsInOrder ws x maxDist (closestMatches x ws maxDist) ↔
      ∀ w ∈ ws, levenshtein x w < maxDist → FirstIsShortest x w maxDist) ∧
    (editDistance x y = levenshtein x y ∧ editDistance y x = editDistance x y ↔
      (levenshtein x y < max x.length y.length →
        FirstIsShortest x y (max x.length y.length) ∧ FirstIsShortest y x (max x.length y.length))) ∧
    (editDistance x y = 0 ↔ x = y) := by
  refine ⟨?_, ?_, editDistance_eq_zero_iff x y⟩
  · rw [← listsExactly_iff, and_iff_left_of_imp]
    exact fun h => h.listsInOrder (ascending_rankedMatches ws x maxDist)
  · have hxy := editDistance_eq_iff x y
    have hyx := editDistance_eq_iff y x
    rw [levenshtein_comm y x, max_comm y.length] at hyx
    constructor
    · rintro ⟨h, hsymm⟩ hlt
      exact ⟨hxy.mp h hlt, hyx.mp (hsymm.trans h) hlt⟩
    · intro h
      have hdist := hxy.mpr fun hlt => (h hlt).1
      exact ⟨hdist, (hyx.mpr fun hlt => (h hlt).2).trans hdist.symm⟩

/-- From "abc" to "bc" one character is deleted, but replacing 'a', deleting 'b' and keeping 'c' is tried before. -/
theorem not_rankedMatches_exact :
    ¬ ListsExactly [[98, 99]] [97, 98, 99] 3 (rankedMatches [[98, 99]] [97, 98, 99] 3) ∧
      editDistance [97, 98, 99] [98, 99] ≠ levenshtein ([97, 98, 99] : Word) [98, 99] := by
  have hdist : levenshtein [97, 98, 99] ([98, 99] : Word) = 1 := by simp [levenshtein_cons_cons]
  have hnot : ¬ FirstIsShortest [97, 98, 99] [98, 99] 3 := by
    rw [FirstIsShortest]
    simp [levenshtein_cons_cons]
  constructor
  · rw [listsExactly_iff]
    exact fun h => hnot (h _ (List.mem_singleton_self _) (by rw [hdist]; decide))
  · rw [Ne, editDistance_eq_iff]
    exact fun h => hnot (h (by rw [hdist]; decide))

end Hobbes.Str
