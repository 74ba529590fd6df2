import Hobbes.Parse.Grammar

/-!
# Symbols that derive the empty string

The candidates are gone through again and again, and those whose rules only have symbols that have been found are taken
out, until nothing changes. What is found this way is what derives the empty string.
-/

namespace Hobbes.Parse

open Core Tree

variable {α : Type} [DecidableEq α]

/-! ### The loop over the candidates -/

/-- `aggRules` throws where there are no rules, but every candidate has rules. -/
def aggDerivesNull (g : Grammar α) (nullAggs : List α) (s : α) : Bool :=
  ((aggRules g s).getD []).any (derivesNull nullAggs)

section

variable (r : α → α → Prop) [DecidableRel r]

def definedSymbols (g : Grammar α) : List α := insertAll r [] (g.map Prod.fst)

/-- One round over the candidates: what has been found, the candidates that are left, and whether this is a change. -/
def nullPass (g : Grammar α) : List α → List α → List α × List α × Bool
  | nulls, [] => (nulls, [], false)
  | nulls, s :: potentials =>
    if s ∉ nulls ∧ aggDerivesNull g nulls s then
      let (nulls, potentials, _) := nullPass g (insertOrd r s nulls) potentials
      (nulls, potentials, true)
    else
      let (nulls, potentials, changed) := nullPass g nulls potentials
      (nulls, s :: potentials, changed)

variable {r} in
lemma length_nullPass_le (g : Grammar α) (nulls potentials : List α) :
    (nullPass r g nulls potentials).2.1.length ≤ potentials.length := by
  induction potentials generalizing nulls with
  | nil => exact Nat.le_refl 0
  | cons s potentials ih =>
    rw [nullPass]
    split_ifs
    · exact Nat.le_succ_of_le (ih _)
    · exact Nat.succ_le_succ (ih _)

variable {r} in
lemma length_nullPass_lt {g : Grammar α} {nulls potentials : List α}
    (h : (nullPass r g nulls potentials).2.2 = true) :
    (nullPass r g nulls potentials).2.1.length < potentials.length := by
  induction potentials generalizing nulls with
  | nil => cases h
  | cons s potentials ih =>
    rw [nullPass] at h ⊢
    split_ifs at h ⊢
    · exact Nat.lt_succ_of_le (length_nullPass_le g _ potentials)
    · exact Nat.succ_lt_succ (ih h)

/-- `while (changed)`. Every change leaves fewer candidates. -/
def nullLoop (g : Grammar α) (nulls potentials : List α) : List α :=
  if _h : (nullPass r g nulls potentials).2.2 = true then
    nullLoop g (nullPass r g nulls potentials).1 (nullPass r g nulls potentials).2.1
  else (nullPass r g nulls potentials).1
termination_by potentials.length
decreasing_by exact length_nullPass_lt _h

/-- `symbolsDerivingNull`, with the set of candidates that it erases from. -/
def symbolsDerivingNullFrom (g : Grammar α) : List α := nullLoop r g [] (definedSymbols r g)

end

/-! ### What is found -/

/-- There is a tree without leaves for `x`. -/
def DerivesEmpty (g : Grammar α) (x : α) : Prop := ∃ t, Valid g t ∧ t.root = x ∧ t.yield = []

variable {g : Grammar α} {nulls potentials : List α} {x : α}

omit [DecidableEq α] in
lemma yields_eq_nil_iff {ts : List (Tree α)} : yields ts = [] ↔ ∀ t ∈ ts, t.yield = [] := by
  induction ts with
  | nil => simp [yields]
  | cons t ts ih => rw [yields, List.append_eq_nil_iff, ih, List.forall_mem_cons]

/-- A symbol derives the empty string if all symbols of one of its rules do. -/
lemma derivesEmpty_of_rule (hnulls : ∀ y ∈ nulls, DerivesEmpty g y) (h : aggDerivesNull g nulls x = true) :
    DerivesEmpty g x := by
  obtain ⟨rl, hrl, hnull⟩ := List.any_eq_true.mp h
  have hrules : ∃ rs, aggRules g x = some rs ∧ rl ∈ rs := by
    cases hx : aggRules g x with
    | none =>
      rw [hx] at hrl
      cases hrl
    | some rs =>
      rw [hx] at hrl
      exact ⟨rs, rfl, hrl⟩
  obtain ⟨rs, hrs, hmem⟩ := hrules
  obtain ⟨n, hn⟩ := List.mem_iff_getElem?.mp hmem
  have htrees : ∃ ts : List (Tree α), ts.map root = rl ∧ (∀ t ∈ ts, Valid g t) ∧ ∀ t ∈ ts, t.yield = [] := by
    clear hrl hmem hn
    induction rl with
    | nil => exact ⟨[], rfl, by simp, by simp⟩
    | cons y rl ih =>
      rw [derivesNull, List.all_cons, Bool.and_eq_true, decide_eq_true_iff] at hnull
      obtain ⟨ts, rfl, hvalid, hempty⟩ := ih hnull.2
      obtain ⟨t, ht, rfl, hyield⟩ := hnulls y hnull.1
      exact ⟨t :: ts, rfl, List.forall_mem_cons.mpr ⟨ht, hvalid⟩, List.forall_mem_cons.mpr ⟨hyield, hempty⟩⟩
  obtain ⟨ts, rfl, hvalid, hempty⟩ := htrees
  exact ⟨.node x n ts, .node (ruleOf_eq_some.mpr ⟨rs, hrs, hn⟩) hvalid, rfl, yields_eq_nil_iff.mpr hempty⟩

/-- Where no symbol is missing whose rules have only symbols that are there, all that derive the empty string are
there. -/
lemma mem_of_derivesEmpty (hclosed : ∀ y, hasRule g y = true → aggDerivesNull g nulls y = true → y ∈ nulls)
    (h : DerivesEmpty g x) : x ∈ nulls := by
  obtain ⟨t, ht, rfl, hyield⟩ := h
  induction ht with
  | leaf _ => cases hyield
  | @node x r ts hr _ ih =>
    have hts := yields_eq_nil_iff.mp hyield
    refine hclosed x (hasRule_of_ruleOf hr) ?_
    obtain ⟨rs, hrs, hmem⟩ := ruleOf_eq_some.mp hr
    refine List.any_eq_true.mpr ⟨ts.map root, ?_, List.all_eq_true.mpr fun y hy => ?_⟩
    · rw [aggRules, hrs]
      exact List.mem_of_getElem? hmem
    · obtain ⟨t, ht, rfl⟩ := List.mem_map.mp hy
      exact decide_eq_true (ih t ht (hts t ht))

variable {r : α → α → Prop} [DecidableRel r]

lemma nullPass_derivesEmpty (h : ∀ y ∈ nulls, DerivesEmpty g y) :
    ∀ y ∈ (nullPass r g nulls potentials).1, DerivesEmpty g y := by
  induction potentials generalizing nulls with
  | nil => exact h
  | cons s potentials ih =>
    rw [nullPass]
    split_ifs with hs
    · refine ih fun y hy => ?_
      rcases mem_insertOrd.mp hy with rfl | hy
      · exact derivesEmpty_of_rule h hs.2
      · exact h y hy
    · exact ih h

/-- No candidate is lost. -/
lemma mem_nullPass (h : x ∈ nulls ∨ x ∈ potentials) :
    x ∈ (nullPass r g nulls potentials).1 ∨ x ∈ (nullPass r g nulls potentials).2.1 := by
  induction potentials generalizing nulls with
  | nil => exact h
  | cons s potentials ih =>
    rw [nullPass]
    split_ifs with hs
    · refine ih ?_
      rcases h with h | h
      · exact .inl (mem_insertOrd.mpr (.inr h))
      · exact (List.mem_cons.mp h).imp_left fun h => mem_insertOrd.mpr (.inl h)
    · rcases h with h | h
      · exact (ih (.inl h)).imp_right (List.mem_cons_of_mem s)
      · rcases List.mem_cons.mp h with rfl | h
        · exact .inr List.mem_cons_self
        · exact (ih (.inr h)).imp_right (List.mem_cons_of_mem s)

/-- A round without a change has met no candidate that could be taken out. -/
lemma nullPass_unchanged (h : (nullPass r g nulls potentials).2.2 ≠ true) :
    (nullPass r g nulls potentials).1 = nulls ∧
      ∀ y ∈ (nullPass r g nulls potentials).2.1, y ∈ nulls ∨ aggDerivesNull g nulls y ≠ true := by
  induction potentials with
  | nil => exact ⟨rfl, by simp [nullPass]⟩
  | cons s potentials ih =>
    rw [nullPass] at h ⊢
    split_ifs at h ⊢ with hs
    · exact absurd rfl h
    · obtain ⟨heq, hrest⟩ := ih h
      refine ⟨heq, List.forall_mem_cons.mpr ⟨?_, hrest⟩⟩
      exact (not_and_or.mp hs).imp_left not_not.mp

lemma mem_nullLoop (hnulls : ∀ y ∈ nulls, DerivesEmpty g y)
    (hall : ∀ y, hasRule g y = true → y ∈ nulls ∨ y ∈ potentials) :
    x ∈ nullLoop r g nulls potentials ↔ DerivesEmpty g x := by
  induction nulls, potentials using nullLoop.induct r g with
  | case1 nulls potentials h ih =>
    rw [nullLoop, dif_pos h]
    exact ih (nullPass_derivesEmpty hnulls) fun y hy => mem_nullPass (hall y hy)
  | case2 nulls potentials h =>
    rw [nullLoop, dif_neg h]
    obtain ⟨heq, hrest⟩ := nullPass_unchanged h
    refine ⟨nullPass_derivesEmpty hnulls x, mem_of_derivesEmpty fun y hy hnull => ?_⟩
    rw [heq] at hnull ⊢
    rcases mem_nullPass (r := r) (g := g) (hall y hy) with hmem | hmem
    · rwa [heq] at hmem
    · exact (hrest y hmem).resolve_right (not_not.mpr hnull)

/-! ### The table's symbols -/

lemma mem_keys_of_hasRule (h : hasRule g x = true) : x ∈ g.map Prod.fst := by
  obtain ⟨rs, hrs⟩ := Option.isSome_iff_exists.mp h
  exact List.mem_map_of_mem (f := Prod.fst) (mem_of_lookup hrs)

/-- What a round of the table's construction does at a symbol. -/
def nullStep (r : α → α → Prop) [DecidableRel r] (g : Grammar α) (nulls : List α) (p : α × List (Rule α)) : List α :=
  if aggDerivesNull g nulls p.1 then insertOrd r p.1 nulls else nulls

lemma nullStep_eq_or_lt (nulls : List α) (p : α × List (Rule α)) :
    (nullStep r g nulls p = nulls ∧ (aggDerivesNull g nulls p.1 = true → p.1 ∈ nulls)) ∨
      nulls.length < (nullStep r g nulls p).length := by
  unfold nullStep
  split_ifs with h
  · by_cases hp : p.1 ∈ nulls
    · exact .inl ⟨by rw [insertOrd, if_pos hp], fun _ => hp⟩
    · exact .inr (by rw [length_insertOrd_of_notMem hp]; exact Nat.lt_succ_self _)
  · exact .inl ⟨rfl, fun hnull => absurd hnull h⟩

lemma foldl_nullStep_eq_or_lt (l : Grammar α) (nulls : List α) :
    (l.foldl (nullStep r g) nulls = nulls ∧ ∀ p ∈ l, aggDerivesNull g nulls p.1 = true → p.1 ∈ nulls) ∨
      nulls.length < (l.foldl (nullStep r g) nulls).length := by
  induction l generalizing nulls with
  | nil => exact .inl ⟨rfl, by simp⟩
  | cons p l ih =>
    rw [List.foldl_cons]
    rcases nullStep_eq_or_lt (r := r) (g := g) nulls p with ⟨heq, hp⟩ | hlt
    · rw [heq]
      exact (ih nulls).imp_left fun ⟨hl, hmem⟩ => ⟨hl, List.forall_mem_cons.mpr ⟨hp, hmem⟩⟩
    · rcases ih (nullStep r g nulls p) with ⟨hl, -⟩ | hlt'
      · exact .inr (hl.symm ▸ hlt)
      · exact .inr (hlt.trans hlt')

/-- Symbols with rules that derive the empty string. -/
structure Nulls (g : Grammar α) (nulls : List α) : Prop where
  nodup : nulls.Nodup
  mem_keys : ∀ y ∈ nulls, y ∈ g.map Prod.fst
  derivesEmpty : ∀ y ∈ nulls, DerivesEmpty g y

lemma Nulls.length_le (h : Nulls g nulls) : nulls.length ≤ g.length := by
  rw [← @List.length_map _ _ g Prod.fst]
  exact (List.subperm_of_subset h.nodup h.mem_keys).length_le

lemma Nulls.step (h : Nulls g nulls) {p : α × List (Rule α)} (hp : p ∈ g) : Nulls g (nullStep r g nulls p) := by
  unfold nullStep
  split_ifs with hnull
  · refine ⟨nodup_insertOrd h.nodup, fun y hy => ?_, fun y hy => ?_⟩
    · rcases mem_insertOrd.mp hy with rfl | hy
      · exact List.mem_map_of_mem hp
      · exact h.mem_keys y hy
    · rcases mem_insertOrd.mp hy with rfl | hy
      · exact derivesEmpty_of_rule h.derivesEmpty hnull
      · exact h.derivesEmpty y hy
  · exact h

lemma Nulls.round (h : Nulls g nulls) : Nulls g (nullRound r g nulls) :=
  List.foldlRecOn (motive := Nulls g) g (nullStep r g) h fun _ hnulls _ hp => hnulls.step hp

/-- The table's construction finds the same symbols, in at most as many rounds as there are symbols, and one more. -/
lemma exists_symbolsDerivingNull (r : α → α → Prop) [DecidableRel r] (g : Grammar α) {n : ℕ} (hn : g.length < n) :
    ∃ nulls, symbolsDerivingNull n r g = some nulls ∧ ∀ x, x ∈ nulls ↔ DerivesEmpty g x := by
  have hround : ∀ nulls, nullRound r g nulls = g.foldl (nullStep r g) nulls := fun _ => rfl
  have hstart : Nulls g ([] : List α) := ⟨List.nodup_nil, by simp, by simp⟩
  obtain ⟨nulls, hnulls⟩ := exists_fixpoint (μ := List.length) (f := nullRound r g) (fun _ h => Nulls.round h)
    (fun _ h => h.length_le) (fun nulls _ hne => (foldl_nullStep_eq_or_lt g nulls).resolve_left fun h => hne h.1) hstart
    (by simpa using hn)
  have hfound := fixpoint_invariant hnulls hstart fun _ h => Nulls.round h
  refine ⟨nulls, hnulls, fun x => ⟨hfound.derivesEmpty x, mem_of_derivesEmpty fun y hy hnull => ?_⟩⟩
  rcases foldl_nullStep_eq_or_lt (r := r) (g := g) g nulls with ⟨-, hclosed⟩ | hlt
  · obtain ⟨p, hp, rfl⟩ := List.mem_map.mp (mem_keys_of_hasRule hy)
    exact hclosed p hp hnull
  · rw [← hround, fixpoint_fixed hnulls] at hlt
    exact absurd hlt (Nat.lt_irrefl _)

/-- The symbols that are returned are those that derive the empty string, and so are those that the table is made
with. -/
theorem symbolsDerivingNull_exact (r : α → α → Prop) [DecidableRel r] (g : Grammar α) :
    (∀ x, x ∈ symbolsDerivingNullFrom r g ↔ DerivesEmpty g x) ∧
      ∃ nulls, symbolsDerivingNull (g.length + 1) r g = some nulls ∧ ∀ x, x ∈ nulls ↔ DerivesEmpty g x := by
  refine ⟨fun x => mem_nullLoop (by simp) fun y hy => .inr ?_, exists_symbolsDerivingNull r g (Nat.lt_succ_self _)⟩
  exact mem_insertAll.mpr (.inr (mem_keys_of_hasRule hy))

end Hobbes.Parse
