import Hobbes.Parse.Accepted

/-!
# What the driver shifts

Every item of a state is predicted by items that have read what leads there. So whatever is on the stack goes on to a
tree for the boot rule, and where all symbols derive something, the driver shifts no symbol that a sentence of the
grammar could not have there.
-/

namespace Hobbes.Parse

open Core

variable {T : Type} [LinearOrder (Terminal T)]

section

variable {g : Grammar (Terminal T)} {n : ℕ} {is js : Itemset T} {i : Item T}

/-- The closure adds the rules of the symbols that come next. -/
inductive Predicted (g : Grammar (Terminal T)) (is : Itemset T) : Item T → Prop where
  | base {i : Item T} (hi : i ∈ is) : Predicted g is i
  | step {i j : Item T} (hj : Predicted g is j) (hnext : next g j = some i.agg) (hp : i.p = 0) : Predicted g is i

lemma predicted_of_closure (h : closure n g is = some js) : ∀ i ∈ js, Predicted g is i := by
  refine fixpoint_invariant (P := fun ks => ∀ i ∈ ks, Predicted g is i) h (fun i hi => .base hi) fun ks hks i hi => ?_
  rcases mem_closureRound.mp hi with hi | ⟨j, hj, hnext, hp, -⟩
  · exact hks i hi
  · exact .step (hks j hj) hnext hp

lemma Predicted.mono (h : Predicted g is i) (hsub : ∀ i ∈ is, i ∈ js) : Predicted g js i := by
  induction h with
  | base hi => exact .base (hsub _ hi)
  | step _ hnext hp ih => exact .step ih hnext hp

end

/-- Every symbol derives something. -/
def Productive {α : Type} [DecidableEq α] (g : Grammar α) : Prop := ∀ x, ∃ t, Tree.Valid g t ∧ t.root = x

/-- The items of a state are predicted by those that lead there. -/
structure Grounded (p : ParserDef T) : Prop where
  start : ∃ is, p.states[0]? = some is ∧ ∀ i ∈ is, Predicted p.g (ruleItems p.g .privstart) i
  follow : ∀ (q j : ℕ) (v : Terminal T) (is : Itemset T), follow p q v = some j → p.states[q]? = some is →
    ∃ js, p.states[j]? = some js ∧ ∀ i ∈ js, Predicted p.g (followItems p.g is v) i

lemma lr0parser_grounded {n : ℕ} {g : Grammar T} {s : T} {p : ParserDef T} (h : lr0parser n g s = some p) :
    Grounded p := by
  simp only [lr0parser, Option.bind_eq_bind, Option.bind_eq_some_iff, pure, Option.some.injEq] at h
  obtain ⟨is, his, ⟨states, trs⟩, henum, nullable, -, rfl⟩ := h
  have hinit : Enumerated n (bootGrammar g s) is [is] [] :=
    ⟨rfl, Nat.zero_le _, fun q js r _ hr => by simp at hr, fun js hjs => .inl (List.mem_singleton.mp hjs)⟩
  obtain ⟨hall, -⟩ := enumerate_spec henum hinit
  refine ⟨⟨is, hall.start, fun i hi => ?_⟩, fun q j v ks hj hq => ?_⟩
  · exact (predicted_of_closure his i hi).mono (by simp)
  · obtain ⟨r, hr, hlookup⟩ := Option.bind_eq_some_iff.mp hj
    obtain ⟨-, -, js, hjs, hclos⟩ := (hall.transitions q ks r hq hr).leadsTo (v, j) (mem_of_lookup hlookup)
    exact ⟨js, hjs, predicted_of_closure hclos⟩

lemma lalr1parser_grounded {n : ℕ} {g : Grammar T} {s : T} {p : ParserDef T} (h : lalr1parser n g s = some p) :
    Grounded p := by
  simp only [lalr1parser, Option.bind_eq_bind, Option.bind_eq_some_iff, pure, Option.some.injEq] at h
  obtain ⟨p₀, hp₀, tl, -, rfl⟩ := h
  obtain ⟨hstart, hfollow⟩ := lr0parser_grounded hp₀
  exact ⟨hstart, hfollow⟩

namespace Driver

open Tree

variable {n : ℕ} {g : Grammar T} {s : T} {p : ParserDef T} {px : Precedence T} {tbl : LrTable T} {w : List T}
  {c : Config T} {zs : List (ℕ × Tree (Terminal T))} {is : Itemset T} {i : Item T}

lemma eq_leaf {α : Type} [DecidableEq α] {g : Grammar α} {t : Tree α} (h : Valid g t)
    (hrule : hasRule g t.root = false) : t = .leaf t.root := by
  cases h with
  | leaf _ => rfl
  | node hr _ => exact absurd (hasRule_of_ruleOf hr) (by simpa [root] using hrule)

lemma exists_trees {α : Type} [DecidableEq α] {g : Grammar α} (h : Productive g) (w : Rule α) :
    ∃ ts : List (Tree α), ts.map root = w ∧ ∀ t ∈ ts, Valid g t := by
  induction w with
  | nil => exact ⟨[], rfl, List.forall_mem_nil _⟩
  | cons x w ih =>
    obtain ⟨ts, rfl, hts⟩ := ih
    obtain ⟨t, ht, rfl⟩ := h x
    exact ⟨t :: ts, rfl, List.forall_mem_cons.mpr ⟨ht, hts⟩⟩

/-- Whatever completes the item after what is on the stack completes it to a tree for the boot rule. -/
def Completes (p : ParserDef T) (zs : List (ℕ × Tree (Terminal T))) (i : Item T) : Prop :=
  ∀ (v : Rule (Terminal T)) (ts : List (Tree (Terminal T))), ruleOf p.g i.agg i.r = some v → (∀ t ∈ ts, Valid p.g t) →
    ts.map root = v.drop i.p → ∃ t, Valid p.g t ∧ t.root = .privstart ∧ consumed zs ++ yields ts <+: t.yield

lemma completes_of_predicted (hprod : Productive p.g) (h : Predicted p.g is i)
    (hbase : ∀ i ∈ is, Completes p zs i) : Completes p zs i := by
  induction h with
  | base hi => exact hbase _ hi
  | @step i j _ hnext hp ih =>
    intro v ts hv hts hroots
    rw [hp, List.drop_zero] at hroots
    obtain ⟨v', hv', hp'⟩ := next_eq_some.mp hnext
    obtain ⟨us, hus, hvalid⟩ := exists_trees hprod (v'.drop (j.p + 1))
    obtain ⟨hlt, hget⟩ := List.getElem?_eq_some_iff.mp hp'
    -- what completes `i` is the symbol that `j` reads next
    have hnode : Valid p.g (.node i.agg i.r ts) := .node (hroots ▸ hv) hts
    obtain ⟨t, ht, hroot, hpre⟩ := ih v' (.node i.agg i.r ts :: us) hv'
      (List.forall_mem_cons.mpr ⟨hnode, hvalid⟩) (by rw [List.map_cons, hus, List.drop_eq_getElem_cons hlt, hget]; rfl)
    refine ⟨t, ht, hroot, List.IsPrefix.trans ?_ hpre⟩
    rw [yields, yield, ← List.append_assoc]
    exact List.prefix_append _ _

lemma Stacked.completes (h : Stacked p zs) (ha : Automaton p) (hgr : Grounded p) (hprod : Productive p.g)
    (his : p.states[topState zs]? = some is) : ∀ i ∈ is, Completes p zs i := by
  induction h generalizing is with
  | nil =>
    obtain ⟨is', his', hpred⟩ := hgr.start
    obtain rfl : is = is' := Option.some.inj (his.symm.trans his')
    refine fun i hi => completes_of_predicted hprod (hpred i hi) fun k hk => ?_
    obtain ⟨hagg, hp, -⟩ := mem_ruleItems.mp hk
    intro v ts hv hts hroots
    rw [hp, List.drop_zero] at hroots
    refine ⟨.node k.agg k.r ts, .node (hroots ▸ hv) hts, hagg, ?_⟩
    simp [consumed, yield, yields]
  | @cons zs j t hzs hj ht ih =>
    obtain ⟨js, hjs⟩ := hzs.exists_state ha
    obtain ⟨is', his', hpred⟩ := hgr.follow _ _ _ _ hj hjs
    obtain rfl : is = is' := Option.some.inj (his.symm.trans his')
    refine fun i hi => completes_of_predicted hprod (hpred i hi) fun k hk => ?_
    obtain ⟨k, hmem, hnext, rfl⟩ := mem_followItems.mp hk
    intro v ts hv hts hroots
    obtain ⟨v', hv', hp'⟩ := next_eq_some.mp hnext
    obtain rfl : v = v' := Option.some.inj (hv.symm.trans hv')
    obtain ⟨hlt, hget⟩ := List.getElem?_eq_some_iff.mp hp'
    obtain ⟨u, hu, hroot, hpre⟩ := ih hjs k hmem v (t :: ts) hv (List.forall_mem_cons.mpr ⟨ht, hts⟩) (by
      rw [List.map_cons, hroots, List.drop_eq_getElem_cons hlt, hget]
      rfl)
    refine ⟨u, hu, hroot, ?_⟩
    rw [consumed_cons, List.append_assoc]
    exact hpre

lemma ruleOf_privstart : ruleOf (bootGrammar g s) .privstart 0 = some [.user s, .endOfFile] := by
  simp [ruleOf, aggRules, bootGrammar, nthRule]

/-- The states are not empty. -/
lemma Stacked.exists_item (h : Stacked p zs) (ha : Automaton p) (hg : p.g = bootGrammar g s) :
    ∃ is i v, p.states[topState zs]? = some is ∧ i ∈ is ∧ ruleOf p.g i.agg i.r = some v := by
  cases h with
  | nil =>
    obtain ⟨is, his, hclos⟩ := ha.start
    have hrule : ruleOf p.g .privstart 0 = some [.user s, .endOfFile] := hg ▸ ruleOf_privstart
    refine ⟨is, ⟨.privstart, 0, 0⟩, _, his, hclos.base _ (mem_ruleItems.mpr ⟨rfl, rfl, ?_⟩), hrule⟩
    rw [hrule]
    rfl
  | @cons zs j t hzs hj ht =>
    obtain ⟨js, hjs⟩ := hzs.exists_state ha
    obtain ⟨-, hv, is, his, hclos⟩ := ha.follow_spec _ _ _ _ hj hjs
    obtain ⟨k, hk, hnext⟩ := mem_nextAll.mp hv
    obtain ⟨v, hw, -⟩ := next_eq_some.mp hnext
    exact ⟨is, succ k, v, his, hclos.base _ (mem_followItems.mpr ⟨k, hk, hnext, rfl⟩), hw⟩

/-- The driver has come from the start on `w` to `c`. -/
def Reached (tbl : LrTable T) (w : List T) : Config T → Prop :=
  Relation.ReflTransGen (fun c c' => step tbl c = .next c') (init w)

lemma Reached.sound (h : Reached tbl w c) (ha : Automaton p) (htbl : lalrTable p px = .ok tbl) : Sound p w c := by
  induction h with
  | refl => exact sound_init p w
  | tail _ hstep ih => exact ih.step ha htbl hstep

section

variable [DecidableEq T]

lemma valid_map_user {u : Tree T} (h : Valid g u) : Valid (bootGrammar g s) (u.map .user) := by
  induction h with
  | @leaf t h =>
    rw [Tree.map]
    exact .leaf (by rwa [hasRule_bootGrammar_user])
  | @node x r ts hr _ ih =>
    rw [Tree.map, maps_eq_map]
    refine .node ?_ ?_
    · rw [ruleOf_bootGrammar_user, hr, Option.map_some, List.map_map, List.map_map]
      refine congrArg some (List.map_congr_left fun t _ => ?_)
      cases t <;> simp [Tree.map, root]
    · intro t ht
      obtain ⟨u, hu, rfl⟩ := List.mem_map.mp ht
      exact ih u hu

lemma productive_bootGrammar (h : Productive g) : Productive (bootGrammar g s) := by
  have huser : ∀ x, ∃ t, Valid (bootGrammar g s) t ∧ t.root = .user x := by
    intro x
    obtain ⟨u, hu, rfl⟩ := h x
    refine ⟨u.map .user, valid_map_user hu, ?_⟩
    cases u <;> simp [Tree.map, root]
  intro x
  cases x with
  | user x => exact huser x
  | endOfFile => exact ⟨.leaf .endOfFile, .leaf hasRule_endOfFile, rfl⟩
  | privstart =>
    obtain ⟨t, ht, hroot⟩ := huser s
    refine ⟨.node .privstart 0 [t, .leaf .endOfFile], .node ?_ ?_, rfl⟩
    · rw [ruleOf_privstart, List.map_cons, hroot]
      rfl
    · exact List.forall_mem_cons.mpr ⟨ht, List.forall_mem_singleton.mpr (.leaf hasRule_endOfFile)⟩

/-- A tree for the boot rule is one for the start symbol before the end marker. -/
lemma exists_tree_of_privstart {t : Tree (Terminal T)} (ht : Valid (bootGrammar g s) t) (hroot : t.root = .privstart) :
    ∃ u : Tree T, Valid g u ∧ u.root = s ∧ t.yield = u.yield.map .user ++ [.endOfFile] := by
  cases ht with
  | leaf h =>
    obtain rfl := hroot
    simp [hasRule_of_ruleOf ruleOf_privstart] at h
  | @node x r ts hr hts =>
    obtain rfl : x = .privstart := hroot
    rcases ruleOf_bootGrammar hr with ⟨-, hroots⟩ | ⟨⟨x, hx⟩, -⟩
    · obtain ⟨t, us, rfl, hs, hus⟩ := List.map_eq_cons_iff.mp hroots
      obtain ⟨e, us, rfl, he, hnil⟩ := List.map_eq_cons_iff.mp hus
      obtain rfl := List.map_eq_nil_iff.mp hnil
      rw [List.forall_mem_cons, List.forall_mem_singleton] at hts
      obtain ⟨u, -, hu, rfl, hyield⟩ := exists_map_user hts.1 hs
      refine ⟨u, hu, rfl, ?_⟩
      have hleaf : e = .leaf .endOfFile := he ▸ eq_leaf hts.2 (he ▸ hasRule_endOfFile)
      simp [hleaf, yield, yields, hyield]
    · cases hx

/-- Where every symbol of the grammar derives something, whatever the driver has read of an input, at any time, is
where a sentence of the grammar begins. -/
theorem read_prefix (h : lalr1parser n g s = some p) (htbl : lalrTable p px = .ok tbl) (hprod : Productive g)
    (hc : Reached tbl w c) :
    ∃ (pre : List T) (u : Tree T), w = pre ++ c.rest ∧ Valid g u ∧ u.root = s ∧ pre <+: u.yield := by
  obtain ⟨ha, hg⟩ := lalr1parser_automaton h
  have hsound := hc.sound ha htbl
  have hprod' : Productive p.g := hg ▸ productive_bootGrammar hprod
  obtain ⟨is, i, v, his, hi, hv⟩ := hsound.stacked.exists_item ha hg
  obtain ⟨ts, hroots, hts⟩ := exists_trees hprod' (v.drop i.p)
  obtain ⟨t, ht, hroot, hpre⟩ :=
    hsound.stacked.completes ha (lalr1parser_grounded h) hprod' his i hi v ts hv hts hroots
  rw [hg] at ht
  obtain ⟨u, hu, hs, hyield⟩ := exists_tree_of_privstart ht hroot
  have hinj : Function.Injective (Terminal.user : T → Terminal T) := fun x y hxy => Terminal.user.inj hxy
  -- what was read is a part of the input
  obtain ⟨pre, rest, hw, hpre', hrest⟩ := List.map_eq_append_iff.mp hsound.input.symm
  obtain rfl := hinj.list_map hrest
  refine ⟨pre, u, hw, hu, hs, ?_⟩
  have hread : pre.map Terminal.user <+: u.yield.map Terminal.user ++ [.endOfFile] := by
    rw [hpre', ← hyield]
    exact (List.prefix_append _ _).trans hpre
  rcases List.prefix_concat_iff.mp hread with heq | ⟨rest, hrest⟩
  · have hmem : Terminal.endOfFile ∈ pre.map Terminal.user := heq ▸ List.mem_append_right _ (List.mem_singleton_self _)
    simp at hmem
  · obtain ⟨pre', rest', hu', hpre', -⟩ := List.map_eq_append_iff.mp hrest.symm
    rw [hu', ← hinj.list_map hpre']
    exact List.prefix_append _ _

end

lemma productive_parens : Productive parens := by
  intro x
  rcases eq_or_ne x 0 with rfl | hx
  · exact ⟨.node 0 1 [], .node rfl (List.forall_mem_nil _), rfl⟩
  · refine ⟨.leaf x, .leaf ?_, rfl⟩
    rw [hasRule, parens, lookup_cons_of_ne hx]
    rfl

lemma parens_stops : parensTable.any (fun tbl => match step tbl (init [1, 3]) with
    | .next c => decide (c.rest = [3] ∧ action tbl c = none)
    | _ => false) = true := by
  decide +kernel

/-- Of an input that goes wrong after `(`, just this is read. -/
theorem read_prefix_parens :
    ∃ (pre : List ℕ) (u : Tree ℕ), [1, 3] = pre ++ [3] ∧ Valid parens u ∧ u.root = 0 ∧ pre <+: u.yield := by
  obtain ⟨tbl, htbl, hstep⟩ := (Option.any_eq_true _ _).mp parens_stops
  obtain ⟨p, hp, htbl⟩ := parensTable_eq_some htbl
  split at hstep
  · rename_i c hc
    obtain ⟨hrest, -⟩ := of_decide_eq_true hstep
    obtain ⟨pre, u, hpre, hu⟩ := read_prefix hp htbl productive_parens (.single hc)
    exact ⟨pre, u, hrest ▸ hpre, hu⟩
  · cases hstep

end Driver

end Hobbes.Parse
