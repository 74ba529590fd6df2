import Hobbes.Parse.Lalr

/-!
# The states of the LR(0) parser
-/

namespace Hobbes.Parse

open Core

variable {T : Type} [LinearOrder (Terminal T)] {g : Grammar (Terminal T)} {n : ℕ}
  {is js : Itemset T} {t v : Terminal T} {i : Item T}

/-! ### Items -/

lemma mem_nextAll : t ∈ nextAll g is ↔ ∃ i ∈ is, next g i = some t := by
  simp [nextAll]

lemma mem_nextPrim : t ∈ nextPrim g is ↔ (∃ i ∈ is, next g i = some t) ∧ hasRule g t = false := by
  simp [nextPrim]

lemma mem_followItems : i ∈ followItems g is v ↔ ∃ j ∈ is, next g j = some v ∧ succ j = i := by
  simp [followItems, and_assoc]

lemma mem_ruleItems : i ∈ ruleItems g t ↔ i.agg = t ∧ i.p = 0 ∧ (ruleOf g t i.r).isSome := by
  cases i with
  | mk agg p r =>
    cases haggs : g.lookup t with
    | none => simp [ruleItems, aggRules, ruleOf, haggs]
    | some rs =>
      simp only [ruleItems, aggRules, haggs, Option.getD_some, List.mem_map, List.mem_range,
        Item.mk.injEq, ruleOf, nthRule, Option.bind_some, isSome_getElem?]
      constructor
      · rintro ⟨r', hr', rfl, rfl, rfl⟩
        exact ⟨rfl, rfl, hr'⟩
      · rintro ⟨rfl, rfl, hr⟩
        exact ⟨r, hr, rfl, rfl, rfl⟩

lemma next_eq_some : next g i = some t ↔ ∃ w, ruleOf g i.agg i.r = some w ∧ w[i.p]? = some t :=
  Option.bind_eq_some_iff

/-- What the closure of a set of items consists of. -/
structure IsClosure (g : Grammar (Terminal T)) (is js : Itemset T) : Prop where
  base : ∀ i ∈ is, i ∈ js
  closed : ∀ j ∈ js, ∀ i : Item T, next g j = some i.agg → i.p = 0 →
    (ruleOf g i.agg i.r).isSome → i ∈ js
  elim : ∀ i ∈ js, i ∈ is ∨ i.p = 0 ∧ (ruleOf g i.agg i.r).isSome ∧
    ∃ j ∈ js, next g j = some i.agg

lemma mem_closureRound : i ∈ closureRound g is ↔
    i ∈ is ∨ ∃ j ∈ is, next g j = some i.agg ∧ i.p = 0 ∧ (ruleOf g i.agg i.r).isSome := by
  have hfold : ∀ (ts : TerminalSet T) (is : Itemset T),
      i ∈ ts.foldl (fun is t => if hasRule g t then insertAll Item.le is (ruleItems g t) else is)
        is ↔ i ∈ is ∨ i.agg ∈ ts ∧ i.p = 0 ∧ (ruleOf g i.agg i.r).isSome := by
    intro ts
    induction ts with
    | nil => simp
    | cons t ts ih =>
      intro is
      rw [List.foldl_cons, ih]
      split_ifs with ht
      · rw [mem_insertAll, mem_ruleItems, List.mem_cons]
        constructor
        · rintro ((h | ⟨rfl, h⟩) | ⟨h, h'⟩)
          · exact .inl h
          · exact .inr ⟨.inl rfl, h⟩
          · exact .inr ⟨.inr h, h'⟩
        · rintro (h | ⟨rfl | h, h'⟩)
          · exact .inl (.inl h)
          · exact .inl (.inr ⟨rfl, h'⟩)
          · exact .inr ⟨h, h'⟩
      · rw [List.mem_cons]
        refine or_congr_right ⟨fun h => ⟨.inr h.1, h.2⟩, ?_⟩
        rintro ⟨rfl | h, hp, hr⟩
        · obtain ⟨w, hw⟩ := Option.isSome_iff_exists.mp hr
          exact absurd (hasRule_of_ruleOf hw) ht
        · exact ⟨h, hp, hr⟩
  rw [closureRound, hfold, mem_nextAll]
  constructor
  · rintro (h | ⟨⟨j, hj, hnext⟩, h⟩)
    · exact .inl h
    · exact .inr ⟨j, hj, hnext, h⟩
  · rintro (h | ⟨j, hj, hnext, h⟩)
    · exact .inl h
    · exact .inr ⟨⟨j, hj, hnext⟩, h⟩

lemma closure_isClosure (h : closure n g is = some js) : IsClosure g is js := by
  have hfixed : closureRound g js = js := fixpoint_fixed h
  refine ⟨?_, fun j hj i hnext hp hr => ?_, ?_⟩
  · refine fixpoint_invariant (P := fun ks => ∀ i ∈ is, i ∈ ks) h (fun i hi => hi) fun ks hks i hi => ?_
    exact mem_closureRound.mpr (.inl (hks i hi))
  · rw [← hfixed]
    exact mem_closureRound.mpr (.inr ⟨j, hj, hnext, hp, hr⟩)
  · refine fixpoint_invariant (P := fun ks => ∀ i ∈ ks, i ∈ is ∨ i.p = 0 ∧
      (ruleOf g i.agg i.r).isSome ∧ ∃ j ∈ ks, next g j = some i.agg) h (fun i hi => .inl hi)
      fun ks hks i hi => ?_
    rcases mem_closureRound.mp hi with hi | ⟨j, hj, hnext, hp, hr⟩
    · refine (hks i hi).imp_right fun ⟨hp, hr, j, hj, hnext⟩ => ⟨hp, hr, j, ?_, hnext⟩
      exact mem_closureRound.mpr (.inl hj)
    · exact .inr ⟨hp, hr, j, mem_closureRound.mpr (.inl hj), hnext⟩

/-! ### Numbering the states -/

variable {states states' : List (Itemset T)}

lemma parserState_spec (is : Itemset T) (states : List (Itemset T)) :
    states <+: (parserState is states).2 ∧
      (parserState is states).2[(parserState is states).1]? = some is ∧
      ∀ js ∈ (parserState is states).2, js ∈ states ∨ js = is := by
  by_cases hmem : is ∈ states
  · simp only [parserState, hmem, if_true]
    exact ⟨List.prefix_rfl, List.getElem?_idxOf hmem, fun _ => .inl⟩
  · simp [parserState, hmem]

/-- `v` leads from the items `is` to the state `j`. -/
def LeadsTo (n : ℕ) (g : Grammar (Terminal T)) (is : Itemset T) (states : List (Itemset T))
    (v : Terminal T) (j : ℕ) : Prop :=
  v ≠ .endOfFile ∧ v ∈ nextAll g is ∧
    ∃ js, states[j]? = some js ∧ closure n g (followItems g is v) = some js

lemma LeadsTo.mono {j : ℕ} (h : LeadsTo n g is states v j) (hpre : states <+: states') :
    LeadsTo n g is states' v j := by
  obtain ⟨hv, hmem, js, hj, hjs⟩ := h
  exact ⟨hv, hmem, js, getElem?_of_prefix hpre hj, hjs⟩

/-- The transitions `r` of the items `is`. -/
structure TransitionsOf (n : ℕ) (g : Grammar (Terminal T)) (is : Itemset T)
    (states : List (Itemset T)) (r : StateTransitions T) : Prop where
  leadsTo : ∀ x ∈ r, LeadsTo n g is states x.1 x.2
  exists_of_mem : ∀ v ∈ nextAll g is, v ≠ .endOfFile → ∃ j, (v, j) ∈ r

lemma TransitionsOf.mono {r : StateTransitions T} (h : TransitionsOf n g is states r)
    (hpre : states <+: states') : TransitionsOf n g is states' r :=
  ⟨fun x hx => (h.leadsTo x hx).mono hpre, h.exists_of_mem⟩

lemma followStates_spec {vs : TerminalSet T} {r r' : StateTransitions T}
    (h : followStates n g is vs r states = some (r', states')) (hvs : ∀ v ∈ vs, v ∈ nextAll g is) :
    states <+: states' ∧ (∀ x ∈ r', x ∈ r ∨ LeadsTo n g is states' x.1 x.2) ∧
      (∀ x ∈ r, x ∈ r') ∧ (∀ v ∈ vs, v ≠ .endOfFile → ∃ j, (v, j) ∈ r') ∧
      ∀ js ∈ states', js ∈ states ∨
        ∃ v ∈ vs, v ≠ .endOfFile ∧ closure n g (followItems g is v) = some js := by
  induction vs generalizing r states with
  | nil =>
    cases h
    exact ⟨List.prefix_rfl, fun _ => .inl, fun _ => id, by simp, fun _ => .inl⟩
  | cons v vs ih =>
    obtain ⟨hv, hvs⟩ := List.forall_mem_cons.mp hvs
    rw [followStates] at h
    split_ifs at h with heof
    · obtain ⟨hpre, helim, hkeep, hall, hnew⟩ := ih h hvs
      refine ⟨hpre, helim, hkeep, List.forall_mem_cons.mpr ⟨fun hne => absurd heof hne, hall⟩, ?_⟩
      exact fun js hjs => (hnew js hjs).imp_right fun ⟨u, hu, h⟩ => ⟨u, List.mem_cons_of_mem v hu, h⟩
    · rw [Option.bind_eq_bind, Option.bind_eq_some_iff] at h
      obtain ⟨js, hjs, h⟩ := h
      have hspec := parserState_spec js states
      rcases hps : parserState js states with ⟨j, states₁⟩
      rw [hps] at h hspec
      obtain ⟨hpre₁, hj, hold⟩ : states <+: states₁ ∧ states₁[j]? = some js ∧
        ∀ ks ∈ states₁, ks ∈ states ∨ ks = js := hspec
      obtain ⟨hpre, helim, hkeep, hall, hnew⟩ := ih h hvs
      have hlead : LeadsTo n g is states' v j :=
        ⟨heof, hv, js, getElem?_of_prefix hpre hj, hjs⟩
      refine ⟨hpre₁.trans hpre, fun x hx => ?_, fun x hx => ?_, ?_, fun ks hks => ?_⟩
      · rcases helim x hx with hx | hx
        · rcases List.mem_append.mp hx with hx | hx
          · exact .inl hx
          · rw [List.mem_singleton.mp hx]
            exact .inr hlead
        · exact .inr hx
      · exact hkeep x (List.mem_append_left _ hx)
      · refine List.forall_mem_cons.mpr ⟨fun _ => ⟨j, hkeep (v, j) ?_⟩, hall⟩
        exact List.mem_append_right r (List.mem_singleton_self _)
      · rcases hnew ks hks with hks | ⟨u, hu, h⟩
        · rcases hold ks hks with hks | rfl
          · exact .inl hks
          · exact .inr ⟨v, List.mem_cons_self, heof, hjs⟩
        · exact .inr ⟨u, List.mem_cons_of_mem v hu, h⟩

/-- What is known of the states and of the transitions found so far. -/
structure Enumerated (n : ℕ) (g : Grammar (Terminal T)) (is₀ : Itemset T)
    (states : List (Itemset T)) (trs : List (StateTransitions T)) : Prop where
  start : states[0]? = some is₀
  length : trs.length ≤ states.length
  transitions : ∀ (q : ℕ) (is : Itemset T) (r : StateTransitions T), states[q]? = some is →
    trs[q]? = some r → TransitionsOf n g is states r
  reached : ∀ is ∈ states, is = is₀ ∨ ∃ js ∈ states, ∃ v ∈ nextAll g js,
    v ≠ .endOfFile ∧ closure n g (followItems g js v) = some is

lemma enumerate_spec {is₀ : Itemset T} {k : ℕ} {trs trs' : List (StateTransitions T)}
    (h : enumerate n g k states trs = some (states', trs'))
    (hinv : Enumerated n g is₀ states trs) :
    Enumerated n g is₀ states' trs' ∧ trs'.length = states'.length := by
  induction k generalizing states trs with
  | zero => cases h
  | succ k ih =>
    rw [enumerate] at h
    split at h
    · rename_i hnone
      cases h
      exact ⟨hinv, Nat.le_antisymm hinv.length (List.getElem?_eq_none_iff.mp hnone)⟩
    · rename_i is hsome
      rw [Option.bind_eq_bind, Option.bind_eq_some_iff] at h
      obtain ⟨⟨r, states₁⟩, hr, h⟩ := h
      obtain ⟨hpre, helim, -, hall, hnew⟩ := followStates_spec hr fun v hv => hv
      have hlt : trs.length < states.length := (List.getElem?_eq_some_iff.mp hsome).1
      have hstart : states₁[0]? = some is₀ := getElem?_of_prefix hpre hinv.start
      refine ih h ⟨hstart, ?_, fun q js s hq hs => ?_, fun js hjs => ?_⟩
      · have := hpre.length_le
        simp only [List.length_append, List.length_singleton]
        omega
      · rcases Nat.lt_or_ge q trs.length with hlt' | hge
        · rw [List.getElem?_append_left hlt'] at hs
          have hjs : states[q]? = some js := by
            obtain ⟨more, rfl⟩ := hpre
            rwa [List.getElem?_append_left (Nat.lt_trans hlt' hlt)] at hq
          exact (hinv.transitions q js s hjs hs).mono hpre
        · have hqlen : q = trs.length := by
            have := (List.getElem?_eq_some_iff.mp hs).1
            simp only [List.length_append, List.length_singleton] at this
            omega
          subst hqlen
          have hold : states₁[trs.length]? = some is := getElem?_of_prefix hpre hsome
          rw [hold] at hq
          rw [List.getElem?_append_right (Nat.le_refl _), Nat.sub_self] at hs
          cases hq
          cases hs
          exact ⟨fun x hx => (helim x hx).resolve_left List.not_mem_nil, hall⟩
      · rcases hnew js hjs with hjs | ⟨v, hv, hne, hclos⟩
        · refine (hinv.reached js hjs).imp_right fun ⟨ks, hks, h⟩ => ⟨ks, hpre.subset hks, h⟩
        · exact .inr ⟨is, hpre.subset (List.mem_of_getElem? hsome), v, hv, hne, hclos⟩

/-! ### The automaton -/

/-- What is known of an LR(0) parser. -/
structure Automaton (p : ParserDef T) : Prop where
  start : ∃ is, p.states[0]? = some is ∧ IsClosure p.g (ruleItems p.g .privstart) is
  follow_spec : ∀ (q j : ℕ) (v : Terminal T) (is : Itemset T), follow p q v = some j →
    p.states[q]? = some is → v ≠ .endOfFile ∧ v ∈ nextAll p.g is ∧
      ∃ js, p.states[j]? = some js ∧ IsClosure p.g (followItems p.g is v) js
  follow_isSome : ∀ (q : ℕ) (v : Terminal T) (is : Itemset T), p.states[q]? = some is →
    v ∈ nextAll p.g is → v ≠ .endOfFile → (follow p q v).isSome
  reached : ∀ is ∈ p.states, p.states[0]? = some is ∨ ∃ js ∈ p.states, ∃ v ∈ nextAll p.g js,
    v ≠ .endOfFile ∧ IsClosure p.g (followItems p.g js v) is

lemma lr0parser_automaton {g : Grammar T} {s : T} {p : ParserDef T}
    (h : lr0parser n g s = some p) : Automaton p ∧ p.g = bootGrammar g s := by
  simp only [lr0parser, Option.bind_eq_bind, Option.bind_eq_some_iff, pure,
    Option.some.injEq] at h
  obtain ⟨is, his, ⟨states, trs⟩, henum, nullable, -, rfl⟩ := h
  have hinit : Enumerated n (bootGrammar g s) is [is] [] :=
    ⟨rfl, Nat.zero_le _, fun q js r _ hr => by simp at hr,
      fun js hjs => .inl (List.mem_singleton.mp hjs)⟩
  obtain ⟨hall, hlen⟩ := enumerate_spec henum hinit
  have hrow : ∀ (q : ℕ) (is : Itemset T), states[q]? = some is →
      ∃ r, trs[q]? = some r ∧ TransitionsOf n (bootGrammar g s) is states r := by
    intro q is hq
    have hlt : q < trs.length := hlen ▸ (List.getElem?_eq_some_iff.mp hq).1
    exact ⟨trs[q], List.getElem?_eq_getElem hlt,
      hall.transitions q is _ hq (List.getElem?_eq_getElem hlt)⟩
  have hstart : IsClosure (bootGrammar g s) (ruleItems (bootGrammar g s) .privstart) is := by
    have hmem : ∀ i, i ∈ insertAll Item.le [] (ruleItems (bootGrammar g s) .privstart) ↔
        i ∈ ruleItems (bootGrammar g s) .privstart := by simp
    obtain ⟨hbase, hclosed, helim⟩ := closure_isClosure his
    exact ⟨fun i hi => hbase i ((hmem i).mpr hi), hclosed,
      fun i hi => (helim i hi).imp_left (hmem i).mp⟩
  refine ⟨⟨⟨is, hall.start, hstart⟩, fun q j v ks hj hq => ?_, fun q v ks hq hv hne => ?_,
    fun ks hks => ?_⟩, rfl⟩
  · obtain ⟨r, hr, htrs⟩ := hrow q ks hq
    have hmem : (v, j) ∈ r := mem_of_lookup (by simpa [follow, hr] using hj)
    obtain ⟨hne, hv, js, hjs, hclos⟩ := htrs.leadsTo (v, j) hmem
    exact ⟨hne, hv, js, hjs, closure_isClosure hclos⟩
  · obtain ⟨r, hr, htrs⟩ := hrow q ks hq
    obtain ⟨j, hj⟩ := htrs.exists_of_mem v hv hne
    have hlookup : (r.lookup v).isSome :=
      List.lookup_isSome_iff.mpr ⟨(v, j), hj, by simp⟩
    simpa [follow, hr] using hlookup
  · rcases hall.reached ks hks with rfl | ⟨js, hjs, v, hv, hne, hclos⟩
    · exact .inl hall.start
    · exact .inr ⟨js, hjs, v, hv, hne, closure_isClosure hclos⟩

end Hobbes.Parse
