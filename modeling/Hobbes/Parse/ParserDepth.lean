import Hobbes.Parse.ParserCalls

/-!
# The depth of a state

The depth of a state is the number of values that its functions take. It grows by at most one with
a transition, and no rule that the state reduces is longer.
-/

namespace Hobbes.Parse

open Core

variable {V : Type}

/-! ### The rules of a definition -/

section

variable {g : Grammar Sym} {x y : Sym} {rl : Rule Sym}

lemma lookup_map_pushRule : (g.map fun z => if z.1 = y then (y, z.2 ++ [rl]) else z).lookup x =
    if x = y then (g.lookup y).map (· ++ [rl]) else g.lookup x := by
  induction g with
  | nil => simp
  | cons z g ih =>
    obtain ⟨k, rs⟩ := z
    rw [List.map_cons]
    by_cases hk : k = y
    · subst hk
      by_cases hx : x = k
      · subst hx
        simp
      · rw [if_pos rfl, lookup_cons_of_ne hx, lookup_cons_of_ne hx, ih]
        simp [hx]
    · rw [if_neg hk]
      by_cases hx : x = k
      · subst hx
        simp [hk]
      · rw [lookup_cons_of_ne hx, lookup_cons_of_ne hx, ih, lookup_cons_of_ne (Ne.symm hk)]

lemma lookup_pushRule : (pushRule g y rl).lookup x =
    if x = y then some ((g.lookup y).getD [] ++ [rl]) else g.lookup x := by
  unfold pushRule
  split_ifs with hrule hx hx
  · obtain ⟨rs, hrs⟩ := Option.isSome_iff_exists.mp hrule
    rw [lookup_map_pushRule, if_pos hx, hrs]
    rfl
  · rw [lookup_map_pushRule, if_neg hx]
  · have hnone : g.lookup y = none := Option.not_isSome_iff_eq_none.mp hrule
    simp [List.lookup_append, hx, hnone]
  · rw [List.lookup_append, lookup_cons_of_ne hx]
    simp

/-- The rules of a symbol are those that the definition has for it, in order. -/
lemma lookup_extractGrammar (ps : Parser V) : ((extractGrammar ps).lookup x).getD [] =
    (ps.filter fun r => r.symbol = x).map (fun r => extractGrammarRule r.bindings) := by
  have hfold : ∀ (ps : Parser V) (g : Grammar Sym),
      ((ps.foldl (fun g r => pushRule g r.symbol (extractGrammarRule r.bindings)) g).lookup x).getD
        [] = (g.lookup x).getD [] ++
          (ps.filter fun r => r.symbol = x).map (fun r => extractGrammarRule r.bindings) := by
    intro ps
    induction ps with
    | nil => simp
    | cons r ps ih =>
      intro g
      rw [List.foldl_cons, ih, lookup_pushRule]
      by_cases hx : x = r.symbol
      · simp [hx]
      · simp [hx, Ne.symm hx]
  exact hfold ps []

variable [LinearOrder (Terminal Sym)]

/-- A rule of the grammar is a rule of the definition. -/
lemma evalExpr_of_ruleOf {pei : ParserEvalInfo V} {s : Sym} {t : Terminal Sym} {r : ℕ}
    {w : Rule (Terminal Sym)} (hw : ruleOf (bootGrammar (extractGrammar pei.rules) s) t r = some w)
    (ht : t ≠ .privstart) : ∃ rl, pei.evalExpr t r = some rl ∧ rl.bindings.length = w.length := by
  obtain ⟨x, rfl⟩ : ∃ x, t = Terminal.user x := by
    rcases ruleOf_bootGrammar hw with ⟨rfl, -⟩ | ⟨h, -⟩
    exacts [absurd rfl ht, h]
  obtain ⟨rs, hrs, hr⟩ := ruleOf_eq_some.mp hw
  rw [lookup_bootGrammar_user, Option.map_eq_some_iff] at hrs
  obtain ⟨rs, hrs, rfl⟩ := hrs
  have hrules := lookup_extractGrammar pei.rules (x := x)
  rw [hrs, Option.getD_some] at hrules
  rw [hrules, List.getElem?_map, List.getElem?_map, Option.map_map, Option.map_eq_some_iff] at hr
  obtain ⟨rl, hrl, rfl⟩ := hr
  refine ⟨rl, ?_, by simp [extractGrammarRule]⟩
  rw [ParserEvalInfo.evalExpr, ← hrl]
  congr 2
  funext r
  simp [eq_comm]

lemma hasRule_root {ps : Parser V} {r : ParseRule V} :
    hasRule (bootGrammar (extractGrammar (r :: ps)) r.symbol) (.user r.symbol) = true := by
  rw [hasRule, lookup_bootGrammar_user, Option.isSome_map]
  have hrules := lookup_extractGrammar (r :: ps) (x := r.symbol)
  cases hlookup : (extractGrammar (r :: ps)).lookup r.symbol with
  | none => simp [hlookup] at hrules
  | some rs => rfl

end

/-! ### What a parser is made from -/

variable [LinearOrder (Terminal Sym)] {pei : ParserEvalInfo V} {root : Sym} {px : Precedence Sym}
  {n q j : ℕ} {t x : Terminal Sym}

/-- What is known of the table that a parser is made from. -/
structure Prepared (pei : ParserEvalInfo V) (root : Sym) (px : Precedence Sym) : Prop where
  automaton : Automaton pei.pdef
  grammar : pei.pdef.g = bootGrammar (extractGrammar pei.rules) root
  table : lalrTable pei.pdef px = .ok pei.table
  lookahead : ∀ q i, ∀ t ∈ pei.pdef.la q i, hasRule pei.pdef.g t = false

lemma prepareEvalInfo_prepared {ps : Parser V}
    (h : prepareEvalInfo n ps root px = some (.ok pei)) : Prepared pei root px ∧ pei.rules = ps := by
  simp only [prepareEvalInfo, Option.bind_eq_bind, Option.bind_eq_some_iff, pure,
    Option.some.injEq] at h
  obtain ⟨pdef, hpdef, h⟩ := h
  split at h
  · rename_i tbl htbl
    obtain rfl := Except.ok.inj h
    have hla : ∀ q i, ∀ t ∈ pdef.la q i, hasRule pdef.g t = false :=
      fun q i t ht => hasRule_of_mem_lookahead hpdef ht
    simp only [lalr1parser, Option.bind_eq_bind, Option.bind_eq_some_iff, pure,
      Option.some.injEq] at hpdef
    obtain ⟨p₀, hp₀, tl, -, rfl⟩ := hpdef
    obtain ⟨hauto, hg⟩ := lr0parser_automaton hp₀
    exact ⟨⟨⟨hauto.start, hauto.follow_spec, hauto.follow_isSome, hauto.reached⟩, hg, htbl, hla⟩, rfl⟩
  · cases h

omit [LinearOrder (Terminal Sym)] in
lemma le_parseDepth {is : Itemset Sym} {i : Item Sym} (hq : pei.pdef.states[q]? = some is)
    (hi : i ∈ is) : i.p ≤ pei.parseDepth q := by
  rw [ParserEvalInfo.parseDepth, hq]
  exact mem_le_foldl_max (List.mem_map_of_mem hi)

omit [LinearOrder (Terminal Sym)] in
lemma parseDepth_le {is : Itemset Sym} {m : ℕ} (hq : pei.pdef.states[q]? = some is)
    (h : ∀ i ∈ is, i.p ≤ m) : pei.parseDepth q ≤ m := by
  rw [ParserEvalInfo.parseDepth, hq]
  refine foldl_max_le (Nat.zero_le m) fun k hk => ?_
  obtain ⟨i, hi, rfl⟩ := List.mem_map.mp hk
  exact h i hi

lemma entry_eq_lookup : Driver.entry pei.table q t = (pei.row q).lookup t := by
  rw [Driver.entry, ParserEvalInfo.row]
  cases pei.table[q]? <;> rfl

namespace Prepared

variable (h : Prepared pei root px)
include h

lemma isNonTerminal_endOfFile : pei.isNonTerminal .endOfFile = false := by
  rw [ParserEvalInfo.isNonTerminal, h.grammar]
  exact hasRule_endOfFile

lemma exists_item {a : Action Sym} (ha : (pei.row q).lookup t = some a) :
    ∃ is i, pei.pdef.states[q]? = some is ∧ i ∈ is ∧ Added pei.pdef q i t a := by
  rw [← entry_eq_lookup, Driver.entry, Option.bind_eq_some_iff] at ha
  obtain ⟨row, hrow, ha⟩ := ha
  exact entry_added h.table hrow (mem_of_lookup ha)

/-- A transition adds one position at most, and the state that it leads to has read something. -/
lemma parseDepth_of_follow (hj : follow pei.pdef q t = some j) {is : Itemset Sym}
    (hq : pei.pdef.states[q]? = some is) :
    j < pei.table.length ∧ 1 ≤ pei.parseDepth j ∧ pei.parseDepth j ≤ pei.parseDepth q + 1 := by
  obtain ⟨-, hmem, js, hjs, hclos⟩ := h.automaton.follow_spec q j t is hj hq
  refine ⟨?_, ?_, parseDepth_le hjs fun i hi => ?_⟩
  · rw [lalrTable_length h.table]
    exact (List.getElem?_eq_some_iff.mp hjs).1
  · obtain ⟨i, hi, hnext⟩ := mem_nextAll.mp hmem
    have hsucc := le_parseDepth hjs (hclos.base (succ i) (mem_followItems.mpr ⟨i, hi, hnext, rfl⟩))
    exact Nat.le_trans (Nat.le_add_left 1 i.p) hsucc
  · rcases hclos.elim i hi with hi | ⟨hp, -⟩
    · obtain ⟨k, hk, -, rfl⟩ := mem_followItems.mp hi
      exact Nat.succ_le_succ (le_parseDepth hq hk)
    · omega

lemma parseDepth_zero : pei.parseDepth 0 = 0 := by
  obtain ⟨is, his, hclos⟩ := h.automaton.start
  refine Nat.le_zero.mp (parseDepth_le his fun i hi => ?_)
  rcases hclos.elim i hi with hi | ⟨hp, -⟩
  · exact Nat.le_of_eq (mem_ruleItems.mp hi).2.1
  · exact Nat.le_of_eq hp

/-! ### Entries -/

lemma shift_entry (ha : (pei.row q).lookup t = some (.shift j)) :
    pei.isNonTerminal t = false ∧ t ≠ .endOfFile ∧
      j < pei.table.length ∧ 1 ≤ pei.parseDepth j ∧ pei.parseDepth j ≤ pei.parseDepth q + 1 := by
  obtain ⟨is, i, hq, -, -, hrule, hne, hfollow⟩ := h.exists_item ha
  exact ⟨hrule, hne, h.parseDepth_of_follow hfollow hq⟩

lemma goto_entry (ha : (pei.row q).lookup t = some (.goTo j)) : pei.isNonTerminal t = true ∧
    j < pei.table.length ∧ 1 ≤ pei.parseDepth j ∧ pei.parseDepth j ≤ pei.parseDepth q + 1 := by
  obtain ⟨is, i, hq, -, -, hrule, hfollow⟩ := h.exists_item ha
  exact ⟨hrule, h.parseDepth_of_follow hfollow hq⟩

lemma reduce_entry {r m : ℕ} (ha : (pei.row q).lookup t = some (.reduce x r m)) :
    pei.isNonTerminal t = false ∧ m ≤ pei.parseDepth q ∧
      ∃ rl, pei.evalExpr x r = some rl ∧ rl.bindings.length = m := by
  obtain ⟨is, i, hq, hi, hnext, hla, rfl, rfl, rfl⟩ := h.exists_item ha
  have his : is ∈ pei.pdef.states := List.mem_of_getElem? hq
  obtain ⟨w, hw, hlen⟩ := h.automaton.length_of_complete his hi hnext
  rw [h.grammar] at hw
  obtain ⟨rl, hrl, hbs⟩ := evalExpr_of_ruleOf hw
    (h.automaton.complete_ne_privstart h.grammar his hi hnext)
  exact ⟨h.lookahead q i t hla, le_parseDepth hq hi, rl, hrl, hbs.trans hlen⟩

lemma accept_entry (ha : (pei.row q).lookup t = some .accept) :
    t = .endOfFile ∧ pei.parseDepth q = 1 := by
  obtain ⟨is, i, hq, hi, hnext, rfl, -⟩ := h.exists_item ha
  refine ⟨rfl, Nat.le_antisymm (parseDepth_le hq ?_) ?_⟩
  · exact h.automaton.le_one_of_endOfFile h.grammar (List.mem_of_getElem? hq) hi hnext
  · rw [← (next_eq_endOfFile (h.grammar ▸ hnext)).2]
    exact le_parseDepth hq hi

omit h in
lemma needsOutputFunction_of_goto (ha : (pei.row q).lookup t = some (.goTo j)) :
    pei.needsOutputFunction q = true :=
  List.any_eq_true.mpr ⟨(t, .goTo j), mem_of_lookup ha, rfl⟩

/-- The first state has an output function, as the start symbol has rules. -/
lemma needsOutputFunction_zero (hroot : hasRule pei.pdef.g (.user root) = true) :
    pei.needsOutputFunction 0 = true := by
  obtain ⟨is, his, hclos⟩ := h.automaton.start
  have hboot : ruleOf pei.pdef.g .privstart 0 = some [.user root, .endOfFile] := by
    rw [h.grammar]
    simp [ruleOf, aggRules, bootGrammar, nthRule]
  have hi : (⟨.privstart, 0, 0⟩ : Item Sym) ∈ is :=
    hclos.base _ (mem_ruleItems.mpr ⟨rfl, rfl, by simp [hboot]⟩)
  have hnext : next pei.pdef.g (⟨.privstart, 0, 0⟩ : Item Sym) = some (.user root) :=
    next_eq_some.mpr ⟨_, hboot, rfl⟩
  obtain ⟨row, a, hrow, -, ha⟩ := exists_entry h.table his hi (.inl hnext)
  have hentry : (pei.row 0).lookup (.user root) = some a := by
    rw [ParserEvalInfo.row, hrow]
    exact ha
  obtain ⟨is', i, -, -, hadd⟩ := h.exists_item hentry
  cases a with
  | goTo j => exact needsOutputFunction_of_goto hentry
  | shift j =>
    obtain ⟨-, hrule, -⟩ := hadd
    rw [hroot] at hrule
    cases hrule
  | reduce x r m =>
    obtain ⟨-, hla, -⟩ := hadd
    rw [h.lookahead _ _ _ hla] at hroot
    cases hroot
  | accept =>
    obtain ⟨-, -, hrule⟩ := hadd
    rw [hroot] at hrule
    cases hrule

end Prepared

end Hobbes.Parse
