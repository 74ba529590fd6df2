import Hobbes.Parse.Driver
import Hobbes.Parse.Table

/-!
# What the driver accepts

The roots of the trees on the stack lead through the states that they are kept with. An item of a state has read the
top of every stack that leads there, so that a reduction takes the symbols of its rule off the stack, and what is
accepted is a tree of the grammar with the input as its leaves.
-/

namespace Hobbes.Parse

open Core

/-! ### Trees -/

namespace Tree

variable {α β : Type}

mutual

def map (f : α → β) : Tree α → Tree β
  | leaf t => leaf (f t)
  | node x r ts => node (f x) r (maps f ts)

def maps (f : α → β) : List (Tree α) → List (Tree β)
  | [] => []
  | t :: ts => t.map f :: maps f ts

end

lemma maps_eq_map (f : α → β) (ts : List (Tree α)) : maps f ts = ts.map (Tree.map f) := by
  induction ts with
  | nil => rw [maps, List.map_nil]
  | cons t ts ih => rw [maps, List.map_cons, ih]

lemma yields_append (ts us : List (Tree α)) : yields (ts ++ us) = yields ts ++ yields us := by
  induction ts with
  | nil => simp [yields]
  | cons t ts ih => simp [yields, ih]

end Tree

variable {T : Type} [LinearOrder (Terminal T)]

section

variable [DecidableEq T] {g : Grammar T} {s : T}

lemma ruleOf_bootGrammar_user (x : T) (r : ℕ) :
    ruleOf (bootGrammar g s) (.user x) r = (ruleOf g x r).map fun w => w.map .user := by
  rw [ruleOf, ruleOf, aggRules, aggRules, lookup_bootGrammar_user]
  cases g.lookup x <;> simp [nthRule]

lemma hasRule_bootGrammar_user (x : T) : hasRule (bootGrammar g s) (.user x) = hasRule g x := by
  rw [hasRule, hasRule, lookup_bootGrammar_user, Option.isSome_map]

/-- A tree of the grammar with its boot rule is one of the grammar, if a symbol of the grammar is its root. -/
lemma exists_map_user {t : Tree (Terminal T)} (ht : Tree.Valid (bootGrammar g s) t) {x : T}
    (hroot : t.root = .user x) :
    ∃ u : Tree T, t = u.map .user ∧ Tree.Valid g u ∧ u.root = x ∧ t.yield = u.yield.map .user := by
  induction ht generalizing x with
  | @leaf t h =>
    obtain rfl : t = .user x := hroot
    refine ⟨.leaf x, ?_, .leaf ?_, rfl, ?_⟩
    · rw [Tree.map]
    · rwa [hasRule_bootGrammar_user] at h
    · simp [Tree.yield]
  | @node y r ts hr hts ih =>
    obtain rfl : y = .user x := hroot
    rw [ruleOf_bootGrammar_user, Option.map_eq_some_iff] at hr
    obtain ⟨w, hw, hroots⟩ := hr
    -- the trees below are taken one after the other
    have hall : ∀ (ts : List (Tree (Terminal T))) (w : Rule T), w.map .user = ts.map Tree.root →
        (∀ t ∈ ts, ∀ {x : T}, t.root = .user x → ∃ u : Tree T, t = u.map .user ∧ Tree.Valid g u ∧ u.root = x ∧
          t.yield = u.yield.map .user) →
        ∃ us : List (Tree T), ts = us.map (Tree.map .user) ∧ us.map Tree.root = w ∧ (∀ u ∈ us, Tree.Valid g u) ∧
          Tree.yields ts = (Tree.yields us).map .user := by
      intro ts
      induction ts with
      | nil =>
        intro w hw _
        refine ⟨[], rfl, ?_, List.forall_mem_nil _, ?_⟩
        · simpa using hw.symm
        · simp [Tree.yields]
      | cons t ts ihts =>
        intro w hw ih
        obtain ⟨y, w, rfl⟩ : ∃ y w', w = y :: w' := by
          cases w with
          | nil => simp at hw
          | cons y w => exact ⟨y, w, rfl⟩
        rw [List.map_cons, List.map_cons, List.cons.injEq] at hw
        rw [List.forall_mem_cons] at ih
        obtain ⟨u, rfl, hu, rfl, hyield⟩ := ih.1 hw.1.symm
        obtain ⟨us, rfl, rfl, hus, hyields⟩ := ihts w hw.2 ih.2
        refine ⟨u :: us, rfl, rfl, List.forall_mem_cons.mpr ⟨hu, hus⟩, ?_⟩
        simp [Tree.yields, hyield, hyields]
    obtain ⟨us, rfl, rfl, hus, hyields⟩ := hall ts w hroots ih
    refine ⟨.node x r us, ?_, .node hw hus, rfl, ?_⟩
    · rw [Tree.map, Tree.maps_eq_map]
    · rw [Tree.yield, Tree.yield, hyields]

end

namespace Driver

open Tree

variable {p : ParserDef T} {zs : List (ℕ × Tree (Terminal T))} {is : Itemset T} {i : Item T}

/-- The symbols of the stack, from its bottom to its top. -/
def symbols (zs : List (ℕ × Tree (Terminal T))) : List (Terminal T) := (zs.map fun z => z.2.root).reverse

/-- What was read for the trees on the stack. -/
def consumed (zs : List (ℕ × Tree (Terminal T))) : List (Terminal T) := yields (zs.map Prod.snd).reverse

/-- The trees on the stack are trees of the grammar, and their roots lead through the states. -/
inductive Stacked (p : ParserDef T) : List (ℕ × Tree (Terminal T)) → Prop where
  | nil : Stacked p []
  | cons {zs : List (ℕ × Tree (Terminal T))} {j : ℕ} {t : Tree (Terminal T)} (hzs : Stacked p zs)
      (hj : follow p (topState zs) t.root = some j) (ht : Valid p.g t) : Stacked p ((j, t) :: zs)

namespace Stacked

lemma drop (h : Stacked p zs) (m : ℕ) : Stacked p (zs.drop m) := by
  induction h generalizing m with
  | nil => simpa using Stacked.nil
  | cons hzs hj ht ih =>
    cases m with
    | zero => exact .cons hzs hj ht
    | succ m => exact ih m

lemma valid (h : Stacked p zs) : ∀ z ∈ zs, Valid p.g z.2 := by
  induction h with
  | nil => exact List.forall_mem_nil _
  | cons _ _ ht ih => exact List.forall_mem_cons.mpr ⟨ht, ih⟩

/-- The top of the stack is one of the states. It is the first one, or its items are those that have read the symbol
on the top, and what they lead to. -/
lemma exists_state (h : Stacked p zs) (ha : Automaton p) : ∃ is, p.states[topState zs]? = some is := by
  induction h with
  | nil =>
    obtain ⟨is, his, -⟩ := ha.start
    exact ⟨is, his⟩
  | cons _ hj _ ih =>
    obtain ⟨is, his⟩ := ih
    obtain ⟨-, -, js, hjs, -⟩ := ha.follow_spec _ _ _ _ hj his
    exact ⟨js, hjs⟩

/-- An item has read the top of the stack. -/
lemma read (h : Stacked p zs) (ha : Automaton p) (his : p.states[topState zs]? = some is) (hi : i ∈ is)
    {w : Rule (Terminal T)} (hw : ruleOf p.g i.agg i.r = some w) :
    i.p ≤ zs.length ∧ symbols (zs.take i.p) = w.take i.p := by
  induction h generalizing is i with
  | nil =>
    obtain ⟨is', his', hclos⟩ := ha.start
    obtain rfl : is = is' := Option.some.inj (his.symm.trans his')
    have hp : i.p = 0 := by
      rcases hclos.elim i hi with hi | ⟨hp, -⟩
      · exact (mem_ruleItems.mp hi).2.1
      · exact hp
    simp [hp, symbols]
  | @cons zs j t hzs hj ht ih =>
    obtain ⟨js, hjs⟩ := hzs.exists_state ha
    obtain ⟨-, -, is', his', hclos⟩ := ha.follow_spec _ _ _ _ hj hjs
    obtain rfl : is = is' := Option.some.inj (his.symm.trans his')
    rcases hclos.elim i hi with hi | ⟨hp, -⟩
    · obtain ⟨k, hk, hnext, rfl⟩ := mem_followItems.mp hi
      obtain ⟨hle, htake⟩ := ih hjs hk hw
      obtain ⟨w', hw', hroot⟩ := next_eq_some.mp hnext
      obtain rfl : w = w' := Option.some.inj (hw.symm.trans hw')
      refine ⟨Nat.succ_le_succ hle, ?_⟩
      have htop : symbols (((j, t) :: zs).take (succ k).p) = symbols (zs.take k.p) ++ [t.root] := by
        simp [symbols, succ]
      rw [htop, htake, succ, List.take_add_one, hroot, Option.toList_some]
    · simp [hp, symbols]

/-- The boot rule is read from the bottom of the stack. -/
lemma length_eq_of_boot {g : Grammar T} {s : T} (h : Stacked p zs) (ha : Automaton p) (hg : p.g = bootGrammar g s)
    (his : p.states[topState zs]? = some is) (hi : i ∈ is) (hagg : i.agg = .privstart) : i.p = zs.length := by
  induction h generalizing is i with
  | nil =>
    obtain ⟨is', his', hclos⟩ := ha.start
    obtain rfl : is = is' := Option.some.inj (his.symm.trans his')
    rcases hclos.elim i hi with hi | ⟨hp, -⟩
    · exact (mem_ruleItems.mp hi).2.1
    · exact hp
  | @cons zs j t hzs hj ht ih =>
    obtain ⟨js, hjs⟩ := hzs.exists_state ha
    obtain ⟨-, -, is', his', hclos⟩ := ha.follow_spec _ _ _ _ hj hjs
    obtain rfl : is = is' := Option.some.inj (his.symm.trans his')
    rcases hclos.elim i hi with hi | ⟨-, -, k, -, hnext⟩
    · obtain ⟨k, hk, -, rfl⟩ := mem_followItems.mp hi
      rw [List.length_cons, ← ih hjs hk hagg]
      rfl
    · rw [hagg, hg] at hnext
      exact absurd hnext next_ne_privstart

end Stacked

omit [LinearOrder (Terminal T)] in
lemma consumed_cons (z : ℕ × Tree (Terminal T)) (zs : List (ℕ × Tree (Terminal T))) :
    consumed (z :: zs) = consumed zs ++ z.2.yield := by
  simp [consumed, yields_append, yields]

omit [LinearOrder (Terminal T)] in
lemma consumed_take_drop (m : ℕ) (zs : List (ℕ × Tree (Terminal T))) :
    consumed (zs.drop m) ++ consumed (zs.take m) = consumed zs := by
  rw [consumed, consumed, consumed, ← yields_append, ← List.reverse_append, ← List.map_append, List.take_append_drop]

/-- What holds of the driver at any time, for the input `w`. -/
structure Sound (p : ParserDef T) (w : List T) (c : Config T) : Prop where
  stacked : Stacked p c.stack
  input : consumed c.stack ++ c.rest.map .user = w.map .user

lemma sound_init (p : ParserDef T) (w : List T) : Sound p w (init w) where
  stacked := .nil
  input := by simp [init, consumed, yields]

variable {n : ℕ} {g : Grammar T} {s : T} {px : Precedence T} {tbl : LrTable T} {w : List T} {c c' : Config T}

lemma exists_item (htbl : lalrTable p px = .ok tbl) {q : ℕ} {t : Terminal T} {a : Action T}
    (h : entry tbl q t = some a) : ∃ is i, p.states[q]? = some is ∧ i ∈ is ∧ Added p q i t a := by
  obtain ⟨row, hrow, hlookup⟩ := Option.bind_eq_some_iff.mp h
  exact entry_added htbl hrow (mem_of_lookup hlookup)

/-- A reduction takes the symbols of its rule off the stack. -/
lemma Stacked.reduced (h : Stacked p zs) (ha : Automaton p) (htbl : lalrTable p px = .ok tbl) {t x : Terminal T}
    {r m : ℕ} (hact : entry tbl (topState zs) t = some (.reduce x r m)) :
    ruleOf p.g x r = some (symbols (zs.take m)) := by
  obtain ⟨is, i, his, hi, hnext, -, rfl, rfl, rfl⟩ := exists_item htbl hact
  obtain ⟨w, hw, hlen⟩ := ha.length_of_complete (List.mem_of_getElem? his) hi hnext
  obtain ⟨-, htake⟩ := h.read ha his hi hw
  rw [htake, hw, List.take_of_length_le hlen.le]

lemma Sound.step (h : Sound p w c) (ha : Automaton p) (htbl : lalrTable p px = .ok tbl)
    (hstep : step tbl c = .next c') : Sound p w c' := by
  have hs := stepped tbl c
  rw [hstep] at hs
  cases hs with
  | @shift j hact =>
    obtain ⟨is, i, his, hi, hnext, hrule, hne, hj⟩ := exists_item htbl hact
    refine ⟨.cons h.stacked hj (.leaf hrule), ?_⟩
    obtain ⟨stack, rest⟩ := c
    cases rest with
    | nil => exact absurd rfl hne
    | cons t rest =>
      have hinput := h.input
      rw [consumed_cons]
      simpa [Config.lookahead, yield] using hinput
  | @reduce x r m j hact hj =>
    obtain ⟨is, i, his, hi, -, -, hfollow⟩ := exists_item htbl hj
    have hrule := h.stacked.reduced ha htbl hact
    refine ⟨.cons (h.stacked.drop m) hfollow (.node ?_ ?_), ?_⟩
    · rw [hrule, symbols, ← List.map_reverse, List.map_map]
      rfl
    · intro t ht
      obtain ⟨z, hz, rfl⟩ := List.mem_map.mp ht
      exact h.stacked.valid z (List.mem_of_mem_take (List.mem_reverse.mp hz))
    · have hinput := h.input
      rw [← consumed_take_drop m] at hinput
      rw [consumed_cons, yield, List.map_reverse]
      exact hinput

/-- The tree that is accepted is alone on the stack, below the end of the input. -/
lemma Sound.accept (h : Sound p w c) (ha : Automaton p) (hg : p.g = bootGrammar g s)
    (htbl : lalrTable p px = .ok tbl) {t : Tree (Terminal T)} (hstep : Driver.step tbl c = .accept t) :
    Valid p.g t ∧ t.root = .user s ∧ t.yield = w.map .user := by
  have hs := stepped tbl c
  rw [hstep] at hs
  cases hs with
  | @accept z zs hact hzs =>
    obtain ⟨is, i, his, hi, hnext, heof, -⟩ := exists_item htbl hact
    rw [heof] at hnext
    obtain ⟨hagg, hone⟩ := next_eq_endOfFile (hg ▸ hnext)
    have hstack := h.stacked
    obtain ⟨v, hv, hpv⟩ := next_eq_some.mp hnext
    obtain ⟨-, htake⟩ := hstack.read ha his hi hv
    -- the boot item has read just the start symbol
    have hboot : v = [.user s, .endOfFile] := by
      rcases ruleOf_bootGrammar (hg ▸ hv) with ⟨-, hv⟩ | ⟨⟨x, hx⟩, -⟩
      · exact hv
      · rw [hagg] at hx
        cases hx
    rw [hzs] at hstack
    have hroot : z.2.root = .user s := by
      simpa [hzs, hone, hboot, symbols] using htake
    -- and is only reached from the first state
    have hnil : zs = [] := by
      have hlen := h.stacked.length_eq_of_boot ha hg his hi hagg
      rw [hone, hzs, List.length_cons, Nat.right_eq_add] at hlen
      exact List.length_eq_zero_iff.mp hlen
    subst hnil
    have hrest : c.rest = [] := by
      cases hrest : c.rest with
      | nil => rfl
      | cons t rest => simp [Config.lookahead, hrest] at heof
    have hinput := h.input
    rw [hrest, hzs, consumed_cons] at hinput
    refine ⟨hstack.valid z List.mem_cons_self, hroot, ?_⟩
    simpa [consumed, yields] using hinput

lemma Sound.run (h : Sound p w c) (ha : Automaton p) (hg : p.g = bootGrammar g s)
    (htbl : lalrTable p px = .ok tbl) {t : Tree (Terminal T)} (hruns : Runs tbl (fun _ => True) c (some t)) :
    Valid p.g t ∧ t.root = .user s ∧ t.yield = w.map .user := by
  generalize ho : some t = o at hruns
  induction hruns with
  | accept _ hstep =>
    obtain rfl := Option.some.inj ho
    exact h.accept ha hg htbl hstep
  | reject _ _ => cases ho
  | next _ hstep _ ih => exact ih (h.step ha htbl hstep) ho

lemma lalr1parser_automaton (h : lalr1parser n g s = some p) : Automaton p ∧ p.g = bootGrammar g s := by
  simp only [lalr1parser, Option.bind_eq_bind, Option.bind_eq_some_iff, pure, Option.some.injEq] at h
  obtain ⟨p₀, hp₀, tl, -, rfl⟩ := h
  obtain ⟨ha, hg⟩ := lr0parser_automaton hp₀
  exact ⟨⟨ha.start, ha.follow_spec, ha.follow_isSome, ha.reached⟩, hg⟩

lemma exists_tree_of_accepts [DecidableEq T] (ha : Automaton p) (hg : p.g = bootGrammar g s)
    (htbl : lalrTable p px = .ok tbl) {t : Tree (Terminal T)} (haccepts : Accepts tbl w t) :
    ∃ u : Tree T, t = u.map .user ∧ Valid g u ∧ u.root = s ∧ u.yield = w := by
  obtain ⟨hvalid, hroot, hyield⟩ := (sound_init p w).run ha hg htbl haccepts
  rw [hg] at hvalid
  obtain ⟨u, rfl, hu, rfl, hyield'⟩ := exists_map_user hvalid hroot
  refine ⟨u, rfl, hu, rfl, ?_⟩
  have hinj : Function.Injective (Terminal.user : T → Terminal T) := fun x y hxy => Terminal.user.inj hxy
  exact hinj.list_map (hyield'.symm.trans hyield)

/-- Where the table of a grammar accepts an input as a tree, it is a tree of the grammar for the start symbol, and the
input is what its leaves are. -/
theorem accepts_valid [DecidableEq T] (h : lalr1parser n g s = some p) (htbl : lalrTable p px = .ok tbl)
    {t : Tree (Terminal T)} (haccepts : Accepts tbl w t) :
    ∃ u : Tree T, t = u.map .user ∧ Valid g u ∧ u.root = s ∧ u.yield = w := by
  obtain ⟨ha, hg⟩ := lalr1parser_automaton h
  exact exists_tree_of_accepts ha hg htbl haccepts

/-! ### Parentheses -/

section

/-- One of the orders that numbered symbols may be in. -/
instance numberOrder : LinearOrder (Terminal ℕ) :=
  LinearOrder.lift' (fun
    | .privstart => 0
    | .endOfFile => 1
    | .user n => n + 2 : Terminal ℕ → ℕ) (by
      intro t u htu
      rcases t with m | _ | _ <;> rcases u with n | _ | _ <;> simp_all)

/-- `S -> ( S ) S | `, where `S` is 0. -/
def parens : Grammar ℕ := [(0, [[1, 0, 2, 0], []])]

/-- The table of `parens`. -/
def parensTable : Option (LrTable ℕ) := do
  let p ← lalr1parser 20 parens 0
  (lalrTable p []).toOption

lemma parensTable_eq_some {tbl : LrTable ℕ} (h : parensTable = some tbl) :
    ∃ p, lalr1parser 20 parens 0 = some p ∧ lalrTable p [] = .ok tbl := by
  rw [parensTable, Option.bind_eq_bind, Option.bind_eq_some_iff] at h
  obtain ⟨p, hp, htbl⟩ := h
  refine ⟨p, hp, ?_⟩
  cases hcase : lalrTable p [] with
  | error f => simp [hcase, Except.toOption] at htbl
  | ok tbl' => simpa [hcase, Except.toOption] using htbl

lemma parens_accepts :
    parensTable.any (fun tbl => (run tbl (fun _ => True) 20 (init [1, 1, 2, 2])).join.isSome) = true := by
  decide +kernel

theorem accepts_valid_parens : ∃ u : Tree ℕ, Valid parens u ∧ u.root = 0 ∧ u.yield = [1, 1, 2, 2] := by
  obtain ⟨tbl, htbl, haccepts⟩ := (Option.any_eq_true _ _).mp parens_accepts
  obtain ⟨p, hp, htbl⟩ := parensTable_eq_some htbl
  obtain ⟨t, ht⟩ := Option.isSome_iff_exists.mp haccepts
  obtain ⟨u, -, hu⟩ := accepts_valid hp htbl (runs_of_run (Option.join_eq_some_iff.mp ht))
  exact ⟨u, hu⟩

end

end Driver

end Hobbes.Parse
