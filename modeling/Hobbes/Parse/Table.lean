import Hobbes.Parse.States

/-!
# Where the entries of a table come from
-/

namespace Hobbes.Parse

open Core

variable {T : Type} [LinearOrder (Terminal T)]

/-! ### The boot rule -/

section

variable {g : Grammar T} {s : T} {t u : Terminal T} {r : ℕ} {w : Rule (Terminal T)} {i : Item T}

lemma ruleOf_bootGrammar (h : ruleOf (bootGrammar g s) t r = some w) :
    t = .privstart ∧ w = [.user s, .endOfFile] ∨
      (∃ x, t = .user x) ∧ ∀ u ∈ w, ∃ x, u = Terminal.user x := by
  obtain ⟨rs, hrs, hw⟩ := ruleOf_eq_some.mp h
  rcases List.mem_cons.mp (mem_of_lookup hrs) with hboot | hmem
  · obtain ⟨rfl, rfl⟩ := Prod.mk.injEq .. ▸ hboot
    exact .inl ⟨rfl, List.mem_singleton.mp (List.mem_of_getElem? hw)⟩
  · obtain ⟨x, -, hx⟩ := List.mem_map.mp hmem
    obtain ⟨rfl, rfl⟩ := Prod.mk.injEq .. ▸ hx
    obtain ⟨w', -, rfl⟩ := List.mem_map.mp (List.mem_of_getElem? hw)
    refine .inr ⟨⟨x.1, rfl⟩, fun u hu => ?_⟩
    obtain ⟨y, -, rfl⟩ := List.mem_map.mp hu
    exact ⟨y, rfl⟩

lemma lookup_bootGrammar_user [DecidableEq T] (g : Grammar T) (s x : T) :
    (bootGrammar g s).lookup (.user x) = (g.lookup x).map fun rs => rs.map fun r => r.map .user := by
  rw [bootGrammar, lookup_cons_of_ne (by simp)]
  induction g with
  | nil => rfl
  | cons z g ih =>
    obtain ⟨k, rs⟩ := z
    rw [List.map_cons]
    by_cases hx : x = k
    · subst hx
      simp
    · rw [lookup_cons_of_ne (by simpa using hx), lookup_cons_of_ne hx, ih]

lemma next_ne_privstart : next (bootGrammar g s) i ≠ some .privstart := by
  intro h
  obtain ⟨w, hw, hp⟩ := next_eq_some.mp h
  have hmem : .privstart ∈ w := List.mem_of_getElem? hp
  rcases ruleOf_bootGrammar hw with ⟨-, rfl⟩ | ⟨-, hall⟩
  · simp at hmem
  · obtain ⟨x, hx⟩ := hall _ hmem
    cases hx

lemma next_eq_endOfFile (h : next (bootGrammar g s) i = some .endOfFile) :
    i.agg = .privstart ∧ i.p = 1 := by
  obtain ⟨w, hw, hp⟩ := next_eq_some.mp h
  rcases ruleOf_bootGrammar hw with ⟨hagg, rfl⟩ | ⟨-, hall⟩
  · refine ⟨hagg, ?_⟩
    rcases hcase : i.p with _ | _ | k <;> simp [hcase] at hp ⊢
  · obtain ⟨x, hx⟩ := hall _ (List.mem_of_getElem? hp)
    cases hx

lemma hasRule_endOfFile : hasRule (bootGrammar g s) .endOfFile = false := by
  rw [hasRule, Option.isSome_eq_false_iff, Option.isNone_iff_eq_none]
  refine List.lookup_eq_none_iff.mpr fun x hx => ?_
  rcases List.mem_cons.mp hx with rfl | hx
  · simp
  · obtain ⟨y, -, rfl⟩ := List.mem_map.mp hx
    simp

end

/-! ### The items of a state -/

namespace Automaton

variable {p : ParserDef T} {is js : Itemset T} {i : Item T} {q : ℕ} {v : Terminal T}

/-- An item of a state is at the start of a rule, or it has just read a symbol. -/
lemma item_cases (h : Automaton p) (his : is ∈ p.states) (hi : i ∈ is) :
    (∃ w, ruleOf p.g i.agg i.r = some w) ∧ (i.p = 0 ∨ ∃ js ∈ p.states, ∃ j ∈ js, ∃ v,
      v ≠ .endOfFile ∧ next p.g j = some v ∧ succ j = i ∧ IsClosure p.g (followItems p.g js v) is) := by
  have hzero : ∀ ks, IsClosure p.g ks is → i ∈ ks ∨
      (∃ w, ruleOf p.g i.agg i.r = some w) ∧ i.p = 0 := by
    intro ks hks
    refine (hks.elim i hi).imp_right fun ⟨hp, hr, _⟩ => ⟨Option.isSome_iff_exists.mp hr, hp⟩
  rcases h.reached is his with h₀ | ⟨js, hjs, v, -, hne, hclos⟩
  · obtain ⟨is', h₀', hclos⟩ := h.start
    obtain rfl : is = is' := Option.some.inj (h₀ ▸ h₀')
    rcases hzero _ hclos with hi | ⟨hw, hp⟩
    · obtain ⟨hagg, hp, hr⟩ := mem_ruleItems.mp hi
      exact ⟨Option.isSome_iff_exists.mp (hagg ▸ hr), .inl hp⟩
    · exact ⟨hw, .inl hp⟩
  · rcases hzero _ hclos with hi | ⟨hw, hp⟩
    · obtain ⟨j, hj, hnext, rfl⟩ := mem_followItems.mp hi
      obtain ⟨w, hw, -⟩ := next_eq_some.mp hnext
      exact ⟨⟨w, hw⟩, .inr ⟨js, hjs, j, hj, v, hne, hnext, rfl, hclos⟩⟩
    · exact ⟨hw, .inl hp⟩

lemma le_length (h : Automaton p) (his : is ∈ p.states) (hi : i ∈ is) {w : Rule (Terminal T)}
    (hw : ruleOf p.g i.agg i.r = some w) : i.p ≤ w.length := by
  rcases (h.item_cases his hi).2 with hp | ⟨js, -, j, -, v, -, hnext, rfl, -⟩
  · omega
  · obtain ⟨w', hw', hp⟩ := next_eq_some.mp hnext
    obtain rfl : w = w' := Option.some.inj (hw ▸ hw')
    exact (List.getElem?_eq_some_iff.mp hp).1

/-- A complete item has read the whole rule. -/
lemma length_of_complete (h : Automaton p) (his : is ∈ p.states) (hi : i ∈ is)
    (hnext : next p.g i = none) : ∃ w, ruleOf p.g i.agg i.r = some w ∧ w.length = i.p := by
  obtain ⟨w, hw⟩ := (h.item_cases his hi).1
  refine ⟨w, hw, Nat.le_antisymm ?_ (h.le_length his hi hw)⟩
  rw [next, hw] at hnext
  exact List.getElem?_eq_none_iff.mp hnext

/-- The boot rule is never complete, for its last symbol is not read. -/
lemma complete_ne_privstart {g : Grammar T} {s : T} (h : Automaton p) (hg : p.g = bootGrammar g s)
    (his : is ∈ p.states) (hi : i ∈ is) (hnext : next p.g i = none) : i.agg ≠ .privstart := by
  intro hagg
  obtain ⟨w, hw, hlen⟩ := h.length_of_complete his hi hnext
  rcases (h.item_cases his hi).2 with hp | ⟨js, -, j, -, v, hne, hv, rfl, -⟩
  · rw [hg] at hw
    rcases ruleOf_bootGrammar hw with ⟨-, rfl⟩ | ⟨⟨x, hx⟩, -⟩
    · simp [hp] at hlen
    · simp [hagg] at hx
  · obtain ⟨w', hw', hp⟩ := next_eq_some.mp hv
    obtain rfl : w = w' := Option.some.inj (hw ▸ hw')
    rw [hg] at hw
    rcases ruleOf_bootGrammar hw with ⟨-, rfl⟩ | ⟨⟨x, hx⟩, -⟩
    · obtain h1 : j.p = 1 := by simpa [succ] using hlen.symm
      rw [h1] at hp
      exact hne (Option.some.inj hp).symm
    · rw [hagg] at hx
      cases hx

/-- The item that has the end marker next has only read the start symbol, and so have the items
beside it. -/
lemma le_one_of_endOfFile {g : Grammar T} {s : T} (h : Automaton p) (hg : p.g = bootGrammar g s)
    (his : is ∈ p.states) (hi : i ∈ is) (hnext : next p.g i = some .endOfFile) :
    ∀ j ∈ is, j.p ≤ 1 := by
  obtain ⟨hagg, hone⟩ := next_eq_endOfFile (hg ▸ hnext)
  rcases (h.item_cases his hi).2 with hp | ⟨js, hjs, j, hj, v, -, hv, rfl, hclos⟩
  · omega
  have hjp : j.p = 0 := by simpa [succ] using hone
  -- the boot item is only in the first state
  have hzero : ∀ k ∈ js, k.p = 0 := by
    have hclosed : ∀ ks, IsClosure p.g ks js → j ∈ ks := by
      intro ks hks
      refine (hks.elim j hj).resolve_right fun ⟨_, _, k, _, hk⟩ => ?_
      refine next_ne_privstart (g := g) (s := s) (i := k) ?_
      rw [← hg, hk]
      exact congrArg some hagg
    rcases h.reached js hjs with h₀ | ⟨ks, -, u, -, -, hclos'⟩
    · obtain ⟨is', h₀', hclos'⟩ := h.start
      obtain rfl : js = is' := Option.some.inj (h₀ ▸ h₀')
      intro k hk
      rcases hclos'.elim k hk with hk | ⟨hk, -⟩
      · exact (mem_ruleItems.mp hk).2.1
      · exact hk
    · obtain ⟨k, -, -, hk⟩ := mem_followItems.mp (hclosed _ hclos')
      have hpos : j.p = k.p + 1 := by rw [← hk]; rfl
      omega
  intro k hk
  rcases hclos.elim k hk with hk | ⟨hk, -⟩
  · obtain ⟨k', hk', -, rfl⟩ := mem_followItems.mp hk
    simp [succ, hzero k' hk']
  · omega

end Automaton

/-! ### Lookahead comes from what is directly read -/

namespace Digraph

variable {X : Type} [DecidableEq X] {D : Graph X T} {st st' : State X T}

/-- All values are made of the values at the nodes. -/
def Made (D : Graph X T) (st : State X T) : Prop := ∀ x, ∀ t ∈ st.f x, ∃ y, t ∈ D.fp y

omit [LinearOrder (Terminal T)] in
lemma Made.update {x : X} {ts : TerminalSet T} (h : Made D st) (hts : ∀ t ∈ ts, ∃ y, t ∈ D.fp y) :
    Made D { st with f := Function.update st.f x ts } := by
  intro y t ht
  rcases eq_or_ne y x with rfl | hne
  · exact hts t (by simpa using ht)
  · exact h y t (by simpa [Function.update_of_ne hne] using ht)

omit [LinearOrder (Terminal T)] in
lemma Made.joinScc {x : X} (h : Made D st) (s : List X) : Made D (joinScc x s st) := by
  induction s generalizing st with
  | nil => exact h
  | cons cx s ih =>
    rw [Digraph.joinScc]
    split_ifs
    · exact h
    · exact ih (Made.update h fun t ht => h x t ht)

lemma Made.traverse {k : ℕ} {x : X} (h : traverse D k x st = some st') (hst : Made D st) :
    Made D st' := by
  induction k generalizing x st st' with
  | zero => cases h
  | succ k ih =>
    simp only [Digraph.traverse, Option.bind_eq_bind, Option.bind_eq_some_iff, pure,
      Option.some.injEq] at h
    obtain ⟨st₁, hfold, rfl⟩ := h
    have hst₁ : Made D st₁ := by
      refine foldlM_invariant hfold (hst.update fun t ht => ⟨x, ht⟩) fun y _ st₂ st₃ hst₂ hstep => ?_
      split_ifs at hstep with hr hn
      · rw [Option.bind_eq_some_iff] at hstep
        obtain ⟨st₄, h₄, h₃⟩ := hstep
        have hst₄ : Made D st₄ := ih h₄ hst₂
        obtain rfl := Option.some.inj h₃
        refine hst₄.update fun t ht => ?_
        rcases mem_insertAll.mp ht with ht | ht
        exacts [hst₄ x t ht, hst₄ y t ht]
      · obtain rfl := Option.some.inj hstep
        refine hst₂.update fun t ht => ?_
        rcases mem_insertAll.mp ht with ht | ht
        exacts [hst₂ x t ht, hst₂ y t ht]
      · exact Option.some.inj hstep ▸ hst₂
    split_ifs
    exacts [hst₁.joinScc _, hst₁]

lemma mem_map {k : ℕ} {f : X → TerminalSet T} (h : map D k = some f) {x : X} {t : Terminal T}
    (ht : t ∈ f x) : ∃ y, t ∈ D.fp y := by
  simp only [map, Option.bind_eq_bind, Option.bind_eq_some_iff, pure, Option.some.injEq] at h
  obtain ⟨st, hfold, rfl⟩ := h
  refine foldlM_invariant (P := Made D) hfold (fun x t ht => by simp at ht)
    (fun y _ st₁ st₂ hst₁ hstep => ?_) x t ht
  split_ifs at hstep with hn
  · exact hst₁.traverse hstep
  · exact Option.some.inj hstep ▸ hst₁

end Digraph

variable {n : ℕ} {p : ParserDef T} {is : Itemset T} {i : Item T} {t : Terminal T}

/-- The lookahead consists of terminals. -/
lemma hasRule_of_mem_lookahead {g : Grammar T} {s : T} (h : lalr1parser n g s = some p) {q : ℕ}
    (ht : t ∈ p.la q i) : hasRule p.g t = false := by
  simp only [lalr1parser, Follow, Option.bind_eq_bind, Option.bind_eq_some_iff, pure,
    Option.some.injEq] at h
  obtain ⟨p₀, -, tl, ⟨r, hreads, hfollow⟩, rfl⟩ := h
  have htl : ∀ x, t ∈ tl x → hasRule p₀.g t = false := by
    intro x hx
    obtain ⟨y, hy⟩ := Digraph.mem_map hfollow hx
    obtain ⟨z, hz⟩ := Digraph.mem_map hreads hy
    exact (mem_nextPrim.mp hz).2
  have hfold : ∀ (xs : List (Transition T)) (la : TerminalSet T),
      t ∈ xs.foldl (fun la x => setUnion la (tl x)) la → t ∈ la ∨ ∃ x, t ∈ tl x := by
    intro xs
    induction xs with
    | nil => exact fun la => .inl
    | cons x xs ih =>
      intro la hmem
      rcases ih _ hmem with hmem | hmem
      · exact (mem_insertAll.mp hmem).imp_right fun h => ⟨x, h⟩
      · exact .inr hmem
  simp only [apply] at ht
  split at ht
  · rcases hfold _ _ ht with ht | ⟨x, hx⟩
    exacts [absurd ht List.not_mem_nil, htl x hx]
  · cases ht

/-! ### The rows -/

/-- The item `i` of the state `q` adds the action to its row, under `t`. -/
def Added (p : ParserDef T) (q : ℕ) (i : Item T) (t : Terminal T) : Action T → Prop
  | .goTo j => next p.g i = some t ∧ hasRule p.g t = true ∧ follow p q t = some j
  | .shift j => next p.g i = some t ∧ hasRule p.g t = false ∧ t ≠ .endOfFile ∧
      follow p q t = some j
  | .reduce x r m => next p.g i = none ∧ t ∈ p.la q i ∧ x = i.agg ∧ r = i.r ∧ m = i.p
  | .accept => next p.g i = some t ∧ t = .endOfFile ∧ hasRule p.g t = false

variable {px : Precedence T} {s s' : LrState T} {a : Action T} {q : ℕ}

lemma mem_setAction {x : Terminal T × Action T} (h : x ∈ setAction s t a) : x ∈ s ∨ x = (t, a) := by
  obtain ⟨y, hy, rfl⟩ := List.mem_map.mp h
  split_ifs
  exacts [.inr rfl, .inl hy]

lemma mem_insertAction {x : Terminal T × Action T} (h : x ∈ insertAction s t a) :
    x ∈ s ∨ x = (t, a) := by
  unfold insertAction at h
  split_ifs at h
  · exact .inl h
  · simpa using h

lemma mem_addAction (h : addAction p px s t a = .ok s') {x : Terminal T × Action T} (hx : x ∈ s') :
    x ∈ s ∨ x = (t, a) := by
  have hif : ∀ {b : Bool}, (Except.ok (if b then setAction s t a else s) :
      Except (AmbiguityConflict T) (LrState T)) = .ok s' → x ∈ s ∨ x = (t, a) := by
    intro b hb
    obtain rfl := Except.ok.inj hb
    split_ifs at hx
    exacts [mem_setAction hx, .inl hx]
  unfold addAction at h
  split at h
  · obtain rfl := Except.ok.inj h
    simpa using hx
  · split_ifs at h
    · exact .inl (Except.ok.inj h ▸ hx)
    · split at h
      · cases h
      · obtain ⟨b, -, hb⟩ := bind_eq_ok.mp h
        exact hif hb
      · obtain ⟨b, -, hb⟩ := bind_eq_ok.mp h
        exact hif (b := !b) (by cases b <;> exact hb)
      · exact .inl (Except.ok.inj h ▸ hx)

lemma mapError_eq_ok {ε ε' α : Type} {x : Except ε α} {f : ε → ε'} {a : α} :
    x.mapError f = .ok a ↔ x = .ok a := by
  cases x <;> simp [Except.mapError]

lemma mem_addItem (h : addItem p px is q s i = .ok s') {x : Terminal T × Action T}
    (hx : x ∈ s') : x ∈ s ∨ Added p q i x.1 x.2 := by
  unfold addItem at h
  split at h
  · rename_i hnext
    refine foldlM_ok_invariant (P := fun s' => ∀ x ∈ s', x ∈ s ∨ Added p q i x.1 x.2)
      (mapError_eq_ok.mp h) (fun x hx => .inl hx) (fun t ht s₁ s₂ hs₁ hstep y hy => ?_) x hx
    rcases mem_addAction hstep hy with hy | rfl
    · exact hs₁ y hy
    · exact .inr ⟨hnext, ht, rfl, rfl, rfl⟩
  · rename_i u hnext
    split_ifs at h with hrule heof
    · split at h
      · rename_i j hj
        obtain rfl := Except.ok.inj h
        refine (mem_insertAction hx).imp_right ?_
        rintro rfl
        exact ⟨hnext, hrule, hj⟩
      · cases h
    · obtain rfl := Except.ok.inj h
      refine (mem_insertAction hx).imp_right ?_
      rintro rfl
      exact ⟨hnext, heof, by simpa using hrule⟩
    · split at h
      · rename_i j hj
        refine (mem_addAction (mapError_eq_ok.mp h) hx).imp_right ?_
        rintro rfl
        exact ⟨hnext, by simpa using hrule, heof, hj⟩
      · cases h

/-! ### Every item has its entry -/

lemma keys_setAction : (setAction s t a).map Prod.fst = s.map Prod.fst := by
  rw [setAction, List.map_map]
  refine List.map_congr_left fun x _ => ?_
  by_cases hx : x.1 = t <;> simp [hx]

lemma mem_keys_insertAction {u : Terminal T} :
    u ∈ (insertAction s t a).map Prod.fst ↔ u ∈ s.map Prod.fst ∨ u = t := by
  unfold insertAction
  split_ifs with h
  · obtain ⟨b, hb⟩ := Option.isSome_iff_exists.mp h
    have ht : t ∈ s.map Prod.fst := List.mem_map_of_mem (mem_of_lookup hb)
    exact ⟨.inl, fun hu => hu.elim id fun hu => hu ▸ ht⟩
  · simp

lemma mem_keys_addAction (h : addAction p px s t a = .ok s') {u : Terminal T} :
    u ∈ s'.map Prod.fst ↔ u ∈ s.map Prod.fst ∨ u = t := by
  unfold addAction at h
  split at h
  · obtain rfl := Except.ok.inj h
    simp
  · rename_i b hb
    have ht : t ∈ s.map Prod.fst := List.mem_map_of_mem (mem_of_lookup hb)
    have hs' : s'.map Prod.fst = s.map Prod.fst := by
      have hif : ∀ {b : Bool}, (Except.ok (if b then setAction s t a else s) :
          Except (AmbiguityConflict T) (LrState T)) = .ok s' → s'.map Prod.fst = s.map Prod.fst := by
        intro b hb
        obtain rfl := Except.ok.inj hb
        split_ifs
        exacts [keys_setAction, rfl]
      split_ifs at h
      · rw [Except.ok.inj h]
      · split at h
        · cases h
        · obtain ⟨b, -, hb⟩ := bind_eq_ok.mp h
          exact hif hb
        · obtain ⟨b, -, hb⟩ := bind_eq_ok.mp h
          exact hif (b := !b) (by cases b <;> exact hb)
        · rw [Except.ok.inj h]
    rw [hs']
    exact ⟨.inl, fun hu => hu.elim id fun hu => hu ▸ ht⟩

/-- The terminals under which an item of the state `q` adds an action. -/
def Wanted (p : ParserDef T) (q : ℕ) (i : Item T) (t : Terminal T) : Prop :=
  next p.g i = some t ∨ next p.g i = none ∧ t ∈ p.la q i

lemma mem_keys_addItem (h : addItem p px is q s i = .ok s') {u : Terminal T} :
    u ∈ s'.map Prod.fst ↔ u ∈ s.map Prod.fst ∨ Wanted p q i u := by
  unfold addItem at h
  split at h
  · rename_i hnext
    have hfold : ∀ (ts : TerminalSet T) (s s' : LrState T),
        ts.foldlM (fun s t => addAction p px s t (.reduce i.agg i.r i.p)) s = .ok s' →
          (u ∈ s'.map Prod.fst ↔ u ∈ s.map Prod.fst ∨ u ∈ ts) := by
      intro ts
      induction ts with
      | nil =>
        intro s s' h
        rw [Except.ok.inj h]
        simp
      | cons t ts ih =>
        intro s s' h
        rw [List.foldlM_cons, bind_eq_ok] at h
        obtain ⟨s₁, hs₁, h⟩ := h
        rw [ih _ _ h, mem_keys_addAction hs₁, List.mem_cons, or_assoc]
    rw [hfold _ _ _ (mapError_eq_ok.mp h)]
    simp [Wanted, hnext]
  · rename_i t hnext
    have hwanted : Wanted p q i u ↔ u = t := by
      simp [Wanted, hnext, eq_comm]
    rw [hwanted]
    split_ifs at h with hrule heof
    · split at h
      · rw [← Except.ok.inj h]
        exact mem_keys_insertAction
      · cases h
    · rw [← Except.ok.inj h]
      exact mem_keys_insertAction
    · split at h
      · exact mem_keys_addAction (mapError_eq_ok.mp h)
      · cases h

/-! ### The table -/

variable {tbl : LrTable T}

lemma lalrTable_row (h : lalrTable p px = .ok tbl) (hq : p.states[q]? = some is) :
    ∃ row, tbl[q]? = some row ∧ is.foldlM (addItem p px is q) [] = .ok row := by
  have hall := mapM_eq_ok.mp h
  have hlt : q < p.states.length := (List.getElem?_eq_some_iff.mp hq).1
  have hlen : p.states.length = tbl.length := by simpa using hall.length_eq
  have hrow := List.forall₂_iff_get.mp hall
  refine ⟨tbl[q], List.getElem?_eq_getElem (hlen ▸ hlt), ?_⟩
  have := hrow.2 q (by simpa using hlt) (hlen ▸ hlt)
  simpa [(List.getElem?_eq_some_iff.mp hq).2] using this

lemma lalrTable_length (h : lalrTable p px = .ok tbl) : tbl.length = p.states.length := by
  simpa using (mapM_eq_ok.mp h).length_eq.symm

/-- Every entry of a table is added by an item of its state. -/
lemma entry_added (h : lalrTable p px = .ok tbl) {row : LrState T} (hrow : tbl[q]? = some row)
    {x : Terminal T × Action T} (hx : x ∈ row) :
    ∃ is i, p.states[q]? = some is ∧ i ∈ is ∧ Added p q i x.1 x.2 := by
  have hlt : q < p.states.length := lalrTable_length h ▸ (List.getElem?_eq_some_iff.mp hrow).1
  have hq : p.states[q]? = some p.states[q] := List.getElem?_eq_getElem hlt
  obtain ⟨row', hrow', hfold⟩ := lalrTable_row h hq
  obtain rfl : row = row' := Option.some.inj (hrow ▸ hrow')
  have hall : ∀ x ∈ row, ∃ i ∈ p.states[q], Added p q i x.1 x.2 := by
    refine foldlM_ok_invariant (P := fun s => ∀ x ∈ s, ∃ i ∈ p.states[q], Added p q i x.1 x.2)
      hfold (by simp) fun i hi s₁ s₂ hs₁ hstep y hy => ?_
    rcases mem_addItem hstep hy with hy | hy
    exacts [hs₁ y hy, ⟨i, hi, hy⟩]
  obtain ⟨i, hi, hadd⟩ := hall x hx
  exact ⟨_, i, hq, hi, hadd⟩

lemma exists_entry (h : lalrTable p px = .ok tbl) (hq : p.states[q]? = some is) (hi : i ∈ is)
    (ht : Wanted p q i t) : ∃ row a, tbl[q]? = some row ∧ (t, a) ∈ row ∧ row.lookup t = some a := by
  obtain ⟨row, hrow, hfold⟩ := lalrTable_row h hq
  have hkey : ∀ (is' : Itemset T) (s s' : LrState T), is'.foldlM (addItem p px is q) s = .ok s' →
      (t ∈ s.map Prod.fst ∨ i ∈ is') → t ∈ s'.map Prod.fst := by
    intro is'
    induction is' with
    | nil =>
      intro s s' h hmem
      rw [← Except.ok.inj h]
      exact hmem.resolve_right List.not_mem_nil
    | cons j is' ih =>
      intro s s' h hmem
      rw [List.foldlM_cons, bind_eq_ok] at h
      obtain ⟨s₁, hs₁, h⟩ := h
      refine ih _ _ h ?_
      rcases hmem with hmem | hmem
      · exact .inl ((mem_keys_addItem hs₁).mpr (.inl hmem))
      · rcases List.mem_cons.mp hmem with rfl | hmem
        · exact .inl ((mem_keys_addItem hs₁).mpr (.inr ht))
        · exact .inr hmem
  obtain ⟨x, hx, rfl⟩ := List.mem_map.mp (hkey is [] row hfold (.inr hi))
  have hsome : (row.lookup x.1).isSome := List.lookup_isSome_iff.mpr ⟨x, hx, by simp⟩
  obtain ⟨a, ha⟩ := Option.isSome_iff_exists.mp hsome
  exact ⟨row, a, hrow, mem_of_lookup ha, ha⟩

end Hobbes.Parse
