import Hobbes.Match.TableParts
import Mathlib.Data.List.Basic

/-!
# Making states

What is loaded, what a state is made for, and what is made of the branches of a table.
-/

namespace Hobbes.Match.Table

open Core Lang

variable {G E : Type} {guards : G → Bool}

/-! ### Loads -/

/-- What a load reads. -/
def Load.source : Load G → Option Name
  | .element x _ | .field x _ | .openArray x _ | .size x | .packCArrLong x _ _ => some x
  | .guard _ => none

lemma Load.eval_congr {env env' : Env} (d : Load G) (h : ∀ x, d.source = some x → env' x = env x) :
    d.eval guards env' = d.eval guards env := by
  cases d <;> simp [Load.eval, Load.source] at h ⊢ <;> simp [h]

/-- Where no definition reads another, all have the values that they have at the beginning. -/
lemma exists_loadAll {ds : List (Name × Load G)} (env : Env) (hnodup : (ds.map Prod.fst).Nodup)
    (hsource : ∀ d ∈ ds, ∀ x, d.2.source = some x → x ∉ ds.map Prod.fst)
    (hval : ∀ d ∈ ds, ∃ v, d.2.eval guards env = some v) :
    ∃ env', loadAll guards ds env = some env' ∧ (∀ d ∈ ds, env' d.1 = d.2.eval guards env) ∧
      ∀ y, y ∉ ds.map Prod.fst → env' y = env y := by
  induction ds generalizing env with
  | nil => exact ⟨env, rfl, List.forall_mem_nil _, fun _ _ => rfl⟩
  | cons d ds ih =>
    simp only [List.map_cons, List.nodup_cons] at hnodup
    obtain ⟨hd, hds⟩ := List.forall_mem_cons.mp hsource
    obtain ⟨⟨v, hv⟩, hvals⟩ := List.forall_mem_cons.mp hval
    have heval : ∀ d' ∈ ds, d'.2.eval guards (Function.update env d.1 (some v)) = d'.2.eval guards env := by
      intro d' hd'
      refine Load.eval_congr d'.2 fun x hx => Function.update_of_ne ?_ _ _
      rintro rfl
      exact hds d' hd' _ hx List.mem_cons_self
    obtain ⟨env', hload, hdefs, hother⟩ := ih (Function.update env d.1 (some v)) hnodup.2
      (fun d' hd' x hx hmem => hds d' hd' x hx (List.mem_cons_of_mem _ hmem))
      fun d' hd' => by rw [heval d' hd']; exact hvals d' hd'
    refine ⟨env', ?_, ?_, fun y hy => ?_⟩
    · rw [loadAll, hv]
      exact hload
    · rw [List.forall_mem_cons]
      refine ⟨?_, fun d' hd' => (hdefs d' hd').trans (heval d' hd')⟩
      rw [hother d.1 hnodup.1, Function.update_self, hv]
    · rw [List.map_cons, List.mem_cons, not_or] at hy
      rw [hother y hy.2, Function.update_of_ne hy.1]

/-- Parts of the variable `x` are loaded, and nothing that is apart from it. -/
lemma exists_loadParts {x : Name} {ds : List (Name × Load G)} (env : Env) (hnodup : (ds.map Prod.fst).Nodup)
    (hparts : ∀ d ∈ ds, d.1.parent = some x) (hsource : ∀ d ∈ ds, ∀ y, d.2.source = some y → y ∉ ds.map Prod.fst)
    (hval : ∀ d ∈ ds, ∃ v, d.2.eval guards env = some v) :
    ∃ env', loadAll guards ds env = some env' ∧ (∀ d ∈ ds, env' d.1 = d.2.eval guards env) ∧
      ∀ y, Apart x y → env' y = env y := by
  obtain ⟨env', hload, hdefs, hother⟩ := exists_loadAll env hnodup hsource hval
  refine ⟨env', hload, hdefs, fun y hy => hother y fun hmem => ?_⟩
  obtain ⟨d, hd, rfl⟩ := List.mem_map.mp hmem
  exact hy.1 (.of_parent (hparts d hd))

lemma not_mem_of_parent {x : Name} {ds : List (Name × Load G)} (hparts : ∀ d ∈ ds, d.1.parent = some x) :
    x ∉ ds.map Prod.fst := by
  intro hmem
  obtain ⟨d, hd, hname⟩ := List.mem_map.mp hmem
  exact absurd (congrArg SizeOf.sizeOf hname) (ne_of_gt (sizeOf_lt_of_parent (hparts d hd)))

/-! ### What is remembered -/

/-- In every column there is a pattern that is no wildcard. -/
def AllUsed (xs : List Column) (ps : PatternRows G E) : Prop :=
  ∀ (c : ℕ) (x : Column), xs[c]? = some x → ∃ p, InColumn ps c p ∧ p.isAny = false

/-- The states of the tables that are remembered are states for them. -/
def Good (guards : G → Bool) (dfa : MDFA G E) : Prop :=
  ∀ e ∈ dfa.tableCfgStates, ∃ xs, TableOk xs e.1 ∧ AllUsed xs e.1 ∧ CorrectAt guards xs e.1 e.2 dfa.states

/-- What stays true as states are added. -/
def Stays (P : List (MState G E) → Prop) : Prop := ∀ states states', states <+: states' → P states → P states'

lemma Stays.handledAt {xs : List Column} {ps : PatternRows G E} {q : Env → List Value → Prop} {s : ℕ} :
    Stays (HandledAt guards xs ps q s) := fun _ _ hpre h => h.mono hpre

lemma Stays.true : Stays fun _ : List (MState G E) => True := fun _ _ _ h => h

section

variable {P : List (MState G E) → Prop}

lemma Good.mono {dfa dfa' : MDFA G E} (h : Good guards dfa) (hmemo : dfa'.tableCfgStates = dfa.tableCfgStates)
    (hpre : dfa.states <+: dfa'.states) : Good guards dfa' := by
  intro e he
  rw [hmemo] at he
  obtain ⟨xs, hok, hused, hcorrect⟩ := h e he
  exact ⟨xs, hok, hused, hcorrect.mono hpre⟩

lemma spec_addState [DecidableEq G] [DecidableEq E] (hP : Stays P) (st : MState G E) :
    Spec (Good guards) P (addState st) fun s states => states[s]? = some st ∧ P states := by
  intro dfa s dfa' h
  simp only [addState] at h
  split_ifs at h with hmem
  · cases h
    exact ⟨.refl dfa, fun hg _ hp => ⟨hg, List.getElem?_idxOf hmem, hp⟩⟩
  · cases h
    have hpre : dfa.states <+: dfa.states ++ [st] := List.prefix_append _ _
    refine ⟨⟨hpre, fun _ h => h⟩, fun hg _ hp => ⟨hg.mono rfl hpre, ?_, hP _ _ hpre hp⟩⟩
    rw [List.getElem?_concat_length]

lemma spec_stateAt (s : ℕ) :
    Spec (Good guards) P (stateAt s) fun st states => states[s]? = some st ∧ P states := by
  intro dfa st dfa' h
  simp only [stateAt] at h
  split at h
  · rename_i st' hst
    cases h
    exact ⟨.refl dfa, fun hg _ hp => ⟨hg, hst, hp⟩⟩
  · cases h

lemma spec_newExpr : Spec (Good guards) P newExpr fun _ states => P states := by
  intro dfa ptr dfa' h
  cases h
  exact ⟨⟨List.prefix_rfl, fun _ h => h⟩, fun hg _ hp => ⟨hg, hp⟩⟩

/-- The state that was made for a table is added. -/
lemma spec_addState_handles [DecidableEq G] [DecidableEq E] {xs : List Column} {ps : PatternRows G E}
    {q : Env → List Value → Prop} (st : MState G E) :
    Spec (Good guards) (fun states => Handles guards states xs ps q st) (addState st) (HandledAt guards xs ps q) :=
  (spec_addState (fun _ _ hpre h => h.mono hpre) st).imp (fun _ h => h) fun _ _ h => ⟨st, h⟩

end

/-! ### Switches on constants -/

/-- The state goes on where the value of `x` says. -/
def Switches (guards : G → Bool) (x : Name) (ty : PrimType) (jmps : List (Primitive × ℕ)) (d : Option ℕ)
    (st : MState G E) (states : List (MState G E)) : Prop :=
  ∀ p, primType p = ty → ∃ s, (jmps.lookup p).or d = some s ∧ ∀ env st' o, env x = some (.prim p) →
    states[s]? = some st' → Runs guards states env st' o → Runs guards states env st o

section

variable {x : Name} {ty : PrimType} {jmps : List (Primitive × ℕ)} {d : Option ℕ} {states : List (MState G E)}

/-- A switch with a default, that of its last case if it covers all. -/
lemma switches_switchVal {dflt : ℕ} {jmps' : List (Primitive × ℕ)}
    (h : ∀ p, primType p = ty → (jmps.lookup p).or d = some ((jmps'.lookup p).getD dflt)) :
    Switches guards x ty jmps d (.switchVal x jmps' dflt : MState G E) states :=
  fun p hp => ⟨_, h p hp, fun _ _ _ hx hst hrun => .val hx hst hrun⟩

lemma eq_unit {p : Primitive} (h : primType p = .unit) : p = .unit := by
  cases p <;> first | rfl | cases h

/-- The values of the types that have few of them. -/
def smallValue : Primitive → ℕ
  | .bool x => x.toNat
  | .char x | .byte x => x.toNat
  | _ => 0

lemma smallValue_injective {p q : Primitive} (hty : ty = .bool ∨ ty = .char ∨ ty = .byte) (hp : primType p = ty)
    (hq : primType q = ty) (h : smallValue p = smallValue q) : p = q := by
  rcases hty with rfl | rfl | rfl
  · cases p <;> cases hp
    cases q <;> cases hq
    rename_i b b'
    cases b <;> cases b' <;> first | rfl | cases h
  · cases p <;> cases hp
    cases q <;> cases hq
    exact congrArg _ (BitVec.eq_of_toNat_eq h)
  · cases p <;> cases hp
    cases q <;> cases hq
    exact congrArg _ (BitVec.eq_of_toNat_eq h)

/-- As many constants as there are of a type are all of them. -/
lemma mem_of_length {ps : List Primitive} {n : ℕ} (hnodup : ps.Nodup) (hps : ∀ p ∈ ps, primType p = ty)
    (hlen : ps.length = n) (hty : ty = .bool ∨ ty = .char ∨ ty = .byte)
    (hlt : ∀ p, primType p = ty → smallValue p < n) {p : Primitive} (hp : primType p = ty) : p ∈ ps := by
  by_contra hmem
  have hall : ∀ q ∈ p :: ps, primType q = ty := List.forall_mem_cons.mpr ⟨hp, hps⟩
  have hmap : ((p :: ps).map smallValue).Nodup :=
    List.Nodup.map_on (fun q hq q' hq' => smallValue_injective hty (hall q hq) (hall q' hq'))
      (List.nodup_cons.mpr ⟨hmem, hnodup⟩)
  have hsub : (p :: ps).map smallValue ⊆ List.range n := by
    intro i hi
    obtain ⟨q, hq, rfl⟩ := List.mem_map.mp hi
    exact List.mem_range.mpr (hlt q (hall q hq))
  have hle := (List.subperm_of_subset hmap hsub).length_le
  rw [List.length_map, List.length_cons, List.length_range, hlen] at hle
  exact absurd hle (Nat.not_succ_le_self n)

lemma mem_of_bool {ps : List Primitive} (hnodup : ps.Nodup) (hps : ∀ p ∈ ps, primType p = .bool)
    (hlen : ps.length = 2) {p : Primitive} (hp : primType p = .bool) : p ∈ ps := by
  refine mem_of_length hnodup hps hlen (.inl rfl) (fun q hq => ?_) hp
  cases q <;> cases hq
  exact Bool.toNat_lt _

lemma mem_of_char {ps : List Primitive} (hnodup : ps.Nodup) (hps : ∀ p ∈ ps, primType p = ty)
    (hty : ty = .char ∨ ty = .byte) (hlen : ps.length = 256) {p : Primitive} (hp : primType p = ty) : p ∈ ps := by
  refine mem_of_length hnodup hps hlen (.inr hty) (fun q hq => ?_) hp
  rcases hty with rfl | rfl
  · cases q <;> cases hq
    exact BitVec.isLt _
  · cases q <;> cases hq
    exact BitVec.isLt _

lemma exists_lookup {α β : Type} [BEq α] [LawfulBEq α] {l : List (α × β)} {a : α} (h : a ∈ l.map Prod.fst) :
    ∃ b, l.lookup a = some b := by
  obtain ⟨e, he, rfl⟩ := List.mem_map.mp h
  rw [← Option.isSome_iff_exists, List.lookup_isSome_iff]
  exact ⟨e, he, beq_self_eq_true e.1⟩

/-- The last case of a switch that covers all. -/
lemma lookup_dropLast {l : List (Primitive × ℕ)} {e : Primitive × ℕ} (hlast : l.getLast? = some e)
    (hnodup : (l.map Prod.fst).Nodup) {p : Primitive} (hp : p ∈ l.map Prod.fst) :
    l.lookup p = some ((l.dropLast.lookup p).getD e.2) := by
  obtain ⟨l, rfl⟩ := List.getLast?_eq_some_iff.mp hlast
  rw [List.dropLast_concat]
  rw [List.map_append, List.map_singleton, List.nodup_append] at hnodup
  rw [List.lookup_append]
  rcases List.mem_append.mp (List.map_append ▸ hp) with hp | hp
  · obtain ⟨s, hs⟩ := exists_lookup hp
    rw [hs]
    rfl
  · obtain rfl := List.mem_singleton.mp hp
    have hnone : l.lookup e.1 = none := by
      rw [List.lookup_eq_none_iff]
      intro a ha
      simpa using fun heq => hnodup.2.2 a.1 (List.mem_map_of_mem ha) e.1 (List.mem_singleton_self _) heq.symm
    rw [hnone]
    exact List.lookup_cons_self

lemma lookup_unit {j : Primitive × ℕ} {js : List (Primitive × ℕ)} (hj : primType j.1 = .unit) {p : Primitive}
    (hp : primType p = .unit) : (j :: js).lookup p = some j.2 := by
  obtain ⟨k, s⟩ := j
  rw [eq_unit hp, ← eq_unit hj, List.lookup_cons_self]

/-- There is one constant of the type, so that its state is the switch. -/
lemma spec_stateAt_unit {P : List (MState G E) → Prop} {j : Primitive × ℕ} {js : List (Primitive × ℕ)}
    (hj : primType j.1 = .unit) :
    Spec (Good guards) P (stateAt j.2) fun st states => P states ∧
      (((j :: js).map Prod.fst).Nodup → (∀ j' ∈ j :: js, primType j'.1 = ty) →
        Switches guards x ty (j :: js) d st states) := by
  refine (spec_stateAt j.2).imp (fun _ h => h) fun st states h => ⟨h.2, fun _ hty p hp => ⟨j.2, ?_, ?_⟩⟩
  · obtain rfl : .unit = ty := hj.symm.trans (hty j List.mem_cons_self)
    rw [lookup_unit hj hp]
    rfl
  · intro env st' o _ hst hrun
    obtain rfl := Option.some.inj (hst.symm.trans h.1)
    exact hrun

lemma spec_makeSwitch (ty : PrimType) {P : List (MState G E) → Prop} :
    Spec (Good guards) P (makeSwitch x jmps d) fun st states => P states ∧
      ((jmps.map Prod.fst).Nodup → (∀ j ∈ jmps, primType j.1 = ty) → Switches guards x ty jmps d st states) := by
  cases d with
  | some d =>
    cases jmps with
    | nil =>
      refine (spec_stateAt d).imp (fun _ h => h) fun st states h => ⟨h.2, fun _ _ p _ => ⟨d, rfl, ?_⟩⟩
      intro env st' o _ hst hrun
      obtain rfl := Option.some.inj (hst.symm.trans h.1)
      exact hrun
    | cons j js =>
      simp only [makeSwitch]
      split_ifs with hunit
      · exact spec_stateAt_unit hunit
      · refine Spec.pure fun states hp => ⟨hp, fun _ _ => switches_switchVal fun p _ => ?_⟩
        cases List.lookup p (j :: js) <;> rfl
  | none =>
    cases jmps with
    | nil => exact Spec.throw
    | cons j js =>
      simp only [makeSwitch]
      split
      · rename_i j' hbool
        refine Spec.pure fun states hp => ⟨hp, fun hnodup hty => switches_switchVal fun p hp => ?_⟩
        obtain rfl : .bool = ty := hbool.symm.trans (hty j List.mem_cons_self)
        have hmem := mem_of_bool hnodup (List.forall_mem_map.mpr hty) rfl hp
        rw [lookup_dropLast (e := j') rfl hnodup hmem]
        rfl
      · rename_i hunit
        exact spec_stateAt_unit hunit
      · split_ifs with hsmall
        · split
          · rename_i e hlast
            refine Spec.pure fun states hp => ⟨hp, fun hnodup hty => switches_switchVal fun p hp => ?_⟩
            rw [hty j List.mem_cons_self] at hsmall
            have hmem := mem_of_char hnodup (List.forall_mem_map.mpr hty) hsmall.1 (by simp [hsmall.2]) hp
            rw [lookup_dropLast hlast hnodup hmem]
            rfl
          · exact Spec.throw
        · exact Spec.throw

/-- A switch handles what all the states it goes on to handle. -/
lemma handles_of_switches {xs : List Column} {ps : PatternRows G E} {q : Env → List Value → Prop} {st : MState G E}
    (h : Switches guards x ty jmps d st states)
    (hrun : ∀ env vs, Input xs ps env vs → q env vs → ∃ p, env x = some (.prim p) ∧ primType p = ty ∧
      ∀ s, (jmps.lookup p).or d = some s →
        ∃ st', states[s]? = some st' ∧ Runs guards states env st' (expected (firstMatch guards ps vs))) :
    Handles guards states xs ps q st := by
  intro env vs hin hq
  obtain ⟨p, hx, hp, hnext⟩ := hrun env vs hin hq
  obtain ⟨s, hs, hgo⟩ := h p hp
  obtain ⟨st', hst', hrun'⟩ := hnext s hs
  exact hgo env st' _ hx hst' hrun'

end

/-! ### Splits -/

section

variable {S : Type} [DecidableEq S] {le : S → S → Prop} [DecidableRel le] {svalue : Pattern → Option S}
  {matchRow : Pattern → PatternRow G E → PatternRow G E} {anyRow : S → PatternRow G E → PatternRow G E}
  {makeNextState : Name → S → PatternRows G E → Make G E ℕ}
  {makeSwitchState : Name → List (S × ℕ) → Option ℕ → Make G E (MState G E)} {mk : PatternRows G E → Make G E ℕ}
  {ps : PatternRows G E} {c : ℕ}

/-- Every pattern of a column has a value or is a wildcard. -/
def Splits (svalue : Pattern → Option S) (ps : PatternRows G E) (c : ℕ) : Prop :=
  ∀ r ∈ ps, ∃ p, r.patterns[c]? = some p ∧ (svalue p = none → p.isAny = true)

/-- The rows for values that are in no pattern. -/
def anyRows (svalue : Pattern → Option S) (ps : PatternRows G E) (c : ℕ) : PatternRows G E :=
  (ps.filter fun r => (rowValue svalue c r).isNone).map (copyRowWithoutColumn · c)

/-- The jumps to the branches of a table, and the one for all other values. -/
structure SplitJumps (svalue : Pattern → Option S) (ps : PatternRows G E) (c : ℕ) (jmps : List (S × ℕ))
    (d : Option ℕ) : Prop where
  splits : Splits svalue ps c
  nodup : (jmps.map Prod.fst).Nodup
  keys : ∀ sv, sv ∈ jmps.map Prod.fst ↔ ∃ r ∈ ps, rowValue svalue c r = some sv
  dflt : d = none → ∀ r ∈ ps, rowValue svalue c r ≠ none

/-- Some row matches anything. -/
lemma SplitInto.exists_any {acc : List (S × PatternRows G E) × PatternRows G E}
    (h : SplitInto svalue matchRow anyRow c ps acc) (hne : ¬ acc.2.isEmpty = true) :
    ∃ r ∈ ps, rowValue svalue c r = none := by
  rw [List.isEmpty_iff, h.anys, List.filter_eq_nil_iff] at hne
  push Not at hne
  simpa using hne

lemma SplitInto.map_anys {acc : List (S × PatternRows G E) × PatternRows G E}
    (h : SplitInto svalue matchRow anyRow c ps acc) :
    acc.2.map (copyRowWithoutColumn · c) = anyRows svalue ps c := by rw [anyRows, ← h.anys]

lemma spec_makeSplitState {P : List (MState G E) → Prop} {R : S → ℕ → List (MState G E) → Prop}
    {D : ℕ → List (MState G E) → Prop} {Q : MState G E → List (MState G E) → Prop} (hP : Stays P)
    (hR : ∀ sv s, Stays (R sv s))
    (hnext : Splits svalue ps c → ∀ sv, (∃ r ∈ ps, rowValue svalue c r = some sv) →
      Spec (Good guards) P
        (makeNextState (columnName ps c) sv (ps.filterMap (branchRow svalue matchRow anyRow c sv))) (R sv))
    (hdef : Splits svalue ps c → (∃ r ∈ ps, rowValue svalue c r = none) →
      Spec (Good guards) P (mk (anyRows svalue ps c)) D)
    (hswitch : ∀ jmps d, Spec (Good guards)
      (fun states => SplitJumps svalue ps c jmps d ∧ (∀ j ∈ jmps, R j.1 j.2 states) ∧ ∀ s, d = some s → D s states)
      (makeSwitchState (columnName ps c) jmps d) Q) :
    Spec (Good guards) P (makeSplitState le svalue matchRow anyRow makeNextState makeSwitchState mk ps c) Q := by
  unfold makeSplitState
  split
  · exact Spec.throw
  rename_i bs anys hsplit
  have hinto := splitInto_of_foldlM hsplit
  have hfilter : anys = ps.filter fun r => (rowValue svalue c r).isNone := hinto.anys
  have hperm := List.perm_insertionSort (fun b b' : S × PatternRows G E => le b.1 b'.1) bs
  let J : List (S × ℕ) → List (MState G E) → Prop := fun jmps states =>
    List.Forall₂ (fun (b : S × PatternRows G E) j => j.1 = b.1 ∧ R b.1 j.2 states)
      (bs.insertionSort fun b b' => le b.1 b'.1) jmps
  have hJ : ∀ jmps, Stays (J jmps) := fun jmps _ _ hpre h => h.imp fun _ _ h => ⟨h.1, hR _ _ _ _ hpre h.2⟩
  have hjmps : Spec (Good guards) P ((bs.insertionSort fun b b' => le b.1 b'.1).mapM fun b => do
      let s ← makeNextState (columnName ps c) b.1 b.2
      return (b.1, s)) fun jmps states => J jmps states ∧ P states := by
    refine (Spec.frame (Spec.mapM hP (fun b j _ _ hpre h => ⟨h.1, hR _ _ _ _ hpre h.2⟩) fun b hb => ?_) hP).imp
      (fun _ hp => ⟨hp, hp⟩) fun _ _ h => h
    have hb := hperm.mem_iff.mp hb
    rw [hinto.branch b hb]
    exact (hnext hinto.total b.1 ((hinto.keys b.1).mp (List.mem_map_of_mem hb))).bind fun s =>
      Spec.pure fun _ h => ⟨rfl, h⟩
  refine hjmps.bind fun jmps => ?_
  have hfinish : ∀ d, Spec (Good guards)
      (fun states => ((d = none → ∀ r ∈ ps, rowValue svalue c r ≠ none) ∧ ∀ s, d = some s → D s states) ∧ J jmps states)
      (makeSwitchState (columnName ps c) jmps d) Q := by
    refine fun d => (hswitch jmps d).imp (fun states h => ?_) fun _ _ h => h
    obtain ⟨⟨hnone, hsome⟩, hj⟩ := h
    have hkeys : jmps.map Prod.fst = (bs.insertionSort fun b b' => le b.1 b'.1).map Prod.fst := by
      have hall : List.Forall₂ (· = ·) (jmps.map Prod.fst)
          ((bs.insertionSort fun b b' => le b.1 b'.1).map Prod.fst) := by
        rw [List.forall₂_map_left_iff, List.forall₂_map_right_iff]
        exact List.Forall₂.flip (hj.imp fun _ _ h => h.1)
      rwa [List.forall₂_eq_eq_eq] at hall
    refine ⟨⟨hinto.total, ?_, fun sv => ?_, hnone⟩, fun j hjmem => ?_, hsome⟩
    · rw [hkeys]
      exact (hperm.map Prod.fst).nodup_iff.mpr hinto.nodup
    · rw [hkeys, (hperm.map Prod.fst).mem_iff, hinto.keys]
    · obtain ⟨b, -, hb⟩ := exists_of_forall₂ hj hjmem
      rw [hb.1]
      exact hb.2
  simp only
  split_ifs with hempty
  · refine (Spec.pure fun states h => ⟨⟨fun _ r hr hnone => ?_, fun s hs => by cases hs⟩, h.1⟩).bind hfinish
    rw [List.isEmpty_iff, hfilter, List.filter_eq_nil_iff] at hempty
    exact hempty r hr (by rw [hnone, Option.isNone_none])
  · have hany := hinto.exists_any hempty
    rw [hinto.map_anys]
    have hmk : Spec (Good guards) (fun states => J jmps states ∧ P states) (mk (anyRows svalue ps c))
        fun s states => D s states ∧ J jmps states :=
      ((hdef hinto.total hany).frame (hJ jmps)).imp (fun _ h => ⟨h.2, h.1⟩) fun _ _ h => h
    refine hmk.bind fun s => (Spec.pure fun states h => ⟨⟨fun hs => ?_, fun s' hs' => ?_⟩, h.2⟩).bind hfinish
    · cases hs
    · obtain rfl := Option.some.inj hs'
      exact h.1

end

end Hobbes.Match.Table
