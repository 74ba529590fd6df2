import Hobbes.Lang.InstanceGenerators

/-!
# What tests of constraints find out

While constraints are tested, the instances that are stored are derivable, those that have been defined are among them,
and just the constraints in the middle of their tests are marked. So a test finds out whether a constraint is derivable,
or in the middle of its test, as long as nothing that is not derivable comes out to be satisfied by assumption.
-/

namespace Hobbes.Lang

open Core Term

variable {off : List Bytes → List TyTerm → ℕ → ℤ} {o : KeyOrder}

/-! ### Definitions -/

namespace TypeMap

variable {V : Type}

lemma lookup_insert {d : TypeMap V} (h : d.Ordered (monoTypeOrd off)) (mts mts' : List TyTerm) (v : V) :
    lookup off mts' (insert off mts v d) = if mts' = mts then some v else lookup off mts' d :=
  h.lookup_insert mts mts' v

/-- Of types without variables only the sequence itself is found. -/
lemma allMatches_meets {mts : List TyTerm} (hmts : ∀ t ∈ mts, isMonoSingular t = true) (fuel : ℕ) (d : TypeMap V) :
    (allMatches off o fuel d mts).Meets (· = (lookup off mts d).toList) False := by
  suffices h : ∀ u, (findMatches off o fuel mts u d).Meets (· = (lookup off mts d).toList) False from h _
  intro u
  induction mts generalizing u d with
  | nil => exact rfl
  | cons t mts ih =>
    obtain ⟨ht, hmts⟩ := List.forall_mem_cons.mp hmts
    rw [findMatches, Outcome.bind_def]
    cases fuel with
    | zero => exact trivial
    | succ fuel =>
      rw [MonoTypeUnifier.substitute, if_pos ht, Outcome.pure_def, Outcome.returns_bind, lookup, PrefixTree.lookup_cons]
      dsimp only
      rw [if_pos ht]
      cases d.moveTo (monoTypeOrd off) t with
      | none => exact rfl
      | some q => exact ih hmts q u

/-- Only values of the map are found. -/
lemma findBidiMatches_mem (fuel : ℕ) (mts : List TyTerm) (u : MonoTypeUnifier) (d : TypeMap V) :
    (findBidiMatches o fuel mts u d).Meets (∀ v ∈ ·, ∃ e ∈ d.entries mts.length, e.2 = v) True := by
  induction mts generalizing u d with
  | nil =>
    intro v hv
    exact ⟨([], v), List.mem_map_of_mem hv, rfl⟩
  | cons t mts ih =>
    rw [findBidiMatches, Outcome.bind_def]
    apply (Outcome.meets_true (u.substitute fuel t)).bind
    rintro ⟨u, mty⟩ -
    dsimp only
    rw [Outcome.bind_def]
    refine Outcome.Meets.bind (Outcome.Meets.foldOver (fun _ (s : MonoTypeUnifier × List V) =>
      ∀ v ∈ s.2, ∃ e ∈ d.entries (mts.length + 1), e.2 = v) (List.forall_mem_nil _) ?_) fun s hs => hs
    rintro done ⟨k, q⟩ ⟨u, vs⟩ hkq hvs
    have hrest : ∀ pu, (findBidiMatches o fuel mts pu q).Meets
        (∀ v ∈ ·, ∃ e ∈ d.entries (mts.length + 1), e.2 = v) True := by
      refine fun pu => (ih pu q).mono (fun vs hvs v hv => ?_) id
      obtain ⟨e, he, rfl⟩ := hvs v hv
      exact ⟨_, cons_mem_entries hkq he, rfl⟩
    have htry : (tryKey o fuel mty (fun u => u.substituteUpTo fuel k)
        (fun pu => findBidiMatches o fuel mts pu q) [] u).Meets
        (fun s => ∀ v ∈ s.2, ∃ e ∈ d.entries (mts.length + 1), e.2 = v) True := by
      simp only [tryKey, Outcome.bind_def]
      apply (Outcome.meets_true (Outcome.ofOption (u.copy o))).bind
      rintro ⟨u, pu⟩ -
      apply (Outcome.meets_true (u.substituteUpTo fuel k)).bind
      rintro ⟨u, kty⟩ -
      cases kty with
      | none => exact List.forall_mem_nil _
      | some kty =>
        have hunify := (Outcome.meets_true (pu.unify fuel mty kty)).bind fun pu _ => hrest pu
        exact ((hunify.catchAll (List.forall_mem_nil _)).mono (fun _ => id) False.elim).bind fun vs hvs => hvs
    refine htry.bind fun s hs v hv => ?_
    rcases List.mem_append.mp hv with hv | hv
    · exact hvs v hv
    · exact hs v hv

end TypeMap

variable (off) in
/-- What is in a class can be found in its maps. -/
structure TClass.Indexed (tc : TClass) : Prop where
  ordered : tc.tcinstdb.Ordered (monoTypeOrd off)
  mem : ∀ mts, (TypeMap.lookup off mts tc.tcinstdb).isSome ↔ mts ∈ tc.tcinstances
  arity : ∀ mts ∈ tc.tcinstances, mts.length = tc.tvs
  fnsOrdered : tc.tcinstfndb.Ordered (monoTypeOrd off)
  fnsMem : ∀ f, f ∈ tc.tcinstancefns ↔ ∃ fs, TypeMap.lookup off f.itys tc.tcinstfndb = some fs ∧ f ∈ fs
  fnsKey : ∀ mts fs, TypeMap.lookup off mts tc.tcinstfndb = some fs → ∀ f ∈ fs, f.itys = mts
  fnsArity : ∀ f ∈ tc.tcinstancefns, f.itys.length = tc.tvs
  untested : tc.testedInstances = PrefixTree.empty

namespace TClass.Indexed

variable {tc tc' : TClass}

lemma new (tvs : ℕ) (reqs : List ConstraintPtr) : (TClass.new tvs reqs).Indexed off where
  ordered := PrefixTree.ordered_empty
  mem mts := by
    rw [TClass.new, TypeMap.lookup, PrefixTree.lookup_empty]
    simp
  arity := nofun
  fnsOrdered := PrefixTree.ordered_empty
  fnsMem f := by
    rw [TClass.new, TypeMap.lookup, PrefixTree.lookup_empty]
    simp
  fnsKey mts fs h := by
    rw [TClass.new, TypeMap.lookup, PrefixTree.lookup_empty] at h
    cases h
  fnsArity := nofun
  untested := rfl

lemma insertInstance (h : tc.Indexed off) {itys : List TyTerm} (heq : tc.insertInstance off itys = some tc') :
    tc'.Indexed off := by
  unfold TClass.insertInstance at heq
  split_ifs at heq with harity
  cases heq
  rw [not_not] at harity
  refine { h with ordered := h.ordered.insert itys itys, mem := fun mts => ?_, arity := ?_ }
  · rw [TypeMap.lookup_insert h.ordered, List.mem_append, List.mem_singleton, ← h.mem]
    split_ifs with hmts
    · simp [hmts]
    · simp [hmts]
  · intro mts hmts
    rcases List.mem_append.mp hmts with hmts | hmts
    · exact h.arity mts hmts
    · rwa [List.mem_singleton.mp hmts]

lemma insertInstanceFn (h : tc.Indexed off) {reqs : List ConstraintPtr} {itys : List TyTerm}
    (heq : tc.insertInstanceFn off reqs itys = some tc') : tc'.Indexed off := by
  unfold TClass.insertInstanceFn at heq
  split_ifs at heq with harity
  cases heq
  rw [not_not] at harity
  have hold : ∀ f, f ∈ (TypeMap.lookup off itys tc.tcinstfndb).getD [] →
      TypeMap.lookup off itys tc.tcinstfndb = some ((TypeMap.lookup off itys tc.tcinstfndb).getD []) ∧
        f.itys = itys := by
    intro f hf
    cases hfs : TypeMap.lookup off itys tc.tcinstfndb with
    | none =>
      rw [hfs] at hf
      cases hf
    | some fs =>
      rw [hfs] at hf
      exact ⟨rfl, h.fnsKey itys fs hfs f hf⟩
  refine { h with fnsOrdered := h.fnsOrdered.insert itys _, fnsMem := fun f => ?_, fnsKey := ?_, fnsArity := ?_ }
  · rw [TypeMap.lookup_insert h.fnsOrdered, List.mem_append, List.mem_singleton, h.fnsMem]
    split_ifs with hitys
    · rw [hitys]
      constructor
      · rintro (⟨fs, hfs, hf⟩ | hf)
        · exact ⟨_, rfl, List.mem_append_left _ (by rwa [hfs])⟩
        · exact ⟨_, rfl, List.mem_append_right _ (List.mem_singleton.mpr hf)⟩
      · rintro ⟨_, hfs, hf⟩
        cases hfs
        rcases List.mem_append.mp hf with hf | hf
        · exact .inl ⟨_, (hold f hf).1, hf⟩
        · exact .inr (List.mem_singleton.mp hf)
    · refine or_iff_left ?_
      rintro rfl
      exact hitys rfl
  · intro mts fs hfs f hf
    rw [TypeMap.lookup_insert h.fnsOrdered] at hfs
    split_ifs at hfs with hmts
    · cases hfs
      rcases List.mem_append.mp hf with hf | hf
      · rw [hmts, (hold f hf).2]
      · rw [List.mem_singleton.mp hf, hmts]
    · exact h.fnsKey mts fs hfs f hf
  · intro f hf
    rcases List.mem_append.mp hf with hf | hf
    · exact h.fnsArity f hf
    · rwa [List.mem_singleton.mp hf]

end TClass.Indexed

variable (off) in
def TEnv.Indexed (tenv : TEnv) : Prop := ∀ name tc, tenv.unquals name = some tc → tc.Indexed off

namespace TEnv

variable {tenv tenv' : TEnv}

lemma unquals_set (tenv : TEnv) (name name' : Bytes) (tc : TClass) :
    (tenv.set name tc).unquals name' = if name' = name then some tc else tenv.unquals name' :=
  Function.update_apply _ _ _ _

lemma Indexed.set (h : tenv.Indexed off) {name : Bytes} {tc : TClass} (htc : tc.Indexed off) :
    (tenv.set name tc).Indexed off := by
  intro name' tc' hname'
  rw [unquals_set] at hname'
  split_ifs at hname' with hname
  · cases hname'
    exact htc
  · exact h name' tc' hname'

lemma Indexed.define (h : tenv.Indexed off) {d : Definition} (heq : tenv.define off d = some tenv') :
    tenv'.Indexed off := by
  cases d with
  | tclass name tvs reqs =>
    rw [TEnv.define] at heq
    split_ifs at heq
    cases heq
    exact h.set (.new tvs reqs)
  | inst name itys =>
    obtain ⟨tc, htc, heq⟩ := Option.bind_eq_some_iff.mp heq
    obtain ⟨tc', htc', heq⟩ := Option.bind_eq_some_iff.mp heq
    cases heq
    exact h.set ((h name tc htc).insertInstance htc')
  | instFn name reqs itys =>
    obtain ⟨tc, htc, heq⟩ := Option.bind_eq_some_iff.mp heq
    obtain ⟨tc', htc', heq⟩ := Option.bind_eq_some_iff.mp heq
    cases heq
    exact h.set ((h name tc htc).insertInstanceFn htc')

lemma Indexed.defineAll (h : tenv.Indexed off) {ds : List Definition} (heq : tenv.defineAll off ds = some tenv') :
    tenv'.Indexed off := by
  induction ds generalizing tenv with
  | nil =>
    cases heq
    exact h
  | cons d ds ih =>
    rw [TEnv.defineAll, List.foldlM_cons] at heq
    obtain ⟨tenv₁, htenv₁, heq⟩ := Option.bind_eq_some_iff.mp heq
    exact ih (h.define htenv₁) heq

lemma indexed_empty (uidCtr : ℕ) : (TEnv.empty uidCtr).Indexed off := nofun

end TEnv

/-! ### Candidates -/

/-- The candidates are generators of the class, and those whose heads the types are instances of are among them. -/
lemma TClass.Indexed.candidates_meets {tc : TClass} (h : tc.Indexed off) {mts : List TyTerm}
    (hmts : ∀ t ∈ mts, isMonoSingular t = true) (fuel : ℕ) : (tc.candidateTCInstFns o fuel mts).Meets
      (fun fs => (∀ f ∈ fs, f ∈ tc.tcinstancefns) ∧
        ∀ f ∈ tc.tcinstancefns, TypeMap.IsInstance f.itys mts → f ∈ fs) False := by
  have hfound : (TypeMap.findBidiMatches o fuel mts MonoTypeUnifier.empty tc.tcinstfndb).Meets
      ((TypeMap.unifying [] mts tc.tcinstfndb).Sublist ·) False := TypeMap.findBidiMatches_meets fuel Settled.empty
  have hvalues := TypeMap.findBidiMatches_mem (o := o) fuel mts MonoTypeUnifier.empty tc.tcinstfndb
  rw [candidateTCInstFns, Outcome.bind_def]
  refine ((hfound.and hvalues).mono (fun _ => id) And.left).bind ?_
  rintro fss ⟨hsub, hfss⟩
  have hmem : ∀ f, f ∈ fss.flatten.insertionSort (fun a b => a.order ≤ b.order) ↔ ∃ fs ∈ fss, f ∈ fs := by
    intro f
    rw [(List.perm_insertionSort _ _).mem_iff, List.mem_flatten]
  constructor
  · intro f hf
    obtain ⟨fs, hfs, hf⟩ := (hmem f).mp hf
    obtain ⟨e, he, rfl⟩ := hfss fs hfs
    obtain ⟨-, hlookup⟩ := h.fnsOrdered.mem_entries.mp he
    rw [h.fnsMem, h.fnsKey e.1 e.2 hlookup f hf]
    exact ⟨e.2, hlookup, hf⟩
  · rintro f hf ⟨σ, hσ⟩
    obtain ⟨fs, hfs, hffs⟩ := (h.fnsMem f).mp hf
    have hlen : mts.length = f.itys.length := by rw [← hσ, List.length_map]
    refine (hmem f).mpr ⟨fs, hsub.subset (List.mem_map.mpr ⟨(f.itys, fs), ?_, rfl⟩), hffs⟩
    refine TypeMap.mem_solving.mpr ⟨h.fnsOrdered.mem_entries.mpr ⟨hlen.symm, hfs⟩, σ, ?_⟩
    rw [List.nil_append, solves_zip hlen, map_subst_of_closed hmts, hσ]

/-! ### Stages of a test -/

variable (off) in
/-- What has become of the class `tc₀`, where the constraints of `path` are in the middle of their tests. -/
structure Current (tenv₀ : TEnv) (path : List ConstraintPtr) (name : Bytes) (tc₀ tc : TClass) : Prop where
  static : tc = { tc₀ with
    tcinstances := tc.tcinstances, tcinstdb := tc.tcinstdb, testedInstances := tc.testedInstances }
  ordered : tc.tcinstdb.Ordered (monoTypeOrd off)
  testedOrdered : tc.testedInstances.Ordered (monoTypeOrd off)
  sound : ∀ mts, (TypeMap.lookup off mts tc.tcinstdb).isSome → Derivable tenv₀.Fact tenv₀.Rule ⟨name, mts⟩
  complete : ∀ mts ∈ tc₀.tcinstances, (TypeMap.lookup off mts tc.tcinstdb).isSome
  tested : ∀ mts, TypeMap.lookup off mts tc.testedInstances = some true ↔ (⟨name, mts⟩ : ConstraintPtr) ∈ path

variable (off) in
structure Stage (tenv₀ : TEnv) (path : List ConstraintPtr) (tenv : TEnv) : Prop where
  uid : tenv₀.uidCtr ≤ tenv.uidCtr
  current : ∀ name tc₀, tenv₀.unquals name = some tc₀ →
    ∃ tc, tenv.unquals name = some tc ∧ Current off tenv₀ path name tc₀ tc
  old : ∀ name tc, tenv.unquals name = some tc → ∃ tc₀, tenv₀.unquals name = some tc₀
  arity : ∀ c ∈ path, ∃ tc₀, tenv₀.unquals c.name = some tc₀ ∧ c.arguments.length = tc₀.tvs

namespace Stage

variable {tenv₀ tenv : TEnv} {path path' : List ConstraintPtr} {name : Bytes} {tc₀ tc tc' : TClass} {c : ConstraintPtr}

lemma exists_unquals (h : Stage off tenv₀ path tenv) (htc₀ : tenv₀.unquals name = some tc₀) :
    ∃ tc, tenv.unquals name = some tc := by
  obtain ⟨tc, htc, -⟩ := h.current name tc₀ htc₀
  exact ⟨tc, htc⟩

/-- The classes that a class refers to are there. -/
lemma known (h : Stage off tenv₀ path tenv) (hwf : tenv₀.WellFormed) :
    ∀ name tc, tenv.unquals name = some tc → ∀ c ∈ tc.reqs, ∃ tc', tenv.unquals c.name = some tc' := by
  intro name tc htc c hc
  obtain ⟨tc₀, htc₀⟩ := h.old name tc htc
  obtain ⟨tc', htc', hcur⟩ := h.current name tc₀ htc₀
  obtain rfl := Option.some.inj (htc.symm.trans htc')
  rw [hcur.static] at hc
  obtain ⟨tc₁, htc₁⟩ := (hwf name tc₀ htc₀).known c (List.mem_append_left _ hc)
  exact h.exists_unquals htc₁

/-- Before the first test. -/
lemma start (h : tenv₀.Indexed off) : Stage off tenv₀ [] tenv₀ where
  uid := Nat.le_refl _
  current name tc₀ htc₀ := by
    have hindexed := h name tc₀ htc₀
    refine ⟨tc₀, htc₀, rfl, hindexed.ordered, ?_, fun mts hmts => ?_, fun mts hmts => (hindexed.mem mts).mpr hmts, ?_⟩
    · rw [hindexed.untested]
      exact PrefixTree.ordered_empty
    · exact .of_fact ⟨tc₀, htc₀, (hindexed.mem mts).mp hmts⟩
    · intro mts
      rw [hindexed.untested, TypeMap.lookup, PrefixTree.lookup_empty]
      simp
  old name tc htc := ⟨tc, htc⟩
  arity := nofun

lemma setUidCtr (h : Stage off tenv₀ path tenv) {n : ℕ} (hn : tenv.uidCtr ≤ n) :
    Stage off tenv₀ path { tenv with uidCtr := n } := { h with uid := h.uid.trans hn }

/-- One class is changed, and only constraints of this class are marked or unmarked. -/
lemma set (h : Stage off tenv₀ path tenv) (htc₀ : tenv₀.unquals name = some tc₀)
    (hcurrent : Current off tenv₀ path' name tc₀ tc')
    (hother : ∀ c : ConstraintPtr, c.name ≠ name → (c ∈ path' ↔ c ∈ path))
    (harity : ∀ c ∈ path', ∃ tc₀, tenv₀.unquals c.name = some tc₀ ∧ c.arguments.length = tc₀.tvs) :
    Stage off tenv₀ path' (tenv.set name tc') where
  uid := h.uid
  current name' tc₁ htc₁ := by
    rw [TEnv.unquals_set]
    split_ifs with hname
    · subst hname
      obtain rfl := Option.some.inj (htc₀.symm.trans htc₁)
      exact ⟨tc', rfl, hcurrent⟩
    · obtain ⟨tc, htc, hc⟩ := h.current name' tc₁ htc₁
      exact ⟨tc, htc, { hc with tested := fun mts => (hc.tested mts).trans (hother ⟨name', mts⟩ hname).symm }⟩
  old name' tc htc := by
    rw [TEnv.unquals_set] at htc
    split_ifs at htc with hname
    · exact hname ▸ ⟨tc₀, htc₀⟩
    · exact h.old name' tc htc
  arity := harity

/-- A test begins. -/
lemma begin (h : Stage off tenv₀ path tenv) (htc₀ : tenv₀.unquals c.name = some tc₀)
    (hlen : c.arguments.length = tc₀.tvs) (htc : tenv.unquals c.name = some tc) :
    Stage off tenv₀ (c :: path) (tenv.set c.name (tc.test off c.arguments true)) := by
  obtain ⟨tc₁, htc₁, hc⟩ := h.current c.name tc₀ htc₀
  obtain rfl := Option.some.inj (htc.symm.trans htc₁)
  refine h.set htc₀ ⟨?_, hc.ordered, hc.testedOrdered.insert _ _, hc.sound, hc.complete, fun mts => ?_⟩
    (fun d hd => ?_) ?_
  · rw [hc.static]
    rfl
  · rw [TClass.test, TypeMap.lookup_insert hc.testedOrdered, List.mem_cons, ← hc.tested mts]
    split_ifs with hmts
    · exact iff_of_true rfl (.inl (by rw [hmts]))
    · refine (or_iff_right fun heq => hmts ?_).symm
      rw [← heq]
  · rw [List.mem_cons]
    exact or_iff_right fun heq => hd (congrArg ConstraintSet.Constraint.name heq)
  · exact List.forall_mem_cons.mpr ⟨⟨tc₀, htc₀, hlen⟩, h.arity⟩

/-- A test ends. -/
lemma finish (h : Stage off tenv₀ (c :: path) tenv) (hpath : c ∉ path) (htc : tenv.unquals c.name = some tc) :
    Stage off tenv₀ path (tenv.set c.name (tc.test off c.arguments false)) := by
  obtain ⟨tc₀, htc₀⟩ := h.old c.name tc htc
  obtain ⟨tc₁, htc₁, hc⟩ := h.current c.name tc₀ htc₀
  obtain rfl := Option.some.inj (htc.symm.trans htc₁)
  refine h.set htc₀ ⟨?_, hc.ordered, hc.testedOrdered.insert _ _, hc.sound, hc.complete, fun mts => ?_⟩
    (fun d hd => ?_) fun d hd => h.arity d (List.mem_cons_of_mem c hd)
  · rw [hc.static]
    rfl
  · rw [TClass.test, TypeMap.lookup_insert hc.testedOrdered]
    split_ifs with hmts
    · refine iff_of_false nofun ?_
      rwa [hmts]
    · rw [hc.tested, List.mem_cons]
      refine or_iff_right fun heq => hmts ?_
      rw [← heq]
  · rw [List.mem_cons]
    exact (or_iff_right fun heq => hd (congrArg ConstraintSet.Constraint.name heq)).symm

/-- An instance is stored for a constraint that is derivable. -/
lemma insert (h : Stage off tenv₀ path tenv) (hc : Derivable tenv₀.Fact tenv₀.Rule c)
    (htc₀ : tenv₀.unquals c.name = some tc₀) (hlen : c.arguments.length = tc₀.tvs) :
    ∃ tenv', tenv.define off (.inst c.name c.arguments) = some tenv' ∧ Stage off tenv₀ path tenv' := by
  obtain ⟨tc, htc, hcur⟩ := h.current c.name tc₀ htc₀
  have htvs : tc.tvs = tc₀.tvs := by rw [hcur.static]
  have hcurrent : Current off tenv₀ path c.name tc₀ { tc with
      tcinstances := tc.tcinstances ++ [c.arguments]
      tcinstdb := TypeMap.insert off c.arguments c.arguments tc.tcinstdb } := by
    refine ⟨?_, hcur.ordered.insert c.arguments c.arguments, hcur.testedOrdered, fun mts hmts => ?_,
      fun mts hmts => ?_, hcur.tested⟩
    · rw [hcur.static]
    · rw [TypeMap.lookup_insert hcur.ordered] at hmts
      split_ifs at hmts with heq
      · rw [heq]
        exact hc
      · exact hcur.sound mts hmts
    · rw [TypeMap.lookup_insert hcur.ordered]
      split_ifs
      · rfl
      · exact hcur.complete mts hmts
  refine ⟨_, ?_, h.set htc₀ hcurrent (fun _ _ => Iff.rfl) h.arity⟩
  rw [TEnv.define, htc, Option.bind_eq_bind, Option.bind_some, TClass.insertInstance,
    if_neg (by rw [not_not, hlen, htvs])]
  rfl

end Stage

/-! ### Applying a generator -/

/-- A constraint is derivable, or in the middle of its test. -/
def TEnv.Held (tenv₀ : TEnv) (path : List ConstraintPtr) (c : ConstraintPtr) : Prop :=
  Derivable tenv₀.Fact tenv₀.Rule c ∨ c ∈ path

variable (off) in
/-- What a test of `c` finds out. -/
def Answers (tenv₀ : TEnv) (path : List ConstraintPtr) (c : ConstraintPtr) (x : Outcome (TEnv × Option Bool)) : Prop :=
  x.Meets (fun r => Stage off tenv₀ path r.1 ∧ ∃ b, r.2 = some b ∧ (b = true ↔ tenv₀.Held path c)) False

lemma hasFreeVariables_eq_false {mts : List TyTerm} (hmts : ∀ t ∈ mts, isMonoSingular t = true) :
    hasFreeVariables mts = false := by
  rw [hasFreeVariables, (areMonoSingular_iff mts).mpr hmts]
  rfl

section

variable {tenv₀ tenv : TEnv} {path : List ConstraintPtr}
  {satisfied : TEnv → ConstraintPtr → Outcome (TEnv × Option Bool)}

lemma requirementsSatisfied_meets {reqs : List ConstraintPtr}
    (hclosed : ∀ c ∈ reqs, ∀ t ∈ c.arguments, isMonoSingular t = true)
    (hsat : ∀ pre c post, reqs = pre ++ c :: post → (∀ p ∈ pre, tenv₀.Held path p) →
      ∀ tenv, Stage off tenv₀ path tenv → Answers off tenv₀ path c (satisfied tenv c))
    (h : Stage off tenv₀ path tenv) : (requirementsSatisfied satisfied tenv reqs).Meets
      (fun r => Stage off tenv₀ path r.1 ∧ (r.2 = true ↔ ∀ c ∈ reqs, tenv₀.Held path c)) False := by
  induction reqs generalizing tenv with
  | nil => exact ⟨h, iff_of_true rfl nofun⟩
  | cons c reqs ih =>
    obtain ⟨hc, hclosed⟩ := List.forall_mem_cons.mp hclosed
    rw [requirementsSatisfied, hasFreeVariables_eq_false hc, if_neg Bool.false_ne_true, Outcome.bind_def]
    apply (hsat [] c reqs rfl nofun tenv h).bind
    rintro ⟨tenv', _⟩ ⟨h', b, rfl, hb⟩
    cases b with
    | true =>
      have hheld := hb.mp rfl
      dsimp only
      rw [if_pos rfl]
      refine (ih hclosed (fun pre d post heq hpre => ?_) h').mono (fun r hr => ⟨hr.1, ?_⟩) id
      · exact hsat (c :: pre) d post (by rw [heq]; rfl) (List.forall_mem_cons.mpr ⟨hheld, hpre⟩)
      · rw [hr.2, List.forall_mem_cons, and_iff_right hheld]
    | false => exact ⟨h', iff_of_false nofun fun hall => nomatch hb.mpr (hall c List.mem_cons_self)⟩

variable {c : ConstraintPtr} {tc₀ : TClass} {f : TCInstanceFn}

/-- The generator's requirements are held if the constraint is taken to be so. -/
def Good (tenv₀ : TEnv) (path : List ConstraintPtr) (c : ConstraintPtr) (f : TCInstanceFn) : Prop :=
  ∃ σ : Bytes → TyTerm, f.itys.map (Term.subst σ) = c.arguments ∧
    ∀ r ∈ f.reqs.map (ConstraintSet.Constraint.subst σ), tenv₀.Held (c :: path) r

/-- The head is unified with the constraint's types, and what becomes of the requirements by this. -/
lemma head_meets {ρ : Bytes → TyTerm} (hρ : f.Renames ρ) {tys : List TyTerm}
    (htys : ∀ t ∈ tys, isMonoSingular t = true) (hlen : f.itys.length = tys.length)
    (hsharp : Joinable TyCtor.cname (f.itys.zip tys) → TypeMap.IsInstance f.itys tys)
    {unquals : Bytes → Option TClass}
    (hknown : ∀ name tc, unquals name = some tc → ∀ c ∈ tc.reqs, ∃ tc', unquals c.name = some tc')
    (hreqs : ∀ c ∈ f.reqs, ∃ tc, unquals c.name = some tc) (fuel : ℕ) :
    ((mgu fuel MonoTypeUnifier.empty (f.itys.map (Term.subst ρ)) tys).bind fun u =>
      TEnv.refineAll unquals fuel fuel u (f.reqs.map (ConstraintSet.Constraint.subst ρ))).Meets
      (fun p => ∃ σ, f.itys.map (Term.subst σ) = tys ∧ p.2 = f.reqs.map (ConstraintSet.Constraint.subst σ) ∧
        ∃ root θ, StandsFor p.1 root θ ∧ (∀ k, ¬ visitedAt p.1 k) ∧
          (f.itys.map (Term.subst ρ)).map (Term.subst θ) = tys)
      (¬ TypeMap.IsInstance f.itys tys) := by
  have hlen' : (f.itys.map (Term.subst ρ)).length = tys.length := by rw [List.length_map, hlen]
  have hunify := mgu_meets fuel (f.itys.map (Term.subst ρ)) tys hlen'
  refine (hunify.mono (fun _ => id) fun hno hinst => ?_).bind ?_
  · obtain ⟨σ, hσ⟩ := (hρ.exists_solves_iff htys hlen).mpr hinst
    exact hno hσ.same.joinable
  rintro u ⟨hjoin, hu⟩
  have hinst := hsharp (TCInstanceFn.joinable_of_map_subst htys hjoin)
  obtain ⟨root, θ, hstands, hmarks, hgen⟩ := hu ((hρ.exists_solves_iff htys hlen).mpr hinst)
  have hargl : (f.itys.map (Term.subst ρ)).map (Term.subst θ) = tys := by
    rw [(solves_zip hlen').mp hgen.solves, map_subst_of_closed htys]
  have hacsts : ∀ c ∈ f.reqs.map (ConstraintSet.Constraint.subst ρ), ∃ tc, unquals c.name = some tc := by
    intro c hc
    obtain ⟨d, hd, rfl⟩ := List.mem_map.mp hc
    exact hreqs d hd
  refine (TEnv.refineAll_meets hknown fuel fuel hstands hmarks hacsts).mono ?_ False.elim
  rintro p ⟨hp, hstands', hmarks'⟩
  refine ⟨fun x => (ρ x).subst θ, ?_, ?_, root, θ, hstands', hmarks', hargl⟩
  · rw [← TCInstanceFn.map_subst_comp, hargl]
  · rw [hp, List.map_map]
    refine List.map_congr_left fun d _ => ?_
    rw [Function.comp_apply, ConstraintSet.Constraint.subst, ConstraintSet.Constraint.subst,
      ConstraintSet.Constraint.subst, TCInstanceFn.map_subst_comp]

/-- The types of the instance are those of the constraint. -/
lemma instanceTypes_meets {u : MonoTypeUnifier} {root : TyTerm → TyTerm} {θ : Bytes → TyTerm}
    (hstands : StandsFor u root θ) (hmarks : ∀ k, ¬ visitedAt u k) {argl tys : List TyTerm}
    (hargl : argl.map (Term.subst θ) = tys) (htys : ∀ t ∈ tys, isMonoSingular t = true) (fuel : ℕ) :
    ((ConstraintSet.substituteAll fuel u argl).bind fun p =>
      if hasFreeVariables p.2 then .returns none
      else (p.1.substitution o fuel).bind fun _ => .returns (some p.2)).Meets (· = some tys) False := by
  apply (ConstraintSet.substituteAll_meets hstands hmarks fuel argl).bind
  rintro ⟨u', nitys⟩ ⟨rfl, hstands', hmarks'⟩
  have hsubst : (u'.substitution o fuel).Meets (fun _ => True) False :=
    (ConstraintSet.substituteAll_meets hstands' hmarks' fuel _).bind fun _ _ => trivial
  dsimp only
  rw [hargl, hasFreeVariables_eq_false htys, if_neg Bool.false_ne_true]
  exact hsubst.bind fun _ _ => rfl

/-- A candidate puts out an instance iff its head has the constraint's types as an instance and its requirements are
held. -/
lemma apply_meets (hwf : tenv₀.WellFormed) (htc₀ : tenv₀.unquals c.name = some tc₀) (hf : f ∈ tc₀.tcinstancefns)
    (hclosed : ∀ t ∈ c.arguments, isMonoSingular t = true) (hlen : f.itys.length = c.arguments.length)
    (hsharp : tenv₀.Sharp c) (hsat : ∀ σ : Bytes → TyTerm, f.itys.map (Term.subst σ) = c.arguments → ∀ pre r post,
      f.reqs.map (ConstraintSet.Constraint.subst σ) = pre ++ r :: post → (∀ p ∈ pre, tenv₀.Held (c :: path) p) →
        ∀ tenv, Stage off tenv₀ (c :: path) tenv → Answers off tenv₀ (c :: path) r (satisfied tenv r))
    (h : Stage off tenv₀ (c :: path) tenv) (fuel : ℕ) :
    (f.apply off o satisfied fuel tenv c.arguments c.name).Meets (fun r => Stage off tenv₀ (c :: path) r.1 ∧
      ∃ out, r.2 = some out ∧ (out.isSome ↔ Good tenv₀ path c f) ∧ ∀ ip, out = some (ip, true) → ip = c.arguments)
      False := by
  have hfwf := (hwf _ _ htc₀).generators f hf
  rw [TCInstanceFn.apply, if_neg (not_not.mpr hlen), Outcome.bind_def]
  apply (TCInstanceFn.freshDef_meets (fun n hn => hfwf.fresh n (h.uid.trans hn)) fuel).bind
  rintro ⟨uidCtr, acsts, argl⟩ ⟨huid, ρ, hρ, rfl, rfl⟩
  have h₁ := h.setUidCtr huid
  have hreqs : ∀ r ∈ f.reqs, ∃ tc, tenv.unquals r.name = some tc := by
    intro r hr
    obtain ⟨tc', htc'⟩ := (hwf _ _ htc₀).known r
      (List.mem_append_right _ (List.mem_flatMap.mpr ⟨f, hf, hr⟩))
    exact h.exists_unquals htc'
  dsimp only
  rw [Outcome.bind_def]
  apply (head_meets hρ hclosed hlen (hsharp tc₀ htc₀ f hf hlen) (h.known hwf) hreqs fuel).attempt.bind
  rintro r ⟨hsome, hnone⟩
  cases r with
  | none =>
    refine ⟨h₁, none, rfl, iff_of_false nofun ?_, nofun⟩
    rintro ⟨σ, hσ, -⟩
    exact hnone rfl ⟨σ, hσ⟩
  | some p =>
    obtain ⟨u, acsts⟩ := p
    obtain ⟨σ, hσ, rfl, root, θ, hstands, hmarks, hargl⟩ := hsome _ rfl
    have hgood : Good tenv₀ path c f ↔
        ∀ r ∈ f.reqs.map (ConstraintSet.Constraint.subst σ), tenv₀.Held (c :: path) r := by
      refine ⟨?_, fun hall => ⟨σ, hσ, hall⟩⟩
      rintro ⟨τ, hτ, hall⟩
      rwa [hfwf.reqs_eq (hτ.trans hσ.symm)] at hall
    dsimp only
    rw [Outcome.bind_def]
    apply (requirementsSatisfied_meets (hfwf.closed_reqs hclosed hσ) (hsat σ hσ) h₁).bind
    rintro ⟨tenv₂, ok⟩ ⟨h₂, hok⟩
    dsimp only at hok ⊢
    split_ifs with hheld
    · rw [Outcome.bind_def]
      apply (instanceTypes_meets hstands hmarks hargl hclosed fuel).attempt_some.bind
      rintro _ ⟨_, rfl, rfl⟩
      obtain ⟨tc, htc⟩ := h₂.exists_unquals htc₀
      dsimp only
      rw [htc]
      dsimp only
      rw [Outcome.bind_def]
      apply (TypeMap.allMatches_meets hclosed fuel tc.tcinstdb).attempt_some.bind
      rintro _ ⟨_, rfl, rfl⟩
      have hg := hgood.mpr (hok.mp hheld)
      cases TypeMap.lookup off c.arguments tc.tcinstdb with
      | none =>
        refine ⟨h₂, some (c.arguments, true), rfl, iff_of_true rfl hg, ?_⟩
        rintro ip hip
        cases hip
        rfl
      | some ip => exact ⟨h₂, some (ip, false), rfl, iff_of_true rfl hg, nofun⟩
    · exact ⟨h₂, none, rfl, iff_of_false nofun fun hg => hheld (hok.mpr (hgood.mp hg)), nofun⟩

/-- The candidates are tried until one puts out an instance. -/
lemma firstInstance_meets {apply : TEnv → TCInstanceFn → Outcome (TEnv × Option (Option (List TyTerm × Bool)))}
    {insert : TEnv → List TyTerm → Option TEnv} {fs : List TCInstanceFn}
    (happly : ∀ f ∈ fs, ∀ tenv, Stage off tenv₀ (c :: path) tenv → (apply tenv f).Meets
      (fun r => Stage off tenv₀ (c :: path) r.1 ∧ ∃ out, r.2 = some out ∧ (out.isSome ↔ Good tenv₀ path c f) ∧
        ∀ ip, out = some (ip, true) → ip = c.arguments) False)
    (hinsert : ∀ f ∈ fs, Good tenv₀ path c f → ∀ tenv, Stage off tenv₀ (c :: path) tenv →
      ∃ tenv', insert tenv c.arguments = some tenv' ∧ Stage off tenv₀ (c :: path) tenv')
    (h : Stage off tenv₀ (c :: path) tenv) : (firstInstance apply insert tenv fs).Meets
      (fun r => Stage off tenv₀ (c :: path) r.1 ∧ ∃ ips, r.2 = some ips ∧
        ((ips.length == 1) = true ↔ ∃ f ∈ fs, Good tenv₀ path c f)) False := by
  induction fs generalizing tenv with
  | nil => exact ⟨h, [], rfl, iff_of_false nofun fun ⟨f, hf, _⟩ => nomatch hf⟩
  | cons f fs ih =>
    rw [firstInstance, Outcome.bind_def]
    apply (happly f List.mem_cons_self tenv h).bind
    rintro ⟨tenv', _⟩ ⟨h', out, rfl, hout, htypes⟩
    cases out with
    | none =>
      have hbad : ¬ Good tenv₀ path c f := fun hg => nomatch hout.mpr hg
      refine (ih (fun g hg => happly g (List.mem_cons_of_mem f hg)) (fun g hg => hinsert g (List.mem_cons_of_mem f hg))
        h').mono (fun r hr => ⟨hr.1, ?_⟩) id
      obtain ⟨ips, hips, hlen⟩ := hr.2
      refine ⟨ips, hips, hlen.trans ?_⟩
      rw [List.exists_mem_cons_iff, or_iff_right hbad]
    | some r =>
      obtain ⟨ip, isNew⟩ := r
      have hgood : Good tenv₀ path c f := hout.mp rfl
      have hex : ∃ g ∈ f :: fs, Good tenv₀ path c g := ⟨f, List.mem_cons_self, hgood⟩
      cases isNew with
      | false => exact ⟨h', [ip], rfl, iff_of_true rfl hex⟩
      | true =>
        obtain rfl := htypes ip rfl
        obtain ⟨tenv₁, htenv₁, h₁⟩ := hinsert f List.mem_cons_self hgood tenv' h'
        dsimp only
        rw [htenv₁]
        exact ⟨h₁, [c.arguments], rfl, iff_of_true rfl hex⟩

/-- Only constraints of the class's arity are derivable. -/
lemma arity_of_derivable (hindexed : tenv₀.Indexed off) (htc₀ : tenv₀.unquals c.name = some tc₀)
    (hc : Derivable tenv₀.Fact tenv₀.Rule c) : c.arguments.length = tc₀.tvs := by
  rcases derivable_iff.mp hc with ⟨tc, htc, hmem⟩ | ⟨ds, ⟨tc, htc, f, hf, σ, hσ, -⟩, -⟩
  · obtain rfl := Option.some.inj (htc₀.symm.trans htc)
    exact (hindexed _ _ htc).arity _ hmem
  · obtain rfl := Option.some.inj (htc₀.symm.trans htc)
    rw [← hσ, List.length_map]
    exact (hindexed _ _ htc).fnsArity f hf

/-! ### Tests -/

variable {q : ConstraintPtr}

/-- A test of a constraint that is not in the middle of its own test. -/
lemma instanceMatches_meets (hwf : tenv₀.WellFormed) (hindexed : tenv₀.Indexed off) (hq : tenv₀.Settles q)
    (hsearch : Searched tenv₀.Fact tenv₀.Rule q path c) (hpath : c ∉ path)
    (hclosed : ∀ t ∈ c.arguments, isMonoSingular t = true) (htc₀ : tenv₀.unquals c.name = some tc₀)
    (hlen : c.arguments.length = tc₀.tvs) (fuel : ℕ)
    (hsat : ∀ r, Searched tenv₀.Fact tenv₀.Rule q (c :: path) r → (∀ t ∈ r.arguments, isMonoSingular t = true) →
      (∃ tc, tenv₀.unquals r.name = some tc) → ∀ tenv, Stage off tenv₀ (c :: path) tenv →
        Answers off tenv₀ (c :: path) r (satisfied tenv r)) (h : Stage off tenv₀ path tenv) :
    (TClass.instanceMatches off o satisfied fuel tenv c.name c.arguments).Meets (fun r => Stage off tenv₀ path r.1 ∧
      ∃ ips, r.2 = some ips ∧ ((ips.length == 1) = true ↔ Derivable tenv₀.Fact tenv₀.Rule c)) False := by
  obtain ⟨tc, htc, hcur⟩ := h.current c.name tc₀ htc₀
  rw [TClass.instanceMatches, htc]
  dsimp only
  rw [Outcome.bind_def]
  apply (TypeMap.allMatches_meets hclosed fuel tc.tcinstdb).attempt_some.bind
  rintro _ ⟨_, rfl, rfl⟩
  cases hlookup : TypeMap.lookup off c.arguments tc.tcinstdb with
  | some ip => exact ⟨h, [ip], rfl, iff_of_true rfl (hcur.sound c.arguments (by rw [hlookup]; rfl))⟩
  | none =>
    have hfact : ¬ tenv₀.Fact c := by
      rintro ⟨tc₁, htc₁, hmem⟩
      obtain rfl := Option.some.inj (htc₀.symm.trans htc₁)
      have hsome := hcur.complete _ hmem
      rw [hlookup] at hsome
      cases hsome
    -- What is held by assumption is derivable, as nothing leads the query astray.
    have hderivable : ∀ f ∈ tc₀.tcinstancefns, Good tenv₀ path c f → Derivable tenv₀.Fact tenv₀.Rule c := by
      rintro f hf ⟨σ, hσ, hall⟩
      by_contra hc
      obtain ⟨r, hr, hrd, hrpath⟩ := hq.refuted path c hsearch hpath hc _ ⟨tc₀, htc₀, f, hf, σ, hσ, rfl⟩
      exact (hall r hr).elim hrd hrpath
    have hcand : tc.candidateTCInstFns o fuel c.arguments = tc₀.candidateTCInstFns o fuel c.arguments := by
      rw [hcur.static]
      rfl
    dsimp only [Option.toList]
    rw [hcand, Outcome.bind_def]
    apply ((hindexed _ _ htc₀).candidates_meets hclosed fuel).attempt_some.bind
    rintro _ ⟨fs, rfl, hfs, hmem⟩
    dsimp only
    rw [Outcome.bind_def]
    refine Outcome.Meets.bind (firstInstance_meets ?_ ?_ (h.begin htc₀ hlen htc)) ?_
    · intro f hf tenv' h'
      have hf₀ := hfs f hf
      have hfwf := (hwf _ _ htc₀).generators f hf₀
      refine apply_meets hwf htc₀ hf₀ hclosed (((hindexed _ _ htc₀).fnsArity f hf₀).trans hlen.symm)
        (hq.sharp path c hsearch hpath hfact) (fun σ hσ pre r post heq hpre => ?_) h' fuel
      have hrule : tenv₀.Rule c (pre ++ r :: post) := ⟨tc₀, htc₀, f, hf₀, σ, hσ, heq.symm⟩
      have hr : r ∈ f.reqs.map (ConstraintSet.Constraint.subst σ) := by
        rw [heq]
        exact List.mem_append_right _ List.mem_cons_self
      refine hsat r (.premise hsearch hpath hfact hrule hpre) (hfwf.closed_reqs hclosed hσ r hr) ?_
      obtain ⟨d, hd, rfl⟩ := List.mem_map.mp hr
      exact (hwf _ _ htc₀).known d (List.mem_append_right _ (List.mem_flatMap.mpr ⟨f, hf₀, hd⟩))
    · exact fun f hf hgood tenv' h' => h'.insert (hderivable f (hfs f hf) hgood) htc₀ hlen
    · rintro ⟨tenv₁, _⟩ ⟨h₁, ips, rfl, hips⟩
      obtain ⟨tc₁, htc₁⟩ := h₁.exists_unquals htc₀
      dsimp only
      rw [htc₁]
      refine ⟨h₁.finish hpath htc₁, ips, rfl, hips.trans ⟨?_, fun hc => ?_⟩⟩
      · rintro ⟨f, hf, hgood⟩
        exact hderivable f (hfs f hf) hgood
      · obtain ⟨ds, ⟨tc₂, htc₂, f, hf, σ, hσ, rfl⟩, hall⟩ := (derivable_iff.mp hc).resolve_left hfact
        obtain rfl := Option.some.inj (htc₀.symm.trans htc₂)
        exact ⟨f, hmem f hf ⟨σ, hσ⟩, σ, hσ, fun r hr => .inl (hall r hr)⟩

/-- A test finds out whether a constraint is derivable, or in the middle of its test. -/
lemma satisfied_meets (hwf : tenv₀.WellFormed) (hindexed : tenv₀.Indexed off) (hq : tenv₀.Settles q) (fuel : ℕ)
    (hsearch : Searched tenv₀.Fact tenv₀.Rule q path c) (hclosed : ∀ t ∈ c.arguments, isMonoSingular t = true)
    (hknown : ∃ tc, tenv₀.unquals c.name = some tc) (h : Stage off tenv₀ path tenv) :
    Answers off tenv₀ path c (TEnv.satisfied off o fuel tenv c) := by
  induction fuel generalizing path c tenv with
  | zero => exact trivial
  | succ fuel ih =>
    obtain ⟨tc₀, htc₀⟩ := hknown
    obtain ⟨tc, htc, hcur⟩ := h.current c.name tc₀ htc₀
    have htvs : tc.tvs = tc₀.tvs := by rw [hcur.static]
    rw [TEnv.satisfied, htc]
    dsimp only
    rw [htvs, hasFreeVariables_eq_false hclosed, if_neg Bool.false_ne_true]
    split_ifs with harity hmarked
    · refine ⟨h, false, rfl, iff_of_false nofun ?_⟩
      rintro (hc | hc)
      · exact harity (arity_of_derivable hindexed htc₀ hc)
      · obtain ⟨tc₁, htc₁, hlen⟩ := h.arity c hc
        obtain rfl := Option.some.inj (htc₀.symm.trans htc₁)
        exact harity hlen
    · exact ⟨h, true, rfl, iff_of_true rfl (.inr ((hcur.tested c.arguments).mp hmarked))⟩
    · have hpath : c ∉ path := fun hc => hmarked ((hcur.tested c.arguments).mpr hc)
      rw [Outcome.bind_def]
      apply (instanceMatches_meets hwf hindexed hq hsearch hpath hclosed htc₀ (not_not.mp harity) fuel
        (fun r hr hrclosed hrknown tenv' h' => ih hr hrclosed hrknown h') h).bind
      rintro ⟨tenv₁, _⟩ ⟨h₁, ips, rfl, hips⟩
      exact ⟨h₁, ips.length == 1, rfl, hips.trans (or_iff_left hpath).symm⟩

end

end Hobbes.Lang
