import Hobbes.Lang.TypeMap

/-!
# What type maps find

The search of a type map keeps a unifier that has solved the equations of the types gone through, and stands for their
most general solution. So a sequence without variables is found iff it is an instance of the query, as long as the types
that are unified differ by more than what the names of constructors leave out. Where the map's sequences have variables
too, all with a common instance are found, if the search ends.
-/

namespace Hobbes.Lang

open Core Term PrefixTree

/-! ### Conditions -/

/-- After `P` has been solved, a type of the query that is not known yet can be unified with a key only if it has an
instance in common with it. -/
def Sharp (P : Equations TyCtor Bytes) (p : TyTerm × TyTerm) : Prop :=
  ∀ θ, MostGeneral θ P → isMonoSingular (p.1.subst θ) = false →
    Joinable TyCtor.cname [(p.1.subst θ, p.2.subst θ)] → ∃ σ, Solves σ (P ++ [p])

/-- The same of a type that may be known, and the types' unification makes no infinite type. -/
def Tame (P : Equations TyCtor Bytes) (p : TyTerm × TyTerm) : Prop :=
  ∀ θ, MostGeneral θ P → (Joinable TyCtor.cname [(p.1.subst θ, p.2.subst θ)] → ∃ σ, Solves σ (P ++ [p])) ∧
    ((∀ t, IsFinite [(p.1.subst θ, p.2.subst θ)] t) ∨ typeVars (p.1.subst θ) = [] ∨ typeVars (p.2.subst θ) = [])

/-- At each position of two sequences, after the positions before it. -/
def Along (C : Equations TyCtor Bytes → TyTerm × TyTerm → Prop) (P E : Equations TyCtor Bytes) : Prop :=
  ∀ ps p rest, E = ps ++ p :: rest → C (P ++ ps) p

lemma Along.cons {C : Equations TyCtor Bytes → TyTerm × TyTerm → Prop} {P E : Equations TyCtor Bytes}
    {p : TyTerm × TyTerm} (h : Along C P (p :: E)) : C P p ∧ Along C (P ++ [p]) E := by
  refine ⟨?_, fun ps q rest heq => ?_⟩
  · have := h [] p E rfl
    rwa [List.append_nil] at this
  · have := h (p :: ps) q rest (by rw [heq, List.cons_append])
    rwa [List.append_assoc]

namespace TypeMap

variable {V α : Type} {off : List Bytes → List TyTerm → ℕ → ℤ} {o : KeyOrder}

/-! ### The values of the sequences that solve the equations -/

open Classical in
/-- The sequences that solve the equations with their values, in order. -/
noncomputable def solving (P : Equations TyCtor Bytes) (mts : List TyTerm) (d : TypeMap V) : List (List TyTerm × V) :=
  (entries mts.length d).filter fun e => ∃ σ, Solves σ (P ++ mts.zip e.1)

lemma mem_solving {P : Equations TyCtor Bytes} {mts : List TyTerm} {d : TypeMap V} {e : List TyTerm × V} :
    e ∈ solving P mts d ↔ e ∈ entries mts.length d ∧ ∃ σ, Solves σ (P ++ mts.zip e.1) := by
  classical
  rw [solving, List.mem_filter, decide_eq_true_iff]

noncomputable def unifying (P : Equations TyCtor Bytes) (mts : List TyTerm) (d : TypeMap V) : List V :=
  (solving P mts d).map Prod.snd

lemma unifying_nil {P : Equations TyCtor Bytes} (hP : ∃ σ, Solves σ P) (d : TypeMap V) :
    unifying P [] d = d.value.toList := by
  unfold unifying solving
  rw [List.length_nil, entries, List.filter_map, List.map_map]
  simp [Function.comp_def, hP]

lemma unifying_cons (P : Equations TyCtor Bytes) (t : TyTerm) (ts : List TyTerm) (d : TypeMap V) :
    unifying P (t :: ts) d = d.children.flatMap fun p => unifying (P ++ [(t, p.1)]) ts p.2 := by
  unfold unifying solving
  rw [List.length_cons, entries, List.filter_flatMap, List.map_flatMap]
  congr 1
  funext p
  rw [List.filter_map, List.map_map]
  refine congrArg (List.map Prod.snd) (List.filter_congr fun e _ => ?_)
  rw [Function.comp_apply, List.zip_cons_cons, ← List.append_cons]

/-- There are none after equations that can not be solved. -/
lemma unifying_eq_nil {P : Equations TyCtor Bytes} (hP : ¬ ∃ σ, Solves σ P) (mts : List TyTerm) (d : TypeMap V) :
    unifying P mts d = [] := by
  rw [unifying, List.map_eq_nil_iff, List.eq_nil_iff_forall_not_mem]
  intro e he
  obtain ⟨-, σ, hσ⟩ := mem_solving.mp he
  exact hP ⟨σ, (solves_append.mp hσ).1⟩

/-! ### Keys -/

section

variable {P : Equations TyCtor Bytes} {u : MonoTypeUnifier} {θ : Bytes → TyTerm} {t k : TyTerm} {fuel : ℕ}
  {key : MonoTypeUnifier → Outcome (MonoTypeUnifier × Option TyTerm)} {rest : MonoTypeUnifier → Outcome α}
  {failed : α}

lemma joinable_of_solves (h : MostGeneral θ P) (hsolves : ∃ σ, Solves σ (P ++ [(t, k)])) :
    Joinable TyCtor.cname [(t.subst θ, k.subst θ)] := by
  obtain ⟨σ, hσ⟩ := hsolves
  obtain ⟨hP, htk⟩ := solves_append.mp hσ
  have habsorbs := h.absorbs σ hP
  have hsolves : Solves σ [(t.subst θ, k.subst θ)] := by
    rw [solves_singleton] at htk ⊢
    rw [habsorbs.subst, habsorbs.subst, htk]
  exact hsolves.same.joinable

/-- What is found with one key, as far as its type can be unified with the query's. -/
lemma tryKey_meets (h : Settled P u θ)
    (hkey : ∀ u, Settled P u θ → (key u).Meets (fun r => Settled P r.1 θ ∧ r.2 = some (k.subst θ)) False)
    {A : α → Prop} (hrest : ∀ pu θ', Settled (P ++ [(t, k)]) pu θ' → (rest pu).Meets A False) :
    (tryKey o fuel (t.subst θ) key rest failed u).Meets (fun r => Settled P r.1 θ ∧
      ((∃ σ, Solves σ (P ++ [(t, k)])) → A r.2) ∧
        (¬ Joinable TyCtor.cname [(t.subst θ, k.subst θ)] → r.2 = failed)) False := by
  obtain ⟨u₁, pu, hcopy, hu₁, hpu⟩ := h.copy o
  simp only [tryKey, hcopy, Outcome.bind_def, Outcome.ofOption_some, Outcome.returns_bind, Outcome.pure_def]
  refine (hkey u₁ hu₁).bind ?_
  rintro ⟨u₂, kty⟩ ⟨hu₂, hkty⟩
  dsimp only at hu₂ hkty
  rw [hkty]
  have hunify := hpu.unify_meets (q := t) (k := k) fuel
  dsimp only
  cases hrun : pu.unify fuel (t.subst θ) (k.subst θ) with
  | runsOn => exact trivial
  | throws =>
    have hno := hunify.of_throws hrun
    exact ⟨hu₂, fun hsolves => absurd (joinable_of_solves h.mostGeneral hsolves) hno, fun _ => rfl⟩
  | returns pu' =>
    obtain ⟨hjoinable, hsolved⟩ := hunify.of_returns hrun
    rw [Outcome.returns_bind]
    by_cases hsolves : ∃ σ, Solves σ (P ++ [(t, k)])
    · obtain ⟨θ', hpu'⟩ := hsolved hsolves
      have hmeets := hrest pu' θ' hpu'
      cases hr : rest pu' with
      | runsOn => exact trivial
      | throws => exact (hmeets.of_throws hr).elim
      | returns a => exact ⟨hu₂, fun _ => hmeets.of_returns hr, fun hno => absurd hjoinable hno⟩
    · cases rest pu' with
      | runsOn => exact trivial
      | throws => exact ⟨hu₂, fun h => absurd h hsolves, fun hno => absurd hjoinable hno⟩
      | returns a => exact ⟨hu₂, fun h => absurd h hsolves, fun hno => absurd hjoinable hno⟩

/-- What is found with one key is added. -/
lemma collect_meets {V : Type} {s : MonoTypeUnifier × List V} {kp : TyTerm × TypeMap V} {mty : TyTerm}
    {key : TyTerm → MonoTypeUnifier → Outcome (MonoTypeUnifier × Option TyTerm)}
    {rest : MonoTypeUnifier → TypeMap V → Outcome (List V)} {A : MonoTypeUnifier × List V → Prop}
    (h : (tryKey o fuel mty (key kp.1) (fun pu => rest pu kp.2) [] s.1).Meets A False) :
    (collect o fuel mty key rest s kp).Meets (fun s' => ∃ r, A r ∧ s' = (r.1, s.2 ++ r.2)) False :=
  h.bind fun r hr => ⟨r, hr, rfl⟩

lemma tryKey_le {n m : ℕ} (h : n ≤ m) (mty : TyTerm)
    {key' : MonoTypeUnifier → Outcome (MonoTypeUnifier × Option TyTerm)} {rest' : MonoTypeUnifier → Outcome α}
    (hkey : ∀ u, (key u).Le (key' u)) (hrest : ∀ u, (rest u).Le (rest' u)) (failed : α) (u : MonoTypeUnifier) :
    (tryKey o n mty key rest failed u).Le (tryKey o m mty key' rest' failed u) := by
  simp only [tryKey, Outcome.bind_def]
  refine Outcome.Le.bind (.refl _) fun p => (hkey p.1).bind fun q => ?_
  obtain ⟨u', kty⟩ := q
  cases kty with
  | none => exact .refl _
  | some kty => exact ((unify_le h _ _ _).bind hrest).catchAll failed |>.bind fun a => .refl _

lemma collect_le {V : Type} {n m : ℕ} (h : n ≤ m) (mty : TyTerm)
    {key key' : TyTerm → MonoTypeUnifier → Outcome (MonoTypeUnifier × Option TyTerm)}
    {rest rest' : MonoTypeUnifier → TypeMap V → Outcome (List V)} (hkey : ∀ k u, (key k u).Le (key' k u))
    (hrest : ∀ u q, (rest u q).Le (rest' u q)) (s : MonoTypeUnifier × List V) (kp : TyTerm × TypeMap V) :
    (collect o n mty key rest s kp).Le (collect o m mty key' rest' s kp) :=
  (tryKey_le h mty (hkey kp.1) (fun u => hrest u kp.2) [] s.1).bind fun _ => .refl _

end

lemma typeVars_of_isMonoSingular {t : TyTerm} (h : isMonoSingular t = true) : typeVars t = [] := by
  induction t using Term.induct with
  | var x => cases h
  | app c ts ih =>
    rw [isMonoSingular, Bool.and_eq_true] at h
    have hall : ∀ t ∈ ts, typeVars t = [] := fun t ht => ih t ht (mem_isMonoSingular h.2 ht)
    rw [typeVars]
    clear ih h
    induction ts with
    | nil => rfl
    | cons t ts ih =>
      obtain ⟨ht, hts⟩ := List.forall_mem_cons.mp hall
      rw [typesVars, ht, ih hts]
      rfl

/-! ### Maps without variables -/

/-- No sequence in the map has variables. -/
def Closed (n : ℕ) (d : TypeMap V) : Prop := ∀ e ∈ entries n d, ∀ k ∈ e.1, isMonoSingular k = true

section

variable {P : Equations TyCtor Bytes} {u : MonoTypeUnifier} {θ : Bytes → TyTerm} {t k : TyTerm} {n : ℕ} {d : TypeMap V}
  {p : TyTerm × TypeMap V}

lemma cons_mem_entries (hp : p ∈ d.children) {e : List TyTerm × V} (he : e ∈ entries n p.2) :
    (p.1 :: e.1, e.2) ∈ entries (n + 1) d :=
  List.mem_flatMap.mpr ⟨p, hp, List.mem_map_of_mem he⟩

lemma Closed.child (h : Closed (n + 1) d) (hp : p ∈ d.children) : Closed n p.2 :=
  fun _ he k hk => h _ (cons_mem_entries hp he) k (List.mem_cons_of_mem _ hk)

lemma Closed.key (h : Closed (n + 1) d) (hp : p ∈ d.children) (hne : entries n p.2 ≠ []) :
    isMonoSingular p.1 = true := by
  obtain ⟨e, he⟩ := List.exists_mem_of_ne_nil _ hne
  exact h _ (cons_mem_entries hp he) p.1 List.mem_cons_self

/-- The same condition at every sequence of the map, from a node on. -/
def AlongAll (C : Equations TyCtor Bytes → TyTerm × TyTerm → Prop) (P : Equations TyCtor Bytes) (mts : List TyTerm)
    (d : TypeMap V) : Prop := ∀ e ∈ entries mts.length d, Along C P (mts.zip e.1)

lemma AlongAll.child {C : Equations TyCtor Bytes → TyTerm × TyTerm → Prop} {mts : List TyTerm}
    (h : AlongAll C P (t :: mts) d) (hp : p ∈ d.children) : AlongAll C (P ++ [(t, p.1)]) mts p.2 :=
  fun _ he => (h _ (cons_mem_entries hp he)).cons.2

lemma AlongAll.key {C : Equations TyCtor Bytes → TyTerm × TyTerm → Prop} {mts : List TyTerm}
    (h : AlongAll C P (t :: mts) d) (hp : p ∈ d.children) (hne : entries mts.length p.2 ≠ []) : C P (t, p.1) := by
  obtain ⟨e, he⟩ := List.exists_mem_of_ne_nil _ hne
  exact (h _ (cons_mem_entries hp he)).cons.1

/-- What is known after all does not change what has been solved. -/
lemma known (h : Settled P u θ) (t : TyTerm) :
    Settled (P ++ [(t, t.subst θ)]) u θ := by
  refine ⟨h.mostGeneral.congr fun σ => ?_, h.unmarked, h.classes⟩
  rw [solves_append, solves_singleton]
  refine and_iff_left_of_imp fun hσ => ?_
  rw [(h.mostGeneral.absorbs σ hσ).subst]

/-- Only one key solves an equation with a type that is known. -/
lemma eq_of_known (h : Settled P u θ) (ht : isMonoSingular (t.subst θ) = true) (hk : isMonoSingular k = true)
    (hsolves : ∃ σ, Solves σ (P ++ [(t, k)])) : k = t.subst θ := by
  obtain ⟨σ, hσ⟩ := hsolves
  obtain ⟨hP, htk⟩ := solves_append.mp hσ
  rw [solves_singleton, subst_of_isMonoSingular hk, ← (h.mostGeneral.absorbs σ hP).subst,
    subst_of_isMonoSingular ht] at htk
  exact htk.symm

/-- What is found with one key that has no variables. -/
lemma tryKey_closed {rest : MonoTypeUnifier → Outcome α} {failed : α} {fuel : ℕ} (h : Settled P u θ)
    (hk : isMonoSingular k = true) (hsharp : Sharp P (t, k)) (ht : isMonoSingular (t.subst θ) = false) {A : α → Prop}
    (hrest : ∀ pu θ', Settled (P ++ [(t, k)]) pu θ' → (rest pu).Meets A False) :
    (tryKey o fuel (t.subst θ) (fun u => return (u, some k)) rest failed u).Meets (fun r => Settled P r.1 θ ∧
      ((∃ σ, Solves σ (P ++ [(t, k)])) → A r.2) ∧ (¬ (∃ σ, Solves σ (P ++ [(t, k)])) → r.2 = failed)) False := by
  have hkey : ∀ u, Settled P u θ → (Outcome.returns (u, some k)).Meets
      (fun r : MonoTypeUnifier × Option TyTerm => Settled P r.1 θ ∧ r.2 = some (k.subst θ)) False :=
    fun u hu => ⟨hu, congrArg some (subst_of_isMonoSingular hk θ).symm⟩
  refine (tryKey_meets h hkey hrest).mono (fun r hr => ⟨hr.1, hr.2.1, fun hno => hr.2.2 fun hjoin => ?_⟩) id
  exact hno (hsharp θ h.mostGeneral ht hjoin)

end

/-- The values of the sequences that solve the equations are found, in order. -/
theorem findMatches_meets (fuel : ℕ) {mts : List TyTerm} {P : Equations TyCtor Bytes} {u : MonoTypeUnifier}
    {θ : Bytes → TyTerm} {d : TypeMap V} (h : Settled P u θ) (hd : Complete (monoTypeOrd off) mts.length d)
    (hclosed : Closed mts.length d) (hsharp : AlongAll Sharp P mts d) :
    (findMatches off o fuel mts u d).Meets (· = unifying P mts d) False := by
  induction mts generalizing P u θ d with
  | nil => exact (unifying_nil ⟨θ, h.mostGeneral.solves⟩ d).symm
  | cons mt mts ih =>
    rw [findMatches, Outcome.bind_def]
    rcases h.substitute fuel mt with hruns | ⟨u, hsub, hu⟩
    · rw [hruns]
      exact trivial
    rw [hsub, Outcome.returns_bind]
    dsimp only
    split_ifs with hmono
    · rw [unifying_cons, flatMap_eq_find hd.1 (mt.subst θ), moveTo]
      · cases hfind : find (monoTypeOrd off) (mt.subst θ) d.children with
        | none => rfl
        | some q =>
          have hq := mem_of_find hfind
          exact ih (known hu mt) (hd.2 _ hq).2 (hclosed.child hq) (hsharp.child hq)
      · intro p hp hne
        refine unifying_eq_nil (fun hsolves => hne ?_) _ _
        exact eq_of_known hu hmono (hclosed.key hp (hd.2 p hp).1) hsolves
    · rw [Bool.not_eq_true] at hmono
      refine (Outcome.Meets.foldOver (fun done s => Settled P s.1 θ ∧
        s.2 = done.flatMap fun p => unifying (P ++ [(mt, p.1)]) mts p.2) ⟨hu, rfl⟩ ?_).bind fun s hs => ?_
      · rintro done p s hp ⟨hs, hvs⟩
        obtain ⟨hne, hcomplete⟩ := hd.2 p hp
        refine (collect_meets (tryKey_closed hs (hclosed.key hp hne) (hsharp.key hp hne) hmono fun pu θ' hpu =>
          ih hpu hcomplete (hclosed.child hp) (hsharp.child hp))).mono ?_ id
        rintro - ⟨⟨u', vs⟩, ⟨hu', hfound, hnone⟩, rfl⟩
        refine ⟨hu', ?_⟩
        rw [List.flatMap_append, List.flatMap_singleton, ← hvs]
        refine congrArg (s.2 ++ ·) ?_
        by_cases hsolves : ∃ σ, Solves σ (P ++ [(mt, p.1)])
        · exact hfound hsolves
        · rw [unifying_eq_nil hsolves]
          exact hnone hsolves
      · rw [unifying_cons]
        exact hs.2

/-- Whether there is such a sequence is found. -/
theorem hasMatchAt_meets (fuel : ℕ) {mts : List TyTerm} {P : Equations TyCtor Bytes} {u : MonoTypeUnifier}
    {θ : Bytes → TyTerm} {d : TypeMap V} (h : Settled P u θ) (hd : Complete (monoTypeOrd off) mts.length d)
    (hclosed : Closed mts.length d) (hsharp : AlongAll Sharp P mts d) :
    (hasMatchAt off o fuel mts u d).Meets (fun b => b = true ↔ unifying P mts d ≠ []) False := by
  induction mts generalizing P u θ d with
  | nil =>
    have hvalue : d.value.toList ≠ [] := by
      obtain ⟨v, hv⟩ := Option.isSome_iff_exists.mp hd
      rw [hv]
      exact List.cons_ne_nil v []
    rw [unifying_nil ⟨θ, h.mostGeneral.solves⟩]
    exact iff_of_true rfl hvalue
  | cons mt mts ih =>
    rw [hasMatchAt, Outcome.bind_def]
    rcases h.substitute fuel mt with hruns | ⟨u, hsub, hu⟩
    · rw [hruns]
      exact trivial
    rw [hsub, Outcome.returns_bind]
    dsimp only
    split_ifs with hmono
    · rw [unifying_cons, flatMap_eq_find hd.1 (mt.subst θ), moveTo]
      · cases hfind : find (monoTypeOrd off) (mt.subst θ) d.children with
        | none => exact iff_of_false Bool.false_ne_true (not_not.mpr rfl)
        | some q =>
          have hq := mem_of_find hfind
          exact ih (known hu mt) (hd.2 _ hq).2 (hclosed.child hq) (hsharp.child hq)
      · intro p hp hne
        refine unifying_eq_nil (fun hsolves => hne ?_) _ _
        exact eq_of_known hu hmono (hclosed.key hp (hd.2 p hp).1) hsolves
    · rw [Bool.not_eq_true] at hmono
      refine (Outcome.Meets.foldOver (fun done s => Settled P s.1 θ ∧
        (s.2 = true ↔ (done.flatMap fun p => unifying (P ++ [(mt, p.1)]) mts p.2) ≠ []))
        ⟨hu, iff_of_false Bool.false_ne_true (not_not.mpr rfl)⟩ ?_).bind fun s hs => ?_
      · rintro done p s hp ⟨hs, hvs⟩
        rw [List.flatMap_append, List.flatMap_singleton]
        split_ifs with hfound
        · exact ⟨hs, iff_of_true hfound fun hnil => hvs.mp hfound (List.append_eq_nil_iff.mp hnil).1⟩
        · have hnil : (done.flatMap fun p => unifying (P ++ [(mt, p.1)]) mts p.2) = [] :=
            not_not.mp (hvs.not.mp hfound)
          rw [hnil, List.nil_append]
          obtain ⟨hne, hcomplete⟩ := hd.2 p hp
          refine (tryKey_closed hs (hclosed.key hp hne) (hsharp.key hp hne) hmono fun pu θ' hpu =>
            ih hpu hcomplete (hclosed.child hp) (hsharp.child hp)).mono ?_ id
          rintro ⟨u', b⟩ ⟨hu', hfound, hnone⟩
          refine ⟨hu', ?_⟩
          by_cases hsolves : ∃ σ, Solves σ (P ++ [(mt, p.1)])
          · exact hfound hsolves
          · rw [unifying_eq_nil hsolves]
            exact iff_of_false (by rw [hnone hsolves]; exact Bool.false_ne_true) (not_not.mpr rfl)
      · rw [unifying_cons]
        exact hs.2

/-! ### Maps with variables -/

/-- The values of the sequences that solve the equations are among those that are found, in the same order. -/
theorem findBidiMatches_meets (fuel : ℕ) {mts : List TyTerm} {P : Equations TyCtor Bytes} {u : MonoTypeUnifier}
    {θ : Bytes → TyTerm} {d : TypeMap V} (h : Settled P u θ) :
    (findBidiMatches o fuel mts u d).Meets ((unifying P mts d).Sublist ·) False := by
  induction mts generalizing P u θ d with
  | nil =>
    rw [unifying_nil ⟨θ, h.mostGeneral.solves⟩]
    exact .refl _
  | cons mt mts ih =>
    rw [findBidiMatches, Outcome.bind_def]
    rcases h.substitute fuel mt with hruns | ⟨u, hsub, hu⟩
    · rw [hruns]
      exact trivial
    rw [hsub, Outcome.returns_bind]
    refine (Outcome.Meets.foldOver (fun done s => Settled P s.1 θ ∧
      (done.flatMap fun p => unifying (P ++ [(mt, p.1)]) mts p.2).Sublist s.2) ⟨hu, .refl _⟩ ?_).bind fun s hs => ?_
    · rintro done p s - ⟨hs, hvs⟩
      refine (collect_meets (tryKey_meets hs (k := p.1) (fun u hu => hu.substituteUpTo_meets fuel p.1)
        fun pu θ' hpu => ih hpu)).mono ?_ id
      rintro - ⟨⟨u', vs⟩, ⟨hu', hfound, -⟩, rfl⟩
      refine ⟨hu', ?_⟩
      rw [List.flatMap_append, List.flatMap_singleton]
      refine hvs.append ?_
      by_cases hsolves : ∃ σ, Solves σ (P ++ [(mt, p.1)])
      · exact hfound hsolves
      · rw [unifying_eq_nil hsolves]
        exact List.nil_sublist _
    · rw [unifying_cons]
      exact hs.2

/-! ### More fuel -/

section

variable {n m : ℕ}

lemma hasMatchAt_le (h : n ≤ m) (mts : List TyTerm) (u : MonoTypeUnifier) (d : TypeMap V) :
    (hasMatchAt off o n mts u d).Le (hasMatchAt off o m mts u d) := by
  induction mts generalizing u d with
  | nil => exact .refl _
  | cons mt mts ih =>
    simp only [hasMatchAt, Outcome.bind_def]
    refine (substitute_le h u mt).bind fun r => ?_
    split_ifs
    · cases moveTo (monoTypeOrd off) r.2 d with
      | none => exact .refl _
      | some q => exact ih r.1 q
    · refine (Outcome.Le.foldOver (fun s p => ?_) _ _).bind fun s => .refl _
      split_ifs
      · exact .refl _
      · exact tryKey_le h r.2 (fun u => .refl _) (fun u => ih u p.2) false s.1

lemma findMatches_le (h : n ≤ m) (mts : List TyTerm) (u : MonoTypeUnifier) (d : TypeMap V) :
    (findMatches off o n mts u d).Le (findMatches off o m mts u d) := by
  induction mts generalizing u d with
  | nil => exact .refl _
  | cons mt mts ih =>
    simp only [findMatches, Outcome.bind_def]
    refine (substitute_le h u mt).bind fun r => ?_
    split_ifs
    · cases moveTo (monoTypeOrd off) r.2 d with
      | none => exact .refl _
      | some q => exact ih r.1 q
    · exact (Outcome.Le.foldOver (collect_le h r.2 (fun _ _ => .refl _) ih) _ _).bind fun s => .refl _

lemma findBidiMatches_le (h : n ≤ m) (mts : List TyTerm) (u : MonoTypeUnifier) (d : TypeMap V) :
    (findBidiMatches o n mts u d).Le (findBidiMatches o m mts u d) := by
  induction mts generalizing u d with
  | nil => exact .refl _
  | cons mt mts ih =>
    simp only [findBidiMatches, Outcome.bind_def]
    refine (substitute_le h u mt).bind fun r => ?_
    refine (Outcome.Le.foldOver (collect_le h r.2 (fun k u => ?_) ih) _ _).bind fun s => .refl _
    exact substituteUpTo_le h u k

end

/-! ### The searches end -/

section

variable {P : Equations TyCtor Bytes} {u : MonoTypeUnifier} {θ : Bytes → TyTerm} {t k : TyTerm}

lemma exists_tryKey {key : ℕ → MonoTypeUnifier → Outcome (MonoTypeUnifier × Option TyTerm)}
    {rest : ℕ → MonoTypeUnifier → Outcome α} (failed : α) (h : Settled P u θ)
    (hkeyle : ∀ n m u, n ≤ m → (key n u).Le (key m u)) (hkeyends : ∀ u, Settled P u θ → ∃ n, key n u ≠ .runsOn)
    (hkey : ∀ n u, Settled P u θ → (key n u).Meets (fun r => r.2 = some (k.subst θ)) False)
    (hunify : ∀ c, Copied P c θ → ∃ n, c.unify n (t.subst θ) (k.subst θ) ≠ .runsOn)
    (hsolves : Joinable TyCtor.cname [(t.subst θ, k.subst θ)] → ∃ σ, Solves σ (P ++ [(t, k)]))
    (hrestle : ∀ n m u, n ≤ m → (rest n u).Le (rest m u))
    (hrest : ∀ pu θ', Settled (P ++ [(t, k)]) pu θ' → ∃ n, rest n pu ≠ .runsOn) :
    ∃ n, tryKey o n (t.subst θ) (key n) (rest n) failed u ≠ .runsOn := by
  obtain ⟨u₁, pu, hcopy, hu₁, hpu⟩ := h.copy o
  simp only [tryKey, hcopy, Outcome.bind_def, Outcome.ofOption_some, Outcome.returns_bind]
  have htry : ∃ n, (pu.unify n (t.subst θ) (k.subst θ)).bind (rest n) ≠ .runsOn := by
    refine Outcome.exists_bind (fun n m hnm => unify_le hnm _ _ _) hrestle (hunify pu hpu) fun n pu' hrun => ?_
    obtain ⟨hjoin, hsolved⟩ := (hpu.unify_meets (q := t) (k := k) n).of_returns hrun
    obtain ⟨θ', hpu'⟩ := hsolved (hsolves hjoin)
    exact hrest pu' θ' hpu'
  refine Outcome.exists_bind (fun n m => hkeyle n m u₁) (fun n m r hnm => ?_) (hkeyends u₁ hu₁) fun n r hr => ?_
  · cases r.2 with
    | none => exact .refl _
    | some kty => exact (((unify_le hnm _ _ _).bind fun a => hrestle n m a hnm).catchAll failed).bind fun a => .refl _
  · rw [(hkey n u₁ hu₁).of_returns hr]
    obtain ⟨m, hm⟩ := htry
    obtain ⟨a, ha⟩ := Outcome.exists_catchAll hm failed
    refine ⟨m, ?_⟩
    dsimp only
    rw [ha]
    exact nofun

lemma exists_tryKey_closed {rest : ℕ → MonoTypeUnifier → Outcome α} (failed : α) (h : Settled P u θ)
    (hk : isMonoSingular k = true) (hsharp : Sharp P (t, k)) (ht : isMonoSingular (t.subst θ) = false)
    (hrestle : ∀ n m u, n ≤ m → (rest n u).Le (rest m u))
    (hrest : ∀ pu θ', Settled (P ++ [(t, k)]) pu θ' → ∃ n, rest n pu ≠ .runsOn) :
    ∃ n, tryKey o n (t.subst θ) (fun u => return (u, some k)) (rest n) failed u ≠ .runsOn := by
  have hsubst := subst_of_isMonoSingular hk θ
  refine exists_tryKey failed h (fun _ _ _ _ => .refl _) (fun u _ => ⟨0, nofun⟩)
    (fun n u _ => congrArg some hsubst.symm) (fun c hc => hc.exists_unify_closed (.inr ?_))
    (hsharp θ h.mostGeneral ht) hrestle hrest
  rw [hsubst]
  exact typeVars_of_isMonoSingular hk

/-- The loop over the keys ends if the search ends for each of them. -/
lemma exists_collect {key : ℕ → TyTerm → MonoTypeUnifier → Outcome (MonoTypeUnifier × Option TyTerm)}
    {rest : ℕ → MonoTypeUnifier → TypeMap V → Outcome (List V)} {cs : List (TyTerm × TypeMap V)} (h : Settled P u θ)
    (hkeyle : ∀ n m k u, n ≤ m → (key n k u).Le (key m k u))
    (hrestle : ∀ n m u q, n ≤ m → (rest n u q).Le (rest m u q))
    (hkeeps : ∀ n s p, p ∈ cs → Settled P s.1 θ →
      (collect o n (t.subst θ) (key n) (rest n) s p).Meets (fun s => Settled P s.1 θ) False)
    (hends : ∀ u p, p ∈ cs → Settled P u θ →
      ∃ n, tryKey o n (t.subst θ) (key n p.1) (fun pu => rest n pu p.2) [] u ≠ .runsOn) :
    ∃ n, (Outcome.foldOver (collect o n (t.subst θ) (key n) (rest n)) (u, []) cs).bind (fun s => .returns s.2) ≠
      .runsOn := by
  have hle : ∀ n m s p, n ≤ m → (collect o n (t.subst θ) (key n) (rest n) s p).Le
      (collect o m (t.subst θ) (key m) (rest m) s p) := fun n m s p hnm =>
    collect_le hnm _ (fun k u => hkeyle n m k u hnm) (fun u q => hrestle n m u q hnm) s p
  refine Outcome.exists_bind (fun n m hnm => .foldOver (fun s p => hle n m s p hnm) _ _) (fun _ _ _ _ => .refl _)
    (Outcome.exists_foldOver hle cs (fun n s p s' hp hs hrun => (hkeeps n s p hp hs).of_returns hrun)
      (fun s p hp hs => ?_) h) fun _ _ _ => ⟨0, nofun⟩
  refine Outcome.exists_bind (fun n m hnm => ?_) (fun _ _ _ _ => .refl _) (hends s.1 p hp hs) fun _ _ _ => ⟨0, nofun⟩
  exact tryKey_le hnm _ (fun u => hkeyle n m p.1 u hnm) (fun u => hrestle n m u p.2 hnm) [] s.1

/-- The search ends if it ends after the type has been substituted. -/
lemma exists_substituted {f : ℕ → MonoTypeUnifier × TyTerm → Outcome α} (h : Settled P u θ) (t : TyTerm)
    (hle : ∀ n m r, n ≤ m → (f n r).Le (f m r)) (hf : ∀ u, Settled P u θ → ∃ n, f n (u, t.subst θ) ≠ .runsOn) :
    ∃ n, (u.substitute n t).bind (f n) ≠ .runsOn := by
  obtain ⟨u₁, hsub, -⟩ := h.exists_substitute (t := t) le_rfl
  refine Outcome.exists_bind (fun n m hnm => substitute_le hnm u t) hle ⟨_, by rw [hsub]; exact nofun⟩ fun n r hr => ?_
  rcases h.substitute n t with hruns | ⟨u', hsub', hu'⟩
  · rw [hruns] at hr
    cases hr
  · rw [hsub'] at hr
    cases hr
    exact hf u' hu'

lemma exists_findMatches {mts : List TyTerm} {d : TypeMap V} (h : Settled P u θ)
    (hd : Complete (monoTypeOrd off) mts.length d) (hclosed : Closed mts.length d) (hsharp : AlongAll Sharp P mts d) :
    ∃ n, findMatches off o n mts u d ≠ .runsOn := by
  induction mts generalizing P u θ d with
  | nil => exact ⟨0, nofun⟩
  | cons mt mts ih =>
    simp only [findMatches, Outcome.bind_def]
    refine exists_substituted h mt (fun n m r hnm => ?_) fun u' hu' => ?_
    · split_ifs
      · cases moveTo (monoTypeOrd off) r.2 d with
        | none => exact .refl _
        | some q => exact findMatches_le hnm mts r.1 q
      · exact (Outcome.Le.foldOver (collect_le hnm r.2 (fun _ _ => .refl _) (findMatches_le hnm mts)) _ _).bind
          fun s => .refl _
    · split_ifs with hmono
      · cases hfind : moveTo (monoTypeOrd off) (mt.subst θ) d with
        | none => exact ⟨0, nofun⟩
        | some q =>
          have hq := mem_of_find hfind
          exact ih (known hu' mt) (hd.2 _ hq).2 (hclosed.child hq) (hsharp.child hq)
      · rw [Bool.not_eq_true] at hmono
        refine exists_collect hu' (fun _ _ _ _ _ => .refl _) (fun n m u q hnm => findMatches_le hnm mts u q)
          (fun n s p hp hs => ?_) fun u p hp hu => ?_
        · obtain ⟨hne, hcomplete⟩ := hd.2 p hp
          exact (collect_meets (tryKey_closed hs (hclosed.key hp hne) (hsharp.key hp hne) hmono fun pu θ' hpu =>
            findMatches_meets n hpu hcomplete (hclosed.child hp) (hsharp.child hp))).mono
              (fun _ ⟨_, hr, heq⟩ => heq ▸ hr.1) id
        · obtain ⟨hne, hcomplete⟩ := hd.2 p hp
          exact exists_tryKey_closed [] hu (hclosed.key hp hne) (hsharp.key hp hne) hmono
            (fun n m u hnm => findMatches_le hnm mts u p.2) fun pu θ' hpu =>
              ih hpu hcomplete (hclosed.child hp) (hsharp.child hp)

lemma exists_hasMatchAt {mts : List TyTerm} {d : TypeMap V} (h : Settled P u θ)
    (hd : Complete (monoTypeOrd off) mts.length d) (hclosed : Closed mts.length d) (hsharp : AlongAll Sharp P mts d) :
    ∃ n, hasMatchAt off o n mts u d ≠ .runsOn := by
  induction mts generalizing P u θ d with
  | nil => exact ⟨0, nofun⟩
  | cons mt mts ih =>
    simp only [hasMatchAt, Outcome.bind_def]
    have hround : ∀ n m (s : MonoTypeUnifier × Bool) (mty : TyTerm) (p : TyTerm × TypeMap V), n ≤ m →
        (if s.2 then .returns s else tryKey o n mty (fun u => return (u, some p.1))
          (fun pu => hasMatchAt off o n mts pu p.2) false s.1 : Outcome _).Le
        (if s.2 then .returns s else tryKey o m mty (fun u => return (u, some p.1))
          (fun pu => hasMatchAt off o m mts pu p.2) false s.1) := by
      intro n m s mty p hnm
      split_ifs
      · exact .refl _
      · exact tryKey_le hnm mty (fun u => .refl _) (fun u => hasMatchAt_le hnm mts u p.2) false s.1
    refine exists_substituted h mt (fun n m r hnm => ?_) fun u' hu' => ?_
    · split_ifs
      · cases moveTo (monoTypeOrd off) r.2 d with
        | none => exact .refl _
        | some q => exact hasMatchAt_le hnm mts r.1 q
      · exact (Outcome.Le.foldOver (fun s p => hround n m s r.2 p hnm) _ _).bind fun s => .refl _
    · split_ifs with hmono
      · cases hfind : moveTo (monoTypeOrd off) (mt.subst θ) d with
        | none => exact ⟨0, nofun⟩
        | some q =>
          have hq := mem_of_find hfind
          exact ih (known hu' mt) (hd.2 _ hq).2 (hclosed.child hq) (hsharp.child hq)
      · rw [Bool.not_eq_true] at hmono
        refine Outcome.exists_bind (fun n m hnm => .foldOver (fun s p => hround n m s _ p hnm) _ _)
          (fun _ _ _ _ => .refl _) (Outcome.exists_foldOver (fun n m s p hnm => hround n m s _ p hnm)
            (I := fun s => Settled P s.1 θ) d.children (fun n s p s' hp hs hrun => ?_) (fun s p hp hs => ?_) hu')
          fun _ _ _ => ⟨0, nofun⟩
        · obtain ⟨hne, hcomplete⟩ := hd.2 p hp
          split_ifs at hrun
          · cases hrun
            exact hs
          · exact ((tryKey_closed hs (hclosed.key hp hne) (hsharp.key hp hne) hmono fun pu θ' hpu =>
              hasMatchAt_meets n hpu hcomplete (hclosed.child hp) (hsharp.child hp)).of_returns hrun).1
        · obtain ⟨hne, hcomplete⟩ := hd.2 p hp
          split_ifs
          · exact ⟨0, nofun⟩
          · exact exists_tryKey_closed false hs (hclosed.key hp hne) (hsharp.key hp hne) hmono
              (fun n m u hnm => hasMatchAt_le hnm mts u p.2) fun pu θ' hpu =>
                ih hpu hcomplete (hclosed.child hp) (hsharp.child hp)

lemma exists_findBidiMatches {mts : List TyTerm} {d : TypeMap V} (h : Settled P u θ)
    (hd : Complete (monoTypeOrd off) mts.length d) (htame : AlongAll Tame P mts d) :
    ∃ n, findBidiMatches o n mts u d ≠ .runsOn := by
  induction mts generalizing P u θ d with
  | nil => exact ⟨0, nofun⟩
  | cons mt mts ih =>
    simp only [findBidiMatches, Outcome.bind_def]
    refine exists_substituted h mt (fun n m r hnm => ?_) fun u' hu' => ?_
    · exact (Outcome.Le.foldOver (collect_le hnm r.2 (fun k u => substituteUpTo_le hnm u k)
        (findBidiMatches_le hnm mts)) _ _).bind fun s => .refl _
    · refine exists_collect hu' (fun n m k u hnm => substituteUpTo_le hnm u k)
        (fun n m u q hnm => findBidiMatches_le hnm mts u q) (fun n s p hp hs => ?_) fun u p hp hu => ?_
      · exact (collect_meets (tryKey_meets hs (k := p.1) (fun u hu => hu.substituteUpTo_meets n p.1)
          fun pu θ' hpu => findBidiMatches_meets n hpu)).mono (fun _ ⟨_, hr, heq⟩ => heq ▸ hr.1) id
      · obtain ⟨hne, hcomplete⟩ := hd.2 p hp
        obtain ⟨hjoin, hfinite⟩ := htame.key hp hne θ hu.mostGeneral
        refine exists_tryKey [] hu (fun n m u hnm => substituteUpTo_le hnm u p.1)
          (fun u hu => hu.exists_substituteUpTo p.1)
          (fun n u hu => (hu.substituteUpTo_meets n p.1).mono (fun r hr => hr.2) id) (fun c hc => ?_) hjoin
          (fun n m u hnm => findBidiMatches_le hnm mts u p.2) fun pu θ' hpu => ih hpu hcomplete (htame.child hp)
        exact hfinite.elim hc.exists_unify hc.exists_unify_closed

end

/-! ### What has been inserted -/

section

variable {ins : List (List TyTerm × V)} {n : ℕ}

lemma ofInsertions_append (p : List TyTerm × V) :
    ofInsertions off (ins ++ [p]) = insert off p.1 p.2 (ofInsertions off ins) := by
  rw [ofInsertions, List.foldl_append]
  rfl

lemma complete_ofInsertions (hn : 1 ≤ n) (hins : ∀ p ∈ ins, p.1.length = n) :
    Complete (monoTypeOrd off) n (ofInsertions off ins) := by
  induction ins using List.reverseRecOn with
  | nil =>
    obtain ⟨n, rfl⟩ := Nat.exists_eq_add_of_le' hn
    exact complete_empty
  | append_singleton ins p ih =>
    obtain ⟨hins, hp⟩ := List.forall_mem_append.mp hins
    rw [ofInsertions_append]
    exact complete_insert (hp p (List.mem_singleton_self p)) (.inr (ih hins)) p.2

/-- The value that was inserted last. -/
lemma lookup_ofInsertions (hn : 1 ≤ n) (hins : ∀ p ∈ ins, p.1.length = n) {ks : List TyTerm} (hks : ks.length = n) :
    lookup off ks (ofInsertions off ins) = ins.reverse.lookup ks := by
  induction ins using List.reverseRecOn with
  | nil =>
    exact lookup_empty ks
  | append_singleton ins p ih =>
    have hcomplete : Complete (monoTypeOrd off) n (ofInsertions off ins) :=
      complete_ofInsertions hn (List.forall_mem_append.mp hins).1
    obtain ⟨hins, hp⟩ := List.forall_mem_append.mp hins
    rw [ofInsertions_append, lookup, insert, lookup_insert (hp p (List.mem_singleton_self p)) hks (.inr hcomplete),
      List.reverse_append, List.reverse_singleton, List.singleton_append, List.lookup_cons, ← ih hins]
    by_cases heq : ks = p.1
    · rw [if_pos heq, beq_iff_eq.mpr heq]
    · rw [if_neg heq, beq_eq_false_iff_ne.mpr heq]
      rfl

lemma mem_entries_ofInsertions (hn : 1 ≤ n) (hins : ∀ p ∈ ins, p.1.length = n) {e : List TyTerm × V} :
    e ∈ entries n (ofInsertions off ins) ↔ ins.reverse.lookup e.1 = some e.2 := by
  rw [mem_entries (complete_ofInsertions hn hins)]
  constructor
  · rintro ⟨hlen, hlookup⟩
    rwa [← lookup_ofInsertions hn hins hlen]
  · intro hlookup
    have hlen : e.1.length = n := hins _ (List.mem_reverse.mp (mem_of_lookup hlookup))
    exact ⟨hlen, by rwa [← lookup_ofInsertions hn hins hlen] at hlookup⟩

end

/-! ### Searches of a filled map -/

/-- Whatever fuel is given, if it lasts this is returned, and there is fuel that lasts. -/
def Gives (x : ℕ → Outcome α) (a : α) : Prop := (∃ fuel, x fuel = .returns a) ∧ ∀ fuel, (x fuel).Meets (· = a) False

lemma gives_of_meets {x : ℕ → Outcome α} {a : α} (h : ∀ fuel, (x fuel).Meets (· = a) False)
    (hends : ∃ fuel, x fuel ≠ .runsOn) : Gives x a := by
  refine ⟨?_, h⟩
  obtain ⟨fuel, hfuel⟩ := hends
  refine ⟨fuel, ?_⟩
  cases hx : x fuel with
  | returns b => rw [(h fuel).of_returns hx]
  | throws => exact ((h fuel).of_throws hx).elim
  | runsOn => exact absurd hx hfuel

/-- One substitution makes the query equal to the sequence. -/
def IsInstance (mts ks : List TyTerm) : Prop := ∃ σ, mts.map (subst σ) = ks

/-- The query and the sequence have an instance in common. -/
def HaveInstance (mts ks : List TyTerm) : Prop := ∃ σ τ, mts.map (subst σ) = ks.map (subst τ)

lemma solvable_iff_isInstance {mts ks : List TyTerm} (hlen : mts.length = ks.length)
    (hks : ∀ k ∈ ks, isMonoSingular k = true) : (∃ σ, Solves σ (mts.zip ks)) ↔ IsInstance mts ks := by
  refine exists_congr fun σ => ?_
  rw [solves_zip hlen, List.map_congr_left fun k hk => subst_of_isMonoSingular (hks k hk) σ, List.map_id']

/-- Where no variable is on both sides, two substitutions are one. -/
lemma solvable_of_haveInstance {mts ks : List TyTerm} (hlen : mts.length = ks.length)
    (hapart : ∀ k ∈ ks, ∀ t ∈ mts, ∀ x ∈ typeVars k, x ∉ typeVars t) (h : HaveInstance mts ks) :
    ∃ σ, Solves σ (mts.zip ks) := by
  obtain ⟨σ, τ, heq⟩ := h
  classical
  refine ⟨fun x => if ∃ t ∈ mts, x ∈ typeVars t then σ x else τ x, (solves_zip hlen).mpr ?_⟩
  rw [List.map_congr_left (g := subst σ) fun t ht => subst_congr fun x hx => if_pos ⟨t, ht, hx⟩, heq]
  refine (List.map_congr_left fun k hk => subst_congr fun x hx => if_neg ?_).symm
  rintro ⟨t, ht, hxt⟩
  exact hapart k hk t ht x hx hxt

section

variable {ins : List (List TyTerm × V)} {n : ℕ} {mts : List TyTerm}

lemma closed_ofInsertions (hn : 1 ≤ n) (hins : ∀ p ∈ ins, p.1.length = n)
    (hclosed : ∀ p ∈ ins, ∀ k ∈ p.1, isMonoSingular k = true) : Closed n (ofInsertions off ins) := fun e he =>
  hclosed e (List.mem_reverse.mp (mem_of_lookup ((mem_entries_ofInsertions hn hins).mp he)))

lemma alongAll_ofInsertions {C : Equations TyCtor Bytes → TyTerm × TyTerm → Prop} (hn : 1 ≤ n)
    (hins : ∀ p ∈ ins, p.1.length = n) (hmts : mts.length = n) (h : ∀ p ∈ ins, Along C [] (mts.zip p.1)) :
    AlongAll C [] mts (ofInsertions off ins) := fun e he =>
  h e (List.mem_reverse.mp (mem_of_lookup ((mem_entries_ofInsertions hn hins).mp (hmts ▸ he))))

end

/-! ### Two maps of one sequence -/

/-- Keys in the order of a list. -/
def listOrder : KeyOrder := ⟨fun nodes => nodes.keys, fun _ => .refl _⟩

end TypeMap

end Hobbes.Lang
