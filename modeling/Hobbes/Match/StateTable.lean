import Hobbes.Core.Acyclic
import Hobbes.Core.Lists
import Hobbes.Match.Dfa

/-!
# The table of a primitive match

The states are numbered and copied by the same search of the graph. Each row of the table stands for one
state, and what it says of a value is what the state says of it.
-/

namespace Hobbes.Match

open Core Lang Relation

namespace MDFA

variable {E : Type} (dfa : MDFA E)

/-! ### Graphs of primitive matches -/

/-- A jump or the default of a switch. -/
def Next (s t : ℕ) : Prop :=
  ∃ var jumps dflt, dfa.states[s]? = some (.switchVal var jumps dflt) ∧
    (t ∈ jumps.map Prod.snd ∨ dflt = some t)

/-- A switch on one of the arguments with a default, or an expression that has an index. -/
inductive ValidState (params : List Bytes) : MState E → Prop
  | switchVal {var : Bytes} {jumps : List (Primitive × ℕ)} {dflt : ℕ} (hvar : var ∈ params)
      (hlong : ∀ jmp ∈ jumps, ∃ v, jmp.1 = .long v) (hdistinct : (jumps.map Prod.fst).Nodup) :
      ValidState params (.switchVal var jumps (some dflt))
  | finishExpr {e : E} {i : ℕ} (hi : dfa.exprIdxs e = some i) : ValidState params (.finishExpr e)

/-- An acyclic graph of switches on arguments of type `long` and of finish states. -/
structure IsPrimMatch (root : ℕ) : Prop where
  longs : dfa.canMakeInterpretedPrimMatchFunction root
  switch : ∃ var jumps dflt, dfa.states[root]? = some (.switchVal var jumps dflt)
  acyclic : ∀ s, ReflTransGen dfa.Next root s → ¬ TransGen dfa.Next s s
  valid : ∀ s, ReflTransGen dfa.Next root s →
    ∃ st, dfa.states[s]? = some st ∧ dfa.ValidState ((dfa.primFArgs root).map Prod.fst) st

/-- What is reached from a state in fewer than `n` steps is valid, and there is no more. -/
inductive Unfolds (params : List Bytes) : ℕ → ℕ → Prop
  | finishExpr {n s i : ℕ} {e : E} (hs : dfa.states[s]? = some (.finishExpr e))
      (hi : dfa.exprIdxs e = some i) : Unfolds params (n + 1) s
  | switchVal {n s dflt : ℕ} {var : Bytes} {jumps : List (Primitive × ℕ)}
      (hs : dfa.states[s]? = some (.switchVal var jumps (some dflt))) (hvar : var ∈ params)
      (hlong : ∀ jmp ∈ jumps, ∃ v, jmp.1 = .long v) (hdistinct : (jumps.map Prod.fst).Nodup)
      (hjumps : ∀ jmp ∈ jumps, Unfolds params n jmp.2) (hdflt : Unfolds params n dflt) :
      Unfolds params (n + 1) s

variable {dfa} {params : List Bytes} {n s : ℕ}

lemma IsPrimMatch.unfolds {root : ℕ} (h : dfa.IsPrimMatch root) (n : ℕ) {s : ℕ}
    (hs : ReflTransGen dfa.Next root s) (hn : height dfa.Next s < n) :
    dfa.Unfolds ((dfa.primFArgs root).map Prod.fst) n s := by
  induction n generalizing s with
  | zero => omega
  | succ n ih =>
    have hfin : {t | TransGen dfa.Next s t}.Finite := by
      refine (Set.finite_lt_nat dfa.states.length).subset fun t ht => ?_
      obtain ⟨st, hst, -⟩ := h.valid t (hs.trans ht.to_reflTransGen)
      exact (List.getElem?_eq_some_iff.mp hst).1
    have hnext {t : ℕ} (ht : dfa.Next s t) : dfa.Unfolds ((dfa.primFArgs root).map Prod.fst) n t := by
      have hlt := height_lt ht (h.acyclic t (hs.tail ht)) hfin
      exact ih (hs.tail ht) (by omega)
    obtain ⟨st, hst, hvalid⟩ := h.valid s hs
    cases hvalid with
    | finishExpr hi => exact .finishExpr hst hi
    | switchVal hvar hlong hdistinct =>
      exact .switchVal hst hvar hlong hdistinct
        (fun jmp hjmp => hnext ⟨_, _, _, hst, .inl (List.mem_map_of_mem hjmp)⟩)
        (hnext ⟨_, _, _, hst, .inr rfl⟩)

/-- The walk ends at an expression that has an index. -/
lemma Unfolds.walk {args : Bytes → Option Long} (h : dfa.Unfolds params n s)
    (hargs : ∀ var ∈ params, (args var).isSome) :
    ∃ e i, dfa.walk args n s = some e ∧ dfa.exprIdxs e = some i := by
  induction h with
  | finishExpr hs hi => exact ⟨_, _, by rw [MDFA.walk, hs], hi⟩
  | switchVal hs hvar hlong hdistinct hjumps hdflt ihjumps ihdflt =>
    obtain ⟨v, hv⟩ := Option.isSome_iff_exists.mp (hargs _ hvar)
    simp only [MDFA.walk, hs, hv, Option.bind_eq_bind, Option.bind_some]
    generalize hlookup : List.lookup (Primitive.long v) _ = next
    cases next with
    | none => exact ihdflt
    | some t => exact ihjumps _ (mem_of_lookup hlookup)

/-! ### Local numbers -/

variable {m m' : List ℕ}

lemma subset_mapStatesFrom (fuel : ℕ) (h : dfa.mapStatesFrom fuel s m = some m') : m <+: m' := by
  induction fuel generalizing s m m' with
  | zero => cases h
  | succ fuel ih =>
    rw [mapStatesFrom] at h
    split at h
    · cases h
      exact List.prefix_rfl
    split at h
    · simp only [Option.bind_eq_bind, Option.bind_eq_some_iff] at h
      obtain ⟨m₁, hm₁, d, -, hd⟩ := h
      have hfold := foldlM_invariant (P := fun m₁ => m ++ [s] <+: m₁) hm₁ List.prefix_rfl
        fun jmp _ _ _ h₁ h₂ => h₁.trans (ih h₂)
      exact (List.prefix_append m [s]).trans (hfold.trans (ih hd))
    · cases h
      exact List.prefix_rfl
    · cases h

lemma mapStatesFrom_nodup (fuel : ℕ) (h : dfa.mapStatesFrom fuel s m = some m') (hm : m.Nodup) :
    m'.Nodup := by
  induction fuel generalizing s m m' with
  | zero => cases h
  | succ fuel ih =>
    rw [mapStatesFrom] at h
    by_cases hs : s ∈ m
    · rw [if_pos hs] at h
      cases h
      exact hm
    rw [if_neg hs] at h
    split at h
    · simp only [Option.bind_eq_bind, Option.bind_eq_some_iff] at h
      obtain ⟨m₁, hm₁, d, -, hd⟩ := h
      have hfold := foldlM_invariant (P := List.Nodup) hm₁
        (List.concat_eq_append ▸ hm.concat hs) fun jmp _ _ _ h₁ h₂ => ih h₂ h₁
      exact ih hd hfold
    · cases h
      exact hm
    · cases h

/-- A switch has the next number unless it has one already. -/
lemma concat_mapStatesFrom {fuel : ℕ} {var : Bytes} {jumps : List (Primitive × ℕ)}
    {dflt : Option ℕ} (h : dfa.mapStatesFrom fuel s m = some m')
    (hs : dfa.states[s]? = some (.switchVal var jumps dflt)) (hnot : s ∉ m) : m ++ [s] <+: m' := by
  cases fuel with
  | zero => cases h
  | succ fuel =>
    simp only [mapStatesFrom, if_neg hnot, hs, Option.bind_eq_bind, Option.bind_eq_some_iff] at h
    obtain ⟨m₁, hm₁, d, -, hd⟩ := h
    have hfold := foldlM_invariant (P := fun m₁ => m ++ [s] <+: m₁) hm₁ List.prefix_rfl
      fun jmp _ _ _ h₁ h₂ => h₁.trans (subset_mapStatesFrom fuel h₂)
    exact hfold.trans (subset_mapStatesFrom fuel hd)

lemma mem_of_mapStatesFrom {fuel : ℕ} {var : Bytes} {jumps : List (Primitive × ℕ)} {dflt : Option ℕ}
    (h : dfa.mapStatesFrom fuel s m = some m')
    (hs : dfa.states[s]? = some (.switchVal var jumps dflt)) : s ∈ m' := by
  by_cases hmem : s ∈ m
  · exact (subset_mapStatesFrom fuel h).subset hmem
  · exact (concat_mapStatesFrom h hs hmem).subset (by simp)

lemma Unfolds.mapStatesFrom (h : dfa.Unfolds params n s) (m : List ℕ) :
    ∃ m', dfa.mapStatesFrom n s m = some m' := by
  induction h generalizing m with
  | finishExpr hs hi => exact ⟨m, by simp [MDFA.mapStatesFrom, hs]⟩
  | @switchVal n s dflt var jumps hs hvar hlong hdistinct hjumps hdflt ihjumps ihdflt =>
    rw [MDFA.mapStatesFrom]
    split
    · exact ⟨m, rfl⟩
    obtain ⟨m₁, hm₁⟩ := exists_foldlM (f := fun m jmp => dfa.mapStatesFrom n jmp.2 m)
      (fun jmp hjmp m => ihjumps jmp hjmp m) (m ++ [s])
    obtain ⟨m₂, hm₂⟩ := ihdflt m₁
    exact ⟨m₂, by simp [hs, hm₁, hm₂]⟩

/-! ### Rows -/

variable (dfa) in
/-- A transition that goes to a state of the graph. -/
inductive TransitionTo (localstate : List ℕ) : ℕ → IDFATransition → Prop
  | done {s i : ℕ} {e : E} (hs : dfa.states[s]? = some (.finishExpr e))
      (hi : dfa.exprIdxs e = some i) : TransitionTo localstate s (.done i)
  | step {s : ℕ} {var : Bytes} {jumps : List (Primitive × ℕ)} {dflt : Option ℕ}
      (hs : dfa.states[s]? = some (.switchVal var jumps dflt)) (hmem : s ∈ localstate) :
      TransitionTo localstate s (.step (localstate.idxOf s))

variable (dfa) in
/-- A row reads the argument that a switch is on, and says for each value where the switch goes. -/
structure Encodes (argpos : ArgPos) (localstate : List ℕ) (s : ℕ) (row : IDFAState) : Prop where
  ascending : Ascending (Ops.signed 64) row.transitions Prod.fst
  switch : ∃ var jumps dflt, dfa.states[s]? = some (.switchVal var jumps (some dflt)) ∧
    argpos.lookup var = some row.reads ∧
    ∀ v, dfa.TransitionTo localstate ((jumps.lookup (.long v)).getD dflt)
      ((row.transitions.lookup v).getD row.dflt)

variable (dfa) in
/-- What the copying of a state does: the rows of the new states are written, and no others. -/
structure Copied (argpos : ArgPos) (localstate : List ℕ) (c c' : Copy) : Prop where
  dones : c.dones <+: c'.dones
  length_eq : c'.dfaStates.length = c.dfaStates.length
  encodes : ∀ t ∈ c'.dones, t ∉ c.dones → ∃ row,
    c'.dfaStates[localstate.idxOf t]? = some (some row) ∧ dfa.Encodes argpos localstate t row
  kept : ∀ t ∈ c.dones, c'.dfaStates[localstate.idxOf t]? = c.dfaStates[localstate.idxOf t]?

variable {argpos : ArgPos} {localstate : List ℕ} {c c' c'' : Copy}

lemma Copied.refl (c : Copy) : dfa.Copied argpos localstate c c where
  dones := List.prefix_rfl
  length_eq := rfl
  encodes _ ht hn := absurd ht hn
  kept _ _ := rfl

lemma Copied.trans (h : dfa.Copied argpos localstate c c') (h' : dfa.Copied argpos localstate c' c'') :
    dfa.Copied argpos localstate c c'' where
  dones := h.dones.trans h'.dones
  length_eq := h'.length_eq.trans h.length_eq
  encodes t ht hn := by
    by_cases hmem : t ∈ c'.dones
    · rw [h'.kept t hmem]
      exact h.encodes t hmem hn
    · exact h'.encodes t ht hmem
  kept t ht := (h'.kept t (h.dones.subset ht)).trans (h.kept t ht)

/-! ### Transitions -/

instance : Std.LawfulEqCmp (compareOn (BitVec.toInt : Long → ℤ)) where
  compare_self := Std.ReflCmp.compare_self
  eq_of_compare h := BitVec.eq_of_toInt_eq (Std.LawfulEqOrd.eq_of_compare h)

lemma lookup_toList {κ β : Type} [BEq κ] [LawfulBEq κ] {cmp : κ → κ → Ordering} [Std.TransCmp cmp]
    [Std.LawfulEqCmp cmp] (m : Std.TreeMap κ β cmp) (k : κ) : m.toList.lookup k = m[k]? := by
  cases h : m.toList.lookup k with
  | some v => exact (Std.TreeMap.mem_toList_iff_getElem?_eq_some.mp (mem_of_lookup h)).symm
  | none =>
    cases hv : m[k]? with
    | none => rfl
    | some v =>
      have hmem := Std.TreeMap.mem_toList_iff_getElem?_eq_some.mpr hv
      simpa using List.lookup_eq_none_iff.mp h _ hmem

lemma ascending_toList (m : SortedJumps) : Ascending (Ops.signed 64) m.toList Prod.fst := by
  refine Std.TreeMap.ordered_keys_toList.imp fun {a b} h => ?_
  have hlt : a.1.toInt < b.1.toInt := compare_lt_iff_lt.mp h
  simpa [Ops.signed, BitVec.slt] using hlt

variable (dfa) in
/-- The map `m'` is `m` with an entry for each jump. -/
def Resolves (localstate : List ℕ) (jumps : List (Primitive × ℕ)) (m m' : SortedJumps) : Prop :=
  ∀ v, (∃ t tr, jumps.lookup (.long v) = some t ∧ m'[v]? = some tr ∧
      dfa.TransitionTo localstate t tr) ∨
    (jumps.lookup (.long v) = none ∧ m'[v]? = m[v]?)

lemma Resolves.nil (m : SortedJumps) : dfa.Resolves localstate [] m m := fun _ => .inr ⟨rfl, rfl⟩

lemma Resolves.cons {jumps : List (Primitive × ℕ)} {m m' : SortedJumps} {v : Long} {t : ℕ}
    {tr : IDFATransition} (ht : dfa.TransitionTo localstate t tr) (hv : .long v ∉ jumps.map Prod.fst)
    (h : dfa.Resolves localstate jumps (m.insert v tr) m') :
    dfa.Resolves localstate ((.long v, t) :: jumps) m m' := by
  intro w
  by_cases hwv : w = v
  · subst hwv
    have hnone : jumps.lookup (.long w) = none := by
      rw [List.lookup_eq_none_iff]
      intro p hp
      have hne : Primitive.long w ≠ p.1 := fun heq => hv (heq ▸ List.mem_map_of_mem hp)
      simpa using hne
    obtain ⟨_, _, hsome, -⟩ | ⟨-, hm'⟩ := h w
    · rw [hnone] at hsome
      cases hsome
    · exact .inl ⟨t, tr, by simp, by rw [hm', Std.TreeMap.getElem?_insert_self], ht⟩
  · have hlookup : List.lookup (Primitive.long w) ((.long v, t) :: jumps) = jumps.lookup (.long w) :=
      lookup_cons_of_ne (by simpa using hwv) t jumps
    have hinsert : (m.insert v tr)[w]? = m[w]? := by
      rw [Std.TreeMap.getElem?_insert, if_neg]
      exact fun heq => hwv (Std.LawfulEqCmp.eq_of_compare heq).symm
    rw [hlookup, ← hinsert]
    exact h w

/-- A row that has an entry for each jump of a switch encodes the switch. -/
lemma encodes_row {var : Bytes} {jumps : List (Primitive × ℕ)} {dflt reads : ℕ} {m : SortedJumps}
    {td : IDFATransition} (hs : dfa.states[s]? = some (.switchVal var jumps (some dflt)))
    (hreads : argpos.lookup var = some reads) (hm : dfa.Resolves localstate jumps ∅ m)
    (htd : dfa.TransitionTo localstate dflt td) :
    dfa.Encodes argpos localstate s ⟨reads, m.toList, td⟩ := by
  refine ⟨ascending_toList m, var, jumps, dflt, hs, hreads, fun v => ?_⟩
  rw [lookup_toList]
  obtain ⟨t, tr, ht, htr, hto⟩ | ⟨hnone, hm⟩ := hm v
  · rwa [ht, htr]
  · rw [hnone, hm, Std.TreeMap.getElem?_emptyc]
    exact htd

/-! ### Copying -/

variable (dfa) in
/-- From the states `c.dones` a state is copied as it would be numbered. -/
def CopiedAs (argpos : ArgPos) (localstate : List ℕ) (n s : ℕ) : Prop :=
  ∀ c m', c.dfaStates.length = localstate.length →
    dfa.mapStatesFrom n s c.dones = some m' → m' ⊆ localstate → ∃ c',
      dfa.copyStateDef argpos localstate n s c = some c' ∧ c'.dones = m' ∧
      dfa.Copied argpos localstate c c'

lemma Unfolds.transitionDef (h : dfa.Unfolds params n s)
    (hcopy : ∀ {var jumps dflt}, dfa.states[s]? = some (.switchVal var jumps dflt) →
      dfa.CopiedAs argpos localstate n s)
    (hlength : c.dfaStates.length = localstate.length)
    (hm' : dfa.mapStatesFrom n s c.dones = some m') (hlocal : m' ⊆ localstate) :
    ∃ tr c', dfa.transitionDef localstate (dfa.copyStateDef argpos localstate n) s c = some (tr, c') ∧
      c'.dones = m' ∧ dfa.Copied argpos localstate c c' ∧ dfa.TransitionTo localstate s tr := by
  cases h with
  | @finishExpr n s i e hs hi =>
    have hdones : c.dones = m' := by
      simpa [MDFA.mapStatesFrom, hs] using hm'
    exact ⟨.done i, c, by simp [MDFA.transitionDef, hs, hi], hdones, .refl c, .done hs hi⟩
  | switchVal hs =>
    obtain ⟨c', hc', hdones, hcopied⟩ := hcopy hs c m' hlength hm' hlocal
    have hmem := hlocal (mem_of_mapStatesFrom hm' hs)
    exact ⟨_, c', by simp [MDFA.transitionDef, hs, localState, hmem, hc'], hdones, hcopied,
      .step hs hmem⟩

lemma foldlM_addTransition {jumps : List (Primitive × ℕ)}
    (hlong : ∀ jmp ∈ jumps, ∃ v, jmp.1 = .long v) (hdistinct : (jumps.map Prod.fst).Nodup)
    (hjumps : ∀ jmp ∈ jumps, dfa.Unfolds params n jmp.2)
    (hcopy : ∀ jmp ∈ jumps, ∀ {var jumps dflt},
      dfa.states[jmp.2]? = some (.switchVal var jumps dflt) →
        dfa.CopiedAs argpos localstate n jmp.2)
    (m : SortedJumps) (hlength : c.dfaStates.length = localstate.length)
    (hm' : jumps.foldlM (fun m jmp => dfa.mapStatesFrom n jmp.2 m) c.dones = some m')
    (hlocal : m' ⊆ localstate) :
    ∃ m₁ c', jumps.foldlM (dfa.addTransition localstate (dfa.copyStateDef argpos localstate n)) (m, c) =
        some (m₁, c') ∧ c'.dones = m' ∧ dfa.Copied argpos localstate c c' ∧
      dfa.Resolves localstate jumps m m₁ := by
  induction jumps generalizing c m with
  | nil => exact ⟨m, c, rfl, Option.some.inj hm', .refl c, .nil m⟩
  | cons jmp jumps ih =>
    obtain ⟨lit, t⟩ := jmp
    rw [List.foldlM_cons, Option.bind_eq_bind, Option.bind_eq_some_iff] at hm'
    obtain ⟨md, hmd, hm'⟩ := hm'
    obtain ⟨v, hv⟩ := hlong _ List.mem_cons_self
    subst hv
    obtain ⟨hnotMem, hdistinct⟩ := List.nodup_cons.mp hdistinct
    have hsub : md <+: m' := foldlM_invariant (P := fun m₁ => md <+: m₁) hm' List.prefix_rfl
      fun jmp _ _ _ h₁ h₂ => h₁.trans (subset_mapStatesFrom n h₂)
    obtain ⟨tr, c₁, hc₁, hdones, hcopied, hto⟩ := (hjumps _ List.mem_cons_self).transitionDef
      (hcopy _ List.mem_cons_self) hlength hmd (List.Subset.trans hsub.subset hlocal)
    obtain ⟨m₁, c', hfold, hdones', hcopied', hresolves⟩ := ih
      (fun jmp hjmp => hlong jmp (List.mem_cons_of_mem _ hjmp)) hdistinct
      (fun jmp hjmp => hjumps jmp (List.mem_cons_of_mem _ hjmp))
      (fun jmp hjmp => hcopy jmp (List.mem_cons_of_mem _ hjmp)) (m.insert v tr)
      (hcopied.length_eq.trans hlength) (hdones ▸ hm')
    exact ⟨m₁, c', by simp [addTransition, hc₁, hfold], hdones', hcopied.trans hcopied',
      hresolves.cons hto hnotMem⟩

/-- A switch is copied after the states that it goes to. -/
lemma Unfolds.copiedAs (h : dfa.Unfolds params n s) (hargs : ∀ var ∈ params, (argpos.lookup var).isSome)
    {var : Bytes} {jumps : List (Primitive × ℕ)} {dflt : Option ℕ}
    (hs : dfa.states[s]? = some (.switchVal var jumps dflt)) : dfa.CopiedAs argpos localstate n s := by
  induction h generalizing var jumps dflt with
  | finishExpr hs' =>
    rw [hs] at hs'
    cases hs'
  | @switchVal n s d reader _ hs' hvar hlong hdistinct hjumps hdflt ihjumps ihdflt =>
    intro c m' hlength hm' hlocal
    have hmem := hlocal (mem_of_mapStatesFrom hm' hs)
    rw [MDFA.mapStatesFrom] at hm'
    rw [copyStateDef]
    by_cases hdone : s ∈ c.dones
    · rw [if_pos hdone] at hm' ⊢
      exact ⟨c, rfl, Option.some.inj hm', .refl c⟩
    rw [if_neg hdone] at hm' ⊢
    simp only [hs', Option.bind_eq_bind, Option.bind_eq_some_iff] at hm'
    obtain ⟨m₁, hm₁, _, hd, hm'⟩ := hm'
    cases hd
    obtain ⟨reads, hreads⟩ := Option.isSome_iff_exists.mp (hargs reader hvar)
    obtain ⟨ssvj, c₁, hc₁, hdones₁, hcopied₁, hresolves⟩ := foldlM_addTransition
      (c := { c with dones := c.dones ++ [s] }) hlong hdistinct hjumps
      (fun jmp hjmp => ihjumps jmp hjmp) ∅ hlength hm₁
      (List.Subset.trans (subset_mapStatesFrom n hm').subset hlocal)
    obtain ⟨td, c₂, hc₂, hdones₂, hcopied₂, htd⟩ := hdflt.transitionDef (fun hs => ihdflt hs)
      (hcopied₁.length_eq.trans hlength) (hdones₁ ▸ hm') hlocal
    have hcopied := hcopied₁.trans hcopied₂
    have hsub : c.dones ++ [s] ⊆ c₂.dones := hcopied.dones.subset
    have hlt : localstate.idxOf s < c₂.dfaStates.length := by
      rw [hcopied.length_eq, hlength]
      exact List.idxOf_lt_length_of_mem hmem
    have hne {t : ℕ} (ht : t ∈ c₂.dones) (hts : t ≠ s) : localstate.idxOf s ≠ localstate.idxOf t :=
      fun heq => hts ((List.idxOf_inj (hlocal (hdones₂ ▸ ht))).mp heq.symm)
    refine ⟨{ c₂ with dfaStates := c₂.dfaStates.set (localstate.idxOf s) (some ⟨reads, ssvj.toList, td⟩) },
      by simp [hs', localState, hmem, hreads, transitions, hc₁, hc₂], hdones₂, ?_⟩
    constructor
    · exact (List.prefix_append _ _).trans hcopied.dones
    · rw [List.length_set]
      exact hcopied.length_eq
    · intro t ht hnot
      by_cases hts : t = s
      · subst hts
        exact ⟨_, List.getElem?_set_self hlt, encodes_row hs' hreads hresolves htd⟩
      · rw [List.getElem?_set_ne (hne ht hts)]
        exact hcopied.encodes t ht (by simp [hnot, hts])
    · intro t ht
      have hts : t ≠ s := fun heq => hdone (heq ▸ ht)
      rw [List.getElem?_set_ne (hne (hsub (List.mem_append_left _ ht)) hts)]
      exact hcopied.kept t (List.mem_append_left _ ht)

/-! ### The positions of the arguments -/

lemma argPos_concat (args : List (Bytes × MonoType)) (arg : Bytes × MonoType) :
    argPos (args ++ [arg]) = (argPos args).insert arg.1 args.length := by
  simp [argPos, List.zipIdx_append]

/-- Every parameter has a position of its own. -/
structure Positions (params : List Bytes) (argpos : ArgPos) : Prop where
  isSome : ∀ var ∈ params, (argpos.lookup var).isSome
  mem : ∀ arg ∈ argpos.entries, arg.1 ∈ params
  lt : ∀ arg ∈ argpos.entries, arg.2 < params.length
  nodup : (argpos.entries.map Sigma.snd).Nodup

lemma positions_argPos (args : List (Bytes × MonoType)) :
    Positions (args.map Prod.fst) (argPos args) := by
  induction args using List.reverseRecOn with
  | nil => exact ⟨by simp, by simp [argPos], by simp [argPos], by simp [argPos]⟩
  | append_singleton args arg ih =>
    have hsub := List.kerase_sublist arg.1 (argPos args).entries
    rw [argPos_concat]
    constructor
    · intro var hvar
      by_cases heq : var = arg.1
      · rw [heq, AList.lookup_insert, Option.isSome_some]
      · rw [AList.lookup_insert_ne heq]
        exact ih.isSome var (by simpa [heq] using hvar)
    · intro a ha
      rw [AList.entries_insert, List.mem_cons] at ha
      rcases ha with rfl | ha
      · simp
      · rw [List.map_append]
        exact List.mem_append_left _ (ih.mem a (hsub.subset ha))
    · intro a ha
      rw [AList.entries_insert, List.mem_cons] at ha
      rcases ha with rfl | ha
      · simp
      · have := ih.lt a (hsub.subset ha)
        simp only [List.length_map, List.length_append] at this ⊢
        omega
    · rw [AList.entries_insert, List.map_cons, List.nodup_cons]
      refine ⟨fun hmem => ?_, ih.nodup.sublist (hsub.map _)⟩
      obtain ⟨a, ha, heq⟩ := List.mem_map.mp hmem
      have hlt := ih.lt a (hsub.subset ha)
      rw [heq, List.length_map] at hlt
      exact absurd hlt (lt_irrefl _)

/-- Every state that has a number has a row, and the root is the first. -/
lemma IsPrimMatch.exists_table {root : ℕ} (h : dfa.IsPrimMatch root)
    (hn : dfa.Unfolds ((dfa.primFArgs root).map Prod.fst) n root) :
    ∃ localstate rows, localstate.idxOf root = 0 ∧ root ∈ localstate ∧
      dfa.makeInterpretedPrimMatchFunction n root =
        some ⟨(dfa.primFArgs root).map Prod.fst, argPos (dfa.primFArgs root), rows⟩ ∧
      ∀ t ∈ localstate, ∃ row, rows[localstate.idxOf t]? = some row ∧
        dfa.Encodes (argPos (dfa.primFArgs root)) localstate t row := by
  obtain ⟨var, jumps, dflt, hroot⟩ := h.switch
  obtain ⟨m, hm⟩ := hn.mapStatesFrom []
  obtain ⟨rest, hrest⟩ := concat_mapStatesFrom hm hroot List.not_mem_nil
  obtain ⟨c, hc, hdones, hcopied⟩ := hn.copiedAs (positions_argPos (dfa.primFArgs root)).isSome hroot
    ⟨[], List.replicate m.length none⟩ m (by simp) hm (List.Subset.refl m)
  have hrow (t : ℕ) (ht : t ∈ m) := hcopied.encodes t (hdones ▸ ht) List.not_mem_nil
  obtain ⟨rows, hrows⟩ : ∃ rows, c.dfaStates.mapM id = some rows := exists_mapM fun x hx => by
    obtain ⟨i, hi, rfl⟩ := List.mem_iff_getElem.mp hx
    have hlt : i < m.length := by simpa [hcopied.length_eq] using hi
    obtain ⟨row, hget, -⟩ := hrow m[i] (List.getElem_mem hlt)
    rw [(mapStatesFrom_nodup n hm List.nodup_nil).idxOf_getElem i hlt, List.getElem?_eq_getElem hi,
      Option.some.injEq] at hget
    exact ⟨row, hget⟩
  refine ⟨m, rows, ?_, ?_, ?_, fun t ht => ?_⟩
  · rw [← hrest]
    simp
  · rw [← hrest]
    simp
  · simp [makeInterpretedPrimMatchFunction, hm, hc, hrows]
  · obtain ⟨row, hget, hencodes⟩ := hrow t ht
    exact ⟨row, by rw [getElem?_of_mapM hrows, hget]; rfl, hencodes⟩

end MDFA

end Hobbes.Match
