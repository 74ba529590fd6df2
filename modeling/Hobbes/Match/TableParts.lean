import Hobbes.Match.TableSplits

/-!
# The parts of a column

A column is taken apart by putting the columns of its parts in front of the others.
-/

namespace Hobbes.Match.Table

open Core Lang

variable {G E : Type} {guards : G → Bool}

/-! ### Positions -/

section

variable {α β : Type} {R : α → β → Prop} {as : List α} {bs : List β}

lemma forall₂_eraseIdx (h : List.Forall₂ R as bs) (c : ℕ) : List.Forall₂ R (as.eraseIdx c) (bs.eraseIdx c) := by
  induction h generalizing c with
  | nil => exact .nil
  | cons hab h ih =>
    cases c with
    | zero => exact h
    | succ c => exact .cons hab (ih c)

lemma forall₂_getElem? (h : List.Forall₂ R as bs) {c : ℕ} {a : α} (ha : as[c]? = some a) :
    ∃ b, bs[c]? = some b ∧ R a b := by
  induction h generalizing c with
  | nil => cases ha
  | cons hab _ ih =>
    cases c with
    | zero =>
      obtain rfl := Option.some.inj ha
      exact ⟨_, rfl, hab⟩
    | succ c => exact ih ha

lemma forall₂_getElem?_right (h : List.Forall₂ R as bs) {c : ℕ} {b : β} (hb : bs[c]? = some b) :
    ∃ a, as[c]? = some a ∧ R a b := by
  obtain ⟨a, ha, hab⟩ := forall₂_getElem? h.flip hb
  exact ⟨a, ha, hab⟩

/-- Both of what is in front and what is at the same place of the others. -/
lemma forall₂_replace {as' : List α} {bs' : List β} (h' : List.Forall₂ R as' bs') (h : List.Forall₂ R as bs) (c : ℕ) :
    List.Forall₂ R (as' ++ as.eraseIdx c) (bs' ++ bs.eraseIdx c) :=
  List.rel_append h' (forall₂_eraseIdx h c)

lemma forall₂_replicate {b : β} (h : ∀ a ∈ as, R a b) :
    List.Forall₂ R as (List.replicate as.length b) := by
  induction as with
  | nil => exact .nil
  | cons a as ih =>
    rw [List.forall_mem_cons] at h
    exact .cons h.1 (ih h.2)

end

/-! ### Values of columns -/

def InColumn (ps : PatternRows G E) (c : ℕ) (p : Pattern) : Prop := ∃ r ∈ ps, r.patterns[c]? = some p

/-- All patterns of the column have the type. -/
def ColumnTy (ps : PatternRows G E) (c : ℕ) (t : Ty) : Prop := ∀ p, InColumn ps c p → p.HasTy t

/-- The names of the columns have the values. -/
abbrev Bound (env : Env) (xs : List Column) (vs : List Value) : Prop :=
  List.Forall₂ (fun x v => env x.name = some v) xs vs

lemma Bound.of_agree {env env' : Env} {xs : List Column} {vs : List Value} (h : Bound env xs vs)
    (henv : ∀ x ∈ xs, env' x.name = env x.name) : Bound env' xs vs := by
  induction h with
  | nil => exact .nil
  | cons hx _ ih =>
    rw [List.forall_mem_cons] at henv
    exact .cons (henv.1.trans hx) (ih henv.2)

/-- The values are some for the columns of the table, and are bound to their names. -/
structure Input (xs : List Column) (ps : PatternRows G E) (env : Env) (vs : List Value) : Prop where
  typed : ∃ ts, (∀ r ∈ ps, List.Forall₂ Pattern.HasTy r.patterns ts) ∧ List.Forall₂ Value.HasTy vs ts
  bound : Bound env xs vs

section

variable {xs : List Column} {ps : PatternRows G E} {env env' : Env} {vs : List Value} {x : Column} {c : ℕ} {t : Ty}

lemma columnTy_of_forall₂ {ts : List Ty} (hts : ∀ r ∈ ps, List.Forall₂ Pattern.HasTy r.patterns ts)
    (ht : ts[c]? = some t) : ColumnTy ps c t := by
  rintro p ⟨r, hr, hp⟩
  obtain ⟨t', ht', hp'⟩ := forall₂_getElem? (hts r hr) hp
  obtain rfl := Option.some.inj (ht.symm.trans ht')
  exact hp'

/-- A value of a column is bound to the name of the column, and has the type of its patterns. -/
lemma Input.column (h : Input xs ps env vs) (hx : xs[c]? = some x) :
    ∃ v t, vs[c]? = some v ∧ env x.name = some v ∧ v.HasTy t ∧ ColumnTy ps c t := by
  obtain ⟨ts, hps, hvs⟩ := h.typed
  obtain ⟨v, hv, henv⟩ := forall₂_getElem? h.bound hx
  obtain ⟨t, ht, hty⟩ := forall₂_getElem? hvs hv
  exact ⟨v, t, hv, henv, hty, columnTy_of_forall₂ hps ht⟩

lemma Input.of_agree (h : Input xs ps env vs) (henv : ∀ x ∈ xs, env' x.name = env x.name) : Input xs ps env' vs :=
  ⟨h.typed, h.bound.of_agree henv⟩

lemma TableOk.inColumn (h : TableOk xs ps) (hx : xs[c]? = some x) {r : PatternRow G E} (hr : r ∈ ps) :
    ∃ p, r.patterns[c]? = some p ∧ Placed x p := forall₂_getElem? (h.placed r hr) hx

lemma TableOk.placed_of_inColumn (h : TableOk xs ps) (hx : xs[c]? = some x) {p : Pattern} (hp : InColumn ps c p) :
    Placed x p := by
  obtain ⟨r, hr, hp⟩ := hp
  obtain ⟨p', hp', hplaced⟩ := h.inColumn hx hr
  obtain rfl := Option.some.inj (hp.symm.trans hp')
  exact hplaced

lemma TableOk.columnTy (h : TableOk xs ps) (hx : xs[c]? = some x) : ∃ t, ColumnTy ps c t := by
  obtain ⟨ts, hts⟩ := h.typed
  obtain ⟨r, hr⟩ := List.exists_mem_of_ne_nil ps h.nonempty
  obtain ⟨p, hp, -⟩ := h.inColumn hx hr
  obtain ⟨t, ht, -⟩ := forall₂_getElem? (hts r hr) hp
  exact ⟨t, columnTy_of_forall₂ hts ht⟩

lemma Apart.symm {x y : Name} (h : Apart x y) : Apart y x := ⟨h.2, h.1⟩

/-- The other columns are apart from one of them. -/
lemma TableOk.apart_of_mem_eraseIdx (h : TableOk xs ps) (hx : xs[c]? = some x) {y : Column} (hy : y ∈ xs.eraseIdx c) :
    Apart x.name y.name := by
  obtain ⟨i, hi, hyi⟩ := List.mem_eraseIdx_iff_getElem?.mp hy
  obtain ⟨hlt, rfl⟩ := List.getElem?_eq_some_iff.mp hx
  obtain ⟨hilt, rfl⟩ := List.getElem?_eq_some_iff.mp hyi
  rcases lt_or_gt_of_ne hi with hlt' | hgt
  · exact (List.pairwise_iff_getElem.mp h.apart i c hilt hlt hlt').symm
  · exact List.pairwise_iff_getElem.mp h.apart c i hlt hilt hgt

/-- A part of a column is not a column of the table. -/
lemma TableOk.ne_of_parent (h : TableOk xs ps) (hx : xs[c]? = some x) {y : Column} (hy : y ∈ xs) {z : Name}
    (hz : z.parent = some x.name) : y.name ≠ z := by
  rintro rfl
  obtain ⟨i, hi, rfl⟩ := List.mem_iff_getElem.mp hy
  by_cases hic : i = c
  · subst hic
    obtain ⟨hlt, rfl⟩ := List.getElem?_eq_some_iff.mp hx
    exact absurd (sizeOf_lt_of_parent hz) (lt_irrefl _)
  · exact (h.apart_of_mem_eraseIdx hx
      (List.mem_eraseIdx_iff_getElem?.mpr ⟨i, hic, List.getElem?_eq_getElem hi⟩)).1 (.of_parent hz)

lemma not_under_guardCheck {x y : Name} (hx : ¬ Under .guardCheck x) (hy : Under x y) : ¬ Under .guardCheck y := by
  intro h
  rcases h.total hy with h | h
  · exact hx h
  · cases h
    exact hx .refl

end

/-! ### Tables of parts -/

/-- The row with the patterns that one of its patterns is taken apart into, if it has any. -/
def takeApart (parts : Pattern → Option (List Pattern)) (c : ℕ) (r : PatternRow G E) : Option (PatternRow G E) :=
  r.patterns[c]?.bind fun p => (parts p).map (prependPatterns (copyRowWithoutColumn r c))

lemma takeApart_eq_some {parts : Pattern → Option (List Pattern)} {c : ℕ} {r r' : PatternRow G E} :
    takeApart parts c r = some r' ↔ ∃ p, r.patterns[c]? = some p ∧ ∃ qs, parts p = some qs ∧
      prependPatterns (copyRowWithoutColumn r c) qs = r' := by
  simp only [takeApart, Option.bind_eq_some_iff, Option.map_eq_some_iff]

/-- The rows that are left are all of them. -/
lemma filterMap_of_mapM {α β : Type} {f : α → Option β} {as : List α} {bs : List β} (h : as.mapM f = some bs) :
    as.filterMap f = bs := by
  induction as generalizing bs with
  | nil =>
    cases h
    rfl
  | cons a as ih =>
    rw [List.mapM_cons] at h
    simp only [Option.bind_eq_bind, Option.bind_eq_some_iff, Option.pure_def, Option.some.injEq] at h
    obtain ⟨b, hb, bs, hbs, rfl⟩ := h
    rw [List.filterMap_cons_some hb, ih hbs]

/-- The patterns of the column `x` are taken apart into some for the columns `ys`, of the types `us` says. -/
structure TakenApart (parts : Pattern → Option (List Pattern)) (x : Column) (ys : List Column) (us : Ty → List Ty)
    (ps : PatternRows G E) (c : ℕ) : Prop where
  nonempty : ∃ p, InColumn ps c p ∧ (parts p).isSome
  apart : ys.Pairwise fun y z => Apart y.name z.name
  under : ∀ y ∈ ys, Under x.name y.name
  placed : ∀ p qs, InColumn ps c p → Placed x p → parts p = some qs → List.Forall₂ Placed ys qs
  typed : ∀ p qs t, InColumn ps c p → ColumnTy ps c t → parts p = some qs → List.Forall₂ Pattern.HasTy qs (us t)

section

variable {parts : Pattern → Option (List Pattern)} {x : Column} {ys : List Column} {us : Ty → List Ty}
  {ps : PatternRows G E} {c : ℕ} {xs : List Column} {env env' : Env} {vs ws : List Value} {v : Value}

lemma TakenApart.typedRow (h : TakenApart parts x ys us ps c) {ts : List Ty}
    (hts : ∀ r ∈ ps, List.Forall₂ Pattern.HasTy r.patterns ts) {t : Ty} (ht : ts[c]? = some t) :
    ∀ r' ∈ ps.filterMap (takeApart parts c), List.Forall₂ Pattern.HasTy r'.patterns (us t ++ ts.eraseIdx c) := by
  intro r' hr'
  obtain ⟨r, hr, hr'⟩ := List.mem_filterMap.mp hr'
  obtain ⟨p, hp, qs, hqs, rfl⟩ := takeApart_eq_some.mp hr'
  exact forall₂_replace (h.typed p qs t ⟨r, hr, hp⟩ (columnTy_of_forall₂ hts ht) hqs) (hts r hr) c

lemma TakenApart.tableOk (h : TakenApart parts x ys us ps c) (hok : TableOk xs ps) (hx : xs[c]? = some x) :
    TableOk (ys ++ xs.eraseIdx c) (ps.filterMap (takeApart parts c)) := by
  obtain ⟨p, ⟨r, hr, hp⟩, hsome⟩ := h.nonempty
  obtain ⟨qs, hqs⟩ := Option.isSome_iff_exists.mp hsome
  obtain ⟨ts, hts⟩ := hok.typed
  obtain ⟨t, ht, -⟩ := forall₂_getElem? (hts r hr) hp
  refine ⟨?_, ?_, fun y hy => ?_, fun r' hr' => ?_, us t ++ ts.eraseIdx c, h.typedRow hts ht⟩
  · refine List.ne_nil_of_mem (a := prependPatterns (copyRowWithoutColumn r c) qs) ?_
    exact List.mem_filterMap.mpr ⟨r, hr, takeApart_eq_some.mpr ⟨p, hp, qs, hqs, rfl⟩⟩
  · rw [List.pairwise_append]
    refine ⟨h.apart, hok.apart.sublist (List.eraseIdx_sublist xs c), fun y hy z hz => ?_⟩
    exact (hok.apart_of_mem_eraseIdx hx hz).of_under (h.under y hy)
  · rcases List.mem_append.mp hy with hy | hy
    · exact not_under_guardCheck (hok.notGuard x (List.mem_of_getElem? hx)) (h.under y hy)
    · exact hok.notGuard y (List.mem_of_mem_eraseIdx hy)
  · obtain ⟨r, hr, hr'⟩ := List.mem_filterMap.mp hr'
    obtain ⟨p, hp, qs, hqs, rfl⟩ := takeApart_eq_some.mp hr'
    have hin : InColumn ps c p := ⟨r, hr, hp⟩
    exact forall₂_replace (h.placed p qs hin (hok.placed_of_inColumn hx hin) hqs) (hok.placed r hr) c

/-- The value `v` is taken apart into `ws` as the patterns are. -/
structure Opens (parts : Pattern → Option (List Pattern)) (us : Ty → List Ty) (ps : PatternRows G E) (c : ℕ)
    (v : Value) (ws : List Value) : Prop where
  typed : ∀ t, v.HasTy t → ColumnTy ps c t → List.Forall₂ Value.HasTy ws (us t)
  taken : ∀ p qs, InColumn ps c p → parts p = some qs →
    qs.length = ws.length ∧ Pattern.acceptsAll qs ws = p.accepts v
  other : ∀ p, InColumn ps c p → parts p = none → p.accepts v = false

/-- The parts of a value are some for the columns of the parts. -/
lemma Opens.input (hopens : Opens parts us ps c v ws) (h : TakenApart parts x ys us ps c) (hin : Input xs ps env vs)
    (hv : vs[c]? = some v) (hys : Bound env' ys ws)
    (henv : ∀ y ∈ xs.eraseIdx c, env' y.name = env y.name) :
    Input (ys ++ xs.eraseIdx c) (ps.filterMap (takeApart parts c)) env' (ws ++ vs.eraseIdx c) := by
  obtain ⟨ts, hps, hvs⟩ := hin.typed
  obtain ⟨t, ht, hty⟩ := forall₂_getElem? hvs hv
  have hws := hopens.typed t hty (columnTy_of_forall₂ hps ht)
  have hrest : Bound env (xs.eraseIdx c) (vs.eraseIdx c) := forall₂_eraseIdx hin.bound c
  exact ⟨⟨us t ++ ts.eraseIdx c, h.typedRow hps ht, forall₂_replace hws hvs c⟩,
    List.rel_append hys (hrest.of_agree henv)⟩

/-- What is left of the rows has their first match. -/
lemma Opens.firstMatch_eq (hopens : Opens parts us ps c v ws) (hrows : ∀ r ∈ ps, ∃ p, r.patterns[c]? = some p)
    (hv : vs[c]? = some v) :
    firstMatch guards (ps.filterMap (takeApart parts c)) (ws ++ vs.eraseIdx c) = firstMatch guards ps vs := by
  refine firstMatch_filterMap (fun r hr r' hr' => ?_) fun r hr hnone => ?_
  · obtain ⟨p, hp, qs, hqs, rfl⟩ := takeApart_eq_some.mp hr'
    obtain ⟨hlen, hacc⟩ := hopens.taken p qs ⟨r, hr, hp⟩ hqs
    refine ⟨?_, rfl⟩
    change (Pattern.acceptsAll (qs ++ r.patterns.eraseIdx c) _ && _) = _
    rw [Pattern.acceptsAll_append hlen, hacc, ← Pattern.acceptsAll_eraseIdx hp hv]
    rfl
  · obtain ⟨p, hp⟩ := hrows r hr
    rw [takeApart, hp, Option.bind_some, Option.map_eq_none_iff] at hnone
    rw [PatternRow.accepts, Pattern.acceptsAll_eraseIdx hp hv, hopens.other p ⟨r, hr, hp⟩ hnone, Bool.false_and,
      Bool.false_and]

end

/-! ### States of tables -/

/-- What is to come out of a match. -/
def expected : Option E → Outcome E
  | some e => .result e
  | none => .noCase

/-- The state has the first match of the table for values with `q`. -/
def Handles (guards : G → Bool) (states : List (MState G E)) (xs : List Column) (ps : PatternRows G E)
    (q : Env → List Value → Prop) (st : MState G E) : Prop :=
  ∀ env vs, Input xs ps env vs → q env vs → Runs guards states env st (expected (firstMatch guards ps vs))

/-- There is a state that handles the values with `q`. -/
def HandledAt (guards : G → Bool) (xs : List Column) (ps : PatternRows G E) (q : Env → List Value → Prop) (s : ℕ)
    (states : List (MState G E)) : Prop :=
  ∃ st, states[s]? = some st ∧ Handles guards states xs ps q st

/-- The state is one for the table. -/
abbrev CorrectAt (guards : G → Bool) (xs : List Column) (ps : PatternRows G E) : ℕ → List (MState G E) → Prop :=
  HandledAt guards xs ps fun _ _ => True

section

variable {states states' : List (MState G E)} {xs xs' : List Column} {ps ps' : PatternRows G E}
  {q q' : Env → List Value → Prop} {st : MState G E} {s : ℕ}

lemma Handles.mono (h : Handles guards states xs ps q st) (hpre : states <+: states') :
    Handles guards states' xs ps q st := fun env vs hin hq => (h env vs hin hq).mono hpre

lemma HandledAt.mono (h : HandledAt guards xs ps q s states) (hpre : states <+: states') :
    HandledAt guards xs ps q s states' := by
  obtain ⟨st, hst, hhandles⟩ := h
  exact ⟨st, getElem?_of_prefix hpre hst, hhandles.mono hpre⟩

/-- A state for what is left of a table handles the values that are taken apart in the same way. -/
lemma Handles.of_opens {parts : Pattern → Option (List Pattern)} {x : Column} {ys : List Column} {us : Ty → List Ty}
    {c : ℕ} (h : Handles guards states (ys ++ xs.eraseIdx c) (ps.filterMap (takeApart parts c)) (fun _ _ => True) st)
    (hparts : TakenApart parts x ys us ps c) (hok : TableOk xs ps) (hx : xs[c]? = some x)
    (hopens : ∀ env vs, Input xs ps env vs → q env vs → ∀ v, vs[c]? = some v → env x.name = some v →
      ∃ ws, Opens parts us ps c v ws ∧ Bound env ys ws) :
    Handles guards states xs ps q st := by
  intro env vs hin hq
  obtain ⟨v, -, hv, henv, -⟩ := hin.column hx
  obtain ⟨ws, hws, hbound⟩ := hopens env vs hin hq v hv henv
  rw [← hws.firstMatch_eq (fun r hr => (hok.inColumn hx hr).imp fun _ h => h.1) hv]
  exact h env _ (hws.input hparts hin hv hbound fun _ _ => rfl) trivial

lemma HandledAt.of_opens {parts : Pattern → Option (List Pattern)} {x : Column} {ys : List Column} {us : Ty → List Ty}
    {c : ℕ} (h : CorrectAt guards (ys ++ xs.eraseIdx c) (ps.filterMap (takeApart parts c)) s states)
    (hparts : TakenApart parts x ys us ps c) (hok : TableOk xs ps) (hx : xs[c]? = some x)
    (hopens : ∀ env vs, Input xs ps env vs → q env vs → ∀ v, vs[c]? = some v → env x.name = some v →
      ∃ ws, Opens parts us ps c v ws ∧ Bound env ys ws) :
    HandledAt guards xs ps q s states := by
  obtain ⟨st, hst, hhandles⟩ := h
  exact ⟨st, hst, hhandles.of_opens hparts hok hx hopens⟩

/-- Definitions are loaded that bind the parts of the value, and nothing but what is inside of the column. -/
lemma Handles.load_of_opens {parts : Pattern → Option (List Pattern)} {x : Column} {ys : List Column}
    {us : Ty → List Ty} {c next : ℕ} {ds : List (Name × Load G)}
    (h : CorrectAt guards (ys ++ xs.eraseIdx c) (ps.filterMap (takeApart parts c)) next states)
    (hparts : TakenApart parts x ys us ps c) (hok : TableOk xs ps) (hx : xs[c]? = some x)
    (hopens : ∀ env vs, Input xs ps env vs → q env vs → ∀ v, vs[c]? = some v → env x.name = some v →
      ∃ env' ws, loadAll guards ds env = some env' ∧ Opens parts us ps c v ws ∧ Bound env' ys ws ∧
        ∀ y, Apart x.name y → env' y = env y) :
    Handles guards states xs ps q (.loadVars ds next) := by
  intro env vs hin hq
  obtain ⟨st, hst, hhandles⟩ := h
  obtain ⟨v, -, hv, henv, -⟩ := hin.column hx
  obtain ⟨env', ws, hds, hws, hbound, hother⟩ := hopens env vs hin hq v hv henv
  rw [← hws.firstMatch_eq (fun r hr => (hok.inColumn hx hr).imp fun _ h => h.1) hv]
  refine .load hds hst (hhandles env' _ (hws.input hparts hin hv hbound fun y hy => ?_) trivial)
  exact hother _ (hok.apart_of_mem_eraseIdx hx hy)

end

end Hobbes.Match.Table
