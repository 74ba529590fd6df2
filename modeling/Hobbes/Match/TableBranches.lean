import Hobbes.Match.TableStates

/-!
# Branches

The states of a table that is split on a column of constants, of arrays or of constructors.
-/

namespace Hobbes.Match.Table

open Core Lang

variable {G E : Type} {guards : G → Bool} {mk : PatternRows G E → Make G E ℕ} {ps : PatternRows G E}
  {xs : List Column} {c : ℕ} {x : Column}

/-- States are made for tables. -/
def MakesStates (guards : G → Bool) (mk : PatternRows G E → Make G E ℕ) : Prop :=
  ∀ xs ps, TableOk xs ps → Spec (Good guards) (fun _ => True) (mk ps) (CorrectAt guards xs ps)

lemma Pattern.name_assignName (x : Name) (p : Pattern) : (p.assignName x).name = x := by
  cases p <;> rfl

lemma Placed.name_eq {p : Pattern} (h : Placed x p) (hany : p.isAny = false) : p.name = x.name := by
  rw [← h.named hany, Pattern.name_assignName]

lemma inColumn_headPattern {p : Pattern} (hp : headPattern ps c = some p) : InColumn ps c p := by
  obtain ⟨r, hr, hp⟩ := Option.bind_eq_some_iff.mp hp
  exact ⟨r, List.mem_of_head? hr, hp⟩

/-- A column has its name from the first row, where that has no wildcard. -/
lemma TableOk.columnName_eq (h : TableOk xs ps) (hx : xs[c]? = some x) {p : Pattern} (hp : headPattern ps c = some p)
    (hany : p.isAny = false) : columnName ps c = x.name := by
  rw [columnName, hp, Option.elim_some]
  exact (h.placed_of_inColumn hx (inColumn_headPattern hp)).name_eq hany

/-! ### Patterns for parts -/

lemma Pattern.hasInnerString_of_hasString {p : Pattern} (h : p.hasString = false) : p.hasInnerString = false := by
  cases p with
  | array y qs =>
    rw [hasString, Bool.or_eq_false_iff] at h
    exact h.2
  | _ => exact h

/-- A part of a pattern is one for a column without strings. -/
lemma placed_part {y : Name} {p : Pattern} (hname : p.assignName y = p) (hstring : p.hasString = false) :
    Placed ⟨y, false⟩ p :=
  ⟨fun _ => hname, Pattern.hasInnerString_of_hasString hstring, fun _ => hstring, fun h => absurd h Bool.false_ne_true⟩

lemma placed_any {y : Name} {p : Pattern} (h : p.isAny = true) : Placed ⟨y, false⟩ p := by
  cases p with
  | any z vn =>
    exact ⟨fun h => absurd h.symm Bool.false_ne_true, rfl, fun _ => rfl, fun h => absurd h Bool.false_ne_true⟩
  | _ => cases h

lemma isAny_of_mem_arrayAnyMatches {n : ℕ} {p : Pattern} (h : p ∈ arrayAnyMatches n) : p.isAny = true := by
  rw [List.eq_of_mem_replicate h]
  rfl

lemma placed_arrayAnyMatches {ys : List Column} (hys : ∀ y ∈ ys, y.strings = false) :
    List.Forall₂ Placed ys (arrayAnyMatches ys.length) := by
  rw [List.forall₂_iff_zip]
  refine ⟨(List.length_replicate).symm, fun {y p} hp => ?_⟩
  obtain ⟨hy, hmem⟩ := List.of_mem_zip hp
  have hplaced := placed_any (y := y.name) (isAny_of_mem_arrayAnyMatches hmem)
  rwa [← hys y hy] at hplaced

lemma typed_arrayAnyMatches (ts : List Ty) : List.Forall₂ Pattern.HasTy (arrayAnyMatches ts.length) ts := by
  rw [List.forall₂_iff_zip]
  refine ⟨List.length_replicate, fun {p t} hp => ?_⟩
  rw [List.eq_of_mem_replicate (List.of_mem_zip hp).1]
  exact .any

lemma Value.HasTy.exists_array {v : Value} {t : Ty} (h : v.HasTy (.array t)) :
    ∃ vs, v = .array vs ∧ (∀ w ∈ vs, w.HasTy t) ∧ .prim (.char 0) ∉ vs ∧ vs.length < 2 ^ 64 := by
  cases h with
  | array hvs hzero hlen => exact ⟨_, rfl, hvs, hzero, hlen⟩

lemma columnTy_array {t : Ty} {y : Name} {qs : List Pattern} (h : ColumnTy ps c t) (hp : InColumn ps c (.array y qs)) :
    ∃ t', t = .array t' ∧ (∀ q ∈ qs, q.HasTy t') ∧ (∀ q ∈ qs, q.isZeroChar = false) ∧ qs.length < 2 ^ 64 :=
  Pattern.hasTy_array.mp (h _ hp)

/-! ### What is left for a value -/

section

variable {S : Type} {svalue : Pattern → Option S}

lemma exists_inColumn_of_rowValue {o : Option S} (hsplits : Splits svalue ps c)
    (h : ∃ r ∈ ps, rowValue svalue c r = o) : ∃ p, InColumn ps c p ∧ svalue p = o := by
  obtain ⟨r, hr, hvalue⟩ := h
  obtain ⟨p, hp, -⟩ := hsplits r hr
  rw [rowValue, hp, Option.bind_some] at hvalue
  exact ⟨p, ⟨r, hr, hp⟩, hvalue⟩

lemma isAny_of_splits (hsplits : Splits svalue ps c) {p : Pattern} (hp : InColumn ps c p) (hnone : svalue p = none) :
    p.isAny = true := by
  obtain ⟨r, hr, hp⟩ := hp
  obtain ⟨p', hp', hany⟩ := hsplits r hr
  obtain rfl := Option.some.inj (hp.symm.trans hp')
  exact hany hnone

/-- The keys of the jumps are the values of the patterns. -/
lemma SplitJumps.mem_iff {jmps : List (S × ℕ)} {d : Option ℕ} (h : SplitJumps svalue ps c jmps d) {sv : S} :
    sv ∈ jmps.map Prod.fst ↔ ∃ p, InColumn ps c p ∧ svalue p = some sv := by
  rw [h.keys]
  refine ⟨exists_inColumn_of_rowValue h.splits, ?_⟩
  rintro ⟨p, ⟨r, hr, hp⟩, hsv⟩
  exact ⟨r, hr, by rw [rowValue, hp, Option.bind_some, hsv]⟩

/-! Where there is no case for a value, nothing is left of the patterns that have one. -/

def missedParts (svalue : Pattern → Option S) (p : Pattern) : Option (List Pattern) :=
  if (svalue p).isNone then some [] else none

lemma missedParts_eq_some {p : Pattern} {qs : List Pattern} (h : missedParts svalue p = some qs) :
    svalue p = none ∧ qs = [] := by
  rw [missedParts] at h
  split_ifs at h with hnone
  exact ⟨Option.isNone_iff_eq_none.mp hnone, (Option.some.inj h).symm⟩

lemma missedParts_eq_none {p : Pattern} (h : missedParts svalue p = none) : (svalue p).isSome := by
  rw [missedParts] at h
  split_ifs at h with hnone
  simpa [Option.isSome_iff_ne_none] using hnone

lemma anyRows_eq (h : Splits svalue ps c) : anyRows svalue ps c = ps.filterMap (takeApart (missedParts svalue) c) := by
  rw [anyRows, ← List.filterMap_eq_map, List.filterMap_filter]
  refine List.filterMap_congr fun r hr => ?_
  obtain ⟨p, hp, -⟩ := h r hr
  simp only [rowValue, takeApart, hp, Option.bind_some, missedParts]
  split_ifs <;> rfl

/-- No pattern that has a value accepts that of the column. -/
def Missed (svalue : Pattern → Option S) (ps : PatternRows G E) (c : ℕ) (_ : Env) (vs : List Value) : Prop :=
  ∀ v, vs[c]? = some v → ∀ p, InColumn ps c p → (svalue p).isSome → p.accepts v = false

/-- Patterns that nothing is left of. -/
lemma takenApart_nil {parts : Pattern → Option (List Pattern)} (hne : ∃ p, InColumn ps c p ∧ (parts p).isSome)
    (hparts : ∀ p qs, parts p = some qs → qs = []) : TakenApart parts x [] (fun _ => []) ps c where
  nonempty := hne
  apart := .nil
  under := List.forall_mem_nil _
  placed p qs _ _ hqs := by
    rw [hparts p qs hqs]
    exact .nil
  typed p qs t _ _ hqs := by
    rw [hparts p qs hqs]
    exact .nil

lemma spec_missed (hmk : MakesStates guards mk) (hok : TableOk xs ps) (hx : xs[c]? = some x)
    (hsplits : Splits svalue ps c) (hany : ∃ r ∈ ps, rowValue svalue c r = none) :
    Spec (Good guards) (fun _ => True) (mk (anyRows svalue ps c)) (HandledAt guards xs ps (Missed svalue ps c)) := by
  obtain ⟨p, hp, hnone⟩ := exists_inColumn_of_rowValue hsplits hany
  have hparts : TakenApart (missedParts svalue) x [] (fun _ => []) ps c :=
    takenApart_nil ⟨p, hp, by simp [missedParts, hnone]⟩ fun p qs h => (missedParts_eq_some h).2
  rw [anyRows_eq hsplits]
  refine (hmk _ _ (hparts.tableOk hok hx)).imp (fun _ h => h) fun s states h => ?_
  refine h.of_opens hparts hok hx fun env vs _ hmissed v hv _ => ⟨[], ⟨fun _ _ _ => .nil, ?_, ?_⟩, .nil⟩
  · intro p qs hp hqs
    obtain ⟨hnone, rfl⟩ := missedParts_eq_some hqs
    exact ⟨rfl, (Pattern.accepts_of_isAny (isAny_of_splits hsplits hp hnone) v).symm⟩
  · exact fun p hp hnone => hmissed v hv p hp (missedParts_eq_none hnone)

/-! What a pattern is taken apart into for a value. -/

variable [DecidableEq S]

def branchParts (svalue : Pattern → Option S) (matchParts : Pattern → List Pattern)
    (anyParts : S → Pattern → List Pattern) (sv : S) (p : Pattern) : Option (List Pattern) :=
  match svalue p with
  | some sv' => if sv' = sv then some (matchParts p) else none
  | none => some (anyParts sv p)

variable {matchParts : Pattern → List Pattern} {anyParts : S → Pattern → List Pattern} {sv : S}

lemma branchParts_eq_some {p : Pattern} {qs : List Pattern}
    (h : branchParts svalue matchParts anyParts sv p = some qs) :
    svalue p = some sv ∧ qs = matchParts p ∨ svalue p = none ∧ qs = anyParts sv p := by
  rw [branchParts] at h
  split at h
  · rename_i sv' hsv
    split_ifs at h with heq
    exact .inl ⟨by rw [hsv, heq], (Option.some.inj h).symm⟩
  · rename_i hnone
    exact .inr ⟨hnone, (Option.some.inj h).symm⟩

lemma branchParts_eq_none {p : Pattern} (h : branchParts svalue matchParts anyParts sv p = none) :
    ∃ sv', svalue p = some sv' ∧ sv' ≠ sv := by
  rw [branchParts] at h
  split at h
  · rename_i sv' hsv
    split_ifs at h with hne
    exact ⟨sv', hsv, hne⟩
  · cases h

lemma isSome_branchParts {p : Pattern} (h : svalue p = some sv) :
    (branchParts svalue matchParts anyParts sv p).isSome := by
  rw [branchParts, h]
  simp

lemma filterMap_branchRow (matchParts : Pattern → List Pattern) (anyParts : S → Pattern → List Pattern)
    {matchRow : Pattern → PatternRow G E → PatternRow G E} {anyRow : S → PatternRow G E → PatternRow G E}
    (hmatch : ∀ p r, matchRow p r = prependPatterns (copyRowWithoutColumn r c) (matchParts p))
    (hany : ∀ p r, r.patterns[c]? = some p → anyRow sv r = prependPatterns (copyRowWithoutColumn r c) (anyParts sv p)) :
    ps.filterMap (branchRow svalue matchRow anyRow c sv) =
      ps.filterMap (takeApart (branchParts svalue matchParts anyParts sv) c) := by
  refine List.filterMap_congr fun r _ => ?_
  rw [branchRow, takeApart]
  cases hp : r.patterns[c]? with
  | none => rfl
  | some p =>
    simp only [Option.bind_some, branchParts]
    cases svalue p with
    | none => rw [hany p r hp, Option.map_some]
    | some sv' =>
      simp only
      split_ifs
      · rw [hmatch, Option.map_some]
      · rfl

/-! ### Splits -/

variable {le : S → S → Prop} [DecidableRel le]
  {matchRow : Pattern → PatternRow G E → PatternRow G E} {anyRow : S → PatternRow G E → PatternRow G E}
  {makeNextState : Name → S → PatternRows G E → Make G E ℕ}
  {makeSwitchState : Name → List (S × ℕ) → Option ℕ → Make G E (MState G E)}

/-- A split makes a state for its table, where the branches handle values with `q`, and the switch goes on to them. -/
lemma spec_split {q : S → Env → List Value → Prop} {p : Pattern} (hmk : MakesStates guards mk) (hok : TableOk xs ps)
    (hx : xs[c]? = some x) (hp : headPattern ps c = some p) (hany : p.isAny = false)
    (hnext : Splits svalue ps c → ∀ sv, (∃ p, InColumn ps c p ∧ svalue p = some sv) →
      Spec (Good guards) (fun _ => True)
        (makeNextState x.name sv (ps.filterMap (branchRow svalue matchRow anyRow c sv)))
        (HandledAt guards xs ps (q sv)))
    (hswitch : ∀ jmps d, Spec (Good guards)
      (fun states => SplitJumps svalue ps c jmps d ∧ (∀ j ∈ jmps, HandledAt guards xs ps (q j.1) j.2 states) ∧
        ∀ s, d = some s → HandledAt guards xs ps (Missed svalue ps c) s states)
      (makeSwitchState x.name jmps d) fun st states => Handles guards states xs ps (fun _ _ => True) st) :
    Spec (Good guards) (fun _ => True)
      (makeSplitState le svalue matchRow anyRow makeNextState makeSwitchState mk ps c)
      fun st states => Handles guards states xs ps (fun _ _ => True) st := by
  have hname := hok.columnName_eq hx hp hany
  refine spec_makeSplitState (R := fun sv => HandledAt guards xs ps (q sv)) .true (fun _ _ => .handledAt)
    (fun hsplits sv hsv => ?_) (fun hsplits hmissed => spec_missed hmk hok hx hsplits hmissed) fun jmps d => ?_
  · rw [hname]
    exact hnext hsplits sv (exists_inColumn_of_rowValue hsplits hsv)
  · rw [hname]
    exact hswitch jmps d

end

/-! ### Constants -/

lemma litValue_eq_some {p : Pattern} {v : Primitive} (h : litValue p = some v) : ∃ y, p = .literal y v := by
  cases p <;> cases h
  exact ⟨_, rfl⟩

/-- All constants of a column have one type, and so have its values. -/
lemma columnTy_literal {t : Ty} {p : Primitive} (h : ColumnTy ps c t)
    (hp : ∃ p', InColumn ps c p' ∧ litValue p' = some p) : t = .prim (primType p) := by
  obtain ⟨p', hin, hlit⟩ := hp
  obtain ⟨y, rfl⟩ := litValue_eq_some hlit
  exact Pattern.hasTy_literal.mp (h _ hin)

lemma Value.HasTy.exists_prim {v : Value} {ty : PrimType} (h : v.HasTy (.prim ty)) :
    ∃ p, v = .prim p ∧ primType p = ty := by
  cases h
  exact ⟨_, rfl, rfl⟩

lemma literalRows_eq (p : Primitive) : ps.filterMap
      (branchRow litValue (fun _ r => copyRowWithoutColumn r c) (fun _ r => copyRowWithoutColumn r c) c p) =
    ps.filterMap (takeApart (branchParts litValue (fun _ => []) (fun _ _ => []) p) c) :=
  filterMap_branchRow _ _ (fun _ _ => rfl) fun _ _ _ => rfl

/-- Nothing is left of a constant. -/
lemma literalParts_eq_nil {p : Primitive} (q : Pattern) (qs : List Pattern)
    (h : branchParts litValue (fun _ => []) (fun _ _ => []) p q = some qs) : qs = [] := by
  rcases branchParts_eq_some h with ⟨-, rfl⟩ | ⟨-, rfl⟩ <;> rfl

/-- The rows for a constant handle it. -/
lemma spec_literalRows (hmk : MakesStates guards mk) (hok : TableOk xs ps) (hx : xs[c]? = some x)
    (hsplits : Splits litValue ps c) {p : Primitive} (hp : ∃ p', InColumn ps c p' ∧ litValue p' = some p) :
    Spec (Good guards) (fun _ => True)
      (mk (ps.filterMap
        (branchRow litValue (fun _ r => copyRowWithoutColumn r c) (fun _ r => copyRowWithoutColumn r c) c p)))
      (HandledAt guards xs ps fun _ vs => vs[c]? = some (.prim p)) := by
  rw [literalRows_eq]
  obtain ⟨p', hp', hlit⟩ := hp
  have hparts := takenApart_nil (x := x) ⟨p', hp', isSome_branchParts hlit⟩ literalParts_eq_nil
  refine (hmk _ _ (hparts.tableOk hok hx)).imp (fun _ h => h) fun s states h => ?_
  refine h.of_opens hparts hok hx fun env vs _ hq v hv _ => ⟨[], ⟨fun _ _ _ => .nil, ?_, ?_⟩, .nil⟩
  · intro p' qs hin hqs
    obtain rfl := Option.some.inj (hv.symm.trans hq)
    rcases branchParts_eq_some hqs with ⟨hlit, rfl⟩ | ⟨hnone, rfl⟩
    · obtain ⟨y, rfl⟩ := litValue_eq_some hlit
      simp [Pattern.accepts, Pattern.acceptsAll]
    · exact ⟨rfl, (Pattern.accepts_of_isAny (isAny_of_splits hsplits hin hnone) _).symm⟩
  · intro p' hin hnone
    obtain rfl := Option.some.inj (hv.symm.trans hq)
    obtain ⟨q, hlit, hne⟩ := branchParts_eq_none hnone
    obtain ⟨y, rfl⟩ := litValue_eq_some hlit
    simp [Pattern.accepts, hne]

lemma spec_makeLiteralState {y : Name} {p₀ : Primitive} (hmk : MakesStates guards mk) (hok : TableOk xs ps)
    (hx : xs[c]? = some x) (hp₀ : headPattern ps c = some (.literal y p₀)) :
    Spec (Good guards) (fun _ => True) (makeLiteralState mk ps c)
      fun st states => Handles guards states xs ps (fun _ _ => True) st := by
  have hin₀ : InColumn ps c (.literal y p₀) := inColumn_headPattern hp₀
  refine spec_split (q := fun p _ vs => vs[c]? = some (.prim p)) hmk hok hx hp₀ rfl ?_ fun jmps d => ?_
  · exact fun hsplits p hp => spec_literalRows hmk hok hx hsplits hp
  · refine (spec_makeSwitch (primType p₀)).imp (fun _ h => h) fun st states h => ?_
    obtain ⟨⟨hjumps, hnext, hdflt⟩, hswitches⟩ := h
    have hty : ∀ j ∈ jmps, primType j.1 = primType p₀ := by
      intro j hj
      obtain ⟨t, ht⟩ := hok.columnTy hx
      have ht' := columnTy_literal ht (hjumps.mem_iff.mp (List.mem_map_of_mem hj))
      have ht₀ := columnTy_literal ht ⟨_, hin₀, rfl⟩
      rw [ht', Ty.prim.injEq] at ht₀
      exact ht₀
    refine handles_of_switches (hswitches hjumps.nodup hty) fun env vs hin _ => ?_
    obtain ⟨v, t, hv, henv, hvty, ht⟩ := hin.column hx
    rw [columnTy_literal ht ⟨_, hin₀, rfl⟩] at hvty
    obtain ⟨p, rfl, hp⟩ := hvty.exists_prim
    refine ⟨p, henv, hp, fun s hs => ?_⟩
    cases hlookup : jmps.lookup p with
    | some s' =>
      rw [hlookup] at hs
      obtain rfl := Option.some.inj hs
      obtain ⟨st', hst', hhandles⟩ := hnext _ (mem_of_lookup hlookup)
      exact ⟨st', hst', hhandles env vs hin hv⟩
    | none =>
      rw [hlookup] at hs
      obtain ⟨st', hst', hhandles⟩ := hdflt s hs
      refine ⟨st', hst', hhandles env vs hin fun v' hv' p' hp' hlit => ?_⟩
      obtain rfl := Option.some.inj (hv.symm.trans hv')
      obtain ⟨q, hlit⟩ := Option.isSome_iff_exists.mp hlit
      obtain ⟨z, rfl⟩ := litValue_eq_some hlit
      have hne : q ≠ p := by
        rintro rfl
        obtain ⟨s', hs'⟩ := exists_lookup (hjumps.mem_iff.mpr ⟨_, hp', hlit⟩)
        rw [hlookup] at hs'
        cases hs'
      simp [Pattern.accepts, hne]

end Hobbes.Match.Table
