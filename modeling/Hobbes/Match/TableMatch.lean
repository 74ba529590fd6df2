import Hobbes.Match.TableFailures

/-!
# Matches

The columns of a match are its variables. Running the states that are made for it has the result of the first row that
matches.
-/

namespace Hobbes.Match.Table

open Core Lang

variable {G E : Type} {guards : G → Bool} {ps : PatternRows G E} {xs : List Column} {vns : List Bytes} {ts : List Ty}

/-- The columns of a match. -/
def rootColumns (vns : List Bytes) : List Column := vns.map fun vn => ⟨.root vn, true⟩

lemma placed_assignName (x : Name) {p : Pattern} (h : p.hasInnerString = false) :
    Placed ⟨x, true⟩ (p.assignName x) where
  named _ := Pattern.assignName_assignName x x p
  inner := by rw [← Pattern.hasInnerString_forget, Pattern.forget_assignName, Pattern.hasInnerString_forget, h]
  strings h := absurd h.symm Bool.false_ne_true
  wildcard _ := Pattern.name_assignName x p

lemma under_root {x : Name} {vn : Bytes} (h : Under x (.root vn)) : x = .root vn := by
  cases h
  rfl

lemma forall₂_zipWith {α β γ : Type} {R : α → γ → Prop} {f : α → β → γ} {as : List α} {bs : List β}
    (hlen : as.length = bs.length) (h : ∀ a ∈ as, ∀ b ∈ bs, R a (f a b)) :
    List.Forall₂ R as (List.zipWith f as bs) := by
  induction as generalizing bs with
  | nil => exact .nil
  | cons a as ih =>
    cases bs with
    | nil => cases hlen
    | cons b bs =>
      refine .cons (h a List.mem_cons_self b List.mem_cons_self) (ih (Nat.succ.inj hlen) fun a' ha' b' hb' => ?_)
      exact h a' (List.mem_cons_of_mem a ha') b' (List.mem_cons_of_mem b hb')

/-- The patterns of a row are the same but for the names that they are given. -/
lemma map_forget_assignNames {ys : List Name} {qs : List Pattern} (h : ys.length = qs.length) :
    (List.zipWith Pattern.assignName ys qs).map Pattern.forget = qs.map Pattern.forget := by
  induction ys generalizing qs with
  | nil =>
    obtain rfl := List.length_eq_zero_iff.mp h.symm
    rfl
  | cons y ys ih =>
    cases qs with
    | nil => cases h
    | cons q qs =>
      rw [List.zipWith_cons_cons, List.map_cons, List.map_cons, Pattern.forget_assignName, ih (Nat.succ.inj h)]

lemma hasTy_assignNames (hlen : vns.length = ts.length) {qs : List Pattern} (hts : List.Forall₂ Pattern.HasTy qs ts) :
    List.Forall₂ Pattern.HasTy (List.zipWith Pattern.assignName (vns.map .root) qs) ts := by
  have hforget : ∀ ps : List Pattern, List.Forall₂ Pattern.HasTy (ps.map Pattern.forget) ts ↔
      List.Forall₂ Pattern.HasTy ps ts := by
    intro ps
    simp only [List.forall₂_map_left_iff, Pattern.hasTy_forget]
  rw [← hforget, map_forget_assignNames (by rw [List.length_map, hlen, hts.length_eq]), hforget]
  exact hts

lemma tableOk_assignNames (hvns : vns.Nodup) (hne : ps ≠ []) (hlen : vns.length = ts.length)
    (hts : ∀ r ∈ ps, List.Forall₂ Pattern.HasTy r.patterns ts)
    (hinner : ∀ r ∈ ps, ∀ p ∈ r.patterns, p.hasInnerString = false) :
    TableOk (rootColumns vns) (assignNames (vns.map .root) ps) := by
  refine ⟨by simpa [assignNames] using hne, ?_, ?_, ?_, ts, ?_⟩
  · rw [rootColumns, List.pairwise_map]
    refine hvns.imp fun {a b} hab => ⟨fun h => hab ?_, fun h => hab ?_⟩
    · exact Name.root.inj (under_root h)
    · exact (Name.root.inj (under_root h)).symm
  · rw [rootColumns, List.forall_mem_map]
    exact fun vn _ h => absurd (under_root h) Name.noConfusion
  · rw [assignNames, List.forall_mem_map]
    intro r hr
    rw [rootColumns, List.forall₂_map_left_iff, List.zipWith_map_left]
    exact forall₂_zipWith (hlen.trans (hts r hr).length_eq.symm) fun vn _ p hp =>
      placed_assignName (.root vn) (hinner r hr p hp)
  · rw [assignNames, List.forall_mem_map]
    exact fun r hr => hasTy_assignNames hlen (hts r hr)

lemma firstMatch_assignNames (hlen : vns.length = ts.length)
    (hts : ∀ r ∈ ps, List.Forall₂ Pattern.HasTy r.patterns ts) (vs : List Value) :
    firstMatch guards (assignNames (vns.map .root) ps) vs = firstMatch guards ps vs := by
  refine firstMatch_map fun r hr => ⟨?_, rfl⟩
  have hforget : ∀ ps : List Pattern, Pattern.acceptsAll (ps.map Pattern.forget) vs = Pattern.acceptsAll ps vs :=
    fun ps => Pattern.acceptsAll_forget (fun p _ v => Pattern.accepts_forget p v) vs
  have hlen' : (vns.map Name.root).length = r.patterns.length := by
    rw [List.length_map, hlen, (hts r hr).length_eq]
  rw [PatternRow.accepts, PatternRow.accepts, ← hforget, map_forget_assignNames hlen', hforget]

variable [DecidableEq G] [DecidableEq E]

lemma spec_makeDFA {fuel root : ℕ} {dfa : MDFA G E} (hok : TableOk xs ps) (h : makeDFA fuel ps = .ok (root, dfa))
    (hclean : Clean dfa) : CorrectAt guards xs ps root dfa.states := by
  have hfinish : Spec (Good guards) (fun _ => True) (ps.mapM fun r => addState (.finishExpr r.result : MState G E))
      fun _ _ => True :=
    (Spec.mapM (R := fun _ _ _ => True) Stays.true (fun _ _ => Stays.true) fun r _ =>
      (spec_addState Stays.true _).imp (fun _ h => h) fun _ _ _ => trivial).imp (fun _ h => h) fun _ _ _ => trivial
  have hmake : MakesStates guards (makeDFAState fuel : PatternRows G E → Make G E ℕ) := spec_makeDFAState fuel
  have hspec := hfinish.bind fun _ => hmake xs ps hok
  exact ((hspec _ root dfa h).2 (List.forall_mem_nil _) hclean trivial).2

lemma runs_of_makeDFA {fuel root : ℕ} {dfa : MDFA G E} (hlen : vns.length = ts.length)
    (hts : ∀ r ∈ ps, List.Forall₂ Pattern.HasTy r.patterns ts)
    (hok : TableOk (rootColumns vns) (assignNames (vns.map .root) ps))
    (h : makeDFA fuel (assignNames (vns.map .root) ps) = .ok (root, dfa)) (hclean : Clean dfa) {env : Env}
    {vs : List Value} (hvs : List.Forall₂ Value.HasTy vs ts)
    (henv : List.Forall₂ (fun vn v => env (.root vn) = some v) vns vs) :
    ∃ st, dfa.states[root]? = some st ∧
      ∀ o, Runs guards dfa.states env st o ↔ o = expected (firstMatch guards ps vs) := by
  obtain ⟨st, hst, hhandles⟩ := spec_makeDFA hok h hclean
  have hin : Input (rootColumns vns) (assignNames (vns.map .root) ps) env vs := by
    refine ⟨⟨ts, ?_, hvs⟩, ?_⟩
    · rw [assignNames, List.forall_mem_map]
      exact fun r hr => hasTy_assignNames hlen (hts r hr)
    · rwa [Bound, rootColumns, List.forall₂_map_left_iff]
  have hrun := hhandles env vs hin trivial
  rw [firstMatch_assignNames hlen hts] at hrun
  refine ⟨st, hst, fun o => ⟨fun h => h.unique hrun, ?_⟩⟩
  rintro rfl
  exact hrun

/-- A match of a variant `x` that may hold an array, where the first row has a guard. -/
def guardedRows : PatternRows ℕ ℕ :=
  [⟨[.variant .unnamed [97] (.array .unnamed [.literal .unnamed (.bool true)])], some 0, 1⟩,
    ⟨[.variant .unnamed [97] (.any .unnamed [95])], none, 2⟩, ⟨[.any .unnamed [95]], none, 3⟩]

abbrev guardedTys : List Ty := [.variant [([97], .array (.prim .bool)), ([98], .prim .unit)]]

def statesOf : Except Failure (ℕ × MDFA ℕ ℕ) → MDFA ℕ ℕ
  | .ok s => s.2
  | .error _ => ⟨[], [], 0, []⟩

def rootOf : Except Failure (ℕ × MDFA ℕ ℕ) → Option ℕ
  | .ok s => some s.1
  | .error _ => none

lemma eq_ok_of_rootOf {r : Except Failure (ℕ × MDFA ℕ ℕ)} {root : ℕ} (h : rootOf r = some root) :
    r = .ok (root, statesOf r) := by
  cases r with
  | error e => cases h
  | ok s =>
    obtain rfl := Option.some.inj h
    rfl

def guardedStates : MDFA ℕ ℕ := statesOf (makeDFA 14 (assignNames [.root [120]] guardedRows))

lemma clean_guardedStates : Clean guardedStates := by
  have hall : ∀ x ∈ guardedStates.found, (∀ r ∈ x.1, r.patterns.isEmpty = true) ∧
      ∀ r ∈ x.2, r.patterns.isEmpty = true := by decide +kernel
  have hnone : ∀ ps : PatternRows ℕ ℕ, (∀ r ∈ ps, r.patterns.isEmpty = true) → ∀ c, nameOfColumn ps c = none := by
    intro ps h c
    rw [nameOfColumn, List.findSome?_eq_none_iff]
    intro r hr
    rw [List.isEmpty_iff.mp (h r hr)]
    rfl
  intro x hx c
  rw [hnone x.1 (hall x hx).1, hnone x.2 (hall x hx).2]

lemma typed_guardedRows : ∀ r ∈ guardedRows, List.Forall₂ Pattern.HasTy r.patterns guardedTys := by
  have hbool : (Pattern.array .unnamed [.literal .unnamed (.bool true)]).HasTy (.array (.prim .bool)) :=
    .array (List.forall_mem_singleton.mpr .literal) (by simp [Pattern.isZeroChar]) (by decide)
  simp only [guardedRows, List.forall_mem_cons, List.not_mem_nil, false_imp_iff, implies_true, and_true]
  exact ⟨.cons (.variant rfl hbool) .nil, .cons (.variant rfl .any) .nil, .cons .any .nil⟩

/-- A match of three numbers, in which what is left for two columns is the same. -/
def sharedRows : PatternRows ℕ ℕ :=
  [⟨[.literal .unnamed (.long 1), .literal .unnamed (.long 6), .literal .unnamed (.long 7)], none, 1⟩,
    ⟨[.literal .unnamed (.long 1), .literal .unnamed (.long 6), .literal .unnamed (.long 8)], none, 2⟩,
    ⟨[.literal .unnamed (.long 2), .literal .unnamed (.long 7), .literal .unnamed (.long 6)], none, 3⟩,
    ⟨[.literal .unnamed (.long 2), .literal .unnamed (.long 8), .literal .unnamed (.long 6)], none, 4⟩,
    ⟨[.any .unnamed [95], .literal .unnamed (.long 5), .literal .unnamed (.long 5)], none, 5⟩,
    ⟨[.any .unnamed [95], .any .unnamed [95], .any .unnamed [95]], none, 6⟩]

def sharedStates : MDFA ℕ ℕ := statesOf (makeDFA 5 (assignNames [.root [122], .root [120], .root [121]] sharedRows))

def sharedEnv : Env := fun x =>
  [(Name.root [122], Value.prim (.long 2)), (.root [120], .prim (.long 9)), (.root [121], .prim (.long 5))].lookup x

/-- What is left for the second column where the first one is a 1 is taken for what is left for the third one where it
is a 2, so that the row for two fives has the result. -/
theorem makeDFA_shares :
    makeDFA 5 (assignNames [.root [122], .root [120], .root [121]] sharedRows) = .ok (12, sharedStates) ∧
      (∃ st, sharedStates.states[12]? = some st ∧
        Runs (fun _ => true) sharedStates.states sharedEnv st (.result 5)) ∧
      firstMatch (fun _ => true) sharedRows [.prim (.long 2), .prim (.long 9), .prim (.long 5)] = some 6 := by
  have hroot : rootOf (makeDFA 5 (assignNames [.root [122], .root [120], .root [121]] sharedRows)) = some 12 := by
    decide +kernel
  have hz : sharedEnv (.root [122]) = some (.prim (.long 2)) := rfl
  have hy : sharedEnv (.root [121]) = some (.prim (.long 5)) := rfl
  have hshared : sharedStates.states[6]? = some (.switchVal (.root [121]) [(.long 5, 4)] 5) := by decide +kernel
  have hlast : sharedStates.states[4]? = some (.finishExpr 5) := by decide +kernel
  have hsecond : sharedStates.states[10]? = some (.switchVal (.root [121]) [(.long 5, 6), (.long 6, 9)] 5) := by
    decide +kernel
  have hfirst : sharedStates.states[12]? = some (.switchVal (.root [122]) [(.long 1, 8), (.long 2, 10)] 11) := by
    decide +kernel
  exact ⟨eq_ok_of_rootOf hroot, ⟨_, hfirst, .val hz hsecond (.val hy hshared (.val hy hlast .finish))⟩,
    by decide +kernel⟩

end Hobbes.Match.Table
