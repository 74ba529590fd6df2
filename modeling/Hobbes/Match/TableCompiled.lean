import Hobbes.Match.TableArrays
import Hobbes.Match.TableMemo
import Hobbes.Match.TableRecords
import Hobbes.Match.TableStrings

/-!
# Compiled tables

For every table a state is made that has the result of its first row that matches.
-/

namespace Hobbes.Match.Table

open Core Lang

variable {G E : Type} {guards : G → Bool} {mk : PatternRows G E → Make G E ℕ} {ps : PatternRows G E}
  {xs : List Column} {c : ℕ} {x : Column}

/-! ### The column that is taken apart -/

/-- Does the first row have a pattern there that is no wildcard? -/
def Pivot (ps : PatternRows G E) (c : ℕ) : Prop := ∃ p, headPattern ps c = some p ∧ p.isAny = false

/-- One turn of the loop of `choosePivotColumn`. -/
def pivotStep (ps : PatternRows G E) (s : Option (ℕ × ℕ) × Option (ℕ × ℕ)) (c : ℕ) :
    Option (ℕ × ℕ) × Option (ℕ × ℕ) :=
  match headPattern ps c with
  | none | some (.any _ _) => s
  | some p =>
    let csc := 1 + columnScore ps c
    (better csc c s.1, if (maSize p).isSome then better csc c s.2 else s.2)

lemma choosePivotColumn_eq : choosePivotColumn ps =
    (((List.range (width ps)).foldl (pivotStep ps) (none, none)).2.or
      ((List.range (width ps)).foldl (pivotStep ps) (none, none)).1).map Prod.snd := rfl

lemma better_eq_some {csc : ℕ} {o : Option (ℕ × ℕ)} {e : ℕ × ℕ} (h : better csc c o = some e) :
    e.2 = c ∨ o = some e := by
  cases o with
  | none =>
    obtain rfl := Option.some.inj h
    exact .inl rfl
  | some b =>
    rw [better] at h
    split_ifs at h
    · obtain rfl := Option.some.inj h
      exact .inl rfl
    · exact .inr h

lemma better_ne_none (csc c : ℕ) (o : Option (ℕ × ℕ)) : better csc c o ≠ none := by
  cases o with
  | none => exact Option.some_ne_none _
  | some b =>
    rw [better]
    split_ifs <;> exact Option.some_ne_none _

/-- The columns that are kept are some to take apart, and none is kept only if there is none. -/
structure Kept (ps : PatternRows G E) (cs : List ℕ) (s : Option (ℕ × ℕ) × Option (ℕ × ℕ)) : Prop where
  fst : ∀ e, s.1 = some e → Pivot ps e.2
  snd : ∀ e, s.2 = some e → Pivot ps e.2
  all : s.1 = none → ∀ c ∈ cs, ¬ Pivot ps c

lemma Kept.step {cs : List ℕ} {s : Option (ℕ × ℕ) × Option (ℕ × ℕ)} (h : Kept ps cs s) (c : ℕ) :
    Kept ps (cs ++ [c]) (pivotStep ps s c) := by
  have hkeep : ¬ Pivot ps c → Kept ps (cs ++ [c]) s := fun hc => ⟨h.fst, h.snd, fun hnone =>
    List.forall_mem_append.mpr ⟨h.all hnone, List.forall_mem_singleton.mpr hc⟩⟩
  have hbetter : ∀ {o : Option (ℕ × ℕ)} {csc : ℕ}, Pivot ps c → (∀ e, o = some e → Pivot ps e.2) →
      ∀ e, better csc c o = some e → Pivot ps e.2 := by
    intro o csc hc ho e he
    rcases better_eq_some he with rfl | he
    · exact hc
    · exact ho e he
  rw [pivotStep]
  split
  · rename_i hp
    refine hkeep fun hc => ?_
    obtain ⟨p, hp', -⟩ := hc
    rw [hp] at hp'
    cases hp'
  · rename_i y vn hp
    refine hkeep fun hc => ?_
    obtain ⟨p, hp', hany⟩ := hc
    obtain rfl := Option.some.inj (hp.symm.trans hp')
    cases hany
  · rename_i p hwild hp
    have hc : Pivot ps c := by
      refine ⟨p, hp, ?_⟩
      cases p with
      | any y vn => exact absurd rfl (hwild y vn)
      | _ => rfl
    refine ⟨hbetter hc h.fst, ?_, fun hnone => ?_⟩
    · simp only
      split_ifs
      exacts [hbetter hc h.snd, h.snd]
    · exact absurd hnone (better_ne_none _ _ _)

lemma kept_pivot : Kept ps (List.range (width ps)) ((List.range (width ps)).foldl (pivotStep ps) (none, none)) := by
  have hall : ∀ (rest done : List ℕ) (s : Option (ℕ × ℕ) × Option (ℕ × ℕ)), Kept ps done s →
      Kept ps (done ++ rest) (rest.foldl (pivotStep ps) s) := by
    intro rest
    induction rest with
    | nil => exact fun done s h => by rwa [List.append_nil]
    | cons c rest ih =>
      intro done s h
      have := ih (done ++ [c]) _ (h.step c)
      rwa [List.append_assoc] at this
  refine hall _ [] _ ⟨fun e he => ?_, fun e he => ?_, fun _ => List.forall_mem_nil _⟩
  · cases he
  · cases he

lemma pivot_of_choosePivotColumn (h : choosePivotColumn ps = some c) : Pivot ps c := by
  rw [choosePivotColumn_eq] at h
  obtain ⟨e, he, rfl⟩ := Option.map_eq_some_iff.mp h
  rcases Option.or_eq_some_iff.mp he with he | ⟨-, he⟩
  · exact kept_pivot.snd e he
  · exact kept_pivot.fst e he

/-- The first row matches all, if there is no column to take apart. -/
lemma isAny_of_choosePivotColumn (h : choosePivotColumn ps = none) {r : PatternRow G E} (hr : ps.head? = some r) :
    ∀ p ∈ r.patterns, p.isAny = true := by
  rw [choosePivotColumn_eq, Option.map_eq_none_iff, Option.or_eq_none_iff] at h
  intro p hp
  by_contra hany
  obtain ⟨i, hi, rfl⟩ := List.mem_iff_getElem.mp hp
  have hwidth : width ps = r.patterns.length := by
    cases ps with
    | nil => cases hr
    | cons r' tail =>
      obtain rfl := Option.some.inj hr
      rfl
  refine kept_pivot.all h.2 i (List.mem_range.mpr (hwidth ▸ hi)) ⟨_, ?_, Bool.eq_false_iff.mpr hany⟩
  rw [headPattern, hr, Option.bind_some, List.getElem?_eq_getElem hi]

lemma TableOk.exists_column (h : TableOk xs ps) {p : Pattern} (hp : InColumn ps c p) : ∃ x, xs[c]? = some x := by
  obtain ⟨r, hr, hp⟩ := hp
  obtain ⟨x, hx, -⟩ := forall₂_getElem?_right (h.placed r hr) hp
  exact ⟨x, hx⟩

lemma accepts_of_isAny {r : PatternRow G E} {vs : List Value} (h : ∀ p ∈ r.patterns, p.isAny = true)
    (hlen : r.patterns.length = vs.length) : r.accepts guards vs = r.guard.all guards := by
  rw [PatternRow.accepts, Pattern.acceptsAll_of_isAny h hlen, Bool.true_and]

/-- A guard decides between the first row and the others. -/
lemma handles_guard {r : PatternRow G E} {tail : PatternRows G E} {g : G} {finish guardS next : ℕ}
    {states : List (MState G E)} (hok : TableOk xs (r :: tail)) (hany : ∀ p ∈ r.patterns, p.isAny = true)
    (hg : r.guard = some g) (hfinish : states[finish]? = some (.finishExpr r.result))
    (hguardS : states[guardS]? = some (.switchVal .guardCheck [(.bool true, finish)] next))
    (hnext : CorrectAt guards xs tail next states) :
    Handles guards states xs (r :: tail) (fun _ _ => True) (.loadVars [(.guardCheck, .guard g)] guardS) := by
  intro env vs hin _
  obtain ⟨st, hst, hhandles⟩ := hnext
  let env' : Env := Function.update env .guardCheck (some (.prim (.bool (guards g))))
  have hcheck : env' .guardCheck = some (.prim (.bool (guards g))) := Function.update_self _ _ _
  have hin' : Input xs tail env' vs := by
    obtain ⟨ts, hts, hvs⟩ := hin.typed
    refine ⟨⟨ts, fun r' hr' => hts r' (List.mem_cons_of_mem _ hr'), hvs⟩, hin.bound.of_agree fun x hx => ?_⟩
    refine Function.update_of_ne (fun heq => hok.notGuard x hx ?_) _ _
    rw [heq]
    exact .refl
  have hacc : r.accepts guards vs = guards g := by
    rw [accepts_of_isAny hany ((hok.length_eq List.mem_cons_self).trans hin.bound.length_eq), hg]
    rfl
  have hload : loadAll guards [(.guardCheck, .guard g)] env = some env' := rfl
  refine .load hload hguardS ?_
  cases hcase : guards g with
  | true =>
    rw [firstMatch_cons_of_accepts (hacc.trans hcase)]
    rw [hcase] at hcheck
    exact .val hcheck hfinish .finish
  | false =>
    rw [firstMatch_cons_of_not_accepts (hacc.trans hcase)]
    rw [hcase] at hcheck
    exact .val hcheck hst (hhandles env' vs hin' trivial)

lemma TableOk.column_of_can (h : TableOk xs ps) (hc : canMakeCharArrStateAtColumn ps = some c) :
    canMakeCharArrayState ps c = true ∧ ∃ x, xs[c]? = some x := by
  have hlt := List.mem_range.mp (List.mem_of_find?_eq_some hc)
  rw [h.width_eq] at hlt
  exact ⟨List.find?_some hc, xs[c], List.getElem?_eq_getElem hlt⟩

lemma TableOk.tail {r : PatternRow G E} (h : TableOk xs (r :: ps)) (hne : ps ≠ []) : TableOk xs ps := by
  obtain ⟨ts, hts⟩ := h.typed
  exact ⟨hne, h.apart, h.notGuard, fun r' hr' => h.placed r' (List.mem_cons_of_mem r hr'), ts,
    fun r' hr' => hts r' (List.mem_cons_of_mem r hr')⟩

variable [DecidableEq G] [DecidableEq E]

lemma spec_makeSuccState (hmk : MakesStates guards mk) (hok : TableOk xs ps) (hc : Pivot ps c) :
    Spec (Good guards) (fun _ => True) (makeSuccState mk ps c)
      fun st states => Handles guards states xs ps (fun _ _ => True) st := by
  obtain ⟨p, hp, hany⟩ := hc
  obtain ⟨x, hx⟩ := hok.exists_column (inColumn_headPattern hp)
  rw [makeSuccState, hp]
  cases p with
  | any y vn => cases hany
  | literal y q => exact spec_makeLiteralState hmk hok hx hp
  | array y qs => exact spec_makeArrayState hmk hok hx hp
  | record y fs => exact spec_makeRecordState hmk hok hx hp
  | variant y lbl q => exact spec_makeVariantState hmk hok hx hp

/-! ### The end of a match -/

lemma spec_makeFinishState (hmk : MakesStates guards mk) (hok : TableOk xs ps)
    (hany : ∀ r, ps.head? = some r → ∀ p ∈ r.patterns, p.isAny = true) :
    Spec (Good guards) (fun _ => True) (makeFinishState mk ps) (CorrectAt guards xs ps) := by
  cases ps with
  | nil => exact absurd rfl hok.nonempty
  | cons r tail =>
    have hany := hany r rfl
    rw [makeFinishState]
    split
    · rename_i hg
      refine (spec_addState_handles _).imp (fun states _ => ?_) fun _ _ h => h
      intro env vs hin _
      have hacc : r.accepts guards vs = true := by
        rw [accepts_of_isAny hany ((hok.length_eq List.mem_cons_self).trans hin.bound.length_eq), hg]
        rfl
      rw [firstMatch_cons_of_accepts hacc]
      exact .finish
    · rename_i g hg
      refine ((spec_addState .true _).imp (fun _ h => h) fun _ _ h => h.1).bind fun finish => ?_
      split_ifs with htail
      · exact Spec.throw
      have hok' : TableOk xs tail := hok.tail (by simpa using htail)
      have hstays : ∀ s (st : MState G E), Stays fun states => states[s]? = some st :=
        fun _ _ _ _ hpre h => getElem?_of_prefix hpre h
      have hmk' := (hmk xs tail hok').frame (hstays finish (.finishExpr r.result))
      refine (hmk'.imp (fun _ h => ⟨trivial, h⟩) fun _ _ h => h).bind fun next => ?_
      have hfound : Stays fun states => CorrectAt guards xs tail next states ∧
          states[finish]? = some (MState.finishExpr (G := G) r.result) :=
        fun _ _ hpre h => ⟨h.1.mono hpre, hstays _ _ _ _ hpre h.2⟩
      refine (spec_addState hfound (.switchVal .guardCheck [(.bool true, finish)] next)).bind fun guardS =>
        (spec_addState_handles _).imp (fun states h => ?_) fun _ _ h => h
      exact handles_guard hok hany hg h.2.2 h.1 h.2.1

/-! ### The compiler -/

lemma spec_makeDFAState (fuel : ℕ) : MakesStates guards (makeDFAState fuel : PatternRows G E → Make G E ℕ) := by
  induction fuel with
  | zero => exact fun xs ps _ => Spec.throw
  | succ fuel ih =>
    intro xs₀ xps hok₀
    obtain ⟨xs, hok, hused, hdropped⟩ := @dropUnusedColumns_ok G E guards xps xs₀ hok₀
    refine Spec.imp (P := fun _ => True) (Q := CorrectAt guards xs (dropUnusedColumns xps)) ?_ (fun _ h => h) hdropped
    rw [makeDFAState]
    simp only
    split
    · rename_i c hc
      obtain ⟨hcan, x, hx⟩ := hok.column_of_can hc
      exact (spec_makeCharArrayState ih hok hx hcan).bind fun st => spec_addState_handles st
    · refine (spec_findTable hok hused).bind fun o => ?_
      cases o with
      | some s => exact Spec.pure fun states h => h s rfl
      | none =>
        have hremember : ∀ s, Spec (Good guards) (CorrectAt guards xs (dropUnusedColumns xps) s)
            (do
              remember (dropUnusedColumns xps) s
              return s) (CorrectAt guards xs (dropUnusedColumns xps)) :=
          fun s => (spec_remember hok hused s).bind fun _ => Spec.pure fun _ h => h
        refine Spec.imp (P := fun _ => True) ?_ (fun _ _ => trivial) fun _ _ h => h
        simp only
        split
        · rename_i c hc
          exact (spec_makeSuccState ih hok (pivot_of_choosePivotColumn hc)).bind fun st =>
            (spec_addState_handles st).bind hremember
        · rename_i hc
          exact (spec_makeFinishState ih hok fun r hr => isAny_of_choosePivotColumn hc hr).bind hremember

end Hobbes.Match.Table
