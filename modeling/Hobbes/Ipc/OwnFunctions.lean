import Hobbes.Ipc.ServerKeeps

/-!
# The functions that a connection runs

The entries of `cnetFns` are what was prepared under a descriptor number, by whichever connection. A
history is what happened, the last first.
-/

namespace Hobbes.Ipc

open Core Lang

variable {κ F : Type} {P : Process κ F} {s : CCServer κ F} {c eid : ℕ} {f : F}

/-! ### Histories -/

/-- The function that the last connection with descriptor `c` has prepared last under `eid`. -/
def own : List (Act F) → ℕ → ℕ → Option F
  | [], _, _ => none
  | .accepted c' :: l, c, eid => if c' = c then none else own l c eid
  | .prepared c' eid' f :: l, c, eid => if c' = c ∧ eid' = eid then some f else own l c eid
  | .indexed _ _ :: l, c, eid => own l c eid
  | .evaluated _ _ _ :: l, c, eid => own l c eid

/-- The entry that was made last under descriptor number `c` and `eid`. -/
def entry : List (Act F) → ℕ → ℕ → Option (Option F)
  | [], _, _ => none
  | .accepted _ :: l, c, eid => entry l c eid
  | .prepared c' eid' f :: l, c, eid => if c' = c ∧ eid' = eid then some (some f) else entry l c eid
  | .indexed c' eid' :: l, c, eid =>
    if c' = c ∧ eid' = eid then some ((entry l c eid).getD none) else entry l c eid
  | .evaluated _ _ _ :: l, c, eid => entry l c eid

/-- Some connection with descriptor `c` has made an entry under `eid`. -/
def HasEntry (l : List (Act F)) (c eid : ℕ) : Prop :=
  .indexed c eid ∈ l ∨ ∃ f, .prepared c eid f ∈ l

lemma entry_of_own {l : List (Act F)} (h : own l c eid = some f) : entry l c eid = some (some f) := by
  induction l with
  | nil => cases h
  | cons a l ih =>
    cases a with
    | accepted c' =>
      rw [own] at h
      split_ifs at h
      exact ih h
    | indexed c' eid' =>
      rw [entry, ih h]
      split_ifs <;> rfl
    | prepared c' eid' f' =>
      rw [own] at h
      rw [entry]
      split_ifs at h ⊢ with hc
      · rw [h]
      · exact ih h
    | evaluated c' eid' o => exact ih h

lemma entry_eq_none {l : List (Act F)} : entry l c eid = none ↔ ¬ HasEntry l c eid := by
  induction l with
  | nil => simp [entry, HasEntry]
  | cons a l ih =>
    cases a with
    | accepted c' => simpa [entry, HasEntry] using ih
    | evaluated c' eid' o => simpa [entry, HasEntry] using ih
    | indexed c' eid' =>
      rw [entry]
      split_ifs with hc
      · simp [HasEntry, hc]
      · rw [ih]
        have hne : ¬ (c = c' ∧ eid = eid') := fun h => hc ⟨h.1.symm, h.2.symm⟩
        simp [HasEntry, hne]
    | prepared c' eid' f' =>
      rw [entry]
      split_ifs with hc
      · simp [HasEntry, hc]
      · rw [ih]
        have hne : ¬ (c = c' ∧ eid = eid') := fun h => hc ⟨h.1.symm, h.2.symm⟩
        simp [HasEntry, hne, ← and_assoc]

/-! ### Histories of servers -/

/-- The table and the outcomes are those of the history. -/
structure Consistent (s : CCServer κ F) : Prop where
  table : ∀ c eid, s.cnetFns c eid = entry s.log c eid
  outcomes : ∀ c eid o l, .evaluated c eid o :: l <:+ s.log → o = .ofEntry (entry l c eid)

lemma Consistent.start (cc : κ) : Consistent (.start cc : CCServer κ F) :=
  ⟨fun _ _ => rfl, fun c eid o l h => by cases List.suffix_nil.mp h⟩

lemma Consistent.remember {a : Act F} {t : CCServer κ F} (h : Consistent s) (hlog : t.log = a :: s.log)
    (htable : ∀ c eid, t.cnetFns c eid = entry (a :: s.log) c eid)
    (ha : ∀ c eid o, a = .evaluated c eid o → o = .ofEntry (entry s.log c eid)) : Consistent t := by
  refine ⟨fun c eid => by rw [hlog]; exact htable c eid, fun c eid o l hl => ?_⟩
  rw [hlog, List.suffix_cons_iff] at hl
  rcases hl with heq | hl
  · obtain ⟨rfl, rfl⟩ := List.cons.inj heq
    exact ha c eid o rfl
  · exact h.outcomes c eid o l hl

lemma Consistent.keptByHandler (c : ℕ) : KeptByHandler (Consistent (κ := κ) (F := F)) c where
  cc _ _ h := ⟨h.table, h.outcomes⟩
  conn _ _ h := ⟨h.table, h.outcomes⟩
  alive _ _ h := ⟨h.table, h.outcomes⟩
  index eid s h := by
    refine h.remember rfl (fun c' eid' => ?_) nofun
    simp only [CCServer.remember, CCServer.index, entry, Function.update_apply, ← h.table]
    grind
  assign eid f s h := by
    refine h.remember rfl (fun c' eid' => ?_) nofun
    simp only [CCServer.remember, CCServer.assign, entry, Function.update_apply, ← h.table]
    grind
  evaluated eid s h := by
    refine h.remember rfl h.table fun c' eid' o ho => ?_
    cases ho
    rw [h.table]

lemma Consistent.step {e : Event} {s' : CCServer κ F} (h : Consistent s)
    (hs : step P e s = some s') : Consistent s' := by
  cases e with
  | accept c inp =>
    simp only [Ipc.step, Option.ite_none_right_eq_some, Option.some.injEq] at hs
    obtain ⟨-, rfl⟩ := hs
    have hconn := (Consistent.keptByHandler c).conn (some ⟨inp, []⟩) s h
    exact keeps_acceptNetREPL (Consistent.keptByHandler c) _
      (hconn.remember rfl hconn.table nofun)
  | ready c =>
    simp only [Ipc.step, Option.ite_none_right_eq_some, Option.some.injEq] at hs
    obtain ⟨-, rfl⟩ := hs
    exact keeps_evaluateNetREPLRequest (Consistent.keptByHandler c) s h

lemma Consistent.of_reachable {cc : κ} (h : Reachable (Ipc.step P) (.start cc) s) : Consistent s :=
  h.invariant (.start cc) fun _ _ _ hs hstep => hs.step hstep

/-! ### Running one's own functions -/

/-- What evaluating `eid` should come to, the connection having prepared `f` last under it. -/
def Outcome.ofOwn (f : Option F) : Outcome F := f.elim closed ran

/-- Whenever a connection asks for an expression, the function that it has prepared last is run, or
the connection is closed if there is none. -/
def RunsOwn (l : List (Act F)) : Prop :=
  ∀ c eid o l', .evaluated c eid o :: l' <:+ l → o = .ofOwn (own l' c eid)

lemma ofEntry_eq_ofOwn {l : List (Act F)} :
    Outcome.ofEntry (entry l c eid) = .ofOwn (own l c eid) ↔
      (own l c eid).isSome ∨ ¬ HasEntry l c eid := by
  rw [← entry_eq_none]
  cases hown : own l c eid with
  | some f => simp [entry_of_own hown, Outcome.ofEntry, Outcome.ofOwn]
  | none =>
    rcases entry l c eid with _ | _ | f <;> simp [Outcome.ofEntry, Outcome.ofOwn]

/-- Connections run their own functions exactly if each asks only for expressions that it has prepared
itself, or that no connection with the same descriptor number has made an entry for. -/
theorem runsOwn_iff {cc : κ} (h : Reachable (Ipc.step P) (.start cc) s) :
    RunsOwn s.log ↔ ∀ c eid o l, .evaluated c eid o :: l <:+ s.log →
      (own l c eid).isSome ∨ ¬ HasEntry l c eid := by
  have houtcomes := (Consistent.of_reachable h).outcomes
  refine forall₄_congr fun c eid o l => imp_congr_right fun hl => ?_
  rw [houtcomes c eid o l hl, ofEntry_eq_ofOwn]

/-- The request to prepare the expression `()` under 0. -/
def prepareUnit : Bytes :=
  [1, 0, 0, 0, 0] ++ writeString [0, 0, 0, 0, 0] ++ writeString (encode (.prim [] none))

/-- The request to evaluate the expression 0. -/
def evaluateZero : Bytes := [2, 0, 0, 0, 0]

/-- A connection prepares an expression and evaluates it. -/
theorem runsOwn_prepared :
    ∃ s, Reachable (step sender) (.start ()) s ∧
      s.log = [.evaluated 3 0 (.ran ()), .prepared 3 0 (), .accepted 3] ∧ RunsOwn s.log := by
  obtain ⟨s, hs, hlog⟩ : ∃ s, runEvents (step sender)
      [.accept 3 ([0, 0, 1, 0] ++ prepareUnit ++ evaluateZero), .ready 3, .ready 3] (.start ()) =
        some s ∧ s.log = [.evaluated 3 0 (.ran ()), .prepared 3 0 (), .accepted 3] := ⟨_, rfl, rfl⟩
  have hreach := Reachable.start.runEvents hs
  refine ⟨s, hreach, hlog, (runsOwn_iff hreach).mpr fun c eid o l hl => ?_⟩
  simp only [hlog, List.suffix_cons_iff, List.suffix_nil, List.cons.injEq, Act.evaluated.injEq,
    reduceCtorEq, false_and, or_false] at hl
  obtain ⟨⟨rfl, rfl, -⟩, rfl⟩ := hl
  exact .inl rfl

/-- A connection prepares an expression and is closed. The next one with the same descriptor number
evaluates it without having prepared anything. -/
theorem not_runsOwn_reused :
    ∃ s, Reachable (step sender) (.start ()) s ∧
      s.log = [.evaluated 3 0 (.ran ()), .accepted 3, .prepared 3 0 (), .accepted 3] ∧
      ¬ RunsOwn s.log := by
  obtain ⟨s, hs, hlog⟩ : ∃ s, runEvents (step sender)
      [.accept 3 ([0, 0, 1, 0] ++ prepareUnit), .ready 3, .ready 3,
        .accept 3 ([0, 0, 1, 0] ++ evaluateZero), .ready 3] (.start ()) = some s ∧
      s.log = [.evaluated 3 0 (.ran ()), .accepted 3, .prepared 3 0 (), .accepted 3] := ⟨_, rfl, rfl⟩
  refine ⟨s, Reachable.start.runEvents hs, hlog, fun h => ?_⟩
  have hran := h 3 0 (.ran ()) [.accepted 3, .prepared 3 0 (), .accepted 3]
    (by simp only [hlog, List.suffix_rfl])
  cases hran

end Hobbes.Ipc
