import Hobbes.Core.Lists
import Hobbes.Core.Saturation
import Hobbes.Regex.EquivStates

/-!
# The functions made for a DFA

A DFA is run by a function of a character's place, the end of the string and a state. The function is either compiled,
with an expression for each state that looks at a character, or it walks through a table of the transitions. The
expressions for a character are of a few forms: a switch on it, or checks of it as a byte, one range after the other.
What they come to is a result, or a call for the next state. Capture variables are left out.
-/

namespace Hobbes.Regex

open Core

/-! ### Expressions -/

/-- What the expression for a state comes to. -/
inductive Next where
  | result (x : BitVec 32)
  | toState (s : ℕ)

/-- The character as a byte, or a constant. -/
inductive ByteExpr where
  | char
  | const (x : UInt8)

namespace ByteExpr

def eval (c : UInt8) : ByteExpr → UInt8
  | char => c
  | const x => x

end ByteExpr

inductive RangeTest where
  | true
  | blte (l r : ByteExpr)
  | beq (l r : ByteExpr)
  | and (l r : RangeTest)

def RangeTest.eval (c : UInt8) : RangeTest → Bool
  | .true => Bool.true
  | .blte l r => l.eval c ≤ r.eval c
  | .beq l r => l.eval c == r.eval c
  | .and l r => l.eval c && r.eval c

/-- A chain of conditionals. -/
inductive Checks where
  | otherwise (n : Next)
  | ite (test : RangeTest) (n : Next) (rest : Checks)

def Checks.eval (c : UInt8) : Checks → Next
  | .otherwise n => n
  | .ite test n rest => if test.eval c then n else rest.eval c

inductive Dispatch where
  | next (n : Next)
  | switch (cs : List (UInt8 × Next)) (dflt : Next)
  | letByte (checks : Checks)

/-- `elem` is what is read at the character's place, if it can be read. -/
def Dispatch.eval (elem : Option UInt8) : Dispatch → Option Next
  | .next n => some n
  | .switch cs dflt => elem.map fun c => (cs.lookup c).getD dflt
  | .letByte checks => elem.map checks.eval

/-! ### Compiled states -/

lemma toNat_sub_succ_lt {t e : UInt8} (h : ¬ t = e) : (e - (t + 1)).toNat < (e - t).toNat := by
  have ht := t.toNat_lt
  have he := e.toNat_lt
  have hne : t.toNat ≠ e.toNat := fun heq => h (UInt8.toNat_inj.mp heq)
  rw [UInt8.toNat_sub, UInt8.toNat_sub, UInt8.toNat_add, UInt8.toNat_one]
  omega

/-- `copyRange`, the keys from `t` on. -/
def copyRange (t e : UInt8) : List UInt8 := t :: if t = e then [] else copyRange (t + 1) e
termination_by (e - t).toNat
decreasing_by
  rename_i hne
  exact toNat_sub_succ_lt hne

/-- `keys`, a set. -/
def RangeMap.keys (m : RangeMap UInt8 ℕ) : List UInt8 :=
  m.foldl (fun ks r => insertAll (· ≤ ·) ks (copyRange r.1.1 r.1.2)) []

def transitionAsCharSwitch (s : DFAState) (defaultResult : Next) : Option Dispatch := do
  let cs ← s.chars.keys.mapM fun tc => (s.chars.lookup tc).map fun t => (tc, Next.toState t)
  return .switch cs defaultResult

def charInRange (crange : Range UInt8) : RangeTest :=
  if crange.1 = 0 ∧ crange.2 = 255 then .true
  else if crange.1 = 0 then .blte .char (.const crange.2)
  else if crange.1 = crange.2 then .beq .char (.const crange.1)
  else .and (.blte (.const crange.1) .char) (.blte .char (.const crange.2))

def transitionAsRangeChecks (ranges : List (Range UInt8 × ℕ)) (defaultResult : Next) : Dispatch :=
  .letByte (ranges.foldr (fun r result => .ite (charInRange r.1) (.toState r.2) result) (.otherwise defaultResult))

/-- The sum of the ranges' lengths is compared in place of their average. -/
def transitionMapping (s : DFAState) (defaultResult : Next) : Option Dispatch :=
  match s.chars with
  | [] => some (.next defaultResult)
  | [((0, 255), t)] => some (.next (.toState t))
  | rtns =>
    if (rtns.map fun r => 1 + r.1.2.toNat - r.1.1.toNat).sum ≤ 2 * rtns.length then
      transitionAsCharSwitch s defaultResult
    else some (transitionAsRangeChecks rtns defaultResult)

/-- An accept value as an `int`. -/
def accValue : Option ℕ → BitVec 32
  | none => -1
  | some a => BitVec.ofNat 32 a

/-- One case of the function's switch on states. -/
structure StateCase where
  acc : BitVec 32
  dispatch : Dispatch

/-- The way in which a state's transitions are compiled. -/
abbrev Mapping := DFAState → Next → Option Dispatch

def makeExprDFAFunc (mapping : Mapping) (dfa : DFA) : Option (List StateCase) :=
  dfa.mapM fun s => (mapping s (.result (-1))).map fun d => ⟨accValue s.acc, d⟩

/-- A call of the function. -/
def callExprDFAFunc (bs : List StateCase) (cs : List UInt8) (e : ℕ) : ℕ → ℕ → ℕ → Option (BitVec 32)
  | 0, _, _ => none
  | fuel + 1, i, s =>
    match bs[s]? with
    | none => some (-1)
    | some b =>
      if i = e then some b.acc
      else do
        match ← b.dispatch.eval cs[i]? with
        | .result x => return x
        | .toState t => callExprDFAFunc bs cs e fuel (i + 1) t

/-! ### Interpreted states -/

structure DFAStateRep where
  transitions : List (Range UInt8 × ℕ)
  acc : BitVec 32

def makeDFARep (dfa : DFA) : List DFAStateRep := dfa.map fun s => ⟨s.chars, accValue s.acc⟩

def nextRegexDFAState (c : UInt8) (cps : List (Range UInt8 × ℕ)) (i : ℕ) : Option ℕ :=
  if i = cps.length then some i
  else
    match h : cps[i]? with
    | none => none
    | some cp =>
      if c < cp.1.1 then some cps.length
      else if c ≤ cp.1.2 then some i
      else nextRegexDFAState c cps (i + 1)
termination_by cps.length - i
decreasing_by
  obtain ⟨hlt, -⟩ := List.getElem?_eq_some_iff.mp h
  omega

def runRegexDFA (cs : List UInt8) (e : ℕ) (dfa : List DFAStateRep) : ℕ → ℕ → ℕ → Option (BitVec 32)
  | 0, _, _ => none
  | fuel + 1, i, s => do
    let st ← dfa[s]?
    if i = e then return st.acc
    else
      let c ← cs[i]?
      let ns ← nextRegexDFAState c st.transitions 0
      if ns < st.transitions.length then
        let cp ← st.transitions[ns]?
        runRegexDFA cs e dfa fuel (i + 1) cp.2
      else return -1

/-! ### The function that is made -/

inductive DFAFunc where
  | compiled (bs : List StateCase)
  | interpreted (rep : List DFAStateRep)

def makeDFAFunc (isUnit : Bool) (dfa : DFA) : Option DFAFunc :=
  if dfa.length < 1000 ∨ ¬ isUnit then (makeExprDFAFunc transitionMapping dfa).map .compiled
  else some (.interpreted (makeDFARep dfa))

def DFAFunc.call (f : DFAFunc) (cs : List UInt8) (e fuel i s : ℕ) : Option (BitVec 32) :=
  match f with
  | .compiled bs => callExprDFAFunc bs cs e fuel i s
  | .interpreted rep => runRegexDFA cs e rep fuel i s

/-- The value that a DFA accepts a string with from a state on. -/
def DFA.accepted (dfa : DFA) (s : ℕ) (cs : List UInt8) : BitVec 32 :=
  match dfa.run s cs with
  | none => -1
  | some r => accValue r.2

/-! ### Transitions -/

open RangeMap

lemma contains_iff_toNat {r : Range UInt8} {c : UInt8} :
    r.Contains c ↔ r.1.toNat ≤ c.toNat ∧ c.toNat ≤ r.2.toNat := Iff.rfl

lemma mem_copyRange {t e c : UInt8} (h : t.toNat ≤ e.toNat) :
    c ∈ copyRange t e ↔ t.toNat ≤ c.toNat ∧ c.toNat ≤ e.toNat := by
  fun_induction copyRange t e with
  | case1 t ih =>
    by_cases hte : t = e
    · rw [if_pos hte, hte, List.mem_singleton, ← UInt8.toNat_inj]
      omega
    · have hlt : t.toNat < e.toNat := lt_of_le_of_ne h fun heq => hte (UInt8.toNat_inj.mp heq)
      have hsucc : (t + 1).toNat = t.toNat + 1 := LawfulRangeOrd.rank_succ (a := t) (b := e) hlt
      rw [if_neg hte, List.mem_cons, ih hte (by omega), ← UInt8.toNat_inj]
      omega

lemma valueAt_ne_none_iff {m : RangeMap UInt8 ℕ} {c : UInt8} :
    m.valueAt c ≠ none ↔ ∃ r ∈ m, r.1.Contains c := by
  induction m with
  | nil => simp [valueAt]
  | cons r m ih =>
    rw [valueAt, List.exists_mem_cons_iff]
    split_ifs with hc
    · simp [hc]
    · simp [hc, ih]

lemma mem_keys {m : RangeMap UInt8 ℕ} (h : ∀ r ∈ m, r.1.Nonempty) {c : UInt8} :
    c ∈ m.keys ↔ m.valueAt c ≠ none := by
  have hfold : ∀ (rs : RangeMap UInt8 ℕ) (ks : List UInt8), (∀ r ∈ rs, r.1.Nonempty) →
      (c ∈ rs.foldl (fun ks r => insertAll (· ≤ ·) ks (copyRange r.1.1 r.1.2)) ks ↔
        c ∈ ks ∨ ∃ r ∈ rs, r.1.Contains c) := by
    intro rs
    induction rs with
    | nil => simp
    | cons r rs ih =>
      intro ks hrs
      obtain ⟨hr, hrs⟩ := List.forall_mem_cons.mp hrs
      rw [List.foldl_cons, ih _ hrs, mem_insertAll, mem_copyRange hr, List.exists_mem_cons_iff, or_assoc]
      rfl
  rw [valueAt_ne_none_iff, keys, hfold m [] h]
  simp

lemma eval_charInRange (r : Range UInt8) (c : UInt8) : (charInRange r).eval c = true ↔ r.Contains c := by
  have hc := c.toNat_lt
  rw [contains_iff_toNat, charInRange]
  split_ifs with hall hzero hone
  · rw [hall.1, hall.2]
    exact iff_of_true rfl ⟨Nat.zero_le _, Nat.le_of_lt_succ hc⟩
  · rw [hzero]
    simp [RangeTest.eval, ByteExpr.eval, UInt8.le_iff_toNat_le]
  · rw [hone]
    simp only [RangeTest.eval, ByteExpr.eval, beq_iff_eq, ← UInt8.toNat_inj]
    omega
  · simp [RangeTest.eval, ByteExpr.eval, UInt8.le_iff_toNat_le]

/-- What a state does with a character, if its transitions are looked up in the table. -/
def DFAState.next (s : DFAState) (defaultResult : Next) (c : UInt8) : Next :=
  ((s.chars.valueAt c).map Next.toState).getD defaultResult

/-- A way of compiling transitions that does what they say. -/
def Mapping.Ok (mapping : Mapping) : Prop :=
  ∀ (s : DFAState) (dflt : Next), Sorted s.chars.ranges →
    ∃ d, mapping s dflt = some d ∧ ∀ c, d.eval (some c) = some (s.next dflt c)

lemma nonempty_of_sortedFrom {n : ℕ} {m : RangeMap UInt8 ℕ} (h : SortedFrom n m.ranges) : ∀ r ∈ m, r.1.Nonempty := by
  induction m generalizing n with
  | nil => simp
  | cons r m ih => exact List.forall_mem_cons.mpr ⟨h.2.1, ih h.2.2⟩

/-- What is found in a list that has an entry for each of some keys. -/
lemma lookup_of_mapM {g : UInt8 → Option ℕ} {ks : List UInt8} {cs : List (UInt8 × Next)}
    (h : ks.mapM (fun k => (g k).map fun t => (k, Next.toState t)) = some cs) (c : UInt8) :
    cs.lookup c = if c ∈ ks then (g c).map Next.toState else none := by
  rw [mapM_eq_some] at h
  induction h with
  | nil => rfl
  | @cons k p ks cs hk _ ih =>
    obtain ⟨t, ht, rfl⟩ := Option.map_eq_some_iff.mp hk
    by_cases hc : c = k
    · rw [hc, List.lookup_cons_self, if_pos List.mem_cons_self, ht]
      rfl
    · rw [List.lookup_cons, beq_false_of_ne hc, ih]
      simp only [List.mem_cons, hc, false_or]

lemma transitionAsCharSwitch_ok : Mapping.Ok transitionAsCharSwitch := by
  intro s dflt hs
  have hlookup : ∀ c, s.chars.lookup c = s.chars.valueAt c := lookup_eq_valueAt hs.sortedFrom
  have hkeys : ∀ {c}, c ∈ s.chars.keys ↔ s.chars.valueAt c ≠ none := mem_keys (nonempty_of_sortedFrom hs.sortedFrom)
  have hsome : ∀ tc ∈ s.chars.keys, ∃ p, (s.chars.lookup tc).map (fun t => (tc, Next.toState t)) = some p := by
    intro tc htc
    obtain ⟨t, ht⟩ := Option.ne_none_iff_exists'.mp (hkeys.mp htc)
    exact ⟨(tc, .toState t), by rw [hlookup, ht]; rfl⟩
  obtain ⟨cs, hcs⟩ := exists_mapM hsome
  refine ⟨.switch cs dflt, by rw [transitionAsCharSwitch, hcs]; rfl, fun c => ?_⟩
  have hc : cs.lookup c = (s.chars.valueAt c).map Next.toState := by
    rw [lookup_of_mapM hcs, hlookup]
    split_ifs with hmem
    · rfl
    · rw [not_not.mp fun hne => hmem (hkeys.mpr hne)]
      rfl
  rw [Dispatch.eval, Option.map_some, hc, DFAState.next]

lemma transitionAsRangeChecks_ok : Mapping.Ok fun s dflt => some (transitionAsRangeChecks s.chars dflt) := by
  intro s dflt _
  refine ⟨_, rfl, fun c => ?_⟩
  have hchecks : ∀ m : RangeMap UInt8 ℕ,
      (m.foldr (fun r result => Checks.ite (charInRange r.1) (.toState r.2) result) (.otherwise dflt)).eval c =
        ((m.valueAt c).map Next.toState).getD dflt := by
    intro m
    induction m with
    | nil => rfl
    | cons r m ih =>
      rw [List.foldr_cons, Checks.eval, valueAt, ih]
      by_cases hc : r.1.Contains c
      · rw [if_pos ((eval_charInRange r.1 c).mpr hc), if_pos hc]
        rfl
      · rw [if_neg (fun h => hc ((eval_charInRange r.1 c).mp h)), if_neg hc]
  exact congrArg some (hchecks s.chars)

lemma transitionMapping_ok : Mapping.Ok transitionMapping := by
  intro s dflt hs
  unfold transitionMapping
  split
  · rename_i hnil
    exact ⟨_, rfl, fun c => by rw [DFAState.next, hnil]; rfl⟩
  · rename_i t hall
    refine ⟨_, rfl, fun c => ?_⟩
    have hc : Range.Contains ((0 : UInt8), (255 : UInt8)) c := ⟨Nat.zero_le _, Nat.le_of_lt_succ c.toNat_lt⟩
    rw [DFAState.next, hall, valueAt, if_pos hc]
    rfl
  · split_ifs
    · exact transitionAsCharSwitch_ok s dflt hs
    · exact transitionAsRangeChecks_ok s dflt hs

/-! ### Runs -/

section

variable {dfa : DFA} {cs : List UInt8} {e : ℕ}

lemma accepted_nil {s : ℕ} {sd : DFAState} (hs : dfa[s]? = some sd) : dfa.accepted s [] = accValue sd.acc := by
  rw [DFA.accepted, DFA.run, hs]
  rfl

lemma accepted_cons (hdfa : dfa.WellFormed) {s : ℕ} {sd : DFAState} (hs : dfa[s]? = some sd) (c : UInt8)
    (w : List UInt8) : dfa.accepted s (c :: w) =
      match sd.next (.result (-1)) c with
      | .result x => x
      | .toState t => dfa.accepted t w := by
  rw [DFA.accepted, DFA.run_cons hdfa hs, DFAState.next]
  cases sd.chars.valueAt c with
  | none => rfl
  | some t =>
    simp only [Option.bind_some, Option.map_some, Option.getD_some, DFA.accepted]
    cases dfa.run t w <;> rfl

/-- What is left of the string at a place before its end. -/
lemma rest_cons {i : ℕ} (hi : i < e) (he : e ≤ cs.length) :
    ∃ c, cs[i]? = some c ∧ (cs.take e).drop i = c :: (cs.take e).drop (i + 1) := by
  have hlt : i < (cs.take e).length := by
    rw [List.length_take]
    omega
  refine ⟨cs[i], List.getElem?_eq_getElem (by omega), ?_⟩
  rw [List.drop_eq_getElem_cons hlt, List.getElem_take]

lemma next_lt (hdfa : dfa.WellFormed) {sd : DFAState} (hsd : sd ∈ dfa) {c : UInt8} {t : ℕ}
    (h : sd.next (.result (-1)) c = .toState t) : t < dfa.length := by
  rw [DFAState.next] at h
  cases hv : sd.chars.valueAt c with
  | none =>
    rw [hv] at h
    cases h
  | some t' =>
    rw [hv] at h
    cases h
    obtain ⟨r, hr⟩ := DFA.mem_of_valueAt hv
    exact (hdfa sd hsd).2 _ hr

/-- The compiled function does what the table says, if the transitions of each state are compiled to do so. -/
lemma callExprDFAFunc_eq (hdfa : dfa.WellFormed) {mapping : Mapping} (hmapping : mapping.Ok) {bs : List StateCase}
    (hbs : makeExprDFAFunc mapping dfa = some bs) (he : e ≤ cs.length) {fuel : ℕ} :
    ∀ {i s : ℕ}, i ≤ e → e < i + fuel → s < dfa.length →
      callExprDFAFunc bs cs e fuel i s = some (dfa.accepted s ((cs.take e).drop i)) := by
  have hcase : ∀ {s : ℕ} {sd : DFAState}, dfa[s]? = some sd → ∃ d : Dispatch, bs[s]? = some ⟨accValue sd.acc, d⟩ ∧
      ∀ c, d.eval (some c) = some (sd.next (.result (-1)) c) := by
    intro s sd hs
    obtain ⟨d, hd, heval⟩ := hmapping sd (.result (-1)) (hdfa sd (List.mem_of_getElem? hs)).1
    refine ⟨d, ?_, heval⟩
    rw [getElem?_of_mapM hbs s, hs, Option.bind_some, hd]
    rfl
  induction fuel with
  | zero => exact fun hi hfuel => absurd hfuel (by omega)
  | succ fuel ih =>
    intro i s hi hfuel hs
    have hsd := List.getElem?_eq_getElem hs
    obtain ⟨d, hd, heval⟩ := hcase hsd
    rw [callExprDFAFunc, hd]
    simp only [Option.bind_eq_bind, Option.pure_def]
    by_cases hie : i = e
    · rw [if_pos hie, hie, List.drop_of_length_le (List.length_take_le e cs), accepted_nil hsd]
    · obtain ⟨c, hc, hrest⟩ := rest_cons (lt_of_le_of_ne hi hie) he
      rw [if_neg hie, hc, heval, hrest, accepted_cons hdfa hsd]
      cases hnext : dfa[s].next (.result (-1)) c with
      | result x => rfl
      | toState t => exact ih (by omega) (by omega) (next_lt hdfa (List.mem_of_getElem? hsd) hnext)

/-- Going through the ranges in order finds the one with the character, or that there is none. -/
lemma nextRegexDFAState_eq {c : UInt8} {m : RangeMap UInt8 ℕ} {n i : ℕ} (hm : SortedFrom n (ranges (m.drop i)))
    (hi : i ≤ m.length) : ∃ ns, nextRegexDFAState c m i = some ns ∧ (m[ns]?).map Prod.snd = valueAt (m.drop i) c := by
  rw [nextRegexDFAState]
  by_cases hlen : i = m.length
  · refine ⟨i, if_pos hlen, ?_⟩
    rw [hlen, List.getElem?_eq_none le_rfl, List.drop_length]
    rfl
  · have hlt : i < m.length := lt_of_le_of_ne hi hlen
    have hget := List.getElem?_eq_getElem hlt
    have hdrop := List.drop_eq_getElem_cons hlt
    rw [hdrop] at hm ⊢
    obtain ⟨-, hr, hm⟩ := hm
    rw [if_neg hlen, valueAt]
    split
    · rename_i hnone
      rw [hget] at hnone
      cases hnone
    · rename_i cp hcp
      rw [hget] at hcp
      cases hcp
      by_cases hbelow : c < m[i].1.1
      · have hlt' := UInt8.lt_iff_toNat_lt.mp hbelow
        have hc : ¬ m[i].1.Contains c := fun hc => absurd hlt' (not_lt.mpr hc.1)
        have hnone : valueAt (m.drop (i + 1)) c = none :=
          valueAt_eq_none hm (Nat.lt_succ_of_lt (lt_of_lt_of_le hlt' hr))
        rw [if_pos hbelow, if_neg hc, hnone]
        exact ⟨m.length, rfl, by rw [List.getElem?_eq_none le_rfl]; rfl⟩
      · rw [if_neg hbelow]
        by_cases hupto : c ≤ m[i].1.2
        · have hc : m[i].1.Contains c :=
            ⟨not_lt.mp (mt UInt8.lt_iff_toNat_lt.mpr hbelow), UInt8.le_iff_toNat_le.mp hupto⟩
          rw [if_pos hupto, if_pos hc]
          exact ⟨i, rfl, by rw [hget]; rfl⟩
        · rw [if_neg hupto, if_neg fun hc => hupto (UInt8.le_iff_toNat_le.mpr hc.2)]
          exact nextRegexDFAState_eq hm hlt
termination_by m.length - i

lemma runRegexDFA_eq (hdfa : dfa.WellFormed) (he : e ≤ cs.length) {fuel : ℕ} :
    ∀ {i s : ℕ}, i ≤ e → e < i + fuel → s < dfa.length →
      runRegexDFA cs e (makeDFARep dfa) fuel i s = some (dfa.accepted s ((cs.take e).drop i)) := by
  induction fuel with
  | zero => exact fun hi hfuel => absurd hfuel (by omega)
  | succ fuel ih =>
    intro i s hi hfuel hs
    have hsd := List.getElem?_eq_getElem hs
    have hrep : (makeDFARep dfa)[s]? = some ⟨dfa[s].chars, accValue dfa[s].acc⟩ := by
      rw [makeDFARep, List.getElem?_map, hsd]
      rfl
    simp only [runRegexDFA, hrep, Option.bind_eq_bind, Option.bind_some, Option.pure_def]
    by_cases hie : i = e
    · rw [if_pos hie, hie, List.drop_of_length_le (List.length_take_le e cs), accepted_nil hsd]
    · obtain ⟨c, hc, hrest⟩ := rest_cons (lt_of_le_of_ne hi hie) he
      have hsorted := (hdfa dfa[s] (List.getElem_mem hs)).1.sortedFrom
      obtain ⟨ns, hns, hvalue⟩ := nextRegexDFAState_eq (c := c) (i := 0) hsorted (Nat.zero_le _)
      rw [List.drop_zero] at hvalue
      rw [if_neg hie, hc, hrest, accepted_cons hdfa hsd]
      simp only [Option.bind_some, hns]
      split_ifs with hlt
      · rw [List.getElem?_eq_getElem hlt] at hvalue ⊢
        have hnext : dfa[s].next (.result (-1)) c = .toState (dfa[s].chars[ns]).2 := by
          rw [DFAState.next, ← hvalue]
          rfl
        rw [Option.bind_some, hnext]
        exact ih (by omega) (by omega) (next_lt hdfa (List.getElem_mem hs) hnext)
      · rw [List.getElem?_eq_none (not_lt.mp hlt)] at hvalue
        rw [DFAState.next, ← hvalue]
        rfl

lemma exists_makeExprDFAFunc (hdfa : dfa.WellFormed) {mapping : Mapping} (hmapping : mapping.Ok) :
    ∃ bs, makeExprDFAFunc mapping dfa = some bs := by
  refine exists_mapM fun sd hsd => ?_
  obtain ⟨d, hd, -⟩ := hmapping sd (.result (-1)) (hdfa sd hsd).1
  exact ⟨⟨accValue sd.acc, d⟩, by rw [hd]; rfl⟩

/-- Each way of compiling the transitions gives a function, and its calls come to what the DFA accepts. -/
lemma compiled_eq (hdfa : dfa.WellFormed) {mapping : Mapping} (hmapping : mapping.Ok) (he : e ≤ cs.length)
    {fuel i s : ℕ} (hi : i ≤ e) (hfuel : e < i + fuel) (hs : s < dfa.length) :
    ∃ bs, makeExprDFAFunc mapping dfa = some bs ∧
      callExprDFAFunc bs cs e fuel i s = some (dfa.accepted s ((cs.take e).drop i)) := by
  obtain ⟨bs, hbs⟩ := exists_makeExprDFAFunc hdfa hmapping
  exact ⟨bs, hbs, callExprDFAFunc_eq hdfa hmapping hbs he hi hfuel hs⟩

lemma makeDFAFunc_eq (hdfa : dfa.WellFormed) (isUnit : Bool) (he : e ≤ cs.length) {fuel i s : ℕ} (hi : i ≤ e)
    (hfuel : e < i + fuel) (hs : s < dfa.length) :
    ∃ f, makeDFAFunc isUnit dfa = some f ∧ f.call cs e fuel i s = some (dfa.accepted s ((cs.take e).drop i)) := by
  rw [makeDFAFunc]
  split_ifs with hsize
  · obtain ⟨bs, hbs, hcall⟩ := compiled_eq hdfa transitionMapping_ok he hi hfuel hs
    exact ⟨.compiled bs, by rw [hbs]; rfl, hcall⟩
  · exact ⟨_, rfl, runRegexDFA_eq hdfa he hi hfuel hs⟩

end

/-- From any state and any place of a string, the compiled function comes to what the DFA accepts, whether each state
switches on characters or checks their ranges, or this is chosen for each state, and so do the walk through the table
and the function that is made in the end. -/
theorem runs_the_dfa {dfa : DFA} (hdfa : dfa.WellFormed) {cs : List UInt8} {i e s fuel : ℕ} (hi : i ≤ e)
    (he : e ≤ cs.length) (hs : s < dfa.length) (hfuel : e < i + fuel) :
    (∀ mapping : Mapping, mapping = transitionAsCharSwitch ∨
        mapping = (fun s dflt => some (transitionAsRangeChecks s.chars dflt)) ∨ mapping = transitionMapping →
      ∃ bs, makeExprDFAFunc mapping dfa = some bs ∧
        callExprDFAFunc bs cs e fuel i s = some (dfa.accepted s ((cs.take e).drop i))) ∧
    runRegexDFA cs e (makeDFARep dfa) fuel i s = some (dfa.accepted s ((cs.take e).drop i)) ∧
    ∀ isUnit, ∃ f, makeDFAFunc isUnit dfa = some f ∧
      f.call cs e fuel i s = some (dfa.accepted s ((cs.take e).drop i)) := by
  refine ⟨fun mapping hmapping => compiled_eq hdfa ?_ he hi hfuel hs, runRegexDFA_eq hdfa he hi hfuel hs,
    fun isUnit => makeDFAFunc_eq hdfa isUnit he hi hfuel hs⟩
  rcases hmapping with rfl | rfl | rfl
  · exact transitionAsCharSwitch_ok
  · exact transitionAsRangeChecks_ok
  · exact transitionMapping_ok

/-- Letters up to `c`, then anything, run on `bz`. -/
theorem runs_the_dfa_letters :
    let dfa : DFA := [⟨[((97, 99), 1)], none, [], []⟩, ⟨[((0, 255), 1)], some 7, [], []⟩]
    dfa.WellFormed ∧ dfa.accepted 0 [98, 122] = 7 ∧
      runRegexDFA [98, 122] 2 (makeDFARep dfa) 3 0 0 = some (dfa.accepted 0 [98, 122]) :=
  have hdfa : DFA.WellFormed [⟨[((97, 99), 1)], none, [], []⟩, ⟨[((0, 255), 1)], some 7, [], []⟩] := by decide +kernel
  have hlen : 2 ≤ ([98, 122] : List UInt8).length := le_rfl
  ⟨hdfa, by decide +kernel,
    (runs_the_dfa hdfa (i := 0) (s := 0) (Nat.zero_le 2) hlen Nat.zero_lt_two (by decide)).2.1⟩

end Hobbes.Regex
