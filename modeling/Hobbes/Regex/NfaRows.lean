import Hobbes.Regex.NfaLanguage

/-!
# The NFA of some regular expressions

The states of `makeNFA`: its start, and for each row the state that accepts it and those of its expression.
-/

namespace Hobbes.Regex

open Core MarkedNFA MarkedState

variable {nfa nfa' : MarkedNFA} {r : Regex} {self succ n s t x : ℕ} {a : Option UInt8}

/-- A transition of an expression ends at the expression's begin or behind it, or in one of its states. -/
lemma target_of_mem_links (h : (s, a, t) ∈ r.links self succ n) :
    t = self ∨ t = succ ∨ n ≤ t ∧ t < n + r.stateCount := by
  induction r generalizing self succ n with
  | reps => exact .inr (.inl ((eq_of_mem_singleton h).2))
  | rcharRange b e => exact .inr (.inl h.2.2)
  | rstar v ih =>
    rcases h with h | h
    · rcases ih h with h | h | h
      · exact .inl h
      · exact .inl h
      · exact .inr (.inr h)
    · exact .inr (.inl ((eq_of_mem_singleton h).2))
  | reither lhs rhs ihl ihr =>
    rw [stateCount]
    rcases h with ((h | h) | h) | h
    · rcases ihl h with rfl | rfl | h
      · exact .inr (.inr (by omega))
      · exact .inr (.inl rfl)
      · exact .inr (.inr (by omega))
    · rcases ihr h with rfl | rfl | h
      · exact .inr (.inr (by omega))
      · exact .inr (.inl rfl)
      · exact .inr (.inr (by omega))
    · rw [(eq_of_mem_singleton h).2]
      exact .inr (.inr (by omega))
    · rw [(eq_of_mem_singleton h).2]
      exact .inr (.inr (by omega))
  | rseq lhs rhs ihl ihr =>
    rw [stateCount]
    rcases h with h | h
    · rcases ihr h with rfl | rfl | h
      · exact .inr (.inr (by omega))
      · exact .inr (.inl rfl)
      · exact .inr (.inr (by omega))
    · rcases ihl h with rfl | rfl | h
      · exact .inl rfl
      · exact .inr (.inr (by omega))
      · exact .inr (.inr (by omega))
  | rbind var defn ih => exact ih h

/-- A row of the match: its expression, its number, and its accepting state, behind which the expression's are. -/
structure Row where
  regex : Regex
  idx : ℕ
  pos : ℕ

/-- `s` is a state of the row. -/
def Row.Has (row : Row) (s : ℕ) : Prop := row.pos ≤ s ∧ s < row.pos + (2 + row.regex.stateCount)

structure HasRow (nfa : NFA) (row : Row) : Prop where
  pos : 0 < row.pos
  le : row.pos + (2 + row.regex.stateCount) ≤ nfa.length
  acc : nfa.accOf row.pos = some row.idx
  inner : ∀ s, row.pos < s → row.Has s → nfa.accOf s = none
  sink : ∀ a t, t ∉ nfa.automaton.step row.pos a
  begins : Begins nfa.automaton row.regex row.pos (row.pos + 1)

/-- The states are the start and those of the rows. -/
structure HasRows (nfa : NFA) (rows : List Row) : Prop where
  ranged : nfa.Ranged
  pos : 0 < nfa.length
  start : ∀ a t, t ∈ nfa.automaton.step 0 a ↔ a = none ∧ ∃ row ∈ rows, t = row.pos + 1
  row : ∀ row ∈ rows, HasRow nfa row
  cover : ∀ s < nfa.length, s = 0 ∨ ∃ row ∈ rows, row.Has s
  acc : ∀ s i, nfa.accOf s = some i → ∃ row ∈ rows, row.pos = s ∧ row.idx = i
  lt : ∀ s a t, t ∈ nfa.automaton.step s a → t < nfa.length

lemma length_states : nfa.states.length = nfa.length := List.length_map _

lemma NFA.lt_of_step {nfa : NFA} (h : t ∈ nfa.automaton.step s a) : s < nfa.length := by
  obtain ⟨st, hst, -⟩ := h
  exact (List.getElem?_eq_some_iff.mp hst).1

/-- The state that accepts a row. -/
def acceptState (x : ℕ) : MarkedState := { MarkedState.empty with acc := some x }

lemma accOf_append :
    (nfa ++ [acceptState x]).states.accOf s = if s = nfa.length then some x else nfa.states.accOf s := by
  rw [accOf_states, accOf_states]
  split_ifs with hs
  · rw [hs, List.getElem?_concat_length]
    rfl
  · rcases Nat.lt_or_gt_of_ne hs with hlt | hgt
    · rw [List.getElem?_append_left hlt]
    · have hnone : nfa.length + 1 ≤ s := hgt
      rw [List.getElem?_eq_none (by rwa [List.length_append]), List.getElem?_eq_none (Nat.le_of_lt hgt)]

lemma not_step_of_le (hs : nfa.length ≤ s) : t ∉ nfa.states.automaton.step s a :=
  fun h => Nat.not_lt.mpr hs (length_states ▸ NFA.lt_of_step h)

lemma hasRows_empty : HasRows (states [MarkedState.empty]) [] where
  ranged := ranged_states.mpr fun st hst => by
    rw [List.mem_singleton.mp hst]
    trivial
  pos := Nat.one_pos
  start a t := by
    refine iff_of_false (fun h => not_step_of_le (Nat.le_refl 0) ((step_append [] rfl rfl).mp h)) ?_
    rintro ⟨-, row, hrow, -⟩
    exact absurd hrow List.not_mem_nil
  row row hrow := absurd hrow List.not_mem_nil
  cover s hs := .inl (Nat.lt_one_iff.mp hs)
  acc s i h := by
    rcases s with _ | s <;> cases h
  lt s a t h := absurd ((step_append [] rfl rfl).mp h) (not_step_of_le (Nat.zero_le s))

/-- What one more row adds. -/
def rowLinks (r : Regex) (n : ℕ) : Set Link := r.links (n + 1) n (n + 2) ∪ {(0, none, n + 1)}

/-- An expression's row, and a transition to it from the start. -/
def addRow (r : Regex) (x : ℕ) (nfa : MarkedNFA) : MarkedNFA :=
  (accumRegex r x nfa).2.modify 0 (addEps (accumRegex r x nfa).1)

lemma accumRegex_fst : (accumRegex r x nfa).1 = nfa.length + 1 := List.length_append

lemma adds_addRow (hr : r.Proper) (h : nfa.states.Ranged) :
    Adds (nfa ++ [acceptState x]) (addRow r x nfa) (1 + r.stateCount) (rowLinks r nfa.length) := by
  have hranged : (nfa ++ [acceptState x]).states.Ranged := ranged_append h rfl
  have hlen : (nfa ++ [acceptState x]).length = nfa.length + 1 := List.length_append
  have hbefore := adds_regexBefore (fun nfa' self h hself => adds_linkState hr h hself nfa.length x) hranged
  have hstart : 0 < (accumRegex r x nfa).2.length := by
    have hle := Nat.le.intro hbefore.length.symm
    exact Nat.lt_of_lt_of_le (Nat.lt_of_lt_of_eq (Nat.succ_pos _) hlen.symm) hle
  have hall := hbefore.trans (adds_addEps hbefore.ranged hstart (nfa ++ [acceptState x]).length)
  rw [hlen] at hall
  rw [addRow, accumRegex_fst]
  exact hall

/-- Where the transitions are after a row has been added. -/
lemma step_addRow (hr : r.Proper) (h : nfa.states.Ranged) : t ∈ (addRow r x nfa).states.automaton.step s a ↔
    t ∈ nfa.states.automaton.step s a ∨ (s, a, t) ∈ rowLinks r nfa.length := by
  rw [(adds_addRow hr h).step, step_append nfa rfl rfl]

lemma accOf_addRow (hr : r.Proper) (h : nfa.states.Ranged) :
    (addRow r x nfa).states.accOf s = if s = nfa.length then some x else nfa.states.accOf s := by
  rw [(adds_addRow hr h).acc, accOf_append]

lemma length_addRow (hr : r.Proper) (h : nfa.states.Ranged) :
    (addRow r x nfa).states.length = nfa.length + (2 + r.stateCount) := by
  rw [length_states, (adds_addRow hr h).length, List.length_append, List.length_singleton]
  omega

lemma source_of_mem_rowLinks (h : (s, a, t) ∈ rowLinks r n) : s = 0 ∨ n < s ∧ s < n + (2 + r.stateCount) := by
  rcases h with h | h
  · rcases source_of_mem_links h with rfl | hs
    · exact .inr (by omega)
    · exact .inr (by omega)
  · exact .inl (congrArg Prod.fst h)

/-- A state that is not the start and was there before has the transitions that it had. -/
lemma step_addRow_of_lt (hr : r.Proper) (h : nfa.states.Ranged) (hpos : 0 < s) (hs : s ≤ nfa.length) :
    t ∈ (addRow r x nfa).states.automaton.step s a ↔ t ∈ nfa.states.automaton.step s a := by
  rw [step_addRow hr h]
  refine or_iff_left fun hmem => ?_
  rcases source_of_mem_rowLinks hmem with rfl | hs' <;> omega

lemma hasRow_addRow {row : Row} (hr : r.Proper) (h : nfa.states.Ranged) (hrow : HasRow nfa.states row) :
    HasRow (addRow r x nfa).states row where
  pos := hrow.pos
  le := by
    rw [length_addRow hr h, ← length_states]
    exact hrow.le.trans (Nat.le_add_right _ _)
  acc := by
    have hle := hrow.le
    rw [length_states] at hle
    rw [accOf_addRow hr h, if_neg (by omega)]
    exact hrow.acc
  inner s hs hhas := by
    have hle := hrow.le
    have hlt := hhas.2
    rw [length_states] at hle
    rw [accOf_addRow hr h, if_neg (by omega)]
    exact hrow.inner s hs hhas
  sink a t := by
    have hle := hrow.le
    have hpos := hrow.pos
    rw [length_states] at hle
    rw [step_addRow_of_lt hr h hpos (by omega)]
    exact hrow.sink a t
  begins s hs hlt a t := by
    have hle := hrow.le
    have hpos := hrow.pos
    rw [length_states] at hle
    rw [step_addRow_of_lt hr h (by omega) (by omega)]
    exact hrow.begins s hs hlt a t

lemma hasRow_new (hr : r.Proper) (h : nfa.states.Ranged) (hpos : 0 < nfa.length) :
    HasRow (addRow r x nfa).states ⟨r, x, nfa.length⟩ where
  pos := hpos
  le := (length_addRow hr h).ge
  acc := by rw [accOf_addRow hr h, if_pos rfl]
  inner s hs _ := by
    rw [accOf_addRow hr h, if_neg (Nat.ne_of_gt hs), accOf_states, List.getElem?_eq_none (Nat.le_of_lt hs)]
    rfl
  sink a t := by
    rw [step_addRow_of_lt hr h hpos (Nat.le_refl _)]
    exact not_step_of_le (Nat.le_refl _)
  begins s hs hlt a t := by
    rw [step_addRow hr h, or_iff_right (not_step_of_le (Nat.le_of_succ_le hs))]
    refine or_iff_left fun hmem => ?_
    obtain rfl : s = 0 := congrArg Prod.fst hmem
    exact absurd hs (by omega)

lemma hasRows_addRow {rows : List Row} (hr : r.Proper) (h : HasRows nfa.states rows) :
    HasRows (addRow r x nfa).states (rows ++ [⟨r, x, nfa.length⟩]) where
  ranged := (adds_addRow hr h.ranged).ranged
  pos := by
    rw [length_addRow hr h.ranged]
    omega
  start a t := by
    have hpos : 0 < nfa.length := length_states ▸ h.pos
    have hnew : (0, a, t) ∈ rowLinks r nfa.length ↔ a = none ∧ t = nfa.length + 1 := by
      constructor
      · rintro (hmem | hmem)
        · rcases source_of_mem_links hmem with heq | hs <;> omega
        · exact eq_of_mem_singleton hmem
      · rintro ⟨rfl, rfl⟩
        exact .inr rfl
    rw [step_addRow hr h.ranged, h.start, hnew, ← and_or_left]
    simp only [List.mem_append, List.mem_singleton, or_and_right, exists_or, exists_eq_left]
  row row hrow := by
    rcases List.mem_append.mp hrow with hrow | hrow
    · exact hasRow_addRow hr h.ranged (h.row row hrow)
    · rw [List.mem_singleton.mp hrow]
      exact hasRow_new hr h.ranged (length_states ▸ h.pos)
  cover s hs := by
    by_cases hlt : s < nfa.states.length
    · refine (h.cover s hlt).imp_right ?_
      rintro ⟨row, hrow, hhas⟩
      exact ⟨row, List.mem_append_left _ hrow, hhas⟩
    · rw [length_states] at hlt
      rw [length_addRow hr h.ranged] at hs
      exact .inr ⟨_, List.mem_append_right _ (List.mem_singleton_self _), Nat.not_lt.mp hlt, hs⟩
  acc s i hacc := by
    rw [accOf_addRow hr h.ranged] at hacc
    split_ifs at hacc with hs
    · exact ⟨_, List.mem_append_right _ (List.mem_singleton_self _), hs.symm, Option.some.inj hacc⟩
    · obtain ⟨row, hrow, heq⟩ := h.acc s i hacc
      exact ⟨row, List.mem_append_left _ hrow, heq⟩
  lt s a t hstep := by
    rw [length_addRow hr h.ranged]
    rcases (step_addRow hr h.ranged).mp hstep with hold | hnew | hnew
    · have hlt := h.lt s a t hold
      rw [length_states] at hlt
      omega
    · rcases target_of_mem_links hnew with rfl | rfl | ht <;> omega
    · rw [(eq_of_mem_singleton hnew).2]
      omega

/-- The rows are those of the expressions. -/
lemma exists_hasRows {regexes : List Regex} (h : ∀ r ∈ regexes, r.Proper) :
    ∃ rows, rows.map (fun row => (row.regex, row.idx)) = regexes.zipIdx ∧ HasRows (makeNFA regexes).states rows := by
  have hfold : ∀ ps : List (Regex × ℕ), (∀ p ∈ ps, p.1.Proper) →
      ∃ rows, rows.map (fun row => (row.regex, row.idx)) = ps ∧
        HasRows (states (ps.foldl (fun nfa p => addRow p.1 p.2 nfa) [.empty])) rows := by
    intro ps
    induction ps using List.reverseRecOn with
    | nil => exact fun _ => ⟨[], rfl, hasRows_empty⟩
    | append_singleton ps p ih =>
      intro hps
      obtain ⟨rows, hrows, hnfa⟩ := ih fun q hq => hps q (List.mem_append_left _ hq)
      rw [List.foldl_append]
      refine ⟨_, ?_, hasRows_addRow (hps p (List.mem_append_right _ (List.mem_singleton_self p))) hnfa⟩
      rw [List.map_append, hrows]
      rfl
  exact hfold regexes.zipIdx fun p hp => h p.1 (List.fst_mem_of_mem_zipIdx hp)

/-! ### What is accepted -/

namespace HasRows

variable {nfa : NFA} {rows : List Row} {w : List UInt8} {s i : ℕ}

/-- What a row's expression reads leads to the state that accepts the row. -/
lemma spells_of_mem_built (h : HasRows nfa rows) {row : Row} (hrow : row ∈ rows) (hw : w ∈ row.regex.built) :
    Spells nfa.automaton 0 row.pos w := by
  have hfirst : Spells nfa.automaton 0 (row.pos + 1) [] := Spells.single ((h.start none _).mpr ⟨rfl, row, hrow, rfl⟩)
  exact hfirst.trans (Spelt.built (spelt _ _) (h.row row hrow).begins.mem_step hw)

/-- A path from a row's accepting state is empty. -/
lemma eq_of_isPath (h : HasRows nfa rows) {row : Row} (hrow : row ∈ rows) {z : ℕ} {x : List (Option UInt8)}
    (hx : nfa.automaton.IsPath row.pos z x) : row.pos = z ∧ x = [] := by
  generalize hpos : row.pos = s at hx
  cases hx with
  | nil => exact ⟨rfl, rfl⟩
  | cons t _ _ a x ht _ => exact absurd ht (hpos ▸ (h.row row hrow).sink a t)

/-- A path from the start leads to a row's accepting state, if it does not end in the row's expression. -/
lemma exists_leads (h : HasRows nfa rows) {z : ℕ} {x : List (Option UInt8)} (hx : nfa.automaton.IsPath 0 z x)
    (hne : x ≠ []) (hz : ∀ row ∈ rows, row.pos < z → ¬ row.Has z) :
    ∃ row ∈ rows, row.pos = z ∧ x.reduceOption ∈ row.regex.built := by
  generalize hstart : 0 = s at hx
  cases hx with
  | nil => exact absurd rfl hne
  | cons t _ _ a x ht hx =>
    subst hstart
    obtain ⟨rfl, row, hrow, rfl⟩ := (h.start a t).mp ht
    have hout : z < row.pos + 1 ∨ row.pos + 1 + (1 + row.regex.stateCount) ≤ z := by
      by_contra hin
      rw [not_or, Nat.not_lt, Nat.not_le] at hin
      exact hz row hrow hin.1 ⟨Nat.le_of_lt hin.1, by omega⟩
    obtain ⟨w, hw, y, hy, -, heq⟩ := Passes.leads (passes _ _) (h.row row hrow).begins (Nat.lt_succ_self _) hout hx
    obtain ⟨rfl, rfl⟩ := h.eq_of_isPath hrow hy
    refine ⟨row, hrow, rfl, ?_⟩
    rw [List.reduceOption_cons_of_none, heq, List.reduceOption_nil, List.append_nil]
    exact hw

/-- An accepting state is reached by what the expression of its row reads. -/
lemma exists_mem_built (h : HasRows nfa rows) (hacc : nfa.accOf s = some i) (hs : Spells nfa.automaton 0 s w) :
    ∃ row ∈ rows, row.idx = i ∧ w ∈ row.regex.built := by
  obtain ⟨x, rfl, hx⟩ := hs
  have hne : x ≠ [] := by
    rintro rfl
    obtain rfl := (εNFA.isPath_nil _).mp hx
    obtain ⟨row, hrow, hpos, -⟩ := h.acc 0 i hacc
    exact Nat.ne_of_gt (h.row row hrow).pos hpos
  obtain ⟨row, hrow, rfl, hmem⟩ := h.exists_leads hx hne fun row hrow hlt hhas => by
    have hnone := (h.row row hrow).inner s hlt hhas
    rw [hacc] at hnone
    cases hnone
  exact ⟨row, hrow, Option.some.inj ((h.row row hrow).acc.symm.trans hacc), hmem⟩

/-- Where nothing empty is repeated, epsilon transitions do not lead back. -/
lemma not_epsCycle (h : HasRows nfa rows) (hprogress : ∀ row ∈ rows, row.regex.Progresses) (s : ℕ) :
    ¬ EpsCycle nfa.automaton s := by
  rintro hcycle
  obtain ⟨x, hne, hx, hpath⟩ := id hcycle
  have hs : s < nfa.length := by
    cases hpath with
    | nil => exact absurd rfl hne
    | cons t _ _ a x ht _ => exact NFA.lt_of_step ht
  rcases h.cover s hs with rfl | ⟨row, hrow, hle, hlt⟩
  · obtain ⟨row, hrow, hpos, -⟩ := h.exists_leads hpath hne fun _ _ hlt _ => Nat.not_lt_zero _ hlt
    exact Nat.ne_of_gt (h.row row hrow).pos hpos
  · have hrow' := h.row row hrow
    have hend : EpsCycle nfa.automaton row.pos := by
      rcases Nat.eq_or_lt_of_le hle with rfl | hlt'
      · exact hcycle
      · exact CyclesOutside.begins (cyclesOutside _ (hprogress row hrow)) (hprogress row hrow) hrow'.begins
          (Nat.lt_succ_self _) hlt' (by omega) hcycle
    obtain ⟨y, hne, -, hy⟩ := hend
    exact hne (h.eq_of_isPath hrow hy).2

end HasRows

/-- An accepting state of a row is reached by the strings that the row's expression reads. -/
lemma exists_spells_iff {regexes : List Regex} (h : ∀ r ∈ regexes, r.Proper) {i : ℕ} {w : List UInt8} :
    (∃ s, (makeNFA regexes).states.accOf s = some i ∧ Spells (makeNFA regexes).states.automaton 0 s w) ↔
      ∃ r, regexes[i]? = some r ∧ w ∈ r.built := by
  obtain ⟨rows, hrows, hnfa⟩ := exists_hasRows h
  constructor
  · rintro ⟨s, hacc, hs⟩
    obtain ⟨row, hrow, rfl, hw⟩ := hnfa.exists_mem_built hacc hs
    have hmem : (row.regex, row.idx) ∈ regexes.zipIdx := hrows ▸ List.mem_map_of_mem hrow
    exact ⟨row.regex, List.mem_zipIdx_iff_getElem?.mp hmem, hw⟩
  · rintro ⟨r, hr, hw⟩
    have hmem : (r, i) ∈ rows.map fun row => (row.regex, row.idx) := hrows ▸ List.mem_zipIdx_iff_getElem?.mpr hr
    obtain ⟨row, hrow, heq⟩ := List.mem_map.mp hmem
    obtain ⟨rfl, rfl⟩ := Prod.mk.inj heq
    exact ⟨row.pos, (hnfa.row row hrow).acc, hnfa.spells_of_mem_built hrow hw⟩

/-- For each row, the NFA accepts just the strings that the row's expression reads. These are all that it denotes, and
no others if no loop in it begins where another one does. -/
theorem makeNFA_accepts {regexes : List Regex} (h : ∀ r ∈ regexes, r.Proper) :
    (∀ i w, (∃ s, (makeNFA regexes).states.accOf s = some i ∧ s ∈ (makeNFA regexes).states.automaton.eval w) ↔
      ∃ r, regexes[i]? = some r ∧ w ∈ r.built) ∧
    ∀ r ∈ regexes, r.lang ≤ r.built ∧ (r.LoopsApart → r.built = r.lang) := by
  refine ⟨fun i w => ?_, fun r _ => ⟨lang_le_built r, built_eq_lang⟩⟩
  rw [← exists_spells_iff h]
  exact exists_congr fun s => and_congr_right fun _ => mem_evalFrom_iff_spells

/-- `(a*b)*`: the inner loop can be left without the letter behind it. -/
theorem makeNFA_accepts_letters :
    (∃ s, (makeNFA [rstar (rseq (rstar (charLit 97)) (charLit 98))]).states.accOf s = some 0 ∧
      s ∈ (makeNFA [rstar (rseq (rstar (charLit 97)) (charLit 98))]).states.automaton.eval [97]) ∧
    [97] ∉ (rstar (rseq (rstar (charLit 97)) (charLit 98))).lang := by
  have hproper : ∀ r ∈ [rstar (rseq (rstar (charLit 97)) (charLit 98))], r.Proper :=
    List.forall_mem_singleton.2 ⟨UInt8.le_refl 97, UInt8.le_refl 98⟩
  refine ⟨((makeNFA_accepts hproper).1 0 [97]).2 ⟨_, rfl, ?_⟩, fun hmem => ?_⟩
  · have hloop : [97] ∈ (rseq (rstar (charLit 97)) (charLit 98)).loops :=
      .inr ⟨97, ⟨UInt8.le_refl 97, UInt8.le_refl 97⟩, rfl⟩
    rw [built_rstar]
    exact Language.mem_kstar.mpr ⟨[[97]], rfl, List.forall_mem_singleton.2 (.inl hloop)⟩
  · have hlast : ∀ w ∈ (rseq (rstar (charLit 97)) (charLit 98)).lang, 98 ∈ w := by
      intro w hw
      obtain ⟨u, -, v, ⟨c, hle, hge, rfl⟩, rfl⟩ := Language.mem_mul.mp hw
      obtain rfl : c = 98 := UInt8.le_antisymm hge hle
      exact List.mem_append_right u (List.mem_singleton_self 98)
    obtain ⟨ws, hws, hall⟩ := Language.mem_kstar.mp hmem
    cases ws with
    | nil => cases hws
    | cons w ws =>
      have hin : 98 ∈ ([97] : List UInt8) :=
        hws ▸ List.mem_flatten.mpr ⟨w, List.mem_cons_self, hlast w (hall w List.mem_cons_self)⟩
      exact absurd hin (by decide)

end Hobbes.Regex
