import Hobbes.Match.TableCompiled

/-!
# The states of every table can be made

What is left of a table when a column is taken apart weighs less, where a pattern that is taken apart weighs more than
the words of the longest string. So the state of a table is made for boundedly many tables one inside the other.
-/

namespace Hobbes.Match.Table

open Core Lang

variable {G E : Type} {ps ps' : PatternRows G E} {c a n : ℕ}

/-! ### Weights -/

namespace Pattern

mutual

/-- The weight of a pattern, where one that is taken apart weighs `a` more than its parts. -/
def weight (a : ℕ) : Pattern → ℕ
  | any _ _ => 0
  | literal _ _ => 1
  | array _ ps => a + weightAll a ps
  | record _ fs => a + weightFields a fs
  | variant _ _ p => a + weight a p

def weightAll (a : ℕ) : List Pattern → ℕ
  | [] => 0
  | p :: ps => weight a p + weightAll a ps

def weightFields (a : ℕ) : List (Bytes × Pattern) → ℕ
  | [] => 0
  | (_, p) :: fs => weight a p + weightFields a fs

end

mutual

/-- The length of the longest array in a pattern. -/
def longest : Pattern → ℕ
  | any _ _ => 0
  | literal _ _ => 0
  | array _ ps => max ps.length (longestAll ps)
  | record _ fs => longestFields fs
  | variant _ _ p => longest p

def longestAll : List Pattern → ℕ
  | [] => 0
  | p :: ps => max (longest p) (longestAll ps)

def longestFields : List (Bytes × Pattern) → ℕ
  | [] => 0
  | (_, p) :: fs => max (longest p) (longestFields fs)

end

lemma weightFields_eq (fs : List (Bytes × Pattern)) : weightFields a fs = weightAll a (fs.map Prod.snd) := by
  induction fs with
  | nil => rw [weightFields, List.map_nil, weightAll]
  | cons f fs ih =>
    obtain ⟨f, p⟩ := f
    rw [weightFields, List.map_cons, weightAll, ih]

lemma longestFields_eq (fs : List (Bytes × Pattern)) : longestFields fs = longestAll (fs.map Prod.snd) := by
  induction fs with
  | nil => rw [longestFields, List.map_nil, longestAll]
  | cons f fs ih =>
    obtain ⟨f, p⟩ := f
    rw [longestFields, List.map_cons, longestAll, ih]

lemma longestAll_le {ps : List Pattern} : longestAll ps ≤ n ↔ ∀ p ∈ ps, longest p ≤ n := by
  induction ps with
  | nil =>
    rw [longestAll]
    exact iff_of_true (Nat.zero_le n) (List.forall_mem_nil _)
  | cons p ps ih => rw [longestAll, max_le_iff, ih, List.forall_mem_cons]

lemma weightAll_append (ps qs : List Pattern) : weightAll a (ps ++ qs) = weightAll a ps + weightAll a qs := by
  induction ps with
  | nil => rw [List.nil_append, weightAll, Nat.zero_add]
  | cons p ps ih => rw [List.cons_append, weightAll, weightAll, ih, Nat.add_assoc]

lemma weightAll_eraseIdx {ps : List Pattern} {p : Pattern} (hp : ps[c]? = some p) :
    weight a p + weightAll a (ps.eraseIdx c) = weightAll a ps := by
  induction ps generalizing c with
  | nil => cases hp
  | cons q ps ih =>
    cases c with
    | zero =>
      obtain rfl := Option.some.inj hp
      rw [List.eraseIdx_zero, List.tail_cons, weightAll]
    | succ c => rw [List.eraseIdx_cons_succ, weightAll, weightAll, ← ih hp, Nat.add_left_comm]

lemma weightAll_sublist {ps qs : List Pattern} (h : List.Sublist ps qs) : weightAll a ps ≤ weightAll a qs := by
  induction h with
  | slnil => exact le_rfl
  | cons p _ ih =>
    rw [weightAll]
    exact ih.trans (Nat.le_add_left _ _)
  | cons_cons p _ ih =>
    rw [weightAll, weightAll]
    exact Nat.add_le_add_left ih _

lemma weightAll_le_length {ps : List Pattern} (h : ∀ p ∈ ps, weight a p ≤ 1) : weightAll a ps ≤ ps.length := by
  induction ps with
  | nil =>
    rw [weightAll]
    exact Nat.zero_le _
  | cons p ps ih =>
    obtain ⟨hp, hps⟩ := List.forall_mem_cons.mp h
    have := ih hps
    rw [weightAll, List.length_cons]
    omega

lemma weightAll_arrayAnyMatches (k : ℕ) : weightAll a (arrayAnyMatches k) = 0 := by
  induction k with
  | zero => rw [arrayAnyMatches, List.replicate_zero, weightAll]
  | succ k ih => rw [arrayAnyMatches, List.replicate_succ, weightAll, weight, ← arrayAnyMatches, ih]

lemma longestAll_arrayAnyMatches (k : ℕ) : longestAll (arrayAnyMatches k) ≤ n := by
  rw [longestAll_le]
  intro p hp
  obtain rfl := List.eq_of_mem_replicate hp
  rw [longest]
  exact Nat.zero_le n

lemma weight_of_isAny {p : Pattern} (h : p.isAny = true) : p.weight a = 0 := by
  cases p with
  | any y vn => rw [weight]
  | _ => cases h

lemma longest_of_isAny {p : Pattern} (h : p.isAny = true) : p.longest = 0 := by
  cases p with
  | any y vn => rw [longest]
  | _ => cases h

lemma weight_pos (ha : 0 < a) {p : Pattern} (h : p.isAny = false) : 0 < p.weight a := by
  cases p with
  | any y vn => cases h
  | literal y q => rw [weight]; exact Nat.one_pos
  | array y qs => rw [weight]; exact Nat.add_pos_left ha _
  | record y fs => rw [weight]; exact Nat.add_pos_left ha _
  | variant y lbl q => rw [weight]; exact Nat.add_pos_left ha _

end Pattern

/-- A row weighs one more than its patterns. -/
def PatternRow.weight (a : ℕ) (r : PatternRow G E) : ℕ := 1 + Pattern.weightAll a r.patterns

def tableWeight (a : ℕ) (ps : PatternRows G E) : ℕ := (ps.map (PatternRow.weight a)).sum

/-- No array is longer than `n`. -/
def Short (n : ℕ) (ps : PatternRows G E) : Prop := ∀ r ∈ ps, ∀ p ∈ r.patterns, p.longest ≤ n

/-- Arrays are no longer than `n`, and the table is lighter. -/
def Lighter (n : ℕ) (ps' ps : PatternRows G E) : Prop :=
  Short n ps' ∧ tableWeight (n + 2) ps' < tableWeight (n + 2) ps

/-- The length of the longest array of a table. -/
def longestArray (ps : PatternRows G E) : ℕ := Pattern.longestAll (ps.flatMap PatternRow.patterns)

lemma short_longestArray (ps : PatternRows G E) : Short (longestArray ps) ps := fun r hr _ hp =>
  Pattern.longestAll_le.mp le_rfl _ (List.mem_flatMap.mpr ⟨r, hr, hp⟩)

/-- With this fuel the states of the table can be made. -/
def enoughFuel (ps : PatternRows G E) : ℕ := tableWeight (longestArray ps + 2) ps + 1

/-! ### What is left of a table -/

section

variable {α : Type} {f : α → Option α} {w : α → ℕ} {as : List α}

lemma sum_filterMap_le (h : ∀ x ∈ as, ∀ y, f x = some y → w y ≤ w x) :
    ((as.filterMap f).map w).sum ≤ (as.map w).sum := by
  induction as with
  | nil => exact le_rfl
  | cons x as ih =>
    obtain ⟨hx, has⟩ := List.forall_mem_cons.mp h
    rw [List.map_cons, List.sum_cons]
    cases hf : f x with
    | none =>
      rw [List.filterMap_cons_none hf]
      exact (ih has).trans (Nat.le_add_left _ _)
    | some y =>
      rw [List.filterMap_cons_some hf, List.map_cons, List.sum_cons]
      exact Nat.add_le_add (hx y hf) (ih has)

lemma sum_filterMap_lt (hpos : ∀ x, 0 < w x) (h : ∀ x ∈ as, ∀ y, f x = some y → w y ≤ w x)
    (hlt : ∃ x ∈ as, ∀ y, f x = some y → w y < w x) : ((as.filterMap f).map w).sum < (as.map w).sum := by
  induction as with
  | nil =>
    obtain ⟨x, hx, -⟩ := hlt
    exact absurd hx List.not_mem_nil
  | cons x as ih =>
    obtain ⟨hx, has⟩ := List.forall_mem_cons.mp h
    obtain ⟨z, hz, hlt⟩ := hlt
    have hle := sum_filterMap_le has
    rw [List.map_cons, List.sum_cons]
    rcases List.mem_cons.mp hz with rfl | hz
    · cases hf : f z with
      | none =>
        rw [List.filterMap_cons_none hf]
        exact Nat.lt_of_le_of_lt hle (Nat.lt_add_of_pos_left (hpos z))
      | some y =>
        rw [List.filterMap_cons_some hf, List.map_cons, List.sum_cons]
        exact Nat.add_lt_add_of_lt_of_le (hlt y hf) hle
    · have hrest := ih has ⟨z, hz, hlt⟩
      cases hf : f x with
      | none =>
        rw [List.filterMap_cons_none hf]
        exact Nat.lt_add_left _ hrest
      | some y =>
        rw [List.filterMap_cons_some hf, List.map_cons, List.sum_cons]
        exact Nat.add_lt_add_of_le_of_lt (hx y hf) hrest

end

/-- The parts of a column's patterns weigh less than these, those of a wildcard nothing. -/
structure Lightens (parts : Pattern → Option (List Pattern)) (n : ℕ) (ps : PatternRows G E) (c : ℕ) : Prop where
  wildcard : ∀ p qs, InColumn ps c p → parts p = some qs → p.isAny = true → Pattern.weightAll (n + 2) qs = 0
  lt : ∀ p qs, InColumn ps c p → parts p = some qs → p.isAny = false →
    Pattern.weightAll (n + 2) qs < p.weight (n + 2)
  short : ∀ p qs, InColumn ps c p → parts p = some qs → p.longest ≤ n → Pattern.longestAll qs ≤ n

lemma Lightens.le {parts : Pattern → Option (List Pattern)} (h : Lightens parts n ps c) {p : Pattern}
    {qs : List Pattern} (hp : InColumn ps c p) (hqs : parts p = some qs) :
    Pattern.weightAll (n + 2) qs ≤ p.weight (n + 2) := by
  cases hany : p.isAny with
  | true =>
    rw [h.wildcard p qs hp hqs hany]
    exact Nat.zero_le _
  | false => exact (h.lt p qs hp hqs hany).le

lemma weight_parts {r : PatternRow G E} {p : Pattern} (hp : r.patterns[c]? = some p) (qs : List Pattern) :
    (prependPatterns (copyRowWithoutColumn r c) qs).weight a + p.weight a =
      r.weight a + Pattern.weightAll a qs := by
  have hrow : (prependPatterns (copyRowWithoutColumn r c) qs).weight a =
      1 + (Pattern.weightAll a qs + Pattern.weightAll a (r.patterns.eraseIdx c)) :=
    congrArg (1 + ·) (Pattern.weightAll_append qs _)
  rw [hrow, PatternRow.weight, ← Pattern.weightAll_eraseIdx hp]
  omega

lemma Lightens.lighter {parts : Pattern → Option (List Pattern)} (h : Lightens parts n ps c) (hps : Short n ps)
    (hne : ∃ p, InColumn ps c p ∧ p.isAny = false) : Lighter n (ps.filterMap (takeApart parts c)) ps := by
  refine ⟨fun r' hr' q hq => ?_, sum_filterMap_lt (fun r => Nat.lt_add_right _ Nat.one_pos) (fun r hr r' hr' => ?_) ?_⟩
  · obtain ⟨r, hr, hr'⟩ := List.mem_filterMap.mp hr'
    obtain ⟨p, hp, qs, hqs, rfl⟩ := takeApart_eq_some.mp hr'
    rcases List.mem_append.mp hq with hq | hq
    · have hlong := h.short p qs ⟨r, hr, hp⟩ hqs (hps r hr p (List.mem_of_getElem? hp))
      exact Pattern.longestAll_le.mp hlong q hq
    · exact hps r hr q (List.mem_of_mem_eraseIdx hq)
  · obtain ⟨p, hp, qs, hqs, rfl⟩ := takeApart_eq_some.mp hr'
    have hle := h.le ⟨r, hr, hp⟩ hqs
    have hweight := weight_parts (a := n + 2) hp qs
    omega
  · obtain ⟨p, ⟨r, hr, hp⟩, hany⟩ := hne
    refine ⟨r, hr, fun r' hr' => ?_⟩
    obtain ⟨p', hp', qs, hqs, rfl⟩ := takeApart_eq_some.mp hr'
    obtain rfl := Option.some.inj (hp.symm.trans hp')
    have hlt := h.lt p qs ⟨r, hr, hp⟩ hqs hany
    have hweight := weight_parts (a := n + 2) hp qs
    omega

/-- Nothing is left of the patterns. -/
lemma lightens_nil {parts : Pattern → Option (List Pattern)} (h : ∀ p qs, parts p = some qs → qs = []) :
    Lightens parts n ps c where
  wildcard p qs _ hqs _ := by rw [h p qs hqs, Pattern.weightAll]
  lt p qs _ hqs hany := by
    rw [h p qs hqs, Pattern.weightAll]
    exact Pattern.weight_pos (Nat.succ_pos _) hany
  short p qs _ hqs _ := by
    rw [h p qs hqs, Pattern.longestAll]
    exact Nat.zero_le n

lemma lightens_branchParts {S : Type} [DecidableEq S] {svalue : Pattern → Option S}
    {matchParts : Pattern → List Pattern} {anyParts : S → Pattern → List Pattern} {sv : S}
    (hsplits : Splits svalue ps c)
    (hmatch : ∀ p, svalue p = some sv → Pattern.weightAll (n + 2) (matchParts p) < p.weight (n + 2) ∧
      (p.longest ≤ n → Pattern.longestAll (matchParts p) ≤ n))
    (hany : ∀ p, p.isAny = true → Pattern.weightAll (n + 2) (anyParts sv p) = 0 ∧
      Pattern.longestAll (anyParts sv p) ≤ n) :
    Lightens (branchParts svalue matchParts anyParts sv) n ps c where
  wildcard p qs _ hqs hp := by
    rcases branchParts_eq_some hqs with ⟨hsv, rfl⟩ | ⟨-, rfl⟩
    · have hlt := (hmatch p hsv).1
      rw [Pattern.weight_of_isAny hp] at hlt
      exact absurd hlt (Nat.not_lt_zero _)
    · exact (hany p hp).1
  lt p qs hin hqs hp := by
    rcases branchParts_eq_some hqs with ⟨hsv, rfl⟩ | ⟨hnone, -⟩
    · exact (hmatch p hsv).1
    · rw [isAny_of_splits hsplits hin hnone] at hp
      cases hp
  short p qs hin hqs hlong := by
    rcases branchParts_eq_some hqs with ⟨hsv, rfl⟩ | ⟨hnone, rfl⟩
    · exact (hmatch p hsv).2 hlong
    · exact (hany p (isAny_of_splits hsplits hin hnone)).2

lemma lightens_literals (v : Primitive) :
    Lightens (branchParts litValue (fun _ => []) (fun _ _ => []) v) n ps c :=
  lightens_nil literalParts_eq_nil

lemma lightens_arrays (hsplits : Splits maSize ps c) (len : ℕ) :
    Lightens (branchParts maSize arrayPatterns (fun len _ => arrayAnyMatches len) len) n ps c := by
  refine lightens_branchParts hsplits (fun p hp => ?_) fun p _ =>
    ⟨Pattern.weightAll_arrayAnyMatches len, Pattern.longestAll_arrayAnyMatches len⟩
  obtain ⟨y, qs, rfl, -⟩ := maSize_eq_some hp
  rw [arrayPatterns, Pattern.weight, Pattern.longest]
  exact ⟨Nat.lt_add_of_pos_left (Nat.succ_pos _), (Nat.le_max_right _ _).trans⟩

lemma lightens_variants (hsplits : Splits varCtor ps c) (lbl : Bytes) :
    Lightens (branchParts varCtor variantValue (fun _ p => [p]) lbl) n ps c := by
  have hsingle : ∀ q : Pattern, Pattern.weightAll (n + 2) [q] = q.weight (n + 2) := fun q => by
    rw [Pattern.weightAll, Pattern.weightAll, Nat.add_zero]
  refine lightens_branchParts hsplits (fun p hp => ?_) fun p hany => ?_
  · obtain ⟨y, q, rfl⟩ := varCtor_eq_some hp
    rw [variantValue, hsingle, Pattern.weight, Pattern.longest, Pattern.longestAll_le, List.forall_mem_singleton]
    exact ⟨Nat.lt_add_of_pos_left (Nat.succ_pos _), id⟩
  · rw [hsingle, Pattern.longestAll_le, List.forall_mem_singleton]
    exact ⟨Pattern.weight_of_isAny hany, (Pattern.longest_of_isAny hany).trans_le (Nat.zero_le n)⟩

lemma lightens_records (k : ℕ) : Lightens (recordParts k) n ps c := by
  refine ⟨fun q qs _ hqs hany => ?_, fun q qs _ hqs hany => ?_, fun q qs _ hqs hlong => ?_⟩
  · cases q with
    | any y vn =>
      obtain rfl := Option.some.inj hqs
      exact Pattern.weightAll_arrayAnyMatches k
    | _ => cases hany
  · cases q with
    | any y vn => cases hany
    | record y fs =>
      obtain rfl := Option.some.inj hqs
      rw [Pattern.weight, Pattern.weightFields_eq]
      exact Nat.lt_add_of_pos_left (Nat.succ_pos _)
    | _ => cases hqs
  · cases q with
    | any y vn =>
      obtain rfl := Option.some.inj hqs
      exact Pattern.longestAll_arrayAnyMatches k
    | record y fs =>
      obtain rfl := Option.some.inj hqs
      rwa [Pattern.longest, Pattern.longestFields_eq] at hlong
    | _ => cases hqs

/-! ### What is left of strings -/

/-- The words of a string are constants, as many as are loaded. -/
lemma words_of_sarrayPatterns {y : Name} {len : ℕ} {ma qs : List Pattern} (h : sarrayPatterns y len ma = some qs) :
    qs.length ≤ (wordLoads 0 len).length ∧ ∀ q ∈ qs, ∃ z w, q = .literal z w := by
  rw [← filterMap_of_mapM h]
  refine ⟨List.length_filterMap_le _ _, fun q hq => ?_⟩
  obtain ⟨i, -, hi⟩ := List.mem_filterMap.mp hq
  rw [Option.bind_eq_bind, Option.bind_eq_some_iff] at hi
  obtain ⟨w, -, hw⟩ := hi
  exact ⟨_, _, (Option.some.inj hw).symm⟩

lemma light_words {y : Name} {k : ℕ} {ma qs : List Pattern} (hk : k < n + 2)
    (h : sarrayPatterns y (8 * k) ma = some qs) :
    Pattern.weightAll (n + 2) qs < n + 2 ∧ Pattern.longestAll qs ≤ n := by
  obtain ⟨hlen, hlits⟩ := words_of_sarrayPatterns h
  rw [wordLoads_eq, List.length_range'] at hlen
  refine ⟨(Pattern.weightAll_le_length fun q hq => ?_).trans_lt (hlen.trans_lt hk),
    Pattern.longestAll_le.mpr fun q hq => ?_⟩
  · obtain ⟨z, w, rfl⟩ := hlits q hq
    rw [Pattern.weight]
  · obtain ⟨z, w, rfl⟩ := hlits q hq
    rw [Pattern.longest]
    exact Nat.zero_le n

lemma lightens_strings {k : ℕ} (hk : k < n + 2) : Lightens (stringParts (8 * k)) n ps c := by
  refine ⟨fun q qs _ hqs hany => ?_, fun q qs _ hqs hany => ?_, fun q qs _ hqs _ => ?_⟩
  · cases q with
    | any y vn =>
      obtain rfl := Option.some.inj hqs
      exact Pattern.weightAll_arrayAnyMatches _
    | _ => cases hany
  · cases q with
    | any y vn => cases hany
    | array y ma =>
      rw [Pattern.weight]
      exact Nat.lt_add_right _ (light_words hk hqs).1
    | _ => cases hqs
  · cases q with
    | any y vn =>
      obtain rfl := Option.some.inj hqs
      exact Pattern.longestAll_arrayAnyMatches _
    | array y ma => exact (light_words hk hqs).2
    | _ => cases hqs

lemma maxStringLen_le (hps : Short n ps) : maxStringLen ps c ≤ n := by
  have hfold : ∀ (ps : PatternRows G E) (mlen : ℕ), Short n ps → mlen ≤ n → ps.foldl (stringLenStep c) mlen ≤ n := by
    intro ps
    induction ps with
    | nil => exact fun mlen _ h => h
    | cons r ps ih =>
      intro mlen hps hmlen
      obtain ⟨hr, hps⟩ := List.forall_mem_cons.mp hps
      refine ih _ hps ?_
      rw [stringLenStep]
      split
      · rename_i y ma hma
        have hlong := hr _ (List.mem_of_getElem? hma)
        rw [Pattern.longest] at hlong
        exact max_le ((Nat.le_max_left _ _).trans hlong) hmlen
      · exact hmlen
  exact hfold ps 0 hps (Nat.zero_le n)

/-- There are fewer words than a pattern that is taken apart weighs. -/
lemma exists_words (hps : Short n ps) : ∃ k, alignSize (maxStringLen ps c + 1) 8 = 8 * k ∧ k < n + 2 := by
  have hmax : maxStringLen ps c ≤ n := maxStringLen_le hps
  obtain ⟨k, hk, -⟩ := alignSize_eight (maxStringLen ps c + 1)
  refine ⟨k, hk, ?_⟩
  rw [alignSize] at hk
  split_ifs at hk <;> omega

/-! ### Columns that are not used -/

lemma filterMap_range_eq_take {α : Type} (l : List α) (k : ℕ) : (List.range k).filterMap (l[·]?) = l.take k := by
  induction k with
  | zero => rw [List.range_zero, List.filterMap_nil, List.take_zero]
  | succ k ih =>
    rw [List.range_succ, List.filterMap_append, ih, List.take_add_one]
    cases h : l[k]? <;> simp [h]

lemma leftRow_sublist (ps : PatternRows G E) (r : PatternRow G E) :
    List.Sublist (leftRow ps r).patterns r.patterns := by
  have hused : List.Sublist (usedColumns ps) (List.range (width ps)) := List.filter_sublist
  have hleft := hused.filterMap (r.patterns[·]?)
  rw [filterMap_range_eq_take] at hleft
  exact hleft.trans (List.take_sublist _ _)

lemma dropUnusedColumns_short (hps : Short n ps) : Short n (dropUnusedColumns ps) := by
  rw [dropUnusedColumns]
  split_ifs
  · exact hps
  · exact List.forall_mem_map.mpr fun r hr p hp => hps r hr p ((leftRow_sublist ps r).mem hp)

lemma tableWeight_dropUnusedColumns (ps : PatternRows G E) :
    tableWeight a (dropUnusedColumns ps) ≤ tableWeight a ps := by
  rw [dropUnusedColumns]
  split_ifs
  · exact le_rfl
  · change tableWeight a (ps.map (leftRow ps)) ≤ _
    rw [← List.filterMap_eq_map]
    refine sum_filterMap_le fun r _ r' hr' => ?_
    obtain rfl := Option.some.inj hr'
    exact Nat.add_le_add_left (Pattern.weightAll_sublist (leftRow_sublist ps r)) 1

end Hobbes.Match.Table
