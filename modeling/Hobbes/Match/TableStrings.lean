import Hobbes.Match.TableBranches

/-!
# Columns of strings

A column of strings is matched by words. As there are no zero characters in strings, these are the same just if the
strings are.
-/

namespace Hobbes.Match.Table

open Core Lang

variable {G E : Type} {guards : G → Bool} {mk : PatternRows G E → Make G E ℕ} {ps : PatternRows G E}
  {xs : List Column} {c : ℕ} {x : Column}

/-! ### Strings -/

/-- The patterns are those for the characters of a string. -/
def IsString (ma : List Pattern) (w : Chars) : Prop :=
  ma.map Pattern.unnamed = w.map fun c => Match.Pattern.literal (.char c)

lemma exists_isString {ma : List Pattern} (hty : ∀ q ∈ ma, q.HasTy (.prim .char)) (hlit : ∀ q ∈ ma, isLiteral q = true)
    (hzero : ∀ q ∈ ma, q.isZeroChar = false) : ∃ w, IsString ma w ∧ 0 ∉ w := by
  induction ma with
  | nil => exact ⟨[], rfl, List.not_mem_nil⟩
  | cons q ma ih =>
    obtain ⟨hq, hty⟩ := List.forall_mem_cons.mp hty
    obtain ⟨hqlit, hlit⟩ := List.forall_mem_cons.mp hlit
    obtain ⟨hqzero, hzero⟩ := List.forall_mem_cons.mp hzero
    obtain ⟨w, hw, hwzero⟩ := ih hty hlit hzero
    obtain ⟨p, hp⟩ := Option.isSome_iff_exists.mp hqlit
    obtain ⟨y, rfl⟩ := litValue_eq_some hp
    rw [Pattern.hasTy_literal, Ty.prim.injEq] at hq
    cases p <;> cases hq
    rename_i c
    refine ⟨c :: w, congrArg (List.cons _) hw, ?_⟩
    rw [List.mem_cons, not_or]
    exact ⟨fun h => by simp [Pattern.isZeroChar, ← h] at hqzero, hwzero⟩

/-- The value of a string. -/
def stringValue (s : Chars) : List Value := s.map fun c => .prim (.char c)

lemma exists_stringValue {vs : List Value} (hty : ∀ v ∈ vs, v.HasTy (.prim .char)) (hzero : .prim (.char 0) ∉ vs) :
    ∃ s, vs = stringValue s ∧ 0 ∉ s := by
  induction vs with
  | nil => exact ⟨[], rfl, List.not_mem_nil⟩
  | cons v vs ih =>
    obtain ⟨hv, hty⟩ := List.forall_mem_cons.mp hty
    rw [List.mem_cons, not_or] at hzero
    obtain ⟨s, rfl, hs⟩ := ih hty hzero.2
    obtain ⟨p, rfl, hp⟩ := hv.exists_prim
    cases p <;> cases hp
    rename_i c
    refine ⟨c :: s, rfl, ?_⟩
    rw [List.mem_cons, not_or]
    exact ⟨fun h => hzero.1 (by rw [h]), hs⟩

lemma mapM_char (s : Chars) : (stringValue s).mapM Value.char = some s := by
  induction s with
  | nil => rfl
  | cons c s ih =>
    rw [stringValue, List.map_cons, List.mapM_cons, ← stringValue, ih]
    rfl

lemma acceptsAll_string {ma : List Pattern} {w s : Chars} (h : IsString ma w) :
    Pattern.acceptsAll ma (stringValue s) = decide (w = s) := by
  induction ma generalizing w s with
  | nil =>
    obtain rfl := List.map_eq_nil_iff.mp h.symm
    cases s <;> simp [Pattern.acceptsAll, stringValue]
  | cons q ma ih =>
    cases w with
    | nil => cases h
    | cons c w =>
      obtain ⟨hq, hma⟩ := List.cons.inj h
      cases q with
      | literal y p =>
        obtain rfl := Match.Pattern.literal.inj hq
        cases s with
        | nil => simp [Pattern.acceptsAll, stringValue]
        | cons d s =>
          rw [stringValue, List.map_cons, Pattern.acceptsAll, ← stringValue, ih hma, Pattern.accepts]
          simp
      | _ => cases hq

lemma withoutPadding_eq_self {s : Chars} (h : 0 ∉ s) : withoutPadding s = s := by
  rw [withoutPadding, List.rdropWhile_eq_self_iff]
  intro hne hlast
  exact h (of_decide_eq_true hlast ▸ List.getLast_mem hne)

/-- The words of strings without zero characters tell them apart. -/
lemma words_eq_iff {w s : Chars} {n : ℕ} (hw : 0 ∉ w) (hs : 0 ∉ s) (hlen : w.length < 8 * n) :
    (∀ i ∈ List.range' 0 n 8, word (padded s) i = word (padded w) i) ↔ w = s := by
  have h := accepts_words_iff (s := s) (w := w) (n := n) hlen.le
  rw [List.map_map, List.forall₂_map_left_iff, List.forall₂_map_right_iff, List.forall₂_same] at h
  refine h.trans ?_
  rw [withoutPadding_eq_self hw, withoutPadding_eq_self fun h => hs (List.mem_of_mem_take h)]
  constructor
  · intro htake
    have hle : s.length ≤ 8 * n := by
      have := congrArg List.length htake
      rw [List.length_take] at this
      omega
    rw [← htake, List.take_of_length_le hle]
  · rintro rfl
    exact List.take_of_length_le hlen.le

/-! ### Columns of words -/

def wordColumns (x : Name) (n : ℕ) : List Column := (List.range' 0 n 8).map fun i => ⟨.word x i, false⟩

def wordTys (n : ℕ) (_ : Ty) : List Ty := List.replicate n (.prim .long)

/-- What a pattern is taken apart into, where strings are matched up to a length. -/
def stringParts (len : ℕ) : Pattern → Option (List Pattern)
  | .array svarName ma => sarrayPatterns svarName len ma
  | .any _ _ => some (arrayAnyMatches (packedSValues len))
  | _ => none

lemma addSATableRow_eq (len : ℕ) (r : PatternRow G E) : addSATableRow c len r = takeApart (stringParts len) c r := by
  rw [addSATableRow, takeApart]
  cases hp : r.patterns[c]? with
  | none => rfl
  | some p =>
    cases p with
    | array y ma =>
      simp only [Option.bind_some, stringParts]
      cases sarrayPatterns y len ma <;> rfl
    | _ => rfl

/-- The words of a string, as patterns for the words of the variable `y`. -/
def wordPatterns (y : Name) (n : ℕ) (w : Chars) : List Pattern :=
  (List.range' 0 n 8).map fun i => .literal (.word y i) (.long (word (padded w) i))

lemma sarrayPatterns_eq {ma : List Pattern} {w : Chars} (h : IsString ma w) (y : Name) (n : ℕ) :
    sarrayPatterns y (8 * n) ma = some (wordPatterns y n w) := by
  rw [sarrayPatterns, wordLoads_eq, h, wordPatterns]
  refine mapM_some (fun i => ?_) _
  rw [translatep_chars]
  rfl

/-- The column is one of strings that are shorter than `len`, and of wildcards. -/
structure StringColumn (ps : PatternRows G E) (c len : ℕ) : Prop where
  typed : ∀ t, ColumnTy ps c t → t = .array (.prim .char)
  pattern : ∀ p, InColumn ps c p → p.isAny = true ∨ ∃ y ma w, p = .array y ma ∧ IsString ma w ∧ 0 ∉ w ∧ w.length < len
  string : ∃ y ma, InColumn ps c (.array y ma) ∧ ma.any isCharLiteral = true

lemma StringColumn.parts {n : ℕ} (h : StringColumn ps c (8 * n)) {p : Pattern} (hp : InColumn ps c p) :
    (p.isAny = true ∧ stringParts (8 * n) p = some (arrayAnyMatches n)) ∨
      ∃ y ma w, p = .array y ma ∧ IsString ma w ∧ 0 ∉ w ∧ w.length < 8 * n ∧
        stringParts (8 * n) p = some (wordPatterns y n w) := by
  rcases h.pattern p hp with hany | ⟨y, ma, w, rfl, hw, hzero, hlen⟩
  · refine .inl ⟨hany, ?_⟩
    cases p with
    | any z vn => rw [stringParts, packedSValues, Nat.mul_div_cancel_left n (by decide)]
    | _ => cases hany
  · exact .inr ⟨y, ma, w, rfl, hw, hzero, hlen, sarrayPatterns_eq hw y n⟩

lemma takenApart_string {n : ℕ} (h : StringColumn ps c (8 * n)) :
    TakenApart (stringParts (8 * n)) x (wordColumns x.name n) (wordTys n) ps c := by
  obtain ⟨y₀, ma₀, hp₀, -⟩ := h.string
  refine ⟨⟨_, hp₀, ?_⟩, ?_, ?_, fun p qs hp hplaced hqs => ?_, fun p qs t hp ht hqs => ?_⟩
  · rcases h.parts hp₀ with ⟨hany, -⟩ | ⟨y, ma, w, -, -, -, -, hparts⟩
    · cases hany
    · rw [hparts, Option.isSome_some]
  · rw [wordColumns, List.pairwise_map]
    have hnodup : (List.range' 0 n 8).Nodup := List.nodup_range' 8 (by decide)
    exact hnodup.imp fun {i j} hij => apart_of_parent rfl rfl fun h => hij (Name.word.inj h).2
  · simp only [wordColumns, List.forall_mem_map]
    exact fun i _ => .word i .refl
  · rcases h.parts hp with ⟨-, hparts⟩ | ⟨y, ma, w, rfl, -, -, -, hparts⟩
    · obtain rfl := Option.some.inj (hparts.symm.trans hqs)
      have hany : List.Forall₂ Placed (wordColumns x.name n) (arrayAnyMatches (wordColumns x.name n).length) :=
        placed_arrayAnyMatches (List.forall_mem_map.mpr fun _ _ => rfl)
      simpa [wordColumns] using hany
    · obtain rfl := Option.some.inj (hparts.symm.trans hqs)
      obtain rfl : y = x.name := hplaced.name_eq rfl
      rw [wordColumns, wordPatterns, List.forall₂_map_left_iff, List.forall₂_map_right_iff, List.forall₂_same]
      exact fun i _ => placed_part rfl rfl
  · rcases h.parts hp with ⟨-, hparts⟩ | ⟨y, ma, w, rfl, -, -, -, hparts⟩
    · obtain rfl := Option.some.inj (hparts.symm.trans hqs)
      have hany := typed_arrayAnyMatches (wordTys n t)
      rwa [wordTys, List.length_replicate] at hany
    · obtain rfl := Option.some.inj (hparts.symm.trans hqs)
      have hlong : List.Forall₂ Pattern.HasTy (wordPatterns y n w)
          (List.replicate (wordPatterns y n w).length (.prim .long)) :=
        forall₂_replicate (List.forall_mem_map.mpr fun _ _ => .literal)
      rwa [wordPatterns, List.length_map, List.length_range', ← wordPatterns] at hlong

/-- The words of a string, as they are loaded. -/
def wordValues (n : ℕ) (s : Chars) : List Value :=
  (List.range' 0 n 8).map fun i => .prim (.long (word (padded s) i))

lemma acceptsAll_words {y : Name} {n : ℕ} {w s : Chars} (hw : 0 ∉ w) (hs : 0 ∉ s) (hlen : w.length < 8 * n) :
    Pattern.acceptsAll (wordPatterns y n w) (wordValues n s) = decide (w = s) := by
  rw [Bool.eq_iff_iff, decide_eq_true_iff, Pattern.acceptsAll_iff, ← words_eq_iff hw hs hlen, wordPatterns, wordValues,
    List.forall₂_map_left_iff, List.forall₂_map_right_iff, List.forall₂_same]
  simp [Pattern.accepts, eq_comm]

/-- A string is opened as the patterns for its words are. -/
lemma opens_string {n : ℕ} (h : StringColumn ps c (8 * n)) {s : Chars} (hs : 0 ∉ s) :
    Opens (stringParts (8 * n)) (wordTys n) ps c (.array (stringValue s)) (wordValues n s) := by
  have hlen : (wordValues n s).length = n := by simp [wordValues]
  refine ⟨fun t _ _ => ?_, fun p qs hin hqs => ?_, fun p hin hnone => ?_⟩
  · have hlong : List.Forall₂ Value.HasTy (wordValues n s) (List.replicate (wordValues n s).length (.prim .long)) :=
      forall₂_replicate (List.forall_mem_map.mpr fun _ _ => .prim)
    rwa [hlen] at hlong
  · rcases h.parts hin with ⟨hany, hparts⟩ | ⟨y, ma, w, rfl, hw, hzero, hwlen, hparts⟩
    · obtain rfl := Option.some.inj (hparts.symm.trans hqs)
      have hanys : (arrayAnyMatches n).length = (wordValues n s).length := by
        rw [hlen, arrayAnyMatches, List.length_replicate]
      rw [Pattern.accepts_of_isAny hany]
      exact ⟨hanys, Pattern.acceptsAll_of_isAny (fun q hq => isAny_of_mem_arrayAnyMatches hq) hanys⟩
    · obtain rfl := Option.some.inj (hparts.symm.trans hqs)
      refine ⟨by simp [wordPatterns, wordValues], ?_⟩
      rw [acceptsAll_words hzero hs hwlen, Pattern.accepts, acceptsAll_string hw]
  · rcases h.parts hin with ⟨-, hparts⟩ | ⟨y, ma, w, -, -, -, -, hparts⟩
    · rw [hparts] at hnone
      cases hnone
    · rw [hparts] at hnone
      cases hnone

/-- The words of a string are loaded as the columns for them. -/
lemma exists_loadWords {env : Env} {s : Chars} (henv : env x.name = some (.array (stringValue s))) (n ptr : ℕ) :
    ∃ env', loadAll guards ((.view x.name, .openArray x.name ptr) ::
      (wordLoads 0 (8 * n)).map fun i => (.word x.name i, .packCArrLong (.view x.name) i ptr)) env = some env' ∧
      Bound env' (wordColumns x.name n) (wordValues n s) ∧ ∀ y, Apart x.name y → env' y = env y := by
  rw [wordLoads_eq]
  let env₁ : Env := Function.update env (.view x.name) (some (.array (stringValue s)))
  have hview : env₁ (.view x.name) = some (.array (stringValue s)) := Function.update_self _ _ _
  let ds : List (Name × Load G) :=
    (List.range' 0 n 8).map fun i => (.word x.name i, .packCArrLong (.view x.name) i ptr)
  have heval : ∀ i, (Load.packCArrLong (.view x.name) i ptr : Load G).eval guards env₁ =
      some (.prim (.long (word (padded s) i))) := by
    intro i
    rw [Load.eval, hview]
    simp only [mapM_char, Option.bind_eq_bind, Option.bind_some, packCArrLong_eq]
    rfl
  have hnodup : (ds.map Prod.fst).Nodup := by
    rw [List.map_map]
    exact (List.nodup_range' 8 (by decide)).map fun i j h => (Name.word.inj h).2
  have hsource : ∀ d ∈ ds, ∀ y, d.2.source = some y → y ∉ ds.map Prod.fst := by
    refine List.forall_mem_map.mpr fun i _ y hy hmem => ?_
    obtain rfl := Option.some.inj hy
    obtain ⟨d, hd, heq⟩ := List.mem_map.mp hmem
    obtain ⟨j, -, rfl⟩ := List.mem_map.mp hd
    cases heq
  obtain ⟨env', hload, hdefs, hother⟩ := exists_loadParts env₁ hnodup (List.forall_mem_map.mpr fun _ _ => rfl) hsource
    (List.forall_mem_map.mpr fun i _ => ⟨_, heval i⟩)
  refine ⟨env', ?_, ?_, fun y hy => ?_⟩
  · rw [loadAll]
    simp only [Load.eval, henv]
    exact hload
  · rw [List.forall_mem_map] at hdefs
    rw [Bound, wordColumns, wordValues, List.forall₂_map_left_iff, List.forall₂_map_right_iff, List.forall₂_same]
    exact fun i hi => (hdefs i hi).trans (heval i)
  · rw [hother y hy]
    exact Function.update_of_ne (hy.ne_of_parent rfl) _ _

/-! ### The state of a column of strings -/

/-- What one row adds to the length. -/
def stringLenStep (c mlen : ℕ) (r : PatternRow G E) : ℕ :=
  match r.patterns[c]? with
  | some (.array _ ma) => max ma.length mlen
  | _ => mlen

lemma le_stringLenStep (mlen : ℕ) (r : PatternRow G E) : mlen ≤ stringLenStep c mlen r := by
  rw [stringLenStep]
  split
  · exact Nat.le_max_right _ _
  · exact le_rfl

lemma length_le_maxStringLen {y : Name} {ma : List Pattern} (h : InColumn ps c (.array y ma)) :
    ma.length ≤ maxStringLen ps c := by
  obtain ⟨r, hr, hp⟩ := h
  have hgrow : ∀ (ps : PatternRows G E) (mlen : ℕ), mlen ≤ ps.foldl (stringLenStep c) mlen := by
    intro ps
    induction ps with
    | nil => exact fun mlen => le_rfl
    | cons r ps ih => exact fun mlen => (le_stringLenStep mlen r).trans (ih _)
  have hfold : ∀ (ps : PatternRows G E) (mlen : ℕ), r ∈ ps → ma.length ≤ ps.foldl (stringLenStep c) mlen := by
    intro ps
    induction ps with
    | nil => exact fun mlen hr => absurd hr List.not_mem_nil
    | cons r' ps ih =>
      intro mlen hr
      rcases List.mem_cons.mp hr with rfl | hr
      · refine le_trans ?_ (hgrow ps _)
        rw [stringLenStep, hp]
        exact Nat.le_max_left _ _
      · exact ih _ hr
  exact hfold ps 0 hr

lemma stringColumn_of_can (hok : TableOk xs ps) (hx : xs[c]? = some x) (hcan : canMakeCharArrayState ps c = true)
    {len : ℕ} (hlen : maxStringLen ps c < len) : StringColumn ps c len ∧ x.strings = true := by
  rw [canMakeCharArrayState, Bool.and_eq_true, List.all_eq_true, List.any_eq_true] at hcan
  obtain ⟨hall, r, hr, hany⟩ := hcan
  have hstring : ∃ y ma, InColumn ps c (.array y ma) ∧ ma.any isCharLiteral = true := by
    split at hany
    · rename_i y ma hp
      exact ⟨y, ma, ⟨r, hr, hp⟩, hany⟩
    · cases hany
  obtain ⟨y, ma, hp, hchar⟩ := hstring
  have hty : ∀ t, ColumnTy ps c t → t = .array (.prim .char) := by
    intro t ht
    obtain ⟨t', rfl, hqs, -⟩ := columnTy_array ht hp
    obtain ⟨q, hq, hlit⟩ := List.any_eq_true.mp hchar
    have hqty := hqs q hq
    cases q with
    | literal z p =>
      rw [Pattern.hasTy_literal] at hqty
      cases p <;> first | exact congrArg Ty.array hqty | cases hlit
    | _ => cases hlit
  refine ⟨⟨hty, ?_, y, ma, hp, hchar⟩, ?_⟩
  · rintro p ⟨r', hr', hp'⟩
    have hrow := hall r' hr'
    rw [hp'] at hrow
    cases p with
    | any z vn => exact .inl rfl
    | array z ma' =>
      obtain ⟨t, ht⟩ := hok.columnTy hx
      obtain ⟨t', heq, hqs, hzero, -⟩ := columnTy_array ht ⟨r', hr', hp'⟩
      rw [hty t ht, Ty.array.injEq] at heq
      subst heq
      obtain ⟨w, hw, hwzero⟩ := exists_isString hqs (List.all_eq_true.mp hrow) hzero
      refine .inr ⟨z, ma', w, rfl, hw, hwzero, ?_⟩
      have hwlen : ma'.length = w.length := by simpa using congrArg List.length hw
      have hmax : ma'.length ≤ maxStringLen ps c := length_le_maxStringLen ⟨r', hr', hp'⟩
      omega
    | _ => cases hrow
  · by_contra hstrings
    have hnone := (hok.placed_of_inColumn hx hp).strings (Bool.eq_false_iff.mpr hstrings)
    rw [Pattern.hasString, hchar, Bool.true_or] at hnone
    cases hnone

lemma spec_makeCharArrayState (hmk : MakesStates guards mk) (hok : TableOk xs ps) (hx : xs[c]? = some x)
    (hcan : canMakeCharArrayState ps c = true) :
    Spec (Good guards) (fun _ => True) (makeCharArrayState mk ps c)
      fun st states => Handles guards states xs ps (fun _ _ => True) st := by
  obtain ⟨n, hn, hle⟩ := alignSize_eight (maxStringLen ps c + 1)
  obtain ⟨hcol, hstrings⟩ := stringColumn_of_can hok hx hcan (by omega : maxStringLen ps c < 8 * n)
  have hparts := takenApart_string (x := x) hcol
  have hname : columnName ps c = x.name := by
    obtain ⟨r, tail, rfl⟩ := List.exists_cons_of_ne_nil hok.nonempty
    obtain ⟨p, hp, hplaced⟩ := hok.inColumn hx List.mem_cons_self
    rw [columnName, headPattern, List.head?_cons, Option.bind_some, hp, Option.elim_some, hplaced.wildcard hstrings]
  rw [makeCharArrayState, hname, hn]
  refine spec_newExpr.bind fun ptr => ?_
  split
  · exact Spec.throw
  rename_i nps hnps
  have hnps' : nps = ps.filterMap (takeApart (stringParts (8 * n)) c) := by
    rw [← filterMap_of_mapM hnps]
    exact List.filterMap_congr fun r _ => addSATableRow_eq (8 * n) r
  rw [hnps']
  refine (hmk _ _ (hparts.tableOk hok hx)).bind fun next => Spec.pure fun states h => ?_
  refine Handles.load_of_opens h hparts hok hx fun env vs hin _ v hv henv => ?_
  obtain ⟨v', t, hv', -, hvty, ht⟩ := hin.column hx
  obtain rfl := Option.some.inj (hv.symm.trans hv')
  rw [hcol.typed t ht] at hvty
  obtain ⟨ws, rfl, hws, hzero, -⟩ := hvty.exists_array
  obtain ⟨s, rfl, hs⟩ := exists_stringValue hws hzero
  obtain ⟨env', hload, hbound, hother⟩ := exists_loadWords henv n ptr
  exact ⟨env', _, hload, opens_string hcol hs, hbound, hother⟩

end Hobbes.Match.Table
