import Hobbes.Core.Lists
import Hobbes.Lang.Expr
import Mathlib.Data.List.DropRight
import Mathlib.Tactic.IntervalCases

/-!
# Strings in matches

A column of strings is matched word by word: the literals are packed when the match is compiled, eight characters to
a word and the first one on top, and the input is packed when it is matched. The words of a row are matched in the
places of the loaded ones, so that the names of variables are left out.
-/

namespace Hobbes.Match

open Core Lang

/-! ### Patterns -/

/-- Patterns for regular expressions, records and variants are not looked into here. -/
inductive Pattern where
  | any
  | literal (equivConstant : Primitive)
  | array (ps : List Pattern)
  | regex
  | record
  | variant

structure PatternRow (E : Type) where
  patterns : List Pattern
  guard : Option E
  result : E

abbrev Chars := List (BitVec 8)

/-- The pattern for a string. -/
def Pattern.chars (w : Chars) : Pattern := .array (w.map fun c => .literal (.char c))

/-! ### Packed input -/

/-- `packLong`. -/
def packLong (c0 c1 c2 c3 c4 c5 c6 c7 : BitVec 8) : BitVec 64 :=
  c0.setWidth 64 <<< 56 ||| (c1.setWidth 64 <<< 48 ||| (c2.setWidth 64 <<< 40 ||| (c3.setWidth 64 <<< 32 |||
    (c4.setWidth 64 <<< 24 ||| (c5.setWidth 64 <<< 16 ||| (c6.setWidth 64 <<< 8 ||| c7.setWidth 64))))))

/-- There is no result where an element is read that is not there. -/
def packCArrLong (cs : Chars) (i : ℕ) : Option (BitVec 64) :=
  let sd : ℤ := cs.length - i
  if sd ≤ 0 then some 0
  else if sd = 1 then do
    return packLong (← cs[i]?) 0 0 0 0 0 0 0
  else if sd = 2 then do
    return packLong (← cs[i]?) (← cs[i + 1]?) 0 0 0 0 0 0
  else if sd = 3 then do
    return packLong (← cs[i]?) (← cs[i + 1]?) (← cs[i + 2]?) 0 0 0 0 0
  else if sd = 4 then do
    return packLong (← cs[i]?) (← cs[i + 1]?) (← cs[i + 2]?) (← cs[i + 3]?) 0 0 0 0
  else if sd = 5 then do
    return packLong (← cs[i]?) (← cs[i + 1]?) (← cs[i + 2]?) (← cs[i + 3]?) (← cs[i + 4]?) 0 0 0
  else if sd = 6 then do
    return packLong (← cs[i]?) (← cs[i + 1]?) (← cs[i + 2]?) (← cs[i + 3]?) (← cs[i + 4]?) (← cs[i + 5]?) 0 0
  else if sd = 7 then do
    return packLong (← cs[i]?) (← cs[i + 1]?) (← cs[i + 2]?) (← cs[i + 3]?) (← cs[i + 4]?) (← cs[i + 5]?)
      (← cs[i + 6]?) 0
  else do
    return packLong (← cs[i]?) (← cs[i + 1]?) (← cs[i + 2]?) (← cs[i + 3]?) (← cs[i + 4]?) (← cs[i + 5]?)
      (← cs[i + 6]?) (← cs[i + 7]?)

/-! ### Packed literals -/

/-- `align<size_t>`. -/
def alignSize (x m : ℕ) : ℕ := if m = 0 ∨ x % m = 0 then x else (1 + x / m) * m

def spatChar (ma : List Pattern) (i : ℕ) : Option (BitVec 8) :=
  match ma[i]? with
  | none => some 0
  | some (.literal (.char c)) => some c
  | some _ => none

/-- `translatep<unsigned long>`. -/
def translatep (ma : List Pattern) (i : ℕ) : Option (BitVec 64) :=
  (List.range 8).foldlM (fun x j => do
    let c ← spatChar ma (i + (8 - 1 - j))
    return x ||| c.setWidth 64 <<< (8 * j)) 0

/-- The loop of `sarrayPatterns`, from character `i` on. -/
def sarrayPatternsFrom (ma : List Pattern) (i cs : ℕ) : Option (List Pattern) :=
  if 8 ≤ cs then do
    let x ← translatep ma i
    let ps ← sarrayPatternsFrom ma (i + 8) (cs - 8)
    return .literal (.long x) :: ps
  else some []
termination_by cs

def sarrayPatterns (cs : ℕ) (ma : List Pattern) : Option (List Pattern) := sarrayPatternsFrom ma 0 cs

variable {E : Type}

def maxStringLen (ps : List (PatternRow E)) (c : ℕ) : ℕ :=
  ps.foldl (fun mlen (r : PatternRow E) =>
    match r.patterns[c]? with
    | some (.array ma) => max ma.length mlen
    | _ => mlen) 0

def packedSValues (cs : ℕ) : ℕ := cs / 8

def addSATableRow (len : ℕ) (r : PatternRow E) (c : ℕ) : Option (PatternRow E) :=
  match r.patterns[c]? with
  | some (.array ma) => do
    let words ← sarrayPatterns len ma
    return { r with patterns := words ++ r.patterns.eraseIdx c }
  | some .any => some { r with patterns := List.replicate (packedSValues len) .any ++ r.patterns.eraseIdx c }
  | _ => none

/-- The places in the input at which words are loaded, from `i` on. -/
def wordLoads (i cs : ℕ) : List ℕ := if 8 ≤ cs then i :: wordLoads (i + 8) (cs - 8) else []
termination_by cs

/-- How many characters of a string are matched. -/
def matchedLen (ps : List (PatternRow E)) (c : ℕ) : ℕ := alignSize (maxStringLen ps c + 1) 8

/-- The words that are loaded, and the reduced table. -/
def makeCharArrayState (ps : List (PatternRow E)) (c : ℕ) : Option (List ℕ × List (PatternRow E)) := do
  let mlen := matchedLen ps c
  let nps ← ps.mapM fun r => addSATableRow mlen r c
  return (wordLoads 0 mlen, nps)

/-! ### What it is to do -/

/-- A pattern for a word accepts it. -/
def Pattern.Accepts : Pattern → BitVec 64 → Prop
  | .any, _ => True
  | .literal (.long x), w => w = x
  | _, _ => False

/-- The words of `s` are all there, and those of the row accept them just if the row is one for `s`. -/
def AcceptsItsString (loads : List ℕ) (row nrow : PatternRow E) (c : ℕ) (s : Chars) : Prop :=
  ∃ ws, loads.mapM (packCArrLong s) = some ws ∧
    (List.Forall₂ Pattern.Accepts (nrow.patterns.take loads.length) ws ↔
      row.patterns[c]? = some .any ∨ row.patterns[c]? = some (.chars s))

/-- Without the zero characters at its end. -/
def withoutPadding (s : Chars) : Chars := s.rdropWhile (· = 0)

/-- The part of `s` that is matched differs from another string in the row in more than zero characters at the end. -/
def ApartFromPadding (len : ℕ) (row : PatternRow E) (c : ℕ) (s : Chars) : Prop :=
  ∀ w, row.patterns[c]? = some (.chars w) → s = w ∨ withoutPadding (s.take len) ≠ withoutPadding w

/-! ### Words -/

/-- The word at `i` of a string that goes on with zero characters. -/
def word (f : ℕ → BitVec 8) (i : ℕ) : BitVec 64 :=
  packLong (f i) (f (i + 1)) (f (i + 2)) (f (i + 3)) (f (i + 4)) (f (i + 5)) (f (i + 6)) (f (i + 7))

def padded (s : Chars) (i : ℕ) : BitVec 8 := s[i]?.getD 0

lemma extractLsb'_packLong (c0 c1 c2 c3 c4 c5 c6 c7 : BitVec 8) {k : ℕ} (hk : k < 8) :
    (packLong c0 c1 c2 c3 c4 c5 c6 c7).extractLsb' (8 * k) 8 = [c7, c6, c5, c4, c3, c2, c1, c0].getD k 0 := by
  ext b hb
  simp only [packLong, BitVec.getElem_extractLsb', BitVec.getLsbD_or, BitVec.getLsbD_shiftLeft, BitVec.getLsbD_setWidth]
  interval_cases k <;> simp only [List.getD_cons_zero, List.getD_cons_succ] <;> grind

lemma word_inj {f g : ℕ → BitVec 8} {i : ℕ} : word f i = word g i ↔ ∀ k < 8, f (i + k) = g (i + k) := by
  constructor
  · intro h k hk
    have hbyte := congrArg (fun x => BitVec.extractLsb' (8 * (7 - k)) 8 x) h
    simp only [word, extractLsb'_packLong _ _ _ _ _ _ _ _ (by omega : 7 - k < 8)] at hbyte
    interval_cases k <;> exact hbyte
  · intro h
    have h0 := h 0 (by decide)
    rw [Nat.add_zero] at h0
    rw [word, word, h0, h 1 (by decide), h 2 (by decide), h 3 (by decide), h 4 (by decide), h 5 (by decide),
      h 6 (by decide), h 7 (by decide)]

lemma padded_of_lt {s : Chars} {i : ℕ} (h : i < s.length) : s[i]? = some (padded s i) := by
  rw [padded, List.getElem?_eq_getElem h]
  rfl

lemma padded_of_le {s : Chars} {i : ℕ} (h : s.length ≤ i) : padded s i = 0 := by
  rw [padded, List.getElem?_eq_none h]
  rfl

/-- The input is packed as it goes on with zero characters, and read only where it is. -/
lemma packCArrLong_eq (s : Chars) (i : ℕ) : packCArrLong s i = some (word (padded s) i) := by
  have hread : ∀ {k}, k < s.length → s[k]? = some (padded s k) := padded_of_lt
  have hzero : ∀ {k}, s.length ≤ k → padded s k = 0 := padded_of_le
  unfold packCArrLong
  simp only
  split_ifs with h0 h1 h2 h3 h4 h5 h6 h7
  · rw [word, hzero (by omega), hzero (by omega), hzero (by omega), hzero (by omega), hzero (by omega),
      hzero (by omega), hzero (by omega), hzero (by omega)]
    rfl
  all_goals
    simp (disch := omega) only [word, hread, hzero, Option.bind_eq_bind, Option.bind_some, Option.pure_def]

lemma or_reverse (a b c d e f g h : BitVec 64) :
    0#64 ||| a ||| b ||| c ||| d ||| e ||| f ||| g ||| h = h ||| (g ||| (f ||| (e ||| (d ||| (c ||| (b ||| a)))))) := by
  rw [BitVec.zero_or]
  ac_rfl

/-- A literal is packed in the same way. -/
lemma translatep_chars (w : Chars) (i : ℕ) :
    translatep (w.map fun c => .literal (.char c)) i = some (word (padded w) i) := by
  have hchar : ∀ k, spatChar (w.map fun c => .literal (.char c)) k = some (padded w k) := by
    intro k
    rw [spatChar, List.getElem?_map, padded]
    cases w[k]? <;> rfl
  have hrange : List.range 8 = [0, 1, 2, 3, 4, 5, 6, 7] := rfl
  simp only [translatep, hrange, hchar, List.foldlM_cons, List.foldlM_nil, Option.bind_eq_bind, Option.bind_some,
    Option.pure_def, word, packLong, Option.some.injEq]
  simp only [Nat.reduceSub, Nat.reduceMul, BitVec.shiftLeft_zero]
  exact or_reverse ..

/-- Where a word can be made, its characters are there. -/
lemma exists_spatChar {ma : List Pattern} {i : ℕ} {x : BitVec 64} (h : translatep ma i = some x) {k : ℕ} (hk : k < 8) :
    ∃ c, spatChar ma (i + k) = some c := by
  have hall : ∀ (js : List ℕ) (x y : BitVec 64), js.foldlM (fun x j => do
      let c ← spatChar ma (i + (8 - 1 - j))
      return x ||| c.setWidth 64 <<< (8 * j)) x = some y → ∀ j ∈ js, ∃ c, spatChar ma (i + (8 - 1 - j)) = some c := by
    intro js
    induction js with
    | nil => simp
    | cons j js ih =>
      intro x y h
      rw [List.foldlM_cons, Option.bind_eq_bind, Option.bind_eq_some_iff] at h
      obtain ⟨z, hz, h⟩ := h
      obtain ⟨c, hc, -⟩ := Option.bind_eq_some_iff.mp hz
      exact List.forall_mem_cons.mpr ⟨⟨c, hc⟩, ih z y h⟩
  obtain ⟨c, hc⟩ := hall _ _ _ h (7 - k) (List.mem_range.mpr (by omega))
  exact ⟨c, by rwa [show 8 - 1 - (7 - k) = k by omega] at hc⟩

lemma wordLoads_eq (i n : ℕ) : wordLoads i (8 * n) = List.range' i n 8 := by
  induction n generalizing i with
  | zero => rw [wordLoads, if_neg (by omega), List.range'_zero]
  | succ n ih => rw [wordLoads, if_pos (by omega), show 8 * (n + 1) - 8 = 8 * n by omega, ih, List.range'_succ]

lemma sarrayPatternsFrom_eq_some {ma ps : List Pattern} {i n : ℕ} (h : sarrayPatternsFrom ma i (8 * n) = some ps) :
    ∃ xs, (List.range' i n 8).mapM (translatep ma) = some xs ∧ ps = xs.map fun x => .literal (.long x) := by
  induction n generalizing i ps with
  | zero =>
    rw [sarrayPatternsFrom, if_neg (by omega)] at h
    cases h
    exact ⟨[], rfl, rfl⟩
  | succ n ih =>
    rw [sarrayPatternsFrom, if_pos (by omega), show 8 * (n + 1) - 8 = 8 * n by omega] at h
    simp only [Option.bind_eq_bind, Option.bind_eq_some_iff] at h
    obtain ⟨x, hx, ps', hps, heq⟩ := h
    cases heq
    obtain ⟨xs, hxs, rfl⟩ := ih hps
    exact ⟨x :: xs, by rw [List.range'_succ, List.mapM_cons, hx, hxs]; rfl, rfl⟩

/-! ### Literals -/

lemma chars_injective : Function.Injective Pattern.chars := by
  intro v w h
  refine List.map_injective_iff.mpr (fun c d hcd => ?_) (Pattern.array.inj h)
  exact Primitive.char.inj (Pattern.literal.inj hcd)

/-- A pattern whose words can be made is one for a string. -/
lemma exists_chars {ma : List Pattern} {n : ℕ} {xs : List (BitVec 64)} (hlen : ma.length ≤ 8 * n)
    (h : (List.range' 0 n 8).mapM (translatep ma) = some xs) : ∃ w, Pattern.array ma = .chars w := by
  have hchar : ∀ p ∈ ma, ∃ c, p = .literal (.char c) := by
    intro p hp
    obtain ⟨i, hi, rfl⟩ := List.mem_iff_getElem.mp hp
    obtain ⟨x, -, hx⟩ : ∃ x ∈ xs, translatep ma (8 * (i / 8)) = some x := by
      refine exists_of_forall₂ (mapM_eq_some.mp h).flip ?_
      exact List.mem_range'.mpr ⟨i / 8, by omega, by omega⟩
    obtain ⟨c, hc⟩ := exists_spatChar hx (Nat.mod_lt i (by decide : 0 < 8))
    rw [Nat.div_add_mod, spatChar, List.getElem?_eq_getElem hi] at hc
    split at hc
    · contradiction
    · rename_i d heq
      exact ⟨d, Option.some.inj heq⟩
    · contradiction
  clear h hlen
  induction ma with
  | nil => exact ⟨[], rfl⟩
  | cons p ma ih =>
    obtain ⟨⟨c, rfl⟩, hma⟩ := List.forall_mem_cons.mp hchar
    obtain ⟨w, hw⟩ := ih hma
    exact ⟨c :: w, by rw [Pattern.chars, List.map_cons, ← Pattern.array.inj hw]⟩

/-! ### Padding -/

lemma padded_withoutPadding (s : Chars) (i : ℕ) : padded (withoutPadding s) i = padded s i := by
  induction s using List.reverseRecOn with
  | nil => rfl
  | append_singleton s c ih =>
    rw [withoutPadding, List.rdropWhile_concat]
    split_ifs with hc
    · rw [← withoutPadding, ih, padded, padded, List.getElem?_append]
      split_ifs with hi
      · rfl
      · rw [List.getElem?_eq_none (not_lt.mp hi), of_decide_eq_true hc]
        cases i - s.length <;> rfl
    · rfl

lemma padded_last {s : Chars} {i : ℕ} (hi : i + 1 = (withoutPadding s).length) : padded (withoutPadding s) i ≠ 0 := by
  induction s using List.reverseRecOn with
  | nil => cases hi
  | append_singleton s c ih =>
    rw [withoutPadding, List.rdropWhile_concat] at hi ⊢
    split_ifs at hi ⊢ with hc
    · exact ih hi
    · rw [List.length_append, List.length_singleton] at hi
      obtain rfl : i = s.length := by omega
      rw [padded, List.getElem?_concat_length]
      exact fun h => hc (decide_eq_true h)

/-- Without its padding, a string is known by its characters in all places. -/
lemma withoutPadding_eq_iff {s w : Chars} : withoutPadding s = withoutPadding w ↔ ∀ i, padded s i = padded w i := by
  constructor
  · intro h i
    rw [← padded_withoutPadding, h, padded_withoutPadding]
  · intro h
    have hshort : ∀ {a b : Chars}, (∀ i, padded a i = padded b i) →
        (withoutPadding b).length ≤ (withoutPadding a).length := by
      intro a b hab
      by_contra hlt
      rw [not_le] at hlt
      refine padded_last (s := b) (i := (withoutPadding b).length - 1) (by omega) ?_
      rw [padded_withoutPadding, ← hab, ← padded_withoutPadding, padded_of_le (by omega)]
    refine List.ext_getElem (le_antisymm (hshort fun i => (h i).symm) (hshort h)) fun i hi hi' => ?_
    have hsome := padded_of_lt hi
    rw [padded_withoutPadding, h, ← padded_withoutPadding, ← padded_of_lt hi'] at hsome
    exact Option.some.inj (by rw [← List.getElem?_eq_getElem hi, ← List.getElem?_eq_getElem hi', hsome])

lemma padded_take (s : Chars) (n i : ℕ) : padded (s.take n) i = if i < n then padded s i else 0 := by
  rw [padded, List.getElem?_take]
  split_ifs <;> rfl

/-! ### Rows -/

lemma alignSize_eight (x : ℕ) : ∃ n, alignSize x 8 = 8 * n ∧ x ≤ 8 * n := by
  by_cases h : x % 8 = 0
  · rw [alignSize, if_pos (Or.inr h)]
    exact ⟨x / 8, by omega, by omega⟩
  · rw [alignSize, if_neg (by simp [h])]
    exact ⟨1 + x / 8, by omega, by omega⟩

lemma length_le_maxStringLen {ps : List (PatternRow E)} {c : ℕ} {r : PatternRow E} (hr : r ∈ ps) {ma : List Pattern}
    (hma : r.patterns[c]? = some (.array ma)) : ma.length ≤ maxStringLen ps c := by
  let step := fun (mlen : ℕ) (r : PatternRow E) =>
    match r.patterns[c]? with
    | some (.array ma) => max ma.length mlen
    | _ => mlen
  have hstep : ∀ (mlen : ℕ) (r : PatternRow E), mlen ≤ step mlen r := by
    intro mlen r
    simp only [step]
    split
    · exact Nat.le_max_right _ _
    · exact le_rfl
  have hgrow : ∀ (ps : List (PatternRow E)) (mlen : ℕ), mlen ≤ ps.foldl step mlen := by
    intro ps
    induction ps with
    | nil => exact fun mlen => le_rfl
    | cons r ps ih => exact fun mlen => (hstep mlen r).trans (ih _)
  have hfold : ∀ (ps : List (PatternRow E)) (mlen : ℕ), r ∈ ps → ma.length ≤ ps.foldl step mlen := by
    intro ps
    induction ps with
    | nil => exact fun mlen hr => by cases hr
    | cons r' ps ih =>
      intro mlen hr
      rcases List.mem_cons.mp hr with rfl | hr
      · refine le_trans ?_ (hgrow ps _)
        simp only [step, hma]
        exact Nat.le_max_left _ _
      · exact ih _ hr
  exact hfold ps 0 hr

/-- The words of a row that has been split: wildcards for a wildcard, and the packed words for a string. -/
lemma addSATableRow_eq_some {n c : ℕ} {row nrow : PatternRow E} (h : addSATableRow (8 * n) row c = some nrow)
    (hlen : ∀ ma, row.patterns[c]? = some (.array ma) → ma.length ≤ 8 * n) :
    row.patterns[c]? = some .any ∧ nrow.patterns.take n = List.replicate n .any ∨
      ∃ w, w.length ≤ 8 * n ∧ row.patterns[c]? = some (.chars w) ∧
        nrow.patterns.take n = ((List.range' 0 n 8).map (word (padded w))).map fun x => .literal (.long x) := by
  unfold addSATableRow at h
  split at h
  · rename_i ma hma
    obtain ⟨words, hwords, heq⟩ := Option.bind_eq_some_iff.mp h
    cases heq
    obtain ⟨xs, hxs, rfl⟩ := sarrayPatternsFrom_eq_some hwords
    obtain ⟨w, hw⟩ := exists_chars (hlen ma hma) hxs
    obtain rfl := Pattern.array.inj hw
    rw [mapM_some (translatep_chars w)] at hxs
    cases hxs
    refine Or.inr ⟨w, ?_, hma, ?_⟩
    · have := hlen _ hma
      rwa [List.length_map] at this
    · simp
  · rename_i hany
    cases h
    refine Or.inl ⟨hany, ?_⟩
    rw [packedSValues, Nat.mul_div_cancel_left n (by decide)]
    simp
  · cases h

/-- The words of two strings are the same just if the strings are, so far as they are matched. -/
lemma accepts_words_iff {s w : Chars} {n : ℕ} (hw : w.length ≤ 8 * n) :
    List.Forall₂ Pattern.Accepts (((List.range' 0 n 8).map (word (padded w))).map fun x => .literal (.long x))
        ((List.range' 0 n 8).map (word (padded s))) ↔
      withoutPadding (s.take (8 * n)) = withoutPadding w := by
  rw [List.map_map, List.forall₂_map_left_iff, List.forall₂_map_right_iff, List.forall₂_same, withoutPadding_eq_iff]
  have hword : ∀ k, Pattern.Accepts (((fun x => Pattern.literal (.long x)) ∘ word (padded w)) k) (word (padded s) k) ↔
      ∀ j < 8, padded s (k + j) = padded w (k + j) := fun k => word_inj
  simp only [hword, padded_take]
  constructor
  · intro h i
    split_ifs with hi
    · have := h (8 * (i / 8)) (List.mem_range'.mpr ⟨i / 8, by omega, by omega⟩) (i % 8) (by omega)
      rwa [Nat.div_add_mod] at this
    · rw [padded_of_le (by omega)]
  · intro h k hk j hj
    obtain ⟨i, hi, rfl⟩ := List.mem_range'.mp hk
    have := h (0 + 8 * i + j)
    rwa [if_pos (by omega)] at this

/-- Matching a string by its words is matching it just where it differs from the row's string in more than padding; the
words are packed in the same way on both sides. -/
theorem acceptsItsString_iff {ps nps : List (PatternRow E)} {c : ℕ} {loads : List ℕ}
    (h : makeCharArrayState ps c = some (loads, nps)) {r : ℕ} {row nrow : PatternRow E} (hrow : ps[r]? = some row)
    (hnrow : nps[r]? = some nrow) (s : Chars) :
    (∀ i, translatep (s.map fun c => .literal (.char c)) i = packCArrLong s i) ∧
      (AcceptsItsString loads row nrow c s ↔ ApartFromPadding (matchedLen ps c) row c s) := by
  refine ⟨fun i => (translatep_chars s i).trans (packCArrLong_eq s i).symm, ?_⟩
  obtain ⟨n, hn, hle⟩ := alignSize_eight (maxStringLen ps c + 1)
  simp only [makeCharArrayState, matchedLen, hn, Option.bind_eq_bind, Option.bind_eq_some_iff] at h
  obtain ⟨nps', hnps, heq⟩ := h
  cases heq
  have hadd : addSATableRow (8 * n) row c = some nrow := by
    have := getElem?_of_mapM hnps r
    rw [hnrow, hrow] at this
    exact this.symm
  rw [AcceptsItsString, wordLoads_eq, List.length_range', mapM_some (packCArrLong_eq s)]
  simp only [Option.some.injEq, exists_eq_left']
  rw [ApartFromPadding, matchedLen, hn]
  have hlen : ∀ ma, row.patterns[c]? = some (.array ma) → ma.length ≤ 8 * n := fun ma hma =>
    (length_le_maxStringLen (List.mem_of_getElem? hrow) hma).trans (by omega)
  rcases addSATableRow_eq_some hadd hlen with ⟨hany, hwords⟩ | ⟨w, hw, hchars, hwords⟩
  · refine iff_of_true ⟨fun _ => Or.inl hany, fun _ => ?_⟩ fun w hw => ?_
    · rw [hwords, List.forall₂_iff_zip]
      refine ⟨by simp, fun hp => ?_⟩
      rw [List.eq_of_mem_replicate (List.of_mem_zip hp).1]
      trivial
    · rw [hany] at hw
      cases hw
  · have hrow_eq : ∀ v, row.patterns[c]? = some (.chars v) ↔ v = w := fun v => by
      rw [hchars, Option.some.injEq, chars_injective.eq_iff, eq_comm]
    have hany : row.patterns[c]? ≠ some .any := by
      rw [hchars]
      exact nofun
    rw [hwords, accepts_words_iff hw, hrow_eq, or_iff_right hany]
    simp only [hrow_eq, forall_eq]
    have hself : s = w → withoutPadding (s.take (8 * n)) = withoutPadding w := fun h => by
      rw [h, List.take_of_length_le hw]
    tauto

/-- A match of a string against `"a"`. -/
def letterRows : List (PatternRow ℕ) := [⟨[.chars [97]], none, 1⟩, ⟨[.any], none, 2⟩]

lemma makeCharArrayState_letterRows : makeCharArrayState letterRows 0 =
    some ([0], [⟨[.literal (.long 0x6100000000000000)], none, 1⟩, ⟨[.any], none, 2⟩]) := by
  have hlen : matchedLen letterRows 0 = 8 * 1 := rfl
  have hwords : sarrayPatternsFrom [.literal (.char 97)] 0 (8 * 1) = some [.literal (.long 0x6100000000000000)] := by
    rw [sarrayPatternsFrom, sarrayPatternsFrom]
    rfl
  rw [makeCharArrayState, hlen, wordLoads_eq, letterRows, List.mapM_cons, List.mapM_cons]
  simp only [addSATableRow, Pattern.chars, List.map_cons, List.map_nil, List.getElem?_cons_zero, sarrayPatterns, hwords]
  rfl

theorem acceptsItsString_letter :
    ApartFromPadding 8 (⟨[.chars [97]], none, 1⟩ : PatternRow ℕ) 0 [98] ∧
      AcceptsItsString [0] (⟨[.chars [97]], none, 1⟩ : PatternRow ℕ)
        ⟨[.literal (.long 0x6100000000000000)], none, 1⟩ 0 [98] := by
  have hapart : ApartFromPadding 8 (⟨[.chars [97]], none, 1⟩ : PatternRow ℕ) 0 [98] := by
    intro w hw
    obtain rfl := chars_injective (Option.some.inj hw)
    exact Or.inr (by decide)
  exact ⟨hapart, (acceptsItsString_iff makeCharArrayState_letterRows (r := 0) rfl rfl [98]).2.mpr hapart⟩

/-- The string `"a\0"` is taken for `"a"`. -/
theorem not_acceptsItsString : ¬ ∀ (ps nps : List (PatternRow ℕ)) (c : ℕ) (loads : List ℕ),
    makeCharArrayState ps c = some (loads, nps) → ∀ (r : ℕ) (row nrow : PatternRow ℕ), ps[r]? = some row →
      nps[r]? = some nrow → ∀ s, AcceptsItsString loads row nrow c s := by
  intro h
  obtain ⟨ws, hws, hiff⟩ := h _ _ _ _ makeCharArrayState_letterRows 0 _ _ rfl rfl [97, 0]
  have hpacked : [0].mapM (packCArrLong [97, 0]) = some [0x6100000000000000] := by decide
  cases hws.symm.trans hpacked
  rcases hiff.mp (.cons rfl .nil) with hany | hchars
  · cases hany
  · exact absurd (chars_injective (Option.some.inj hchars)) (by decide)

end Hobbes.Match
