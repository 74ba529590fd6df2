import Hobbes.Core.Saturation
import Mathlib.Computability.Language
import Mathlib.Data.UInt

/-!
# Regular expressions

What the parser builds, and the strings that it denotes. A set of characters becomes a choice among the longest
ranges of characters in it.
-/

namespace Hobbes

inductive Regex where
  | reps
  | rcharRange (b e : UInt8)
  | rstar (v : Regex)
  | reither (lhs rhs : Regex)
  | rseq (lhs rhs : Regex)
  | rbind (var : List UInt8) (defn : Regex)

namespace Regex

open Core Computability

def ch (c : Char) : UInt8 := c.toNat.toUInt8

/-- A group with a name matches what it matches without it. -/
def lang : Regex → Language UInt8
  | rcharRange b e => {w | ∃ c, b ≤ c ∧ c ≤ e ∧ w = [c]}
  | reps => 1
  | rstar v => v.lang∗
  | reither lhs rhs => lhs.lang + rhs.lang
  | rseq lhs rhs => lhs.lang * rhs.lang
  | rbind _ defn => defn.lang

def charLit (c : UInt8) : Regex := rcharRange c c

def bindTo (name : List UInt8) (p : Regex) : Regex := if name.isEmpty then p else rbind name p

def anyOf : List Regex → Regex
  | [] => reps
  | r :: rs => rs.foldl reither r

/-! ### Sets of characters -/

/-- A `std::set`, in its order. -/
abbrev CharSet := List UInt8

/-- The ranges from the one that begins with `b` and goes up to `e` so far. -/
def toRangesFrom (b e : UInt8) : CharSet → List (UInt8 × UInt8)
  | [] => [(b, e)]
  | c :: cs => if e.toNat + 1 = c.toNat then toRangesFrom b c cs else (b, e) :: toRangesFrom c c cs

def toRanges : CharSet → List (UInt8 × UInt8)
  | [] => []
  | c :: cs => toRangesFrom c c cs

def anyOfChars (cs : CharSet) : Regex := anyOf ((toRanges cs).map fun p => rcharRange p.1 p.2)

def insertChar (c : UInt8) (out : CharSet) : CharSet := insertOrd (· ≤ ·) c out

def unescapeInto (e : UInt8) (out : CharSet) : CharSet :=
  if e = ch 't' then insertChar (ch '\t') out
  else if e = ch 'r' then insertChar (ch '\r') out
  else if e = ch 'n' then insertChar (ch '\n') out
  else insertChar e out

def unescapePatChar (x : UInt8) : Regex := anyOfChars (unescapeInto x [])

def charRange (i e : UInt8) (out : CharSet) : CharSet :=
  insertAll (· ≤ ·) out ((List.range' i.toNat (e.toNat + 1 - i.toNat)).map UInt8.ofNat)

def anyChars : CharSet := charRange 0x00 0xff []

def setDifference (xs ys : CharSet) : CharSet := xs.filter (· ∉ ys)

/-! ### What they denote -/

/-- The strings of one character for which `p` holds. -/
def charLang (p : UInt8 → Prop) : Language UInt8 := {w | ∃ c, p c ∧ w = [c]}

lemma charLang_congr {p q : UInt8 → Prop} (h : ∀ c, p c ↔ q c) : charLang p = charLang q := by
  rw [funext fun c => propext (h c)]

lemma lang_rcharRange (b e : UInt8) : (rcharRange b e).lang = charLang fun c => b ≤ c ∧ c ≤ e := by
  ext w
  exact exists_congr fun c => and_assoc.symm

lemma lang_charLit (c : UInt8) : (charLit c).lang = charLang (· = c) := by
  rw [charLit, lang_rcharRange]
  exact charLang_congr fun d => ⟨fun h => UInt8.le_antisymm h.2 h.1, fun h => h ▸ ⟨UInt8.le_refl d, UInt8.le_refl d⟩⟩

lemma lang_bindTo (name : List UInt8) (p : Regex) : (bindTo name p).lang = p.lang := by
  rw [bindTo]
  split_ifs <;> rfl

lemma mem_lang_foldl {r : Regex} {rs : List Regex} {w : List UInt8} :
    w ∈ (rs.foldl reither r).lang ↔ w ∈ r.lang ∨ ∃ s ∈ rs, w ∈ s.lang := by
  induction rs generalizing r with
  | nil => simp
  | cons s rs ih =>
    rw [List.foldl_cons, ih, lang, Language.mem_add, List.exists_mem_cons_iff, or_assoc]

lemma exists_mem_toRangesFrom {b e : UInt8} (hbe : b ≤ e) (cs : CharSet) (k : UInt8) :
    (∃ p ∈ toRangesFrom b e cs, p.1 ≤ k ∧ k ≤ p.2) ↔ (b ≤ k ∧ k ≤ e) ∨ k ∈ cs := by
  induction cs generalizing b e with
  | nil => simp [toRangesFrom]
  | cons c cs ih =>
    rw [toRangesFrom]
    split_ifs with hnext
    · have hbc : b ≤ c := by
        rw [UInt8.le_iff_toNat_le] at hbe ⊢
        omega
      rw [ih hbc, List.mem_cons, ← or_assoc]
      refine or_congr_left ?_
      simp only [UInt8.le_iff_toNat_le, ← UInt8.toNat_inj] at hbe ⊢
      omega
    · rw [List.exists_mem_cons_iff, ih (UInt8.le_refl c), List.mem_cons]
      refine or_congr_right (or_congr_left ⟨fun h => UInt8.le_antisymm h.2 h.1, fun h => ?_⟩)
      exact h ▸ ⟨UInt8.le_refl k, UInt8.le_refl k⟩

lemma mem_lang_anyOf {rs : List Regex} (hrs : rs ≠ []) {w : List UInt8} :
    w ∈ (anyOf rs).lang ↔ ∃ s ∈ rs, w ∈ s.lang := by
  cases rs with
  | nil => exact absurd rfl hrs
  | cons r rs => rw [anyOf, mem_lang_foldl, List.exists_mem_cons_iff]

lemma toRangesFrom_ne_nil (b e : UInt8) (cs : CharSet) : toRangesFrom b e cs ≠ [] := by
  induction cs generalizing e with
  | nil => exact List.cons_ne_nil _ _
  | cons c cs ih =>
    rw [toRangesFrom]
    split_ifs
    · exact ih c
    · exact List.cons_ne_nil _ _

/-- A set without characters becomes the empty string. -/
lemma lang_anyOfChars (cs : CharSet) : (anyOfChars cs).lang = if cs = [] then 1 else charLang (· ∈ cs) := by
  cases cs with
  | nil => rfl
  | cons c cs =>
    have hne : (toRanges (c :: cs)).map (fun p => rcharRange p.1 p.2) ≠ [] :=
      fun h => toRangesFrom_ne_nil c c cs (List.map_eq_nil_iff.1 h)
    have hmem (k : UInt8) : (∃ p ∈ toRanges (c :: cs), p.1 ≤ k ∧ k ≤ p.2) ↔ k ∈ c :: cs := by
      rw [toRanges, exists_mem_toRangesFrom (UInt8.le_refl c), List.mem_cons]
      refine or_congr_left ⟨fun h => UInt8.le_antisymm h.2 h.1, fun h => ?_⟩
      exact h ▸ ⟨UInt8.le_refl k, UInt8.le_refl k⟩
    rw [if_neg (List.cons_ne_nil c cs)]
    ext w
    rw [anyOfChars, mem_lang_anyOf hne]
    simp only [List.mem_map, exists_exists_and_eq_and]
    constructor
    · rintro ⟨p, hp, k, hpk, hkp, rfl⟩
      exact ⟨k, (hmem k).1 ⟨p, hp, hpk, hkp⟩, rfl⟩
    · rintro ⟨k, hk, rfl⟩
      obtain ⟨p, hp, hpk, hkp⟩ := (hmem k).2 hk
      exact ⟨p, hp, k, hpk, hkp, rfl⟩

lemma mem_charRange {i e c : UInt8} {out : CharSet} : c ∈ charRange i e out ↔ (i ≤ c ∧ c ≤ e) ∨ c ∈ out := by
  rw [charRange, mem_insertAll, or_comm, List.mem_map]
  refine or_congr_left ⟨?_, fun h => ?_⟩
  · rintro ⟨n, hn, rfl⟩
    rw [List.mem_range'_1] at hn
    have he := e.toNat_lt
    rw [UInt8.le_iff_toNat_le, UInt8.le_iff_toNat_le, UInt8.toNat_ofNat', Nat.mod_eq_of_lt (by omega)]
    omega
  · rw [UInt8.le_iff_toNat_le, UInt8.le_iff_toNat_le] at h
    exact ⟨c.toNat, List.mem_range'_1.2 (by omega), UInt8.ofNat_toNat⟩

lemma mem_anyChars (c : UInt8) : c ∈ anyChars := by
  rw [anyChars, mem_charRange, UInt8.le_iff_toNat_le, UInt8.le_iff_toNat_le]
  have hc := c.toNat_lt
  exact .inl ⟨Nat.zero_le _, Nat.le_of_lt_succ hc⟩

lemma mem_setDifference {xs ys : CharSet} {c : UInt8} : c ∈ setDifference xs ys ↔ c ∈ xs ∧ c ∉ ys := by
  simp [setDifference]

end Regex

end Hobbes
