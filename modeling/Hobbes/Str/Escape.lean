import Mathlib.Tactic.Common

/-!
# Escaped strings

What is escaped is read back as it was. The reader of escapes takes two characters behind `\x`, and one step past the
end of the string where there are fewer: from there on its loop never meets the end.
-/

namespace Hobbes.Str

/-! ### Both functions -/

/-- A quote of either kind, a line feed, a tab, a carriage return, a backslash and a zero are escaped. -/
def escapeChar (c : UInt8) : List UInt8 :=
  match c with
  | 34 => [92, 34]
  | 39 => [92, 39]
  | 10 => [92, 110]
  | 9 => [92, 116]
  | 13 => [92, 114]
  | 92 => [92, 92]
  | 0 => [92, 48]
  | c => [c]

def escape (cs : List UInt8) : List UInt8 := cs.flatMap escapeChar

/-- The value of a hexadecimal digit. -/
def denyb (c : UInt8) : UInt8 :=
  if 97 ≤ c ∧ c ≤ 102 then 10 + (c - 97)
  else if 65 ≤ c ∧ c ≤ 70 then 10 + (c - 65)
  else if 48 ≤ c ∧ c ≤ 57 then c - 48
  else 0

/-- What stands for an escaped character that is not `x`. -/
def unescapeChar (c : UInt8) : UInt8 :=
  match c with
  | 110 => 10
  | 116 => 9
  | 114 => 13
  | 48 => 0
  | c => c

/-- `if (c != cs.end()) b = *c`. -/
def digitAt (cs : List UInt8) (i : ℕ) : Option UInt8 := if i = cs.length then some 0 else cs[i]?

/-- The loop from the position `i`. A read outside the string has no result. -/
def unescapeFrom (cs : List UInt8) (i : ℕ) (esc : Bool) (result : List UInt8) : Option (List UInt8) :=
  if i = cs.length then some result
  else
    match _h : cs[i]? with
    | none => none
    | some c =>
      if c = 92 ∧ esc = false then unescapeFrom cs (i + 1) true result
      else if esc then
        if c = 120 then
          (digitAt cs (i + 1)).bind fun b1 => (digitAt cs (i + 2)).bind fun b2 =>
            unescapeFrom cs (i + 3) false (result ++ [(denyb b1 <<< 4) + denyb b2])
        else unescapeFrom cs (i + 1) false (result ++ [unescapeChar c])
      else unescapeFrom cs (i + 1) esc (result ++ [c])
termination_by cs.length - i
decreasing_by all_goals
  have := (List.getElem?_eq_some_iff.mp _h).1
  omega

def unescape (cs : List UInt8) : Option (List UInt8) := unescapeFrom cs 0 false []

/-! ### What is left of the string -/

/-- What is read from the rest of a string. -/
def unescapeRest : Bool → List UInt8 → Option (List UInt8)
  | _, [] => some []
  | false, c :: cs => if c = 92 then unescapeRest true cs else (unescapeRest false cs).map (c :: ·)
  | true, c :: cs =>
    if c = 120 then
      match cs with
      | b1 :: b2 :: cs => (unescapeRest false cs).map (((denyb b1 <<< 4) + denyb b2) :: ·)
      | _ => none
    else (unescapeRest false cs).map (unescapeChar c :: ·)

/-- The rest of a string ends within an escape `\x`, behind which there are fewer than two characters. -/
def cutShort : Bool → List UInt8 → Bool
  | _, [] => false
  | false, c :: cs => cutShort (c = 92) cs
  | true, c :: cs =>
    if c = 120 then
      match cs with
      | _ :: _ :: cs => cutShort false cs
      | _ => true
    else cutShort false cs

lemma unescapeRest_of_ne {c : UInt8} (h : c ≠ 120) (cs : List UInt8) :
    unescapeRest true (c :: cs) = (unescapeRest false cs).map (unescapeChar c :: ·) := by
  conv_lhs => unfold unescapeRest
  rw [if_neg h]

lemma cutShort_of_ne {c : UInt8} (h : c ≠ 120) (cs : List UInt8) : cutShort true (c :: cs) = cutShort false cs := by
  conv_lhs => unfold cutShort
  rw [if_neg h]

/-- Both digits are there, or the end of the string is passed by. -/
lemma unescapeFrom_hex (cs : List UInt8) {i : ℕ} (hi : i ≤ cs.length) (result : List UInt8) :
    ((digitAt cs i).bind fun b1 => (digitAt cs (i + 1)).bind fun b2 =>
      unescapeFrom cs (i + 2) false (result ++ [(denyb b1 <<< 4) + denyb b2])) =
    match cs.drop i with
    | b1 :: b2 :: _ => unescapeFrom cs (i + 2) false (result ++ [(denyb b1 <<< 4) + denyb b2])
    | _ => none := by
  rcases Nat.lt_or_ge (i + 1) cs.length with hlt | hge
  · have h1 : digitAt cs i = some cs[i] := by
      rw [digitAt, if_neg (by omega), List.getElem?_eq_getElem]
    have h2 : digitAt cs (i + 1) = some cs[i + 1] := by
      rw [digitAt, if_neg (by omega), List.getElem?_eq_getElem]
    rw [h1, h2, List.drop_eq_getElem_cons (by omega), List.drop_eq_getElem_cons hlt]
    rfl
  · rcases Nat.eq_or_lt_of_le hi with rfl | hlt
    · have h2 : digitAt cs (cs.length + 1) = none := by
        rw [digitAt, if_neg (by omega), List.getElem?_eq_none (by omega)]
      rw [h2, List.drop_length]
      cases digitAt cs cs.length <;> rfl
    · -- the last character is read, and then the loop is one step past the end
      obtain rfl : i = cs.length - 1 := by omega
      have h3 : ∀ b, unescapeFrom cs (cs.length - 1 + 2) false b = none := by
        intro b
        rw [unescapeFrom, if_neg (by omega)]
        split
        · rfl
        · rename_i c hc
          rw [List.getElem?_eq_none (by omega)] at hc
          cases hc
      have hdrop : cs.drop (cs.length - 1) = [cs[cs.length - 1]] := by
        rw [List.drop_eq_getElem_cons hlt, List.drop_eq_nil_iff.mpr (by omega)]
      simp only [h3, hdrop]
      cases digitAt cs (cs.length - 1) with
      | none => rfl
      | some b1 => cases digitAt cs (cs.length - 1 + 1) <;> rfl

lemma unescapeFrom_eq (cs : List UInt8) {i : ℕ} (hi : i ≤ cs.length) (esc : Bool) (result : List UInt8) :
    unescapeFrom cs i esc result = (unescapeRest esc (cs.drop i)).map (result ++ ·) := by
  rcases Nat.eq_or_lt_of_le hi with rfl | hlt
  · rw [unescapeFrom, if_pos rfl, List.drop_length]
    cases esc <;> simp [unescapeRest]
  · have hnext := fun esc result => unescapeFrom_eq cs (i := i + 1) hlt esc result
    have hrun : unescapeFrom cs i esc result =
        if cs[i] = 92 ∧ esc = false then unescapeFrom cs (i + 1) true result
        else if esc then
          if cs[i] = 120 then
            (digitAt cs (i + 1)).bind fun b1 => (digitAt cs (i + 2)).bind fun b2 =>
              unescapeFrom cs (i + 3) false (result ++ [(denyb b1 <<< 4) + denyb b2])
          else unescapeFrom cs (i + 1) false (result ++ [unescapeChar cs[i]])
        else unescapeFrom cs (i + 1) esc (result ++ [cs[i]]) := by
      rw [unescapeFrom, if_neg (by omega)]
      split
      · rename_i hnone
        rw [List.getElem?_eq_getElem hlt] at hnone
        cases hnone
      · rename_i c hc
        rw [List.getElem?_eq_getElem hlt] at hc
        obtain rfl := Option.some.inj hc
        rfl
    rw [hrun, List.drop_eq_getElem_cons hlt]
    cases esc with
    | false =>
      by_cases hslash : cs[i] = 92
      · rw [if_pos ⟨hslash, rfl⟩, hnext, unescapeRest, if_pos hslash]
      · rw [if_neg fun h => hslash h.1, if_neg Bool.false_ne_true, hnext, unescapeRest, if_neg hslash]
        simp [Function.comp_def]
    | true =>
      by_cases hx : cs[i] = 120
      · rw [if_neg nofun, if_pos rfl, if_pos hx, unescapeFrom_hex cs hlt]
        have hrest : unescapeRest true (cs[i] :: cs.drop (i + 1)) =
            match cs.drop (i + 1) with
            | b1 :: b2 :: cs => (unescapeRest false cs).map (((denyb b1 <<< 4) + denyb b2) :: ·)
            | _ => none := by
          conv_lhs => unfold unescapeRest
          rw [if_pos hx]
        rw [hrest]
        cases hdrop : cs.drop (i + 1) with
        | nil => rfl
        | cons b1 rest =>
          cases rest with
          | nil => rfl
          | cons b2 rest =>
            have hlen : i + 3 ≤ cs.length := by
              have hlen := congrArg List.length hdrop
              rw [List.length_drop, List.length_cons, List.length_cons] at hlen
              omega
            have hrest : cs.drop (i + 3) = rest := by
              have hdrop' := congrArg (List.drop 2) hdrop
              rwa [List.drop_drop] at hdrop'
            have hskip := unescapeFrom_eq cs hlen false (result ++ [(denyb b1 <<< 4) + denyb b2])
            rw [hrest] at hskip
            simp [hskip, Function.comp_def]
      · rw [if_neg nofun, if_pos rfl, if_neg hx, hnext, unescapeRest_of_ne hx]
        simp [Function.comp_def]
termination_by cs.length - i

lemma unescapeRest_isSome (esc : Bool) (cs : List UInt8) :
    (∃ r, unescapeRest esc cs = some r) ↔ cutShort esc cs = false := by
  fun_induction unescapeRest esc cs with
  | case1 => simp [cutShort]
  | case2 cs ih => simpa [cutShort] using ih
  | case3 c cs hc ih => simpa [cutShort, hc] using ih
  | case4 b1 b2 cs ih => simpa [cutShort] using ih
  | case5 cs hcs =>
    have hcut : cutShort true (120 :: cs) = true := by
      conv_lhs => unfold cutShort
      rw [if_pos rfl]
      split
      · rename_i b1 b2 cs
        exact absurd rfl (hcs b1 b2 cs)
      · rfl
    simp [hcut]
  | case6 c cs hc ih => simpa [cutShort_of_ne hc] using ih

/-- A character is written as it is, or as an escape that stands for it. -/
lemma escapeChar_cases (c : UInt8) :
    (escapeChar c = [c] ∧ c ≠ 92) ∨ ∃ d, escapeChar c = [92, d] ∧ d ≠ 120 ∧ unescapeChar d = c := by
  unfold escapeChar
  split
  · exact .inr ⟨34, rfl, by decide, rfl⟩
  · exact .inr ⟨39, rfl, by decide, rfl⟩
  · exact .inr ⟨110, rfl, by decide, rfl⟩
  · exact .inr ⟨116, rfl, by decide, rfl⟩
  · exact .inr ⟨114, rfl, by decide, rfl⟩
  · exact .inr ⟨92, rfl, by decide, rfl⟩
  · exact .inr ⟨48, rfl, by decide, rfl⟩
  · exact .inl ⟨rfl, by assumption⟩

lemma unescapeRest_escape (cs : List UInt8) : unescapeRest false (escape cs) = some cs := by
  induction cs with
  | nil => rfl
  | cons c cs ih =>
    rw [escape, List.flatMap_cons, ← escape]
    rcases escapeChar_cases c with ⟨heq, hc⟩ | ⟨d, heq, hd, hdc⟩
    · rw [heq, List.singleton_append, unescapeRest, if_neg hc, ih]
      rfl
    · rw [heq, List.cons_append, List.singleton_append, unescapeRest, if_pos rfl, unescapeRest_of_ne hd, ih, hdc]
      rfl

/-! ### Where the reader stays in bounds -/

/-- What has been escaped is read back, and any string is read without leaving it iff no escape `\x` is cut short by its
end. -/
theorem unescape_iff (s t : List UInt8) :
    unescape (escape s) = some s ∧ ((∃ r, unescape t = some r) ↔ cutShort false t = false) := by
  have hrest : ∀ cs, unescape cs = unescapeRest false cs := by
    intro cs
    rw [unescape, unescapeFrom_eq cs (Nat.zero_le _), List.drop_zero]
    simp
  rw [hrest, hrest]
  exact ⟨unescapeRest_escape s, unescapeRest_isSome false t⟩

/-- The string that is only `\x`. -/
theorem not_unescape : ¬ ∀ t, ∃ r, unescape t = some r := by
  intro h
  obtain ⟨r, hr⟩ := h [92, 120]
  have hnone : unescape [92, 120] = none := by decide +kernel
  rw [hnone] at hr
  cases hr

end Hobbes.Str
