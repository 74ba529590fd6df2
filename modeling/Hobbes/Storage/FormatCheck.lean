import Hobbes.Storage.FormatString
import Mathlib.Data.List.TakeWhile
import Mathlib.Tactic.Ring

/-!
# What the check of format strings covers

The check accepts a string just when every reference at the head of one of its own pieces is small enough. Of the
reader's references it misses those that are not.
-/

namespace Hobbes

namespace FormatString

open Regex (ch)

/-! ### Pieces -/

lemma cuts_cons_iff {next : List UInt8 → List UInt8} {c : UInt8} {s t : List UInt8} :
    Cuts next (c :: s) t ↔ t = c :: s ∨ Cuts next (next (c :: s)) t := by
  constructor
  · intro h
    cases h with
    | here => exact Or.inl rfl
    | later h => exact Or.inr h
  · rintro (rfl | h)
    · exact .here _
    · exact .later h

lemma cuts_nil_iff {next : List UInt8 → List UInt8} {t : List UInt8} : Cuts next [] t ↔ t = [] := by
  constructor
  · intro h
    cases h
    rfl
  · rintro rfl
    exact .here _

lemma length_checkNext_le (c : UInt8) (cs : List UInt8) : (checkNext (c :: cs)).length ≤ cs.length := by
  have hdrop := (cs.dropWhile_sublist isDigit).length_le
  rw [checkNext]
  split_ifs
  · simp
  · rw [List.length_tail]
    omega
  · exact le_rfl

lemma length_bracedExpr {bc : ℕ} {b cs e rest : List UInt8} (h : bracedExpr bc b cs = some (e, rest)) :
    rest.length < cs.length := by
  induction cs generalizing bc b with
  | nil => simp [bracedExpr] at h
  | cons c cs ih =>
    simp only [bracedExpr] at h
    split_ifs at h
    · cases h
      exact Nat.lt_succ_self _
    · exact (ih h).trans (Nat.lt_succ_self _)
    · exact (ih h).trans (Nat.lt_succ_self _)
    · exact (ih h).trans (Nat.lt_succ_self _)

lemma length_refAt {cs e rest : List UInt8} (h : refAt cs = some (e, rest)) : rest.length ≤ cs.length := by
  cases cs with
  | nil => simp [refAt] at h
  | cons c cs =>
    simp only [refAt] at h
    split_ifs at h
    · exact (length_bracedExpr h).le.trans (Nat.le_succ _)
    · cases h
      exact (cs.dropWhile_sublist isNameChar).length_le.trans (Nat.le_succ _)

/-! ### The check -/

lemma readInt_eq {fmt : List UInt8} {i : ℕ} {ds rest : List UInt8} (h : fmt.drop i = ds ++ rest) {n m : ℕ}
    (hn : n = m % 2 ^ 64) :
    readInt fmt i (i + ds.length) n = ds.foldl (fun n c => n * 10 + (c - ch '0').toNat) m % 2 ^ 64 := by
  induction ds generalizing i n m with
  | nil => rw [readInt, if_neg (by simp), hn]; rfl
  | cons d ds ih =>
    have hd : fmt.getD i 0 = d := by
      rw [List.getD_eq_getElem?_getD, ← Nat.add_zero i, ← List.getElem?_drop, h]
      rfl
    have hrest : fmt.drop (i + 1) = ds ++ rest := by
      rw [← List.drop_drop, h]
      rfl
    rw [readInt, if_pos (by simp), hd, List.foldl_cons, List.length_cons, ← Nat.add_assoc, Nat.add_right_comm]
    apply ih hrest
    subst hn
    simp only [Nat.add_mod, Nat.mul_mod, Nat.mod_mod]

lemma maxVarRefS_of_drop_nil {fmt : List UInt8} {i : ℕ} (h : fmt.drop i = []) (s vri m : ℕ) :
    maxVarRefS fmt i s vri m = m := by
  rw [maxVarRefS, dif_pos (List.drop_eq_nil_iff.mp h)]

lemma maxVarRefS_of_drop_cons {fmt : List UInt8} {i : ℕ} {c : UInt8} {cs : List UInt8} (h : fmt.drop i = c :: cs)
    (s vri m : ℕ) :
    maxVarRefS fmt i s vri m =
      if s = 0 then
        if c = ch '\\' then maxVarRefS fmt (i + 2) 0 0 m
        else if c = ch '$' then maxVarRefS fmt (i + 1) 1 (i + 1) m
        else maxVarRefS fmt (i + 1) 0 0 m
      else if isDigit c then maxVarRefS fmt (i + 1) 1 vri m
      else maxVarRefS fmt (i + 1) 0 0 (maxV m ((1 + readInt fmt vri i 0) % 2 ^ 64)) := by
  have hi : i < fmt.length := by
    by_contra hle
    rw [List.drop_eq_nil_of_le (not_lt.mp hle)] at h
    cases h
  have hc : fmt[i] = c := by
    rw [List.drop_eq_getElem_cons hi] at h
    exact (List.cons.inj h).1
  rw [maxVarRefS, dif_neg (not_le.mpr hi), hc]

lemma drop_succ_of_drop_cons {α : Type*} {l : List α} {i : ℕ} {a : α} {as : List α} (h : l.drop i = a :: as) :
    l.drop (i + 1) = as := by
  rw [← List.drop_drop, h]
  rfl

/-- The digits of a reference are passed, and the character behind them with them. -/
lemma maxVarRefS_digits {fmt : List UInt8} {i : ℕ} {ds rest : List UInt8} {c : UInt8}
    (h : fmt.drop i = ds ++ c :: rest) (hds : ∀ d ∈ ds, isDigit d) (hc : ¬ isDigit c) (vri m : ℕ) :
    maxVarRefS fmt i 1 vri m =
      maxVarRefS fmt (i + ds.length + 1) 0 0 (maxV m ((1 + readInt fmt vri (i + ds.length) 0) % 2 ^ 64)) := by
  induction ds generalizing i with
  | nil => rw [maxVarRefS_of_drop_cons h, if_neg one_ne_zero, if_neg hc]; rfl
  | cons d ds ih =>
    rw [maxVarRefS_of_drop_cons h, if_neg one_ne_zero, if_pos (hds d List.mem_cons_self),
      ih (drop_succ_of_drop_cons h) fun e he => hds e (List.mem_cons_of_mem d he), List.length_cons,
      ← Nat.add_assoc, Nat.add_right_comm i 1]

lemma maxV_le_iff {x y n : ℕ} : maxV x y ≤ n ↔ x ≤ n ∧ y ≤ n := by
  unfold maxV
  split_ifs <;> omega

/-- A piece of the check is behind the one before it, and the literal's 0 behind them all. -/
def At (fmt : List UInt8) (i : ℕ) (s : List UInt8) : Prop := fmt.drop i = s ++ [0] ∨ s = [] ∧ fmt.drop i = []

lemma At.tail {fmt : List UInt8} {i : ℕ} {s : List UInt8} (h : fmt.drop i = s ++ [0]) : At fmt (i + 1) s.tail := by
  cases s with
  | nil => exact Or.inr ⟨rfl, drop_succ_of_drop_cons h⟩
  | cons c s => exact Or.inl (drop_succ_of_drop_cons h)

lemma head_of_dropWhile {p : UInt8 → Bool} {s t : List UInt8} {c : UInt8} (h : s.dropWhile p = c :: t) : ¬ p c := by
  have hhead := List.head?_dropWhile_not p s
  rw [h] at hhead
  simpa using hhead

/-- A reference is counted, and the check goes on behind the character behind it. -/
lemma maxVarRefS_reference {fmt : List UInt8} {i : ℕ} {cs : List UInt8} (h : fmt.drop i = cs ++ [0]) (m : ℕ) :
    ∃ j, At fmt j (cs.dropWhile isDigit).tail ∧
      maxVarRefS fmt i 1 i m = maxVarRefS fmt j 0 0 (maxV m (counted cs)) := by
  set ds := cs.takeWhile isDigit with hdsdef
  have hds : ∀ d ∈ ds, isDigit d := fun d hd => List.mem_takeWhile_imp hd
  have hsplit : cs = ds ++ cs.dropWhile isDigit := List.takeWhile_append_dropWhile.symm
  obtain ⟨c, rest, hc, hrest⟩ : ∃ c rest, ¬ isDigit c ∧ cs.dropWhile isDigit ++ [0] = c :: rest := by
    cases hdw : cs.dropWhile isDigit with
    | nil => exact ⟨0, [], by decide, rfl⟩
    | cons c t => exact ⟨c, t ++ [0], head_of_dropWhile hdw, rfl⟩
  have hfmt : fmt.drop i = ds ++ c :: rest := by rw [h, ← hrest, ← List.append_assoc, ← hsplit]
  have hj : fmt.drop (i + ds.length) = cs.dropWhile isDigit ++ [0] := by
    rw [← List.drop_drop, hfmt, List.drop_left, hrest]
  refine ⟨i + ds.length + 1, At.tail hj, ?_⟩
  have hcount : counted cs = (1 + readInt fmt i (i + ds.length) 0) % 2 ^ 64 := by
    rw [readInt_eq hfmt (Nat.zero_mod _).symm, Nat.add_mod_mod]
    rfl
  rw [maxVarRefS_digits hfmt hds hc, hcount]

/-- By induction on the text that is left. -/
lemma maxVarRefS_le_iff {fmt : List UInt8} {n : ℕ} (len : ℕ) : ∀ {s : List UInt8} {i : ℕ}, s.length ≤ len →
    At fmt i s → ∀ m, maxVarRefS fmt i 0 0 m ≤ n ↔
      m ≤ n ∧ ∀ cs, Cuts checkNext s (ch '$' :: cs) → counted cs ≤ n := by
  induction len with
  | zero =>
    intro s i hlen h m
    obtain rfl := List.eq_nil_of_length_eq_zero (Nat.le_zero.mp hlen)
    have hend : maxVarRefS fmt i 0 0 m = m := by
      rcases h with h | ⟨-, h⟩
      · rw [maxVarRefS_of_drop_cons h, if_pos rfl, if_neg (by decide), if_neg (by decide),
          maxVarRefS_of_drop_nil (drop_succ_of_drop_cons h)]
      · exact maxVarRefS_of_drop_nil h 0 0 m
    simp [hend, cuts_nil_iff]
  | succ len ih =>
    intro s i hlen h m
    cases s with
    | nil => exact ih (Nat.zero_le _) h m
    | cons c cs =>
      have hdrop : fmt.drop i = c :: (cs ++ [0]) := h.resolve_right fun h => by cases h.1
      have htail := drop_succ_of_drop_cons hdrop
      have hshort : (checkNext (c :: cs)).length ≤ len :=
        (length_checkNext_le c cs).trans (Nat.le_of_succ_le_succ hlen)
      rw [maxVarRefS_of_drop_cons hdrop, if_pos rfl]
      simp only [cuts_cons_iff, List.cons.injEq]
      by_cases hesc : c = ch '\\'
      · have hne : ch '$' ≠ c := by subst hesc; decide
        have hnext : checkNext (c :: cs) = cs.tail := if_pos hesc
        rw [if_pos hesc, ih (hnext ▸ hshort) (At.tail htail) m, hnext]
        simp [hne]
      by_cases hvar : c = ch '$'
      · have hnext : checkNext (c :: cs) = (cs.dropWhile isDigit).tail := by
          rw [checkNext, if_neg hesc, if_pos hvar]
        obtain ⟨j, hat, heq⟩ := maxVarRefS_reference htail m
        rw [if_neg hesc, if_pos hvar, heq, ih (hnext ▸ hshort) hat, maxV_le_iff, hnext]
        constructor
        · rintro ⟨⟨hm, hcs⟩, hrest⟩
          refine ⟨hm, fun t ht => ?_⟩
          rcases ht with ⟨-, rfl⟩ | ht
          · exact hcs
          · exact hrest t ht
        · rintro ⟨hm, hall⟩
          exact ⟨⟨hm, hall cs (Or.inl ⟨hvar.symm, rfl⟩)⟩, fun t ht => hall t (Or.inr ht)⟩
      · have hnext : checkNext (c :: cs) = cs := by rw [checkNext, if_neg hesc, if_neg hvar]
        rw [if_neg hesc, if_neg hvar, ih (hnext ▸ hshort) (Or.inl htail) m, hnext]
        simp [Ne.symm hvar]

/-- What the check accepts. -/
lemma maxVarRef_le_iff (str : List UInt8) (n : ℕ) :
    maxVarRef str ≤ n ↔ ∀ cs, Cuts checkNext str (ch '$' :: cs) → counted cs ≤ n := by
  rw [maxVarRef, maxVarRefS_le_iff str.length le_rfl (Or.inl rfl)]
  exact and_iff_right (Nat.zero_le n)

/-! ### The reader -/

section Reader

variable {T : Type*} (constF expF : T → List UInt8 → T)

/-- The two functions are all that a fold depends on. -/
lemma foldFrom_eq_foldl (x : State) (bc : ℕ) (b : List UInt8) (l : List Part) (str : List UInt8) (s : T) :
    foldFrom constF expF x bc b (l.foldl (Part.apply constF expF) s) str =
      (foldFrom (fun r b => r ++ [.const b]) (fun r b => r ++ [.exp b]) x bc b l str).foldl
        (Part.apply constF expF) s := by
  fun_induction foldFrom (fun r b => r ++ [.const b]) (fun r b => r ++ [.exp b]) x bc b l str <;>
    simp_all [foldFrom, List.foldl_append, Part.apply]

theorem foldWithFormat_eq_foldl (str : List UInt8) (s : T) :
    foldWithFormat str s constF expF = (parts str).foldl (Part.apply constF expF) s :=
  foldFrom_eq_foldl constF expF .text 0 [] [] str s

lemma foldFrom_shortName (bc : ℕ) (b : List UInt8) (r : T) (cs : List UInt8) :
    foldFrom constF expF .shortName bc b r cs =
      if cs.dropWhile isNameChar = [] then expF r (b ++ cs.takeWhile isNameChar)
      else foldFrom constF expF .text bc [] (expF r (b ++ cs.takeWhile isNameChar)) (cs.dropWhile isNameChar) := by
  induction cs generalizing b with
  | nil => simp [foldFrom]
  | cons c cs ih =>
    rw [foldFrom, List.takeWhile_cons, List.dropWhile_cons]
    by_cases hc : isNameChar c
    · rw [if_pos hc, if_pos hc, if_pos hc, ih, List.append_assoc]
      rfl
    · rw [if_neg hc, if_neg hc, if_neg hc, List.append_nil, if_neg (List.cons_ne_nil c cs)]

lemma foldFrom_expression (bc : ℕ) (b : List UInt8) (r : T) (cs : List UInt8) :
    foldFrom constF expF .expression bc b r cs =
      match bracedExpr bc b cs with
      | none => r
      | some p => foldFrom constF expF .text 1 [] (expF r p.1) p.2 := by
  induction cs generalizing bc b with
  | nil => simp [foldFrom, bracedExpr]
  | cons c cs ih =>
    rw [foldFrom, bracedExpr]
    split_ifs with hclose hone hopen
    · rw [hone]
    · exact ih (bc - 1) (b ++ [c])
    · exact ih (bc + 1) (b ++ [c])
    · exact ih bc (b ++ [c])

end Reader

/-- The fold that keeps what it is given. -/
abbrev partsFrom (x : State) (bc : ℕ) (b : List UInt8) (r : List Part) (s : List UInt8) : List Part :=
  foldFrom (fun r b => r ++ [.const b]) (fun r b => r ++ [.exp b]) x bc b r s

/-- One expression is read behind a dollar, if it ends, and then those behind it. -/
lemma exp_mem_variable {cs : List UInt8}
    (ih : ∀ t : List UInt8, t.length ≤ cs.length → ∀ (bc : ℕ) (b : List UInt8) (r : List Part) (e : List UInt8),
      Part.exp e ∈ partsFrom .text bc b r t ↔
        Part.exp e ∈ r ∨ ∃ us rest, Cuts formatNext t (ch '$' :: us) ∧ refAt us = some (e, rest))
    (bc : ℕ) (r : List Part) (e : List UInt8) :
    Part.exp e ∈ partsFrom .variable bc [] r cs ↔
      Part.exp e ∈ r ∨ ∃ us rest, (us = cs ∨ Cuts formatNext (((refAt cs).map Prod.snd).getD []) (ch '$' :: us)) ∧
        refAt us = some (e, rest) := by
  cases cs with
  | nil => simp [foldFrom, refAt, cuts_nil_iff]
  | cons d cs =>
    rw [partsFrom, foldFrom]
    cases hread : refAt (d :: cs) with
    | none =>
      have hd : d = ch '\x7b' := by
        by_contra hd
        rw [refAt, if_neg hd] at hread
        cases hread
      have hopen : bracedExpr 1 [] cs = none := by rwa [refAt, if_pos hd] at hread
      rw [if_neg (not_not.mpr hd), foldFrom_expression, hopen]
      simp [cuts_nil_iff, hread]
    | some p =>
      obtain ⟨e', rest⟩ := p
      have hone : (∃ us rest', us = d :: cs ∧ refAt us = some (e, rest')) ↔ e = e' := by
        constructor
        · rintro ⟨us, rest', rfl, hus⟩
          rw [hread] at hus
          cases hus
          rfl
        · rintro rfl
          exact ⟨d :: cs, rest, rfl, hread⟩
      have hmem : Part.exp e ∈ r ++ [Part.exp e'] ↔ Part.exp e ∈ r ∨ e = e' := by simp
      have hrest := ih rest (length_refAt hread)
      simp only [Option.map_some, Option.getD_some, or_and_right, exists_or, hone, ← or_assoc]
      rw [refAt] at hread
      split_ifs at hread with hd
      · rw [if_neg (not_not.mpr hd), foldFrom_expression, hread, hrest, hmem]
      · cases hread
        rw [if_pos hd, foldFrom_shortName, ← hmem]
        split_ifs with hnil
        · simp [hnil, cuts_nil_iff]
        · exact hrest bc [] (r ++ [Part.exp (d :: cs.takeWhile isNameChar)]) e

/-- The expressions that are read, from any place between two pieces. -/
lemma exp_mem_foldFrom (len : ℕ) : ∀ {s : List UInt8}, s.length ≤ len → ∀ (bc : ℕ) (b : List UInt8) (r : List Part)
    (e : List UInt8),
    Part.exp e ∈ partsFrom .text bc b r s ↔
      Part.exp e ∈ r ∨ ∃ cs rest, Cuts formatNext s (ch '$' :: cs) ∧ refAt cs = some (e, rest) := by
  induction len with
  | zero =>
    intro s hlen bc b r e
    obtain rfl := List.eq_nil_of_length_eq_zero (Nat.le_zero.mp hlen)
    simp [foldFrom, cuts_nil_iff]
  | succ len ih =>
    intro s hlen bc b r e
    cases s with
    | nil => exact ih (Nat.zero_le _) bc b r e
    | cons c cs =>
      have hcs : cs.length ≤ len := Nat.le_of_succ_le_succ hlen
      simp only [cuts_cons_iff, List.cons.injEq]
      rw [partsFrom, foldFrom]
      by_cases hesc : c = ch '\\'
      · have hne : ch '$' ≠ c := by subst hesc; decide
        have hnext : formatNext (c :: cs) = cs.tail := by rw [formatNext, if_pos hesc]
        rw [if_pos hesc, hnext]
        cases cs with
        | nil => simp [foldFrom, cuts_nil_iff, hne]
        | cons d cs =>
          rw [foldFrom, ih ((Nat.le_succ _).trans hcs)]
          simp [hne]
      by_cases hvar : c = ch '$'
      · have hnext : formatNext (c :: cs) = ((refAt cs).map Prod.snd).getD [] := by
          rw [formatNext, if_neg hesc, if_pos hvar]
        rw [if_neg hesc, if_pos hvar, hnext]
        subst hvar
        have hconst : Part.exp e ∈ r ++ [Part.const b] ↔ Part.exp e ∈ r := by simp
        simp only [true_and]
        rw [← hconst]
        exact exp_mem_variable (fun t ht => ih (ht.trans hcs)) bc (r ++ [Part.const b]) e
      · have hnext : formatNext (c :: cs) = cs := by rw [formatNext, if_neg hesc, if_neg hvar]
        rw [if_neg hesc, if_neg hvar, hnext, ih hcs]
        simp [Ne.symm hvar]

lemma refersTo_iff (str : List UInt8) (k : ℕ) :
    RefersTo str k ↔
      ∃ cs e rest, Cuts formatNext str (ch '$' :: cs) ∧ refAt cs = some (e, rest) ∧ IsNumber e k := by
  have hmem : ∀ e, Part.exp e ∈ parts str ↔
      ∃ cs rest, Cuts formatNext str (ch '$' :: cs) ∧ refAt cs = some (e, rest) := fun e => by
    rw [parts, foldWithFormat, exp_mem_foldFrom str.length le_rfl]
    simp
  constructor
  · rintro ⟨e, he, hk⟩
    obtain ⟨cs, rest, hcuts, href⟩ := (hmem e).mp he
    exact ⟨cs, e, rest, hcuts, href, hk⟩
  · rintro ⟨cs, e, rest, hcuts, href, hk⟩
    exact ⟨e, (hmem e).mpr ⟨cs, rest, hcuts, href⟩, hk⟩

/-! ### What is missed -/

lemma takeWhile_eq_of_all {p q : UInt8 → Bool} (hpq : ∀ c, p c → q c) {s : List UInt8}
    (h : ∀ c ∈ s.takeWhile q, p c) : s.takeWhile p = s.takeWhile q := by
  induction s with
  | nil => rfl
  | cons c s ih =>
    rw [List.takeWhile_cons, List.takeWhile_cons]
    rw [List.takeWhile_cons] at h
    by_cases hq : q c
    · rw [if_pos hq] at h
      rw [if_pos hq, if_pos (h c List.mem_cons_self), ih fun d hd => h d (List.mem_cons_of_mem c hd)]
    · rw [if_neg hq, if_neg fun hp => hq (hpq c hp)]

lemma isNameChar_of_isDigit {c : UInt8} (h : isDigit c) : isNameChar c := by
  simp [isNameChar, isalnum, h]

/-- The two read the same number where both find a reference without braces. -/
lemma counted_of_refAt {cs e rest : List UInt8} {k : ℕ} (href : refAt cs = some (e, rest)) (hk : IsNumber e k)
    (hbrace : cs.head? ≠ some (ch '\x7b')) : counted cs = (1 + k) % 2 ^ 64 := by
  obtain ⟨-, hdigits, rfl⟩ := hk
  cases cs with
  | nil => cases href
  | cons c cs =>
    rw [refAt, if_neg fun hc => hbrace (congrArg some hc)] at href
    cases href
    have hc : isDigit c := hdigits c List.mem_cons_self
    have hcs : cs.takeWhile isDigit = cs.takeWhile isNameChar :=
      takeWhile_eq_of_all (fun _ => isNameChar_of_isDigit) fun d hd => hdigits d (List.mem_cons_of_mem c hd)
    rw [counted, List.takeWhile_cons, if_pos hc, hcs]

lemma Missed.refersTo {str : List UInt8} {k : ℕ} (h : Missed str k) : RefersTo str k := by
  obtain ⟨cs, e, rest, hcuts, href, hk, -⟩ := h
  exact (refersTo_iff str k).mpr ⟨cs, e, rest, hcuts, href, hk⟩

lemma RefersTo.missed_or_counted {str : List UInt8} {k : ℕ} (h : RefersTo str k) :
    Missed str k ∨ ∃ cs, Cuts checkNext str (ch '$' :: cs) ∧ counted cs = k + 1 := by
  obtain ⟨cs, e, rest, hcuts, href, hk⟩ := (refersTo_iff str k).mp h
  by_cases hbrace : cs.head? = some (ch '\x7b')
  · exact Or.inl ⟨cs, e, rest, hcuts, href, hk, Or.inl hbrace⟩
  by_cases hcheck : Cuts checkNext str (ch '$' :: cs)
  · rcases Nat.lt_or_ge (k + 1) (2 ^ 64) with hlt | hge
    · refine Or.inr ⟨cs, hcheck, ?_⟩
      rw [counted_of_refAt href hk hbrace, Nat.add_comm, Nat.mod_eq_of_lt hlt]
    · exact Or.inl ⟨cs, e, rest, hcuts, href, hk, Or.inr (Or.inr hge)⟩
  · exact Or.inl ⟨cs, e, rest, hcuts, href, hk, Or.inr (Or.inl hcheck)⟩

/-- The check covers the reader unless a reference that it misses is too large, and none that it counts. -/
theorem covers_iff_missed (str : List UInt8) (n : ℕ) :
    (maxVarRef str ≤ n → ∀ k, RefersTo str k → k < n) ↔
      (∃ cs, Cuts checkNext str (ch '$' :: cs) ∧ n < counted cs) ∨ ∀ k, Missed str k → k < n := by
  constructor
  · intro h
    by_cases hrejected : ∃ cs, Cuts checkNext str (ch '$' :: cs) ∧ n < counted cs
    · exact Or.inl hrejected
    · push Not at hrejected
      exact Or.inr fun k hk => h ((maxVarRef_le_iff str n).mpr hrejected) k hk.refersTo
  · intro h haccepted k hk
    have hcounted := (maxVarRef_le_iff str n).mp haccepted
    rcases hk.missed_or_counted with hmissed | ⟨cs, hcs, heq⟩
    · rcases h with ⟨cs, hcs, hlt⟩ | h
      · exact absurd (hcounted cs hcs) (not_le.mpr hlt)
      · exact h k hmissed
    · have := hcounted cs hcs
      omega

/-- In `$0$5` the second dollar ends the first reference, and is not looked at again. -/
theorem not_covers_adjacent : ¬ ∀ (str : List UInt8) (n : ℕ),
    maxVarRef str ≤ n → ∀ k, RefersTo str k → k < n := by
  intro h
  have hfive : RefersTo [ch '$', ch '0', ch '$', ch '5'] 5 :=
    ⟨[ch '5'], by decide +kernel, by decide, List.forall_mem_singleton.mpr (by decide), by decide⟩
  exact absurd (h _ 1 (by decide +kernel) 5 hfive) (by decide)

end FormatString

end Hobbes
