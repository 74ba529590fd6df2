import Hobbes.Regex.Syntax

/-!
# Reading regular expressions

The parser carries what it has read so far, and what is left of the string. A string that ends in the middle of a
group name or of an escape in a set of characters has it read on behind the end.
-/

namespace Hobbes

namespace Regex

/-- Why there is no result: an exception, a read behind the end of the string, or too many calls. -/
inductive Stop where
  | thrown (what : String)
  | past
  | depth

abbrev Reads (α : Type) := Except Stop α

/-- The set of characters up to a closing bracket. One more character is looked at to find ranges and escapes. -/
def readCharset (out : CharSet) : List UInt8 → Reads (List UInt8 × CharSet)
  | [] => .ok ([], out)
  | [c0] =>
    if c0 = ch ']' then .ok ([], out)
    else if c0 = ch '\\' then .error .past
    else readCharset (insertChar c0 out) []
  | [c0, c1] =>
    if c0 = ch ']' then .ok ([c1], out)
    else if c0 = ch '\\' then readCharset (unescapeInto c1 out) []
    else readCharset (insertChar c0 out) [c1]
  | c0 :: c1 :: c2 :: x =>
    if c0 = ch ']' then .ok (c1 :: c2 :: x, out)
    else if c0 = ch '\\' then readCharset (unescapeInto c1 out) (c2 :: x)
    else if c1 = ch '-' then readCharset (charRange c0 c2 out) x
    else readCharset (insertChar c0 out) (c1 :: c2 :: x)

/-- A name up to its delimiter. -/
def nameUntil (ed : UInt8) : List UInt8 → Reads (List UInt8 × List UInt8)
  | [] => .error .past
  | c :: x => if c = ed then .ok ([], x) else (nameUntil ed x).map fun p => (c :: p.1, p.2)

def delimitedName : List UInt8 → Reads (List UInt8 × List UInt8)
  | [] => .error (.thrown "Expected capturing group name delimited as 'name' or <name>")
  | gd :: x =>
    if gd = ch '<' then nameUntil (ch '>') x
    else if gd = ch '\'' then nameUntil (ch '\'') x
    else .error (.thrown "Expected capturing group name delimited as 'name' or <name>")

/-- The name of a group, if it has one, and what is behind it. -/
def readName : List UInt8 → Reads (List UInt8 × List UInt8)
  | [] => .ok ([], [])
  | n :: x =>
    if n = ch '?' then delimitedName (if x.head? = some (ch 'P') then x.tail else x) else .ok ([], n :: x)

def returnR (x : List UInt8) (r : Regex) : List UInt8 × Regex :=
  match x with
  | [] => ([], r)
  | c :: y =>
    if c = ch '?' then (y, reither reps r)
    else if c = ch '*' then (y, rstar r)
    else if c = ch '+' then (y, rseq r (rstar r))
    else (c :: y, r)

/-- A set of characters, an escaped character or a character, and what is behind it. -/
def readAtom (c : UInt8) (x : List UInt8) : Reads (List UInt8 × Regex) :=
  if c = ch '.' then .ok (x, anyOfChars anyChars)
  else if c = ch '[' then
    match x with
    | [] => .error (.thrown "Unexpected end in regex (expecting ']')")
    | n :: y =>
      if n = ch '^' then (readCharset [] y).map fun p => (p.1, anyOfChars (setDifference anyChars p.2))
      else (readCharset [] (n :: y)).map fun p => (p.1, anyOfChars p.2)
  else if c = ch '\\' then
    match x with
    | [] => .error (.thrown "Unexpected end in regex (expecting escape code)")
    | e :: y => .ok (y, unescapePatChar e)
  else .ok (x, charLit c)

def diffRegex : ℕ → Regex → List UInt8 → Reads (List UInt8 × Regex)
  | 0, _, _ => .error .depth
  | _ + 1, lhs, [] => .ok ([], lhs)
  | fuel + 1, lhs, c :: x =>
    if c = ch ')' then .ok (returnR x lhs)
    else if c = ch '(' then do
      let b ← readName x
      let g ← diffRegex fuel reps b.2
      diffRegex fuel (rseq lhs (bindTo b.1 g.2)) g.1
    else if c = ch '|' then do
      let n ← diffRegex fuel reps x
      pure (n.1, reither lhs n.2)
    else do
      let a ← readAtom c x
      let cm := returnR a.1 a.2
      diffRegex fuel (rseq lhs cm.2) cm.1

/-- A call for each character and the last one are enough. -/
def diff (lhs : Regex) (x : List UInt8) : Reads (List UInt8 × Regex) := diffRegex (x.length + 1) lhs x

def parseFrom : ℕ → List UInt8 × Regex → Reads Regex
  | 0, _ => .error .depth
  | fuel + 1, dr => if dr.1 = [] then .ok dr.2 else (diff dr.2 dr.1).bind (parseFrom fuel)

def parseRegex (x : List UInt8) : Reads Regex := (diff reps x).bind (parseFrom (x.length + 1))

/-! ### What is left gets shorter -/

lemma bind_eq_ok {α β : Type} {r : Reads α} {f : α → Reads β} {b : β} (h : r.bind f = .ok b) :
    ∃ a, r = .ok a ∧ f a = .ok b := by
  cases r with
  | error e => cases h
  | ok a => exact ⟨a, rfl, h⟩

lemma map_eq_ok {α β : Type} {r : Reads α} {f : α → β} {b : β} (h : r.map f = .ok b) :
    ∃ a, r = .ok a ∧ f a = b := by
  cases r with
  | error e => cases h
  | ok a => exact ⟨a, rfl, Except.ok.inj h⟩

lemma length_readCharset {out : CharSet} {x : List UInt8} {p : List UInt8 × CharSet}
    (h : readCharset out x = .ok p) : p.1.length ≤ x.length := by
  fun_induction readCharset out x
  case case1 | case2 | case5 | case8 =>
    obtain rfl := Except.ok.inj h
    simp
  case case3 => cases h
  case case4 ih | case6 ih | case7 ih | case9 ih | case10 ih | case11 ih =>
    have hle := ih h
    simp only [List.length_cons, List.length_nil] at hle ⊢
    omega

lemma length_nameUntil {ed : UInt8} {x : List UInt8} {b : List UInt8 × List UInt8} (h : nameUntil ed x = .ok b) :
    b.2.length ≤ x.length := by
  induction x generalizing b with
  | nil => cases h
  | cons c x ih =>
    rw [nameUntil] at h
    split_ifs at h
    · obtain rfl := Except.ok.inj h
      exact Nat.le_succ _
    · obtain ⟨p, hp, rfl⟩ := map_eq_ok h
      exact Nat.le_succ_of_le (ih hp :)

lemma length_delimitedName {x : List UInt8} {b : List UInt8 × List UInt8} (h : delimitedName x = .ok b) :
    b.2.length ≤ x.length := by
  cases x with
  | nil => cases h
  | cons gd x =>
    rw [delimitedName] at h
    split_ifs at h
    · exact Nat.le_succ_of_le (length_nameUntil h)
    · exact Nat.le_succ_of_le (length_nameUntil h)

lemma length_readName {x : List UInt8} {b : List UInt8 × List UInt8} (h : readName x = .ok b) :
    b.2.length ≤ x.length := by
  cases x with
  | nil =>
    obtain rfl := Except.ok.inj h
    exact Nat.le_refl _
  | cons n x =>
    rw [readName] at h
    split_ifs at h
    · have hle := length_delimitedName h
      rw [List.length_tail] at hle
      rw [List.length_cons]
      omega
    · exact Nat.le_succ_of_le (length_delimitedName h)
    · obtain rfl := Except.ok.inj h
      exact Nat.le_refl _

lemma length_returnR (x : List UInt8) (r : Regex) : (returnR x r).1.length ≤ x.length := by
  cases x with
  | nil => exact Nat.le_refl _
  | cons c x =>
    rw [returnR]
    split_ifs
    · exact Nat.le_succ _
    · exact Nat.le_succ _
    · exact Nat.le_succ _
    · exact Nat.le_refl _

lemma length_readAtom {c : UInt8} {x : List UInt8} {a : List UInt8 × Regex} (h : readAtom c x = .ok a) :
    a.1.length ≤ x.length := by
  unfold readAtom at h
  split_ifs at h
  · obtain rfl := Except.ok.inj h
    exact Nat.le_refl _
  · cases x with
    | nil => cases h
    | cons n y =>
      dsimp only at h
      split_ifs at h
      · obtain ⟨p, hp, rfl⟩ := map_eq_ok h
        exact Nat.le_succ_of_le (length_readCharset hp)
      · obtain ⟨p, hp, rfl⟩ := map_eq_ok h
        exact length_readCharset hp
  · cases x with
    | nil => cases h
    | cons e y =>
      obtain rfl := Except.ok.inj h
      exact Nat.le_succ _
  · obtain rfl := Except.ok.inj h
    exact Nat.le_refl _

lemma length_diffRegex {fuel : ℕ} {lhs : Regex} {x : List UInt8} {dr : List UInt8 × Regex}
    (h : diffRegex fuel lhs x = .ok dr) : dr.1.length ≤ x.length - 1 := by
  induction fuel generalizing lhs x dr with
  | zero => cases h
  | succ fuel ih =>
    cases x with
    | nil =>
      obtain rfl := Except.ok.inj h
      exact Nat.le_refl _
    | cons c x =>
      rw [List.length_cons, Nat.add_sub_cancel]
      rw [diffRegex] at h
      split_ifs at h
      · obtain rfl := Except.ok.inj h
        exact length_returnR x lhs
      · obtain ⟨b, hb, h⟩ := bind_eq_ok h
        obtain ⟨g, hg, h⟩ := bind_eq_ok h
        have hname := length_readName hb
        have hgroup := ih hg
        have hrest := ih h
        omega
      · obtain ⟨n, hn, h⟩ := bind_eq_ok h
        obtain rfl := Except.ok.inj h
        have halt := ih hn
        exact Nat.le_trans halt (Nat.sub_le _ _)
      · obtain ⟨a, ha, h⟩ := bind_eq_ok h
        have hatom := length_readAtom ha
        have hpost := length_returnR a.1 a.2
        have hrest := ih h
        omega

/-! ### The number of calls -/

/-- With a call for each character and one more, it does not matter how many more there can be. -/
lemma diffRegex_eq {fuel fuel' : ℕ} {lhs : Regex} {x : List UInt8} (h : x.length < fuel) (h' : x.length < fuel') :
    diffRegex fuel lhs x = diffRegex fuel' lhs x := by
  induction fuel generalizing fuel' lhs x with
  | zero => exact absurd h (Nat.not_lt_zero _)
  | succ fuel ih =>
    obtain ⟨fuel', rfl⟩ : ∃ n, fuel' = n + 1 := Nat.exists_eq_succ_of_ne_zero (by omega)
    cases x with
    | nil => rfl
    | cons c x =>
      rw [List.length_cons] at h h'
      rw [diffRegex, diffRegex]
      split_ifs
      · rfl
      · cases hb : readName x with
        | error e => rfl
        | ok b =>
          have hname := length_readName hb
          change (diffRegex fuel reps b.2).bind _ = (diffRegex fuel' reps b.2).bind _
          rw [ih (by omega) (show b.2.length < fuel' by omega)]
          cases hg : diffRegex fuel' reps b.2 with
          | error e => rfl
          | ok g =>
            have hgroup := length_diffRegex hg
            exact ih (by omega) (by omega)
      · rw [ih (show x.length < fuel by omega) (show x.length < fuel' by omega)]
      · cases ha : readAtom c x with
        | error e => rfl
        | ok a =>
          have hatom := length_readAtom ha
          have hpost := length_returnR a.1 a.2
          exact ih (by omega) (by omega)

lemma diff_nil (lhs : Regex) : diff lhs [] = .ok ([], lhs) := rfl

lemma diff_cons (lhs : Regex) (c : UInt8) (x : List UInt8) : diff lhs (c :: x) =
    if c = ch ')' then .ok (returnR x lhs)
    else if c = ch '(' then
      (readName x).bind fun b => (diff reps b.2).bind fun g => diff (rseq lhs (bindTo b.1 g.2)) g.1
    else if c = ch '|' then (diff reps x).map fun n => (n.1, reither lhs n.2)
    else (readAtom c x).bind fun a => diff (rseq lhs (returnR a.1 a.2).2) (returnR a.1 a.2).1 := by
  rw [diff, diffRegex]
  split_ifs
  · rfl
  · cases hb : readName x with
    | error e => rfl
    | ok b =>
      have hname := length_readName hb
      change (diffRegex (x.length + 1) reps b.2).bind _ = (diff reps b.2).bind _
      rw [diffRegex_eq (Nat.lt_succ_of_le hname) (Nat.lt_succ_self b.2.length), diff]
      cases hg : diffRegex (b.2.length + 1) reps b.2 with
      | error e => rfl
      | ok g =>
        have hgroup := length_diffRegex hg
        exact diffRegex_eq (show g.1.length < x.length + 1 by omega) (Nat.lt_succ_self _)
  · rfl
  · cases ha : readAtom c x with
    | error e => rfl
    | ok a =>
      have hatom := length_readAtom ha
      have hpost := length_returnR a.1 a.2
      exact diffRegex_eq (show (returnR a.1 a.2).1.length < x.length + 1 by omega) (Nat.lt_succ_self _)

/-! ### Strings that are cut off -/

/-- Read piece by piece, the string ends in the middle of the name of a group or of an escape in a set of characters. -/
inductive CutOff : List UInt8 → Prop
  | name {x : List UInt8} (h : readName x = .error .past) : CutOff (ch '(' :: x)
  | atom {c : UInt8} {x : List UInt8} (hc : c ∉ [ch ')', ch '(', ch '|']) (h : readAtom c x = .error .past) :
      CutOff (c :: x)
  | inGroup {x : List UInt8} {b : List UInt8 × List UInt8} (h : readName x = .ok b) (hx : CutOff b.2) :
      CutOff (ch '(' :: x)
  | behindAtom {c : UInt8} {x : List UInt8} {a : List UInt8 × Regex} (hc : c ∉ [ch ')', ch '(', ch '|'])
      (h : readAtom c x = .ok a) (hx : CutOff a.1) : CutOff (c :: x)
  | behind {c : UInt8} {x : List UInt8} (hc : c ∈ [ch ')', ch '|']) (hx : CutOff x) : CutOff (c :: x)

/-- How a result tells whether the string that was read is cut off. -/
def Tells {α : Type} (rest : α → List UInt8) (cut : Prop) : Reads α → Prop
  | .ok a => cut ↔ CutOff (rest a)
  | .error .past => cut
  | .error (.thrown _) => ¬cut
  | .error .depth => False

lemma not_cutOff_nil : ¬CutOff [] := nofun

lemma cutOff_behind {c : UInt8} (hc : c ∈ [ch ')', ch '|']) {x : List UInt8} : CutOff (c :: x) ↔ CutOff x := by
  refine ⟨fun h => ?_, .behind hc⟩
  have hne : c ∈ [ch ')', ch '(', ch '|'] ∧ c ≠ ch '(' := by
    rcases List.mem_pair.1 hc with rfl | rfl <;> decide
  cases h with
  | name => exact absurd rfl hne.2
  | inGroup => exact absurd rfl hne.2
  | atom hc' => exact absurd hne.1 hc'
  | behindAtom hc' => exact absurd hne.1 hc'
  | behind _ hx => exact hx

lemma nameUntil_ne_depth (ed : UInt8) (x : List UInt8) : nameUntil ed x ≠ .error .depth := by
  induction x with
  | nil => nofun
  | cons c x ih =>
    rw [nameUntil]
    split_ifs
    · nofun
    · cases h : nameUntil ed x with
      | ok b => nofun
      | error e => exact fun heq => ih (by rw [h]; exact congrArg _ (Except.error.inj heq))

lemma readName_ne_depth (x : List UInt8) : readName x ≠ .error .depth := by
  have hdelimited (y : List UInt8) : delimitedName y ≠ .error .depth := by
    cases y with
    | nil => nofun
    | cons gd y =>
      rw [delimitedName]
      split_ifs
      · exact nameUntil_ne_depth _ y
      · exact nameUntil_ne_depth _ y
      · nofun
  cases x with
  | nil => nofun
  | cons n x =>
    rw [readName]
    split_ifs
    · exact hdelimited _
    · exact hdelimited _
    · nofun

lemma readCharset_ne_depth (out : CharSet) (x : List UInt8) : readCharset out x ≠ .error .depth := by
  fun_induction readCharset out x
  case case1 | case2 | case3 | case5 | case8 => nofun
  case case4 ih | case6 ih | case7 ih | case9 ih | case10 ih | case11 ih => exact ih

lemma readAtom_ne_depth (c : UInt8) (x : List UInt8) : readAtom c x ≠ .error .depth := by
  have hmap (out : CharSet) (y : List UInt8) (f : List UInt8 × CharSet → List UInt8 × Regex) :
      (readCharset out y).map f ≠ .error .depth := by
    cases h : readCharset out y with
    | ok p => nofun
    | error e => exact fun heq => readCharset_ne_depth out y (by rw [h]; exact congrArg _ (Except.error.inj heq))
  unfold readAtom
  split_ifs
  · nofun
  · cases x with
    | nil => nofun
    | cons n y =>
      dsimp only
      split_ifs
      · exact hmap _ _ _
      · exact hmap _ _ _
  · cases x with
    | nil => nofun
    | cons e y => nofun
  · nofun

lemma tells_of {α : Type} {rest : α → List UInt8} {cut : Prop} {r : Reads α} (hdepth : r ≠ .error .depth)
    (hcut : cut ↔ r = .error .past ∨ ∃ a, r = .ok a ∧ CutOff (rest a)) : Tells rest cut r := by
  cases r with
  | ok a => simpa [Tells] using hcut
  | error e =>
    cases e with
    | past => exact hcut.2 (.inl rfl)
    | depth => exact hdepth rfl
    | thrown what => simpa [Tells] using hcut

lemma tells_readName (x : List UInt8) : Tells Prod.snd (CutOff (ch '(' :: x)) (readName x) := by
  refine tells_of (readName_ne_depth x) ⟨fun h => ?_, ?_⟩
  · cases h with
    | name h => exact .inl h
    | inGroup h hx => exact .inr ⟨_, h, hx⟩
    | atom hc => exact absurd (by decide) hc
    | behindAtom hc => exact absurd (by decide) hc
    | behind hc => exact absurd hc (by decide)
  · rintro (h | ⟨b, h, hx⟩)
    · exact .name h
    · exact .inGroup h hx

lemma tells_readAtom {c : UInt8} (hc : c ∉ [ch ')', ch '(', ch '|']) (x : List UInt8) :
    Tells Prod.fst (CutOff (c :: x)) (readAtom c x) := by
  refine tells_of (readAtom_ne_depth c x) ⟨fun h => ?_, ?_⟩
  · cases h with
    | name => exact absurd (by decide) hc
    | inGroup => exact absurd (by decide) hc
    | atom _ h => exact .inl h
    | behindAtom _ h hx => exact .inr ⟨_, h, hx⟩
    | behind hc' =>
      rcases List.mem_pair.1 hc' with rfl | rfl
      · exact absurd (by decide) hc
      · exact absurd (by decide) hc
  · rintro (h | ⟨a, h, hx⟩)
    · exact .atom hc h
    · exact .behindAtom hc h hx

/-- An operator is one character of its own. -/
lemma cutOff_returnR (x : List UInt8) (r : Regex) : CutOff (returnR x r).1 ↔ CutOff x := by
  cases x with
  | nil => rfl
  | cons c x =>
    have hop {o : Char} (ho : ch o ∉ [ch ')', ch '(', ch '|']) (hread : readAtom (ch o) x = .ok (x, charLit (ch o))) :
        CutOff x ↔ CutOff (ch o :: x) := by
      have htells := tells_readAtom ho x
      rw [hread] at htells
      exact htells.symm
    rw [returnR]
    split_ifs with h1 h2 h3
    · subst h1
      exact hop (by decide) rfl
    · subst h2
      exact hop (by decide) rfl
    · subst h3
      exact hop (by decide) rfl
    · rfl

lemma Tells.congr {α : Type} {rest : α → List UInt8} {cut cut' : Prop} {r : Reads α} (h : Tells rest cut r)
    (hcut : cut' ↔ cut) : Tells rest cut' r := by
  rwa [propext hcut]

/-- What is read next tells as much. -/
lemma Tells.bind {α β : Type} {rest : α → List UInt8} {rest' : β → List UInt8} {cut : Prop} {r : Reads α}
    {f : α → Reads β} (h : Tells rest cut r) (hf : ∀ a, r = .ok a → Tells rest' (CutOff (rest a)) (f a)) :
    Tells rest' cut (r.bind f) := by
  cases r with
  | ok a => exact (hf a rfl).congr h
  | error e => cases e <;> exact h

lemma tells_diff (lhs : Regex) (x : List UInt8) : Tells Prod.fst (CutOff x) (diff lhs x) := by
  induction hn : x.length using Nat.strong_induction_on generalizing lhs x with
  | _ n ih =>
    subst hn
    cases x with
    | nil => exact Iff.rfl
    | cons c x =>
      have hih (lhs : Regex) {y : List UInt8} (hy : y.length ≤ x.length) := ih y.length (Nat.lt_succ_of_le hy) lhs y rfl
      rw [diff_cons]
      split_ifs with hclose hopen halt
      · subst hclose
        exact (cutOff_behind (by decide)).trans (cutOff_returnR x lhs).symm
      · subst hopen
        refine (tells_readName x).bind fun b hb => ?_
        have hname := length_readName hb
        refine (hih reps hname).bind fun g hg => ?_
        have hgroup := length_diffRegex hg
        exact hih _ (by omega)
      · subst halt
        have htells := (hih reps (Nat.le_refl x.length)).congr (cutOff_behind (c := ch '|') (by decide))
        cases hn : diff reps x with
        | ok n => rw [hn] at htells; exact htells
        | error e => rw [hn] at htells; exact htells
      · have hc : c ∉ [ch ')', ch '(', ch '|'] := by simp [hclose, hopen, halt]
        refine (tells_readAtom hc x).bind fun a ha => ?_
        have hatom := length_readAtom ha
        have hpost := length_returnR a.1 a.2
        exact (hih _ (by omega)).congr (cutOff_returnR a.1 a.2).symm

/-- The parser returns or throws. -/
def Terminates (r : Reads Regex) : Prop := (∃ v, r = .ok v) ∨ ∃ what, r = .error (.thrown what)

lemma Tells.terminates_iff {cut : Prop} {r : Reads Regex} (h : Tells (fun _ => []) cut r) :
    Terminates r ↔ ¬cut := by
  cases r with
  | ok v => exact iff_of_true (.inl ⟨v, rfl⟩) fun hcut => not_cutOff_nil (h.1 hcut)
  | error e =>
    cases e with
    | thrown what => exact iff_of_true (.inr ⟨what, rfl⟩) h
    | past =>
      refine iff_of_false ?_ (not_not.2 h)
      rintro (⟨v, hv⟩ | ⟨what, hwhat⟩)
      · cases hv
      · cases hwhat
    | depth => exact h.elim

lemma tells_parseFrom {fuel : ℕ} {dr : List UInt8 × Regex} (hfuel : dr.1.length < fuel) :
    Tells (fun _ => []) (CutOff dr.1) (parseFrom fuel dr) := by
  induction fuel generalizing dr with
  | zero => exact absurd hfuel (Nat.not_lt_zero _)
  | succ fuel ih =>
    rw [parseFrom]
    split_ifs with hnil
    · exact hnil ▸ Iff.rfl
    · refine (tells_diff dr.2 dr.1).bind fun dr' hdr' => ih ?_
      have hle := length_diffRegex hdr'
      have hpos := List.length_pos_iff.2 hnil
      omega

/-- There is a result just for the strings that are not cut off. -/
lemma terminates_parseRegex_iff (x : List UInt8) : Terminates (parseRegex x) ↔ ¬CutOff x := by
  refine Tells.terminates_iff ((tells_diff reps x).bind fun dr hdr => tells_parseFrom ?_)
  have hle := length_diffRegex hdr
  omega

end Regex

end Hobbes
