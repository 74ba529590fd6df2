import Hobbes.Regex.ParseRegex
import Mathlib.Data.FinEnum

/-!
# Printed syntax trees

Regular expressions as they are written, with every compound operand in parentheses, and what the parser makes of
them. An operator behind the parentheses of a choice is read into the last alternative.
-/

namespace Hobbes

namespace Regex

open Computability

/-! ### Trees -/

inductive PostOp where
  | optional
  | many
  | some

def PostOp.char : PostOp → UInt8
  | optional => ch '?'
  | many => ch '*'
  | some => ch '+'

def PostOp.lang (l : Language UInt8) : PostOp → Language UInt8
  | optional => 1 + l
  | many => l∗
  | some => l * l∗

/-- The characters that have a meaning of their own. -/
def specialChars : List UInt8 := [ch '(', ch ')', ch '|', ch '.', ch '[', ch '\\', ch '?', ch '*', ch '+']

/-- The characters that have a meaning of their own in a set of characters. -/
def specialSetChars : List UInt8 := [ch ']', ch '\\', ch '-', ch '^']

abbrev PlainChar := {c : UInt8 // c ∉ specialChars}

abbrev PlainSetChar := {c : UInt8 // c ∉ specialSetChars}

inductive SetItem where
  | char (c : PlainSetChar)
  | range (b e : PlainSetChar)
  | escape (c : UInt8)

/-- How an operand that needs parentheses is grouped. -/
inductive Group where
  | unnamed
  | angled (python : Bool) (name : {n : List UInt8 // ch '>' ∉ n})
  | quoted (python : Bool) (name : {n : List UInt8 // ch '\'' ∉ n})

/-- A compound tree has the group in which it stands where it is an operand. -/
inductive Tree where
  | lit (c : PlainChar)
  | dot
  | set (neg : Bool) (items : List SetItem)
  | escape (c : UInt8)
  | cat (g : Group) (a b : Tree)
  | alt (g : Group) (a b : Tree)
  | post (g : Group) (op : PostOp) (a : Tree)

def SetItem.print : SetItem → List UInt8
  | char c => [c.1]
  | range b e => [b.1, ch '-', e.1]
  | escape c => [ch '\\', c]

def Group.print : Group → List UInt8
  | unnamed => [ch '(']
  | angled python name => [ch '(', ch '?'] ++ (if python then [ch 'P'] else []) ++ ch '<' :: name.1 ++ [ch '>']
  | quoted python name => [ch '(', ch '?'] ++ (if python then [ch 'P'] else []) ++ ch '\'' :: name.1 ++ [ch '\'']

/-- A string in the parentheses of the group of a compound tree. -/
def Tree.inGroup : Tree → List UInt8 → List UInt8
  | cat g _ _, x | alt g _ _, x | post g _ _, x => g.print ++ x ++ [ch ')']
  | _, x => x

def Tree.print : Tree → List UInt8
  | lit c => [c.1]
  | dot => [ch '.']
  | set neg items => [ch '['] ++ (if neg then [ch '^'] else []) ++ items.flatMap SetItem.print ++ [ch ']']
  | escape c => [ch '\\', c]
  | cat _ a b => a.inGroup a.print ++ b.inGroup b.print
  | alt _ a b => a.inGroup a.print ++ ch '|' :: b.inGroup b.print
  | post _ op a => a.inGroup a.print ++ [op.char]

/-! ### What they denote -/

def escaped (c : UInt8) : UInt8 :=
  if c = ch 't' then ch '\t' else if c = ch 'r' then ch '\r' else if c = ch 'n' then ch '\n' else c

def SetItem.Has (k : UInt8) : SetItem → Prop
  | char c => k = c.1
  | range b e => b.1 ≤ k ∧ k ≤ e.1
  | escape c => k = escaped c

def SetHas (neg : Bool) (items : List SetItem) (k : UInt8) : Prop :=
  if neg then ¬∃ i ∈ items, i.Has k else ∃ i ∈ items, i.Has k

def Tree.lang : Tree → Language UInt8
  | lit c => charLang (· = c.1)
  | dot => charLang fun _ => True
  | set neg items => charLang (SetHas neg items)
  | escape c => charLang (· = escaped c)
  | cat _ a b => a.lang * b.lang
  | alt _ a b => a.lang + b.lang
  | post _ op a => op.lang a.lang

open Classical in
/-- What is read where an operator behind a choice is one on its last alternative, and a set without characters is
the empty string. -/
noncomputable def Tree.asRead : Tree → Language UInt8
  | lit c => charLang (· = c.1)
  | dot => charLang fun _ => True
  | set neg items => if ∃ k, SetHas neg items k then charLang (SetHas neg items) else 1
  | escape c => charLang (· = escaped c)
  | cat _ a b => a.asRead * b.asRead
  | alt _ a b => a.asRead + b.asRead
  | post _ op (alt _ a b) => a.asRead + op.lang b.asRead
  | post _ op a => op.lang a.asRead

/-! ### Operators -/

def PostOp.apply (r : Regex) : PostOp → Regex
  | optional => reither reps r
  | many => rstar r
  | some => rseq r (rstar r)

lemma PostOp.lang_apply (op : PostOp) (r : Regex) : (op.apply r).lang = op.lang r.lang := by
  cases op <;> rfl

/-- No operator comes first. -/
def NotPost (x : List UInt8) : Prop := ∀ c ∈ x.head?, c ∉ [ch '?', ch '*', ch '+']

lemma notPost_cons {c : UInt8} {x : List UInt8} : NotPost (c :: x) ↔ c ∉ [ch '?', ch '*', ch '+'] := by
  simp [NotPost]

lemma returnR_op (op : PostOp) (x : List UInt8) (r : Regex) : returnR (op.char :: x) r = (x, op.apply r) := by
  cases op <;> rfl

lemma returnR_notPost {x : List UInt8} (hx : NotPost x) (r : Regex) : returnR x r = (x, r) := by
  cases x with
  | nil => rfl
  | cons c x =>
    rw [notPost_cons, List.mem_cons, List.mem_cons, List.mem_singleton, not_or, not_or] at hx
    rw [returnR, if_neg hx.1, if_neg hx.2.1, if_neg hx.2.2]

/-- At most one operator. -/
def opChars (o : Option PostOp) : List UInt8 := o.elim [] fun op => [op.char]

def opApply (o : Option PostOp) (r : Regex) : Regex := o.elim r fun op => op.apply r

def opLang (o : Option PostOp) (l : Language UInt8) : Language UInt8 := o.elim l fun op => op.lang l

lemma lang_opApply (o : Option PostOp) (r : Regex) : (opApply o r).lang = opLang o r.lang := by
  cases o with
  | none => rfl
  | some op => exact op.lang_apply r

lemma returnR_opChars {o : Option PostOp} {x : List UInt8} (hx : o = none → NotPost x) (r : Regex) :
    returnR (opChars o ++ x) r = (x, opApply o r) := by
  cases o with
  | none => exact returnR_notPost (hx rfl) r
  | some op => exact returnR_op op x r

/-! ### Sets of characters -/

lemma mem_unescapeInto {e k : UInt8} {out : CharSet} : k ∈ unescapeInto e out ↔ k = escaped e ∨ k ∈ out := by
  unfold unescapeInto escaped insertChar
  split_ifs <;> exact Core.mem_insertOrd

/-- A character that is followed by something else than a hyphen is taken for itself. -/
lemma readCharset_char {c d : UInt8} (hc : c ∉ specialSetChars) (hd : d ≠ ch '-') (out : CharSet) (x : List UInt8) :
    readCharset out (c :: d :: x) = readCharset (insertChar c out) (d :: x) := by
  have hclose : c ≠ ch ']' := fun h => hc (h ▸ by decide)
  have hescape : c ≠ ch '\\' := fun h => hc (h ▸ by decide)
  cases x with
  | nil => conv_lhs => rw [readCharset, if_neg hclose, if_neg hescape]
  | cons e x => conv_lhs => rw [readCharset, if_neg hclose, if_neg hescape, if_neg hd]

lemma readCharset_range {b : UInt8} (hb : b ∉ specialSetChars) (e : UInt8) (out : CharSet) (x : List UInt8) :
    readCharset out (b :: ch '-' :: e :: x) = readCharset (charRange b e out) x := by
  have hclose : b ≠ ch ']' := fun h => hb (h ▸ by decide)
  have hescape : b ≠ ch '\\' := fun h => hb (h ▸ by decide)
  rw [readCharset, if_neg hclose, if_neg hescape, if_pos rfl]

lemma readCharset_escape (c : UInt8) (out : CharSet) (x : List UInt8) :
    readCharset out (ch '\\' :: c :: x) = readCharset (unescapeInto c out) x := by
  have hclose : ch '\\' ≠ ch ']' := by decide
  cases x with
  | nil => conv_lhs => rw [readCharset, if_neg hclose, if_pos rfl]
  | cons d x => conv_lhs => rw [readCharset, if_neg hclose, if_pos rfl]

lemma readCharset_close (out : CharSet) (x : List UInt8) : readCharset out (ch ']' :: x) = .ok (x, out) := by
  cases x with
  | nil => rw [readCharset, if_pos rfl]
  | cons c x =>
    cases x with
    | nil => rw [readCharset, if_pos rfl]
    | cons d x => rw [readCharset, if_pos rfl]

/-- Neither a hyphen nor a circumflex comes next where an item or the end of a set does. -/
lemma exists_print_items (items : List SetItem) (x : List UInt8) :
    ∃ d y, items.flatMap SetItem.print ++ ch ']' :: x = d :: y ∧ d ≠ ch '-' ∧ d ≠ ch '^' := by
  have hplain (c : PlainSetChar) : c.1 ≠ ch '-' ∧ c.1 ≠ ch '^' :=
    ⟨fun h => c.2 (h ▸ by decide), fun h => c.2 (h ▸ by decide)⟩
  cases items with
  | nil => exact ⟨_, _, rfl, by decide, by decide⟩
  | cons i items =>
    cases i with
    | char c => exact ⟨_, _, rfl, hplain c⟩
    | range b e => exact ⟨_, _, rfl, hplain b⟩
    | escape c => exact ⟨_, _, rfl, by decide, by decide⟩

lemma readCharset_items (items : List SetItem) (out : CharSet) (x : List UInt8) :
    ∃ out', readCharset out (items.flatMap SetItem.print ++ ch ']' :: x) = .ok (x, out') ∧
      ∀ k, k ∈ out' ↔ k ∈ out ∨ ∃ i ∈ items, i.Has k := by
  induction items generalizing out with
  | nil => exact ⟨out, readCharset_close out x, fun k => by simp⟩
  | cons i items ih =>
    obtain ⟨d, y, hnext, hd, -⟩ := exists_print_items items x
    have hitem : ∃ out₁, readCharset out ((i :: items).flatMap SetItem.print ++ ch ']' :: x) =
        readCharset out₁ (items.flatMap SetItem.print ++ ch ']' :: x) ∧ ∀ k, k ∈ out₁ ↔ i.Has k ∨ k ∈ out := by
      rw [List.flatMap_cons, List.append_assoc]
      cases i with
      | char c =>
        refine ⟨insertChar c.1 out, ?_, fun k => Core.mem_insertOrd⟩
        rw [hnext]
        exact readCharset_char c.2 hd out y
      | range b e => exact ⟨charRange b.1 e.1 out, readCharset_range b.2 e.1 out _, fun k => mem_charRange⟩
      | escape c => exact ⟨unescapeInto c out, readCharset_escape c out _, fun k => mem_unescapeInto⟩
    obtain ⟨out₁, hout₁, hmem₁⟩ := hitem
    obtain ⟨out', hout', hmem'⟩ := ih out₁
    refine ⟨out', hout₁.trans hout', fun k => ?_⟩
    rw [hmem', hmem₁, List.exists_mem_cons_iff, or_comm (a := i.Has k), or_assoc]

/-! ### Atoms -/

/-- What an atom is read as. -/
def ReadAtom (c : UInt8) (s : List UInt8) (l : Language UInt8) : Prop :=
  c ∉ [ch ')', ch '(', ch '|'] ∧ ∀ x, ∃ r, readAtom c (s ++ x) = .ok (x, r) ∧ r.lang = l

lemma lang_anyOfChars_of_exists {cs : CharSet} {p : UInt8 → Prop} (h : ∀ k, k ∈ cs ↔ p k) (hp : ∃ k, p k) :
    (anyOfChars cs).lang = charLang p := by
  obtain ⟨k, hk⟩ := hp
  rw [lang_anyOfChars, if_neg (List.ne_nil_of_mem ((h k).2 hk)), charLang_congr h]

lemma lang_anyOfChars_of_not {cs : CharSet} {p : UInt8 → Prop} (h : ∀ k, k ∈ cs ↔ p k) (hp : ¬∃ k, p k) :
    (anyOfChars cs).lang = 1 := by
  rw [lang_anyOfChars, if_pos]
  exact List.eq_nil_iff_forall_not_mem.2 fun k hk => hp ⟨k, (h k).1 hk⟩

lemma readAtom_lit (c : PlainChar) : ReadAtom c.1 [] (Tree.lit c).asRead := by
  have hne {d : UInt8} (hd : d ∈ specialChars) : c.1 ≠ d := fun h => c.2 (h ▸ hd)
  refine ⟨fun hc => c.2 ?_, fun x => ⟨charLit c.1, ?_, lang_charLit c.1⟩⟩
  · simp only [List.mem_cons, List.not_mem_nil, or_false] at hc
    rcases hc with h | h | h <;> rw [h] <;> decide
  · unfold readAtom
    rw [if_neg (hne (by decide)), if_neg (hne (by decide)), if_neg (hne (by decide)), List.nil_append]

lemma readAtom_dot : ReadAtom (ch '.') [] Tree.dot.asRead := by
  refine ⟨by decide, fun x => ⟨anyOfChars anyChars, rfl, ?_⟩⟩
  exact lang_anyOfChars_of_exists (fun k => iff_of_true (mem_anyChars k) trivial) ⟨0, trivial⟩

lemma readAtom_escape (c : UInt8) : ReadAtom (ch '\\') [c] (Tree.escape c).asRead := by
  refine ⟨by decide, fun x => ⟨unescapePatChar c, rfl, ?_⟩⟩
  exact lang_anyOfChars_of_exists (fun k => mem_unescapeInto.trans (or_iff_left List.not_mem_nil)) ⟨_, rfl⟩

lemma readAtom_set (neg : Bool) (items : List SetItem) :
    ReadAtom (ch '[') ((if neg then [ch '^'] else []) ++ items.flatMap SetItem.print ++ [ch ']'])
      (Tree.set neg items).asRead := by
  have hlang {cs : CharSet} (h : ∀ k, k ∈ cs ↔ SetHas neg items k) :
      (anyOfChars cs).lang = (Tree.set neg items).asRead := by
    rw [Tree.asRead]
    split_ifs with hp
    · exact lang_anyOfChars_of_exists h hp
    · exact lang_anyOfChars_of_not h hp
  refine ⟨by decide, fun x => ?_⟩
  obtain ⟨out, hout, hmem⟩ := readCharset_items items [] x
  simp only [List.not_mem_nil, false_or] at hmem
  obtain ⟨d, y, hnext, -, hd⟩ := exists_print_items items x
  rw [List.append_assoc, List.append_assoc, List.singleton_append]
  cases neg with
  | true =>
    refine ⟨anyOfChars (setDifference anyChars out), ?_, hlang fun k => ?_⟩
    · change (readCharset [] (items.flatMap SetItem.print ++ ch ']' :: x)).map _ = _
      rw [hout]
      rfl
    · rw [mem_setDifference, and_iff_right (mem_anyChars k), hmem]
      rfl
  | false =>
    refine ⟨anyOfChars out, ?_, hlang hmem⟩
    rw [hnext] at hout ⊢
    change (if d = ch '^' then _ else (readCharset [] (d :: y)).map _) = _
    rw [if_neg hd, hout]
    rfl

/-! ### Trees -/

/-- A tree as an operand. -/
def Tree.operand (t : Tree) : List UInt8 := t.inGroup t.print

/-- What a tree in parentheses with an operator behind them is read as. -/
noncomputable def Tree.asReadWith (o : Option PostOp) : Tree → Language UInt8
  | alt _ a b => a.asRead + opLang o b.asRead
  | t => opLang o t.asRead

lemma Tree.asRead_post (g : Group) (op : PostOp) (a : Tree) :
    (Tree.post g op a).asRead = a.asReadWith (Option.some op) := by
  cases a <;> rfl

lemma Tree.asReadWith_none (t : Tree) : t.asReadWith none = t.asRead := by
  cases t <;> rfl

lemma exists_print_group (g : Group) : ∃ s, g.print = ch '(' :: s := by
  cases g <;> exact ⟨_, rfl⟩

/-- Neither a tree nor an operand begins with an operator. -/
lemma notPost_print (t : Tree) (x : List UInt8) : NotPost (t.print ++ x) ∧ NotPost (t.operand ++ x) := by
  have hgroup (g : Group) (x y : List UInt8) : NotPost (g.print ++ y ++ [ch ')'] ++ x) := by
    obtain ⟨s, hs⟩ := exists_print_group g
    rw [hs]
    exact notPost_cons.2 (by decide)
  have happend (a : Tree) (x y : List UInt8) (h : ∀ x, NotPost (a.operand ++ x)) :
      NotPost ((a.operand ++ y) ++ x) := by
    rw [List.append_assoc]
    exact h _
  induction t generalizing x with
  | lit c =>
    have hc : c.1 ∉ [ch '?', ch '*', ch '+'] := fun h => c.2 (List.mem_append_right _ h :
      c.1 ∈ [ch '(', ch ')', ch '|', ch '.', ch '[', ch '\\'] ++ [ch '?', ch '*', ch '+'])
    exact ⟨notPost_cons.2 hc, notPost_cons.2 hc⟩
  | dot => exact ⟨notPost_cons.2 (by decide), notPost_cons.2 (by decide)⟩
  | set => exact ⟨notPost_cons.2 (by decide), notPost_cons.2 (by decide)⟩
  | escape => exact ⟨notPost_cons.2 (by decide), notPost_cons.2 (by decide)⟩
  | cat g a b iha => exact ⟨happend a x b.operand fun x => (iha x).2, hgroup g x _⟩
  | alt g a b iha => exact ⟨happend a x (ch '|' :: b.operand) fun x => (iha x).2, hgroup g x _⟩
  | post g op a iha => exact ⟨happend a x [op.char] fun x => (iha x).2, hgroup g x _⟩

/-! ### Reading a tree -/

lemma nameUntil_append {ed : UInt8} {n : List UInt8} (hn : ed ∉ n) (x : List UInt8) :
    nameUntil ed (n ++ ed :: x) = .ok (n, x) := by
  induction n with
  | nil => rw [List.nil_append, nameUntil, if_pos rfl]
  | cons c n ih =>
    rw [List.mem_cons, not_or] at hn
    rw [List.cons_append, nameUntil, if_neg (Ne.symm hn.1), ih hn.2]
    rfl

/-- The name of a group is read, and what is in the group comes next. -/
lemma readName_group (g : Group) {x : List UInt8} (hx : NotPost x) :
    ∃ y name, g.print ++ x = ch '(' :: y ∧ readName y = .ok (name, x) := by
  cases g with
  | unnamed =>
    refine ⟨x, [], rfl, ?_⟩
    cases x with
    | nil => rfl
    | cons c x =>
      rw [notPost_cons, List.mem_cons, not_or] at hx
      rw [readName, if_neg hx.1]
  | angled python name =>
    have hname := nameUntil_append name.2 x
    cases python with
    | true =>
      refine ⟨ch '?' :: ch 'P' :: ch '<' :: (name.1 ++ ch '>' :: x), name.1, by simp [Group.print], ?_⟩
      exact hname
    | false =>
      refine ⟨ch '?' :: ch '<' :: (name.1 ++ ch '>' :: x), name.1, by simp [Group.print], ?_⟩
      exact hname
  | quoted python name =>
    have hname := nameUntil_append name.2 x
    cases python with
    | true =>
      refine ⟨ch '?' :: ch 'P' :: ch '\'' :: (name.1 ++ ch '\'' :: x), name.1, by simp [Group.print], ?_⟩
      exact hname
    | false =>
      refine ⟨ch '?' :: ch '\'' :: (name.1 ++ ch '\'' :: x), name.1, by simp [Group.print], ?_⟩
      exact hname

/-- What the parser does with what it has read where `y` is left: an operator behind a closing parenthesis is
applied to all of it. -/
structure Ends (o : Option PostOp) (y z : List UInt8) : Prop where
  notPost : NotPost y
  diff : ∀ lhs, diff lhs y = .ok (z, opApply o lhs)

lemma ends_nil : Ends none [] [] := ⟨by simp [NotPost], fun _ => rfl⟩

lemma ends_close {o : Option PostOp} {z : List UInt8} (hz : o = none → NotPost z) :
    Ends o (ch ')' :: (opChars o ++ z)) z where
  notPost := notPost_cons.2 (by decide)
  diff lhs := by rw [diff_cons, if_pos rfl, returnR_opChars hz]

/-- Where an operand and an operator come next, they are put behind what has been read. -/
def ReadsNext (x : List UInt8) (l : Language UInt8) (o : Option PostOp) (z : List UInt8) : Prop :=
  ∃ r : Regex, r.lang = l ∧ ∀ lhs, diff lhs (x ++ (opChars o ++ z)) = diff (rseq lhs r) z

lemma readsNext_atom {c : UInt8} {s : List UInt8} {l : Language UInt8} (h : ReadAtom c s l) {o : Option PostOp}
    {z : List UInt8} (hz : o = none → NotPost z) : ReadsNext (c :: s) (opLang o l) o z := by
  obtain ⟨hc, hread⟩ := h
  simp only [List.mem_cons, List.not_mem_nil, or_false, not_or] at hc
  obtain ⟨r, hr, rfl⟩ := hread (opChars o ++ z)
  refine ⟨opApply o r, lang_opApply o r, fun lhs => ?_⟩
  rw [List.cons_append, diff_cons, if_neg hc.1, if_neg hc.2.1, if_neg hc.2.2, hr]
  change diff (rseq lhs (returnR (opChars o ++ z) r).2) (returnR (opChars o ++ z) r).1 = _
  rw [returnR_opChars hz]

/-- From the beginning of a string or a group, a tree is read up to its end. -/
def ReadsTree (t : Tree) : Prop :=
  ∀ o y z, Ends o y z → ∃ r : Regex, r.lang = t.asReadWith o ∧ diff reps (t.print ++ y) = .ok (z, r)

lemma readsNext_group {g : Group} {t : Tree} (h : ReadsTree t) {o : Option PostOp} {z : List UInt8}
    (hz : o = none → NotPost z) : ReadsNext (g.print ++ t.print ++ [ch ')']) (t.asReadWith o) o z := by
  obtain ⟨r, hr, hdiff⟩ := h o _ z (ends_close hz)
  obtain ⟨y, name, hgroup, hname⟩ := readName_group g (notPost_print t (ch ')' :: (opChars o ++ z))).1
  refine ⟨bindTo name r, (lang_bindTo name r).trans hr, fun lhs => ?_⟩
  rw [List.append_assoc, List.append_assoc, List.singleton_append, hgroup, diff_cons, if_neg (by decide), if_pos rfl,
    hname]
  change (diff reps (t.print ++ ch ')' :: (opChars o ++ z))).bind _ = _
  rw [hdiff]
  rfl

lemma operand_set (neg : Bool) (items : List SetItem) : (Tree.set neg items).operand =
    ch '[' :: ((if neg then [ch '^'] else []) ++ items.flatMap SetItem.print ++ [ch ']']) := by
  simp [Tree.operand, Tree.inGroup, Tree.print]

lemma ReadsTree.operand {t : Tree} (h : ReadsTree t) {o : Option PostOp} {z : List UInt8}
    (hz : o = none → NotPost z) : ReadsNext t.operand (t.asReadWith o) o z := by
  cases t with
  | lit c => exact readsNext_atom (readAtom_lit c) hz
  | dot => exact readsNext_atom readAtom_dot hz
  | set neg items =>
    rw [operand_set]
    exact readsNext_atom (readAtom_set neg items) hz
  | escape c => exact readsNext_atom (readAtom_escape c) hz
  | cat g a b => exact readsNext_group h hz
  | alt g a b => exact readsNext_group h hz
  | post g op a => exact readsNext_group h hz

/-- A tree that is an atom. -/
lemma readsTree_atom {t : Tree} {c : UInt8} {s : List UInt8} (hprint : t.print = c :: s)
    (hlang : ∀ o, t.asReadWith o = opLang o t.asRead) (h : ReadAtom c s t.asRead) : ReadsTree t := by
  intro o y z hends
  obtain ⟨r, hr, hdiff⟩ := readsNext_atom h (o := none) fun _ => hends.notPost
  refine ⟨opApply o (rseq reps r), ?_, ?_⟩
  · simp only [lang_opApply, lang, hr, one_mul, hlang]
    rfl
  · rw [hprint]
    exact (hdiff reps).trans (hends.diff _)

lemma readsTree (t : Tree) : ReadsTree t := by
  induction t with
  | lit c => exact readsTree_atom rfl (fun _ => rfl) (readAtom_lit c)
  | dot => exact readsTree_atom rfl (fun _ => rfl) readAtom_dot
  | set neg items => exact readsTree_atom (operand_set neg items) (fun _ => rfl) (readAtom_set neg items)
  | escape c => exact readsTree_atom rfl (fun _ => rfl) (readAtom_escape c)
  | cat g a b iha ihb =>
    intro o y z hends
    obtain ⟨rb, hrb, hb⟩ := ihb.operand (o := none) fun _ => hends.notPost
    obtain ⟨ra, hra, ha⟩ := iha.operand (o := none) fun _ => (notPost_print b y).2
    refine ⟨opApply o (rseq (rseq reps ra) rb), ?_, ?_⟩
    · simp only [lang_opApply, lang, hra, hrb, one_mul, Tree.asReadWith_none]
      rfl
    · have hprint : (Tree.cat g a b).print ++ y = a.operand ++ (opChars none ++ (b.operand ++ y)) :=
        List.append_assoc _ _ _
      rw [hprint, ha]
      exact (hb _).trans (hends.diff _)
  | alt g a b iha ihb =>
    intro o y z hends
    obtain ⟨rb, hrb, hb⟩ := ihb.operand (o := none) fun _ => hends.notPost
    obtain ⟨ra, hra, ha⟩ := iha.operand (o := none) (z := ch '|' :: (b.operand ++ y)) fun _ =>
      notPost_cons.2 (by decide)
    refine ⟨reither (rseq reps ra) (opApply o (rseq reps rb)), ?_, ?_⟩
    · simp only [lang_opApply, lang, hra, hrb, one_mul, Tree.asReadWith_none]
      rfl
    · have hprint : (Tree.alt g a b).print ++ y = a.operand ++ (opChars none ++ (ch '|' :: (b.operand ++ y))) :=
        List.append_assoc _ _ _
      rw [hprint, ha, diff_cons, if_neg (by decide), if_neg (by decide), if_pos rfl]
      have hlast : diff reps (b.operand ++ y) = .ok (z, opApply o (rseq reps rb)) := (hb _).trans (hends.diff _)
      rw [hlast]
      rfl
  | post g op a iha =>
    intro o y z hends
    obtain ⟨ra, hra, ha⟩ := iha.operand (o := some op) (z := y) fun hop => absurd hop (Option.some_ne_none op)
    refine ⟨opApply o (rseq reps ra), ?_, ?_⟩
    · simp only [lang_opApply, lang, hra, one_mul, ← Tree.asRead_post g]
      rfl
    · have hprint : (Tree.post g op a).print ++ y = a.operand ++ (opChars (some op) ++ y) :=
        List.append_assoc _ _ _
      rw [hprint, ha]
      exact hends.diff _

lemma parseRegex_print (t : Tree) : ∃ r, parseRegex t.print = .ok r ∧ r.lang = t.asRead := by
  obtain ⟨r, hr, hdiff⟩ := readsTree t none [] [] ends_nil
  rw [List.append_nil] at hdiff
  refine ⟨r, ?_, hr.trans t.asReadWith_none⟩
  rw [parseRegex, hdiff]
  change parseFrom _ ([], r) = _
  rw [parseFrom, if_pos rfl]

lemma parseRegex_print_iff (t : Tree) :
    (∃ r, parseRegex t.print = .ok r ∧ r.lang = t.lang) ↔ t.asRead = t.lang := by
  obtain ⟨r, hr, hlang⟩ := parseRegex_print t
  constructor
  · rintro ⟨r', hr', hlang'⟩
    obtain rfl := Except.ok.inj (hr.symm.trans hr')
    exact hlang.symm.trans hlang'
  · exact fun h => ⟨r, hr, hlang.trans h⟩

/-- A printed tree is read as it is meant just if it denotes what it does with the operators behind a choice on its
last alternative, and there is a result for the strings that are not cut off. -/
theorem parseRegex_iff (t : Tree) (x : List UInt8) :
    ((∃ r, parseRegex t.print = .ok r ∧ r.lang = t.lang) ↔ t.asRead = t.lang) ∧
      (Terminates (parseRegex x) ↔ ¬CutOff x) :=
  ⟨parseRegex_print_iff t, terminates_parseRegex_iff x⟩

/-- `(a|b)*` -/
def manyChoices : Tree :=
  .post .unnamed .many (.alt .unnamed (.lit ⟨ch 'a', by decide⟩) (.lit ⟨ch 'b', by decide⟩))

/-- The string `aa` is not matched by `a|b*`, and the string `[\` is read behind its end. -/
theorem not_parseRegex_manyChoices :
    (¬∃ r, parseRegex manyChoices.print = .ok r ∧ r.lang = manyChoices.lang) ∧
      ¬Terminates (parseRegex [ch '[', ch '\\']) := by
  rw [parseRegex_print_iff, terminates_parseRegex_iff, not_not]
  refine ⟨fun heq => ?_, .atom (by decide) rfl⟩
  have hmem : [ch 'a', ch 'a'] ∈ manyChoices.lang := by
    refine Language.mem_kstar.2 ⟨[[ch 'a'], [ch 'a']], rfl, fun y hy => ?_⟩
    obtain rfl : y = [ch 'a'] := by simpa using hy
    exact .inl ⟨ch 'a', rfl, rfl⟩
  rw [← heq] at hmem
  rcases hmem with ⟨c, -, hc⟩ | hmem
  · cases hc
  · obtain ⟨ys, hys, hall⟩ := Language.mem_kstar.1 hmem
    have ha : ch 'a' ∈ ys.flatten := hys ▸ List.mem_cons_self
    obtain ⟨y, hy, hay⟩ := List.mem_flatten.1 ha
    obtain ⟨c, rfl, rfl⟩ := hall y hy
    exact absurd (List.mem_singleton.1 hay) (by decide)

/-- No `*` or `+` stands behind a choice, and every set of characters has one. -/
def Tree.Plain : Tree → Prop
  | set neg items => ∃ k, SetHas neg items k
  | cat _ a b | alt _ a b => a.Plain ∧ b.Plain
  | post _ op (alt _ a b) => op = .optional ∧ a.Plain ∧ b.Plain
  | post _ _ a => a.Plain
  | _ => True

lemma Tree.Plain.asRead_eq {t : Tree} (ht : t.Plain) : t.asRead = t.lang := by
  induction t with
  | lit c => rfl
  | dot => rfl
  | set neg items => exact if_pos ht
  | escape c => rfl
  | cat g a b iha ihb => rw [asRead, lang, iha ht.1, ihb ht.2]
  | alt g a b iha ihb => rw [asRead, lang, iha ht.1, ihb ht.2]
  | post g op a iha =>
    cases a with
    | alt g' a b =>
      obtain ⟨rfl, hab⟩ := ht
      have halt : a.asRead + b.asRead = a.lang + b.lang := iha hab
      change a.asRead + (1 + b.asRead) = 1 + (a.lang + b.lang)
      rw [← halt, add_left_comm]
    | lit | dot | set | escape | cat | post => exact congrArg op.lang (iha ht)

/-- These trees are read as they are meant. -/
theorem parseRegex_of_plain {t : Tree} (ht : t.Plain) : ∃ r, parseRegex t.print = .ok r ∧ r.lang = t.lang :=
  (parseRegex_print_iff t).2 ht.asRead_eq

end Regex

end Hobbes
