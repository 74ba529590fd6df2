import Hobbes.Match.PatternCompiler
import Mathlib.Tactic.Common

/-!
# The columns of a table

What the patterns of a column have in common: the name of the part of the input that they are for, and its type.
-/

namespace Hobbes.Match.Table

open Core Lang

variable {G E : Type}

/-! ### Types -/

/-- The types of what is matched. Those of records are as far as the patterns look into them. -/
inductive Ty where
  | prim (t : PrimType)
  | array (t : Ty)
  | record (ts : List (Bytes × Ty))
  | variant (ts : List (Bytes × Ty))

def Pattern.isZeroChar : Pattern → Bool
  | .literal _ (.char c) => c = 0
  | _ => false

/-- There are no zero characters in the strings of a match. -/
inductive Pattern.HasTy : Pattern → Ty → Prop where
  | any {x : Name} {vn : Bytes} {t : Ty} : HasTy (.any x vn) t
  | literal {x : Name} {p : Primitive} : HasTy (.literal x p) (.prim (primType p))
  | array {x : Name} {ps : List Pattern} {t : Ty} (hps : ∀ p ∈ ps, HasTy p t)
      (hzero : ∀ p ∈ ps, p.isZeroChar = false) (hlen : ps.length < 2 ^ 64) : HasTy (.array x ps) (.array t)
  | record {x : Name} {fs : List (Bytes × Pattern)} {ts : List (Bytes × Ty)}
      (hnames : fs.map Prod.fst = ts.map Prod.fst) (hnodup : (ts.map Prod.fst).Nodup)
      (hfs : ∀ f ∈ fs.zip ts, HasTy f.1.2 f.2.2) : HasTy (.record x fs) (.record ts)
  | variant {x : Name} {lbl : Bytes} {p : Pattern} {t : Ty} {ts : List (Bytes × Ty)} (hlbl : ts.lookup lbl = some t)
      (hp : HasTy p t) : HasTy (.variant x lbl p) (.variant ts)

inductive Value.HasTy : Value → Ty → Prop where
  | prim {p : Primitive} : HasTy (.prim p) (.prim (primType p))
  | array {vs : List Value} {t : Ty} (hvs : ∀ v ∈ vs, HasTy v t) (hzero : .prim (.char 0) ∉ vs)
      (hlen : vs.length < 2 ^ 64) : HasTy (.array vs) (.array t)
  | record {fs : List (Bytes × Value)} {ts : List (Bytes × Ty)}
      (hdefined : ∀ t ∈ ts, (fs.lookup t.1).isSome) (hfs : ∀ t ∈ ts, ∀ v, fs.lookup t.1 = some v → HasTy v t.2) :
      HasTy (.record fs) (.record ts)
  | variant {lbl : Bytes} {v : Value} {t : Ty} {ts : List (Bytes × Ty)} (hlbl : ts.lookup lbl = some t)
      (hv : HasTy v t) : HasTy (.variant lbl v) (.variant ts)

/-! ### Strings inside of a pattern -/

namespace Pattern

mutual

/-- Is there a string in the pattern? -/
def hasString : Pattern → Bool
  | any _ _ | literal _ _ => false
  | array _ ps => ps.any isCharLiteral || hasStrings ps
  | record _ fs => fieldsHaveString fs
  | variant _ _ p => hasString p

def hasStrings : List Pattern → Bool
  | [] => false
  | p :: ps => hasString p || hasStrings ps

def fieldsHaveString : List (Bytes × Pattern) → Bool
  | [] => false
  | (_, p) :: fs => hasString p || fieldsHaveString fs

end

/-- Is there a string in a part of the pattern? -/
def hasInnerString : Pattern → Bool
  | array _ ps => hasStrings ps
  | p => hasString p

end Pattern

/-! ### Patterns but for their names -/

lemma any_congr_left {α : Type} {f g : α → Bool} {l : List α} (h : ∀ a ∈ l, f a = g a) : l.any f = l.any g := by
  induction l with
  | nil => rfl
  | cons a l ih => rw [List.any_cons, List.any_cons, h a List.mem_cons_self, ih (List.forall_mem_cons.mp h).2]

namespace Pattern

mutual

/-- The pattern, with no names given to its parts. -/
def forget : Pattern → Pattern
  | any _ vn => any .unnamed vn
  | literal _ p => literal .unnamed p
  | array _ ps => array .unnamed (forgetAll ps)
  | record _ fs => record .unnamed (forgetFields fs)
  | variant _ lbl p => variant .unnamed lbl (forget p)

def forgetAll : List Pattern → List Pattern
  | [] => []
  | p :: ps => forget p :: forgetAll ps

def forgetFields : List (Bytes × Pattern) → List (Bytes × Pattern)
  | [] => []
  | (f, p) :: fs => (f, forget p) :: forgetFields fs

end

lemma forgetAll_eq (ps : List Pattern) : forgetAll ps = ps.map forget := by
  induction ps with
  | nil => rw [forgetAll, List.map_nil]
  | cons p ps ih => rw [forgetAll, List.map_cons, ih]

lemma forgetFields_eq (fs : List (Bytes × Pattern)) : forgetFields fs = fs.map fun f => (f.1, f.2.forget) := by
  induction fs with
  | nil => rw [forgetFields, List.map_nil]
  | cons f fs ih =>
    obtain ⟨f, p⟩ := f
    rw [forgetFields, List.map_cons, ih]

lemma sameAll_iff {ps : List Pattern} (h : ∀ p ∈ ps, ∀ q, same p q = true ↔ p.forget = q.forget) :
    ∀ qs, sameAll ps qs = true ↔ ps.map forget = qs.map forget := by
  induction ps with
  | nil => intro qs; cases qs <;> simp [sameAll]
  | cons p ps ih =>
    obtain ⟨hp, hps⟩ := List.forall_mem_cons.mp h
    intro qs
    cases qs with
    | nil => simp [sameAll]
    | cons q qs => simp [sameAll, hp q, ih hps qs]

lemma sameFields_iff {fs : List (Bytes × Pattern)} (h : ∀ f ∈ fs, ∀ q, same f.2 q = true ↔ f.2.forget = q.forget) :
    ∀ gs, sameFields fs gs = true ↔ (fs.map fun f => (f.1, f.2.forget)) = gs.map fun f => (f.1, f.2.forget) := by
  induction fs with
  | nil => intro gs; cases gs <;> simp [sameFields]
  | cons f fs ih =>
    obtain ⟨hf, hfs⟩ := List.forall_mem_cons.mp h
    obtain ⟨f, p⟩ := f
    intro gs
    cases gs with
    | nil => simp [sameFields]
    | cons g gs =>
      obtain ⟨g, q⟩ := g
      simp [sameFields, hf q, ih hfs gs]

/-- The patterns that are the same are those with the same parts, whatever their names. -/
lemma same_iff (p q : Pattern) : same p q = true ↔ p.forget = q.forget := by
  induction p generalizing q with
  | any x vn => cases q <;> simp [same, forget]
  | literal x p => cases q <;> simp [same, forget]
  | array x ps ih => cases q <;> simp [same, forget, forgetAll_eq, sameAll_iff ih]
  | record x fs ih => cases q <;> simp [same, forget, forgetFields_eq, sameFields_iff ih]
  | variant x lbl p ih => cases q <;> simp [same, forget, ih]

lemma acceptsAll_forget {ps : List Pattern} (h : ∀ p ∈ ps, ∀ v, p.forget.accepts v = p.accepts v) :
    ∀ vs, acceptsAll (ps.map forget) vs = acceptsAll ps vs := by
  induction ps with
  | nil => intro vs; cases vs <;> simp [acceptsAll]
  | cons p ps ih =>
    obtain ⟨hp, hps⟩ := List.forall_mem_cons.mp h
    intro vs
    cases vs <;> simp [acceptsAll, hp, ih hps]

lemma acceptsFields_forget {fs : List (Bytes × Pattern)} (h : ∀ f ∈ fs, ∀ v, f.2.forget.accepts v = f.2.accepts v)
    (vs : List (Bytes × Value)) : acceptsFields (fs.map fun f => (f.1, f.2.forget)) vs = acceptsFields fs vs := by
  induction fs with
  | nil => simp [acceptsFields]
  | cons f fs ih =>
    obtain ⟨hf, hfs⟩ := List.forall_mem_cons.mp h
    obtain ⟨f, p⟩ := f
    simp only [List.map_cons, acceptsFields, ih hfs]
    cases vs.lookup f <;> simp [hf]

lemma accepts_forget (p : Pattern) (v : Value) : p.forget.accepts v = p.accepts v := by
  induction p generalizing v with
  | any x vn => simp [forget, accepts]
  | literal x p => cases v <;> simp [forget, accepts]
  | array x ps ih => cases v <;> simp [forget, accepts, forgetAll_eq, acceptsAll_forget ih]
  | record x fs ih => cases v <;> simp [forget, accepts, forgetFields_eq, acceptsFields_forget ih]
  | variant x lbl p ih => cases v <;> simp [forget, accepts, ih]

lemma isZeroChar_forget (p : Pattern) : p.forget.isZeroChar = p.isZeroChar := by
  cases p with
  | literal x p => cases p <;> rfl
  | _ => simp [forget, isZeroChar]

lemma hasTy_array {x : Name} {ps : List Pattern} {t : Ty} : (array x ps).HasTy t ↔
    ∃ t', t = .array t' ∧ (∀ p ∈ ps, p.HasTy t') ∧ (∀ p ∈ ps, p.isZeroChar = false) ∧ ps.length < 2 ^ 64 := by
  constructor
  · rintro (_ | _ | ⟨hps, hzero, hlen⟩)
    exact ⟨_, rfl, hps, hzero, hlen⟩
  · rintro ⟨t', rfl, hps, hzero, hlen⟩
    exact .array hps hzero hlen

lemma hasTy_record {x : Name} {fs : List (Bytes × Pattern)} {t : Ty} : (record x fs).HasTy t ↔
    ∃ ts, t = .record ts ∧ fs.map Prod.fst = ts.map Prod.fst ∧ (ts.map Prod.fst).Nodup ∧
      ∀ f ∈ fs.zip ts, f.1.2.HasTy f.2.2 := by
  constructor
  · rintro (_ | _ | _ | ⟨hnames, hnodup, hfs⟩)
    exact ⟨_, rfl, hnames, hnodup, hfs⟩
  · rintro ⟨ts, rfl, hnames, hnodup, hfs⟩
    exact .record hnames hnodup hfs

lemma hasTy_variant {x : Name} {lbl : Bytes} {p : Pattern} {t : Ty} : (variant x lbl p).HasTy t ↔
    ∃ ts t', t = .variant ts ∧ ts.lookup lbl = some t' ∧ p.HasTy t' := by
  constructor
  · rintro (_ | _ | _ | _ | ⟨hlbl, hp⟩)
    exact ⟨_, _, rfl, hlbl, hp⟩
  · rintro ⟨ts, t', rfl, hlbl, hp⟩
    exact .variant hlbl hp

lemma hasTy_literal {x : Name} {p : Primitive} {t : Ty} : (literal x p).HasTy t ↔ t = .prim (primType p) := by
  constructor
  · rintro (_ | _)
    rfl
  · rintro rfl
    exact .literal

lemma hasTy_forget (p : Pattern) (t : Ty) : p.forget.HasTy t ↔ p.HasTy t := by
  induction p generalizing t with
  | any x vn => exact ⟨fun _ => .any, fun _ => .any⟩
  | literal x p => rw [forget, hasTy_literal, hasTy_literal]
  | array x ps ih =>
    rw [forget, forgetAll_eq, hasTy_array, hasTy_array]
    refine exists_congr fun t' => and_congr_right fun _ => ?_
    simp only [List.forall_mem_map, isZeroChar_forget, List.length_map]
    refine and_congr_left fun _ => forall₂_congr fun p hp => ih p hp t'
  | record x fs ih =>
    rw [forget, forgetFields_eq, hasTy_record, hasTy_record]
    refine exists_congr fun ts => and_congr_right fun _ => ?_
    rw [List.map_map, List.zip_map_left, List.forall_mem_map]
    refine and_congr_right fun _ => and_congr_right fun _ => forall₂_congr fun f hf => ?_
    exact ih f.1 (List.of_mem_zip hf).1 f.2.2
  | variant x lbl p ih =>
    rw [forget, hasTy_variant, hasTy_variant]
    simp only [ih]

lemma assignElements_eq (x : Name) (i : ℕ) (ps : List Pattern) :
    assignElements x i ps = ps.mapIdx fun k p => p.assignName (.element x (i + k)) := by
  induction ps generalizing i with
  | nil => rw [assignElements, List.mapIdx_nil]
  | cons p ps ih =>
    rw [assignElements, List.mapIdx_cons, ih]
    simp only [Nat.add_zero, Nat.add_right_comm i 1, Nat.add_assoc]

lemma assignFields_eq (x : Name) (fs : List (Bytes × Pattern)) :
    assignFields x fs = fs.map fun f => (f.1, f.2.assignName (.field x f.1)) := by
  induction fs with
  | nil => rw [assignFields, List.map_nil]
  | cons f fs ih =>
    obtain ⟨f, p⟩ := f
    rw [assignFields, List.map_cons, ih]

lemma assignName_assignName (x y : Name) (p : Pattern) : (p.assignName x).assignName y = p.assignName y := by
  induction p generalizing x y with
  | any z vn => rfl
  | literal z p => rfl
  | array z ps ih =>
    simp only [assignName, assignElements_eq, array.injEq, true_and]
    refine List.ext_getElem (by simp) fun k hk _ => ?_
    simp only [List.getElem_mapIdx]
    exact ih _ (List.getElem_mem _) _ _
  | record z fs ih =>
    simp only [assignName, assignFields_eq, List.map_map, record.injEq, true_and]
    refine List.map_congr_left fun f hf => ?_
    exact congrArg (Prod.mk f.1) (ih f hf _ _)
  | variant z lbl p ih =>
    simp only [assignName, variant.injEq, true_and]
    exact ih _ _

lemma forget_assignName (x : Name) (p : Pattern) : (p.assignName x).forget = p.forget := by
  induction p generalizing x with
  | any z vn => rfl
  | literal z p => rfl
  | array z ps ih =>
    simp only [assignName, assignElements_eq, forget, forgetAll_eq, array.injEq, true_and]
    refine List.ext_getElem (by simp) fun k hk _ => ?_
    simp only [List.getElem_map, List.getElem_mapIdx]
    exact ih _ (List.getElem_mem _) _
  | record z fs ih =>
    simp only [assignName, assignFields_eq, forget, forgetFields_eq, List.map_map, record.injEq, true_and]
    refine List.map_congr_left fun f hf => ?_
    exact congrArg (Prod.mk f.1) (ih f hf _)
  | variant z lbl p ih =>
    simp only [assignName, forget, variant.injEq, true_and]
    exact ih _

lemma isCharLiteral_forget (p : Pattern) : isCharLiteral p.forget = isCharLiteral p := by
  cases p with
  | literal x p => cases p <;> rfl
  | _ => simp [forget, isCharLiteral]

lemma hasStrings_eq (ps : List Pattern) : hasStrings ps = ps.any hasString := by
  induction ps with
  | nil => rw [hasStrings, List.any_nil]
  | cons p ps ih => rw [hasStrings, List.any_cons, ih]

lemma fieldsHaveString_eq (fs : List (Bytes × Pattern)) : fieldsHaveString fs = fs.any fun f => f.2.hasString := by
  induction fs with
  | nil => rw [fieldsHaveString, List.any_nil]
  | cons f fs ih =>
    obtain ⟨f, p⟩ := f
    rw [fieldsHaveString, List.any_cons, ih]

lemma hasString_forget (p : Pattern) : p.forget.hasString = p.hasString := by
  induction p with
  | any x vn => rfl
  | literal x p => rfl
  | array x ps ih =>
    simp only [forget, hasString, forgetAll_eq, hasStrings_eq, List.any_map]
    refine congrArg₂ _ (any_congr_left fun p _ => isCharLiteral_forget p) (any_congr_left ih)
  | record x fs ih =>
    simp only [forget, hasString, forgetFields_eq, fieldsHaveString_eq, List.any_map]
    exact any_congr_left ih
  | variant x lbl p ih => simp only [forget, hasString, ih]

lemma hasInnerString_forget (p : Pattern) : p.forget.hasInnerString = p.hasInnerString := by
  cases p with
  | array x ps =>
    simp only [forget, hasInnerString, forgetAll_eq, hasStrings_eq, List.any_map]
    exact any_congr_left fun p _ => hasString_forget p
  | any x vn => rfl
  | literal x p => rfl
  | record x fs => exact hasString_forget (.record x fs)
  | variant x lbl p => exact hasString_forget (.variant x lbl p)

end Pattern

/-! ### Names -/

/-- The part `y` of the input is inside of the part `x`. -/
inductive Under (x : Name) : Name → Prop where
  | refl : Under x x
  | element {y : Name} (i : ℕ) (h : Under x y) : Under x (.element y i)
  | field {y : Name} (f : Bytes) (h : Under x y) : Under x (.field y f)
  | payload {y : Name} (h : Under x y) : Under x (.payload y)
  | size {y : Name} (h : Under x y) : Under x (.size y)
  | view {y : Name} (h : Under x y) : Under x (.view y)
  | word {y : Name} (i : ℕ) (h : Under x y) : Under x (.word y i)

lemma Under.trans {x y z : Name} (h : Under x y) (h' : Under y z) : Under x z := by
  induction h' with
  | refl => exact h
  | element i _ ih => exact .element i ih
  | field f _ ih => exact .field f ih
  | payload _ ih => exact .payload ih
  | size _ ih => exact .size ih
  | view _ ih => exact .view ih
  | word i _ ih => exact .word i ih

/-- Of two parts that have a part in common, one is inside of the other. -/
lemma Under.total {x y z : Name} (h : Under x z) (h' : Under y z) : Under x y ∨ Under y x := by
  induction h with
  | refl => exact .inr h'
  | element i h ih =>
    cases h' with
    | refl => exact .inl (.element i h)
    | element _ h' => exact ih h'
  | field f h ih =>
    cases h' with
    | refl => exact .inl (.field f h)
    | field _ h' => exact ih h'
  | payload h ih =>
    cases h' with
    | refl => exact .inl (.payload h)
    | payload h' => exact ih h'
  | size h ih =>
    cases h' with
    | refl => exact .inl (.size h)
    | size h' => exact ih h'
  | view h ih =>
    cases h' with
    | refl => exact .inl (.view h)
    | view h' => exact ih h'
  | word i h ih =>
    cases h' with
    | refl => exact .inl (.word i h)
    | word _ h' => exact ih h'

/-- Neither part of the input is inside of the other. -/
def Apart (x y : Name) : Prop := ¬ Under x y ∧ ¬ Under y x

lemma Apart.of_under {x y z : Name} (h : Apart x y) (hz : Under x z) : Apart z y := by
  refine ⟨fun hzy => h.1 (hz.trans hzy), fun hyz => ?_⟩
  rcases hz.total hyz with hxy | hyx
  · exact h.1 hxy
  · exact h.2 hyx

lemma Apart.ne {x y : Name} (h : Apart x y) : x ≠ y := by
  rintro rfl
  exact h.1 .refl

/-- What a part of the input is a part of. -/
def Name.parent : Name → Option Name
  | .element x _ | .field x _ | .payload x | .size x | .view x | .word x _ => some x
  | .root _ | .guardCheck | .unnamed => none

lemma Under.of_parent {x y : Name} (h : y.parent = some x) : Under x y := by
  cases y <;> cases h
  exacts [.element _ .refl, .field _ .refl, .payload .refl, .size .refl, .view .refl, .word _ .refl]

lemma Under.eq_or_under {x y z : Name} (h : Under x y) (hz : y.parent = some z) : x = y ∨ Under x z := by
  cases h with
  | refl => exact .inl rfl
  | element _ h | field _ h | payload h | size h | view h | word _ h =>
    cases hz
    exact .inr h

lemma Under.sizeOf_le {x y : Name} (h : Under x y) : SizeOf.sizeOf x ≤ SizeOf.sizeOf y := by
  induction h <;> simp <;> omega

lemma sizeOf_lt_of_parent {x y : Name} (h : y.parent = some x) : SizeOf.sizeOf x < SizeOf.sizeOf y := by
  cases y <;> cases h <;> simp <;> omega

lemma not_under_of_parent {x y : Name} (h : y.parent = some x) : ¬ Under y x := fun hyx =>
  absurd hyx.sizeOf_le (not_le.mpr (sizeOf_lt_of_parent h))

/-- Two parts of the same are apart. -/
lemma apart_of_parent {x y z : Name} (hy : y.parent = some x) (hz : z.parent = some x) (hne : y ≠ z) : Apart y z :=
  ⟨fun h => (h.eq_or_under hz).elim hne (not_under_of_parent hy),
    fun h => (h.eq_or_under hy).elim hne.symm (not_under_of_parent hz)⟩

/-- What is apart from something is none of its parts. -/
lemma Apart.ne_of_parent {x y z : Name} (h : Apart x y) (hz : z.parent = some x) : y ≠ z := by
  rintro rfl
  exact h.1 (.of_parent hz)

/-! ### Columns -/

/-- The name of a column, and whether there may be strings in it. If so, the wildcards in it have its name too. -/
structure Column where
  name : Name
  strings : Bool

/-- The pattern is one for the column. -/
structure Placed (x : Column) (p : Pattern) : Prop where
  named : p.isAny = false → p.assignName x.name = p
  inner : p.hasInnerString = false
  strings : x.strings = false → p.hasString = false
  wildcard : x.strings = true → p.name = x.name

/-- The table is one for the columns, and its patterns have a type. -/
structure TableOk (xs : List Column) (ps : PatternRows G E) : Prop where
  nonempty : ps ≠ []
  apart : xs.Pairwise fun x y => Apart x.name y.name
  notGuard : ∀ x ∈ xs, ¬ Under .guardCheck x.name
  placed : ∀ r ∈ ps, List.Forall₂ Placed xs r.patterns
  typed : ∃ ts, ∀ r ∈ ps, List.Forall₂ Pattern.HasTy r.patterns ts

end Hobbes.Match.Table
