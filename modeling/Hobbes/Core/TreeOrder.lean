import Mathlib.Order.Compare
import Mathlib.Tactic.Common

/-!
# Comparisons of three, and ordered trees

Comparisons that are made one after the other are transitive if each of them is. So trees are ordered by their labels,
then by how many children they have, and then by their children.
-/

namespace Core

/-! ### Comparisons of three -/

/-- `x`, `y` and `z` can be the comparisons of `a` with `b`, of `b` with `c` and of `a` with `c`. -/
structure Fits (x y z : Ordering) : Prop where
  lt : x = .lt → y = .lt → z = .lt
  gt : x = .gt → y = .gt → z = .gt
  left : x = .eq → z = y
  right : y = .eq → z = x

/-- The second comparisons only count where the first ones say that all three are equal. -/
lemma Fits.then_of {x y z x' y' z' : Ordering} (h : Fits x y z) (h' : x = .eq → y = .eq → Fits x' y' z') :
    Fits (x.then x') (y.then y') (z.then z') := by
  obtain ⟨hlt, hgt, hleft, hright⟩ := h
  cases x <;> cases y
  case eq.eq =>
    obtain rfl := hleft rfl
    exact h' rfl rfl
  all_goals constructor <;> simp_all

lemma Fits.then {x y z x' y' z' : Ordering} (h : Fits x y z) (h' : Fits x' y' z') :
    Fits (x.then x') (y.then y') (z.then z') := h.then_of fun _ _ => h'

lemma Fits.isLE {x y z : Ordering} (h : Fits x y z) (hx : x.isLE = true) (hy : y.isLE = true) : z.isLE = true := by
  obtain ⟨hlt, hgt, hleft, hright⟩ := h
  cases x <;> cases y <;> simp_all

/-- If a comparison is made both ways, each is the reverse of the other one. -/
lemma Fits.swap {x y : Ordering} (h : Fits x y .eq) : x = y.swap := by
  obtain ⟨hlt, hgt, hleft, hright⟩ := h
  cases x <;> cases y <;> simp_all

lemma fits_cmp {α : Type} {cmp : α → α → Ordering} [Std.TransCmp cmp] (a b c : α) :
    Fits (cmp a b) (cmp b c) (cmp a c) where
  lt h h' := Std.TransCmp.lt_trans h h'
  gt h h' := Std.TransCmp.gt_trans h h'
  left h := Std.TransCmp.congr_left h
  right h := (Std.TransCmp.congr_right h).symm

lemma fits_compare {α : Type} [Ord α] [Std.TransOrd α] (a b c : α) :
    Fits (compare a b) (compare b c) (compare a c) := fits_cmp a b c

/-! ### Trees -/

inductive OrdTree (α : Type) where
  | node (a : α) (ts : List (OrdTree α))

namespace OrdTree

variable {α : Type}

lemma induct {P : OrdTree α → Prop} (node : ∀ a ts, (∀ t ∈ ts, P t) → P (.node a ts)) : ∀ t, P t
  | .node a ts => node a ts fun t _ => induct node t

variable (cmp : α → α → Ordering)

mutual

def compare : OrdTree α → OrdTree α → Ordering
  | .node a ss, .node b ts =>
    (cmp a b).then <| (Ord.compare ss.length ts.length).then <| compareEach ss ts

/-- The first difference counts. -/
def compareEach : List (OrdTree α) → List (OrdTree α) → Ordering
  | [], [] => .eq
  | [], _ :: _ => .lt
  | _ :: _, [] => .gt
  | s :: ss, t :: ts => (compare s t).then (compareEach ss ts)

end

variable {cmp}

lemma compareEach_eq {ss ts : List (OrdTree α)} (h : ∀ s ∈ ss, ∀ t, compare cmp s t = .eq → s = t)
    (heq : compareEach cmp ss ts = .eq) : ss = ts := by
  induction ss generalizing ts with
  | nil =>
    cases ts with
    | nil => rfl
    | cons t ts => cases heq
  | cons s ss ih =>
    cases ts with
    | nil => cases heq
    | cons t ts =>
      rw [compareEach, Ordering.then_eq_eq] at heq
      obtain ⟨hs, hss⟩ := List.forall_mem_cons.mp h
      exact congrArg₂ List.cons (hs t heq.1) (ih hss heq.2)

lemma eq_of_compare [Std.LawfulEqCmp cmp] {s t : OrdTree α} (h : compare cmp s t = .eq) : s = t := by
  induction s using induct generalizing t with
  | node a ss ih =>
    obtain ⟨b, ts⟩ := t
    rw [compare, Ordering.then_eq_eq, Ordering.then_eq_eq] at h
    obtain ⟨hab, -, hts⟩ := h
    rw [Std.LawfulEqCmp.eq_of_compare hab, compareEach_eq (fun s hs t => ih s hs) hts]

lemma compareEach_self {ts : List (OrdTree α)} (h : ∀ t ∈ ts, compare cmp t t = .eq) : compareEach cmp ts ts = .eq := by
  induction ts with
  | nil => rfl
  | cons t ts ih =>
    obtain ⟨ht, hts⟩ := List.forall_mem_cons.mp h
    rw [compareEach, ht, ih hts]
    rfl

lemma compare_self [Std.ReflCmp cmp] (t : OrdTree α) : compare cmp t t = .eq := by
  induction t using induct with
  | node a ts ih =>
    rw [compare, @Std.ReflCmp.compare_self _ cmp, @Std.ReflCmp.compare_self ℕ Ord.compare, compareEach_self ih]
    rfl

lemma fits_compareEach {ss : List (OrdTree α)}
    (h : ∀ s ∈ ss, ∀ t u, Fits (compare cmp s t) (compare cmp t u) (compare cmp s u)) (ts us : List (OrdTree α)) :
    Fits (compareEach cmp ss ts) (compareEach cmp ts us) (compareEach cmp ss us) := by
  induction ss generalizing ts us with
  | nil => cases ts <;> cases us <;> constructor <;> simp [compareEach]
  | cons s ss ih =>
    cases ts <;> cases us
    rotate_right
    · obtain ⟨hs, hss⟩ := List.forall_mem_cons.mp h
      exact (hs ..).then (ih hss ..)
    all_goals constructor <;> simp [compareEach]

section

variable [Std.TransCmp cmp]

lemma fits_compare (s t u : OrdTree α) : Fits (compare cmp s t) (compare cmp t u) (compare cmp s u) := by
  induction s using induct generalizing t u with
  | node a ss ih =>
    obtain ⟨b, ts⟩ := t
    obtain ⟨c, us⟩ := u
    exact (fits_cmp a b c).then ((Core.fits_compare ..).then (fits_compareEach ih ts us))

lemma compare_swap (s t : OrdTree α) : compare cmp s t = (compare cmp t s).swap :=
  Fits.swap ((compare_self s : compare cmp s s = .eq) ▸ fits_compare s t s)

instance : Std.TransCmp (compare cmp) where
  eq_swap := compare_swap _ _
  isLE_trans {s t u} hst htu := (fits_compare s t u).isLE hst htu

instance [Std.LawfulEqCmp cmp] : Std.LawfulEqCmp (compare cmp) where
  compare_self := compare_self _
  eq_of_compare := eq_of_compare

end

end OrdTree

end Core
