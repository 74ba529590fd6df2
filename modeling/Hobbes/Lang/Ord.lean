import Mathlib.Data.Int.Notation
import Mathlib.Data.Sum.Order
import Mathlib.Data.List.Lex
import Mathlib.Data.Prod.Basic
import Mathlib.Tactic.Common

/-!
# Comparisons

What the instances of the classes `Eq` and `Ord` define. A type that they are derived for is a `Ty`, and
an instance becomes a function of the comparisons that it assumes.
-/

namespace Hobbes.Lang

/-- `(===)`, `(<)`, `(<=)`, `(>)` and `(>=)`. -/
structure Ops (α : Type) where
  eq : α → α → Bool
  lt : α → α → Bool
  le : α → α → Bool
  gt : α → α → Bool
  ge : α → α → Bool

namespace Ops

variable {α β : Type}

/-! ### Primitive types -/

def unit : Ops Unit where
  eq _ _ := true
  lt _ _ := false
  le _ _ := true
  gt _ _ := false
  ge _ _ := true

/-- The type `0`. -/
def void : Ops Empty where
  eq _ _ := false
  lt _ _ := false
  le _ _ := false
  gt _ _ := false
  ge _ _ := false

def bool : Ops Bool where
  eq x y := if x then y else !y
  lt x y := if x then false else y
  le x y := if x then y else true
  gt x y := if y then false else x
  ge x y := if y then x else true

/-- The comparisons of `char` and `byte`. -/
def unsigned (w : ℕ) : Ops (BitVec w) where
  eq x y := x == y
  lt x y := x.ult y
  le x y := x.ule y
  gt x y := y.ult x
  ge x y := y.ule x

/-- The comparisons of `short`, `int` and `long`. -/
def signed (w : ℕ) : Ops (BitVec w) where
  eq x y := x == y
  lt x y := x.slt y
  le x y := x.sle y
  gt x y := y.slt x
  ge x y := y.sle x

/-! ### Arrays -/

/-- There is no comparing behind the end of an array. -/
def arrCmp (o : Ops α) (d : Bool) (xs ys : List α) (i e : ℕ) : Bool :=
  if i = e then xs.length < ys.length || d && xs.length == ys.length
  else
    match hx : xs[i]?, ys[i]? with
    | some x, some y =>
      if o.lt x y then true else if o.lt y x then false else arrCmp o d xs ys (i + 1) e
    | _, _ => false
termination_by xs.length - i
decreasing_by
  have := (List.getElem?_eq_some_iff.mp hx).1
  omega

def eqLenEqArrs (o : Ops α) (xs ys : List α) (i : ℕ) : Bool :=
  if i = xs.length then true
  else
    match hx : xs[i]?, ys[i]? with
    | some x, some y => if o.eq x y then eqLenEqArrs o xs ys (i + 1) else false
    | _, _ => false
termination_by xs.length - i
decreasing_by
  have := (List.getElem?_eq_some_iff.mp hx).1
  omega

def array (o : Ops α) : Ops (List α) where
  eq xs ys := xs.length == ys.length && o.eqLenEqArrs xs ys 0
  lt xs ys := o.arrCmp false xs ys 0 (min xs.length ys.length)
  le xs ys := o.arrCmp true xs ys 0 (min xs.length ys.length)
  gt xs ys := o.arrCmp false ys xs 0 (min ys.length xs.length)
  ge xs ys := o.arrCmp true ys xs 0 (min ys.length xs.length)

/-! ### Records and tuples -/

/-- The instances for records and for tuples, from the comparisons of the first field and of the other
fields. -/
def record (h : Ops α) (t : Ops β) : Ops (α × β) where
  eq x y := h.eq x.1 y.1 && t.eq x.2 y.2
  lt x y := if h.eq x.1 y.1 then t.lt x.2 y.2 else h.lt x.1 y.1
  le x y := if h.eq x.1 y.1 then t.le x.2 y.2 else h.lt x.1 y.1
  gt y x := if h.eq x.1 y.1 then t.lt x.2 y.2 else h.lt x.1 y.1
  ge y x := if h.eq x.1 y.1 then t.le x.2 y.2 else h.lt x.1 y.1

/-! ### Variants -/

/-- The instances for variants, from the comparisons of the first payload and of the other constructors.
The other constructors are compared by `tx < ty` whatever the operator. -/
def variant (h : Ops α) (t : Ops β) (index : α ⊕ β → ℕ) : Ops (α ⊕ β) where
  eq x y := x.elim (fun xv => y.elim (fun yv => h.eq xv yv) fun _ => false)
    fun xt => y.elim (fun _ => false) fun yt => t.eq xt yt
  lt x y := x.elim (fun hx => y.elim (fun hy => h.lt hx hy) fun _ => index x < index y)
    fun tx => y.elim (fun _ => index x < index y) fun ty => t.lt tx ty
  le x y := x.elim (fun hx => y.elim (fun hy => h.le hx hy) fun _ => index x ≤ index y)
    fun tx => y.elim (fun _ => index x ≤ index y) fun ty => t.lt tx ty
  gt x y := x.elim (fun hx => y.elim (fun hy => h.gt hx hy) fun _ => index x > index y)
    fun tx => y.elim (fun _ => index x > index y) fun ty => t.lt tx ty
  ge x y := x.elim (fun hx => y.elim (fun hy => h.ge hx hy) fun _ => index x ≥ index y)
    fun tx => y.elim (fun _ => index x ≥ index y) fun ty => t.lt tx ty

/-- The instances for sums `a+b`, which come ahead of those for variants. -/
def sum (a : Ops α) (b : Ops β) : Ops (α ⊕ β) where
  eq
    | .inl x, .inl y => a.eq x y
    | .inr x, .inr y => b.eq x y
    | _, _ => false
  lt
    | .inl x, .inl y => a.lt x y
    | .inr x, .inr y => b.lt x y
    | .inl _, _ => true
    | _, _ => false
  le
    | .inl x, .inl y => a.le x y
    | .inr x, .inr y => b.le x y
    | .inl _, _ => true
    | _, _ => false
  gt
    | .inl x, .inl y => a.gt x y
    | .inr x, .inr y => b.gt x y
    | .inl _, _ => false
    | _, _ => true
  ge
    | .inl x, .inl y => a.ge x y
    | .inr x, .inr y => b.ge x y
    | .inl _, _ => false
    | _, _ => true

end Ops

/-! ### Types -/

inductive PrimTy where
  | unit
  | bool
  | char
  | byte
  | short
  | int
  | long
  | timespan
  | time
  | datetime

/-- The types that comparisons are derived for, other than those of floating point. The names of fields
and constructors are left out. A sum is the variant with the constructors `.f0` and `.f1`, and a variant
is any other one. -/
inductive Ty where
  | prim (p : PrimTy)
  | array (t : Ty)
  | record (fs : List Ty)
  | variant (cs : List Ty)
  | sum (a b : Ty)

def PrimTy.Val : PrimTy → Type
  | unit => Unit
  | bool => Bool
  | char | byte => BitVec 8
  | short => BitVec 16
  | int => BitVec 32
  | long | timespan | time | datetime => BitVec 64

mutual

def Ty.Val : Ty → Type
  | .prim p => p.Val
  | .array t => List t.Val
  | .record fs => recordVal fs
  | .variant cs => variantVal cs
  | .sum a b => a.Val ⊕ b.Val

def recordVal : List Ty → Type
  | [] => Unit
  | t :: ts => t.Val × recordVal ts

def variantVal : List Ty → Type
  | [] => Empty
  | t :: ts => t.Val ⊕ variantVal ts

end

/-- The times are compared as what they convert to. -/
def PrimTy.ops : (p : PrimTy) → Ops p.Val
  | unit => Ops.unit
  | bool => Ops.bool
  | char | byte => Ops.unsigned 8
  | short => Ops.signed 16
  | int => Ops.signed 32
  | long | timespan | time | datetime => Ops.signed 64

def variantCtorIndexFrom : (cs : List Ty) → variantVal cs → ℕ → ℕ
  | [], _, i => i
  | _ :: cs, v, i => Sum.elim (fun _ => i) (fun t => variantCtorIndexFrom cs t (i + 1)) v

def variantCtorIndex (cs : List Ty) (v : variantVal cs) : ℕ := variantCtorIndexFrom cs v 0

mutual

def Ty.ops : (t : Ty) → Ops t.Val
  | .prim p => p.ops
  | .array t => t.ops.array
  | .record fs => recordOps fs
  | .variant cs => variantOps cs
  | .sum a b => a.ops.sum b.ops

def recordOps : (fs : List Ty) → Ops (recordVal fs)
  | [] => Ops.unit
  | t :: ts => t.ops.record (recordOps ts)

def variantOps : (cs : List Ty) → Ops (variantVal cs)
  | [] => Ops.void
  | t :: ts => t.ops.variant (variantOps ts) (variantCtorIndex (t :: ts))

end

end Hobbes.Lang
