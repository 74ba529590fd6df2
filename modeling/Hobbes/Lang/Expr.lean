import Hobbes.Lang.MonoType

/-!
# Expressions

The annotations of the source text are left out. Every expression may carry its type. `Desc ε` is
an expression whose parts are of type `ε`.
-/

namespace Hobbes.Lang

open Core

structure Constraint where
  name : Bytes
  arguments : List MonoType

structure QualType where
  constraints : List Constraint
  monoType : MonoType

/-- The constants, those of floating point by their bits. -/
inductive Primitive where
  | unit
  | bool (x : Bool)
  | char (x : BitVec 8)
  | byte (x : BitVec 8)
  | short (x : BitVec 16)
  | int (x : BitVec 32)
  | long (x : BitVec 64)
  | float (x : BitVec 32)
  | double (x : BitVec 64)

structure Case.Binding (ε : Type) where
  selector : Bytes
  vname : Bytes
  exp : ε

structure Switch.Binding (ε : Type) where
  value : Primitive
  valueType : Option QualType
  exp : ε

inductive Desc (ε : Type) where
  | prim (v : Primitive)
  | var (id : Bytes)
  | letIn (id : Bytes) (e b : ε)
  | letRec (bs : List (Bytes × ε)) (e : ε)
  | fn (vs : List Bytes) (e : ε)
  | app (fne : ε) (argl : List ε)
  | assign (lhs rhs : ε)
  | mkArray (es : List ε)
  | mkVariant (lbl : Bytes) (e : ε)
  | mkRecord (fs : List (Bytes × ε))
  | aindex (arr i : ε)
  | case (v : ε) (bs : List (Case.Binding ε)) (dflt : Option ε)
  | switch (v : ε) (bs : List (Switch.Binding ε)) (dflt : Option ε)
  | proj (r : ε) (field : Bytes)
  | assump (e : ε) (t : QualType)
  | pack (e : ε)
  | unpack (vn : Bytes) (pkg body : ε)

inductive Expr where
  | mk (d : Desc Expr) (type : Option QualType)

namespace Expr

def desc : Expr → Desc Expr
  | mk d _ => d

def type : Expr → Option QualType
  | mk _ t => t

end Expr

/-- The parts of an expression. -/
def Desc.parts {ε : Type} : Desc ε → List ε
  | prim _ | var _ => []
  | letIn _ e b => [e, b]
  | letRec bs e => bs.map Prod.snd ++ [e]
  | fn _ e => [e]
  | app fne argl => fne :: argl
  | assign lhs rhs => [lhs, rhs]
  | mkArray es => es
  | mkVariant _ e => [e]
  | mkRecord fs => fs.map Prod.snd
  | aindex arr i => [arr, i]
  | case v bs dflt => v :: bs.map Case.Binding.exp ++ dflt.toList
  | switch v bs dflt => v :: bs.map Switch.Binding.exp ++ dflt.toList
  | proj r _ => [r]
  | assump e _ => [e]
  | pack e => [e]
  | unpack _ pkg body => [pkg, body]

/-! ### Induction -/

namespace Expr

variable {P : Expr → Prop}

mutual

/-- What holds of an expression whose parts it holds of holds of all expressions. -/
lemma all (h : ∀ e : Expr, (∀ c ∈ e.desc.parts, P c) → P e) : ∀ e, P e
  | mk d _ => h _ (allParts h d)

lemma allParts (h : ∀ e : Expr, (∀ c ∈ e.desc.parts, P c) → P e) :
    ∀ d : Desc Expr, ∀ c ∈ d.parts, P c
  | .prim _ | .var _ => List.forall_mem_nil P
  | .letIn _ e b => List.forall_mem_cons.mpr ⟨all h e, List.forall_mem_singleton.mpr (all h b)⟩
  | .letRec bs e =>
    List.forall_mem_append.mpr ⟨allBound h bs, List.forall_mem_singleton.mpr (all h e)⟩
  | .fn _ e => List.forall_mem_singleton.mpr (all h e)
  | .app fne argl => List.forall_mem_cons.mpr ⟨all h fne, allOf h argl⟩
  | .assign lhs rhs =>
    List.forall_mem_cons.mpr ⟨all h lhs, List.forall_mem_singleton.mpr (all h rhs)⟩
  | .mkArray es => allOf h es
  | .mkVariant _ e => List.forall_mem_singleton.mpr (all h e)
  | .mkRecord fs => allBound h fs
  | .aindex arr i =>
    List.forall_mem_cons.mpr ⟨all h arr, List.forall_mem_singleton.mpr (all h i)⟩
  | .case v bs dflt => List.forall_mem_append.mpr
      ⟨List.forall_mem_cons.mpr ⟨all h v, allCase h bs⟩, allDefault h dflt⟩
  | .switch v bs dflt => List.forall_mem_append.mpr
      ⟨List.forall_mem_cons.mpr ⟨all h v, allSwitch h bs⟩, allDefault h dflt⟩
  | .proj r _ => List.forall_mem_singleton.mpr (all h r)
  | .assump e _ => List.forall_mem_singleton.mpr (all h e)
  | .pack e => List.forall_mem_singleton.mpr (all h e)
  | .unpack _ pkg body =>
    List.forall_mem_cons.mpr ⟨all h pkg, List.forall_mem_singleton.mpr (all h body)⟩

lemma allOf (h : ∀ e : Expr, (∀ c ∈ e.desc.parts, P c) → P e) : ∀ es : List Expr, ∀ e ∈ es, P e
  | [] => List.forall_mem_nil P
  | e :: es => List.forall_mem_cons.mpr ⟨all h e, allOf h es⟩

lemma allBound (h : ∀ e : Expr, (∀ c ∈ e.desc.parts, P c) → P e) :
    ∀ bs : List (Bytes × Expr), ∀ e ∈ bs.map Prod.snd, P e
  | [] => List.forall_mem_nil P
  | (_, e) :: bs => List.forall_mem_cons.mpr ⟨all h e, allBound h bs⟩

lemma allCase (h : ∀ e : Expr, (∀ c ∈ e.desc.parts, P c) → P e) :
    ∀ bs : List (Case.Binding Expr), ∀ e ∈ bs.map Case.Binding.exp, P e
  | [] => List.forall_mem_nil P
  | ⟨_, _, e⟩ :: bs => List.forall_mem_cons.mpr ⟨all h e, allCase h bs⟩

lemma allSwitch (h : ∀ e : Expr, (∀ c ∈ e.desc.parts, P c) → P e) :
    ∀ bs : List (Switch.Binding Expr), ∀ e ∈ bs.map Switch.Binding.exp, P e
  | [] => List.forall_mem_nil P
  | ⟨_, _, e⟩ :: bs => List.forall_mem_cons.mpr ⟨all h e, allSwitch h bs⟩

lemma allDefault (h : ∀ e : Expr, (∀ c ∈ e.desc.parts, P c) → P e) :
    ∀ o : Option Expr, ∀ e ∈ o.toList, P e
  | none => List.forall_mem_nil P
  | some e => List.forall_mem_singleton.mpr (all h e)

end

@[elab_as_elim, induction_eliminator]
lemma induct {P : Expr → Prop} (mk : ∀ d t, (∀ c ∈ d.parts, P c) → P (.mk d t)) (e : Expr) : P e :=
  all (fun e he => by cases e with | mk d t => exact mk d t he) e

/-- `P` holds of an expression and of everything in it. -/
inductive Each (P : Expr → Prop) : Expr → Prop where
  | mk {d : Desc Expr} {t : Option QualType} (h : P (.mk d t)) (hd : ∀ c ∈ d.parts, Each P c) :
      Each P (.mk d t)

lemma each_mk {P : Expr → Prop} {d : Desc Expr} {t : Option QualType} :
    Each P (.mk d t) ↔ P (.mk d t) ∧ ∀ c ∈ d.parts, Each P c :=
  ⟨fun h => by cases h with | mk h hd => exact ⟨h, hd⟩, fun h => .mk h.1 h.2⟩

end Expr

end Hobbes.Lang
