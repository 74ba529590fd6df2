import Hobbes.Core.Codec

/-!
# Types

A `MonoType` stands for a type of the compiler by the arguments under which it was hash-consed, so
that equality of values is equality of pointers. Type-level expressions are left out.
-/

namespace Hobbes.Lang

open Core

structure Variant.Member (τ : Type) where
  selector : Bytes
  type : τ
  id : BitVec 32

structure Record.Member (τ : Type) where
  field : Bytes
  type : τ
  /-- an `int`, with `-1` for an offset that is not determined -/
  offset : BitVec 32

inductive MonoType where
  | prim (nm : Bytes) (t : Option MonoType)
  | opaquePtr (nm : Bytes) (sz : BitVec 32) (scontig : Bool)
  | tvar (nm : Bytes)
  | tgen (x : BitVec 32)
  | tabs (targns : List Bytes) (b : MonoType)
  | tapp (f : MonoType) (targs : List MonoType)
  | fixedArray (ty len : MonoType)
  | array (ty : MonoType)
  | variant (ms : List (Variant.Member MonoType))
  | record (ms : List (Record.Member MonoType))
  | func (aty rty : MonoType)
  | existsType (tname : Bytes) (bty : MonoType)
  | recursive (tname : Bytes) (bty : MonoType)
  | tstring (val : Bytes)
  | tlong (x : BitVec 64)

/-! ### Induction -/

/-- One case for each constructor, a member of a list being covered by its type. -/
structure MonoType.Cases (P : MonoType → Prop) : Prop where
  prim : ∀ nm t, (∀ r, t = some r → P r) → P (.prim nm t)
  opaquePtr : ∀ nm sz scontig, P (.opaquePtr nm sz scontig)
  tvar : ∀ nm, P (.tvar nm)
  tgen : ∀ x, P (.tgen x)
  tabs : ∀ targns b, P b → P (.tabs targns b)
  tapp : ∀ f targs, P f → (∀ t ∈ targs, P t) → P (.tapp f targs)
  fixedArray : ∀ ty len, P ty → P len → P (.fixedArray ty len)
  array : ∀ ty, P ty → P (.array ty)
  variant : ∀ ms : List (Variant.Member MonoType), (∀ m ∈ ms, P m.type) → P (.variant ms)
  record : ∀ ms : List (Record.Member MonoType), (∀ m ∈ ms, P m.type) → P (.record ms)
  func : ∀ aty rty, P aty → P rty → P (.func aty rty)
  existsType : ∀ tname bty, P bty → P (.existsType tname bty)
  recursive : ∀ tname bty, P bty → P (.recursive tname bty)
  tstring : ∀ val, P (.tstring val)
  tlong : ∀ x, P (.tlong x)

mutual

lemma MonoType.Cases.all {P : MonoType → Prop} (h : MonoType.Cases P) : ∀ t, P t
  | .prim nm none => h.prim nm none (by simp)
  | .prim nm (some t) => h.prim nm (some t) fun r hr => Option.some.inj hr ▸ h.all t
  | .opaquePtr nm sz scontig => h.opaquePtr nm sz scontig
  | .tvar nm => h.tvar nm
  | .tgen x => h.tgen x
  | .tabs targns b => h.tabs targns b (h.all b)
  | .tapp f targs => h.tapp f targs (h.all f) (h.allTypes targs)
  | .fixedArray ty len => h.fixedArray ty len (h.all ty) (h.all len)
  | .array ty => h.array ty (h.all ty)
  | .variant ms => h.variant ms (h.allVariant ms)
  | .record ms => h.record ms (h.allRecord ms)
  | .func aty rty => h.func aty rty (h.all aty) (h.all rty)
  | .existsType tname bty => h.existsType tname bty (h.all bty)
  | .recursive tname bty => h.recursive tname bty (h.all bty)
  | .tstring val => h.tstring val
  | .tlong x => h.tlong x

lemma MonoType.Cases.allTypes {P : MonoType → Prop} (h : MonoType.Cases P) :
    ∀ (ts : List MonoType), ∀ t ∈ ts, P t
  | [] => by simp
  | t :: ts => List.forall_mem_cons.mpr ⟨h.all t, h.allTypes ts⟩

lemma MonoType.Cases.allVariant {P : MonoType → Prop} (h : MonoType.Cases P) :
    ∀ (ms : List (Variant.Member MonoType)), ∀ m ∈ ms, P m.type
  | [] => by simp
  | ⟨_, t, _⟩ :: ms => List.forall_mem_cons.mpr ⟨h.all t, h.allVariant ms⟩

lemma MonoType.Cases.allRecord {P : MonoType → Prop} (h : MonoType.Cases P) :
    ∀ (ms : List (Record.Member MonoType)), ∀ m ∈ ms, P m.type
  | [] => by simp
  | ⟨_, t, _⟩ :: ms => List.forall_mem_cons.mpr ⟨h.all t, h.allRecord ms⟩

end

@[elab_as_elim, induction_eliminator]
lemma MonoType.induct {P : MonoType → Prop}
    (prim : ∀ nm t, (∀ r, t = some r → P r) → P (.prim nm t))
    (opaquePtr : ∀ nm sz scontig, P (.opaquePtr nm sz scontig))
    (tvar : ∀ nm, P (.tvar nm))
    (tgen : ∀ x, P (.tgen x))
    (tabs : ∀ targns b, P b → P (.tabs targns b))
    (tapp : ∀ f targs, P f → (∀ t ∈ targs, P t) → P (.tapp f targs))
    (fixedArray : ∀ ty len, P ty → P len → P (.fixedArray ty len))
    (array : ∀ ty, P ty → P (.array ty))
    (variant : ∀ ms : List (Variant.Member MonoType), (∀ m ∈ ms, P m.type) → P (.variant ms))
    (record : ∀ ms : List (Record.Member MonoType), (∀ m ∈ ms, P m.type) → P (.record ms))
    (func : ∀ aty rty, P aty → P rty → P (.func aty rty))
    (existsType : ∀ tname bty, P bty → P (.existsType tname bty))
    (recursive : ∀ tname bty, P bty → P (.recursive tname bty))
    (tstring : ∀ val, P (.tstring val))
    (tlong : ∀ x, P (.tlong x)) (t : MonoType) : P t :=
  MonoType.Cases.all ⟨prim, opaquePtr, tvar, tgen, tabs, tapp, fixedArray, array, variant, record,
    func, existsType, recursive, tstring, tlong⟩ t

/-! ### Free variables -/

mutual

/-- `freeTVars`. The constructor of a type abstraction does not fill it in. -/
def MonoType.freeTVars : MonoType → List Bytes
  | .prim _ none => []
  | .prim _ (some t) => t.freeTVars
  | .opaquePtr _ _ _ => []
  | .tvar nm => [nm]
  | .tgen _ => []
  | .tabs _ _ => []
  | .tapp f targs => f.freeTVars ++ tvarNames targs
  | .fixedArray ty len => ty.freeTVars ++ len.freeTVars
  | .array ty => ty.freeTVars
  | .variant ms => variantTVars ms
  | .record ms => recordTVars ms
  | .func aty rty => aty.freeTVars ++ rty.freeTVars
  | .existsType tname bty => bty.freeTVars.filter (· ≠ tname)
  | .recursive tname bty => bty.freeTVars.filter (· ≠ tname)
  | .tstring _ => []
  | .tlong _ => []

def tvarNames : List MonoType → List Bytes
  | [] => []
  | t :: ts => t.freeTVars ++ tvarNames ts

def variantTVars : List (Variant.Member MonoType) → List Bytes
  | [] => []
  | ⟨_, t, _⟩ :: ms => t.freeTVars ++ variantTVars ms

def recordTVars : List (Record.Member MonoType) → List Bytes
  | [] => []
  | ⟨_, t, _⟩ :: ms => t.freeTVars ++ recordTVars ms

end

mutual

def MonoType.tgenCount : MonoType → Int
  | .prim _ none => 0
  | .prim _ (some t) => t.tgenCount
  | .opaquePtr _ _ _ => 0
  | .tvar _ => 0
  | .tgen x => x.toInt + 1
  | .tabs _ _ => 0
  | .tapp f targs => max f.tgenCount (tgenSize targs)
  | .fixedArray ty len => max ty.tgenCount len.tgenCount
  | .array ty => ty.tgenCount
  | .variant ms => variantTGens ms
  | .record ms => recordTGens ms
  | .func aty rty => max aty.tgenCount rty.tgenCount
  | .existsType _ bty => bty.tgenCount
  | .recursive _ bty => bty.tgenCount
  | .tstring _ => 0
  | .tlong _ => 0

def tgenSize : List MonoType → Int
  | [] => 0
  | t :: ts => max t.tgenCount (tgenSize ts)

def variantTGens : List (Variant.Member MonoType) → Int
  | [] => 0
  | ⟨_, t, _⟩ :: ms => max t.tgenCount (variantTGens ms)

def recordTGens : List (Record.Member MonoType) → Int
  | [] => 0
  | ⟨_, t, _⟩ :: ms => max t.tgenCount (recordTGens ms)

end

def MonoType.isMonoSingular (t : MonoType) : Bool := t.freeTVars.isEmpty && t.tgenCount == 0

/-! ### Making types

Where `make` is not named here it passes its arguments on to the constructor. -/

def OpaquePtr.make (nm : Bytes) (sz : BitVec 32) (scontig : Bool) : MonoType :=
  .opaquePtr nm (if scontig then sz else 0) scontig

/-- What `type()` returns for an array made of `ty`. -/
def normIfOpaquePtr : MonoType → MonoType
  | .opaquePtr nm sz _ => OpaquePtr.make nm sz false
  | ty => ty

/-- `alignment` and `sizeOf`, which throw on some types: what is proved here holds for any two
functions in their place. -/
structure Layout where
  alignment : MonoType → Option (BitVec 32)
  sizeOf : MonoType → Option (BitVec 32)

/-- `align<unsigned int>`. -/
def align (x m : BitVec 32) : BitVec 32 :=
  if m = 0 ∨ x % m = 0 then x else (1 + x / m) * m

/-- Give a member the offset `o` that was computed for it. -/
def Record.place (m : Record.Member MonoType) (o : BitVec 32) : Option (Record.Member MonoType) :=
  if m.offset = -1 then some { m with offset := o }
  else if o.slt m.offset then none
  else if m.offset = o then some m
  else none

/-- The loop of `withResolvedMemoryLayout`, `r` being what is resolved so far and `o` the end of
it. A member that is not closed makes it return all of `ms` as it is. -/
def Record.resolveFrom (L : Layout) (ms r : List (Record.Member MonoType)) (o : BitVec 32) :
    List (Record.Member MonoType) → Option (List (Record.Member MonoType))
  | [] => some r
  | m :: rest =>
    if ¬ m.type.isMonoSingular then some ms
    else do
      let a ← L.alignment m.type
      let o := align o a
      let m' ← Record.place m o
      let sz ← L.sizeOf m.type
      Record.resolveFrom L ms (r ++ [m']) (o + sz) rest

def Record.withResolvedMemoryLayout (L : Layout) (ms : List (Record.Member MonoType)) :
    Option (List (Record.Member MonoType)) :=
  Record.resolveFrom L ms [] 0 ms

def Record.make (L : Layout) (ms : List (Record.Member MonoType)) : Option MonoType :=
  (Record.withResolvedMemoryLayout L ms).map .record

/-- The types that can be made. -/
inductive MonoType.Made (L : Layout) : MonoType → Prop where
  | prim {nm : Bytes} {t : Option MonoType} (h : ∀ r, t = some r → Made L r) : Made L (.prim nm t)
  | opaquePtr (nm : Bytes) (sz : BitVec 32) (scontig : Bool) : Made L (OpaquePtr.make nm sz scontig)
  | tvar (nm : Bytes) : Made L (.tvar nm)
  | tgen (x : BitVec 32) : Made L (.tgen x)
  | tabs {targns : List Bytes} {b : MonoType} (h : Made L b) : Made L (.tabs targns b)
  | tapp {f : MonoType} {targs : List MonoType} (hf : Made L f) (h : ∀ t ∈ targs, Made L t) :
      Made L (.tapp f targs)
  | fixedArray {ty len : MonoType} (hty : Made L ty) (hlen : Made L len) :
      Made L (.fixedArray ty len)
  | array {ty : MonoType} (h : Made L ty) : Made L (.array ty)
  | variant {ms : List (Variant.Member MonoType)} (h : ∀ m ∈ ms, Made L m.type) :
      Made L (.variant ms)
  | record {ms : List (Record.Member MonoType)} {t : MonoType} (h : ∀ m ∈ ms, Made L m.type)
      (ht : Record.make L ms = some t) : Made L t
  | func {aty rty : MonoType} (haty : Made L aty) (hrty : Made L rty) : Made L (.func aty rty)
  | existsType {tname : Bytes} {bty : MonoType} (h : Made L bty) : Made L (.existsType tname bty)
  | recursive {tname : Bytes} {bty : MonoType} (h : Made L bty) : Made L (.recursive tname bty)
  | tstring (val : Bytes) : Made L (.tstring val)
  | tlong (x : BitVec 64) : Made L (.tlong x)

/-! ### Layouts are resolved once -/

section

variable {L : Layout} {ms r res : List (Record.Member MonoType)} {o : BitVec 32}

lemma Record.place_eq_some {m m' : Record.Member MonoType} (h : Record.place m o = some m') :
    m'.type = m.type ∧ Record.place m' o = some m' := by
  unfold Record.place at h
  split_ifs at h with h₁ h₂ h₃ <;> cases h
  · refine ⟨rfl, ?_⟩
    simp only [Record.place, if_true]
    split_ifs with h₄ h₅
    · rfl
    · simp [BitVec.slt] at h₅
    · rfl
  · exact ⟨rfl, by simp only [Record.place, h₁, h₂, if_false]; rw [if_pos h₃]; rfl⟩

/-- What the loop has resolved it resolves again to itself. -/
lemma Record.resolveFrom_resolved {rest : List (Record.Member MonoType)}
    (h : Record.resolveFrom L ms r o rest = some res) : res = ms ∨
      ∃ rest', res = r ++ rest' ∧ rest'.map Record.Member.type = rest.map Record.Member.type ∧
        ∀ ms' r', Record.resolveFrom L ms' r' o rest' = some (r' ++ rest') := by
  induction rest generalizing r o with
  | nil =>
    refine .inr ⟨[], ?_, rfl, fun _ _ => by simp [Record.resolveFrom]⟩
    simpa [Record.resolveFrom] using h.symm
  | cons m rest ih =>
    by_cases hsing : m.type.isMonoSingular
    · simp only [Record.resolveFrom, hsing, not_true_eq_false, if_false, Option.bind_eq_bind,
        Option.bind_eq_some_iff] at h
      obtain ⟨a, ha, m', hm', sz, hsz, h⟩ := h
      obtain ⟨htype, hplace⟩ := Record.place_eq_some hm'
      obtain rfl | ⟨rest', rfl, htypes, hagain⟩ := ih h
      · exact .inl rfl
      refine .inr ⟨m' :: rest', by simp, by simp [htype, htypes], fun ms' r' => ?_⟩
      simp [Record.resolveFrom, htype, hsing, ha, hplace, hsz, hagain]
    · have hms : some ms = some res := by simpa [Record.resolveFrom, hsing] using h
      exact .inl (Option.some.inj hms).symm

lemma Record.withResolvedMemoryLayout_types (h : Record.withResolvedMemoryLayout L ms = some res) :
    res.map Record.Member.type = ms.map Record.Member.type := by
  obtain rfl | ⟨rest', rfl, htypes, -⟩ := Record.resolveFrom_resolved h
  · rfl
  · simpa using htypes

/-- A resolved layout is resolved to itself. -/
lemma Record.withResolvedMemoryLayout_idem (h : Record.withResolvedMemoryLayout L ms = some res) :
    Record.withResolvedMemoryLayout L res = some res := by
  obtain heq | ⟨rest', heq, -, hagain⟩ := Record.resolveFrom_resolved h
  · rwa [heq] at h ⊢
  · rw [heq, List.nil_append]
    exact hagain rest' []

lemma Record.make_eq_some {t : MonoType} (h : Record.make L ms = some t) :
    ∃ ms', t = .record ms' ∧ Record.make L ms' = some t ∧
      ms'.map Record.Member.type = ms.map Record.Member.type := by
  simp only [Record.make, Option.map_eq_some_iff] at h
  obtain ⟨ms', h, rfl⟩ := h
  refine ⟨ms', rfl, ?_, Record.withResolvedMemoryLayout_types h⟩
  rw [Record.make, Record.withResolvedMemoryLayout_idem h, Option.map_some]

end

end Hobbes.Lang
