import Hobbes.Lang.ConsMember
import Hobbes.Lang.UnifierBindings

/-!
# Appended records

What follows from the constraint that a record is one record appended to another. The size of a type is a parameter, as
types here leave out what it depends on.
-/

namespace Hobbes.Lang

open Core Term MonoTypeUnifier

/-! ### Records -/

abbrev RecordMembers := List (Bytes × TyTerm)

def isTupleLabel (fname : Bytes) : Bool := fname.take 2 = ascii ".f"

def isTupleLike : RecordMembers → Bool
  | [] => false
  | m :: _ => isTupleLabel m.1

def tupleNormalize (ms : RecordMembers) : RecordMembers :=
  if isTupleLike ms then ms.mapIdx fun i m => (positionLabel i, m.2) else ms

def unitType : TyTerm := .app (.prim (ascii "unit")) []

def makeRecordType (ms : RecordMembers) : TyTerm :=
  if ms.length = 0 then unitType
  else .app (.record ((tupleNormalize ms).map Prod.fst)) ((tupleNormalize ms).map Prod.snd)

section

variable (sizeOf : TyTerm → Option ℕ)

/-- A type is equivalent to unit if its size is zero. If it has no size (yet), it must not be unit. -/
def isUnit (t : TyTerm) : Bool := sizeOf t = some 0

/-- Of other types this throws. -/
def recordMembers : TyTerm → Option RecordMembers
  | .app (.record fields) ts => some (fields.zip ts)
  | t => if isUnit sizeOf t then some [] else none

def isRecordLike : TyTerm → Bool
  | .app (.record _) _ => true
  | t => isUnit sizeOf t

def joinedRecord (lhs rhs : TyTerm) : Option TyTerm :=
  (recordMembers sizeOf lhs).bind fun lhs => (recordMembers sizeOf rhs).map fun rhs => makeRecordType (lhs ++ rhs)

def unifiableTypes (fuel : ℕ) (t0 t1 : TyTerm) : Outcome Bool :=
  if t0 = t1 then return true
  else
    Outcome.catchAll (do
      let s ← MonoTypeUnifier.empty.unify fuel t0 t1
      let _ ← s.substitute fuel t0
      return true) false

def equivalent (fuel : ℕ) (m0 m1 : Bytes × TyTerm) : Outcome Bool :=
  if isTupleLabel m0.1 && isTupleLabel m1.1 || m0.1 = m1.1 then unifiableTypes fuel m0.2 m1.2 else return false

def orThrow {α : Type} : Option α → Outcome α
  | some a => .returns a
  | none => .throws

/-- Members that do not match end in a throw. -/
def checkMembers (fuel : ℕ) (ms : RecordMembers) (ns : RecordMembers) : Outcome Unit :=
  Outcome.foldOver (fun _ p => do
    let ok ← equivalent fuel p.1 p.2
    if ok then return () else .throws) () (ms.zip ns)

def recordSuffix (fuel : ℕ) (lhs result : TyTerm) : Outcome TyTerm := do
  let lhsms ← orThrow (recordMembers sizeOf lhs)
  let resms ← orThrow (recordMembers sizeOf result)
  if lhsms.length > resms.length then .throws
  else do
    checkMembers fuel lhsms resms
    return makeRecordType (resms.drop lhsms.length)

def recordPrefix (fuel : ℕ) (rhs result : TyTerm) : Outcome TyTerm := do
  let rhsms ← orThrow (recordMembers sizeOf rhs)
  let resms ← orThrow (recordMembers sizeOf result)
  if rhsms.length > resms.length then .throws
  else do
    let lhsz := resms.length - rhsms.length
    checkMembers fuel rhsms (resms.drop lhsz)
    return makeRecordType (resms.take lhsz)

/-! ### Refinement -/

def satisfied (lhs rhs result : TyTerm) : Bool :=
  isRecordLike sizeOf lhs && isRecordLike sizeOf rhs && isRecordLike sizeOf result &&
    joinedRecord sizeOf lhs rhs = some result

def satisfiableType : TyTerm → Bool
  | .var _ => true
  | t => isRecordLike sizeOf t

/-- `mgu(found, other, s)`, if both of the other two types are known. -/
def direction (fuel : ℕ) (known : Bool) (found : Outcome TyTerm) (other : TyTerm) (s : MonoTypeUnifier) :
    Outcome (MonoTypeUnifier × Bool) :=
  if known then
    match found with
    | .returns r => unifyUpTo fuel s r other
    | .throws => .returns (s, false)
    | .runsOn => .runsOn
  else .returns (s, true)

/-- The state that is left behind, and whether `tryRefine` returns or throws. -/
def tryRefine (fuel : ℕ) (lhs rhs result : TyTerm) (s : MonoTypeUnifier) : Outcome (MonoTypeUnifier × Bool) :=
  if satisfiableType sizeOf lhs && satisfiableType sizeOf rhs && satisfiableType sizeOf result then do
    let (s, ok) ← direction fuel (isRecordLike sizeOf lhs && isRecordLike sizeOf rhs)
      (orThrow (joinedRecord sizeOf lhs rhs)) result s
    if ok then do
      let (s, ok) ← direction fuel (isRecordLike sizeOf lhs && isRecordLike sizeOf result)
        (recordSuffix sizeOf fuel lhs result) rhs s
      if ok then
        direction fuel (isRecordLike sizeOf rhs && isRecordLike sizeOf result)
          (recordPrefix sizeOf fuel rhs result) lhs s
      else return (s, false)
    else return (s, false)
  else return (s, false)

def refine (fuel : ℕ) (lhs rhs result : TyTerm) (s : MonoTypeUnifier) : Outcome (MonoTypeUnifier × Bool) := do
  let uc := s.bcount
  let (s, ok) ← tryRefine sizeOf fuel lhs rhs result s
  if ok then return (s, uc ≠ s.bcount) else return (s, false)

end

/-! ### Labels -/

lemma isTupleLabel_positionLabel (i : ℕ) : isTupleLabel (positionLabel i) = true :=
  decide_eq_true (List.take_left' (by decide))

lemma isTupleLike_mapIdx {ms : RecordMembers} (h : ms ≠ []) :
    isTupleLike (ms.mapIdx fun i m => (positionLabel i, m.2)) = true := by
  cases ms with
  | nil => exact absurd rfl h
  | cons m ms =>
    rw [List.mapIdx_cons]
    exact isTupleLabel_positionLabel 0

lemma tupleNormalize_of_tuple {ms : RecordMembers} (h : isTupleLike ms = true) :
    tupleNormalize ms = ms.mapIdx fun i m => (positionLabel i, m.2) := if_pos h

lemma tupleNormalize_of_not {ms : RecordMembers} (h : isTupleLike ms = false) : tupleNormalize ms = ms :=
  if_neg (by rw [h]; exact Bool.false_ne_true)

@[simp] lemma length_tupleNormalize (ms : RecordMembers) : (tupleNormalize ms).length = ms.length := by
  unfold tupleNormalize
  split_ifs
  · exact List.length_mapIdx
  · rfl

@[simp] lemma map_snd_tupleNormalize (ms : RecordMembers) : (tupleNormalize ms).map Prod.snd = ms.map Prod.snd := by
  unfold tupleNormalize
  split_ifs
  · refine List.ext_getElem? fun i => ?_
    rw [List.getElem?_map, List.getElem?_mapIdx, List.getElem?_map, Option.map_map]
    rfl
  · rfl

/-- Tuples of the same types are the same. -/
lemma tupleNormalize_congr {ms ns : RecordMembers} (hms : isTupleLike ms = true) (hns : isTupleLike ns = true)
    (h : ms.map Prod.snd = ns.map Prod.snd) : tupleNormalize ms = tupleNormalize ns := by
  rw [tupleNormalize_of_tuple hms, tupleNormalize_of_tuple hns]
  refine List.ext_getElem? fun i => ?_
  have hi := congrArg (·[i]?) h
  simp only [List.getElem?_map] at hi
  rw [List.getElem?_mapIdx, List.getElem?_mapIdx]
  cases hm : ms[i]? <;> cases hn : ns[i]? <;> simp_all

lemma isTupleLike_tupleNormalize (ms : RecordMembers) : isTupleLike (tupleNormalize ms) = isTupleLike ms := by
  cases h : isTupleLike ms with
  | false => rw [tupleNormalize_of_not h, h]
  | true =>
    rw [tupleNormalize_of_tuple h, isTupleLike_mapIdx]
    rintro rfl
    cases h

lemma tupleNormalize_idem (ms : RecordMembers) : tupleNormalize (tupleNormalize ms) = tupleNormalize ms := by
  cases h : isTupleLike ms with
  | false => rw [tupleNormalize_of_not h, tupleNormalize_of_not h]
  | true => exact tupleNormalize_congr ((isTupleLike_tupleNormalize ms).trans h) h (map_snd_tupleNormalize ms)

/-- `equivalent`, of types without variables. -/
def Like (m0 m1 : Bytes × TyTerm) : Prop :=
  (isTupleLabel m0.1 && isTupleLabel m1.1 || m0.1 = m1.1) = true ∧ m0.2 = m1.2

instance (m0 m1 : Bytes × TyTerm) : Decidable (Like m0 m1) := inferInstanceAs (Decidable (_ ∧ _))

lemma Like.refl (m : Bytes × TyTerm) : Like m m := ⟨by simp, rfl⟩

/-- A record is like the first part of what it is followed by. -/
lemma likes_append (ms ns : RecordMembers) : ∀ p ∈ ms.zip (ms ++ ns), Like p.1 p.2 := by
  intro p hp
  obtain ⟨i, hi⟩ := List.mem_iff_getElem?.mp hp
  obtain ⟨hp1, hp2⟩ := List.getElem?_zip_eq_some.mp hi
  rw [List.getElem?_append_left (List.getElem?_eq_some_iff.mp hp1).1, hp1] at hp2
  rw [← Option.some.inj hp2]
  exact .refl p.1

/-- A record that is not a tuple would be appended to a tuple. -/
def Mixed (ms ns : RecordMembers) : Prop := isTupleLike ms = true ∧ ns ≠ [] ∧ isTupleLike ns = false

lemma isTupleLike_append {ms ns : RecordMembers} (h : isTupleLike ms = true) : isTupleLike (ms ++ ns) = true := by
  cases ms with
  | nil => cases h
  | cons m ms => exact h

lemma isTupleLabel_of_mem {ms : RecordMembers} (h : isTupleLike ms = true) {m : Bytes × TyTerm}
    (hm : m ∈ tupleNormalize ms) : isTupleLabel m.1 = true := by
  rw [tupleNormalize_of_tuple h] at hm
  obtain ⟨i, -, rfl⟩ := List.mem_mapIdx.mp hm
  exact isTupleLabel_positionLabel i

/-- The members that follow in a joined record are those appended, but for labels that are lost in a tuple. -/
lemma exists_tupleNormalize_append {ms ns : RecordMembers} (hms : tupleNormalize ms = ms)
    (hns : tupleNormalize ns = ns) :
    ∃ ns', tupleNormalize (ms ++ ns) = ms ++ ns' ∧ ns'.map Prod.snd = ns.map Prod.snd ∧
      tupleNormalize (ms ++ tupleNormalize ns') = tupleNormalize (ms ++ ns) ∧
      (¬ Mixed ms ns ∧ (∀ p ∈ ns.zip ns', Like p.1 p.2) ∧ tupleNormalize ns' = ns ∨
        Mixed ms ns ∧ isTupleLike ns' = true) := by
  have hlikes : ∀ p ∈ ns.zip ns, Like p.1 p.2 := by
    have happ := likes_append ns []
    rwa [List.append_nil] at happ
  cases h : isTupleLike ms with
  | false =>
    refine ⟨ns, ?_, rfl, by rw [hns], .inl ⟨fun hmixed => ?_, hlikes, hns⟩⟩
    · cases ms with
      | nil => exact hns
      | cons m ms => exact tupleNormalize_of_not h
    · rw [hmixed.1] at h
      cases h
  | true =>
    have hlabels : ∀ m ∈ ns.mapIdx fun i m => (positionLabel (i + ms.length), m.2), isTupleLabel m.1 = true := by
      intro m hm
      obtain ⟨i, -, rfl⟩ := List.mem_mapIdx.mp hm
      exact isTupleLabel_positionLabel _
    have htypes : (ns.mapIdx fun i m => (positionLabel (i + ms.length), m.2)).map Prod.snd = ns.map Prod.snd := by
      refine List.ext_getElem? fun i => ?_
      rw [List.getElem?_map, List.getElem?_mapIdx, List.getElem?_map, Option.map_map]
      rfl
    refine ⟨ns.mapIdx fun i m => (positionLabel (i + ms.length), m.2), ?_, htypes, ?_, ?_⟩
    · rw [tupleNormalize_of_tuple (isTupleLike_append h), List.mapIdx_append, ← tupleNormalize_of_tuple h, hms]
    · refine tupleNormalize_congr (isTupleLike_append h) (isTupleLike_append h) ?_
      rw [List.map_append, List.map_append, map_snd_tupleNormalize, htypes]
    · generalize ns.mapIdx (fun i m => (positionLabel (i + ms.length), m.2)) = ns' at hlabels htypes
      have hlen := congrArg List.length htypes
      rw [List.length_map, List.length_map] at hlen
      cases ns with
      | nil => exact .inl ⟨fun hmixed => hmixed.2.1 rfl, nofun, by rw [List.eq_nil_of_length_eq_zero hlen]; rfl⟩
      | cons n ns =>
        have htuple : isTupleLike ns' = true := by
          cases ns' with
          | nil => cases hlen
          | cons n' ns' => exact hlabels n' List.mem_cons_self
        cases hn : isTupleLike (n :: ns) with
        | false => exact .inr ⟨⟨h, List.cons_ne_nil n ns, hn⟩, htuple⟩
        | true =>
          refine .inl ⟨fun hmixed => ?_, fun p hp => ⟨?_, ?_⟩, (tupleNormalize_congr htuple hn htypes).trans hns⟩
          · rw [hmixed.2.2] at hn
            cases hn
          · obtain ⟨hp1, hp2⟩ := List.of_mem_zip hp
            rw [hlabels _ hp2, isTupleLabel_of_mem hn (hns.symm ▸ hp1)]
            rfl
          · obtain ⟨i, hi⟩ := List.mem_iff_getElem?.mp hp
            obtain ⟨hp1, hp2⟩ := List.getElem?_zip_eq_some.mp hi
            have htype := congrArg (·[i]?) htypes
            simp only [List.getElem?_map, hp1, hp2, Option.map_some, Option.some.injEq] at htype
            exact htype.symm

/-- Those labels do not match. -/
lemma not_like_of_mixed {ms ns ns' : RecordMembers} (h : Mixed ms ns) (htuple : isTupleLike ns' = true) :
    ¬ ∀ p ∈ ns.zip ns', Like p.1 p.2 := by
  obtain ⟨-, hne, hns⟩ := h
  cases ns with
  | nil => exact absurd rfl hne
  | cons n ns =>
    cases ns' with
    | nil => cases htuple
    | cons n' ns' =>
      intro hall
      have hlabel := (hall (n, n') List.mem_cons_self).1
      rw [isTupleLike] at hns htuple
      dsimp only at hlabel
      rw [hns, Bool.false_and, Bool.false_or, decide_eq_true_eq] at hlabel
      rw [← hlabel, hns] at htuple
      cases htuple

/-! ### Record types -/

/-- A record, a tuple, whose labels are its positions, or unit. -/
def IsRecordType (t : TyTerm) : Prop := ∃ ms, tupleNormalize ms = ms ∧ t = makeRecordType ms

lemma makeRecordType_of_ne {ms : RecordMembers} (h : ms ≠ []) :
    makeRecordType ms = app (.record ((tupleNormalize ms).map Prod.fst)) (ms.map Prod.snd) := by
  rw [makeRecordType, if_neg fun hlen => h (List.eq_nil_of_length_eq_zero hlen), map_snd_tupleNormalize]

lemma makeRecordType_congr {ms ns : RecordMembers} (h : tupleNormalize ms = tupleNormalize ns) :
    makeRecordType ms = makeRecordType ns := by
  have hlen := congrArg List.length h
  rw [length_tupleNormalize, length_tupleNormalize] at hlen
  rw [makeRecordType, makeRecordType, h, hlen]

lemma isRecordType_makeRecordType (ms : RecordMembers) : IsRecordType (makeRecordType ms) :=
  ⟨tupleNormalize ms, tupleNormalize_idem ms, makeRecordType_congr (tupleNormalize_idem ms).symm⟩

lemma makeRecordType_ne_var (ms : RecordMembers) (x : Bytes) : makeRecordType ms ≠ .var x := by
  unfold makeRecordType
  split_ifs
  · exact nofun
  · exact nofun

lemma isMonoSingular_makeRecordType (ms : RecordMembers) :
    isMonoSingular (makeRecordType ms) = true ↔ ∀ m ∈ ms, isMonoSingular m.2 = true := by
  rcases eq_or_ne ms [] with rfl | h
  · simp [makeRecordType, unitType, isMonoSingular, areMonoSingular, TyCtor.isTGen]
  · have hctor : (!(TyCtor.record ((tupleNormalize ms).map Prod.fst)).isTGen) = true := rfl
    rw [makeRecordType_of_ne h, isMonoSingular, hctor, Bool.true_and, areMonoSingular_iff, List.forall_mem_map]

lemma within_of_makeRecordType {A : Set TyCtor} {ms : RecordMembers} (h : Within A (makeRecordType ms)) :
    ∀ m ∈ ms, Within A m.2 := by
  intro m hm
  rw [makeRecordType_of_ne (List.ne_nil_of_mem hm)] at h
  cases h with
  | app _ hts => exact hts _ (List.mem_map_of_mem hm)

lemma size_le_makeRecordType {ms : RecordMembers} {m : Bytes × TyTerm} (h : m ∈ ms) :
    m.2.size ≤ (makeRecordType ms).size := by
  rw [makeRecordType_of_ne (List.ne_nil_of_mem h)]
  exact (size_lt (List.mem_map_of_mem h)).le

/-- What the following relies on: unit takes no space, and nothing is known of a variable's size. -/
structure Sizes (sizeOf : TyTerm → Option ℕ) : Prop where
  unit : sizeOf unitType = some 0
  var (x : Bytes) : sizeOf (Term.var x) = none

namespace Sizes

variable {sizeOf : TyTerm → Option ℕ} (h : Sizes sizeOf)

include h

lemma isRecordLike_var (x : Bytes) : isRecordLike sizeOf (.var x) = false := by
  simp [isRecordLike, isUnit, h.var]

lemma recordMembers_var (x : Bytes) : recordMembers sizeOf (.var x) = none := by
  simp [recordMembers, isUnit, h.var]

lemma recordMembers_makeRecordType (ms : RecordMembers) :
    recordMembers sizeOf (makeRecordType ms) = some (tupleNormalize ms) := by
  rcases eq_or_ne ms [] with rfl | hms
  · rw [makeRecordType, if_pos List.length_nil, unitType, recordMembers, ← unitType, isUnit, h.unit]
    · rfl
    · exact nofun
  · rw [makeRecordType_of_ne hms, recordMembers, ← map_snd_tupleNormalize ms]
    exact congrArg some (List.zip_of_prod rfl rfl).symm

/-- A record type is closed if what its members are made is. -/
lemma closed_of_members {u : TyTerm} {σ : Bytes → TyTerm} (hu : IsRecordType (u.subst σ)) {ms : RecordMembers}
    (hms : recordMembers sizeOf u = some ms) (hclosed : ∀ m ∈ ms, isMonoSingular m.2 = true) :
    isMonoSingular u = true := by
  obtain ⟨ns, -, heq⟩ := hu
  cases u with
  | var x =>
    rw [h.recordMembers_var] at hms
    cases hms
  | app c us =>
    rw [subst_app] at heq
    rcases eq_or_ne ns [] with rfl | hns
    · obtain ⟨rfl, hus⟩ := Term.app.inj heq
      obtain rfl := List.map_eq_nil_iff.mp hus
      rfl
    · rw [makeRecordType_of_ne hns] at heq
      obtain ⟨rfl, hus⟩ := Term.app.inj heq
      cases hms
      have hlen : us.length = ns.length := by
        rw [← List.length_map (f := Term.subst σ), hus, List.length_map]
      rw [isMonoSingular, Bool.and_eq_true, areMonoSingular_iff]
      refine ⟨rfl, fun t ht => ?_⟩
      obtain ⟨i, hi⟩ := List.mem_iff_getElem?.mp ht
      obtain ⟨f, hf⟩ : ∃ f, ((tupleNormalize ns).map Prod.fst)[i]? = some f := by
        have hlt := (List.getElem?_eq_some_iff.mp hi).1
        exact ⟨_, List.getElem?_eq_getElem (by simpa [← hlen] using hlt)⟩
      exact hclosed (f, t) (List.mem_iff_getElem?.mpr ⟨i, List.getElem?_zip_eq_some.mpr ⟨hf, hi⟩⟩)

lemma isRecordLike_makeRecordType (ms : RecordMembers) : isRecordLike sizeOf (makeRecordType ms) = true := by
  rcases eq_or_ne ms [] with rfl | hms
  · rw [makeRecordType, if_pos List.length_nil, unitType, isRecordLike, ← unitType, isUnit, h.unit]
    · rfl
    · exact nofun
  · rw [makeRecordType_of_ne hms, isRecordLike]

lemma joinedRecord_makeRecordType (ms ns : RecordMembers) :
    joinedRecord sizeOf (makeRecordType ms) (makeRecordType ns) =
      some (makeRecordType (tupleNormalize ms ++ tupleNormalize ns)) := by
  rw [joinedRecord, h.recordMembers_makeRecordType, h.recordMembers_makeRecordType]
  rfl

lemma makeRecordType_inj {ms ns : RecordMembers} (heq : makeRecordType ms = makeRecordType ns) :
    tupleNormalize ms = tupleNormalize ns := by
  have hmembers := h.recordMembers_makeRecordType ms
  rw [heq, h.recordMembers_makeRecordType] at hmembers
  exact (Option.some.inj hmembers).symm

end Sizes

/-! ### Members that are compared -/

section

variable {A : Set TyCtor} (hA : ∀ c ∈ A, ∀ d ∈ A, c.cname = d.cname → c = d)

include hA

lemma unifiableTypes_eq {t0 t1 : TyTerm} (ht0 : isMonoSingular t0 = true) (ht1 : isMonoSingular t1 = true)
    (hA0 : Within A t0) (hA1 : Within A t1) {fuel : ℕ} (hfuel : t0.size ≤ fuel) :
    unifiableTypes fuel t0 t1 = .returns (decide (t0 = t1)) := by
  unfold unifiableTypes
  split_ifs with heq
  · rw [decide_eq_true heq]
    rfl
  · obtain ⟨s', ok, root', θ', hrun, hmatched⟩ := unifyUpTo_matched hA ht0 hA0 hfuel StandsFor.empty
      (subst_of_isMonoSingular ht0 _) (by rwa [subst_of_isMonoSingular ht1])
    cases ok with
    | true =>
      have hequal := List.head_eq_of_cons_eq (hmatched.equal rfl)
      rw [subst_of_isMonoSingular ht1] at hequal
      exact absurd hequal.symm heq
    | false =>
      rw [decide_eq_false heq, Outcome.bind_def, unify_eq, hrun]
      rfl

lemma equivalent_eq {m0 m1 : Bytes × TyTerm} (hm0 : isMonoSingular m0.2 = true) (hm1 : isMonoSingular m1.2 = true)
    (hA0 : Within A m0.2) (hA1 : Within A m1.2) {fuel : ℕ} (hfuel : m0.2.size ≤ fuel) :
    equivalent fuel m0 m1 = .returns (decide (Like m0 m1)) := by
  unfold equivalent
  split_ifs with hlabel
  · rw [unifiableTypes_eq hA hm0 hm1 hA0 hA1 hfuel]
    exact congrArg _ (decide_eq_decide.mpr (and_iff_right hlabel).symm)
  · rw [decide_eq_false fun hlike => hlabel hlike.1]
    rfl

lemma checkMembers_eq {ms ns : RecordMembers} {fuel : ℕ}
    (hms : ∀ m ∈ ms, isMonoSingular m.2 = true ∧ Within A m.2 ∧ m.2.size ≤ fuel)
    (hns : ∀ m ∈ ns, isMonoSingular m.2 = true ∧ Within A m.2) :
    checkMembers fuel ms ns = if ∀ p ∈ ms.zip ns, Like p.1 p.2 then .returns () else .throws := by
  induction ms generalizing ns with
  | nil => rfl
  | cons m ms ih =>
    cases ns with
    | nil => rfl
    | cons n ns =>
      obtain ⟨⟨hm, hAm, hfuel⟩, hms⟩ := List.forall_mem_cons.mp hms
      obtain ⟨⟨hn, hAn⟩, hns⟩ := List.forall_mem_cons.mp hns
      have hrest := ih hms hns
      rw [checkMembers] at hrest ⊢
      rw [List.zip_cons_cons, Outcome.foldOver, Outcome.bind_def, equivalent_eq hA hm hn hAm hAn hfuel,
        Outcome.returns_bind]
      by_cases hlike : Like m n
      · rw [if_pos (decide_eq_true hlike)]
        refine hrest.trans (if_congr ?_ rfl rfl)
        rw [List.forall_mem_cons, and_iff_right hlike]
      · rw [if_neg (by simpa using hlike), if_neg fun hall => hlike (hall _ List.mem_cons_self)]
        rfl

end

end Hobbes.Lang
