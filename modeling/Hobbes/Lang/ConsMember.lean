import Hobbes.Lang.MemoryLayout
import Mathlib.Logic.Relation

/-!
# Heads and tails of records and variants

The members of a record or a variant are gone through by taking tails: the first visible member is hidden by a prefix
of its label, and keeps its place. To cons a member is to put it where one is hidden under its label, or in front. The
labels of a tuple's or a sum's members say their position.
-/

namespace Hobbes.Lang

open Core

/-! ### Members with labels -/

/-- The name that a member is hidden under. -/
def hiddenLabel (lbl : Bytes) : Bytes := ascii ".p" ++ lbl

/-- The label of a position in a tuple or a sum. -/
def positionLabel (i : ℕ) : Bytes := ascii ".f" ++ ascii (toString i)

/-- Members of a kind that have labels, some of which hide them. -/
structure Labelled (α : Type) where
  label : α → Bytes
  relabel : Bytes → α → α
  hidden : Bytes → Bool
  label_relabel : ∀ n m, label (relabel n m) = n
  relabel_relabel : ∀ n n' m, relabel n (relabel n' m) = relabel n m
  relabel_label : ∀ m, relabel (label m) m = m
  prefix_of_hidden : ∀ n, hidden n = true → ascii ".p" <+: n

namespace Labelled

variable {α : Type} (T : Labelled α)

/-- `nextVisibleMember`, from the first member on. -/
def nextVisibleMember (ms : List α) : ℕ := ms.findIdx fun m => !T.hidden (T.label m)

/-- `findHiddenMember`, from the member before `i` backwards. -/
def findHiddenMember (lbl : Bytes) (ms : List α) : ℕ → Option ℕ
  | 0 => none
  | i + 1 => if ms[i]?.map T.label = some (hiddenLabel lbl) then some i else findHiddenMember lbl ms i

def hide (m : α) : α := T.relabel (hiddenLabel (T.label m)) m

/-- Label the visible members by their positions, from `i` on. -/
def normalizeFields : ℕ → List α → List α
  | _, [] => []
  | i, m :: ms =>
    if T.hidden (T.label m) then m :: normalizeFields i ms
    else T.relabel (positionLabel i) m :: normalizeFields (i + 1) ms

end Labelled

/-! ### Records -/

namespace Record

def labelled : Labelled (Record.Member MonoType) where
  label m := m.field
  relabel n m := { m with field := n }
  hidden n := n.take 2 = ascii ".p"
  label_relabel _ _ := rfl
  relabel_relabel _ _ _ := rfl
  relabel_label _ := rfl
  prefix_of_hidden n h := by
    rw [← of_decide_eq_true h]
    exact List.take_prefix 2 n

def nextVisibleMember (ms : List (Record.Member MonoType)) : ℕ := labelled.nextVisibleMember ms

def findHiddenMember (lbl : Bytes) (ms : List (Record.Member MonoType)) (i : ℕ) : Option ℕ :=
  labelled.findHiddenMember lbl ms i

def resetFieldOffsets (ms : List (Record.Member MonoType)) : List (Record.Member MonoType) :=
  ms.map fun m => { m with offset := -1 }

def consMember (lbl : Bytes) (hty : MonoType) (tty : List (Record.Member MonoType)) :
    List (Record.Member MonoType) :=
  match findHiddenMember lbl tty tty.length with
  | none => resetFieldOffsets (⟨lbl, hty, -1⟩ :: tty)
  | some slot => tty.modify slot fun m => { m with field := lbl }

def normalizeTupleFields (ms : List (Record.Member MonoType)) : List (Record.Member MonoType) :=
  labelled.normalizeFields 0 ms

/-- `make(hty, tty)` -/
def makeTuple (L : Layout) (hty : MonoType) (tty : List (Record.Member MonoType)) : Option MonoType :=
  Record.make L (normalizeTupleFields (consMember (ascii ".f0") hty tty))

/-- `make(lbl, hty, tty)` -/
def makeLabelled (L : Layout) (lbl : Bytes) (hty : MonoType) (tty : List (Record.Member MonoType)) :
    Option MonoType :=
  Record.make L (consMember lbl hty tty)

def tailMembers (tup : Bool) (ms : List (Record.Member MonoType)) : Option (List (Record.Member MonoType)) :=
  let h := nextVisibleMember ms
  if ms.length ≤ h then none
  else
    let tms := ms.modify h labelled.hide
    some (if tup then tms.mapIdx fun k m => if h < k then { m with field := positionLabel (k - (h + 1)) } else m
      else tms)

def headMember (ms : List (Record.Member MonoType)) : Option (Record.Member MonoType) :=
  ms[nextVisibleMember ms]?.map fun m => { m with type := normIfOpaquePtr m.type }

/-- `isTupleDesc` -/
def isTuple (ms : List (Record.Member MonoType)) : Bool := ms.any fun m => m.field.take 2 = ascii ".f"

def tailType (L : Layout) (ms : List (Record.Member MonoType)) : Option MonoType := do
  let tms ← tailMembers (isTuple ms) ms
  if tms.length ≤ nextVisibleMember tms then return .prim (ascii "unit") none else Record.make L tms

end Record

/-! ### Variants -/

namespace Variant

/-- `hiddenCtor` says which members are hidden. -/
def labelled : Labelled (Variant.Member MonoType) where
  label m := m.selector
  relabel n m := { m with selector := n }
  hidden n := 2 < n.length ∧ n.take 2 = ascii ".p"
  label_relabel _ _ := rfl
  relabel_relabel _ _ _ := rfl
  relabel_label _ := rfl
  prefix_of_hidden n h := by
    rw [← (of_decide_eq_true h).2]
    exact List.take_prefix 2 n

def nextVisibleMember (ms : List (Variant.Member MonoType)) : ℕ := labelled.nextVisibleMember ms

def findHiddenMember (lbl : Bytes) (ms : List (Variant.Member MonoType)) (i : ℕ) : Option ℕ :=
  labelled.findHiddenMember lbl ms i

def resetCtorIDs (ms : List (Variant.Member MonoType)) : List (Variant.Member MonoType) :=
  ms.mapIdx fun id m => { m with id := BitVec.ofNat 32 id }

def consMember (lbl : Bytes) (hty : MonoType) (tty : List (Variant.Member MonoType)) :
    List (Variant.Member MonoType) :=
  match findHiddenMember lbl tty tty.length with
  | none => resetCtorIDs (⟨lbl, hty, 0⟩ :: tty)
  | some slot => tty.modify slot fun m => ⟨lbl, hty, m.id⟩

def normalizeSumFields (ms : List (Variant.Member MonoType)) : List (Variant.Member MonoType) :=
  labelled.normalizeFields 0 ms

/-- `make(hty, tty)` -/
def makeSum (hty : MonoType) (tty : List (Variant.Member MonoType)) : MonoType :=
  .variant (normalizeSumFields (consMember (ascii ".f0") hty tty))

/-- `make(lbl, hty, tty)` -/
def makeLabelled (lbl : Bytes) (hty : MonoType) (tty : List (Variant.Member MonoType)) : MonoType :=
  .variant (consMember lbl hty tty)

def tailMembers (ms : List (Variant.Member MonoType)) : Option (List (Variant.Member MonoType)) :=
  let h := nextVisibleMember ms
  if ms.length ≤ h then none else some (ms.modify h labelled.hide)

def headMember (ms : List (Variant.Member MonoType)) : Option (Variant.Member MonoType) :=
  ms[nextVisibleMember ms]?.map fun m => { m with type := normIfOpaquePtr m.type }

def tailType (ms : List (Variant.Member MonoType)) : Option MonoType := do
  let tms ← tailMembers ms
  if tms.length ≤ nextVisibleMember tms then return .prim (ascii "void") none else return .variant tms

end Variant

namespace MonoType

/-- The type of the members after the head, if the type has a head. -/
def tailType (L : Layout) : MonoType → Option MonoType
  | .record ms => Record.tailType L ms
  | .variant ms => Variant.tailType ms
  | _ => none

/-- `r` is reached from `r₀` by taking tails. -/
def TailOf (L : Layout) : MonoType → MonoType → Prop := Relation.ReflTransGen fun t u => t.tailType L = some u

def recordMembers : MonoType → List (Record.Member MonoType)
  | .record ms => ms
  | _ => []

def variantMembers : MonoType → List (Variant.Member MonoType)
  | .variant ms => ms
  | _ => []

end MonoType

/-! ### Places of members -/

lemma modify_append_cons {α : Type} (f : α → α) (pre : List α) (m : α) (suf : List α) :
    (pre ++ m :: suf).modify pre.length f = pre ++ f m :: suf := by
  induction pre with
  | nil => rfl
  | cons x pre ih => rw [List.cons_append, List.length_cons, List.modify_succ_cons, ih, List.cons_append]

lemma plain_positionLabel (i : ℕ) : ¬ ascii ".p" <+: positionLabel i := by
  rintro ⟨n, hn⟩
  injection hn with _ hn
  injection hn with hn _
  exact absurd hn (by decide)

lemma hiddenLabel_prefix (lbl : Bytes) : ascii ".p" <+: hiddenLabel lbl := List.prefix_append _ _

namespace Labelled

variable {α : Type} {T : Labelled α} {lbl : Bytes} {pre suf ms : List α} {m : α}

/-- A member whose label does not start as those of hidden members do. -/
def Plain (T : Labelled α) (m : α) : Prop := ¬ ascii ".p" <+: T.label m

lemma Plain.visible (hm : T.Plain m) : T.hidden (T.label m) = false :=
  Bool.eq_false_iff.mpr fun h => hm (T.prefix_of_hidden _ h)

lemma Plain.ne_hiddenLabel (hm : T.Plain m) : T.label m ≠ hiddenLabel lbl := by
  intro h
  exact hm (h ▸ hiddenLabel_prefix lbl)

lemma nextVisibleMember_append (hpre : ∀ x ∈ pre, T.hidden (T.label x) = true)
    (hm : T.hidden (T.label m) = false) : T.nextVisibleMember (pre ++ m :: suf) = pre.length := by
  induction pre with
  | nil => rw [List.nil_append, nextVisibleMember, List.findIdx_cons, hm]; rfl
  | cons x pre ih =>
    obtain ⟨hx, hpre⟩ := List.forall_mem_cons.mp hpre
    rw [nextVisibleMember] at ih ⊢
    rw [List.cons_append, List.findIdx_cons, hx, ih hpre]
    rfl

lemma nextVisibleMember_of_hidden (h : ∀ x ∈ ms, T.hidden (T.label x) = true) :
    T.nextVisibleMember ms = ms.length := by
  refine List.findIdx_eq_length.mpr fun x hx => ?_
  rw [h x hx]
  rfl

lemma findHiddenMember_append (hm : T.label m = hiddenLabel lbl)
    (hsuf : ∀ x ∈ suf, T.label x ≠ hiddenLabel lbl) :
    T.findHiddenMember lbl (pre ++ m :: suf) (pre ++ m :: suf).length = some pre.length := by
  have hfrom : ∀ k ≤ suf.length,
      T.findHiddenMember lbl (pre ++ m :: suf) (pre.length + 1 + k) = some pre.length := by
    intro k hk
    induction k with
    | zero =>
      have hget : (pre ++ m :: suf)[pre.length]? = some m := by
        rw [List.getElem?_append_right (Nat.le_refl _), Nat.sub_self, List.getElem?_cons_zero]
      rw [findHiddenMember, hget, Option.map_some, hm, if_pos rfl]
    | succ k ih =>
      have hlt : k < suf.length := hk
      have hget : (pre ++ m :: suf)[pre.length + 1 + k]? = some suf[k] := by
        rw [List.getElem?_append_right (by omega), Nat.add_assoc, Nat.add_sub_cancel_left, Nat.add_comm 1 k,
          List.getElem?_cons_succ, List.getElem?_eq_getElem]
      rw [← Nat.add_assoc, findHiddenMember, hget, Option.map_some, if_neg, ih (Nat.le_of_succ_le hk)]
      exact fun h => hsuf _ (List.getElem_mem hk) (Option.some.inj h)
  have hlen : (pre ++ m :: suf).length = pre.length + 1 + suf.length := by
    rw [List.length_append, List.length_cons]
    omega
  rw [hlen, hfrom suf.length (Nat.le_refl _)]

lemma exists_of_findHiddenMember {n i : ℕ} (h : T.findHiddenMember lbl ms n = some i) :
    ∃ pre m suf, ms = pre ++ m :: suf ∧ pre.length = i ∧ T.label m = hiddenLabel lbl := by
  induction n with
  | zero => cases h
  | succ n ih =>
    rw [findHiddenMember] at h
    split_ifs at h with hn
    · cases h
      obtain ⟨m, hm, hlbl⟩ := Option.map_eq_some_iff.mp hn
      obtain ⟨hlt, rfl⟩ := List.getElem?_eq_some_iff.mp hm
      refine ⟨ms.take i, ms[i], ms.drop (i + 1), ?_, List.length_take_of_le (Nat.le_of_lt hlt), hlbl⟩
      rw [← List.drop_eq_getElem_cons hlt, List.take_append_drop]
    · exact ih h

/-- The members before the head are hidden, and none after it looks like a hidden one. -/
structure HeadAt (T : Labelled α) (pre : List α) (m : α) (suf ms : List α) : Prop where
  eq : ms = pre ++ m :: suf
  hidden : ∀ x ∈ pre, T.hidden (T.label x) = true
  visible : T.hidden (T.label m) = false
  plain : ∀ x ∈ suf, T.Plain x

lemma label_hide (m : α) : T.label (T.hide m) = hiddenLabel (T.label m) := T.label_relabel _ _

lemma relabel_hide (m : α) : T.relabel lbl (T.hide m) = T.relabel lbl m := T.relabel_relabel _ _ _

namespace HeadAt

lemma next_eq (h : T.HeadAt pre m suf ms) : T.nextVisibleMember ms = pre.length := by
  rw [h.eq]
  exact nextVisibleMember_append h.hidden h.visible

lemma head_eq (h : T.HeadAt pre m suf ms) : ms[T.nextVisibleMember ms]? = some m := by
  rw [h.next_eq, h.eq, List.getElem?_append_right (Nat.le_refl _), Nat.sub_self, List.getElem?_cons_zero]

lemma next_lt (h : T.HeadAt pre m suf ms) : T.nextVisibleMember ms < ms.length := by
  rw [h.next_eq, h.eq, List.length_append, List.length_cons]
  omega

lemma hide_eq (h : T.HeadAt pre m suf ms) :
    ms.modify (T.nextVisibleMember ms) T.hide = pre ++ T.hide m :: suf := by
  rw [h.next_eq, h.eq, modify_append_cons]

/-- The hidden head is found again, also if other members get labels that do not look like hidden ones. -/
lemma find_eq {suf' : List α} (hsuf : ∀ x ∈ suf', T.Plain x) :
    T.findHiddenMember (T.label m) (pre ++ T.hide m :: suf') (pre ++ T.hide m :: suf').length = some pre.length :=
  findHiddenMember_append (label_hide m) fun x hx => (hsuf x hx).ne_hiddenLabel

end HeadAt

/-- If a member is visible from some place on, where no member looks like a hidden one, there is a head. -/
lemma exists_headAt (hpre : ∀ x ∈ pre, T.hidden (T.label x) = true) (hsuf : ∀ x ∈ suf, T.Plain x)
    (hlt : T.nextVisibleMember (pre ++ suf) < (pre ++ suf).length) :
    ∃ m rest, suf = m :: rest ∧ T.HeadAt pre m rest (pre ++ suf) := by
  cases suf with
  | nil =>
    rw [List.append_nil, nextVisibleMember_of_hidden hpre] at hlt
    exact absurd hlt (Nat.lt_irrefl _)
  | cons m rest =>
    obtain ⟨hm, hrest⟩ := List.forall_mem_cons.mp hsuf
    exact ⟨m, rest, rfl, rfl, hpre, hm.visible, hrest⟩

/-- After the head is hidden, the members after it still do not look like hidden ones. -/
lemma HeadAt.exists_tail (h : T.HeadAt pre m suf ms)
    (hlt : T.nextVisibleMember (pre ++ T.hide m :: suf) < (pre ++ T.hide m :: suf).length) :
    ∃ pre' m' suf', T.HeadAt pre' m' suf' (pre ++ T.hide m :: suf) := by
  cases hm : T.hidden (T.label (T.hide m)) with
  | false => exact ⟨pre, T.hide m, suf, rfl, h.hidden, hm, h.plain⟩
  | true =>
    have hsplit : pre ++ T.hide m :: suf = (pre ++ [T.hide m]) ++ suf := by
      rw [List.append_assoc, List.singleton_append]
    rw [hsplit] at hlt ⊢
    have hpre : ∀ x ∈ pre ++ [T.hide m], T.hidden (T.label x) = true := by
      intro x hx
      obtain hx | hx := List.mem_append.mp hx
      · exact h.hidden x hx
      · rw [List.mem_singleton.mp hx, hm]
    obtain ⟨m', rest, -, hat⟩ := exists_headAt hpre h.plain hlt
    exact ⟨_, m', rest, hat⟩

lemma normalizeFields_append (hpre : ∀ x ∈ pre, T.hidden (T.label x) = true) (i : ℕ) :
    T.normalizeFields i (pre ++ suf) = pre ++ T.normalizeFields i suf := by
  induction pre with
  | nil => rfl
  | cons x pre ih =>
    obtain ⟨hx, hpre⟩ := List.forall_mem_cons.mp hpre
    rw [List.cons_append, normalizeFields, if_pos hx, ih hpre, List.cons_append]

lemma normalizeFields_plain (hsuf : ∀ x ∈ suf, T.Plain x) (i : ℕ) :
    T.normalizeFields i suf = suf.mapIdx fun k x => T.relabel (positionLabel (i + k)) x := by
  induction suf generalizing i with
  | nil => rfl
  | cons m suf ih =>
    obtain ⟨hm, hsuf⟩ := List.forall_mem_cons.mp hsuf
    rw [normalizeFields, if_neg (Bool.eq_false_iff.mp hm.visible), ih hsuf, List.mapIdx_cons]
    simp only [Nat.add_zero, Nat.add_assoc, Nat.add_comm 1]

/-- No visible member comes before the place, if there is one, that is found for a label. -/
def InFront (T : Labelled α) (lbl : Bytes) (ms : List α) : Prop :=
  ∀ i, T.findHiddenMember lbl ms ms.length = some i → ∀ x ∈ ms.take i, T.hidden (T.label x) = true

lemma InFront.exists_place {i : ℕ} (h : T.InFront lbl ms) (hi : T.findHiddenMember lbl ms ms.length = some i) :
    ∃ pre m suf, ms = pre ++ m :: suf ∧ i = pre.length ∧ ∀ x ∈ pre, T.hidden (T.label x) = true := by
  obtain ⟨pre, m, suf, hms, hlen, -⟩ := exists_of_findHiddenMember hi
  refine ⟨pre, m, suf, hms, hlen.symm, ?_⟩
  have hpre := h i hi
  rwa [hms, ← hlen, List.take_left' rfl] at hpre

/-- The members have the labels of their positions. -/
def Positioned (T : Labelled α) (suf : List α) : Prop := ∀ i x, suf[i]? = some x → T.label x = positionLabel i

lemma Positioned.plain (h : T.Positioned suf) : ∀ x ∈ suf, T.Plain x := by
  intro x hx
  obtain ⟨i, hi⟩ := List.mem_iff_getElem?.mp hx
  rw [Plain, h i x hi]
  exact plain_positionLabel i

lemma positioned_mapIdx (suf : List α) : T.Positioned (suf.mapIdx fun k x => T.relabel (positionLabel k) x) := by
  intro i x hx
  rw [List.getElem?_mapIdx] at hx
  obtain ⟨y, -, rfl⟩ := Option.map_eq_some_iff.mp hx
  exact T.label_relabel _ _

/-- Labels of positions only depend on the positions. -/
lemma Positioned.normalize_eq (h : T.Positioned suf) {suf' : List α}
    (hsuf : ∀ i : ℕ, ∃ n, suf'[i]? = suf[i]?.map (T.relabel n)) (hplain : ∀ x ∈ suf', T.Plain x) :
    T.normalizeFields 0 suf' = suf := by
  rw [normalizeFields_plain hplain]
  refine List.ext_getElem? fun i => ?_
  obtain ⟨n, hn⟩ := hsuf i
  rw [List.getElem?_mapIdx, hn, Option.map_map]
  cases hx : suf[i]? with
  | none => rfl
  | some x =>
    rw [Option.map_some, Function.comp_apply, T.relabel_relabel, Nat.zero_add, ← h i x hx, T.relabel_label]

end Labelled

/-! ### Layouts do not depend on labels -/

namespace Record

variable {L : Layout} {ms ms' : List (Record.Member MonoType)}

def Member.slot (m : Record.Member MonoType) : MonoType × BitVec 32 := (m.type, m.offset)

lemma eq_of_slots (hfields : ms.map Member.field = ms'.map Member.field)
    (hslots : ms.map Member.slot = ms'.map Member.slot) : ms = ms' := by
  induction ms generalizing ms' with
  | nil => exact (List.map_eq_nil_iff.mp hfields.symm).symm
  | cons m ms ih =>
    cases ms' with
    | nil => cases hfields
    | cons m' ms' =>
      obtain ⟨hfield, hfields⟩ := List.cons.inj hfields
      obtain ⟨hslot, hslots⟩ := List.cons.inj hslots
      obtain ⟨htype, hoffset⟩ := Prod.mk.inj hslot
      rw [ih hfields hslots]
      congr 1
      cases m
      cases m'
      cases hfield
      cases htype
      cases hoffset
      rfl

lemma place_fields {m m' : Record.Member MonoType} {o : BitVec 32} (h : Record.place m o = some m') :
    m'.field = m.field := by
  unfold Record.place at h
  split_ifs at h <;> cases h <;> rfl

lemma resolveFrom_fields {r rest res : List (Record.Member MonoType)} {o : BitVec 32}
    (h : Record.resolveFrom L ms r o rest = some res) (hr : (r ++ rest).map Member.field = ms.map Member.field) :
    res.map Member.field = ms.map Member.field := by
  induction rest generalizing r o with
  | nil =>
    cases h
    rwa [List.append_nil] at hr
  | cons m rest ih =>
    by_cases hsing : m.type.isMonoSingular
    · simp only [Record.resolveFrom, hsing, not_true_eq_false, if_false, Option.bind_eq_bind,
        Option.bind_eq_some_iff] at h
      obtain ⟨a, -, m', hm', sz, -, h⟩ := h
      refine ih h ?_
      rw [← hr]
      simp [place_fields hm']
    · have hms : some ms = some res := by simpa [Record.resolveFrom, hsing] using h
      rw [Option.some.inj hms]

lemma make_fields (h : Record.make L ms = some (.record ms')) : ms'.map Member.field = ms.map Member.field := by
  rw [Record.make, Option.map_eq_some_iff] at h
  obtain ⟨res, h, heq⟩ := h
  cases heq
  exact resolveFrom_fields h rfl

lemma make_types (h : Record.make L ms = some (.record ms')) : ms'.map Member.type = ms.map Member.type := by
  rw [Record.make, Option.map_eq_some_iff] at h
  obtain ⟨res, h, heq⟩ := h
  cases heq
  exact Record.withResolvedMemoryLayout_types h

lemma place_slot {f f' : Bytes} {t : MonoType} {off o : BitVec 32} :
    (Record.place ⟨f, t, off⟩ o).map Member.slot = (Record.place ⟨f', t, off⟩ o).map Member.slot := by
  unfold Record.place
  split_ifs <;> rfl

lemma resolveFrom_slots {r r' rest rest' : List (Record.Member MonoType)} {o : BitVec 32}
    (hms : ms.map Member.slot = ms'.map Member.slot) (hr : r.map Member.slot = r'.map Member.slot)
    (hrest : rest.map Member.slot = rest'.map Member.slot) :
    (Record.resolveFrom L ms r o rest).map (List.map Member.slot) =
      (Record.resolveFrom L ms' r' o rest').map (List.map Member.slot) := by
  induction rest generalizing r r' rest' o with
  | nil =>
    rw [List.map_eq_nil_iff.mp hrest.symm]
    exact congrArg some hr
  | cons m rest ih =>
    cases rest' with
    | nil => cases hrest
    | cons m' rest' =>
      obtain ⟨f, t, off⟩ := m
      obtain ⟨f', t', off'⟩ := m'
      obtain ⟨hslot, hslots⟩ := List.cons.inj hrest
      cases hslot
      by_cases hsing : t.isMonoSingular
      · simp only [Record.resolveFrom, hsing, not_true_eq_false, if_false, Option.bind_eq_bind]
        cases L.alignment t with
        | none => rfl
        | some a =>
          have hplace := @place_slot f f' t off (align o a)
          simp only [Option.bind_some]
          cases hm : Record.place ⟨f, t, off⟩ (align o a) with
          | none =>
            rw [hm] at hplace
            rw [Option.map_eq_none_iff.mp hplace.symm]
            rfl
          | some n =>
            rw [hm] at hplace
            obtain ⟨n', hn', hslot⟩ := Option.map_eq_some_iff.mp hplace.symm
            rw [hn']
            cases L.sizeOf t with
            | none => rfl
            | some sz =>
              refine ih ?_ hslots
              rw [List.map_append, List.map_append, hr, List.map_singleton, List.map_singleton, hslot]
      · simp [Record.resolveFrom, hsing, hms]

/-- A resolved layout stays the same under other labels. -/
lemma make_relabelled (h : Record.make L ms = some (.record ms)) (hslots : ms.map Member.slot = ms'.map Member.slot) :
    Record.make L ms' = some (.record ms') := by
  have hms : Record.withResolvedMemoryLayout L ms = some ms := by
    rw [Record.make, Option.map_eq_some_iff] at h
    obtain ⟨res, h, heq⟩ := h
    cases heq
    exact h
  have hres := resolveFrom_slots (L := L) (o := 0) hslots (List.map_nil.trans List.map_nil.symm) hslots
  rw [show Record.resolveFrom L ms [] 0 ms = some ms from hms] at hres
  obtain ⟨res, hres, heq⟩ := Option.map_eq_some_iff.mp hres.symm
  have hfields := resolveFrom_fields hres rfl
  rw [Record.make, Record.withResolvedMemoryLayout, hres, eq_of_slots hfields (heq.trans hslots)]
  rfl

/-! ### Records and tuples -/

/-- Consing the head of `ms` onto the members `tms` gives a type with the members `ms`. The positions of a tuple's
members are its labels. -/
def IsCons (L : Layout) (ms tms : List (Record.Member MonoType)) : Prop :=
  ∃ m, headMember ms = some m ∧
    (if isTuple ms then makeTuple L m.type tms else makeLabelled L m.field m.type tms) = some (.record ms)

/-- A record or a tuple with hidden members in front. -/
structure Shaped (L : Layout) (pre suf ms : List (Record.Member MonoType)) : Prop where
  made : Record.make L ms = some (.record ms)
  eq : ms = pre ++ suf
  hidden : ∀ x ∈ pre, labelled.hidden x.field = true
  plain : ∀ x ∈ suf, labelled.Plain x
  labels : isTuple suf = false ∨ labelled.Positioned suf

lemma hidden_hiddenLabel (lbl : Bytes) : labelled.hidden (hiddenLabel lbl) = true := rfl

lemma not_isTuple_of_hidden {pre : List (Record.Member MonoType)} (h : ∀ x ∈ pre, labelled.hidden x.field = true) :
    isTuple pre = false := by
  refine List.any_eq_false.mpr fun x hx htuple => ?_
  have hhidden : x.field.take 2 = ascii ".p" := of_decide_eq_true (h x hx)
  rw [hhidden] at htuple
  exact absurd (of_decide_eq_true htuple) (by decide)

lemma isTuple_append (ms ms' : List (Record.Member MonoType)) : isTuple (ms ++ ms') = (isTuple ms || isTuple ms') :=
  List.any_append

lemma isTuple_of_positioned {m : Record.Member MonoType} {rest : List (Record.Member MonoType)}
    (h : labelled.Positioned (m :: rest)) : isTuple (m :: rest) = true := by
  have hm : m.field = positionLabel 0 := h 0 m rfl
  rw [isTuple, List.any_cons, hm]
  rfl

lemma map_slot_relabel (suf : List (Record.Member MonoType)) (g : ℕ → Bytes) :
    (suf.mapIdx fun k x => labelled.relabel (g k) x).map Member.slot = suf.map Member.slot := by
  refine List.ext_getElem? fun i => ?_
  rw [List.getElem?_map, List.getElem?_mapIdx, List.getElem?_map, Option.map_map]
  rfl

/-- What hiding the head leaves of the other members. -/
def relabelRest (tup : Bool) (suf : List (Record.Member MonoType)) : List (Record.Member MonoType) :=
  if tup then suf.mapIdx fun k x => labelled.relabel (positionLabel k) x else suf

lemma tailMembers_eq {pre suf ms : List (Record.Member MonoType)} {m : Record.Member MonoType}
    (h : labelled.HeadAt pre m suf ms) (tup : Bool) :
    tailMembers tup ms = some (pre ++ labelled.hide m :: relabelRest tup suf) := by
  have hnext : nextVisibleMember ms = pre.length := h.next_eq
  have hhide : ms.modify pre.length labelled.hide = pre ++ labelled.hide m :: suf := h.next_eq ▸ h.hide_eq
  have hlt : ¬ ms.length ≤ pre.length := Nat.not_le.mpr (h.next_eq ▸ h.next_lt)
  simp only [tailMembers, hnext, hlt, if_false, hhide, relabelRest]
  cases tup with
  | false => rfl
  | true =>
    rw [if_pos rfl, if_pos rfl, List.mapIdx_append, List.mapIdx_cons, if_neg (by omega)]
    congr 2
    · refine List.mapIdx_eq_iff.mpr fun i => ?_
      cases hi : pre[i]? with
      | none => rfl
      | some x =>
        obtain ⟨hlt, -⟩ := List.getElem?_eq_some_iff.mp hi
        rw [Option.map_some, if_neg (Nat.not_lt.mpr (Nat.le_of_lt hlt))]
    · congr 1
      refine congrFun (congrArg List.mapIdx (funext₂ fun k x => ?_)) suf
      rw [if_pos (by omega), show k + 1 + pre.length - (pre.length + 1) = k by omega]
      rfl

lemma slots_of_tail {pre suf ms : List (Record.Member MonoType)} {m : Record.Member MonoType}
    (h : labelled.HeadAt pre m suf ms) (tup : Bool) :
    ms.map Member.slot = (pre ++ labelled.hide m :: relabelRest tup suf).map Member.slot := by
  rw [h.eq, List.map_append, List.map_append, List.map_cons, List.map_cons]
  congr 2
  cases tup with
  | false => rfl
  | true => exact (map_slot_relabel suf positionLabel).symm

namespace Shaped

variable {pre suf : List (Record.Member MonoType)}

lemma isTuple_eq (h : Shaped L pre suf ms) : isTuple ms = isTuple suf := by
  rw [h.eq, isTuple_append, not_isTuple_of_hidden h.hidden, Bool.false_or]

lemma exists_headAt (h : Shaped L pre suf ms) (hlt : nextVisibleMember ms < ms.length) :
    ∃ m rest, suf = m :: rest ∧ labelled.HeadAt pre m rest ms := by
  obtain ⟨m, rest, hsuf, hat⟩ := Labelled.exists_headAt h.hidden h.plain (h.eq ▸ hlt)
  exact ⟨m, rest, hsuf, h.eq ▸ hat⟩

lemma tail {m : Record.Member MonoType} (h : Shaped L pre (m :: suf) ms)
    {tms : List (Record.Member MonoType)} (htms : tms = pre ++ labelled.hide m :: relabelRest (isTuple ms) suf)
    (hmade : Record.make L tms = some (.record tms)) :
    Shaped L (pre ++ [labelled.hide m]) (relabelRest (isTuple ms) suf) tms := by
  have hrest : (∀ x ∈ relabelRest (isTuple ms) suf, labelled.Plain x) ∧
      (isTuple (relabelRest (isTuple ms) suf) = false ∨ labelled.Positioned (relabelRest (isTuple ms) suf)) := by
    rw [h.isTuple_eq]
    cases htuple : isTuple (m :: suf) with
    | true => exact ⟨(Labelled.positioned_mapIdx suf).plain, .inr (Labelled.positioned_mapIdx suf)⟩
    | false =>
      rw [isTuple, List.any_cons, Bool.or_eq_false_iff] at htuple
      exact ⟨fun x hx => h.plain x (List.mem_cons_of_mem m hx), .inl htuple.2⟩
  refine ⟨hmade, ?_, ?_, hrest.1, hrest.2⟩
  · rw [htms, List.append_assoc, List.singleton_append]
  · intro x hx
    obtain hx | hx := List.mem_append.mp hx
    · exact h.hidden x hx
    · rw [List.mem_singleton.mp hx]
      exact hidden_hiddenLabel m.field

lemma isCons {m : Record.Member MonoType} (h : Shaped L pre (m :: suf) ms) (hat : labelled.HeadAt pre m suf ms)
    {tms : List (Record.Member MonoType)} (htms : tms = pre ++ labelled.hide m :: relabelRest (isTuple ms) suf) :
    IsCons L ms tms := by
  have hhead : headMember ms = some { m with type := normIfOpaquePtr m.type } := congrArg (Option.map _) hat.head_eq
  have hcons : ∀ ty, (∀ x ∈ relabelRest (isTuple ms) suf, labelled.Plain x) →
      consMember m.field ty tms = pre ++ m :: relabelRest (isTuple ms) suf := by
    intro ty hplain
    have hfind : findHiddenMember m.field tms tms.length = some pre.length := htms ▸ Labelled.HeadAt.find_eq hplain
    rw [consMember, hfind, htms]
    exact modify_append_cons _ _ _ _
  refine ⟨_, hhead, ?_⟩
  rw [h.isTuple_eq] at hcons ⊢
  cases htuple : isTuple (m :: suf) with
  | false =>
    rw [htuple] at hcons
    rw [if_neg Bool.false_ne_true, makeLabelled,
      hcons _ fun x hx => h.plain x (List.mem_cons_of_mem m hx), relabelRest, if_neg Bool.false_ne_true, ← hat.eq]
    exact h.made
  | true =>
    have hpos : labelled.Positioned (m :: suf) := h.labels.resolve_left (Bool.not_eq_false _ ▸ htuple)
    have hfield : m.field = ascii ".f0" := hpos 0 m rfl
    rw [htuple] at hcons
    have hplain := (Labelled.positioned_mapIdx (T := labelled) suf).plain
    rw [if_pos rfl, makeTuple, ← hfield, hcons _ hplain]
    have hnormal : normalizeTupleFields (pre ++ m :: relabelRest true suf) = ms := by
      rw [normalizeTupleFields, Labelled.normalizeFields_append h.hidden, h.eq]
      refine congrArg (pre ++ ·) (hpos.normalize_eq (fun i => ?_) (List.forall_mem_cons.mpr ⟨hpos.plain m ?_, hplain⟩))
      · cases i with
        | zero => exact ⟨m.field, rfl⟩
        | succ i => exact ⟨positionLabel i, List.getElem?_mapIdx⟩
      · exact List.mem_cons_self
    rw [hnormal]
    exact h.made

/-- The members of the tail, if there are any, have the same shape, and the head is consed back onto them. -/
lemma step (h : Shaped L pre suf ms) {tms : List (Record.Member MonoType)}
    (ht : tailType L ms = some (.record tms)) : (∃ pre' suf', Shaped L pre' suf' tms) ∧ IsCons L ms tms := by
  have hlt : nextVisibleMember ms < ms.length := by
    refine Nat.lt_of_not_le fun hle => ?_
    rw [tailType, tailMembers, if_pos hle] at ht
    cases ht
  obtain ⟨m, rest, rfl, hat⟩ := h.exists_headAt hlt
  rw [tailType, tailMembers_eq hat] at ht
  have hmade := make_relabelled h.made (slots_of_tail hat (isTuple ms))
  simp only [Option.bind_eq_bind, Option.bind_some] at ht
  split_ifs at ht
  · cases ht
  · rw [hmade] at ht
    cases ht
    exact ⟨⟨_, _, h.tail rfl hmade⟩, h.isCons hat rfl⟩

end Shaped

/-- Types whose members are not hidden, and are labelled by position if one of them is. -/
def WellLabelled (ms : List (Record.Member MonoType)) : Prop :=
  (∀ m ∈ ms, labelled.Plain m) ∧ (isTuple ms = false ∨ labelled.Positioned ms)

lemma shaped_of_tailOf {ms₀ : List (Record.Member MonoType)} (hmade : Record.make L ms₀ = some (.record ms₀))
    (hlabels : WellLabelled ms₀) {t : MonoType} (ht : MonoType.TailOf L (.record ms₀) t) :
    ∀ ms, t = .record ms → ∃ pre suf, Shaped L pre suf ms := by
  induction ht with
  | refl =>
    rintro ms heq
    cases heq
    exact ⟨[], ms₀, hmade, rfl, by simp, hlabels.1, hlabels.2⟩
  | @tail t u _ htail ih =>
    rintro ms rfl
    cases t with
    | record ms' =>
      obtain ⟨pre, suf, h⟩ := ih ms' rfl
      exact (h.step htail).1
    | variant ms' =>
      have htail : Variant.tailType ms' = some (.record ms) := htail
      rw [Variant.tailType] at htail
      cases htms : Variant.tailMembers ms' with
      | none => rw [htms] at htail; cases htail
      | some tms =>
        rw [htms] at htail
        simp only [Option.bind_eq_bind, Option.bind_some] at htail
        split_ifs at htail <;> cases htail
    | _ => cases htail

/-- The head member has a label and a type. -/
def HeadIs (ms : List (Record.Member MonoType)) (lbl : Bytes) (ty : MonoType) : Prop :=
  ∃ m, headMember ms = some m ∧ m.field = lbl ∧ m.type = ty

lemma headIs_of_make {pre suf ms' : List (Record.Member MonoType)} {m : Record.Member MonoType}
    (h : Record.make L ms' = some (.record ms)) (hms' : ms' = pre ++ m :: suf)
    (hpre : ∀ x ∈ pre, labelled.hidden x.field = true) (hm : labelled.hidden m.field = false) :
    HeadIs ms m.field (normIfOpaquePtr m.type) := by
  have hnext : nextVisibleMember ms = pre.length := by
    have hlabel : ∀ xs : List (Record.Member MonoType),
        nextVisibleMember xs = (xs.map Member.field).findIdx fun n => !labelled.hidden n := by
      intro xs
      rw [List.findIdx_map]
      rfl
    rw [hlabel, make_fields h, ← hlabel, hms']
    exact Labelled.nextVisibleMember_append hpre hm
  have hget : ms'[pre.length]? = some m := by
    rw [hms', List.getElem?_append_right (Nat.le_refl _), Nat.sub_self, List.getElem?_cons_zero]
  have hfield := congrArg (·[pre.length]?) (make_fields h)
  have htype := congrArg (·[pre.length]?) (make_types h)
  simp only [List.getElem?_map, hget, Option.map_some, Option.map_eq_some_iff] at hfield htype
  obtain ⟨n, hn, hfield⟩ := hfield
  obtain ⟨n', hn', htype⟩ := htype
  cases hn.symm.trans hn'
  refine ⟨{ n with type := normIfOpaquePtr n.type }, ?_, hfield, by rw [htype]⟩
  rw [headMember, hnext, hn]
  rfl

/-- A consed member that is visible comes first among the visible ones. -/
lemma exists_consMember {lbl : Bytes} {hty : MonoType} {tty : List (Record.Member MonoType)}
    (hplace : labelled.InFront lbl tty)
    (hslot : ∀ i m, findHiddenMember lbl tty tty.length = some i → tty[i]? = some m → m.type = hty) :
    ∃ pre m suf, consMember lbl hty tty = pre ++ m :: suf ∧ (∀ x ∈ pre, labelled.hidden x.field = true) ∧
      m.field = lbl ∧ m.type = hty := by
  unfold consMember
  cases hfind : findHiddenMember lbl tty tty.length with
  | none => exact ⟨[], ⟨lbl, hty, -1⟩, resetFieldOffsets tty, rfl, by simp, rfl, rfl⟩
  | some i =>
    obtain ⟨pre, m, suf, rfl, rfl, hpre⟩ := hplace.exists_place hfind
    refine ⟨pre, { m with field := lbl }, suf, modify_append_cons _ _ _ _, hpre, rfl, hslot _ m hfind ?_⟩
    rw [List.getElem?_append_right (Nat.le_refl _), Nat.sub_self, List.getElem?_cons_zero]

lemma isCons_of_single {lbl : Bytes} {ty : MonoType} (hlabels : WellLabelled [⟨lbl, ty, -1⟩])
    (hty : normIfOpaquePtr ty = ty) (hmade : Record.make L [⟨lbl, ty, -1⟩] = some (.record ms)) : IsCons L ms [] := by
  have hvisible : labelled.hidden lbl = false := (hlabels.1 _ List.mem_cons_self).visible
  obtain ⟨m, hhead, hfield, htype⟩ := headIs_of_make hmade (List.nil_append _).symm (fun _ => nofun) hvisible
  have htuple : isTuple ms = isTuple [⟨lbl, ty, -1⟩] := by
    have hany : ∀ xs : List (Record.Member MonoType),
        isTuple xs = (xs.map Member.field).any fun n => n.take 2 = ascii ".f" := by
      intro xs
      rw [List.any_map]
      rfl
    rw [hany, hany, make_fields hmade]
  refine ⟨m, hhead, ?_⟩
  rw [htuple, hfield, htype, hty]
  obtain hnone | hpos := hlabels.2
  · rw [hnone]
    exact hmade
  · have hlbl : lbl = ascii ".f0" := hpos 0 _ rfl
    rw [isTuple_of_positioned hpos, if_pos rfl]
    rw [hlbl] at hmade
    exact hmade

/-- What holds of consing onto the members of a record or a tuple. -/
structure ConsLaws (L : Layout) : Prop where
  /-- The head of a type that is reached by taking tails is consed back onto its tail, if members are left there. -/
  tail : ∀ ms₀ ms tms, Record.make L ms₀ = some (.record ms₀) → WellLabelled ms₀ →
    MonoType.TailOf L (.record ms₀) (.record ms) → tailType L ms = some (.record tms) → IsCons L ms tms
  /-- So is a single member of no given offset, unless it is stored differently from its type as a head. -/
  last : ∀ lbl ty ms, WellLabelled [⟨lbl, ty, -1⟩] → normIfOpaquePtr ty = ty →
    Record.make L [⟨lbl, ty, -1⟩] = some (.record ms) → IsCons L ms []
  head : ∀ lbl hty tty ms, labelled.hidden lbl = false → labelled.InFront lbl tty →
    (∀ i m, findHiddenMember lbl tty tty.length = some i → tty[i]? = some m → m.type = hty) →
    makeLabelled L lbl hty tty = some (.record ms) → HeadIs ms lbl (normIfOpaquePtr hty)
  tupleHead : ∀ hty tty ms, labelled.InFront (ascii ".f0") tty →
    (∀ i m, findHiddenMember (ascii ".f0") tty tty.length = some i → tty[i]? = some m → m.type = hty) →
    makeTuple L hty tty = some (.record ms) → HeadIs ms (ascii ".f0") (normIfOpaquePtr hty)

lemma consLaws (L : Layout) : ConsLaws L where
  tail ms₀ ms tms hmade hlabels hms htail := by
    obtain ⟨pre, suf, h⟩ := shaped_of_tailOf hmade hlabels hms ms rfl
    exact (h.step htail).2
  last lbl ty ms hlabels hty hmade := isCons_of_single hlabels hty hmade
  head lbl hty tty ms hlbl hplace hslot hmade := by
    obtain ⟨pre, m, suf, hcons, hpre, rfl, rfl⟩ := exists_consMember hplace hslot
    exact headIs_of_make hmade hcons hpre hlbl
  tupleHead hty tty ms hplace hslot hmade := by
    obtain ⟨pre, m, suf, hcons, hpre, hfield, rfl⟩ := exists_consMember hplace hslot
    have hm : labelled.hidden (labelled.label m) = false := by
      rw [show labelled.label m = ascii ".f0" from hfield]
      decide
    have hnormal : normalizeTupleFields (consMember (ascii ".f0") m.type tty) =
        pre ++ { m with field := ascii ".f0" } :: labelled.normalizeFields 1 suf := by
      rw [normalizeTupleFields, hcons, Labelled.normalizeFields_append hpre, Labelled.normalizeFields,
        if_neg (Bool.eq_false_iff.mp hm)]
      rfl
    exact headIs_of_make hmade hnormal hpre (show labelled.hidden (ascii ".f0") = false by decide)

end Record

/-! ### Variants and sums -/

namespace Variant

variable {ms tms : List (Variant.Member MonoType)}

/-- Consing the head of `ms`, as it is read, onto the members `tms` gives a type with the members `ms`. -/
def IsCons (ms tms : List (Variant.Member MonoType)) : Prop :=
  ∃ m, headMember ms = some m ∧ makeLabelled m.selector m.type tms = .variant (ms.set (nextVisibleMember ms) m)

/-- The same without a label. -/
def IsSumCons (ms tms : List (Variant.Member MonoType)) : Prop :=
  ∃ m, headMember ms = some m ∧ makeSum m.type tms = .variant (ms.set (nextVisibleMember ms) m)

/-- The head member has a label and a type. -/
def HeadIs (ms : List (Variant.Member MonoType)) (lbl : Bytes) (ty : MonoType) : Prop :=
  ∃ m, headMember ms = some m ∧ m.selector = lbl ∧ m.type = ty

lemma lt_of_tailType {t : MonoType} (h : tailType ms = some t) : nextVisibleMember ms < ms.length := by
  refine Nat.lt_of_not_le fun hle => ?_
  rw [tailType, tailMembers, if_pos hle] at h
  cases h

lemma tailType_eq {pre suf : List (Variant.Member MonoType)} {m : Variant.Member MonoType}
    (hat : labelled.HeadAt pre m suf ms) (h : tailType ms = some (.variant tms)) :
    tms = pre ++ labelled.hide m :: suf := by
  rw [tailType, tailMembers] at h
  have hlt : ¬ ms.length ≤ nextVisibleMember ms := Nat.not_le.mpr hat.next_lt
  have hhide : ms.modify (nextVisibleMember ms) labelled.hide = pre ++ labelled.hide m :: suf := hat.hide_eq
  simp only [hlt, if_false, hhide, Option.bind_eq_bind, Option.bind_some] at h
  split_ifs at h <;> cases h
  rfl

lemma exists_headAt_of_tailOf {L : Layout} {ms₀ : List (Variant.Member MonoType)}
    (hlabels : ∀ m ∈ ms₀, labelled.Plain m) {t : MonoType} (ht : MonoType.TailOf L (.variant ms₀) t) :
    ∀ ms, t = .variant ms → nextVisibleMember ms < ms.length → ∃ pre m suf, labelled.HeadAt pre m suf ms := by
  induction ht with
  | refl =>
    rintro ms heq hlt
    cases heq
    obtain ⟨m, rest, -, hat⟩ := Labelled.exists_headAt (fun _ => List.not_mem_nil.elim) hlabels hlt
    exact ⟨[], m, rest, hat⟩
  | @tail t u _ htail ih =>
    rintro ms rfl hlt
    cases t with
    | variant ms' =>
      have htail : tailType ms' = some (.variant ms) := htail
      obtain ⟨pre, m, suf, hat⟩ := ih ms' rfl (lt_of_tailType htail)
      rw [tailType_eq hat htail] at hlt ⊢
      exact hat.exists_tail hlt
    | record ms' =>
      have htail : Record.tailType L ms' = some (.variant ms) := htail
      rw [Record.tailType] at htail
      cases htms : Record.tailMembers (Record.isTuple ms') ms' with
      | none => rw [htms] at htail; cases htail
      | some tms =>
        rw [htms] at htail
        simp only [Option.bind_eq_bind, Option.bind_some] at htail
        split_ifs at htail
        · cases htail
        · obtain ⟨_, heq, -⟩ := Record.make_eq_some htail
          cases heq
    | _ => cases htail

lemma headMember_eq {pre suf : List (Variant.Member MonoType)} {m : Variant.Member MonoType}
    (hat : labelled.HeadAt pre m suf ms) : headMember ms = some { m with type := normIfOpaquePtr m.type } :=
  congrArg (Option.map _) hat.head_eq

lemma set_head {pre suf : List (Variant.Member MonoType)} {m : Variant.Member MonoType}
    (hat : labelled.HeadAt pre m suf ms) (n : Variant.Member MonoType) :
    ms.set (nextVisibleMember ms) n = pre ++ n :: suf := by
  have hnext : nextVisibleMember ms = pre.length := hat.next_eq
  rw [hnext, hat.eq, List.set_append_right _ _ (Nat.le_refl _), Nat.sub_self, List.set_cons_zero]

lemma consMember_hide {pre suf : List (Variant.Member MonoType)} {m : Variant.Member MonoType}
    (hat : labelled.HeadAt pre m suf ms) (ty : MonoType) :
    consMember m.selector ty (pre ++ labelled.hide m :: suf) = pre ++ ⟨m.selector, ty, m.id⟩ :: suf := by
  have hfind : findHiddenMember m.selector (pre ++ labelled.hide m :: suf) (pre ++ labelled.hide m :: suf).length =
      some pre.length := Labelled.HeadAt.find_eq hat.plain
  rw [consMember, hfind]
  exact modify_append_cons _ _ _ _

/-- What holds of consing onto the members of a variant or a sum. -/
structure ConsLaws (L : Layout) : Prop where
  /-- The head of a type that is reached by taking tails is consed back onto its tail, if members are left there. -/
  tail : ∀ ms₀ ms tms, (∀ m ∈ ms₀, labelled.Plain m) → MonoType.TailOf L (.variant ms₀) (.variant ms) →
    tailType ms = some (.variant tms) → IsCons ms tms
  /-- Without a label this is so for a sum before tails are taken. -/
  sumTail : ∀ ms tms, labelled.Positioned ms → tailType ms = some (.variant tms) → IsSumCons ms tms
  last : ∀ lbl ty, labelled.hidden lbl = false → IsCons [⟨lbl, ty, 0⟩] []
  head : ∀ lbl hty tty ms, labelled.hidden lbl = false → labelled.InFront lbl tty →
    makeLabelled lbl hty tty = .variant ms → HeadIs ms lbl (normIfOpaquePtr hty)
  sumHead : ∀ hty tty ms, labelled.InFront (ascii ".f0") tty → makeSum hty tty = .variant ms →
    HeadIs ms (ascii ".f0") (normIfOpaquePtr hty)

lemma isSumCons (hpos : labelled.Positioned ms) (htail : tailType ms = some (.variant tms)) : IsSumCons ms tms := by
  obtain ⟨m, suf, rfl, hat⟩ := Labelled.exists_headAt (fun _ => List.not_mem_nil.elim) hpos.plain (lt_of_tailType htail)
  rw [List.nil_append] at hat
  have hselector : m.selector = ascii ".f0" := hpos 0 m rfl
  refine ⟨_, headMember_eq hat, ?_⟩
  rw [tailType_eq hat htail, makeSum, ← hselector, consMember_hide hat, set_head hat]
  have hpos' : labelled.Positioned (⟨m.selector, normIfOpaquePtr m.type, m.id⟩ :: suf) := by
    intro i x hx
    cases i with
    | zero => exact Option.some.inj hx ▸ hselector
    | succ i => exact hpos (i + 1) x hx
  refine congrArg MonoType.variant (hpos'.normalize_eq (fun i => ?_) hpos'.plain)
  cases hi : (⟨m.selector, normIfOpaquePtr m.type, m.id⟩ :: suf : List (Variant.Member MonoType))[i]? with
  | none => exact ⟨[], hi⟩
  | some x => exact ⟨x.selector, hi⟩

lemma headIs_of_head {pre suf : List (Variant.Member MonoType)} {m : Variant.Member MonoType}
    (hpre : ∀ x ∈ pre, labelled.hidden x.selector = true) (hm : labelled.hidden m.selector = false) :
    HeadIs (pre ++ m :: suf) m.selector (normIfOpaquePtr m.type) := by
  have hnext : nextVisibleMember (pre ++ m :: suf) = pre.length := Labelled.nextVisibleMember_append hpre hm
  refine ⟨{ m with type := normIfOpaquePtr m.type }, ?_, rfl, rfl⟩
  rw [headMember, hnext, List.getElem?_append_right (Nat.le_refl _), Nat.sub_self, List.getElem?_cons_zero]
  rfl

/-- A consed member that is visible comes first among the visible ones. -/
lemma exists_consMember {lbl : Bytes} {tty : List (Variant.Member MonoType)} (hplace : labelled.InFront lbl tty)
    (hty : MonoType) : ∃ pre m suf, consMember lbl hty tty = pre ++ m :: suf ∧
      (∀ x ∈ pre, labelled.hidden x.selector = true) ∧ m.selector = lbl ∧ m.type = hty := by
  unfold consMember
  cases hfind : findHiddenMember lbl tty tty.length with
  | none =>
    refine ⟨[], ⟨lbl, hty, BitVec.ofNat 32 0⟩, _, List.mapIdx_cons, by simp, rfl, rfl⟩
  | some i =>
    obtain ⟨pre, m, suf, rfl, rfl, hpre⟩ := hplace.exists_place hfind
    exact ⟨pre, ⟨lbl, hty, m.id⟩, suf, modify_append_cons _ _ _ _, hpre, rfl, rfl⟩

lemma consLaws (L : Layout) : ConsLaws L where
  tail ms₀ ms tms hlabels hms htail := by
    obtain ⟨pre, m, suf, hat⟩ := exists_headAt_of_tailOf hlabels hms ms rfl (lt_of_tailType htail)
    refine ⟨_, headMember_eq hat, ?_⟩
    rw [tailType_eq hat htail, makeLabelled, consMember_hide hat, set_head hat]
  sumTail ms tms hpos htail := isSumCons hpos htail
  last lbl ty hlbl := by
    have hat : labelled.HeadAt [] ⟨lbl, ty, 0⟩ [] [⟨lbl, ty, 0⟩] := ⟨rfl, by simp, hlbl, by simp⟩
    refine ⟨_, headMember_eq hat, ?_⟩
    rw [set_head hat]
    rfl
  head lbl hty tty ms hlbl hplace hms := by
    obtain ⟨pre, m, suf, hcons, hpre, rfl, rfl⟩ := exists_consMember hplace hty
    rw [makeLabelled, hcons] at hms
    cases hms
    exact headIs_of_head hpre hlbl
  sumHead hty tty ms hplace hms := by
    obtain ⟨pre, m, suf, hcons, hpre, hselector, rfl⟩ := exists_consMember hplace hty
    have hm : labelled.hidden (labelled.label m) = false := by
      rw [show labelled.label m = ascii ".f0" from hselector]
      decide
    rw [makeSum, normalizeSumFields, hcons, Labelled.normalizeFields_append hpre, Labelled.normalizeFields,
      if_neg (Bool.eq_false_iff.mp hm)] at hms
    cases hms
    exact headIs_of_head (m := labelled.relabel (positionLabel 0) m) hpre
      (show labelled.hidden (positionLabel 0) = false by decide)

end Variant

/-- The head and the tail of a type, and the types that they are consed to. -/
theorem heads_and_tails (L : Layout) : Record.ConsLaws L ∧ Variant.ConsLaws L :=
  ⟨Record.consLaws L, Variant.consLaws L⟩

/-- A record with one visible member after a hidden one has the unit type as its tail, and a head that is stored
contiguously is read as a pointer. -/
theorem not_heads_and_tails :
    (¬ ∀ L ms₀ ms t, Record.make L ms₀ = some (.record ms₀) → Record.WellLabelled ms₀ →
      MonoType.TailOf L (.record ms₀) (.record ms) → Record.tailType L ms = some t →
      Record.IsCons L ms t.recordMembers) ∧
    ¬ ∀ L lbl hty tty ms, Record.makeLabelled L lbl hty tty = some (.record ms) → Record.HeadIs ms lbl hty := by
  constructor
  · intro h
    let int : MonoType := .prim (ascii "int") none
    have hlabels : Record.WellLabelled [⟨ascii "a", int, 0⟩, ⟨ascii "b", int, 4⟩] :=
      ⟨List.forall_mem_cons.mpr ⟨(by decide : ¬ ascii ".p" <+: ascii "a"),
        List.forall_mem_singleton.mpr (by decide : ¬ ascii ".p" <+: ascii "b")⟩, .inl rfl⟩
    have hcons := h (layout 2) [⟨ascii "a", int, 0⟩, ⟨ascii "b", int, 4⟩] [⟨ascii ".pa", int, 0⟩, ⟨ascii "b", int, 4⟩]
      (.prim (ascii "unit") none) rfl hlabels (Relation.ReflTransGen.single rfl) rfl
    obtain ⟨m, hm, hcons⟩ := hcons
    cases hm
    exact absurd (congrArg (Option.map fun t => t.recordMembers.length) hcons) (by decide)
  · intro h
    obtain ⟨m, hm, -, htype⟩ := h (layout 2) (ascii "a") (.opaquePtr (ascii "T") 8 true) []
      [⟨ascii "a", .opaquePtr (ascii "T") 8 true, 0⟩] rfl
    cases hm
    cases htype

end Hobbes.Lang
