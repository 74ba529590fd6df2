import Hobbes.Core.Transition
import Mathlib.Algebra.Group.Nat.Even
import Mathlib.Data.List.Sort

/-!
# File signals

Callbacks wait for the value at a position of a file to change. A sweep compares the value with the one that is
remembered for the position, and calls the callbacks. A callback is a number, in the order of the function pointers.
-/

namespace Hobbes.Db

open Core

/-- `byteRangeWatches` has one for each position, and `mappedm` is the position of the value that is compared. -/
structure ByteRangeWatch where
  isArr : Bool
  mappedm : ℕ
  oldValue : ℕ
  fs : List ℕ

/-- A position, in front of which an array has its length. -/
def lengthAt (off : ℕ) : ℕ := (off + 2 ^ 64 - 8) % 2 ^ 64

/-- Where the value is that is watched. -/
def watchedAt (off : ℕ) (isArr : Bool) : ℕ := if isArr then lengthAt off else off

/-- A `std::map`, in the order of its keys. -/
abbrev ByteRangeWatches := List (ℕ × ByteRangeWatch)

/-- `byteRangeWatches[off] = w` -/
def ByteRangeWatches.set (off : ℕ) (w : ByteRangeWatch) : ByteRangeWatches → ByteRangeWatches
  | [] => [(off, w)]
  | (k, v) :: ws =>
    if off < k then (off, w) :: (k, v) :: ws
    else if off = k then (off, w) :: ws
    else (k, v) :: set off w ws

/-- `fs.insert(f)` -/
def insertSignal (f : ℕ) (fs : List ℕ) : List ℕ := if f ∈ fs then fs else fs.orderedInsert (· ≤ ·) f

/-- A call of a callback. -/
structure SignalCall where
  off : ℕ
  f : ℕ
  ref : ℕ

/-- What the callbacks of a position return when they are called in a sweep. -/
abbrev Answers := ℕ → ℕ → Bool

namespace ByteRangeWatch

variable (mem : ℕ → ℕ) (answers : Answers) (off : ℕ) (brw : ByteRangeWatch)

def ref : ℕ := if brw.isArr then lengthAt off else mem brw.mappedm

def sweep : ByteRangeWatch :=
  if mem brw.mappedm ≠ brw.oldValue then
    { brw with oldValue := mem brw.mappedm, fs := brw.fs.filter (answers off) }
  else brw

def calls : List SignalCall :=
  if mem brw.mappedm ≠ brw.oldValue then brw.fs.map fun f => ⟨off, f, brw.ref mem off⟩ else []

end ByteRangeWatch

/-- A file with its watches. -/
structure FileWatch where
  /-- the values at the positions of the file -/
  mem : ℕ → ℕ
  byteRangeWatches : ByteRangeWatches
  /-- history: of a callback that waits at a position, whether it was registered for an array, and the value when it was
  last called, or registered -/
  waits : ℕ → ℕ → Option (Bool × ℕ)
  /-- history: whether a callback has left a position -/
  left : ℕ → ℕ → Bool

namespace FileWatch

variable (fw : FileWatch)

def sweepFileWatch (answers : Answers) : ByteRangeWatches :=
  (fw.byteRangeWatches.map fun e => (e.1, e.2.sweep fw.mem answers e.1)).filter fun e => 0 < e.2.fs.length

/-- The calls of a sweep. -/
def calls : List SignalCall := fw.byteRangeWatches.flatMap fun e => e.2.calls fw.mem e.1

/-- `addFileSignal`, and `addFileSOSignal` at the offset that is stored. -/
def addFileSignal (off : ℕ) (isArr : Bool) (f : ℕ) : ByteRangeWatches :=
  let mappedm := watchedAt off isArr
  let fs := ((fw.byteRangeWatches.lookup off).map ByteRangeWatch.fs).getD []
  fw.byteRangeWatches.set off ⟨isArr, mappedm, fw.mem mappedm, insertSignal f fs⟩

/-- The value has changed since a callback was called, or registered. -/
def Changed (off f : ℕ) : Bool :=
  (fw.waits off f).any fun w => fw.mem (watchedAt off w.1) ≠ w.2

end FileWatch

inductive SignalEvent where
  | change (a v : ℕ)
  | sweep (answers : Answers)
  | add (off : ℕ) (isArr : Bool) (f : ℕ)

def SignalEvent.step : SignalEvent → FileWatch → Option FileWatch
  | change a v, fw => some { fw with mem := Function.update fw.mem a v }
  | sweep answers, fw =>
    some { fw with
      byteRangeWatches := fw.sweepFileWatch answers
      waits := fun off f =>
        if fw.Changed off f then
          if answers off f then (fw.waits off f).map fun w => (w.1, fw.mem (watchedAt off w.1)) else none
        else fw.waits off f
      left := fun off f => fw.left off f || fw.Changed off f && !answers off f }
  | add off isArr f, fw =>
    some { fw with
      byteRangeWatches := fw.addFileSignal off isArr f
      waits :=
        Function.update fw.waits off (Function.update (fw.waits off) f (some (isArr, fw.mem (watchedAt off isArr))))
      left := Function.update fw.left off (Function.update (fw.left off) f false) }

/-! ### Watches and callbacks -/

namespace ByteRangeWatches

variable {ws : ByteRangeWatches} {off k : ℕ} {w v : ByteRangeWatch}

/-- A map has no key twice. -/
def Keyed (ws : ByteRangeWatches) : Prop := ws.Pairwise fun e e' => e.1 < e'.1

lemma mem_of_set (h : (k, v) ∈ ws.set off w) : (k = off ∧ v = w) ∨ (k, v) ∈ ws := by
  induction ws with
  | nil => exact .inl (by simpa [set] using h)
  | cons e ws ih =>
    obtain ⟨k', v'⟩ := e
    rw [set] at h
    split_ifs at h with hlt heq
    · simpa [List.mem_cons] using h
    · rw [List.mem_cons] at h ⊢
      obtain h | h := h
      · exact .inl (by simpa using h)
      · exact .inr (.inr h)
    · rw [List.mem_cons] at h ⊢
      obtain h | h := h
      · exact .inr (.inl h)
      · exact (ih h).imp_right .inr

lemma Keyed.set (h : ws.Keyed) (off : ℕ) (w : ByteRangeWatch) : (ws.set off w).Keyed := by
  induction ws with
  | nil => exact List.pairwise_singleton _ _
  | cons e ws ih =>
    obtain ⟨k', v'⟩ := e
    obtain ⟨hfirst, hrest⟩ := List.pairwise_cons.1 h
    rw [ByteRangeWatches.set]
    split_ifs with hlt heq
    · refine List.pairwise_cons.2 ⟨fun e he => ?_, h⟩
      obtain rfl | he := List.mem_cons.1 he
      · exact hlt
      · exact Nat.lt_trans hlt (hfirst e he)
    · subst heq
      exact List.pairwise_cons.2 ⟨hfirst, hrest⟩
    · refine List.pairwise_cons.2 ⟨fun e he => ?_, ih hrest⟩
      obtain ⟨hkey, -⟩ | he := mem_of_set (k := e.1) (v := e.2) he
      · change k' < e.1
        omega
      · exact hfirst e he

lemma lookup_cons : List.lookup k ((off, w) :: ws) = if k = off then some w else ws.lookup k := by
  rw [List.lookup_cons]
  by_cases hk : k = off
  · rw [if_pos hk, beq_iff_eq.2 hk]
  · rw [if_neg hk, beq_eq_false_iff_ne.2 hk]

lemma lookup_set : (ws.set off w).lookup k = if k = off then some w else ws.lookup k := by
  induction ws with
  | nil => exact lookup_cons
  | cons e ws ih =>
    obtain ⟨k', v'⟩ := e
    rw [set]
    by_cases hlt : off < k'
    · rw [if_pos hlt, lookup_cons]
    · rw [if_neg hlt]
      by_cases heq : off = k'
      · subst heq
        rw [if_pos rfl, lookup_cons, lookup_cons]
        split_ifs <;> rfl
      · rw [if_neg heq, lookup_cons, lookup_cons, ih]
        split_ifs <;> first | rfl | omega

/-- The watch of a position is found. -/
lemma Keyed.lookup_eq_some (h : ws.Keyed) : ws.lookup k = some v ↔ (k, v) ∈ ws := by
  induction ws with
  | nil => simp
  | cons e ws ih =>
    obtain ⟨k', v'⟩ := e
    obtain ⟨hfirst, hrest⟩ := List.pairwise_cons.1 h
    rw [lookup_cons, List.mem_cons, Prod.mk.injEq]
    by_cases hk : k = k'
    · subst hk
      have hnot : (k, v) ∉ ws := fun hmem => Nat.lt_irrefl _ (hfirst (k, v) hmem)
      simp [hnot, eq_comm]
    · simp [hk, ih hrest]

end ByteRangeWatches

lemma mem_insertSignal {f g : ℕ} {fs : List ℕ} : g ∈ insertSignal f fs ↔ g = f ∨ g ∈ fs := by
  rw [insertSignal]
  split_ifs with h
  · refine ⟨.inr, ?_⟩
    rintro (rfl | hg)
    · exact h
    · exact hg
  · exact List.mem_orderedInsert _

lemma nodup_insertSignal {f : ℕ} {fs : List ℕ} (h : fs.Nodup) : (insertSignal f fs).Nodup := by
  rw [insertSignal]
  split_ifs with hf
  · exact h
  · exact (List.perm_orderedInsert _ f fs).nodup_iff.2 (List.nodup_cons.2 ⟨hf, h⟩)

/-! ### What is remembered -/

namespace FileWatch

variable {fw fw' : FileWatch} {off f ref : ℕ} {isArr : Bool}

/-- The value that is remembered for a position is the one that each callback there was last called for. -/
structure Remembers (fw : FileWatch) : Prop where
  keyed : fw.byteRangeWatches.Keyed
  nodup : ∀ off w, fw.byteRangeWatches.lookup off = some w → w.fs.Nodup
  mappedm : ∀ off w, fw.byteRangeWatches.lookup off = some w → w.mappedm = watchedAt off w.isArr
  waits : ∀ off f x, fw.waits off f = some x ↔
    ∃ w, fw.byteRangeWatches.lookup off = some w ∧ f ∈ w.fs ∧ x = (w.isArr, w.oldValue)
  left : ∀ off f, fw.left off f = true → fw.waits off f = none

/-- The calls of a sweep are those that are due: of the callbacks that wait for a value that has changed, each once,
with the reference. -/
structure Due (fw : FileWatch) : Prop where
  due : ∀ off f ref, ⟨off, f, ref⟩ ∈ fw.calls ↔
    ∃ isArr seen, fw.waits off f = some (isArr, seen) ∧ fw.mem (watchedAt off isArr) ≠ seen ∧
      ref = if isArr then lengthAt off else fw.mem (watchedAt off isArr)
  once : (fw.calls.map fun c => (c.off, c.f)).Nodup
  never : ∀ c ∈ fw.calls, fw.left c.off c.f = false

lemma mem_calls (h : fw.byteRangeWatches.Keyed) :
    ⟨off, f, ref⟩ ∈ fw.calls ↔ ∃ w, fw.byteRangeWatches.lookup off = some w ∧ f ∈ w.fs ∧
      fw.mem w.mappedm ≠ w.oldValue ∧ ref = w.ref fw.mem off := by
  rw [calls, List.mem_flatMap]
  refine ⟨?_, ?_⟩
  · rintro ⟨⟨k, w⟩, he, hc⟩
    rw [ByteRangeWatch.calls] at hc
    split_ifs at hc with hchanged
    · obtain ⟨g, hg, hcall⟩ := List.mem_map.1 hc
      obtain ⟨rfl, rfl, rfl⟩ := SignalCall.mk.injEq .. ▸ hcall
      exact ⟨w, h.lookup_eq_some.2 he, hg, hchanged, rfl⟩
    · cases hc
  · rintro ⟨w, hw, hf, hchanged, rfl⟩
    refine ⟨(off, w), h.lookup_eq_some.1 hw, ?_⟩
    rw [ByteRangeWatch.calls, if_pos hchanged]
    exact List.mem_map_of_mem hf

lemma off_of_mem_calls {mem : ℕ → ℕ} {w : ByteRangeWatch} {c : SignalCall} (hc : c ∈ w.calls mem off) :
    c.off = off := by
  rw [ByteRangeWatch.calls] at hc
  split_ifs at hc
  · obtain ⟨f, -, rfl⟩ := List.mem_map.1 hc
    rfl
  · cases hc

lemma Remembers.due (h : fw.Remembers) : fw.Due where
  due off f ref := by
    rw [mem_calls h.keyed]
    refine ⟨?_, ?_⟩
    · rintro ⟨w, hw, hf, hchanged, rfl⟩
      refine ⟨w.isArr, w.oldValue, (h.waits off f _).2 ⟨w, hw, hf, rfl⟩, ?_, ?_⟩
      · rwa [← h.mappedm off w hw]
      · rw [← h.mappedm off w hw, ByteRangeWatch.ref]
    · rintro ⟨isArr, seen, hwaits, hchanged, rfl⟩
      obtain ⟨w, hw, hf, hx⟩ := (h.waits off f _).1 hwaits
      obtain ⟨rfl, rfl⟩ := Prod.mk.inj hx
      rw [← h.mappedm off w hw] at hchanged ⊢
      exact ⟨w, hw, hf, hchanged, rfl⟩
  once := by
    rw [calls, List.map_flatMap, List.nodup_flatMap]
    refine ⟨fun e he => ?_, ?_⟩
    · have hnodup := h.nodup e.1 e.2 (h.keyed.lookup_eq_some.2 he)
      rw [ByteRangeWatch.calls]
      split_ifs
      · rw [List.map_map]
        exact hnodup.map fun f g hfg => (Prod.mk.inj hfg).2
      · exact List.nodup_nil
    · refine h.keyed.imp fun {e e'} hlt => ?_
      rw [Function.onFun_apply, List.disjoint_left]
      intro x hx hx'
      obtain ⟨c, hc, rfl⟩ := List.mem_map.1 hx
      obtain ⟨c', hc', heq⟩ := List.mem_map.1 hx'
      have hoff := (Prod.mk.inj heq).1
      rw [off_of_mem_calls hc, off_of_mem_calls hc'] at hoff
      exact absurd hoff (Nat.ne_of_gt hlt)
  never c hc := by
    obtain ⟨off, f, ref⟩ := c
    obtain ⟨w, hw, hf, -, -⟩ := (mem_calls h.keyed).1 hc
    by_contra hleft
    have hnone := h.left off f (by simpa using hleft)
    rw [(h.waits off f _).2 ⟨w, hw, hf, rfl⟩] at hnone
    cases hnone

/-! ### Steps -/

lemma Remembers.change (h : fw.Remembers) (a v : ℕ) : Remembers { fw with mem := Function.update fw.mem a v } :=
  ⟨h.keyed, h.nodup, h.mappedm, h.waits, h.left⟩

lemma keyed_sweepFileWatch (h : fw.byteRangeWatches.Keyed) (answers : Answers) :
    ByteRangeWatches.Keyed (fw.sweepFileWatch answers) := by
  have hmap : ByteRangeWatches.Keyed (fw.byteRangeWatches.map fun e => (e.1, e.2.sweep fw.mem answers e.1)) :=
    List.pairwise_map.2 h
  exact hmap.filter _

lemma lookup_sweepFileWatch (h : fw.byteRangeWatches.Keyed) (answers : Answers) {w : ByteRangeWatch} :
    (fw.sweepFileWatch answers).lookup off = some w ↔
      ∃ w', fw.byteRangeWatches.lookup off = some w' ∧ w = w'.sweep fw.mem answers off ∧ 0 < w.fs.length := by
  rw [(keyed_sweepFileWatch h answers).lookup_eq_some, sweepFileWatch, List.mem_filter, List.mem_map]
  refine ⟨?_, ?_⟩
  · rintro ⟨⟨⟨k, w'⟩, hmem, heq⟩, hpos⟩
    obtain ⟨rfl, rfl⟩ := Prod.mk.inj heq
    exact ⟨w', h.lookup_eq_some.2 hmem, rfl, by simpa using hpos⟩
  · rintro ⟨w', hw', rfl, hpos⟩
    exact ⟨⟨(off, w'), h.lookup_eq_some.1 hw', rfl⟩, by simpa using hpos⟩

lemma Remembers.changed_iff (h : fw.Remembers) {w : ByteRangeWatch} (hw : fw.byteRangeWatches.lookup off = some w)
    (hf : f ∈ w.fs) : fw.Changed off f = true ↔ fw.mem w.mappedm ≠ w.oldValue := by
  rw [Changed, (h.waits off f _).2 ⟨w, hw, hf, rfl⟩, h.mappedm off w hw]
  simp

/-- The callbacks that are left after a sweep. -/
lemma mem_fs_sweep {mem : ℕ → ℕ} {answers : Answers} {w : ByteRangeWatch} :
    f ∈ (w.sweep mem answers off).fs ↔ f ∈ w.fs ∧ (mem w.mappedm ≠ w.oldValue → answers off f = true) := by
  rw [ByteRangeWatch.sweep]
  split_ifs with hchanged
  · simp [hchanged]
  · simp [hchanged]

lemma sweep_isArr {mem : ℕ → ℕ} {answers : Answers} {w : ByteRangeWatch} :
    (w.sweep mem answers off).isArr = w.isArr ∧ (w.sweep mem answers off).mappedm = w.mappedm ∧
      (w.sweep mem answers off).oldValue = mem w.mappedm := by
  rw [ByteRangeWatch.sweep]
  split_ifs with hchanged
  · exact ⟨rfl, rfl, rfl⟩
  · exact ⟨rfl, rfl, (not_not.1 hchanged).symm⟩

lemma Remembers.sweep (h : fw.Remembers) (answers : Answers) (hs : SignalEvent.step (.sweep answers) fw = some fw') :
    fw'.Remembers := by
  obtain rfl := Option.some.inj hs
  have hnone : ∀ off f, fw.waits off f = none → fw.Changed off f = false := by
    intro off f hwaits
    rw [Changed, hwaits, Option.any_none]
  refine ⟨keyed_sweepFileWatch h.keyed answers, fun off w hw => ?_, fun off w hw => ?_, fun off f x => ?_,
    fun off f hleft => ?_⟩
  · obtain ⟨w', hw', rfl, -⟩ := (lookup_sweepFileWatch h.keyed answers).1 hw
    rw [ByteRangeWatch.sweep]
    split_ifs
    · exact (h.nodup off w' hw').filter _
    · exact h.nodup off w' hw'
  · obtain ⟨w', hw', rfl, -⟩ := (lookup_sweepFileWatch h.keyed answers).1 hw
    rw [sweep_isArr.1, sweep_isArr.2.1, h.mappedm off w' hw']
  · have hlookup : (∃ w, (fw.sweepFileWatch answers).lookup off = some w ∧ f ∈ w.fs ∧ x = (w.isArr, w.oldValue)) ↔
        ∃ w, fw.byteRangeWatches.lookup off = some w ∧ f ∈ w.fs ∧
          (fw.mem w.mappedm ≠ w.oldValue → answers off f = true) ∧ x = (w.isArr, fw.mem w.mappedm) := by
      refine ⟨?_, ?_⟩
      · rintro ⟨w, hw, hf, rfl⟩
        obtain ⟨w', hw', rfl, -⟩ := (lookup_sweepFileWatch h.keyed answers).1 hw
        obtain ⟨hf, hanswers⟩ := mem_fs_sweep.1 hf
        exact ⟨w', hw', hf, hanswers, by rw [sweep_isArr.1, sweep_isArr.2.2]⟩
      · rintro ⟨w, hw, hf, hanswers, rfl⟩
        have hf' := mem_fs_sweep.2 ⟨hf, hanswers⟩
        refine ⟨_, (lookup_sweepFileWatch h.keyed answers).2 ⟨w, hw, rfl, List.length_pos_of_mem hf'⟩, hf', ?_⟩
        rw [sweep_isArr.1, sweep_isArr.2.2]
    rw [hlookup]
    cases hwaits : fw.waits off f with
    | none =>
      simp only [hnone off f hwaits, Bool.false_eq_true, if_false, hwaits]
      refine iff_of_false nofun ?_
      rintro ⟨w, hw, hf, -⟩
      rw [(h.waits off f _).2 ⟨w, hw, hf, rfl⟩] at hwaits
      cases hwaits
    | some y =>
      obtain ⟨w, hw, hf, rfl⟩ := (h.waits off f y).1 hwaits
      have hex : (∃ w, fw.byteRangeWatches.lookup off = some w ∧ f ∈ w.fs ∧
          (fw.mem w.mappedm ≠ w.oldValue → answers off f = true) ∧ x = (w.isArr, fw.mem w.mappedm)) ↔
            (fw.mem w.mappedm ≠ w.oldValue → answers off f = true) ∧ x = (w.isArr, fw.mem w.mappedm) := by
        refine ⟨?_, fun h => ⟨w, hw, hf, h⟩⟩
        rintro ⟨w', hw', -, h⟩
        obtain rfl := Option.some.inj (hw.symm.trans hw')
        exact h
      rw [hex]
      by_cases hchanged : fw.mem w.mappedm ≠ w.oldValue
      · simp only [(h.changed_iff hw hf).2 hchanged, if_true, hwaits, Option.map_some, ← h.mappedm off w hw]
        by_cases hanswer : answers off f = true
        · simp only [hanswer, if_true, Option.some_inj, implies_true, true_and]
          exact eq_comm
        · simp [hanswer, hchanged]
      · have hfalse : fw.Changed off f = false := by
          rw [← Bool.not_eq_true, h.changed_iff hw hf]
          exact hchanged
        simp only [hfalse, Bool.false_eq_true, if_false, hwaits, Option.some_inj]
        rw [not_not.1 hchanged]
        exact ⟨fun hx => ⟨fun hne => absurd rfl hne, hx.symm⟩, fun hx => hx.2.symm⟩
  · obtain hold | hnew := Bool.or_eq_true _ _ ▸ hleft
    · have hwaits := h.left off f hold
      simp only [hnone off f hwaits, Bool.false_eq_true, if_false, hwaits]
    · obtain ⟨hchanged, hanswer⟩ := Bool.and_eq_true _ _ ▸ hnew
      simp only [hchanged, if_true]
      rw [if_neg (by simpa using hanswer)]

end FileWatch

/-- A callback is added where no other one waits, or where the value is the one that is remembered and the position is
watched as it was before. -/
def SignalEvent.Unchanged : SignalEvent → FileWatch → Prop
  | add off isArr f, fw => ∀ w ∈ fw.byteRangeWatches.lookup off,
      (∀ g ∈ w.fs, g = f) ∨ w.isArr = isArr ∧ fw.mem (watchedAt off isArr) = w.oldValue
  | _, _ => True

instance (e : SignalEvent) (fw : FileWatch) : Decidable (e.Unchanged fw) :=
  match e with
  | .add off isArr f => inferInstanceAs (Decidable (∀ w ∈ fw.byteRangeWatches.lookup off,
      (∀ g ∈ w.fs, g = f) ∨ w.isArr = isArr ∧ fw.mem (watchedAt off isArr) = w.oldValue))
  | .change _ _ => .isTrue trivial
  | .sweep _ => .isTrue trivial

namespace FileWatch

variable {fw fw' : FileWatch} {off f ref : ℕ} {isArr : Bool}

lemma lookup_addFileSignal {k : ℕ} : (fw.addFileSignal off isArr f).lookup k =
    if k = off then
      some ⟨isArr, watchedAt off isArr, fw.mem (watchedAt off isArr),
        insertSignal f (((fw.byteRangeWatches.lookup off).map ByteRangeWatch.fs).getD [])⟩
    else fw.byteRangeWatches.lookup k :=
  ByteRangeWatches.lookup_set

lemma Remembers.add (h : fw.Remembers) (hunchanged : SignalEvent.Unchanged (.add off isArr f) fw)
    (hs : SignalEvent.step (.add off isArr f) fw = some fw') : fw'.Remembers := by
  obtain rfl := Option.some.inj hs
  refine ⟨h.keyed.set off _, fun k w hw => ?_, fun k w hw => ?_, fun k g x => ?_, fun k g hleft => ?_⟩
  · rw [lookup_addFileSignal] at hw
    split_ifs at hw with hk
    · obtain rfl := Option.some.inj hw
      refine nodup_insertSignal ?_
      cases hold : fw.byteRangeWatches.lookup off with
      | none => exact List.nodup_nil
      | some w => exact h.nodup off w hold
    · exact h.nodup k w hw
  · rw [lookup_addFileSignal] at hw
    split_ifs at hw with hk
    · obtain rfl := Option.some.inj hw
      rw [hk]
    · exact h.mappedm k w hw
  · simp only [lookup_addFileSignal]
    by_cases hk : k = off
    · subst hk
      simp only [Function.update_self, if_true, Option.some.injEq, exists_eq_left', mem_insertSignal]
      by_cases hg : g = f
      · simp [hg, eq_comm]
      · rw [Function.update_of_ne hg, h.waits, or_iff_right hg]
        cases hold : fw.byteRangeWatches.lookup k with
        | none => simp
        | some w =>
          simp only [Option.some.injEq, exists_eq_left', Option.map_some, Option.getD_some]
          refine and_congr_right fun hmem => ?_
          obtain hall | ⟨rfl, hvalue⟩ := hunchanged w hold
          · exact absurd (hall g hmem) hg
          · rw [hvalue]
    · simp only [Function.update_of_ne hk, if_neg hk, h.waits]
  · by_cases hk : k = off
    · subst hk
      simp only [Function.update_self] at hleft ⊢
      by_cases hg : g = f
      · subst hg
        simp at hleft
      · rw [Function.update_of_ne hg] at hleft ⊢
        exact h.left k g hleft
    · simp only [Function.update_of_ne hk] at hleft ⊢
      exact h.left k g hleft

/-- Where another value is remembered than the current one, some callback will not be called. -/
lemma Remembers.unchanged_of_due (h : fw.Remembers) (harr : ∀ w ∈ fw.byteRangeWatches.lookup off, w.isArr = isArr)
    (hs : SignalEvent.step (.add off isArr f) fw = some fw') (hdue : fw'.Due) :
    SignalEvent.Unchanged (.add off isArr f) fw := by
  obtain rfl := Option.some.inj hs
  intro w hw
  by_contra hnot
  rw [not_or, not_and] at hnot
  obtain ⟨hother, hvalue⟩ := hnot
  have hisArr := harr w hw
  push Not at hother
  obtain ⟨g, hg, hgf⟩ := hother
  have hwaits : Function.update fw.waits off (Function.update (fw.waits off) f
      (some (isArr, fw.mem (watchedAt off isArr)))) off g = some (isArr, w.oldValue) := by
    rw [Function.update_self, Function.update_of_ne hgf, (h.waits off g _).2 ⟨w, hw, hg, rfl⟩, hisArr]
  have hcall := (hdue.due off g _).2 ⟨isArr, w.oldValue, hwaits, hvalue hisArr, rfl⟩
  obtain ⟨w', hw', -, hchanged, -⟩ := (mem_calls (h.keyed.set off _)).1 hcall
  rw [lookup_addFileSignal, if_pos rfl] at hw'
  obtain rfl := Option.some.inj hw'
  exact hchanged rfl

/-- A file before anything is watched. -/
def start (mem : ℕ → ℕ) : FileWatch := ⟨mem, [], fun _ _ => none, fun _ _ => false⟩

lemma remembers_start (mem : ℕ → ℕ) : (start mem).Remembers :=
  ⟨List.Pairwise.nil, by simp [start], by simp [start], by simp [start], by simp [start]⟩

lemma remembers_of_run {mem : ℕ → ℕ} {es : List SignalEvent}
    (hs : runEvents (guarded SignalEvent.Unchanged SignalEvent.step) es (start mem) = some fw) : fw.Remembers := by
  refine (Reachable.start.runEvents hs).invariant (remembers_start mem) fun e fw fw' h hstep => ?_
  obtain ⟨hunchanged, hstep⟩ := guarded_eq_some.1 hstep
  cases e with
  | change a v =>
    obtain rfl := Option.some.inj hstep
    exact h.change a v
  | sweep answers => exact h.sweep answers hstep
  | add off isArr f => exact h.add hunchanged hstep

end FileWatch

end Hobbes.Db
