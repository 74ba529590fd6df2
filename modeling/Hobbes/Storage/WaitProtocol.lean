import Mathlib.Tactic.Ring
import Hobbes.Storage.Queue

/-!
# The wait protocol loses no wake-up

`Queue.Inv` says what a mark in the wait state means. It is kept by every event, and whatever the
claims of this module say about sleeping processes is read off it.
-/

namespace Hobbes.Storage

open Core Function

/-! ### Sides -/

@[simp] lemma Side.other_other (s : Side) : s.other.other = s := by cases s <;> rfl

@[simp] lemma Side.other_ne (s : Side) : s.other ≠ s := by cases s <;> decide

@[simp] lemma Side.ne_other (s : Side) : s ≠ s.other := s.other_ne.symm

@[simp] lemma Side.mark_ne_unblocked (s : Side) : s.mark ≠ .unblocked := by cases s <;> decide

@[simp] lemma Side.unblocked_ne_mark (s : Side) : WaitState.unblocked ≠ s.mark :=
  s.mark_ne_unblocked.symm

@[simp] lemma Side.mark_ne_other_mark (s : Side) : s.mark ≠ s.other.mark := by cases s <;> decide

@[simp] lemma Side.other_mark_ne_mark (s : Side) : s.other.mark ≠ s.mark :=
  s.mark_ne_other_mark.symm

/-- A fact about both sides is a fact about one side and about the other. -/
lemma Side.forall_iff {P : Side → Prop} (s : Side) : (∀ t, P t) ↔ P s ∧ P s.other :=
  ⟨fun h => ⟨h _, h _⟩, fun h t => by cases s <;> cases t <;> first | exact h.1 | exact h.2⟩

/-! ### Indices -/

/-- How many slots the indices really range over: an index is a `uint32_t`. -/
def ringSize (count : ℕ) : ℕ := min count (2 ^ 32)

lemma nextIndex_eq {count i : ℕ} (hi : i < ringSize count) :
    nextIndex count i = (i + 1) % ringSize count := by
  unfold nextIndex
  unfold ringSize at *
  rcases le_total count (2 ^ 32) with h | h
  · rw [min_eq_left h] at *
    rcases Nat.lt_or_ge (i + 1) (2 ^ 32) with h' | h'
    · rw [Nat.mod_eq_of_lt h']
    · have hc : count = i + 1 := by omega
      have h32 : i + 1 = 2 ^ 32 := by omega
      rw [hc, h32, Nat.mod_self, Nat.zero_mod]
  · rw [min_eq_right h] at *
    have : (i + 1) % 2 ^ 32 < 2 ^ 32 := Nat.mod_lt _ (by decide)
    rcases Nat.lt_or_ge ((i + 1) % 2 ^ 32) count with h' | h'
    · exact Nat.mod_eq_of_lt h'
    · omega

lemma ringSize_pos {count : ℕ} (h : 2 ≤ count) : 2 ≤ ringSize count := by
  unfold ringSize; omega

lemma nextIndex_lt {count i : ℕ} (h : 2 ≤ count) (hi : i < ringSize count) :
    nextIndex count i < ringSize count := by
  rw [nextIndex_eq hi]
  exact Nat.mod_lt _ (by have := ringSize_pos h; omega)

lemma nextIndex_injective {count i j : ℕ} (hi : i < ringSize count) (hj : j < ringSize count)
    (h : nextIndex count i = nextIndex count j) : i = j := by
  rw [nextIndex_eq hi, nextIndex_eq hj] at h
  rcases Nat.lt_or_ge (i + 1) (ringSize count) with hi' | hi' <;>
    rcases Nat.lt_or_ge (j + 1) (ringSize count) with hj' | hj'
  · rw [Nat.mod_eq_of_lt hi', Nat.mod_eq_of_lt hj'] at h; omega
  · have : j + 1 = ringSize count := by omega
    rw [Nat.mod_eq_of_lt hi', this, Nat.mod_self] at h; omega
  · have : i + 1 = ringSize count := by omega
    rw [Nat.mod_eq_of_lt hj', this, Nat.mod_self] at h; omega
  · omega

/-! ### What a step leaves alone -/

section

variable (q : Queue) (s t : Side) (p : Pc)

@[simp] lemma Queue.goto_count : (q.goto s p).count = q.count := rfl

@[simp] lemma Queue.goto_idx : (q.goto s p).idx = q.idx := rfl

@[simp] lemma Queue.goto_wstate : (q.goto s p).wstate = q.wstate := rfl

@[simp] lemma Queue.goto_pc_self : (q.goto s p).pc s = p := update_self ..

@[simp] lemma Queue.goto_pc_other : (q.goto s p).pc s.other = q.pc s.other :=
  update_of_ne s.other_ne ..

@[simp] lemma Queue.setWait_count (w : WaitState) : (q.setWait w).count = q.count := rfl

@[simp] lemma Queue.setWait_idx (w : WaitState) : (q.setWait w).idx = q.idx := rfl

@[simp] lemma Queue.setWait_pc (w : WaitState) : (q.setWait w).pc = q.pc := rfl

@[simp] lemma Queue.setWait_wstate (w : WaitState) : (q.setWait w).wstate = w := rfl

@[simp] lemma Queue.setWait_self : q.setWait q.wstate = q := rfl

@[simp] lemma Queue.setIdx_idx (v : ℕ) : (q.setIdx s v).idx s = v := update_self ..

@[simp] lemma Queue.setIdx_idx_other (v : ℕ) : (q.setIdx s v).idx s.other = q.idx s.other :=
  update_of_ne s.other_ne ..

@[simp] lemma Queue.setIdx_pc (v : ℕ) : (q.setIdx s v).pc = q.pc := rfl

@[simp] lemma Queue.setIdx_count (v : ℕ) : (q.setIdx s v).count = q.count := rfl

@[simp] lemma Queue.setIdx_wstate (v : ℕ) : (q.setIdx s v).wstate = q.wstate := rfl

/-- What the other side waits for depends on its own index only. -/
@[simp] lemma Queue.setIdx_bound (v : ℕ) : (q.setIdx s v).bound s.other = q.bound s.other := by
  cases s <;> simp [Queue.bound, Queue.setIdx, Side.other]

@[simp] lemma Queue.wakeN_count : (q.wakeN s).count = q.count := by
  unfold Queue.wakeN; split <;> rfl

@[simp] lemma Queue.wakeN_idx : (q.wakeN s).idx = q.idx := by
  unfold Queue.wakeN; split <;> rfl

@[simp] lemma Queue.wakeN_wstate : (q.wakeN s).wstate = q.wstate := by
  unfold Queue.wakeN; split <;> rfl

@[simp] lemma Queue.wakeN_pc_other : (q.wakeN s).pc s.other = q.pc s.other := by
  unfold Queue.wakeN; split
  · exact Queue.goto_pc_other ..
  · rfl

lemma Queue.bound_congr {q q' : Queue} (hc : q'.count = q.count) (hi : q'.idx = q.idx) :
    q'.bound s = q.bound s := by
  cases s <;> simp [Queue.bound, hc, hi]

@[simp] lemma Queue.goto_bound : (q.goto s p).bound t = q.bound t := bound_congr _ rfl rfl

@[simp] lemma Queue.setWait_bound (w : WaitState) : (q.setWait w).bound s = q.bound s :=
  bound_congr _ rfl rfl

@[simp] lemma Queue.wakeN_bound : (q.wakeN s).bound t = q.bound t :=
  bound_congr _ (by simp) (by simp)

@[simp] lemma Queue.wakeN_other_pc : (q.wakeN s.other).pc s = q.pc s := by
  have := q.wakeN_pc_other s.other
  rwa [Side.other_other] at this

/-- After a wake the process is where it was, or tests again if it was asleep. -/
lemma Queue.wakeN_pc_self :
    (∃ v, q.pc s = .asleep v ∧ (q.wakeN s).pc s = .test v) ∨
      ((∀ v, q.pc s ≠ .asleep v) ∧ (q.wakeN s).pc s = q.pc s) := by
  unfold Queue.wakeN
  cases h : q.pc s with
  | asleep v => exact .inl ⟨v, rfl, by simp⟩
  | _ => exact .inr ⟨by simp, h⟩

lemma Queue.not_asleep_wakeN : ¬ (q.wakeN s).Asleep s := by
  rintro ⟨v, hv⟩
  rcases q.wakeN_pc_self s with ⟨w, _, h⟩ | ⟨h, h'⟩
  · rw [h] at hv; cases hv
  · rw [h'] at hv; exact h v hv

end

/-! ### The invariant -/

/-- The index that a process looping through `next` has loaded. -/
def Pc.loaded : Pc → Option ℕ
  | .test v | .exchange v | .recheck v | .wait v | .asleep v | .reset v | .wakeReset v => some v
  | _ => none

/-- The process has left `next` and has not yet published its advanced index. -/
def Pc.Entered : Pc → Prop
  | .value | .advance | .store _ => True
  | _ => False

/-- The process is asleep or about to be. -/
def Pc.Waits : Pc → Prop
  | .wait _ | .asleep _ => True
  | _ => False

/-- Who is responsible for a sleeping process: its own mark, or the other side after it has taken
the mark away. -/
def Queue.Guarded (q : Queue) (s : Side) : Prop :=
  q.wstate = s.mark ∨
  (q.wstate = s.other.mark ∧ ∃ v, q.pc s.other = .reset v) ∨
  (q.wstate = .unblocked ∧ (q.pc s.other = .wake ∨ ∃ v, q.pc s.other = .wakeReset v))

structure Queue.Inv (q : Queue) : Prop where
  count_ge : 2 ≤ q.count
  idx_lt : ∀ s, q.idx s < ringSize q.count
  /-- a loaded index is current: only its own side moves it -/
  loaded : ∀ s v, (q.pc s).loaded = some v → v = q.bound s
  /-- whoever has left `next` still finds the queue as `next` left it -/
  entered : ∀ s, (q.pc s).Entered → q.idx s.other ≠ q.bound s
  stored : ∀ s v, q.pc s = .store v → v = nextIndex q.count (q.idx s)
  asleep : ∀ s, q.Asleep s → q.Guarded s
  /-- a process that waits under its own mark although it need not is about to be released -/
  released : ∀ s, (q.pc s).Waits → q.wstate = s.mark → q.idx s.other ≠ q.bound s →
    q.pc s.other = .release

section

variable {q q' : Queue} {s : Side}

/-- A step of one side that leaves the indices alone: what has to be checked about its new
position and the new wait state. -/
lemma Queue.Inv.move (h : q.Inv) {p : Pc} {w : WaitState}
    (hl : ∀ v, p.loaded = some v → v = q.bound s)
    (he : p.Entered → q.idx s.other ≠ q.bound s)
    (hst : ∀ v, p = .store v → v = nextIndex q.count (q.idx s))
    (ha : ∀ v, p = .asleep v → w = s.mark)
    (ha' : q.Asleep s.other → w = s.other.mark ∨ (w = s.mark ∧ ∃ v, p = .reset v) ∨
      (w = .unblocked ∧ (p = .wake ∨ ∃ v, p = .wakeReset v)))
    (hr : p.Waits → w = s.mark → q.idx s.other ≠ q.bound s → q.pc s.other = .release)
    (hr' : (q.pc s.other).Waits → w = s.other.mark → q.idx s ≠ q.bound s.other → p = .release) :
    ((q.goto s p).setWait w).Inv where
  count_ge := h.count_ge
  idx_lt := h.idx_lt
  loaded := by
    refine (Side.forall_iff s).mpr ⟨?_, ?_⟩
    · simpa using hl
    · simpa using h.loaded s.other
  entered := by
    refine (Side.forall_iff s).mpr ⟨?_, ?_⟩
    · simpa using he
    · simpa using h.entered s.other
  stored := by
    refine (Side.forall_iff s).mpr ⟨?_, ?_⟩
    · simpa using hst
    · simpa using h.stored s.other
  asleep := by
    refine (Side.forall_iff s).mpr ⟨?_, ?_⟩
    · rintro ⟨v, hv⟩
      exact .inl (ha v (by simpa using hv))
    · rintro ⟨v, hv⟩
      simpa [Queue.Guarded] using ha' ⟨v, by simpa using hv⟩
  released := by
    refine (Side.forall_iff s).mpr ⟨?_, ?_⟩
    · simpa using hr
    · simpa using hr'

/-- The end of a wake: the side moves on to `p`, and the other one, if it was asleep, tests the
indices again. -/
lemma Queue.Inv.wakeN (h : q.Inv) {p : Pc} (hs : q.pc s ≠ .release)
    (hp : ∀ v, p.loaded = some v → v = q.bound s) (he : ¬ p.Entered) (hw : ¬ p.Waits) :
    ((q.goto s p).wakeN s.other).Inv := by
  have hother := (q.goto s p).wakeN_pc_self s.other
  simp only [goto_pc_other] at hother
  refine ⟨by simpa using h.count_ge, by simpa using h.idx_lt, ?_, ?_, ?_, ?_, ?_⟩
  · refine (Side.forall_iff s).mpr ⟨by simpa using hp, fun v hv => ?_⟩
    have := h.loaded s.other v
    rcases hother with ⟨w, h₁, h₂⟩ | ⟨_, h₂⟩ <;> simp_all [Pc.loaded]
  · refine (Side.forall_iff s).mpr ⟨by simpa using fun h => absurd h he, fun hv => ?_⟩
    have := h.entered s.other
    rcases hother with ⟨w, h₁, h₂⟩ | ⟨_, h₂⟩ <;> simp_all [Pc.Entered]
  · refine (Side.forall_iff s).mpr ⟨fun v hv => ?_, fun v hv => ?_⟩
    · simp only [wakeN_other_pc, goto_pc_self] at hv
      exact absurd (hv ▸ trivial) he
    · have := h.stored s.other v
      rcases hother with ⟨w, h₁, h₂⟩ | ⟨_, h₂⟩ <;> simp_all
  · refine (Side.forall_iff s).mpr ⟨?_, fun hv => (not_asleep_wakeN _ _ hv).elim⟩
    rintro ⟨v, hv⟩
    simp only [wakeN_other_pc, goto_pc_self] at hv
    exact absurd (hv ▸ trivial) hw
  · refine (Side.forall_iff s).mpr ⟨by simpa using fun h => absurd h hw, fun hv hm hb => ?_⟩
    rcases hother with ⟨w, h₁, h₂⟩ | ⟨_, h₂⟩
    · rw [h₂] at hv; exact hv.elim
    · rw [h₂] at hv
      exact absurd (h.released s.other hv (by simpa using hm) (by simpa using hb)) (by simpa)

/-- Publishing an advanced index does not run into the other one. -/
lemma Queue.Inv.nextIndex_ne (h : q.Inv) (hne : q.idx s.other ≠ q.bound s) :
    nextIndex q.count (q.idx s) ≠ q.bound s.other := by
  cases s with
  | writer => exact Ne.symm hne
  | reader =>
    exact fun he => hne (nextIndex_injective (h.idx_lt .writer) (h.idx_lt .reader) he.symm)

lemma Queue.Inv.store (h : q.Inv) {v : ℕ} (hpc : q.pc s = .store v) :
    ((q.goto s .release).setIdx s v).Inv := by
  have hv := h.stored s v hpc
  have hne := h.entered s (by rw [hpc]; trivial)
  refine ⟨h.count_ge, ?_, ?_, ?_, ?_, ?_, ?_⟩
  · refine (Side.forall_iff s).mpr ⟨?_, by simpa using h.idx_lt s.other⟩
    simpa [hv] using nextIndex_lt h.count_ge (h.idx_lt s)
  · exact (Side.forall_iff s).mpr ⟨by simp [Pc.loaded], by simpa using h.loaded s.other⟩
  · refine (Side.forall_iff s).mpr ⟨by simp [Pc.Entered], fun _ => ?_⟩
    simpa [hv] using h.nextIndex_ne hne
  · exact (Side.forall_iff s).mpr ⟨by simp, by simpa using h.stored s.other⟩
  · refine (Side.forall_iff s).mpr ⟨by simp [Queue.Asleep], ?_⟩
    rintro ⟨w, hw⟩
    have := h.asleep s.other ⟨w, by simpa using hw⟩
    simpa [Queue.Guarded, hpc] using this
  · exact (Side.forall_iff s).mpr ⟨by simp [Pc.Waits], by simp⟩

/-- A step of one side to a position where it carries nothing, the wait state being kept: all that
is left to check is who looks after the other side if it sleeps. -/
lemma Queue.Inv.goto (h : q.Inv) {p : Pc} (hs : q.pc s ≠ .release)
    (hr : ∀ v, q.pc s ≠ .reset v) (hw : q.pc s ≠ .wake) (hw' : ∀ v, q.pc s ≠ .wakeReset v)
    (hl : ∀ v, p.loaded = some v → v = q.bound s)
    (he : p.Entered → q.idx s.other ≠ q.bound s)
    (hst : ∀ v, p = .store v → v = nextIndex q.count (q.idx s))
    (ha : ∀ v, p = .asleep v → q.wstate = s.mark)
    (hwt : p.Waits → q.wstate = s.mark → q.idx s.other ≠ q.bound s →
      q.pc s.other = .release) : (q.goto s p).Inv := by
  have := h.move (s := s) (p := p) (w := q.wstate) hl he hst ha ?_ hwt ?_
  · rwa [← goto_wstate q s p, setWait_self] at this
  · intro hasl
    rcases h.asleep s.other hasl with hg | ⟨_, v, hg⟩ | ⟨_, hg | ⟨v, hg⟩⟩
    · exact .inl hg
    · exact absurd (by simpa using hg) (hr v)
    · exact absurd (by simpa using hg) hw
    · exact absurd (by simpa using hg) (hw' v)
  · intro h₁ h₂ h₃
    exact absurd (by simpa using h.released s.other h₁ h₂ (by simpa using h₃)) hs

lemma Queue.Inv.exchange (h : q.Inv) {v : ℕ} (hpc : q.pc s = .exchange v) :
    ((q.goto s (if q.wstate = .unblocked then .recheck v
      else if q.wstate = s.other.mark then .reset v else .test v)).setWait s.mark).Inv := by
  have hv : v = q.bound s := h.loaded s v (by rw [hpc]; rfl)
  apply h.move <;> split_ifs with h₁ h₂ <;> try simp_all [Pc.loaded, Pc.Entered, Pc.Waits]
  · -- the other side sleeps although nobody left a mark: then this side was to wake it
    intro hasl
    rcases h.asleep s.other hasl with hg | ⟨hg, _⟩ | ⟨_, hg | ⟨v, hg⟩⟩ <;> simp_all
  · intro hasl
    rcases h.asleep s.other hasl with hg | ⟨hg, v, hg'⟩ | ⟨hg, _⟩ <;> simp_all

lemma Queue.Inv.access (h : q.Inv) (hs : q.access s = some q') : q'.Inv := by
  unfold Queue.access at hs
  cases hpc : q.pc s with
  | load =>
    simp only [hpc, Option.some.injEq] at hs; subst hs
    apply h.goto <;> simp [hpc, Pc.loaded, Pc.Entered, Pc.Waits]
  | test v =>
    simp only [hpc, Option.some.injEq] at hs; subst hs
    have hv : v = q.bound s := h.loaded s v (by rw [hpc]; rfl)
    split_ifs with hi <;> apply h.goto <;> simp_all [Pc.loaded, Pc.Entered, Pc.Waits]
  | exchange v =>
    simp only [hpc, Option.some.injEq] at hs; subst hs
    exact h.exchange hpc
  | recheck v =>
    simp only [hpc, Option.some.injEq] at hs; subst hs
    have hv : v = q.bound s := h.loaded s v (by rw [hpc]; rfl)
    split_ifs with hi <;> apply h.goto <;> simp_all [Pc.loaded, Pc.Entered, Pc.Waits]
  | wait v =>
    simp only [hpc, Option.some.injEq] at hs; subst hs
    have hv : v = q.bound s := h.loaded s v (by rw [hpc]; rfl)
    have hr := h.released s (by rw [hpc]; trivial)
    split_ifs with hi <;> apply h.goto <;> simp_all [Pc.loaded, Pc.Entered, Pc.Waits]
  | asleep v => simp [hpc] at hs
  | reset v =>
    simp only [hpc, Option.some.injEq] at hs; subst hs
    have hv : v = q.bound s := h.loaded s v (by rw [hpc]; rfl)
    apply h.move <;> simp_all [Pc.loaded, Pc.Entered, Pc.Waits]
  | wakeReset v =>
    simp only [hpc, Option.some.injEq] at hs; subst hs
    have hv : v = q.bound s := h.loaded s v (by rw [hpc]; rfl)
    apply h.wakeN <;> simp_all [Pc.loaded, Pc.Entered, Pc.Waits]
  | value =>
    simp only [hpc, Option.some.injEq] at hs; subst hs
    have he := h.entered s (by rw [hpc]; trivial)
    apply h.goto <;> simp_all [Pc.loaded, Pc.Entered, Pc.Waits]
  | advance =>
    simp only [hpc, Option.some.injEq] at hs; subst hs
    have he := h.entered s (by rw [hpc]; trivial)
    apply h.goto <;> simp_all [Pc.loaded, Pc.Entered, Pc.Waits]
  | store v =>
    simp only [hpc, Option.some.injEq] at hs; subst hs
    exact h.store hpc
  | release =>
    simp only [hpc, Option.some.injEq] at hs; subst hs
    apply h.move <;> split_ifs with h₁ <;> try simp_all [Pc.loaded, Pc.Entered, Pc.Waits]
    intro hasl
    rcases h.asleep s.other hasl with hg | ⟨hg, v, hg'⟩ | ⟨hg, hg' | ⟨v, hg'⟩⟩ <;> simp_all
  | wake =>
    simp only [hpc, Option.some.injEq] at hs; subst hs
    apply h.wakeN <;> simp_all [Pc.loaded, Pc.Entered, Pc.Waits]

lemma Queue.Inv.step {e : QueueEvent} (h : q.Inv) (hs : Queue.step e q = some q') : q'.Inv := by
  cases e with
  | run s => exact h.access hs
  | interrupt s =>
    cases hpc : q.pc s <;> simp only [Queue.step, hpc, Option.some.injEq, reduceCtorEq] at hs
    rename_i v
    subst hs
    have hv : v = q.bound s := h.loaded s v (by rw [hpc]; rfl)
    apply h.goto <;> simp_all [Pc.loaded, Pc.Entered, Pc.Waits]
  | timeout =>
    cases hpc : q.pc .reader <;> simp only [Queue.step, hpc, Option.some.injEq, reduceCtorEq] at hs
    rename_i v
    subst hs
    have hv : v = q.bound .reader := h.loaded .reader v (by rw [hpc]; rfl)
    have hr := h.released .reader (by rw [hpc]; trivial)
    apply h.goto <;> simp_all [Pc.loaded, Pc.Entered, Pc.Waits]

lemma Queue.init_inv {count : ℕ} (hc : 2 ≤ count) : (Queue.init count).Inv where
  count_ge := hc
  idx_lt _ := by have := ringSize_pos hc; simp only [Queue.init]; omega
  loaded _ _ h := by simp [Queue.init, Pc.loaded] at h
  entered _ h := by simp [Queue.init, Pc.Entered] at h
  stored _ _ h := by simp [Queue.init] at h
  asleep _ h := by simp [Queue.init, Queue.Asleep] at h
  released _ h := by simp [Queue.init, Pc.Waits] at h

lemma Queue.reachable_inv {count : ℕ} (hc : 2 ≤ count)
    (h : Reachable Queue.step (Queue.init count) q) : q.Inv :=
  h.invariant (Queue.init_inv hc) fun _ _ _ hi hs => hi.step hs

/-! ### Sleeping processes -/

lemma Queue.access_wakes (hs : q.pc s = .wake ∨ ∃ v, q.pc s = .wakeReset v) :
    ∃ q', q.access s = some q' ∧ ¬ q'.Asleep s.other ∧ q'.idx = q.idx := by
  rcases hs with hs | ⟨v, hs⟩
  · exact ⟨(q.goto s .load).wakeN s.other, by simp only [Queue.access, hs],
      not_asleep_wakeN _ _, by simp⟩
  · exact ⟨(q.goto s (.test v)).wakeN s.other, by simp only [Queue.access, hs],
      not_asleep_wakeN _ _, by simp⟩

lemma Queue.wakePending_of_wakes (hs : q.pc s = .wake ∨ ∃ v, q.pc s = .wakeReset v) :
    q.WakePending s := by
  obtain ⟨q', h, hw, hi⟩ := access_wakes hs
  exact ⟨1, by decide, q', by simp [Queue.step, h], hw, hi⟩

lemma Queue.wakePending_of_access (hs : q.access s = some q') (hi : q'.idx = q.idx)
    (hw : q'.pc s = .wake ∨ ∃ v, q'.pc s = .wakeReset v) : q.WakePending s := by
  obtain ⟨q'', h, hw, hi'⟩ := access_wakes hw
  exact ⟨2, le_rfl, q'', by simp [List.replicate, Queue.step, hs, h], hw, hi'.trans hi⟩

/-- Whoever sleeps without its own mark is about to be woken. -/
lemma Queue.Inv.wakePending (h : q.Inv) (hs : q.Asleep s) (hm : q.wstate ≠ s.mark) :
    q.WakePending s.other := by
  rcases h.asleep s hs with hg | ⟨_, v, hg⟩ | ⟨_, hg⟩
  · exact absurd hg hm
  · have ha : q.access s.other = some ((q.goto s.other (.wakeReset v)).setWait .unblocked) := by
      simp only [Queue.access, hg]
    exact wakePending_of_access ha rfl (by simp)
  · exact wakePending_of_wakes hg

/-- A release wakes the other side that sleeps under its own mark. -/
lemma Queue.wakePending_of_release (hs : q.pc s.other = .release) (hm : q.wstate = s.mark) :
    q.WakePending s.other := by
  have ha : q.access s.other = some ((q.goto s.other .wake).setWait .unblocked) := by
    simp only [Queue.access, hs, Side.other_other, hm, if_true]
  exact wakePending_of_access ha rfl (by simp)

/-- A process that sleeps although it need not wait is about to be woken. -/
lemma Queue.Inv.wakePending_of_ne (h : q.Inv) (hs : q.Asleep s)
    (hne : q.idx s.other ≠ q.bound s) : q.WakePending s.other := by
  by_cases hm : q.wstate = s.mark
  · obtain ⟨v, hv⟩ := hs
    exact wakePending_of_release (h.released s (by rw [hv]; trivial) hm hne) hm
  · exact h.wakePending hs hm

lemma Queue.Inv.not_both_asleep (h : q.Inv) : ¬ (q.Asleep .writer ∧ q.Asleep .reader) := by
  rintro ⟨⟨v, hw⟩, ⟨u, hr⟩⟩
  -- each of them would have to sleep under its own mark
  have h₁ := h.asleep .writer ⟨v, hw⟩
  have h₂ := h.asleep .reader ⟨u, hr⟩
  simp only [Queue.Guarded, Side.other, hw, hr, Side.mark] at h₁ h₂
  simp_all

/-- No wake-up is lost: the two processes never sleep together, and a process that sleeps although
it could go on has a wake on its way. -/
theorem Queue.no_lost_wakeup {count : ℕ} (hc : 2 ≤ count)
    (h : Reachable Queue.step (Queue.init count) q) :
    ¬ (q.Asleep .writer ∧ q.Asleep .reader) ∧
      (q.Asleep .reader → ¬ q.Empty → q.WakePending .writer) ∧
      (q.Asleep .writer → ¬ q.Full → q.WakePending .reader) := by
  have hi := reachable_inv hc h
  refine ⟨hi.not_both_asleep, fun hs he => ?_, fun hs hf => ?_⟩
  · exact hi.wakePending_of_ne hs he
  · exact hi.wakePending_of_ne hs (Ne.symm hf)

/-- A reader that fell asleep on an empty queue, after the writer has published a value. -/
theorem Queue.no_lost_wakeup_published :
    ∃ q, Reachable Queue.step (Queue.init 2) q ∧
      q.Asleep .reader ∧ ¬ q.Empty ∧ q.WakePending .writer := by
  let es : List QueueEvent := List.replicate 5 (.run .reader) ++ List.replicate 5 (.run .writer)
  have hs : ∃ q, runEvents Queue.step es (Queue.init 2) = some q ∧ q.pc .reader = .asleep 0 ∧
      q.idx .writer ≠ q.idx .reader := ⟨_, rfl, rfl, by decide⟩
  obtain ⟨q, hr, hpc, hne⟩ := hs
  have h : Reachable Queue.step (Queue.init 2) q := Reachable.start.runEvents hr
  exact ⟨q, h, ⟨0, hpc⟩, hne, (Queue.no_lost_wakeup (by decide) h).2.1 ⟨0, hpc⟩ hne⟩

end

end Hobbes.Storage
