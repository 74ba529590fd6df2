import Hobbes.Core.Transition
import Mathlib.Data.Int.Notation
import Mathlib.Data.List.Nodup

/-!
# Event handlers

The handlers of one thread. The kernel is given a pointer to a closure with each descriptor, and returns the pointers of
the descriptors that are ready. A closure is a number, in the order in which closures are made. What a handler does is
what happens before the next handler is called.
-/

namespace Hobbes.Events

open Core

structure EventCbClosure where
  fd : ℤ
  fn : ℕ

/-- A call of a closure. -/
structure HandlerCall where
  closure : ℕ
  /-- history: whether the closure had been unregistered -/
  late : Bool
  deriving DecidableEq

structure EventLoop where
  /-- null before it is needed for the first time; it is a map with pointers to closures -/
  epClosures : Option (ℤ → Option ℕ)
  closures : List EventCbClosure
  /-- the descriptors that the kernel watches, with the pointers -/
  epoll : ℤ → Option ℕ
  /-- the events that `epoll_wait` has returned and that are left -/
  evts : List ℕ
  /-- history: every `delete` -/
  deleted : List ℕ
  unregistered : List ℕ
  calls : List HandlerCall
  /-- history: whether a descriptor was unregistered and is not registered again -/
  off : ℤ → Bool

namespace EventLoop

variable (s : EventLoop)

def init : EventLoop := ⟨none, [], fun _ => none, [], [], [], [], fun _ => false⟩

/-- The closure that the table has for a descriptor. -/
def closure? (fd : ℤ) : Option ℕ := s.epClosures.bind fun t => t fd

/-- `(*epClosures)[fd] = new eventcbclosure(fd, fn)`, where the table is made if there is none. -/
def putClosure (fd : ℤ) (fn : ℕ) : EventLoop :=
  { s with
    epClosures := some (Function.update (s.epClosures.getD fun _ => none) fd (some s.closures.length))
    closures := s.closures ++ [⟨fd, fn⟩]
    off := Function.update s.off fd false }

/-- `added` is whether the kernel accepts the descriptor, which it does not while it watches it. -/
def registerEventHandler (fd : ℤ) (fn : ℕ) (added : Bool) : Option EventLoop :=
  let c := s.closures.length
  if added then
    if (s.epoll fd).isSome then none
    else some { s.putClosure fd fn with epoll := Function.update s.epoll fd (some c) }
  else some { s.putClosure fd fn with deleted := s.deleted ++ [c] }

/-- The closure that the table has is deleted. -/
def removeClosure (fd : ℤ) (c : ℕ) : EventLoop :=
  { s with
    epoll := Function.update s.epoll fd none
    deleted := s.deleted ++ [c]
    unregistered := s.unregistered ++ [c]
    off := Function.update s.off fd true }

def unregisterEventHandler (fd : ℤ) : Option EventLoop :=
  s.epClosures.map fun t =>
    match t fd with
    | none => { s with off := Function.update s.off fd true }
    | some c => s.removeClosure fd c

/-- `epoll_wait`, in `stepEventLoop`: some of the descriptors that are watched are ready. -/
def wait (fds : List ℤ) : Option EventLoop :=
  if s.evts = [] ∧ fds.Nodup ∧ fds.length ≤ 64 ∧ ∀ fd ∈ fds, (s.epoll fd).isSome then
    some { s with evts := fds.filterMap s.epoll }
  else none

/-- The next call of `stepEventLoop`. -/
def call : Option EventLoop :=
  match s.evts with
  | [] => none
  | c :: evts => some { s with evts, calls := s.calls ++ [⟨c, c ∈ s.unregistered⟩] }

end EventLoop

inductive LoopEvent where
  | register (fd : ℤ) (fn : ℕ) (added : Bool)
  | unregister (fd : ℤ)
  /-- A descriptor is closed, which the kernel does not watch any more. -/
  | close (fd : ℤ)
  | wait (fds : List ℤ)
  | call
  /-- A handler throws, and the rest of the events is lost. -/
  | throw

def LoopEvent.step : LoopEvent → EventLoop → Option EventLoop
  | register fd fn added, s => s.registerEventHandler fd fn added
  | unregister fd, s => s.unregisterEventHandler fd
  | close fd, s => some { s with epoll := Function.update s.epoll fd none }
  | wait fds, s => s.wait fds
  | call, s => s.call
  | throw, s => some { s with evts := [] }

/-! ### What can go wrong -/

namespace EventLoop

variable {s s' : EventLoop} {e : LoopEvent} {fd : ℤ} {c : ℕ}

/-- Handlers are only called while they are registered, no closure is deleted twice, and the table does not have a
closure that was deleted for a descriptor that was unregistered. -/
structure Sound (s : EventLoop) : Prop where
  calls : ∀ h ∈ s.calls, h.late = false
  once : s.deleted.Nodup
  table : ∀ fd c, s.off fd = true → s.closure? fd = some c → c ∉ s.deleted

/-- The pointers are to closures that were made for the descriptor, and the kernel has none to one that was
unregistered. -/
structure Made (s : EventLoop) : Prop where
  table : ∀ fd c, s.closure? fd = some c → (s.closures[c]?).map EventCbClosure.fd = some fd
  epoll : ∀ fd c, s.epoll fd = some c → (s.closures[c]?).map EventCbClosure.fd = some fd ∧ c ∉ s.unregistered
  deleted : ∀ c ∈ s.deleted, c < s.closures.length
  unregistered : ∀ c ∈ s.unregistered, c < s.closures.length

lemma made_init : Made init := ⟨by simp [closure?, init], by simp [init], by simp [init], by simp [init]⟩

lemma lt_of_map_fd (h : (s.closures[c]?).map EventCbClosure.fd = some fd) : c < s.closures.length := by
  by_contra hlt
  rw [List.getElem?_eq_none (Nat.le_of_not_lt hlt)] at h
  cases h

/-- Everything that an event can do. -/
inductive Does (s : EventLoop) : LoopEvent → EventLoop → Prop where
  | added {fd : ℤ} {fn : ℕ} (hfree : s.epoll fd = none) : Does s (.register fd fn true)
      { s.putClosure fd fn with epoll := Function.update s.epoll fd (some s.closures.length) }
  | rejected {fd : ℤ} {fn : ℕ} : Does s (.register fd fn false)
      { s.putClosure fd fn with deleted := s.deleted ++ [s.closures.length] }
  | absent {fd : ℤ} (hfd : s.closure? fd = none) :
      Does s (.unregister fd) { s with off := Function.update s.off fd true }
  | removed {fd : ℤ} {c : ℕ} (hfd : s.closure? fd = some c) : Does s (.unregister fd) (s.removeClosure fd c)
  | closed {fd : ℤ} : Does s (.close fd) { s with epoll := Function.update s.epoll fd none }
  | waited {fds : List ℤ} : Does s (.wait fds) { s with evts := fds.filterMap s.epoll }
  | called {c : ℕ} {evts : List ℕ} (hevts : s.evts = c :: evts) :
      Does s .call { s with evts, calls := s.calls ++ [⟨c, c ∈ s.unregistered⟩] }
  | thrown : Does s .throw { s with evts := [] }

lemma does_of_step (hs : e.step s = some s') : s.Does e s' := by
  cases e with
  | register fd fn added =>
    simp only [LoopEvent.step, registerEventHandler] at hs
    split_ifs at hs with hadded hin
    · obtain rfl := Option.some.inj hs
      rw [hadded]
      exact .added (by simpa using hin)
    · obtain rfl := Option.some.inj hs
      rw [Bool.not_eq_true] at hadded
      rw [hadded]
      exact .rejected
  | unregister fd =>
    obtain ⟨t, ht, rfl⟩ := Option.map_eq_some_iff.1 hs
    cases hfd : t fd with
    | none => exact .absent (by rw [closure?, ht, Option.bind_some, hfd])
    | some c => exact .removed (by rw [closure?, ht, Option.bind_some, hfd])
  | close fd =>
    obtain rfl := Option.some.inj hs
    exact .closed
  | wait fds =>
    rw [LoopEvent.step, wait] at hs
    split_ifs at hs
    obtain rfl := Option.some.inj hs
    exact .waited
  | call =>
    rw [LoopEvent.step, call] at hs
    split at hs
    · cases hs
    · next c evts hevts =>
      obtain rfl := Option.some.inj hs
      exact .called hevts
  | throw =>
    obtain rfl := Option.some.inj hs
    exact .thrown

lemma closure?_putClosure (fd fd' : ℤ) (fn : ℕ) :
    (s.putClosure fd fn).closure? fd' = if fd' = fd then some s.closures.length else s.closure? fd' := by
  rw [closure?, putClosure, Option.bind_some, Function.update_apply, closure?]
  cases s.epClosures <;> rfl

/-- A closure keeps its descriptor when another one is made. -/
lemma map_fd_putClosure (fn : ℕ) {fd' : ℤ} (h : (s.closures[c]?).map EventCbClosure.fd = some fd') :
    ((s.putClosure fd fn).closures[c]?).map EventCbClosure.fd = some fd' := by
  rw [putClosure, List.getElem?_append_left (lt_of_map_fd h), h]

lemma map_fd_putClosure_self (fn : ℕ) :
    ((s.putClosure fd fn).closures[s.closures.length]?).map EventCbClosure.fd = some fd := by
  simp [putClosure]

lemma Made.putClosure (h : s.Made) (fd : ℤ) (fn : ℕ) : (s.putClosure fd fn).Made := by
  have hlength : (s.putClosure fd fn).closures.length = s.closures.length + 1 := List.length_append
  refine ⟨fun fd' c hc => ?_, fun fd' c hc => ⟨map_fd_putClosure fn (h.epoll fd' c hc).1, (h.epoll fd' c hc).2⟩,
    fun c hc => ?_, fun c hc => ?_⟩
  · rw [closure?_putClosure] at hc
    split_ifs at hc with hfd
    · obtain rfl := Option.some.inj hc
      rw [hfd]
      exact map_fd_putClosure_self fn
    · exact map_fd_putClosure fn (h.table fd' c hc)
  · rw [hlength]
    exact Nat.lt_succ_of_lt (h.deleted c hc)
  · rw [hlength]
    exact Nat.lt_succ_of_lt (h.unregistered c hc)

lemma Made.step (h : s.Made) (hs : e.step s = some s') : s'.Made := by
  have hlength : ∀ fd fn, (s.putClosure fd fn).closures.length = s.closures.length + 1 := fun _ _ => List.length_append
  cases does_of_step hs with
  | @added fd fn hfree =>
    refine ⟨(h.putClosure fd fn).table, fun fd' c hc => ?_, (h.putClosure fd fn).deleted,
      (h.putClosure fd fn).unregistered⟩
    change Function.update s.epoll fd (some s.closures.length) fd' = some c at hc
    rw [Function.update_apply] at hc
    split_ifs at hc with hfd
    · obtain rfl := Option.some.inj hc
      rw [hfd]
      exact ⟨map_fd_putClosure_self fn, fun hmem => Nat.lt_irrefl _ (h.unregistered _ hmem)⟩
    · exact (h.putClosure fd fn).epoll fd' c hc
  | @rejected fd fn =>
    refine ⟨(h.putClosure fd fn).table, (h.putClosure fd fn).epoll, fun c hc => ?_, (h.putClosure fd fn).unregistered⟩
    obtain hc | hc := List.mem_append.1 hc
    · exact (h.putClosure fd fn).deleted c hc
    · rw [List.mem_singleton] at hc
      subst hc
      exact Nat.lt_of_lt_of_eq (Nat.lt_succ_self s.closures.length) (hlength fd fn).symm
  | absent => exact ⟨h.table, h.epoll, h.deleted, h.unregistered⟩
  | @removed fd c hfd =>
    have hlt := lt_of_map_fd (h.table fd c hfd)
    refine ⟨h.table, fun fd' c' hc' => ?_, fun c' hc' => ?_, fun c' hc' => ?_⟩
    · change Function.update s.epoll fd none fd' = some c' at hc'
      rw [Function.update_apply] at hc'
      split_ifs at hc' with hfd'
      obtain ⟨hmade, hregistered⟩ := h.epoll fd' c' hc'
      refine ⟨hmade, fun hmem => ?_⟩
      obtain hmem | hmem := List.mem_append.1 hmem
      · exact hregistered hmem
      · rw [List.mem_singleton] at hmem
        rw [hmem, h.table fd c hfd] at hmade
        exact hfd' (Option.some.inj hmade).symm
    · obtain hc' | hc' := List.mem_append.1 hc'
      · exact h.deleted c' hc'
      · rw [List.mem_singleton] at hc'
        exact hc' ▸ hlt
    · obtain hc' | hc' := List.mem_append.1 hc'
      · exact h.unregistered c' hc'
      · rw [List.mem_singleton] at hc'
        exact hc' ▸ hlt
  | @closed fd =>
    refine ⟨h.table, fun fd' c hc => ?_, h.deleted, h.unregistered⟩
    change Function.update s.epoll fd none fd' = some c at hc
    rw [Function.update_apply] at hc
    split_ifs at hc
    exact h.epoll fd' c hc
  | waited => exact ⟨h.table, h.epoll, h.deleted, h.unregistered⟩
  | called => exact ⟨h.table, h.epoll, h.deleted, h.unregistered⟩
  | thrown => exact ⟨h.table, h.epoll, h.deleted, h.unregistered⟩

end EventLoop

/-! ### Runs -/

/-- A descriptor is only unregistered if the table has no closure for it. -/
def LoopEvent.Absent : LoopEvent → EventLoop → Prop
  | unregister fd, s => s.closure? fd = none
  | _, _ => True

/-- A descriptor is only unregistered if its closure was not deleted before. -/
def LoopEvent.Undeleted : LoopEvent → EventLoop → Prop
  | unregister fd, s => ∀ c ∈ s.closure? fd, c ∉ s.deleted
  | _, _ => True

/-- A descriptor is only unregistered if no event is left for its closure. -/
def LoopEvent.Idle : LoopEvent → EventLoop → Prop
  | unregister fd, s => ∀ c ∈ s.closure? fd, c ∉ s.evts
  | _, _ => True

instance (e : LoopEvent) (s : EventLoop) : Decidable (e.Absent s) :=
  match e with
  | .unregister fd => inferInstanceAs (Decidable (s.closure? fd = none))
  | .register .. | .close _ | .wait _ | .call | .throw => .isTrue trivial

instance (e : LoopEvent) (s : EventLoop) : Decidable (e.Idle s) :=
  match e with
  | .unregister fd => inferInstanceAs (Decidable (∀ c ∈ s.closure? fd, c ∉ s.evts))
  | .register .. | .close _ | .wait _ | .call | .throw => .isTrue trivial

namespace EventLoop

variable {s s' : EventLoop} {e : LoopEvent} {fd : ℤ} {c : ℕ}

lemma Made.of_reachable (h : Reachable LoopEvent.step init s) : s.Made :=
  h.invariant made_init fun _ _ _ h hs => h.step hs

/-- No closure is deleted twice as long as none that was deleted is unregistered. -/
theorem deleted_nodup_iff (h : Reachable LoopEvent.step init s) (hnodup : s.deleted.Nodup) (hs : e.step s = some s') :
    s'.deleted.Nodup ↔ e.Undeleted s := by
  have hmade := Made.of_reachable h
  cases does_of_step hs with
  | rejected =>
    refine iff_of_true (List.nodup_append.2 ⟨hnodup, List.nodup_singleton _, fun a ha b hb => ?_⟩) trivial
    rw [List.mem_singleton] at hb
    exact hb ▸ Nat.ne_of_lt (hmade.deleted a ha)
  | @absent fd hfd => exact iff_of_true hnodup fun c hc => by simp [hfd] at hc
  | @removed fd c hfd =>
    change (s.deleted ++ [c]).Nodup ↔ ∀ c ∈ s.closure? fd, c ∉ s.deleted
    rw [hfd, List.nodup_append]
    refine ⟨fun hnodup' c' hc' hmem => hnodup'.2.2 c' hmem c (List.mem_singleton.2 rfl) (Option.some.inj hc').symm,
      fun hnot => ⟨hnodup, List.nodup_singleton _, fun a ha b hb heq => ?_⟩⟩
    rw [List.mem_singleton] at hb
    exact hnot c rfl (hb ▸ heq ▸ ha)
  | added => exact iff_of_true hnodup trivial
  | closed => exact iff_of_true hnodup trivial
  | waited => exact iff_of_true hnodup trivial
  | called => exact iff_of_true hnodup trivial
  | thrown => exact iff_of_true hnodup trivial

/-- The closures of the events that are left are registered. -/
structure Pending (s : EventLoop) : Prop where
  made : s.Made
  evts : ∀ c ∈ s.evts, c ∉ s.unregistered
  calls : ∀ h ∈ s.calls, h.late = false

lemma Pending.step (h : s.Pending) (hidle : e.Idle s) (hs : e.step s = some s') : s'.Pending := by
  have hmade := h.made.step hs
  cases does_of_step hs with
  | @removed fd c hfd =>
    refine ⟨hmade, fun c' hc' hmem => ?_, h.calls⟩
    obtain hmem | hmem := List.mem_append.1 hmem
    · exact h.evts c' hc' hmem
    · rw [List.mem_singleton] at hmem
      exact hidle c hfd (hmem ▸ hc')
  | @waited fds =>
    refine ⟨hmade, fun c hc => ?_, h.calls⟩
    obtain ⟨fd, -, hfd⟩ := List.mem_filterMap.1 hc
    exact (h.made.epoll fd c hfd).2
  | @called c evts hevts =>
    refine ⟨hmade, fun c' hc' => h.evts c' (hevts ▸ List.mem_cons_of_mem c hc'), fun x hx => ?_⟩
    obtain hx | hx := List.mem_append.1 hx
    · exact h.calls x hx
    · rw [List.mem_singleton] at hx
      rw [hx]
      exact decide_eq_false (h.evts c (hevts ▸ List.mem_cons_self))
  | thrown => exact ⟨hmade, by simp, h.calls⟩
  | added => exact ⟨hmade, h.evts, h.calls⟩
  | rejected => exact ⟨hmade, h.evts, h.calls⟩
  | absent => exact ⟨hmade, h.evts, h.calls⟩
  | closed => exact ⟨hmade, h.evts, h.calls⟩

/-- As long as no event is left for a closure that is unregistered, handlers are only called while they are
registered. -/
theorem calls_registered (h : Reachable (guarded LoopEvent.Idle LoopEvent.step) init s) :
    ∀ x ∈ s.calls, x.late = false := by
  have hpending : s.Pending := by
    refine h.invariant ⟨made_init, by simp [init], by simp [init]⟩ fun e s s' h hs => ?_
    obtain ⟨hidle, hs⟩ := guarded_eq_some.1 hs
    exact h.step hidle hs
  exact hpending.calls

/-- No closure was unregistered. -/
structure Untouched (s : EventLoop) : Prop where
  made : s.Made
  unregistered : s.unregistered = []
  calls : ∀ h ∈ s.calls, h.late = false
  once : s.deleted.Nodup
  off : ∀ fd, s.off fd = true → s.closure? fd = none

lemma Untouched.sound (h : s.Untouched) : s.Sound :=
  ⟨h.calls, h.once, fun fd c hoff hc => by rw [h.off fd hoff] at hc; cases hc⟩

lemma Untouched.step (h : s.Untouched) (habsent : e.Absent s) (hs : e.step s = some s') : s'.Untouched := by
  have hput : ∀ fd fn fd', (s.putClosure fd fn).off fd' = true → (s.putClosure fd fn).closure? fd' = none := by
    intro fd fn fd' hoff
    change Function.update s.off fd false fd' = true at hoff
    rw [Function.update_apply] at hoff
    split_ifs at hoff with hfd
    rw [closure?_putClosure, if_neg hfd]
    exact h.off fd' hoff
  have hmade := h.made.step hs
  cases does_of_step hs with
  | @added fd fn => exact ⟨hmade, h.unregistered, h.calls, h.once, hput fd fn⟩
  | @rejected fd fn =>
    refine ⟨hmade, h.unregistered, h.calls, List.nodup_append.2 ⟨h.once, List.nodup_singleton _, fun a ha b hb => ?_⟩,
      hput fd fn⟩
    rw [List.mem_singleton] at hb
    exact hb ▸ Nat.ne_of_lt (h.made.deleted a ha)
  | @absent fd hfd =>
    refine ⟨hmade, h.unregistered, h.calls, h.once, fun fd' hoff => ?_⟩
    change Function.update s.off fd true fd' = true at hoff
    rw [Function.update_apply] at hoff
    split_ifs at hoff with hfd'
    · rw [hfd']
      exact hfd
    · exact h.off fd' hoff
  | @removed fd c hfd =>
    change s.closure? fd = none at habsent
    rw [hfd] at habsent
    cases habsent
  | closed => exact ⟨hmade, h.unregistered, h.calls, h.once, h.off⟩
  | waited => exact ⟨hmade, h.unregistered, h.calls, h.once, h.off⟩
  | @called c evts hevts =>
    refine ⟨hmade, h.unregistered, fun x hx => ?_, h.once, h.off⟩
    obtain hx | hx := List.mem_append.1 hx
    · exact h.calls x hx
    · rw [List.mem_singleton] at hx
      simp [hx, h.unregistered]
  | thrown => exact ⟨hmade, h.unregistered, h.calls, h.once, h.off⟩

/-- The table keeps the closure that is unregistered. -/
lemma not_sound_removeClosure (hfd : s.closure? fd = some c) : ¬ (s.removeClosure fd c).Sound := by
  intro h
  refine h.table fd c (Function.update_self ..) hfd ?_
  exact List.mem_append_right _ (List.mem_singleton.2 rfl)

/-- As long as no descriptor is unregistered that the table has a closure for, nothing goes wrong, and when one is
something does. -/
theorem sound_iff {es : List LoopEvent} (hs : runEvents (guarded LoopEvent.Absent LoopEvent.step) es init = some s) :
    s.Sound ∧ ∀ e s', LoopEvent.step e s = some s' → (s'.Sound ↔ e.Absent s) := by
  have h : s.Untouched := by
    refine (Reachable.start.runEvents hs).invariant ⟨made_init, rfl, by simp [init], List.nodup_nil, by simp [init]⟩
      fun e s s' h hs => ?_
    obtain ⟨habsent, hs⟩ := guarded_eq_some.1 hs
    exact h.step habsent hs
  refine ⟨h.sound, fun e s' hstep => ⟨fun hsound => ?_, fun habsent => (h.step habsent hstep).sound⟩⟩
  cases does_of_step hstep with
  | absent hfd => exact hfd
  | removed hfd => exact absurd hsound (not_sound_removeClosure hfd)
  | added => trivial
  | rejected => trivial
  | closed => trivial
  | waited => trivial
  | called => trivial
  | thrown => trivial

/-- Two handlers, one of which closes the other's descriptor, and a descriptor that was never registered. -/
theorem sound_iff_two :
    ∃ s, runEvents (guarded LoopEvent.Absent LoopEvent.step)
        [.register 3 0 true, .register 4 1 true, .wait [3, 4], .call, .close 4, .unregister 5, .call] init = some s ∧
      s.Sound ∧ ∀ e s', LoopEvent.step e s = some s' → (s'.Sound ↔ e.Absent s) := by
  have hrun : (runEvents (guarded LoopEvent.Absent LoopEvent.step)
      [.register 3 0 true, .register 4 1 true, .wait [3, 4], .call, .close 4, .unregister 5, .call] init).isSome := by
    decide
  obtain ⟨s, hs⟩ := Option.isSome_iff_exists.1 hrun
  exact ⟨s, hs, sound_iff hs⟩

/-- A handler unregisters the descriptor whose event comes next, whose closure is called after that. -/
theorem not_sound : ¬ ∀ (es : List LoopEvent) (s : EventLoop), runEvents LoopEvent.step es init = some s → s.Sound := by
  intro h
  have hrun : ∃ s, runEvents LoopEvent.step
      [.register 3 0 true, .register 4 1 true, .wait [3, 4], .call, .unregister 4, .call] init = some s ∧
        ⟨1, true⟩ ∈ s.calls := ⟨_, rfl, by decide⟩
  obtain ⟨s, hs, hcall⟩ := hrun
  exact absurd ((h _ s hs).calls _ hcall) (by decide)

end EventLoop

end Hobbes.Events
