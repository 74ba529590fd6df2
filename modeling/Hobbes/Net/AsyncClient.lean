import Mathlib.Logic.Function.Basic
import Hobbes.Core.Transition
import Hobbes.Net.AccumTypes

/-!
# Clients with callbacks

The objects of a class that `DEFINE_ASYNC_NET_CLIENT` defines, together with a server that answers the
requests of each connection in order. The outstanding requests are in a queue of the client, and their
callbacks are in queues of its functions.
-/

namespace Hobbes.Net

open Core Machine

-- The functions `F` of a client that return something. The result of `f` has the type `ty f`.
variable {F : Type} [DecidableEq F] {ty : F → Ty} {less : (t : Ty) → t.Val → t.Val → Bool}

/-- A callback is the number of the call that it was passed with. -/
structure AsyncRPCFunc {α : Type} (io : Io α) where
  ks : List ℕ
  r : α
  pr : io.State

/-- A request, with the connection it is sent on and the reply that the server has for it. -/
structure Request (ty : F → Ty) where
  conn : ℕ
  func : F
  reply : (ty func).Val

/-- `stream` has the replies that are not received yet, whether they are delivered or not. The calls and
the invocations of callbacks are recorded in the order they are made. -/
structure AsyncClient (ty : F → Ty) (less : (t : Ty) → t.Val → t.Val → Bool) where
  asyncReaders : List F
  funcs : (f : F) → AsyncRPCFunc ((ty f).io less)
  conn : ℕ
  stream : Bytes
  calls : List (Request ty)
  invoked : List (ℕ × Request ty)

/-- What is offered to the receives of a step depends on how many readers are left. -/
inductive ClientEvent (ty : F → Ty) (less : (t : Ty) → t.Val → t.Val → Bool) where
  | call (f : F) (v : { v : (ty f).Val // ((ty f).io less).Valid v })
  | step (offers : ℕ → ℕ)
  | reconnect

namespace AsyncClient

def init : AsyncClient ty less where
  asyncReaders := []
  funcs f := ⟨[], ((ty f).io less).dflt, ((ty f).io less).prepare ((ty f).io less).initState⟩
  conn := 0
  stream := []
  calls := []
  invoked := []

/-- `operator()` -/
def call (f : F) (v : (ty f).Val) (c : AsyncClient ty less) : AsyncClient ty less :=
  { c with
    asyncReaders := c.asyncReaders ++ [f]
    funcs := Function.update c.funcs f { c.funcs f with ks := (c.funcs f).ks ++ [c.calls.length] }
    stream := c.stream ++ ((ty f).io less).write v
    calls := c.calls ++ [⟨c.conn, f, v⟩] }

/-- A finished function without a callback has no meaning. -/
def readAndFinish (f : F) (k : ℕ) (c : AsyncClient ty less) : Option (Bool × AsyncClient ty less) := do
  let io := (ty f).io less
  let o := c.funcs f
  let (done, (pr, r), stream) ← io.accum (o.pr, o.r) k c.stream
  if done then
    match o.ks with
    | [] => none
    | i :: ks => some (true, { c with
        funcs := Function.update c.funcs f ⟨ks, io.dflt, io.prepare pr⟩
        stream
        invoked := c.invoked ++ [(i, ⟨c.conn, f, r⟩)] })
  else some (false, { c with funcs := Function.update c.funcs f { o with r, pr }, stream })

def stepReaders (offers : ℕ → ℕ) : List F → AsyncClient ty less → Option (AsyncClient ty less)
  | [], c => some c
  | f :: fs, c => do
    let (done, c) ← c.readAndFinish f (offers fs.length)
    if done then stepReaders offers fs { c with asyncReaders := fs } else some c

def step (offers : ℕ → ℕ) (c : AsyncClient ty less) : Option (AsyncClient ty less) :=
  stepReaders offers c.asyncReaders c

/-- The old connection is closed, with what is left of its replies. -/
def reconnect (c : AsyncClient ty less) : AsyncClient ty less :=
  { c with asyncReaders := [], conn := c.conn + 1, stream := [] }

def act : ClientEvent ty less → AsyncClient ty less → Option (AsyncClient ty less)
  | .call f v, c => some (c.call f v.1)
  | .step offers, c => c.step offers
  | .reconnect, c => some c.reconnect

/-- Every callback was invoked on the connection of its request with the reply to its request, in the order of
the requests and never twice. -/
structure Matched (c : AsyncClient ty less) : Prop where
  own : ∀ i ∈ c.invoked, c.calls[i.1]? = some i.2
  order : (c.invoked.map Prod.fst).Pairwise (· < ·)

end AsyncClient

/-- No callback of the function is left from a connection that was closed, and its result is read right. -/
def ClientEvent.Careful : ClientEvent ty less → AsyncClient ty less → Prop
  | .call f _, c => (c.funcs f).ks.length = c.asyncReaders.count f ∧ (ty f).flat
  | _, _ => True

instance ClientEvent.decidableCareful : (e : ClientEvent ty less) → (c : AsyncClient ty less) →
    Decidable (e.Careful c)
  | .call f _, c =>
    inferInstanceAs (Decidable ((c.funcs f).ks.length = c.asyncReaders.count f ∧ (ty f).flat = true))
  | .step _, _ => inferInstanceAs (Decidable True)
  | .reconnect, _ => inferInstanceAs (Decidable True)

namespace AsyncClient

variable {c : AsyncClient ty less} {pending : List (ℕ × Request ty)}

def replyBytes (less : (t : Ty) → t.Val → t.Val → Bool) (p : ℕ × Request ty) : Bytes :=
  ((ty p.2.func).io less).write p.2.reply

def pendingReaders (pending : List (ℕ × Request ty)) : List F := pending.map fun p => p.2.func

/-- The callbacks of the requests for a function. -/
def pendingCallbacks (pending : List (ℕ × Request ty)) (f : F) : List ℕ :=
  (pending.filter fun p => p.2.func = f).map Prod.fst

omit [DecidableEq F] in
lemma func_mem_pendingReaders {p : ℕ × Request ty} (hp : p ∈ pending) :
    p.2.func ∈ pendingReaders pending :=
  List.mem_map_of_mem hp

omit [DecidableEq F] in
lemma pendingReaders_append (ps : List (ℕ × Request ty)) (i : ℕ) (q : Request ty) :
    pendingReaders (ps ++ [(i, q)]) = pendingReaders ps ++ [q.func] := by
  simp [pendingReaders]

lemma pendingCallbacks_append_self (ps : List (ℕ × Request ty)) (i : ℕ) (q : Request ty) :
    pendingCallbacks (ps ++ [(i, q)]) q.func = pendingCallbacks ps q.func ++ [i] := by
  simp [pendingCallbacks]

lemma pendingCallbacks_append_of_ne (ps : List (ℕ × Request ty)) (i : ℕ) {q : Request ty} {f : F}
    (hf : q.func ≠ f) : pendingCallbacks (ps ++ [(i, q)]) f = pendingCallbacks ps f := by
  simp [pendingCallbacks, hf]

lemma pendingCallbacks_cons_self (p : ℕ × Request ty) (ps : List (ℕ × Request ty)) :
    pendingCallbacks (p :: ps) p.2.func = p.1 :: pendingCallbacks ps p.2.func := by
  simp [pendingCallbacks]

lemma pendingCallbacks_cons_of_ne {p : ℕ × Request ty} (ps : List (ℕ × Request ty)) {f : F}
    (hf : p.2.func ≠ f) : pendingCallbacks (p :: ps) f = pendingCallbacks ps f := by
  simp [pendingCallbacks, hf]

lemma pendingCallbacks_eq_nil {f : F} : pendingCallbacks pending f = [] ↔ ∀ p ∈ pending, p.2.func ≠ f := by
  simp [pendingCallbacks, List.filter_eq_nil_iff]

/-- Nothing of a result has been read. -/
def Ready (c : AsyncClient ty less) (f : F) : Prop :=
  (c.funcs f).r = ((ty f).io less).dflt ∧ ∃ o, (c.funcs f).pr = ((ty f).io less).prepare o

/-- The first request is being answered, and the replies to the others come behind it. -/
def Reading (c : AsyncClient ty less) : List (ℕ × Request ty) → Prop
  | [] => c.stream = []
  | p :: ps => ∃ bs o, ((ty p.2.func).io less).accum.Proceeds
      ((c.funcs p.2.func).pr, (c.funcs p.2.func).r) bs (o, p.2.reply) ∧
      c.stream = bs ++ ps.flatMap (replyBytes less)

/-- `pending` are the requests of the connection that are not answered. A function that none of them is for
may have callbacks that were left from an earlier connection. -/
structure Inv (c : AsyncClient ty less) (pending : List (ℕ × Request ty)) : Prop where
  own : ∀ i ∈ c.invoked, c.calls[i.1]? = some i.2
  order : (c.invoked.map Prod.fst ++ pending.map Prod.fst).Pairwise (· < ·)
  readers : c.asyncReaders = pendingReaders pending
  calls : ∀ p ∈ pending, c.calls[p.1]? = some p.2
  conn : ∀ p ∈ pending, p.2.conn = c.conn
  sound : ∀ p ∈ pending, ((ty p.2.func).io less).Valid p.2.reply ∧ (ty p.2.func).flat
  callbacks : ∀ f ∈ c.asyncReaders, (c.funcs f).ks = pendingCallbacks pending f
  reading : c.Reading pending
  ready : ∀ f, (∀ p ∈ pending.head?, p.2.func ≠ f) → (f ∈ c.asyncReaders ∨ (c.funcs f).ks = []) → c.Ready f

lemma Inv.matched (h : c.Inv pending) : c.Matched :=
  ⟨h.own, (List.pairwise_append.mp h.order).1⟩

lemma init_inv : (init : AsyncClient ty less).Inv [] where
  own := by simp [init]
  order := by simp [init]
  readers := rfl
  calls := by simp
  conn := by simp
  sound := by simp
  callbacks := by simp [init]
  reading := rfl
  ready _ _ _ := ⟨rfl, _, rfl⟩

lemma Inv.lt_length_calls (h : c.Inv pending) {i : ℕ}
    (hi : i ∈ c.invoked.map Prod.fst ++ pending.map Prod.fst) : i < c.calls.length := by
  rw [List.mem_append, List.mem_map, List.mem_map] at hi
  obtain ⟨p, hp, rfl⟩ | ⟨p, hp, rfl⟩ := hi
  · exact (List.getElem?_eq_some_iff.mp (h.own p hp)).1
  · exact (List.getElem?_eq_some_iff.mp (h.calls p hp)).1

omit [DecidableEq F] in
/-- The reply to a request that is ready is read. -/
lemma Ready.proceeds {f : F} (h : c.Ready f) {v : (ty f).Val} (hv : ((ty f).io less).Valid v)
    (hflat : (ty f).flat) :
    ∃ o, ((ty f).io less).accum.Proceeds ((c.funcs f).pr, (c.funcs f).r) (((ty f).io less).write v)
      (o, v) := by
  obtain ⟨hr, o, hpr⟩ := h
  have hproc := ((ty f).resumes less).proceeds o ((ty f).io less).dflt v hv
  rw [← Prod.eta (((ty f).resumes less).result o ((ty f).io less).dflt v),
    ((ty f).renews_overwrites less hflat).1 o v hv] at hproc
  rw [hr, hpr]
  exact ⟨_, hproc⟩

/-! ### Reconnecting -/

lemma Inv.reconnect (h : c.Inv pending) : c.reconnect.Inv [] where
  own := h.own
  order := by
    rw [List.map_nil, List.append_nil]
    exact h.matched.order
  readers := rfl
  calls := by simp
  conn := by simp
  sound := by simp
  callbacks := by simp [AsyncClient.reconnect]
  reading := rfl
  ready f _ hf := by
    have hks : (c.funcs f).ks = [] := hf.resolve_left List.not_mem_nil
    refine h.ready f (fun p hp hpf => ?_) (.inr hks)
    -- the function of the first request has a callback
    have hmem : p ∈ pending := List.mem_of_mem_head? hp
    have hreader : f ∈ c.asyncReaders := by
      rw [h.readers, ← hpf]
      exact func_mem_pendingReaders hmem
    exact pendingCallbacks_eq_nil.mp ((h.callbacks f hreader).symm.trans hks) p hmem hpf

/-! ### Calls -/

lemma call_funcs_of_ne {f g : F} (hg : g ≠ f) (v : (ty f).Val) : (c.call f v).funcs g = c.funcs g :=
  Function.update_of_ne hg _ _

lemma call_funcs_self (f : F) (v : (ty f).Val) :
    (c.call f v).funcs f = { c.funcs f with ks := (c.funcs f).ks ++ [c.calls.length] } :=
  Function.update_self _ _ _

lemma call_r (f g : F) (v : (ty f).Val) : ((c.call f v).funcs g).r = (c.funcs g).r := by
  by_cases hg : g = f
  · subst hg
    rw [call_funcs_self]
  · rw [call_funcs_of_ne hg]

lemma call_pr (f g : F) (v : (ty f).Val) : ((c.call f v).funcs g).pr = (c.funcs g).pr := by
  by_cases hg : g = f
  · subst hg
    rw [call_funcs_self]
  · rw [call_funcs_of_ne hg]

/-- A function without callbacks that were left has those of its outstanding requests. -/
lemma Inv.callbacks_of_careful (h : c.Inv pending) {f : F}
    (hf : (c.funcs f).ks.length = c.asyncReaders.count f) :
    (c.funcs f).ks = pendingCallbacks pending f := by
  by_cases hreader : f ∈ c.asyncReaders
  · exact h.callbacks f hreader
  · rw [List.count_eq_zero_of_not_mem hreader, List.length_eq_zero_iff] at hf
    rw [hf, eq_comm, pendingCallbacks_eq_nil]
    rintro p hp rfl
    rw [h.readers] at hreader
    exact hreader (func_mem_pendingReaders hp)

lemma Inv.call (h : c.Inv pending) {f : F} {v : (ty f).Val} (hv : ((ty f).io less).Valid v)
    (hf : (c.funcs f).ks.length = c.asyncReaders.count f) (hflat : (ty f).flat) :
    (c.call f v).Inv (pending ++ [(c.calls.length, ⟨c.conn, f, v⟩)]) where
  own i hi := by
    have hlt := h.lt_length_calls (List.mem_append_left _ (List.mem_map_of_mem hi))
    exact (List.getElem?_append_left hlt).trans (h.own i hi)
  order := by
    rw [List.map_append, ← List.append_assoc]
    refine List.pairwise_append.mpr ⟨h.order, List.pairwise_singleton _ _, fun i hi j hj => ?_⟩
    rw [List.map_singleton, List.mem_singleton] at hj
    exact hj ▸ h.lt_length_calls hi
  readers := by
    rw [pendingReaders_append, ← h.readers]
    rfl
  calls p hp := by
    rcases List.mem_append.mp hp with hp | hp
    · have hlt := h.lt_length_calls (List.mem_append_right _ (List.mem_map_of_mem hp))
      exact (List.getElem?_append_left hlt).trans (h.calls p hp)
    · rw [List.mem_singleton.mp hp]
      simp [AsyncClient.call]
  conn p hp := by
    rcases List.mem_append.mp hp with hp | hp
    · exact h.conn p hp
    · rw [List.mem_singleton.mp hp]
      rfl
  sound p hp := by
    rcases List.mem_append.mp hp with hp | hp
    · exact h.sound p hp
    · rw [List.mem_singleton.mp hp]
      exact ⟨hv, hflat⟩
  callbacks g hg := by
    by_cases hgf : g = f
    · subst hgf
      rw [call_funcs_self, h.callbacks_of_careful hf, pendingCallbacks_append_self]
    · have hreader : g ∈ c.asyncReaders :=
        (List.mem_append.mp hg).resolve_right fun hg => hgf (List.mem_singleton.mp hg)
      rw [call_funcs_of_ne hgf, h.callbacks g hreader, pendingCallbacks_append_of_ne _ _ (Ne.symm hgf)]
  reading := by
    cases pending with
    | nil =>
      have hks : (c.funcs f).ks = [] := h.callbacks_of_careful hf
      obtain ⟨o, hproc⟩ := (h.ready f (by simp) (.inr hks)).proceeds hv hflat
      refine ⟨((ty f).io less).write v, o, ?_, ?_⟩
      · rw [call_r, call_pr]
        exact hproc
      · have hstream : c.stream = [] := h.reading
        simp [AsyncClient.call, hstream]
    | cons p ps =>
      obtain ⟨bs, o, hproc, hstream⟩ := h.reading
      refine ⟨bs, o, ?_, ?_⟩
      · rw [call_r, call_pr]
        exact hproc
      · simp [AsyncClient.call, hstream, replyBytes]
  ready g hhead hg := by
    have hready : c.Ready g := by
      refine h.ready g (fun p hp => hhead p ?_) ?_
      · rw [List.head?_append, hp]
        rfl
      · by_cases hgf : g = f
        · subst hgf
          by_cases hreader : g ∈ c.asyncReaders
          · exact .inl hreader
          · rw [List.count_eq_zero_of_not_mem hreader, List.length_eq_zero_iff] at hf
            exact .inr hf
        · rw [call_funcs_of_ne hgf] at hg
          refine hg.imp_left fun hg => ?_
          exact (List.mem_append.mp hg).resolve_right fun hg => hgf (List.mem_singleton.mp hg)
    obtain ⟨hr, o, hpr⟩ := hready
    exact ⟨(call_r f g v).trans hr, o, (call_pr f g v).trans hpr⟩

/-! ### Steps -/

/-- More of the first reply was read. -/
lemma Inv.read {p : ℕ × Request ty} (h : c.Inv (p :: pending)) {o pr : ((ty p.2.func).io less).State}
    {r : (ty p.2.func).Val} {bs : Bytes}
    (hproc : ((ty p.2.func).io less).accum.Proceeds (pr, r) bs (o, p.2.reply)) :
    ({ c with
      funcs := Function.update c.funcs p.2.func { c.funcs p.2.func with r, pr }
      stream := bs ++ pending.flatMap (replyBytes less) } : AsyncClient ty less).Inv (p :: pending) where
  own := h.own
  order := h.order
  readers := h.readers
  calls := h.calls
  conn := h.conn
  sound := h.sound
  callbacks g hg := by
    rw [← h.callbacks g hg]
    by_cases hgf : g = p.2.func
    · subst hgf
      simp only [Function.update_self]
    · simp only [Function.update_of_ne hgf]
  reading := ⟨bs, o, by simpa only [Function.update_self] using hproc, rfl⟩
  ready g hhead hg := by
    have hgf : g ≠ p.2.func := fun hgf => hhead p rfl hgf.symm
    simp only [Ready, Function.update_of_ne hgf] at hg ⊢
    exact h.ready g hhead hg

/-- The first reply was read, and its callback invoked. -/
lemma Inv.finish {p : ℕ × Request ty} (h : c.Inv (p :: pending)) (o : ((ty p.2.func).io less).State) :
    ({ c with
      asyncReaders := pendingReaders pending
      funcs := Function.update c.funcs p.2.func ⟨pendingCallbacks pending p.2.func,
        ((ty p.2.func).io less).dflt, ((ty p.2.func).io less).prepare o⟩
      stream := pending.flatMap (replyBytes less)
      invoked := c.invoked ++ [(p.1, ⟨c.conn, p.2.func, p.2.reply⟩)] } : AsyncClient ty less).Inv
      pending := by
  have hmem : p ∈ p :: pending := List.mem_cons_self
  have hrequest : (⟨c.conn, p.2.func, p.2.reply⟩ : Request ty) = p.2 := by
    rw [← h.conn p hmem]
  rw [hrequest]
  generalize hc' : (AsyncClient.mk _ _ _ _ _ _ : AsyncClient ty less) = c'
  have hself : c'.funcs p.2.func = ⟨pendingCallbacks pending p.2.func,
      ((ty p.2.func).io less).dflt, ((ty p.2.func).io less).prepare o⟩ := by
    rw [← hc']
    exact Function.update_self _ _ _
  have hne {g : F} (hg : g ≠ p.2.func) : c'.funcs g = c.funcs g := by
    rw [← hc']
    exact Function.update_of_ne hg _ _
  have hready : ∀ g, (g ∈ pendingReaders pending ∨ (c'.funcs g).ks = []) → c'.Ready g := by
    intro g hg
    by_cases hgf : g = p.2.func
    · subst hgf
      rw [Ready, hself]
      exact ⟨rfl, o, rfl⟩
    · rw [hne hgf] at hg
      rw [Ready, hne hgf]
      refine h.ready g ?_ (hg.imp_left fun hg => ?_)
      · rintro q ⟨⟩
        exact Ne.symm hgf
      · rw [h.readers]
        exact List.mem_cons_of_mem _ hg
  subst hc'
  refine ⟨?_, ?_, rfl, fun q hq => h.calls q (List.mem_cons_of_mem p hq),
    fun q hq => h.conn q (List.mem_cons_of_mem p hq), fun q hq => h.sound q (List.mem_cons_of_mem p hq),
    fun g hg => ?_, ?_, fun g _ => hready g⟩
  · intro i hi
    rcases List.mem_append.mp hi with hi | hi
    · exact h.own i hi
    · rw [List.mem_singleton.mp hi]
      exact h.calls p hmem
  · have horder := h.order
    rwa [List.map_cons, List.append_cons, ← List.map_singleton, ← List.map_append] at horder
  · by_cases hgf : g = p.2.func
    · subst hgf
      rw [hself]
    · rw [hne hgf, h.callbacks g (by rw [h.readers]; exact List.mem_cons_of_mem _ hg),
        pendingCallbacks_cons_of_ne _ (Ne.symm hgf)]
  · cases pending with
    | nil => rfl
    | cons q qs =>
      obtain ⟨hv, hflat⟩ := h.sound q (List.mem_cons_of_mem p List.mem_cons_self)
      obtain ⟨o', hproc⟩ := (hready q.2.func (.inl (func_mem_pendingReaders List.mem_cons_self))).proceeds
        hv hflat
      exact ⟨_, o', hproc, rfl⟩

lemma Inv.readAndFinish {p : ℕ × Request ty} (h : c.Inv (p :: pending)) (k : ℕ) :
    (∃ c', c.readAndFinish p.2.func k = some (false, c') ∧ c'.Inv (p :: pending)) ∨
      ∃ c', c.readAndFinish p.2.func k = some (true, c') ∧
        { c' with asyncReaders := pendingReaders pending }.Inv pending := by
  obtain ⟨bs, o, hproc, hstream⟩ := h.reading
  have hcases := hproc.call_cases k (pending.flatMap (replyBytes less))
  rw [← hstream] at hcases
  obtain hcall | ⟨⟨pr, r⟩, bs, hcall, hproc⟩ := hcases
  · have hks := h.callbacks p.2.func (by rw [h.readers]; exact func_mem_pendingReaders List.mem_cons_self)
    rw [pendingCallbacks_cons_self] at hks
    have hread : c.readAndFinish p.2.func k = some (true, { c with
        funcs := Function.update c.funcs p.2.func ⟨pendingCallbacks pending p.2.func,
          ((ty p.2.func).io less).dflt, ((ty p.2.func).io less).prepare o⟩
        stream := pending.flatMap (replyBytes less)
        invoked := c.invoked ++ [(p.1, ⟨c.conn, p.2.func, p.2.reply⟩)] }) := by
      simp only [AsyncClient.readAndFinish, hcall, hks]
      rfl
    exact .inr ⟨_, hread, h.finish o⟩
  · refine .inl ⟨_, ?_, h.read hproc⟩
    simp only [AsyncClient.readAndFinish, hcall]
    rfl

lemma Inv.stepReaders (h : c.Inv pending) (offers : ℕ → ℕ) :
    ∃ c' pending', stepReaders offers (pendingReaders pending) c = some c' ∧ c'.Inv pending' := by
  induction pending generalizing c with
  | nil => exact ⟨c, [], rfl, h⟩
  | cons p ps ih =>
    have hcons : pendingReaders (p :: ps) = p.2.func :: pendingReaders ps := rfl
    rw [hcons, AsyncClient.stepReaders]
    obtain ⟨c', hread, hinv⟩ | ⟨c', hread, hinv⟩ := h.readAndFinish (offers (pendingReaders ps).length)
    · exact ⟨c', p :: ps, by rw [hread]; rfl, hinv⟩
    · obtain ⟨c'', pending', hstep, hinv⟩ := ih hinv
      exact ⟨c'', pending', by rw [hread]; exact hstep, hinv⟩

lemma Inv.act (h : c.Inv pending) {e : ClientEvent ty less} (he : e.Careful c) :
    ∃ c' pending', act e c = some c' ∧ c'.Inv pending' := by
  cases e with
  | call f v => exact ⟨_, _, rfl, h.call v.2 he.1 he.2⟩
  | step offers =>
    obtain ⟨c', pending', hstep, hinv⟩ := h.stepReaders offers
    refine ⟨c', pending', ?_, hinv⟩
    rw [AsyncClient.act, AsyncClient.step, h.readers, hstep]
  | reconnect => exact ⟨_, _, rfl, h.reconnect⟩

/-- One function returns an `int`, and the other one a string. -/
def twoResults : Bool → Ty
  | false => .scalar .int
  | true => .string

def callInt (n : ℕ) : ClientEvent twoResults storedLess := .call false ⟨Mem.ofNat 4 n, trivial⟩

/-- The reply is `"ok"`. -/
def callString : ClientEvent twoResults storedLess :=
  .call true ⟨[111, 107], Nat.one_dvd _, by decide, fun _ _ => trivial⟩

end AsyncClient

end Hobbes.Net
