import Hobbes.Net.Accum
import Hobbes.Net.Ty

/-!
# Values that are accumulated

Which types have values that are accumulated as they were written. The key and the value that a map's state
keeps are never new again, so what was in a map there stays in it.
-/

namespace Hobbes.Net

open Core

variable {α β γ κ ρ : Type}

namespace Io

variable {io : Io α}

/-- The values are accumulated one after the other, each of them by a new `α` and with the one state. -/
def Accumulates (io : Io α) : io.State → List α → Prop
  | _, [] => True
  | o, v :: vs => ∃ o', io.accum.Completes (io.prepare o, io.dflt) (io.write v) (o', v) ∧
    io.Accumulates o' vs

namespace Resumes

/-- A value is accumulated over any other one. -/
def Overwrites (h : io.Resumes) : Prop := ∀ o x v, io.Valid v → (h.result o x v).2 = v

/-- A value is accumulated over a new one. -/
def Renews (h : io.Resumes) : Prop := ∀ o v, io.Valid v → (h.result o io.dflt v).2 = v

/-- One value is not accumulated over another one. -/
def Keeps (h : io.Resumes) : Prop :=
  ∃ v w, io.Valid v ∧ io.Valid w ∧ ∀ o, (h.result o v w).2 ≠ w

/-- One value is not accumulated with the state that another one leaves. -/
def Fails (h : io.Resumes) : Prop :=
  ∃ v w, io.Valid v ∧ io.Valid w ∧ ∀ o, (h.result o io.dflt v).2 = v →
    (h.result (h.result o io.dflt v).1 io.dflt w).2 ≠ w

lemma Overwrites.renews {h : io.Resumes} (hio : h.Overwrites) : h.Renews :=
  fun o v hv => hio o io.dflt v hv

lemma Renews.accumulates {h : io.Resumes} (hio : h.Renews) {vs : List α} (hvs : ∀ v ∈ vs, io.Valid v)
    (o : io.State) : io.Accumulates o vs := by
  induction vs generalizing o with
  | nil => trivial
  | cons v vs ih =>
    have hv := hvs v List.mem_cons_self
    refine ⟨(h.result o io.dflt v).1, ?_, ih (fun v hv => hvs v (List.mem_cons_of_mem _ hv)) _⟩
    have hcomp := (h.proceeds o io.dflt v hv).completes
    rwa [← Prod.eta (h.result o io.dflt v), hio o v hv] at hcomp

lemma accumulates_cons_iff (h : io.Resumes) {o : io.State} {v : α} {vs : List α} (hv : io.Valid v) :
    io.Accumulates o (v :: vs) ↔
      (h.result o io.dflt v).2 = v ∧ io.Accumulates (h.result o io.dflt v).1 vs := by
  have hcomp := (h.proceeds o io.dflt v hv).completes
  constructor
  · rintro ⟨o', hcomp', hvs⟩
    rw [hcomp.unique hcomp']
    exact ⟨rfl, hvs⟩
  · rintro ⟨hres, hvs⟩
    refine ⟨_, ?_, hvs⟩
    rwa [← Prod.eta (h.result o io.dflt v), hres] at hcomp

lemma Fails.not_accumulates {h : io.Resumes} (hio : h.Fails) (o : io.State) :
    ∃ vs, (∀ v ∈ vs, io.Valid v) ∧ ¬ io.Accumulates o vs := by
  obtain ⟨v, w, hv, hw, hne⟩ := hio
  refine ⟨[v, w], ?_, ?_⟩
  · rintro u (_ | ⟨_, _ | ⟨_, ⟨⟩⟩⟩)
    · exact hv
    · exact hw
  · rw [h.accumulates_cons_iff hv, h.accumulates_cons_iff hw]
    rintro ⟨hres, hres', -⟩
    exact hne o hres hres'

/-! ### Pairs -/

section Pair

variable {a : Io α} {b : Io β} {ha : a.Resumes} {hb : b.Resumes}

lemma Overwrites.pair (h : ha.Overwrites) (h' : hb.Overwrites) : (ha.pair hb).Overwrites :=
  fun o x v hv => Prod.ext (h o.fstState x.1 v.1 hv.1) (h' o.sndState x.2 v.2 hv.2)

lemma Renews.pair (h : ha.Renews) (h' : hb.Renews) : (ha.pair hb).Renews :=
  fun o v hv => Prod.ext (h o.fstState v.1 hv.1) (h' o.sndState v.2 hv.2)

lemma Keeps.pair_left (h : ha.Keeps) {y : β} (hy : b.Valid y) : (ha.pair hb).Keeps := by
  obtain ⟨v, w, hv, hw, hne⟩ := h
  exact ⟨(v, y), (w, y), ⟨hv, hy⟩, ⟨hw, hy⟩, fun o heq => hne o.fstState (congrArg Prod.fst heq)⟩

lemma Keeps.pair_right (h : hb.Keeps) {x : α} (hx : a.Valid x) : (ha.pair hb).Keeps := by
  obtain ⟨v, w, hv, hw, hne⟩ := h
  exact ⟨(x, v), (x, w), ⟨hx, hv⟩, ⟨hx, hw⟩, fun o heq => hne o.sndState (congrArg Prod.snd heq)⟩

lemma Fails.pair_left (h : ha.Fails) {y : β} (hy : b.Valid y) : (ha.pair hb).Fails := by
  obtain ⟨v, w, hv, hw, hne⟩ := h
  exact ⟨(v, y), (w, y), ⟨hv, hy⟩, ⟨hw, hy⟩, fun o heq heq' =>
    hne o.fstState (congrArg Prod.fst heq) (congrArg Prod.fst heq')⟩

lemma Fails.pair_right (h : hb.Fails) {x : α} (hx : a.Valid x) : (ha.pair hb).Fails := by
  obtain ⟨v, w, hv, hw, hne⟩ := h
  exact ⟨(x, v), (x, w), ⟨hx, hv⟩, ⟨hx, hw⟩, fun o heq heq' =>
    hne o.sndState (congrArg Prod.snd heq) (congrArg Prod.snd heq')⟩

end Pair

/-! ### Vectors -/

section Vector

variable {a : Io α} {ha : a.Resumes}

lemma snd_resultElems {σ : Type} {result : σ → α → α → σ × α} (xs : List α) {vs : List α}
    (h : ∀ o, List.Forall₂ (fun x v => (result o x v).2 = v) xs vs) (o : σ) :
    (resultElems result o xs vs).2 = vs := by
  induction vs generalizing o xs with
  | nil =>
    cases h o
    rfl
  | cons v vs ih =>
    obtain _ | ⟨hx, -⟩ := h o
    rename_i x xs
    have htail (o' : σ) : List.Forall₂ (fun x v => (result o' x v).2 = v) xs vs := by
      obtain _ | ⟨-, h⟩ := h o'
      exact h
    rw [resultElems]
    exact congrArg₂ List.cons hx (ih xs htail _)

lemma Overwrites.vector (h : ha.Overwrites) : ha.vector.Overwrites := by
  intro o x v hv
  refine snd_resultElems (resize v.length a.dflt x) (fun o => ?_) o.elemS
  rw [List.forall₂_iff_get]
  exact ⟨length_resize _ _ _, fun i _ hi => h o _ _ (hv.2 _ (List.get_mem v ⟨i, hi⟩))⟩

lemma Renews.vector (h : ha.Renews) : ha.vector.Renews := by
  intro o v hv
  refine snd_resultElems (resize v.length a.dflt []) (fun o => ?_) o.elemS
  have hnew : resize v.length a.dflt [] = List.replicate v.length a.dflt := by simp [resize]
  rw [hnew, List.forall₂_iff_get]
  refine ⟨List.length_replicate, fun i hi hi' => ?_⟩
  rw [List.get_eq_getElem, List.getElem_replicate]
  exact h o _ (hv.2 _ (List.get_mem v ⟨i, hi'⟩))

lemma vector_valid_singleton {v : α} (hv : a.Valid v) : (Io.vector a).Valid [v] := by
  refine ⟨by simp, fun e he => ?_⟩
  rwa [List.mem_singleton.mp he]

lemma Keeps.vector (h : ha.Keeps) : ha.vector.Keeps := by
  obtain ⟨v, w, hv, hw, hne⟩ := h
  refine ⟨[v], [w], vector_valid_singleton hv, vector_valid_singleton hw, fun o heq => ?_⟩
  exact hne o.elemS (List.cons_eq_cons.mp heq).1

lemma Fails.vector (h : ha.Fails) : ha.vector.Fails := by
  obtain ⟨v, w, hv, hw, hne⟩ := h
  refine ⟨[v], [w], vector_valid_singleton hv, vector_valid_singleton hw, fun o heq heq' => ?_⟩
  refine hne o.elemS (List.cons_eq_cons.mp heq).1 ?_
  rw [← ha.result_prepare _ _ hw]
  exact (List.cons_eq_cons.mp heq').1

end Vector

/-! ### Maps -/

section Map

variable {less : κ → κ → Bool} {a : Io κ} {b : Io α} {ha : a.Resumes} {hb : b.Resumes}

lemma assign_of_forall_less {m : List (κ × α)} {k : κ} {t : α}
    (h : ∀ e ∈ m, less e.1 k ∧ ¬ less k e.1) : Io.assign less k t m = m ++ [(k, t)] := by
  induction m with
  | nil => rfl
  | cons e m ih =>
    obtain ⟨hlt, hge⟩ := h e List.mem_cons_self
    rw [Io.assign, if_neg hge, if_pos hlt, ih fun e he => h e (List.mem_cons_of_mem _ he),
      List.cons_append]

lemma snd_resultEntries (h : ha.Overwrites) (h' : hb.Overwrites) {es : List (κ × α)}
    (hes : ∀ e ∈ es, a.Valid e.1 ∧ b.Valid e.2) (o : Temps a.State b.State κ α) {m : List (κ × α)}
    (hsorted : (m ++ es).Pairwise fun e e' => less e.1 e'.1 ∧ ¬ less e'.1 e.1) :
    (resultEntries less ha.result hb.result o m es).2 = m ++ es := by
  induction es generalizing o m with
  | nil => rw [resultEntries, List.append_nil]
  | cons e es ih =>
    obtain ⟨hk, ht⟩ := hes e List.mem_cons_self
    have hless : ∀ e' ∈ m, less e'.1 e.1 ∧ ¬ less e.1 e'.1 := fun e' he' =>
      (List.pairwise_append.mp hsorted).2.2 e' he' e List.mem_cons_self
    rw [resultEntries, h _ _ _ hk, h' _ _ _ ht, assign_of_forall_less hless]
    rw [List.append_cons m e es] at hsorted ⊢
    exact ih (fun e he => hes e (List.mem_cons_of_mem _ he)) _ hsorted

lemma Renews.map (h : ha.Overwrites) (h' : hb.Overwrites) : (Io.Resumes.map less ha hb).Renews :=
  fun o _ hv => snd_resultEntries h h' hv.2.1 ⟨o.kS, o.k, o.tS, o.t⟩ hv.2.2

lemma map_valid_singleton {k : κ} {t : α} (hk : a.Valid k) (ht : b.Valid t) :
    (Io.map less a b).Valid [(k, t)] := by
  refine ⟨by simp, fun e he => ?_, List.pairwise_singleton _ _⟩
  rw [List.mem_singleton.mp he]
  exact ⟨hk, ht⟩

/-- The entries of a map stay in it. -/
lemma Keeps.map {k : κ} {t : α} (hk : a.Valid k) (ht : b.Valid t) :
    (Io.Resumes.map less ha hb).Keeps := by
  refine ⟨[(k, t)], [], map_valid_singleton hk ht, ⟨by simp, by simp, List.Pairwise.nil⟩, ?_⟩
  intro o heq
  cases heq

lemma Fails.map_key (h : ha.Keeps) {t : α} (ht : b.Valid t) :
    (Io.Resumes.map less ha hb).Fails := by
  obtain ⟨v, w, hv, hw, hne⟩ := h
  refine ⟨[(v, t)], [(w, t)], map_valid_singleton hv ht, map_valid_singleton hw ht, fun o heq heq' => ?_⟩
  have hkey : (ha.result o.kS o.k v).2 = v := congrArg Prod.fst (List.cons_eq_cons.mp heq).1
  have hkey' := congrArg Prod.fst (List.cons_eq_cons.mp heq').1
  rw [← hkey] at hne
  exact hne _ hkey'

lemma Fails.map_value (h : hb.Keeps) {k : κ} (hk : a.Valid k) :
    (Io.Resumes.map less ha hb).Fails := by
  obtain ⟨v, w, hv, hw, hne⟩ := h
  refine ⟨[(k, v)], [(k, w)], map_valid_singleton hk hv, map_valid_singleton hk hw, fun o heq heq' => ?_⟩
  have hval : (hb.result o.tS o.t v).2 = v := congrArg Prod.snd (List.cons_eq_cons.mp heq).1
  have hval' := congrArg Prod.snd (List.cons_eq_cons.mp heq').1
  rw [← hval] at hne
  exact hne _ hval'

end Map

/-! ### Structs and tuples -/

end Resumes

end Io

namespace Fields.Resumes

variable {fs : Fields ρ}

def Overwrites (h : fs.Resumes) : Prop :=
  ∀ o x v, fs.Valid v → (h.result fs.count o x v).2 = v

def Renews (h : fs.Resumes) : Prop :=
  ∀ o v, fs.Valid v → (h.result fs.count o fs.dflt v).2 = v

def Keeps (h : fs.Resumes) : Prop :=
  ∃ v w, fs.Valid v ∧ fs.Valid w ∧ ∀ o, (h.result fs.count o v w).2 ≠ w

def Fails (h : fs.Resumes) : Prop :=
  ∃ v w, fs.Valid v ∧ fs.Valid w ∧ ∀ o, (h.result fs.count o fs.dflt v).2 = v →
    (h.result fs.count (h.result fs.count o fs.dflt v).1 fs.dflt w).2 ≠ w

lemma Overwrites.nil : Fields.Resumes.nil.Overwrites := fun _ _ _ _ => rfl

section Cons

variable {a : Io α} {ha : a.Resumes} {hfs : fs.Resumes}

lemma Overwrites.cons (h : ha.Overwrites) (h' : hfs.Overwrites) : (cons ha hfs).Overwrites :=
  fun o x v hv => Prod.ext (h o.1 x.1 v.1 hv.1) (h' o.2 x.2 v.2 hv.2)

lemma Renews.cons (h : ha.Renews) (h' : hfs.Renews) : (cons ha hfs).Renews :=
  fun o v hv => Prod.ext (h o.1 v.1 hv.1) (h' o.2 v.2 hv.2)

lemma Keeps.cons_left (h : ha.Keeps) {y : ρ} (hy : fs.Valid y) : (cons ha hfs).Keeps := by
  obtain ⟨v, w, hv, hw, hne⟩ := h
  exact ⟨(v, y), (w, y), ⟨hv, hy⟩, ⟨hw, hy⟩, fun o heq => hne o.1 (congrArg Prod.fst heq)⟩

lemma Keeps.cons_right (h : hfs.Keeps) {x : α} (hx : a.Valid x) : (cons ha hfs).Keeps := by
  obtain ⟨v, w, hv, hw, hne⟩ := h
  exact ⟨(x, v), (x, w), ⟨hx, hv⟩, ⟨hx, hw⟩, fun o heq => hne o.2 (congrArg Prod.snd heq)⟩

lemma Fails.cons_left (h : ha.Fails) {y : ρ} (hy : fs.Valid y) : (cons ha hfs).Fails := by
  obtain ⟨v, w, hv, hw, hne⟩ := h
  exact ⟨(v, y), (w, y), ⟨hv, hy⟩, ⟨hw, hy⟩, fun o heq heq' =>
    hne o.1 (congrArg Prod.fst heq) (congrArg Prod.fst heq')⟩

lemma Fails.cons_right (h : hfs.Fails) {x : α} (hx : a.Valid x) : (cons ha hfs).Fails := by
  obtain ⟨v, w, hv, hw, hne⟩ := h
  exact ⟨(x, v), (x, w), ⟨hx, hv⟩, ⟨hx, hw⟩, fun o heq heq' =>
    hne o.2 (congrArg Prod.snd heq) (congrArg Prod.snd heq')⟩

end Cons

end Fields.Resumes

/-- A payload is accumulated over the new one that it starts from. -/
def Ctors.Resumes.Renews {cs : Ctors γ} (h : cs.Resumes) : Prop :=
  ∀ p, cs.Valid p → (h.result p).2 = p

lemma Ctors.Resumes.Renews.nil : Ctors.Resumes.nil.Renews := fun p => p.elim

lemma Ctors.Resumes.Renews.cons {a : Io α} {cs : Ctors γ} {ha : a.Resumes} {hcs : cs.Resumes}
    (h : ha.Renews) (h' : hcs.Renews) : (Ctors.Resumes.cons ha hcs).Renews := by
  rintro (v | p) hv
  · exact congrArg Sum.inl (h a.initState v hv)
  · exact congrArg Sum.inr (h' p hv)

namespace Io.Resumes

variable {fs : Fields ρ} {hfs : fs.Resumes} {cs : Ctors γ} {hcs : cs.Resumes}

lemma Overwrites.struct (h : hfs.Overwrites) : (Resumes.struct hfs).Overwrites :=
  fun o x v hv => h o.2 x v hv

lemma Renews.struct (h : hfs.Renews) : (Resumes.struct hfs).Renews :=
  fun o v hv => h o.2 v hv

lemma Keeps.struct (h : hfs.Keeps) : (Resumes.struct hfs).Keeps := by
  obtain ⟨v, w, hv, hw, hne⟩ := h
  exact ⟨v, w, hv, hw, fun o => hne o.2⟩

lemma Fails.struct (h : hfs.Fails) : (Resumes.struct hfs).Fails := by
  obtain ⟨v, w, hv, hw, hne⟩ := h
  exact ⟨v, w, hv, hw, fun o => hne o.2⟩

lemma Overwrites.tuple (h : hfs.Overwrites) : (Resumes.tuple hfs).Overwrites :=
  fun o x v hv => h o.2 x v hv.2

lemma Renews.tuple (h : hfs.Renews) : (Resumes.tuple hfs).Renews :=
  fun o v hv => h o.2 v hv.2

lemma Keeps.tuple (h : hfs.Keeps) (hcount : fs.count < 2 ^ 64) : (Resumes.tuple hfs).Keeps := by
  obtain ⟨v, w, hv, hw, hne⟩ := h
  exact ⟨v, w, ⟨hcount, hv⟩, ⟨hcount, hw⟩, fun o => hne o.2⟩

lemma Fails.tuple (h : hfs.Fails) (hcount : fs.count < 2 ^ 64) : (Resumes.tuple hfs).Fails := by
  obtain ⟨v, w, hv, hw, hne⟩ := h
  exact ⟨v, w, ⟨hcount, hv⟩, ⟨hcount, hw⟩, fun o => hne o.2⟩

lemma Overwrites.variant (h : hcs.Renews) : (Resumes.variant hcs).Overwrites := by
  rintro o x _ ⟨p, rfl, -, hp⟩
  exact congrArg some (h p hp)

end Io.Resumes

end Hobbes.Net
