import Hobbes.Core.Acyclic
import Hobbes.Lang.UnifierJoins

/-!
# What substitution finds

A type is substituted into by way of its class, which is marked while this is done for the parts of the type that is
kept for it. As long as there are no cycles no mark is met, and what is done once is not done again. So substitution
returns if the type is finite, throws if it is not, and says nothing of types that are not its parts.
-/

namespace Hobbes.Lang

open Core Term EquivalenceMapping Relation

/-! ### Classes -/

lemma mem_isMonoSingular {ts : List TyTerm} (h : areMonoSingular ts = true) {t : TyTerm} (ht : t ∈ ts) :
    isMonoSingular t = true := by
  induction ts with
  | nil => cases ht
  | cons u us ih =>
    rw [areMonoSingular, Bool.and_eq_true] at h
    rcases List.mem_cons.mp ht with rfl | ht
    · exact h.1
    · exact ih h.2 ht

/-- The classes in which all equations have been unified, after `bc` variables have been bound. -/
structure Classes (E : Equations TyCtor Bytes) (root : TyTerm → TyTerm) (bc : ℕ) : Prop where
  equated_iff : ∀ a b, Equated E a b ↔ root a = root b
  joinable : Joinable TyCtor.cname E
  zero : bc = 0 → ∀ a b, Equated E a b → a.size = b.size

lemma Unified.classes {E : Equations TyCtor Bytes} {s : MonoTypeUnifier} {root : TyTerm → TyTerm}
    (h : Unified E s root) (hE : ∀ p ∈ E, root p.1 = root p.2) : Classes E root s.bcount where
  equated_iff a b := ⟨h.root_eq_of_equated hE, h.sound a b⟩
  joinable c d ss ts heq :=
    have hclosed := h.closed c d ss ts (h.root_eq_of_equated hE heq)
    ⟨hclosed.1, hclosed.2.1⟩
  zero hz a b heq := h.zero hz a b (h.root_eq_of_equated hE heq)

/-- What is met on the way through a type. It is smaller, or below it by way of a variable. -/
def Part (E : Equations TyCtor Bytes) (bc : ℕ) (u t : TyTerm) : Prop := Below E u t ∨ bc = 0 ∧ u.size < t.size

namespace Classes

variable {E : Equations TyCtor Bytes} {root : TyTerm → TyTerm} {bc : ℕ}

lemma isFinite_of_zero (h : Classes E root bc) (hz : bc = 0) (t : TyTerm) : IsFinite E t :=
  isFinite_of_size (h.zero hz) t

lemma equated_root (h : Classes E root bc) (hroot : ∀ k, root (root k) = root k) (k : TyTerm) : Equated E (root k) k :=
  (h.equated_iff _ _).mpr (hroot k)

lemma part_congr (h : Classes E root bc) {u s t : TyTerm} (hpart : Part E bc u s) (heq : Equated E s t) :
    Part E bc u t := by
  rcases hpart with hpart | ⟨hz, hlt⟩
  · exact .inl (heq.below_iff.mp hpart)
  · exact .inr ⟨hz, (h.zero hz _ _ heq) ▸ hlt⟩

lemma acc_part_iff (h : Classes E root bc) (t : TyTerm) : Acc (Part E bc) t ↔ IsFinite E t := by
  by_cases hz : bc = 0
  · refine iff_of_true ?_ (h.isFinite_of_zero hz t)
    refine Subrelation.accessible ?_ ((measure (size (C := TyCtor) (X := Bytes))).wf.apply t)
    rintro u t (⟨c, ts, heq, hu⟩ | ⟨-, hlt⟩)
    · show u.size < t.size
      rw [h.zero hz _ _ heq]
      exact size_lt hu
    · exact hlt
  · have hpart : Part E bc = Below E := by
      funext u t
      exact propext (or_iff_left fun hlt => hz hlt.1)
    rw [hpart, IsFinite]

/-- A type that is met on the way through itself is not finite. -/
lemma not_isFinite (h : Classes E root bc) {k u t : TyTerm} (hku : ReflTransGen (Part E bc) k u)
    (hut : Part E bc u t) (heq : Equated E t k) : ¬ IsFinite E t := by
  intro hfin
  exact not_transGen_of_acc ((h.acc_part_iff k).mpr (heq.isFinite hfin)) (TransGen.tail' hku (h.part_congr hut heq))

/-- A type without variables is finite. -/
lemma isFinite_of_monoSingular (h : Classes E root bc) {t : TyTerm} (ht : isMonoSingular t = true) : IsFinite E t := by
  induction t using Term.induct with
  | var x => cases ht
  | app c ts ih =>
    rw [isMonoSingular, Bool.and_eq_true] at ht
    refine h.joinable.isFinite_app fun u hu => ih u hu (mem_isMonoSingular ht.2 hu)

end Classes

/-! ### States -/

/-- What has been substituted is only read. -/
def Resolved (s : MonoTypeUnifier) (k : TyTerm) : Prop :=
  0 < (valueAt liftUType s.m.nodes k).donebc ∧ (valueAt liftUType s.m.nodes k).donebc = s.bcount

def visitedAt (s : MonoTypeUnifier) (k : TyTerm) : Prop := (valueAt liftUType s.m.nodes k).visited = true

/-- The state while types are substituted. -/
structure Resolving (E : Equations TyCtor Bytes) (s : MonoTypeUnifier) (root : TyTerm → TyTerm) : Prop where
  rooted : Rooted s.m.nodes root
  kept : s.bcount ≠ 0 → ∀ k, ¬ Resolved s (root k) → Equated E k (typeAt s (root k))
  size : s.bcount = 0 → ∀ k, (typeAt s (root k)).size = k.size
  apps : ∀ c ts, ¬ Resolved s (root (app c ts)) → ∃ d us, typeAt s (root (app c ts)) = app d us
  finite : ∀ k, Resolved s (root k) → IsFinite E k

/-- Types are substituted, and their marks taken away again. -/
structure Substitutes (s s' : MonoTypeUnifier) : Prop where
  bcount : s'.bcount = s.bcount
  mem : ∀ k ∈ s.m.nodes, k ∈ s'.m.nodes
  visited : ∀ k, visitedAt s' k → visitedAt s k

lemma Substitutes.refl (s : MonoTypeUnifier) : Substitutes s s := ⟨rfl, fun _ h => h, fun _ h => h⟩

lemma Substitutes.trans {s s' s'' : MonoTypeUnifier} (h : Substitutes s s') (h' : Substitutes s' s'') :
    Substitutes s s'' :=
  ⟨h'.bcount.trans h.bcount, fun k hk => h'.mem k (h.mem k hk), fun k hk => h.visited k (h'.visited k hk)⟩

lemma modifyNode_spec {m : EquivalenceMapping TyTerm UTypeRec} {root : TyTerm → TyTerm} (h : Rooted m.nodes root)
    {k : TyTerm} (hk : k ∈ m.nodes) (f : UTypeRec → UTypeRec) : Rooted (modifyNode m k f).nodes root ∧
      (∀ a ∈ m.nodes, a ∈ (modifyNode m k f).nodes) ∧
      valueAt liftUType (modifyNode m k f).nodes k = f (valueAt liftUType m.nodes k) ∧
      ∀ a ≠ k, valueAt liftUType (modifyNode m k f).nodes a = valueAt liftUType m.nodes a := by
  obtain ⟨n, hn⟩ := exists_lookup hk
  have hmodify : modifyNode m k f = { m with nodes := m.nodes.insert k { n with value := f n.value } } := by
    rw [modifyNode, hn]
  rw [hmodify]
  refine ⟨h.insert_value hn _, fun a ha => (AList.mem_insert _).mpr (.inr ha), ?_, fun a ha => ?_⟩
  · rw [valueAt_of_lookup liftUType hn, valueAt_of_lookup liftUType (AList.lookup_insert m.nodes)]
  · exact valueAt_insert_of_ne liftUType _ ha

namespace Resolving

variable {E : Equations TyCtor Bytes} {s : MonoTypeUnifier} {root : TyTerm → TyTerm}

lemma root_root (h : Resolving E s root) (k : TyTerm) : root (root k) = root k := h.rooted.forest.root_root k

/-- Only types and what has been done matter. -/
lemma congr (h : Resolving E s root) {s' : MonoTypeUnifier} (hrooted : Rooted s'.m.nodes root)
    (hb : s'.bcount = s.bcount) (htype : ∀ k, typeAt s' k = typeAt s k)
    (hdone : ∀ k, (valueAt liftUType s'.m.nodes k).donebc = (valueAt liftUType s.m.nodes k).donebc) :
    Resolving E s' root := by
  have hresolved : ∀ k, Resolved s' k ↔ Resolved s k := fun k => by rw [Resolved, Resolved, hdone, hb]
  refine ⟨hrooted, fun hz k hk => ?_, fun hz k => ?_, fun c ts hk => ?_, fun k hk => ?_⟩
  · rw [htype]
    exact h.kept (hb ▸ hz) k ((hresolved _).not.mp hk)
  · rw [htype]
    exact h.size (hb ▸ hz) k
  · rw [htype]
    exact h.apps c ts ((hresolved _).not.mp hk)
  · exact h.finite k ((hresolved _).mp hk)

lemma findNode (h : Resolving E s root) (k : TyTerm) : ∃ m n,
    EquivalenceMapping.findNode liftUType s.m k = some (m, root k) ∧ m.nodes.lookup (root k) = some n ∧
      n.value = valueAt liftUType m.nodes (root k) ∧ Resolving E { s with m := m } root ∧
      Substitutes s { s with m := m } := by
  obtain ⟨m, n, hfind, -, hrooted, hmem, hn, hvalue⟩ := h.rooted.findNode_values liftUType k
  refine ⟨m, n, hfind, hn, (valueAt_of_lookup liftUType hn).symm, ?_, ?_⟩
  · exact h.congr hrooted rfl (fun a => congrArg UTypeRec.ty (hvalue a)) fun a => congrArg UTypeRec.donebc (hvalue a)
  · refine ⟨rfl, fun a ha => (hmem a).mpr (.inr ha), fun a ha => ?_⟩
    rw [visitedAt, ← hvalue]
    exact ha

/-- A class is marked. -/
lemma mark (h : Resolving E s root) {k : TyTerm} (hk : k ∈ s.m.nodes) :
    Resolving E { s with m := modifyNode s.m k fun uty => { uty with visited := true } } root ∧
      (∀ a ∈ s.m.nodes, a ∈ (modifyNode s.m k fun uty => { uty with visited := true }).nodes) ∧
      ∀ a, visitedAt { s with m := modifyNode s.m k fun uty => { uty with visited := true } } a →
        a = k ∨ visitedAt s a := by
  obtain ⟨hrooted, hmem, hvalue, hother⟩ := modifyNode_spec h.rooted hk fun uty => { uty with visited := true }
  have hkeep : ∀ {α : Type} (f : UTypeRec → α), (∀ uty : UTypeRec, f { uty with visited := true } = f uty) → ∀ a,
      f (valueAt liftUType (modifyNode s.m k fun uty => { uty with visited := true }).nodes a) =
        f (valueAt liftUType s.m.nodes a) := by
    intro α f hf a
    rcases eq_or_ne a k with rfl | ha
    · rw [hvalue, hf]
    · rw [hother a ha]
  refine ⟨h.congr hrooted rfl (hkeep UTypeRec.ty fun _ => rfl) (hkeep UTypeRec.donebc fun _ => rfl), hmem, ?_⟩
  intro a ha
  rcases eq_or_ne a k with rfl | hne
  · exact .inl rfl
  · rw [visitedAt, hother a hne] at ha
    exact .inr ha

/-- What has been found for a finite type is kept for its class, where it is not marked any more. -/
lemma resolve (h : Resolving E s root) {t : TyTerm} (ht : root t ∈ s.m.nodes) {f : UTypeRec → UTypeRec}
    (hfin : IsFinite E t) (hclasses : Classes E root s.bcount) (hdone : ∀ uty, (f uty).donebc = s.bcount)
    (hsize : s.bcount = 0 → ∀ uty, (f uty).ty.size = t.size)
    (happ : ∀ c ts, root (app c ts) = root t → s.bcount = 0 → ∀ uty, ∃ d us, (f uty).ty = app d us)
    (hvisited : ∀ uty, (f uty).visited = true → uty.visited = true) :
    Resolving E { s with m := modifyNode s.m (root t) f } root ∧
      Substitutes s { s with m := modifyNode s.m (root t) f } ∧
      (visitedAt { s with m := modifyNode s.m (root t) f } (root t) → ∃ uty, (f uty).visited = true) := by
  obtain ⟨hrooted, hmem, hvalue, hother⟩ := modifyNode_spec h.rooted ht f
  have hresolved : s.bcount ≠ 0 → Resolved { s with m := modifyNode s.m (root t) f } (root t) := by
    intro hz
    rw [Resolved, hvalue, hdone]
    exact ⟨Nat.pos_of_ne_zero hz, rfl⟩
  have hkeep : ∀ k, root k ≠ root t →
      (Resolved { s with m := modifyNode s.m (root t) f } (root k) ↔ Resolved s (root k)) := by
    intro k hk
    rw [Resolved, hother _ hk, Resolved]
  refine ⟨⟨hrooted, ?_, ?_, ?_, ?_⟩, ⟨rfl, hmem, ?_⟩, ?_⟩
  · intro hz k hk
    by_cases hkt : root k = root t
    · exact absurd (hkt ▸ hresolved hz) hk
    · rw [typeAt, hother _ hkt]
      exact h.kept hz k ((hkeep k hkt).not.mp hk)
  · intro hz k
    by_cases hkt : root k = root t
    · rw [typeAt, hkt, hvalue, hsize hz]
      exact hclasses.zero hz _ _ ((hclasses.equated_iff t k).mpr hkt.symm)
    · rw [typeAt, hother _ hkt]
      exact h.size hz k
  · intro c ts hk
    by_cases hkt : root (app c ts) = root t
    · by_cases hz : s.bcount = 0
      · rw [typeAt, hkt, hvalue]
        exact happ c ts hkt hz _
      · exact absurd (hkt ▸ hresolved hz) hk
    · rw [typeAt, hother _ hkt]
      exact h.apps c ts ((hkeep _ hkt).not.mp hk)
  · intro k hk
    by_cases hkt : root k = root t
    · exact ((hclasses.equated_iff t k).mpr hkt.symm).isFinite hfin
    · exact h.finite k ((hkeep k hkt).mp hk)
  · intro k hk
    rcases eq_or_ne k (root t) with rfl | hkt
    · rw [visitedAt, hvalue] at hk
      exact hvisited _ hk
    · rwa [visitedAt, hother k hkt] at hk
  · intro hk
    rw [visitedAt, hvalue] at hk
    exact ⟨_, hk⟩

/-- A type that is kept for a class without constructors is a variable of it. -/
lemma isFinite_of_var (h : Resolving E s root) (hclasses : Classes E root s.bcount) {t : TyTerm} {v : Bytes}
    (ht : ¬ Resolved s (root t)) (htype : typeAt s (root t) = var v) :
    (∀ c ts, root (app c ts) ≠ root t) ∧ IsFinite E t := by
  have hno : ∀ c ts, root (app c ts) ≠ root t := by
    intro c ts hct
    obtain ⟨d, us, hd⟩ := h.apps c ts (hct ▸ ht)
    rw [hct, htype] at hd
    cases hd
  refine ⟨hno, Acc.intro t ?_⟩
  rintro u ⟨c, ts, heq, -⟩
  exact absurd ((hclasses.equated_iff _ _).mp heq.symm) (hno c ts)

/-- The arguments of a type that is kept for a class are parts of this, and it is finite if they are. -/
lemma parts (h : Resolving E s root) (hclasses : Classes E root s.bcount) {t : TyTerm} {c : TyCtor} {ts : List TyTerm}
    (ht : ¬ Resolved s (root t)) (htype : typeAt s (root t) = app c ts) :
    (∀ u ∈ ts, Part E s.bcount u t) ∧ ((∀ u ∈ ts, IsFinite E u) → IsFinite E t) := by
  by_cases hz : s.bcount = 0
  · refine ⟨fun u hu => .inr ⟨hz, ?_⟩, fun _ => hclasses.isFinite_of_zero hz t⟩
    rw [← h.size hz t, htype]
    exact size_lt hu
  · have heq := h.kept hz t ht
    rw [htype] at heq
    exact ⟨fun u hu => .inl ⟨c, ts, heq, hu⟩, fun hts => heq.symm.isFinite (hclasses.joinable.isFinite_app hts)⟩

lemma substitute_succ {m : _} {n : _} {t k : TyTerm} (ht : isMonoSingular t = false)
    (hfind : EquivalenceMapping.findNode liftUType s.m t = some (m, k)) (hn : m.nodes.lookup k = some n) (fuel : ℕ) :
    s.substitute (fuel + 1) t =
      if 0 < n.value.donebc ∧ n.value.donebc = s.bcount then .returns ({ s with m := m }, n.value.ty)
      else if n.value.visited then .throws
      else
        match n.value.ty with
        | .var v => (Outcome.ofOption (find liftUType m (.var v))).bind fun p =>
          .returns ({ s with m := modifyNode p.1 k fun uty => { uty with ty := p.2.ty, donebc := s.bcount } }, p.2.ty)
        | .app c ts => (Outcome.foldOver (fun p t => (MonoTypeUnifier.substitute fuel p.1 t).bind fun q =>
            .returns (q.1, p.2 ++ [q.2]))
            ({ s with m := modifyNode m k fun uty => { uty with visited := true } }, []) ts).bind fun p =>
              .returns ({ p.1 with m := modifyNode p.1.m k fun _ => ⟨app c p.2, false, p.1.bcount⟩ }, app c p.2) := by
  simp only [MonoTypeUnifier.substitute, ht, Bool.false_eq_true, if_false, hfind, hn, Outcome.bind_def,
    Outcome.pure_def, Outcome.ofOption_some, Outcome.returns_bind, Option.map_some]
  all_goals rfl

/-- What substitution does, after the type's node has been found: nothing if this has been done before, it throws if the
class is marked, takes a variable, or goes through the parts. -/
lemma substitute_cases (h : Resolving E s root) (hclasses : Classes E root s.bcount) {t : TyTerm}
    (ht : isMonoSingular t = false) : ∃ s₁, Resolving E s₁ root ∧ Substitutes s s₁ ∧ root t ∈ s₁.m.nodes ∧
    ((Resolved s₁ (root t) ∧ ∃ u, ∀ fuel, s.substitute (fuel + 1) t = .returns (s₁, u)) ∨
      (visitedAt s (root t) ∧ ∀ fuel, s.substitute (fuel + 1) t = .throws) ∨
      (IsFinite E t ∧ ∃ s₂ u, Resolving E s₂ root ∧ Substitutes s₁ s₂ ∧ (s.bcount = 0 → u.size = t.size) ∧
        ∀ fuel, s.substitute (fuel + 1) t = .returns (s₂, u)) ∨
      (¬ Resolved s₁ (root t) ∧ ∃ c ts, typeAt s₁ (root t) = app c ts ∧ ∀ fuel, s.substitute (fuel + 1) t =
        (Outcome.foldOver (fun p t => (MonoTypeUnifier.substitute fuel p.1 t).bind fun q =>
          .returns (q.1, p.2 ++ [q.2]))
          ({ s₁ with m := modifyNode s₁.m (root t) fun uty => { uty with visited := true } }, []) ts).bind fun p =>
            .returns ({ p.1 with m := modifyNode p.1.m (root t) fun _ => ⟨app c p.2, false, p.1.bcount⟩ },
              app c p.2))) := by
  obtain ⟨m, n, hfind, hn, hvalue, hm, hsub⟩ := h.findNode t
  have hmem : root t ∈ m.nodes := mem_of_lookup hn
  refine ⟨{ s with m := m }, hm, hsub, hmem, ?_⟩
  have hrun := substitute_succ ht hfind hn
  by_cases hdone : 0 < n.value.donebc ∧ n.value.donebc = s.bcount
  · exact .inl ⟨by rwa [Resolved, ← hvalue], n.value.ty, fun fuel => (hrun fuel).trans (if_pos hdone)⟩
  have hopen : ¬ Resolved { s with m := m } (root t) := by rwa [Resolved, ← hvalue]
  simp only [if_neg hdone] at hrun
  by_cases hvisited : n.value.visited = true
  · refine .inr (.inl ⟨hsub.visited _ ?_, fun fuel => (hrun fuel).trans (if_pos hvisited)⟩)
    rwa [visitedAt, ← hvalue]
  simp only [if_neg hvisited] at hrun
  have htype : typeAt { s with m := m } (root t) = n.value.ty := congrArg UTypeRec.ty hvalue.symm
  cases hty : n.value.ty with
  | app c ts =>
    refine .inr (.inr (.inr ⟨hopen, c, ts, htype.trans hty, fun fuel => ?_⟩))
    rw [hrun, hty]
  | var v =>
    obtain ⟨m', n', hfind', hn', hvalue', hm', hsub'⟩ := hm.findNode (var v)
    obtain ⟨hno, hfin⟩ := hm.isFinite_of_var hclasses hopen (htype.trans hty)
    have hsize : s.bcount = 0 → n'.value.ty.size = t.size := by
      intro hz
      have ht := hm.size hz t
      rw [htype, hty] at ht
      exact (congrArg (fun u : UTypeRec => u.ty.size) hvalue').trans ((hm'.size hz (var v)).trans ht)
    obtain ⟨hdone', hsub'', -⟩ := hm'.resolve (hsub'.mem _ hmem) hfin hclasses (fun uty => rfl)
      (f := fun uty => { uty with ty := n'.value.ty, donebc := s.bcount }) (fun hz _ => hsize hz)
      (fun c ts hct => absurd hct (hno c ts)) fun _ hvis => hvis
    refine .inr (.inr (.inl ⟨hfin, _, n'.value.ty, hdone', hsub'.trans hsub'', hsize, fun fuel => ?_⟩))
    have hfound : find liftUType m (var v) = some (m', n'.value) := by
      rw [find, hfind', Option.bind_some, hn']
      rfl
    rw [hrun, hty]
    simp only [hfound, Outcome.ofOption_some, Outcome.returns_bind]

/-- What the substitution into types comes to. -/
structure Found (E : Equations TyCtor Bytes) (root : TyTerm → TyTerm) (s : MonoTypeUnifier) (ts : List TyTerm)
    (s' : MonoTypeUnifier) (us : List TyTerm) : Prop where
  resolving : Resolving E s' root
  substitutes : Substitutes s s'
  finite : ∀ t ∈ ts, IsFinite E t
  sizes : s.bcount = 0 → us.map Term.size = ts.map Term.size

/-- Substitution throws only on its way through an infinite type, or back at a type that is marked. -/
def Blocked (E : Equations TyCtor Bytes) (root : TyTerm → TyTerm) (s : MonoTypeUnifier) (t : TyTerm) : Prop :=
  (∃ k, visitedAt s (root k) ∧ ReflTransGen (Part E s.bcount) k t) ∨ ¬ IsFinite E t

/-- What is blocked on the way through a part is so for the whole. -/
lemma Blocked.of_part (hclasses : Classes E root s.bcount) {s' : MonoTypeUnifier} (hb : s'.bcount = s.bcount)
    {u t : TyTerm} (hu : Blocked E root s' u) (hut : Part E s.bcount u t)
    (hvisited : ∀ k, visitedAt s' (root k) → root k = root t ∨ visitedAt s (root k)) : Blocked E root s t := by
  rcases hu with ⟨k, hk, hku⟩ | hu
  · rw [hb] at hku
    rcases hvisited k hk with hkt | hk
    · exact .inr (hclasses.not_isFinite hku hut ((hclasses.equated_iff _ _).mpr hkt.symm))
    · exact .inl ⟨k, hk, hku.tail hut⟩
  · refine .inr fun ht => hu ?_
    exact (hclasses.acc_part_iff u).mp (((hclasses.acc_part_iff t).mpr ht).inv hut)

lemma substitute_meets (fuel : ℕ) (h : Resolving E s root) (hclasses : Classes E root s.bcount) (t : TyTerm) :
    (s.substitute fuel t).Meets (fun p => Found E root s [t] p.1 [p.2]) (Blocked E root s t) := by
  induction fuel generalizing s t with
  | zero => exact trivial
  | succ fuel ih =>
    cases ht : isMonoSingular t with
    | true =>
      rw [MonoTypeUnifier.substitute, if_pos ht]
      exact ⟨h, .refl s, List.forall_mem_singleton.mpr (hclasses.isFinite_of_monoSingular ht), fun _ => rfl⟩
    | false =>
      obtain ⟨s₁, hs₁, hsub₁, hmem, hcases⟩ := h.substitute_cases hclasses ht
      rcases hcases with ⟨hdone, u, hrun⟩ | ⟨hvisited, hrun⟩ | ⟨hfin, s₂, u, hs₂, hsub₂, hsize, hrun⟩ |
        ⟨hopen, c, ts, htype, hrun⟩
      · rw [hrun]
        refine ⟨hs₁, hsub₁, List.forall_mem_singleton.mpr (hs₁.finite t hdone), fun hz => ?_⟩
        rw [Resolved, hsub₁.bcount, hz] at hdone
        omega
      · rw [hrun]
        exact .inl ⟨t, hvisited, .refl⟩
      · rw [hrun]
        exact ⟨hs₂, hsub₁.trans hsub₂, List.forall_mem_singleton.mpr hfin, fun hz => congrArg (fun n => [n]) (hsize hz)⟩
      · obtain ⟨hparts, hwhole⟩ := hs₁.parts (hsub₁.bcount ▸ hclasses) hopen htype
        obtain ⟨hmark, hmarkmem, hmarked⟩ := hs₁.mark hmem
        have hstart : Found E root _ [] _ [] := ⟨hmark, .refl _, List.forall_mem_nil _, fun _ => rfl⟩
        rw [hrun]
        refine Outcome.Meets.bind (Outcome.Meets.foldOver (fun done p => Found E root _ done p.1 p.2) hstart ?_) ?_
        rotate_left
        · intro p hp
          have hb : p.1.bcount = s.bcount := hp.substitutes.bcount.trans hsub₁.bcount
          have hfin := hwhole hp.finite
          have hsize : p.1.bcount = 0 → (app c p.2).size = t.size := by
            intro hz
            have hargs := hp.sizes (hp.substitutes.bcount ▸ hz)
            have hkept := hs₁.size (hsub₁.bcount.trans (hb ▸ hz)) t
            rw [htype, Term.size, ← hargs] at hkept
            rw [Term.size, hkept]
          obtain ⟨hdone, hsub, hclear⟩ := hp.resolving.resolve (hp.substitutes.mem _ (hmarkmem _ hmem))
            (f := fun _ => ⟨app c p.2, false, p.1.bcount⟩) hfin (hb ▸ hclasses) (fun _ => rfl) (fun hz _ => hsize hz)
            (fun d us _ _ _ => ⟨c, p.2, rfl⟩) fun _ hvis => absurd hvis Bool.false_ne_true
          refine ⟨hdone, ⟨hb, fun k hk => ?_, fun k hk => ?_⟩, List.forall_mem_singleton.mpr hfin, fun hz => ?_⟩
          · exact hsub.mem _ (hp.substitutes.mem _ (hmarkmem _ (hsub₁.mem k hk)))
          · rcases eq_or_ne k (root t) with rfl | hne
            · obtain ⟨-, hfalse⟩ := hclear hk
              cases hfalse
            · exact hsub₁.visited k ((hmarked k (hp.substitutes.visited k (hsub.visited k hk))).resolve_left hne)
          · exact congrArg (fun n => [n]) (hsize (hb.trans hz))
        · intro done u p hu hp
          have hb : p.1.bcount = s.bcount := hp.substitutes.bcount.trans hsub₁.bcount
          have hstep := ih hp.resolving (hb ▸ hclasses) u
          refine (hstep.mono (fun _ h => h) fun hblocked => ?_).bind fun q hq => ?_
          · refine hblocked.of_part hclasses hb (hsub₁.bcount ▸ hparts u hu) fun k hk => ?_
            exact (hmarked _ (hp.substitutes.visited _ hk)).imp_right (hsub₁.visited _)
          · refine ⟨hq.resolving, hp.substitutes.trans hq.substitutes, ?_, fun hz => ?_⟩
            · exact List.forall_mem_append.mpr ⟨hp.finite, hq.finite⟩
            · rw [List.map_append, List.map_append, hp.sizes hz, hq.sizes (hp.substitutes.bcount.trans hz)]

end Resolving

/-! ### Enough fuel -/

lemma substitute_le {n m : ℕ} (h : n ≤ m) (s : MonoTypeUnifier) (t : TyTerm) :
    (s.substitute n t).Le (s.substitute m t) := by
  induction n generalizing m s t with
  | zero => exact .inl rfl
  | succ n ih =>
    cases m with
    | zero => cases h
    | succ m =>
      simp only [MonoTypeUnifier.substitute, Outcome.bind_def]
      split_ifs
      · exact .refl _
      · refine Outcome.Le.bind (.refl _) fun p => Outcome.Le.bind (.refl _) fun uty => ?_
        split_ifs
        · exact .refl _
        · exact .refl _
        · cases uty.ty with
          | var v => exact .refl _
          | app c ts =>
            dsimp only
            refine Outcome.Le.bind (Outcome.Le.foldOver (fun p t => ?_) _ _) fun p => .refl _
            exact Outcome.Le.bind (ih (Nat.le_of_succ_le_succ h) p.1 t) fun q => .refl _

namespace Resolving

variable {E : Equations TyCtor Bytes} {s : MonoTypeUnifier} {root : TyTerm → TyTerm}

/-- The substitution into a finite type comes to an end. -/
lemma exists_substitute (h : Resolving E s root) {bc : ℕ} (hb : s.bcount = bc) (hclasses : Classes E root bc)
    {t : TyTerm} (ht : IsFinite E t) : ∃ fuel, s.substitute fuel t ≠ .runsOn := by
  have hacc := (hclasses.acc_part_iff t).mpr ht
  clear ht
  induction hacc generalizing s with
  | intro t _ ih =>
    subst hb
    cases hmono : isMonoSingular t with
    | true =>
      refine ⟨1, ?_⟩
      rw [MonoTypeUnifier.substitute, if_pos hmono]
      exact nofun
    | false =>
      obtain ⟨s₁, hs₁, hsub₁, hmem, hcases⟩ := h.substitute_cases hclasses hmono
      rcases hcases with ⟨-, u, hrun⟩ | ⟨-, hrun⟩ | ⟨-, s₂, u, -, -, -, hrun⟩ | ⟨hopen, c, ts, htype, hrun⟩
      · exact ⟨1, by rw [hrun]; exact nofun⟩
      · exact ⟨1, by rw [hrun]; exact nofun⟩
      · exact ⟨1, by rw [hrun]; exact nofun⟩
      · obtain ⟨hparts, -⟩ := hs₁.parts (hsub₁.bcount ▸ hclasses) hopen htype
        obtain ⟨hmark, -, -⟩ := hs₁.mark hmem
        have hloop := Outcome.exists_foldOver
          (f := fun fuel p t => (MonoTypeUnifier.substitute fuel p.1 t).bind fun q => .returns (q.1, p.2 ++ [q.2]))
          (fun n m p t hle => Outcome.Le.bind (substitute_le hle p.1 t) fun q => .refl _)
          (I := fun p : MonoTypeUnifier × List TyTerm => Resolving E p.1 root ∧ p.1.bcount = s.bcount) ts ?_ ?_
          (s := (_, [])) ⟨hmark, hsub₁.bcount⟩
        · obtain ⟨fuel, hfuel⟩ := hloop
          refine ⟨fuel + 1, ?_⟩
          rw [hrun]
          intro heq
          rcases Outcome.bind_eq_runsOn.mp heq with heq | ⟨p, -, hp⟩
          · exact hfuel heq
          · cases hp
        · rintro n p u q hu ⟨hp, hb⟩ hq
          obtain ⟨r, hr, hrq⟩ := Outcome.bind_eq_returns.mp hq
          obtain rfl := Outcome.returns.inj hrq
          have hfound := (hp.substitute_meets n (hb ▸ hclasses) u).of_returns hr
          exact ⟨hfound.resolving, hfound.substitutes.bcount.trans hb⟩
        · rintro p u hu ⟨hp, hb⟩
          obtain ⟨fuel, hfuel⟩ := ih u (hsub₁.bcount ▸ hparts u hu) hp hb
          refine ⟨fuel, fun heq => ?_⟩
          rcases Outcome.bind_eq_runsOn.mp heq with heq | ⟨q, -, hq⟩
          · exact hfuel heq
          · cases hq

end Resolving

/-- After all equations have been unified nothing has been substituted. -/
lemma Unified.resolving {E : Equations TyCtor Bytes} {s : MonoTypeUnifier} {root : TyTerm → TyTerm}
    (h : Unified E s root) : Resolving E s root := by
  have hopen : ∀ k, ¬ Resolved s k := by
    intro k hk
    rw [Resolved, (h.fresh k).2] at hk
    exact Nat.lt_irrefl 0 hk.1
  refine ⟨h.rooted, fun _ k _ => ?_, fun hz k => ?_, fun c ts _ => h.type_app c ts, fun k hk => absurd hk (hopen _)⟩
  · exact h.sound _ _ ((h.root_root k).symm.trans (h.type_mem (root k)).symm)
  · exact h.zero hz _ _ ((h.type_mem (root k)).trans (h.root_root k))

/-! ### The test -/

lemma unifiable_cons {t : TyTerm} {ts ts1 : List TyTerm} (hlen : (t :: ts).length = ts1.length) (fuel : ℕ) :
    unifiable fuel (t :: ts) ts1 = Outcome.catchAll
      ((Outcome.foldOver (fun s (p : TyTerm × TyTerm) => if p.1 = p.2 then pure s else s.unify fuel p.1 p.2)
        MonoTypeUnifier.empty ((t :: ts).zip ts1)).bind fun s => (s.substitute fuel t).bind fun _ => .returns true)
      false := by
  rw [unifiable, if_neg (not_not.mpr hlen)]
  rfl

/-- The test answers whether no constructors of different forms are equated and the first type is finite. -/
lemma unifiable_eq {ts0 ts1 : List TyTerm} (hlen : ts0.length = ts1.length) {fuel : ℕ} {b : Bool}
    (h : unifiable fuel ts0 ts1 = .returns b) : b = true ↔
      Joinable TyCtor.cname (ts0.zip ts1) ∧ ∀ t ∈ ts0.head?, IsFinite (ts0.zip ts1) t := by
  cases ts0 with
  | nil =>
    rw [unifiable, if_neg (not_not.mpr hlen)] at h
    cases h
    refine iff_of_true rfl ⟨fun c d ss ts heq => ?_, nofun⟩
    obtain ⟨rfl, rfl⟩ := Term.app.inj (equated_nil heq)
    exact ⟨rfl, rfl⟩
  | cons t ts =>
    rw [unifiable_cons hlen, Outcome.catchAll_eq_returns] at h
    have hunify := Unified.unifyAll_meets ((t :: ts).zip ts1) fuel
    have hhead : (∀ u ∈ (t :: ts).head?, IsFinite ((t :: ts).zip ts1) u) ↔ IsFinite ((t :: ts).zip ts1) t := by
      rw [List.head?_cons]
      exact ⟨fun hu => hu t rfl, fun ht u hu => Option.some.inj hu ▸ ht⟩
    rw [hhead]
    rcases h with h | ⟨h, rfl⟩
    · obtain ⟨s, hs, h⟩ := Outcome.bind_eq_returns.mp h
      obtain ⟨p, hp, h⟩ := Outcome.bind_eq_returns.mp h
      obtain ⟨root, hroot, -, hE⟩ := hunify.of_returns hs
      have hclasses := hroot.classes hE
      have hfound := (hroot.resolving.substitute_meets fuel hclasses t).of_returns hp
      exact iff_of_true (Outcome.returns.inj h).symm ⟨hclasses.joinable, hfound.finite t List.mem_cons_self⟩
    · refine iff_of_false nofun fun ⟨hjoinable, hfin⟩ => ?_
      rcases Outcome.bind_eq_throws.mp h with h | ⟨s, hs, h⟩
      · exact hunify.of_throws h hjoinable
      · obtain ⟨root, hroot, -, hE⟩ := hunify.of_returns hs
        have hthrows : s.substitute fuel t = .throws := by
          rcases Outcome.bind_eq_throws.mp h with h | ⟨p, -, h⟩
          · exact h
          · cases h
        rcases (hroot.resolving.substitute_meets fuel (hroot.classes hE) t).of_throws hthrows with ⟨k, hk, -⟩ | hinf
        · rw [visitedAt, (hroot.fresh _).1] at hk
          cases hk
        · exact hinf hfin

/-- The test comes to an end if no type is infinite. -/
lemma exists_unifiable {ts0 ts1 : List TyTerm} (hlen : ts0.length = ts1.length)
    (hfin : ∀ t, IsFinite (ts0.zip ts1) t) : ∃ fuel b, unifiable fuel ts0 ts1 = .returns b := by
  cases ts0 with
  | nil => exact ⟨0, true, by rw [unifiable, if_neg (not_not.mpr hlen)]; rfl⟩
  | cons t ts =>
    obtain ⟨n, hn⟩ := Unified.exists_unifyAll hfin
    cases hunify : Outcome.foldOver (fun s (p : TyTerm × TyTerm) => if p.1 = p.2 then pure s else s.unify n p.1 p.2)
      MonoTypeUnifier.empty ((t :: ts).zip ts1) with
    | runsOn => exact absurd hunify hn
    | throws =>
      refine ⟨n, false, ?_⟩
      rw [unifiable_cons hlen, hunify]
      rfl
    | returns s =>
      obtain ⟨root, hroot, -, hE⟩ := (Unified.unifyAll_meets _ n).of_returns hunify
      obtain ⟨m, hm⟩ := hroot.resolving.exists_substitute rfl (hroot.classes hE) (hfin t)
      have hmore := (Unified.unifyAll_le (Nat.le_max_left n m) ((t :: ts).zip ts1)).eq hn
      refine ⟨max n m, ?_⟩
      rw [unifiable_cons hlen, hmore, hunify, Outcome.returns_bind,
        (substitute_le (Nat.le_max_right n m) s t).eq hm]
      refine Outcome.exists_catchAll (fun hruns => ?_) false
      rcases Outcome.bind_eq_runsOn.mp hruns with hruns | ⟨p, -, hp⟩
      · exact hm hruns
      · cases hp

/-! ### Where the test is right -/

/-- The test is right where it can not answer `true`, and where all that is equated agrees and is finite. -/
theorem unifiable_iff_solvable {ts0 ts1 : List TyTerm} (hlen : ts0.length = ts1.length) :
    (∀ fuel b, unifiable fuel ts0 ts1 = .returns b → ((b = true ↔ ∃ σ, Solves σ (ts0.zip ts1)) ↔
      (Joinable TyCtor.cname (ts0.zip ts1) → (∀ t ∈ ts0.head?, IsFinite (ts0.zip ts1) t) →
        Same (ts0.zip ts1) ∧ ∀ t, IsFinite (ts0.zip ts1) t))) ∧
      ((∀ t, IsFinite (ts0.zip ts1) t) → ∃ fuel b, unifiable fuel ts0 ts1 = .returns b) := by
  refine ⟨fun fuel b h => ?_, exists_unifiable hlen⟩
  rw [unifiable_eq hlen h, exists_solves_iff]
  refine ⟨fun hiff hjoinable hhead => hiff.mp ⟨hjoinable, hhead⟩, fun himp => ?_⟩
  refine ⟨fun ⟨hjoinable, hhead⟩ => himp hjoinable hhead, fun ⟨hsame, hfin⟩ => ⟨?_, fun t _ => hfin t⟩⟩
  exact hsame.joinable

theorem unifiable_iff_solvable_array :
    (true = true ↔ ∃ σ, Solves σ [(var (ascii "a"), (app .array [var (ascii "b")] : TyTerm))]) ↔
      (Joinable TyCtor.cname [(var (ascii "a"), (app .array [var (ascii "b")] : TyTerm))] →
        (∀ t ∈ [(var (ascii "a") : TyTerm)].head?,
          IsFinite [(var (ascii "a"), (app .array [var (ascii "b")] : TyTerm))] t) →
        Same [(var (ascii "a"), (app .array [var (ascii "b")] : TyTerm))] ∧
          ∀ t, IsFinite [(var (ascii "a"), (app .array [var (ascii "b")] : TyTerm))] t) :=
  (@unifiable_iff_solvable [var (ascii "a")] [app .array [var (ascii "b")]] rfl).1 3 true (by rfl)

/-- `int, a` and `int, [a]` are unified, and only `int` is checked. -/
theorem not_unifiable_iff_solvable : ¬ ∀ ts0 ts1 : List TyTerm, ts0.length = ts1.length →
    ((∃ fuel, unifiable fuel ts0 ts1 = .returns true) ↔ ∃ σ, Solves σ (ts0.zip ts1)) := by
  intro h
  have hsolves := (h [app (.prim (ascii "int")) [], var (ascii "a")]
    [app (.prim (ascii "int")) [], app .array [var (ascii "a")]] rfl).mp ⟨3, by rfl⟩
  obtain ⟨σ, hσ⟩ := hsolves
  have heq := hσ (var (ascii "a"), app .array [var (ascii "a")]) (by simp)
  rw [subst_var, subst_app, List.map_singleton, subst_var] at heq
  have hlt : (σ (ascii "a")).size < (app TyCtor.array [σ (ascii "a")]).size := size_lt List.mem_cons_self
  rw [← heq] at hlt
  exact Nat.lt_irrefl _ hlt

end Hobbes.Lang
