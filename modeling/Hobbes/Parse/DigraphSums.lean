import Hobbes.Core.Totals
import Hobbes.Parse.DigraphF
import Mathlib.Data.Finset.Card
import Mathlib.Data.List.Chain

/-!
# What the digraph traversal sums

The nodes on the stack are a first way. A node gives away what it has when it is looked at, which
is not all that it gets if it is on the stack then.
-/

namespace Hobbes.Parse.DigraphF

open Core

variable {X Y : Type*} [DecidableEq X] {D : DigraphF X Y}

/-! ### Sums -/

section Total

open Classical

variable [hc : Std.Commutative D.append] [Std.Associative D.append] {S T : X → Prop} {x y : X}

lemma total_congr (h : ∀ z ∈ D.xs, S z ↔ T z) : D.total S x = D.total T x := by
  unfold total
  rw [Finset.filter_congr fun z hz => h z (List.mem_toFinset.1 hz)]

variable [hi : Std.IdempotentOp D.append]

lemma total_eq (hx : x ∈ D.xs) : D.total (· = x) x = D.fp x := by
  have hfilter : D.xs.toFinset.filter (· = x) = {x} := by
    ext z
    rw [Finset.mem_filter, List.mem_toFinset, Finset.mem_singleton]
    exact ⟨And.right, fun h => ⟨h ▸ hx, h⟩⟩
  unfold total
  rw [Finset.filter_congr_decidable, hfilter, Finset.fold_singleton, hi.idempotent]

lemma append_total (hy : y ∈ D.xs) (hTy : T y) :
    D.append (D.total S x) (D.total T y) = D.total (fun z => S z ∨ T z) x := by
  have hmem : y ∈ D.xs.toFinset.filter T := Finset.mem_filter.2 ⟨List.mem_toFinset.2 hy, hTy⟩
  refine (Totals.op_fold_union hmem).trans ?_
  unfold total
  congr 1
  ext z
  simp only [Finset.mem_union, Finset.mem_filter, ← and_or_left]

lemma total_start (hx : x ∈ D.xs) (hy : y ∈ D.xs) (hSx : S x) (hSy : S y) : D.total S x = D.total S y :=
  Totals.fold_start (Finset.mem_filter.2 ⟨List.mem_toFinset.2 hx, hSx⟩)
    (Finset.mem_filter.2 ⟨List.mem_toFinset.2 hy, hSy⟩)

lemma total_eq_total_iff (hST : ∀ z, S z → T z) :
    D.total S x = D.total T x ↔ ∀ z ∈ D.xs, T z → D.append (D.total S x) (D.fp z) = D.total S x := by
  have hsub : D.xs.toFinset.filter S ⊆ D.xs.toFinset.filter T :=
    fun z hz => Finset.mem_filter.2 ⟨(Finset.mem_filter.1 hz).1, hST z (Finset.mem_filter.1 hz).2⟩
  refine (Totals.fold_eq_fold_iff hsub).trans ?_
  simp only [Finset.mem_filter, List.mem_toFinset, and_imp, hc.comm _ (D.fp _)]
  rfl

end Total

/-! ### The order of the nodes -/

lemma mem_iff_before {done rest : List X} {x y : X} (hxs : D.xs = done ++ x :: rest) :
    y ∈ done ↔ D.Before y x := by
  have hnodup := D.nodup
  rw [hxs] at hnodup
  have hx : D.xs.idxOf x = done.length := by
    rw [hxs, List.idxOf_append_of_notMem fun h => (List.nodup_append.1 hnodup).2.2 x h x List.mem_cons_self rfl,
      List.idxOf_cons_self, Nat.add_zero]
  unfold Before
  rw [hx]
  constructor
  · intro hmem
    rw [hxs, List.idxOf_append_of_mem hmem]
    exact List.idxOf_lt_length_of_mem hmem
  · intro hlt
    by_contra hmem
    rw [hxs, List.idxOf_append_of_notMem hmem] at hlt
    omega

lemma before_of_notMem {done rest : List X} {x y : X} (hxs : D.xs = done ++ x :: rest) (hy : y ∈ D.xs)
    (hdone : y ∉ done) (hne : y ≠ x) : D.Before x y := by
  have hle : ¬ D.xs.idxOf y < D.xs.idxOf x := fun h => hdone ((mem_iff_before hxs).2 h)
  have hinj : D.xs.idxOf y ≠ D.xs.idxOf x := fun h => hne ((List.idxOf_inj hy).1 h)
  unfold Before
  omega

/-! ### Ways -/

omit [DecidableEq X] in
lemma Way.cons {s : List X} (h : D.Way s) {x : X} (hx : x ∈ D.xs) (hs : x ∉ s) (hr : ∀ w ∈ s.head?, D.r w x) :
    D.Way (x :: s) where
  nodup := List.nodup_cons.2 ⟨hs, h.nodup⟩
  sub := List.forall_mem_cons.2 ⟨hx, h.sub⟩
  chain := List.isChain_cons.2 ⟨hr, h.chain⟩

omit [DecidableEq X] in
lemma Way.of_append {t s : List X} (h : D.Way (t ++ s)) : D.Way s where
  nodup := h.nodup.of_append_right
  sub x hx := h.sub x (List.mem_append_right t hx)
  chain := (List.isChain_append.1 h.chain).2.1

lemma sooner_of {a b : X} (h : D.Before a b) (t t' pre : List X) : D.Sooner (t ++ a :: pre) (t' ++ b :: pre) := by
  unfold Sooner
  simp only [List.reverse_append, List.reverse_cons, List.append_assoc, List.singleton_append]
  exact List.Lex.append_left _ (.rel h) _

instance : Std.Asymm D.Before := ⟨fun _ _ h h' => absurd (Nat.lt_trans h h') (Nat.lt_irrefl _)⟩

/-- There is one first way to a node. -/
lemma First.unique {q q' : List X} (h : D.First q) (h' : D.First q') (hhead : q'.head? = q.head?) : q' = q := by
  rcases h.2 q' h'.1 hhead with heq | hlt
  · exact heq
  · rcases h'.2 q h.1 hhead.symm with heq | hlt'
    · exact heq.symm
    · have hasymm : Std.Asymm (List.Lex D.Before) := inferInstance
      exact absurd hlt' (hasymm.asymm _ _ hlt)

omit [DecidableEq X] in
/-- A node has one node on top of it. -/
lemma eq_of_split {t t' pre pre' : List X} {c c' y : X} (hnodup : (t ++ c :: y :: pre).Nodup)
    (h : t ++ c :: y :: pre = t' ++ c' :: y :: pre') : c = c' := by
  rw [List.append_cons] at hnodup
  rw [List.append_cons t, List.append_cons t'] at h
  have hparts := List.nodup_append.1 hnodup
  have hnot : y ∉ t ++ [c] := fun hmem => hparts.2.2 y hmem y List.mem_cons_self rfl
  obtain ⟨heq, -, -⟩ := (List.append_cons_inj_of_notMem hnot (List.nodup_cons.1 hparts.2.1).1).1 h
  exact (List.cons.inj (List.append_inj' heq rfl).2).1

/-! ### What a node gathers -/

section Gathers

variable {p p' : X → Prop} {v w x y z : X}

lemma Gathers.mono (h : D.Gathers p v z) (hp : ∀ w ∈ D.xs, p w → p' w) : D.Gathers p' v z := by
  cases h with
  | here => exact .here p' v
  | step hw hr hne hpw h => exact .step hw hr hne (hp _ hw hpw) h

lemma gathers_congr (hp : ∀ w ∈ D.xs, p w ↔ p' w) : D.Gathers p v z ↔ D.Gathers p' v z :=
  ⟨fun h => h.mono fun w hw => (hp w hw).1, fun h => h.mono fun w hw => (hp w hw).2⟩

lemma gathers_nil : D.Gathers (· ∈ []) v z ↔ z = v := by
  constructor
  · intro h
    cases h with
    | here => rfl
    | step _ _ _ hp => exact absurd hp List.not_mem_nil
  · rintro rfl
    exact .here _ z

lemma gathers_concat (hy : y ∈ D.xs) (done : List X) :
    D.Gathers (· ∈ done ++ [y]) v z ↔
      D.Gathers (· ∈ done) v z ∨ D.r v y ∧ y ≠ v ∧ D.Gathers (D.Early v y) y z := by
  constructor
  · intro h
    cases h with
    | here => exact .inl (.here _ v)
    | step hw hr hne hp h =>
      rcases List.mem_append.1 hp with hp | hp
      · exact .inl (.step hw hr hne hp h)
      · obtain rfl := List.mem_singleton.1 hp
        exact .inr ⟨hr, hne, h⟩
  · rintro (h | ⟨hr, hne, h⟩)
    · exact h.mono fun w _ hw => List.mem_append_left [y] hw
    · exact .step hy hr hne (List.mem_append_right done (List.mem_singleton_self y)) h

lemma Gathers.reaches (h : D.Gathers p v z) : D.Reaches v z := by
  induction h with
  | here => exact .refl
  | step hw hr _ _ _ ih => exact .head ⟨hw, hr⟩ ih

omit [DecidableEq X] in
lemma Reaches.mem (h : D.Reaches v z) (hv : v ∈ D.xs) : z ∈ D.xs := by
  cases h with
  | refl => exact hv
  | tail _ h => exact h.1

end Gathers

/-! ### The invariant -/

/-- A way is later than where the traversal is, with the nodes that it has passed from the top. -/
def Later (D : DigraphF X Y) (s done q : List X) : Prop :=
  (∃ t a t' b pre, s = t ++ a :: pre ∧ q = t' ++ b :: pre ∧ D.Before a b) ∨ ∃ t y, q = t ++ y :: s ∧ y ∉ done

section Frame

variable {s : List X} {st st' st'' : State X Y}

/-- Marks stay, and the nodes on the stack are not changed. -/
structure Frame (s : List X) (st st' : State X Y) : Prop where
  n_eq : ∀ v ∈ s, st'.n v = st.n v
  f_eq : ∀ v ∈ s, st'.f v = st.f v
  marks : ∀ v, st.n v ≠ 0 → st'.n v ≠ 0

omit [DecidableEq X] in
lemma Frame.trans (h : Frame s st st') (h' : Frame s st' st'') : Frame s st st'' where
  n_eq v hv := (h'.n_eq v hv).trans (h.n_eq v hv)
  f_eq v hv := (h'.f_eq v hv).trans (h.f_eq v hv)
  marks v hv := h'.marks v (h.marks v hv)

def unmarked (D : DigraphF X Y) (st : State X Y) : ℕ := (D.xs.toFinset.filter (st.n · = 0)).card

lemma Frame.unmarked_le (h : Frame s st st') : D.unmarked st' ≤ D.unmarked st := by
  refine Finset.card_le_card fun v hv => ?_
  rw [Finset.mem_filter] at hv ⊢
  exact ⟨hv.1, Classical.byContradiction fun hn => h.marks v hn hv.2⟩

end Frame

variable [Inhabited Y] [Std.Commutative D.append] [Std.Associative D.append]

structure Inv (D : DigraphF X Y) [Std.Commutative D.append] [Std.Associative D.append] (s done : List X)
    (st : State X Y) : Prop where
  stack : st.s = s
  first : ∀ t x pre, s = t ++ x :: pre → D.First (x :: pre)
  marked : ∀ v ∈ s, st.n v ≠ 0
  inside : ∀ v, st.n v ≠ 0 → v ∈ D.xs
  closed : ∀ v, st.n v ≠ 0 → v ∉ s → ∀ y ∈ D.xs, D.r v y → st.n y ≠ 0
  later : ∀ q v, D.Way q → q.head? = some v → st.n v = 0 → D.Later s done q
  unset : ∀ v, st.n v = 0 → st.f v = default
  /-- A node that was left has all that it gathers. -/
  black : ∀ v, st.n v ≠ 0 → v ∉ s → st.f v = D.total (D.Gathered v) v
  /-- A node below another one has what it gathered before the other one. -/
  inner : ∀ t c w pre, s = t ++ c :: w :: pre → st.f w = D.total (D.Gathers (D.Before · c) w) w

/-- The node at the top has what it gathered so far. -/
def Top (D : DigraphF X Y) [Std.Commutative D.append] [Std.Associative D.append] (s done : List X)
    (st : State X Y) : Prop :=
  ∀ x ∈ s.head?, st.f x = D.total (D.Gathers (· ∈ done) x) x

namespace Inv

variable {s done rest : List X} {st : State X Y} {x y : X} {d : ℕ}

lemma way (h : Inv D s done st) : D.Way s := by
  cases s with
  | nil => exact ⟨.nil, nofun, .nil⟩
  | cons x s => exact (h.first [] x s rfl).1

/-- What has been passed from the top is marked. -/
lemma passed (h : Inv D s done st) (hy : y ∈ D.xs) (hdone : y ∈ done) (hr : ∀ w ∈ s.head?, D.r w y) :
    st.n y ≠ 0 := by
  intro hn
  have hway : D.Way (y :: s) := h.way.cons hy (fun hmem => h.marked y hmem hn) hr
  rcases h.later _ y hway rfl hn with ⟨t, a, t', b, pre, rfl, heq, hlt⟩ | ⟨t, z, heq, hz⟩
  · obtain ⟨-, hab⟩ := List.append_inj' (show (y :: t) ++ a :: pre = t' ++ b :: pre from heq) rfl
    rw [(List.cons.inj hab).1] at hlt
    exact Nat.lt_irrefl _ hlt
  · obtain ⟨-, hyz⟩ := List.append_inj' (show [] ++ y :: s = t ++ z :: s from heq) rfl
    rw [← (List.cons.inj hyz).1] at hz
    exact hz hdone

/-- The way to a node that is entered is the first one to it. -/
lemma first_cons (h : Inv D s done st) (hxs : D.xs = done ++ x :: rest) (hr : ∀ w ∈ s.head?, D.r w x)
    (hn : st.n x = 0) : D.First (x :: s) := by
  have hx : x ∈ D.xs := hxs ▸ List.mem_append_right done List.mem_cons_self
  refine ⟨h.way.cons hx (fun hmem => h.marked x hmem hn) hr, fun q hq hhead => ?_⟩
  rcases h.later q x hq hhead hn with ⟨t, a, t', b, pre, rfl, rfl, hlt⟩ | ⟨t, y, rfl, hy⟩
  · exact .inr (sooner_of hlt (x :: t) t' pre)
  · by_cases hyx : y = x
    · subst hyx
      cases t with
      | nil => exact .inl rfl
      | cons z t =>
        obtain rfl := Option.some.inj hhead
        exact absurd (List.mem_append_right t List.mem_cons_self) (List.nodup_cons.1 hq.nodup).1
    · have hmem : y ∈ D.xs := hq.sub y (List.mem_append_right t List.mem_cons_self)
      exact .inr (sooner_of (before_of_notMem hxs hmem hy hyx) [] t s)

lemma enter (h : Inv D s done st) (htop : Top D s done st) (hxs : D.xs = done ++ x :: rest)
    (hr : ∀ w ∈ s.head?, D.r w x) (hn : st.n x = 0) (hd : d ≠ 0) (b : Y) :
    Inv D (x :: s) [] { s := x :: st.s, n := Function.update st.n x d, f := Function.update st.f x b } := by
  have hx : x ∈ D.xs := hxs ▸ List.mem_append_right done List.mem_cons_self
  have hne : ∀ v, st.n v ≠ 0 → v ≠ x := fun v hv hvx => hv (hvx ▸ hn)
  have hmark : ∀ v, Function.update st.n x d v ≠ 0 ↔ v = x ∨ st.n v ≠ 0 := by
    intro v
    by_cases hvx : v = x
    · subst hvx
      simp [hd]
    · simp [hvx]
  refine ⟨by rw [h.stack], ?_, ?_, ?_, ?_, ?_, ?_, ?_, ?_⟩
  · intro t v pre heq
    cases t with
    | nil =>
      obtain ⟨rfl, rfl⟩ := List.cons.inj heq
      exact h.first_cons hxs hr hn
    | cons z t => exact h.first t v pre (List.cons.inj heq).2
  · intro v hv
    rw [hmark]
    exact (List.mem_cons.1 hv).imp_right (h.marked v)
  · intro v hv
    rcases (hmark v).1 hv with rfl | hv
    · exact hx
    · exact h.inside v hv
  · intro v hv hvs y hy hry
    rw [List.mem_cons, not_or] at hvs
    rw [hmark]
    exact .inr (h.closed v (((hmark v).1 hv).resolve_left hvs.1) hvs.2 y hy hry)
  · intro q v hq hhead hv
    have hv' : ¬ (v = x ∨ st.n v ≠ 0) := fun hor => (hmark v).2 hor hv
    rw [not_or, not_not] at hv'
    rcases h.later q v hq hhead hv'.2 with ⟨t, a, t', b, pre, rfl, rfl, hlt⟩ | ⟨t, y, rfl, hy⟩
    · exact .inl ⟨x :: t, a, t', b, pre, rfl, rfl, hlt⟩
    · by_cases hyx : y = x
      · subst hyx
        rcases List.eq_nil_or_concat t with rfl | ⟨t, z, rfl⟩
        · exact absurd (Option.some.inj hhead).symm hv'.1
        · exact .inr ⟨t, z, by rw [List.concat_eq_append, List.append_assoc, List.singleton_append], List.not_mem_nil⟩
      · have hmem : y ∈ D.xs := hq.sub y (List.mem_append_right t List.mem_cons_self)
        exact .inl ⟨[], x, t, y, s, rfl, rfl, before_of_notMem hxs hmem hy hyx⟩
  · intro v hv
    have hv' : ¬ (v = x ∨ st.n v ≠ 0) := fun hor => (hmark v).2 hor hv
    rw [not_or, not_not] at hv'
    exact (Function.update_of_ne hv'.1 b st.f).trans (h.unset v hv'.2)
  · intro v hv hvs
    rw [List.mem_cons, not_or] at hvs
    have hv' : st.n v ≠ 0 := ((hmark v).1 hv).resolve_left hvs.1
    exact (Function.update_of_ne hvs.1 b st.f).trans (h.black v hv' hvs.2)
  · intro t c w pre heq
    cases t with
    | nil =>
      obtain ⟨rfl, rfl⟩ := List.cons.inj heq
      have hw : w ≠ x := hne w (h.marked w List.mem_cons_self)
      -- The top is left behind with what it gathered from the nodes before `x`.
      refine (Function.update_of_ne hw b st.f).trans ((htop w rfl).trans (total_congr fun z _ => ?_))
      exact gathers_congr fun y _ => mem_iff_before hxs
    | cons z t =>
      obtain ⟨-, rfl⟩ := List.cons.inj heq
      have hw : w ≠ x := hne w (h.marked w (by simp))
      exact (Function.update_of_ne hw b st.f).trans (h.inner t c w pre rfl)

/-- A way from a marked node that goes around the stack comes to marked nodes only. -/
lemma marked_of_way (h : Inv D s done st) (hy : st.n y ≠ 0) {t : List X} (hway : D.Way (t ++ y :: s)) :
    ∀ v ∈ (t ++ y :: s).head?, st.n v ≠ 0 := by
  induction t with
  | nil =>
    intro v hv
    obtain rfl := Option.some.inj hv
    exact hy
  | cons z t ih =>
    intro v hv
    obtain rfl := Option.some.inj hv
    have htail : D.Way (t ++ y :: s) := hway.of_append (t := [z])
    obtain ⟨u, hu⟩ : ∃ u, u ∈ (t ++ y :: s).head? := by cases t <;> exact ⟨_, rfl⟩
    have hus : u ∉ s := by
      have hdisj := List.nodup_append.1 htail.nodup
      cases t with
      | nil =>
        obtain rfl := Option.some.inj hu
        exact (List.nodup_cons.1 hdisj.2.1).1
      | cons w t =>
        obtain rfl := Option.some.inj hu
        exact fun hmem => hdisj.2.2 w List.mem_cons_self w (List.mem_cons_of_mem y hmem) rfl
    exact h.closed u (ih htail u hu) hus z (hway.sub z List.mem_cons_self)
      ((List.isChain_cons.1 hway.chain).1 u hu)

/-- Pass a node that is marked, or that the top has no step to. -/
lemma pass (h : Inv D s done st) (hy : st.n y ≠ 0 ∨ ∃ w ∈ s.head?, ¬ D.r w y) : Inv D s (done ++ [y]) st := by
  refine { h with later := fun q v hq hhead hv => ?_ }
  rcases h.later q v hq hhead hv with hleft | ⟨t, z, rfl, hz⟩
  · exact .inl hleft
  · refine .inr ⟨t, z, rfl, fun hmem => ?_⟩
    rcases List.mem_append.1 hmem with hmem | hmem
    · exact hz hmem
    · obtain rfl := List.mem_singleton.1 hmem
      rcases hy with hy | ⟨w, hw, hr⟩
      · exact h.marked_of_way hy hq v hhead hv
      · exact hr ((List.isChain_cons.1 hq.of_append.chain).1 w hw)

/-- The value of the top is about nothing else. -/
lemma update_top (h : Inv D (x :: s) done st) (b : Y) :
    Inv D (x :: s) done { st with f := Function.update st.f x b } := by
  have hne : ∀ v, v ∉ x :: s → v ≠ x := fun v hv hvx => hv (hvx ▸ List.mem_cons_self)
  refine { h with unset := fun v hv => ?_, black := fun v hv hvs => ?_, inner := fun t c w pre heq => ?_ }
  · have hvx : v ≠ x := fun hvx => h.marked v (hvx ▸ List.mem_cons_self) hv
    exact (Function.update_of_ne hvx b st.f).trans (h.unset v hv)
  · exact (Function.update_of_ne (hne v hvs) b st.f).trans (h.black v hv hvs)
  · have hwx : w ≠ x := by
      rintro rfl
      have hnodup := h.way.nodup
      cases t with
      | nil =>
        obtain ⟨rfl, rfl⟩ := List.cons.inj heq
        exact (List.nodup_cons.1 hnodup).1 List.mem_cons_self
      | cons z t =>
        obtain ⟨rfl, rfl⟩ := List.cons.inj heq
        exact (List.nodup_cons.1 hnodup).1 (by simp)
    exact (Function.update_of_ne hwx b st.f).trans (h.inner t c w pre heq)

lemma leave (h : Inv D (x :: s) D.xs st) (htop : Top D (x :: s) D.xs st) (hxs : D.xs = done ++ x :: rest)
    (hd : d ≠ 0) : Inv D s (done ++ [x]) { st with n := Function.update st.n x d, s := s } := by
  have hmark : ∀ v, Function.update st.n x d v = 0 ↔ st.n v = 0 := by
    intro v
    by_cases hvx : v = x
    · subst hvx
      simp [hd, h.marked v List.mem_cons_self]
    · simp [hvx]
  refine ⟨rfl, ?_, ?_, ?_, ?_, ?_, ?_, ?_, ?_⟩
  · intro t v pre heq
    exact h.first (x :: t) v pre (by rw [heq]; rfl)
  · intro v hv
    exact (hmark v).not.2 (h.marked v (List.mem_cons_of_mem x hv))
  · intro v hv
    exact h.inside v ((hmark v).not.1 hv)
  · intro v hv hvs y hy hr
    refine (hmark y).not.2 ?_
    by_cases hvx : v = x
    · subst hvx
      refine h.passed hy hy fun w hw => ?_
      obtain rfl := Option.some.inj hw
      exact hr
    · exact h.closed v ((hmark v).not.1 hv) (List.not_mem_cons_of_ne_of_not_mem hvx hvs) y hy hr
  · intro q v hq hhead hv
    rcases h.later q v hq hhead ((hmark v).1 hv) with ⟨t, a, t', b, pre, heq, rfl, hlt⟩ | ⟨t, y, rfl, hy⟩
    · cases t with
      | nil =>
        obtain ⟨rfl, rfl⟩ := List.cons.inj heq
        refine .inr ⟨t', b, rfl, fun hmem => ?_⟩
        rcases List.mem_append.1 hmem with hmem | hmem
        · exact Nat.lt_asymm hlt ((mem_iff_before hxs).1 hmem)
        · rw [List.mem_singleton.1 hmem] at hlt
          exact Nat.lt_irrefl _ hlt
      | cons z t => exact .inl ⟨t, a, t', b, pre, (List.cons.inj heq).2, rfl, hlt⟩
    · exact absurd (hq.sub y (List.mem_append_right t List.mem_cons_self)) hy
  · intro v hv
    exact h.unset v ((hmark v).1 hv)
  · intro v hv hvs
    by_cases hvx : v = x
    · subst hvx
      exact (htop v rfl).trans (total_congr fun z _ => gathers_congr fun w hw => iff_of_true hw trivial)
    · exact h.black v ((hmark v).not.1 hv) (List.not_mem_cons_of_ne_of_not_mem hvx hvs)
  · intro t c w pre heq
    exact h.inner (x :: t) c w pre (by rw [heq]; rfl)

/-! ### Steps -/

/-- The value that the top is given by a node that is not left behind. -/
lemma value (h : Inv D (x :: s) done st) (hy : st.n y ≠ 0) (hne : y ≠ x) :
    st.f y = D.total (D.Gathers (D.Early x y) y) y := by
  have hfirst : D.First (x :: s) := h.first [] x s rfl
  by_cases hys : y ∈ s
  · -- What was gathered up to the way to the top is what is early for it.
    obtain ⟨u, pre, rfl⟩ := List.append_of_mem hys
    obtain ⟨t, c, htc⟩ : ∃ t c, x :: u = t ++ [c] := by
      rcases List.eq_nil_or_concat (x :: u) with hnil | ⟨t, c, htc⟩
      · exact absurd hnil nofun
      · exact ⟨t, c, by rw [htc, List.concat_eq_append]⟩
    have hsplit : x :: (u ++ y :: pre) = t ++ c :: y :: pre := by
      rw [← List.cons_append, htc, List.append_assoc, List.singleton_append]
    rw [h.inner t c y pre hsplit]
    refine total_congr fun z _ => gathers_congr fun w _ => ⟨fun hlt t' c' pre' hf hhead => ?_, fun hearly => ?_⟩
    · have heq : t' ++ c' :: y :: pre' = t ++ c :: y :: pre := hsplit ▸ hfirst.unique hf hhead
      have hnodup : (t ++ c :: y :: pre).Nodup := hsplit ▸ hfirst.1.nodup
      rwa [eq_of_split hnodup heq.symm] at hlt
    · exact hearly t c pre (hsplit ▸ hfirst) (by rw [← hsplit]; rfl)
  · have hys' : y ∉ x :: s := List.not_mem_cons_of_ne_of_not_mem hne hys
    rw [h.black y hy hys']
    refine total_congr fun z _ => gathers_congr fun w _ => iff_of_true trivial fun t c pre hf hhead => ?_
    rw [← hfirst.unique hf hhead] at hys'
    exact absurd (List.mem_append_right t (List.mem_cons_of_mem c List.mem_cons_self)) hys'

end Inv

lemma append_gathers [hi : Std.IdempotentOp D.append] {s done done' : List X} {st : State X Y} {x y : X}
    (h : Inv D (x :: s) done' st) (hfx : st.f x = D.total (D.Gathers (· ∈ done) x) x) (hy : y ∈ D.xs)
    (hr : D.r x y) (hn : st.n y ≠ 0) :
    D.append (st.f x) (st.f y) = D.total (D.Gathers (· ∈ done ++ [y]) x) x := by
  by_cases hyx : y = x
  · subst hyx
    rw [hi.idempotent, hfx]
    refine total_congr fun z _ => ?_
    simp only [gathers_concat hy, ne_eq, not_true, false_and, and_false, or_false]
  · rw [hfx, h.value hn hyx, append_total hy (.here _ y)]
    refine total_congr fun z _ => ?_
    simp only [gathers_concat hy, hr, ne_eq, hyx, not_false_eq_true, true_and]

/-! ### Runs -/

section Runs

variable [Std.IdempotentOp D.append] {s done rest : List X} {st st' st'' : State X Y} {x y : X} {k : ℕ}

omit [Inhabited Y] [Std.Commutative D.append] [Std.Associative D.append] [Std.IdempotentOp D.append] in
lemma visit_eq {go : X → State X Y → Option (State X Y)} (hr : D.r x y)
    (hturn : (if st.n y = 0 then go y st else some st) = some st') :
    visit D go x st y = some { st' with f := Function.update st'.f x (D.append (st'.f x) (st'.f y)) } := by
  rw [visit, if_pos hr]
  by_cases hn : st.n y = 0
  · rw [if_pos hn] at hturn
    simp [hn, hturn]
  · obtain rfl := Option.some.inj ((if_neg hn).symm.trans hturn)
    simp [hn]

/-- The node that is next, if it was not visited yet, is traversed. -/
def Traverses (D : DigraphF X Y) [Std.Commutative D.append] [Std.Associative D.append] (k : ℕ) : Prop :=
  ∀ s done x rest st, D.xs = done ++ x :: rest → Inv D s done st → Top D s done st → (∀ w ∈ s.head?, D.r w x) →
    st.n x = 0 → D.unmarked st ≤ k → ∃ st', traverse D k x st = some st' ∧ Inv D s (done ++ [x]) st' ∧ Frame s st st'

omit [Std.IdempotentOp D.append] in
/-- After its turn a node is passed. -/
lemma Traverses.turn (hk : Traverses D k) (hxs : D.xs = done ++ y :: rest) (h : Inv D s done st)
    (htop : Top D s done st) (hr : ∀ w ∈ s.head?, D.r w y) (hle : D.unmarked st ≤ k) :
    ∃ st', (if st.n y = 0 then traverse D k y st else some st) = some st' ∧ Inv D s (done ++ [y]) st' ∧
      Frame s st st' := by
  by_cases hn : st.n y = 0
  · rw [if_pos hn]
    exact hk s done y rest st hxs h htop hr hn hle
  · rw [if_neg hn]
    exact ⟨st, rfl, h.pass (.inl hn), fun _ _ => rfl, fun _ _ => rfl, fun _ hv => hv⟩

lemma Traverses.visit (hk : Traverses D k) (hxs : D.xs = done ++ y :: rest) (h : Inv D (x :: s) done st)
    (htop : Top D (x :: s) done st) (hle : D.unmarked st ≤ k) :
    ∃ st', visit D (traverse D k) x st y = some st' ∧ Inv D (x :: s) (done ++ [y]) st' ∧
      Top D (x :: s) (done ++ [y]) st' ∧ Frame s st st' ∧ st'.n x = st.n x := by
  have hy : y ∈ D.xs := hxs ▸ List.mem_append_right done List.mem_cons_self
  by_cases hr : D.r x y = true
  · obtain ⟨st', hturn, h', hframe⟩ := hk.turn hxs h htop (by rintro w ⟨⟩; exact hr) hle
    have hn : st'.n y ≠ 0 :=
      h'.passed hy (List.mem_append_right done (List.mem_singleton_self y)) (by rintro w ⟨⟩; exact hr)
    have hfx : st'.f x = D.total (D.Gathers (· ∈ done) x) x :=
      (hframe.f_eq x List.mem_cons_self).trans (htop x rfl)
    have hxs' : ∀ v ∈ s, v ≠ x := fun v hv hvx => (List.nodup_cons.1 h.way.nodup).1 (hvx ▸ hv)
    refine ⟨{ st' with f := Function.update st'.f x (D.append (st'.f x) (st'.f y)) }, ?_, ?_, ?_, ⟨?_, ?_, ?_⟩, ?_⟩
    · exact visit_eq hr hturn
    · exact h'.update_top _
    · rintro w ⟨⟩
      exact (Function.update_self x _ _).trans (append_gathers h' hfx hy hr hn)
    · exact fun v hv => hframe.n_eq v (List.mem_cons_of_mem x hv)
    · exact fun v hv => (Function.update_of_ne (hxs' v hv) _ _).trans (hframe.f_eq v (List.mem_cons_of_mem x hv))
    · exact hframe.marks
    · exact hframe.n_eq x List.mem_cons_self
  · refine ⟨st, by rw [DigraphF.visit, if_neg hr], h.pass (.inr ⟨x, rfl, hr⟩), ?_, ⟨?_, ?_, ?_⟩, rfl⟩
    · rintro w ⟨⟩
      refine (htop x rfl).trans (total_congr fun z _ => ?_)
      simp only [gathers_concat hy, hr, Bool.false_eq_true, false_and, or_false]
    · exact fun _ _ => rfl
    · exact fun _ _ => rfl
    · exact fun _ hv => hv

lemma Traverses.visits (hk : Traverses D k) (hxs : D.xs = done ++ rest) (h : Inv D (x :: s) done st)
    (htop : Top D (x :: s) done st) (hle : D.unmarked st ≤ k) :
    ∃ st', rest.foldlM (DigraphF.visit D (traverse D k) x) st = some st' ∧ Inv D (x :: s) D.xs st' ∧
      Top D (x :: s) D.xs st' ∧ Frame s st st' ∧ st'.n x = st.n x := by
  induction rest generalizing done st with
  | nil =>
    rw [List.append_nil] at hxs
    exact ⟨st, rfl, hxs ▸ h, hxs ▸ htop, ⟨fun _ _ => rfl, fun _ _ => rfl, fun _ hv => hv⟩, rfl⟩
  | cons y rest ih =>
    obtain ⟨st₁, hvisit, h₁, htop₁, hframe, hnx⟩ := hk.visit hxs h htop hle
    obtain ⟨st', hvisits, h', htop', hframe', hnx'⟩ :=
      ih (by rw [hxs, List.append_assoc, List.singleton_append]) h₁ htop₁ (hframe.unmarked_le.trans hle)
    refine ⟨st', ?_, h', htop', hframe.trans hframe', hnx'.trans hnx⟩
    rw [List.foldlM_cons, hvisit]
    exact hvisits

omit [Inhabited Y] [Std.Commutative D.append] [Std.Associative D.append] [Std.IdempotentOp D.append] in
lemma joinScc_top (x : X) (s : List X) (st : State X Y) :
    joinScc x (x :: s) st = { st with n := Function.update st.n x inf, s := s } := by
  rw [joinScc]
  exact if_pos rfl

def entered (D : DigraphF X Y) (x : X) (st : State X Y) : State X Y :=
  { s := x :: st.s, n := Function.update st.n x (x :: st.s).length, f := Function.update st.f x (D.fp x) }

lemma traverses (k : ℕ) : Traverses D k := by
  induction k with
  | zero =>
    intro s done x rest st hxs _ _ _ hn hle
    have hx : x ∈ D.xs.toFinset.filter (st.n · = 0) := by simp [hxs, hn]
    exact absurd (Finset.card_pos.2 ⟨x, hx⟩) (Nat.not_lt_of_le hle)
  | succ k ih =>
    intro s done x rest st hxs h htop hr hn hle
    have hx : x ∈ D.xs := hxs ▸ List.mem_append_right done List.mem_cons_self
    have hd : (x :: st.s).length ≠ 0 := by simp
    have hsx : ∀ v ∈ s, v ≠ x := fun v hv hvx => h.marked v hv (hvx ▸ hn)
    have h₁ : Inv D (x :: s) [] (entered D x st) := h.enter htop hxs hr hn hd (D.fp x)
    have htop₁ : Top D (x :: s) [] (entered D x st) := by
      rintro w ⟨⟩
      rw [total_congr fun z _ => gathers_nil, total_eq hx]
      exact Function.update_self x _ _
    have hle₁ : D.unmarked (entered D x st) ≤ k := by
      refine Nat.le_of_lt_succ (Nat.lt_of_lt_of_le (Finset.card_lt_card ?_) hle)
      refine Finset.ssubset_iff_of_subset (fun v hv => ?_) |>.2 ⟨x, by simp [hx, hn], fun hmem => ?_⟩
      · rw [Finset.mem_filter] at hv ⊢
        by_cases hvx : v = x
        · exact absurd (hvx ▸ hv.2) (by simp [entered])
        · exact ⟨hv.1, (Function.update_of_ne hvx _ _).symm.trans hv.2⟩
      · exact absurd (Finset.mem_filter.1 hmem).2 (by simp [entered])
    obtain ⟨st₂, hvisits, h₂, htop₂, hframe, hnx⟩ := ih.visits (show D.xs = [] ++ D.xs from rfl) h₁ htop₁ hle₁
    refine ⟨{ st₂ with n := Function.update st₂.n x inf, s := s }, ?_, ?_, ⟨?_, ?_, ?_⟩⟩
    · have hnx' : st₂.n x = (x :: st.s).length := hnx.trans (Function.update_self x _ _)
      unfold entered at hvisits
      rw [traverse]
      simp only [hvisits, Option.bind_eq_bind, Option.bind_some, if_pos hnx', h₂.stack, joinScc_top]
      rfl
    · exact h₂.leave htop₂ hxs (by decide)
    · intro v hv
      have hvx : v ≠ x := hsx v hv
      calc Function.update st₂.n x inf v = st₂.n v := Function.update_of_ne hvx _ _
        _ = Function.update st.n x (x :: st.s).length v := hframe.n_eq v hv
        _ = st.n v := Function.update_of_ne hvx _ _
    · intro v hv
      exact (hframe.f_eq v hv).trans (Function.update_of_ne (hsx v hv) _ _)
    · intro v hv
      by_cases hvx : v = x
      · simp [hvx, inf]
      · refine (Function.update_of_ne hvx _ _).trans_ne (hframe.marks v ?_)
        exact (Function.update_of_ne hvx _ _).trans_ne hv

omit [Std.IdempotentOp D.append] in
lemma inv_start : Inv D [] [] ⟨[], fun _ => 0, fun _ => default⟩ := by
  refine ⟨rfl, ?_, nofun, fun v hv => absurd rfl hv, fun v hv => absurd rfl hv, fun q v _ hhead _ => ?_,
    fun _ _ => rfl, fun v hv => absurd rfl hv, ?_⟩
  · intro t x pre heq
    exact absurd heq.symm (by simp)
  · rcases List.eq_nil_or_concat q with rfl | ⟨t, y, rfl⟩
    · exact absurd hhead nofun
    · exact .inr ⟨t, y, List.concat_eq_append, List.not_mem_nil⟩
  · intro t c w pre heq
    exact absurd heq.symm (by simp)

lemma exists_roots (hxs : D.xs = done ++ rest) (h : Inv D [] done st) (hle : D.unmarked st ≤ k) :
    ∃ st', rest.foldlM (fun st x => if st.n x = 0 then traverse D k x st else some st) st = some st' ∧
      Inv D [] D.xs st' := by
  induction rest generalizing done st with
  | nil =>
    rw [List.append_nil] at hxs
    exact ⟨st, rfl, hxs ▸ h⟩
  | cons x rest ih =>
    obtain ⟨st₁, hturn, h₁, hframe⟩ := (traverses k).turn hxs h nofun nofun hle
    obtain ⟨st', hrest, h'⟩ :=
      ih (by rw [hxs, List.append_assoc, List.singleton_append]) h₁ (hframe.unmarked_le.trans hle)
    refine ⟨st', ?_, h'⟩
    rw [List.foldlM_cons, hturn]
    exact hrest

open Classical in
/-- The value of a node is the sum of what it gathers. -/
lemma map_eq (hk : D.xs.length ≤ k) :
    D.map k = some fun v => if v ∈ D.xs then D.total (D.Gathered v) v else default := by
  have hle : D.unmarked ⟨[], fun _ => 0, fun _ => default⟩ ≤ k :=
    (Finset.card_filter_le _ _).trans ((List.toFinset_card_le D.xs).trans hk)
  obtain ⟨st, hroots, h⟩ := exists_roots (show D.xs = [] ++ D.xs from rfl) inv_start hle
  rw [map, hroots]
  refine congrArg some (funext fun v => ?_)
  by_cases hv : v ∈ D.xs
  · rw [if_pos hv]
    exact h.black v (h.passed hv hv nofun) List.not_mem_nil
  · rw [if_neg hv]
    exact h.unset v (Classical.byContradiction fun hn => hv (h.inside v hn))

end Runs

/-! ### Sums over everything reachable -/

/-- The values are the sums over all that is reachable, the same in a strongly connected component, if and only if
what a node reaches but does not gather is absorbed by what it gathers. -/
theorem map_sums_iff (D : DigraphF X Y) [hc : Std.Commutative D.append] [Std.Associative D.append]
    [Std.IdempotentOp D.append] :
    (∃ f, (∀ k, D.xs.length ≤ k → D.map k = some f) ∧ ∀ x ∈ D.xs, f x = D.total (D.Reaches x) x ∧
      ∀ y ∈ D.xs, D.Reaches x y → D.Reaches y x → f y = f x) ↔
    ∀ x ∈ D.xs, ∀ z, D.Reaches x z → ¬ D.Gathered x z →
      D.append (D.total (D.Gathered x) x) (D.fp z) = D.total (D.Gathered x) x := by
  classical
  let f : X → Y := fun v => if v ∈ D.xs then D.total (D.Gathered v) v else default
  have hf : ∀ k, D.xs.length ≤ k → D.map k = some f := fun k hk => map_eq hk
  have hfx : ∀ x ∈ D.xs, f x = D.total (D.Gathered x) x := fun x hx => if_pos hx
  have hsums : ∀ x, D.total (D.Gathered x) x = D.total (D.Reaches x) x ↔ ∀ z ∈ D.xs, D.Reaches x z →
      D.append (D.total (D.Gathered x) x) (D.fp z) = D.total (D.Gathered x) x :=
    fun x => total_eq_total_iff fun z hz => hz.reaches
  constructor
  · rintro ⟨f', hf', hsum⟩ x hx z hz -
    obtain rfl : f = f' := Option.some.inj ((hf _ Nat.le.refl).symm.trans (hf' _ Nat.le.refl))
    exact (hsums x).1 ((hfx x hx).symm.trans (hsum x hx).1) z (hz.mem hx) hz
  · intro h
    have hreaches : ∀ x ∈ D.xs, f x = D.total (D.Reaches x) x := by
      refine fun x hx => (hfx x hx).trans ((hsums x).2 fun z hz hxz => ?_)
      by_cases hgathered : D.Gathered x z
      · exact (total_eq_total_iff fun _ => id).1 rfl z hz hgathered
      · exact h x hx z hxz hgathered
    refine ⟨f, hf, fun x hx => ⟨hreaches x hx, fun y hy hxy hyx => ?_⟩⟩
    rw [hreaches x hx, hreaches y hy, total_start hy hx .refl hyx]
    exact total_congr fun z _ => ⟨hxy.trans, hyx.trans⟩

/-- Two nodes that reach one another. -/
def twoCycle : DigraphF ℕ Bool where
  xs := [0, 1]
  nodup := by decide
  fp z := z = 1
  append := or
  r x y := x ≠ y

instance : Std.Commutative twoCycle.append := ⟨Bool.or_comm⟩

instance : Std.Associative twoCycle.append := ⟨Bool.or_assoc⟩

instance : Std.IdempotentOp twoCycle.append := ⟨Bool.or_self⟩

theorem map_sums_twoCycle :
    ∃ f, (∀ k, twoCycle.xs.length ≤ k → twoCycle.map k = some f) ∧ ∀ x ∈ twoCycle.xs,
      f x = twoCycle.total (twoCycle.Reaches x) x ∧
      ∀ y ∈ twoCycle.xs, twoCycle.Reaches x y → twoCycle.Reaches y x → f y = f x := by
  refine (map_sums_iff twoCycle).2 fun x hx z hz hnot => absurd ?_ hnot
  by_cases hzx : z = x
  · subst hzx
    exact .here _ z
  · exact .step (hz.mem hx) (by simpa [twoCycle] using Ne.symm hzx) hzx trivial (.here _ z)

/-- A cycle, and a node that the first one of the cycle reaches after the other one. -/
def lateTurn : DigraphF ℕ Bool where
  xs := [0, 1, 2]
  nodup := by decide
  fp z := z = 2
  append := or
  r x y := (x = 0 ∧ y = 1) ∨ (x = 1 ∧ y = 0) ∨ (x = 0 ∧ y = 2)

instance : Std.Commutative lateTurn.append := ⟨Bool.or_comm⟩

instance : Std.Associative lateTurn.append := ⟨Bool.or_assoc⟩

theorem not_map_sums :
    ¬ ∃ f, (∀ k, lateTurn.xs.length ≤ k → lateTurn.map k = some f) ∧ ∀ x ∈ lateTurn.xs,
      f x = lateTurn.total (lateTurn.Reaches x) x ∧
      ∀ y ∈ lateTurn.xs, lateTurn.Reaches x y → lateTurn.Reaches y x → f y = f x := by
  rintro ⟨f, hf, hsum⟩
  have hvalues : (lateTurn.map 3).map (fun f => (f 0, f 1)) = some (true, false) := by decide
  rw [hf 3 Nat.le.refl] at hvalues
  obtain ⟨h0, h1⟩ := Prod.mk.inj (Option.some.inj hvalues)
  have h01 : lateTurn.Reaches 0 1 := .single ⟨by decide, by decide⟩
  have h10 : lateTurn.Reaches 1 0 := .single ⟨by decide, by decide⟩
  have heq : f 1 = f 0 := (hsum 0 (by decide)).2 1 (by decide) h01 h10
  rw [h0, h1] at heq
  exact absurd heq (by decide)

end Hobbes.Parse.DigraphF
