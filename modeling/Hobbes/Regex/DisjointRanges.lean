import Hobbes.Regex.Sweep

/-!
# Common refinements

Where a range ends in the middle of another one that started later, the last key that they share stays with what
is left. The ranges of `disjointRanges` refine both lists just if there is always a range behind it.
-/

namespace Hobbes.Regex

open RangeOrd LawfulRangeOrd

variable {K V : Type}

/-! ### Ends -/

section Ends

variable [RangeOrd K] [LawfulRangeOrd K]

/-- The range `l` ends in the middle of `r`, which started later. If there is a range right before `r`, then that
one ends in the middle of `l` in the same way. -/
inductive Staggered : List (Range K) → List (Range K) → Range K → Range K → Prop
  | first {ls rs : List (Range K)} {l r : Range K} (hl : l ∈ ls) (hr : r ∈ rs) (hlr : Overlap l r)
      (hfirst : ∀ r₀ ∈ rs, rank r₀.2 + 1 ≠ rank r.1) : Staggered ls rs l r
  | next {ls rs : List (Range K)} {l r r₀ : Range K} (h : Staggered rs ls r₀ l) (hr : r ∈ rs)
      (hlr : Overlap l r) (hnext : rank r₀.2 + 1 = rank r.1) : Staggered ls rs l r

/-- A staggered range ends at `p`, and no range of its list is right behind it. -/
def Missed (ls rs : List (Range K)) (p : ℕ) : Prop :=
  ∃ l r, Staggered ls rs l r ∧ rank l.2 = p ∧ ∀ l' ∈ ls, rank l'.1 ≠ p + 1

lemma Staggered.overlap {ls rs : List (Range K)} {l r : Range K} (h : Staggered ls rs l r) :
    l ∈ ls ∧ r ∈ rs ∧ Overlap l r := by
  induction h with
  | first hl hr hlr _ => exact ⟨hl, hr, hlr⟩
  | next _ hr hlr _ ih => exact ⟨ih.2.1, hr, hlr⟩

/-- What is left of a range. -/
def Remains (t : ℕ) (x x' : Range K) : Prop := rank x'.1 = max (rank x.1) t ∧ rank x'.2 = rank x.2

/-- The ranges that go on after `e` are left, from `t` on. -/
structure Trunc (e t : ℕ) (xs xs' : List (Range K)) : Prop where
  down : ∀ x ∈ xs, e < rank x.2 → ∃ x' ∈ xs', Remains t x x'
  up : ∀ x' ∈ xs', ∃ x ∈ xs, e < rank x.2 ∧ Remains t x x'
  apart : ∀ x ∈ xs, rank x.2 = e → ∀ y ∈ xs, ¬ (rank y.1 ≤ e ∧ e < rank y.2)
  le : ∀ x ∈ xs, e ≤ rank x.2
  nonempty : ∀ x ∈ xs, rank x.1 ≤ rank x.2

/-- What is known of both lists after a step. -/
structure Step (ls rs ls' rs' : List (Range K)) (e t : ℕ) : Prop where
  left : Trunc e t ls ls'
  right : Trunc e t rs rs'
  stop : (∃ x ∈ ls, rank x.2 = e) ∨ ∃ x ∈ rs, rank x.2 = e
  carry : (t = e + 1 ∧ ∀ l ∈ ls, ∀ r ∈ rs, (rank l.2 = e → ¬ Overlap l r) ∧ (rank r.2 = e → ¬ Overlap r l)) ∨
    (t = e ∧ ∀ l ∈ ls, ∀ r ∈ rs, (rank l.2 = e → rank r.1 ≤ e → e < rank r.2 → Staggered ls rs l r) ∧
      (rank r.2 = e → rank l.1 ≤ e → e < rank l.2 → Staggered rs ls r l))

lemma Step.symm {ls rs ls' rs' : List (Range K)} {e t : ℕ} (h : Step ls rs ls' rs' e t) :
    Step rs ls rs' ls' e t where
  left := h.right
  right := h.left
  stop := h.stop.symm
  carry := h.carry.imp (And.imp_right fun h l hl r hr => (h r hr l hl).symm)
    (And.imp_right fun h l hl r hr => (h r hr l hl).symm)

lemma Step.le {ls rs ls' rs' : List (Range K)} {e t : ℕ} (h : Step ls rs ls' rs' e t) : t ≤ e + 1 := by
  have hcarry := h.carry
  omega

/-- Of two ranges that go on after `e`, the later one starts after it, and not right behind it unless a range of
its own list has ended there. -/
lemma Step.lt_start {ls rs ls' rs' : List (Range K)} {e t : ℕ} (h : Step ls rs ls' rs' e t) {l r : Range K}
    (hl : l ∈ ls) (hr : r ∈ rs) (hle : e < rank l.2) (hre : e < rank r.2) (hlr : rank l.1 < rank r.1)
    (hfirst : ∀ x ∈ rs, rank x.2 = e → rank r.1 ≠ e + 1) : e + 1 < rank r.1 := by
  by_contra hnot
  rcases h.stop with ⟨x, hx, hxe⟩ | ⟨x, hx, hxe⟩
  · exact h.left.apart x hx hxe l hl ⟨by omega, hle⟩
  · have hne := hfirst x hx hxe
    exact h.right.apart x hx hxe r hr ⟨by omega, hre⟩

lemma Overlap.remains {t : ℕ} {l l' r r' : Range K} (h : Overlap l r) (hl : Remains t l l')
    (hr : Remains t r r') (ht : t < rank r.1) : Overlap l' r' := by
  unfold Remains at hl hr
  unfold Overlap at h ⊢
  omega

lemma Staggered.down {ls rs : List (Range K)} {l r : Range K} (h : Staggered ls rs l r) :
    ∀ {ls' rs' : List (Range K)} {e t : ℕ}, Step ls rs ls' rs' e t → e < rank l.2 →
      ∃ l' r', Remains t l l' ∧ Remains t r r' ∧ Staggered ls' rs' l' r' := by
  induction h with
  | @first ls rs l r hl hr hlr hfirst =>
    intro ls' rs' e t hstep he
    have hre : e < rank r.2 := Nat.lt_trans he hlr.2.2
    obtain ⟨l', hl', hll⟩ := hstep.left.down l hl he
    obtain ⟨r', hr', hrr⟩ := hstep.right.down r hr hre
    have hstart := hstep.lt_start hl hr he hre hlr.1 fun x hx hxe heq => hfirst x hx (by omega)
    have ht := hstep.le
    refine ⟨l', r', hll, hrr, .first hl' hr' (hlr.remains hll hrr (by omega)) fun r₀' hr₀' heq => ?_⟩
    obtain ⟨r₀, hr₀, -, hr₀r⟩ := hstep.right.up r₀' hr₀'
    unfold Remains at hrr hr₀r
    exact hfirst r₀ hr₀ (by omega)
  | @next ls rs l r r₀ h hr hlr hnext ih =>
    intro ls' rs' e t hstep he
    have hre : e < rank r.2 := Nat.lt_trans he hlr.2.2
    have ht := hstep.le
    obtain ⟨hr₀, hl, hr₀l⟩ := h.overlap
    obtain ⟨r', hr', hrr⟩ := hstep.right.down r hr hre
    rcases Nat.lt_or_eq_of_le (hstep.right.le r₀ hr₀) with hlt | heq
    · obtain ⟨r₀', l', hr₀r, hll, h'⟩ := ih hstep.symm hlt
      refine ⟨l', r', hll, hrr, .next h' hr' (hlr.remains hll hrr (by omega)) ?_⟩
      unfold Remains at hrr hr₀r
      omega
    · rcases hstep.carry with ⟨-, hgood⟩ | ⟨rfl, -⟩
      · exact absurd hr₀l ((hgood l hl r₀ hr₀).2 heq.symm)
      · obtain ⟨l', hl', hll⟩ := hstep.left.down l hl he
        refine ⟨l', r', hll, hrr, .first hl' hr' (hlr.remains hll hrr (by omega)) fun x' hx' heq' => ?_⟩
        obtain ⟨x, -, hx, hxx⟩ := hstep.right.up x' hx'
        unfold Remains at hrr hxx
        omega

lemma Staggered.up {ls' rs' : List (Range K)} {l' r' : Range K} (h : Staggered ls' rs' l' r') :
    ∀ {ls rs : List (Range K)} {e t : ℕ}, Step ls rs ls' rs' e t → ∀ l ∈ ls, ∀ r ∈ rs, e < rank l.2 →
      Remains t l l' → Remains t r r' → Staggered ls rs l r := by
  induction h with
  | @first ls' rs' l' r' hl' hr' hlr' hfirst =>
    intro ls rs e t hstep l hl r hr he hll hrr
    have hlr : Overlap l r := by
      unfold Remains at hll hrr
      unfold Overlap at hlr' ⊢
      omega
    by_cases hbehind : ∃ r₀ ∈ rs, rank r₀.2 + 1 = rank r.1
    · obtain ⟨r₀, hr₀, heq⟩ := hbehind
      have hle := hstep.right.le r₀ hr₀
      have ht := hstep.le
      -- The range that ends right before `r` is not in the list any more, so it was the last one to end.
      have hr₀e : rank r₀.2 = e := by
        by_contra hne
        obtain ⟨r₀', hr₀', hr₀r⟩ := hstep.right.down r₀ hr₀ (by omega)
        refine hfirst r₀' hr₀' ?_
        unfold Remains at hr₀r hrr
        omega
      have hlt : t < rank r.1 ∧ rank l.1 ≤ e := by
        unfold Remains at hll hrr
        unfold Overlap at hlr' hlr
        omega
      rcases hstep.carry with ⟨hgood, -⟩ | ⟨rfl, hcarry⟩
      · omega
      · exact .next ((hcarry l hl r₀ hr₀).2 hr₀e hlt.2 he) hr hlr heq
    · exact .first hl hr hlr fun r₀ hr₀ heq => hbehind ⟨r₀, hr₀, heq⟩
  | @next ls' rs' l' r' r₀' h' hr' hlr' hnext ih =>
    intro ls rs e t hstep l hl r hr he hll hrr
    have hlr : Overlap l r := by
      unfold Remains at hll hrr
      unfold Overlap at hlr' ⊢
      omega
    obtain ⟨r₀, hr₀, hre, hr₀r⟩ := hstep.right.up r₀' h'.overlap.1
    have ht := hstep.le
    refine .next (ih hstep.symm r₀ hr₀ l hl hre hr₀r hll) hr hlr ?_
    unfold Remains at hrr hr₀r
    omega

lemma Trunc.ends_iff {e t p : ℕ} {xs xs' : List (Range K)} (h : Trunc e t xs xs') (hp : e < p) :
    (∃ x ∈ xs, rank x.2 = p) ↔ ∃ x' ∈ xs', rank x'.2 = p := by
  constructor
  · rintro ⟨x, hx, rfl⟩
    obtain ⟨x', hx', hxx⟩ := h.down x hx hp
    exact ⟨x', hx', hxx.2⟩
  · rintro ⟨x', hx', rfl⟩
    obtain ⟨x, hx, -, hxx⟩ := h.up x' hx'
    exact ⟨x, hx, hxx.2.symm⟩

lemma Step.missed_iff {ls rs ls' rs' : List (Range K)} {e t p : ℕ} (h : Step ls rs ls' rs' e t) (hp : e < p) :
    Missed ls rs p ↔ Missed ls' rs' p := by
  have ht := h.le
  constructor
  · rintro ⟨l, r, hlr, rfl, hnone⟩
    obtain ⟨l', r', hll, hrr, hlr'⟩ := hlr.down h hp
    refine ⟨l', r', hlr', hll.2, fun x' hx' heq => ?_⟩
    obtain ⟨x, hx, hxe, hxx⟩ := h.left.up x' hx'
    unfold Remains at hxx
    exact hnone x hx (by omega)
  · rintro ⟨l', r', hlr', rfl, hnone⟩
    obtain ⟨hl', hr', hover⟩ := hlr'.overlap
    obtain ⟨l, hl, hle, hll⟩ := h.left.up l' hl'
    obtain ⟨r, hr, hre, hrr⟩ := h.right.up r' hr'
    refine ⟨l, r, hlr'.up h l hl r hr hle hll hrr, hll.2.symm, fun x hx heq => ?_⟩
    have hx' := h.left.nonempty x hx
    obtain ⟨x', hx', hxx⟩ := h.left.down x hx (by omega)
    unfold Remains at hxx
    exact hnone x' hx' (by omega)

lemma Rest.trunc {n e t : ℕ} {r : Range K} {rs : List (Range K)} {o : Option (Range K)} (h : Rest r e t o)
    (ht : t ≤ e + 1) (he : e ≤ rank r.2) (hrs : SortedFrom n (r :: rs)) :
    Trunc e t (r :: rs) (o.toList ++ rs) := by
  obtain ⟨-, hr, htail⟩ := sortedFrom_cons.1 hrs
  have hafter : ∀ x ∈ rs, rank r.2 + 1 ≤ rank x.1 ∧ rank x.1 ≤ rank x.2 := fun x hx =>
    ⟨htail.le hx, htail.sorted.1 x hx⟩
  have hsame : ∀ x ∈ rs, Remains t x x := fun x hx => by
    have hx' := hafter x hx
    unfold Remains
    omega
  exact {
    down := fun x hx hxe => by
      rcases List.mem_cons.1 hx with rfl | hx
      · cases h with
        | none h' => omega
        | some _ h1 h2 => exact ⟨_, List.mem_cons_self, h1, h2⟩
      · exact ⟨x, List.mem_append_right _ hx, hsame x hx⟩
    up := fun x' hx' => by
      rcases List.mem_append.1 hx' with hx' | hx'
      · cases h with
        | none => cases hx'
        | some h' h1 h2 =>
          obtain rfl := List.mem_singleton.1 hx'
          exact ⟨r, List.mem_cons_self, h', h1, h2⟩
      · have hx := hafter x' hx'
        exact ⟨x', List.mem_cons_of_mem r hx', by omega, hsame x' hx'⟩
    apart := fun x hx hxe y hy hye => by
      rcases List.mem_cons.1 hx with rfl | hx
      · rcases List.mem_cons.1 hy with rfl | hy
        · omega
        · have hy' := hafter y hy
          omega
      · have hx' := hafter x hx
        omega
    le := fun x hx => by
      rcases List.mem_cons.1 hx with rfl | hx
      · exact he
      · have hx' := hafter x hx
        omega
    nonempty := hrs.sorted.1 }

lemma SortedFrom.eq_head {n e : ℕ} {r : Range K} {rs : List (Range K)} (h : SortedFrom n (r :: rs))
    (he : e ≤ rank r.2) {x : Range K} (hx : x ∈ r :: rs) (hxe : rank x.1 ≤ e) : x = r := by
  refine (List.mem_cons.1 hx).resolve_right fun hx => ?_
  have hle := h.2.2.le hx
  omega

lemma SortedFrom.head_le {n : ℕ} {r : Range K} {rs : List (Range K)} (h : SortedFrom n (r :: rs)) {x : Range K}
    (hx : x ∈ r :: rs) : rank r.2 ≤ rank x.2 := by
  have hne : rank x.1 ≤ rank x.2 := h.sorted.1 x hx
  by_contra hlt
  obtain rfl := h.eq_head (Nat.le_refl _) hx (by omega)
  exact hlt (Nat.le_refl _)

/-- Of two heads that overlap, the later one has none of its list before it. -/
lemma staggered_heads {n : ℕ} {lr rr : Range K} {lrs rrs : List (Range K)} (hrs : SortedFrom n (rr :: rrs))
    (h : Overlap lr rr) : Staggered (lr :: lrs) (rr :: rrs) lr rr :=
  .first List.mem_cons_self List.mem_cons_self h fun r₀ hr₀ heq => by
    have hle := hrs.head_le hr₀
    have hr : rank rr.1 ≤ rank rr.2 := hrs.2.1
    omega

lemma Cut.step {n e t : ℕ} {lr rr : Range K} {lrs rrs ps : List (Range K)} {lo ro : Option (Range K)}
    (h : Cut lr rr ps lo ro e t) (hls : SortedFrom n (lr :: lrs)) (hrs : SortedFrom n (rr :: rrs)) :
    Step (lr :: lrs) (rr :: rrs) (lo.toList ++ lrs) (ro.toList ++ rrs) e t := by
  obtain ⟨hl, hr, -, hte⟩ := h.bounds
  have hlhead : ∀ x ∈ lr :: lrs, rank x.1 ≤ e → x = lr := fun x hx => hls.eq_head hl hx
  have hrhead : ∀ x ∈ rr :: rrs, rank x.1 ≤ e → x = rr := fun x hx => hrs.eq_head hr hx
  refine ⟨h.left.trunc hte hl hls, h.right.trunc hte hr hrs,
    h.stop.imp (fun he => ⟨lr, List.mem_cons_self, he⟩) fun he => ⟨rr, List.mem_cons_self, he⟩,
    h.carry.imp ?_ ?_⟩
  · rintro ⟨ht, hlr, hrl⟩
    refine ⟨ht, fun l hl' r hr' => ⟨fun he hover => ?_, fun he hover => ?_⟩⟩
    · have h1 := hover.1
      have h2 := hover.2.1
      obtain rfl := hlhead l hl' (by omega)
      obtain rfl := hrhead r hr' (by omega)
      exact hlr hover
    · have h1 := hover.1
      have h2 := hover.2.1
      obtain rfl := hlhead l hl' (by omega)
      obtain rfl := hrhead r hr' (by omega)
      exact hrl hover
  · rintro ⟨ht, hover⟩
    refine ⟨ht, fun l hl' r hr' => ⟨fun he hle hlt => ?_, fun he hle hlt => ?_⟩⟩
    · have hne : rank l.1 ≤ rank l.2 := hls.sorted.1 l hl'
      obtain rfl := hlhead l hl' (by omega)
      obtain rfl := hrhead r hr' hle
      exact staggered_heads hrs (hover.resolve_right fun hrl => by
        have hend := hrl.2.2
        omega)
    · have hne : rank r.1 ≤ rank r.2 := hrs.sorted.1 r hr'
      obtain rfl := hlhead l hl' hle
      obtain rfl := hrhead r hr' (by omega)
      exact staggered_heads hls (hover.resolve_left fun hlr => by
        have hend := hlr.2.2
        omega)

lemma Missed.exists_end {ls rs : List (Range K)} {p : ℕ} (h : Missed ls rs p) : ∃ l ∈ ls, rank l.2 = p := by
  obtain ⟨l, r, hlr, hp, -⟩ := h
  exact ⟨l, hlr.overlap.1, hp⟩

lemma not_missed_nil {ls : List (Range K)} {p : ℕ} : ¬ (Missed ls [] p ∨ Missed [] ls p) := by
  rintro (⟨l, r, hlr, -⟩ | ⟨l, r, hlr, -⟩)
  · exact absurd hlr.overlap.2.1 List.not_mem_nil
  · exact absurd hlr.overlap.1 List.not_mem_nil

/-- A range that starts at `e` and goes on is not cut after `e` if no range of the other list starts there. -/
lemma Sweeps.inside_head {n e : ℕ} {ls rs out : List (Range K)} {r : Range K} (h : Sweeps ls (r :: rs) out)
    (hls : SortedFrom n ls) (hr : rank r.1 = e) (he : e < rank r.2) (hl : ∀ l ∈ ls, e + 1 < rank l.1) :
    Inside out e := by
  cases h with
  | right => exact ⟨r, List.mem_cons_self, by omega, he⟩
  | @cut lr _ lrs _ ps _ lo ro e' t hcut _ =>
    have hlr := hl lr List.mem_cons_self
    have hne : rank lr.1 ≤ rank lr.2 := hls.2.1
    obtain ⟨-, -, hle, hte⟩ := hcut.bounds
    have hstop := hcut.stop
    have hcarry := hcut.carry
    have ht : e + 1 < t := by
      unfold Overlap at hcarry
      omega
    obtain ⟨x, hx, hxe⟩ := (hcut.covers r.1).2 ⟨.inr ⟨Nat.le_refl _, by omega⟩, by omega⟩
    have hwhole := hcut.whole x hx
    unfold Range.Contains at hxe
    exact inside_append.2 (.inl ⟨x, hx, by omega, by omega⟩)

/-- The last key that two overlapping ranges share is cut off just if a range starts behind it. -/
lemma Cut.inside_iff_missed {n e : ℕ} {lr rr : Range K} {lrs rrs ps out : List (Range K)}
    {lo ro : Option (Range K)} (h : Cut lr rr ps lo ro e e) (hover : Overlap lr rr)
    (hsweeps : Sweeps (lo.toList ++ lrs) (ro.toList ++ rrs) out) (hls : SortedFrom n (lr :: lrs))
    (hrs : SortedFrom n (rr :: rrs)) :
    Inside (ps ++ out) e ↔ Missed (lr :: lrs) (rr :: rrs) e ∨ Missed (rr :: rrs) (lr :: lrs) e := by
  obtain ⟨h1, h2, h3⟩ := hover
  obtain ⟨hl, hr, -, hte⟩ := h.bounds
  have hend : rank lr.2 = e := by
    have hstop := h.stop
    omega
  have hls' := h.left.sortedFrom hte hls
  have hrs' := h.right.sortedFrom hte hrs
  have hleft := h.left
  have hright := h.right
  cases hleft with
  | some hlt => omega
  | none =>
    cases hright with
    | none hre => omega
    | some _ hstart hstop =>
      constructor
      · rw [inside_append]
        rintro (hin | hin)
        · have hlt := h.inside_lt hin
          omega
        · refine .inl ⟨lr, rr, staggered_heads hrs ⟨h1, h2, h3⟩, hend, List.forall_mem_cons.2 ⟨by omega, ?_⟩⟩
          exact (hsweeps.start_ne hls' hrs' hin).1
      · rintro (⟨-, -, -, -, hnone⟩ | hmissed)
        · refine inside_append.2 (.inr (hsweeps.inside_head hls' (by omega) (by omega) fun l hl' => ?_))
          have hle := hls.2.2.le hl'
          have hne := hnone l (List.mem_cons_of_mem _ hl')
          omega
        · obtain ⟨r, hr', hre⟩ := hmissed.exists_end
          have hle := hrs.head_le hr'
          omega

lemma SortedFrom.end_ne {n p : ℕ} {rs : List (Range K)} (h : SortedFrom n rs) (hp : Inside rs p) :
    ∀ r ∈ rs, rank r.2 ≠ p := by
  obtain ⟨x, hx, hle, hlt⟩ := hp
  induction rs generalizing n with
  | nil => cases hx
  | cons r rs ih =>
    obtain ⟨-, hr, hrs⟩ := sortedFrom_cons.1 h
    rw [List.forall_mem_cons]
    rcases List.mem_cons.1 hx with rfl | hx
    · refine ⟨by omega, fun s hs => ?_⟩
      have hs' := h.head_le (List.mem_cons_of_mem _ hs)
      omega
    · have hx' := hrs.le hx
      exact ⟨by omega, ih hrs hx⟩

/-- Where a range ends inside a range of the refinement, it is staggered and was missed. -/
lemma Sweeps.inside_end_iff {n : ℕ} {ls rs out : List (Range K)} (h : Sweeps ls rs out) (hls : SortedFrom n ls)
    (hrs : SortedFrom n rs) (p : ℕ) :
    (Inside out p ∧ ((∃ l ∈ ls, rank l.2 = p) ∨ ∃ r ∈ rs, rank r.2 = p)) ↔ Missed ls rs p ∨ Missed rs ls p := by
  induction h generalizing n with
  | left ls =>
    refine iff_of_false ?_ not_missed_nil
    rintro ⟨hin, ⟨l, hl, hlp⟩ | ⟨r, hr, -⟩⟩
    · exact hls.end_ne hin l hl hlp
    · cases hr
  | right rs =>
    refine iff_of_false ?_ (mt Or.symm not_missed_nil)
    rintro ⟨hin, ⟨l, hl, -⟩ | ⟨r, hr, hrp⟩⟩
    · cases hl
    · exact hrs.end_ne hin r hr hrp
  | @cut lr rr lrs rrs ps out lo ro e t hcut hsweeps ih =>
    obtain ⟨hl, hr, het, hte⟩ := hcut.bounds
    have hls' := hcut.left.sortedFrom hte hls
    have hrs' := hcut.right.sortedFrom hte hrs
    have hstep := hcut.step hls hrs
    rcases Nat.lt_trichotomy p e with hp | hp | hp
    · -- No range ends before `e`.
      have hleft : ¬ ∃ l ∈ lr :: lrs, rank l.2 = p := fun ⟨l, hl, hlp⟩ => by
        have hle := hstep.left.le l hl
        omega
      have hright : ¬ ∃ r ∈ rr :: rrs, rank r.2 = p := fun ⟨r, hr, hrp⟩ => by
        have hle := hstep.right.le r hr
        omega
      exact iff_of_false (fun h => h.2.elim hleft hright) fun h =>
        h.elim (fun h => hleft h.exists_end) fun h => hright h.exists_end
    · subst hp
      have hends : (∃ l ∈ lr :: lrs, rank l.2 = p) ∨ ∃ r ∈ rr :: rrs, rank r.2 = p := hstep.stop
      rw [and_iff_left hends]
      rcases hcut.carry with ⟨rfl, -, -⟩ | ⟨rfl, hover | hover⟩
      · refine iff_of_false (fun hin => ?_) ?_
        · rcases inside_append.1 hin with hin | hin
          · have hlt := hcut.inside_lt hin
            omega
          · have hle := hin.le (hsweeps.sortedFrom hls' hrs')
            omega
        · have hnone := hstep.carry.resolve_right fun h => by omega
          rintro (⟨l, r, hlr, hlp, -⟩ | ⟨r, l, hrl, hrp, -⟩)
          · obtain ⟨hl, hr, hover⟩ := hlr.overlap
            exact (hnone.2 l hl r hr).1 hlp hover
          · obtain ⟨hr, hl, hover⟩ := hrl.overlap
            exact (hnone.2 l hl r hr).2 hrp hover
      · exact hcut.inside_iff_missed hover hsweeps hls hrs
      · rw [or_comm]
        exact hcut.symm.inside_iff_missed hover hsweeps.symm hrs hls
    · have hin : Inside (ps ++ out) p ↔ Inside out p := by
        rw [inside_append, or_iff_right]
        intro hin
        have hlt := hcut.inside_lt hin
        omega
      rw [hin, hstep.missed_iff hp, hstep.symm.missed_iff hp, ← ih hls' hrs', hstep.left.ends_iff hp,
        hstep.right.ends_iff hp]

end Ends

/-! ### Common refinements -/

section Refinement

variable [RangeOrd K] [LawfulRangeOrd K] [DecidableEq K]

/-- The ranges have the keys of both, none is partly in a range of either, and each is looked up as a whole. -/
structure CommonRefinement (m : RangeMap K V) (trs out : List (Range K)) : Prop where
  sorted : Sorted out
  union : ∀ k, Covers out k ↔ Covers m.ranges k ∨ Covers trs k
  refines : ∀ x ∈ out, ∀ r, r ∈ m.ranges ∨ r ∈ trs →
    (∀ k, x.Contains k → r.Contains k) ∨ ∀ k, x.Contains k → ¬ r.Contains k
  lookup : ∀ x ∈ out, ∀ k, x.Contains k → m.lookupRangeSubset x = m.lookup k

omit [DecidableEq K] in
/-- A range that meets another one without being in it goes on past its end, or started before it. -/
lemma contains_of_not_inside {out : List (Range K)} {x r : Range K} (hx : x ∈ out)
    (hstart : ∀ p, Inside out p → rank r.1 ≠ p + 1) (hend : ∀ p, Inside out p → rank r.2 ≠ p) :
    (∀ k, x.Contains k → r.Contains k) ∨ ∀ k, x.Contains k → ¬ r.Contains k := by
  by_cases hmeet : ∃ k, x.Contains k ∧ r.Contains k
  · obtain ⟨k, hxk, hrk⟩ := hmeet
    unfold Range.Contains at hxk hrk
    have hstop : rank x.2 ≤ rank r.2 := by
      by_contra hlt
      exact hend (rank r.2) ⟨x, hx, by omega, by omega⟩ rfl
    have hfirst : rank r.1 ≤ rank x.1 := by
      by_contra hlt
      exact hstart (rank r.1 - 1) ⟨x, hx, by omega, by omega⟩ (by omega)
    refine .inl fun k' hk' => ?_
    unfold Range.Contains at hk' ⊢
    omega
  · exact .inr fun k hxk hrk => hmeet ⟨k, hxk, hrk⟩

omit [DecidableEq K] in
lemma not_inside_end {out rs : List (Range K)} (hrs : Sorted rs)
    (h : ∀ x ∈ out, ∀ r ∈ rs, (∀ k, x.Contains k → r.Contains k) ∨ ∀ k, x.Contains k → ¬ r.Contains k) {p : ℕ}
    (hp : Inside out p) : ∀ r ∈ rs, rank r.2 ≠ p := by
  rintro r hr rfl
  obtain ⟨x, hx, hle, hlt⟩ := hp
  have hne : rank r.1 ≤ rank r.2 := hrs.1 r hr
  rcases h x hx r hr with hin | hout
  · have hlast := hin x.2 ⟨by omega, Nat.le_refl _⟩
    unfold Range.Contains at hlast
    omega
  · exact hout r.2 ⟨hle, by omega⟩ ⟨hne, Nat.le_refl _⟩

/-- What is contained in the ranges of a map or apart from them is looked up as a whole. -/
lemma lookupRangeSubset_eq {m : RangeMap K V} (hm : Sorted m.ranges) {x : Range K} (hx : rank x.1 ≤ rank x.2)
    (h : ∀ r ∈ m.ranges, (∀ k, x.Contains k → r.Contains k) ∨ ∀ k, x.Contains k → ¬ r.Contains k) {k : K}
    (hk : x.Contains k) : m.lookupRangeSubset x = m.lookup k := by
  have hsame (k' : K) (hk' : x.Contains k') : m.find k' = m.find k :=
    RangeMap.find_congr hm.sortedFrom fun r hr => (h r hr).elim
      (fun hin => iff_of_true (hin k' hk') (hin k hk)) fun hout => iff_of_false (hout k' hk') (hout k hk)
  have hfirst := hsame x.1 ⟨Nat.le_refl _, hx⟩
  have hlast := hsame x.2 ⟨hx, Nat.le_refl _⟩
  rw [RangeMap.lookupRangeSubset, RangeMap.lookup, hfirst, hlast, if_pos rfl]

/-- Behind every staggered range of the first list is another range of it. -/
def Followed (ls rs : List (Range K)) : Prop :=
  ∀ l r, Staggered ls rs l r → ∃ l' ∈ ls, rank l'.1 = rank l.2 + 1

omit [DecidableEq K] in
lemma followed_iff {ls rs : List (Range K)} : Followed ls rs ↔ ∀ p, ¬ Missed ls rs p := by
  constructor
  · rintro h p ⟨l, r, hlr, rfl, hnone⟩
    obtain ⟨l', hl', heq⟩ := h l r hlr
    exact hnone l' hl' heq
  · intro h l r hlr
    by_contra hnone
    exact h _ ⟨l, r, hlr, rfl, fun l' hl' heq => hnone ⟨l', hl', heq⟩⟩

/-- The result refines both lists just if every range that is left with the last key of another one is followed. -/
theorem disjointRanges_iff {m : RangeMap K V} {trs : List (Range K)} (hm : Sorted m.ranges) (htrs : Sorted trs) :
    CommonRefinement m trs (m.disjointRanges trs) ↔ Followed m.ranges trs ∧ Followed trs m.ranges := by
  have hsweeps : Sweeps m.ranges trs (m.disjointRanges trs) := sweeps_sweep hm.sortedFrom htrs.sortedFrom
  have hends := hsweeps.inside_end_iff hm.sortedFrom htrs.sortedFrom
  rw [followed_iff, followed_iff]
  constructor
  · intro h
    have hout (p : ℕ) : ¬ (Missed m.ranges trs p ∨ Missed trs m.ranges p) := by
      rw [← hends]
      rintro ⟨hp, ⟨r, hr, hrp⟩ | ⟨r, hr, hrp⟩⟩
      · exact not_inside_end hm (fun x hx r hr => h.refines x hx r (.inl hr)) hp r hr hrp
      · exact not_inside_end htrs (fun x hx r hr => h.refines x hx r (.inr hr)) hp r hr hrp
    exact ⟨fun p hp => hout p (.inl hp), fun p hp => hout p (.inr hp)⟩
  · rintro ⟨hm', htrs'⟩
    have hsorted := (hsweeps.sortedFrom hm.sortedFrom htrs.sortedFrom).sorted
    have hstart (p : ℕ) (hp : Inside (m.disjointRanges trs) p) :=
      hsweeps.start_ne hm.sortedFrom htrs.sortedFrom hp
    have hend (p : ℕ) (hp : Inside (m.disjointRanges trs) p) (r : Range K) (hr : r ∈ m.ranges ∨ r ∈ trs) :
        rank r.2 ≠ p := by
      rintro rfl
      exact ((hends _).1 ⟨hp, hr.imp (fun h => ⟨r, h, rfl⟩) fun h => ⟨r, h, rfl⟩⟩).elim (hm' _) (htrs' _)
    have hrefines : ∀ x ∈ m.disjointRanges trs, ∀ r, r ∈ m.ranges ∨ r ∈ trs →
        (∀ k, x.Contains k → r.Contains k) ∨ ∀ k, x.Contains k → ¬ r.Contains k := fun x hx r hr =>
      contains_of_not_inside hx (fun p hp => hr.elim ((hstart p hp).1 r) ((hstart p hp).2 r))
        fun p hp => hend p hp r hr
    exact {
      sorted := hsorted
      union := hsweeps.covers_iff hm.sortedFrom htrs.sortedFrom
      refines := hrefines
      lookup := fun x hx k hk =>
        lookupRangeSubset_eq hm (hsorted.1 x hx) (fun r hr => hrefines x hx r (.inl hr)) hk }

end Refinement

theorem disjointRanges_iff_letters :
    CommonRefinement ([((97, 122), ())] : RangeMap UInt8 Unit) [(101, 101), (105, 105)]
        (RangeMap.disjointRanges [((97, 122), ())] [(101, 101), (105, 105)]) ↔
      Followed [(97, 122)] [((101 : UInt8), (101 : UInt8)), (105, 105)] ∧
        Followed [((101 : UInt8), (101 : UInt8)), (105, 105)] [(97, 122)] :=
  disjointRanges_iff (by decide) (by decide)

/-- `[a-c]` and `[b-d]`: the letter `c` is left with the letter `d`. -/
theorem not_commonRefinement_letters :
    Sorted [((97 : UInt8), (99 : UInt8))] ∧ Sorted [((98 : UInt8), (100 : UInt8))] ∧
      ¬ CommonRefinement ([((97, 99), ())] : RangeMap UInt8 Unit) [(98, 100)]
        (RangeMap.disjointRanges [((97, 99), ())] [(98, 100)]) := by
  refine ⟨by decide, by decide, fun h => ?_⟩
  have hout : RangeMap.disjointRanges ([((97, 99), ())] : RangeMap UInt8 Unit) [(98, 100)] =
      [(97, 97), (98, 98), (99, 100)] := by
    have hmeet : classifyIntersection ((97 : UInt8), (99 : UInt8)) (98, 100) = .lrlr := by decide
    show sweep [(97, 99)] [(98, 100)] = _
    rw [sweep, hmeet]
    show [(97, 97), (98, 98)] ++ sweep [] [(99, 100)] = _
    rw [sweep]
    rfl
  have hmem : ((99 : UInt8), (100 : UInt8)) ∈
      RangeMap.disjointRanges ([((97, 99), ())] : RangeMap UInt8 Unit) [(98, 100)] := by
    rw [hout]
    decide
  rcases h.refines _ hmem (97, 99) (.inl (by decide)) with hin | hout
  · exact absurd (hin 100 (by decide)) (by decide)
  · exact hout 99 (by decide) (by decide)

end Hobbes.Regex
