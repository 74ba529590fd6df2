import Hobbes.Regex.DisjointRanges

/-!
# Refinements of many ranges

Ranges are put together one at a time. Where no two of them overlap without one being in the other, each step is a
common refinement.
-/

namespace Hobbes.Regex

open RangeOrd LawfulRangeOrd

/-! ### Places where ranges begin or end -/

section Boundaries

variable {K V : Type} [RangeOrd K] [LawfulRangeOrd K]

/-- A range begins at the key numbered `p`, or the key is right behind one. -/
def Boundary (rs : List (Range K)) (p : ℕ) : Prop := ∃ r ∈ rs, rank r.1 = p ∨ rank r.2 + 1 = p

lemma boundary_append {rs rs' : List (Range K)} {p : ℕ} :
    Boundary (rs ++ rs') p ↔ Boundary rs p ∨ Boundary rs' p := by
  simp only [Boundary, List.mem_append, or_and_right, exists_or]

/-- Ranges are parted where others begin or end, or behind a single key. -/
structure Parted (rs out : List (Range K)) : Prop where
  start : ∀ x ∈ out, Boundary rs (rank x.1) ∨ rank x.1 = rank x.2
  stop : ∀ x ∈ out, Boundary rs (rank x.2 + 1) ∨ ∃ y ∈ out, rank y.1 = rank x.2 + 1

lemma parted_self (rs : List (Range K)) : Parted rs rs where
  start x hx := .inl ⟨x, hx, .inl rfl⟩
  stop x hx := .inl ⟨x, hx, .inr rfl⟩

lemma Trunc.boundary {e t p : ℕ} {xs xs' : List (Range K)} (h : Trunc e t xs xs') (hp : Boundary xs' p) :
    Boundary xs p ∨ p = t := by
  obtain ⟨x', hx', hp⟩ := hp
  obtain ⟨x, hx, -, hstart, hstop⟩ := h.up x' hx'
  rcases hp with rfl | rfl
  · rcases Nat.le_total (rank x.1) t with hle | hle
    · exact .inr (hstart.trans (Nat.max_eq_right hle))
    · exact .inl ⟨x, hx, .inl (hstart.trans (Nat.max_eq_left hle)).symm⟩
  · exact .inl ⟨x, hx, .inr (by rw [hstop])⟩

/-- What one step deals with ends at a boundary or at the key that it leaves. -/
lemma Cut.boundary_stop {lr rr : Range K} {ps : List (Range K)} {lo ro : Option (Range K)} {e t : ℕ}
    (h : Cut lr rr ps lo ro e t) (lrs rrs : List (Range K)) {x : Range K} (hx : x ∈ ps) :
    Boundary (lr :: lrs ++ rr :: rrs) (rank x.2 + 1) ∨ rank x.2 + 1 = t := by
  have hl : lr ∈ lr :: lrs ++ rr :: rrs := List.mem_append_left _ List.mem_cons_self
  have hr : rr ∈ lr :: lrs ++ rr :: rrs := List.mem_append_right _ List.mem_cons_self
  rcases h.whole x hx with ht | hlr | hrr
  · exact .inr ht
  · exact .inl ⟨lr, hl, .inl hlr.symm⟩
  · exact .inl ⟨rr, hr, .inl hrr.symm⟩

/-- Of two ranges in order, one comes before the other one. -/
lemma Sorted.eq_or_lt {rs : List (Range K)} (h : Sorted rs) {x y : Range K} (hx : x ∈ rs) (hy : y ∈ rs) :
    x = y ∨ rank x.2 < rank y.1 ∨ rank y.2 < rank x.1 := by
  induction rs with
  | nil => exact absurd hx List.not_mem_nil
  | cons r rs ih =>
    obtain ⟨hfirst, hrest⟩ := List.pairwise_cons.1 h.2
    rcases List.mem_cons.1 hx with rfl | hxs
    · rcases List.mem_cons.1 hy with rfl | hys
      · exact .inl rfl
      · exact .inr (.inl (hfirst y hys))
    · rcases List.mem_cons.1 hy with rfl | hys
      · exact .inr (.inr (hfirst x hxs))
      · exact ih ⟨fun s hs => h.1 s (List.mem_cons_of_mem r hs), hrest⟩ hxs hys

/-- What one step deals with begins at a boundary. -/
lemma Cut.boundary_start {lr rr : Range K} {ps lrs rrs : List (Range K)} {lo ro : Option (Range K)} {e t : ℕ}
    (h : Cut lr rr ps lo ro e t) {x : Range K} (hx : x ∈ ps) :
    Boundary (lr :: lrs ++ rr :: rrs) (rank x.1) := by
  have hsorted : Sorted ps := (h.sorted 0 (Nat.zero_le _) (Nat.zero_le _)).sorted
  have hne : rank x.1 ≤ rank x.2 := hsorted.1 x hx
  have hbelow := h.below x hx
  by_contra hnot
  -- If nothing begins at `x`, the key before it is dealt with as well, in a range that ends there.
  have hprev : ∀ r : Range K, (r = lr ∨ r = rr) → r.Contains x.1 → False := by
    intro r hr hin
    have hmem : r ∈ lr :: lrs ++ rr :: rrs := by
      rcases hr with rfl | rfl
      · exact List.mem_append_left _ List.mem_cons_self
      · exact List.mem_append_right _ List.mem_cons_self
    have hlt : rank r.1 < rank x.1 := Nat.lt_of_le_of_ne hin.1 fun heq => hnot ⟨r, hmem, .inl heq⟩
    have hpred : rank (pred x.1) + 1 = rank x.1 := rank_pred hlt
    have hinside : r.Contains (pred x.1) := ⟨by omega, by have hle := hin.2; omega⟩
    have hcovers : Covers ps (pred x.1) := (h.covers _).2 ⟨by rcases hr with rfl | rfl <;> simp [hinside], by omega⟩
    obtain ⟨y, hy, hfirst, hlast⟩ := hcovers
    have hend : rank y.2 + 1 = rank x.1 := by
      rcases hsorted.eq_or_lt hx hy with rfl | hlt | hlt <;> omega
    rcases h.boundary_stop lrs rrs hy with hb | ht
    · exact hnot (hend ▸ hb)
    · omega
  rcases ((h.covers x.1).1 ⟨x, hx, Nat.le_refl _, hne⟩).1 with hin | hin
  · exact hprev lr (.inl rfl) hin
  · exact hprev rr (.inr rfl) hin

/-- Of two ranges that overlap, the first one is followed by another one of its list. So the key that it ends with is
parted from the next one. -/
lemma Sweeps.single_of_overlap {n t : ℕ} {a b : Range K} {as bs as' bs' out : List (Range K)}
    (h : Sweeps as' bs' out) (hover : Overlap a b) (hstep : Step (a :: as) (b :: bs) as' bs' t t)
    (hbs : SortedFrom n (b :: bs)) (hend : rank a.2 = t) (hfollowed : Followed (a :: as) (b :: bs))
    (has' : SortedFrom t as') (hbs' : SortedFrom t bs') : ¬ Inside out t ∧ ∃ y ∈ out, rank y.1 = t := by
  constructor
  · intro hin
    obtain ⟨l, hl, heq⟩ := hfollowed a b (staggered_heads hbs hover)
    have hne : rank l.1 ≤ rank l.2 := hstep.left.nonempty l hl
    obtain ⟨l', hl', hfirst, -⟩ := hstep.left.down l hl (by omega)
    exact (h.start_ne has' hbs' hin).1 l' hl' (by omega)
  · obtain ⟨-, hle, hlt⟩ := hover
    obtain ⟨r, hr, hfirst, -⟩ := hstep.right.down b List.mem_cons_self (by omega)
    have hne : rank r.1 ≤ rank r.2 := hbs'.sorted.1 r hr
    obtain ⟨y, hy, hyr, -⟩ := (h.covers_iff has' hbs' r.1).2 (.inr ⟨r, hr, Nat.le_refl _, hne⟩)
    have hge := (h.sortedFrom has' hbs').le hy
    exact ⟨y, hy, by omega⟩

/-- A refinement is parted by what it refines. -/
lemma Sweeps.parted {n : ℕ} {ls rs out : List (Range K)} (h : Sweeps ls rs out) (hls : SortedFrom n ls)
    (hrs : SortedFrom n rs) (hl : Followed ls rs) (hr : Followed rs ls) : Parted (ls ++ rs) out := by
  rw [followed_iff] at hl hr
  induction h generalizing n with
  | left ls =>
    rw [List.append_nil]
    exact parted_self ls
  | right rs => exact parted_self rs
  | @cut lr rr lrs rrs ps out lo ro e t hcut hsweeps ih =>
    obtain ⟨hel, her, het, hte⟩ := hcut.bounds
    have hls' := hcut.left.sortedFrom hte hls
    have hrs' := hcut.right.sortedFrom hte hrs
    have hstep := hcut.step hls hrs
    have hout := hsweeps.sortedFrom hls' hrs'
    have hmissed : ∀ p, ¬ Missed (lo.toList ++ lrs) (ro.toList ++ rrs) p := by
      intro p hp
      obtain ⟨x', hx', rfl⟩ := hp.exists_end
      obtain ⟨x, -, hlt, -, hstop⟩ := hstep.left.up x' hx'
      exact hl _ ((hstep.missed_iff (hstop ▸ hlt)).2 hp)
    have hmissed' : ∀ p, ¬ Missed (ro.toList ++ rrs) (lo.toList ++ lrs) p := by
      intro p hp
      obtain ⟨x', hx', rfl⟩ := hp.exists_end
      obtain ⟨x, -, hlt, -, hstop⟩ := hstep.right.up x' hx'
      exact hr _ ((hstep.symm.missed_iff (hstop ▸ hlt)).2 hp)
    obtain ⟨hstart, hstop⟩ := ih hls' hrs' hmissed hmissed'
    have hremains {p : ℕ} (hp : Boundary ((lo.toList ++ lrs) ++ (ro.toList ++ rrs)) p) :
        Boundary (lr :: lrs ++ rr :: rrs) p ∨ p = t := by
      rcases boundary_append.1 hp with hp | hp
      · exact (hstep.left.boundary hp).imp_left fun hb => boundary_append.2 (.inl hb)
      · exact (hstep.right.boundary hp).imp_left fun hb => boundary_append.2 (.inr hb)
    have hend : t = e + 1 → Boundary (lr :: lrs ++ rr :: rrs) t := by
      rintro rfl
      rcases hcut.stop with heq | heq
      · exact ⟨lr, List.mem_append_left _ List.mem_cons_self, .inr (by rw [heq])⟩
      · exact ⟨rr, List.mem_append_right _ List.mem_cons_self, .inr (by rw [heq])⟩
    have hsingle : t = e → ¬ Inside out e ∧ ∃ y ∈ out, rank y.1 = e := by
      rintro rfl
      have hcarry := hcut.carry.resolve_left fun h => by omega
      have hstop := hcut.stop
      rcases hcarry.2 with hover | hover
      · have hlt := hover.2.2
        exact hsweeps.single_of_overlap hover hstep hrs (by omega) (followed_iff.2 hl) hls' hrs'
      · have hlt := hover.2.2
        exact hsweeps.symm.single_of_overlap hover hstep.symm hls (by omega) (followed_iff.2 hr) hrs' hls'
    constructor
    · intro x hx
      rcases List.mem_append.1 hx with hx | hx
      · exact .inl (hcut.boundary_start hx)
      · rcases hstart x hx with hb | hone
        · rcases hremains hb with hb | heq
          · exact .inl hb
          · rcases Nat.eq_or_lt_of_le hte with hte' | hlt
            · exact .inl (heq ▸ hend hte')
            · have hin := (hsingle (by omega)).1
              refine .inr ?_
              by_contra hne
              have hxne : rank x.1 ≤ rank x.2 := hout.sorted.1 x hx
              exact hin ⟨x, hx, by omega, by omega⟩
        · exact .inr hone
    · intro x hx
      rcases List.mem_append.1 hx with hx | hx
      · rcases hcut.boundary_stop lrs rrs hx with hb | ht
        · exact .inl hb
        · rcases Nat.eq_or_lt_of_le hte with hte' | hlt
          · exact .inl (ht ▸ hend hte')
          · obtain ⟨y, hy, hyt⟩ := (hsingle (by omega)).2
            exact .inr ⟨y, List.mem_append_right _ hy, by omega⟩
      · rcases hstop x hx with hb | ⟨y, hy, heq⟩
        · refine .inl ((hremains hb).resolve_right fun heq => ?_)
          have hxne : rank x.1 ≤ rank x.2 := hout.sorted.1 x hx
          have hle := hout.le hx
          omega
        · exact .inr ⟨y, List.mem_append_right _ hy, heq⟩

end Boundaries

/-! ### Ranges that do not overlap -/

section Pieces

variable {K V : Type} [RangeOrd K] [LawfulRangeOrd K]

/-- The ranges `out` have the keys of `rs`, none is partly in a range of `rs`, and they are parted by these. -/
structure Pieces (rs out : List (Range K)) : Prop where
  nonempty : ∀ r ∈ rs, r.Nonempty
  sorted : Sorted out
  covers : ∀ k, Covers out k ↔ Covers rs k
  refines : ∀ x ∈ out, ∀ r ∈ rs, (∀ k, x.Contains k → r.Contains k) ∨ ∀ k, x.Contains k → ¬ r.Contains k
  parted : Parted rs out

variable {rs out : List (Range K)} {r x : Range K}

lemma pieces_nil : Pieces ([] : List (Range K)) [] :=
  ⟨List.forall_mem_nil _, ⟨List.forall_mem_nil _, .nil⟩, fun _ => Iff.rfl, List.forall_mem_nil _, parted_self []⟩

namespace Pieces

/-- A piece that meets a range is in it. -/
lemma le_of_contains (h : Pieces rs out) (hx : x ∈ out) (hr : r ∈ rs) {k : K} (hxk : x.Contains k)
    (hrk : r.Contains k) : rank r.1 ≤ rank x.1 ∧ rank x.2 ≤ rank r.2 := by
  have hne : rank x.1 ≤ rank x.2 := h.sorted.1 x hx
  rcases h.refines x hx r hr with hin | hout
  · exact ⟨(hin x.1 ⟨Nat.le_refl _, hne⟩).1, (hin x.2 ⟨hne, Nat.le_refl _⟩).2⟩
  · exact absurd hrk (hout k hxk)

/-- Where a range ends, a piece does. -/
lemma exists_stop (h : Pieces rs out) (hr : r ∈ rs) : ∃ x ∈ out, rank x.2 = rank r.2 ∧ rank r.1 ≤ rank x.1 := by
  have hne : rank r.1 ≤ rank r.2 := h.nonempty r hr
  have hlast : r.Contains r.2 := ⟨hne, Nat.le_refl _⟩
  obtain ⟨x, hx, hxr⟩ := (h.covers r.2).2 ⟨r, hr, hlast⟩
  obtain ⟨hstart, hstop⟩ := h.le_of_contains hx hr hxr hlast
  exact ⟨x, hx, Nat.le_antisymm hstop hxr.2, hstart⟩

/-- Where a range begins, a piece does. -/
lemma exists_start (h : Pieces rs out) (hr : r ∈ rs) : ∃ x ∈ out, rank x.1 = rank r.1 := by
  have hfirst : r.Contains r.1 := ⟨Nat.le_refl _, h.nonempty r hr⟩
  obtain ⟨x, hx, hxr⟩ := (h.covers r.1).2 ⟨r, hr, hfirst⟩
  exact ⟨x, hx, Nat.le_antisymm hxr.1 (h.le_of_contains hx hr hxr hfirst).1⟩

/-- A piece that goes on past a range's end started with a range that does so, or behind another piece. -/
lemma start_cases (h : Pieces rs out) (hx : x ∈ out) (hlt : rank x.1 < rank x.2) :
    (∃ q ∈ rs, rank q.1 = rank x.1 ∧ rank x.2 ≤ rank q.2) ∨
      ∃ q ∈ rs, ∃ y ∈ out, rank y.2 + 1 = rank x.1 ∧ rank q.2 = rank y.2 ∧ rank q.1 ≤ rank y.1 := by
  rcases h.parted.start x hx with ⟨q, hq, hstart | hstop⟩ | heq
  · have hfirst : q.Contains x.1 := ⟨Nat.le_of_eq hstart, hstart ▸ h.nonempty q hq⟩
    exact .inl ⟨q, hq, hstart, (h.le_of_contains hx hq ⟨Nat.le_refl _, Nat.le_of_lt hlt⟩ hfirst).2⟩
  · obtain ⟨y, hy, hend, hle⟩ := h.exists_stop hq
    exact .inr ⟨q, hq, y, hy, by omega, hend.symm, hle⟩
  · omega

lemma followed_right (h : Pieces rs out) (hover : ∀ q ∈ rs, ¬ Overlap q r) : Followed out [r] := by
  intro l r' hlr
  obtain ⟨hl, hr, hleft, hmid, hright⟩ := hlr.overlap
  obtain rfl := List.mem_singleton.1 hr
  rcases h.parted.stop l hl with ⟨q, hq, hstart | hstop⟩ | ⟨y, hy, heq⟩
  · obtain ⟨x, hx, hxq⟩ := h.exists_start hq
    exact ⟨x, hx, by omega⟩
  · have hend : rank q.2 = rank l.2 := by omega
    have hlast : q.Contains l.2 := ⟨hend ▸ h.nonempty q hq, Nat.le_of_eq hend.symm⟩
    have hle := (h.le_of_contains hl hq ⟨h.sorted.1 l hl, Nat.le_refl _⟩ hlast).1
    exact absurd ⟨by omega, by omega, by omega⟩ (hover q hq)
  · exact ⟨y, hy, heq⟩

lemma followed_left (h : Pieces rs out) (hover : ∀ q ∈ rs, ¬ Overlap q r ∧ ¬ Overlap r q) : Followed [r] out := by
  intro r' l hrl
  obtain ⟨hr, hl, hleft, hmid, hright⟩ := hrl.overlap
  obtain rfl := List.mem_singleton.1 hr
  rcases h.start_cases hl (Nat.lt_of_le_of_lt hmid hright) with ⟨q, hq, hstart, hstop⟩ | ⟨q, hq, y, hy, hyl, hend, hle⟩
  · exact absurd ⟨by omega, by omega, by omega⟩ (hover q hq).2
  · cases hrl with
    | first _ _ _ hfirst => exact absurd hyl (hfirst y hy)
    | @next _ _ _ _ x hstag _ _ hnext =>
      obtain ⟨hx, -, hxl, hxm, hxr⟩ := hstag.overlap
      obtain rfl : x = y := by
        have hxne : rank x.1 ≤ rank x.2 := h.sorted.1 x hx
        have hyne : rank y.1 ≤ rank y.2 := h.sorted.1 y hy
        exact (h.sorted.eq_or_lt hx hy).resolve_right fun hlt => by omega
      exact absurd ⟨by omega, by omega, by omega⟩ (hover q hq).1

end Pieces

variable [DecidableEq K]

variable {m : RangeMap K V} {new : List (Range K)}

lemma CommonRefinement.le_of_contains (h : CommonRefinement m out new) (hx : x ∈ new) (hr : r ∈ out) {k : K}
    (hxk : x.Contains k) (hrk : r.Contains k) : rank r.1 ≤ rank x.1 ∧ rank x.2 ≤ rank r.2 := by
  have hne : rank x.1 ≤ rank x.2 := h.sorted.1 x hx
  rcases h.refines x hx r (.inr hr) with hin | hout
  · exact ⟨(hin x.1 ⟨Nat.le_refl _, hne⟩).1, (hin x.2 ⟨hne, Nat.le_refl _⟩).2⟩
  · exact absurd hrk (hout k hxk)

/-- Where staggered ranges are followed, nothing begins or ends in a range that comes out. -/
lemma commonRefinement_of_followed (hm : Sorted m.ranges) (hout : Sorted out) (hl : Followed m.ranges out)
    (hr : Followed out m.ranges) : CommonRefinement m out (m.disjointRanges out) := by
  have hsweeps : Sweeps m.ranges out (m.disjointRanges out) := sweeps_sweep hm.sortedFrom hout.sortedFrom
  have hsorted := (hsweeps.sortedFrom hm.sortedFrom hout.sortedFrom).sorted
  rw [followed_iff] at hl hr
  have hrefines : ∀ x ∈ m.disjointRanges out, ∀ r, r ∈ m.ranges ∨ r ∈ out →
      (∀ k, x.Contains k → r.Contains k) ∨ ∀ k, x.Contains k → ¬ r.Contains k := by
    intro x hx r hr'
    refine contains_of_not_inside hx (fun p hp => ?_) fun p hp heq => ?_
    · obtain ⟨hfirst, hsecond⟩ := hsweeps.start_ne hm.sortedFrom hout.sortedFrom hp
      exact hr'.elim (hfirst r) (hsecond r)
    · have hmissed := (hsweeps.inside_end_iff hm.sortedFrom hout.sortedFrom p).1
        ⟨hp, hr'.imp (fun h => ⟨r, h, heq⟩) fun h => ⟨r, h, heq⟩⟩
      exact hmissed.elim (hl p) (hr p)
  exact ⟨hsorted, hsweeps.covers_iff hm.sortedFrom hout.sortedFrom, hrefines, fun x hx k hk =>
    lookupRangeSubset_eq hm (hsorted.1 x hx) (fun r hr => hrefines x hx r (.inl hr)) hk⟩

/-- What is parted by the pieces and a range is parted by the ranges. -/
lemma Pieces.parted_cons (h : Pieces rs out) (hcommon : CommonRefinement m out new)
    (hparted : Parted ([r] ++ out) new) : Parted (r :: rs) new where
  start x hx := by
    have hxne : rank x.1 ≤ rank x.2 := hcommon.sorted.1 x hx
    have hsame : ∀ y ∈ out, rank y.1 = rank x.1 → Boundary (r :: rs) (rank x.1) ∨ rank x.1 = rank x.2 := by
      intro y hy heq
      rcases h.parted.start y hy with ⟨q, hq, hb⟩ | hone
      · exact .inl ⟨q, List.mem_cons_of_mem r hq, heq ▸ hb⟩
      · have hyx : y.Contains x.1 := ⟨Nat.le_of_eq heq, heq ▸ h.sorted.1 y hy⟩
        have hle := (hcommon.le_of_contains hx hy ⟨Nat.le_refl _, hxne⟩ hyx).2
        exact .inr (by omega)
    rcases hparted.start x hx with ⟨q, hq, hb⟩ | hone
    · rcases List.mem_append.1 hq with hq | hq
      · exact .inl ⟨q, List.mem_cons.2 (.inl (List.mem_singleton.1 hq)), hb⟩
      · rcases hb with heq | heq
        · exact hsame q hq heq
        · rcases h.parted.stop q hq with ⟨p, hp, hb⟩ | ⟨y, hy, hyq⟩
          · exact .inl ⟨p, List.mem_cons_of_mem r hp, heq ▸ hb⟩
          · exact hsame y hy (hyq.trans heq)
    · exact .inr hone
  stop x hx := by
    have hnext : ∀ y ∈ out, rank y.1 = rank x.2 + 1 → ∃ z ∈ new, rank z.1 = rank x.2 + 1 := by
      intro y hy heq
      have hfirst : Covers out y.1 := ⟨y, hy, Nat.le_refl _, h.sorted.1 y hy⟩
      obtain ⟨z, hz, hzfirst, hzlast⟩ := (hcommon.union y.1).2 (.inr hfirst)
      have hxne : rank x.1 ≤ rank x.2 := hcommon.sorted.1 x hx
      refine ⟨z, hz, ?_⟩
      rcases hcommon.sorted.eq_or_lt hx hz with rfl | hlt | hlt <;> omega
    rcases hparted.stop x hx with ⟨q, hq, hb⟩ | hnew
    · rcases List.mem_append.1 hq with hq | hq
      · exact .inl ⟨q, List.mem_cons.2 (.inl (List.mem_singleton.1 hq)), hb⟩
      · rcases hb with heq | heq
        · exact .inr (hnext q hq heq)
        · rcases h.parted.stop q hq with ⟨p, hp, hb⟩ | ⟨y, hy, hyq⟩
          · exact .inl ⟨p, List.mem_cons_of_mem r hp, heq ▸ hb⟩
          · exact .inr (hnext y hy (hyq.trans heq))
    · exact .inr hnew

/-- One more range parts the pieces, if it does not overlap any range. -/
lemma Pieces.cons (h : Pieces rs out) (hr : r.Nonempty) (hover : ∀ q ∈ rs, ¬ Overlap q r ∧ ¬ Overlap r q)
    (hm : m.ranges = [r]) : Pieces (r :: rs) (m.disjointRanges out) := by
  have hsorted : Sorted m.ranges := hm ▸ ⟨List.forall_mem_singleton.2 hr, List.pairwise_singleton _ _⟩
  have hfollowed : Followed m.ranges out ∧ Followed out m.ranges :=
    hm ▸ ⟨h.followed_left hover, h.followed_right fun q hq => (hover q hq).1⟩
  have hcommon : CommonRefinement m out (m.disjointRanges out) :=
    commonRefinement_of_followed hsorted h.sorted hfollowed.1 hfollowed.2
  refine ⟨List.forall_mem_cons.2 ⟨hr, h.nonempty⟩, hcommon.sorted, fun k => ?_, fun x hx q hq => ?_, ?_⟩
  · rw [hcommon.union, h.covers, hm, covers_cons, covers_cons, covers_nil, or_false]
  · rcases List.mem_cons.1 hq with rfl | hq
    · exact hcommon.refines x hx q (.inl (hm ▸ List.mem_singleton_self q))
    · by_cases hmeet : ∃ k, x.Contains k ∧ q.Contains k
      · obtain ⟨k, hxk, hqk⟩ := hmeet
        obtain ⟨y, hy, hyk⟩ := (h.covers k).2 ⟨q, hq, hqk⟩
        obtain ⟨hyx, hxy⟩ := hcommon.le_of_contains hx hy hxk hyk
        obtain ⟨hqy, hyq⟩ := h.le_of_contains hy hq hyk hqk
        refine .inl fun k' hk' => ?_
        obtain ⟨hfirst, hlast⟩ := hk'
        exact ⟨by omega, by omega⟩
      · exact .inr fun k hxk hqk => hmeet ⟨k, hxk, hqk⟩
  · have hsweeps : Sweeps m.ranges out (m.disjointRanges out) := sweeps_sweep hsorted.sortedFrom h.sorted.sortedFrom
    have hparted := hsweeps.parted hsorted.sortedFrom h.sorted.sortedFrom hfollowed.1 hfollowed.2
    exact h.parted_cons hcommon (hm ▸ hparted)

end Pieces

end Hobbes.Regex
