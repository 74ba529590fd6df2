import Hobbes.Util.RegionPages
import Mathlib.Algebra.Order.BigOperators.Group.Finset
import Mathlib.Data.Finset.Card
import Mathlib.Order.Interval.Finset.Nat

/-!
# The lists of a region

The pages that are not released are those on the used and on the free list, and none is on both.
-/

namespace Hobbes.Util

open Core

namespace Region

variable {r r' : Region} {T p fuel : ℕ} {us fs : List ℕ} {pg : MemPage}

/-! ### Steps -/

/-- `us` is the used list, and `fs` is the free list. -/
structure Owns (r : Region) (T : ℕ) (us fs : List ℕ) : Prop where
  holds : r.Holds T (us ++ fs)
  used : Linked r.link (some r.usedp) us
  free : Linked r.link r.freep fs
  sized : r.Sized

namespace Owns

/-- The used list starts with the page that is used now. -/
lemma exists_cons (h : r.Owns T us fs) :
    ∃ us' pg, us = r.usedp :: us' ∧ r.pages r.usedp = some pg ∧ Linked r.link pg.succ us' := by
  obtain ⟨n, us', rfl, hn, hl⟩ := h.used.of_some
  obtain ⟨pg, hp, rfl⟩ := Option.map_eq_some_iff.1 hn
  exact ⟨us', pg, rfl, hp, hl⟩

lemma setRead (h : r.Owns T us fs) (hp : r.pages r.usedp = some pg) {n T' : ℕ} (hn : n ≤ pg.size) (hT : T ≤ T')
    (hnT : n ≤ T') : (r.setPage r.usedp (some { pg with read := n })).Owns T' us fs := by
  have hlink : (r.setPage r.usedp (some { pg with read := n })).link = r.link := by
    funext q
    by_cases hq : q = r.usedp
    · subst hq
      simp [link, hp]
    · rw [link, link, r.setPage_of_ne hq]
  exact ⟨h.holds.setPage hT hp rfl rfl rfl rfl rfl hn hnT, hlink ▸ h.used, hlink ▸ h.free, h.sized.1, h.sized.2,
    h.sized.3⟩

/-- The page that is new is put before one of the lists. -/
lemma newpage (h : r.Owns T us fs) {sz : ℕ} (hsz : sz < 2 ^ 64) (base : ℕ) (succ : Option ℕ) :
    (r.newpage base succ sz).Holds T (r.obtained :: us ++ fs) ∧ (r.newpage base succ sz).Sized ∧
      Linked (r.newpage base succ sz).link (some r.usedp) us ∧ Linked (r.newpage base succ sz).link r.freep fs ∧
        (r.newpage base succ sz).link r.obtained = some succ := by
  have hlink : ∀ p ∈ us ++ fs, (r.newpage base succ sz).link p = r.link p := fun p hp =>
    congrArg (Option.map MemPage.succ) (r.setPage_of_ne (ne_of_mem_of_not_mem hp h.holds.not_obtained.1) _)
  refine ⟨h.holds.newpage h.sized hsz base succ, ⟨h.sized.1, h.sized.2, ?_⟩,
    h.used.congr fun p hp => hlink p (List.mem_append_left fs hp),
    h.free.congr fun p hp => hlink p (List.mem_append_right us hp),
    congrArg (Option.map MemPage.succ) (r.setPage_self r.obtained _)⟩
  simp only [Region.newpage]
  split_ifs
  · exact Nat.mod_lt _ (by decide)
  · exact h.sized.3

lemma allocNew (h : r.Owns T us fs) {sz : ℕ} (hsz : sz < 2 ^ 64) (base : ℕ) :
    (r.allocNew base sz).Owns T (r.obtained :: us) fs := by
  obtain ⟨hholds, hsized, hused, hfree, hlink⟩ := h.newpage hsz base (some r.usedp)
  exact ⟨hholds.rewrite (fun _ => rfl) (fun p pg hp => (hholds.page p pg hp).2) rfl rfl rfl, .cons hlink hused, hfree,
    hsized.1, hsized.2, hsized.3⟩

lemma addFree (h : r.Owns T us fs) (bases : List ℕ) :
    ∃ fs', (r.addFree bases).Owns T us fs' ∧ (r.addFree bases).obtained = r.obtained + bases.length := by
  induction bases generalizing r fs with
  | nil => exact ⟨fs, h, rfl⟩
  | cons base bases ih =>
    obtain ⟨hholds, hsized, hused, hfree, hlink⟩ := h.newpage h.sized.1 base r.freep
    have hstep :
        Owns { r.newpage base r.freep r.minPageSize with freep := some r.obtained } T us (r.obtained :: fs) := by
      refine ⟨?_, hused, .cons hlink hfree, hsized.1, hsized.2, hsized.3⟩
      exact (hholds.perm List.perm_middle.symm).rewrite (fun _ => rfl) (fun p pg hp => (hholds.page p pg hp).2)
        rfl rfl rfl
    obtain ⟨fs', howns, hobtained⟩ := ih hstep
    refine ⟨fs', howns, hobtained.trans ?_⟩
    change r.obtained + 1 + bases.length = _
    rw [List.length_cons]
    omega

/-- The page is one that was not used, and that is large enough. -/
lemma allocpage (h : r.Owns T us fs) {sz : ℕ} (hsz : sz < 2 ^ 64) (base : ℕ) :
    ∃ r' pg fs', r.allocpage base sz = some r' ∧ r'.Owns T (r'.usedp :: us) fs' ∧ r'.usedp ∉ us ∧
      r'.pages r'.usedp = some pg ∧ sz ≤ pg.size ∧ (∀ p ∈ us, r'.pages p = r.pages p) ∧
        r'.obtained ≤ r.obtained + 1 := by
  have hnew : ∃ r' pg fs', some (r.allocNew base sz) = some r' ∧ r'.Owns T (r'.usedp :: us) fs' ∧ r'.usedp ∉ us ∧
      r'.pages r'.usedp = some pg ∧ sz ≤ pg.size ∧ (∀ p ∈ us, r'.pages p = r.pages p) ∧
        r'.obtained ≤ r.obtained + 1 := by
    have hnot : r.obtained ∉ us := fun hmem => h.holds.not_obtained.1 (List.mem_append_left fs hmem)
    refine ⟨_, ⟨base, r.newPageSize sz, 0, some r.usedp⟩, fs, rfl, h.allocNew hsz base, hnot, r.setPage_self _ _, ?_,
      fun p hp => r.setPage_of_ne (ne_of_mem_of_not_mem hp hnot) _, le_rfl⟩
    simp only [newPageSize]
    split_ifs
    · exact le_max_left _ _
    · exact le_max_left _ _
  unfold Region.allocpage
  cases hfree : r.freep with
  | none => exact hnew
  | some p =>
    obtain ⟨n, fs', rfl, hn, hl⟩ := (hfree ▸ h.free : Linked r.link (some p) fs).of_some
    obtain ⟨pg, hp, rfl⟩ := Option.map_eq_some_iff.1 hn
    simp only [hp, Option.map_some]
    split_ifs with hsize
    · have hnodup := h.holds.nodup
      rw [List.nodup_append] at hnodup
      have hnot : p ∉ us := fun hmem => hnodup.2.2 p hmem p List.mem_cons_self rfl
      have hnot' : p ∉ fs' := (List.nodup_cons.1 hnodup.2.1).1
      have hlink : ∀ q, q ≠ p → (r.setPage p (some { pg with succ := some r.usedp })).link q = r.link q :=
        fun q hq => congrArg (Option.map MemPage.succ) (r.setPage_of_ne hq _)
      refine ⟨_, _, fs', rfl, ⟨?_, .cons (congrArg (Option.map MemPage.succ) (r.setPage_self p _)) ?_, ?_,
        h.sized.1, h.sized.2, h.sized.3⟩, hnot, r.setPage_self p _, hsize,
        fun q hq => r.setPage_of_ne (ne_of_mem_of_not_mem hq hnot) _, Nat.le_succ _⟩
      · obtain ⟨-, hread, hreadT⟩ := h.holds.page p pg hp
        exact (h.holds.perm List.perm_middle).setPage le_rfl hp rfl rfl rfl rfl rfl hread hreadT
      · exact h.used.congr fun q hq => hlink q (ne_of_mem_of_not_mem hq hnot)
      · exact hl.congr fun q hq => hlink q (ne_of_mem_of_not_mem hq hnot')
    · exact hnew

end Owns

/-- The blocks are in used pages, below what has been read of these, and no two of a page overlap. -/
structure Holding (r : Region) (us : List ℕ) (blocks : List Block) : Prop where
  inside : ∀ b ∈ blocks, b.page ∈ us ∧
    ∃ pg, r.pages b.page = some pg ∧ pg.base ≤ b.addr ∧ b.addr + b.size ≤ pg.base + pg.read
  apart : blocks.Pairwise fun b c => b.page = c.page → b.addr + b.size ≤ c.addr ∨ c.addr + c.size ≤ b.addr

lemma Owns.malloc (h : r.Owns T us fs) {sz : ℕ} (hsz : T + sz < 2 ^ 64) (base : ℕ) {blocks : List Block}
    (hblocks : r.Holding us blocks) :
    ∃ r' addr us' fs', r.malloc base sz = some (r', addr) ∧ r'.Owns (T + sz) us' fs' ∧
      r'.Holding us' (blocks ++ [⟨addr, sz, r'.usedp⟩]) ∧ r'.obtained ≤ r.obtained + 1 := by
  obtain ⟨us', pg, hus, hp, -⟩ := h.exists_cons
  obtain ⟨-, hread, hreadT⟩ := h.holds.page _ pg hp
  have hnr : word (pg.read + sz) = pg.read + sz := Nat.mod_eq_of_lt (by omega)
  by_cases hfits : pg.read + sz ≤ pg.size
  · refine ⟨_, pg.base + pg.read, us, fs, by simp only [Region.malloc, hp, Option.bind_some, hnr, if_pos hfits],
      h.setRead hp hfits (Nat.le_add_right T sz) (Nat.add_le_add_right hreadT sz), ⟨?_, ?_⟩, Nat.le_succ _⟩
    · intro b hb
      rw [List.mem_append, List.mem_singleton] at hb
      obtain hb | rfl := hb
      · obtain ⟨hbu, bg, hbg, hbase, hend⟩ := hblocks.inside b hb
        by_cases hpage : b.page = r.usedp
        · rw [hpage, hp, Option.some_inj] at hbg
          subst hbg
          have hmore : pg.base + pg.read ≤ pg.base + (pg.read + sz) := Nat.add_le_add_left (Nat.le_add_right _ sz) _
          exact ⟨hbu, { pg with read := pg.read + sz }, by rw [hpage, r.setPage_self], hbase, hend.trans hmore⟩
        · exact ⟨hbu, bg, by rwa [r.setPage_of_ne hpage], hbase, hend⟩
      · refine ⟨hus ▸ List.mem_cons_self, _, r.setPage_self _ _, Nat.le_add_right _ _, (Nat.add_assoc _ _ _).le⟩
    · rw [List.pairwise_append]
      refine ⟨hblocks.apart, List.pairwise_singleton _ _, fun b hb c hc hpage => ?_⟩
      rw [List.mem_singleton] at hc
      subst hc
      obtain ⟨-, bg, hbg, -, hend⟩ := hblocks.inside b hb
      change b.page = r.usedp at hpage
      rw [hpage, hp, Option.some_inj] at hbg
      exact .inl (hbg ▸ hend)
  · obtain ⟨r₁, qg, fs', hr₁, h₁, hnot, hq, hsize, hkeeps, hobtained⟩ := h.allocpage (by omega : sz < 2 ^ 64) base
    refine ⟨_, qg.base, _, fs',
      by simp only [Region.malloc, hp, Option.bind_some, hnr, if_neg hfits, hr₁, hq, Option.map_some],
      h₁.setRead hq hsize (Nat.le_add_right T sz) (Nat.le_add_left sz T), ⟨?_, ?_⟩, hobtained⟩
    · intro b hb
      rw [List.mem_append, List.mem_singleton] at hb
      obtain hb | rfl := hb
      · obtain ⟨hbu, bg, hbg, hbase, hend⟩ := hblocks.inside b hb
        refine ⟨List.mem_cons_of_mem _ hbu, bg, ?_, hbase, hend⟩
        rw [r₁.setPage_of_ne (ne_of_mem_of_not_mem hbu hnot), hkeeps _ hbu, hbg]
      · exact ⟨List.mem_cons_self, _, r₁.setPage_self _ _, le_rfl, le_rfl⟩
    · rw [List.pairwise_append]
      refine ⟨hblocks.apart, List.pairwise_singleton _ _, fun b hb c hc hpage => ?_⟩
      rw [List.mem_singleton] at hc
      subst hc
      change b.page = r₁.usedp at hpage
      exact absurd (hpage ▸ (hblocks.inside b hb).1) hnot

lemma Owns.clear (h : r.Owns T us fs) (hfuel : r.obtained ≤ fuel) :
    ∃ r', r.clear fuel = some r' ∧ r'.Owns T [r'.usedp] [] ∧ r'.obtained = r.obtained := by
  obtain ⟨us', pg, rfl, hp, hl⟩ := h.exists_cons
  have hlength := h.holds.length_le.trans hfuel
  rw [List.length_append, List.length_cons] at hlength
  obtain ⟨r₁, hr₁, h₁, hkeeps₁⟩ := freepages_spec h.free (h.holds.perm List.perm_append_comm) (by omega : _ ≤ fuel)
  have hp₁ : r₁.pages r₁.usedp = some pg := by rw [hkeeps₁.usedp, hkeeps₁.pages _ List.mem_cons_self, hp]
  have hl₁ : Linked r₁.link pg.succ us' := hl.congr fun p hp =>
    congrArg (Option.map MemPage.succ) (hkeeps₁.pages p (List.mem_cons_of_mem _ hp))
  obtain ⟨r₂, hr₂, h₂, hkeeps₂⟩ :=
    freepages_spec hl₁ (h₁.perm (List.perm_append_singleton r.usedp us').symm) (by omega : _ ≤ fuel)
  have hused : r₂.usedp = r.usedp := hkeeps₂.usedp.trans hkeeps₁.usedp
  have hp₂ : r₂.pages r₂.usedp = some pg := by
    rw [hkeeps₂.usedp, hkeeps₂.pages _ (by rw [hkeeps₁.usedp, List.mem_singleton]), hp₁]
  refine ⟨_, by rw [Region.clear, hr₁, Option.bind_some, hp₁, Option.bind_some, hr₂, Option.bind_some, hp₂,
    Option.map_some], ?_, ?_⟩
  · refine ⟨?_, .cons (congrArg (Option.map MemPage.succ) (r₂.setPage_self _ _)) .nil, .nil, ?_⟩
    · exact (hused ▸ h₂).setPage le_rfl hp₂ rfl rfl rfl rfl rfl (Nat.zero_le _) (Nat.zero_le _)
    · have hmin : r₂.minPageSize < 2 ^ 64 := by
        rw [hkeeps₂.minPageSize, hkeeps₁.minPageSize]
        exact h.sized.1
      have hmax : r₂.maxPageSize < 2 ^ 64 := by
        rw [hkeeps₂.maxPageSize, hkeeps₁.maxPageSize]
        exact h.sized.2
      exact ⟨hmin, hmax, hmin⟩
  · exact hkeeps₂.obtained.trans hkeeps₁.obtained

lemma Owns.reset (h : r.Owns T us fs) (hfuel : r.obtained ≤ fuel) :
    ∃ r' fs', r.reset fuel = some r' ∧ r'.Owns T [r'.usedp] fs' ∧ r'.obtained = r.obtained := by
  obtain ⟨us', pg, rfl, hp, hl⟩ := h.exists_cons
  have hlength := h.holds.length_le.trans hfuel
  rw [List.length_append] at hlength
  obtain ⟨hnodup, hnodup', hapart⟩ := List.nodup_append.1 h.holds.nodup
  have hr₁ := rewind_spec h.used hnodup (by omega : _ ≤ fuel)
  have hp₁ : (r.afterRewind (r.usedp :: us')).pages (r.afterRewind (r.usedp :: us')).usedp =
      some (rewound r.freep pg) :=
    (afterRewind_of_mem List.mem_cons_self).trans (congrArg _ hp)
  have hholds : (r.afterRewind (r.usedp :: us')).Holds T (r.usedp :: us' ++ fs) := by
    refine h.holds.rewrite (fun q => ?_) (fun q qg hqg => ?_) rfl rfl rfl
    · by_cases hq : q ∈ r.usedp :: us'
      · rw [afterRewind_of_mem hq, Option.map_map]
        rfl
      · rw [afterRewind_of_not_mem hq]
    · by_cases hq : q ∈ r.usedp :: us'
      · rw [afterRewind_of_mem hq] at hqg
        obtain ⟨qg, -, rfl⟩ := Option.map_eq_some_iff.1 hqg
        exact ⟨Nat.zero_le _, Nat.zero_le _⟩
      · rw [afterRewind_of_not_mem hq] at hqg
        exact (h.holds.page q qg hqg).2
  refine ⟨_, us' ++ fs, by rw [Region.reset, hr₁, Option.bind_some, hp₁, Option.map_some], ?_, ?_⟩
  · refine ⟨hholds.setPage le_rfl hp₁ rfl rfl rfl rfl rfl (Nat.zero_le _) (Nat.zero_le _),
      .cons (congrArg (Option.map MemPage.succ) (setPage_self _ _ _)) .nil, ?_, h.sized.1, h.sized.2, h.sized.3⟩
    generalize hr' : ({ (r.afterRewind (r.usedp :: us')).setPage _ _ with freep := _ } : Region) = r'
    have hfreep : r'.freep = if pg.succ = none then r.freep else pg.succ := by
      rw [← hr']
      rfl
    have hlink : ∀ q, q ≠ r.usedp → r'.link q = (r.afterRewind (r.usedp :: us')).link q := by
      intro q hq
      rw [← hr']
      exact congrArg (Option.map MemPage.succ) (setPage_of_ne (r.afterRewind (r.usedp :: us')) hq _)
    have hfree : Linked r'.link r.freep fs := h.free.congr fun q hq => by
      have hqu : q ∉ r.usedp :: us' := fun hmem => hapart q hmem q hq rfl
      rw [hlink q (List.ne_of_not_mem_cons hqu), link, afterRewind_of_not_mem hqu, link]
    -- the last used page is the one that gets another link
    have hnext : ∀ q ∈ us', ∀ n, r.link q = some n → r'.link q = some (if n = none then r.freep else n) := by
      intro q hq n hn
      obtain ⟨qg, hqg, rfl⟩ := Option.map_eq_some_iff.1 hn
      have hne : q ≠ r.usedp := ne_of_mem_of_not_mem hq (List.nodup_cons.1 hnodup).1
      rw [hlink q hne, link, afterRewind_of_mem (List.mem_cons_of_mem _ hq), hqg]
      rfl
    rw [hfreep]
    cases hsucc : pg.succ with
    | none =>
      rw [hsucc] at hl
      obtain rfl := hl.of_none
      exact hfree
    | some b =>
      rw [hsucc] at hl
      obtain ⟨n, us, rfl, -, -⟩ := hl.of_some
      rw [if_neg (Option.some_ne_none b)]
      refine hl.append (List.nodup_cons.1 hnodup).2 hfree (fun q hq hlast => ?_) (fun q hq hmore => ?_)
        (List.cons_ne_nil _ _)
      · rw [hnext q hq none hlast, if_pos rfl]
      · obtain ⟨qg, hqg⟩ := h.holds.exists_page (List.mem_append_left fs (List.mem_cons_of_mem r.usedp hq))
        have hqlink := link_of_eq hqg
        rw [hqlink] at hmore ⊢
        rw [hnext q hq _ hqlink, if_neg fun heq => hmore (congrArg some heq)]
  · rfl

/-- The region is ready when it is made. -/
lemma owns_make {minPageSize maxPageSize : ℕ} (hmin : minPageSize < 2 ^ 64) (hmax : maxPageSize < 2 ^ 64) (base : ℕ)
    (bases : List ℕ) :
    ∃ us fs, (make minPageSize maxPageSize base bases).Owns 0 us fs ∧
      (make minPageSize maxPageSize base bases).obtained = bases.length + 1 := by
  set r : Region := ⟨minPageSize, maxPageSize, minPageSize, 0, 0, none, fun _ => none, 0, []⟩ with hr
  have hholds : r.Holds 0 [] :=
    ⟨by simp [hr], List.nodup_nil, by simp [hr], List.nodup_nil, by simp, by simp [hr], by simp [hr]⟩
  have hsized : r.Sized := ⟨hmin, hmax, hmin⟩
  have hpage := hholds.newpage hsized hmin base none
  have hfirst : Owns { r.newpage base none minPageSize with usedp := r.obtained } 0 [r.obtained] [] := by
    refine ⟨hpage.rewrite (fun _ => rfl) (fun p pg hp => (hpage.page p pg hp).2) rfl rfl rfl,
      .cons (congrArg (Option.map MemPage.succ) (r.setPage_self r.obtained _)) .nil, .nil, hmin, hmax, ?_⟩
    simp only [Region.newpage]
    split_ifs
    · exact Nat.mod_lt _ (by decide)
    · exact hmin
  obtain ⟨fs, howns, hobtained⟩ := hfirst.addFree bases
  exact ⟨_, fs, howns, hobtained.trans (Nat.add_comm 1 _)⟩

/-- What `::malloc` promises: what it has returned is memory, and does not overlap while it is not freed. -/
structure Apart (r : Region) : Prop where
  memory : ∀ p pg, r.pages p = some pg → pg.base + pg.size ≤ 2 ^ 64 ∧ (0 < pg.size → 0 < pg.base)
  apart : ∀ p q pg qg, r.pages p = some pg → r.pages q = some qg → p ≠ q →
    pg.base + pg.size ≤ qg.base ∨ qg.base + qg.size ≤ pg.base

/-- What does not overlap fits into the addresses that there are. -/
lemma Holds.sum_lt (h : r.Holds T ps) (hr : r.Apart) : (ps.map (sizeOf r.pages)).sum < 2 ^ 64 := by
  let range (p : ℕ) : Finset ℕ := ((r.pages p).map fun pg => Finset.Ico pg.base (pg.base + pg.size)).getD ∅
  have hcard : ∀ p ∈ ps.toFinset, (range p).card = sizeOf r.pages p := by
    intro p hp
    obtain ⟨pg, hpg⟩ := h.exists_page (List.mem_toFinset.1 hp)
    simp [range, hpg, sizeOf_of_eq hpg]
  have hdisjoint : (ps.toFinset : Set ℕ).PairwiseDisjoint range := by
    intro p hp q hq hne
    obtain ⟨pg, hpg⟩ := h.exists_page (List.mem_toFinset.1 hp)
    obtain ⟨qg, hqg⟩ := h.exists_page (List.mem_toFinset.1 hq)
    have hapart := hr.apart p q pg qg hpg hqg hne
    simp only [Function.onFun, range, hpg, hqg, Option.map_some, Option.getD_some]
    rw [Finset.disjoint_left]
    intro a ha ha'
    rw [Finset.mem_Ico] at ha ha'
    omega
  have hsubset : ps.toFinset.biUnion range ⊆ Finset.Ico 1 (2 ^ 64) := by
    intro a ha
    obtain ⟨p, hp, ha⟩ := Finset.mem_biUnion.1 ha
    obtain ⟨pg, hpg⟩ := h.exists_page (List.mem_toFinset.1 hp)
    obtain ⟨hend, hbase⟩ := hr.memory p pg hpg
    simp only [range, hpg, Option.map_some, Option.getD_some, Finset.mem_Ico] at ha
    rw [Finset.mem_Ico]
    omega
  calc (ps.map (sizeOf r.pages)).sum = ∑ p ∈ ps.toFinset, sizeOf r.pages p := (List.sum_toFinset _ h.nodup).symm
    _ = ∑ p ∈ ps.toFinset, (range p).card := (Finset.sum_congr rfl hcard).symm
    _ = (ps.toFinset.biUnion range).card := (Finset.card_biUnion hdisjoint).symm
    _ ≤ (Finset.Ico 1 (2 ^ 64)).card := Finset.card_le_card hsubset
    _ < 2 ^ 64 := by
      rw [Nat.card_Ico]
      decide

lemma Holding.apart_of_apart {blocks : List Block} (hblocks : r.Holding us blocks) (h : r.Owns T us fs) (hr : r.Apart) :
    blocks.Pairwise fun b c => b.addr + b.size ≤ c.addr ∨ c.addr + c.size ≤ b.addr := by
  refine hblocks.apart.imp_of_mem fun {b c} hb hc hpage => ?_
  by_cases heq : b.page = c.page
  · exact hpage heq
  · obtain ⟨-, bg, hbg, hbase, hbend⟩ := hblocks.inside b hb
    obtain ⟨-, cg, hcg, hcbase, hcend⟩ := hblocks.inside c hc
    have hbread := (h.holds.page _ bg hbg).2.1
    have hcread := (h.holds.page _ cg hcg).2.1
    have := hr.apart _ _ bg cg hbg hcg heq
    omega

/-- Destruction releases every page. -/
lemma Owns.destroy (h : r.Owns T us fs) (hfuel : r.obtained ≤ fuel) :
    ∃ r', r.destroy fuel = some r' ∧ r'.totalAllocation = 0 ∧ r'.released.Nodup ∧
      ∀ p, p ∈ r'.released ↔ p < r.obtained := by
  obtain ⟨r₁, hr₁, h₁, hobtained⟩ := h.clear hfuel
  have hlast : r₁.Holds T [r₁.usedp] := h₁.holds
  obtain ⟨r', hr', h', hkeeps⟩ := hlast.freepage
  refine ⟨r', by rw [Region.destroy, hr₁, Option.bind_some, hr'], h'.total, h'.once, fun p => ?_⟩
  rw [← hobtained, ← hkeeps.obtained, h'.obtained, or_iff_right List.not_mem_nil]

end Region

/-! ### Runs -/

namespace RegionCall

variable {r : Region} {T fuel : ℕ} {us fs : List ℕ} {blocks : List Block}

lemma run_spec (h : r.Owns T us fs) (hblocks : r.Holding us blocks) (c : RegionCall) (hasks : T + c.asks < 2 ^ 64)
    (hfuel : r.obtained ≤ fuel) :
    ∃ r' blocks' us' fs', c.run fuel (r, blocks) = some (r', blocks') ∧ r'.Owns (T + c.asks) us' fs' ∧
      r'.Holding us' blocks' ∧ r'.obtained ≤ r.obtained + 1 := by
  cases c with
  | malloc sz base =>
    change T + sz < 2 ^ 64 at hasks
    obtain ⟨r', addr, us', fs', hr', h', hblocks', hobtained⟩ := h.malloc hasks base hblocks
    exact ⟨r', _, us', fs', by rw [run, hr', Option.map_some], h', hblocks', hobtained⟩
  | clear =>
    obtain ⟨r', hr', h', hobtained⟩ := h.clear hfuel
    exact ⟨r', _, _, _, by rw [run, hr', Option.map_some], h', ⟨by simp, .nil⟩, hobtained.le.trans (Nat.le_succ _)⟩
  | reset =>
    obtain ⟨r', fs', hr', h', hobtained⟩ := h.reset hfuel
    exact ⟨r', _, _, fs', by rw [run, hr', Option.map_some], h', ⟨by simp, .nil⟩, hobtained.le.trans (Nat.le_succ _)⟩

lemma runs_spec (h : r.Owns T us fs) (hblocks : r.Holding us blocks) (calls : List RegionCall)
    (hasks : T + (calls.map asks).sum < 2 ^ 64) (hfuel : r.obtained + calls.length ≤ fuel) :
    ∃ r' blocks' us' fs', runs fuel calls (r, blocks) = some (r', blocks') ∧
      r'.Owns (T + (calls.map asks).sum) us' fs' ∧ r'.Holding us' blocks' ∧
      r'.obtained ≤ r.obtained + calls.length := by
  induction calls generalizing r T us fs blocks with
  | nil => exact ⟨r, blocks, us, fs, rfl, h, hblocks, le_rfl⟩
  | cons c calls ih =>
    rw [List.map_cons, List.sum_cons] at hasks ⊢
    rw [List.length_cons] at hfuel ⊢
    obtain ⟨r₁, blocks₁, us₁, fs₁, hr₁, h₁, hblocks₁, hobtained₁⟩ :=
      run_spec h hblocks c (by omega) (by omega : _ ≤ fuel)
    obtain ⟨r', blocks', us', fs', hr', h', hblocks', hobtained⟩ := ih h₁ hblocks₁ (by omega) (by omega)
    refine ⟨r', blocks', us', fs', by rw [runs, hr₁, Option.bind_some, hr'], ?_, hblocks', by omega⟩
    rwa [← Nat.add_assoc]

end RegionCall

/-- In every run no page is lost, and what is in use does not overlap. -/
theorem region_run {minPageSize maxPageSize fuel : ℕ} (hmin : minPageSize < 2 ^ 64) (hmax : maxPageSize < 2 ^ 64)
    (base : ℕ) (bases : List ℕ) (calls : List RegionCall) (hasks : (calls.map RegionCall.asks).sum < 2 ^ 64)
    (hfuel : bases.length + 1 + calls.length ≤ fuel) :
    ∃ r blocks us fs,
      RegionCall.runs fuel calls (Region.make minPageSize maxPageSize base bases, []) = some (r, blocks) ∧
      r.Owns (calls.map RegionCall.asks).sum us fs ∧ r.Holding us blocks ∧
      (r.Apart → r.totalAllocation = ((us ++ fs).map (Region.sizeOf r.pages)).sum ∧
        blocks.Pairwise fun b c => b.addr + b.size ≤ c.addr ∨ c.addr + c.size ≤ b.addr) ∧
      ∃ r', r.destroy fuel = some r' ∧ r'.totalAllocation = 0 ∧ r'.released.Nodup ∧
        ∀ p, p ∈ r'.released ↔ p < r.obtained := by
  obtain ⟨us₀, fs₀, hmake, hobtained₀⟩ := Region.owns_make hmin hmax base bases
  obtain ⟨r, blocks, us, fs, hr, h, hblocks, hobtained⟩ := RegionCall.runs_spec hmake ⟨by simp, .nil⟩
    calls (by omega) (by omega : _ ≤ fuel)
  rw [Nat.zero_add] at h
  refine ⟨r, blocks, us, fs, hr, h, hblocks, fun hapart => ⟨?_, hblocks.apart_of_apart h hapart⟩, h.destroy (by omega)⟩
  rw [h.holds.total, word, Nat.mod_eq_of_lt (h.holds.sum_lt hapart)]

/-- Two pages that `reset` has put behind each other are used again. -/
theorem region_run_reset :
    ∃ r blocks us fs,
      RegionCall.runs 5 [.malloc 8 100, .malloc 8 200, .reset, .malloc 3 300] (Region.make 8 16 300 [], []) =
        some (r, blocks) ∧ r.Owns 19 us fs ∧ r.Holding us blocks ∧
      (r.Apart → r.totalAllocation = ((us ++ fs).map (Region.sizeOf r.pages)).sum ∧
        blocks.Pairwise fun b c => b.addr + b.size ≤ c.addr ∨ c.addr + c.size ≤ b.addr) ∧
      ∃ r', r.destroy 5 = some r' ∧ r'.totalAllocation = 0 ∧ r'.released.Nodup ∧
        ∀ p, p ∈ r'.released ↔ p < r.obtained :=
  region_run (by decide) (by decide) 300 [] [.malloc 8 100, .malloc 8 200, .reset, .malloc 3 300] (by decide)
    (by decide)

end Hobbes.Util
