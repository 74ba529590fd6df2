import Hobbes.Core.LinkedList
import Hobbes.Util.Region
import Mathlib.Algebra.GroupWithZero.Nat
import Mathlib.Algebra.Order.BigOperators.Group.List
import Mathlib.Data.List.Perm.Subperm

/-!
# The pages of a region

A page that has been obtained is there until it is released.
-/

namespace Hobbes.Util

open Core

namespace Region

variable {r r' : Region} {T p fuel : ℕ} {q : Option ℕ} {l ps : List ℕ} {pg : MemPage}

/-- The size of a page that has not been released. -/
def sizeOf (pages : ℕ → Option MemPage) (p : ℕ) : ℕ := ((pages p).map MemPage.size).getD 0

lemma sizeOf_of_eq (hp : r.pages p = some pg) : sizeOf r.pages p = pg.size := by
  rw [sizeOf, hp, Option.map_some, Option.getD_some]

def link (r : Region) (p : ℕ) : Option (Option ℕ) := (r.pages p).map MemPage.succ

lemma link_of_eq (hp : r.pages p = some pg) : r.link p = some pg.succ := by rw [link, hp, Option.map_some]

/-- Taking away undoes adding, whatever the result is modulo. -/
lemma word_sub {n m t : ℕ} (hn : n < 2 ^ 64) (ht : t = word (n + m)) : word (t + 2 ^ 64 - n) = word m := by
  unfold word at ht ⊢
  omega

/-- No size is out of the range of a `size_t`. -/
structure Sized (r : Region) : Prop where
  minPageSize : r.minPageSize < 2 ^ 64
  maxPageSize : r.maxPageSize < 2 ^ 64
  lastAllocPageSize : r.lastAllocPageSize < 2 ^ 64

/-- `ps` are the pages that have not been released, when not more than `T` bytes have been asked for. -/
structure Holds (r : Region) (T : ℕ) (ps : List ℕ) : Prop where
  live : ∀ p, p ∈ ps ↔ ∃ pg, r.pages p = some pg
  nodup : ps.Nodup
  obtained : ∀ p, p < r.obtained ↔ p ∈ ps ∨ p ∈ r.released
  once : r.released.Nodup
  owned : ∀ p ∈ ps, p ∉ r.released
  total : r.totalAllocation = word (ps.map (sizeOf r.pages)).sum
  page : ∀ p pg, r.pages p = some pg → pg.size < 2 ^ 64 ∧ pg.read ≤ pg.size ∧ pg.read ≤ T

/-- Nothing but the pages that are released has changed. -/
structure Keeps (r r' : Region) (ps : List ℕ) : Prop where
  pages : ∀ p ∈ ps, r'.pages p = r.pages p
  usedp : r'.usedp = r.usedp
  minPageSize : r'.minPageSize = r.minPageSize
  maxPageSize : r'.maxPageSize = r.maxPageSize
  obtained : r'.obtained = r.obtained

lemma Keeps.trans {ps' : List ℕ} (h : Keeps r r' ps) {r'' : Region} (h' : Keeps r' r'' ps') (hps : ps' ⊆ ps) :
    Keeps r r'' ps' where
  pages p hp := (h'.pages p hp).trans (h.pages p (hps hp))
  usedp := h'.usedp.trans h.usedp
  minPageSize := h'.minPageSize.trans h.minPageSize
  maxPageSize := h'.maxPageSize.trans h.maxPageSize
  obtained := h'.obtained.trans h.obtained

namespace Holds

lemma exists_page (h : r.Holds T ps) (hp : p ∈ ps) : ∃ pg, r.pages p = some pg := (h.live p).1 hp

/-- There are no more pages than have been obtained. -/
lemma length_le (h : r.Holds T ps) : ps.length ≤ r.obtained := by
  have hps : ps ⊆ List.range r.obtained :=
    fun p hp => List.mem_range.2 ((h.obtained p).2 (.inl hp))
  have := (h.nodup.subperm hps).length_le
  rwa [List.length_range] at this

lemma perm (h : r.Holds T ps) {ps' : List ℕ} (hps : ps.Perm ps') : r.Holds T ps' where
  live p := by rw [← h.live, hps.mem_iff]
  nodup := hps.nodup_iff.1 h.nodup
  obtained p := by rw [h.obtained, hps.mem_iff]
  once := h.once
  owned p hp := h.owned p (hps.mem_iff.2 hp)
  total := by rw [h.total, (hps.map (sizeOf r.pages)).sum_eq]
  page := h.page

/-- Pages are written back with the sizes that they have. -/
lemma rewrite (h : r.Holds T ps) {T' : ℕ}
    (hsize : ∀ p, (r'.pages p).map MemPage.size = (r.pages p).map MemPage.size)
    (hread : ∀ p pg, r'.pages p = some pg → pg.read ≤ pg.size ∧ pg.read ≤ T') (hobtained : r'.obtained = r.obtained)
    (hreleased : r'.released = r.released) (htotal : r'.totalAllocation = r.totalAllocation) : r'.Holds T' ps where
  live p := by
    rw [h.live]
    have := congrArg Option.isSome (hsize p)
    rw [Option.isSome_map, Option.isSome_map] at this
    rw [← Option.isSome_iff_exists, ← Option.isSome_iff_exists, this]
  nodup := h.nodup
  obtained p := by rw [hobtained, hreleased, h.obtained]
  once := hreleased ▸ h.once
  owned p hp := hreleased ▸ h.owned p hp
  total := by
    have hsizes : sizeOf r'.pages = sizeOf r.pages := funext fun p => by rw [sizeOf, hsize, sizeOf]
    rw [htotal, hsizes, h.total]
  page p pg hp := by
    have := hsize p
    rw [hp, Option.map_some] at this
    obtain ⟨pg', hp', hpg⟩ := Option.map_eq_some_iff.1 this.symm
    exact ⟨hpg ▸ (h.page p pg' hp').1, hread p pg hp⟩

/-- One page is written back with the size that it has. -/
lemma setPage (h : r.Holds T ps) {T' : ℕ} (hT : T ≤ T') (hp : r.pages p = some pg) {pg' : MemPage}
    (hpages : r'.pages = (r.setPage p (some pg')).pages) (hobtained : r'.obtained = r.obtained)
    (hreleased : r'.released = r.released) (htotal : r'.totalAllocation = r.totalAllocation)
    (hsize : pg'.size = pg.size) (hread : pg'.read ≤ pg.size) (hreadT : pg'.read ≤ T') : r'.Holds T' ps := by
  refine h.rewrite (fun q => ?_) (fun q qg hqg => ?_) hobtained hreleased htotal
  · rw [hpages]
    by_cases hq : q = p
    · subst hq
      simp [hp, hsize]
    · rw [r.setPage_of_ne hq]
  · rw [hpages] at hqg
    by_cases hq : q = p
    · subst hq
      rw [r.setPage_self, Option.some_inj] at hqg
      subst hqg
      exact ⟨hsize ▸ hread, hreadT⟩
    · rw [r.setPage_of_ne hq] at hqg
      obtain ⟨-, hread, hreadT⟩ := h.page q qg hqg
      exact ⟨hread, hreadT.trans hT⟩

/-- The next page does not have the number of one that there is or has been. -/
lemma not_obtained (h : r.Holds T ps) : r.obtained ∉ ps ∧ r.obtained ∉ r.released := by
  have := mt (h.obtained r.obtained).2 (lt_irrefl _)
  rwa [not_or] at this

lemma newpage (h : r.Holds T ps) (hr : r.Sized) {sz : ℕ} (hsz : sz < 2 ^ 64) (base : ℕ) (succ : Option ℕ) :
    (r.newpage base succ sz).Holds T (r.obtained :: ps) where
  live q := by
    by_cases hq : q = r.obtained
    · subst hq
      simp [Region.newpage, Region.setPage]
    · simp [Region.newpage, Region.setPage, hq, h.live]
  nodup := List.nodup_cons.2 ⟨h.not_obtained.1, h.nodup⟩
  obtained q := by
    change q < r.obtained + 1 ↔ q ∈ r.obtained :: ps ∨ q ∈ r.released
    rw [Nat.lt_succ_iff_lt_or_eq, h.obtained, List.mem_cons]
    tauto
  once := h.once
  owned := List.forall_mem_cons.2 ⟨h.not_obtained.2, h.owned⟩
  total := by
    have hsizes : ∀ q ∈ ps, sizeOf (r.newpage base succ sz).pages q = sizeOf r.pages q := by
      intro q hq
      have hne : q ≠ r.obtained := fun heq => h.not_obtained.1 (heq ▸ hq)
      simp [sizeOf, Region.newpage, Region.setPage, hne]
    have hsize : sizeOf (r.newpage base succ sz).pages r.obtained = r.newPageSize sz := by
      simp [sizeOf, Region.newpage, Region.setPage]
    rw [List.map_cons, List.sum_cons, hsize, List.map_congr_left hsizes]
    change word (r.totalAllocation + r.newPageSize sz) = _
    rw [h.total, word, word, word, Nat.mod_add_mod, Nat.add_comm]
  page q qg hq := by
    by_cases hqp : q = r.obtained
    · subst hqp
      obtain rfl : (⟨base, r.newPageSize sz, 0, succ⟩ : MemPage) = qg := by
        simpa [Region.newpage, Region.setPage] using hq
      refine ⟨?_, Nat.zero_le _, Nat.zero_le _⟩
      unfold newPageSize
      split_ifs
      · exact max_lt hsz hr.lastAllocPageSize
      · exact max_lt hsz hr.maxPageSize
    · exact h.page q qg (by simpa [Region.newpage, Region.setPage, hqp] using hq)

lemma freepage (h : r.Holds T (p :: ps)) :
    ∃ r', r.freepage p = some r' ∧ r'.Holds T ps ∧ Keeps r r' ps := by
  obtain ⟨pg, hp⟩ := h.exists_page List.mem_cons_self
  obtain ⟨hnot, hnodup⟩ := List.nodup_cons.1 h.nodup
  have hne : ∀ q ∈ ps, (r.setPage p none).pages q = r.pages q :=
    fun q hq => r.setPage_of_ne (ne_of_mem_of_not_mem hq hnot) none
  refine ⟨_, by rw [Region.freepage, hp, Option.map_some], ?_, ?_⟩
  · exact
    { live := by
        intro q
        by_cases hq : q = p
        · subst hq
          change q ∈ ps ↔ ∃ qg, (r.setPage q none).pages q = some qg
          simp [hnot]
        · have := h.live q
          rw [List.mem_cons, or_iff_right hq] at this
          change q ∈ ps ↔ ∃ qg, (r.setPage p none).pages q = some qg
          rw [this, r.setPage_of_ne hq]
      nodup := hnodup
      obtained := by
        intro q
        rw [List.mem_append, List.mem_singleton]
        have := h.obtained q
        rw [List.mem_cons] at this
        exact this.trans (by tauto)
      once := by
        rw [List.nodup_append]
        exact ⟨h.once, List.nodup_singleton p, by
          intro a ha b hb heq
          rw [List.mem_singleton] at hb
          exact h.owned p List.mem_cons_self (hb ▸ heq ▸ ha)⟩
      owned := by
        intro q hq
        rw [List.mem_append, List.mem_singleton, not_or]
        exact ⟨h.owned q (List.mem_cons_of_mem p hq), fun heq => hnot (heq ▸ hq)⟩
      total := by
        have hsizes : ∀ q ∈ ps, sizeOf (r.setPage p none).pages q = sizeOf r.pages q :=
          fun q hq => by rw [sizeOf, hne q hq, sizeOf]
        refine Eq.trans ?_ (congrArg (fun l => word l.sum) (List.map_congr_left hsizes).symm)
        exact word_sub (h.page p pg hp).1 (by rw [h.total, List.map_cons, List.sum_cons, sizeOf_of_eq hp])
      page := by
        intro q qg hq
        change (r.setPage p none).pages q = some qg at hq
        by_cases hqp : q = p
        · subst hqp
          simp at hq
        · exact h.page q qg (by rwa [r.setPage_of_ne hqp] at hq) }
  · exact ⟨hne, rfl, rfl, rfl, rfl⟩

end Holds

/-! ### Loops -/

lemma freepages_spec (hl : Linked r.link q l) (h : r.Holds T (l ++ ps)) (hfuel : l.length ≤ fuel) :
    ∃ r', freepages fuel r q = some r' ∧ r'.Holds T ps ∧ Keeps r r' ps := by
  induction l generalizing r q fuel with
  | nil =>
    cases hl
    exact ⟨r, by rw [freepages], h, fun _ _ => rfl, rfl, rfl, rfl, rfl⟩
  | cons a l ih =>
    cases hl with
    | @cons _ n _ ha hl =>
      obtain ⟨pg, hp, rfl⟩ := Option.map_eq_some_iff.1 ha
      cases fuel with
      | zero => simp at hfuel
      | succ fuel =>
        obtain ⟨r₁, hr₁, h₁, hkeeps₁⟩ := Holds.freepage h
        have hl₁ : Linked r₁.link pg.succ l :=
          hl.congr fun p hp => by rw [link, link, hkeeps₁.pages p (List.mem_append_left ps hp)]
        obtain ⟨r', hr', h', hkeeps⟩ := ih hl₁ h₁ (by simpa using hfuel)
        refine ⟨r', ?_, h', hkeeps₁.trans hkeeps (List.subset_append_right l ps)⟩
        rw [freepages, hp, Option.bind_some, hr₁, Option.bind_some, hr']

def rewound (freep : Option ℕ) (pg : MemPage) : MemPage :=
  { pg with read := 0, succ := if pg.succ = none then freep else pg.succ }

/-- The region that the loop of `reset` ends with. -/
def afterRewind (r : Region) (l : List ℕ) : Region :=
  { r with pages := fun p => if p ∈ l then (r.pages p).map (rewound r.freep) else r.pages p }

lemma afterRewind_of_mem (hp : p ∈ l) : (r.afterRewind l).pages p = (r.pages p).map (rewound r.freep) := by
  simp [afterRewind, hp]

lemma afterRewind_of_not_mem (hp : p ∉ l) : (r.afterRewind l).pages p = r.pages p := by
  simp [afterRewind, hp]

lemma rewind_spec (hl : Linked r.link q l) (hnodup : l.Nodup) (hfuel : l.length ≤ fuel) :
    rewind fuel r q = some (r.afterRewind l) := by
  induction l generalizing r q fuel with
  | nil =>
    cases hl
    simp [rewind, afterRewind]
  | cons a l ih =>
    cases hl with
    | cons ha hl =>
      obtain ⟨pg, hp, rfl⟩ := Option.map_eq_some_iff.1 ha
      obtain ⟨hnot, hnodup⟩ := List.nodup_cons.1 hnodup
      cases fuel with
      | zero => simp at hfuel
      | succ fuel =>
        have hne : ∀ p ∈ l, p ≠ a := fun p hp heq => hnot (heq ▸ hp)
        have hl₁ : Linked (r.setPage a (some (rewound r.freep pg))).link pg.succ l :=
          hl.congr fun p hp => by rw [link, link, r.setPage_of_ne (hne p hp)]
        rw [rewind, hp, Option.bind_some]
        refine (ih hl₁ hnodup (by simpa using hfuel)).trans ?_
        refine congrArg (fun pages => some { r with pages }) (funext fun p => ?_)
        by_cases hpa : p = a
        · subst hpa
          simp [hnot, hp, rewound]
        · simp [hpa, Region.setPage]

end Region

end Hobbes.Util
