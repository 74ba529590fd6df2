import Hobbes.Db.Placement
import Mathlib.Data.List.Find
import Mathlib.Data.List.Perm.Subperm

/-!
# The order of the index

The pages of the index and their order by free space. A new page is put where a page of the file that has less space
is found, and not where a page of the index is.
-/

namespace Hobbes.Db

open Core

variable {τ : Type}

namespace ImageFile

variable {f f' f₀ : ImageFile τ} {pt : PageType} {pos datalen alignment page : ℕ} {pd : PageData}

/-- The index has pages of its types, and none of them twice. -/
structure Listed (f : ImageFile τ) : Prop where
  typed : ∀ pt, ∀ p ∈ f.freespace pt, ∃ pd, f.pages[p]? = some pd ∧ pd.type = pt
  nodup : ∀ pt, (f.freespace pt).Nodup

/-- The index begins with the pages that have the most space. -/
def Ordered (f : ImageFile τ) : Prop := ∀ pt, (f.freespace pt).Pairwise fun p q => f.spaceIn q ≤ f.spaceIn p

/-! ### A page that gets smaller -/

lemma sink_perm (size : ℕ → ℕ) (page : ℕ) (l : List ℕ) : (sink size page l).Perm (page :: l) := by
  induction l with
  | nil => exact .refl _
  | cons p l ih =>
    rw [sink]
    split_ifs
    · exact (ih.cons p).trans (.swap page p l)
    · exact .refl _

lemma resink_perm (size : ℕ → ℕ) (page : ℕ) (l : List ℕ) : (resink size page l).Perm l := by
  induction l with
  | nil => exact .refl _
  | cons p l ih =>
    rw [resink]
    split_ifs
    · exact sink_perm size p l
    · exact ih.cons p

lemma pairwise_sink {size : ℕ → ℕ} {page : ℕ} {l : List ℕ} (hl : l.Pairwise fun p q => size q ≤ size p) :
    (sink size page l).Pairwise fun p q => size q ≤ size p := by
  induction l with
  | nil => exact List.pairwise_singleton _ _
  | cons p l ih =>
    rw [List.pairwise_cons] at hl
    rw [sink]
    split_ifs with hlt
    · refine List.pairwise_cons.2 ⟨fun q hq => ?_, ih hl.2⟩
      rcases mem_sink.1 hq with rfl | hq
      · exact Nat.le_of_lt hlt
      · exact hl.1 q hq
    · refine List.pairwise_cons.2 ⟨fun q hq => ?_, List.pairwise_cons.2 hl⟩
      rcases List.mem_cons.1 hq with rfl | hq
      · exact Nat.le_of_not_lt hlt
      · exact Nat.le_trans (hl.1 q hq) (Nat.le_of_not_lt hlt)

/-- Only the page that got smaller is out of order. -/
lemma pairwise_resink {old size : ℕ → ℕ} {page : ℕ} {l : List ℕ} (hnodup : l.Nodup)
    (hl : l.Pairwise fun p q => old q ≤ old p) (hsame : ∀ p, p ≠ page → size p = old p)
    (hle : size page ≤ old page) : (resink size page l).Pairwise fun p q => size q ≤ size p := by
  induction l with
  | nil => exact .nil
  | cons p l ih =>
    rw [List.pairwise_cons] at hl
    rw [List.nodup_cons] at hnodup
    rw [resink]
    split_ifs with hp
    · subst hp
      have hrest : ∀ q ∈ l, size q = old q := fun q hq => hsame q fun heq => hnodup.1 (heq ▸ hq)
      exact pairwise_sink (hl.2.imp_of_mem fun {q r} hq hr hqr => by rwa [hrest q hq, hrest r hr])
    · refine List.pairwise_cons.2 ⟨fun q hq => ?_, ih hnodup.2 hl.2⟩
      have hold : old q ≤ old p := hl.1 q (mem_resink.1 hq)
      rw [hsame p hp]
      by_cases hq : q = page
      · subst hq
        exact Nat.le_trans hle hold
      · rwa [hsame q hq]

/-! ### A new page -/

/-- The descriptor of the last page that is made for data. -/
def lastPage (f : ImageFile τ) (pt : PageType) (datalen : ℕ) : PageData :=
  if datalen % f.pageSize = 0 then .make pt 0 else .make pt (f.pageSize - datalen % f.pageSize)

/-- Where `insertPageSizeIndex` puts a page of this size. -/
def place (f : ImageFile τ) (pt : PageType) (size : ℕ) : ℕ :=
  ((List.range (f.freespace pt).length).find? fun i => f.spaceIn i < size).getD (f.freespace pt).length

/-- What stays in front of a new page has no less space, and what stays behind it has no more. -/
def Fits (f : ImageFile τ) (pt : PageType) (size : ℕ) : Prop :=
  f.place pt size < 200 → (∀ p ∈ (f.freespace pt).take (f.place pt size), size ≤ f.spaceIn p) ∧
    ∀ p ∈ ((f.freespace pt).drop (f.place pt size)).take (199 - f.place pt size), f.spaceIn p ≤ size

instance (size : ℕ) : Decidable (f.Fits pt size) := inferInstanceAs (Decidable (_ → _ ∧ _))

/-- A call takes space of a page that is there, or its new page fits where it is put. -/
def KeepsOrder (call : PageType × ℕ × ℕ) (f : ImageFile τ) : Prop :=
  f.findPageWithSpace call.1 call.2.1 call.2.2 = none → 30 ≤ (f.lastPage call.1 call.2.1).size.val →
    f.Fits call.1 (f.lastPage call.1 call.2.1).size

instance : ∀ (call : PageType × ℕ × ℕ) (f : ImageFile τ), Decidable (KeepsOrder call f) :=
  fun _ _ => inferInstanceAs (Decidable (_ → _ → _))

lemma take_insertIdx {l : List ℕ} {k : ℕ} (hk : k ≤ l.length) (n x : ℕ) : (l.insertIdx k x).take (n + 1) =
    if k < n + 1 then l.take k ++ x :: (l.drop k).take (n - k) else l.take (n + 1) := by
  induction k generalizing l n with
  | zero => simp
  | succ k ih =>
    cases l with
    | nil => exact absurd hk (Nat.not_succ_le_zero k)
    | cons a l =>
      rw [List.insertIdx_succ_cons, List.take_succ_cons]
      cases n with
      | zero => simp
      | succ n =>
        rw [ih (Nat.le_of_succ_le_succ hk)]
        by_cases hkn : k < n + 1
        · rw [if_pos hkn, if_pos (Nat.succ_lt_succ hkn), List.take_succ_cons, List.drop_succ_cons,
            Nat.add_sub_add_right, List.cons_append]
        · rw [if_neg hkn, if_neg fun h => hkn (Nat.lt_of_succ_lt_succ h), List.take_succ_cons]

/-- What an insertion at a place does to the order. -/
lemma pairwise_insertIdx {size : ℕ → ℕ} {l : List ℕ} (hl : l.Pairwise fun p q => size q ≤ size p) {k : ℕ}
    (hk : k ≤ l.length) (page : ℕ) : ((l.insertIdx k page).take 200).Pairwise (fun p q => size q ≤ size p) ↔
      (k < 200 → (∀ p ∈ l.take k, size page ≤ size p) ∧ ∀ p ∈ (l.drop k).take (199 - k), size p ≤ size page) := by
  rw [take_insertIdx hk]
  by_cases hmem : k < 200
  · rw [if_pos hmem, List.pairwise_append, List.pairwise_cons]
    have hsub : (l.take k ++ (l.drop k).take (199 - k)).Pairwise fun p q => size q ≤ size p := by
      refine hl.sublist ?_
      conv_rhs => rw [← List.take_append_drop k l]
      exact (List.Sublist.refl _).append (List.take_sublist _ _)
    rw [List.pairwise_append] at hsub
    obtain ⟨hfront, hback, hcross⟩ := hsub
    constructor
    · rintro ⟨-, ⟨hbehind, -⟩, hall⟩ -
      exact ⟨fun p hp => hall p hp page List.mem_cons_self, hbehind⟩
    · intro h
      obtain ⟨hbefore, hbehind⟩ := h hmem
      refine ⟨hfront, ⟨hbehind, hback⟩, fun p hp q hq => ?_⟩
      rcases List.mem_cons.1 hq with rfl | hq
      · exact hbefore p hp
      · exact hcross p hp q hq
  · rw [if_neg hmem]
    exact iff_of_true (hl.sublist (List.take_sublist _ _)) fun h => absurd h hmem

/-! ### What a call changes -/

lemma spaceIn_append {more : List PageData} (hpages : f'.pages = f.pages ++ more) {p : ℕ}
    (hp : p < f.pages.length) : f'.spaceIn p = f.spaceIn p := by
  rw [spaceIn, hpages, List.getElem?_append_left hp, spaceIn]

lemma pushPage_pages (f : ImageFile τ) (pd : PageData) : (f.pushPage pd).pages = f.pages ++ [pd] := by
  obtain ⟨freespace, heq, -⟩ := f.pushPage_eq pd
  rw [heq]

lemma pushPage_freespace (f : ImageFile τ) (pd : PageData) : (f.pushPage pd).freespace =
    ({ f with pages := f.pages ++ [pd] }.insertPageSizeIndex f.pages.length pd).freespace := by
  unfold pushPage
  dsimp only
  split_ifs <;> rfl

/-- Pages without space are not remembered. -/
lemma pushPages_full (f : ImageFile τ) {new : List PageData} (hnew : ∀ pd ∈ new, pd.size.val < 30) :
    (new.foldl pushPage f).pages = f.pages ++ new ∧ (new.foldl pushPage f).freespace = f.freespace := by
  induction new generalizing f with
  | nil => exact ⟨(List.append_nil _).symm, rfl⟩
  | cons pd new ih =>
    rw [List.forall_mem_cons] at hnew
    obtain ⟨hpages, hfree⟩ := ih (f.pushPage pd) hnew.2
    rw [List.foldl_cons, hpages, hfree, pushPage_pages, pushPage_freespace, List.append_assoc]
    refine ⟨rfl, ?_⟩
    unfold insertPageSizeIndex
    rw [if_pos (Fin.lt_def.2 hnew.1)]

lemma writeTOCData_index {fuel : ℕ} {newtocpages newtocpages' left : List PageData}
    (hnew : ∀ pd ∈ newtocpages, pd.size.val < 30)
    (hf' : writeTOCData fuel f newtocpages left = some (f', newtocpages')) :
    (∀ pd ∈ newtocpages', pd.size.val < 30) ∧ f'.pages = f.pages ∧ f'.freespace = f.freespace := by
  induction fuel generalizing f left newtocpages with
  | zero =>
    cases left with
    | nil =>
      simp only [writeTOCData, Option.some.injEq, Prod.mk.injEq] at hf'
      obtain ⟨rfl, rfl⟩ := hf'
      exact ⟨hnew, rfl, rfl⟩
    | cons pd left => cases hf'
  | succ fuel ih =>
    cases left with
    | nil =>
      simp only [writeTOCData, Option.some.injEq, Prod.mk.injEq] at hf'
      obtain ⟨rfl, rfl⟩ := hf'
      exact ⟨hnew, rfl, rfl⟩
    | cons pd left =>
      simp only [writeTOCData] at hf'
      split_ifs at hf' with hfull
      · simp only [Option.bind_eq_bind, Option.bind_eq_some_iff] at hf'
        obtain ⟨g, hg, hf'⟩ := hf'
        obtain ⟨-, heq⟩ := linkTOCPage_eq_some hg
        have hsmall : ∀ pd ∈ newtocpages ++ [PageData.make .toc 0], pd.size.val < 30 := by
          rw [List.forall_mem_append, List.forall_mem_singleton]
          exact ⟨hnew, by decide⟩
        obtain ⟨hall, hpages, hfree⟩ := ih hsmall hf'
        rw [hpages, hfree, heq]
        exact ⟨hall, rfl, rfl⟩
      · exact ih (f := f.writeSlots (pd :: left)) hnew hf'

/-- Of the pages that a table is extended by, only those that were to be added can be remembered. -/
lemma appendTOCData_index {fuel : ℕ} {new : List PageData} (hf' : f.appendTOCData fuel new = some f') :
    f'.freespace = (new.foldl pushPage f).freespace ∧ ∃ more, f'.pages = f.pages ++ new ++ more := by
  induction fuel generalizing f new with
  | zero => cases hf'
  | succ fuel ih =>
    simp only [ImageFile.appendTOCData, Option.bind_eq_bind, Option.bind_eq_some_iff, Prod.exists] at hf'
    obtain ⟨g, newtocpages, hg, hf'⟩ := hf'
    obtain ⟨hsmall, hpages, hfree⟩ := writeTOCData_index (fun _ h => absurd h List.not_mem_nil) hg
    obtain ⟨tocpages, freespace, heq⟩ := f.pushPages_eq new
    split_ifs at hf' with hn
    · obtain ⟨hfree', more, hpages'⟩ := ih hf'
      rw [(pushPages_full g hsmall).2] at hfree'
      refine ⟨hfree'.trans hfree, newtocpages ++ more, ?_⟩
      rw [hpages', hpages, heq, List.append_assoc _ newtocpages]
    · obtain rfl : g = f' := Option.some.inj hf'
      exact ⟨hfree, [], by rw [hpages, heq, List.append_nil]⟩

lemma Listed.length_le (h : f.Listed) (pt : PageType) : (f.freespace pt).length ≤ f.pages.length := by
  have hsub : f.freespace pt ⊆ List.range f.pages.length := fun p hp => by
    obtain ⟨pd, hpd, -⟩ := h.typed pt p hp
    exact List.mem_range.2 (List.getElem?_eq_some_iff.1 hpd).1
  simpa using (List.subperm_of_subset (h.nodup pt) hsub).length_le

/-- New pages at the end do not change where a page is put. -/
lemma Listed.place_append (h : f.Listed) {g : ImageFile τ} (hfree : g.freespace = f.freespace)
    {more : List PageData} (hpages : g.pages = f.pages ++ more) (pt : PageType) (size : ℕ) :
    g.place pt size = f.place pt size := by
  rw [place, place, hfree]
  congr 1
  refine List.find?_congr fun i hi => ?_
  have hlt : i < f.pages.length := Nat.lt_of_lt_of_le (List.mem_range.1 hi) (h.length_le pt)
  rw [spaceIn_append hpages hlt]

/-- The page that has space is put further back, or a new page with space is put where it is found to belong. -/
lemma Listed.findSpace (h : f.Listed) (hf' : f.findSpace pt datalen alignment = some (pos, f')) :
    (∃ page pd, f.findPageWithSpace pt datalen alignment = some page ∧ page < f.pages.length ∧ pd.type = pt ∧
        pd.size.val ≤ f.spaceIn page ∧ f'.pages = f.pages.set page pd ∧
        f'.freespace = Function.update f.freespace pt (resink f'.spaceIn page (f.freespace pt))) ∨
      f.findPageWithSpace pt datalen alignment = none ∧ ∃ full more,
        f'.pages = f.pages ++ full ++ f.lastPage pt datalen :: more ∧
          f'.freespace = if (f.lastPage pt datalen).size.val < 30 then f.freespace else
            Function.update f.freespace pt (((f.freespace pt).insertIdx (f.place pt (f.lastPage pt datalen).size)
              (f.pages ++ full).length).take 200) := by
  simp only [ImageFile.findSpace, Option.bind_eq_bind, Option.bind_eq_some_iff, Option.guard_eq_some'] at hf'
  obtain ⟨-, ⟨-, -⟩, hf'⟩ := hf'
  cases hfind : f.findPageWithSpace pt datalen alignment with
  | some page =>
    rw [hfind] at hf'
    simp only [Option.bind_eq_some_iff, pure, Option.some.injEq, Prod.mk.injEq] at hf'
    obtain ⟨g, hg, -, rfl⟩ := hf'
    obtain ⟨opd, hopd, -⟩ := h.typed pt page (findPageWithSpace_eq_some hfind).1
    simp only [ImageFile.updateTOCData, hopd, Option.bind_eq_bind, Option.bind_some, Option.bind_eq_some_iff,
      Option.guard_eq_some', pure, Option.some.injEq] at hg
    obtain ⟨-, hle, toc, -, rfl⟩ := hg
    refine .inl ⟨page, _, rfl, (List.getElem?_eq_some_iff.1 hopd).1, rfl, ?_, rfl, rfl⟩
    rw [spaceIn_eq hopd] at hle ⊢
    exact hle
  | none =>
    rw [hfind] at hf'
    simp only [Option.bind_eq_some_iff, pure, Option.some.injEq, Prod.mk.injEq] at hf'
    obtain ⟨g, hg, g', hg', -, rfl⟩ := hf'
    obtain ⟨hfree, more, hpages⟩ := appendTOCData_index hg'
    obtain rfl := allocPages_eq_some hg
    refine .inr ⟨rfl, List.replicate (f.pageCount datalen - 1) (.make pt 0), more, ?_, ?_⟩
    · rw [hpages]
      simp [newPages, lastPage]
    · have hnew : f.newPages pt datalen =
          List.replicate (f.pageCount datalen - 1) (.make pt 0) ++ [f.lastPage pt datalen] := rfl
      have hfull : ∀ pd ∈ List.replicate (f.pageCount datalen - 1) (PageData.make pt 0), pd.size.val < 30 :=
        fun pd hpd => by
          rw [List.eq_of_mem_replicate hpd]
          exact Nat.succ_pos _
      have htype : (f.lastPage pt datalen).type = pt := by
        rw [lastPage]
        split_ifs <;> rfl
      obtain ⟨hpages', hfree'⟩ :=
        pushPages_full { f with fileSize := f.fileSize + f.pageCount datalen * f.pageSize } hfull
      rw [hfree, hnew, List.foldl_append, List.foldl_cons, List.foldl_nil, pushPage_freespace]
      generalize List.foldl pushPage _ _ = g at hpages' hfree' ⊢
      dsimp only at hpages' hfree'
      have hplace := h.place_append (g := { g with pages := g.pages ++ [f.lastPage pt datalen] })
        hfree' (by rw [hpages', List.append_assoc]) pt (f.lastPage pt datalen).size
      unfold insertPageSizeIndex
      rw [← hfree', ← hpages', htype, ← hplace]
      split_ifs with h1 h2 h2
      · rfl
      · exact absurd (Fin.lt_def.1 h1) h2
      · exact absurd (Fin.lt_def.2 h2) h1
      · rfl

/-! ### Runs -/

lemma place_le (f : ImageFile τ) (pt : PageType) (size : ℕ) : f.place pt size ≤ (f.freespace pt).length :=
  find?_range_le _ _

lemma lastPage_type (f : ImageFile τ) (pt : PageType) (datalen : ℕ) : (f.lastPage pt datalen).type = pt := by
  rw [lastPage]
  split_ifs <;> rfl

lemma Listed.lt (h : f.Listed) {p : ℕ} (hp : p ∈ f.freespace pt) : p < f.pages.length := by
  obtain ⟨pd, hpd, -⟩ := h.typed pt p hp
  exact (List.getElem?_eq_some_iff.1 hpd).1

/-- A page with the same type as before. -/
lemma Listed.set (h : f.Listed) (hpage : page ∈ f.freespace pt) (htype : pd.type = pt)
    (hpages : f'.pages = f.pages.set page pd) (hperm : ∀ pt, (f'.freespace pt).Perm (f.freespace pt)) : f'.Listed := by
  refine ⟨fun pt' p hp => ?_, fun pt' => (hperm pt').nodup_iff.2 (h.nodup pt')⟩
  obtain ⟨opd, hopd, htype'⟩ := h.typed pt' p ((hperm pt').mem_iff.1 hp)
  by_cases heq : page = p
  · subst heq
    obtain ⟨opd', hopd', htype''⟩ := h.typed pt page hpage
    obtain rfl := Option.some.inj (hopd.symm.trans hopd')
    exact ⟨pd, by rw [hpages, List.getElem?_set_self (h.lt hpage)], htype.trans (htype''.symm.trans htype')⟩
  · exact ⟨opd, by rw [hpages, List.getElem?_set_ne heq, hopd], htype'⟩

lemma Listed.allocStep (h : f.Listed) {call : PageType × ℕ × ℕ} (hf' : allocStep call f = some f') : f'.Listed := by
  obtain ⟨⟨pos, g⟩, hg, rfl⟩ := Option.map_eq_some_iff.1 hf'
  rcases h.findSpace hg with ⟨page, pd, hfind, -, htype, -, hpages, hfree⟩ | ⟨-, full, more, hpages, hfree⟩
  · refine h.set (findPageWithSpace_eq_some hfind).1 htype hpages fun pt => ?_
    rw [hfree]
    by_cases hpt : pt = call.1
    · subst hpt
      rw [Function.update_self]
      exact resink_perm _ _ _
    · rw [Function.update_of_ne hpt]
  · have hold (pt : PageType) (p : ℕ) (hp : p ∈ f.freespace pt) : ∃ pd, g.pages[p]? = some pd ∧ pd.type = pt := by
      obtain ⟨pd, hpd, htype⟩ := h.typed pt p hp
      exact ⟨pd, by rw [hpages, List.append_assoc, List.getElem?_append_left (h.lt hp), hpd], htype⟩
    split_ifs at hfree with hsmall
    · exact ⟨fun pt p hp => hold pt p (hfree ▸ hp), fun pt => hfree ▸ h.nodup pt⟩
    · have hperm := List.perm_insertIdx (f.pages ++ full).length (f.freespace call.1) (f.place_le call.1
        (f.lastPage call.1 call.2.1).size)
      refine ⟨fun pt p hp => ?_, fun pt => ?_⟩
      · rw [hfree] at hp
        by_cases hpt : pt = call.1
        · subst hpt
          rw [Function.update_self] at hp
          rcases List.mem_cons.1 (hperm.mem_iff.1 (List.mem_of_mem_take hp)) with rfl | hp
          · refine ⟨f.lastPage call.1 call.2.1, ?_, f.lastPage_type _ _⟩
            rw [hpages, List.getElem?_append_right (Nat.le_refl _), Nat.sub_self]
            rfl
          · exact hold call.1 p hp
        · rw [Function.update_of_ne hpt] at hp
          exact hold pt p hp
      · rw [hfree]
        by_cases hpt : pt = call.1
        · subst hpt
          rw [Function.update_self]
          have hnew : (f.pages ++ full).length ∉ f.freespace call.1 := fun hp => by
            have hlt := h.lt hp
            rw [List.length_append] at hlt
            omega
          exact (hperm.nodup_iff.2 (List.nodup_cons.2 ⟨hnew, h.nodup _⟩)).sublist (List.take_sublist _ _)
        · rw [Function.update_of_ne hpt]
          exact h.nodup pt

/-- Pages with the space that they had stay in order. -/
lemma Ordered.congr (hord : f.Ordered) (hspace : ∀ p ∈ f.freespace pt, f'.spaceIn p = f.spaceIn p) :
    (f.freespace pt).Pairwise fun p q => f'.spaceIn q ≤ f'.spaceIn p :=
  (hord pt).imp_of_mem fun {p q} hp hq hle => by rwa [hspace p hp, hspace q hq]

/-- A page of the index that loses space is put where it belongs. -/
lemma Listed.ordered_set (h : f.Listed) (hord : f.Ordered) (hpage : page ∈ f.freespace pt)
    (hsize : pd.size.val ≤ f.spaceIn page) (hpages : f'.pages = f.pages.set page pd)
    (hfree : f'.freespace = Function.update f.freespace pt (resink f'.spaceIn page (f.freespace pt))) :
    f'.Ordered := by
  have hsame (p : ℕ) (hp : p ≠ page) : f'.spaceIn p = f.spaceIn p := by
    rw [spaceIn, hpages, List.getElem?_set_ne (Ne.symm hp), spaceIn]
  intro pt'
  rw [hfree]
  by_cases hpt : pt' = pt
  · subst hpt
    rw [Function.update_self]
    refine pairwise_resink (h.nodup pt') (hord pt') hsame ?_
    rwa [spaceIn_set (h.lt hpage) hpages]
  · rw [Function.update_of_ne hpt]
    refine hord.congr fun p hp => hsame p ?_
    -- A page of another type is another page.
    rintro rfl
    obtain ⟨pd₁, hpd₁, rfl⟩ := h.typed pt p hpage
    obtain ⟨pd₂, hpd₂, rfl⟩ := h.typed pt' p hp
    rw [hpd₁, Option.some_inj] at hpd₂
    exact hpt (by rw [hpd₂])

/-- A call keeps the order just if its new page fits where it is put. -/
lemma Listed.ordered_allocStep_iff (h : f.Listed) (hord : f.Ordered) {call : PageType × ℕ × ℕ}
    (hf' : ImageFile.allocStep call f = some f') : f'.Ordered ↔ KeepsOrder call f := by
  obtain ⟨⟨pos, g⟩, hg, rfl⟩ := Option.map_eq_some_iff.1 hf'
  rcases h.findSpace hg with ⟨page, pd, hfind, -, -, hsize, hpages, hfree⟩ | ⟨hfind, full, more, hpages, hfree⟩
  · have hnone : f.findPageWithSpace call.1 call.2.1 call.2.2 ≠ none := hfind ▸ Option.some_ne_none page
    exact iff_of_true (h.ordered_set hord (findPageWithSpace_eq_some hfind).1 hsize hpages hfree)
      fun hnone' => absurd hnone' hnone
  · have hsame (pt : PageType) (p : ℕ) (hp : p ∈ f.freespace pt) : g.spaceIn p = f.spaceIn p :=
      spaceIn_append (hpages.trans (List.append_assoc _ _ _)) (h.lt hp)
    rw [KeepsOrder, forall_prop_of_true hfind]
    split_ifs at hfree with hsmall
    · refine iff_of_true (fun pt => ?_) fun hle => absurd hle (Nat.not_le.2 hsmall)
      rw [hfree]
      exact hord.congr (hsame pt)
    · have hnew : g.spaceIn (f.pages ++ full).length = (f.lastPage call.1 call.2.1).size := by
        refine spaceIn_eq ?_
        rw [hpages, List.getElem?_append_right (Nat.le_refl _), Nat.sub_self]
        rfl
      have hinsert := pairwise_insertIdx (hord.congr (hsame call.1))
        (f.place_le call.1 (f.lastPage call.1 call.2.1).size) (f.pages ++ full).length
      have hfits : g.Ordered ↔ f.Fits call.1 (f.lastPage call.1 call.2.1).size := by
        refine Iff.trans ⟨fun hall => ?_, fun hcall pt => ?_⟩ (hinsert.trans ?_)
        · have hcall := hall call.1
          rwa [hfree, Function.update_self] at hcall
        · rw [hfree]
          by_cases hpt : pt = call.1
          · subst hpt
            rwa [Function.update_self]
          · rw [Function.update_of_ne hpt]
            exact hord.congr (hsame pt)
        · rw [Fits, hnew]
          refine imp_congr_right fun _ => and_congr (forall₂_congr fun p hp => ?_) (forall₂_congr fun p hp => ?_)
          · rw [hsame call.1 p (List.mem_of_mem_take hp)]
          · rw [hsame call.1 p (List.mem_of_mem_drop (List.mem_of_mem_take hp))]
      rw [hfits, forall_prop_of_true (Nat.le_of_not_lt hsmall)]

/-- A file that was made or read. -/
def Starts (T : Types τ) (f : ImageFile τ) : Prop :=
  (∃ psize, createFile psize = some f) ∨ ∃ fileSize disk, readFile T fileSize disk = some f

lemma readPageData_freespace {fuel : ℕ} (h : readPageData fuel f = some f') : f'.freespace = f.freespace := by
  induction fuel generalizing f with
  | zero => cases h
  | succ fuel ih =>
    simp only [readPageData, Option.bind_eq_bind, Option.bind_eq_some_iff, Prod.exists] at h
    obtain ⟨pd, pos, -, h⟩ := h
    split_ifs at h with hnull hlink
    · rw [Option.some.inj h]
    · obtain ⟨nextpage, -, h⟩ := Option.bind_eq_some_iff.1 h
      exact ih (f := (f.addPage pd).followLink nextpage.1) h
    · exact ih (f := f.addPage pd) h

section Environment

variable {T : Types τ}

lemma readEnvironmentRecords_freespace {fuel : ℕ} (h : readEnvironmentRecords T fuel f pos = some (f', page)) :
    f'.freespace = f.freespace := by
  induction fuel generalizing f pos with
  | zero => cases h
  | succ fuel ih =>
    simp only [readEnvironmentRecords, Option.bind_eq_bind, Option.bind_eq_some_iff, Prod.exists] at h
    obtain ⟨g, pos', hrecord, pd, -, h⟩ := h
    have hg : g.freespace = f.freespace := by
      simp only [readEnvironmentRecord, Option.bind_eq_bind, Option.bind_eq_some_iff, Prod.exists] at hrecord
      obtain ⟨offset, vname, type, pos'', -, hrecord⟩ := hrecord
      split_ifs at hrecord
      · rw [← (Prod.mk.inj (Option.some.inj hrecord)).1, bind]
      · rw [← (Prod.mk.inj (Option.some.inj hrecord)).1, bind]
    split_ifs at h
    · rw [← (Prod.mk.inj (Option.some.inj h)).1, hg]
    · rw [ih h, hg]

lemma readEnvironment_freespace {fuel : ℕ} (h : readEnvironment T fuel f page = some f') :
    f'.freespace = f.freespace := by
  induction fuel generalizing f page with
  | zero => cases h
  | succ fuel ih =>
    rw [readEnvironment] at h
    cases hpd : f.pages[page]? with
    | none =>
      rw [hpd] at h
      rw [Option.some.inj h]
    | some pd =>
      rw [hpd] at h
      dsimp only at h
      split_ifs at h
      · simp only [Option.bind_eq_bind, Option.bind_eq_some_iff, Prod.exists, readEnvironmentPage] at h
        obtain ⟨g, n, ⟨g', pos, hrecords, hpage⟩, h⟩ := h
        obtain ⟨rfl, -⟩ := Prod.mk.inj (Option.some.inj hpage)
        rw [ih h, readEnvironmentRecords_freespace hrecords]
      · exact ih h

/-- The index of a file that was opened is empty. -/
lemma Starts.freespace (h : Starts T f) (pt : PageType) : f.freespace pt = [] := by
  rcases h with ⟨psize, h⟩ | ⟨fileSize, disk, h⟩
  · simp only [createFile, Option.bind_eq_bind, Option.bind_eq_some_iff, pure, Option.some.injEq] at h
    obtain ⟨ps, -, rfl⟩ := h
    rfl
  · simp only [readFile, Option.bind_eq_bind, Option.bind_eq_some_iff] at h
    obtain ⟨head, hhead, g, hg, h⟩ := h
    simp only [readFileHead, Option.bind_eq_bind, Option.bind_eq_some_iff, Prod.exists, pure, Option.some.injEq]
      at hhead
    obtain ⟨magic, ps, version, pd, pos, -, -, -, -, -, ps', -, rfl⟩ := hhead
    rw [readEnvironment_freespace h, readPageData_freespace hg]

end Environment

/-- Types that are not stored. -/
def noTypes : Types Unit := ⟨fun _ => none, fun _ => [], fun _ => none, id⟩

end ImageFile

end Hobbes.Db
