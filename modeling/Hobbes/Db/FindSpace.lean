import Hobbes.Db.PageTable
import Mathlib.Data.Option.Basic

/-!
# Finding space
-/

namespace Hobbes.Db

open Core

variable {τ : Type}

/-- The pages that callers ask for: those of descriptors are made as they are needed. -/
def PageType.Requested (pt : PageType) : Prop := pt = .environment ∨ pt = .data

lemma PageType.Requested.ne_toc {pt : PageType} (h : pt.Requested) : pt ≠ .toc := by
  rintro rfl
  rcases h with h | h <;> cases h

lemma PageType.Requested.ne_null {pt : PageType} (h : pt.Requested) : pt ≠ .null := by
  rintro rfl
  rcases h with h | h <;> cases h

lemma PageData.make_size {pt : PageType} {sz : ℕ} (h : sz < 2 ^ 14) :
    (PageData.make pt sz).size.val = sz := Nat.mod_eq_of_lt h

namespace ImageFile

variable {f f' : ImageFile τ} {pt : PageType} {pos datalen alignment page : ℕ} {pd opd : PageData}

lemma spaceIn_eq (h : f.pages[page]? = some pd) : f.spaceIn page = pd.size := by
  rw [spaceIn, h]
  rfl

/-! ### In the free space of a page -/

/-- The computed position is the slot of the page. -/
lemma Inv.pageTOCPosition (h : f.Inv) (hpage : f.pages[page]? = some pd) :
    ∃ p, f.tocpages[(slot f.pageSize page).1]? = some p ∧
      f.pageTOCPosition page = some (p * f.pageSize + (slot f.pageSize page).2) := by
  obtain ⟨written, o, last, hwritten, htoc, -, -⟩ := h.1.cursor
  rw [List.append_nil] at hwritten htoc
  subst hwritten
  obtain ⟨p, hp, -⟩ := htoc.entry page pd hpage
  refine ⟨p, hp, ?_⟩
  dsimp only [ImageFile.pageTOCPosition, headSize, linkSize]
  split_ifs with hfirst
  · rw [slot_of_lt h.1.pageSize hfirst] at hp ⊢
    obtain rfl : 0 = p := Option.some.inj (htoc.head.symm.trans hp)
    rw [Nat.zero_mul, Nat.zero_add]
  · obtain ⟨m, rfl⟩ := Nat.exists_eq_add_of_le (Nat.le_of_not_lt hfirst)
    rw [slot_add h.1.pageSize] at hp ⊢
    rw [Nat.add_sub_cancel_left, hp, Option.map_some]

lemma updateTOCData_eq_some (h : f.updateTOCData page pd = some f') :
    ∃ pos freespace, f.pageTOCPosition page = some pos ∧
      (∀ pt, ∀ p ∈ freespace pt, p ∈ f.freespace pt) ∧ f' =
        { f with
          pages := f.pages.set page pd
          disk := f.disk.write pos (leBytes 2 pd.ptfd)
          freespace } := by
  simp only [ImageFile.updateTOCData, Option.bind_eq_bind, Option.bind_eq_some_iff] at h
  obtain ⟨opd, -, -, -, pos, hpos, h⟩ := h
  obtain rfl := Option.some.inj h
  let g : ImageFile τ :=
    { f with pages := f.pages.set page pd, disk := f.disk.write pos (leBytes 2 pd.ptfd) }
  exact ⟨pos, (g.updatePageSizeIndex page pd.type).freespace, hpos,
    fun pt p hp => mem_freespace_update (f := g) hp, rfl⟩

lemma Inv.updateTOCData (h : f.Inv) (hopd : f.pages[page]? = some opd) (htype : pd.type = opd.type)
    (hsound : pd.Sound f.pageSize)
    (hf' : f.updateTOCData page pd = some f') :
    f'.Inv ∧ f.Keeps f' ∧ f'.pages = f.pages.set page pd ∧ f'.fileSize = f.fileSize := by
  obtain ⟨p, hp, hpos⟩ := h.pageTOCPosition hopd
  obtain ⟨pos, freespace, hpos', hfree, rfl⟩ := updateTOCData_eq_some hf'
  obtain rfl : _ = pos := Option.some.inj (hpos.symm.trans hpos')
  obtain ⟨written, o, last, hwritten, htoc, hlast, hhead⟩ := h.1.cursor
  obtain ⟨hpage, -⟩ := List.getElem?_eq_some_iff.mp hopd
  have hoff := slot_offset h.1.pageSize page
  obtain ⟨hblank, hkeeps⟩ := h.1.write_keeps (leBytes 2 pd.ptfd)
    (o := (slot f.pageSize page).2) (List.mem_append_left [] (List.mem_of_getElem? hp))
    (by rw [leBytes_length]; omega)
    (htoc.headSize_le_entry h.1.pageSize (by rwa [List.append_nil]))
  -- the types of the pages are what they were
  have hpages : ∀ (q : ℕ) (t : PageType), (∃ pd' : PageData, (f.pages.set page pd)[q]? = some pd' ∧ pd'.type = t) ↔
      ∃ pd' : PageData, f.pages[q]? = some pd' ∧ pd'.type = t := by
    intro q t
    by_cases hq : page = q
    · subst hq
      rw [hopd, List.getElem?_set_self hpage]
      simp [htype]
    · rw [List.getElem?_set_ne hq]
  refine ⟨⟨⟨h.1.pageSize, ?_, h.1.limit, ⟨f.pages.set page pd, o, last, ?_, ?_, hlast, hhead⟩, hblank,
    ?_, ?_, ?_, ?_⟩, h.2⟩, ⟨rfl, rfl, rfl, hkeeps⟩, rfl, rfl⟩
  · rw [List.length_set]
    exact h.1.fileSize
  · exact List.append_nil _
  · rw [List.append_nil] at hwritten
    subst hwritten
    exact htoc.set h.1.pageSize hpage (by rwa [List.append_nil]) pd
  · intro q
    rw [h.1.tocpages, hpages]
  · intro q hq
    cases hq
  · intro pd' hpd'
    obtain hpd' | rfl := List.mem_or_eq_of_mem_set hpd'
    · exact h.1.sound pd' hpd'
    · exact hsound
  · intro pt q hq
    rw [hpages]
    exact h.1.index pt q (hfree pt q hq)

/-! ### In new pages -/

lemma pageCount_pos (hlen : 0 < datalen) : 0 < f.pageCount datalen := by
  rw [pageCount]
  split_ifs with hmod
  · exact Nat.succ_pos _
  · have hdvd : f.pageSize ∣ datalen := Nat.dvd_of_mod_eq_zero (by omega)
    exact Nat.div_pos (Nat.le_of_dvd hlen hdvd) (Nat.pos_of_dvd_of_pos hdvd hlen)

/-- The pages before the last do not hold all of the data. -/
lemma lt_of_pageCount (hps : 0 < f.pageSize) (hlen : 0 < datalen) :
    (f.pageCount datalen - 1) * f.pageSize < datalen := by
  have hdiv := Nat.div_add_mod datalen f.pageSize
  have hpos := pageCount_pos (f := f) hlen
  rw [pageCount] at hpos ⊢
  split_ifs at hpos ⊢ with hrest
  · rw [Nat.add_sub_cancel, Nat.mul_comm]
    omega
  · obtain ⟨k, hk⟩ : ∃ k, datalen / f.pageSize = k + 1 := Nat.exists_eq_succ_of_ne_zero (by omega)
    rw [hk, Nat.mul_comm, Nat.succ_mul] at hdiv
    rw [hk, Nat.add_zero, Nat.add_sub_cancel]
    omega

lemma newPages_length (pt : PageType) (hlen : 0 < datalen) :
    (f.newPages pt datalen).length = f.pageCount datalen := by
  have := pageCount_pos (f := f) hlen
  rw [newPages, List.length_append, List.length_replicate, List.length_singleton]
  omega

/-- All pages but the last are full. -/
lemma newPages_full {j : ℕ} (hj : j + 1 < f.pageCount datalen) :
    (f.newPages pt datalen)[j]? = some (.make pt 0) := by
  rw [newPages, List.getElem?_append_left (by rw [List.length_replicate]; omega),
    List.getElem?_replicate, if_pos (by omega)]

/-- The data ends where the free space of the last page starts. -/
lemma newPages_last (pt : PageType) (datalen : ℕ) (hps : 0 < f.pageSize)
    (hmax : f.pageSize < 2 ^ 14) :
    ∃ pd, (f.newPages pt datalen)[f.pageCount datalen - 1]? = some pd ∧ pd.type = pt ∧
      datalen + pd.size = f.pageCount datalen * f.pageSize := by
  have hget : (f.newPages pt datalen)[f.pageCount datalen - 1]? =
      some (if datalen % f.pageSize = 0 then .make pt 0
        else .make pt (f.pageSize - datalen % f.pageSize)) := by
    rw [newPages, List.getElem?_append_right (by simp), List.length_replicate, Nat.sub_self]
    rfl
  have hdiv := Nat.div_add_mod datalen f.pageSize
  have hmod := Nat.mod_lt datalen hps
  rw [Nat.mul_comm] at hdiv
  by_cases hrest : datalen % f.pageSize = 0
  · rw [if_pos hrest] at hget
    have hzero : (PageData.make pt 0).size.val = 0 := rfl
    refine ⟨_, hget, rfl, ?_⟩
    rw [hzero, pageCount, if_neg (by omega), Nat.add_zero, Nat.add_zero]
    omega
  · rw [if_neg hrest] at hget
    refine ⟨_, hget, rfl, ?_⟩
    have hsize : (PageData.make pt (f.pageSize - datalen % f.pageSize)).size.val =
        f.pageSize - datalen % f.pageSize := PageData.make_size (by omega)
    rw [hsize, pageCount, if_pos (by omega), Nat.succ_mul]
    omega

lemma type_of_mem_newPages (hpd : pd ∈ f.newPages pt datalen) : pd.type = pt := by
  rw [newPages, List.mem_append, List.mem_replicate, List.mem_singleton] at hpd
  obtain ⟨-, rfl⟩ | rfl := hpd
  · rfl
  · split_ifs <;> rfl

lemma sound_of_mem_newPages (h : f.Inv) (hpt : pt.Requested) (hpd : pd ∈ f.newPages pt datalen) :
    pd.Sound f.pageSize := by
  have htype := type_of_mem_newPages hpd
  refine ⟨htype ▸ hpt.ne_null, fun htoc => (hpt.ne_toc (htype.symm.trans htoc)).elim, ?_⟩
  rw [newPages, List.mem_append, List.mem_replicate, List.mem_singleton] at hpd
  obtain ⟨-, rfl⟩ | rfl := hpd
  · exact Nat.zero_le _
  · have hmax := h.1.pageSize.max
    split_ifs
    · exact Nat.zero_le _
    · rw [PageData.make_size (by omega)]
      omega

/-- The new pages are in the file, and none of them is in the table. -/
lemma Inv.writing_newPages (h : f.Inv) (hpt : pt.Requested) (hlen : 0 < datalen)
    {g : ImageFile τ} (hg : f.allocPages (f.pageCount datalen) = some g) :
    g.Writing [] (tocIndexes g.pages.length (f.newPages pt datalen))
      (f.newPages pt datalen).length := by
  simp only [ImageFile.allocPages, Option.ite_none_right_eq_some, Option.some.injEq] at hg
  obtain ⟨hlimit, rfl⟩ := hg
  have hnil : tocIndexes f.pages.length (f.newPages pt datalen) = [] :=
    tocIndexes_eq_nil fun pd hpd => type_of_mem_newPages hpd ▸ hpt.ne_toc
  rw [hnil, newPages_length pt hlen]
  refine ⟨h.1.pageSize, ?_, hlimit, h.1.cursor, fun i hi => h.1.blank i ?_, h.1.tocpages,
    fun q hq => ?_, h.1.sound, h.1.index⟩
  · dsimp only
    rw [h.1.fileSize, Nat.add_zero, Nat.add_mul]
  · dsimp only at hi
    omega
  · cases hq

lemma allocPages_eq_some {n : ℕ} {g : ImageFile τ} (hg : f.allocPages n = some g) :
    g = { f with fileSize := f.fileSize + n * f.pageSize } := by
  simp only [ImageFile.allocPages, Option.ite_none_right_eq_some, Option.some.injEq] at hg
  exact hg.2.symm

lemma Inv.allocPages (h : f.Inv) (hpt : pt.Requested) (hlen : 0 < datalen) {g : ImageFile τ}
    (hg : f.allocPages (f.pageCount datalen) = some g) {fuel : ℕ}
    (hf' : g.appendTOCData fuel (f.newPages pt datalen) = some f') :
    f'.Inv ∧ f.Keeps f' ∧
      ∃ c, f'.pages = f.pages ++ f.newPages pt datalen ++ List.replicate c (.make .toc 0) := by
  have hwriting := h.writing_newPages hpt hlen hg
  obtain rfl := allocPages_eq_some hg
  obtain ⟨hinv, hkeeps, c, hpages⟩ := hwriting.appendTOCData h.2
    (fun pd hpd => sound_of_mem_newPages (f := f) h hpt hpd) hf'
  exact ⟨hinv, ⟨hkeeps.pageSize, hkeeps.version, hkeeps.bindings, hkeeps.disk⟩, c, hpages⟩

/-! ### Space -/

lemma findPageWithSpace_eq_some (h : f.findPageWithSpace pt datalen alignment = some page) :
    page ∈ f.freespace pt ∧
      (datalen + (f.pageSize - f.spaceIn page) % alignment) % 2 ^ 64 ≤ f.spaceIn page := by
  unfold findPageWithSpace at h
  cases hpord : f.freespace pt with
  | nil =>
    rw [hpord] at h
    cases h
  | cons p rest =>
    rw [hpord] at h
    dsimp only at h
    split_ifs at h with hlt
    obtain rfl := Option.some.inj h
    exact ⟨List.mem_cons_self, Nat.le_of_not_lt hlt⟩

/-- What `findSpace` does: it takes space behind what is used of a page, or new pages at the end. -/
lemma Inv.findSpace (h : f.Inv) (hpt : pt.Requested) (hlen : datalen < 2 ^ 63)
    (hf' : f.findSpace pt datalen alignment = some (pos, f')) :
    f'.Inv ∧ f.Keeps f' ∧ 0 < datalen ∧
      ((∃ page pd pad, f.pages[page]? = some pd ∧ pd.type = pt ∧ datalen + pad ≤ pd.size ∧
          (alignment = 1 → pad = 0) ∧
          pos = page * f.pageSize + (f.pageSize - pd.size) + pad ∧
          f'.pages = f.pages.set page (.make pt (pd.size - (datalen + pad))) ∧
          f'.fileSize = f.fileSize) ∨
        pos = f.fileSize ∧ ∃ c,
          f'.pages = f.pages ++ f.newPages pt datalen ++ List.replicate c (.make .toc 0)) := by
  simp only [ImageFile.findSpace, Option.bind_eq_bind, Option.bind_eq_some_iff,
    Option.guard_eq_some'] at hf'
  obtain ⟨-, ⟨hpos, halign⟩, hf'⟩ := hf'
  cases hfind : f.findPageWithSpace pt datalen alignment with
  | some page =>
    rw [hfind] at hf'
    dsimp only at hf'
    obtain ⟨hmem, hspace⟩ := findPageWithSpace_eq_some hfind
    obtain ⟨pd, hpd, htype⟩ := h.1.index pt page hmem
    rw [spaceIn_eq hpd] at hspace hf'
    have hsize := (h.1.sound pd (List.mem_of_getElem? hpd)).size
    have hmax := h.1.pageSize.max
    have hpad := Nat.mod_le (f.pageSize - pd.size) alignment
    -- the sum does not wrap around
    have hmod : (datalen + (f.pageSize - pd.size) % alignment) % 2 ^ 64 =
        datalen + (f.pageSize - pd.size) % alignment := Nat.mod_eq_of_lt (by omega)
    rw [hmod] at hspace hf'
    simp only [Option.bind_eq_some_iff, pure, Option.some.injEq, Prod.mk.injEq] at hf'
    obtain ⟨g, hg, rfl, rfl⟩ := hf'
    have hsound : (PageData.make pt
        (pd.size - (datalen + (f.pageSize - pd.size) % alignment))).Sound f.pageSize := by
      refine ⟨hpt.ne_null, fun htoc => (hpt.ne_toc htoc).elim, ?_⟩
      rw [PageData.make_size (by omega)]
      omega
    obtain ⟨hinv, hkeeps, hpages, hsize'⟩ :=
      h.updateTOCData hpd htype.symm hsound hg
    refine ⟨hinv, hkeeps, hpos, .inl ⟨page, pd, _, hpd, htype, hspace, ?_, ?_, hpages, hsize'⟩⟩
    · rintro rfl
      exact Nat.mod_one _
    · rw [position, pageOffset, Nat.mul_comm, Nat.add_assoc]
  | none =>
    rw [hfind] at hf'
    simp only [Option.bind_eq_some_iff, pure, Option.some.injEq, Prod.mk.injEq] at hf'
    obtain ⟨g, hg, g', hg', rfl, rfl⟩ := hf'
    obtain ⟨hinv, hkeeps, c, hpages⟩ := h.allocPages hpt hpos hg hg'
    exact ⟨hinv, hkeeps, hpos, .inr ⟨rfl, c, hpages⟩⟩

/-- `findSpace` fails only where the file would outgrow its offsets. -/
lemma Inv.findSpace_isSome (h : f.Inv) (hpt : pt.Requested) (hpos : 0 < datalen)
    (halign : 0 < alignment)
    (hlimit : f.fileSize + 3 * (f.pageCount datalen * f.pageSize) < 2 ^ 63) :
    ∃ r, f.findSpace pt datalen alignment = some r := by
  have hguard : guard (0 < datalen ∧ 0 < alignment) = (some () : Option Unit) :=
    if_pos ⟨hpos, halign⟩
  simp only [ImageFile.findSpace, hguard, Option.bind_eq_bind, Option.bind_some]
  cases hfind : f.findPageWithSpace pt datalen alignment with
  | some page =>
    obtain ⟨hmem, hspace⟩ := findPageWithSpace_eq_some hfind
    obtain ⟨pd, hpd, -⟩ := h.1.index pt page hmem
    have hsize := (h.1.sound pd (List.mem_of_getElem? hpd)).size
    have hmax := h.1.pageSize.max
    obtain ⟨p, -, htoc⟩ := h.pageTOCPosition hpd
    have hle : (PageData.make pt (f.spaceIn page -
        (datalen + (f.pageSize - f.spaceIn page) % alignment) % 2 ^ 64)).size ≤ pd.size := by
      rw [spaceIn_eq hpd] at hspace ⊢
      rw [Fin.le_def, PageData.make_size (by omega)]
      omega
    have htoc' : ImageFile.pageTOCPosition
        { f with pages := f.pages.set page (.make pt (f.spaceIn page -
          (datalen + (f.pageSize - f.spaceIn page) % alignment) % 2 ^ 64)) } page =
        some (p * f.pageSize + (slot f.pageSize page).2) := htoc
    simp only [ImageFile.updateTOCData, hpd, Option.bind_eq_bind, Option.bind_some, guard,
      if_pos hle, htoc', pure, Option.some.injEq, exists_eq']
  | none =>
    have hg : f.allocPages (f.pageCount datalen) =
        some { f with fileSize := f.fileSize + f.pageCount datalen * f.pageSize } :=
      if_pos (by omega)
    have hwriting := h.writing_newPages hpt hpos hg
    obtain ⟨g', hg'⟩ := hwriting.appendTOCData_isSome ((f.newPages pt datalen).length + 1) h.2
      (fun pd hpd => sound_of_mem_newPages (f := f) h hpt hpd) (.inr ⟨Nat.lt_succ_self _, by
        rw [newPages_length pt hpos]
        show f.fileSize + f.pageCount datalen * f.pageSize +
          2 * f.pageCount datalen * f.pageSize < 2 ^ 63
        rw [Nat.mul_assoc]
        omega⟩)
    simp only [hg, hg', Option.bind_some, pure, Option.some.injEq, exists_eq']

end ImageFile

end Hobbes.Db
