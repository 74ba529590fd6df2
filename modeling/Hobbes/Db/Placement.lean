import Hobbes.Db.Allocation

/-!
# Where space is found

The positions that `findSpace` returns, whatever the type of the pages and the length.
-/

namespace Hobbes.Db

open Core

variable {τ : Type}

namespace ImageFile

variable {f f' : ImageFile τ} {pt : PageType} {pos datalen alignment page m n : ℕ}
  {new left : List PageData}

/-- The tables in memory fit the file, whose last `m` pages are not in the table of pages. -/
structure Paged (f : ImageFile τ) (m : ℕ) : Prop where
  pageSize : ValidPageSize f.pageSize
  fileSize : f.fileSize = (f.pages.length + m) * f.pageSize
  limit : f.fileSize < 2 ^ 63
  size : ∀ pd ∈ f.pages, pd.size.val ≤ f.pageSize
  index : ∀ pt, ∀ p ∈ f.freespace pt, p < f.pages.length

/-! ### The page table in memory -/

lemma Paged.pushPage {pd : PageData} (h : f.Paged (m + 1)) (hpd : pd.size.val ≤ f.pageSize) :
    (f.pushPage pd).Paged m := by
  obtain ⟨freespace, heq, hfree⟩ := f.pushPage_eq pd
  rw [heq]
  refine ⟨h.pageSize, ?_, h.limit, ?_, ?_⟩
  · rw [List.length_append, List.length_singleton, h.fileSize]
    congr 1
    omega
  · intro pd' hpd'
    obtain hpd' | hpd' := List.mem_append.mp hpd'
    · exact h.size pd' hpd'
    · rw [List.mem_singleton.mp hpd']
      exact hpd
  · intro pt p hp
    rw [List.length_append, List.length_singleton]
    obtain hp | ⟨rfl, -⟩ := hfree pt p hp
    · exact Nat.lt_succ_of_lt (h.index pt p hp)
    · exact Nat.lt_succ_self _

lemma Paged.pushPages (h : f.Paged new.length) (hnew : ∀ pd ∈ new, pd.size.val ≤ f.pageSize) :
    (new.foldl ImageFile.pushPage f).Paged 0 := by
  induction new generalizing f with
  | nil => exact h
  | cons pd new ih =>
    have hps : (f.pushPage pd).pageSize = f.pageSize := by
      obtain ⟨freespace, heq, -⟩ := f.pushPage_eq pd
      rw [heq]
    exact ih (h.pushPage (hnew pd List.mem_cons_self))
      fun pd' h' => hps ▸ hnew pd' (List.mem_cons_of_mem _ h')

lemma Paged.linkTOCPage (h : f.Paged m) (hf' : f.linkTOCPage n = some f') :
    f'.Paged (m + 1) ∧ f'.pages = f.pages ∧ f'.pageSize = f.pageSize := by
  obtain ⟨hlimit, rfl⟩ := linkTOCPage_eq_some hf'
  refine ⟨⟨h.pageSize, ?_, hlimit, h.size, h.index⟩, rfl, rfl⟩
  show f.fileSize + f.pageSize = (f.pages.length + (m + 1)) * f.pageSize
  rw [h.fileSize, ← Nat.succ_mul]
  rfl

lemma Paged.writeTOCData {fuel : ℕ} {newtocpages newtocpages' : List PageData} (h : f.Paged n)
    (hnew : newtocpages = List.replicate n (.make .toc 0))
    (hf' : ImageFile.writeTOCData fuel f newtocpages left = some (f', newtocpages')) :
    ∃ n', newtocpages' = List.replicate n' (.make .toc 0) ∧ f'.Paged n' ∧ f'.pages = f.pages ∧
      f'.pageSize = f.pageSize := by
  induction fuel generalizing f left n newtocpages with
  | zero =>
    cases left with
    | nil =>
      simp only [ImageFile.writeTOCData, Option.some.injEq, Prod.mk.injEq] at hf'
      obtain ⟨rfl, rfl⟩ := hf'
      exact ⟨n, hnew, h, rfl, rfl⟩
    | cons pd left => cases hf'
  | succ fuel ih =>
    cases left with
    | nil =>
      simp only [ImageFile.writeTOCData, Option.some.injEq, Prod.mk.injEq] at hf'
      obtain ⟨rfl, rfl⟩ := hf'
      exact ⟨n, hnew, h, rfl, rfl⟩
    | cons pd left =>
      have hslots : (f.writeSlots (pd :: left)).Paged n := ⟨h.1, h.2, h.3, h.4, h.5⟩
      simp only [ImageFile.writeTOCData] at hf'
      split_ifs at hf' with hfull
      · simp only [Option.bind_eq_bind, Option.bind_eq_some_iff] at hf'
        obtain ⟨g, hg, hf'⟩ := hf'
        obtain ⟨hlink, hpages, hps⟩ := hslots.linkTOCPage hg
        obtain ⟨n', hnew', hpaged, hpages', hps'⟩ :=
          ih hlink (by rw [hnew, List.replicate_succ']) hf'
        exact ⟨n', hnew', hpaged, hpages'.trans hpages, hps'.trans hps⟩
      · exact ih (f := f.writeSlots (pd :: left)) hslots hnew hf'

lemma Paged.appendTOCData {fuel : ℕ} (h : f.Paged new.length)
    (hnew : ∀ pd ∈ new, pd.size.val ≤ f.pageSize) (hf' : f.appendTOCData fuel new = some f') :
    f'.Paged 0 ∧ f'.pageSize = f.pageSize ∧
      ∃ c, f'.pages = f.pages ++ new ++ List.replicate c (.make .toc 0) := by
  induction fuel generalizing f new with
  | zero => cases hf'
  | succ fuel ih =>
    simp only [ImageFile.appendTOCData, Option.bind_eq_bind, Option.bind_eq_some_iff,
      Prod.exists] at hf'
    obtain ⟨g, newtocpages, hg, hf'⟩ := hf'
    have hpush := h.pushPages hnew
    obtain ⟨tocpages, freespace, heq⟩ := f.pushPages_eq new
    rw [heq] at hpush hg
    obtain ⟨n, rfl, hpaged, hpages, hps⟩ := hpush.writeTOCData rfl hg
    rw [List.length_replicate] at hf'
    split_ifs at hf' with hn
    · have hsize : ∀ pd ∈ List.replicate n (PageData.make .toc 0), pd.size.val ≤ g.pageSize := by
        intro pd hpd
        rw [List.eq_of_mem_replicate hpd]
        exact Nat.zero_le _
      obtain ⟨hpaged', hps', c, hpages'⟩ := ih (by rwa [List.length_replicate]) hsize hf'
      refine ⟨hpaged', hps'.trans hps, n + c, ?_⟩
      rw [hpages', hpages, List.append_assoc, ← List.replicate_add]
    · obtain rfl : n = 0 := Nat.eq_zero_of_not_pos hn
      obtain rfl : g = f' := Option.some.inj hf'
      exact ⟨hpaged, hps, 0, by rw [hpages, List.replicate_zero, List.append_nil]⟩

/-! ### Both ways to find space -/

lemma size_of_mem_newPages {pd : PageData} (hps : f.pageSize < 2 ^ 14)
    (hpd : pd ∈ f.newPages pt datalen) : pd.size.val ≤ f.pageSize := by
  rw [newPages, List.mem_append, List.mem_replicate, List.mem_singleton] at hpd
  obtain ⟨-, rfl⟩ | rfl := hpd
  · exact Nat.zero_le _
  · split_ifs
    · exact Nat.zero_le _
    · rw [PageData.make_size (by omega)]
      omega

lemma spaceIn_set {pd : PageData} (h : page < f.pages.length)
    (hpages : f'.pages = f.pages.set page pd) : f'.spaceIn page = pd.size :=
  spaceIn_eq (by rw [hpages, List.getElem?_set_self h])

/-- Space is taken from a page that `findPageWithSpace` finds, or else from new pages. -/
lemma Paged.findSpace (h : f.Paged 0) (hf' : f.findSpace pt datalen alignment = some (pos, f')) :
    f'.Paged 0 ∧ f'.pageSize = f.pageSize ∧ 0 < datalen ∧ 0 < alignment ∧
      ((∃ page, f.findPageWithSpace pt datalen alignment = some page ∧ page < f.pages.length ∧
          f'.pages.length = f.pages.length ∧ pos = page * f.pageSize + (f.pageSize - f.spaceIn page) +
            (f.pageSize - f.spaceIn page) % alignment ∧
          f.spaceIn page ≤ f.pageSize ∧
          f'.spaceIn page +
            (datalen + (f.pageSize - f.spaceIn page) % alignment) % 2 ^ 64 = f.spaceIn page) ∨
        f.findPageWithSpace pt datalen alignment = none ∧ pos = f.fileSize ∧ ∃ c,
          f'.pages = f.pages ++ f.newPages pt datalen ++ List.replicate c (.make .toc 0)) := by
  have hmax := h.pageSize.max
  simp only [ImageFile.findSpace, Option.bind_eq_bind, Option.bind_eq_some_iff,
    Option.guard_eq_some'] at hf'
  obtain ⟨-, ⟨hpos, halign⟩, hf'⟩ := hf'
  cases hfind : f.findPageWithSpace pt datalen alignment with
  | some page =>
    rw [hfind] at hf'
    simp only [Option.bind_eq_some_iff, pure, Option.some.injEq, Prod.mk.injEq] at hf'
    obtain ⟨g, hg, rfl, rfl⟩ := hf'
    obtain ⟨hmem, hspace⟩ := findPageWithSpace_eq_some hfind
    have hpage := h.index pt page hmem
    have hsize : f.spaceIn page ≤ f.pageSize := by
      rw [spaceIn_eq (List.getElem?_eq_getElem hpage)]
      exact h.size _ (List.getElem_mem hpage)
    have hmake : (PageData.make pt (f.spaceIn page -
        (datalen + (f.pageSize - f.spaceIn page) % alignment) % 2 ^ 64)).size.val = f.spaceIn page -
        (datalen + (f.pageSize - f.spaceIn page) % alignment) % 2 ^ 64 :=
      PageData.make_size (by omega)
    obtain ⟨-, freespace, -, hfree, rfl⟩ := updateTOCData_eq_some hg
    refine ⟨⟨h.pageSize, ?_, h.limit, ?_, ?_⟩, rfl, hpos, halign,
      .inl ⟨page, rfl, hpage, List.length_set .., ?_, hsize, ?_⟩⟩
    · rw [List.length_set]
      exact h.fileSize
    · intro pd hpd
      obtain hpd | rfl := List.mem_or_eq_of_mem_set hpd
      · exact h.size pd hpd
      · rw [hmake]
        exact Nat.le_trans (Nat.sub_le _ _) hsize
    · intro pt' p hp
      rw [List.length_set]
      exact h.index pt' p (hfree pt' p hp)
    · rw [position, pageOffset, Nat.mul_comm, Nat.add_assoc]
    · rw [spaceIn_set hpage rfl, hmake]
      omega
  | none =>
    rw [hfind] at hf'
    simp only [Option.bind_eq_some_iff, pure, Option.some.injEq, Prod.mk.injEq] at hf'
    obtain ⟨g, hg, g', hg', rfl, rfl⟩ := hf'
    simp only [ImageFile.allocPages, Option.ite_none_right_eq_some, Option.some.injEq] at hg
    obtain ⟨hlimit, rfl⟩ := hg
    have hpaged : ImageFile.Paged
        { f with fileSize := f.fileSize + f.pageCount datalen * f.pageSize }
        (f.newPages pt datalen).length := by
      refine ⟨h.pageSize, ?_, hlimit, h.size, h.index⟩
      dsimp only
      rw [newPages_length pt hpos, h.fileSize, Nat.add_zero, Nat.add_mul]
    obtain ⟨hpaged', hps, c, hpages⟩ :=
      hpaged.appendTOCData (fun pd hpd => size_of_mem_newPages (f := f) (by omega) hpd) hg'
    exact ⟨hpaged', hps, hpos, halign, .inr ⟨rfl, rfl, c, hpages⟩⟩

/-! ### Placement -/

/-- Where the free space of a page starts: all of a page that is not in the table is free. -/
def freeFrom (f : ImageFile τ) (page : ℕ) : ℕ :=
  page * f.pageSize + if page < f.pages.length then f.pageSize - f.spaceIn page else 0

/-- The range lies at a multiple of the alignment in space that was free, which it takes from its
first page to its last one, where the bytes behind it are the free ones. -/
structure Placed (f f' : ImageFile τ) (pos datalen alignment : ℕ) : Prop where
  aligned : alignment ∣ pos
  claimed : ∃ first last, first ≤ last ∧ last < f'.pages.length ∧ f.freeFrom first ≤ pos ∧
    (∀ p, first < p → p ≤ last → f.freeFrom p = p * f.pageSize) ∧
    (∀ p, first ≤ p → p < last → f'.spaceIn p = 0) ∧
    pos + datalen + f'.spaceIn last = (last + 1) * f.pageSize

lemma Paged.newPages_placed (h : f.Paged 0) (hlen : 0 < datalen) (hdvd : alignment ∣ f.pageSize) {c : ℕ}
    (hpages : f'.pages = f.pages ++ f.newPages pt datalen ++ List.replicate c (.make .toc 0)) :
    f.Placed f' f.fileSize datalen alignment := by
  have hfile := h.fileSize
  have hmin := h.pageSize.min
  have hcount := pageCount_pos (f := f) hlen
  rw [Nat.add_zero] at hfile
  have hget : ∀ j pd, (f.newPages pt datalen)[j]? = some pd →
      f'.spaceIn (f.pages.length + j) = pd.size := by
    intro j pd hpd
    refine spaceIn_eq ?_
    rw [hpages, List.append_assoc, List.getElem?_append_right (Nat.le_add_right ..),
      Nat.add_sub_cancel_left]
    exact getElem?_of_prefix (List.prefix_append ..) hpd
  obtain ⟨pd, hpd, -, htotal⟩ := newPages_last pt datalen (by omega) h.pageSize.max
  refine ⟨hfile ▸ Nat.dvd_mul_left_of_dvd hdvd _, f.pages.length, f.pages.length + (f.pageCount datalen - 1),
    Nat.le_add_right .., ?_, ?_, ?_, ?_, ?_⟩
  · rw [hpages, List.length_append, List.length_append, newPages_length pt hlen]
    omega
  · rw [freeFrom, if_neg (Nat.lt_irrefl _), hfile]
    exact Nat.le_refl _
  · intro p hp _
    rw [freeFrom, if_neg (by omega), Nat.add_zero]
  · intro p hp hp'
    obtain ⟨j, rfl⟩ := Nat.exists_eq_add_of_le hp
    rw [hget j _ (newPages_full (by omega))]
    rfl
  · rw [hget _ pd hpd, hfile, Nat.add_assoc, htotal, ← Nat.add_mul]
    congr 1
    omega

/-- A call of `findSpace` as a step of the file. -/
def allocStep (call : PageType × ℕ × ℕ) (f : ImageFile τ) : Option (ImageFile τ) :=
  (f.findSpace call.1 call.2.1 call.2.2).map Prod.snd

lemma createFile_paged {psize : ℕ} (h : createFile psize = some f) : f.Paged 0 := by
  obtain ⟨⟨hwriting, -⟩, -⟩ := createFile_inv h
  refine ⟨hwriting.pageSize, hwriting.fileSize, hwriting.limit,
    fun pd hpd => (hwriting.sound pd hpd).size, fun pt p hp => ?_⟩
  obtain ⟨pd, hpd, -⟩ := hwriting.index pt p hp
  exact (List.getElem?_eq_some_iff.mp hpd).1

lemma Paged.reachable {f₀ : ImageFile τ} (h₀ : f₀.Paged 0) (h : Reachable allocStep f₀ f) :
    f.Paged 0 := by
  refine h.invariant (P := fun f => f.Paged 0) h₀ ?_
  intro call f f' hf hstep
  obtain ⟨⟨pos, g⟩, hg, rfl⟩ := Option.map_eq_some_iff.mp hstep
  exact (hf.findSpace hg).1

/-- A position with the padding is a multiple of the alignment. -/
lemma dvd_pad_iff {ps o : ℕ} (hdvd : alignment ∣ ps) :
    alignment ∣ page * ps + o + o % alignment ↔ alignment ∣ 2 * o := by
  rw [Nat.add_assoc, Nat.dvd_add_right (Nat.dvd_mul_left_of_dvd hdvd _), Nat.dvd_iff_mod_eq_zero,
    Nat.dvd_iff_mod_eq_zero, Nat.add_mod_mod, Nat.two_mul]

/-- In every file that calls of `findSpace` lead to, a range is placed as it should be exactly if it
starts a new page, or the padding, which is the remainder of the offset, happens to be what is missing
to the next multiple of the alignment, and the length with the padding does not wrap around. -/
theorem findSpace_placed_iff {psize : ℕ} {f₀ : ImageFile τ} (hf₀ : createFile psize = some f₀)
    (h : Reachable allocStep f₀ f) (hdvd : alignment ∣ f.pageSize)
    (hf' : f.findSpace pt datalen alignment = some (pos, f')) :
    f.Placed f' pos datalen alignment ↔
      ∀ page, f.findPageWithSpace pt datalen alignment = some page →
        alignment ∣ 2 * (f.pageSize - f.spaceIn page) ∧
          datalen + (f.pageSize - f.spaceIn page) % alignment < 2 ^ 64 := by
  have hpaged := (createFile_paged hf₀).reachable h
  obtain ⟨hpaged', hps, hlen, halign, ⟨page, hfind, hpage, hcount, rfl, hsize, hspace⟩ |
    ⟨hfind, rfl, c, hpages⟩⟩ := hpaged.findSpace hf'
  · have hpad := Nat.mod_lt (f.pageSize - f.spaceIn page) halign
    have hmax := hpaged.pageSize.max
    have hle := Nat.le_of_dvd (by have := hpaged.pageSize.min; omega) hdvd
    have hfree : f.freeFrom page = page * f.pageSize + (f.pageSize - f.spaceIn page) := by
      rw [freeFrom, if_pos hpage]
    rw [hfind]
    constructor
    · rintro ⟨haligned, first, last, -, hlast, -, -, -, hend⟩ page' hpage'
      obtain rfl := Option.some.inj hpage'
      refine ⟨(dvd_pad_iff hdvd).mp haligned, ?_⟩
      -- a length that wraps around does not fit any file
      have hlimit := hpaged'.limit
      have hlast' := Nat.mul_le_mul_right f.pageSize (show last + 1 ≤ f'.pages.length from hlast)
      rw [hpaged'.fileSize, hps, Nat.add_zero] at hlimit
      omega
    · intro hok
      obtain ⟨haligned, hwrap⟩ := hok page rfl
      rw [Nat.mod_eq_of_lt hwrap] at hspace
      refine ⟨(dvd_pad_iff hdvd).mpr haligned, page, page, Nat.le_refl _, hcount ▸ hpage, ?_, ?_, ?_, ?_⟩
      · rw [hfree]
        exact Nat.le_add_right ..
      · intro p hp hp'
        omega
      · intro p hp hp'
        omega
      · rw [Nat.succ_mul]
        omega
  · rw [hfind]
    exact iff_of_true (hpaged.newPages_placed hlen hdvd hpages) 
      fun page hpage => by cases hpage

/-- 12 bytes are padded to 12 for an alignment of 4. -/
theorem findSpace_placed_four : ∃ f f' : ImageFile Unit, f.pageSize = 4096 ∧
    f.findSpace .data 50 4 = some (4108, f') ∧ f.Placed f' 4108 50 4 := by
  have hs : ∃ f₀ f f' : ImageFile Unit, createFile 4096 = some f₀ ∧
      runEvents allocStep [(.data, 12, 1)] f₀ = some f ∧ f.pageSize = 4096 ∧
      f.findPageWithSpace .data 50 4 = some 1 ∧ f.spaceIn 1 = 4084 ∧
      f.findSpace .data 50 4 = some (4108, f') := ⟨_, _, _, rfl, rfl, rfl, rfl, rfl, rfl⟩
  obtain ⟨f₀, f, f', hf₀, hrun, hps, hfind, hspace, hf'⟩ := hs
  refine ⟨f, f', hps, hf', (findSpace_placed_iff hf₀ (Reachable.start.runEvents hrun)
    (by rw [hps]; decide) hf').mpr fun page hpage => ?_⟩
  obtain rfl := Option.some.inj (hfind.symm.trans hpage)
  rw [hps, hspace]
  decide

/-- 10 bytes are padded to 12 for an alignment of 8. -/
theorem findSpace_not_placed : ∃ f₀ f f' : ImageFile Unit, createFile 4096 = some f₀ ∧
    Reachable allocStep f₀ f ∧ 8 ∣ f.pageSize ∧ f.findSpace .data 8 8 = some (4108, f') ∧
    ¬ f.Placed f' 4108 8 8 := by
  have hs : ∃ f₀ f f' : ImageFile Unit, createFile 4096 = some f₀ ∧
      runEvents allocStep [(.data, 10, 1)] f₀ = some f ∧ f.pageSize = 4096 ∧
      f.findSpace .data 8 8 = some (4108, f') := ⟨_, _, _, rfl, rfl, rfl, rfl⟩
  obtain ⟨f₀, f, f', hf₀, hrun, hps, hf'⟩ := hs
  refine ⟨f₀, f, f', hf₀, Reachable.start.runEvents hrun, by rw [hps]; decide, hf', fun h => ?_⟩
  exact absurd h.aligned (by decide)

end ImageFile

end Hobbes.Db
