import Hobbes.Db.FindSpace

/-!
# Reading the page table back
-/

namespace Hobbes.Db

open Core

variable {τ : Type}

/-! ### Descriptors -/

lemma PageType.decode_encode (pt : PageType) : PageType.decode pt.encode = pt := by
  cases pt <;> rfl

lemma PageData.ptfd_lt (pd : PageData) : pd.ptfd < 2 ^ 16 := by
  have hsize := pd.size.isLt
  have htype : pd.type.encode < 4 := by cases pd.type <;> decide
  rw [ptfd]
  omega

lemma PageData.ofPtfd_ptfd (pd : PageData) : PageData.ofPtfd pd.ptfd = pd := by
  have hsize := pd.size.isLt
  have hdiv : (pd.type.encode * 2 ^ 14 + pd.size) / 2 ^ 14 = pd.type.encode := by omega
  have hmod : (pd.type.encode * 2 ^ 14 + pd.size) % 2 ^ 14 = pd.size := by omega
  rw [ofPtfd, ptfd, hdiv, PageType.decode_encode, make]
  exact congrArg _ (Fin.ext hmod)

namespace ImageFile

lemma reads_page (pd : PageData) : Reader.Reads readPage (leBytes 2 pd.ptfd) pd := by
  have h := (Reader.Reads.number (m := 2 ^ 64) (k := 2) pd.ptfd_lt).map PageData.ofPtfd
  rwa [PageData.ofPtfd_ptfd] at h

variable {T : Types τ} {f f' g : ImageFile τ} {pos k : ℕ}

lemma readAt_eq_some {α : Type} {r : Reader (2 ^ 64) α} {bs : Bytes} {x : α} (hr : r.Reads bs x)
    (hold : f.disk.Holds pos bs) (hsize : pos + bs.length ≤ f.fileSize)
    (hlimit : f.fileSize < 2 ^ 63) : f.readAt r pos = some (x, pos + bs.length) := by
  have hpos : pos < 2 ^ 64 := by omega
  rw [readAt, dif_pos hpos, hold.reads hr ⟨pos, hpos⟩ ⟨pos + bs.length, by omega⟩ rfl rfl hsize]
  rfl

/-! ### The page table -/

/-- Reading the table of `f` into `g`, when the first `k` descriptors are read and `p` is the page of
the next. -/
def readTo (f g : ImageFile τ) (k p : ℕ) : ImageFile τ :=
  { g with
    pages := f.pages.take k
    tocpages := f.tocpages.take ((slot f.pageSize k).1 + 1)
    headTocPos := p * f.pageSize + (slot f.pageSize k).2 }

/-- `g` is opened on the bytes of `f`. -/
structure Opened (f g : ImageFile τ) : Prop where
  pageSize : g.pageSize = f.pageSize
  fileSize : g.fileSize = f.fileSize
  disk : g.disk = f.disk

lemma Inv.page_lt (h : f.Inv) {j p : ℕ} (hp : f.tocpages[j]? = some p) :
    p < f.pages.length ∧ p * f.pageSize + f.pageSize ≤ f.fileSize := by
  have hlt := (h.1.chain (List.mem_append_left [] (List.mem_of_getElem? hp))).1
  exact ⟨hlt, h.1.page_le hlt⟩

section

variable {fuel : ℕ} {pd : PageData} (hpd : f.readAt readPage f.headTocPos = some (pd, pos))

include hpd

lemma readPageData_null (hnull : pd.type = .null) :
    ImageFile.readPageData (fuel + 1) f = some f := by
  simp only [ImageFile.readPageData, hpd, Option.bind_eq_bind, Option.bind_some, hnull, if_true]
  rfl

lemma readPageData_page (hnull : pd.type ≠ .null)
    (hrest : f.restInPage (f.headTocPos + 2) ≠ linkSize) :
    ImageFile.readPageData (fuel + 1) f = ImageFile.readPageData fuel (f.addPage pd) := by
  have hrest' : (f.addPage pd).restInPage (f.addPage pd).headTocPos ≠ linkSize := hrest
  simp only [ImageFile.readPageData, hpd, Option.bind_eq_bind, Option.bind_some, hnull, hrest',
    if_false]

lemma readPageData_link (hnull : pd.type ≠ .null)
    (hrest : f.restInPage (f.headTocPos + 2) = linkSize) {q pos' : ℕ}
    (hq : f.readAt (Reader.number 8) pos = some (q, pos')) :
    ImageFile.readPageData (fuel + 1) f =
      ImageFile.readPageData fuel ((f.addPage pd).followLink q) := by
  have hrest' : (f.addPage pd).restInPage (f.addPage pd).headTocPos = linkSize := hrest
  have hq' : (f.addPage pd).readAt (Reader.number 8) pos = some (q, pos') := hq
  simp only [ImageFile.readPageData, hpd, Option.bind_eq_bind, Option.bind_some, hnull, hrest', hq',
    if_false, if_true]

end

lemma Inv.readPageData (h : f.Inv) (fuel : ℕ) (hg : f.Opened g) {p : ℕ} (hk : k ≤ f.pages.length)
    (hp : f.tocpages[(slot f.pageSize k).1]? = some p) (hfuel : f.pages.length < k + fuel) :
    ImageFile.readPageData fuel (f.readTo g k p) =
      some { g with pages := f.pages, tocpages := f.tocpages, headTocPos := f.headTocPos } := by
  obtain ⟨written, o, last, hwritten, htoc, hlast, hhead⟩ := h.1.cursor
  rw [List.append_nil] at hwritten htoc hlast
  subst hwritten
  have hps := h.1.pageSize
  have hmin := hps.min
  have hlimit := h.1.limit
  -- the head is the slot behind the last descriptor
  have hroom : o + 8 ≠ f.pageSize := by
    have hroom := h.2
    rw [Room, restInPage, hhead, address_mod (by have := htoc.fits; omega)] at hroom
    simp only [linkSize] at hroom
    omega
  have hnext := htoc.next
  rw [if_neg hroom] at hnext
  have hlen := htoc.length_pos
  have hfits := htoc.fits
  induction fuel generalizing k p with
  | zero => omega
  | succ fuel ih =>
    have hoff := slot_offset hps k
    obtain ⟨hplt, hple⟩ := h.page_lt hp
    have hread : ∀ pd : PageData,
        f.disk.Holds (p * f.pageSize + (slot f.pageSize k).2) (leBytes 2 pd.ptfd) →
        (f.readTo g k p).readAt readPage (f.readTo g k p).headTocPos =
          some (pd, p * f.pageSize + (slot f.pageSize k).2 + 2) := by
      intro pd hpd
      have hsize : p * f.pageSize + (slot f.pageSize k).2 + (leBytes 2 pd.ptfd).length ≤
          (f.readTo g k p).fileSize := by
        rw [leBytes_length]
        exact hg.fileSize ▸ (by omega)
      rw [← hg.disk] at hpd
      exact readAt_eq_some (f := f.readTo g k p) (reads_page pd) hpd hsize (hg.fileSize ▸ hlimit)
    obtain rfl | hk := Nat.eq_or_lt_of_le hk
    · -- behind the last descriptor there are zeros
      rw [hnext] at hp hread
      obtain rfl : last = p := Option.some.inj ((Toc.last_index hlast).symm.trans hp)
      have hblank : f.disk.Holds (last * f.pageSize + o) (leBytes 2 (PageData.make .null 0).ptfd) := by
        have h₀ := htoc.blank last o hlast (Nat.le_refl _) (by omega)
        have h₁ := htoc.blank last (o + 1) hlast (by omega) (by omega)
        show [f.disk (last * f.pageSize + o), f.disk (last * f.pageSize + (o + 1))] = _
        rw [h₀, h₁]
        rfl
      rw [readPageData_null (hread _ hblank) rfl]
      simp only [readTo, hnext, List.take_length, hhead]
      rw [Nat.sub_add_cancel hlen, List.take_length]
    · obtain ⟨p', hp', hold⟩ := htoc.entry k _ (List.getElem?_eq_getElem hk)
      obtain rfl : p = p' := Option.some.inj (hp.symm.trans hp')
      have hsound := h.1.sound _ (List.getElem_mem hk)
      have hrest : (f.readTo g k p).restInPage ((f.readTo g k p).headTocPos + 2) =
          f.pageSize - ((slot f.pageSize k).2 + 2) := by
        have hmod := address_mod (p := p) (by omega : (slot f.pageSize k).2 + 2 < f.pageSize)
        rw [restInPage]
        show g.pageSize - (p * f.pageSize + (slot f.pageSize k).2 + 2) % g.pageSize = _
        rw [hg.pageSize, Nat.add_assoc, hmod]
      have hpages : f.pages.take k ++ [f.pages[k]] = f.pages.take (k + 1) := by
        rw [List.take_append_getElem hk]
      by_cases hfull : (slot f.pageSize k).2 + 2 + 8 = f.pageSize
      · -- the page is full: go on in the page that it is linked to
        have hslot : slot f.pageSize (k + 1) = ((slot f.pageSize k).1 + 1, 0) := by
          rw [slot, if_pos hfull]
        have hle := slot_le hps (Nat.succ_le_of_lt hk)
        rw [hnext, hslot] at hle
        dsimp only at hle
        obtain ⟨q, hq⟩ : ∃ q, f.tocpages[(slot f.pageSize k).1 + 1]? = some q :=
          ⟨_, List.getElem?_eq_getElem (by omega)⟩
        obtain ⟨hqlt, hqle⟩ := h.page_lt hq
        have hlink : f.disk.Holds (p * f.pageSize + (slot f.pageSize k).2 + 2) (leBytes 8 q) := by
          have hpos : p * f.pageSize + (slot f.pageSize k).2 + 2 = p * f.pageSize + (f.pageSize - 8) := by
            omega
          rw [hpos]
          exact htoc.link _ p q hp hq
        have hread' : (f.readTo g k p).readAt (Reader.number 8)
            (p * f.pageSize + (slot f.pageSize k).2 + 2) =
              some (q, p * f.pageSize + (slot f.pageSize k).2 + 2 + (leBytes 8 q).length) := by
          rw [← hg.disk] at hlink
          refine readAt_eq_some (f := f.readTo g k p) (Reader.Reads.number ?_) hlink ?_ (hg.fileSize ▸ hlimit)
          · have := Nat.le_mul_of_pos_right q (Nat.lt_of_lt_of_le (by decide) hmin)
            omega
          · rw [leBytes_length]
            exact hg.fileSize ▸ (by omega)
        rw [readPageData_link (hread _ hold) hsound.type (by rw [hrest]; simp only [linkSize]; omega) hread']
        have hnextState : ((f.readTo g k p).addPage f.pages[k]).followLink q = f.readTo g (k + 1) q := by
          have htake : f.tocpages.take ((slot f.pageSize k).1 + 1) ++ [q] =
              f.tocpages.take ((slot f.pageSize k).1 + 1 + 1) := by
            obtain ⟨hidx, heq⟩ := List.getElem?_eq_some_iff.mp hq
            rw [← heq, List.take_append_getElem hidx]
          simp only [readTo, addPage, followLink, pageOffset, hpages, hslot, htake, hg.pageSize,
            Nat.add_zero, Nat.mul_comm]
        rw [hnextState]
        exact ih hk (by rwa [hslot]) (by omega)
      · have hslot : slot f.pageSize (k + 1) = ((slot f.pageSize k).1, (slot f.pageSize k).2 + 2) := by
          rw [slot, if_neg hfull]
        rw [readPageData_page (hread _ hold) hsound.type (by rw [hrest]; simp only [linkSize]; omega)]
        have hnextState : (f.readTo g k p).addPage f.pages[k] = f.readTo g (k + 1) p := by
          simp only [readTo, addPage, hpages, hslot, Nat.add_assoc]
        rw [hnextState]
        exact ih hk (by rwa [hslot]) (by omega)

/-! ### The file -/

/-- The file starts with a header of the current version. -/
structure Headed (f : ImageFile τ) : Prop where
  version : f.version = currentFileFormatVersion
  head : f.disk.Holds 0 (fileHead f.pageSize)

lemma fileHead_length (ps : ℕ) : (fileHead ps).length = headSize := by
  simp [fileHead]

lemma Headed.keeps (h : f.Headed) (hkeeps : f.Keeps f') : f'.Headed := by
  refine ⟨hkeeps.version.trans h.version, ?_⟩
  rw [hkeeps.pageSize]
  refine h.head.congr fun i _ hi => hkeeps.disk i (.inl ?_)
  rwa [fileHead_length, Nat.zero_add] at hi

/-- What is kept in memory only is lost. -/
def forget (f : ImageFile τ) : ImageFile τ :=
  { f with freespace := fun _ => [], bindings := fun _ => none }

lemma Inv.forget (h : f.Inv) : f.forget.Inv := by
  refine ⟨⟨h.1.pageSize, h.1.fileSize, h.1.limit, h.1.cursor, h.1.blank, h.1.tocpages, h.1.extra,
    h.1.sound, fun pt p hp => ?_⟩, h.2⟩
  cases hp

lemma reads_head {ps : ℕ} (hps : ValidPageSize ps) (pd : PageData) :
    Reader.Reads readHead (fileHead ps ++ leBytes 2 pd.ptfd)
      (filePrefixBytes, ps, currentFileFormatVersion, pd) := by
  have hmax := hps.max
  rw [fileHead, List.append_assoc, List.append_assoc]
  apply Reader.Reads.bind (Reader.Reads.number (by decide))
  apply Reader.Reads.bind (Reader.Reads.number (by omega))
  apply Reader.Reads.bind (Reader.Reads.number (by decide))
  exact (reads_page pd).map _

lemma Inv.readFileHead (h : f.Inv) (hhead : f.Headed) :
    ImageFile.readFileHead f.fileSize f.disk = some (f.readTo f.forget 1 0) := by
  obtain ⟨written, o, last, hwritten, htoc, -, -⟩ := h.1.cursor
  rw [List.append_nil] at hwritten htoc
  subst hwritten
  have hps := h.1.pageSize
  have hmin := hps.min
  obtain ⟨hlt, hle⟩ := h.page_lt htoc.head
  obtain ⟨p, hp, hold⟩ := htoc.entry 0 _ (List.getElem?_eq_getElem hlt)
  obtain rfl : 0 = p := Option.some.inj (htoc.head.symm.trans hp)
  have hslot : slot f.pageSize 1 = (0, 10) := by
    rw [slot, slot, if_neg (by dsimp only; omega)]
  let f₀ : ImageFile τ := ⟨0, 0, f.fileSize, 0, [], [], fun _ => [], fun _ => none, f.disk⟩
  have hread : f₀.readAt readHead 0 =
      some ((filePrefixBytes, f.pageSize, currentFileFormatVersion, f.pages[0]),
        0 + (fileHead f.pageSize ++ leBytes 2 f.pages[0].ptfd).length) := by
    refine readAt_eq_some (reads_head hps _) (Disk.holds_append.mpr ⟨hhead.head, ?_⟩) ?_ h.1.limit
    · rw [Nat.zero_mul, Nat.zero_add] at hold
      rw [fileHead_length, Nat.zero_add]
      exact hold
    · rw [List.length_append, fileHead_length, leBytes_length]
      show 0 + (8 + 2) ≤ f.fileSize
      omega
  have hpages : f.pages.take 1 = [f.pages[0]] := by
    rw [← List.take_append_getElem hlt]
    rfl
  have htocpages : f.tocpages.take 1 = [0] := by
    obtain ⟨hidx, heq⟩ := List.getElem?_eq_some_iff.mp htoc.head
    rw [← List.take_append_getElem hidx, heq]
    rfl
  simp only [ImageFile.readFileHead, Option.bind_eq_bind]
  rw [hread]
  simp only [Option.bind_some, guard, hps.assert, readTo, ImageFile.forget, hslot, hpages, htocpages,
    hhead.version, Nat.zero_mul, Nat.le_refl, if_true]
  rfl

/-- The page table is read back whole, and then the environment. -/
lemma Inv.readFile (h : f.Inv) (hhead : f.Headed) :
    ImageFile.readFile T f.fileSize f.disk =
      readEnvironment T (f.pages.length + 1) f.forget 0 := by
  have hfuel : f.pages.length ≤ f.fileSize := by
    rw [h.1.fileSize]
    exact Nat.le_mul_of_pos_right _ (Nat.lt_of_lt_of_le (by decide) h.1.pageSize.min)
  obtain ⟨_, _, _, -, htoc, -, -⟩ := h.1.cursor
  rw [List.append_nil] at htoc
  have hslot : slot f.pageSize 1 = (0, 10) := by
    have := h.1.pageSize.min
    rw [slot, slot, if_neg (by dsimp only; omega)]
  have hdata := h.readPageData f.fileSize (g := f.forget) ⟨rfl, rfl, rfl⟩ (k := 1) (p := 0)
    (h.page_lt htoc.head).1 (by rw [hslot]; exact htoc.head) (by omega)
  simp only [ImageFile.readFile, h.readFileHead hhead, hdata, Option.bind_eq_bind, Option.bind_some]
  rfl

/-! ### The environment -/

lemma readEnvironmentRecord_eq {boffset : ℕ} (h : f.readEnvironmentRecord T boffset = some (f', pos)) :
    ∃ bindings, f' = { f with bindings } := by
  simp only [readEnvironmentRecord, Option.bind_eq_bind, Option.bind_eq_some_iff] at h
  obtain ⟨⟨⟨offset, vname, type⟩, pos⟩, -, h⟩ := h
  dsimp only at h
  split_ifs at h <;> cases h <;> exact ⟨_, rfl⟩

lemma readEnvironmentRecords_eq {fuel boffset : ℕ}
    (h : readEnvironmentRecords T fuel f boffset = some (f', pos)) :
    ∃ bindings, f' = { f with bindings } := by
  induction fuel generalizing f boffset with
  | zero => cases h
  | succ fuel ih =>
    simp only [readEnvironmentRecords, Option.bind_eq_bind, Option.bind_eq_some_iff] at h
    obtain ⟨⟨g, pos'⟩, hg, pd, -, h⟩ := h
    obtain ⟨bindings, rfl⟩ := readEnvironmentRecord_eq hg
    dsimp only at h
    split_ifs at h
    · cases h
      exact ⟨_, rfl⟩
    · obtain ⟨bindings', rfl⟩ := ih h
      exact ⟨bindings', rfl⟩

/-- Reading the environment only binds names. -/
lemma readEnvironment_eq {fuel p : ℕ} (h : readEnvironment T fuel f p = some f') :
    ∃ bindings, f' = { f with bindings } := by
  induction fuel generalizing f p with
  | zero => cases h
  | succ fuel ih =>
    simp only [readEnvironment] at h
    split at h
    · cases h
      exact ⟨_, rfl⟩
    · split_ifs at h
      · simp only [Option.bind_eq_bind, Option.bind_eq_some_iff, readEnvironmentPage] at h
        obtain ⟨⟨g, n⟩, ⟨⟨g', pos⟩, hg', hg⟩, h⟩ := h
        cases hg
        obtain ⟨bindings, rfl⟩ := readEnvironmentRecords_eq hg'
        obtain ⟨bindings', rfl⟩ := ih h
        exact ⟨bindings', rfl⟩
      · exact ih h

/-- A file that can be opened again has the page table that it had. -/
lemma Inv.reopen (h : f.Inv) (hhead : f.Headed)
    (hf' : ImageFile.readFile T f.fileSize f.disk = some f') :
    f'.Inv ∧ f'.Headed ∧ ∃ bindings, f' = { f.forget with bindings } := by
  rw [h.readFile hhead] at hf'
  obtain ⟨bindings, rfl⟩ := readEnvironment_eq hf'
  have hinv := h.forget
  exact ⟨⟨⟨hinv.1.pageSize, hinv.1.fileSize, hinv.1.limit, hinv.1.cursor, hinv.1.blank,
    hinv.1.tocpages, hinv.1.extra, hinv.1.sound, hinv.1.index⟩, hinv.2⟩,
    ⟨hhead.version, hhead.head⟩, bindings, rfl⟩

end ImageFile

end Hobbes.Db
