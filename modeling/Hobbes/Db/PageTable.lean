import Hobbes.Core.Lists
import Hobbes.Db.Toc

/-!
# Appending to the page table
-/

namespace Hobbes.Db

open Core

variable {τ : Type}

/-- The pages of descriptors among new pages, the first of them being page `k`. -/
def tocIndexes : ℕ → List PageData → List ℕ
  | _, [] => []
  | k, pd :: new => if pd.type = .toc then k :: tocIndexes (k + 1) new else tocIndexes (k + 1) new

lemma tocIndexes_replicate (k n : ℕ) :
    tocIndexes k (List.replicate n (PageData.make .toc 0)) = List.range' k n := by
  induction n generalizing k with
  | zero => rfl
  | succ n ih =>
    have htype : (PageData.make .toc 0).type = .toc := rfl
    rw [List.replicate_succ, tocIndexes, if_pos htype, ih, List.range'_succ]

lemma tocIndexes_eq_nil {k : ℕ} {new : List PageData} (h : ∀ pd ∈ new, pd.type ≠ .toc) :
    tocIndexes k new = [] := by
  induction new generalizing k with
  | nil => rfl
  | cons pd new ih =>
    rw [tocIndexes, if_neg (h pd List.mem_cons_self)]
    exact ih fun pd' h' => h pd' (List.mem_cons_of_mem _ h')

lemma mem_tocIndexes_singleton {k p : ℕ} {pd : PageData} :
    p ∈ tocIndexes k [pd] ↔ p = k ∧ pd.type = .toc := by
  simp only [tocIndexes]
  split_ifs with h <;> simp [h]

lemma lt_of_mem_tocIndexes {k p : ℕ} {new : List PageData} (h : p ∈ tocIndexes k new) :
    k ≤ p ∧ p < k + new.length := by
  induction new generalizing k with
  | nil => cases h
  | cons pd new ih =>
    rw [tocIndexes] at h
    rw [List.length_cons]
    split_ifs at h
    · obtain rfl | h := List.mem_cons.mp h
      · omega
      · have := ih h
        omega
    · have := ih h
      omega

/-- What a descriptor in the table says. -/
structure PageData.Sound (ps : ℕ) (pd : PageData) : Prop where
  type : pd.type ≠ .null
  toc : pd.type = .toc → pd.size.val = 0
  size : pd.size.val ≤ ps

namespace ImageFile

/-- The descriptors `left` are not written yet, and the last `m` pages of the file, of which `extra`
belong to the chain, are not in the table of pages. -/
structure Writing (f : ImageFile τ) (left : List PageData) (extra : List ℕ) (m : ℕ) : Prop where
  pageSize : ValidPageSize f.pageSize
  fileSize : f.fileSize = (f.pages.length + m) * f.pageSize
  limit : f.fileSize < 2 ^ 63
  cursor : ∃ written o p, written ++ left = f.pages ∧
    Toc f.disk f.pageSize (f.tocpages ++ extra) written o ∧
    (f.tocpages ++ extra).getLast? = some p ∧ f.headTocPos = p * f.pageSize + o
  blank : ∀ i, f.fileSize ≤ i → f.disk i = 0
  tocpages : ∀ p, p ∈ f.tocpages ↔ ∃ pd, f.pages[p]? = some pd ∧ pd.type = .toc
  extra : ∀ p ∈ extra, f.pages.length ≤ p ∧ p < f.pages.length + m
  sound : ∀ pd ∈ f.pages, pd.Sound f.pageSize
  index : ∀ pt, ∀ p ∈ f.freespace pt, ∃ pd, f.pages[p]? = some pd ∧ pd.type = pt

/-- There is room for a descriptor at the head. -/
def Room (f : ImageFile τ) : Prop := f.restInPage f.headTocPos ≠ linkSize

/-- The invariant between calls. -/
def Inv (f : ImageFile τ) : Prop := f.Writing [] [] 0 ∧ f.Room

/-- The byte is in a page of something else than descriptors. -/
def Stored (f : ImageFile τ) (i : ℕ) : Prop :=
  ∃ pd, f.pages[i / f.pageSize]? = some pd ∧ pd.type ≠ .toc

def Outside (f : ImageFile τ) (i : ℕ) : Prop := i < headSize ∨ f.Stored i

/-- What stays as it was when the table changes. -/
structure Keeps (f f' : ImageFile τ) : Prop where
  pageSize : f'.pageSize = f.pageSize
  version : f'.version = f.version
  bindings : f'.bindings = f.bindings
  disk : ∀ i, f.Outside i → f'.disk i = f.disk i

variable {f f' f'' : ImageFile τ} {left new : List PageData} {extra : List ℕ} {m n : ℕ}

lemma Keeps.refl (f : ImageFile τ) : f.Keeps f := ⟨rfl, rfl, rfl, fun _ _ => rfl⟩

lemma Outside.mono {i : ℕ} (h : f.Outside i) (hps : f'.pageSize = f.pageSize)
    (hpages : f.pages <+: f'.pages) : f'.Outside i := by
  obtain h | ⟨pd, hpd, htype⟩ := h
  · exact .inl h
  · rw [← hps] at hpd
    exact .inr ⟨pd, getElem?_of_prefix hpages hpd, htype⟩

lemma Keeps.trans (h : f.Keeps f') (h' : f'.Keeps f'') (hpages : f.pages <+: f'.pages) :
    f.Keeps f'' where
  pageSize := h'.pageSize.trans h.pageSize
  version := h'.version.trans h.version
  bindings := h'.bindings.trans h.bindings
  disk i hi := by rw [h'.disk i (hi.mono h.pageSize hpages), h.disk i hi]

/-! ### The index -/

lemma mem_sink {size : ℕ → ℕ} {page p : ℕ} {l : List ℕ} :
    p ∈ sink size page l ↔ p = page ∨ p ∈ l := by
  induction l with
  | nil => simp [sink]
  | cons q l ih =>
    rw [sink]
    split_ifs
    · rw [List.mem_cons, ih, List.mem_cons]
      tauto
    · rw [List.mem_cons, List.mem_cons]

lemma mem_resink {size : ℕ → ℕ} {page p : ℕ} {l : List ℕ} : p ∈ resink size page l ↔ p ∈ l := by
  induction l with
  | nil => rfl
  | cons q l ih =>
    rw [resink]
    split_ifs
    · rw [mem_sink, List.mem_cons]
    · rw [List.mem_cons, ih, List.mem_cons]

lemma find?_range_le (n : ℕ) (q : ℕ → Bool) : ((List.range n).find? q).getD n ≤ n := by
  cases h : (List.range n).find? q with
  | none => exact Nat.le_refl n
  | some i => exact Nat.le_of_lt (List.mem_range.mp (List.mem_of_find?_eq_some h))

lemma mem_freespace_insert {page p : ℕ} {pd : PageData} {pt : PageType}
    (h : p ∈ (f.insertPageSizeIndex page pd).freespace pt) :
    p ∈ f.freespace pt ∨ p = page ∧ pd.type = pt := by
  unfold insertPageSizeIndex at h
  split_ifs at h with hsize
  · exact .inl h
  · dsimp only at h
    by_cases hpt : pt = pd.type
    · subst hpt
      rw [Function.update_self] at h
      have h' := List.mem_of_mem_take h
      rw [List.mem_insertIdx (find?_range_le _ _)] at h'
      tauto
    · rw [Function.update_of_ne hpt] at h
      exact .inl h

lemma mem_freespace_update {page p : ℕ} {pt pt' : PageType}
    (h : p ∈ (f.updatePageSizeIndex page pt').freespace pt) : p ∈ f.freespace pt := by
  unfold updatePageSizeIndex at h
  dsimp only at h
  by_cases hpt : pt = pt'
  · subst hpt
    rw [Function.update_self] at h
    exact mem_resink.mp h
  · rwa [Function.update_of_ne hpt] at h

/-! ### The first loop -/

section

variable (f) (page : ℕ) (pd : PageData)

/-- Only the index differs. -/
lemma insertPageSizeIndex_eq : f.insertPageSizeIndex page pd =
    { f with freespace := (f.insertPageSizeIndex page pd).freespace } := by
  unfold insertPageSizeIndex
  split_ifs <;> rfl

lemma pushPage_eq : ∃ freespace, f.pushPage pd =
      { f with
        pages := f.pages ++ [pd]
        tocpages := f.tocpages ++ tocIndexes f.pages.length [pd]
        freespace } ∧
    ∀ pt, ∀ p ∈ freespace pt, p ∈ f.freespace pt ∨ p = f.pages.length ∧ pd.type = pt := by
  refine ⟨({ f with pages := f.pages ++ [pd] }.insertPageSizeIndex f.pages.length pd).freespace, ?_,
    fun pt p => mem_freespace_insert⟩
  unfold pushPage
  dsimp only
  rw [insertPageSizeIndex_eq]
  dsimp only [tocIndexes]
  split_ifs
  · rfl
  · rw [List.append_nil]

end

lemma Writing.pushPage {pd : PageData} (h : f.Writing left (tocIndexes f.pages.length (pd :: new)) (m + 1))
    (hpd : pd.Sound f.pageSize) :
    (f.pushPage pd).Writing (left ++ [pd]) (tocIndexes (f.pushPage pd).pages.length new) m := by
  obtain ⟨freespace, heq, hfree⟩ := f.pushPage_eq pd
  obtain ⟨written, o, p, hwritten, htoc, hlast, hhead⟩ := h.cursor
  have hchain : f.tocpages ++ tocIndexes f.pages.length (pd :: new) =
      f.tocpages ++ tocIndexes f.pages.length [pd] ++ tocIndexes (f.pages.length + 1) new := by
    rw [List.append_assoc, tocIndexes, tocIndexes]
    split_ifs <;> rfl
  rw [hchain] at htoc hlast
  have hlen : f.pages.length + (m + 1) = f.pages.length + 1 + m := by omega
  rw [heq]
  refine ⟨h.pageSize, ?_, h.limit, ⟨written, o, p, ?_, ?_, ?_, hhead⟩, h.blank, ?_, ?_, ?_, ?_⟩
  · rw [List.length_append, List.length_singleton, h.fileSize, hlen]
  · rw [← List.append_assoc, hwritten]
  · rw [List.length_append]
    exact htoc
  · rw [List.length_append]
    exact hlast
  · intro p'
    dsimp only
    rw [List.mem_append, h.tocpages, mem_tocIndexes_singleton]
    obtain hlt | rfl | hlt := Nat.lt_trichotomy p' f.pages.length
    · have hne : p' ≠ f.pages.length := by omega
      simp [List.getElem?_append_left hlt, hne]
    · simp
    · have hne : p' ≠ f.pages.length := by omega
      rw [List.getElem?_eq_none (by omega), List.getElem?_eq_none (by simp; omega)]
      simp [hne]
  · intro p' hp'
    have hlt := lt_of_mem_tocIndexes hp'
    rw [List.length_append, List.length_singleton] at hlt ⊢
    have hmem : p' ∈ tocIndexes f.pages.length (pd :: new) := by
      rw [List.length_append, List.length_singleton] at hp'
      rw [tocIndexes]
      split_ifs
      · exact List.mem_cons_of_mem _ hp'
      · exact hp'
    have := h.extra p' hmem
    omega
  · intro pd' hpd'
    obtain hpd' | hpd' := List.mem_append.mp hpd'
    · exact h.sound pd' hpd'
    · rw [List.mem_singleton.mp hpd']
      exact hpd
  · intro pt p' hp'
    obtain hp' | ⟨rfl, rfl⟩ := hfree pt p' hp'
    · obtain ⟨pd', hpd', htype⟩ := h.index pt p' hp'
      exact ⟨pd', getElem?_of_prefix (List.prefix_append ..) hpd', htype⟩
    · exact ⟨pd, List.getElem?_concat_length .., rfl⟩

lemma Writing.pushPages (h : f.Writing left (tocIndexes f.pages.length new) new.length)
    (hnew : ∀ pd ∈ new, pd.Sound f.pageSize) :
    (new.foldl ImageFile.pushPage f).Writing (left ++ new) [] 0 := by
  induction new generalizing f left with
  | nil => simpa [tocIndexes] using h
  | cons pd new ih =>
    have hpd := h.pushPage (hnew pd List.mem_cons_self)
    have hps : (f.pushPage pd).pageSize = f.pageSize := by
      obtain ⟨freespace, heq, -⟩ := f.pushPage_eq pd
      rw [heq]
    have hall := ih hpd fun pd' h' => hps ▸ hnew pd' (List.mem_cons_of_mem _ h')
    rwa [List.append_assoc, List.singleton_append] at hall

/-- Nothing but the tables in memory changes. -/
lemma pushPages_eq (f : ImageFile τ) (new : List PageData) : ∃ tocpages freespace,
    new.foldl ImageFile.pushPage f = { f with pages := f.pages ++ new, tocpages, freespace } := by
  induction new generalizing f with
  | nil => exact ⟨f.tocpages, f.freespace, by simp⟩
  | cons pd new ih =>
    obtain ⟨freespace, heq, -⟩ := f.pushPage_eq pd
    obtain ⟨tocpages', freespace', heq'⟩ := ih (f.pushPage pd)
    refine ⟨tocpages', freespace', ?_⟩
    rw [List.foldl_cons, heq', heq]
    simp

/-! ### The second loop -/

/-- Every page of the chain is in the file, and none is a page for something else. -/
lemma Writing.chain (h : f.Writing left extra m) {p : ℕ} (hp : p ∈ f.tocpages ++ extra) :
    p < f.pages.length + m ∧ ∀ pd, f.pages[p]? = some pd → pd.type = .toc := by
  obtain hp | hp := List.mem_append.mp hp
  · obtain ⟨pd, hpd, htype⟩ := (h.tocpages p).mp hp
    have hlt := (List.getElem?_eq_some_iff.mp hpd).1
    refine ⟨by omega, fun pd' hpd' => ?_⟩
    rw [hpd, Option.some.injEq] at hpd'
    exact hpd' ▸ htype
  · have := h.extra p hp
    refine ⟨this.2, fun pd hpd => ?_⟩
    rw [List.getElem?_eq_none this.1] at hpd
    cases hpd

/-- The bytes of a page end in the file. -/
lemma Writing.page_le (h : f.Writing left extra m) {p : ℕ} (hp : p < f.pages.length + m) :
    p * f.pageSize + f.pageSize ≤ f.fileSize := by
  rw [h.fileSize, ← Nat.succ_mul]
  exact Nat.mul_le_mul_right _ hp

/-- Bytes are written to a page of the chain. -/
lemma Writing.write_keeps (h : f.Writing left extra m) {p o : ℕ} (bs : Bytes)
    (hp : p ∈ f.tocpages ++ extra) (ho : o + bs.length ≤ f.pageSize)
    (hhead : headSize ≤ p * f.pageSize + o) :
    (∀ i, f.fileSize ≤ i → f.disk.write (p * f.pageSize + o) bs i = 0) ∧
      ∀ i, f.Outside i → f.disk.write (p * f.pageSize + o) bs i = f.disk i := by
  obtain ⟨hlt, htype⟩ := h.chain hp
  have hle := h.page_le hlt
  constructor
  · intro i hi
    rw [Disk.write_behind _ (by omega)]
    exact h.blank i hi
  · intro i hi
    apply Disk.write_outside
    obtain hi | ⟨pd, hpd, hne⟩ := hi
    · exact .inl (by omega)
    · by_contra hin
      have hdiv : i / f.pageSize = p := address_of_range ho (by omega) (by omega)
      rw [hdiv] at hpd
      exact hne (htype pd hpd)

lemma slots_length (new : List PageData) :
    (new.flatMap fun pd => leBytes 2 pd.ptfd).length = 2 * new.length := by
  induction new with
  | nil => rfl
  | cons pd new ih =>
    rw [List.flatMap_cons, List.length_append, ih, leBytes_length, List.length_cons]
    omega

lemma Writing.writeSlots (h : f.Writing left extra m) :
    (f.writeSlots left).Writing (left.drop (f.slotsWrite left)) extra m ∧
      f.Keeps (f.writeSlots left) := by
  obtain ⟨written, o, p, hwritten, htoc, hlast, hhead⟩ := h.cursor
  have hfits := htoc.fits
  have hmod : f.headTocPos % f.pageSize = o := by rw [hhead, address_mod (by omega)]
  have hmin : f.slotsWrite left = min ((f.pageSize - o - 8) / 2) left.length := by
    rw [slotsWrite, hmod]
  have hlen : (left.take (f.slotsWrite left)).length = f.slotsWrite left := by
    rw [List.length_take]
    omega
  have hslots := slots_length (left.take (f.slotsWrite left))
  have hfits' : o + 2 * (left.take (f.slotsWrite left)).length + 8 ≤ f.pageSize := by omega
  obtain ⟨hblank, hkeeps⟩ := h.write_keeps (o := o)
    ((left.take (f.slotsWrite left)).flatMap fun pd => leBytes 2 pd.ptfd)
    (List.mem_of_getLast? hlast) (by omega) (htoc.headSize_le_next h.pageSize hlast)
  have hall := htoc.pushAll h.pageSize hlast (left.take (f.slotsWrite left)) hfits'
  rw [← hhead] at hblank hkeeps hall
  refine ⟨⟨h.pageSize, h.fileSize, h.limit, ⟨_, _, p, ?_, hall, hlast, ?_⟩, hblank, h.tocpages, h.extra,
    h.sound, h.index⟩, rfl, rfl, rfl, hkeeps⟩
  · rw [List.append_assoc, List.take_append_drop]
    exact hwritten
  · show f.headTocPos + f.slotsWrite left * 2 = p * f.pageSize + _
    rw [hlen, hhead]
    omega

lemma linkTOCPage_eq_some (hf' : f.linkTOCPage m = some f') :
    f.fileSize + f.pageSize < 2 ^ 63 ∧ f' =
      { f with
        headTocPos := f.fileSize
        fileSize := f.fileSize + f.pageSize
        disk := f.disk.write f.headTocPos (leBytes 8 (f.pages.length + m)) } := by
  simp only [ImageFile.linkTOCPage, allocPages, Nat.one_mul, Option.bind_eq_bind,
    Option.bind_eq_some_iff, Option.ite_none_right_eq_some, Option.some.injEq, pure] at hf'
  obtain ⟨_, ⟨hlimit, rfl⟩, rfl⟩ := hf'
  exact ⟨hlimit, rfl⟩

lemma Writing.linkTOCPage (h : f.Writing left (List.range' f.pages.length m) m) (hroom : ¬ f.Room)
    (hf' : f.linkTOCPage m = some f') :
    f'.Writing left (List.range' f'.pages.length (m + 1)) (m + 1) ∧ f'.Room ∧ f.Keeps f' ∧
      f'.pages = f.pages := by
  obtain ⟨written, o, p, hwritten, htoc, hlast, hhead⟩ := h.cursor
  have hfits := htoc.fits
  have hmod : f.headTocPos % f.pageSize = o := by rw [hhead, address_mod (by omega)]
  have hfull : o + 8 = f.pageSize := by
    simp only [Room, restInPage, hmod, linkSize, Decidable.not_not] at hroom
    omega
  have hps := h.pageSize.min
  obtain ⟨hblank, hkeeps⟩ := h.write_keeps (o := o) (leBytes 8 (f.pages.length + m))
    (List.mem_of_getLast? hlast) (by rw [leBytes_length]; omega)
    (htoc.headSize_le_next h.pageSize hlast)
  have hnew : f.pages.length + m ∉ f.tocpages ++ List.range' f.pages.length m := by
    intro hmem
    have := (h.chain hmem).1
    omega
  have hext := htoc.extend h.pageSize hlast hfull hnew fun i _ => h.blank _ (by rw [h.fileSize]; omega)
  have hrange : List.range' f.pages.length (m + 1) =
      List.range' f.pages.length m ++ [f.pages.length + m] := by
    rw [List.range'_concat, Nat.one_mul]
  rw [← hhead] at hblank hkeeps hext
  obtain ⟨hlimit, rfl⟩ := linkTOCPage_eq_some hf'
  refine ⟨⟨h.pageSize, ?_, hlimit, ⟨written, 0, f.pages.length + m, hwritten, ?_, ?_, ?_⟩, ?_,
    h.tocpages, ?_, h.sound, h.index⟩, ?_, ⟨rfl, rfl, rfl, hkeeps⟩, rfl⟩
  · dsimp only
    rw [h.fileSize, ← Nat.succ_mul]
    rfl
  · dsimp only
    rw [hrange, ← List.append_assoc]
    exact hext
  · dsimp only
    rw [hrange, ← List.append_assoc, List.getLast?_concat]
  · exact h.fileSize
  · intro i hi
    exact hblank i (by dsimp only at hi; omega)
  · intro q hq
    dsimp only at hq ⊢
    rw [List.mem_range'_1] at hq
    omega
  · dsimp only [Room, restInPage, linkSize]
    rw [h.fileSize, Nat.mul_mod_left]
    omega

lemma Writing.writeTOCData {fuel : ℕ} {newtocpages newtocpages' : List PageData}
    (h : f.Writing left (List.range' f.pages.length n) n) (hroom : f.Room)
    (hnew : newtocpages = List.replicate n (.make .toc 0))
    (hf' : ImageFile.writeTOCData fuel f newtocpages left = some (f', newtocpages')) :
    ∃ n', newtocpages' = List.replicate n' (.make .toc 0) ∧
      f'.Writing [] (List.range' f'.pages.length n') n' ∧ f'.Room ∧ f.Keeps f' ∧
      f'.pages = f.pages := by
  induction fuel generalizing f left n newtocpages with
  | zero =>
    cases left with
    | nil =>
      simp only [ImageFile.writeTOCData, Option.some.injEq, Prod.mk.injEq] at hf'
      obtain ⟨rfl, rfl⟩ := hf'
      exact ⟨n, hnew, h, hroom, .refl _, rfl⟩
    | cons pd left => cases hf'
  | succ fuel ih =>
    cases left with
    | nil =>
      simp only [ImageFile.writeTOCData, Option.some.injEq, Prod.mk.injEq] at hf'
      obtain ⟨rfl, rfl⟩ := hf'
      exact ⟨n, hnew, h, hroom, .refl _, rfl⟩
    | cons pd left =>
      obtain ⟨hslots, hkeeps⟩ := h.writeSlots
      have hpages : (f.writeSlots (pd :: left)).pages = f.pages := rfl
      simp only [ImageFile.writeTOCData] at hf'
      split_ifs at hf' with hfull
      · -- the page is full
        simp only [Option.bind_eq_bind, Option.bind_eq_some_iff] at hf'
        obtain ⟨g, hg, hf'⟩ := hf'
        have hlen : newtocpages.length = n := by rw [hnew, List.length_replicate]
        rw [hlen] at hg
        rw [← hpages] at hslots
        obtain ⟨hlink, hroom', hkeeps', hpages'⟩ := hslots.linkTOCPage (by simpa [Room] using hfull) hg
        obtain ⟨n', hnew', hwriting, hroom'', hkeeps'', hpages''⟩ := ih hlink hroom'
          (by rw [hnew, List.replicate_succ']) hf'
        exact ⟨n', hnew', hwriting, hroom'',
          (hkeeps.trans hkeeps' (by simp [hpages])).trans hkeeps'' (by simp [hpages', hpages]),
          hpages''.trans hpages'⟩
      · obtain ⟨n', hnew', hwriting, hroom', hkeeps', hpages'⟩ := ih hslots hfull hnew hf'
        exact ⟨n', hnew', hwriting, hroom', hkeeps.trans hkeeps' (by simp [hpages]), hpages'⟩

/-! ### Both loops -/

/-- The pages `new` are in the file and go to the table, with those that it takes to do so. -/
lemma Writing.appendTOCData {fuel : ℕ}
    (h : f.Writing [] (tocIndexes f.pages.length new) new.length) (hroom : f.Room)
    (hnew : ∀ pd ∈ new, pd.Sound f.pageSize) (hf' : f.appendTOCData fuel new = some f') :
    f'.Inv ∧ f.Keeps f' ∧ ∃ c, f'.pages = f.pages ++ new ++ List.replicate c (.make .toc 0) := by
  induction fuel generalizing f new with
  | zero => cases hf'
  | succ fuel ih =>
    simp only [ImageFile.appendTOCData, Option.bind_eq_bind, Option.bind_eq_some_iff,
      Prod.exists] at hf'
    obtain ⟨g, newtocpages, hg, hf'⟩ := hf'
    have hpush := h.pushPages hnew
    obtain ⟨tocpages, freespace, heq⟩ := f.pushPages_eq new
    rw [heq] at hpush hg
    obtain ⟨n, rfl, hwriting, hroom', hkeeps, hpages⟩ := hpush.writeTOCData (n := 0) (by exact hroom) rfl hg
    have hkeeps' : f.Keeps g := by
      refine Keeps.trans ?_ hkeeps (List.prefix_append ..)
      exact ⟨rfl, rfl, rfl, fun _ _ => rfl⟩
    rw [List.length_replicate] at hf'
    split_ifs at hf' with hn
    · have hsound : ∀ pd ∈ List.replicate n (PageData.make .toc 0), pd.Sound g.pageSize := by
        intro pd hpd
        rw [List.eq_of_mem_replicate hpd]
        exact ⟨by decide, fun _ => rfl, Nat.zero_le _⟩
      rw [← tocIndexes_replicate] at hwriting
      obtain ⟨hinv, hkeeps'', c, hpages'⟩ :=
        ih (by rwa [List.length_replicate]) hroom' hsound hf'
      refine ⟨hinv, hkeeps'.trans hkeeps'' (by rw [hpages]; exact List.prefix_append ..), n + c, ?_⟩
      rw [hpages', hpages, List.append_assoc, ← List.replicate_add]
    · obtain rfl : n = 0 := by omega
      obtain rfl : g = f' := Option.some.inj hf'
      exact ⟨⟨hwriting, hroom'⟩, hkeeps', 0, by rw [hpages, List.replicate_zero, List.append_nil]⟩

/-! ### Termination

Each page of descriptors takes more of them than it adds, so that the calls end. -/

/-- How many descriptors the page at the head still takes. -/
def slotsAvail (f : ImageFile τ) : ℕ := (f.pageSize - f.headTocPos % f.pageSize - linkSize) / 2

lemma Writing.slotsAvail (h : f.Writing left extra m) : ∃ o, f.headTocPos % f.pageSize = o ∧
    o % 2 = 0 ∧ o + 8 + 2 * f.slotsAvail = f.pageSize := by
  obtain ⟨written, o, p, hwritten, htoc, hlast, hhead⟩ := h.cursor
  have hfits := htoc.fits
  have heven := h.pageSize.even
  have hnext := htoc.next
  have hmod : f.headTocPos % f.pageSize = o := by rw [hhead, address_mod (by omega)]
  have ho : o % 2 = 0 := by
    split_ifs at hnext with hfull
    · omega
    · have hoff := (slot_offset h.pageSize written.length).1
      rwa [hnext] at hoff
  refine ⟨o, hmod, ho, ?_⟩
  rw [ImageFile.slotsAvail, hmod, linkSize]
  omega

lemma Writing.room_iff (h : f.Writing left extra m) : f.Room ↔ 0 < f.slotsAvail := by
  obtain ⟨o, hmod, -, hslots⟩ := h.slotsAvail
  rw [Room, restInPage, hmod, linkSize]
  omega

lemma Writing.writeSlots_slotsAvail (h : f.Writing left extra m) :
    f.slotsWrite left = min f.slotsAvail left.length ∧
      (f.writeSlots left).slotsAvail + f.slotsWrite left = f.slotsAvail := by
  obtain ⟨o, hmod, -, hslots⟩ := h.slotsAvail
  have hmin : f.slotsWrite left = min f.slotsAvail left.length := rfl
  refine ⟨hmin, ?_⟩
  have hdiv := Nat.div_add_mod f.headTocPos f.pageSize
  have hmod' : (f.headTocPos + f.slotsWrite left * 2) % f.pageSize = o + f.slotsWrite left * 2 := by
    rw [hmod, Nat.mul_comm] at hdiv
    rw [← hdiv, Nat.add_assoc, address_mod (by omega)]
  show (f.pageSize - (f.headTocPos + f.slotsWrite left * 2) % f.pageSize - 8) / 2 +
    f.slotsWrite left = f.slotsAvail
  rw [hmod']
  omega

lemma Writing.linkTOCPage_slotsAvail (h : f.Writing left extra m)
    (hlimit : f.fileSize + f.pageSize < 2 ^ 63) :
    ∃ f', f.linkTOCPage m = some f' ∧ f'.fileSize = f.fileSize + f.pageSize ∧
      f'.slotsAvail = (f.pageSize - 8) / 2 := by
  refine ⟨_, by simp only [ImageFile.linkTOCPage, allocPages, Nat.one_mul, if_pos hlimit]; rfl, rfl, ?_⟩
  show (f.pageSize - f.fileSize % f.pageSize - 8) / 2 = _
  rw [h.fileSize, Nat.mul_mod_left, Nat.sub_zero]

/-- The loop ends, and every page it makes takes as many descriptors as fit. -/
lemma Writing.writeTOCData_isSome {fuel : ℕ} {newtocpages : List PageData}
    (h : f.Writing left (List.range' f.pages.length n) n) (hroom : f.Room)
    (hnew : newtocpages = List.replicate n (.make .toc 0)) (hfuel : left.length ≤ fuel)
    (hlimit : left.length < f.slotsAvail ∨ f.fileSize + left.length * f.pageSize < 2 ^ 63) :
    ∃ f' k, ImageFile.writeTOCData fuel f newtocpages left =
        some (f', List.replicate (n + k) (.make .toc 0)) ∧
      f'.fileSize = f.fileSize + k * f.pageSize ∧
      f'.slotsAvail + left.length = f.slotsAvail + k * ((f.pageSize - 8) / 2) := by
  induction fuel generalizing f left n newtocpages with
  | zero =>
    obtain rfl : left = [] := List.length_eq_zero_iff.mp (by omega)
    exact ⟨f, 0, by rw [hnew]; rfl, by omega, by simp⟩
  | succ fuel ih =>
    cases left with
    | nil => exact ⟨f, 0, by rw [hnew]; rfl, by omega, by simp⟩
    | cons pd left =>
      obtain ⟨hslots, -⟩ := h.writeSlots
      obtain ⟨hmin, havail⟩ := h.writeSlots_slotsAvail
      have hpos := h.room_iff.mp hroom
      have hlen : ((pd :: left).drop (f.slotsWrite (pd :: left))).length + f.slotsWrite (pd :: left) =
          (pd :: left).length := by
        rw [List.length_drop]
        omega
      have hcons : 0 < (pd :: left).length := Nat.succ_pos _
      have hmul : (pd :: left).length * f.pageSize =
          ((pd :: left).drop (f.slotsWrite (pd :: left))).length * f.pageSize +
            f.slotsWrite (pd :: left) * f.pageSize := by
        rw [← Nat.add_mul, hlen]
      simp only [ImageFile.writeTOCData]
      by_cases hfull : (f.writeSlots (pd :: left)).Room
      · rw [if_neg hfull]
        obtain ⟨f', k, hf', hsize, hk⟩ := ih hslots hfull hnew (by omega) (by
          rcases hlimit with hlimit | hlimit
          · exact .inl (by omega)
          · exact .inr (by show f.fileSize + _ * f.pageSize < 2 ^ 63; omega))
        change f'.slotsAvail + _ = _ + k * ((f.pageSize - 8) / 2) at hk
        exact ⟨f', k, hf', hsize, by omega⟩
      · -- as many descriptors are written as fit
        have hzero : (f.writeSlots (pd :: left)).slotsAvail = 0 :=
          Nat.eq_zero_of_not_pos (mt hslots.room_iff.mpr hfull)
        have hslotsPos := Nat.mul_le_mul_right f.pageSize (show 1 ≤ f.slotsWrite (pd :: left) by omega)
        have hlimit' : f.fileSize + (pd :: left).length * f.pageSize < 2 ^ 63 :=
          hlimit.resolve_left (by omega)
        rw [if_pos (by simpa [Room] using hfull)]
        obtain ⟨g, hg, hgsize, hgavail⟩ := hslots.linkTOCPage_slotsAvail (m := n)
          (by show f.fileSize + f.pageSize < 2 ^ 63; omega)
        have hlen' : newtocpages.length = n := by rw [hnew, List.length_replicate]
        obtain ⟨hlink, hroom', hkeeps, -⟩ := hslots.linkTOCPage hfull hg
        have hps : g.pageSize = f.pageSize := hkeeps.pageSize
        have hgsize' : g.fileSize = f.fileSize + f.pageSize := hgsize
        have hgavail' : g.slotsAvail = (f.pageSize - 8) / 2 := hgavail
        have hnew' : newtocpages ++ [.make .toc 0] = List.replicate (n + 1) (.make .toc 0) := by
          rw [hnew, List.replicate_succ']
        obtain ⟨f', k, hf', hsize, hk⟩ := ih hlink hroom' hnew' (by omega) (by rw [hps]; omega)
        rw [hlen', hg]
        refine ⟨f', k + 1, ?_, ?_, ?_⟩
        · rw [Nat.add_comm k, ← Nat.add_assoc]
          exact hf'
        · rw [hsize, hgsize', hps, Nat.succ_mul]
          omega
        · rw [hps] at hk
          rw [Nat.succ_mul]
          omega

lemma Writing.slotsAvail_le (h : f.Writing left extra m) : f.slotsAvail ≤ (f.pageSize - 8) / 2 := by
  obtain ⟨o, -, -, hslots⟩ := h.slotsAvail
  omega

/-- The calls end: each has fewer pages to add than the one before. -/
lemma Writing.appendTOCData_isSome (fuel : ℕ)
    (h : f.Writing [] (tocIndexes f.pages.length new) new.length) (hroom : f.Room)
    (hnew : ∀ pd ∈ new, pd.Sound f.pageSize) (hfuel : new.length < f.slotsAvail ∧ 0 < fuel ∨
      new.length < fuel ∧ f.fileSize + 2 * new.length * f.pageSize < 2 ^ 63) :
    ∃ f', f.appendTOCData fuel new = some f' := by
  induction fuel generalizing f new with
  | zero => omega
  | succ fuel ih =>
    have hpush := h.pushPages hnew
    obtain ⟨tocpages, freespace, heq⟩ := f.pushPages_eq new
    rw [heq, List.nil_append] at hpush
    have hlimit : new.length < f.slotsAvail ∨ f.fileSize + new.length * f.pageSize < 2 ^ 63 := by
      rw [Nat.mul_assoc] at hfuel
      omega
    obtain ⟨g, k, hg, hsize, hk⟩ := hpush.writeTOCData_isSome (n := 0) hroom rfl
      (Nat.le_refl new.length) hlimit
    obtain ⟨n, hn, hwriting, hroom', hkeeps, -⟩ := hpush.writeTOCData (n := 0) hroom rfl hg
    obtain rfl : 0 + k = n := by simpa using congrArg List.length hn
    rw [Nat.zero_add] at hwriting hg
    rw [List.replicate_zero] at hg
    simp only [ImageFile.appendTOCData, heq, hg, Option.bind_eq_bind, Option.bind_some,
      List.length_replicate]
    by_cases hzero : k = 0
    · rw [if_neg (by omega)]
      exact ⟨g, rfl⟩
    · rw [if_pos (by omega)]
      have hsound : ∀ pd ∈ List.replicate k (PageData.make .toc 0), pd.Sound g.pageSize := by
        intro pd hpd
        rw [List.eq_of_mem_replicate hpd]
        exact ⟨by decide, fun _ => rfl, Nat.zero_le _⟩
      rw [← tocIndexes_replicate] at hwriting
      refine ih (by rwa [List.length_replicate]) hroom' hsound ?_
      have hps : g.pageSize = f.pageSize := hkeeps.pageSize
      have hmin := h.pageSize.min
      have hpos := h.room_iff.mp hroom
      have hle := hwriting.slotsAvail_le
      change g.slotsAvail + new.length = f.slotsAvail + k * ((f.pageSize - 8) / 2) at hk
      change g.fileSize = f.fileSize + k * f.pageSize at hsize
      rw [hps] at hle ⊢
      rw [List.length_replicate, hsize]
      -- each of the new pages but the last is full
      obtain ⟨l, rfl⟩ := Nat.exists_eq_add_one_of_ne_zero hzero
      have hl := Nat.mul_le_mul_left l (show 3 ≤ (f.pageSize - 8) / 2 by omega)
      rw [Nat.succ_mul] at hk
      have hmul := Nat.mul_le_mul_right f.pageSize (show 3 * (l + 1) ≤ max 3 (2 * new.length) by omega)
      rcases hfuel with hfuel | ⟨hfuel, hlimit⟩
      · omega
      · by_cases hone : new.length = 1
        · exact .inl (by omega)
        · refine .inr ⟨by omega, ?_⟩
          rw [Nat.max_eq_right (by omega), Nat.mul_assoc] at hmul
          rw [Nat.mul_assoc]
          omega

end ImageFile

end Hobbes.Db
