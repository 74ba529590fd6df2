import Hobbes.Core.Transition
import Hobbes.Db.Reopen

/-!
# Allocations do not overlap

A byte is used if it lies in front of the free space of a page that is not one of descriptors. Space
that is found was not used before and is used from then on.
-/

namespace Hobbes.Db

open Core

variable {τ : Type}

namespace ImageFile

def Used (f : ImageFile τ) (i : ℕ) : Prop :=
  ∃ pd, f.pages[i / f.pageSize]? = some pd ∧ pd.type ≠ .toc ∧ i % f.pageSize + pd.size < f.pageSize

variable {f f' : ImageFile τ} {pt : PageType} {pos datalen alignment i : ℕ}

lemma Used.stored (h : f.Used i) : f.Stored i := by
  obtain ⟨pd, hpd, htype, -⟩ := h
  exact ⟨pd, hpd, htype⟩

lemma Stored.lt (h : f.Stored i) (hinv : f.Inv) : i < f.fileSize := by
  obtain ⟨pd, hpd, -⟩ := h
  have hlt := (List.getElem?_eq_some_iff.mp hpd).1
  have hps := hinv.1.pageSize.min
  rw [hinv.1.fileSize]
  exact (Nat.div_lt_iff_lt_mul (by omega)).mp hlt

lemma Stored.ne (h : f.Stored i) (hinv : f.Inv) {p : ℕ} (hp : p ∈ f.tocpages) :
    i / f.pageSize ≠ p := by
  rintro rfl
  obtain ⟨pd, hpd, htype⟩ := h
  exact htype ((hinv.1.chain (List.mem_append_left [] hp)).2 pd hpd)

lemma Stored.headSize_le (h : f.Stored i) (hinv : f.Inv) : headSize ≤ i := by
  obtain ⟨_, _, _, -, htoc, -, -⟩ := hinv.1.cursor
  rw [List.append_nil] at htoc
  have hps := hinv.1.pageSize.min
  have hne := h.ne hinv (List.mem_of_getElem? htoc.head)
  by_contra hlt
  exact hne (Nat.div_eq_of_lt (by simp only [headSize] at hlt; omega))

/-- The descriptor of a page of new ones, at a byte of what they are made for. -/
lemma newPages_used (pt : PageType) (hps : 0 < f.pageSize) (hmax : f.pageSize < 2 ^ 14)
    (hi : i < datalen) :
    ∃ pd, (f.newPages pt datalen)[i / f.pageSize]? = some pd ∧ pd.type = pt ∧
      i % f.pageSize + pd.size < f.pageSize := by
  have hmod := Nat.mod_lt i hps
  have hdiv := Nat.div_add_mod i f.pageSize
  by_cases hfull : i / f.pageSize + 1 < f.pageCount datalen
  · exact ⟨_, newPages_full hfull, rfl, hmod⟩
  · obtain ⟨pd, hpd, htype, htotal⟩ := newPages_last pt datalen hps hmax
    have hlt : i / f.pageSize < f.pageCount datalen := by
      rw [Nat.div_lt_iff_lt_mul hps]
      omega
    have heq : i / f.pageSize = f.pageCount datalen - 1 :=
      Nat.eq_sub_of_add_eq (Nat.le_antisymm hlt (Nat.le_of_not_lt hfull))
    refine ⟨pd, heq ▸ hpd, htype, ?_⟩
    obtain ⟨k, hk⟩ : ∃ k, f.pageCount datalen = k + 1 := Nat.exists_eq_succ_of_ne_zero (by omega)
    rw [heq, hk, Nat.add_sub_cancel, Nat.mul_comm] at hdiv
    rw [hk, Nat.succ_mul] at htotal
    omega

/-- Space that is found was free, and is used from then on, as all that was used before is. -/
lemma Inv.findSpace_used (h : f.Inv) (hpt : pt.Requested) (hlen : datalen < 2 ^ 63)
    (hf' : f.findSpace pt datalen alignment = some (pos, f')) :
    (∀ i, f.Used i → f'.Used i) ∧ ∀ i, pos ≤ i → i < pos + datalen → ¬ f.Used i ∧ f'.Used i := by
  have hps := h.1.pageSize.min
  have hmax := h.1.pageSize.max
  obtain ⟨hinv, hkeeps, hpos, ⟨page, pd, pad, hpd, htype, hspace, -, rfl, hpages, -⟩ |
    ⟨rfl, c, hpages⟩⟩ := h.findSpace hpt hlen hf'
  · have hsize := (h.1.sound pd (List.mem_of_getElem? hpd)).size
    have hsize' : (PageData.make pt (pd.size - (datalen + pad))).size.val =
        pd.size - (datalen + pad) := PageData.make_size (by omega)
    have hset : f'.pages[page]? = some (.make pt (pd.size - (datalen + pad))) := by
      rw [hpages, List.getElem?_set_self (List.getElem?_eq_some_iff.mp hpd).1]
    constructor
    · rintro i ⟨pd', hpd', htype', hused⟩
      rw [Used, hkeeps.pageSize]
      by_cases hpage : i / f.pageSize = page
      · rw [hpage, hpd, Option.some.injEq] at hpd'
        subst hpd'
        exact ⟨_, hpage ▸ hset, hpt.ne_toc, by omega⟩
      · refine ⟨pd', ?_, htype', hused⟩
        rw [hpages, List.getElem?_set_ne (Ne.symm hpage)]
        exact hpd'
    · intro i hi hi'
      obtain ⟨j, rfl⟩ := Nat.exists_eq_add_of_le hi
      have hj : f.pageSize - pd.size + pad + j < f.pageSize := by omega
      have haddr : page * f.pageSize + (f.pageSize - pd.size) + pad + j =
          page * f.pageSize + (f.pageSize - pd.size + pad + j) := by omega
      rw [haddr, Used, Used, hkeeps.pageSize, address_div hj, address_mod hj]
      constructor
      · rintro ⟨pd', hpd', -, hused⟩
        obtain rfl : pd = pd' := Option.some.inj (hpd.symm.trans hpd')
        omega
      · exact ⟨_, hset, hpt.ne_toc, by omega⟩
  · constructor
    · rintro i ⟨pd', hpd', htype', hused⟩
      rw [Used, hkeeps.pageSize, hpages, List.append_assoc]
      exact ⟨pd', getElem?_of_prefix (List.prefix_append ..) hpd', htype', hused⟩
    · intro i hi hi'
      obtain ⟨j, rfl⟩ := Nat.exists_eq_add_of_le hi
      have hfile := h.1.fileSize
      rw [Nat.add_zero] at hfile
      have hdiv : (f.fileSize + j) / f.pageSize = f.pages.length + j / f.pageSize := by
        rw [hfile, Nat.mul_comm, Nat.mul_add_div (by omega)]
      have hmod : (f.fileSize + j) % f.pageSize = j % f.pageSize := by
        rw [hfile, Nat.mul_comm, Nat.mul_add_mod]
      rw [Used, Used, hkeeps.pageSize, hdiv, hmod]
      constructor
      · rintro ⟨pd', hpd', -⟩
        rw [List.getElem?_eq_none (Nat.le_add_right ..)] at hpd'
        cases hpd'
      · obtain ⟨pd', hpd', htype', hused⟩ :=
          newPages_used pt (by omega) hmax (Nat.lt_of_add_lt_add_left hi')
        refine ⟨pd', ?_, htype' ▸ hpt.ne_toc, hused⟩
        rw [hpages, List.append_assoc, List.getElem?_append_right (Nat.le_add_right ..),
          Nat.add_sub_cancel_left]
        exact getElem?_of_prefix (List.prefix_append ..) hpd'

end ImageFile

namespace ImageFile

variable {f : ImageFile τ} {pos : ℕ} {bs : Bytes}

/-- Nothing of the page table changes when a page of something else is written to. -/
lemma Inv.write (h : f.Inv) (hstored : ∀ i, pos ≤ i → i < pos + bs.length → f.Stored i) :
    (f.write pos bs).Inv := by
  have hout : ∀ i, ¬ f.Stored i → f.disk.write pos bs i = f.disk i := by
    intro i hi
    apply Disk.write_outside
    by_contra hin
    exact hi (hstored i (by omega) (by omega))
  obtain ⟨written, o, p, hwritten, htoc, hlast, hhead⟩ := h.1.cursor
  have htoc' : Toc (f.disk.write pos bs) f.pageSize (f.tocpages ++ []) written o := by
    refine htoc.congr h.1.pageSize fun i hi => hout i fun hi' => ?_
    rw [List.append_nil] at hi
    exact hi'.ne h hi rfl
  exact ⟨⟨h.1.pageSize, h.1.fileSize, h.1.limit, ⟨written, o, p, hwritten, htoc', hlast, hhead⟩,
    fun i hi => (hout i fun hi' => Nat.not_lt.mpr hi (hi'.lt h)).trans (h.1.blank i hi),
    h.1.tocpages, h.1.extra, h.1.sound, h.1.index⟩, h.2⟩

lemma Headed.write (h : f.Headed) (hinv : f.Inv)
    (hstored : ∀ i, pos ≤ i → i < pos + bs.length → f.Stored i) : (f.write pos bs).Headed := by
  refine ⟨h.version, h.head.congr fun i _ hi => Disk.write_outside _ ?_⟩
  by_contra hin
  have hle := (hstored i (by omega) (by omega)).headSize_le hinv
  rw [fileHead_length] at hi
  omega

/-! ### A new file -/

lemma createFile_inv {psize : ℕ} (h : createFile psize = some f) : f.Inv ∧ f.Headed := by
  simp only [createFile, Option.bind_eq_bind, Option.bind_eq_some_iff] at h
  obtain ⟨ps, hps, h⟩ := h
  obtain ⟨rfl, hvalid⟩ := assertValidPageSize_eq_some hps
  obtain rfl := Option.some.inj h
  have hmin := hvalid.min
  have hmax := hvalid.max
  have hhold := Disk.holds_append.mp
    (Disk.holds_write Disk.blank 0 (fileHead ps ++ leBytes 2 (PageData.make .toc 0).ptfd))
  rw [fileHead_length] at hhold
  have hblank : ∀ i, 10 ≤ i →
      Disk.blank.write 0 (fileHead ps ++ leBytes 2 (PageData.make .toc 0).ptfd) i = 0 := by
    intro i hi
    exact Disk.write_behind _ (by simpa [fileHead_length] using hi)
  have hslot : slot ps 1 = (0, 10) := by
    rw [slot, slot, if_neg (by dsimp only; omega)]
  have htoc : Toc (Disk.blank.write 0 (fileHead ps ++ leBytes 2 (PageData.make .toc 0).ptfd)) ps [0]
      [.make .toc 0] 10 := by
    refine ⟨fun k e he => ?_, fun j p q hp hq => ?_, fun p i hp hi _ => ?_, ?_, by omega,
      List.nodup_singleton 0, rfl⟩
    · obtain ⟨hk, rfl⟩ := List.getElem?_eq_some_iff.mp he
      obtain rfl : k = 0 := by simpa using hk
      refine ⟨0, rfl, ?_⟩
      rw [Nat.zero_mul]
      exact hhold.2
    · cases hq
    · obtain rfl : 0 = p := Option.some.inj hp
      exact hblank _ (by omega)
    · rw [List.length_singleton, hslot, if_neg (by omega)]
      rfl
  refine ⟨⟨⟨hvalid, ?_, ?_, ⟨_, 10, 0, List.append_nil _, htoc, rfl, ?_⟩, fun i hi => hblank i ?_, ?_,
    ?_, ?_, ?_⟩, ?_⟩, rfl, hhold.1⟩
  · show ps = 1 * ps
    omega
  · show ps < 2 ^ 63
    omega
  · show 8 + 2 = 0 * ps + 10
    omega
  · have hi' : ps ≤ i := hi
    omega
  · intro p
    cases p <;> simp [PageData.make]
  · intro p hp
    cases hp
  · intro pd hpd
    rw [List.mem_singleton.mp hpd]
    exact ⟨by decide, fun _ => rfl, Nat.zero_le _⟩
  · intro pt p hp
    cases hp
  · show ps - (8 + 2) % ps ≠ 8
    rw [Nat.mod_eq_of_lt (by omega)]
    omega

end ImageFile

/-! ### Runs -/

/-- A file, and the ranges that `findSpace` returned, each with its length. -/
structure Session (τ : Type) where
  file : ImageFile τ
  ranges : List (ℕ × ℕ)

inductive FileEvent where
  | findSpace (pt : PageType) (datalen alignment : ℕ)
  /-- whoever has a range writes to it -/
  | store (pos : ℕ) (bs : Bytes)
  | readFile

def Session.step (T : Types τ) : FileEvent → Session τ → Option (Session τ)
  | .findSpace pt datalen alignment, s => do
    let (pos, f) ← s.file.findSpace pt datalen alignment
    return ⟨f, (pos, datalen) :: s.ranges⟩
  | .store pos bs, s =>
    if ∃ r ∈ s.ranges, r.1 ≤ pos ∧ pos + bs.length ≤ r.1 + r.2 then
      some { s with file := s.file.write pos bs }
    else none
  | .readFile, s => do
    let f ← ImageFile.readFile T s.file.fileSize s.file.disk
    return { s with file := f }

/-- The pages are asked for by their type, and the length is one that a file offset can have. -/
def FileEvent.Requested : FileEvent → Session τ → Prop
  | .findSpace pt datalen _, _ => pt.Requested ∧ datalen < 2 ^ 63
  | _, _ => True

instance : ∀ (e : FileEvent) (s : Session τ), Decidable (e.Requested s)
  | .findSpace pt datalen _, _ =>
    inferInstanceAs (Decidable ((pt = .environment ∨ pt = .data) ∧ datalen < 2 ^ 63))
  | .store _ _, _ => isTrue trivial
  | .readFile, _ => isTrue trivial

/-- Two ranges have no byte in common. -/
def Apart (r r' : ℕ × ℕ) : Prop := r.1 + r.2 ≤ r'.1 ∨ r'.1 + r'.2 ≤ r.1

structure Session.Inv (s : Session τ) : Prop where
  file : s.file.Inv
  headed : s.file.Headed
  pos : ∀ r ∈ s.ranges, 0 < r.2
  used : ∀ r ∈ s.ranges, ∀ i, r.1 ≤ i → i < r.1 + r.2 → s.file.Used i
  apart : s.ranges.Pairwise Apart

variable {T : Types τ} {s s' : Session τ}

lemma Session.Inv.step (h : s.Inv) {e : FileEvent} (he : e.Requested s)
    (hs : Session.step T e s = some s') : s'.Inv := by
  cases e with
  | findSpace pt datalen alignment =>
    obtain ⟨hpt, hlen⟩ := he
    simp only [Session.step, Option.bind_eq_bind, Option.bind_eq_some_iff] at hs
    obtain ⟨⟨pos, f⟩, hf, hs⟩ := hs
    obtain rfl := Option.some.inj hs
    obtain ⟨hinv, hkeeps, hpos, -⟩ := h.file.findSpace hpt hlen hf
    obtain ⟨hmono, hnew⟩ := h.file.findSpace_used hpt hlen hf
    refine ⟨hinv, h.headed.keeps hkeeps, List.forall_mem_cons.mpr ⟨hpos, h.pos⟩,
      List.forall_mem_cons.mpr ⟨fun i hi hi' => (hnew i hi hi').2,
        fun r hr i hi hi' => hmono i (h.used r hr i hi hi')⟩,
      List.pairwise_cons.mpr ⟨fun r hr => ?_, h.apart⟩⟩
    -- a common byte would be free and used
    by_contra hmeet
    have hrpos := h.pos r hr
    simp only [Apart, not_or, Nat.not_le] at hmeet
    exact (hnew (max pos r.1) (by omega) (by omega)).1
      (h.used r hr _ (by omega) (by omega))
  | store pos bs =>
    simp only [Session.step, Option.ite_none_right_eq_some, Option.some.injEq] at hs
    obtain ⟨⟨r, hr, hle, hle'⟩, rfl⟩ := hs
    have hstored : ∀ i, pos ≤ i → i < pos + bs.length → s.file.Stored i :=
      fun i hi hi' => (h.used r hr i (by omega) (by omega)).stored
    exact ⟨h.file.write hstored, h.headed.write h.file hstored, h.pos, h.used, h.apart⟩
  | readFile =>
    simp only [Session.step, Option.bind_eq_bind, Option.bind_eq_some_iff] at hs
    obtain ⟨f, hf, hs⟩ := hs
    obtain rfl := Option.some.inj hs
    obtain ⟨hinv, hheaded, bindings, rfl⟩ := h.file.reopen h.headed hf
    exact ⟨hinv, hheaded, h.pos, h.used, h.apart⟩

/-- In every run from a new file, the ranges that were returned do not meet, lie in the file, and
meet neither its header nor a page of descriptors. -/
theorem Session.ranges_apart {psize : ℕ} {f : ImageFile τ} (hf : ImageFile.createFile psize = some f)
    (h : Reachable (guarded FileEvent.Requested (Session.step T)) ⟨f, []⟩ s) :
    s.ranges.Pairwise Apart ∧ ∀ r ∈ s.ranges, 8 ≤ r.1 ∧ r.1 + r.2 ≤ s.file.fileSize ∧
      ∀ p ∈ s.file.tocpages, Apart r (p * s.file.pageSize, s.file.pageSize) := by
  obtain ⟨hinv, hheaded⟩ := ImageFile.createFile_inv hf
  have hs : s.Inv := by
    refine h.invariant (P := Session.Inv) ⟨hinv, hheaded, by simp, by simp, .nil⟩ ?_
    intro e s s' hs hstep
    obtain ⟨he, hstep⟩ := guarded_eq_some.mp hstep
    exact hs.step he hstep
  refine ⟨hs.apart, fun r hr => ?_⟩
  have hpos := hs.pos r hr
  have hfirst := hs.used r hr r.1 (Nat.le_refl _) (by omega)
  have hlast := hs.used r hr (r.1 + r.2 - 1) (by omega) (by omega)
  refine ⟨hfirst.stored.headSize_le hs.file, ?_, fun p hp => ?_⟩
  · have := hlast.stored.lt hs.file
    omega
  · by_contra hmeet
    simp only [Apart, not_or, Nat.not_le] at hmeet
    have hin := hs.used r hr (max r.1 (p * s.file.pageSize)) (by omega) (by omega)
    refine hin.stored.ne hs.file hp ?_
    have hps := hs.file.1.pageSize.min
    exact address_of_range (o := 0) (n := s.file.pageSize) (by omega) (by omega) (by omega)

set_option maxRecDepth 8000 in
/-- Two values in one page, the page table read back, and a value of two pages. -/
theorem Session.ranges_apart_reopened :
    ∃ s : Session Unit, s.ranges = [(512, 300), (356, 50), (256, 100)] ∧
      s.ranges.Pairwise Apart ∧ ∀ r ∈ s.ranges, 8 ≤ r.1 ∧ r.1 + r.2 ≤ s.file.fileSize ∧
        ∀ p ∈ s.file.tocpages, Apart r (p * s.file.pageSize, s.file.pageSize) := by
  let T : Types Unit := ⟨fun _ => some 1, fun _ => [], fun _ => some (), id⟩
  let es : List FileEvent := [.findSpace .data 100 1, .findSpace .data 50 1, .store 356 [1, 2, 3],
    .readFile, .findSpace .data 300 8]
  have hs : ∃ f s, ImageFile.createFile 256 = some f ∧
      runEvents (guarded FileEvent.Requested (Session.step T)) es ⟨f, []⟩ = some s ∧
      s.ranges = [(512, 300), (356, 50), (256, 100)] := ⟨_, _, rfl, rfl, rfl⟩
  obtain ⟨f, s, hf, hrun, hranges⟩ := hs
  exact ⟨s, hranges, Session.ranges_apart hf (Reachable.start.runEvents hrun)⟩

/-- Space in a page of descriptors, and a length that wraps around with the padding. -/
theorem Session.ranges_not_apart :
    (∃ (f : ImageFile Unit) (s : Session Unit), ImageFile.createFile 256 = some f ∧
      Reachable (Session.step ⟨fun _ => some 1, fun _ => [], fun _ => some (), id⟩) ⟨f, []⟩ s ∧
      ∃ r ∈ s.ranges, ∃ p ∈ s.file.tocpages, ¬ Apart r (p * s.file.pageSize, s.file.pageSize)) ∧
    ∃ (f : ImageFile Unit) (s : Session Unit), ImageFile.createFile 256 = some f ∧
      Reachable (Session.step ⟨fun _ => some 1, fun _ => [], fun _ => some (), id⟩) ⟨f, []⟩ s ∧
      ∃ r ∈ s.ranges, s.file.fileSize < r.1 + r.2 := by
  constructor
  · have hs : ∃ (f : ImageFile Unit) (s : Session Unit), ImageFile.createFile 256 = some f ∧
        runEvents (Session.step ⟨fun _ => some 1, fun _ => [], fun _ => some (), id⟩)
          [.findSpace .toc 100 1] ⟨f, []⟩ = some s ∧
        s.ranges = [(256, 100)] ∧ s.file.tocpages = [0, 1] ∧ s.file.pageSize = 256 :=
      ⟨_, _, rfl, rfl, rfl, rfl, rfl⟩
    obtain ⟨f, s, hf, hrun, hranges, htocpages, hps⟩ := hs
    refine ⟨f, s, hf, Reachable.start.runEvents hrun, (256, 100), by simp [hranges], 1,
      by simp [htocpages], ?_⟩
    rw [hps, Apart]
    decide
  · have hs : ∃ (f : ImageFile Unit) (s : Session Unit), ImageFile.createFile 256 = some f ∧
        runEvents (Session.step ⟨fun _ => some 1, fun _ => [], fun _ => some (), id⟩)
          [.findSpace .data 100 1, .findSpace .data (2 ^ 64 - 1) 3] ⟨f, []⟩ = some s ∧
        s.ranges = [(357, 2 ^ 64 - 1), (256, 100)] ∧ s.file.fileSize = 512 :=
      ⟨_, _, rfl, rfl, rfl, rfl⟩
    obtain ⟨f, s, hf, hrun, hranges, hsize⟩ := hs
    refine ⟨f, s, hf, Reachable.start.runEvents hrun, (357, 2 ^ 64 - 1), by simp [hranges], ?_⟩
    rw [hsize]
    decide

end Hobbes.Db
