import Mathlib.Tactic.Ring
import Hobbes.Db.Mapping

/-!
# The table of mappings

A pointer that was handed out lies in the memory of the region that it is counted for, as long as no
region takes the place of another one, and each pointer is handed out and given back once.
-/

namespace Hobbes.Db

open Core

variable {τ : Type}

namespace MappedFile

variable (f : MappedFile τ)

/-- What is promised of the pointers that were not given back. -/
structure Consistent : Prop where
  defined : f.undefined = false
  outstanding : ∀ a ∈ f.outstanding, ∃ fa m, f.allocs.lookup a.ptr = some fa ∧
    f.mappings.lookup fa.page = some m ∧ m.base ≤ a.ptr ∧
    a.ptr + a.size ≤ m.base + m.pages * f.file.pageSize ∧
    (m.base, m.pages * f.file.pageSize) ∈ f.mem ∧
    f.unsafeOffsetOfVal false a.ptr = some a.pos

/-- The request gets along with the region that serves it: there is one to be found or to be made
under a page of its own, that reaches as far as the request does, and whose count takes it. -/
def Serves (pos size : ℕ) : Bool :=
  let page := pos / f.file.pageSize
  let pages := f.file.pageCount size
  let new := f.newRegion page pages
  let newServes : Bool := pos + size ≤ (new.1 + new.2) * f.file.pageSize ∧ size < 2 ^ 64
  match gleb f.mappings page with
  | none => false
  | some none => newServes
  | some (some k) => (f.mappings.lookup k).all fun r =>
    if r.basePage ≤ page ∧ page + pages ≤ r.basePage + r.pages then
      pos + size ≤ (r.basePage + r.pages) * f.file.pageSize ∧ r.used + size < 2 ^ 64
    else k ≠ page && newServes

end MappedFile

/-- Nothing empty is mapped, and a pointer is given back when it was handed out once, for as many
bytes as it was handed out for. -/
def MapEvent.Careful : MapEvent → MappedFile τ → Prop
  | .map pos size _, f => 0 < size ∧ f.Serves pos size
  | .unmap ptr size, f => (f.outstanding.filter (·.ptr = ptr)).map (·.size) = [size]

instance : ∀ (e : MapEvent) (f : MappedFile τ), Decidable (e.Careful f)
  | .map _ _ _, _ => inferInstanceAs (Decidable (_ ∧ _))
  | .unmap _ _, _ => inferInstanceAs (Decidable (_ = _))

variable {f f' : MappedFile τ} {m : FRegion} {a : Outstanding}

/-! ### Where an allocation lies -/

/-- The allocation lies in the memory of the region. -/
def FRegion.Holds (ps : ℕ) (m : FRegion) (a : Outstanding) : Prop :=
  m.base ≤ a.ptr ∧ a.ptr < m.base + m.pages * ps

instance (ps : ℕ) (m : FRegion) : DecidablePred (m.Holds ps) := fun _ =>
  inferInstanceAs (Decidable (_ ∧ _))

/-- How many bytes of the region are handed out. -/
def FRegion.inUse (ps : ℕ) (m : FRegion) (as : List Outstanding) : ℕ :=
  ((as.filter (m.Holds ps)).map (·.size)).sum

/-- The two regions have no memory in common. -/
def FRegion.Apart (ps : ℕ) (m n : FRegion) : Prop :=
  m.base + m.pages * ps ≤ n.base ∨ n.base + n.pages * ps ≤ m.base

/-- The two regions differ in their counts at most. -/
def FRegion.Same (m n : FRegion) : Prop :=
  m.basePage = n.basePage ∧ m.pages = n.pages ∧ m.base = n.base

/-- The allocation was made out of the region. -/
structure FRegion.Placed (ps : ℕ) (m : FRegion) (a : Outstanding) : Prop where
  pos : m.basePage * ps ≤ a.pos
  ptr : a.ptr = m.base + (a.pos - m.basePage * ps)
  fits : a.pos + a.size ≤ (m.basePage + m.pages) * ps
  size : 0 < a.size

namespace FRegion

variable {ps : ℕ} {n : FRegion} {as : List Outstanding}

lemma Placed.le (h : m.Placed ps a) : a.ptr + a.size ≤ m.base + m.pages * ps := by
  obtain ⟨hpos, hptr, hfits, -⟩ := h
  rw [Nat.add_mul] at hfits
  omega

lemma Placed.holds (h : m.Placed ps a) : m.Holds ps a := by
  have hle := h.le
  have hsize := h.size
  have hptr := h.ptr
  constructor <;> omega

lemma Apart.symm (h : m.Apart ps n) : n.Apart ps m := Or.symm h

lemma Apart.not_holds (h : m.Apart ps n) (hm : m.Holds ps a) : ¬ n.Holds ps a := by
  intro hn
  rcases h with h | h <;> simp only [Holds] at hm hn <;> omega

@[simp] lemma inUse_append (bs : List Outstanding) :
    m.inUse ps (as ++ bs) = m.inUse ps as + m.inUse ps bs := by
  simp [inUse]

lemma inUse_cons_of_holds (h : m.Holds ps a) : m.inUse ps (a :: as) = a.size + m.inUse ps as := by
  simp [inUse, h]

lemma inUse_cons_of_not_holds (h : ¬ m.Holds ps a) : m.inUse ps (a :: as) = m.inUse ps as := by
  simp [inUse, h]

lemma inUse_eq_zero (h : ∀ a ∈ as, ¬ m.Holds ps a) : m.inUse ps as = 0 := by
  have hnil : as.filter (m.Holds ps) = [] := by simpa [List.filter_eq_nil_iff] using h
  rw [inUse, hnil]
  rfl

lemma size_le_inUse (ha : a ∈ as) (h : m.Holds ps a) : a.size ≤ m.inUse ps as := by
  obtain ⟨bs, cs, rfl⟩ := List.append_of_mem ha
  rw [inUse_append, inUse_cons_of_holds h]
  omega

end FRegion

/-! ### The invariant -/

namespace MappedFile

/-- Regions have memory of their own, count the bytes that are handed out of them, and every pointer
is known by the region that it was allocated from. -/
structure Inv (f : MappedFile τ) : Prop where
  defined : f.undefined = false
  key : ∀ k, ∀ m ∈ f.mappings.lookup k, m.basePage = k
  mem : ∀ k, ∀ m ∈ f.mappings.lookup k, (m.base, m.pages * f.file.pageSize) ∈ f.mem
  pages : ∀ k, ∀ m ∈ f.mappings.lookup k, 0 < m.pages
  apart : ∀ k, ∀ m ∈ f.mappings.lookup k, ∀ l, ∀ n ∈ f.mappings.lookup l, k ≠ l →
    m.Apart f.file.pageSize n
  used : ∀ k, ∀ m ∈ f.mappings.lookup k, m.used = m.inUse f.file.pageSize f.outstanding
  placed : ∀ a ∈ f.outstanding, ∃ fa m, f.allocs.lookup a.ptr = some fa ∧
    f.mappings.lookup fa.page = some m ∧ m.Placed f.file.pageSize a

end MappedFile

lemma gleb_of_mem {β : Type*} {m : OrderedMap β} {x : ℕ} (h : x ∈ m) : gleb m x = some (some x) := by
  simp [gleb, OrderedMap.lowerBound_of_mem h]

lemma gleb_eq_some {β : Type*} {m : OrderedMap β} {x k : ℕ} (h : gleb m x = some (some k)) :
    k ∈ m ∧ k ≤ x ∧ (x ∈ m → k = x) := by
  unfold gleb at h
  split at h
  · rename_i hnone
    obtain ⟨hk, -⟩ := OrderedMap.mem_of_last (Option.some.inj h)
    have hlt := OrderedMap.lowerBound_eq_none hnone
    exact ⟨hk, (hlt k hk).le, fun hx => absurd (hlt x hx) (lt_irrefl x)⟩
  · rename_i j hj
    obtain ⟨hmem, hle, hleast⟩ := OrderedMap.lowerBound_eq_some hj
    split_ifs at h with hjx
    · cases h
      exact ⟨hmem, hjx.le, fun _ => hjx⟩
    · obtain ⟨i, hi, heq⟩ := Option.map_eq_some_iff.mp h
      cases heq
      obtain ⟨hk, hlt, -⟩ := OrderedMap.pred_eq_some hi
      refine ⟨hk, ?_, fun hx => absurd (le_antisymm (hleast x hx le_rfl) hle) hjx⟩
      by_contra hlt'
      exact absurd (hleast k hk (by omega)) (by omega)

lemma gleb_eq_end {β : Type*} {m : OrderedMap β} {x : ℕ} (h : gleb m x = some none) (k : ℕ) :
    k ∉ m := by
  unfold gleb at h
  split at h
  · exact OrderedMap.notMem_of_last (Option.some.inj h) k
  · split_ifs at h
    · cases h
    · obtain ⟨i, -, heq⟩ := Option.map_eq_some_iff.mp h
      cases heq

namespace MappedFile

/-- The invariant is what was promised. -/
lemma Inv.consistent (h : f.Inv) : f.Consistent := by
  refine ⟨h.defined, fun a ha => ?_⟩
  obtain ⟨fa, m, hfa, hm, hplaced⟩ := h.placed a ha
  refine ⟨fa, m, hfa, hm, hplaced.holds.1, hplaced.le, h.mem _ m hm, ?_⟩
  have hgleb : gleb f.allocs a.ptr = some (some a.ptr) :=
    gleb_of_mem (AList.lookup_isSome.mp (by rw [hfa]; rfl))
  have hpos := hplaced.pos
  have hoffset : f.file.pageSize * m.basePage + (a.ptr - m.base) = a.pos := by
    rw [hplaced.ptr, Nat.mul_comm]
    omega
  simp [unsafeOffsetOfVal, hgleb, hfa, hm, ImageFile.pageOffset, hoffset]

/-! ### Requests -/

/-- A new region goes under a key that is not above the page asked for, and is taken only if that
page is the key of a region. -/
lemma Inv.newRegion (h : f.Inv) (page pages : ℕ) : (f.newRegion page pages).1 ≤ page ∧
    ((f.newRegion page pages).1 ∈ f.mappings → page ∈ f.mappings) := by
  simp only [MappedFile.newRegion, closeGap]
  split
  · exact ⟨le_rfl, id⟩
  · rename_i mr hmr
    obtain ⟨k, hlast, hk⟩ := Option.bind_eq_some_iff.mp hmr
    split_ifs with hgap
    · refine ⟨hgap.le, fun hmem => ?_⟩
      have hle := (OrderedMap.mem_of_last hlast).2 _ hmem
      have hkey := h.key k mr hk
      have hpages := h.pages k mr hk
      omega
    · exact ⟨le_rfl, id⟩

lemma createFileRegionMap_eq_some {page pages base k : ℕ}
    (hs : f.createFileRegionMap page pages base = some (f', k)) :
    k = (f.newRegion page pages).1 ∧ 0 < (f.newRegion page pages).2 ∧
      (∀ r ∈ f.mem, r.1 + r.2 ≤ base ∨
        base + (f.newRegion page pages).2 * f.file.pageSize ≤ r.1) ∧
      f' = { f with
        mappings := f.mappings.insert k ⟨k, (f.newRegion page pages).2, base, 0⟩
        mem := (base, (f.newRegion page pages).2 * f.file.pageSize) :: f.mem } := by
  simp only [createFileRegionMap, Option.ite_none_right_eq_some, Option.some.injEq,
    Prod.mk.injEq] at hs
  obtain ⟨⟨hpos, hfresh⟩, rfl, rfl⟩ := hs
  exact ⟨rfl, hpos, hfresh, rfl⟩

/-- A region is made under a key of its own. -/
lemma Inv.createFileRegionMap {page pages base k : ℕ} (h : f.Inv)
    (hkey : (f.newRegion page pages).1 ∉ f.mappings)
    (hs : f.createFileRegionMap page pages base = some (f', k)) :
    f'.Inv ∧ f'.mappings.lookup k = some ⟨k, (f.newRegion page pages).2, base, 0⟩ := by
  obtain ⟨rfl, hpos, hfresh, rfl⟩ := createFileRegionMap_eq_some hs
  set new := f.newRegion page pages with hnew
  let r : FRegion := ⟨new.1, new.2, base, 0⟩
  have hlookup : ∀ l, ∀ m ∈ (f.mappings.insert new.1 r).lookup l,
      (l = new.1 ∧ m = r) ∨ (l ≠ new.1 ∧ m ∈ f.mappings.lookup l) := by
    intro l m hm
    by_cases hl : l = new.1
    · rw [hl, AList.lookup_insert] at hm
      exact .inl ⟨hl, (Option.some.inj hm).symm⟩
    · rw [AList.lookup_insert_ne hl] at hm
      exact .inr ⟨hl, hm⟩
  have hapart : ∀ l, ∀ m ∈ f.mappings.lookup l, m.Apart f.file.pageSize r :=
    fun l m hm => hfresh _ (h.mem l m hm)
  refine ⟨⟨h.defined, ?_, ?_, ?_, ?_, ?_, ?_⟩, AList.lookup_insert _⟩
  · intro l m hm
    rcases hlookup l m hm with ⟨rfl, rfl⟩ | ⟨-, hm⟩
    · rfl
    · exact h.key l m hm
  · intro l m hm
    rcases hlookup l m hm with ⟨rfl, rfl⟩ | ⟨-, hm⟩
    · exact List.mem_cons_self
    · exact List.mem_cons_of_mem _ (h.mem l m hm)
  · intro l m hm
    rcases hlookup l m hm with ⟨rfl, rfl⟩ | ⟨-, hm⟩
    · exact hpos
    · exact h.pages l m hm
  · intro l m hm l' n hn hne
    rcases hlookup l m hm with ⟨rfl, rfl⟩ | ⟨-, hm⟩ <;>
      rcases hlookup l' n hn with ⟨rfl, rfl⟩ | ⟨-, hn⟩
    · exact absurd rfl hne
    · exact (hapart l' n hn).symm
    · exact hapart l m hm
    · exact h.apart l m hm l' n hn hne
  · intro l m hm
    rcases hlookup l m hm with ⟨rfl, rfl⟩ | ⟨-, hm⟩
    · refine (FRegion.inUse_eq_zero fun a ha => ?_).symm
      obtain ⟨fa, m, -, hm, hplaced⟩ := h.placed a ha
      exact (hapart _ m hm).not_holds hplaced.holds
    · exact h.used l m hm
  · intro a ha
    obtain ⟨fa, m, hfa, hm, hplaced⟩ := h.placed a ha
    refine ⟨fa, m, hfa, ?_, hplaced⟩
    have hne : fa.page ≠ new.1 := by
      intro heq
      rw [heq] at hm
      exact hkey (AList.lookup_isSome.mp (by rw [hm]; rfl))
    exact (AList.lookup_insert_ne hne).trans hm

/-- The regions are what they were, but for their counts; some of them may be gone. -/
lemma Inv.of_same {mappings : OrderedMap FRegion} {allocs : OrderedMap FAlloc}
    {mem : List (ℕ × ℕ)} {outstanding : List Outstanding} (h : f.Inv)
    (hsame : ∀ l, ∀ m ∈ mappings.lookup l, ∃ n ∈ f.mappings.lookup l, m.Same n)
    (hmem : ∀ l, ∀ m ∈ mappings.lookup l, (m.base, m.pages * f.file.pageSize) ∈ mem)
    (hused : ∀ l, ∀ m ∈ mappings.lookup l, m.used = m.inUse f.file.pageSize outstanding)
    (hplaced : ∀ a ∈ outstanding, ∃ fa m, allocs.lookup a.ptr = some fa ∧
      mappings.lookup fa.page = some m ∧ m.Placed f.file.pageSize a) :
    Inv { f with mappings := mappings, allocs := allocs, mem := mem, outstanding := outstanding } := by
  refine ⟨h.defined, ?_, hmem, ?_, ?_, hused, hplaced⟩
  · intro l m hm
    obtain ⟨n, hn, hpage, -⟩ := hsame l m hm
    exact hpage.trans (h.key l n hn)
  · intro l m hm
    obtain ⟨n, hn, -, hpages, -⟩ := hsame l m hm
    rw [hpages]
    exact h.pages l n hn
  · intro l m hm l' m' hm' hne
    obtain ⟨n, hn, -, hpages, hbase⟩ := hsame l m hm
    obtain ⟨n', hn', -, hpages', hbase'⟩ := hsame l' m' hm'
    rw [FRegion.Apart, hpages, hbase, hpages', hbase']
    exact h.apart l n hn l' n' hn' hne

/-- The rest of `mapFileData`, once the region is found. -/
lemma Inv.serve {pos sz k : ℕ} {r : FRegion} (h : f.Inv) (hr : f.mappings.lookup k = some r)
    (hpage : r.basePage ≤ pos / f.file.pageSize)
    (hfits : pos + sz ≤ (r.basePage + r.pages) * f.file.pageSize) (hsz : 0 < sz)
    (hused : r.used + sz < 2 ^ 64) :
    let result := r.base + f.file.pageSize * (pos / f.file.pageSize - r.basePage) +
      pos % f.file.pageSize
    Inv { f with
      mappings := f.mappings.insert k { r with used := (r.used + sz) % 2 ^ 64 }
      allocs := f.allocs.insert result ⟨r.basePage, sz⟩
      outstanding := ⟨result, pos, sz⟩ :: f.outstanding } := by
  intro result
  set ps := f.file.pageSize with hpsdef
  let r' : FRegion := { r with used := (r.used + sz) % 2 ^ 64 }
  let a : Outstanding := ⟨result, pos, sz⟩
  have hkey : r.basePage = k := h.key k r hr
  have hbase : r.basePage * ps ≤ pos := by
    calc r.basePage * ps ≤ pos / ps * ps := Nat.mul_le_mul_right ps hpage
      _ ≤ pos := Nat.div_mul_le_self pos ps
  have hplaced : r.Placed ps a := by
    refine ⟨hbase, ?_, hfits, hsz⟩
    have hdiv := Nat.div_add_mod pos ps
    have hsub : ps * (pos / ps - r.basePage) = ps * (pos / ps) - r.basePage * ps := by
      rw [Nat.mul_sub, Nat.mul_comm ps r.basePage]
    have hle : r.basePage * ps ≤ ps * (pos / ps) := by
      rw [Nat.mul_comm ps]
      exact Nat.mul_le_mul_right ps hpage
    change r.base + ps * (pos / ps - r.basePage) + pos % ps = r.base + (pos - r.basePage * ps)
    omega
  have hlookup : ∀ l, ∀ m ∈ (f.mappings.insert k r').lookup l,
      (l = k ∧ m = r') ∨ (l ≠ k ∧ m ∈ f.mappings.lookup l) := by
    intro l m hm
    by_cases hl : l = k
    · rw [hl, AList.lookup_insert] at hm
      exact .inl ⟨hl, (Option.some.inj hm).symm⟩
    · rw [AList.lookup_insert_ne hl] at hm
      exact .inr ⟨hl, hm⟩
  have hsame : ∀ l, ∀ m ∈ (f.mappings.insert k r').lookup l, ∃ n ∈ f.mappings.lookup l, m.Same n := by
    intro l m hm
    rcases hlookup l m hm with ⟨rfl, rfl⟩ | ⟨-, hm⟩
    · exact ⟨r, hr, rfl, rfl, rfl⟩
    · exact ⟨m, hm, rfl, rfl, rfl⟩
  refine h.of_same hsame (fun l m hm => ?_) ?_ ?_
  · obtain ⟨n, hn, -, hpages, hbase⟩ := hsame l m hm
    rw [hpages, hbase]
    exact h.mem l n hn
  · intro l m hm
    rcases hlookup l m hm with ⟨rfl, rfl⟩ | ⟨hne, hm⟩
    · have hcount : r'.inUse ps (a :: f.outstanding) = sz + r.inUse ps f.outstanding :=
        FRegion.inUse_cons_of_holds (m := r) hplaced.holds
      rw [hcount, ← h.used _ r hr, Nat.add_comm sz]
      exact Nat.mod_eq_of_lt hused
    · rw [h.used l m hm]
      exact (FRegion.inUse_cons_of_not_holds
        ((h.apart k r hr l m hm (Ne.symm hne)).not_holds hplaced.holds)).symm
  · intro b hb
    have hr' : (f.mappings.insert k r').lookup r.basePage = some r' := by
      rw [hkey]
      exact AList.lookup_insert _
    rcases List.mem_cons.mp hb with rfl | hb
    · exact ⟨⟨r.basePage, sz⟩, r', AList.lookup_insert _, hr',
        hplaced.pos, hplaced.ptr, hplaced.fits, hplaced.size⟩
    obtain ⟨fa, m, hfa, hm, hb⟩ := h.placed b hb
    by_cases hkm : fa.page = k
    · obtain rfl : r = m := Option.some.inj ((hkm ▸ hr : f.mappings.lookup fa.page = some r).symm.trans hm)
      have hb' : r'.Placed ps b := ⟨hb.pos, hb.ptr, hb.fits, hb.size⟩
      by_cases hptr : b.ptr = result
      · exact ⟨⟨r.basePage, sz⟩, r', by rw [hptr]; exact AList.lookup_insert _, hr', hb'⟩
      · refine ⟨fa, r', (AList.lookup_insert_ne hptr).trans hfa, ?_, hb'⟩
        rw [hkm]
        exact AList.lookup_insert _
    · have hptr : b.ptr ≠ result := by
        intro hptr
        have hholds : r.Holds ps b := by
          rw [FRegion.Holds, hptr]
          exact hplaced.holds
        exact (h.apart fa.page m hm k r hr hkm).not_holds hb.holds hholds
      exact ⟨fa, m, (AList.lookup_insert_ne hptr).trans hfa,
        (AList.lookup_insert_ne hkm).trans hm, hb⟩

/-- The region that serves a request. -/
lemma Inv.mappedFileRegion {pos sz base k : ℕ} {g : MappedFile τ} (h : f.Inv)
    (hserves : f.Serves pos sz = true)
    (hs : f.mappedFileRegion (pos / f.file.pageSize) (f.file.pageCount sz) base = some (g, k)) :
    g.Inv ∧ g.file = f.file ∧ ∃ r, g.mappings.lookup k = some r ∧
      r.basePage ≤ pos / f.file.pageSize ∧
      pos + sz ≤ (r.basePage + r.pages) * f.file.pageSize ∧ r.used + sz < 2 ^ 64 := by
  simp only [MappedFile.mappedFileRegion, Serves] at hs hserves
  set page := pos / f.file.pageSize
  set pages := f.file.pageCount sz
  obtain ⟨hle, hmem⟩ := h.newRegion page pages
  -- a region that is made
  have hnew : page ∉ f.mappings → f.createFileRegionMap page pages base = some (g, k) →
      pos + sz ≤ ((f.newRegion page pages).1 + (f.newRegion page pages).2) * f.file.pageSize ∧
        sz < 2 ^ 64 → g.Inv ∧ g.file = f.file ∧ ∃ r, g.mappings.lookup k = some r ∧
      r.basePage ≤ page ∧ pos + sz ≤ (r.basePage + r.pages) * f.file.pageSize ∧
      r.used + sz < 2 ^ 64 := by
    intro hpage hs hfits
    obtain ⟨hg, hr⟩ := h.createFileRegionMap (mt hmem hpage) hs
    obtain ⟨rfl, -, -, rfl⟩ := createFileRegionMap_eq_some hs
    exact ⟨hg, rfl, _, hr, hle, hfits.1, by simpa using hfits.2⟩
  cases hgleb : gleb f.mappings page with
  | none => simp [hgleb] at hserves
  | some o =>
    cases o with
    | none =>
      simp only [hgleb, decide_eq_true_eq] at hs hserves
      exact hnew (gleb_eq_end hgleb page) hs hserves
    | some j =>
      obtain ⟨hj, -, hjpage⟩ := gleb_eq_some hgleb
      obtain ⟨r, hr⟩ := Option.isSome_iff_exists.mp (AList.lookup_isSome.mpr hj)
      simp only [hgleb, hr, Option.bind_some, Option.all_some] at hs hserves
      split_ifs at hs hserves with hin
      · simp only [decide_eq_true_eq] at hserves
        cases hs
        exact ⟨h, rfl, r, hr, hin.1, hserves.1, hserves.2⟩
      · simp only [Bool.and_eq_true, decide_eq_true_eq] at hserves
        exact hnew (fun hpage => hserves.1 (hjpage hpage)) hs hserves.2

/-- A request that the regions can serve is served. -/
lemma Inv.mapFileData {pos sz base : ℕ} (h : f.Inv) (hsz : 0 < sz) (hserves : f.Serves pos sz = true)
    (hs : f.mapFileData pos sz base = some f') : f'.Inv := by
  simp only [MappedFile.mapFileData, Option.bind_eq_bind, Option.bind_eq_some_iff] at hs
  obtain ⟨⟨g, k⟩, hregion, hs⟩ := hs
  obtain ⟨hg, hfile, r, hr, hpage, hfits, hused⟩ := h.mappedFileRegion hserves hregion
  rw [← hfile] at hpage hfits hs
  rw [if_neg (by simp [hg.defined]), hr] at hs
  obtain rfl := Option.some.inj hs
  exact hg.serve hr hpage hfits hsz hused

/-! ### Pointers that are given back -/

/-- A pointer that was handed out once is given back. -/
lemma Inv.unmap {p sz : ℕ} (h : f.Inv)
    (honce : (f.outstanding.filter (·.ptr = p)).map (·.size) = [sz]) :
    Inv { f.unmapFileData p sz with outstanding := f.outstanding.eraseP (·.ptr = p) } := by
  obtain ⟨a, hfilter, rfl⟩ := List.map_eq_singleton_iff.mp honce
  obtain ⟨ha, haptr⟩ := List.mem_filter.mp (hfilter ▸ List.mem_singleton_self a)
  obtain rfl : a.ptr = p := by simpa using haptr
  obtain ⟨c, as, bs, has, hc, hsplit, herase⟩ :=
    List.exists_of_eraseP (p := fun b => b.ptr = a.ptr) ha haptr
  -- the other pointers are other ones
  have hc' : c = a ∧ bs.filter (·.ptr = a.ptr) = [] := by
    have hnil : as.filter (·.ptr = a.ptr) = [] := List.filter_eq_nil_iff.mpr has
    rw [hsplit, List.filter_append, hnil, List.nil_append,
      List.filter_cons, if_pos hc] at hfilter
    exact List.cons.inj hfilter
  obtain ⟨rfl, hbs⟩ := hc'
  have hother : ∀ b ∈ as ++ bs, b ∈ f.outstanding ∧ b.ptr ≠ c.ptr := by
    intro b hb
    rw [hsplit]
    rcases List.mem_append.mp hb with hb | hb
    · exact ⟨List.mem_append_left _ hb, by simpa using has b hb⟩
    · exact ⟨List.mem_append_right _ (List.mem_cons_of_mem _ hb),
        by simpa using List.filter_eq_nil_iff.mp hbs b hb⟩
  obtain ⟨fa, m, hfa, hm, hplaced⟩ := h.placed c ha
  have hkey := h.key _ m hm
  have hused : m.used = m.inUse f.file.pageSize (as ++ bs) + c.size := by
    rw [h.used _ m hm, hsplit, FRegion.inUse_append, FRegion.inUse_cons_of_holds hplaced.holds,
      FRegion.inUse_append]
    omega
  have hother_used : ∀ l, ∀ n ∈ f.mappings.lookup l, l ≠ fa.page → n.used = n.inUse f.file.pageSize (as ++ bs) := by
    intro l n hn hne
    have hnot := (h.apart _ m hm l n hn (Ne.symm hne)).not_holds hplaced.holds
    rw [h.used l n hn, hsplit, FRegion.inUse_append, FRegion.inUse_cons_of_not_holds hnot,
      FRegion.inUse_append]
  rw [herase]
  simp only [unmapFileData, hfa, hm]
  split_ifs with hlt
  · -- the region stays
    have hlookup : ∀ l, ∀ n ∈ (f.mappings.insert fa.page { m with used := m.used - c.size }).lookup l,
        (l = fa.page ∧ n = { m with used := m.used - c.size }) ∨
          (l ≠ fa.page ∧ n ∈ f.mappings.lookup l) := by
      intro l n hn
      by_cases hl : l = fa.page
      · rw [hl, AList.lookup_insert] at hn
        exact .inl ⟨hl, (Option.some.inj hn).symm⟩
      · rw [AList.lookup_insert_ne hl] at hn
        exact .inr ⟨hl, hn⟩
    refine h.of_same (fun l n hn => ?_) (fun l n hn => ?_) (fun l n hn => ?_) fun b hb => ?_
    · rcases hlookup l n hn with ⟨rfl, rfl⟩ | ⟨-, hn⟩
      · exact ⟨m, hm, rfl, rfl, rfl⟩
      · exact ⟨n, hn, rfl, rfl, rfl⟩
    · rcases hlookup l n hn with ⟨rfl, rfl⟩ | ⟨-, hn⟩
      · exact h.mem _ m hm
      · exact h.mem l n hn
    · rcases hlookup l n hn with ⟨rfl, rfl⟩ | ⟨hne, hn⟩
      · exact Nat.sub_eq_of_eq_add hused
      · exact hother_used l n hn hne
    · obtain ⟨hb, hptr⟩ := hother b hb
      obtain ⟨fb, n, hfb, hn, hb⟩ := h.placed b hb
      refine ⟨fb, if fb.page = fa.page then { m with used := m.used - c.size } else n,
        (AList.lookup_erase_ne hptr).trans hfb, ?_, ?_⟩
      · split_ifs with hpage
        · rw [hpage]
          exact AList.lookup_insert _
        · exact (AList.lookup_insert_ne hpage).trans hn
      · split_ifs with hpage
        · obtain rfl : m = n := Option.some.inj (hm.symm.trans (hpage ▸ hn))
          exact ⟨hb.pos, hb.ptr, hb.fits, hb.size⟩
        · exact hb
  · -- the region is released: nothing else lies in it
    have hnone : ∀ b ∈ as ++ bs, ¬ m.Holds f.file.pageSize b := by
      intro b hb hholds
      obtain ⟨fb, n, -, -, hb'⟩ := h.placed b (hother b hb).1
      have hsize := FRegion.size_le_inUse hb hholds
      have hpos := hb'.size
      omega
    have hlookup : ∀ l, ∀ n ∈ (f.mappings.erase fa.page).lookup l,
        l ≠ fa.page ∧ n ∈ f.mappings.lookup l := by
      intro l n hn
      by_cases hl : l = fa.page
      · rw [hl, AList.lookup_erase] at hn
        cases hn
      · rw [AList.lookup_erase_ne hl] at hn
        exact ⟨hl, hn⟩
    refine h.of_same (fun l n hn => ?_) (fun l n hn => ?_) (fun l n hn => ?_) fun b hb => ?_
    · exact ⟨n, (hlookup l n hn).2, rfl, rfl, rfl⟩
    · obtain ⟨hne, hn⟩ := hlookup l n hn
      refine (List.mem_erase_of_ne ?_).mpr (h.mem l n hn)
      intro heq
      have hapart := h.apart _ m hm l n hn (Ne.symm hne)
      have hbase := congrArg Prod.fst heq
      have hpos : 0 < m.pages * f.file.pageSize := by
        have := hplaced.le
        have := hplaced.holds.1
        have := hplaced.size
        omega
      have hlen := congrArg Prod.snd heq
      simp only [FRegion.Apart] at hapart hbase hlen
      omega
    · obtain ⟨hne, hn⟩ := hlookup l n hn
      exact hother_used l n hn hne
    · obtain ⟨hb', hptr⟩ := hother b hb
      obtain ⟨fb, n, hfb, hn, hplaced'⟩ := h.placed b hb'
      refine ⟨fb, n, (AList.lookup_erase_ne hptr).trans hfb, ?_, hplaced'⟩
      have hne : fb.page ≠ fa.page := by
        intro hpage
        obtain rfl : m = n := Option.some.inj (hm.symm.trans (hpage ▸ hn))
        exact hnone b hb hplaced'.holds
      exact (AList.lookup_erase_ne hne).trans hn

lemma open_inv (file : ImageFile τ) : (MappedFile.open file).Inv := by
  refine ⟨rfl, ?_, ?_, ?_, ?_, ?_, by simp [MappedFile.open]⟩
  all_goals intro k m hm; simp [MappedFile.open] at hm

lemma Inv.step {e : MapEvent} (h : f.Inv) (he : e.Careful f) (hs : f.step e = some f') : f'.Inv := by
  cases e with
  | map pos size base =>
    simp only [MappedFile.step, Option.ite_none_right_eq_some] at hs
    exact h.mapFileData he.1 he.2 hs.2
  | unmap ptr size =>
    simp only [MappedFile.step, Option.ite_none_right_eq_some, Option.some.injEq] at hs
    exact hs.2 ▸ h.unmap he

end MappedFile

/-- In every run in which each request gets along with the region that serves it, and each pointer is
given back once, every pointer lies in the memory of its region and leads back to its position. -/
theorem MappedFile.consistent_of_careful (file : ImageFile τ) {es : List MapEvent}
    (hs : runEvents (guarded MapEvent.Careful MappedFile.step) es (MappedFile.open file) = some f) :
    f.Consistent := by
  refine ((Reachable.start.runEvents hs).invariant (open_inv file) fun e s s' h hs => ?_).consistent
  obtain ⟨he, hs⟩ := guarded_eq_some.mp hs
  exact h.step he hs

/-- A file of two gigabytes. -/
def twoGigabytes : ImageFile Unit where
  pageSize := 4096
  version := 1
  fileSize := 2 ^ 31
  headTocPos := 10
  tocpages := [0]
  pages := []
  freespace _ := []
  bindings _ := none
  disk := Disk.blank

/-- Two ranges of one region are mapped, the first one twice after it was given back. -/
theorem MappedFile.consistent_of_careful_three : ∃ f,
    runEvents (guarded MapEvent.Careful MappedFile.step)
      [.map 5000 100 (2 ^ 32), .map 8192 5000 0, .unmap (2 ^ 32 + 904) 100, .map 5000 200 0]
      (MappedFile.open twoGigabytes) = some f ∧ f.Consistent := by
  have hrun : (runEvents (guarded MapEvent.Careful MappedFile.step)
      [.map 5000 100 (2 ^ 32), .map 8192 5000 0, .unmap (2 ^ 32 + 904) 100, .map 5000 200 0]
      (MappedFile.open twoGigabytes)).isSome = true := by decide +kernel
  obtain ⟨f, hs⟩ := Option.isSome_iff_exists.mp hrun
  exact ⟨f, hs, MappedFile.consistent_of_careful _ hs⟩

/-- A request for the first page of a mapped region, that reaches past the region, takes its place:
the pointer that was handed out before does not lie in the memory that the table has for it. -/
theorem MappedFile.not_consistent_replaced : ∃ f,
    runEvents MappedFile.step [.map 0 10 (2 ^ 32), .map 0 (2 ^ 30 + 1) (2 ^ 40)]
      (MappedFile.open twoGigabytes) = some f ∧ ¬ f.Consistent := by
  have hrun : (runEvents MappedFile.step [.map 0 10 (2 ^ 32), .map 0 (2 ^ 30 + 1) (2 ^ 40)]
      (MappedFile.open twoGigabytes)).map (fun f => (f.outstanding.map (·.ptr),
        (f.allocs.lookup (2 ^ 32)).map (·.page), (f.mappings.lookup 0).map (·.base))) =
      some ([2 ^ 40, 2 ^ 32], some 0, some (2 ^ 40)) := by decide +kernel
  obtain ⟨f, hs, hf⟩ := Option.map_eq_some_iff.mp hrun
  refine ⟨f, hs, fun h => ?_⟩
  simp only [Prod.mk.injEq, Option.map_eq_some_iff] at hf
  obtain ⟨hptrs, ⟨fa, hfa, hpage⟩, m, hm, hbase⟩ := hf
  have hmem : 2 ^ 32 ∈ f.outstanding.map (·.ptr) := by
    rw [hptrs]
    simp
  obtain ⟨a, ha, haptr⟩ := List.mem_map.mp hmem
  obtain ⟨fa', m', hfa', hm', hle, -⟩ := h.outstanding a ha
  rw [haptr, hfa] at hfa'
  obtain rfl := Option.some.inj hfa'
  rw [hpage, hm] at hm'
  obtain rfl := Option.some.inj hm'
  rw [hbase, haptr] at hle
  exact absurd hle (by decide)

end Hobbes.Db
