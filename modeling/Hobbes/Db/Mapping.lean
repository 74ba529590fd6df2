import Hobbes.Core.Align
import Hobbes.Core.OrderedMap
import Hobbes.Core.Transition
import Hobbes.Db.File

/-!
# Mapping a file into memory

Parts of an image file are mapped by whole pages, and data is handed out as pointers into the
mappings. What `mmap` returns is given with each request: memory that is not in use.
-/

namespace Hobbes.Db

open Core

/-- A mapped region of the file. -/
structure FRegion where
  basePage : ℕ
  pages : ℕ
  base : ℕ
  /-- how many bytes of the region are in use -/
  used : ℕ

/-- What a pointer was allocated from. -/
structure FAlloc where
  page : ℕ
  size : ℕ

/-- History: a pointer that was handed out, and what it was handed out for. -/
structure Outstanding where
  ptr : ℕ
  pos : ℕ
  size : ℕ

structure MappedFile (τ : Type) where
  file : ImageFile τ
  mmapPageMultiple : ℕ
  mappings : OrderedMap FRegion
  allocs : OrderedMap FAlloc
  /-- the memory that is mapped: addresses and lengths -/
  mem : List (ℕ × ℕ)
  /-- history: the pointers that were not given back, the last one first -/
  outstanding : List Outstanding
  /-- history: the code has left the defined behaviour of its language -/
  undefined : Bool

/-- The greatest key that is not above a point. Below the first key, the iterator at the first
element is decremented. -/
def gleb {β : Type*} (m : OrderedMap β) (x : ℕ) : Option (Option ℕ) :=
  match m.lowerBound x with
  | none => some m.last
  | some k => if k = x then some (some k) else (m.pred k).map some

namespace MappedFile

variable {τ : Type} (f : MappedFile τ)

/-- No gaps are left in the mappings: a region behind the last one begins at its end. -/
def closeGap (page pages : ℕ) : ℕ × ℕ :=
  match f.mappings.last.bind f.mappings.lookup with
  | none => (page, pages)
  | some mr =>
    let pend := mr.basePage + mr.pages
    if pend < page then (pend, pages + (page - pend)) else (page, pages)

/-- The pages that are mapped for a region. -/
def newRegion (page pages : ℕ) : ℕ × ℕ :=
  ((f.closeGap page pages).1, roundUp (f.closeGap page pages).2 f.mmapPageMultiple)

/-- `mmap` returns `base`. It refuses to map nothing, and does not return memory that is mapped. -/
def createFileRegionMap (page pages base : ℕ) : Option (MappedFile τ × ℕ) :=
  let (page, pages) := f.newRegion page pages
  if 0 < pages ∧ ∀ r ∈ f.mem, r.1 + r.2 ≤ base ∨ base + pages * f.file.pageSize ≤ r.1 then
    some ({ f with
      mappings := f.mappings.insert page ⟨page, pages, base, 0⟩
      mem := (base, pages * f.file.pageSize) :: f.mem }, page)
  else none

/-- The key of the region that serves a request. -/
def mappedFileRegion (page pages base : ℕ) : Option (MappedFile τ × ℕ) :=
  match gleb f.mappings page with
  | none => some ({ f with undefined := true }, page)
  | some none => f.createFileRegionMap page pages base
  | some (some k) => (f.mappings.lookup k).bind fun r =>
    if r.basePage ≤ page ∧ page + pages ≤ r.basePage + r.pages then some (f, k)
    else f.createFileRegionMap page pages base

def mapFileData (fpos sz base : ℕ) : Option (MappedFile τ) := do
  let page := fpos / f.file.pageSize
  let offset := fpos % f.file.pageSize
  let (f, k) ← f.mappedFileRegion page (f.file.pageCount sz) base
  if f.undefined then return f
  let r ← f.mappings.lookup k
  let result := r.base + f.file.pageSize * (page - r.basePage) + offset
  return { f with
    mappings := f.mappings.insert k { r with used := (r.used + sz) % 2 ^ 64 }
    allocs := f.allocs.insert result ⟨r.basePage, sz⟩
    outstanding := ⟨result, fpos, sz⟩ :: f.outstanding }

/-- `munmap` of a region. -/
def releaseFileRegionMap (r : FRegion) : MappedFile τ :=
  { f with mem := f.mem.erase (r.base, r.pages * f.file.pageSize) }

/-- Where an inconsistent state makes the code throw, the pointer has been forgotten already. -/
def unmapFileData (p sz : ℕ) : MappedFile τ :=
  match f.allocs.lookup p with
  | none => f
  | some fa =>
    let f := { f with allocs := f.allocs.erase p }
    match f.mappings.lookup fa.page with
    | none => f
    | some r =>
      if sz < r.used then
        { f with mappings := f.mappings.insert fa.page { r with used := r.used - sz } }
      else { f.releaseFileRegionMap r with mappings := f.mappings.erase fa.page }

/-- Where the code throws, or decrements the first iterator, there is no offset. -/
def unsafeOffsetOfVal (isArr : Bool) (p : ℕ) : Option ℕ := do
  let q ← (gleb f.allocs p).bind id
  let fa ← f.allocs.lookup q
  let fm ← f.mappings.lookup fa.page
  return f.file.pageOffset fm.basePage + (p - fm.base) - if isArr then 8 else 0

end MappedFile

inductive MapEvent where
  /-- `mapFileData`, `base` being the memory that `mmap` finds if it is called -/
  | map (pos size base : ℕ)
  | unmap (ptr size : ℕ)

/-- Ranges inside the file are mapped, and pointers that were returned are given back. -/
def MappedFile.step {τ : Type} : MapEvent → MappedFile τ → Option (MappedFile τ)
  | .map pos size base, f =>
    if f.undefined = false ∧ pos + size ≤ f.file.fileSize then f.mapFileData pos size base else none
  | .unmap ptr size, f =>
    if f.undefined = false ∧ f.outstanding.any (·.ptr = ptr) then
      some { f.unmapFileData ptr size with outstanding := f.outstanding.eraseP (·.ptr = ptr) }
    else none

/-- A file that was just opened. -/
def MappedFile.open {τ : Type} (file : ImageFile τ) : MappedFile τ where
  file := file
  mmapPageMultiple := 262144
  mappings := ∅
  allocs := ∅
  mem := []
  outstanding := []
  undefined := false

end Hobbes.Db
