import Hobbes.Core.Disk
import Mathlib.Logic.Function.Basic

/-!
# Database files

An image file is what is kept of it in memory and the bytes that are on disk. A function that throws,
fails an assertion or makes the operating system refuse has no result.
-/

namespace Hobbes.Db

open Core

/-! ### Page descriptors -/

inductive PageType where
  | null
  | toc
  | environment
  | data
  deriving DecidableEq

def PageType.encode : PageType → ℕ
  | .null => 0
  | .toc => 1
  | .environment => 2
  | .data => 3

def PageType.decode : ℕ → PageType
  | 0 => .null
  | 1 => .toc
  | 2 => .environment
  | _ => .data

/-- A page's type and how many bytes at its end are free. -/
structure PageData where
  type : PageType
  size : Fin (2 ^ 14)
  deriving DecidableEq

def PageData.make (pt : PageType) (sz : ℕ) : PageData := ⟨pt, Fin.ofNat (2 ^ 14) sz⟩

/-- The two bytes that a descriptor is stored as. -/
def PageData.ptfd (pd : PageData) : ℕ := pd.type.encode * 2 ^ 14 + pd.size

def PageData.ofPtfd (ptfd : ℕ) : PageData := .make (.decode (ptfd / 2 ^ 14)) ptfd

/-! ### The file -/

structure Binding (τ : Type) where
  type : τ
  offset : ℕ
  boffset : ℕ

/-- What the file needs to know of types: their alignment, their binary codec, and the file
reference type that version 0 left implicit. -/
structure Types (τ : Type) where
  alignment : τ → Option ℕ
  encode : τ → Bytes
  decode : Bytes → Option τ
  fileref : τ → τ

structure ImageFile (τ : Type) where
  pageSize : ℕ
  version : ℕ
  fileSize : ℕ
  headTocPos : ℕ
  /-- toc page to absolute page -/
  tocpages : List ℕ
  pages : List PageData
  /-- pages of a type, those with much free space first -/
  freespace : PageType → List ℕ
  bindings : Bytes → Option (Binding τ)
  disk : Disk

namespace ImageFile

variable {τ : Type} (T : Types τ) (f : ImageFile τ)

def restInPage (idx : ℕ) : ℕ := f.pageSize - idx % f.pageSize

def pageCount (sz : ℕ) : ℕ := sz / f.pageSize + if 0 < sz % f.pageSize then 1 else 0

def write (pos : ℕ) (bs : Bytes) : ImageFile τ := { f with disk := f.disk.write pos bs }

/-- Read at a position, which has to be one that fits a file offset. -/
def readAt {α : Type} (r : Reader (2 ^ 64) α) (pos : ℕ) : Option (α × ℕ) :=
  if h : pos < 2 ^ 64 then
    (r (f.disk.read 0 f.fileSize) ⟨pos, h⟩).map fun p => (p.1, p.2.val)
  else none

/-- `ftruncate` takes a signed offset. -/
def allocPages (pages : ℕ) : Option (ImageFile τ) :=
  let nsz := f.fileSize + pages * f.pageSize
  if nsz < 2 ^ 63 then some { f with fileSize := nsz } else none

def pageOffset (page : ℕ) : ℕ := f.pageSize * page

def position (page offset : ℕ) : ℕ := f.pageOffset page + offset

/-- The size of a file header and of the link at the end of a page of descriptors. -/
abbrev headSize : ℕ := 8

abbrev linkSize : ℕ := 8

/-- Where a page has its descriptor. -/
def pageTOCPosition (page : ℕ) : Option ℕ :=
  let firstTPCount := (f.pageSize - headSize - linkSize) / 2
  if page < firstTPCount then some (headSize + page * 2)
  else
    let page := page - firstTPCount
    let restTPCount := (f.pageSize - linkSize) / 2
    let tpage := page / restTPCount + 1
    let offset := page % restTPCount * 2
    f.tocpages[tpage]?.map fun p => p * f.pageSize + offset

/-! ### The index of free space -/

/-- The free space of a page. -/
def spaceIn (page : ℕ) : ℕ := (f.pages[page]?.map fun pd => pd.size.val).getD 0

/-- Move a page back behind those that have more free space. -/
def sink (size : ℕ → ℕ) (page : ℕ) : List ℕ → List ℕ
  | [] => [page]
  | p :: rest => if size page < size p then p :: sink size page rest else page :: p :: rest

def resink (size : ℕ → ℕ) (page : ℕ) : List ℕ → List ℕ
  | [] => []
  | p :: rest => if p = page then sink size p rest else p :: resink size page rest

def updatePageSizeIndex (page : ℕ) (pt : PageType) : ImageFile τ :=
  { f with
    freespace := Function.update f.freespace pt (resink f.spaceIn page (f.freespace pt)) }

/-- The place in the index is looked up as if it were the table of pages. -/
def insertPageSizeIndex (page : ℕ) (pd : PageData) : ImageFile τ :=
  if pd.size < 30 then f
  else
    let pord := f.freespace pd.type
    let k := ((List.range pord.length).find? fun i => f.spaceIn i < pd.size).getD pord.length
    { f with freespace := Function.update f.freespace pd.type ((pord.insertIdx k page).take 200) }

/-- Sizes are 64-bit, and so is the sum that is compared. -/
def findPageWithSpace (pt : PageType) (datalen alignment : ℕ) : Option ℕ :=
  match f.freespace pt with
  | [] => none
  | p :: _ =>
    let pad := (f.pageSize - f.spaceIn p) % alignment
    if f.spaceIn p < (datalen + pad) % 2 ^ 64 then none else some p

/-! ### The page table -/

def updateTOCData (page : ℕ) (pd : PageData) : Option (ImageFile τ) := do
  let opd ← f.pages[page]?
  guard (pd.size ≤ opd.size)
  let f := { f with pages := f.pages.set page pd }
  let pos ← f.pageTOCPosition page
  return (f.write pos (leBytes 2 pd.ptfd)).updatePageSizeIndex page pd.type

/-- The first loop of `appendTOCData`. -/
def pushPage (pd : PageData) : ImageFile τ :=
  let page := f.pages.length
  let f := { f with pages := f.pages ++ [pd] }
  let f := f.insertPageSizeIndex page pd
  if pd.type = .toc then { f with tocpages := f.tocpages ++ [page] } else f

/-- How many of the descriptors `newpages` fit in front of the link. -/
def slotsWrite (newpages : List PageData) : ℕ :=
  let relpos := f.headTocPos % f.pageSize
  let bytesAvail := f.pageSize - relpos - linkSize
  min (bytesAvail / 2) newpages.length

def writeSlots (newpages : List PageData) : ImageFile τ :=
  let slots := (newpages.take (f.slotsWrite newpages)).flatMap fun pd => leBytes 2 pd.ptfd
  { f.write f.headTocPos slots with headTocPos := f.headTocPos + f.slotsWrite newpages * 2 }

/-- Link a full page of descriptors to a new one, the next after `newtocpages` others. -/
def linkTOCPage (newtocpages : ℕ) : Option (ImageFile τ) := do
  let linkPos := f.headTocPos
  let f' ← { f with headTocPos := f.fileSize }.allocPages 1
  let nextpage := f.pages.length + (newtocpages + 1) - 1
  return f'.write linkPos (leBytes 8 nextpage)

/-- The second loop of `appendTOCData`: write the descriptors `newpages`, making new pages for them
as necessary. Each turn writes at least one. -/
def writeTOCData : ℕ → ImageFile τ → List PageData → List PageData →
    Option (ImageFile τ × List PageData)
  | _, f, newtocpages, [] => some (f, newtocpages)
  | 0, _, _, _ :: _ => none
  | fuel + 1, f, newtocpages, pd :: newpages => do
    let rest := (pd :: newpages).drop (f.slotsWrite (pd :: newpages))
    let f := f.writeSlots (pd :: newpages)
    if f.restInPage f.headTocPos = linkSize then
      let f ← f.linkTOCPage newtocpages.length
      writeTOCData fuel f (newtocpages ++ [.make .toc 0]) rest
    else writeTOCData fuel f newtocpages rest

/-- `appendTOCData`, with a bound on how often it calls itself for the pages it makes. -/
def appendTOCData : ℕ → ImageFile τ → List PageData → Option (ImageFile τ)
  | 0, _, _ => none
  | fuel + 1, f, newpages => do
    let (f, newtocpages) ← writeTOCData newpages.length (newpages.foldl pushPage f) [] newpages
    if newtocpages.length > 0 then appendTOCData fuel f newtocpages else return f

/-! ### Allocation -/

/-- The descriptors of the pages that `findSpace` adds to the file. -/
def newPages (pt : PageType) (datalen : ℕ) : List PageData :=
  let lpallocd := datalen % f.pageSize
  List.replicate (f.pageCount datalen - 1) (.make pt 0) ++
    [if lpallocd = 0 then .make pt 0 else .make pt (f.pageSize - lpallocd)]

def findSpace (pt : PageType) (datalen alignment : ℕ) : Option (ℕ × ImageFile τ) := do
  guard (0 < datalen ∧ 0 < alignment)
  match f.findPageWithSpace pt datalen alignment with
  | some fpage =>
    let offset := f.pageSize - f.spaceIn fpage
    let pad := offset % alignment
    let f' ← f.updateTOCData fpage (.make pt (f.spaceIn fpage - (datalen + pad) % 2 ^ 64))
    return (f.position fpage (offset + pad), f')
  | none =>
    let tocdata := f.newPages pt datalen
    let f' ← f.allocPages (f.pageCount datalen)
    let f' ← f'.appendTOCData (tocdata.length + 1) tocdata
    return (f.fileSize, f')

/-! ### Bindings -/

/-- The record that stores a binding. -/
def recordBytes (vname : Bytes) (type : τ) (offset : ℕ) : Bytes :=
  leBytes 8 offset ++ (leBytes 8 vname.length ++ vname) ++
    (leBytes 8 (T.encode type).length ++ T.encode type)

def bind (vname : Bytes) (b : Binding τ) : ImageFile τ :=
  { f with bindings := Function.update f.bindings vname (some b) }

def addBinding (vname : Bytes) (type : τ) (offset : ℕ) : Option (ImageFile τ) := do
  let bsz := 8 + (8 + vname.length) + (8 + (T.encode type).length)
  let (boffset, f) ← f.findSpace .environment bsz 1
  return (f.write boffset (recordBytes T vname type offset)).bind vname ⟨type, offset, boffset⟩

/-- `writer::allocNamed`. No region of `2 ^ 63` bytes can be mapped. -/
def allocNamed (vn : Bytes) (ty : τ) (datasz : ℕ) : Option (ImageFile τ) := do
  guard ((f.bindings vn).isNone)
  let align ← T.alignment ty
  let (dloc, f) ← f.findSpace .data datasz align
  let f ← f.addBinding T vn ty dloc
  guard (datasz < 2 ^ 63)
  return f

/-! ### Opening -/

def filePrefixBytes : ℕ := 0x10a1db0d

def currentFileFormatVersion : ℕ := 1

def assertValidPageSize (psize : ℕ) : Option ℕ :=
  if psize < 256 then none
  else if psize > 2 ^ 14 - 1 then none
  else if psize % 2 ≠ 0 then none
  else some psize

def fileHead (pageSize : ℕ) : Bytes :=
  leBytes 4 filePrefixBytes ++ leBytes 2 pageSize ++ leBytes 2 currentFileFormatVersion

/-- `createFile` on an empty file, `psize` being the page size of the system. -/
def createFile (psize : ℕ) : Option (ImageFile τ) := do
  let pageSize ← assertValidPageSize psize
  let pd := PageData.make .toc 0
  return {
    pageSize
    version := currentFileFormatVersion
    fileSize := pageSize
    headTocPos := headSize + 2
    tocpages := [0]
    pages := [pd]
    freespace := fun _ => []
    bindings := fun _ => none
    disk := Disk.blank.write 0 (fileHead pageSize ++ leBytes 2 pd.ptfd) }

def readPage : Reader (2 ^ 64) PageData := do
  let ptfd ← Reader.number 2
  return .ofPtfd ptfd

/-- A descriptor that was read. -/
def addPage (pd : PageData) : ImageFile τ :=
  { f with pages := f.pages ++ [pd], headTocPos := f.headTocPos + 2 }

/-- A link that was read. -/
def followLink (nextpage : ℕ) : ImageFile τ :=
  { f with headTocPos := f.pageOffset nextpage, tocpages := f.tocpages ++ [nextpage] }

/-- `readPageData`, with a bound on the number of pages. -/
def readPageData : ℕ → ImageFile τ → Option (ImageFile τ)
  | 0, _ => none
  | fuel + 1, f => do
    let (pd, pos) ← f.readAt readPage f.headTocPos
    if pd.type = .null then return f
    let f := f.addPage pd
    if f.restInPage f.headTocPos = linkSize then
      let (nextpage, _) ← f.readAt (Reader.number 8) pos
      readPageData fuel (f.followLink nextpage)
    else readPageData fuel f

def readRecord : Reader (2 ^ 64) (ℕ × Bytes × τ) := do
  let offset ← Reader.number 8
  let vname ← Reader.counted 8
  let etype ← Reader.counted 8
  let type ← Reader.ofOption (T.decode etype)
  return (offset, vname, type)

def readEnvironmentRecord (boffset : ℕ) : Option (ImageFile τ × ℕ) := do
  let ((offset, vname, type), pos) ← f.readAt (readRecord T) boffset
  if f.version = 0 then return (f.bind vname ⟨T.fileref type, boffset, boffset⟩, pos)
  else return (f.bind vname ⟨type, offset, boffset⟩, pos)

/-- The loop of `readEnvironmentPage`, with a bound on the number of records. -/
def readEnvironmentRecords : ℕ → ImageFile τ → ℕ → Option (ImageFile τ × ℕ)
  | 0, _, _ => none
  | fuel + 1, f, pos => do
    let (f, pos) ← f.readEnvironmentRecord T pos
    let tpage := (pos - 1) / f.pageSize
    let rpos := (pos - 1) % f.pageSize + 1
    let pd ← f.pages[tpage]?
    if rpos = f.pageSize - pd.size then return (f, pos)
    else readEnvironmentRecords fuel f pos

def readEnvironmentPage (p : ℕ) : Option (ImageFile τ × ℕ) := do
  let initOffset := f.pageOffset p
  let (f, pos) ← readEnvironmentRecords T f.fileSize f initOffset
  return (f, f.pageCount (pos - initOffset))

/-- The last loop of `readFile`. -/
def readEnvironment : ℕ → ImageFile τ → ℕ → Option (ImageFile τ)
  | 0, _, _ => none
  | fuel + 1, f, p =>
    match f.pages[p]? with
    | none => some f
    | some pd =>
      if pd.type = .environment then do
        let (f, n) ← f.readEnvironmentPage T p
        readEnvironment fuel f (p + n)
      else readEnvironment fuel f (p + 1)

def readHead : Reader (2 ^ 64) (ℕ × ℕ × ℕ × PageData) := do
  let magic ← Reader.number 4
  let pagesize ← Reader.number 2
  let version ← Reader.number 2
  let pd ← readPage
  return (magic, pagesize, version, pd)

/-- What `readFile` does first: check the header, and load the first descriptor. -/
def readFileHead (fileSize : ℕ) (disk : Disk) : Option (ImageFile τ) := do
  let f : ImageFile τ := ⟨0, 0, fileSize, 0, [], [], fun _ => [], fun _ => none, disk⟩
  let ((magic, pagesize, version, pd), _) ← f.readAt readHead 0
  guard (magic = filePrefixBytes)
  guard (version ≤ currentFileFormatVersion)
  let pageSize ← assertValidPageSize pagesize
  return { f with pageSize, version, pages := [pd], tocpages := [0], headTocPos := headSize + 2 }

/-- `readFile`, in an image file of which only the size is known. -/
def readFile (fileSize : ℕ) (disk : Disk) : Option (ImageFile τ) := do
  let f ← readFileHead fileSize disk
  let f ← readPageData fileSize f
  readEnvironment T (f.pages.length + 1) f 0

end ImageFile

end Hobbes.Db
