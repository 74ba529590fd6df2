import Mathlib.Algebra.Group.Nat.Even
import Mathlib.Logic.Function.Basic

/-!
# Regions of memory

A region gives out memory from the first of its used pages. A page that is full is put behind a free page, if the first
of these is large enough, or else behind a new one. The addresses that `::malloc` returns are given with the calls.
Pages are numbered in the order in which they are obtained.
-/

namespace Hobbes.Util

/-! ### Pages -/

structure MemPage where
  base : ℕ
  size : ℕ
  read : ℕ
  succ : Option ℕ

structure Region where
  minPageSize : ℕ
  maxPageSize : ℕ
  lastAllocPageSize : ℕ
  totalAllocation : ℕ
  usedp : ℕ
  freep : Option ℕ
  /-- the pages that have not been released -/
  pages : ℕ → Option MemPage
  /-- history: how many pages have been obtained, and which have been released -/
  obtained : ℕ
  released : List ℕ

/-- A `size_t`. -/
abbrev word (n : ℕ) : ℕ := n % 2 ^ 64

namespace Region

variable (r : Region)

def setPage (p : ℕ) (pg : Option MemPage) : Region := { r with pages := Function.update r.pages p pg }

@[simp]
lemma setPage_self (p : ℕ) (pg : Option MemPage) : (r.setPage p pg).pages p = pg := by
  simp [setPage]

lemma setPage_of_ne {p q : ℕ} (hq : q ≠ p) (pg : Option MemPage) : (r.setPage p pg).pages q = r.pages q := by
  simp [setPage, hq]

/-- The size that `newpage` gives a page. -/
def newPageSize (sz : ℕ) : ℕ :=
  if r.lastAllocPageSize < r.maxPageSize then max sz r.lastAllocPageSize else max sz r.maxPageSize

/-- The page is the one with the last number. -/
def newpage (base : ℕ) (succ : Option ℕ) (sz : ℕ) : Region :=
  let psz := r.newPageSize sz
  { r.setPage r.obtained (some ⟨base, psz, 0, succ⟩) with
    lastAllocPageSize :=
      if r.lastAllocPageSize < r.maxPageSize then word (r.lastAllocPageSize * 2) else r.lastAllocPageSize
    totalAllocation := word (r.totalAllocation + psz)
    obtained := r.obtained + 1 }

def allocNew (base sz : ℕ) : Region := { r.newpage base (some r.usedp) sz with usedp := r.obtained }

def allocpage (base sz : ℕ) : Option Region :=
  match r.freep with
  | none => some (r.allocNew base sz)
  | some p =>
    (r.pages p).map fun usednp =>
      if sz ≤ usednp.size then
        { r.setPage p (some { usednp with succ := some r.usedp }) with usedp := p, freep := usednp.succ }
      else r.allocNew base sz

/-- The region, and the address that is returned. -/
def malloc (base sz : ℕ) : Option (Region × ℕ) :=
  (r.pages r.usedp).bind fun p =>
    let nr := word (p.read + sz)
    if nr ≤ p.size then some (r.setPage r.usedp (some { p with read := nr }), p.base + p.read)
    else
      (r.allocpage base sz).bind fun r =>
        (r.pages r.usedp).map fun p => (r.setPage r.usedp (some { p with read := sz }), p.base)

def freepage (p : ℕ) : Option Region :=
  (r.pages p).map fun pg =>
    { r.setPage p none with
      totalAllocation := word (r.totalAllocation + 2 ^ 64 - pg.size)
      released := r.released ++ [p] }

def freepages : ℕ → Region → Option ℕ → Option Region
  | _, r, none => some r
  | 0, _, some _ => none
  | fuel + 1, r, some p => (r.pages p).bind fun pg => (r.freepage p).bind fun r => freepages fuel r pg.succ

def clear (fuel : ℕ) : Option Region :=
  (freepages fuel r r.freep).bind fun r =>
    (r.pages r.usedp).bind fun u =>
      (freepages fuel r u.succ).bind fun r =>
        (r.pages r.usedp).map fun u =>
          { r.setPage r.usedp (some { u with read := 0, succ := none }) with
            freep := none
            lastAllocPageSize := r.minPageSize }

/-- The loop of `reset`. -/
def rewind : ℕ → Region → Option ℕ → Option Region
  | _, r, none => some r
  | 0, _, some _ => none
  | fuel + 1, r, some p =>
    (r.pages p).bind fun pg =>
      let succ := if pg.succ = none then r.freep else pg.succ
      rewind fuel (r.setPage p (some { pg with read := 0, succ })) pg.succ

def reset (fuel : ℕ) : Option Region :=
  (rewind fuel r (some r.usedp)).bind fun r =>
    (r.pages r.usedp).map fun u =>
      { r.setPage r.usedp (some { u with succ := none }) with freep := u.succ }

/-- Free pages are added at these addresses. -/
def addFree : Region → List ℕ → Region
  | r, [] => r
  | r, base :: bases => addFree { r.newpage base r.freep r.minPageSize with freep := some r.obtained } bases

/-- The constructor, for as many free pages as there are addresses for. -/
def make (minPageSize maxPageSize base : ℕ) (bases : List ℕ) : Region :=
  let r : Region := ⟨minPageSize, maxPageSize, minPageSize, 0, 0, none, fun _ => none, 0, []⟩
  addFree { r.newpage base none minPageSize with usedp := r.obtained } bases

def destroy (fuel : ℕ) : Option Region := (r.clear fuel).bind fun r => r.freepage r.usedp

end Region

/-! ### Calls -/

inductive RegionCall where
  /-- and the address of a new page, if there is one -/
  | malloc (sz base : ℕ)
  | clear
  | reset

/-- How much memory a call asks for. -/
def RegionCall.asks : RegionCall → ℕ
  | malloc sz _ => sz
  | _ => 0

/-- A piece of memory, and the page that it has been taken from. -/
structure Block where
  addr : ℕ
  size : ℕ
  page : ℕ

/-- The region, and what has been returned since the last `clear` or `reset`. -/
abbrev InUse := Region × List Block

def RegionCall.run (fuel : ℕ) : RegionCall → InUse → Option InUse
  | malloc sz base, (r, blocks) => (r.malloc base sz).map fun q => (q.1, blocks ++ [⟨q.2, sz, q.1.usedp⟩])
  | clear, (r, _) => (r.clear fuel).map fun r => (r, [])
  | reset, (r, _) => (r.reset fuel).map fun r => (r, [])

def RegionCall.runs (fuel : ℕ) : List RegionCall → InUse → Option InUse
  | [], s => some s
  | c :: cs, s => (c.run fuel s).bind (runs fuel cs)

end Hobbes.Util
