import Hobbes.Hog.FolderInvariant

/-!
# Looking for segments

A listing in which no file is missing in front of another one is put in the order of publication by
the times and the names, although each file is looked up at a time of its own.
-/

namespace Hobbes.Hog

open Core

namespace Folder

/-- A file was looked up: it may have got another time since then, but those in front of it have not. -/
def Read (d : Folder) (x : ℕ ×ₗ List Char) : Prop :=
  ∃ (j : ℕ) (f : SegFile), d.segments[j]? = some f ∧ f.name = (ofLex x).2 ∧ (ofLex x).1 ≤ f.ctime ∧
    ∀ (i : ℕ) (g : SegFile), i < j → d.segments[i]? = some g → g.ctime ≤ (ofLex x).1

/-- The names of the files that were looked up, in order. -/
def paths (segfiles : List (ℕ ×ₗ List Char)) : List (List Char) := segfiles.map fun x => (ofLex x).2

/-- What the sender knows about the directory: the files that it goes on with are the oldest ones. -/
def Listing (d : Folder) : SendPc → Prop
  | .globbing present => present <+: d.names
  | .stating paths segfiles => segfiles.Pairwise (· ≤ ·) ∧ (∀ x ∈ segfiles, d.Read x) ∧
      ∃ m ≤ d.names.length, (Folder.paths segfiles ++ paths).Perm (d.names.take m)
  | .listed todo => todo <+: d.names
  | .sending name todo _ => name.toList ++ todo <+: d.names
  | .removing name todo => name :: todo <+: d.names
  | _ => True

variable {S : Setup} {r : ℕ} {d d' : Folder} {f : SegFile} {x y : ℕ ×ₗ List Char} {path : List Char}
  {segfiles : List (ℕ ×ₗ List Char)}

lemma Follows.names (h : d.Follows d') : d.names <+: d'.names := by
  refine List.prefix_iff_getElem?.mpr fun j hj => ?_
  obtain ⟨hlt, -⟩ : j < d.segments.length ∧ True := by simpa [Folder.names] using hj
  obtain ⟨f', hf', hname, -⟩ := h.files j _ (List.getElem?_eq_getElem hlt)
  simp [Folder.names, hf', hname]

/-- Only the last file gets another time. -/
lemma Read.follows (h : d.Read x) (hd : d.Follows d') : d'.Read x := by
  obtain ⟨j, f, hf, hname, hle, hbefore⟩ := h
  obtain ⟨f', hf', hname', hle', -⟩ := hd.files j f hf
  refine ⟨j, f', hf', hname'.trans hname, Nat.le_trans hle hle', fun i g' hi hg' => ?_⟩
  have hlt : j < d.segments.length := (List.getElem?_eq_some_iff.mp hf).1
  have hg := List.getElem?_eq_getElem (Nat.lt_trans hi hlt)
  obtain ⟨g, hg₁, -, -, heq⟩ := hd.files i _ hg
  obtain rfl : g = g' := Option.some.inj (hg₁.symm.trans hg')
  rw [heq (by omega)]
  exact hbefore i _ hi hg

/-- The publishing thread does not disturb a sender. -/
lemma Listing.follows {pc : SendPc} (h : d.Listing pc) (hd : d.Follows d') : d'.Listing pc := by
  have hnames := hd.names
  cases pc with
  | globbing present => exact List.IsPrefix.trans h hnames
  | stating paths segfiles =>
    obtain ⟨hsorted, hread, m, hm, hperm⟩ := h
    refine ⟨hsorted, fun x hx => (hread x hx).follows hd, m, Nat.le_trans hm hnames.length_le, ?_⟩
    obtain ⟨more, hmore⟩ := hnames
    rwa [← hmore, List.take_append_of_le_length hm]
  | listed todo => exact List.IsPrefix.trans h hnames
  | sending name todo rest => exact List.IsPrefix.trans h hnames
  | removing name todo => exact List.IsPrefix.trans h hnames
  | offline => trivial
  | connected => trivial
  | polling => trivial

namespace Inv

lemma find_cases (h : d.Inv S r) (hmem : path ∈ d.names) :
    ∃ (j : ℕ) (f : SegFile), d.segments[j]? = some f ∧ f.name = path ∧ d.find path = some f := by
  obtain ⟨f, hf, rfl⟩ := List.mem_map.mp hmem
  obtain ⟨j, hj⟩ := List.mem_iff_getElem?.mp hf
  exact ⟨j, f, hj, rfl, h.find_eq hj⟩

/-- A file is looked up. -/
lemma read (h : d.Inv S r) {j : ℕ} (hf : d.segments[j]? = some f) :
    d.Read (toLex (f.ctime, f.name)) := by
  refine ⟨j, f, hf, rfl, Nat.le_refl _, fun i g hi hg => ?_⟩
  obtain ⟨hlt, rfl⟩ := List.getElem?_eq_some_iff.mp hf
  obtain ⟨hlt', rfl⟩ := List.getElem?_eq_some_iff.mp hg
  exact List.pairwise_iff_getElem.mp h.ctimes i j hlt' hlt hi

/-- Of two files that were looked up, the one that comes first in the order was published first. -/
lemma read_lt (h : d.Inv S r) (hx : d.Read x) (hy : d.Read y) (hle : x ≤ y)
    (hne : (ofLex x).2 ≠ (ofLex y).2) : (ofLex x).2 < (ofLex y).2 := by
  obtain ⟨i, f, hf, hfname, -, hbefore⟩ := hx
  obtain ⟨j, g, hg, hgname, hread, -⟩ := hy
  rw [← hfname, ← hgname] at hne ⊢
  rcases Nat.lt_trichotomy i j with hij | rfl | hji
  · exact h.name_lt hf hg hij
  · exact absurd (congrArg SegFile.name (Option.some.inj (hf.symm.trans hg))) hne
  · -- the other one was there first, so that it has no later time
    have hctime := hbefore j g hji hg
    have hname := h.name_lt hg hf hji
    rcases (Prod.Lex.le_iff.mp hle) with hlt | ⟨-, hle⟩
    · omega
    · rw [← hfname, ← hgname] at hle
      exact absurd hname (not_lt_of_ge hle)

/-- Times and names put the files in the order in which they were published. -/
lemma paths_eq (h : d.Inv S r) {m : ℕ} (hsorted : segfiles.Pairwise (· ≤ ·))
    (hread : ∀ x ∈ segfiles, d.Read x) (hperm : (paths segfiles).Perm (d.names.take m)) :
    paths segfiles = d.names.take m := by
  have hnames : (d.names.take m).Pairwise (· < ·) := h.names_sorted.sublist (List.take_sublist ..)
  have hnodup : (paths segfiles).Nodup := hperm.nodup_iff.mpr (hnames.imp fun hlt => ne_of_lt hlt)
  have hpaths : (paths segfiles).Pairwise (· < ·) := by
    refine List.pairwise_map.mpr ?_
    refine ((hsorted.and (List.pairwise_map.mp hnodup)).imp_of_mem fun hx hy hxy => ?_)
    exact h.read_lt (hread _ hx) (hread _ hy) hxy.1 hxy.2
  exact hperm.eq_of_pairwise (fun _ _ _ _ hab hba => absurd hba (lt_asymm hab)) hpaths hnames

end Inv

end Folder

end Hobbes.Hog
