import Hobbes.Core.Transition
import Hobbes.Hog.Segments

/-!
# Segments in a directory

A session writes to a file with a temporary name. To close a segment it links the file to the name of the segment,
unlinks the temporary name and opens it again. Names are names of numbered files, and are not used up when a process
ends: the next session with the directory counts its segments from the start.
-/

namespace Hobbes.Hog

open Core

structure SegmentFolder where
  names : List Char → Option ℕ
  content : ℕ → Bytes
  /-- Files are numbered below this. -/
  next : ℕ
  /-- the file that is written to -/
  buffer : Option ℕ
  c : ℕ

def tempfilename : List Char := ".current.hstore.transactions".toList

def pubfilename (c : ℕ) : List Char := if c = 0 then "init.gz".toList else segmentFileName c

namespace SegmentFolder

variable (d : SegmentFolder)

def bytes? (name : List Char) : Option Bytes := (d.names name).map d.content

def setContent (i : ℕ) (bs : Bytes) : SegmentFolder := { d with content := Function.update d.content i bs }

def setName (name : List Char) (i : Option ℕ) : SegmentFolder := { d with names := Function.update d.names name i }

/-- `allocFile`: a file of that name is truncated. -/
def allocFile : SegmentFolder :=
  match d.names tempfilename with
  | some i => { d.setContent i [] with buffer := some i }
  | none =>
    { (d.setName tempfilename (some d.next)).setContent d.next [] with buffer := some d.next, next := d.next + 1 }

/-- What has been written to the file, by `gzwrite` or by `gzclose`. -/
def flush (gz : Bytes) : Option SegmentFolder := d.buffer.map fun i => d.setContent i gz

/-- `link(tempfilename, pubfilename)`, which fails when there is a file of that name. -/
def link (linked : Bool) : Option SegmentFolder :=
  if linked then
    if (d.names (pubfilename d.c)).isSome then none
    else some (d.setName (pubfilename d.c) (d.names tempfilename))
  else some d

/-- `gzclose` leaves these bytes in the file, which has a header at least. -/
def stepFile (gz : Bytes) (linked : Bool) : Option SegmentFolder :=
  if gz = [] then none
  else do
    let d ← d.flush gz
    let d ← d.link linked
    some { d.setName tempfilename none with c := (d.c + 1) % 2 ^ 32 }.allocFile

end SegmentFolder

inductive FolderEvent where
  /-- A session starts. -/
  | start
  | write (gz : Bytes)
  | stepFile (gz : Bytes) (linked : Bool)
  /-- A segment was sent and is unlinked. -/
  | sent (name : List Char)

def FolderEvent.step : FolderEvent → SegmentFolder → Option SegmentFolder
  | start, d => some { d with c := 0 }.allocFile
  | write gz, d => d.flush gz
  | stepFile gz linked, d => d.stepFile gz linked
  | sent name, d => if name = tempfilename then none else some (d.setName name none)

namespace SegmentFolder

variable {d d' : SegmentFolder} {e : FolderEvent} {i : ℕ} {gz : Bytes} {name : List Char} {linked : Bool}

/-! ### What is kept -/

/-- No file is changed but the temporary one, and a segment that is closed is in the directory. -/
structure Keeps (d : SegmentFolder) (e : FolderEvent) (d' : SegmentFolder) : Prop where
  files : ∀ name bs, name ≠ tempfilename → e ≠ .sent name → d.bytes? name = some bs → d'.bytes? name = some bs
  closed : ∀ gz linked, e = .stepFile gz linked →
    d'.bytes? (pubfilename d.c) = some gz ∨ d'.bytes? tempfilename = some gz

/-- A file that is also called something else has these bytes. -/
def Holds (d : SegmentFolder) (file : Option ℕ) (bs : Bytes) : Prop :=
  ∀ name i, name ≠ tempfilename → d.names name = some i → file = some i → d.content i = bs

end SegmentFolder

/-- What is truncated or written to is not a file with another name (but for one with the same bytes), and a segment is
linked to its name (or there is a file of that name with the same bytes). -/
def FolderEvent.Kept : FolderEvent → SegmentFolder → Prop
  | start, d => d.Holds (d.names tempfilename) []
  | write gz, d => d.Holds d.buffer gz
  | stepFile gz linked, d => d.Holds d.buffer gz ∧ (linked = true ∨ d.bytes? (pubfilename d.c) = some gz)
  | sent _, _ => True

namespace SegmentFolder

variable {d d' : SegmentFolder} {e : FolderEvent} {i : ℕ} {gz : Bytes} {name : List Char} {linked : Bool}

/-- Files have numbers below `next`, and the temporary name is that of the file that is written to. -/
structure Numbered (d : SegmentFolder) : Prop where
  names : ∀ name i, d.names name = some i → i < d.next
  buffer : ∀ i, d.buffer = some i → d.names tempfilename = some i

lemma segmentFileName_head (c : ℕ) : (segmentFileName c).head? = some 's' := by
  unfold segmentFileName
  generalize segidx c = s
  simp

lemma pubfilename_ne (c : ℕ) : pubfilename c ≠ tempfilename := by
  intro h
  by_cases hc : c = 0
  · rw [pubfilename, if_pos hc] at h
    exact absurd h (by decide)
  · rw [pubfilename, if_neg hc] at h
    have hhead : (segmentFileName c).head? = tempfilename.head? := congrArg List.head? h
    rw [segmentFileName_head] at hhead
    exact absurd hhead (by decide)

lemma bytes?_eq_some {bs : Bytes} : d.bytes? name = some bs ↔ ∃ i, d.names name = some i ∧ d.content i = bs := by
  simp [bytes?]

lemma bytes?_setContent : (d.setContent i gz).bytes? name =
    if d.names name = some i then some gz else d.bytes? name := by
  rw [bytes?, bytes?, setContent]
  cases hname : d.names name with
  | none => simp
  | some j =>
    by_cases hj : j = i
    · simp [hj]
    · simp [hj]

lemma bytes?_setName_of_ne {name' : List Char} (hne : name ≠ name') (j : Option ℕ) :
    (d.setName name' j).bytes? name = d.bytes? name := by
  simp [bytes?, setName, hne]

/-- Another file is changed by truncating the one with the temporary name if it is the same file. -/
lemma bytes?_allocFile (hd : ∀ name i, d.names name = some i → i < d.next) (hne : name ≠ tempfilename) :
    d.allocFile.bytes? name =
      if ∃ i, d.names tempfilename = some i ∧ d.names name = some i then some [] else d.bytes? name := by
  rw [allocFile]
  cases htemp : d.names tempfilename with
  | some i =>
    have hset : (d.setContent i []).bytes? name = _ := bytes?_setContent
    refine hset.trans ?_
    simp
  | none =>
    have hfresh : d.names name ≠ some d.next := fun hname => (hd name d.next hname).ne rfl
    have hset : ((d.setName tempfilename (some d.next)).setContent d.next []).bytes? name = _ := bytes?_setContent
    have hsame : (d.setName tempfilename (some d.next)).names name = d.names name := Function.update_of_ne hne _ _
    rw [hsame, if_neg hfresh, bytes?_setName_of_ne hne] at hset
    refine hset.trans ?_
    simp

/-- The temporary file is empty when it has been opened. -/
lemma bytes?_allocFile_temp : d.allocFile.bytes? tempfilename = some [] := by
  rw [allocFile]
  cases htemp : d.names tempfilename with
  | some i => simp [bytes?, setContent, htemp]
  | none => simp [bytes?, setContent, setName]

/-! ### Runs -/

lemma numbered_allocFile (hd : ∀ name i, d.names name = some i → i < d.next) : d.allocFile.Numbered := by
  rw [allocFile]
  split
  · next i htemp =>
    refine ⟨hd, fun j hj => ?_⟩
    cases hj
    exact htemp
  · next htemp =>
    refine ⟨fun name j hj => ?_, fun j hj => ?_⟩
    · by_cases hname : name = tempfilename
      · subst hname
        simp only [setName, setContent, Function.update_self, Option.some.injEq] at hj
        exact hj ▸ Nat.lt_succ_self _
      · simp only [setName, setContent, Function.update_of_ne hname] at hj
        exact Nat.lt_succ_of_lt (hd name j hj)
    · cases hj
      simp [setName, setContent]

/-- What closing a segment does. -/
lemma stepFile_eq_some (hd : d.Numbered) (h : d.stepFile gz linked = some d') :
    gz ≠ [] ∧ (linked = true → d.names (pubfilename d.c) = none) ∧
      ∃ (i : ℕ) (d₁ : SegmentFolder), d.buffer = some i ∧ d' = d₁.allocFile ∧
      d₁.names tempfilename = none ∧ (∀ name j, d₁.names name = some j → j < d₁.next) ∧
      ∀ name, name ≠ tempfilename → d₁.bytes? name =
        if linked = true ∧ name = pubfilename d.c ∨ d.names name = some i then some gz else d.bytes? name := by
  rw [stepFile] at h
  split_ifs at h with hgz
  obtain ⟨d₁, hflush, hrest⟩ := Option.bind_eq_some_iff.mp h
  obtain ⟨d₂, hlink, heq⟩ := Option.bind_eq_some_iff.mp hrest
  obtain ⟨i, hi, rfl⟩ := Option.map_eq_some_iff.mp hflush
  have htemp : d.names tempfilename = some i := hd.buffer i hi
  obtain rfl := Option.some.inj heq
  rw [link] at hlink
  cases linked with
  | true =>
    rw [if_pos rfl] at hlink
    split_ifs at hlink with hpub
    cases hlink
    have hnone : d.names (pubfilename d.c) = none := Option.not_isSome_iff_eq_none.mp hpub
    refine ⟨hgz, fun _ => hnone, i, _, hi, rfl, by simp [setName], fun name j hj => ?_, fun name hne => ?_⟩
    · by_cases hname : name = tempfilename
      · subst hname
        simp [setName] at hj
      · by_cases hp : name = pubfilename d.c
        · subst hp
          simp only [setName, setContent, Function.update_of_ne hname, Function.update_self] at hj
          exact hd.names _ j hj
        · simp only [setName, setContent, Function.update_of_ne hname, Function.update_of_ne hp] at hj
          exact hd.names name j hj
    · by_cases hp : name = pubfilename d.c
      · subst hp
        simp [bytes?, setName, setContent, hne, htemp]
      · rw [bytes?, setName]
        simp only [Function.update_of_ne hne]
        have hset : (d.setContent i gz).bytes? name = _ := bytes?_setContent
        simpa [bytes?, setName, setContent, hp] using hset
  | false =>
    cases hlink
    refine ⟨hgz, nofun, i, _, hi, rfl, by simp [setName], fun name j hj => ?_, fun name hne => ?_⟩
    · by_cases hname : name = tempfilename
      · subst hname
        simp [setName] at hj
      · simp only [setName, setContent, Function.update_of_ne hname] at hj
        exact hd.names name j hj
    · have hset : (d.setContent i gz).bytes? name = _ := bytes?_setContent
      simpa [bytes?, setName, setContent, hne] using hset

lemma numbered_step (hd : d.Numbered) (h : e.step d = some d') : d'.Numbered := by
  cases e with
  | start =>
    cases h
    exact numbered_allocFile hd.names
  | write gz =>
    obtain ⟨i, hi, rfl⟩ := Option.map_eq_some_iff.mp h
    exact ⟨hd.names, hd.buffer⟩
  | stepFile gz linked =>
    obtain ⟨-, -, i, d₁, -, rfl, -, hnames, -⟩ := stepFile_eq_some hd h
    exact numbered_allocFile hnames
  | sent name =>
    rw [FolderEvent.step] at h
    split_ifs at h with hname
    cases h
    refine ⟨fun name' j hj => ?_, fun j hj => ?_⟩
    · by_cases heq : name' = name
      · subst heq
        simp [setName] at hj
      · simp only [setName, Function.update_of_ne heq] at hj
        exact hd.names name' j hj
    · simp only [setName, Function.update_of_ne (Ne.symm hname)]
      exact hd.buffer j hj

lemma reachable_numbered {d₀ : SegmentFolder} (hd₀ : d₀.Numbered) (h : Reachable FolderEvent.step d₀ d) :
    d.Numbered :=
  h.invariant hd₀ fun _ _ _ hd hstep => numbered_step hd hstep

/-! ### When everything is kept -/

/-- Where the file `i` is replaced by `bs`, files with other names are kept if those of `i` have these bytes. -/
lemma files_iff {file : Option ℕ} {bs : Bytes} (hnot : ∀ name, e ≠ .sent name)
    (hbytes : ∀ name, name ≠ tempfilename → d'.bytes? name =
      if ∃ i, file = some i ∧ d.names name = some i then some bs else d.bytes? name) :
    (∀ name bs', name ≠ tempfilename → e ≠ .sent name → d.bytes? name = some bs' → d'.bytes? name = some bs') ↔
      d.Holds file bs := by
  constructor
  · intro hfiles name i hne hname hfile
    have hkept := hfiles name (d.content i) hne (hnot name) (bytes?_eq_some.mpr ⟨i, hname, rfl⟩)
    rw [hbytes name hne, if_pos ⟨i, hfile, hname⟩] at hkept
    exact (Option.some.inj hkept).symm
  · intro hholds name bs' hne _ hbs'
    rw [hbytes name hne]
    split_ifs with hsame
    · obtain ⟨i, hfile, hname⟩ := hsame
      obtain ⟨j, hj, rfl⟩ := bytes?_eq_some.mp hbs'
      cases hname.symm.trans hj
      rw [hholds name i hne hname hfile]
    · exact hbs'

lemma keeps_start (hd : d.Numbered) (h : FolderEvent.start.step d = some d') :
    d.Keeps .start d' ↔ FolderEvent.start.Kept d := by
  obtain rfl := Option.some.inj h
  have hbytes : ∀ name, name ≠ tempfilename → { d with c := 0 }.allocFile.bytes? name =
      if ∃ i, d.names tempfilename = some i ∧ d.names name = some i then some [] else d.bytes? name :=
    fun name hne => bytes?_allocFile (d := { d with c := 0 }) hd.names hne
  have hiff := files_iff (e := .start) nofun hbytes
  exact ⟨fun hkeeps => hiff.1 hkeeps.files, fun hkept => ⟨hiff.2 hkept, nofun⟩⟩

lemma keeps_write (h : (FolderEvent.write gz).step d = some d') :
    d.Keeps (.write gz) d' ↔ (FolderEvent.write gz).Kept d := by
  obtain ⟨i, hi, rfl⟩ := Option.map_eq_some_iff.mp h
  have hbytes : ∀ name, name ≠ tempfilename → (d.setContent i gz).bytes? name =
      if ∃ j, d.buffer = some j ∧ d.names name = some j then some gz else d.bytes? name := by
    intro name _
    rw [bytes?_setContent, hi]
    simp
  have hiff := files_iff (e := .write gz) nofun hbytes
  exact ⟨fun hkeeps => hiff.1 hkeeps.files, fun hkept => ⟨hiff.2 hkept, nofun⟩⟩

/-- The bytes of a segment are in no file but the one its name is linked to. -/
lemma keeps_stepFile (hd : d.Numbered) (h : (FolderEvent.stepFile gz linked).step d = some d') :
    d.Keeps (.stepFile gz linked) d' ↔ (FolderEvent.stepFile gz linked).Kept d := by
  obtain ⟨hgz, hfree, i, d₁, hi, rfl, htemp, hnames, hbytes₁⟩ := stepFile_eq_some hd h
  have hbytes : ∀ name, name ≠ tempfilename → d₁.allocFile.bytes? name =
      if linked = true ∧ name = pubfilename d.c ∨ d.names name = some i then some gz else d.bytes? name := by
    intro name hne
    rw [bytes?_allocFile hnames hne, ← hbytes₁ name hne, if_neg]
    rintro ⟨j, hj, -⟩
    cases htemp.symm.trans hj
  have hpub := hbytes (pubfilename d.c) (pubfilename_ne d.c)
  constructor
  · intro hkeeps
    have hholds : d.Holds d.buffer gz := by
      intro name j hne hname hfile
      cases hi.symm.trans hfile
      have hkept := hkeeps.files name (d.content i) hne nofun (bytes?_eq_some.mpr ⟨i, hname, rfl⟩)
      rw [hbytes name hne, if_pos (.inr hname)] at hkept
      exact (Option.some.inj hkept).symm
    refine ⟨hholds, ?_⟩
    rcases hkeeps.closed gz linked rfl with hclosed | hclosed
    · rw [hpub] at hclosed
      split_ifs at hclosed with hcond
      · rcases hcond with ⟨hlinked, -⟩ | hname
        · exact .inl hlinked
        · exact .inr (bytes?_eq_some.mpr ⟨i, hname, hholds _ i (pubfilename_ne d.c) hname hi⟩)
      · exact .inr hclosed
    · rw [bytes?_allocFile_temp] at hclosed
      exact absurd (Option.some.inj hclosed).symm hgz
  · rintro ⟨hholds, hpublished⟩
    refine ⟨fun name bs hne _ hbs => ?_, fun gz' linked' he => ?_⟩
    · rw [hbytes name hne]
      split_ifs with hcond
      · obtain ⟨j, hj, rfl⟩ := bytes?_eq_some.mp hbs
        rcases hcond with ⟨hlinked, rfl⟩ | hname
        · cases (hfree hlinked).symm.trans hj
        · cases hname.symm.trans hj
          rw [hholds name i hne hname hi]
      · exact hbs
    · cases he
      refine .inl ?_
      rw [hpub]
      split_ifs with hcond
      · rfl
      · rcases hpublished with hlinked | hsame
        · exact absurd (.inl ⟨hlinked, rfl⟩) hcond
        · exact hsame

lemma keeps_sent (h : (FolderEvent.sent name).step d = some d') : d.Keeps (.sent name) d' := by
  rw [FolderEvent.step] at h
  split_ifs at h
  obtain rfl := Option.some.inj h
  refine ⟨fun name' bs _ he hbs => ?_, nofun⟩
  rw [bytes?_setName_of_ne]
  · exact hbs
  · rintro rfl
    exact he rfl

lemma keeps_step (hd : d.Numbered) (h : e.step d = some d') : d.Keeps e d' ↔ e.Kept d := by
  cases e with
  | start => exact keeps_start hd h
  | write gz => exact keeps_write h
  | stepFile gz linked => exact keeps_stepFile hd h
  | sent name => exact ⟨fun _ => trivial, fun _ => keeps_sent h⟩

/-- Whatever was in the directory, every step of every run keeps the segments if and only if it writes to no file
that has another name, and a segment is linked to its name when it is closed. -/
theorem keeps_iff {d₀ : SegmentFolder} (hd₀ : d₀.Numbered) (hd : Reachable FolderEvent.step d₀ d)
    (h : e.step d = some d') : d.Keeps e d' ↔ e.Kept d :=
  keeps_step (reachable_numbered hd₀ hd) h

/-- A directory in which there is a segment of an earlier session. -/
def leftover : SegmentFolder where
  names name := if name = segmentFileName 1 then some 0 else none
  content _ := [7]
  next := 1
  buffer := none
  c := 0

lemma numbered_leftover : leftover.Numbered := by
  refine ⟨fun name i hi => ?_, nofun⟩
  simp only [leftover] at hi
  split_ifs at hi
  cases hi
  exact Nat.zero_lt_one

/-- The init message is kept, and so is the segment of the earlier session. -/
theorem keeps_iff_leftover : ∃ d d', FolderEvent.start.step leftover = some d ∧
    (FolderEvent.stepFile [1] true).step d = some d' ∧
      (d.Keeps (.stepFile [1] true) d' ↔ (FolderEvent.stepFile [1] true).Kept d) :=
  ⟨_, _, rfl, rfl, keeps_iff numbered_leftover (.next .start .start rfl) rfl⟩

/-- There is a file with the name of the segment that is closed: the segment is lost. -/
theorem not_keeps : ¬ ∀ (d₀ d d' : SegmentFolder) (e : FolderEvent), d₀.Numbered →
    Reachable FolderEvent.step d₀ d → e.step d = some d' → d.Keeps e d' := by
  intro hall
  have hrun : ∃ d d', runEvents FolderEvent.step [.start, .stepFile [1] true, .write [2]] leftover = some d ∧
      (FolderEvent.stepFile [2] false).step d = some d' ∧ d'.bytes? (pubfilename d.c) = some [7] ∧
        d'.bytes? tempfilename = some [] :=
    ⟨_, _, rfl, rfl, by decide +kernel, by decide +kernel⟩
  obtain ⟨d, d', hd, hstep, hpub, htemp⟩ := hrun
  have hkeeps := hall leftover d d' _ numbered_leftover (Reachable.start.runEvents hd) hstep
  rcases hkeeps.closed [2] false rfl with hclosed | hclosed
  · rw [hpub] at hclosed
    exact absurd hclosed (by decide)
  · rw [htemp] at hclosed
    exact absurd hclosed (by decide)

end SegmentFolder

end Hobbes.Hog
