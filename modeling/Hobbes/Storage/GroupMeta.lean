import Hobbes.Core.Codec
import Hobbes.Storage.Pipe

/-!
# The metadata of a storage group

`prepareMeta` writes what a group records in front of its queue, and the read process parses it. Where
the bytes end too early the parser leaves its variable alone and goes to the end.
-/

namespace Hobbes.Storage

open Core Core.Reader

def PipeQOS.code : PipeQOS → ℕ
  | .reliable => 0
  | .unreliable => 1

def PipeQOS.ofCode : ℕ → Option PipeQOS
  | 0 => some .reliable
  | 1 => some .unreliable
  | _ => none

inductive CommitMethod where
  | autoCommit
  | manualCommit
  deriving DecidableEq

def CommitMethod.code : CommitMethod → ℕ
  | .autoCommit => 0
  | .manualCommit => 1

def CommitMethod.ofCode : ℕ → Option CommitMethod
  | 0 => some .autoCommit
  | 1 => some .manualCommit
  | _ => none

/-- A storage statement; of `tdesc` only the type description counts that it appends. -/
structure StmtData where
  tdesc : Bytes
  flags : UInt64
  fmtstr : Bytes
  file : Bytes
  line : UInt32
  id : UInt32

/-- A map, as the list of its entries in order. -/
structure StorageStatements where
  entries : List (Bytes × StmtData)
  sorted : (entries.map Prod.fst).Pairwise (· < ·)

structure StorageGroup where
  statements : Option StorageStatements
  qos : PipeQOS
  cm : CommitMethod

/-- What the read process knows of a statement. -/
structure Statement where
  name : Bytes
  flags : UInt64
  fmtstr : Bytes
  file : Bytes
  line : UInt32
  id : UInt32
  type : Bytes
  deriving DecidableEq

def StmtData.statement (name : Bytes) (s : StmtData) : Statement :=
  ⟨name, s.flags, s.fmtstr, s.file, s.line, s.id, s.tdesc⟩

/-! ### The writer -/

def hstoreVersion : ℕ := 0x00010000

def ws (x : Bytes) : Bytes := leBytes 8 x.length ++ x

def writeStatement (s : Bytes × StmtData) : Bytes :=
  ws s.1 ++ (leBytes 8 s.2.flags.toNat ++ (ws s.2.fmtstr ++ (ws s.2.file ++
    (leBytes 4 s.2.line.toNat ++ (leBytes 4 s.2.id.toNat ++ ws s.2.tdesc)))))

/-- The settings and the count of statements, which is cut to 32 bits. -/
def metaHead (qos : PipeQOS) (cm : CommitMethod) (n : ℕ) : Bytes :=
  leBytes 4 hstoreVersion ++ (leBytes 4 qos.code ++ (leBytes 4 cm.code ++ leBytes 4 n))

/-- A vector does not get longer than the largest signed size. -/
def StorageGroup.prepareMeta (g : StorageGroup) : Option Bytes :=
  match g.statements with
  | none => some []
  | some ss =>
    let md := metaHead g.qos g.cm ss.entries.length ++ ss.entries.flatMap writeStatement
    if md.length < 2 ^ 63 then some md else none

/-! ### The parser -/

/-- `rs(md, o, n, b)`: `b` is what the buffer held before. -/
def rs (n : ℕ) (b : Bytes) : Reader (2 ^ 64) Bytes := fun md o =>
  if (o + n) % 2 ^ 64 ≤ md.length then
    -- the sum may have wrapped around
    if o + n ≤ md.length then
      some ((md.drop o).take n, ⟨(o + n) % 2 ^ 64, Nat.mod_lt _ (by decide)⟩)
    else none
  else some (b, ⟨md.length % 2 ^ 64, Nat.mod_lt _ (by decide)⟩)

/-- `r(md, o, &t)` for a number of `k` bytes. -/
def r (k t : ℕ) : Reader (2 ^ 64) ℕ := do
  let bs ← rs k (leBytes k t)
  return leNat bs

/-- `rs(md, o, &s)` for a string or a vector, which `resize` fills with zeros. -/
def rsBytes : Reader (2 ^ 64) Bytes := do
  let n ← r 8 0
  if n < 2 ^ 63 then rs n (List.replicate n 0) else fail

/-- `junk` is what a variable holds before it is read. -/
def readStatement (junk : ℕ) : Reader (2 ^ 64) Statement := do
  let name ← rsBytes
  let flags ← r 8 junk
  let fmtstr ← rsBytes
  let file ← rsBytes
  let line ← r 4 junk
  let id ← r 4 junk
  let type ← rsBytes
  return ⟨name, .ofNat flags, fmtstr, file, .ofNat line, .ofNat id, type⟩

/-- The part of `runReadProcessWithTimeout` in front of the loop. -/
def readMeta (junk : ℕ) : Reader (2 ^ 64) (PipeQOS × CommitMethod × List Statement) := do
  let version ← r 4 0
  if version ≠ hstoreVersion then fail
  else do
    let qos ← r 4 junk
    let cm ← r 4 junk
    let n ← r 4 0
    let ss ← replicate n (readStatement junk)
    let qos ← ofOption (PipeQOS.ofCode qos)
    let cm ← ofOption (CommitMethod.ofCode cm)
    return (qos, cm, ss)

variable {bs : Bytes} {junk n : ℕ} {g : StorageGroup} {ss : StorageStatements}

/-! ### The parser on written bytes -/

lemma reads_rs (bs b : Bytes) : Reads (rs bs.length b) bs bs := by
  intro pre post o o' ho ho'
  have hlt := o'.isLt
  have hmod : (o.val + bs.length) % 2 ^ 64 = o + bs.length := Nat.mod_eq_of_lt (by omega)
  have hle : o.val + bs.length ≤ (pre ++ bs ++ post).length := by
    rw [List.length_append, List.length_append]
    omega
  simp only [rs, hmod]
  rw [if_pos hle, if_pos hle, Option.some.injEq, Prod.mk.injEq]
  refine ⟨?_, Fin.ext ((congrArg (· + bs.length) ho).trans ho'.symm)⟩
  rw [ho, List.append_assoc, List.drop_left, List.take_left]

lemma reads_r {k n : ℕ} (t : ℕ) (hn : n < 256 ^ k) : Reads (r k t) (leBytes k n) n := by
  have h := (reads_rs (leBytes k n) (leBytes k t)).map leNat
  rwa [leNat_leBytes, leBytes_length, Nat.mod_eq_of_lt hn] at h

lemma reads_rsBytes (hbs : bs.length < 2 ^ 63) : Reads rsBytes (ws bs) bs := by
  refine (reads_r 0 (by omega)).bind ?_
  rw [if_pos hbs]
  exact reads_rs bs _

lemma reads_readStatement {s : Bytes × StmtData} (h : (writeStatement s).length < 2 ^ 63) :
    Reads (readStatement junk) (writeStatement s) (s.2.statement s.1) := by
  simp only [writeStatement, ws, List.length_append, leBytes_length] at h
  have hflags := s.2.flags.toNat_lt
  have hline := s.2.line.toNat_lt
  have hid := s.2.id.toNat_lt
  refine (reads_rsBytes (by omega)).bind ((reads_r junk (by omega)).bind
    ((reads_rsBytes (by omega)).bind ((reads_rsBytes (by omega)).bind
      ((reads_r junk (by omega)).bind ((reads_r junk (by omega)).bind ?_)))))
  have htdesc : Reads rsBytes (ws s.2.tdesc) s.2.tdesc := reads_rsBytes (by omega)
  have hlast := htdesc.map fun type : Bytes =>
    (⟨s.1, .ofNat s.2.flags.toNat, s.2.fmtstr, s.2.file, .ofNat s.2.line.toNat,
      .ofNat s.2.id.toNat, type⟩ : Statement)
  simpa only [UInt64.ofNat_toNat, UInt32.ofNat_toNat, StmtData.statement] using hlast

lemma reads_readMeta {xs : List Statement} (qos : PipeQOS) (cm : CommitMethod) (hn : n < 2 ^ 32)
    (h : Reads (replicate n (readStatement junk)) bs xs) :
    Reads (readMeta junk) (metaHead qos cm n ++ bs) (qos, cm, xs) := by
  have hqos : PipeQOS.ofCode qos.code = some qos := by cases qos <;> rfl
  have hqos' : qos.code < 256 ^ 4 := by cases qos <;> decide
  have hcm : CommitMethod.ofCode cm.code = some cm := by cases cm <;> rfl
  have hcm' : cm.code < 256 ^ 4 := by cases cm <;> decide
  simp only [metaHead, List.append_assoc]
  refine (reads_r 0 (by decide)).bind ?_
  rw [if_neg (not_not_intro rfl)]
  refine (reads_r junk hqos').bind ((reads_r junk hcm').bind ((reads_r 0 hn).bind ?_))
  rw [← List.append_nil bs]
  refine h.bind ?_
  rw [← List.append_nil []]
  refine (Reads.ofOption hqos).bind ?_
  exact (Reads.ofOption hcm).map fun cm => (qos, cm, xs)

lemma StorageGroup.prepareMeta_eq_some {md : Bytes} (hss : g.statements = some ss) :
    g.prepareMeta = some md ↔
      (metaHead g.qos g.cm ss.entries.length ++ ss.entries.flatMap writeStatement).length < 2 ^ 63 ∧
        metaHead g.qos g.cm ss.entries.length ++ ss.entries.flatMap writeStatement = md := by
  simp only [StorageGroup.prepareMeta, hss, Option.ite_none_right_eq_some, Option.some.injEq]

/-- With fewer than `2 ^ 32` statements, the parser reads back what the group has, and every byte. -/
theorem StorageGroup.readMeta_prepareMeta {md : Bytes} (hss : g.statements = some ss)
    (hcount : ss.entries.length < 2 ^ 32) (hmd : g.prepareMeta = some md) (junk : ℕ) :
    ∃ o : Fin (2 ^ 64), o.val = md.length ∧ readMeta junk md 0 =
      some ((g.qos, g.cm, ss.entries.map fun s => s.2.statement s.1), o) := by
  obtain ⟨hlen, rfl⟩ := (StorageGroup.prepareMeta_eq_some hss).mp hmd
  have hstatements : ∀ s ∈ ss.entries,
      Reads (readStatement junk) (writeStatement s) (s.2.statement s.1) := by
    intro s hs
    apply reads_readStatement
    have hmem : writeStatement s ∈ ss.entries.map writeStatement := List.mem_map_of_mem hs
    have hle := (List.sublist_flatten_of_mem hmem).length_le
    rw [← List.flatMap_def] at hle
    rw [List.length_append] at hlen
    omega
  have hreads := reads_readMeta g.qos g.cm hcount (Reads.replicate hstatements)
  refine ⟨⟨_, Nat.lt_trans hlen (by decide)⟩, rfl, ?_⟩
  have := hreads [] [] 0 ⟨_, Nat.lt_trans hlen (by decide)⟩ rfl (by rw [List.length_nil, Nat.zero_add])
  rwa [List.nil_append, List.append_nil] at this

/-- A group with a name of one byte and an empty one, and no format strings. -/
theorem StorageGroup.readMeta_prepareMeta_two : ∃ md : Bytes, ∃ o : Fin (2 ^ 64), o.val = md.length ∧
    readMeta 7 md 0 = some ((.unreliable, .manualCommit,
      [⟨[], 1, [], [], 2, 3, [4]⟩, ⟨[5], 0, [], [6], 7, 8, []⟩]), o) := by
  let ss : StorageStatements :=
    ⟨[([], ⟨[4], 1, [], [], 2, 3⟩), ([5], ⟨[], 0, [], [6], 7, 8⟩)], by decide⟩
  have hmd : ∃ md, StorageGroup.prepareMeta ⟨some ss, .unreliable, .manualCommit⟩ = some md :=
    ⟨_, rfl⟩
  obtain ⟨md, hmd⟩ := hmd
  have hss : (⟨some ss, .unreliable, .manualCommit⟩ : StorageGroup).statements = some ss := rfl
  exact ⟨md, StorageGroup.readMeta_prepareMeta hss (by decide) hmd 7⟩

/-! ### Too many statements -/

/-- All words of `k` bytes in order. -/
def words : ℕ → List Bytes
  | 0 => [[]]
  | k + 1 => (List.range 256).flatMap fun b => (words k).map (UInt8.ofNat b :: ·)

lemma words_length (k : ℕ) : (words k).length = 256 ^ k := by
  induction k with
  | zero => rfl
  | succ k ih =>
    simp only [words, List.length_flatMap, List.length_map, ih]
    rw [List.map_const', List.sum_replicate_nat, List.length_range, Nat.pow_succ, Nat.mul_comm]

lemma words_sorted (k : ℕ) : (words k).Pairwise (· < ·) := by
  induction k with
  | zero => exact List.pairwise_singleton _ _
  | succ k ih =>
    rw [words, List.pairwise_flatMap]
    constructor
    · intro b _
      rw [List.pairwise_map]
      exact ih.imp fun hlt => List.cons_lt_cons_iff.mpr (.inr ⟨rfl, hlt⟩)
    · refine (List.pairwise_lt_range (n := 256)).imp_of_mem fun {b b'} hb hb' hlt => ?_
      rw [List.mem_range] at hb hb'
      intro x hx y hy
      obtain ⟨x, -, rfl⟩ := List.mem_map.mp hx
      obtain ⟨y, -, rfl⟩ := List.mem_map.mp hy
      refine List.cons_lt_cons_iff.mpr (.inl ?_)
      rw [UInt8.lt_iff_toNat_lt, UInt8.toNat_ofNat', UInt8.toNat_ofNat',
        Nat.mod_eq_of_lt hb, Nat.mod_eq_of_lt hb']
      exact hlt

lemma mem_words_length {k : ℕ} {w : Bytes} (h : w ∈ words k) : w.length = k := by
  induction k generalizing w with
  | zero =>
    rw [List.mem_singleton.mp h]
    rfl
  | succ k ih =>
    obtain ⟨b, -, hmem⟩ := List.mem_flatMap.mp h
    obtain ⟨v, hv, rfl⟩ := List.mem_map.mp hmem
    rw [List.length_cons, ih hv]

/-- The same data under every one of a list of names. -/
def sameStatements (names : List Bytes) (h : names.Pairwise (· < ·)) : StorageStatements where
  entries := names.map fun name => (name, ⟨[], 0, [], [], 0, 0⟩)
  sorted := by
    rw [List.map_map]
    exact (List.map_id names).symm ▸ h

/-- A statement for each name of four bytes. -/
def manyStatements : StorageStatements := sameStatements (words 4) (words_sorted 4)

lemma manyStatements_length : manyStatements.entries.length = 2 ^ 32 := by
  have hwords : manyStatements.entries.length = 256 ^ 4 := by
    rw [manyStatements, sameStatements, List.length_map, words_length]
  exact hwords.trans (by decide)

/-- The count of `2 ^ 32` statements is written as 0: none of them is read back. -/
theorem StorageGroup.readMeta_prepareMeta_many :
    ∃ md, StorageGroup.prepareMeta ⟨some manyStatements, .reliable, .autoCommit⟩ = some md ∧
      (∃ o : Fin (2 ^ 64), o.val ≠ md.length ∧
        readMeta 0 md 0 = some ((.reliable, .autoCommit, []), o)) ∧
      manyStatements.entries.map (fun s => s.2.statement s.1) ≠ [] := by
  have hsize : ∀ s ∈ manyStatements.entries, (writeStatement s).length = 52 := by
    intro s hs
    obtain ⟨w, hw, rfl⟩ := List.mem_map.mp hs
    simp [writeStatement, ws, mem_words_length hw]
  have hlen : (manyStatements.entries.flatMap writeStatement).length = 2 ^ 32 * 52 := by
    rw [List.length_flatMap, List.map_congr_left hsize, List.map_const', List.sum_replicate_nat,
      manyStatements_length]
  have hhead : (metaHead .reliable .autoCommit manyStatements.entries.length).length = 16 := by
    simp [metaHead]
  have hcount : metaHead .reliable .autoCommit (2 ^ 32) = metaHead .reliable .autoCommit 0 := rfl
  have hnone : Reads (replicate 0 (readStatement 0)) [] [] := Reads.pure _
  have hreads := reads_readMeta .reliable .autoCommit (by decide) hnone
  have hread := hreads [] (manyStatements.entries.flatMap writeStatement) 0 16 rfl rfl
  refine ⟨_, (StorageGroup.prepareMeta_eq_some rfl).mpr ⟨?_, rfl⟩, ⟨16, ?_, ?_⟩, ?_⟩
  · rw [List.length_append, hlen, hhead]
    decide
  · rw [List.length_append, hlen, hhead]
    decide
  · rw [manyStatements_length, hcount]
    rwa [List.nil_append, List.append_nil] at hread
  · intro hnil
    have := congrArg List.length hnil
    rw [List.length_map, manyStatements_length] at this
    exact absurd this (by decide)

end Hobbes.Storage
