import Hobbes.Core.Outcome
import Hobbes.Hog.Segments

/-!
# Segments that are received

A segment is decompressed in chunks, as many bytes at a time as there is room for in a buffer. Transactions are read out
of the chunks, and are passed on. When there is nothing more to read, the segment is acknowledged.
-/

namespace Hobbes.Hog

open Core Outcome

variable {σ : Type}

/-- Decompression, with the states of a `z_stream`. -/
structure Inflate (σ : Type) where
  /-- The status, and the stream for some data. -/
  inflateInit2 : Bytes → ℤ × σ
  /-- What is put out where there is room for `n` bytes, the status, and the stream. -/
  inflate : σ → ℕ → Bytes × ℤ × σ

/-- `outb` has the last chunk, of which `avail` bytes are left from `off` on. -/
structure GzBuffer (σ : Type) where
  zin : σ
  outb : Bytes
  off : ℕ
  avail : ℕ

/-- It throws when a status is negative. -/
def checkZLibRC (status : ℤ) : Outcome Unit := if status < 0 then throws else returns ()

namespace GzBuffer

variable (z : Inflate σ) (allocsz : ℕ)

/-- What is checked is whether the status is negative, which is 0 or 1. -/
def decompressChunk (gz : GzBuffer σ) : Outcome (GzBuffer σ) :=
  let (out, status, zin) := z.inflate gz.zin allocsz
  (checkZLibRC (if status < 0 then 1 else 0)).bind fun _ => returns ⟨zin, out, 0, out.length⟩

def init (data : Bytes) : Outcome (GzBuffer σ) :=
  let (status, zin) := z.inflateInit2 data
  (checkZLibRC status).bind fun _ => decompressChunk z allocsz ⟨zin, [], 0, 0⟩

def eof (gz : GzBuffer σ) : Outcome (Bool × GzBuffer σ) :=
  if 0 < gz.avail then returns (false, gz)
  else (gz.decompressChunk z allocsz).bind fun gz => returns (gz.avail = 0, gz)

/-- The loop of `read`, with the bytes that were read before and the number of those that are not yet. -/
def readLoop : ℕ → GzBuffer σ → Bytes → ℕ → Outcome (Bytes × GzBuffer σ)
  | _, gz, b, 0 => returns (b, gz)
  | 0, _, _, _ + 1 => runsOn
  | fuel + 1, gz, b, n + 1 =>
    if 0 < gz.avail then
      let j := min gz.avail (n + 1)
      readLoop fuel { gz with off := gz.off + j, avail := gz.avail - j } (b ++ (gz.outb.drop gz.off).take j) (n + 1 - j)
    else
      (gz.decompressChunk z allocsz).bind fun gz => if gz.avail = 0 then throws else readLoop fuel gz b (n + 1)

def read (fuel : ℕ) (gz : GzBuffer σ) (n : ℕ) : Outcome (Bytes × GzBuffer σ) := gz.readLoop z allocsz fuel [] n

end GzBuffer

/-- What has been passed to the transaction function, and whether the segment was acknowledged. Where it was not, the
connection has been closed. -/
structure Received where
  passed : List Bytes
  acked : Bool
  deriving DecidableEq

section

variable (z : Inflate σ) (allocsz : ℕ) (reserve : ℕ → Bool) (txnF : List Bytes → Bool)

/-- The size of a transaction, the memory for it, and its bytes. The process exits when there is no memory. -/
def recvTxn (fuel : ℕ) (gz : GzBuffer σ) : Outcome (Bytes × GzBuffer σ) :=
  (gz.read z allocsz fuel 8).bind fun (n, gz) =>
    if reserve (leNat n) then gz.read z allocsz fuel (leNat n) else throws

/-- Read transactions to the end. `txnF` says whether the last call returns when it was passed these transactions. -/
def recvTxns (k : ℕ) : ℕ → GzBuffer σ → List Bytes → Option Received
  | 0, _, _ => none
  | fuel + 1, gz, passed =>
    match gz.eof z allocsz with
    | returns (true, _) => some ⟨passed, true⟩
    | returns (false, gz) =>
      match recvTxn z allocsz reserve k gz with
      | returns (txn, gz) =>
        if txnF (passed ++ [txn]) then recvTxns k fuel gz (passed ++ [txn]) else some ⟨passed ++ [txn], false⟩
      | throws => some ⟨passed, false⟩
      | runsOn => none
    | throws => some ⟨passed, false⟩
    | runsOn => none

/-- What `runRecvConnection` does with a segment. -/
def recvSegment (fuel : ℕ) (data : Bytes) : Option Received :=
  match GzBuffer.init z allocsz data with
  | returns gz => recvTxns z allocsz reserve txnF fuel fuel gz []
  | throws => some ⟨[], false⟩
  | runsOn => none

end

namespace Inflate

/-- Calls put out what is left to come, from the front and as far as there is room, and something as long as there is
something left. -/
structure Decodes (z : Inflate σ) (left : σ → Bytes) : Prop where
  append : ∀ s n, left s = (z.inflate s n).1 ++ left (z.inflate s n).2.2
  room : ∀ s n, (z.inflate s n).1.length ≤ n
  progress : ∀ s n, 0 < n → (z.inflate s n).1 = [] → left s = []

/-- The stream after some calls. -/
def after (z : Inflate σ) (s : σ) (ns : List ℕ) : σ := ns.foldl (fun s n => (z.inflate s n).2.2) s

/-- Data that are not a complete stream are reported, at the latest by the second call that puts out nothing. -/
def Reports (z : Inflate σ) (left : σ → Bytes) (complete : Bytes → Prop) : Prop :=
  ∀ data ns n m, ¬ complete data → 0 < n → 0 < m → left (z.after (z.inflateInit2 data).2 ns) = [] →
    (z.inflate (z.after (z.inflateInit2 data).2 (ns ++ [n])) m).2.1 < 0

end Inflate

variable {z : Inflate σ} {left : σ → Bytes} {allocsz : ℕ} {reserve : ℕ → Bool} {txnF : List Bytes → Bool}
  {gz : GzBuffer σ} {rest : Bytes}

/-- A segment that is acknowledged is complete, and its transactions were passed on. -/
def Received.Processed (r : Received) (whole : Prop) (decoded : Bytes) : Prop :=
  r.acked = true → whole ∧ decoded = writeTxns r.passed ∧ ∀ d ∈ r.passed, d.length < 2 ^ 64

/-- There is memory for each of these transactions, and it can be passed on after the ones in front of it. -/
def Passes (reserve : ℕ → Bool) (txnF : List Bytes → Bool) (passed : List Bytes) : List Bytes → Prop
  | [] => True
  | d :: txns => d.length < 2 ^ 64 ∧ reserve d.length = true ∧ txnF (passed ++ [d]) = true ∧
      Passes reserve txnF (passed ++ [d]) txns

/-- What comes out of a buffer of this size. -/
def given (allocsz : ℕ) (bs : Bytes) : Bytes := if allocsz = 0 then [] else bs

namespace GzBuffer

/-- What there is still to read. -/
def Unread (left : σ → Bytes) (allocsz : ℕ) (gz : GzBuffer σ) (rest : Bytes) : Prop :=
  gz.off + gz.avail = gz.outb.length ∧ rest = gz.outb.drop gz.off ++ given allocsz (left gz.zin)

lemma decompressChunk_eq : gz.decompressChunk z allocsz =
    returns ⟨(z.inflate gz.zin allocsz).2.2, (z.inflate gz.zin allocsz).1, 0, (z.inflate gz.zin allocsz).1.length⟩ := by
  have hpass : ∀ status : ℤ, checkZLibRC (if status < 0 then 1 else 0) = returns () := by
    intro status
    split_ifs <;> rfl
  simp only [decompressChunk, hpass, returns_bind]

lemma given_eq_append (hz : z.Decodes left) (s : σ) (n : ℕ) :
    given n (left s) = (z.inflate s n).1 ++ given n (left (z.inflate s n).2.2) := by
  rw [given, given]
  split_ifs with hn
  · subst hn
    have hout : (z.inflate s 0).1 = [] := List.eq_nil_of_length_eq_zero (Nat.le_zero.mp (hz.room s 0))
    rw [hout, List.append_nil]
  · exact hz.append s n

/-- A chunk is from the front of what there is to read, and is empty only if there is nothing. -/
lemma decompressChunk_spec (hz : z.Decodes left) (hgz : gz.Unread left allocsz rest) (havail : gz.avail = 0) :
    ∃ gz', gz.decompressChunk z allocsz = returns gz' ∧ gz'.Unread left allocsz rest ∧ (gz'.avail = 0 ↔ rest = []) := by
  obtain ⟨hoff, rfl⟩ := hgz
  have hdrop : gz.outb.drop gz.off = [] := List.drop_eq_nil_of_le (by omega)
  have hgiven := given_eq_append hz gz.zin allocsz
  rw [hdrop, List.nil_append]
  refine ⟨_, decompressChunk_eq, ⟨Nat.zero_add _, hgiven⟩, ?_⟩
  constructor
  · intro hlen
    have hout : (z.inflate gz.zin allocsz).1 = [] := List.eq_nil_of_length_eq_zero hlen
    rw [given]
    split_ifs with hn
    · rfl
    · exact hz.progress gz.zin allocsz (Nat.pos_of_ne_zero hn) hout
  · intro hnil
    rw [hnil] at hgiven
    exact List.length_eq_zero_iff.mpr (List.append_eq_nil_iff.mp hgiven.symm).1

lemma Unread.take (hgz : gz.Unread left allocsz rest) {j : ℕ} (hj : j ≤ gz.avail) :
    (gz.outb.drop gz.off).take j = rest.take j ∧ j ≤ rest.length ∧
      Unread left allocsz { gz with off := gz.off + j, avail := gz.avail - j } (rest.drop j) := by
  obtain ⟨hoff, rfl⟩ := hgz
  have hlen : j ≤ (gz.outb.drop gz.off).length := by
    rw [List.length_drop]
    omega
  refine ⟨(List.take_append_of_le_length hlen).symm, ?_, ?_, ?_⟩
  · rw [List.length_append]
    omega
  · rw [Nat.add_assoc, Nat.add_sub_cancel' hj]
    exact hoff
  · rw [List.drop_append_of_le_length hlen, List.drop_drop]

lemma eof_spec (hz : z.Decodes left) (hgz : gz.Unread left allocsz rest) :
    ∃ gz', gz.eof z allocsz = returns (decide (rest = []), gz') ∧ gz'.Unread left allocsz rest := by
  rw [eof]
  split_ifs with havail
  · have hne : rest ≠ [] := by
      intro hnil
      have hlen := (hgz.take (Nat.le_refl gz.avail)).2.1
      rw [hnil, List.length_nil] at hlen
      omega
    exact ⟨gz, by rw [decide_eq_false hne], hgz⟩
  · obtain ⟨gz', hchunk, hgz', hempty⟩ := decompressChunk_spec hz hgz (by omega)
    refine ⟨gz', ?_, hgz'⟩
    rw [hchunk, returns_bind]
    simp only [hempty]

/-- Each byte takes two rounds at most, one for a chunk and one for bytes of it. -/
lemma readLoop_spec (hz : z.Decodes left) {fuel n : ℕ} {b : Bytes} (hgz : gz.Unread left allocsz rest)
    (hfuel : (if gz.avail = 0 then 1 else 0) + 2 * rest.length ≤ fuel) :
    if n ≤ rest.length then
      ∃ gz', gz.readLoop z allocsz fuel b n = returns (b ++ rest.take n, gz') ∧ gz'.Unread left allocsz (rest.drop n)
    else gz.readLoop z allocsz fuel b n = throws := by
  induction fuel generalizing gz b n rest with
  | zero =>
    have havail := (hgz.take (Nat.le_refl gz.avail)).2.1
    split_ifs at hfuel <;> omega
  | succ fuel ih =>
    cases n with
    | zero =>
      rw [if_pos (Nat.zero_le _)]
      exact ⟨gz, by rw [readLoop, List.take_zero, List.append_nil], hgz⟩
    | succ n =>
      rw [readLoop]
      by_cases hpos : 0 < gz.avail
      · simp only [if_pos hpos]
        generalize hj : min gz.avail (n + 1) = j
        have hle : j ≤ gz.avail ∧ j ≤ n + 1 ∧ 0 < j := by omega
        obtain ⟨htake, hlen, hrest⟩ := hgz.take hle.1
        have hih := ih hrest (b := b ++ rest.take j) (n := n + 1 - j) (by
          rw [List.length_drop]
          split_ifs <;> omega)
        have hsplit : rest.take (n + 1) = rest.take j ++ (rest.drop j).take (n + 1 - j) := by
          rw [← List.take_add, Nat.add_sub_cancel' hle.2.1]
        rw [List.drop_drop, Nat.add_sub_cancel' hle.2.1, List.length_drop, List.append_assoc, ← hsplit] at hih
        rw [htake]
        by_cases hn : n + 1 ≤ rest.length
        · rw [if_pos hn]
          rwa [if_pos (by omega)] at hih
        · rw [if_neg hn]
          rwa [if_neg (by omega)] at hih
      · have hzero : gz.avail = 0 := Nat.eq_zero_of_not_pos hpos
        obtain ⟨gz', hchunk, hgz', hempty⟩ := decompressChunk_spec hz hgz hzero
        simp only [if_neg hpos, hchunk, returns_bind]
        rw [if_pos hzero] at hfuel
        by_cases hnil : gz'.avail = 0
        · rw [if_pos hnil, hempty.1 hnil, List.length_nil, if_neg (Nat.not_succ_le_zero n)]
        · rw [if_neg hnil]
          exact ih hgz' (by rw [if_neg hnil]; omega)

lemma Unread.read_spec (hgz : gz.Unread left allocsz rest) (hz : z.Decodes left) {fuel n : ℕ}
    (hfuel : 2 * rest.length < fuel) :
    if n ≤ rest.length then
      ∃ gz', gz.read z allocsz fuel n = returns (rest.take n, gz') ∧ gz'.Unread left allocsz (rest.drop n)
    else gz.read z allocsz fuel n = throws :=
  readLoop_spec hz (b := []) hgz (by split_ifs <;> omega)

end GzBuffer

lemma readTxn_eq (rest : Bytes) : readTxn rest =
    if 8 ≤ rest.length then
      if leNat (rest.take 8) ≤ (rest.drop 8).length then
        some ((rest.drop 8).take (leNat (rest.take 8)), (rest.drop 8).drop (leNat (rest.take 8)))
      else none
    else none := by
  rw [readTxn, Stream.counted, Stream.bind_apply, Stream.number, Stream.bind_apply, Stream.recv]
  split_ifs with hsize hbytes
  · simp only [Option.bind_some, Stream.pure_apply, Stream.recv, if_pos hbytes]
  · simp only [Option.bind_some, Stream.pure_apply, Stream.recv, if_neg hbytes]
  · rfl

/-- What is read as a transaction is the front of what is written for it. -/
lemma readTxn_eq_some {txn rest' : Bytes} (h : readTxn rest = some (txn, rest')) :
    txn.length < 2 ^ 64 ∧ rest = leBytes 8 txn.length ++ txn ++ rest' := by
  rw [readTxn_eq] at h
  split_ifs at h with hsize hbytes
  obtain ⟨rfl, rfl⟩ := Prod.mk.inj (Option.some.inj h)
  have hlen : (rest.take 8).length = 8 := List.length_take_of_le hsize
  have hlt := leNat_lt (rest.take 8)
  have hback := leBytes_leNat (rest.take 8)
  rw [hlen] at hlt hback
  rw [List.length_take_of_le hbytes, hback, List.append_assoc, List.take_append_drop, List.take_append_drop]
  exact ⟨by simpa using hlt, rfl⟩

/-- However the bytes come in chunks, a transaction is read as it is from all of them. -/
lemma recvTxn_spec (reserve : ℕ → Bool) (hz : z.Decodes left) {fuel : ℕ} (hgz : gz.Unread left allocsz rest)
    (hfuel : 2 * rest.length < fuel) :
    match readTxn rest with
    | some (txn, rest') =>
      if reserve txn.length = true then
        ∃ gz', recvTxn z allocsz reserve fuel gz = returns (txn, gz') ∧ gz'.Unread left allocsz rest'
      else recvTxn z allocsz reserve fuel gz = throws
    | none => recvTxn z allocsz reserve fuel gz = throws := by
  have hread := hgz.read_spec (n := 8) hz hfuel
  have hfuel' : 2 * (rest.drop 8).length < fuel := by
    rw [List.length_drop]
    omega
  rw [readTxn_eq, recvTxn]
  split_ifs with hsize hbytes
  · rw [if_pos hsize] at hread
    obtain ⟨gz', hread, hgz'⟩ := hread
    have hpayload := hgz'.read_spec (n := leNat (rest.take 8)) hz hfuel'
    rw [if_pos hbytes] at hpayload
    obtain ⟨gz'', hpayload, hgz''⟩ := hpayload
    simp only [hread, returns_bind, List.length_take_of_le hbytes]
    split_ifs with hreserve
    · exact ⟨gz'', hpayload, hgz''⟩
    · rfl
  · rw [if_pos hsize] at hread
    obtain ⟨gz', hread, hgz'⟩ := hread
    have hpayload := hgz'.read_spec (n := leNat (rest.take 8)) hz hfuel'
    rw [if_neg hbytes] at hpayload
    simp only [hread, returns_bind, hpayload]
    split_ifs <;> rfl
  · rw [if_neg hsize] at hread
    rw [hread, throws_bind]

/-- What is read to the end is acknowledged just if it is some transactions that can be passed on. -/
lemma recvTxns_spec (reserve : ℕ → Bool) (txnF : List Bytes → Bool) (passed : List Bytes) (hz : z.Decodes left)
    {k fuel : ℕ} (hgz : gz.Unread left allocsz rest) (hk : 2 * rest.length < k) (hfuel : rest.length < fuel) :
    ∃ r, recvTxns z allocsz reserve txnF k fuel gz passed = some r ∧
      (r.acked = true ↔ ∃ txns, rest = writeTxns txns ∧ Passes reserve txnF passed txns) ∧
      (r.acked = true → ∃ txns, r.passed = passed ++ txns ∧ rest = writeTxns txns ∧ ∀ d ∈ txns, d.length < 2 ^ 64) := by
  induction fuel generalizing gz rest passed with
  | zero => exact absurd hfuel (Nat.not_lt_zero _)
  | succ fuel ih =>
    obtain ⟨gz', heof, hgz'⟩ := GzBuffer.eof_spec hz hgz
    rw [recvTxns, heof]
    by_cases hnil : rest = []
    · subst hnil
      exact ⟨⟨passed, true⟩, rfl, ⟨fun _ => ⟨[], rfl, trivial⟩, fun _ => rfl⟩,
        fun _ => ⟨[], (List.append_nil _).symm, rfl, nofun⟩⟩
    · rw [decide_eq_false hnil]
      have htxn := recvTxn_spec reserve hz hgz' hk
      -- the transactions, if any, start with the one that is read
      have hfirst : ∀ txns, rest = writeTxns txns → Passes reserve txnF passed txns →
          ∃ d ds, txns = d :: ds ∧ readTxn rest = some (d, writeTxns ds) := by
        intro txns hrest hpasses
        cases txns with
        | nil => exact absurd hrest hnil
        | cons d ds => exact ⟨d, ds, rfl, hrest ▸ readTxn_writeTxns hpasses.1 ds⟩
      cases hread : readTxn rest with
      | none =>
        rw [hread] at htxn
        simp only [htxn]
        refine ⟨⟨passed, false⟩, rfl, ⟨nofun, ?_⟩, nofun⟩
        rintro ⟨txns, hrest, hpasses⟩
        obtain ⟨d, ds, -, hsome⟩ := hfirst txns hrest hpasses
        cases hread.symm.trans hsome
      | some r =>
        obtain ⟨txn, rest'⟩ := r
        obtain ⟨hsmall, hrest⟩ := readTxn_eq_some hread
        have hcons : ∀ txns, rest = writeTxns txns → Passes reserve txnF passed txns → ∃ ds, txns = txn :: ds ∧
            rest' = writeTxns ds ∧ Passes reserve txnF passed (txn :: ds) := by
          intro txns htxns hpasses
          obtain ⟨d, ds, rfl, hsome⟩ := hfirst txns htxns hpasses
          cases hread.symm.trans hsome
          exact ⟨ds, rfl, rfl, hpasses⟩
        rw [hread] at htxn
        simp only at htxn
        by_cases hreserve : reserve txn.length = true
        · rw [if_pos hreserve] at htxn
          obtain ⟨gz'', htxn, hgz''⟩ := htxn
          simp only [htxn]
          by_cases hreturns : txnF (passed ++ [txn]) = true
          · rw [if_pos hreturns]
            have hshort : rest'.length + 8 ≤ rest.length := by
              rw [hrest]
              simp
              omega
            obtain ⟨r, hr, hiff, hacked⟩ := ih (passed ++ [txn]) hgz'' (by omega) (by omega)
            refine ⟨r, hr, hiff.trans ⟨?_, ?_⟩, fun h => ?_⟩
            · rintro ⟨txns, rfl, hpasses⟩
              exact ⟨txn :: txns, hrest, hsmall, hreserve, hreturns, hpasses⟩
            · rintro ⟨txns, htxns, hpasses⟩
              obtain ⟨ds, -, hds, hpasses⟩ := hcons txns htxns hpasses
              exact ⟨ds, hds, hpasses.2.2.2⟩
            · obtain ⟨txns, hpassed, rfl, hall⟩ := hacked h
              refine ⟨txn :: txns, ?_, hrest, List.forall_mem_cons.mpr ⟨hsmall, hall⟩⟩
              rw [hpassed, List.append_assoc, List.singleton_append]
          · rw [if_neg hreturns]
            refine ⟨_, rfl, ⟨nofun, ?_⟩, nofun⟩
            rintro ⟨txns, htxns, hpasses⟩
            obtain ⟨ds, -, -, hpasses⟩ := hcons txns htxns hpasses
            exact absurd hpasses.2.2.1 hreturns
        · rw [if_neg hreserve] at htxn
          simp only [htxn]
          refine ⟨⟨passed, false⟩, rfl, ⟨nofun, ?_⟩, nofun⟩
          rintro ⟨txns, htxns, hpasses⟩
          obtain ⟨ds, -, -, hpasses⟩ := hcons txns htxns hpasses
          exact absurd hpasses.2.1 hreserve

/-- What comes out of the buffer is some transactions, and all of them can be passed on. -/
def Acknowledges (z : Inflate σ) (left : σ → Bytes) (allocsz : ℕ) (reserve : ℕ → Bool) (txnF : List Bytes → Bool)
    (data : Bytes) : Prop :=
  0 ≤ (z.inflateInit2 data).1 ∧
    ∃ txns, given allocsz (left (z.inflateInit2 data).2) = writeTxns txns ∧ Passes reserve txnF [] txns

lemma recvSegment_spec (hz : z.Decodes left) (data : Bytes) : ∃ k, ∀ fuel, k ≤ fuel →
    ∃ r, recvSegment z allocsz reserve txnF fuel data = some r ∧
      (r.acked = true ↔ Acknowledges z left allocsz reserve txnF data) ∧
      (r.acked = true → given allocsz (left (z.inflateInit2 data).2) = writeTxns r.passed ∧
        ∀ d ∈ r.passed, d.length < 2 ^ 64) := by
  by_cases hstatus : (z.inflateInit2 data).1 < 0
  · refine ⟨0, fun fuel _ => ⟨⟨[], false⟩, ?_, ⟨nofun, fun hack => absurd hack.1 (Int.not_le.mpr hstatus)⟩, nofun⟩⟩
    simp only [recvSegment, GzBuffer.init, checkZLibRC, if_pos hstatus, throws_bind]
  · rw [Acknowledges]
    generalize hdecoded : given allocsz (left (z.inflateInit2 data).2) = decoded
    have hstart : GzBuffer.Unread left allocsz ⟨(z.inflateInit2 data).2, [], 0, 0⟩ decoded := ⟨rfl, hdecoded.symm⟩
    obtain ⟨gz, hchunk, hgz, -⟩ := GzBuffer.decompressChunk_spec hz hstart rfl
    have hinit : GzBuffer.init z allocsz data = returns gz := by
      simp only [GzBuffer.init, checkZLibRC, if_neg hstatus, returns_bind, hchunk]
    refine ⟨2 * decoded.length + 1, fun fuel hfuel => ?_⟩
    have hk : 2 * decoded.length < fuel := hfuel
    obtain ⟨r, hr, hiff, hacked⟩ := recvTxns_spec reserve txnF [] hz hgz hk (by omega : decoded.length < fuel)
    refine ⟨r, ?_, hiff.trans ⟨fun h => ⟨Int.not_lt.mp hstatus, h⟩, And.right⟩, fun h => ?_⟩
    · rw [recvSegment, hinit]
      exact hr
    · obtain ⟨txns, hpassed, hwritten, hsmall⟩ := hacked h
      rw [hpassed, List.nil_append]
      exact ⟨hwritten, hsmall⟩

/-- A file of one block that is stored as it is. -/
def isStored (data : Bytes) : Bool :=
  data.take 11 = [31, 139, 8, 0, 0, 0, 0, 0, 0, 3, 1] ∧ data.length = leNat ((data.drop 11).take 2) + 23

/-- Such files are decompressed, and others reported. -/
def inflateStored : Inflate (Bytes × Bool) where
  inflateInit2 data :=
    (0, if isStored data then (data.drop 15).take (leNat ((data.drop 11).take 2)) else [], isStored data)
  inflate s n := (s.1.take n, if s.1.length ≤ n then if s.2 then 1 else -3 else 0, s.1.drop n, s.2)

lemma inflateStored_decodes : inflateStored.Decodes Prod.fst where
  append s n := (List.take_append_drop n s.1).symm
  room s n := List.length_take_le n s.1
  progress s n hn h := by
    rcases List.take_eq_nil_iff.mp h with rfl | hnil
    · exact absurd hn (Nat.lt_irrefl 0)
    · exact hnil

lemma inflateStored_reports : inflateStored.Reports Prod.fst (isStored · = true) := by
  have hafter : ∀ ns s, (inflateStored.after s ns).2 = s.2 := by
    intro ns
    induction ns with
    | nil => exact fun _ => rfl
    | cons n ns ih => exact fun s => ih _
  intro data ns n m hdata hn hm hleft
  have hflag : (inflateStored.after (inflateStored.inflateInit2 data).2 (ns ++ [n])).2 = isStored data := hafter _ _
  have hnil : (inflateStored.after (inflateStored.inflateInit2 data).2 (ns ++ [n])).1 = [] := by
    rw [Inflate.after, List.foldl_append]
    exact congrArg (List.drop n) hleft |>.trans List.drop_nil
  generalize inflateStored.after (inflateStored.inflateInit2 data).2 (ns ++ [n]) = s at hflag hnil
  have hfalse : s.2 = false := hflag.trans (Bool.eq_false_iff.mpr hdata)
  simp [inflateStored, hnil, hfalse]

/-- One transaction of a byte. -/
def storedSegment : Bytes :=
  [31, 139, 8, 0, 0, 0, 0, 0, 0, 3, 1, 9, 0, 246, 255, 1, 0, 0, 0, 0, 0, 0, 0, 7, 78, 149, 22, 111, 9, 0, 0, 0]

end Hobbes.Hog
