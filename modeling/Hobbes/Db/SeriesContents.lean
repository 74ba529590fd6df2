import Hobbes.Db.Series

/-!
# What a stored series holds

Sessions that open the series on a batch with room for as many records as they put into a batch store
every record inside its array, and the list of batches holds the records that were counted.
-/

namespace Hobbes.Db

open Core

/-- Following the list from a node leads to these batches, the newest first. -/
inductive Linked (nodes : List BatchNode) : ℕ → List ℕ → Prop where
  | nil {p : ℕ} (h : nodes[p]? = some .nil) : Linked nodes p []
  | cons {p batch next : ℕ} {refs : List ℕ} (h : nodes[p]? = some (.cons batch next))
      (ht : Linked nodes next refs) : Linked nodes p (batch :: refs)

/-- The records that a batch says it has, of `n` bytes each. -/
def Batch.contents (n : ℕ) (b : Batch) : List Bytes :=
  (List.range b.count).map fun i => b.data.read (i * n) n

/-- The records of a batch of the file. -/
def SeriesFile.contents (s : SeriesFile) (r : ℕ) : List Bytes :=
  (s.batches[r]?.map (Batch.contents s.storageSize)).getD []

/-- No record was written outside of its array, and the list holds what was counted, the oldest batch
first. -/
structure SeriesFile.Intact (s : SeriesFile) : Prop where
  inside : s.outside = false
  contents : ∀ h, s.headNodeRef = some h →
    ∃ refs, Linked s.nodes h refs ∧ refs.reverse.flatMap s.contents = s.recorded

/-- The batch that a session on the file goes on with. -/
def SeriesFile.current (s : SeriesFile) : Option Batch := do
  let head ← s.headNodeRef
  match ← s.nodes[head]? with
  | .nil => none
  | .cons batch _ => s.batches[batch]?

/-- A session is opened with a batch size that can be allocated, that the batch to go on with has not
reached, and for which its array has room. -/
def SeriesEvent.Fits : SeriesEvent → SeriesFile → Prop
  | .open batchSize, s => 16 + batchSize * s.storageSize < 2 ^ 64 ∧
    ∀ b ∈ s.current, b.count < batchSize ∧ batchSize * s.storageSize ≤ b.space
  | _, _ => True

instance : ∀ (e : SeriesEvent) (s : SeriesFile), Decidable (e.Fits s)
  | .open _, _ => inferInstanceAs (Decidable (_ ∧ _))
  | .record _, _ | .step, _ | .clear, _ | .close, _ => inferInstanceAs (Decidable True)

variable {s s' : SeriesFile} {n : ℕ} {ss : StoredSeries} {b : Batch} {refs : List ℕ}

/-! ### Lists of batches -/

lemma Linked.append {nodes : List BatchNode} {p : ℕ} (h : Linked nodes p refs)
    (more : List BatchNode) : Linked (nodes ++ more) p refs := by
  have hget : ∀ (q : ℕ) x, nodes[q]? = some x → (nodes ++ more)[q]? = some x := by
    intro q x hq
    rw [List.getElem?_append_left (List.getElem?_eq_some_iff.mp hq).1, hq]
  induction h with
  | nil h => exact .nil (hget _ _ h)
  | cons h _ ih => exact .cons (hget _ _ h) ih

/-- Behind the records of a batch, a record can be stored. -/
lemma Batch.contents_write (b : Batch) (n : ℕ) (v : Bytes) :
    Batch.contents n { b with data := b.data.write (b.count * n) v } = b.contents n := by
  refine List.map_congr_left fun i hi => Disk.read_congr fun j _ hj => Disk.write_before _ _ ?_
  calc j < i * n + n := hj
    _ = (i + 1) * n := (Nat.succ_mul i n).symm
    _ ≤ b.count * n := Nat.mul_le_mul_right n (List.mem_range.mp hi)

lemma Batch.contents_succ (b : Batch) (n : ℕ) :
    Batch.contents n { b with count := b.count + 1 } =
      b.contents n ++ [b.data.read (b.count * n) n] := by
  simp [Batch.contents, List.range_succ]

/-! ### The invariant -/

/-- Where a session stands in its batch. -/
structure StoredSeries.At (n : ℕ) (ss : StoredSeries) (b : Batch) : Prop where
  size : 16 + ss.batchSize * n < 2 ^ 64
  positive : 1 ≤ ss.batchSize
  bound : ss.batchSize < 2 ^ 64
  space : ss.batchSize * n ≤ b.space
  idle : ss.pc = .idle → b.count < ss.batchSize ∧ ss.batchHead = b.count * n
  stored : ss.pc = .stored → b.count < ss.batchSize ∧ b.data.read (b.count * n) n = ss.value ∧
    ss.batchHead = (b.count + 1) * n

/-- The list from the node `p` is one of different batches, which hold the records `vs`. -/
structure SeriesFile.Lists (s : SeriesFile) (p : ℕ) (refs : List ℕ) (vs : List Bytes) : Prop where
  linked : Linked s.nodes p refs
  nodup : refs.Nodup
  lt : ∀ r ∈ refs, r < s.batches.length
  contents : refs.reverse.flatMap s.contents = vs

/-- The list of batches that the head leads to, and the session on the first of them. -/
structure SeriesFile.Inv (n : ℕ) (s : SeriesFile) : Prop where
  size : s.storageSize = n
  inside : s.outside = false
  unopened : s.headNodeRef = none → s.recorded = [] ∧ s.session = none
  listed : ∀ h, s.headNodeRef = some h → ∃ refs, s.Lists h refs s.recorded
  session : ∀ ss, s.session = some ss → s.headNodeRef = some ss.batchNode ∧
    ∃ b next, s.nodes[ss.batchNode]? = some (.cons ss.batchDataRef next) ∧
      s.batches[ss.batchDataRef]? = some b ∧ ss.At n b

namespace SeriesFile

/-- The contents of batches do not depend on what is allocated behind them. -/
lemma Lists.append {p : ℕ} {vs : List Bytes} (h : s.Lists p refs vs) {bs : List Batch}
    {ns : List BatchNode} (hsize : s'.storageSize = s.storageSize)
    (hbatches : s'.batches = s.batches ++ bs) (hnodes : s'.nodes = s.nodes ++ ns) :
    s'.Lists p refs vs := by
  refine ⟨hnodes ▸ h.linked.append ns, h.nodup, fun r hr => ?_, ?_⟩
  · rw [hbatches, List.length_append]
    exact Nat.lt_add_right _ (h.lt r hr)
  · rw [← h.contents]
    refine List.flatMap_congr fun r hr => ?_
    rw [SeriesFile.contents, SeriesFile.contents, hbatches, hsize,
      List.getElem?_append_left (h.lt r (List.mem_reverse.mp hr))]

/-- What a session keeps is no part of the list. -/
lemma Lists.congr {p : ℕ} {vs : List Bytes} (h : s.Lists p refs vs)
    (hsize : s'.storageSize = s.storageSize) (hbatches : s'.batches = s.batches)
    (hnodes : s'.nodes = s.nodes) : s'.Lists p refs vs :=
  h.append hsize (hbatches.trans (List.append_nil _).symm) (hnodes.trans (List.append_nil _).symm)

/-- A node for an empty list. -/
lemma lists_allocBatchNode (s : SeriesFile) :
    (s.allocBatchNode .nil).1.Lists (s.allocBatchNode .nil).2 [] [] := by
  refine ⟨.nil ?_, List.nodup_nil, by simp, rfl⟩
  simp [allocBatchNode]

/-- A new batch in front of a list. -/
lemma inv_consBatchNode {batchSize p : ℕ} (hsize : s.storageSize = n) (hinside : s.outside = false)
    (hlists : s.Lists p refs s.recorded) (hfits : 16 + batchSize * n < 2 ^ 64)
    (hpos : 1 ≤ batchSize) (hbound : batchSize < 2 ^ 64) :
    (s.consBatchNode batchSize p).Inv n := by
  have hold : (s.consBatchNode batchSize p).Lists p refs s.recorded := hlists.append rfl rfl rfl
  obtain ⟨hlinked, hnodup, hlt, hcontents⟩ := hold
  have hnode : (s.consBatchNode batchSize p).nodes[s.nodes.length]? =
      some (.cons s.batches.length p) := by
    simp [consBatchNode, unsafeStoreArrayToOffset, allocBatchNode]
  have hbatch : (s.consBatchNode batchSize p).batches[s.batches.length]? =
      some ⟨(16 + batchSize * s.storageSize) % 2 ^ 64 - 16, 0, Disk.blank⟩ := by
    simp [consBatchNode, unsafeStoreArrayToOffset, allocBatchNode]
  have hempty : (s.consBatchNode batchSize p).contents s.batches.length = [] := by
    rw [SeriesFile.contents, hbatch]
    rfl
  have hsession : (s.consBatchNode batchSize p).session =
      some ⟨batchSize, s.batches.length, 0, s.nodes.length, .idle, []⟩ := rfl
  have hhead : (s.consBatchNode batchSize p).headNodeRef = some s.nodes.length := rfl
  refine ⟨hsize, hinside, fun h => ?_, fun h hh => ?_, fun ss hss => ?_⟩
  · rw [hhead] at h
    cases h
  · obtain rfl : s.nodes.length = h := Option.some.inj (hhead.symm.trans hh)
    refine ⟨s.batches.length :: refs, .cons hnode hlinked, List.nodup_cons.mpr ⟨?_, hnodup⟩, ?_, ?_⟩
    · intro hmem
      exact absurd (hlists.lt _ hmem) (Nat.lt_irrefl _)
    · intro r hr
      rcases List.mem_cons.mp hr with rfl | hr
      · exact (List.getElem?_eq_some_iff.mp hbatch).1
      · exact hlt r hr
    · rw [List.reverse_cons, List.flatMap_append, hcontents, List.flatMap_singleton, hempty,
        List.append_nil]
      rfl
  · obtain rfl := Option.some.inj (hsession.symm.trans hss)
    refine ⟨hhead, _, p, hnode, hbatch, hfits, hpos, hbound, ?_, fun _ => ⟨hpos, by simp⟩, ?_⟩
    · rw [hsize, Nat.mod_eq_of_lt hfits]
      exact Nat.le_of_eq (Nat.add_sub_cancel_left ..).symm
    · intro hpc
      cases hpc

/-- The first batch of a list is changed: it has more records. -/
lemma Lists.set {p r : ℕ} {vs ws : List Bytes} (h : s.Lists p (r :: refs) vs)
    (hsize : s'.storageSize = s.storageSize) (hnodes : s'.nodes = s.nodes)
    (hlen : s'.batches.length = s.batches.length)
    (hother : ∀ q, q ≠ r → s'.batches[q]? = s.batches[q]?)
    (hcontents : s'.contents r = s.contents r ++ ws) : s'.Lists p (r :: refs) (vs ++ ws) := by
  refine ⟨hnodes ▸ h.linked, h.nodup, fun q hq => hlen ▸ h.lt q hq, ?_⟩
  have hrefs : refs.reverse.flatMap s'.contents = refs.reverse.flatMap s.contents := by
    refine List.flatMap_congr fun q hq => ?_
    have hne : q ≠ r := by
      rintro rfl
      exact (List.nodup_cons.mp h.nodup).1 (List.mem_reverse.mp hq)
    rw [SeriesFile.contents, SeriesFile.contents, hsize, hother q hne]
  rw [← h.contents, List.reverse_cons, List.flatMap_append, List.flatMap_append, hrefs,
    List.flatMap_singleton, List.flatMap_singleton, hcontents, List.append_assoc]

/-- The session is on the first batch of the list. -/
lemma Inv.lists (h : s.Inv n) (hss : s.session = some ss) :
    ∃ refs, s.Lists ss.batchNode (ss.batchDataRef :: refs) s.recorded := by
  obtain ⟨hhead, b, next, hnode, -⟩ := h.session ss hss
  obtain ⟨refs, hlists⟩ := h.listed _ hhead
  have hlinked := hlists.linked
  cases hlinked with
  | nil hnil =>
    rw [hnode] at hnil
    cases hnil
  | cons hcons ht =>
    rw [hnode] at hcons
    cases hcons
    exact ⟨_, hlists⟩

/-- A record is stored behind those of the batch. -/
lemma Inv.storeRecord {v : Bytes} (h : s.Inv n) (hss : s.session = some ss) (hpc : ss.pc = .idle)
    (hv : v.length = n) : (s.storeRecord ss v).Inv n := by
  obtain ⟨hhead, b, next, hnode, hb, hat⟩ := h.session ss hss
  obtain ⟨refs, hlists⟩ := h.lists hss
  obtain ⟨hcount, hbatchHead⟩ := hat.idle hpc
  let b' : Batch := { b with data := b.data.write ss.batchHead v }
  have hb' : (s.storeRecord ss v).batches[ss.batchDataRef]? = some b' := by
    simp [SeriesFile.storeRecord, hb, b']
  have hcontents : (s.storeRecord ss v).contents ss.batchDataRef =
      s.contents ss.batchDataRef ++ [] := by
    rw [SeriesFile.contents, SeriesFile.contents, hb', hb, List.append_nil]
    change b'.contents s.storageSize = b.contents s.storageSize
    rw [h.size, ← b.contents_write n v, ← hbatchHead]
  have hlists' : (s.storeRecord ss v).Lists ss.batchNode (ss.batchDataRef :: refs) s.recorded := by
    rw [← List.append_nil s.recorded]
    refine hlists.set rfl rfl (by simp [SeriesFile.storeRecord]) (fun q hq => ?_) hcontents
    simp [SeriesFile.storeRecord, Ne.symm hq]
  have hle : (b.count + 1) * n ≤ b.space :=
    Nat.le_trans (Nat.mul_le_mul_right n hcount) hat.space
  have hadvance : ss.batchHead + n = (b.count + 1) * n := by
    rw [hbatchHead, Nat.succ_mul]
  refine ⟨h.size, ?_, fun hnone => ?_, fun p hp => ?_, fun t ht => ?_⟩
  · simp [SeriesFile.storeRecord, h.inside, hb, h.size, hadvance, hle]
  · exact absurd (hnone.symm.trans hhead) (by simp)
  · obtain rfl : ss.batchNode = p := Option.some.inj (hhead.symm.trans hp)
    exact ⟨_, hlists'⟩
  · obtain rfl := Option.some.inj ht
    refine ⟨hhead, b', next, hnode, hb', hat.size, hat.positive, hat.bound, hat.space, ?_, ?_⟩
    · intro hidle
      cases hidle
    · intro _
      refine ⟨hcount, ?_, ?_⟩
      · have hread := Disk.holds_write b.data ss.batchHead v
        rw [Disk.Holds, hv, hbatchHead] at hread
        change (b.data.write ss.batchHead v).read (b.count * n) n = v
        rw [hbatchHead, hread]
      · rw [← hadvance, ← h.size]

/-- The record that was stored is counted. -/
lemma Inv.countRecord (h : s.Inv n) (hss : s.session = some ss) (hpc : ss.pc = .stored)
    (hs : s.countRecord ss = some s') : s'.Inv n := by
  obtain ⟨hhead, b, next, hnode, hb, hat⟩ := h.session ss hss
  obtain ⟨refs, hlists⟩ := h.lists hss
  obtain ⟨hcount, hvalue, hbatchHead⟩ := hat.stored hpc
  have hbound := hat.bound
  simp only [SeriesFile.countRecord, hb, Option.map_some, Option.some.injEq,
    Nat.mod_eq_of_lt (show b.count + 1 < 2 ^ 64 by omega)] at hs
  subst hs
  have hlt : ss.batchDataRef < s.batches.length := (List.getElem?_eq_some_iff.mp hb).1
  have hb' : (s.batches.set ss.batchDataRef { b with count := b.count + 1 })[ss.batchDataRef]? =
      some { b with count := b.count + 1 } := by
    simp [hlt]
  refine ⟨h.size, h.inside, fun hnone => ?_, fun p hp => ?_, fun t ht => ?_⟩
  · exact absurd (hnone.symm.trans hhead) (by simp)
  · obtain rfl : ss.batchNode = p := Option.some.inj (hhead.symm.trans hp)
    refine ⟨_, hlists.set rfl rfl (by simp) (fun q hq => ?_) ?_⟩
    · exact List.getElem?_set_ne (Ne.symm hq)
    · rw [SeriesFile.contents, SeriesFile.contents, hb', hb]
      change Batch.contents s.storageSize { b with count := b.count + 1 } =
        b.contents s.storageSize ++ [ss.value]
      rw [Batch.contents_succ, h.size, hvalue]
  · obtain rfl := Option.some.inj ht
    refine ⟨hhead, _, next, hnode, hb', hat.size, hat.positive, hat.bound, hat.space, ?_, ?_⟩
    · intro hidle
      have hne : b.count + 1 ≠ ss.batchSize := by
        intro heq
        simp [heq] at hidle
      exact ⟨Nat.lt_of_le_of_ne hcount hne, hbatchHead⟩
    · intro hstored
      dsimp only at hstored
      split_ifs at hstored

/-- A session begins. -/
lemma Inv.openSeries {batchSize : ℕ} (h : s.Inv n) (hpos : 1 ≤ batchSize)
    (hbound : batchSize < 2 ^ 64) (hfits : (SeriesEvent.open batchSize).Fits s)
    (hs : s.openSeries batchSize = some s') : s'.Inv n := by
  obtain ⟨hfits, hcurrent⟩ := hfits
  rw [h.size] at hfits
  simp only [SeriesFile.openSeries] at hs
  split at hs
  · rename_i head hhead
    obtain ⟨refs, hlists⟩ := h.listed head hhead
    simp only [restartFromBatchNode] at hs
    split at hs
    · cases hs
    · rename_i hnode
      obtain rfl := Option.some.inj hs
      have hnil : s.recorded = [] := by
        have hlinked := hlists.linked
        have hcontents := hlists.contents
        cases hlinked with
        | nil => exact hcontents.symm
        | cons hcons =>
          rw [hnode] at hcons
          cases hcons
      have hlists' : (s.allocBatchNode .nil).1.Lists (s.allocBatchNode .nil).2 [] s.recorded :=
        hnil ▸ s.lists_allocBatchNode
      exact inv_consBatchNode h.size h.inside hlists' hfits hpos hbound
    · rename_i batch next hnode
      obtain ⟨b, hb, rfl⟩ := Option.map_eq_some_iff.mp hs
      have hcur : s.current = some b := by
        simp [SeriesFile.current, hhead, hnode, hb]
      obtain ⟨hcount, hspace⟩ := hcurrent b hcur
      rw [h.size] at hspace
      refine ⟨h.size, h.inside, fun hnone => ?_, fun p hp => ?_, fun t ht => ?_⟩
      · exact absurd (hnone.symm.trans hhead) (by simp)
      · obtain ⟨refs, hlists⟩ := h.listed p hp
        exact ⟨refs, hlists.congr rfl rfl rfl⟩
      · obtain rfl := Option.some.inj ht
        refine ⟨hhead, b, next, hnode, hb, hfits, hpos, hbound, hspace, fun _ => ⟨hcount, ?_⟩, ?_⟩
        · have hle : b.count * n ≤ batchSize * n := Nat.mul_le_mul_right n (Nat.le_of_lt hcount)
          rw [h.size]
          exact Nat.mod_eq_of_lt (by omega)
        · intro hstored
          cases hstored
  · rename_i hnone
    obtain rfl := Option.some.inj hs
    have hlists : (s.allocBatchNode .nil).1.Lists (s.allocBatchNode .nil).2 [] s.recorded :=
      (h.unopened hnone).1 ▸ s.lists_allocBatchNode
    exact inv_consBatchNode h.size h.inside hlists hfits hpos hbound

lemma Inv.step {e : SeriesEvent} (h : s.Inv n) (he : e.Fits s) (hs : SeriesFile.step e s = some s') :
    s'.Inv n := by
  cases e with
  | «open» batchSize =>
    simp only [SeriesFile.step, Option.ite_none_right_eq_some] at hs
    exact h.openSeries hs.1.2.1 hs.1.2.2 he hs.2
  | record v =>
    obtain ⟨ss, hss, hs⟩ := Option.bind_eq_some_iff.mp hs
    simp only [Option.ite_none_right_eq_some, Option.some.injEq] at hs
    obtain ⟨⟨hpc, hv⟩, rfl⟩ := hs
    exact h.storeRecord hss hpc (hv.trans h.size)
  | step =>
    obtain ⟨ss, hss, hs⟩ := Option.bind_eq_some_iff.mp hs
    obtain ⟨hhead, b, next, hnode, hb, hat⟩ := h.session ss hss
    cases hpc : ss.pc with
    | idle => simp [runRecord, hpc] at hs
    | stored =>
      simp only [runRecord, hpc] at hs
      exact h.countRecord hss hpc hs
    | full =>
      simp only [runRecord, hpc, Option.some.injEq] at hs
      obtain ⟨refs, hlists⟩ := h.lists hss
      exact hs ▸ inv_consBatchNode h.size h.inside hlists hat.size hat.positive hat.bound
  | clear =>
    obtain ⟨ss, hss, hs⟩ := Option.bind_eq_some_iff.mp hs
    obtain ⟨-, b, next, -, -, hat⟩ := h.session ss hss
    simp only [Option.ite_none_right_eq_some, Option.some.injEq] at hs
    obtain ⟨-, rfl⟩ := hs
    -- the records up to here are forgotten
    let t : SeriesFile := { (s.allocBatchNode .nil).1 with recorded := [] }
    have hlists : t.Lists (s.allocBatchNode .nil).2 [] t.recorded :=
      s.lists_allocBatchNode.congr rfl rfl rfl
    have hcons : (t.consBatchNode ss.batchSize (s.allocBatchNode .nil).2).Inv n :=
      inv_consBatchNode h.size h.inside hlists hat.size hat.positive hat.bound
    exact hcons
  | close =>
    obtain ⟨ss, -, rfl⟩ := Option.map_eq_some_iff.mp hs
    refine ⟨h.size, h.inside, fun hnone => ⟨(h.unopened hnone).1, rfl⟩, fun p hp => ?_, by simp⟩
    obtain ⟨refs, hlists⟩ := h.listed p hp
    exact ⟨refs, hlists.congr rfl rfl rfl⟩

lemma Inv.intact (h : s.Inv n) : s.Intact :=
  ⟨h.inside, fun p hp =>
    let ⟨refs, hlists⟩ := h.listed p hp
    ⟨refs, hlists.linked, hlists.contents⟩⟩

lemma init_inv (n : ℕ) : (SeriesFile.init n).Inv n :=
  ⟨rfl, rfl, fun _ => ⟨rfl, rfl⟩, by simp [SeriesFile.init], by simp [SeriesFile.init]⟩

end SeriesFile

/-- In every run whose sessions are opened on batches with room for as many records as they put into
one, the series is intact after every step. -/
theorem SeriesFile.intact_of_fits (storageSize : ℕ) {es : List SeriesEvent}
    (hs : runEvents (guarded SeriesEvent.Fits SeriesFile.step) es (SeriesFile.init storageSize) =
      some s) : s.Intact := by
  refine ((Reachable.start.runEvents hs).invariant (init_inv storageSize) fun e s s' h hs => ?_).intact
  obtain ⟨he, hs⟩ := guarded_eq_some.mp hs
  exact h.step he hs

/-- Three sessions with batches of three records and of two, and a `clear`. -/
theorem SeriesFile.intact_of_fits_three : ∃ s,
    runEvents (guarded SeriesEvent.Fits SeriesFile.step)
      [.open 3, .record [1], .step, .close, .open 2, .record [2], .step, .step, .record [3], .step,
        .clear, .record [4], .close, .open 2, .record [5], .step]
      (SeriesFile.init 1) = some s ∧ s.recorded = [[5]] ∧ s.Intact := by
  have hrun : (runEvents (guarded SeriesEvent.Fits SeriesFile.step)
      [.open 3, .record [1], .step, .close, .open 2, .record [2], .step, .step, .record [3], .step,
        .clear, .record [4], .close, .open 2, .record [5], .step]
      (SeriesFile.init 1)).map SeriesFile.recorded = some [[5]] := by decide +kernel
  obtain ⟨s, hs, hrecorded⟩ := Option.map_eq_some_iff.mp hrun
  exact ⟨s, hs, hrecorded, SeriesFile.intact_of_fits 1 hs⟩

/-- The session ends after the record that fills the batch was counted: the next one writes behind
the array. -/
theorem SeriesFile.not_intact_full : ∃ s,
    runEvents SeriesFile.step [.open 1, .record [1], .step, .close, .open 1, .record [2]]
      (SeriesFile.init 1) = some s ∧ ¬ s.Intact := by
  have hrun : (runEvents SeriesFile.step
      [.open 1, .record [1], .step, .close, .open 1, .record [2]] (SeriesFile.init 1)).map
      SeriesFile.outside = some true := by decide +kernel
  obtain ⟨s, hs, houtside⟩ := Option.map_eq_some_iff.mp hrun
  refine ⟨s, hs, fun h => ?_⟩
  rw [h.inside] at houtside
  cases houtside

end Hobbes.Db
