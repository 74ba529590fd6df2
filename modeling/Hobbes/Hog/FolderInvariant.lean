import Hobbes.Hog.BatchTransfer

/-!
# The directory of a transfer

The directory holds the segments that were published and not removed yet, the oldest first, and both
names and times of status change are in this order. That a file is looked up while it still has two
names makes no difference.
-/

namespace Hobbes.Hog

open Core

/-- The transactions of a segment can be read out of these bytes. -/
def Setup.Holds (S : Setup) (published : List (List Bytes)) (seg : ℕ) (bs : Bytes) : Prop :=
  ∃ txns, published[seg]? = some txns ∧ S.gunzip bs = writeTxns txns ∧ bs.length < 2 ^ 64 ∧
    ∀ txn ∈ txns, txn.length < 2 ^ 64

lemma Setup.Holds.append {S : Setup} {published : List (List Bytes)} {seg : ℕ} {bs : Bytes}
    (h : S.Holds published seg bs) (more : List (List Bytes)) : S.Holds (published ++ more) seg bs := by
  obtain ⟨txns, htxns, h⟩ := h
  refine ⟨txns, ?_, h⟩
  rw [List.getElem?_append_left (List.getElem?_eq_some_iff.mp htxns).1, htxns]

namespace Folder

/-- The directory after `r` segment files were removed. -/
structure Inv (S : Setup) (r : ℕ) (d : Folder) : Prop where
  segs : d.segments.map (·.seg) = List.range' r d.segments.length
  total : r + d.segments.length = d.published.length
  few : d.published.length < 2 ^ 32
  name : ∀ f ∈ d.segments, f.name = segmentFileName (f.seg + 1)
  holds : ∀ f ∈ d.segments, S.Holds d.published f.seg f.bytes
  ctimes : d.segments.Pairwise (·.ctime ≤ ·.ctime)
  clock : ∀ f ∈ d.segments, f.ctime ≤ d.clock
  initGz : ∀ gz ∈ d.initGz, gz.length < 2 ^ 64
  /-- the init message is published first -/
  first : d.initGz = none → d.published = [] ∧ d.c = 0 ∧ ∀ made, d.pc ≠ .linked made
  writing : d.initGz.isSome = true → d.pc = .writing →
    d.c = (d.published.length + 1) % 2 ^ 32 ∧ d.buffer = writeTxns d.current
  closed : ∀ gz, d.pc = .closed gz → gz.length < 2 ^ 64 ∧ (d.initGz.isSome = true →
    d.c = (d.published.length + 1) % 2 ^ 32 ∧ S.gunzip gz = writeTxns d.current)
  linked : ∀ made, d.pc = .linked made → d.c = d.published.length
  current : ∀ txn ∈ d.current, txn.length < 2 ^ 64

/-- What the publishing thread does to the files that are there: at most the last one gets another
time. -/
structure Follows (d d' : Folder) : Prop where
  published : d.published <+: d'.published
  files : ∀ j f, d.segments[j]? = some f → ∃ f', d'.segments[j]? = some f' ∧ f'.name = f.name ∧
    f.ctime ≤ f'.ctime ∧ (j + 1 < d.segments.length → f'.ctime = f.ctime)

variable {S : Setup} {r : ℕ} {d d' : Folder} {f g : SegFile} {i j : ℕ}

lemma Follows.refl_of (hpublished : d'.published = d.published) (hsegments : d'.segments = d.segments) :
    d.Follows d' :=
  ⟨hpublished ▸ List.prefix_rfl, fun _ f hf => ⟨f, hsegments ▸ hf, rfl, Nat.le_refl _, fun _ => rfl⟩⟩

@[simp] lemma touch_name (d : Folder) (f : SegFile) : (d.touch f).name = f.name := by
  rw [touch]
  split_ifs <;> rfl

@[simp] lemma touch_seg (d : Folder) (f : SegFile) : (d.touch f).seg = f.seg := by
  rw [touch]
  split_ifs <;> rfl

@[simp] lemma touch_bytes (d : Folder) (f : SegFile) : (d.touch f).bytes = f.bytes := by
  rw [touch]
  split_ifs <;> rfl

namespace Inv

lemma seg_eq (h : d.Inv S r) (hf : d.segments[j]? = some f) : f.seg = r + j := by
  have hlt : j < d.segments.length := (List.getElem?_eq_some_iff.mp hf).1
  have hseg : (d.segments.map (·.seg))[j]? = some f.seg := by simp [hf]
  rw [h.segs, List.getElem?_range' hlt] at hseg
  simpa [eq_comm] using hseg

lemma names_eq (h : d.Inv S r) :
    d.names = (List.range' r d.segments.length).map fun k => segmentFileName (k + 1) := by
  rw [← h.segs, List.map_map, names]
  exact List.map_congr_left h.name

lemma getElem_name (h : d.Inv S r) (hf : d.segments[j]? = some f) :
    f.name = segmentFileName (r + j + 1) := by
  rw [h.name f (List.mem_of_getElem? hf), h.seg_eq hf]

/-- The names are in order. -/
lemma name_lt (h : d.Inv S r) (hf : d.segments[i]? = some f) (hg : d.segments[j]? = some g)
    (hij : i < j) : f.name < g.name := by
  have hlt : j < d.segments.length := (List.getElem?_eq_some_iff.mp hg).1
  have hfew := h.few
  rw [← h.total] at hfew
  rw [h.getElem_name hf, h.getElem_name hg]
  exact segmentFileName_lt (by omega) (by omega)

lemma names_sorted (h : d.Inv S r) : d.names.Pairwise (· < ·) := by
  refine List.pairwise_iff_getElem.mpr fun i j hi hj hij => ?_
  simp only [names, List.length_map] at hi hj
  simp only [names, List.getElem_map]
  exact h.name_lt (List.getElem?_eq_getElem hi) (List.getElem?_eq_getElem hj) hij

lemma names_nodup (h : d.Inv S r) : d.names.Nodup := h.names_sorted.imp fun hlt => ne_of_lt hlt

/-- The file of a name is found. -/
lemma find_eq (h : d.Inv S r) (hf : d.segments[j]? = some f) : d.find f.name = some f := by
  obtain ⟨hlt, hj⟩ := List.getElem?_eq_some_iff.mp hf
  refine List.find?_eq_some_iff_getElem.mpr ⟨by simp, j, hlt, hj, fun i hi => ?_⟩
  have hname := h.name_lt (List.getElem?_eq_getElem (by omega)) hf hi
  simp [ne_of_lt hname]

/-! ### The publishing thread -/

lemma tick (h : d.Inv S r) :
    ({ d with clock := d.clock + 1 } : Folder).Inv S r ∧ d.Follows { d with clock := d.clock + 1 } :=
  ⟨⟨h.segs, h.total, h.few, h.name, h.holds, h.ctimes, fun f hf => Nat.le_succ_of_le (h.clock f hf),
    h.initGz, h.first, h.writing, h.closed, h.linked, h.current⟩, .refl_of rfl rfl⟩

lemma write {txn : Bytes} (h : d.Inv S r) (hs : d.write txn = some d') :
    d'.Inv S r ∧ d.Follows d' := by
  rw [Folder.write] at hs
  split at hs
  · rename_i hpc
    rw [Option.ite_none_right_eq_some, Option.some.injEq] at hs
    obtain ⟨⟨hinit, htxn⟩, rfl⟩ := hs
    refine ⟨⟨h.segs, h.total, h.few, h.name, h.holds, h.ctimes, h.clock, h.initGz, h.first, ?_, ?_,
      h.linked, ?_⟩, .refl_of rfl rfl⟩
    · intro _ _
      obtain ⟨hc, hbuffer⟩ := h.writing hinit hpc
      refine ⟨hc, ?_⟩
      change d.buffer ++ writeTxns [txn] = writeTxns (d.current ++ [txn])
      rw [hbuffer, writeTxns, writeTxns, writeTxns, List.flatMap_append]
    · intro gz hgz
      exact absurd (hpc.symm.trans hgz) (by simp)
    · intro t ht
      rcases List.mem_append.mp ht with ht | ht
      · exact h.current t ht
      · rwa [List.mem_singleton.mp ht]
  · cases hs

lemma gzclose {gz : Bytes} (h : d.Inv S r) (hs : d.gzclose S gz = some d') :
    d'.Inv S r ∧ d.Follows d' := by
  rw [Folder.gzclose] at hs
  split at hs
  · rename_i hpc
    rw [Option.ite_none_right_eq_some, Option.some.injEq] at hs
    obtain ⟨⟨hgz, hlen⟩, rfl⟩ := hs
    refine ⟨⟨h.segs, h.total, h.few, h.name, h.holds, h.ctimes, h.clock, h.initGz, ?_, by simp, ?_,
      by simp, h.current⟩, .refl_of rfl rfl⟩
    · intro hnone
      obtain ⟨hpublished, hc, -⟩ := h.first hnone
      exact ⟨hpublished, hc, by simp⟩
    · rintro gz' hgz'
      obtain rfl : gz = gz' := by simpa using hgz'
      refine ⟨Nat.lt_trans hlen (by decide), fun hinit => ?_⟩
      obtain ⟨hc, hbuffer⟩ := h.writing hinit hpc
      exact ⟨hc, hgz.trans hbuffer⟩
  · cases hs

/-- A segment gets a name that no file has. -/
lemma link_segment {gz : Bytes} (h : d.Inv S r) (hpc : d.pc = .closed gz) (hc : d.c ≠ 0)
    (hs : d.link = some d') : d.c = d.published.length + 1 ∧ d.c < 2 ^ 32 ∧ d' = { d with
      pc := .linked true
      segments := d.segments ++ [⟨segmentFileName d.c, d.clock, gz, d.published.length⟩]
      published := d.published ++ [d.current] } := by
  have hinit : d.initGz.isSome = true := by
    by_contra hnone
    exact hc (h.first (by simpa using hnone)).2.1
  have hfew := h.few
  have hcount := ((h.closed gz hpc).2 hinit).1
  have hsucc : d.c = d.published.length + 1 := by
    rcases Nat.lt_or_ge (d.published.length + 1) (2 ^ 32) with hlt | hge
    · rw [hcount, Nat.mod_eq_of_lt hlt]
    · have heq : d.published.length + 1 = 2 ^ 32 := by omega
      rw [heq, Nat.mod_self] at hcount
      exact absurd hcount hc
  have hlt : d.c < 2 ^ 32 := hcount ▸ Nat.mod_lt _ (by decide)
  have hfresh : segmentFileName d.c ∉ d.names := by
    intro hmem
    obtain ⟨f, hf, hname⟩ := List.mem_map.mp hmem
    obtain ⟨j, hj⟩ := List.mem_iff_getElem?.mp hf
    have hjlt : j < d.segments.length := (List.getElem?_eq_some_iff.mp hj).1
    have htotal := h.total
    rw [h.getElem_name hj] at hname
    have heq := segmentFileName_inj (by omega) hlt hname
    omega
  refine ⟨hsucc, hlt, ?_⟩
  simp only [Folder.link, hpc, hc, hfresh, if_false, Option.some.injEq] at hs
  exact hs.symm

/-- The count of files has not come round to that of the init message. -/
lemma link (h : d.Inv S r) (hok : d.c = 0 → d.initGz = none) (hs : d.link = some d') :
    d'.Inv S r ∧ d.Follows d' := by
  obtain ⟨gz, hpc⟩ : ∃ gz, d.pc = .closed gz := by
    rw [Folder.link] at hs
    split at hs
    · exact ⟨_, ‹_›⟩
    · cases hs
  by_cases hc : d.c = 0
  · have hnone := hok hc
    simp only [Folder.link, hpc, hc, hnone, if_true, Option.some.injEq] at hs
    subst hs
    obtain ⟨hpublished, -, -⟩ := h.first hnone
    refine ⟨⟨h.segs, h.total, h.few, h.name, h.holds, h.ctimes, h.clock, ?_, by simp, by simp, by simp,
      ?_, h.current⟩, .refl_of rfl rfl⟩
    · rintro gz' hgz'
      obtain rfl : gz = gz' := by simpa using hgz'
      exact (h.closed gz hpc).1
    · intro made _
      simp [hpublished]
  · obtain ⟨hsucc, hlt, rfl⟩ := h.link_segment hpc hc hs
    have htotal := h.total
    refine ⟨⟨?_, ?_, ?_, ?_, ?_, ?_, ?_, h.initGz, ?_, by simp, by simp, ?_, h.current⟩, ?_, ?_⟩
    · rw [List.map_append, h.segs, List.length_append, List.length_singleton, List.range'_concat,
        Nat.one_mul, htotal]
      rfl
    · simp only [List.length_append, List.length_singleton]
      omega
    · rw [List.length_append, List.length_singleton, ← hsucc]
      exact hlt
    · intro f hf
      rcases List.mem_append.mp hf with hf | hf
      · exact h.name f hf
      · rw [List.mem_singleton.mp hf, hsucc]
    · intro f hf
      rcases List.mem_append.mp hf with hf | hf
      · exact (h.holds f hf).append _
      · obtain rfl := List.mem_singleton.mp hf
        have hinit : d.initGz.isSome = true := by
          by_contra hnone
          exact hc (h.first (by simpa using hnone)).2.1
        obtain ⟨hlen, hgz⟩ := h.closed gz hpc
        exact ⟨d.current, by simp, (hgz hinit).2, hlen, h.current⟩
    · refine List.pairwise_append.mpr ⟨h.ctimes, List.pairwise_singleton .., fun f hf g hg => ?_⟩
      rw [List.mem_singleton.mp hg]
      exact h.clock f hf
    · intro f hf
      rcases List.mem_append.mp hf with hf | hf
      · exact h.clock f hf
      · rw [List.mem_singleton.mp hf]
    · intro hnone
      exact absurd (h.first hnone).2.1 hc
    · intro made _
      simp [hsucc]
    · exact List.prefix_append ..
    · intro j f hf
      refine ⟨f, ?_, rfl, Nat.le_refl _, fun _ => rfl⟩
      rw [List.getElem?_append_left (List.getElem?_eq_some_iff.mp hf).1, hf]

/-- The file that was linked last is the last one, if it is still there. -/
lemma touch_ctime (h : d.Inv S r) (hc : d.c = d.published.length) (hf : d.segments[j]? = some f) :
    f.ctime ≤ (d.touch f).ctime ∧ (d.touch f).ctime ≤ d.clock ∧
      (j + 1 < d.segments.length → (d.touch f).ctime = f.ctime) := by
  have hlt : j < d.segments.length := (List.getElem?_eq_some_iff.mp hf).1
  have hclock := h.clock f (List.mem_of_getElem? hf)
  rw [touch]
  split_ifs with hname
  · refine ⟨hclock, Nat.le_refl _, fun hnext => ?_⟩
    have hfew := h.few
    have htotal := h.total
    rw [h.getElem_name hf, hc] at hname
    have heq := segmentFileName_inj (by omega) (by omega) hname
    omega
  · exact ⟨Nat.le_refl _, hclock, fun _ => rfl⟩

/-- Only the file that was linked last gets another time, and none when it was removed. -/
lemma unlinkTemp (h : d.Inv S r) (hs : d.unlinkTemp = some d') : d'.Inv S r ∧ d.Follows d' := by
  rw [Folder.unlinkTemp] at hs
  split at hs
  · rename_i made hpc
    obtain rfl := Option.some.inj hs
    have hc := h.linked made hpc
    have hfirst : d.initGz ≠ none := fun hnone => (h.first hnone).2.2 made hpc
    cases made with
    | false =>
      refine ⟨⟨h.segs, h.total, h.few, h.name, h.holds, h.ctimes, h.clock, h.initGz, ?_, ?_, by simp,
        by simp, by simp⟩, .refl_of rfl rfl⟩
      · exact fun hnone => absurd hnone hfirst
      · exact fun _ _ => ⟨by rw [hc], rfl⟩
    | true =>
      refine ⟨⟨?_, ?_, h.few, ?_, ?_, ?_, ?_, h.initGz, ?_, ?_, by simp, by simp, by simp⟩,
        List.prefix_rfl, ?_⟩
      · simpa [Function.comp_def] using h.segs
      · simpa using h.total
      · intro g hg
        obtain ⟨f, hf, rfl⟩ := List.mem_map.mp hg
        rw [touch_name, touch_seg, h.name f hf]
      · intro g hg
        obtain ⟨f, hf, rfl⟩ := List.mem_map.mp hg
        rw [touch_seg, touch_bytes]
        exact h.holds f hf
      · refine List.pairwise_map.mpr (List.pairwise_iff_getElem.mpr fun i j hi hj hij => ?_)
        have hlt := List.pairwise_iff_getElem.mp h.ctimes i j hi hj hij
        obtain ⟨-, -, heq⟩ := h.touch_ctime hc (List.getElem?_eq_getElem hi)
        obtain ⟨hle, -⟩ := h.touch_ctime hc (List.getElem?_eq_getElem hj)
        rw [heq (by omega)]
        exact Nat.le_trans hlt hle
      · intro g hg
        obtain ⟨f, hf, rfl⟩ := List.mem_map.mp hg
        obtain ⟨j, hj⟩ := List.mem_iff_getElem?.mp hf
        exact (h.touch_ctime hc hj).2.1
      · exact fun hnone => absurd hnone hfirst
      · exact fun _ _ => ⟨by rw [hc], rfl⟩
      · intro j f hf
        obtain ⟨hle, -, heq⟩ := h.touch_ctime hc hf
        exact ⟨d.touch f, by simp [hf], touch_name d f, hle, heq⟩
  · cases hs

/-! ### Removing -/

/-- The oldest file is removed. -/
lemma unlink {name : List Char} {rest : List (List Char)} (h : d.Inv S r)
    (hname : name :: rest = d.names) : (d.unlink name).Inv S (r + 1) ∧ (d.unlink name).names = rest := by
  obtain ⟨f, fs, hsegments, rfl, rfl⟩ := List.map_eq_cons_iff.mp hname.symm
  have hnodup := h.names_nodup
  rw [← hname, List.nodup_cons] at hnodup
  have hfilter : (d.unlink f.name).segments = fs := by
    have hrest : fs.filter (·.name ≠ f.name) = fs := by
      refine List.filter_eq_self.mpr fun g hg => ?_
      have hne : g.name ≠ f.name := fun heq => hnodup.1 (heq ▸ List.mem_map_of_mem hg)
      simpa using hne
    rw [Folder.unlink, hsegments, List.filter_cons_of_neg (by simp)]
    exact hrest
  have hsub : ∀ g ∈ (d.unlink f.name).segments, g ∈ d.segments := by
    intro g hg
    rw [hfilter] at hg
    exact hsegments ▸ List.mem_cons_of_mem f hg
  have hsegs := h.segs
  have htotal := h.total
  have hctimes := h.ctimes
  rw [hsegments, List.length_cons] at htotal
  rw [hsegments, List.map_cons, List.length_cons, List.range'_succ] at hsegs
  rw [hsegments] at hctimes
  refine ⟨⟨?_, ?_, h.few, fun g hg => h.name g (hsub g hg), fun g hg => h.holds g (hsub g hg), ?_,
    fun g hg => h.clock g (hsub g hg), h.initGz, h.first, h.writing, h.closed, h.linked, h.current⟩, ?_⟩
  · rw [hfilter]
    exact (List.cons.inj hsegs).2
  · rw [hfilter]
    exact (Nat.succ_add_eq_add_succ ..).trans htotal
  · rw [hfilter]
    exact hctimes.of_cons
  · rw [names, hfilter]

end Inv

end Folder

end Hobbes.Hog
