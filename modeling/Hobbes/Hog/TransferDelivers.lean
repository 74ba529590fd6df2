import Hobbes.Hog.TransferInvariant

/-!
# Delivery of segments

While no listing misses a file in front of one that it has, and the count of files has not come round,
every step of a transfer keeps the invariant: segments are delivered once and in order, except for those
whose acknowledgement was lost with a connection.
-/

namespace Hobbes.Hog

open Core

/-- A new name is not that of the init message, and the files that are found are the oldest ones. -/
def TransferEvent.Careful : TransferEvent → Transfer → Prop
  | .link, w => w.folder.c = 0 → w.folder.initGz.isNone = true
  | .globbed paths, w => paths.Perm (w.folder.names.take paths.length)
  | _, _ => True

instance : ∀ (e : TransferEvent) (w : Transfer), Decidable (e.Careful w)
  | .link, w => inferInstanceAs (Decidable (w.folder.c = 0 → w.folder.initGz.isNone = true))
  | .globbed paths, w =>
    inferInstanceAs (Decidable (paths.Perm (w.folder.names.take paths.length)))
  | .tick, _ | .write _, _ | .gzclose _, _ | .unlinkTemp, _ | .connect, _ | .openInit, _
  | .send _, _ | .readAck, _ | .fail, _ | .unlink, _ | .glob, _ | .stat, _ | .openNext, _
  | .recv _, _ | .pass _, _ | .sendAck _, _ | .close _, _ => inferInstanceAs (Decidable True)

namespace Transfer

variable {S : Setup} {r : ℕ} {w w' : Transfer} {c : Conn}

lemma onConn_cases {i : ℕ} {f : Conn → Option Conn} (hs : w.onConn i f = some w') :
    ∃ c c', w.conns[i]? = some c ∧ f c = some c' ∧ w' = { w with conns := w.conns.set i c' } := by
  obtain ⟨c, hi, hs⟩ := Option.bind_eq_some_iff.mp hs
  obtain ⟨c', hc', rfl⟩ := Option.map_eq_some_iff.mp hs
  exact ⟨c, c', hi, hc', rfl⟩

namespace Inv

/-- The connection of a sender that has one. -/
lemma connection (h : w.Inv S r) (hsender : w.sender ≠ .offline) (hlast : w.conns[w.last]? = some c) :
    c.Inv S w.folder.published r ∧ c.Stage S r w.sender := by
  obtain ⟨x, hx, hstage⟩ := h.stage hsender
  obtain rfl : x = c := Option.some.inj (hx.symm.trans hlast)
  exact ⟨h.conn _ x hx, hstage⟩

lemma connect (h : w.Inv S r) (hsender : w.sender = .offline) :
    ({ w with sender := .connected, conns := w.conns ++ [.new] } : Transfer).Inv S r := by
  have hcases : ∀ (i : ℕ) (c : Conn), (w.conns ++ [Conn.new])[i]? = some c →
      w.conns[i]? = some c ∨ (i = w.conns.length ∧ c = Conn.new) := by
    intro i c hc
    rcases Nat.lt_or_ge i w.conns.length with hlt | hge
    · rw [List.getElem?_append_left hlt] at hc
      exact .inl hc
    · rw [List.getElem?_append_right hge, List.getElem?_singleton,
        Option.ite_none_right_eq_some, Option.some.injEq] at hc
      exact .inr ⟨by omega, hc.2.symm⟩
  have hacked : ∀ k, some k ∉ Conn.new.acked := by simp [Conn.new]
  have hsegs : ∀ k, some k ∉ Conn.new.segs := by simp [Conn.new, Conn.segs]
  refine ⟨h.folder, trivial, ?_, fun _ => ⟨Conn.new, ?_, ?_⟩, ?_, ?_, ?_, ?_, h.whole, ?_, h.firsts⟩
  · intro i c hc
    rcases hcases i c hc with hc | ⟨-, rfl⟩
    · exact h.conn i c hc
    · exact Conn.inv_new
  · simp [last]
  · exact ⟨rfl, rfl, by simp [Conn.Misses, Conn.unread, files, Conn.new]⟩
  · intro i c hc hi
    rcases hcases i c hc with hc | ⟨rfl, -⟩
    · exact h.failed i c hc (.inr hsender)
    · simp at hi
  · intro i c hc k hk
    rcases hcases i c hc with hc | ⟨-, rfl⟩
    · have hbound := h.bound i c hc k hk
      rwa [hsender] at hbound
    · exact (hacked k hk).elim
  · intro i j c c' hij hc hc' k k' hk hk'
    rcases hcases j c' hc' with hc' | ⟨-, rfl⟩
    · rcases hcases i c hc with hc | ⟨-, rfl⟩
      · exact h.apart i j c c' hij hc hc' k k' hk hk'
      · exact (hacked k hk).elim
    · exact (hsegs k' hk').elim
  · intro d hd
    rw [List.length_append]
    exact Nat.lt_add_right 1 (h.known d hd)
  · intro i c hc
    rcases hcases i c hc with hc | ⟨rfl, rfl⟩
    · exact h.handled i c hc
    · have hnone : w.done.filter (·.conn = w.conns.length) = [] := by
        refine List.filter_eq_nil_iff.mpr fun d hd => ?_
        simpa using Nat.ne_of_lt (h.known d hd)
      rw [hnone]
      rfl

lemma openInit (h : w.Inv S r) (hs : w.openInit S = some w') : w'.Inv S r := by
  rw [Transfer.openInit] at hs
  split at hs
  · rename_i gz hsender hinit
    obtain ⟨w₁, hw₁, rfl⟩ := Option.map_eq_some_iff.mp hs
    obtain ⟨c, c', hlast, hc', rfl⟩ := onConn_cases hw₁
    obtain rfl := Option.some.inj hc'
    obtain ⟨hc, hstage⟩ := h.connection (by simp [hsender]) hlast
    rw [hsender] at hstage
    obtain ⟨hsent, hacked, hmisses⟩ := hstage
    have hsegs : c.segs = [] := by rw [Conn.segs, hsent, List.map_nil]
    obtain ⟨hinv, hbegin⟩ := hc.begin (f := ⟨none, gz⟩) ⟨h.folder.initGz gz hinit, by simp⟩
      ⟨0, 0, by simp [hsegs]⟩
    have hsegs' : ({ c with sent := c.sent ++ [⟨none, gz⟩] } : Conn).segs = [none] := by
      simp [Conn.segs, hsent]
    refine h.sends hlast hinv rfl List.nil_prefix ⟨?_, hbegin _ hmisses, hsegs', rfl⟩ (by simp) ?_ ?_ ?_
    · simp [hacked, hsent]
    · simp [hsegs']
    · simp [hacked]
    · simp [hsender, SendPc.removes]
  · cases hs

lemma send {k : ℕ} (h : w.Inv S r) (hs : w.send k = some w') : w'.Inv S r := by
  rw [Transfer.send] at hs
  split at hs
  · rename_i name todo rest hsender
    obtain ⟨-, hs⟩ := Option.ite_none_right_eq_some.mp hs
    obtain ⟨w₁, hw₁, rfl⟩ := Option.map_eq_some_iff.mp hs
    obtain ⟨c, c', hlast, hc', rfl⟩ := onConn_cases hw₁
    obtain rfl := Option.some.inj hc'
    obtain ⟨hc, hstage⟩ := h.connection (by simp [hsender]) hlast
    rw [hsender] at hstage
    obtain ⟨hlen, hmisses, hname⟩ := hstage
    obtain ⟨hinv, hmisses'⟩ := hc.send (k := k) hmisses
    have hlisting := h.listing
    rw [hsender] at hlisting
    refine h.sends hlast hinv rfl hlisting ⟨hlen, hmisses', hname⟩ (by simp) (fun k hk => .inl hk) ?_ ?_
    · intro k hk
      have hbound := h.bound _ c hlast k hk
      rwa [hsender] at hbound
    · simp [hsender, SendPc.removes]
  · cases hs

/-- The acknowledgement of a segment says that it was processed to the end. -/
lemma readAck (h : w.Inv S r) (hs : w.readAck = some w') : w'.Inv S r := by
  rw [Transfer.readAck] at hs
  split at hs
  · rename_i name todo c hsender hlast
    split at hs
    · rename_i ack acks file hacks hfile
      obtain ⟨-, hs⟩ := Option.ite_none_right_eq_some.mp hs
      obtain rfl := Option.some.inj hs
      obtain ⟨hc, hstage⟩ := h.connection (by simp [hsender]) hlast
      rw [hsender] at hstage
      obtain ⟨hlen, hmisses, hname⟩ := hstage
      obtain ⟨hinv, hhandled, hmisses'⟩ := hc.readAck hlen hfile hacks
      have hseg : c.segs.getLast? = some file.seg := by rw [Conn.segs, List.getLast?_map, hfile]; rfl
      have hold : ∀ k, some k ∈ c.acked → k < r := by
        intro k hk
        have hbound := h.bound _ c hlast k hk
        rwa [hsender] at hbound
      have hlisting := h.listing
      rw [hsender] at hlisting
      cases name with
      | none =>
        obtain ⟨hsegs, rfl⟩ := hname
        rw [hsegs] at hseg
        obtain hnone : none = file.seg := by simpa using hseg
        refine h.sends hlast hinv rfl trivial ⟨?_, hmisses' _ hmisses, r, 0, rfl, hsegs⟩ (by simp)
          (fun k hk => .inl hk) ?_ ?_
        · rw [List.length_append, List.length_singleton]
          exact hlen
        · intro k hk
          rw [← hnone] at hk
          exact hold k (by simpa using hk)
        · simp [hsender, SendPc.removes]
      | some name =>
        rw [hname.getLast, Option.some.injEq] at hseg
        refine h.sends hlast hinv rfl hlisting ⟨?_, hmisses' _ hmisses, hname, hseg ▸ hhandled⟩
          (by simp) (fun k hk => .inl hk) ?_ ?_
        · rw [List.length_append, List.length_singleton]
          exact hlen
        · intro k hk
          rcases List.mem_append.mp hk with hk | hk
          · exact Nat.lt_succ_of_lt (hold k hk)
          · obtain rfl : k = r := by simpa [← hseg] using hk
            exact Nat.lt_succ_self k
        · simp [hsender, SendPc.removes]
    · cases hs
  · cases hs

lemma fail (h : w.Inv S r) (hs : w.fail = some w') : w'.Inv S r := by
  rw [Transfer.fail] at hs
  split at hs
  · rename_i name todo rest hsender
    obtain ⟨w₁, hw₁, rfl⟩ := Option.map_eq_some_iff.mp hs
    obtain ⟨c, c', hlast, hc', rfl⟩ := onConn_cases hw₁
    obtain rfl := Option.some.inj hc'
    obtain ⟨hc, -⟩ := h.connection (by simp [hsender]) hlast
    refine h.sends hlast hc.fail rfl trivial trivial (fun _ => rfl) (fun k hk => .inl hk) ?_ ?_
    · intro k hk
      have hbound := h.bound _ c hlast k hk
      rwa [hsender] at hbound
    · simp [hsender, SendPc.removes]
  · cases hs

/-- The next file is the oldest one. -/
lemma openNext (h : w.Inv S r) (hs : w.openNext = some w') : w'.Inv S r := by
  have hlisting := h.listing
  rw [Transfer.openNext] at hs
  split at hs
  · rename_i hsender
    obtain rfl := Option.some.inj hs
    obtain ⟨c, hlast, hstage⟩ := h.stage (by simp [hsender])
    rw [hsender] at hstage
    exact h.looks hlast trivial hstage (by simp) (by simp [hsender, SendPc.removes])
  · rename_i name todo hsender
    rw [hsender] at hlisting
    obtain ⟨more, hmore⟩ := hlisting
    obtain ⟨f, fs, hsegments, rfl, -⟩ := List.map_eq_cons_iff.mp hmore.symm
    have hzero : w.folder.segments[0]? = some f := by rw [hsegments]; rfl
    rw [h.folder.find_eq hzero] at hs
    obtain ⟨w₁, hw₁, rfl⟩ := Option.map_eq_some_iff.mp hs
    obtain ⟨c, c', hlast, hc', rfl⟩ := onConn_cases hw₁
    obtain rfl := Option.some.inj hc'
    obtain ⟨hc, hstage⟩ := h.connection (by simp [hsender]) hlast
    rw [hsender] at hstage
    obtain ⟨hlen, hmisses, hremoved⟩ := hstage
    have hseg : f.seg = r := h.folder.seg_eq hzero
    have hholds := h.folder.holds f (List.mem_of_getElem? hzero)
    have hsegs : ({ c with sent := c.sent ++ [⟨some f.seg, f.bytes⟩] } : Conn).segs =
        c.segs ++ [some r] := by simp [Conn.segs, hseg]
    have hsends := hremoved.sends hsegs
    obtain ⟨hinv, hbegin⟩ := hc.begin (f := ⟨some f.seg, f.bytes⟩) (by
      refine ⟨hholds.choose_spec.2.2.1, fun k hk => ?_⟩
      obtain rfl := Option.some.inj hk
      exact ⟨Nat.le_of_eq hseg, hholds⟩) (by
      obtain ⟨a, l, -, heq⟩ := hsends
      exact ⟨a, l + 1, by rw [← heq, hsegs, hseg]⟩)
    refine h.sends hlast hinv rfl ⟨more, hmore⟩ ⟨?_, hbegin _ hmisses, hsends⟩ (by simp) ?_ ?_ ?_
    · simp [hlen]
    · intro k hk
      rw [hsegs] at hk
      rcases List.mem_append.mp hk with hk | hk
      · exact .inl hk
      · exact .inr ⟨by simpa using hk, by simp [hsender, SendPc.removes]⟩
    · intro k hk
      have hbound := h.bound _ c hlast k hk
      rwa [hsender] at hbound
    · simp [hsender, SendPc.removes]
  · cases hs

/-- The oldest file is removed, which was processed to the end. -/
lemma unlink {name : List Char} {todo : List (List Char)} (h : w.Inv S r)
    (hsender : w.sender = .removing name todo) :
    ({ w with folder := w.folder.unlink name, sender := .listed todo } : Transfer).Inv S (r + 1) := by
  have hlisting := h.listing
  rw [hsender] at hlisting
  obtain ⟨more, hmore⟩ := hlisting
  obtain ⟨hfolder, hnames⟩ := h.folder.unlink hmore
  obtain ⟨c, hlast, hstage⟩ := h.stage (by simp [hsender])
  rw [hsender] at hstage
  obtain ⟨hlen, hmisses, hsends, hhandled⟩ := hstage
  refine ⟨hfolder, ⟨more, hnames.symm⟩, fun i c hc => (h.conn i c hc).mono (Nat.le_succ r),
    fun _ => ⟨c, hlast, hlen, hmisses, hsends.removed⟩, ?_, ?_, h.apart, h.known, h.whole, h.handled, ?_⟩
  · intro i x hx hi
    exact h.failed i x hx (.inl (hi.resolve_right (by simp)))
  · intro i x hx k hk
    have hbound := h.bound i x hx k hk
    rwa [hsender] at hbound
  · obtain ⟨m, hle, hle', hfirsts⟩ := h.firsts
    -- the segment is among those that were processed
    have hdone : some r ∈ c.handled.tail := by
      obtain ⟨a, l, -, hsegs⟩ := hsends
      obtain ⟨rest, hrest⟩ := (h.conn _ c hlast).handled
      rcases hc : c.handled with _ | ⟨x, xs⟩
      · rw [hc] at hhandled
        cases hhandled
      · rw [hc, hsegs, List.cons_append] at hrest
        obtain ⟨rfl, -⟩ := List.cons.inj hrest
        rw [hc] at hhandled
        simpa using hhandled
    rw [← h.handled _ c hlast] at hdone
    obtain ⟨d, hd, hdr⟩ := List.mem_map.mp hdone
    have hmem := seg_mem_firsts (List.mem_filter.mp hd).1
    rw [hfirsts, List.mem_range, Option.some.inj hdr] at hmem
    exact ⟨m, hmem, by omega, hfirsts⟩

lemma glob (h : w.Inv S r) (hsender : w.sender = .polling) :
    ({ w with sender := .globbing w.folder.names } : Transfer).Inv S r := by
  obtain ⟨c, hlast, hstage⟩ := h.stage (by simp [hsender])
  rw [hsender] at hstage
  exact h.looks hlast List.prefix_rfl hstage (by simp) (by simp [hsender, SendPc.removes])

/-- No file is missing in front of one that was found. -/
lemma globbed {paths : List (List Char)} (h : w.Inv S r)
    (hok : paths.Perm (w.folder.names.take paths.length)) (hs : w.globbed paths = some w') :
    w'.Inv S r := by
  rw [Transfer.globbed] at hs
  split at hs
  · rename_i present hsender
    obtain ⟨-, hs⟩ := Option.ite_none_right_eq_some.mp hs
    obtain rfl := Option.some.inj hs
    obtain ⟨c, hlast, hstage⟩ := h.stage (by simp [hsender])
    rw [hsender] at hstage
    have hle : paths.length ≤ w.folder.names.length := by
      have hlen := hok.length_eq
      rw [List.length_take] at hlen
      omega
    refine h.looks hlast ⟨.nil, by simp, _, hle, hok⟩ hstage (by simp) ?_
    simp [hsender, SendPc.removes]
  · cases hs

lemma stat (h : w.Inv S r) (hs : w.stat = some w') : w'.Inv S r := by
  have hlisting := h.listing
  rw [Transfer.stat] at hs
  split at hs
  · rename_i segfiles hsender
    obtain rfl := Option.some.inj hs
    obtain ⟨c, hlast, hstage⟩ := h.stage (by simp [hsender])
    rw [hsender] at hlisting hstage
    obtain ⟨hsorted, hread, m, -, hperm⟩ := hlisting
    rw [List.append_nil] at hperm
    refine h.looks hlast ?_ hstage (by simp) (by simp [hsender, SendPc.removes])
    change Folder.paths segfiles <+: w.folder.names
    rw [h.folder.paths_eq hsorted hread hperm]
    exact List.take_prefix ..
  · rename_i path paths segfiles hsender
    obtain ⟨c, hlast, hstage⟩ := h.stage (by simp [hsender])
    rw [hsender] at hlisting hstage
    obtain ⟨hsorted, hread, m, hm, hperm⟩ := hlisting
    have hmem : path ∈ w.folder.names :=
      List.mem_of_mem_take (hperm.subset (List.mem_append_right _ List.mem_cons_self))
    obtain ⟨j, f, hj, rfl, hfind⟩ := h.folder.find_cases hmem
    rw [hfind] at hs
    obtain rfl := Option.some.inj hs
    refine h.looks hlast ⟨?_, ?_, m, hm, ?_⟩ hstage (by simp) (by simp [hsender, SendPc.removes])
    · exact hsorted.orderedInsert _ _
    · intro x hx
      rcases (List.mem_orderedInsert _).mp hx with rfl | hx
      · exact h.folder.read hj
      · exact hread x hx
    · have hinsert := (List.perm_orderedInsert (· ≤ ·) (toLex (f.ctime, f.name)) segfiles).map
        fun x => (ofLex x).2
      exact ((hinsert.append_right paths).trans List.perm_middle.symm).trans hperm
  · cases hs

lemma step {e : TransferEvent} (h : w.Inv S r) (he : e.Careful w)
    (hs : Transfer.step S e w = some w') : ∃ r, w'.Inv S r := by
  have folder : ∀ f : Folder → Option Folder, w.onFolder f = some w' →
      (∀ d, f w.folder = some d → d.Inv S r ∧ w.folder.Follows d) → ∃ r, w'.Inv S r := by
    intro f hs hf
    obtain ⟨d, hd, rfl⟩ := Option.map_eq_some_iff.mp hs
    exact ⟨r, h.onFolder (hf d hd)⟩
  cases e with
  | tick =>
    refine folder (fun d => some { d with clock := d.clock + 1 }) hs fun d hd => ?_
    obtain rfl := Option.some.inj hd
    exact h.folder.tick
  | write txn => exact folder (·.write txn) hs fun d hd => h.folder.write hd
  | gzclose gz => exact folder (·.gzclose S gz) hs fun d hd => h.folder.gzclose hd
  | link => exact folder (·.link) hs fun d hd => h.folder.link (fun hc => by simpa using he hc) hd
  | unlinkTemp => exact folder (·.unlinkTemp) hs fun d hd => h.folder.unlinkTemp hd
  | connect =>
    simp only [Transfer.step] at hs
    split at hs
    · obtain rfl := Option.some.inj hs
      exact ⟨r, h.connect ‹_›⟩
    · cases hs
  | openInit => exact ⟨r, h.openInit hs⟩
  | send k => exact ⟨r, h.send hs⟩
  | readAck => exact ⟨r, h.readAck hs⟩
  | fail => exact ⟨r, h.fail hs⟩
  | unlink =>
    simp only [Transfer.step] at hs
    split at hs
    · obtain rfl := Option.some.inj hs
      exact ⟨r + 1, h.unlink ‹_›⟩
    · cases hs
  | glob =>
    simp only [Transfer.step] at hs
    split at hs
    · obtain rfl := Option.some.inj hs
      exact ⟨r, h.glob ‹_›⟩
    · cases hs
  | globbed paths => exact ⟨r, h.globbed he hs⟩
  | stat => exact ⟨r, h.stat hs⟩
  | openNext => exact ⟨r, h.openNext hs⟩
  | recv i => exact ⟨r, h.recv hs⟩
  | pass i => exact ⟨r, h.pass hs⟩
  | sendAck i => exact ⟨r, h.sendAck hs⟩
  | close i => exact ⟨r, h.close hs⟩

end Inv

end Transfer

/-! ### What is delivered -/

/-- The files that the receiver's thread began to process. -/
def Conn.begun (c : Conn) : List (Option ℕ) :=
  match c.pc with
  | .passing .. => c.handled ++ (c.current.map (·.seg)).toList
  | _ => c.handled

/-- Published segments are delivered in order. -/
structure Transfer.Delivers (w : Transfer) : Prop where
  /-- a segment file is there until all of its transactions were passed on -/
  kept : ∀ k txns, w.folder.published[k]? = some txns →
    (∃ f ∈ w.folder.segments, f.seg = k) ∨ ∃ d ∈ w.done, d.seg = k ∧ d.txns = txns
  /-- on each connection there is the init message, and then segment after segment -/
  inOrder : ∀ c ∈ w.conns, c.begun = [] ∨ ∃ a l, c.begun = none :: (List.range' a l).map some
  finished : ∀ (i : ℕ) (c : Conn), w.conns[i]? = some c →
    (w.done.filter (·.conn = i)).map (fun d => some d.seg) = c.handled.tail
  /-- what was passed on of a segment is what was written to it first -/
  passed : ∀ c ∈ w.conns, ∀ rest passed, c.pc = .passing rest passed → ∃ k txns,
    c.begun = c.handled ++ [some k] ∧ w.folder.published[k]? = some txns ∧ passed <+: txns
  /-- when each segment is taken once, what was passed on is what was written, in order -/
  firstTime : ∃ m, (firsts w.done).map (·.seg) = List.range m ∧
    (firsts w.done).map (·.txns) = w.folder.published.take m
  /-- a segment is processed on two connections only if the first one failed before the
  acknowledgement was read -/
  again : ∀ (i j : ℕ) (c c' : Conn) (k : ℕ), i < j → w.conns[i]? = some c → w.conns[j]? = some c' →
    some k ∈ c.begun → some k ∈ c'.begun → c.failed = true ∧ some k ∉ c.acked

variable {S : Setup} {r : ℕ} {w w' : Transfer} {c : Conn}

lemma Conn.Inv.begun {published : List (List Bytes)} (h : c.Inv S published r) : c.begun <+: c.segs := by
  rw [Conn.begun]
  split
  · rename_i rest passed hpc
    obtain ⟨k, bs, left, hcurrent, -⟩ := h.passing rest passed hpc
    rw [hcurrent]
    exact h.handled_append hcurrent
  · exact h.handled

/-- A beginning of the init message and segments is one of the same kind. -/
lemma begun_order {xs ys : List (Option ℕ)} (h : xs <+: ys)
    (hys : ys = [] ∨ ∃ a l, ys = none :: (List.range' a l).map some) :
    xs = [] ∨ ∃ a l, xs = none :: (List.range' a l).map some := by
  rcases hys with rfl | ⟨a, l, rfl⟩
  · exact .inl (List.prefix_nil.mp h)
  · rcases xs with _ | ⟨x, xs⟩
    · exact .inl rfl
    · right
      obtain ⟨rfl, hxs⟩ := List.cons_prefix_cons.mp h
      have hlen := hxs.length_le
      rw [List.length_map, List.length_range'] at hlen
      refine ⟨a, xs.length, ?_⟩
      rw [← List.take_range'_of_length_ge hlen, List.map_take, ← List.prefix_iff_eq_take.mp hxs]

/-- Segments that were processed are those that were published first. -/
lemma firsts_txns {ds : List Done} {published : List (List Bytes)} {m : ℕ}
    (h : (firsts ds).map (·.seg) = List.range m)
    (hds : ∀ d ∈ ds, published[d.seg]? = some d.txns) :
    (firsts ds).map (·.txns) = published.take m := by
  refine List.ext_getElem? fun i => ?_
  have hi := congrArg (·[i]?) h
  simp only [List.getElem?_map] at hi
  rw [List.getElem?_map, List.getElem?_take]
  rcases hget : (firsts ds)[i]? with _ | d
  · rw [hget, Option.map_none, eq_comm, List.getElem?_eq_none_iff, List.length_range] at hi
    rw [if_neg (by omega)]
    rfl
  · have hlt : i < m := by
      have hlt := (List.getElem?_eq_some_iff.mp hget).1
      rwa [← List.length_map (f := (·.seg)), h, List.length_range] at hlt
    rw [hget, Option.map_some, List.getElem?_range hlt, Option.some.injEq] at hi
    rw [if_pos hlt, Option.map_some, ← hi, hds d (mem_firsts (List.mem_of_getElem? hget))]

lemma Transfer.Inv.delivers (h : w.Inv S r) : w.Delivers := by
  obtain ⟨m, hle, -, hfirsts⟩ := h.firsts
  refine ⟨fun k txns hk => ?_, fun c hc => ?_, h.handled, fun c hc rest passed hpc => ?_,
    ⟨m, hfirsts, firsts_txns hfirsts h.whole⟩, fun i j c c' k hij hi hj hk hk' => ?_⟩
  · rcases Nat.lt_or_ge k r with hlt | hge
    · right
      have hmem : k ∈ (Hog.firsts w.done).map (·.seg) := by
        rw [hfirsts, List.mem_range]
        omega
      obtain ⟨d, hd, rfl⟩ := List.mem_map.mp hmem
      have hd := mem_firsts hd
      exact ⟨d, hd, rfl, Option.some.inj ((h.whole d hd).symm.trans hk)⟩
    · left
      have hlt := (List.getElem?_eq_some_iff.mp hk).1
      have htotal := h.folder.total
      have hmem : k ∈ w.folder.segments.map (·.seg) := by
        rw [h.folder.segs, List.mem_range'_1]
        omega
      obtain ⟨f, hf, hseg⟩ := List.mem_map.mp hmem
      exact ⟨f, hf, hseg⟩
  · obtain ⟨i, hi⟩ := List.mem_iff_getElem?.mp hc
    have hc := h.conn i c hi
    exact begun_order hc.begun hc.order
  · obtain ⟨i, hi⟩ := List.mem_iff_getElem?.mp hc
    obtain ⟨k, bs, left, hcurrent, htxns, -⟩ := (h.conn i c hi).passing rest passed hpc
    refine ⟨k, _, ?_, htxns, List.prefix_append ..⟩
    simp [Conn.begun, hpc, hcurrent]
  · have hjlt := (List.getElem?_eq_some_iff.mp hj).1
    refine ⟨h.failed i c hi (.inl (by omega)), fun hacked => ?_⟩
    have hsegs := (h.conn j c' hj).begun.subset hk'
    exact Nat.lt_irrefl k (h.apart i j c c' hij hi hj k k hacked hsegs)

/-! ### Two runs -/

/-- A compressed file with one block that is stored as it is. -/
def storedGz (crc bs : Bytes) : Bytes :=
  [31, 139, 8, 0, 0, 0, 0, 0, 0, 3, 1] ++ leBytes 2 bs.length ++ leBytes 2 (65535 - bs.length) ++
    bs ++ crc ++ leBytes 4 bs.length

/-- A group, and an init message, whose files have one block that is stored as it is. -/
def storedSetup : Setup where
  groupName := [103]
  init := [1]
  gunzip gz := (gz.drop 15).take (leNat ((gz.drop 11).take 2))
  small := by decide

def initFile : Bytes := storedGz [27, 223, 5, 165] [1]

def firstFile : Bytes := storedGz [78, 149, 22, 111] (writeTxns [[7]])

def secondFile : Bytes := storedGz [223, 136, 169, 255] (writeTxns [[8]])

/-- The init message is published, and acknowledged on a first connection. -/
def opening : List TransferEvent :=
  [.gzclose initFile, .link, .unlinkTemp, .connect, .openInit, .send 41, .recv 0, .recv 0, .sendAck 0,
    .readAck]

/-- A segment is looked up while it has two names. Its connection fails when the receiver has it, and
it is sent again. -/
def resending : List TransferEvent :=
  opening ++ [.write [7], .gzclose firstFile, .link, .glob, .globbed [segmentFileName 1], .tick, .stat,
    .unlinkTemp, .stat, .openNext, .send 40, .recv 0, .pass 0, .fail, .connect, .openInit, .pass 0,
    .send 41, .recv 1, .recv 1, .sendAck 1, .readAck, .glob, .globbed [segmentFileName 1], .stat, .stat,
    .openNext, .send 40, .recv 1, .pass 1, .pass 1, .sendAck 1, .readAck, .unlink]

end Hobbes.Hog
