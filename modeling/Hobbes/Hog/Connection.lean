import Hobbes.Hog.FolderInvariant

/-!
# What a connection carries

The receiver's thread of a connection gets the files in the order in which they were sent, whole or not
at all, passes on what was written to them, and acknowledges each at its end.
-/

namespace Hobbes.Hog

open Core

/-- Files, each behind its size. -/
def files (sent : List Sent) : Bytes := sent.flatMap fun f => sized f.bytes

/-- Acknowledgements that are about to be sent. -/
def RecvPc.owes : RecvPc → ℕ
  | .ackInit | .ackSegment => 1
  | _ => 0

namespace Conn

def segs (c : Conn) : List (Option ℕ) := c.sent.map (·.seg)

/-- What a thread that goes on has still to receive of the files that were begun. -/
def unread (S : Setup) (c : Conn) : Option Bytes :=
  match c.pc with
  | .group => some (sized S.groupName ++ files c.sent)
  | .passing .. => some (files (c.sent.drop (c.handled.length + 1)))
  | .closed => none
  | .init | .ackInit | .segment | .ackSegment => some (files (c.sent.drop c.handled.length))

/-- This is missing on the connection. -/
def Misses (S : Setup) (c : Conn) (lost : Bytes) : Prop := ∀ u ∈ c.unread S, c.wire ++ lost = u

/-- A segment is processed: these transactions were passed on, and these are left. -/
def Passing (published : List (List Bytes)) (c : Conn) (rest : Bytes) (passed : List Bytes) : Prop :=
  ∃ k bs left, c.current = some ⟨some k, bs⟩ ∧ published[k]? = some (passed ++ left) ∧
    rest = writeTxns left ∧ ∀ txn ∈ left, txn.length < 2 ^ 64

/-- A connection, when `r` segment files were removed. -/
structure Inv (S : Setup) (published : List (List Bytes)) (r : ℕ) (c : Conn) : Prop where
  sent : ∀ f ∈ c.sent, f.bytes.length < 2 ^ 64 ∧ ∀ k ∈ f.seg, k ≤ r ∧ S.Holds published k f.bytes
  order : c.segs = [] ∨ ∃ a l, c.segs = none :: (List.range' a l).map some
  handled : c.handled <+: c.segs
  acked : c.acked <+: c.segs
  acks : c.acked.length + c.acks.length + c.pc.owes ≤ c.handled.length
  misses : ∃ lost, c.Misses S lost
  start : c.pc = .group ∨ c.pc = .init → c.handled = []
  started : c.pc = .segment ∨ (∃ rest passed, c.pc = .passing rest passed) → c.handled ≠ []
  passing : ∀ rest passed, c.pc = .passing rest passed → c.Passing published rest passed

variable {S : Setup} {published : List (List Bytes)} {r : ℕ} {c c' : Conn} {f : Sent} {lost : Bytes}

lemma Inv.append (h : c.Inv S published r) (more : List (List Bytes)) :
    c.Inv S (published ++ more) r := by
  refine { h with sent := fun f hf => ?_, passing := fun rest passed hpc => ?_ }
  · obtain ⟨hlen, hseg⟩ := h.sent f hf
    exact ⟨hlen, fun k hk => ⟨(hseg k hk).1, (hseg k hk).2.append more⟩⟩
  · obtain ⟨k, bs, left, hcurrent, htxns, hleft⟩ := h.passing rest passed hpc
    refine ⟨k, bs, left, hcurrent, ?_, hleft⟩
    rw [List.getElem?_append_left (List.getElem?_eq_some_iff.mp htxns).1, htxns]

lemma Inv.mono (h : c.Inv S published r) {r' : ℕ} (hr : r ≤ r') : c.Inv S published r' := by
  refine { h with sent := fun f hf => ?_ }
  obtain ⟨hlen, hseg⟩ := h.sent f hf
  exact ⟨hlen, fun k hk => ⟨Nat.le_trans (hseg k hk).1 hr, (hseg k hk).2⟩⟩

lemma inv_new : new.Inv S published r where
  sent := by simp [new]
  order := .inl rfl
  handled := List.prefix_rfl
  acked := List.prefix_rfl
  acks := Nat.le_refl _
  misses := ⟨sized S.groupName, by simp [Misses, unread, files, new]⟩
  start _ := rfl
  started := by simp [new]
  passing := by simp [new]

/-! ### The receiver -/

/-- What is received next is a file that was sent. -/
lemma files_drop {n : ℕ} {wire rest gz : Bytes} (h : c.Inv S published r)
    (hmiss : wire ++ lost = files (c.sent.drop n)) (hs : srecv wire = some (gz, rest)) :
    ∃ f, c.sent[n]? = some f ∧ f.bytes = gz ∧ rest ++ lost = files (c.sent.drop (n + 1)) := by
  rcases hdrop : c.sent.drop n with _ | ⟨f, fs⟩
  · rw [hdrop] at hmiss
    obtain ⟨rfl, -⟩ := List.append_eq_nil_iff.mp hmiss
    cases hs
  · have hget : c.sent[n]? = some f := by
      rw [← Nat.add_zero n, ← List.getElem?_drop, hdrop]
      rfl
    have hrest : c.sent.drop (n + 1) = fs := by
      rw [← List.drop_drop, hdrop]
      rfl
    rw [hdrop] at hmiss
    obtain ⟨rfl, hlost⟩ := srecv_of_prefix (h.sent f (List.mem_of_getElem? hget)).1 hmiss hs
    exact ⟨f, hget, rfl, hrest ▸ hlost⟩

lemma segs_getElem {n : ℕ} (hf : c.sent[n]? = some f) : c.segs[n]? = some f.seg := by
  simp [segs, hf]

/-- The init message is the first file, and all others are segments. -/
lemma Inv.seg_eq_none_iff {n : ℕ} (h : c.Inv S published r) (hf : c.sent[n]? = some f) :
    f.seg = none ↔ n = 0 := by
  have hseg := segs_getElem hf
  rcases h.order with hnil | ⟨a, l, hsegs⟩
  · simp [hnil] at hseg
  · rw [hsegs] at hseg
    cases n with
    | zero => simpa [eq_comm] using hseg
    | succ n =>
      simp only [List.getElem?_cons_succ, List.getElem?_map, Option.map_eq_some_iff] at hseg
      obtain ⟨k, -, hk⟩ := hseg
      simp [← hk]

/-- The next file is processed. -/
lemma Inv.handled_append (h : c.Inv S published r) (hf : c.current = some f) :
    c.handled ++ [f.seg] <+: c.segs := by
  obtain ⟨rest, hrest⟩ := h.handled
  have hseg := segs_getElem hf
  rw [← hrest, List.getElem?_append_right (Nat.le_refl _), Nat.sub_self] at hseg
  rcases rest with _ | ⟨s, rest⟩
  · cases hseg
  · obtain rfl : s = f.seg := by simpa using hseg
    exact ⟨rest, by rw [List.append_assoc, List.singleton_append, hrest]⟩

lemma Inv.recv_group {gz wire : Bytes} (h : c.Inv S published r) (hpc : c.pc = .group)
    (hs : srecv c.wire = some (gz, wire)) :
    ({ c with wire, pc := .init } : Conn).Inv S published r ∧
      ∀ lost, c.Misses S lost → ({ c with wire, pc := .init } : Conn).Misses S lost := by
  have hstart := h.start (.inl hpc)
  have hmisses : ∀ lost, c.Misses S lost → ({ c with wire, pc := .init } : Conn).Misses S lost := by
    intro lost hlost
    have hgroup : c.wire ++ lost = sized S.groupName ++ files c.sent :=
      hlost _ (by simp only [unread, hpc]; rfl)
    obtain ⟨-, hrest⟩ := srecv_of_prefix S.small hgroup hs
    simpa [Misses, unread, hstart] using hrest
  have hacks := h.acks
  simp only [hpc, RecvPc.owes] at hacks
  obtain ⟨lost, hlost⟩ := h.misses
  exact ⟨⟨h.sent, h.order, h.handled, h.acked, hacks, ⟨lost, hmisses lost hlost⟩, fun _ => hstart,
    by simp, by simp⟩, hmisses⟩

lemma Inv.recv_init {gz wire : Bytes} (h : c.Inv S published r) (hpc : c.pc = .init)
    (hs : srecv c.wire = some (gz, wire)) :
    let c' : Conn := { c with wire, pc := .ackInit, handled := c.handled ++ [none] }
    c'.Inv S published r ∧ ∀ lost, c.Misses S lost → c'.Misses S lost := by
  have hstart := h.start (.inr hpc)
  have hreads : ∀ lost, c.Misses S lost → ∃ f, c.sent[0]? = some f ∧
      wire ++ lost = files (c.sent.drop 1) := by
    intro lost hlost
    have hfiles := hlost _ (by simp only [unread, hpc]; rfl)
    rw [hstart] at hfiles
    obtain ⟨f, hf, -, hrest⟩ := files_drop h hfiles hs
    exact ⟨f, hf, hrest⟩
  have hmisses : ∀ lost, c.Misses S lost →
      ({ c with wire, pc := .ackInit, handled := c.handled ++ [none] } : Conn).Misses S lost := by
    intro lost hlost
    obtain ⟨-, -, hrest⟩ := hreads lost hlost
    simpa [Misses, unread, hstart] using hrest
  obtain ⟨lost, hlost⟩ := h.misses
  obtain ⟨f, hf, -⟩ := hreads lost hlost
  have hhandled : c.handled ++ [none] <+: c.segs := by
    have hcurrent : c.current = some f := by rw [current, hstart, List.length_nil, hf]
    rw [← (h.seg_eq_none_iff hf).mpr rfl]
    exact h.handled_append hcurrent
  have hacks := h.acks
  simp only [hpc, RecvPc.owes] at hacks
  refine ⟨⟨h.sent, h.order, hhandled, h.acked, ?_, ⟨lost, hmisses lost hlost⟩, by simp, by simp,
    by simp⟩, hmisses⟩
  simp only [RecvPc.owes, List.length_append, List.length_singleton]
  omega

/-- The next segment was received: what is read out of it was written to it. -/
lemma Inv.recv_segment {gz wire : Bytes} (h : c.Inv S published r) (hpc : c.pc = .segment)
    (hs : srecv c.wire = some (gz, wire)) :
    let c' : Conn := { c with wire, pc := .passing (S.gunzip gz) [] }
    c'.Inv S published r ∧ ∀ lost, c.Misses S lost → c'.Misses S lost := by
  have hstarted := h.started (.inl hpc)
  have hreads : ∀ lost, c.Misses S lost → ∃ f, c.current = some f ∧ f.bytes = gz ∧
      wire ++ lost = files (c.sent.drop (c.handled.length + 1)) := by
    intro lost hlost
    exact files_drop h (hlost _ (by simp only [unread, hpc]; rfl)) hs
  have hmisses : ∀ lost, c.Misses S lost →
      ({ c with wire, pc := .passing (S.gunzip gz) [] } : Conn).Misses S lost := by
    intro lost hlost
    obtain ⟨-, -, -, hrest⟩ := hreads lost hlost
    simpa [Misses, unread] using hrest
  obtain ⟨lost, hlost⟩ := h.misses
  obtain ⟨f, hf, rfl, -⟩ := hreads lost hlost
  have hacks := h.acks
  simp only [hpc, RecvPc.owes] at hacks
  refine ⟨⟨h.sent, h.order, h.handled, h.acked, hacks, ⟨lost, hmisses lost hlost⟩, by simp,
    fun _ => hstarted, ?_⟩, hmisses⟩
  rintro rest passed hrest
  obtain ⟨rfl, rfl⟩ : S.gunzip f.bytes = rest ∧ [] = passed := by simpa using hrest
  obtain ⟨seg, bs⟩ := f
  cases seg with
  | none =>
    have hzero := (h.seg_eq_none_iff hf).mp rfl
    exact absurd (List.length_eq_zero_iff.mp hzero) hstarted
  | some k =>
    obtain ⟨-, hseg⟩ := h.sent _ (List.mem_of_getElem? hf)
    obtain ⟨-, txns, htxns, hgunzip, -, hsmall⟩ := hseg k rfl
    exact ⟨k, bs, txns, hf, htxns, hgunzip, hsmall⟩

lemma Inv.recv (h : c.Inv S published r) (hs : c.recv S = some c') :
    c'.Inv S published r ∧ ∀ lost, c.Misses S lost → c'.Misses S lost := by
  rw [Conn.recv] at hs
  split at hs
  · rename_i hpc hrecv
    obtain rfl := Option.some.inj hs
    exact h.recv_group hrecv hpc
  · rename_i hpc hrecv
    obtain rfl := Option.some.inj hs
    exact h.recv_init hrecv hpc
  · rename_i hpc hrecv
    obtain rfl := Option.some.inj hs
    exact h.recv_segment hrecv hpc
  · cases hs

lemma Inv.sendAck (h : c.Inv S published r) (hs : c.sendAck = some c') :
    c'.Inv S published r ∧ ∀ lost, c.Misses S lost → c'.Misses S lost := by
  have howes : c.pc.owes = 1 ∧ c' = { c with acks := c.acks ++ [1], pc := .segment } ∧
      c.unread S = some (files (c.sent.drop c.handled.length)) := by
    rw [Conn.sendAck] at hs
    split at hs
    · rename_i hpc
      exact ⟨by rw [hpc]; rfl, (Option.some.inj hs).symm, by simp only [unread, hpc]⟩
    · rename_i hpc
      exact ⟨by rw [hpc]; rfl, (Option.some.inj hs).symm, by simp only [unread, hpc]⟩
    · cases hs
  obtain ⟨howes, rfl, hunread⟩ := howes
  have hacks := h.acks
  have hmisses : ∀ lost, c.Misses S lost →
      ({ c with acks := c.acks ++ [1], pc := .segment } : Conn).Misses S lost := by
    intro lost hlost
    simpa [Misses, unread] using hlost _ hunread
  obtain ⟨lost, hlost⟩ := h.misses
  refine ⟨⟨h.sent, h.order, h.handled, h.acked, ?_, ⟨lost, hmisses lost hlost⟩, by simp,
    fun _ hnil => ?_, by simp⟩, hmisses⟩
  · simp only [RecvPc.owes, List.length_append, List.length_singleton]
    omega
  · have hlen := congrArg List.length hnil
    simp only [List.length_nil] at hlen
    omega

/-- A transaction is passed on. -/
lemma Inv.pass_txn {rest rest' txn : Bytes} {passed : List Bytes} (h : c.Inv S published r)
    (hpc : c.pc = .passing rest passed) (hrest : rest ≠ []) (hs : readTxn rest = some (txn, rest')) :
    let c' : Conn := { c with pc := .passing rest' (passed ++ [txn]) }
    c'.Inv S published r ∧ ∀ lost, c.Misses S lost → c'.Misses S lost := by
  have hmisses : ∀ lost, c.Misses S lost →
      ({ c with pc := .passing rest' (passed ++ [txn]) } : Conn).Misses S lost := by
    intro lost hlost
    have hunread : c.unread S = some (files (c.sent.drop (c.handled.length + 1))) := by
      simp only [unread, hpc]
    simpa [Misses, unread] using hlost _ hunread
  obtain ⟨k, bs, left, hcurrent, htxns, rfl, hsmall⟩ := h.passing _ _ hpc
  obtain ⟨t, left, rfl⟩ := List.exists_cons_of_ne_nil (l := left) (by rintro rfl; exact hrest rfl)
  obtain ⟨rfl, rfl⟩ : t = txn ∧ writeTxns left = rest' := by
    rw [readTxn_writeTxns (hsmall t List.mem_cons_self)] at hs
    simpa using hs
  have hacks := h.acks
  simp only [hpc, RecvPc.owes] at hacks
  obtain ⟨lost, hlost⟩ := h.misses
  refine ⟨⟨h.sent, h.order, h.handled, h.acked, hacks, ⟨lost, hmisses lost hlost⟩, by simp,
    fun _ => h.started (.inr ⟨_, _, hpc⟩), ?_⟩, hmisses⟩
  rintro rest passed' hpassing
  obtain ⟨rfl, rfl⟩ : writeTxns left = rest ∧ passed ++ [t] = passed' := by simpa using hpassing
  refine ⟨k, bs, left, hcurrent, ?_, rfl, fun t ht => hsmall t (List.mem_cons_of_mem _ ht)⟩
  rw [List.append_assoc]
  exact htxns

/-- All transactions of the segment were passed on. -/
lemma Inv.pass_end {k : ℕ} {bs : Bytes} {passed : List Bytes} (h : c.Inv S published r)
    (hpc : c.pc = .passing [] passed) (hcurrent : c.current = some ⟨some k, bs⟩) :
    published[k]? = some passed ∧
    let c' : Conn := { c with pc := .ackSegment, handled := c.handled ++ [some k] }
    c'.Inv S published r ∧ ∀ lost, c.Misses S lost → c'.Misses S lost := by
  obtain ⟨k', bs', left, hcurrent', htxns, hleft, -⟩ := h.passing _ _ hpc
  obtain ⟨rfl, rfl⟩ : k' = k ∧ bs' = bs := by simpa using hcurrent'.symm.trans hcurrent
  obtain rfl : left = [] := by
    rcases left with _ | ⟨t, left⟩
    · rfl
    · exact absurd hleft.symm (writeTxns_ne_nil t left)
  have hmisses : ∀ lost, c.Misses S lost →
      ({ c with pc := .ackSegment, handled := c.handled ++ [some k'] } : Conn).Misses S lost := by
    intro lost hlost
    have hunread : c.unread S = some (files (c.sent.drop (c.handled.length + 1))) := by
      simp only [unread, hpc]
    simpa [Misses, unread] using hlost _ hunread
  have hacks := h.acks
  simp only [hpc, RecvPc.owes] at hacks
  obtain ⟨lost, hlost⟩ := h.misses
  rw [List.append_nil] at htxns
  refine ⟨htxns, ⟨h.sent, h.order, h.handled_append hcurrent, h.acked, ?_,
    ⟨lost, hmisses lost hlost⟩, by simp, by simp, by simp⟩, hmisses⟩
  simp only [RecvPc.owes, List.length_append, List.length_singleton]
  omega

lemma Inv.close (h : c.Inv S published r) :
    let c' : Conn := { c with pc := .closed }
    c'.Inv S published r ∧ ∀ lost, c.Misses S lost → c'.Misses S lost := by
  have hmisses : ∀ lost, ({ c with pc := .closed } : Conn).Misses S lost := by
    simp [Misses, unread]
  refine ⟨⟨h.sent, h.order, h.handled, h.acked, ?_, ⟨[], hmisses []⟩, by simp, by simp, by simp⟩,
    fun lost _ => hmisses lost⟩
  exact Nat.le_trans (Nat.le_add_right ..) h.acks

/-! ### The sender -/

lemma files_append (sent : List Sent) (f : Sent) : files (sent ++ [f]) = files sent ++ sized f.bytes := by
  simp [files]

/-- A file is begun. -/
lemma Inv.begin (h : c.Inv S published r)
    (hf : f.bytes.length < 2 ^ 64 ∧ ∀ k ∈ f.seg, k ≤ r ∧ S.Holds published k f.bytes)
    (horder : ∃ a l, c.segs ++ [f.seg] = none :: (List.range' a l).map some) :
    let c' : Conn := { c with sent := c.sent ++ [f] }
    c'.Inv S published r ∧ ∀ lost, c.Misses S lost → c'.Misses S (lost ++ sized f.bytes) := by
  have hsegs : ({ c with sent := c.sent ++ [f] } : Conn).segs = c.segs ++ [f.seg] := by simp [segs]
  have hle : c.handled.length ≤ c.sent.length := by
    have hle := h.handled.length_le
    rwa [segs, List.length_map] at hle
  have hmisses : ∀ lost, c.Misses S lost →
      ({ c with sent := c.sent ++ [f] } : Conn).Misses S (lost ++ sized f.bytes) := by
    intro lost hlost u hu
    obtain ⟨v, hv, rfl⟩ : ∃ v ∈ c.unread S, u = v ++ sized f.bytes := by
      have hpassing := h.passing
      cases hpc : c.pc with
      | passing rest passed =>
        obtain ⟨k, bs, left, hcurrent, -⟩ := hpassing rest passed hpc
        have hlt : c.handled.length < c.sent.length := (List.getElem?_eq_some_iff.mp hcurrent).1
        simp only [unread, hpc, List.drop_append_of_le_length hlt, files_append] at hu ⊢
        exact ⟨_, rfl, (Option.some.inj hu).symm⟩
      | closed => simp [unread, hpc] at hu
      | group =>
        simp only [unread, hpc, files_append, ← List.append_assoc] at hu ⊢
        exact ⟨_, rfl, (Option.some.inj hu).symm⟩
      | init | ackInit | segment | ackSegment =>
        simp only [unread, hpc, List.drop_append_of_le_length hle, files_append] at hu ⊢
        exact ⟨_, rfl, (Option.some.inj hu).symm⟩
    rw [← hlost v hv, List.append_assoc]
  obtain ⟨lost, hlost⟩ := h.misses
  refine ⟨⟨?_, .inr (hsegs ▸ horder), ?_, ?_, h.acks, ⟨_, hmisses lost hlost⟩, h.start, h.started, ?_⟩,
    hmisses⟩
  · intro g hg
    rcases List.mem_append.mp hg with hg | hg
    · exact h.sent g hg
    · rwa [List.mem_singleton.mp hg]
  · exact hsegs ▸ h.handled.trans (List.prefix_append ..)
  · exact hsegs ▸ h.acked.trans (List.prefix_append ..)
  · intro rest passed hpc
    obtain ⟨k, bs, left, hcurrent, hleft⟩ := h.passing rest passed hpc
    refine ⟨k, bs, left, ?_, hleft⟩
    rw [current, List.getElem?_append_left (List.getElem?_eq_some_iff.mp hcurrent).1]
    exact hcurrent

lemma Inv.send {rest : Bytes} {k : ℕ} (h : c.Inv S published r) (hmisses : c.Misses S rest) :
    let c' : Conn := { c with wire := c.wire ++ rest.take k }
    c'.Inv S published r ∧ c'.Misses S (rest.drop k) := by
  have hmisses' : ({ c with wire := c.wire ++ rest.take k } : Conn).Misses S (rest.drop k) := by
    intro u hu
    rw [← hmisses u hu, List.append_assoc, List.take_append_drop]
  exact ⟨⟨h.sent, h.order, h.handled, h.acked, h.acks, ⟨_, hmisses'⟩, h.start, h.started, h.passing⟩,
    hmisses'⟩

/-- The acknowledgement of the last file is read, which was processed then. -/
lemma Inv.readAck {ack : UInt8} {acks : Bytes} (h : c.Inv S published r)
    (hlen : c.acked.length + 1 = c.sent.length) (hlast : c.sent.getLast? = some f)
    (hacks : c.acks = ack :: acks) :
    let c' : Conn := { c with acks, acked := c.acked ++ [f.seg] }
    c'.Inv S published r ∧ f.seg ∈ c.handled ∧ ∀ lost, c.Misses S lost → c'.Misses S lost := by
  obtain ⟨front, hfront⟩ := List.getLast?_eq_some_iff.mp hlast
  have hsegs : c.segs = front.map (·.seg) ++ [f.seg] := by simp [segs, hfront]
  have hbound := h.acks
  rw [hacks, List.length_cons] at hbound
  have hhandled : c.handled = c.segs := by
    refine h.handled.eq_of_length_le ?_
    rw [segs, List.length_map]
    omega
  have hacked : c.acked ++ [f.seg] = c.segs := by
    have hprefix : c.acked <+: front.map (·.seg) := by
      refine List.prefix_of_prefix_length_le h.acked (hsegs ▸ List.prefix_append ..) ?_
      rw [hfront, List.length_append, List.length_singleton] at hlen
      rw [List.length_map]
      omega
    have heq : c.acked = front.map (·.seg) := by
      refine hprefix.eq_of_length_le ?_
      rw [hfront, List.length_append, List.length_singleton] at hlen
      rw [List.length_map]
      omega
    rw [hsegs, heq]
  refine ⟨⟨h.sent, h.order, h.handled, hacked ▸ List.prefix_rfl, ?_, h.misses, h.start, h.started,
    h.passing⟩, ?_, fun lost hlost => hlost⟩
  · simp only [List.length_append, List.length_singleton]
    omega
  · rw [hhandled, hsegs]
    simp

lemma Inv.fail (h : c.Inv S published r) : ({ c with failed := true } : Conn).Inv S published r :=
  ⟨h.sent, h.order, h.handled, h.acked, h.acks, h.misses, h.start, h.started, h.passing⟩

end Conn

end Hobbes.Hog
