import Hobbes.Hog.Connection
import Hobbes.Hog.Listing
import Mathlib.Data.List.Induction

/-!
# The invariant of a transfer

The segments that were removed are the oldest ones, and each of them was processed to the end. The
connection of the sender got one segment after another up to the oldest one that is left, and what an
earlier connection acknowledged was removed before.
-/

namespace Hobbes.Hog

open Core

/-! ### First processings -/

/-- Each segment when it was processed to the end for the first time. -/
def firsts (ds : List Done) : List Done :=
  ds.foldl (fun acc d => if acc.any (·.seg = d.seg) then acc else acc ++ [d]) []

lemma firsts_append (ds : List Done) (d : Done) :
    firsts (ds ++ [d]) =
      if (firsts ds).any (·.seg = d.seg) then firsts ds else firsts ds ++ [d] := by
  simp [firsts, List.foldl_append]

lemma mem_firsts {ds : List Done} {d : Done} (h : d ∈ firsts ds) : d ∈ ds := by
  induction ds using List.reverseRecOn with
  | nil => cases h
  | append_singleton ds e ih =>
    rw [firsts_append] at h
    split_ifs at h
    · exact List.mem_append_left _ (ih h)
    · rcases List.mem_append.mp h with h | h
      · exact List.mem_append_left _ (ih h)
      · exact List.mem_append_right _ h

lemma seg_mem_firsts {ds : List Done} {d : Done} (h : d ∈ ds) :
    d.seg ∈ (firsts ds).map (·.seg) := by
  induction ds using List.reverseRecOn with
  | nil => cases h
  | append_singleton ds e ih =>
    rw [firsts_append]
    rcases List.mem_append.mp h with h | h
    · have hmem := ih h
      split_ifs
      · exact hmem
      · rw [List.map_append]
        exact List.mem_append_left _ hmem
    · obtain rfl := List.mem_singleton.mp h
      split_ifs with hany
      · obtain ⟨e, he, heq⟩ := List.any_eq_true.mp hany
        exact List.mem_map.mpr ⟨e, he, by simpa using heq⟩
      · simp

/-- The next segment, or one that was processed already, is processed to the end. -/
lemma firsts_range {ds : List Done} {d : Done} {m : ℕ} (h : (firsts ds).map (·.seg) = List.range m)
    (hd : d.seg ≤ m) :
    (firsts (ds ++ [d])).map (·.seg) = List.range (if d.seg = m then m + 1 else m) := by
  have hany : (firsts ds).any (·.seg = d.seg) = true ↔ d.seg < m := by
    rw [← List.mem_range, ← h, List.any_eq_true, List.mem_map]
    simp
  rw [firsts_append]
  by_cases heq : d.seg = m
  · have hnot : ¬(firsts ds).any (·.seg = d.seg) = true := by
      rw [hany]
      omega
    rw [if_neg hnot, if_pos heq, List.map_append, h, List.range_succ, ← heq]
    rfl
  · rw [if_pos (hany.mpr (by omega)), if_neg heq, h]

/-! ### Stages -/

namespace Conn

/-- After the init message, segments up to those that were removed were sent. -/
def Removed (r : ℕ) (c : Conn) : Prop :=
  ∃ a l, a + l = r ∧ c.segs = none :: (List.range' a l).map some

/-- The oldest segment that is left was sent as well. -/
def Sends (r : ℕ) (c : Conn) : Prop :=
  ∃ a l, a + l = r ∧ c.segs = none :: (List.range' a (l + 1)).map some

variable {S : Setup} {r : ℕ} {c c' : Conn}

lemma Removed.sends (h : c.Removed r) (hsegs : c'.segs = c.segs ++ [some r]) : c'.Sends r := by
  obtain ⟨a, l, rfl, heq⟩ := h
  refine ⟨a, l, rfl, ?_⟩
  rw [hsegs, heq, List.range'_concat, List.map_append]
  simp

lemma Sends.removed (h : c.Sends r) : c.Removed (r + 1) := by
  obtain ⟨a, l, rfl, heq⟩ := h
  exact ⟨a, l + 1, rfl, heq⟩

lemma Sends.getLast (h : c.Sends r) : c.segs.getLast? = some (some r) := by
  obtain ⟨a, l, rfl, heq⟩ := h
  rw [heq, List.range'_concat, List.map_append, ← List.cons_append, Nat.one_mul]
  exact List.getLast?_concat

/-- The sender's connection, by where the sender is. -/
def Stage (S : Setup) (r : ℕ) (c : Conn) : SendPc → Prop
  | .offline => True
  | .connected => c.sent = [] ∧ c.acked = [] ∧ c.Misses S (sized S.groupName)
  | .sending name todo rest => c.acked.length + 1 = c.sent.length ∧ c.Misses S rest ∧
      match name with
      | none => c.segs = [none] ∧ todo = []
      | some _ => c.Sends r
  | .removing .. => c.acked.length = c.sent.length ∧ c.Misses S [] ∧ c.Sends r ∧ some r ∈ c.handled
  | .polling | .globbing _ | .stating .. | .listed _ =>
    c.acked.length = c.sent.length ∧ c.Misses S [] ∧ c.Removed r

/-- What the thread of the receiver does to a connection. -/
structure Receives (S : Setup) (c c' : Conn) : Prop where
  sent : c'.sent = c.sent
  acked : c'.acked = c.acked
  failed : c'.failed = c.failed
  handled : c.handled <+: c'.handled
  misses : ∀ lost, c.Misses S lost → c'.Misses S lost

lemma Receives.segs (h : Receives S c c') : c'.segs = c.segs := by rw [Conn.segs, Conn.segs, h.sent]

lemma Stage.receives {pc : SendPc} (h : c.Stage S r pc) (hr : Receives S c c') : c'.Stage S r pc := by
  have hmisses := hr.misses
  cases pc with
  | offline => trivial
  | connected => exact ⟨hr.sent.trans h.1, hr.acked.trans h.2.1, hmisses _ h.2.2⟩
  | sending name todo rest =>
    obtain ⟨hlen, hrest, hname⟩ := h
    refine ⟨by rw [hr.acked, hr.sent, hlen], hmisses _ hrest, ?_⟩
    cases name with
    | none => exact ⟨hr.segs.trans hname.1, hname.2⟩
    | some name =>
      obtain ⟨a, l, hal, hsegs⟩ := hname
      exact ⟨a, l, hal, hr.segs.trans hsegs⟩
  | removing name todo =>
    obtain ⟨hlen, hrest, ⟨a, l, hal, hsegs⟩, hhandled⟩ := h
    exact ⟨by rw [hr.acked, hr.sent, hlen], hmisses _ hrest, ⟨a, l, hal, hr.segs.trans hsegs⟩,
      hr.handled.subset hhandled⟩
  | polling | globbing present | stating paths segfiles | listed todo =>
    obtain ⟨hlen, hrest, a, l, hal, hsegs⟩ := h
    exact ⟨by rw [hr.acked, hr.sent, hlen], hmisses _ hrest, a, l, hal, hr.segs.trans hsegs⟩

end Conn

/-- A file was acknowledged that is not removed yet. -/
def SendPc.removes : SendPc → ℕ
  | .removing .. => 1
  | _ => 0

namespace Transfer

/-- A transfer after `r` segment files were removed. -/
structure Inv (S : Setup) (r : ℕ) (w : Transfer) : Prop where
  folder : w.folder.Inv S r
  listing : w.folder.Listing w.sender
  conn : ∀ (i : ℕ) (c : Conn), w.conns[i]? = some c → c.Inv S w.folder.published r
  stage : w.sender ≠ .offline → ∃ c, w.conns[w.last]? = some c ∧ c.Stage S r w.sender
  failed : ∀ (i : ℕ) (c : Conn), w.conns[i]? = some c →
    i + 1 < w.conns.length ∨ w.sender = .offline → c.failed = true
  bound : ∀ (i : ℕ) (c : Conn), w.conns[i]? = some c → ∀ k, some k ∈ c.acked →
    k < r + w.sender.removes
  apart : ∀ (i j : ℕ) (c c' : Conn), i < j → w.conns[i]? = some c → w.conns[j]? = some c' →
    ∀ k k', some k ∈ c.acked → some k' ∈ c'.segs → k < k'
  known : ∀ d ∈ w.done, d.conn < w.conns.length
  whole : ∀ d ∈ w.done, w.folder.published[d.seg]? = some d.txns
  handled : ∀ (i : ℕ) (c : Conn), w.conns[i]? = some c →
    (w.done.filter (·.conn = i)).map (fun d => some d.seg) = c.handled.tail
  firsts : ∃ m, r ≤ m ∧ m ≤ r + 1 ∧ (firsts w.done).map (·.seg) = List.range m

variable {S : Setup} {r : ℕ} {w w' : Transfer} {c c' : Conn} {i : ℕ}

lemma getElem_set_cases {conns : List Conn} {j : ℕ} {x : Conn}
    (h : (conns.set i c')[j]? = some x) : (j = i ∧ x = c') ∨ (j ≠ i ∧ conns[j]? = some x) := by
  rcases eq_or_ne j i with rfl | hne
  · left
    have hlt : j < conns.length := by
      have hlt := (List.getElem?_eq_some_iff.mp h).1
      rwa [List.length_set] at hlt
    rw [List.getElem?_set_self hlt] at h
    exact ⟨rfl, (Option.some.inj h).symm⟩
  · right
    rw [List.getElem?_set_ne hne.symm] at h
    exact ⟨hne, h⟩

namespace Inv

lemma start (S : Setup) : (Transfer.start S).Inv S 0 := by
  refine ⟨⟨rfl, rfl, ?_, ?_, ?_, .nil, ?_, ?_, ?_, ?_, ?_, ?_, ?_⟩, trivial, ?_, ?_, ?_, ?_, ?_, ?_, ?_,
    ?_, 0, Nat.le_refl _, Nat.zero_le _, rfl⟩
  all_goals simp [Transfer.start]

/-- The publishing thread takes a step. -/
lemma onFolder {d : Folder} (h : w.Inv S r) (hd : d.Inv S r ∧ w.folder.Follows d) :
    ({ w with folder := d } : Transfer).Inv S r := by
  obtain ⟨hd, hfollows⟩ := hd
  obtain ⟨more, hmore⟩ := hfollows.published
  refine ⟨hd, h.listing.follows hfollows, fun i c hc => ?_, h.stage, h.failed, h.bound, h.apart, h.known,
    fun x hx => ?_, h.handled, h.firsts⟩
  · exact hmore ▸ (h.conn i c hc).append more
  · have hget := h.whole x hx
    rw [← hmore, List.getElem?_append_left (List.getElem?_eq_some_iff.mp hget).1, hget]

/-! ### The receiver -/

/-- A thread of the receiver takes a step, in which a segment may come to its end. -/
lemma receives (ds : List Done) (h : w.Inv S r) (hi : w.conns[i]? = some c)
    (hc : c'.Inv S w.folder.published r) (hr : Conn.Receives S c c')
    (hds : ∀ d ∈ ds, d.conn = i ∧ d.seg ≤ r ∧ w.folder.published[d.seg]? = some d.txns)
    (hone : ds.length ≤ 1)
    (htail : c'.handled.tail = c.handled.tail ++ ds.map fun d => some d.seg) :
    ({ w with conns := w.conns.set i c', done := w.done ++ ds } : Transfer).Inv S r := by
  have hilt : i < w.conns.length := (List.getElem?_eq_some_iff.mp hi).1
  refine ⟨h.folder, h.listing, ?_, ?_, ?_, ?_, ?_, ?_, ?_, ?_, ?_⟩
  · intro j x hx
    rcases getElem_set_cases hx with ⟨rfl, rfl⟩ | ⟨-, hx⟩
    · exact hc
    · exact h.conn j x hx
  · intro hoffline
    obtain ⟨x, hx, hstage⟩ := h.stage hoffline
    have hlast : ({ w with conns := w.conns.set i c', done := w.done ++ ds } : Transfer).last =
        w.last := by simp [last]
    rw [hlast]
    by_cases heq : w.last = i
    · obtain rfl : c = x := Option.some.inj (hi.symm.trans (heq ▸ hx))
      refine ⟨c', ?_, hstage.receives hr⟩
      rw [heq]
      exact List.getElem?_set_self hilt
    · refine ⟨x, ?_, hstage⟩
      rw [← hx]
      exact List.getElem?_set_ne (Ne.symm heq)
  · intro j x hx hj
    rw [List.length_set] at hj
    rcases getElem_set_cases hx with ⟨rfl, rfl⟩ | ⟨-, hx⟩
    · rw [hr.failed]
      exact h.failed j c hi hj
    · exact h.failed j x hx hj
  · intro j x hx k hk
    rcases getElem_set_cases hx with ⟨rfl, rfl⟩ | ⟨-, hx⟩
    · exact h.bound j c hi k (hr.acked ▸ hk)
    · exact h.bound j x hx k hk
  · intro j l x y hjl hx hy k k' hk hk'
    obtain ⟨x', hx', hxacked⟩ : ∃ x', w.conns[j]? = some x' ∧ x.acked = x'.acked := by
      rcases getElem_set_cases hx with ⟨rfl, rfl⟩ | ⟨-, hx⟩
      · exact ⟨c, hi, hr.acked⟩
      · exact ⟨x, hx, rfl⟩
    obtain ⟨y', hy', hysegs⟩ : ∃ y', w.conns[l]? = some y' ∧ y.segs = y'.segs := by
      rcases getElem_set_cases hy with ⟨rfl, rfl⟩ | ⟨-, hy⟩
      · exact ⟨c, hi, hr.segs⟩
      · exact ⟨y, hy, rfl⟩
    exact h.apart j l x' y' hjl hx' hy' k k' (hxacked ▸ hk) (hysegs ▸ hk')
  · intro d hd
    rw [List.length_set]
    rcases List.mem_append.mp hd with hd | hd
    · exact h.known d hd
    · rwa [(hds d hd).1]
  · intro d hd
    rcases List.mem_append.mp hd with hd | hd
    · exact h.whole d hd
    · exact (hds d hd).2.2
  · intro j x hx
    rw [List.filter_append, List.map_append]
    rcases getElem_set_cases hx with ⟨rfl, rfl⟩ | ⟨hne, hx⟩
    · have hall : ds.filter (·.conn = j) = ds :=
        List.filter_eq_self.mpr fun d hd => by simpa using (hds d hd).1
      rw [h.handled j c hi, hall, htail]
    · have hnone : ds.filter (·.conn = j) = [] := by
        refine List.filter_eq_nil_iff.mpr fun d hd => ?_
        simpa [(hds d hd).1] using Ne.symm hne
      rw [h.handled j x hx, hnone, List.map_nil, List.append_nil]
  · obtain ⟨n, hle, hle', hfirsts⟩ := h.firsts
    rcases ds with _ | ⟨d, _ | ⟨e, ds⟩⟩
    · rw [List.append_nil]
      exact ⟨n, hle, hle', hfirsts⟩
    · have hd := (hds d List.mem_cons_self).2.1
      refine ⟨if d.seg = n then n + 1 else n, ?_, ?_, firsts_range hfirsts (by omega)⟩
      · split_ifs <;> omega
      · split_ifs <;> omega
    · simp at hone

/-- A thread of the receiver takes a step in which no segment comes to its end. -/
lemma onConn {f : Conn → Option Conn} (h : w.Inv S r) (hs : w.onConn i f = some w')
    (hf : ∀ c c', c.Inv S w.folder.published r → f c = some c' →
      (c'.Inv S w.folder.published r ∧ ∀ lost, c.Misses S lost → c'.Misses S lost) ∧
        c'.sent = c.sent ∧ c'.acked = c.acked ∧ c'.failed = c.failed ∧ c.handled <+: c'.handled ∧
        c'.handled.tail = c.handled.tail) : w'.Inv S r := by
  obtain ⟨c, hi, hs⟩ := Option.bind_eq_some_iff.mp hs
  obtain ⟨c', hc', rfl⟩ := Option.map_eq_some_iff.mp hs
  obtain ⟨⟨hinv, hmisses⟩, hsent, hacked, hfailed, hhandled, htail⟩ := hf c c' (h.conn i c hi) hc'
  have hnext := h.receives [] hi hinv ⟨hsent, hacked, hfailed, hhandled, hmisses⟩ (by simp)
    (by simp) (by simp [htail])
  rwa [List.append_nil] at hnext

lemma recv (h : w.Inv S r) (hs : w.onConn i (·.recv S) = some w') : w'.Inv S r := by
  refine h.onConn hs fun c c' hc hc' => ⟨hc.recv hc', ?_⟩
  rw [Conn.recv] at hc'
  split at hc'
  · obtain rfl := Option.some.inj hc'
    exact ⟨rfl, rfl, rfl, List.prefix_rfl, rfl⟩
  · rename_i hpc _
    obtain rfl := Option.some.inj hc'
    have hnil := hc.start (.inr ‹_›)
    exact ⟨rfl, rfl, rfl, List.prefix_append .., by simp [hnil]⟩
  · obtain rfl := Option.some.inj hc'
    exact ⟨rfl, rfl, rfl, List.prefix_rfl, rfl⟩
  · cases hc'

lemma sendAck (h : w.Inv S r) (hs : w.onConn i (·.sendAck) = some w') : w'.Inv S r := by
  refine h.onConn hs fun c c' hc hc' => ⟨hc.sendAck hc', ?_⟩
  rw [Conn.sendAck] at hc'
  split at hc'
  · obtain rfl := Option.some.inj hc'
    exact ⟨rfl, rfl, rfl, List.prefix_rfl, rfl⟩
  · obtain rfl := Option.some.inj hc'
    exact ⟨rfl, rfl, rfl, List.prefix_rfl, rfl⟩
  · cases hc'

lemma close (h : w.Inv S r)
    (hs : w.onConn i (fun c => some { c with pc := .closed }) = some w') : w'.Inv S r := by
  refine h.onConn hs fun c c' hc hc' => ?_
  obtain rfl := Option.some.inj hc'
  exact ⟨hc.close, rfl, rfl, rfl, List.prefix_rfl, rfl⟩

lemma pass (h : w.Inv S r) (hs : w.pass i = some w') : w'.Inv S r := by
  obtain ⟨c, hi, hs⟩ := Option.bind_eq_some_iff.mp hs
  have hc := h.conn i c hi
  split at hs
  · rename_i rest passed hpc
    split_ifs at hs with hrest
    · subst hrest
      split at hs
      · rename_i k bs hcurrent
        obtain rfl := Option.some.inj hs
        obtain ⟨htxns, hinv, hmisses⟩ := hc.pass_end hpc hcurrent
        have hk := ((hc.sent _ (List.mem_of_getElem? hcurrent)).2 k rfl).1
        have hstarted := hc.started (.inr ⟨_, _, hpc⟩)
        refine h.receives [⟨i, k, passed⟩] hi hinv
          ⟨rfl, rfl, rfl, List.prefix_append .., hmisses⟩ ?_ (by simp) ?_
        · intro d hd
          obtain rfl := List.mem_singleton.mp hd
          exact ⟨rfl, hk, htxns⟩
        · exact List.tail_append_of_ne_nil hstarted
      · cases hs
    · split at hs
      · rename_i txn rest' hread
        obtain rfl := Option.some.inj hs
        obtain ⟨hinv, hmisses⟩ := hc.pass_txn hpc hrest hread
        have hnext := h.receives [] hi hinv ⟨rfl, rfl, rfl, List.prefix_rfl, hmisses⟩
          (by simp) (by simp) (by simp)
        rwa [List.append_nil] at hnext
      · cases hs
  · cases hs

/-! ### The sender -/

lemma lt_length (hlast : w.conns[w.last]? = some c) : w.last + 1 = w.conns.length := by
  have hlt := (List.getElem?_eq_some_iff.mp hlast).1
  rw [last] at hlt ⊢
  omega

/-- The sender takes a step on its connection. -/
lemma sends {pc : SendPc} (h : w.Inv S r) (hlast : w.conns[w.last]? = some c)
    (hc : c'.Inv S w.folder.published r) (hhandled : c'.handled = c.handled)
    (hlisting : w.folder.Listing pc) (hstage : c'.Stage S r pc)
    (hfailed : pc = .offline → c'.failed = true)
    (hsegs : ∀ k, some k ∈ c'.segs → some k ∈ c.segs ∨ (k = r ∧ w.sender.removes = 0))
    (hacked : ∀ k, some k ∈ c'.acked → k < r + pc.removes)
    (hremoves : w.sender.removes ≤ pc.removes) :
    ({ w with sender := pc, conns := w.conns.set w.last c' } : Transfer).Inv S r := by
  have hlen := lt_length hlast
  refine ⟨h.folder, hlisting, ?_, fun _ => ⟨c', ?_, hstage⟩, ?_, ?_, ?_, ?_, h.whole, ?_, h.firsts⟩
  · intro j x hx
    rcases getElem_set_cases hx with ⟨rfl, rfl⟩ | ⟨-, hx⟩
    · exact hc
    · exact h.conn j x hx
  · simp only [last, List.length_set]
    exact List.getElem?_set_self (by omega)
  · intro j x hx hj
    rw [List.length_set] at hj
    rcases getElem_set_cases hx with ⟨rfl, rfl⟩ | ⟨hne, hx⟩
    · exact hfailed (hj.resolve_left (by omega))
    · have hjlt := (List.getElem?_eq_some_iff.mp hx).1
      exact h.failed j x hx (.inl (by omega))
  · intro j x hx k hk
    rcases getElem_set_cases hx with ⟨rfl, rfl⟩ | ⟨-, hx⟩
    · exact hacked k hk
    · exact Nat.lt_of_lt_of_le (h.bound j x hx k hk) (Nat.add_le_add_left hremoves r)
  · intro j l x y hjl hx hy k k' hk hk'
    have hllt := (List.getElem?_eq_some_iff.mp hy).1
    rw [List.length_set] at hllt
    rcases getElem_set_cases hx with ⟨rfl, rfl⟩ | ⟨-, hx'⟩
    · omega
    · rcases getElem_set_cases hy with ⟨rfl, rfl⟩ | ⟨-, hy'⟩
      · rcases hsegs k' hk' with hk' | ⟨rfl, hzero⟩
        · exact h.apart j _ x c hjl hx' hlast k k' hk hk'
        · have hbound := h.bound j x hx' k hk
          rwa [hzero] at hbound
      · exact h.apart j l x y hjl hx' hy' k k' hk hk'
  · intro d hd
    rw [List.length_set]
    exact h.known d hd
  · intro j x hx
    rcases getElem_set_cases hx with ⟨rfl, rfl⟩ | ⟨-, hx⟩
    · rw [h.handled _ c hlast, hhandled]
    · exact h.handled j x hx

/-- The sender takes a step on its own. -/
lemma looks {pc : SendPc} (h : w.Inv S r) (hlast : w.conns[w.last]? = some c)
    (hlisting : w.folder.Listing pc) (hstage : c.Stage S r pc) (hpc : pc ≠ .offline)
    (hremoves : w.sender.removes = pc.removes) :
    ({ w with sender := pc } : Transfer).Inv S r := by
  refine ⟨h.folder, hlisting, h.conn, fun _ => ⟨c, hlast, hstage⟩, ?_, ?_, h.apart, h.known, h.whole,
    h.handled, h.firsts⟩
  · intro j x hx hj
    exact h.failed j x hx (.inl (hj.resolve_right hpc))
  · intro j x hx k hk
    have hbound := h.bound j x hx k hk
    rwa [hremoves] at hbound

end Inv

end Transfer

end Hobbes.Hog
