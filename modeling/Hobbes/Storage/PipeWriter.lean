import Hobbes.Storage.PipeInvariant
import Hobbes.Storage.QueueRefinement

/-!
# The steps of the writer
-/

namespace Hobbes.Storage

open Core Function

variable {count P : ℕ} {s s' : Pipe} {log : List Entry} {w : Window (ringSize count)}
  {t : Txns} {f : Feed} {src bs : List UInt8} {so : ℕ}

/-! ### Transactions -/

lemma Txns.size_wrote : (t.call (.wrote src true)).size = t.size + src.length := by
  simp [Txns.call, Txns.size]

/-- One more block adds what the marks cover of it. -/
lemma Txns.feed_wrote (hP : 0 < P) :
    (t.call (.wrote src true)).feed P = (t.feed P).append (stamped P (t.size % P) src) := by
  simp only [Txns.feed, Txns.call, Feed.append, visible_concat hP hP, Nat.zero_add, Txns.size]

lemma Feed.take_write (qos : PipeQOS) :
    f.take ⟨bs, (Task.write src so).mark qos⟩ = f.append bs := by
  cases qos <;> rfl

/-- The end of a write on a page that the rest of the block does not fill. -/
lemma Task.After.size (h : (Task.write src so).After P t f) (hlt : src.length - so < P) :
    src.length - so = (t.call (.wrote src true)).size % P := by
  obtain ⟨-, hle, ⟨k, hk⟩, -, -⟩ := h
  have : t.size + src.length = P * k + (src.length - so) := by omega
  rw [Txns.size_wrote, this, Nat.mul_add_mod, Nat.mod_eq_of_lt hlt]

/-! ### The writer's page -/

lemma Pipe.filled_eq {p o : ℕ} (h : s.w.page = some p) (ho : s.w.offset = o) :
    s.filled = (s.mem p).copyOut 0 o := by
  simp only [Pipe.filled, h, ho]

lemma Pipe.filled_of_offset (h : s.w.offset = 0) : s.filled = [] := by
  unfold Pipe.filled
  split <;> simp [h]

lemma Pipe.Inv.writePage (h : s.Inv P log w) {p : ℕ} (hp : s.writePage = some p) :
    p = w.pushed % ringSize count ∧ w.pushed + 1 < w.popped + ringSize count := by
  have hpos : 0 < count := by have := w.size_pos; unfold ringSize at this; omega
  unfold Pipe.writePage at hp
  split_ifs at hp with hne
  rw [h.wi, h.ri, h.count_eq, nextIndex_slot hpos] at hne
  have := mt w.slot_succ_eq_iff.mpr hne
  have := w.room
  exact ⟨by rw [← Option.some.inj hp, h.wi], by omega⟩

/-! ### Calls -/

section

variable (own : s.Owns w) (size : s.w.offset = (txns s.calls).size % P)
  (ok : (txns s.calls).failed = false)
  (eq : (feed log).append s.filled = (txns s.calls).feed P)
  (page : s'.w.page = some (w.pushed % ringSize count))

include own size ok eq page

/-- A block that fits on the page. -/
lemma Pipe.Writing.write_small (hlt : src.length < P - s.w.offset)
    (short : s.w.offset + src.length < 2 ^ 24) (offset : s'.w.offset = s.w.offset + src.length)
    (mem : s'.mem (w.pushed % ringSize count) =
      (s.mem (w.pushed % ringSize count)).copyIn s.w.offset src)
    (calls : s'.calls = s.calls ++ [.wrote src true]) : s'.Writing P log w .idle := by
  have hlt' : s.w.offset + src.length < P := by omega
  refine .idle ⟨page, own.room⟩ (by rwa [offset]) (by rwa [offset]) ?_ ?_ ?_
  · rw [offset, calls, txns_concat, Txns.size_wrote, ← Nat.mod_add_mod, ← size,
      Nat.mod_eq_of_lt hlt']
  · simpa [calls, Txns.call] using ok
  · rw [Pipe.filled_eq own.page rfl] at eq
    rw [Pipe.filled_eq page offset, mem, Page.copyOut_copyIn, calls, txns_concat,
      Txns.feed_wrote (by omega), ← eq, ← size, stamped_of_lt hlt, Feed.append_append]

/-- A block that fills the page: the part of it that the page takes. -/
lemma Pipe.Writing.write_large (hlt : s.w.offset < P) (hle : P - s.w.offset ≤ src.length)
    (short : P < 2 ^ 24)     (offset : s'.w.offset = s.w.offset + (P - s.w.offset))
    (mem : s'.mem (w.pushed % ringSize count) =
      (s.mem (w.pushed % ringSize count)).copyIn s.w.offset (src.take (P - s.w.offset)))
    (calls : s'.calls = s.calls) :
    s'.Writing P log w (.mark (.write src (P - s.w.offset))) := by
  refine .mark ⟨page, own.room⟩ (by omega) ⟨short, hle, ⟨(txns s.calls).size / P + 1, ?_⟩, ?_, ?_⟩
  · have := Nat.div_add_mod (txns s.calls).size P
    rw [calls, Nat.mul_add, size]
    omega
  · rwa [calls]
  · rw [Pipe.filled_eq own.page rfl] at eq
    rw [← List.length_take_of_le hle] at offset
    rw [Pipe.filled_eq page offset, mem, Page.copyOut_copyIn, calls, Feed.take_write,
      Txns.feed_wrote (by omega), ← eq, ← size, stamped_of_le hle]
    simp only [Feed.append_append, List.append_assoc]

end

lemma Pipe.Inv.write (h : s.Inv P log w) (hpc : s.w.pc = .idle) (src : List UInt8)
    (hfit : s.w.page ≠ none → s.pagesz < 2 ^ 24 ∨ s.w.offset + src.length < 2 ^ 24) :
    (s.write src).Inv P log w := by
  have hw := h.writing
  rw [hpc] at hw
  cases hw with
  | lost page qos failed eq =>
    simp only [Pipe.write, page]
    refine h.own rfl rfl rfl rfl rfl rfl (fun _ _ => rfl) ?_
    rw [hpc]
    exact .lost page qos (.inl (by simp [Txns.call])) (by simpa [Txns.call] using eq)
  | idle own lt short size ok eq =>
    have hfit := hfit (by simp [own.page])
    rw [h.pagesz_eq] at hfit
    simp only [Pipe.write, own.page, h.pagesz_eq]
    split_ifs with hlt
    · refine h.own rfl rfl rfl rfl rfl rfl (fun i hi => update_of_ne hi ..) ?_
      rw [hpc]
      exact .write_small own size ok eq rfl hlt (by omega) rfl (update_self ..) rfl
    · refine h.own rfl rfl rfl rfl rfl rfl (fun i hi => update_of_ne hi ..) ?_
      exact .write_large own size ok eq rfl lt (by omega) (by omega) rfl (update_self ..) rfl

/-- The two ways to end a transaction: unless there is no page, the page is marked. -/
lemma Pipe.Inv.finish {task : Task} {c : Call} (h : s.Inv P log w) (hpc : s.w.pc = .idle)
    (htask : task = .commit ∧ c = .commit ∨ task = .rollback ∧ c = .rollback)
    (hlost : c = .commit → s.w.page = none → (txns s.calls).failed = true) :
    (s.finish task c).Inv P log w := by
  have hw := h.writing
  rw [hpc] at hw
  unfold Pipe.finish
  refine h.own rfl rfl rfl rfl rfl rfl (fun _ _ => rfl) ?_
  cases hw with
  | lost page qos failed eq =>
    simp only [page, if_true]
    refine .next ?_ (by rintro src so rfl; simp at htask)
    rcases htask with ⟨rfl, rfl⟩ | ⟨rfl, rfl⟩
    · simp [Task.After, Txns.call, hlost rfl page, Txns.feed, eq]
    · simp [Task.After, Txns.call, Txns.feed, eq]
  | idle own lt short size ok eq =>
    obtain ⟨hdone, hpart⟩ := Feed.mk.inj eq
    rw [Pipe.filled_eq own.page rfl] at hpart
    simp only [own.page, reduceCtorEq, if_false]
    refine .mark ⟨rfl, own.room⟩ short ?_
    rw [Pipe.filled_eq rfl rfl]
    rcases htask with ⟨rfl, rfl⟩ | ⟨rfl, rfl⟩
    · simp [Task.After, Task.mark, Feed.take, Txns.call, ok, Txns.feed, hdone, hpart]
    · simp [Task.After, Task.mark, Feed.take, Txns.call, Txns.feed, hdone]

/-! ### Steps inside a call -/

lemma Pipe.Writing.marked {task : Task} (own : s.Owns w) (short : s.w.offset < 2 ^ 24)
    (after : task.After P (txns s.calls) ((feed log).take ⟨s.filled, task.mark s.qos⟩))
    (page : s'.w.page = s.w.page) (offset : s'.w.offset = s.w.offset) (qos : s'.qos = s.qos)
    (mem : s'.mem (w.pushed % ringSize count) =
      { s.mem (w.pushed % ringSize count) with pend := stamp (task.mark s.qos) s.w.offset })
    (calls : s'.calls = s.calls) : s'.Writing P log w (.push task) := by
  refine .push ⟨page.trans own.page, own.room⟩ (by rwa [offset]) (by rw [mem, qos, offset]) ?_
  rw [Pipe.filled_eq own.page rfl] at after
  rw [Pipe.filled_eq (page.trans own.page) offset, calls, qos, mem]
  exact after

lemma Pipe.Inv.mark {task : Task} (h : s.Inv P log w) (hpc : s.w.pc = .mark task) :
    ∃ p, s.w.page = some p ∧
      ({ s.markPage p (task.mark s.qos) with w := { s.w with pc := .push task } } : Pipe).Inv
        P log w := by
  have hw := h.writing
  rw [hpc] at hw
  cases hw with
  | mark own short after =>
    refine ⟨_, own.page, h.own rfl rfl rfl rfl rfl rfl (fun i hi => update_of_ne hi ..) ?_⟩
    exact .marked own short after rfl rfl rfl (update_self ..) rfl

/-- Pushing the page makes it the last entry of the log. -/
lemma Pipe.Inv.push {task : Task} (h : s.Inv P log w) (hpc : s.w.pc = .push task) :
    ∃ (e : Entry) (w' : Window (ringSize count)), ({ s with
      wi := nextIndex s.count s.wi, w := { s.w with pc := .next task } } : Pipe).Inv
        P (log ++ [e]) w' := by
  have hw := h.writing
  have hpos : 0 < count := by have := w.size_pos; unfold ringSize at this; omega
  rw [hpc] at hw
  cases hw with
  | push own short pend after =>
    have hfill := Pipe.filled_eq own.page rfl
    have hlen : s.filled.length = s.w.offset := by rw [hfill, Page.copyOut_length]
    refine ⟨⟨s.filled, task.mark s.qos⟩, w.push own.room, h.count_eq, h.pagesz_eq, ?_, ?_, h.ri,
      ?_, ?_, ?_⟩
    · rw [List.length_append, h.len, List.length_singleton, Window.push_pushed]
    · rw [Window.push_pushed, h.count_eq, h.wi, nextIndex_slot hpos]
    · intro i e hi he
      rcases Nat.lt_or_ge i log.length with hlt | hge
      · rw [List.getElem?_append_left hlt] at he
        exact h.held i e hi he
      · have hi' : i = log.length := by
          have := (List.getElem?_eq_some_iff.mp he).1
          rw [List.length_append, List.length_singleton] at this
          omega
        subst hi'
        rw [List.getElem?_concat_length, Option.some.injEq] at he
        subst he
        rw [h.len]
        exact ⟨by simp only [hlen]; exact hfill.symm, by rw [pend, hlen], by rwa [hlen]⟩
    · refine .next (by rwa [feed_concat]) fun src so ht hq => ?_
      subst ht
      have hq' : s.qos = .unreliable := hq
      refine ⟨log, s.filled, by simp [Task.mark, hq'], ?_, hlen.symm, ?_⟩
      · rw [h.len]
        exact own.page
      · rw [h.len]
        exact w.le
    · refine h.reading.frame ⟨?_, fun e he => ⟨e, ?_, rfl, fun _ => rfl⟩⟩
      · exact List.take_append_of_le_length (h.len ▸ w.le)
      · rw [List.getElem?_append_left (List.getElem?_eq_some_iff.mp he).1]
        exact he

lemma Pipe.Inv.acquire (hP : 0 < P) {task : Task} (h : s.Inv P log w) (hpc : s.w.pc = .next task)
    {npage : Option ℕ} (hn : s.writePage = npage) (hq : npage = none → s.qos = .unreliable) :
    (s.acquire npage task).Inv P log w := by
  have hw := h.writing
  rw [hpc] at hw
  have hpage : ∀ p, npage = some p →
      p = w.pushed % ringSize count ∧ w.pushed + 1 < w.popped + ringSize count :=
    fun p hp => h.writePage (hn.trans hp)
  cases hw with
  | next after tent =>
    -- after a commit or a rollback the writer starts on the new page, if there is one
    have hend : (txns s.calls).cur = [] → (txns s.calls).failed = false →
        feed log = (txns s.calls).feed P →
        ({ s with w := ⟨npage, 0, .idle⟩ } : Pipe).Inv P log w := by
      intro hcur hok heq
      refine h.own rfl rfl rfl rfl rfl rfl (fun _ _ => rfl) ?_
      cases npage with
      | none => exact .lost rfl (.inl (hq rfl)) (.inr hcur) (by simpa [Txns.feed, hcur] using heq)
      | some p =>
        obtain ⟨rfl, hroom⟩ := hpage p rfl
        refine .idle ⟨rfl, hroom⟩ hP (by simp) (by simp [Txns.size, hcur]) hok ?_
        rw [Pipe.filled_of_offset rfl, Feed.append_nil, heq]
    cases task with
    | write src so =>
      unfold Pipe.acquire
      split_ifs with hrel
      · refine h.own rfl rfl rfl rfl rfl rfl (fun _ _ => rfl) ?_
        cases npage with
        | none => exact absurd (hq rfl) (by rw [hrel]; decide)
        | some p =>
          obtain ⟨rfl, hroom⟩ := hpage p rfl
          exact .copy ⟨rfl, hroom⟩ rfl after
      · have hunrel : s.qos = .unreliable := by cases hs : s.qos <;> simp_all
        refine h.own rfl rfl rfl rfl rfl rfl (fun _ _ => rfl) ?_
        exact .settle hunrel (tent src so rfl hunrel) hpage after
    | commit => exact hend after.2.1 after.2.2 after.1
    | rollback => exact hend after.2.1 after.2.2 after.1

/-- The writer decides about the page that it has pushed as tentative. -/
lemma Pipe.Inv.settle {npage : Option ℕ} (h : s.Inv P log w)
    (hpc : s.w.pc = .settle npage src so) :
    ∃ p log', s.w.page = some p ∧
      ({ s.markPage p (if npage = none then .rollback else .cont) with
        w := ⟨npage, 0, .copy src so⟩ } : Pipe).Inv P log' w := by
  have hw := h.writing
  rw [hpc] at hw
  cases hw with
  | settle qos tent page after =>
    obtain ⟨log₀, bs, rfl, hpage, hoff, hle⟩ := tent
    have hlen : log₀.length + 1 = w.pushed := by rw [← h.len]; simp
    have hlast := h.held log₀.length ⟨bs, .tentative⟩ hle (by simp)
    set c : PageState := if npage = none then .rollback else .cont with hc
    refine ⟨_, log₀ ++ [⟨bs, c⟩], hpage, h.count_eq, h.pagesz_eq, ?_, h.wi, h.ri, ?_, ?_, ?_⟩
    · rw [List.length_append, List.length_singleton, hlen]
    · intro i e hi he
      rcases Nat.lt_or_ge i log₀.length with hlt | hge
      · rw [List.getElem?_append_left hlt] at he
        have hne : i % ringSize count ≠ log₀.length % ringSize count := by
          intro heq
          have hroom := w.room
          have := slot_injective heq hlt.le (by omega)
          omega
        simp only [Pipe.markPage, Pipe.setPage, update_of_ne hne]
        exact h.held i e hi (by rwa [List.getElem?_append_left hlt])
      · have hi' : i = log₀.length := by
          have := (List.getElem?_eq_some_iff.mp he).1
          rw [List.length_append, List.length_singleton] at this
          omega
        subst hi'
        rw [List.getElem?_concat_length, Option.some.injEq] at he
        subst he
        simp only [Pipe.markPage, Pipe.setPage, update_self]
        exact ⟨hlast.bytes, by rw [hoff], hlast.short⟩
    · cases npage with
      | none =>
        refine .copyLost rfl qos ?_
        obtain ⟨-, -, -, -, heq⟩ := after
        have hdone := congrArg Feed.done heq
        simp only [feed_concat, Feed.take, Feed.append_done] at hdone
        simp only [hc, if_true, feed_concat, Feed.take, hdone]
        rfl
      | some p =>
        obtain ⟨rfl, hroom⟩ := page p rfl
        refine .copy ⟨rfl, hroom⟩ rfl ?_
        have hfeed : feed (log₀ ++ [⟨bs, c⟩]) = feed (log₀ ++ [⟨bs, .tentative⟩]) := by
          simp [hc, Feed.take]
        rw [hfeed]
        exact after
    · refine h.reading.frame ⟨?_, fun e he => ?_⟩
      · rw [List.take_append_of_le_length hle, List.take_append_of_le_length hle]
      · rcases Nat.lt_or_ge w.popped log₀.length with hlt | hge
        · rw [List.getElem?_append_left hlt] at he
          exact ⟨e, by rw [List.getElem?_append_left hlt, he], rfl, fun _ => rfl⟩
        · have heq : w.popped = log₀.length := Nat.le_antisymm hle hge
          rw [heq, List.getElem?_concat_length, Option.some.injEq] at he
          subst he
          exact ⟨⟨bs, c⟩, by rw [heq, List.getElem?_concat_length], rfl, fun h => absurd rfl h⟩

lemma Pipe.Inv.copy (hP : 0 < P) (h : s.Inv P log w) (hpc : s.w.pc = .copy src so) :
    (s.copy src so).Inv P log w := by
  have hw := h.writing
  rw [hpc] at hw
  cases hw with
  | copyLost page qos eq =>
    simp only [Pipe.copy, page]
    refine h.own rfl rfl rfl rfl rfl rfl (fun _ _ => rfl) ?_
    exact .lost rfl (.inl qos) (.inl (by simp [Txns.call])) (by simpa [Txns.call] using eq)
  | copy own offset after =>
    have hafter := after
    obtain ⟨hshort, hle, hdvd, hok, heq⟩ := after
    simp only [Pipe.copy, own.page, h.pagesz_eq]
    split_ifs with hfull hpart
    · -- the page is filled, but it will be marked with the offset `0`
      refine h.own rfl rfl rfl rfl rfl rfl (fun i hi => update_of_ne hi ..) ?_
      refine .mark ⟨rfl, own.room⟩ (by simp [offset]) ⟨hshort, by omega, ?_, hok, ?_⟩
      · rw [← Nat.add_assoc]
        exact Nat.dvd_add hdvd (Nat.dvd_refl P)
      · rw [Pipe.filled_of_offset, Feed.take_write, Feed.append_nil, ← List.drop_drop,
          lastPage_drop hP (by rwa [List.length_drop])]
        · exact heq
        · exact offset
    · rw [lastPage_of_lt (by rw [List.length_drop]; omega)] at heq
      refine h.own rfl rfl rfl rfl rfl rfl (fun i hi => update_of_ne hi ..) ?_
      refine .idle ⟨rfl, own.room⟩ (by simp only; omega) (by simp only; omega) ?_ (by simpa [Txns.call] using hok) ?_
      · rw [txns_concat]
        exact hafter.size (by omega)
      · have hlen : src.length - so = 0 + (src.drop so).length := by
          rw [List.length_drop, Nat.zero_add]
        rw [Pipe.filled_eq rfl hlen, txns_concat, ← heq]
        simp only [Pipe.setPage, update_self, Page.copyOut_copyIn, Page.copyOut_zero,
          List.nil_append]
    · have hso : so = src.length := by omega
      refine h.own rfl h.pagesz_eq.symm rfl rfl rfl rfl (fun _ _ => rfl) ?_
      refine .idle ⟨rfl, own.room⟩ (by rwa [offset]) (by simp [offset]) ?_ (by simpa [Txns.call] using hok) ?_
      · rw [offset, txns_concat, ← hafter.size (by omega), hso, Nat.sub_self]
      · rw [Pipe.filled_of_offset, txns_concat, ← heq, hso]
        · simp [lastPage]
        · exact offset

/-- Every step of the writer inside a call keeps the invariant. -/
lemma Pipe.Inv.runWriter (hP : 0 < P) (h : s.Inv P log w) (hs : s.runWriter = some s') :
    ∃ (log' : List Entry) (w' : Window (ringSize count)), s'.Inv P log' w' := by
  unfold Pipe.runWriter at hs
  cases hpc : s.w.pc with
  | idle => simp [hpc] at hs
  | mark task =>
    obtain ⟨p, hp, hinv⟩ := h.mark hpc
    simp only [hpc, hp, Option.map_some, Option.some.injEq] at hs
    exact ⟨log, w, hs ▸ (by simpa only [hp] using hinv)⟩
  | push task =>
    obtain ⟨e, w', hinv⟩ := h.push hpc
    simp only [hpc, Option.some.injEq] at hs
    exact ⟨_, w', hs ▸ hinv⟩
  | next task =>
    simp only [hpc] at hs
    split at hs
    · cases hs
    · rename_i hne
      cases hs
      refine ⟨log, w, h.acquire hP hpc rfl fun hnone => ?_⟩
      cases hq : s.qos with
      | unreliable => rfl
      | reliable => exact absurd hnone (hne hq)
  | settle npage src so =>
    obtain ⟨p, log', hp, hinv⟩ := h.settle hpc
    simp only [hpc, hp, Option.map_some, Option.some.injEq] at hs
    exact ⟨log', w, hs ▸ hinv⟩
  | copy src so =>
    simp only [hpc, Option.some.injEq] at hs
    exact ⟨log, w, hs ▸ h.copy hP hpc⟩

end Hobbes.Storage
