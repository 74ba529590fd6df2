import Hobbes.Storage.PipeInvariant
import Hobbes.Storage.QueueRefinement

/-!
# The steps of the reader
-/

namespace Hobbes.Storage

open Core Function

variable {count P n R : ℕ} {s s' : Pipe} {log : List Entry} {w : Window (ringSize count)}
  {r : RPipe} {d : List (List UInt8)} {e : Entry} {f : Feed}

/-! ### Views -/

lemma RPipe.view_of_plain (h : r.Plain) : r.view d = ⟨d, r.txn ++ r.buf⟩ := by
  simp only [RPipe.view, h.1, h.2, if_false]

/-- Looking at the state of a page takes its transaction as far as the page goes. -/
lemma RPipe.view_flag (h : r.Plain) (he : r.view d = f.append e.bytes)
    (hs : e.state ≠ .tentative) : ({ r with flag := e.state.code } : RPipe).view d = f.take e := by
  rw [RPipe.view_of_plain h] at he
  obtain ⟨rfl, hpart⟩ := Feed.mk.inj he
  rcases e with ⟨bs, st⟩
  cases st with
  | tentative => exact absurd rfl hs
  | cont => simp [RPipe.view, PageState.code, Feed.take, Feed.append, hpart]
  | commit => simp [RPipe.view, PageState.code, Feed.take, hpart]
  | rollback => simp [RPipe.view, PageState.code, Feed.take]

lemma RPipe.Between.atPage (h : r.Between d log n) (hp : r.Plain) (he : log[n]? = some e) (pc : RPc) :
    ({ r with page := some (n % R), pc := pc } : RPipe).AtPage R d log n e where
  page := rfl
  entry := he
  le := by simp [h.offset]
  plain := hp
  eq := by simpa [h.offset, RPipe.view] using h.eq

/-! ### The page of the reader -/

lemma Pipe.Inv.readPage (h : s.Inv P log w) {p : ℕ} (hp : s.readPage = some p) :
    p = w.popped % ringSize count ∧ ∃ e, log[w.popped]? = some e := by
  unfold Pipe.readPage at hp
  split_ifs at hp with hne
  rw [h.wi, h.ri] at hne
  have hlt : w.popped < log.length := by
    have := mt w.slot_eq_iff.mpr (Ne.symm hne)
    have := w.le
    have := h.len
    omega
  exact ⟨by rw [← Option.some.inj hp, h.ri], _, List.getElem?_eq_getElem hlt⟩

lemma Pipe.Inv.heldAt (h : s.Inv P log w) (he : log[w.popped]? = some e) :
    (s.mem (w.popped % ringSize count)).Holds e := h.held _ _ le_rfl he

/-- A page whose state is decided is not the tentative one. -/
lemma Pipe.Tentative.pop (h : s.Tentative log w) (he : log[w.popped]? = some e)
    (hs : e.state ≠ .tentative) (hlt : w.popped < w.pushed) : s.Tentative log (w.pop hlt) := by
  obtain ⟨log₀, bs, rfl, hp, ho, hle⟩ := h
  refine ⟨log₀, bs, rfl, hp, ho, ?_⟩
  have hne : w.popped ≠ log₀.length := by
    intro heq
    simp only [heq, List.getElem?_concat_length, Option.some.injEq] at he
    exact hs (he ▸ rfl)
  simp only [Window.pop_popped]
  omega

/-! ### The steps -/

lemma Pipe.Inv.return (h : s.Inv P log w) (hr : s.r.Between s.delivered log w.popped ∨
    s.r.Plain ∧ ∃ e, s.r.AtPage (ringSize count) s.delivered log w.popped e) :
    s.return.Inv P log w := by
  unfold Pipe.return
  have hplain : ∀ txn, ({ s.r with pc := .idle, buf := [], sz := 0, flag := 0, txn := txn } : RPipe).Plain :=
    fun _ => ⟨by simp [PageState.code], by simp [PageState.code]⟩
  rcases hr with hb | ⟨hp, e, ha⟩
  · have heq := hb.eq
    unfold RPipe.view at heq
    split_ifs at heq ⊢ with h₁ h₂
    all_goals
      refine h.look (.idle (hplain _) ⟨hb.page, hb.offset, ?_⟩)
      rw [RPipe.view_of_plain (hplain _), ← heq]
      simp
  · simp only [hp.1, hp.2, if_false]
    refine h.look (.idleAt ⟨ha.page, ha.entry, ha.le, hplain _, ?_⟩)
    rw [RPipe.view_of_plain (hplain _), ← ha.eq, RPipe.view_of_plain hp]
    simp

lemma RPipe.AtPage.advance (ha : r.AtPage R d log n e) {csz : ℕ}
    (h : r.offset + csz ≤ e.bytes.length) (pc : RPc) (sz : ℕ) :
    ({ r with
      offset := r.offset + csz
      pc := pc
      buf := r.buf ++ (e.bytes.drop r.offset).take csz
      sz := sz } : RPipe).AtPage R d log n e := by
  refine ⟨ha.page, ha.entry, h, ha.plain, ?_⟩
  have heq := ha.eq
  rw [RPipe.view_of_plain ha.plain] at heq
  rw [List.take_add, ← Feed.append_append, ← heq]
  simp only [RPipe.view, ha.plain.1, ha.plain.2, if_false, Feed.append, List.append_assoc]

lemma Pipe.Inv.copyPage (h : s.Inv P log w)
    (ha : s.r.AtPage (ringSize count) s.delivered log w.popped e) :
    (s.copyPage (w.popped % ringSize count) e.bytes.length).Inv P log w := by
  have hle := ha.le
  have hmin : s.r.offset + min s.r.sz (e.bytes.length - s.r.offset) ≤ e.bytes.length := by omega
  simp only [Pipe.copyPage]
  rw [Page.copyOut_eq _ _ hmin, (h.heldAt ha.entry).bytes]
  refine h.look ?_
  split_ifs with hend
  · exact .spin (ha.advance hmin _ _) hend
  · exact .loopAt (ha.advance hmin _ _)

lemma Pipe.Inv.pop (h : s.Inv P log w) (ha : s.r.AtPage (ringSize count) s.delivered log w.popped e)
    (ho : s.r.offset = e.bytes.length) (hs : e.state ≠ .tentative) :
    ∃ w' : Window (ringSize count), ({ s with
      ri := nextIndex s.count s.ri
      r := { s.r with flag := e.state.code, pc := .poll e.state.code } } : Pipe).Inv P log w' := by
  have hlt : w.popped < w.pushed := h.len ▸ (List.getElem?_eq_some_iff.mp ha.entry).1
  have hpos : 0 < count := by have := w.size_pos; unfold ringSize at this; omega
  refine ⟨w.pop hlt, h.count_eq, h.pagesz_eq, h.len, h.wi, ?_, ?_, ?_, ?_⟩
  · rw [Window.pop_popped, h.count_eq, h.ri, nextIndex_slot hpos]
  · exact fun i e hi he => h.held i e (Nat.le_of_succ_le hi) he
  · exact h.writing.frame rfl rfl rfl rfl rfl (Nat.le_succ _) fun ht => ht.pop ha.entry hs hlt
  · refine .poll rfl hs ?_
    rw [Window.pop_popped, feed_take_succ ha.entry]
    have heq := ha.eq
    rw [ho, List.take_length] at heq
    exact RPipe.view_flag ha.plain heq hs

/-- Every step of the reader keeps the invariant. -/
lemma Pipe.Inv.runReader (h : s.Inv P log w) (hs : s.runReader = some s') :
    ∃ w' : Window (ringSize count), s'.Inv P log w' := by
  have hr := h.reading
  unfold Pipe.runReader at hs
  cases hpc : s.r.pc with
  | idle => simp [hpc] at hs
  | next =>
    simp only [hpc, Option.map_eq_some_iff] at hs
    obtain ⟨p, hp, rfl⟩ := hs
    obtain ⟨rfl, e, he⟩ := h.readPage hp
    rw [hpc] at hr
    cases hr with
    | next plain hb => exact ⟨w, h.look (.loopAt (hb.atPage plain he _))⟩
  | loop =>
    simp only [hpc] at hs
    rw [hpc] at hr
    cases hr with
    | loop hb =>
      simp only [hb.page, Option.some.injEq] at hs
      subst hs
      exact ⟨w, h.return (.inl hb)⟩
    | loopAt ha =>
      simp only [ha.page] at hs
      split_ifs at hs with hsz <;> cases hs
      · exact ⟨w, h.return (.inr ⟨ha.plain, _, ha⟩)⟩
      · rename_i e
        have hheld := h.heldAt ha.entry
        rw [hheld.pend, stamp_length hheld.short]
        exact ⟨w, h.look (.copy ⟨rfl, ha.entry, ha.le, ha.plain, ha.eq⟩)⟩
  | copy rpagesz =>
    simp only [hpc] at hs
    rw [hpc] at hr
    cases hr with
    | copy ha =>
      simp only [ha.page, Option.map_some, Option.some.injEq] at hs
      subst hs
      exact ⟨w, h.copyPage ha⟩
  | spin =>
    simp only [hpc] at hs
    rw [hpc] at hr
    cases hr with
    | spin ha ho =>
      rename_i e
      have hheld := h.heldAt ha.entry
      simp only [ha.page, Option.map_some, Option.some.injEq, hheld.pend,
        stamp_state hheld.short] at hs
      split_ifs at hs with ht <;> subst hs
      · exact ⟨w, h⟩
      · exact ⟨w, h.look (.state ⟨rfl, ha.entry, ha.le, ha.plain, ha.eq⟩ ho
          fun heq => ht (by rw [heq]))⟩
  | state =>
    simp only [hpc] at hs
    rw [hpc] at hr
    cases hr with
    | state ha ho hst =>
      rename_i e
      have hheld := h.heldAt ha.entry
      simp only [ha.page, Option.map_some, Option.some.injEq, hheld.pend,
        stamp_state hheld.short] at hs
      subst hs
      have hlt : e.state.code < 256 := lt_trans e.state.code_lt (by decide)
      rw [Nat.mod_eq_of_lt hlt]
      exact ⟨w, h.look (.pop ⟨rfl, ha.entry, ha.le, ha.plain, ha.eq⟩ ho hst)⟩
  | pop ps =>
    simp only [hpc, Option.some.injEq] at hs
    rw [hpc] at hr
    subst hs
    cases hr with
    | pop ha ho hst => exact h.pop ha ho hst
  | poll ps =>
    simp only [hpc, Option.some.injEq] at hs
    rw [hpc] at hr
    subst hs
    cases hr with
    | poll flag hst heq =>
      rename_i st
      refine ⟨w, h.look ?_⟩
      split_ifs with hcont
      · have hplain : s.r.Plain := by
          rw [RPipe.Plain, flag, hcont]; decide
        cases hpage : s.readPage with
        | none => exact .loop ⟨rfl, rfl, heq⟩
        | some p =>
          obtain ⟨rfl, e, he⟩ := h.readPage hpage
          exact .loopAt (e := e) ⟨rfl, he, by simp, hplain, by simpa [RPipe.view] using heq⟩
      · exact .loop ⟨rfl, rfl, heq⟩

lemma Pipe.Inv.read (h : s.Inv P log w) (hpc : s.r.pc = .idle) (sz : ℕ) :
    ({ s with r := { s.r with
      pc := if s.r.page = none then .next else .loop, sz := sz } } : Pipe).Inv P log w := by
  have hr := h.reading
  rw [hpc] at hr
  refine h.look ?_
  cases hr with
  | idle plain hb =>
    simp only [hb.page, if_true]
    exact .next plain ⟨rfl, hb.offset, hb.eq⟩
  | idleAt ha =>
    simp only [ha.page, reduceCtorEq, if_false]
    exact .loopAt ⟨rfl, ha.entry, ha.le, ha.plain, ha.eq⟩

end Hobbes.Storage
