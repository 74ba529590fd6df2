import Hobbes.Db.File
import Mathlib.Data.List.Nodup

/-!
# The page table on disk

Descriptors are stored one behind the other in a chain of pages, the first behind the file header,
and each full page of the chain ends in a link to the next.
-/

namespace Hobbes.Db

open Core

structure ValidPageSize (ps : ℕ) : Prop where
  min : 256 ≤ ps
  max : ps < 2 ^ 14
  even : ps % 2 = 0

lemma assertValidPageSize_eq_some {psize ps : ℕ} (h : ImageFile.assertValidPageSize psize = some ps) :
    ps = psize ∧ ValidPageSize ps := by
  unfold ImageFile.assertValidPageSize at h
  split_ifs at h with h₁ h₂ h₃
  obtain rfl := Option.some.inj h
  exact ⟨rfl, by omega, by omega, by omega⟩

lemma ValidPageSize.assert {ps : ℕ} (h : ValidPageSize ps) :
    ImageFile.assertValidPageSize ps = some ps := by
  obtain ⟨hmin, hmax, heven⟩ := h
  unfold ImageFile.assertValidPageSize
  rw [if_neg (by omega), if_neg (by omega), if_neg (by omega)]

/-! ### Addresses -/

/-- Two stretches inside of pages do not meet if the pages or the offsets differ. -/
lemma address_disjoint {ps p p' o o' n n' : ℕ} (ho : o + n ≤ ps) (ho' : o' + n' ≤ ps)
    (h : p ≠ p' ∨ o + n ≤ o' ∨ o' + n' ≤ o) :
    p * ps + o + n ≤ p' * ps + o' ∨ p' * ps + o' + n' ≤ p * ps + o := by
  rcases Nat.lt_trichotomy p p' with hlt | rfl | hlt
  · have := Nat.mul_le_mul_right ps hlt
    rw [Nat.succ_mul] at this
    omega
  · omega
  · have := Nat.mul_le_mul_right ps hlt
    rw [Nat.succ_mul] at this
    omega

lemma address_div {ps p o : ℕ} (ho : o < ps) : (p * ps + o) / ps = p := by
  rw [Nat.mul_comm, Nat.mul_add_div (by omega), Nat.div_eq_of_lt ho, Nat.add_zero]

lemma address_mod {ps p o : ℕ} (ho : o < ps) : (p * ps + o) % ps = o := by
  rw [Nat.mul_comm, Nat.mul_add_mod, Nat.mod_eq_of_lt ho]

/-- Bytes inside of page `p` from `o` on. -/
lemma address_of_range {ps p o n i : ℕ} (ho : o + n ≤ ps) (hi : p * ps + o ≤ i)
    (hi' : i < p * ps + o + n) : i / ps = p := by
  obtain ⟨j, rfl⟩ := Nat.exists_eq_add_of_le hi
  rw [Nat.add_assoc, address_div (by omega)]

/-! ### Slots -/

/-- The place of a descriptor: which page of the chain, and the offset in it. -/
def slot (ps : ℕ) : ℕ → ℕ × ℕ
  | 0 => (0, 8)
  | k + 1 =>
    if (slot ps k).2 + 2 + 8 = ps then ((slot ps k).1 + 1, 0)
    else ((slot ps k).1, (slot ps k).2 + 2)

variable {ps : ℕ}

lemma slot_offset (hps : ValidPageSize ps) (k : ℕ) :
    (slot ps k).2 % 2 = 0 ∧ (slot ps k).2 + 10 ≤ ps := by
  obtain ⟨hmin, hmax, heven⟩ := hps
  induction k with
  | zero =>
    rw [slot]
    omega
  | succ k ih =>
    rw [slot]
    split_ifs with h
    · exact ⟨rfl, by dsimp only; omega⟩
    · dsimp only
      omega

/-- A slot ends before the next one starts. -/
lemma slot_lt (hps : ValidPageSize ps) {j k : ℕ} (h : j < k) :
    (slot ps j).1 < (slot ps k).1 ∨
      (slot ps j).1 = (slot ps k).1 ∧ (slot ps j).2 + 2 ≤ (slot ps k).2 := by
  induction k with
  | zero => omega
  | succ k ih =>
    have hoff := slot_offset hps j
    rw [slot]
    obtain h | rfl : j < k ∨ j = k := by omega
    · have := ih h
      split_ifs <;> dsimp only <;> omega
    · split_ifs <;> dsimp only <;> omega

lemma slot_le (hps : ValidPageSize ps) {j k : ℕ} (h : j ≤ k) : (slot ps j).1 ≤ (slot ps k).1 := by
  obtain h | rfl : j < k ∨ j = k := by omega
  · have := slot_lt hps h
    omega
  · exact Nat.le_refl _

/-- The first page of the chain starts with the file header. -/
lemma headSize_le_slot {k : ℕ} (h : (slot ps k).1 = 0) : 8 ≤ (slot ps k).2 := by
  induction k with
  | zero => exact Nat.le_refl _
  | succ k ih =>
    rw [slot] at h ⊢
    by_cases hlast : (slot ps k).2 + 2 + 8 = ps
    · rw [if_pos hlast] at h
      exact absurd h (Nat.succ_ne_zero _)
    · rw [if_neg hlast] at h ⊢
      have := ih h
      dsimp only
      omega

lemma slot_of_lt {k : ℕ} (hps : ValidPageSize ps) (h : k < (ps - 8 - 8) / 2) :
    slot ps k = (0, 8 + k * 2) := by
  obtain ⟨hmin, hmax, heven⟩ := hps
  induction k with
  | zero => rfl
  | succ k ih =>
    rw [slot, ih (by omega), if_neg (by dsimp only; omega), Nat.succ_mul, ← Nat.add_assoc]

/-- The slots behind the first page of the chain. -/
lemma slot_add (hps : ValidPageSize ps) (m : ℕ) :
    slot ps ((ps - 8 - 8) / 2 + m) = (m / ((ps - 8) / 2) + 1, m % ((ps - 8) / 2) * 2) := by
  have hlast := slot_of_lt (k := (ps - 8 - 8) / 2 - 1) hps (by have := hps.min; omega)
  obtain ⟨hmin, hmax, heven⟩ := hps
  have hrest : 0 < (ps - 8) / 2 := by omega
  induction m with
  | zero =>
    have hfirst : (ps - 8 - 8) / 2 = (ps - 8 - 8) / 2 - 1 + 1 := by omega
    rw [Nat.add_zero, hfirst, slot, hlast, if_pos (by dsimp only; omega), Nat.zero_div, Nat.zero_mod]
  | succ m ih =>
    have hlt := Nat.mod_lt m hrest
    have hdiv := Nat.div_add_mod m ((ps - 8) / 2)
    rw [← Nat.add_assoc, slot, ih]
    dsimp only
    split_ifs with h
    · -- the slot was the last of its page
      have heq : m + 1 = (ps - 8) / 2 * (m / ((ps - 8) / 2) + 1) := by
        rw [Nat.mul_add_one]
        omega
      rw [heq, Nat.mul_div_cancel_left _ hrest, Nat.mul_mod_right, Nat.zero_mul]
    · have heq : m + 1 = (ps - 8) / 2 * (m / ((ps - 8) / 2)) + (m % ((ps - 8) / 2) + 1) := by omega
      have hsucc : m % ((ps - 8) / 2) + 1 < (ps - 8) / 2 := by omega
      have hdiv' : (m + 1) / ((ps - 8) / 2) = m / ((ps - 8) / 2) := by
        rw [heq, Nat.mul_add_div hrest, Nat.div_eq_of_lt hsucc, Nat.add_zero]
      have hmod' : (m + 1) % ((ps - 8) / 2) = m % ((ps - 8) / 2) + 1 := by
        conv_lhs => rw [heq, Nat.mul_add_mod, Nat.mod_eq_of_lt hsucc]
      rw [hdiv', hmod', Nat.add_one_mul]

/-! ### The chain -/

/-- The pages `chain` hold the descriptors `es`, and the next one goes to the offset `o` of the last
page, where only the link fits if `o + 8 = ps`. -/
structure Toc (d : Disk) (ps : ℕ) (chain : List ℕ) (es : List PageData) (o : ℕ) : Prop where
  entry : ∀ k e, es[k]? = some e → ∃ p, chain[(slot ps k).1]? = some p ∧
    d.Holds (p * ps + (slot ps k).2) (leBytes 2 e.ptfd)
  link : ∀ j p q, chain[j]? = some p → chain[j + 1]? = some q →
    d.Holds (p * ps + (ps - 8)) (leBytes 8 q)
  blank : ∀ p i, chain.getLast? = some p → o ≤ i → i < ps → d (p * ps + i) = 0
  next : slot ps es.length = if o + 8 = ps then (chain.length, 0) else (chain.length - 1, o)
  fits : o + 8 ≤ ps
  nodup : chain.Nodup
  head : chain[0]? = some 0

namespace Toc

variable {d d' : Disk} {chain : List ℕ} {es : List PageData} {o p k : ℕ} {e : PageData}

lemma last_index (hp : chain.getLast? = some p) :
    chain[chain.length - 1]? = some p := by
  rwa [← List.getLast?_eq_getElem?]

lemma length_pos (h : Toc d ps chain es o) : 0 < chain.length :=
  (List.getElem?_eq_some_iff.mp h.head).1

lemma headSize_le_entry (h : Toc d ps chain es o) (hps : ValidPageSize ps)
    (hp : chain[(slot ps k).1]? = some p) : 8 ≤ p * ps + (slot ps k).2 := by
  have hmin := hps.min
  by_cases hzero : p = 0
  · subst hzero
    have hidx := (List.getElem?_inj h.length_pos h.nodup).mp (h.head.trans hp.symm)
    have := headSize_le_slot hidx.symm
    omega
  · have := Nat.le_mul_of_pos_left ps (Nat.pos_of_ne_zero hzero)
    omega

lemma headSize_le_next (h : Toc d ps chain es o) (hps : ValidPageSize ps)
    (hp : chain.getLast? = some p) : 8 ≤ p * ps + o := by
  have hmin := hps.min
  have hnext := h.next
  split_ifs at hnext with ho
  · omega
  · have hoff : o = (slot ps es.length).2 := by rw [hnext]
    rw [hoff]
    apply h.headSize_le_entry hps
    rw [hnext]
    exact last_index hp

/-- Only pages of the chain count. -/
lemma congr (h : Toc d ps chain es o) (hps : ValidPageSize ps)
    (heq : ∀ i, i / ps ∈ chain → d' i = d i) : Toc d' ps chain es o where
  entry k e he := by
    obtain ⟨p, hp, hold⟩ := h.entry k e he
    have hoff := (slot_offset hps k).2
    refine ⟨p, hp, hold.congr fun i hi hi' => heq i ?_⟩
    rw [leBytes_length] at hi'
    rw [address_of_range (by omega) hi hi']
    exact List.mem_of_getElem? hp
  link j p q hp hq := by
    refine (h.link j p q hp hq).congr fun i hi hi' => heq i ?_
    rw [leBytes_length] at hi'
    rw [address_of_range (by have := hps.min; omega) hi hi']
    exact List.mem_of_getElem? hp
  blank p i hp hi hi' := by
    rw [heq _ (by rw [address_div hi']; exact List.mem_of_getLast? hp)]
    exact h.blank p i hp hi hi'
  next := h.next
  fits := h.fits
  nodup := h.nodup
  head := h.head

/-- The next descriptor, when there is room for it. -/
lemma push (h : Toc d ps chain es o) (hps : ValidPageSize ps) (hp : chain.getLast? = some p)
    (ho : o + 8 < ps) (e : PageData) :
    Toc (d.write (p * ps + o) (leBytes 2 e.ptfd)) ps chain (es ++ [e]) (o + 2) := by
  have hpos := h.length_pos
  have hlast := last_index hp
  have hnext := h.next
  rw [if_neg (by omega)] at hnext
  have hoff := slot_offset hps es.length
  rw [hnext] at hoff
  refine ⟨fun k e' he' => ?_, fun j p' q hp' hq => ?_, fun p' i hp' hi hi' => ?_, ?_, hoff.2,
    h.nodup, h.head⟩
  · obtain hk | rfl | hk := Nat.lt_trichotomy k es.length
    · rw [List.getElem?_append_left hk] at he'
      obtain ⟨p', hp', hold⟩ := h.entry k e' he'
      refine ⟨p', hp', hold.write ?_⟩
      have hlt := slot_lt hps hk
      rw [hnext] at hlt
      have hoff' := (slot_offset hps k).2
      rw [leBytes_length, leBytes_length]
      apply address_disjoint (by omega) (by omega)
      by_cases hpp : p' = p
      · -- the same page of the chain, hence an earlier offset
        have hidx : (slot ps k).1 = chain.length - 1 :=
          (List.getElem?_inj (by omega) h.nodup).mp (by rw [hp', hlast, hpp])
        omega
      · exact .inl hpp
    · rw [List.getElem?_concat_length, Option.some.injEq] at he'
      subst he'
      refine ⟨p, ?_, ?_⟩
      · rw [hnext, hlast]
      · rw [hnext]
        exact Disk.holds_write ..
    · rw [List.getElem?_eq_none (by simp; omega)] at he'
      cases he'
  · refine (h.link j p' q hp' hq).write ?_
    rw [leBytes_length, leBytes_length]
    exact address_disjoint (by omega) (by omega) (by omega)
  · obtain rfl : p' = p := Option.some.inj (hp'.symm.trans hp)
    rw [Disk.write_outside _ (by rw [leBytes_length]; omega)]
    exact h.blank p' i hp (by omega) hi'
  · rw [List.length_append, List.length_singleton, slot, hnext]
    dsimp only
    have hlen : chain.length - 1 + 1 = chain.length := by omega
    rw [hlen]

/-- Descriptors up to the link. -/
lemma pushAll (h : Toc d ps chain es o) (hps : ValidPageSize ps) (hp : chain.getLast? = some p)
    (new : List PageData) (ho : o + 2 * new.length + 8 ≤ ps) :
    Toc (d.write (p * ps + o) (new.flatMap fun pd => leBytes 2 pd.ptfd)) ps chain (es ++ new)
      (o + 2 * new.length) := by
  induction new generalizing d es o with
  | nil => simpa [Disk.write_nil] using h
  | cons e new ih =>
    rw [List.length_cons] at ho
    have hall := ih (h.push hps hp (by omega) e) (by omega)
    rw [List.flatMap_cons, Disk.write_append, leBytes_length, Nat.add_assoc (p * ps)]
    rw [List.append_assoc, List.singleton_append] at hall
    rwa [List.length_cons, Nat.mul_add_one, Nat.add_comm (2 * new.length), ← Nat.add_assoc o]

/-- A new page is linked to a full one. -/
lemma extend (h : Toc d ps chain es o) (hps : ValidPageSize ps) (hp : chain.getLast? = some p)
    (ho : o + 8 = ps) {q : ℕ} (hq : q ∉ chain) (hblank : ∀ i < ps, d (q * ps + i) = 0) :
    Toc (d.write (p * ps + o) (leBytes 8 q)) ps (chain ++ [q]) es 0 := by
  have hpos := h.length_pos
  have hlast := last_index hp
  have hmin := hps.min
  have hnext := h.next
  rw [if_pos ho] at hnext
  refine ⟨fun k e he => ?_, fun j p' q' hp' hq' => ?_, fun p' i hp' _ hi => ?_, ?_, by omega, ?_, ?_⟩
  · obtain ⟨p', hp', hold⟩ := h.entry k e he
    have hidx := (List.getElem?_eq_some_iff.mp hp').1
    refine ⟨p', by rwa [List.getElem?_append_left hidx], hold.write ?_⟩
    have hoff := (slot_offset hps k).2
    rw [leBytes_length, leBytes_length]
    exact address_disjoint (by omega) (by omega) (by omega)
  · obtain ⟨hj', hq'⟩ := List.getElem?_eq_some_iff.mp hq'
    rw [List.length_append, List.length_singleton] at hj'
    rw [List.getElem?_append_left (by omega)] at hp'
    obtain hj | hj : j + 1 < chain.length ∨ j + 1 = chain.length := by omega
    · rw [List.getElem_append_left hj] at hq'
      refine (h.link j p' q' hp' (List.getElem?_eq_some_iff.mpr ⟨hj, hq'⟩)).write ?_
      rw [leBytes_length, leBytes_length]
      refine address_disjoint (by omega) (by omega) (.inl ?_)
      rintro rfl
      have := (List.getElem?_inj (by omega) h.nodup).mp (hp'.trans hlast.symm)
      omega
    · obtain rfl : j = chain.length - 1 := by omega
      obtain rfl : p' = p := Option.some.inj (hp'.symm.trans hlast)
      obtain rfl : q = q' := by
        rw [List.getElem_append_right (by omega)] at hq'
        simpa using hq'
      have hoff : ps - 8 = o := by omega
      rw [hoff]
      exact Disk.holds_write ..
  · rw [List.getLast?_concat, Option.some.injEq] at hp'
    subst hp'
    rw [Disk.write_outside]
    · exact hblank i hi
    · have hne : p ≠ q := fun heq => hq (heq ▸ List.mem_of_getLast? hp)
      rw [leBytes_length]
      have := address_disjoint (by omega : i + 1 ≤ ps) (by omega : o + 8 ≤ ps) (.inl hne.symm)
      omega
  · rw [if_neg (by omega), hnext, List.length_append, List.length_singleton, Nat.add_sub_cancel]
  · rw [← List.concat_eq_append]
    exact h.nodup.concat hq
  · rw [List.getElem?_append_left hpos, h.head]

/-- A descriptor is replaced. -/
lemma set (h : Toc d ps chain es o) (hps : ValidPageSize ps) (hk : k < es.length)
    (hp : chain[(slot ps k).1]? = some p) (e : PageData) :
    Toc (d.write (p * ps + (slot ps k).2) (leBytes 2 e.ptfd)) ps chain (es.set k e) o := by
  have hoff := (slot_offset hps k).2
  have hmin := hps.min
  have hfits := h.fits
  refine ⟨fun k' e' he' => ?_, fun j p' q hp' hq => ?_, fun p' i hp' hi hi' => ?_, ?_, h.fits,
    h.nodup, h.head⟩
  · by_cases hkk : k = k'
    · subst hkk
      rw [List.getElem?_set_self hk, Option.some.injEq] at he'
      subst he'
      exact ⟨p, hp, Disk.holds_write ..⟩
    · rw [List.getElem?_set_ne hkk] at he'
      obtain ⟨p', hp', hold⟩ := h.entry k' e' he'
      refine ⟨p', hp', hold.write ?_⟩
      have hoff' := (slot_offset hps k').2
      rw [leBytes_length, leBytes_length]
      apply address_disjoint (by omega) (by omega)
      by_cases hpp : p' = p
      · have hidx : (slot ps k').1 = (slot ps k).1 :=
          (List.getElem?_inj (List.getElem?_eq_some_iff.mp hp').1 h.nodup).mp (by rw [hp', hp, hpp])
        obtain hlt | hlt : k < k' ∨ k' < k := by omega
        · have := slot_lt hps hlt
          omega
        · have := slot_lt hps hlt
          omega
      · exact .inl hpp
  · refine (h.link j p' q hp' hq).write ?_
    rw [leBytes_length, leBytes_length]
    exact address_disjoint (by omega) (by omega) (by omega)
  · rw [Disk.write_outside]
    · exact h.blank p' i hp' hi hi'
    · suffices hne : p' ≠ p ∨ i + 1 ≤ (slot ps k).2 ∨ (slot ps k).2 + 2 ≤ i by
        have := address_disjoint (by omega : i + 1 ≤ ps) (by omega : (slot ps k).2 + 2 ≤ ps) hne
        rw [leBytes_length]
        omega
      by_cases hpp : p' = p
      · -- the descriptor is before the offset of the next one
        have hidx : chain.length - 1 = (slot ps k).1 :=
          (List.getElem?_inj (by have := h.length_pos; omega) h.nodup).mp
            (by rw [last_index hp', hp, hpp])
        have hlt := slot_lt hps hk
        have hnext := h.next
        split_ifs at hnext with ho
        · omega
        · rw [hnext] at hlt
          omega
      · exact .inl hpp
  · rw [List.length_set]
    exact h.next

end Toc

end Hobbes.Db
