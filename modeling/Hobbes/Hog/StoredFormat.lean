import Hobbes.Hog.ReadTransaction

/-!
# Formats of transactions

A format says which bytes at the front of what is left of a transaction are laid out as a reader takes them, and where
an array that is reached overruns the transaction.
-/

namespace Hobbes.Hog

open Core

namespace Transaction

/-- The position is inside, and the transaction fits in memory. -/
structure Ok (t : Transaction) : Prop where
  le : t.i ≤ t.data.length
  small : t.data.length < 2 ^ 63

def left (t : Transaction) : Bytes := t.data.drop t.i

variable {t : Transaction} {n : ℕ} {bs : Bytes}

lemma left_length (t : Transaction) : t.left.length = t.data.length - t.i := List.length_drop

lemma Ok.skip_i (ht : t.Ok) (hn : n ≤ t.left.length) : (t.skip n).i = t.i + n := by
  have hlen := t.left_length
  have hle := ht.le
  have hsmall := ht.small
  rw [skip, Nat.mod_eq_of_lt (by omega)]

lemma Ok.skip (ht : t.Ok) (hn : n ≤ t.left.length) : (t.skip n).Ok := by
  have hlen := t.left_length
  have hle := ht.le
  refine ⟨?_, ht.small⟩
  rw [ht.skip_i hn]
  simp only [Transaction.skip]
  omega

lemma Ok.skip_left (ht : t.Ok) (hn : n ≤ t.left.length) : (t.skip n).left = t.left.drop n := by
  rw [left, ht.skip_i hn, left, List.drop_drop]
  rfl

lemma Ok.skip_skip (ht : t.Ok) {m : ℕ} (hm : m ≤ t.left.length) : (t.skip m).skip n = t.skip (m + n) := by
  rw [Transaction.skip, ht.skip_i hm, Transaction.skip, Transaction.skip, Nat.add_assoc]

lemma Ok.canRead (ht : t.Ok) (hn : n < 2 ^ 63) : t.canRead n = true ↔ n ≤ t.left.length := by
  have hlen := t.left_length
  have hle := ht.le
  have hsmall := ht.small
  rw [Transaction.canRead, decide_eq_true_eq, Nat.mod_eq_of_lt (by omega)]
  omega

end Transaction

/-- What is at the front has the layout, and is there. -/
structure Format where
  whole : Transaction → Bytes → Prop
  overruns : Transaction → Prop
  front : ∀ {t : Transaction} {bs : Bytes}, t.Ok → whole t bs → bs <+: t.left

namespace Format

open Transaction

variable {f f' : Format} {g g' : Bytes → Format} {r : Reader} {k : Bytes → Reader} {t : Transaction} {n : ℕ}
  {bs : Bytes}

/-- Any `n` bytes. -/
def fixed (n : ℕ) : Format where
  whole t bs := bs <+: t.left ∧ bs.length = n
  overruns _ := False
  front _ h := h.1

def nothing : Format where
  whole _ _ := False
  overruns _ := False
  front _ h := h.elim

lemma append_front (ht : t.Ok) {a b : Bytes} (ha : a <+: t.left) (hb : b <+: (t.skip a.length).left) :
    a ++ b <+: t.left := by
  rw [ht.skip_left ha.length_le] at hb
  obtain ⟨rest, hrest⟩ := ha
  rw [← hrest, List.drop_left] at hb
  rw [← hrest]
  exact (List.prefix_append_right_inj a).mpr hb

/-- A layout, and behind it the one that its bytes say. -/
def bind (f : Format) (g : Bytes → Format) : Format where
  whole t bs := ∃ a b, bs = a ++ b ∧ f.whole t a ∧ (g a).whole (t.skip a.length) b
  overruns t := f.overruns t ∨ ∃ a, f.whole t a ∧ (g a).overruns (t.skip a.length)
  front := by
    rintro t _ ht ⟨a, b, rfl, ha, hb⟩
    have hfront := f.front ht ha
    exact append_front ht hfront ((g a).front (ht.skip hfront.length_le) hb)

def times : ℕ → Format → Format
  | 0, _ => fixed 0
  | n + 1, f => f.bind fun _ => times n f

/-- The elements of an array of `n` elements of width `w`. Their size is a number of 64 bits, and the number of them has
passed the test. -/
def elements (n w : ℕ) : Format where
  whole t bs := t.canRead n = true ∧ bs <+: t.left ∧ bs.length = n * w % 2 ^ 64
  overruns t := t.canRead n = true ∧ t.left.length < n * w % 2 ^ 64
  front _ h := h.2.1

/-! ### Formats that are the same -/

/-- There is no difference inside of a transaction. -/
def Same (f g : Format) : Prop :=
  ∀ t : Transaction, t.Ok → (∀ bs, f.whole t bs ↔ g.whole t bs) ∧ (f.overruns t ↔ g.overruns t)

lemma Same.refl (f : Format) : f.Same f := fun _ _ => ⟨fun _ => .rfl, .rfl⟩

lemma Same.symm (h : f.Same f') : f'.Same f := fun t ht => ⟨fun bs => ((h t ht).1 bs).symm, (h t ht).2.symm⟩

lemma Same.trans {f'' : Format} (h : f.Same f') (h' : f'.Same f'') : f.Same f'' :=
  fun t ht => ⟨fun bs => ((h t ht).1 bs).trans ((h' t ht).1 bs), (h t ht).2.trans (h' t ht).2⟩

lemma Same.bind (hf : f.Same f') (hg : ∀ a, (g a).Same (g' a)) : (f.bind g).Same (f'.bind g') := by
  intro t ht
  obtain ⟨hwhole, hover⟩ := hf t ht
  have hskip : ∀ a, f.whole t a → (t.skip a.length).Ok := fun a ha => ht.skip (f.front ht ha).length_le
  refine ⟨fun bs => ⟨?_, ?_⟩, ⟨?_, ?_⟩⟩
  · rintro ⟨a, b, rfl, ha, hb⟩
    exact ⟨a, b, rfl, (hwhole a).1 ha, ((hg a _ (hskip a ha)).1 b).1 hb⟩
  · rintro ⟨a, b, rfl, ha, hb⟩
    have ha' := (hwhole a).2 ha
    exact ⟨a, b, rfl, ha', ((hg a _ (hskip a ha')).1 b).2 hb⟩
  · rintro (h | ⟨a, ha, h⟩)
    · exact .inl (hover.1 h)
    · exact .inr ⟨a, (hwhole a).1 ha, (hg a _ (hskip a ha)).2.1 h⟩
  · rintro (h | ⟨a, ha, h⟩)
    · exact .inl (hover.2 h)
    · have ha' := (hwhole a).2 ha
      exact .inr ⟨a, ha', (hg a _ (hskip a ha')).2.2 h⟩

lemma Same.times (h : f.Same f') (n : ℕ) : (f.times n).Same (f'.times n) := by
  induction n with
  | zero => exact .refl _
  | succ n ih => exact h.bind fun _ => ih

/-- Bytes and more bytes are so many bytes. -/
lemma fixed_bind_fixed (m n : ℕ) : ((fixed m).bind fun _ => fixed n).Same (fixed (m + n)) := by
  intro t ht
  refine ⟨fun bs => ⟨?_, ?_⟩, ⟨?_, False.elim⟩⟩
  · rintro ⟨a, b, rfl, ha, hb⟩
    exact ⟨append_front ht ha.1 hb.1, by rw [List.length_append, ha.2, hb.2]⟩
  · rintro ⟨hfront, hlen⟩
    have hm : (bs.take m).length = m := List.length_take_of_le (by omega)
    have htake : bs.take m <+: t.left := (List.take_prefix m bs).trans hfront
    refine ⟨bs.take m, bs.drop m, (List.take_append_drop m bs).symm, ⟨htake, hm⟩, ?_, ?_⟩
    · rw [ht.skip_left htake.length_le, hm]
      obtain ⟨rest, hrest⟩ := hfront
      rw [← hrest, List.drop_append_of_le_length (by omega)]
      exact List.prefix_append _ rest
    · rw [List.length_drop]
      omega
  · rintro (h | ⟨a, -, h⟩)
    · exact h
    · exact h

lemma times_fixed (n w : ℕ) : ((fixed w).times n).Same (fixed (n * w)) := by
  induction n with
  | zero =>
    rw [Nat.zero_mul]
    exact .refl _
  | succ n ih =>
    rw [Nat.succ_mul, Nat.add_comm (n * w)]
    exact (Same.bind (.refl _) fun _ => ih).trans (fixed_bind_fixed w (n * w))

/-! ### Readers of formats -/

/-- What comes of reading: what is in the format, if it is there, and no result if and only if an array overruns. -/
def Meets (f : Format) (t : Transaction) : Option (Option Bytes × Transaction) → Prop
  | none => f.overruns t
  | some (none, t') => t'.i ≤ t.data.length ∧ ¬ f.overruns t ∧ ∀ bs, ¬ f.whole t bs
  | some (some bs, t') => t' = t.skip bs.length ∧ ¬ f.overruns t ∧ ∀ bs', f.whole t bs' ↔ bs' = bs

def Follows (r : Reader) (f : Format) : Prop := ∀ t : Transaction, t.Ok → f.Meets t (r t)

lemma Follows.of_same (h : Follows r f) (hf : f.Same f') : Follows r f' := by
  intro t ht
  have hr := h t ht
  obtain ⟨hwhole, hover⟩ := hf t ht
  generalize r t = x at hr ⊢
  rcases x with _ | ⟨_ | bs, t'⟩
  · exact hover.1 hr
  · exact ⟨hr.1, fun h => hr.2.1 (hover.2 h), fun bs h => hr.2.2 bs ((hwhole bs).2 h)⟩
  · exact ⟨hr.1, fun h => hr.2.1 (hover.2 h), fun bs => (hwhole bs).symm.trans (hr.2.2 bs)⟩

lemma follows_just : Follows Reader.just (fixed 0) := by
  intro t ht
  refine ⟨?_, not_false, fun bs => ⟨fun h => List.eq_nil_of_length_eq_zero h.2, ?_⟩⟩
  · have hlt : t.i < 2 ^ 64 := by
      have hle := ht.le
      have hsmall := ht.small
      omega
    rw [List.length_nil, Transaction.skip, Nat.add_zero, Nat.mod_eq_of_lt hlt]
  · rintro rfl
    exact ⟨List.nil_prefix, rfl⟩

lemma follows_nothing : Follows Reader.nothing nothing :=
  fun _ ht => ⟨ht.le, not_false, fun _ => not_false⟩

/-- What is read without a test is there or not. -/
lemma hstoreUnsafeRead_eq (ht : t.Ok) (n : ℕ) : Reader.hstoreUnsafeRead n t =
    if n ≤ t.left.length then some (some (t.left.take n), t.skip n) else none := by
  have hlen := t.left_length
  have hle := ht.le
  rw [Reader.hstoreUnsafeRead]
  by_cases hn : n ≤ t.left.length
  · rw [if_pos hn, if_pos (by omega), left]
  · rw [if_neg hn, if_neg (by omega)]

lemma front_iff (hn : n ≤ t.left.length) : bs <+: t.left ∧ bs.length = n ↔ bs = t.left.take n := by
  constructor
  · rintro ⟨⟨rest, hrest⟩, rfl⟩
    rw [← hrest, List.take_left]
  · rintro rfl
    exact ⟨List.take_prefix n _, List.length_take_of_le hn⟩

/-- The reader takes `n` bytes, if they are there. -/
def Takes (r : Reader) (n : ℕ) : Prop :=
  ∀ t : Transaction, t.Ok → n ≤ t.left.length → r t = some (some (t.left.take n), t.skip n)

lemma takes_hstoreUnsafeRead (n : ℕ) : Takes (Reader.hstoreUnsafeRead n) n :=
  fun _ ht hn => (hstoreUnsafeRead_eq ht n).trans (if_pos hn)

lemma takes_just : Takes Reader.just 0 := by
  intro t ht _
  have hskip : t = t.skip 0 := (follows_just t ht).1
  exact congrArg (fun t' => some (some [], t')) hskip

lemma Takes.bind {m : ℕ} (hr : Takes r m) (hk : ∀ a, Takes (k a) n) : Takes (r.bind k) (m + n) := by
  intro t ht hlen
  have hm : m ≤ t.left.length := by omega
  have hskip := ht.skip_left hm
  have hn : n ≤ (t.skip m).left.length := by
    rw [hskip, List.length_drop]
    omega
  simp only [Reader.bind, hr t ht hm, hk _ _ (ht.skip hm) hn]
  rw [hskip, ← List.take_add, ht.skip_skip hm]

lemma Takes.follows (h : Takes r n) (hn : n < 2 ^ 63) : Follows (Reader.ifCanRead n r) (fixed n) := by
  intro t ht
  rw [Reader.ifCanRead]
  by_cases hle : n ≤ t.left.length
  · rw [if_pos ((ht.canRead hn).2 hle), h t ht hle]
    exact ⟨by rw [List.length_take_of_le hle], not_false, fun bs => front_iff hle⟩
  · rw [if_neg fun h => hle ((ht.canRead hn).1 h)]
    exact ⟨ht.le, not_false, fun bs h => hle (h.2 ▸ h.1.length_le)⟩

lemma follows_fixed (hn : n < 2 ^ 63) : Follows (Reader.fixed n) (fixed n) := (takes_hstoreUnsafeRead n).follows hn

lemma Follows.bind (hr : Follows r f) (hk : ∀ a, Follows (k a) (g a)) : Follows (r.bind k) (f.bind g) := by
  intro t ht
  have hr := hr t ht
  rw [Reader.bind]
  generalize r t = x at hr ⊢
  rcases x with _ | ⟨_ | a, t'⟩
  · exact .inl hr
  · refine ⟨hr.1, ?_, ?_⟩
    · rintro (h | ⟨a, ha, -⟩)
      · exact hr.2.1 h
      · exact hr.2.2 a ha
    · rintro bs ⟨a, b, -, ha, -⟩
      exact hr.2.2 a ha
  · obtain ⟨rfl, hover, hwhole⟩ := hr
    have hlen := (f.front ht ((hwhole a).2 rfl)).length_le
    have hk := hk a _ (ht.skip hlen)
    -- the bytes in front are the ones that were read
    have hbind : ∀ bs, (f.bind g).whole t bs ↔ ∃ b, bs = a ++ b ∧ (g a).whole (t.skip a.length) b := by
      intro bs
      constructor
      · rintro ⟨a', b, rfl, ha', hb⟩
        obtain rfl := (hwhole a').1 ha'
        exact ⟨b, rfl, hb⟩
      · rintro ⟨b, rfl, hb⟩
        exact ⟨a, b, rfl, (hwhole a).2 rfl, hb⟩
    have hbindOver : (f.bind g).overruns t ↔ (g a).overruns (t.skip a.length) := by
      constructor
      · rintro (h | ⟨a', ha', h⟩)
        · exact absurd h hover
        · obtain rfl := (hwhole a').1 ha'
          exact h
      · exact fun h => .inr ⟨a, (hwhole a).2 rfl, h⟩
    simp only
    generalize k a (t.skip a.length) = x at hk ⊢
    rcases x with _ | ⟨_ | b, t''⟩
    · exact hbindOver.2 hk
    · refine ⟨hk.1, fun h => hk.2.1 (hbindOver.1 h), fun bs h => ?_⟩
      obtain ⟨b, -, hb⟩ := (hbind bs).1 h
      exact hk.2.2 b hb
    · obtain ⟨rfl, hoverK, hwholeK⟩ := hk
      refine ⟨?_, fun h => hoverK (hbindOver.1 h), fun bs => (hbind bs).trans ⟨?_, ?_⟩⟩
      · rw [ht.skip_skip hlen, List.length_append]
      · rintro ⟨b', rfl, hb'⟩
        rw [(hwholeK b').1 hb']
      · rintro rfl
        exact ⟨b, rfl, (hwholeK b).2 rfl⟩

lemma Follows.times (h : Follows r f) (n : ℕ) : Follows (r.times n) (f.times n) := by
  induction n with
  | zero => exact follows_just
  | succ n ih => exact h.bind fun _ => ih

lemma follows_elements (n w : ℕ) :
    Follows (Reader.ifCanRead n (Reader.hstoreUnsafeRead (n * w % 2 ^ 64))) (elements n w) := by
  intro t ht
  rw [Reader.ifCanRead, hstoreUnsafeRead_eq ht]
  by_cases hcan : t.canRead n = true
  · rw [if_pos hcan]
    by_cases hle : n * w % 2 ^ 64 ≤ t.left.length
    · rw [if_pos hle]
      refine ⟨by rw [List.length_take_of_le hle], fun h => Nat.not_lt.mpr hle h.2, fun bs => ?_⟩
      exact ⟨fun h => (front_iff hle).1 h.2, fun h => ⟨hcan, (front_iff hle).2 h⟩⟩
    · rw [if_neg hle]
      exact ⟨hcan, Nat.not_le.mp hle⟩
  · rw [if_neg hcan]
    exact ⟨ht.le, fun h => hcan h.1, fun bs h => hcan h.1⟩

end Format

end Hobbes.Hog
