import Hobbes.Hog.StoredFormat

/-!
# Where readers stay inside

The reader of a type follows the format of the type. So it stays inside of a transaction unless an array overruns it,
and what it returns is an encoding unless there is something else that is in the format.
-/

namespace Hobbes.Hog

open Core

namespace ReadTy

/-! ### Formats of types -/

mutual

/-- Arrays and variants say in front what they have. The tags of enumerations may be anything. -/
def format : ReadTy → Format
  | prim p => .fixed p.width
  | array t => (Format.fixed 8).bind fun bs =>
    match t.fixedWidth with
    | some w => .elements (leNat bs) w
    | none => .times (leNat bs) t.format
  | fixedArray t n => .times n t.format
  | product ts => formatAll ts
  | variant ts =>
    match enumWidth ts with
    | some w => .fixed w
    | none => (Format.fixed 4).bind fun bs => formatCtor ts (leNat bs)
  | aliasOf t => t.format

def formatAll : List ReadTy → Format
  | [] => .fixed 0
  | t :: ts => t.format.bind fun _ => formatAll ts

def formatCtor : List ReadTy → ℕ → Format
  | [], _ => .nothing
  | t :: _, 0 => t.format
  | _ :: ts, n + 1 => formatCtor ts n

end

/-! ### Widths -/

lemma enumWidth_eq : ∀ {ts : List ReadTy} {w : ℕ}, enumWidth ts = some w → w = 4
  | [product []], w, h => by
    cases h
    rfl
  | product [] :: t :: ts, w, h => by
    obtain ⟨-, -, rfl⟩ := Option.map_eq_some_iff.mp h
    rfl

/-- The width is the size, and what has it is just so many bytes. -/
lemma fixedWidth_eq : ∀ {t : ReadTy} {w : ℕ}, t.fixedWidth = some w → t.Storable →
    w = t.size ∧ w < 2 ^ 63 ∧ t.format.Same (.fixed w)
  | prim p, w, h, _ => by
    cases h
    refine ⟨rfl, ?_, .refl _⟩
    cases p <;> decide
  | fixedArray t n, w, h, hs => by
    obtain ⟨w', hw', rfl⟩ := Option.map_eq_some_iff.mp h
    obtain ⟨rfl, -, hsame⟩ := fixedWidth_eq hw' hs.1
    have hmod : n * t.size % 2 ^ 64 = n * t.size := Nat.mod_eq_of_lt (Nat.lt_trans hs.2 (by decide))
    rw [hmod]
    exact ⟨rfl, hs.2, (hsame.times n).trans (Format.times_fixed n t.size)⟩
  | product [], w, h, _ => by
    cases h
    exact ⟨rfl, by decide, .refl _⟩
  | product [t], w, h, hs => by
    obtain ⟨rfl, hlt, hsame⟩ := fixedWidth_eq (t := t) h hs.1.1
    exact ⟨rfl, hlt, (hsame.bind fun _ => .refl _).trans (Format.fixed_bind_fixed t.size 0)⟩
  | variant ts, w, h, _ => by
    have henum : enumWidth ts = some w := h
    obtain rfl := enumWidth_eq henum
    refine ⟨rfl, by decide, ?_⟩
    rw [format, henum]
    exact .refl _

/-- There are `n` bytes, and the reader takes them. -/
structure Packed (f : Format) (r : Reader) (size n : ℕ) : Prop where
  size : n = size
  same : f.Same (.fixed n)
  takes : Format.Takes r n

lemma packed_orElse (r : Reader) {t : ReadTy} {w : ℕ} (hw : t.fixedWidth = some w) (ht : t.Storable) :
    Packed t.format (t.orElse Reader.hstoreUnsafeRead r) t.size w := by
  obtain ⟨hsize, -, hsame⟩ := fixedWidth_eq hw ht
  rw [orElse, hw]
  exact ⟨hsize, hsame, Format.takes_hstoreUnsafeRead w⟩

lemma Packed.bind {f g : Format} {r s : Reader} {size size' m n : ℕ} (hf : Packed f r size m) (hg : Packed g s size' n)
    (hlt : size + size' < 2 ^ 63) :
    Packed (f.bind fun _ => g) (r.bind fun _ => s) (size + size') ((m + n) % 2 ^ 64) := by
  obtain ⟨rfl, hfsame, hftakes⟩ := hf
  obtain ⟨rfl, hgsame, hgtakes⟩ := hg
  rw [Nat.mod_eq_of_lt (Nat.lt_trans hlt (by decide))]
  exact ⟨rfl, (hfsame.bind fun _ => hgsame).trans (Format.fixed_bind_fixed m n), hftakes.bind fun _ => hgtakes⟩

mutual

/-- What is packed is of one width as well. -/
lemma packedWidth_eq {t : ReadTy} {n : ℕ} (h : t.packedWidth = some n) (ht : t.Storable) :
    Packed t.format t.defRead t.size n := by
  match t with
  | product ts =>
    rw [packedWidth] at h
    rw [defRead]
    cases hw : (product ts).fixedWidth with
    | some w =>
      rw [hw] at h
      cases h
      exact packed_orElse _ hw ht
    | none =>
      rw [hw] at h
      rw [orElse, hw]
      exact packedWidths_eq h ht.1 ht.2
  | prim p => exact packed_orElse Reader.nothing h ht
  | array t => exact packed_orElse Reader.nothing h ht
  | fixedArray t n => exact packed_orElse Reader.nothing h ht
  | variant ts => exact packed_orElse Reader.nothing h ht
  | aliasOf t => exact packed_orElse Reader.nothing h ht

lemma packedWidths_eq {ts : List ReadTy} {n : ℕ} (h : packedWidths ts = some n) (hts : AllStorable ts)
    (hlt : sizes ts < 2 ^ 63) : Packed (formatAll ts) (hstoreDefReadInto ts) (sizes ts) n := by
  match ts with
  | [] =>
    cases h
    exact ⟨rfl, .refl _, Format.takes_just⟩
  | t :: ts =>
    rw [packedWidths, Option.bind_eq_bind, Option.bind_eq_some_iff] at h
    obtain ⟨m, hm, h⟩ := h
    obtain ⟨n, hn, h⟩ := Option.bind_eq_some_iff.mp h
    cases h
    rw [sizes] at hlt
    exact (packedWidth_eq hm hts.1).bind (packedWidths_eq hn hts.2 (by omega)) hlt

end

/-! ### Readers of types -/

lemma follows_orElse {t : ReadTy} {r : Reader} (ht : t.Storable) (hr : Format.Follows r t.format) :
    Format.Follows (t.orElse Reader.fixed r) t.format := by
  rw [orElse]
  cases hw : t.fixedWidth with
  | none => exact hr
  | some w =>
    obtain ⟨-, hlt, hsame⟩ := fixedWidth_eq hw ht
    exact (Format.follows_fixed hlt).of_same hsame.symm

mutual

lemma follows_hstoreRead {t : ReadTy} (ht : t.Storable) : Format.Follows t.hstoreRead t.format := by
  match t with
  | prim p =>
    exact Format.follows_fixed (fixedWidth_eq rfl ht).2.1
  | array t =>
    have ih : Format.Follows t.hstoreRead t.format := follows_hstoreRead ht
    rw [hstoreRead, format]
    cases hw : t.fixedWidth with
    | some w => exact (Format.follows_fixed (by decide)).bind fun bs => Format.follows_elements (leNat bs) w
    | none => exact (Format.follows_fixed (by decide)).bind fun bs => ih.times (leNat bs)
  | fixedArray t n =>
    rw [hstoreRead]
    exact follows_orElse ht ((follows_hstoreRead ht.1).times n)
  | product ts =>
    rw [hstoreRead]
    cases hw : (product ts).fixedWidth with
    | some w =>
      obtain ⟨-, hlt, hsame⟩ := fixedWidth_eq hw ht
      rw [orElse, hw]
      exact (Format.follows_fixed hlt).of_same hsame.symm
    | none =>
      refine follows_orElse ht ?_
      cases hn : (product ts).packedWidth with
      | none => exact follows_hstoreReadInto ht.1
      | some n =>
        rw [packedWidth, hw] at hn
        obtain ⟨rfl, hsame, htakes⟩ := packedWidths_eq hn ht.1 ht.2
        exact (htakes.follows ht.2).of_same hsame.symm
  | variant ts =>
    rw [hstoreRead]
    cases hw : enumWidth ts with
    | some w =>
      have hfixed : (variant ts).fixedWidth = some w := hw
      obtain ⟨-, hlt, hsame⟩ := fixedWidth_eq hfixed ht
      rw [orElse, hfixed]
      exact (Format.follows_fixed hlt).of_same hsame.symm
    | none =>
      refine follows_orElse ht ?_
      rw [format, hw]
      exact (Format.follows_fixed (by decide)).bind fun bs => follows_hstoreReadVariant ht (leNat bs)
  | aliasOf t =>
    rw [hstoreRead, format]
    exact follows_hstoreRead ht

lemma follows_hstoreReadInto {ts : List ReadTy} (hts : AllStorable ts) :
    Format.Follows (hstoreReadInto ts) (formatAll ts) := by
  match ts with
  | [] => exact Format.follows_just
  | product us :: ts =>
    rw [hstoreReadInto, formatAll, format]
    exact (follows_hstoreReadInto hts.1.1).bind fun _ => follows_hstoreReadInto hts.2
  | prim p :: ts => exact (follows_hstoreRead hts.1).bind fun _ => follows_hstoreReadInto hts.2
  | array t :: ts => exact (follows_hstoreRead hts.1).bind fun _ => follows_hstoreReadInto hts.2
  | fixedArray t n :: ts => exact (follows_hstoreRead hts.1).bind fun _ => follows_hstoreReadInto hts.2
  | variant vs :: ts => exact (follows_hstoreRead hts.1).bind fun _ => follows_hstoreReadInto hts.2
  | aliasOf t :: ts => exact (follows_hstoreRead hts.1).bind fun _ => follows_hstoreReadInto hts.2

lemma follows_hstoreReadVariant {ts : List ReadTy} (hts : AllStorable ts) (n : ℕ) :
    Format.Follows (hstoreReadVariant ts n) (formatCtor ts n) := by
  match ts, n with
  | [], _ => exact Format.follows_nothing
  | t :: _, 0 => exact follows_hstoreRead hts.1
  | _ :: ts, n + 1 => exact follows_hstoreReadVariant hts.2 n

end

/-! ### When reading is safe -/

/-- No byte outside of the transaction is read, and what is returned are the bytes of a value. -/
def Safe (ty : ReadTy) (t : Transaction) : Prop :=
  match ty.hstoreRead t with
  | none => False
  | some (none, t') => t'.i ≤ t.data.length
  | some (some bs, t') => t'.i = t.i + bs.length ∧ t'.i ≤ t.data.length ∧ bs <+: t.left ∧ ty.Encodes bs

end ReadTy

end Hobbes.Hog
