import Hobbes.Net.AccumValues

/-!
# Types that are accumulated

The values of a type are accumulated as they were written if and only if no map of it has a map for a key or
for a value.
-/

namespace Hobbes.Net

open Core Io.Resumes

variable (less : (t : Ty) → t.Val → t.Val → Bool)

lemma Scalar.size_pos (s : Scalar) : 0 < s.size := by
  cases s <;> exact Nat.succ_pos _

lemma Scalar.valid_zero {s : Scalar} (hs : s.WellFormed) : s.Valid fun _ => 0 := by
  cases s with
  | enum n => exact hs.1
  | _ => trivial

mutual

def Ty.resumes : (t : Ty) → (t.io less).Resumes
  | .scalar s => Io.Resumes.scalar s.size_pos
  | .unit => Io.Resumes.unit
  | .string | .block _ => Io.Resumes.block
  | .variant t ts => Io.Resumes.variant (.cons t.resumes (ctorsResumes ts))
  | .pair a b => a.resumes.pair b.resumes
  | .vector t => t.resumes.vector
  | .map k t => Io.Resumes.map (less k) k.resumes t.resumes
  | .struct ts => Io.Resumes.struct (fieldsResumes ts)
  | .tuple ts => Io.Resumes.tuple (fieldsResumes ts)
  | .typeAlias _ t => t.resumes

def fieldsResumes : (ts : List Ty) → (fieldsIo less ts).Resumes
  | [] => .nil
  | t :: ts => .cons t.resumes (fieldsResumes ts)

def ctorsResumes : (ts : List Ty) → (ctorsIo less ts).Resumes
  | [] => .nil
  | t :: ts => .cons t.resumes (ctorsResumes ts)

end

/-! ### Flat types -/

mutual

/-- Without maps in maps, what is new is overwritten, and so is anything that has no map. -/
lemma Ty.renews_overwrites (t : Ty) (ht : t.flat) :
    (t.resumes less).Renews ∧ (t.hasMap = false → (t.resumes less).Overwrites) := by
  match t with
  | .scalar _ | .unit | .string | .block _ => exact ⟨fun _ _ _ => rfl, fun _ _ _ _ _ => rfl⟩
  | .variant t ts =>
    rw [Ty.flat, Bool.and_eq_true] at ht
    have h := Overwrites.variant (.cons (Ty.renews_overwrites t ht.1).1 (ctors_renews ts ht.2))
    exact ⟨h.renews, fun _ => h⟩
  | .pair a b =>
    rw [Ty.flat, Bool.and_eq_true] at ht
    obtain ⟨ha, ha'⟩ := Ty.renews_overwrites a ht.1
    obtain ⟨hb, hb'⟩ := Ty.renews_overwrites b ht.2
    refine ⟨ha.pair hb, fun hmap => ?_⟩
    rw [Ty.hasMap, Bool.or_eq_false_iff] at hmap
    exact (ha' hmap.1).pair (hb' hmap.2)
  | .vector t =>
    obtain ⟨h, h'⟩ := Ty.renews_overwrites t ht
    exact ⟨h.vector, fun hmap => (h' hmap).vector⟩
  | .map k t =>
    simp only [Ty.flat, Bool.and_eq_true, Bool.not_eq_true'] at ht
    obtain ⟨⟨⟨hk, ht'⟩, hk'⟩, ht⟩ := ht
    refine ⟨?_, fun hmap => nomatch hmap⟩
    exact Renews.map ((Ty.renews_overwrites k hk').2 hk) ((Ty.renews_overwrites t ht).2 ht')
  | .struct ts =>
    obtain ⟨h, h'⟩ := fields_renews_overwrites ts ht
    exact ⟨.struct h, fun hmap => .struct (h' hmap)⟩
  | .tuple ts =>
    obtain ⟨h, h'⟩ := fields_renews_overwrites ts ht
    exact ⟨.tuple h, fun hmap => .tuple (h' hmap)⟩
  | .typeAlias _ t => exact Ty.renews_overwrites t ht

lemma fields_renews_overwrites (ts : List Ty) (hts : allFlat ts) :
    (fieldsResumes less ts).Renews ∧
      (anyHasMap ts = false → (fieldsResumes less ts).Overwrites) := by
  match ts with
  | [] => exact ⟨fun _ _ _ => rfl, fun _ => .nil⟩
  | t :: ts =>
    rw [allFlat, Bool.and_eq_true] at hts
    obtain ⟨ht, ht'⟩ := Ty.renews_overwrites t hts.1
    obtain ⟨h, h'⟩ := fields_renews_overwrites ts hts.2
    refine ⟨.cons ht h, fun hmap => ?_⟩
    rw [anyHasMap, Bool.or_eq_false_iff] at hmap
    exact .cons (ht' hmap.1) (h' hmap.2)

lemma ctors_renews (ts : List Ty) (hts : allFlat ts) : (ctorsResumes less ts).Renews := by
  match ts with
  | [] => exact .nil
  | t :: ts =>
    rw [allFlat, Bool.and_eq_true] at hts
    exact .cons (Ty.renews_overwrites t hts.1).1 (ctors_renews ts hts.2)

end

/-! ### Types with maps in maps -/

mutual

lemma Ty.flat_of_hasMap_eq_false {t : Ty} (ht : t.WellFormed) (hmap : t.hasMap = false) : t.flat := by
  match t with
  | .scalar _ | .unit | .string | .block _ => rfl
  | .variant t ts =>
    obtain ⟨-, h, hs, -⟩ := ht
    rw [Ty.flat, h, hs, Bool.and_self]
  | .pair a b =>
    rw [Ty.hasMap, Bool.or_eq_false_iff] at hmap
    rw [Ty.flat, Ty.flat_of_hasMap_eq_false ht.1 hmap.1, Ty.flat_of_hasMap_eq_false ht.2 hmap.2,
      Bool.and_self]
  | .vector t | .typeAlias _ t => exact Ty.flat_of_hasMap_eq_false (t := t) ht hmap
  | .map _ _ => cases hmap
  | .struct ts => exact allFlat_of_anyHasMap_eq_false ht hmap
  | .tuple ts => exact allFlat_of_anyHasMap_eq_false ht.2 hmap

lemma allFlat_of_anyHasMap_eq_false {ts : List Ty} (hts : AllWellFormed ts)
    (hmap : anyHasMap ts = false) : allFlat ts := by
  match ts with
  | [] => rfl
  | t :: ts =>
    rw [anyHasMap, Bool.or_eq_false_iff] at hmap
    rw [allFlat, Ty.flat_of_hasMap_eq_false hts.1 hmap.1, allFlat_of_anyHasMap_eq_false hts.2 hmap.2,
      Bool.and_self]

end

lemma count_fieldsIo (ts : List Ty) : (fieldsIo less ts).count = ts.length := by
  induction ts with
  | nil => rfl
  | cons t ts ih => exact congrArg (· + 1) ih

mutual

lemma Ty.exists_valid (t : Ty) (ht : t.WellFormed) : ∃ v, (t.io less).Valid v := by
  match t with
  | .scalar s => exact ⟨fun _ => 0, s.valid_zero ht⟩
  | .unit => exact ⟨(), trivial⟩
  | .string | .block _ => exact ⟨[], Nat.dvd_zero _, by simp, by simp [Io.elements]⟩
  | .variant t ts =>
    obtain ⟨v, hv⟩ := Ty.exists_valid t ht.2.2.2.1
    exact ⟨some (.inl v), .inl v, rfl, by simp [Ctors.cons], hv⟩
  | .pair a b =>
    obtain ⟨v, hv⟩ := Ty.exists_valid a ht.1
    obtain ⟨w, hw⟩ := Ty.exists_valid b ht.2
    exact ⟨(v, w), hv, hw⟩
  | .vector _ => exact ⟨[], by simp, by simp⟩
  | .map _ _ => exact ⟨[], by simp, by simp, List.Pairwise.nil⟩
  | .struct ts => exact fields_exists_valid ts ht
  | .tuple ts =>
    obtain ⟨v, hv⟩ := fields_exists_valid ts ht.2
    exact ⟨v, by rw [count_fieldsIo less]; exact ht.1, hv⟩
  | .typeAlias _ t => exact Ty.exists_valid t ht

lemma fields_exists_valid (ts : List Ty) (hts : AllWellFormed ts) :
    ∃ v, (fieldsIo less ts).Valid v := by
  match ts with
  | [] => exact ⟨(), trivial⟩
  | t :: ts =>
    obtain ⟨v, hv⟩ := Ty.exists_valid t hts.1
    obtain ⟨w, hw⟩ := fields_exists_valid ts hts.2
    exact ⟨(v, w), hv, hw⟩

end

mutual

/-- A map is not emptied when it is accumulated again. -/
lemma Ty.keeps (t : Ty) (ht : t.WellFormed) (hmap : t.hasMap) :
    (t.resumes less).Keeps := by
  match t with
  | .pair a b =>
    obtain ⟨_, hv⟩ := Ty.exists_valid less a ht.1
    obtain ⟨_, hw⟩ := Ty.exists_valid less b ht.2
    rw [Ty.hasMap, Bool.or_eq_true] at hmap
    rcases hmap with h | h
    · exact (Ty.keeps a ht.1 h).pair_left hw
    · exact (Ty.keeps b ht.2 h).pair_right hv
  | .vector t => exact (Ty.keeps t ht hmap).vector
  | .map k t =>
    obtain ⟨_, hv⟩ := Ty.exists_valid less k ht.1
    obtain ⟨_, hw⟩ := Ty.exists_valid less t ht.2
    exact .map hv hw
  | .struct ts => exact .struct (fields_keeps ts ht hmap)
  | .tuple ts => exact .tuple (fields_keeps ts ht.2 hmap) (by rw [count_fieldsIo less]; exact ht.1)
  | .typeAlias _ t => exact Ty.keeps t ht hmap

lemma fields_keeps (ts : List Ty) (hts : AllWellFormed ts) (hmap : anyHasMap ts) :
    (fieldsResumes less ts).Keeps := by
  match ts with
  | t :: ts =>
    obtain ⟨_, hv⟩ := Ty.exists_valid less t hts.1
    obtain ⟨_, hw⟩ := fields_exists_valid less ts hts.2
    rw [anyHasMap, Bool.or_eq_true] at hmap
    rcases hmap with h | h
    · exact .cons_left (Ty.keeps t hts.1 h) hw
    · exact .cons_right (fields_keeps ts hts.2 h) hv

end

mutual

lemma Ty.fails (t : Ty) (ht : t.WellFormed) (hflat : t.flat = false) :
    (t.resumes less).Fails := by
  match t with
  | .variant t ts =>
    obtain ⟨-, h, hs, -⟩ := ht
    rw [Ty.flat, h, hs] at hflat
    cases hflat
  | .pair a b =>
    obtain ⟨_, hv⟩ := Ty.exists_valid less a ht.1
    obtain ⟨_, hw⟩ := Ty.exists_valid less b ht.2
    rw [Ty.flat, Bool.and_eq_false_iff] at hflat
    rcases hflat with h | h
    · exact (Ty.fails a ht.1 h).pair_left hw
    · exact (Ty.fails b ht.2 h).pair_right hv
  | .vector t => exact (Ty.fails t ht hflat).vector
  | .map k t =>
    obtain ⟨_, hv⟩ := Ty.exists_valid less k ht.1
    obtain ⟨_, hw⟩ := Ty.exists_valid less t ht.2
    by_cases hk : k.hasMap
    · exact .map_key (Ty.keeps less k ht.1 hk) hw
    · by_cases ht' : t.hasMap
      · exact .map_value (Ty.keeps less t ht.2 ht') hv
      · rw [Bool.not_eq_true] at hk ht'
        simp [Ty.flat, hk, ht', Ty.flat_of_hasMap_eq_false ht.1 hk,
          Ty.flat_of_hasMap_eq_false ht.2 ht'] at hflat
  | .struct ts => exact .struct (fields_fails ts ht hflat)
  | .tuple ts => exact .tuple (fields_fails ts ht.2 hflat) (by rw [count_fieldsIo less]; exact ht.1)
  | .typeAlias _ t => exact Ty.fails t ht hflat

lemma fields_fails (ts : List Ty) (hts : AllWellFormed ts) (hflat : allFlat ts = false) :
    (fieldsResumes less ts).Fails := by
  match ts with
  | t :: ts =>
    obtain ⟨_, hv⟩ := Ty.exists_valid less t hts.1
    obtain ⟨_, hw⟩ := fields_exists_valid less ts hts.2
    rw [allFlat, Bool.and_eq_false_iff] at hflat
    rcases hflat with h | h
    · exact .cons_left (Ty.fails t hts.1 h) hw
    · exact .cons_right (fields_fails ts hts.2 h) hv

end

/-- The integers are compared as they are stored. -/
def storedLess : (t : Ty) → t.Val → t.Val → Bool
  | .scalar _, x, y => Mem.toNat x < Mem.toNat y
  | _, _, _ => false

/-- `std::map<int, std::map<int, int>>` -/
def mapOfMaps : Ty := .map (.scalar .int) (.map (.scalar .int) (.scalar .int))

/-- `{{1, {{1, 2}}}, {2, {{3, 4}}}}` -/
def nestedMaps : mapOfMaps.Val :=
  [(.ofNat 4 1, [(.ofNat 4 1, .ofNat 4 2)]), (.ofNat 4 2, [(.ofNat 4 3, .ofNat 4 4)])]

/-- Every sequence of values is accumulated as it was written, whatever the pieces that it comes in, if and
only if no map is in a map. -/
theorem Ty.accumulates_iff_flat {t : Ty} (ht : t.WellFormed) :
    (∀ vs, (∀ v ∈ vs, (t.io less).Valid v) → (t.io less).Accumulates (t.io less).initState vs) ↔
      t.flat := by
  constructor
  · intro h
    by_contra hflat
    rw [Bool.not_eq_true] at hflat
    obtain ⟨vs, hvs, hacc⟩ := (Ty.fails less t ht hflat).not_accumulates (t.io less).initState
    exact hacc (h vs hvs)
  · intro hflat vs hvs
    exact (Ty.renews_overwrites less t hflat).1.accumulates hvs _

theorem mapOfMaps_accumulates_iff :
    (∀ vs, (∀ v ∈ vs, (mapOfMaps.io storedLess).Valid v) →
      (mapOfMaps.io storedLess).Accumulates (mapOfMaps.io storedLess).initState vs) ↔ mapOfMaps.flat :=
  Ty.accumulates_iff_flat storedLess ⟨trivial, trivial, trivial⟩

/-- The second map has the entries of the first one too. -/
theorem not_accumulates_nestedMaps :
    mapOfMaps.WellFormed ∧ (mapOfMaps.io storedLess).Valid nestedMaps ∧
      ¬ (mapOfMaps.io storedLess).Accumulates (mapOfMaps.io storedLess).initState [nestedMaps] := by
  have hvalid : (mapOfMaps.io storedLess).Valid nestedMaps := by
    refine ⟨by decide, ?_, ?_⟩
    · rintro e (_ | ⟨_, _ | ⟨_, ⟨⟩⟩⟩)
      · exact ⟨trivial, map_valid_singleton trivial trivial⟩
      · exact ⟨trivial, map_valid_singleton trivial trivial⟩
    · refine List.pairwise_pair.mpr ⟨?_, ?_⟩ <;> decide
  refine ⟨⟨trivial, trivial, trivial⟩, hvalid, ?_⟩
  rw [(mapOfMaps.resumes storedLess).accumulates_cons_iff hvalid]
  rintro ⟨hres, -⟩
  have hsizes := congrArg (List.map fun e : Mem 4 × List (Mem 4 × Mem 4) => e.2.length) hres
  revert hsizes
  decide

end Hobbes.Net
