import Hobbes.Db.Allocation

/-!
# Reading the environment back
-/

namespace Hobbes.Db

open Core

variable {τ : Type} {T : Types τ}

/-! ### Records -/

/-- A definition: what a record stores. -/
structure Definition (τ : Type) where
  name : Bytes
  type : τ
  offset : ℕ

def Definition.code (T : Types τ) (d : Definition τ) : Bytes :=
  ImageFile.recordBytes T d.name d.type d.offset

/-- The numbers in the record are not cut off, and its type comes back. -/
structure Definition.Readable (T : Types τ) (d : Definition τ) : Prop where
  size : (d.code T).length < 2 ^ 63
  offset : d.offset < 2 ^ 64
  type : T.decode (T.encode d.type) = some d.type

lemma Definition.code_length (d : Definition τ) :
    (d.code T).length = 8 + (8 + d.name.length) + (8 + (T.encode d.type).length) := by
  simp [code, ImageFile.recordBytes, Nat.add_assoc]

lemma Definition.Readable.reads {d : Definition τ} (h : d.Readable T) :
    Reader.Reads (ImageFile.readRecord T) (d.code T) (d.offset, d.name, d.type) := by
  have hsize := h.size
  rw [Definition.code_length] at hsize
  rw [code, ImageFile.recordBytes, List.append_assoc]
  apply Reader.Reads.bind (Reader.Reads.number h.offset)
  apply Reader.Reads.bind (Reader.Reads.counted (by omega))
  have htype : Reader.Reads (m := 2 ^ 64) (do
      let etype ← Reader.counted 8
      let type ← Reader.ofOption (T.decode etype)
      return (d.offset, d.name, type))
      (leBytes 8 (T.encode d.type).length ++ T.encode d.type ++ []) (d.offset, d.name, d.type) := by
    apply Reader.Reads.bind (Reader.Reads.counted (by omega))
    exact (Reader.Reads.ofOption h.type).map _
  rwa [List.append_nil] at htype

/-- What records that stand one behind the other from `pos` on bind. -/
def bindingsFrom (T : Types τ) : ℕ → List (Definition τ) → List (Bytes × Binding τ)
  | _, [] => []
  | pos, d :: ds =>
    (d.name, ⟨d.type, d.offset, pos⟩) :: bindingsFrom T (pos + (d.code T).length) ds

/-- Later bindings hide earlier ones. -/
def ImageFile.bindAll (f : ImageFile τ) (bs : List (Bytes × Binding τ)) : ImageFile τ :=
  bs.foldl (fun f b => f.bind b.1 b.2) f

/-! ### Runs of pages -/

namespace ImageFile

/-- The records `ds` fill the `n` pages of the environment from `p` on up to the free space of the
last. All but the first start in the last page. -/
structure RunAt (T : Types τ) (f : ImageFile τ) (p n : ℕ) (ds : List (Definition τ)) : Prop where
  pos : 0 < n
  first : ∃ d rest, ds = d :: rest ∧ (n - 1) * f.pageSize < (d.code T).length
  full : ∀ j, j + 1 < n → ∃ pd, f.pages[p + j]? = some pd ∧ pd.type = .environment ∧ pd.size.val = 0
  last : ∃ pd, f.pages[p + (n - 1)]? = some pd ∧ pd.type = .environment ∧
    (ds.flatMap (·.code T)).length + pd.size = n * f.pageSize
  holds : f.disk.Holds (p * f.pageSize) (ds.flatMap (·.code T))
  readable : ∀ d ∈ ds, d.Readable T

/-- The environment from page `p` on, as `readFile` goes through it. -/
inductive EnvironmentAt (T : Types τ) (f : ImageFile τ) : ℕ → List (Bytes × Binding τ) → Prop where
  | done : EnvironmentAt T f f.pages.length []
  | skip {p : ℕ} {pd : PageData} {bs : List (Bytes × Binding τ)} (hpd : f.pages[p]? = some pd)
      (htype : pd.type ≠ .environment) (h : EnvironmentAt T f (p + 1) bs) : EnvironmentAt T f p bs
  | run {p n : ℕ} {ds : List (Definition τ)} {bs : List (Bytes × Binding τ)}
      (hrun : f.RunAt T p n ds) (h : EnvironmentAt T f (p + n) bs) :
      EnvironmentAt T f p (bindingsFrom T (p * f.pageSize) ds ++ bs)

variable {f f' : ImageFile τ} {p n pos stop fuel : ℕ} {ds : List (Definition τ)}
  {bs : List (Bytes × Binding τ)}

/-! ### Reading -/

lemma readEnvironmentRecord_eq_some {d : Definition τ} (hd : d.Readable T)
    (hversion : f.version = currentFileFormatVersion) (hold : f.disk.Holds pos (d.code T))
    (hsize : pos + (d.code T).length ≤ f.fileSize) (hlimit : f.fileSize < 2 ^ 63) :
    f.readEnvironmentRecord T pos =
      some (f.bind d.name ⟨d.type, d.offset, pos⟩, pos + (d.code T).length) := by
  rw [readEnvironmentRecord, readAt_eq_some hd.reads hold hsize hlimit]
  simp only [Option.bind_eq_bind, Option.bind_some, hversion, currentFileFormatVersion,
    Nat.one_ne_zero, if_false]
  rfl

/-- The loop ends where the used part of the last page ends. -/
lemma readEnvironmentRecords_eq_some (pos fuel : ℕ) {pd : PageData} (hps : ValidPageSize f.pageSize)
    (hversion : f.version = currentFileFormatVersion) (hlimit : f.fileSize < 2 ^ 63)
    (hpd : f.pages[p]? = some pd) (hstop : stop + pd.size = p * f.pageSize + f.pageSize)
    (hsize : stop ≤ f.fileSize) (hds : ds ≠ []) (hread : ∀ d ∈ ds, d.Readable T)
    (hold : f.disk.Holds pos (ds.flatMap (·.code T)))
    (hpos : pos + (ds.flatMap (·.code T)).length = stop)
    (hfirst : ∀ d ∈ ds.head?, p * f.pageSize < pos + (d.code T).length)
    (hfuel : ds.length ≤ fuel) :
    readEnvironmentRecords T fuel f pos = some (f.bindAll (bindingsFrom T pos ds), stop) := by
  induction ds generalizing f pos fuel with
  | nil => exact (hds rfl).elim
  | cons d ds ih =>
    obtain ⟨fuel, rfl⟩ : ∃ k, fuel = k + 1 := ⟨fuel - 1, by simp at hfuel; omega⟩
    rw [List.flatMap_cons, List.length_append] at hpos
    rw [List.flatMap_cons, Disk.holds_append] at hold
    have hd := hread d List.mem_cons_self
    have hend := hfirst d rfl
    have hrecord := readEnvironmentRecord_eq_some hd hversion hold.1 (by omega) hlimit
    -- the record ends in the last page
    have hdiv : (pos + (d.code T).length - 1) / f.pageSize = p :=
      address_of_range (o := 0) (n := f.pageSize) (by omega) (by omega) (by omega)
    have hmod := Nat.div_add_mod (pos + (d.code T).length - 1) f.pageSize
    rw [hdiv, Nat.mul_comm] at hmod
    have hpsize : (f.bind d.name ⟨d.type, d.offset, pos⟩).pageSize = f.pageSize := rfl
    have hpages : (f.bind d.name ⟨d.type, d.offset, pos⟩).pages = f.pages := rfl
    simp only [readEnvironmentRecords, hrecord, Option.bind_eq_bind, Option.bind_some, hpsize, hpages,
      hdiv, hpd]
    cases ds with
    | nil =>
      rw [List.flatMap_nil, List.length_nil, Nat.add_zero] at hpos
      rw [if_pos (by omega), hpos]
      rfl
    | cons d' ds =>
      have hlen := Definition.code_length (T := T) d'
      have hlen' : ((d' :: ds).flatMap (·.code T)).length =
          (d'.code T).length + (ds.flatMap (·.code T)).length := by
        rw [List.flatMap_cons, List.length_append]
      have hfirst' : ∀ e ∈ (d' :: ds).head?,
          p * f.pageSize < pos + (d.code T).length + (e.code T).length := by
        intro e he
        cases he
        omega
      rw [if_neg (by omega)]
      exact ih _ _ hps hversion hlimit hpd hstop hsize (by simp)
        (fun d hd => hread d (List.mem_cons_of_mem _ hd)) hold.2 (by omega) hfirst'
        (by simpa using hfuel)

lemma pageCount_eq {len : ℕ} (hps : 0 < f.pageSize) (hn : 0 < n) (hlt : (n - 1) * f.pageSize < len)
    (hle : len ≤ n * f.pageSize) : f.pageCount len = n := by
  have hsucc : n = n - 1 + 1 := by omega
  rw [hsucc, Nat.succ_mul] at hle
  obtain ⟨r, rfl⟩ := Nat.exists_eq_add_of_lt hlt
  rw [Nat.add_assoc] at hle ⊢
  obtain hr | hr := Nat.lt_or_ge (r + 1) f.pageSize
  · rw [pageCount, address_div hr, address_mod hr, if_pos (Nat.succ_pos r), ← hsucc]
  · have hr' : r + 1 = f.pageSize := by omega
    rw [hr', ← Nat.succ_mul, pageCount, Nat.mul_mod_left, Nat.mul_div_cancel _ hps,
      if_neg (Nat.lt_irrefl 0), Nat.add_zero]
    exact hsucc.symm

lemma length_le_codes (ds : List (Definition τ)) : ds.length ≤ (ds.flatMap (·.code T)).length := by
  induction ds with
  | nil => exact Nat.le_refl _
  | cons d ds ih =>
    rw [List.length_cons, List.flatMap_cons, List.length_append, Definition.code_length]
    omega

lemma RunAt.length_eq (h : f.RunAt T p n ds) : ∃ pd, f.pages[p + (n - 1)]? = some pd ∧
    pd.type = .environment ∧ pd.size < f.pageSize ∧
    (ds.flatMap (·.code T)).length + pd.size = n * f.pageSize := by
  obtain ⟨d, rest, rfl, hfirst⟩ := h.first
  obtain ⟨pd, hpd, htype, htotal⟩ := h.last
  have hpos := h.pos
  have hn : n * f.pageSize = (n - 1) * f.pageSize + f.pageSize := by
    rw [← Nat.succ_mul]
    congr 1
    omega
  refine ⟨pd, hpd, htype, ?_, htotal⟩
  rw [List.flatMap_cons, List.length_append] at htotal
  omega

lemma RunAt.start (h : f.RunAt T p n ds) : ∃ pd, f.pages[p]? = some pd ∧ pd.type = .environment := by
  by_cases hn : n = 1
  · obtain ⟨pd, hpd, htype, -⟩ := h.last
    rw [hn] at hpd
    exact ⟨pd, hpd, htype⟩
  · have hpos := h.pos
    obtain ⟨pd, hpd, htype, -⟩ := h.full 0 (by omega)
    exact ⟨pd, hpd, htype⟩

lemma bindAll_eq (f : ImageFile τ) (bs : List (Bytes × Binding τ)) :
    ∃ bindings, f.bindAll bs = { f with bindings } := by
  induction bs generalizing f with
  | nil => exact ⟨f.bindings, rfl⟩
  | cons b bs ih =>
    obtain ⟨bindings, h⟩ := ih (f.bind b.1 b.2)
    exact ⟨bindings, h⟩

/-- A run of pages is read whole. -/
lemma RunAt.readEnvironmentPage (h : f.RunAt T p n ds) (hinv : f.Inv)
    (hversion : f.version = currentFileFormatVersion) :
    f.readEnvironmentPage T p = some (f.bindAll (bindingsFrom T (p * f.pageSize) ds), n) := by
  obtain ⟨pd, hpd, htype, hsize, htotal⟩ := h.length_eq
  obtain ⟨d, rest, hds, hfirst⟩ := h.first
  have hpos := h.pos
  have hps := hinv.1.pageSize.min
  have hn : n * f.pageSize = (n - 1) * f.pageSize + f.pageSize := by
    rw [← Nat.succ_mul]
    congr 1
    omega
  have hpn : (p + (n - 1)) * f.pageSize = p * f.pageSize + (n - 1) * f.pageSize := Nat.add_mul ..
  have hlt := (List.getElem?_eq_some_iff.mp hpd).1
  have hle := hinv.1.page_le (p := p + (n - 1)) (by omega)
  have hcodes := length_le_codes (T := T) ds
  have hrecords := readEnvironmentRecords_eq_some (T := T) (p * f.pageSize) f.fileSize hinv.1.pageSize hversion
    hinv.1.limit hpd (by omega) (by omega) (by simp [hds]) h.readable h.holds rfl ?_ (by omega)
  · rw [ImageFile.readEnvironmentPage, pageOffset, Nat.mul_comm, hrecords]
    simp only [Option.bind_eq_bind, Option.bind_some, Nat.add_sub_cancel_left]
    have hlen : (n - 1) * f.pageSize < (ds.flatMap (·.code T)).length := by omega
    have hcount := pageCount_eq (f := f) (by omega) hpos hlen (by omega)
    obtain ⟨m, hm⟩ := f.bindAll_eq (bindingsFrom T (p * f.pageSize) ds)
    rw [hm, ← hcount]
    rfl
  · rintro e he
    rw [hds] at he
    cases he
    omega

section

variable (m : Bytes → Option (Binding τ))

/-- Bindings in memory do not matter to what is in the file. -/
lemma Inv.bindings (h : f.Inv) : ({ f with bindings := m } : ImageFile τ).Inv :=
  ⟨⟨h.1.pageSize, h.1.fileSize, h.1.limit, h.1.cursor, h.1.blank, h.1.tocpages, h.1.extra, h.1.sound,
    h.1.index⟩, h.2⟩

lemma RunAt.bindings (h : f.RunAt T p n ds) : ({ f with bindings := m } : ImageFile τ).RunAt T p n ds :=
  ⟨h.pos, h.first, h.full, h.last, h.holds, h.readable⟩

end

/-- What the environment binds is bound, in the order of the pages. -/
lemma EnvironmentAt.readEnvironment (h : EnvironmentAt T f p bs) (fuel : ℕ) (hinv : f.Inv)
    (hversion : f.version = currentFileFormatVersion) (m : Bytes → Option (Binding τ))
    (hfuel : f.pages.length < p + fuel) :
    ImageFile.readEnvironment T fuel { f with bindings := m } p =
      some (({ f with bindings := m } : ImageFile τ).bindAll bs) := by
  induction h generalizing m fuel with
  | done =>
    obtain ⟨fuel, rfl⟩ : ∃ k, fuel = k + 1 := ⟨fuel - 1, by omega⟩
    simp only [ImageFile.readEnvironment, List.getElem?_eq_none (Nat.le_refl f.pages.length)]
    rfl
  | skip hpd htype h ih =>
    have hlt := (List.getElem?_eq_some_iff.mp hpd).1
    obtain ⟨fuel, rfl⟩ : ∃ k, fuel = k + 1 := ⟨fuel - 1, by omega⟩
    simp only [ImageFile.readEnvironment, hpd, if_neg htype]
    exact ih fuel m (by omega)
  | @run p n ds bs hrun h ih =>
    have hpos := hrun.pos
    obtain ⟨pd, hpd, htype⟩ := hrun.start
    have hlt := (List.getElem?_eq_some_iff.mp hpd).1
    obtain ⟨fuel, rfl⟩ : ∃ k, fuel = k + 1 := ⟨fuel - 1, by omega⟩
    have hpage := (hrun.bindings m).readEnvironmentPage (hinv.bindings m) hversion
    obtain ⟨m', hm'⟩ := ({ f with bindings := m } : ImageFile τ).bindAll_eq
      (bindingsFrom T (p * f.pageSize) ds)
    have happend : ({ f with bindings := m } : ImageFile τ).bindAll
        (bindingsFrom T (p * f.pageSize) ds ++ bs) =
          (({ f with bindings := m } : ImageFile τ).bindAll
            (bindingsFrom T (p * f.pageSize) ds)).bindAll bs := List.foldl_append
    simp only [ImageFile.readEnvironment, hpd, if_pos htype, hpage, Option.bind_eq_bind,
      Option.bind_some]
    rw [happend, hm']
    exact ih fuel m' (by omega)

end ImageFile

end Hobbes.Db
