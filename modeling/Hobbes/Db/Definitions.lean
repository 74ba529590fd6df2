import Hobbes.Db.Environment

/-!
# Definitions survive reopening
-/

namespace Hobbes.Db

open Core

variable {τ : Type} {T : Types τ}

lemma bindingsFrom_append (pos : ℕ) (ds ds' : List (Definition τ)) :
    bindingsFrom T pos (ds ++ ds') =
      bindingsFrom T pos ds ++ bindingsFrom T (pos + (ds.flatMap (·.code T)).length) ds' := by
  induction ds generalizing pos with
  | nil => rfl
  | cons d ds ih =>
    rw [List.cons_append, bindingsFrom, bindingsFrom, ih, List.cons_append, List.flatMap_cons,
      List.length_append, Nat.add_assoc]

namespace ImageFile

variable {f f' : ImageFile τ} {p q n : ℕ} {ds : List (Definition τ)} {d : Definition τ}
  {bs bs' : List (Bytes × Binding τ)} {pd : PageData}

/-! ### Frames -/

/-- To the environment, page `q` of the table is what it was. -/
structure KeepsPage (f f' : ImageFile τ) (q : ℕ) : Prop where
  environment : ∀ pd, f.pages[q]? = some pd → pd.type = .environment → f'.pages[q]? = some pd ∧
    ∀ o, o + pd.size < f.pageSize → f'.disk (q * f.pageSize + o) = f.disk (q * f.pageSize + o)
  other : ∀ pd, f.pages[q]? = some pd → pd.type ≠ .environment →
    ∃ pd', f'.pages[q]? = some pd' ∧ pd'.type ≠ .environment

/-- The bytes of the records are in the used parts of the pages. -/
lemma RunAt.address (h : f.RunAt T p n ds) {i : ℕ} (hi : p * f.pageSize ≤ i)
    (hi' : i < p * f.pageSize + (ds.flatMap (·.code T)).length) :
    ∃ j o pd, j < n ∧ i = (p + j) * f.pageSize + o ∧ f.pages[p + j]? = some pd ∧
      pd.type = .environment ∧ o + pd.size < f.pageSize := by
  obtain ⟨pd, hpd, htype, hsize, htotal⟩ := h.length_eq
  obtain ⟨k, rfl⟩ := Nat.exists_eq_add_of_le hi
  have hps : 0 < f.pageSize := by omega
  have hmod := Nat.mod_lt k hps
  have hk := Nat.div_add_mod k f.pageSize
  have hlt : k / f.pageSize < n := by
    rw [Nat.div_lt_iff_lt_mul hps]
    omega
  have haddr : p * f.pageSize + k = (p + k / f.pageSize) * f.pageSize + k % f.pageSize := by
    rw [Nat.add_mul, Nat.mul_comm (k / f.pageSize)]
    omega
  by_cases hlast : k / f.pageSize + 1 < n
  · obtain ⟨pd', hpd', htype', hfull⟩ := h.full _ hlast
    exact ⟨_, _, pd', hlt, haddr, hpd', htype', by omega⟩
  · have heq : k / f.pageSize = n - 1 :=
      Nat.eq_sub_of_add_eq (Nat.le_antisymm hlt (Nat.le_of_not_lt hlast))
    refine ⟨_, _, pd, hlt, haddr, heq ▸ hpd, htype, ?_⟩
    rw [heq, Nat.mul_comm] at hk
    have hn : n * f.pageSize = (n - 1) * f.pageSize + f.pageSize := by
      rw [← Nat.succ_mul]
      congr 1
      omega
    omega

lemma RunAt.frame (h : f.RunAt T p n ds) (hps : f'.pageSize = f.pageSize)
    (hkeeps : ∀ j < n, f.KeepsPage f' (p + j)) : f'.RunAt T p n ds := by
  refine ⟨h.pos, hps ▸ h.first, fun j hj => ?_, ?_, ?_, h.readable⟩
  · obtain ⟨pd, hpd, htype, hfull⟩ := h.full j hj
    exact ⟨pd, ((hkeeps j (by omega)).environment pd hpd htype).1, htype, hfull⟩
  · obtain ⟨pd, hpd, htype, htotal⟩ := h.last
    have hpos := h.pos
    exact ⟨pd, ((hkeeps _ (by omega)).environment pd hpd htype).1, htype, hps ▸ htotal⟩
  · rw [hps]
    refine h.holds.congr fun i hi hi' => ?_
    obtain ⟨j, o, pd, hj, rfl, hpd, htype, ho⟩ := h.address hi hi'
    exact ((hkeeps j hj).environment pd hpd htype).2 o ho

/-- Pages that are kept, with others behind them. -/
lemma EnvironmentAt.frame (h : EnvironmentAt T f p bs) (hps : f'.pageSize = f.pageSize)
    (hkeeps : ∀ q, p ≤ q → f.KeepsPage f' q) (htail : EnvironmentAt T f' f.pages.length bs') :
    EnvironmentAt T f' p (bs ++ bs') := by
  induction h with
  | done => exact htail
  | skip hpd htype h ih =>
    obtain ⟨pd', hpd', htype'⟩ := (hkeeps _ (Nat.le_refl _)).other _ hpd htype
    exact .skip hpd' htype' (ih fun q hq => hkeeps q (by omega))
  | @run p n ds bs hrun h ih =>
    have hrun' := hrun.frame hps fun j _ => hkeeps (p + j) (by omega)
    rw [List.append_assoc, ← hps]
    exact .run hrun' (ih fun q hq => hkeeps q (by omega))

/-- Pages of something else at the end. -/
lemma EnvironmentAt.skips (hp : p ≤ f.pages.length)
    (hskip : ∀ q pd, p ≤ q → f.pages[q]? = some pd → pd.type ≠ .environment) :
    EnvironmentAt T f p [] := by
  obtain ⟨k, hk⟩ := Nat.exists_eq_add_of_le hp
  induction k generalizing p with
  | zero =>
    rw [Nat.add_zero] at hk
    exact hk ▸ .done
  | succ k ih =>
    have hget := List.getElem?_eq_getElem (l := f.pages) (i := p) (by omega)
    exact .skip hget (hskip p _ (Nat.le_refl p) hget)
      (ih (by omega) (fun q pd hq => hskip q pd (by omega)) (by omega))

/-! ### A new record -/

/-- A record in the free space of the last page of a run. -/
lemma RunAt.concat (h : f.RunAt T p n ds) (hpd : f.pages[p + (n - 1)]? = some pd)
    (hps : f'.pageSize = f.pageSize) (hd : d.Readable T) (hsize : (d.code T).length ≤ pd.size)
    (hkeeps : ∀ j, j + 1 < n → f.KeepsPage f' (p + j))
    (hpd' : f'.pages[p + (n - 1)]? = some (.make .environment (pd.size - (d.code T).length)))
    (hdisk : ∀ o, o + pd.size < f.pageSize →
      f'.disk ((p + (n - 1)) * f.pageSize + o) = f.disk ((p + (n - 1)) * f.pageSize + o))
    (hhold : f'.disk.Holds ((p + (n - 1)) * f.pageSize + (f.pageSize - pd.size)) (d.code T)) :
    f'.RunAt T p n (ds ++ [d]) ∧ bindingsFrom T (p * f.pageSize) (ds ++ [d]) =
      bindingsFrom T (p * f.pageSize) ds ++
        [(d.name, ⟨d.type, d.offset, (p + (n - 1)) * f.pageSize + (f.pageSize - pd.size)⟩)] := by
  obtain ⟨pd₀, hpd₀, htype, hlt, htotal⟩ := h.length_eq
  obtain rfl : pd = pd₀ := Option.some.inj (hpd.symm.trans hpd₀)
  obtain ⟨d₀, rest, hds, hfirst⟩ := h.first
  have hpos := h.pos
  have hn : n * f.pageSize = (n - 1) * f.pageSize + f.pageSize := by
    rw [← Nat.succ_mul]
    congr 1
    omega
  have hend : (p + (n - 1)) * f.pageSize + (f.pageSize - pd.size) =
      p * f.pageSize + (ds.flatMap (·.code T)).length := by
    rw [Nat.add_mul]
    omega
  have hmake : (PageData.make .environment (pd.size - (d.code T).length)).size.val =
      pd.size - (d.code T).length := PageData.make_size (by omega)
  rw [hend] at hhold ⊢
  refine ⟨⟨hpos, ⟨d₀, rest ++ [d], by rw [hds, List.cons_append], hps ▸ hfirst⟩, fun j hj => ?_,
    ⟨_, hpd', rfl, ?_⟩, ?_, ?_⟩, ?_⟩
  · obtain ⟨pd', hpd', htype', hfull⟩ := h.full j hj
    exact ⟨pd', ((hkeeps j hj).environment pd' hpd' htype').1, htype', hfull⟩
  · rw [hps, hmake, List.flatMap_append, List.length_append, List.flatMap_singleton]
    omega
  · rw [hps, List.flatMap_append, List.flatMap_singleton, Disk.holds_append]
    refine ⟨h.holds.congr fun i hi hi' => ?_, hhold⟩
    obtain ⟨j, o, pd', hj, rfl, hpd₁, htype', ho⟩ := h.address hi hi'
    by_cases hlast : j + 1 < n
    · exact ((hkeeps j hlast).environment pd' hpd₁ htype').2 o ho
    · obtain rfl : j = n - 1 := by omega
      obtain rfl : pd = pd' := Option.some.inj (hpd.symm.trans hpd₁)
      exact hdisk o ho
  · exact List.forall_mem_append.mpr ⟨h.readable, by simpa using hd⟩
  · rw [bindingsFrom_append]
    rfl

lemma EnvironmentAt.concat (h : EnvironmentAt T f p bs) (hq : p ≤ q) (hpd : f.pages[q]? = some pd)
    (htype : pd.type = .environment) (hps : f'.pageSize = f.pageSize)
    (hlength : f'.pages.length = f.pages.length) (hd : d.Readable T)
    (hsize : (d.code T).length ≤ pd.size) (hkeeps : ∀ q', q' ≠ q → f.KeepsPage f' q')
    (hpd' : f'.pages[q]? = some (.make .environment (pd.size - (d.code T).length)))
    (hdisk : ∀ o, o + pd.size < f.pageSize →
      f'.disk (q * f.pageSize + o) = f.disk (q * f.pageSize + o))
    (hhold : f'.disk.Holds (q * f.pageSize + (f.pageSize - pd.size)) (d.code T)) :
    ∃ bs', EnvironmentAt T f' p bs' ∧
      bs'.Perm ((d.name, ⟨d.type, d.offset, q * f.pageSize + (f.pageSize - pd.size)⟩) :: bs) := by
  have hcode := Definition.code_length (T := T) d
  induction h with
  | done =>
    have := (List.getElem?_eq_some_iff.mp hpd).1
    omega
  | @skip p pd₀ bs hpd₀ htype₀ h ih =>
    have hne : p ≠ q := by
      rintro rfl
      rw [hpd, Option.some.injEq] at hpd₀
      exact htype₀ (hpd₀ ▸ htype)
    obtain ⟨pd₁, hpd₁, htype₁⟩ := (hkeeps p hne).other _ hpd₀ htype₀
    obtain ⟨bs', henv, hperm⟩ := ih (by omega)
    exact ⟨bs', .skip hpd₁ htype₁ henv, hperm⟩
  | @run p n ds bs hrun h ih =>
    have hpos := hrun.pos
    by_cases hin : q < p + n
    · -- only the last page of a run has free space
      obtain rfl : q = p + (n - 1) := by
        by_contra hne
        obtain ⟨pd₀, hpd₀, -, hfull⟩ := hrun.full (q - p) (by omega)
        rw [Nat.add_sub_cancel' hq, hpd, Option.some.injEq] at hpd₀
        subst hpd₀
        omega
      obtain ⟨hrun', hbs⟩ := hrun.concat hpd hps hd hsize (fun j hj => hkeeps _ (by omega)) hpd' hdisk hhold
      have hrest := h.frame hps (fun q' hq' => hkeeps q' (by omega)) (hlength ▸ EnvironmentAt.done)
      rw [List.append_nil] at hrest
      refine ⟨_, .run hrun' hrest, ?_⟩
      rw [hps, hbs, List.append_assoc, List.singleton_append]
      exact List.perm_middle
    · have hrun' := hrun.frame hps fun j hj => hkeeps (p + j) (by omega)
      obtain ⟨bs', henv, hperm⟩ := ih (by omega)
      refine ⟨_, .run hrun' henv, ?_⟩
      rw [hps]
      exact (hperm.append_left _).trans List.perm_middle

/-- A record in new pages. -/
lemma RunAt.new (hps : 0 < f.pageSize) (hmax : f.pageSize < 2 ^ 14) (hps' : f'.pageSize = f.pageSize)
    (hd : d.Readable T) {rest : List PageData}
    (hpages : f'.pages = f.pages ++ f.newPages .environment (d.code T).length ++ rest)
    (hhold : f'.disk.Holds (f.pages.length * f.pageSize) (d.code T)) :
    f'.RunAt T f.pages.length (f.pageCount (d.code T).length) [d] := by
  have hlen : 0 < (d.code T).length := by
    rw [Definition.code_length]
    omega
  have hget : ∀ j pd, (f.newPages .environment (d.code T).length)[j]? = some pd →
      f'.pages[f.pages.length + j]? = some pd := by
    intro j pd hpd
    rw [hpages, List.append_assoc, List.getElem?_append_right (Nat.le_add_right ..),
      Nat.add_sub_cancel_left]
    exact getElem?_of_prefix (List.prefix_append ..) hpd
  obtain ⟨pd, hpd, htype, htotal⟩ :=
    newPages_last .environment (d.code T).length hps hmax
  refine ⟨pageCount_pos hlen, ⟨d, [], rfl, hps' ▸ lt_of_pageCount hps hlen⟩,
    fun j hj => ⟨_, hget j _ (newPages_full hj), rfl, rfl⟩, ⟨pd, hget _ pd hpd, htype, ?_⟩, ?_, ?_⟩
  · rw [hps', List.flatMap_singleton]
    exact htotal
  · rw [hps', List.flatMap_singleton]
    exact hhold
  · simpa using hd

/-! ### Definitions -/

/-- The environment on disk binds what is bound in memory. -/
def Recorded (T : Types τ) (f : ImageFile τ) : Prop :=
  ∃ bs, EnvironmentAt T f 0 bs ∧ (bs.map Prod.fst).Nodup ∧
    ∀ name b, f.bindings name = some b ↔ (name, b) ∈ bs

/-- Nothing but other pages changes. -/
lemma Recorded.frame (h : f.Recorded T) (hps : f'.pageSize = f.pageSize)
    (hbindings : f'.bindings = f.bindings) (hkeeps : ∀ q, f.KeepsPage f' q)
    (hlength : f.pages.length ≤ f'.pages.length)
    (hnew : ∀ q pd, f.pages.length ≤ q → f'.pages[q]? = some pd → pd.type ≠ .environment) :
    f'.Recorded T := by
  obtain ⟨bs, henv, hnodup, hbs⟩ := h
  have henv' := henv.frame hps (fun q _ => hkeeps q) (.skips hlength hnew)
  rw [List.append_nil] at henv'
  exact ⟨bs, henv', hnodup, hbindings ▸ hbs⟩

lemma KeepsPage.of_keeps (hkeeps : f.Keeps f') (hpages : ∀ pd, f.pages[q]? = some pd →
    f'.pages[q]? = some pd ∨ pd.type ≠ .environment ∧
      ∃ pd', f'.pages[q]? = some pd' ∧ pd'.type ≠ .environment) : f.KeepsPage f' q := by
  constructor
  · intro pd hpd htype
    obtain hpd' | ⟨hne, -⟩ := hpages pd hpd
    · refine ⟨hpd', fun o ho => hkeeps.disk _ (.inr ⟨pd, ?_, ?_⟩)⟩
      · rw [address_div (by omega)]
        exact hpd
      · rw [htype]
        decide
    · exact (hne htype).elim
  · intro pd hpd htype
    obtain hpd' | ⟨-, h'⟩ := hpages pd hpd
    · exact ⟨pd, hpd', htype⟩
    · exact h'

/-- Space for data is none of the environment. -/
lemma Recorded.findSpace {pos datalen alignment : ℕ} (h : f.Recorded T) (hinv : f.Inv)
    (hlen : datalen < 2 ^ 63) (hf' : f.findSpace .data datalen alignment = some (pos, f')) :
    f'.Recorded T := by
  obtain ⟨-, hkeeps, -, ⟨page, pd, pad, hpd, htype, -, -, -, hpages, -⟩ | ⟨-, c, hpages⟩⟩ :=
    hinv.findSpace (.inr rfl) hlen hf'
  · refine h.frame hkeeps.pageSize hkeeps.bindings (fun q => .of_keeps hkeeps fun pd' hpd' => ?_)
      (Nat.le_of_eq (by rw [hpages, List.length_set])) fun q pd' hq hpd' => ?_
    · rw [hpages]
      by_cases hqp : page = q
      · subst hqp
        rw [hpd, Option.some.injEq] at hpd'
        refine .inr ⟨?_, _, List.getElem?_set_self (List.getElem?_eq_some_iff.mp hpd).1,
          fun h => by cases h⟩
        rw [← hpd', htype]
        decide
      · rw [List.getElem?_set_ne hqp]
        exact .inl hpd'
    · rw [hpages, List.getElem?_eq_none (by rwa [List.length_set])] at hpd'
      cases hpd'
  · rw [List.append_assoc] at hpages
    refine h.frame hkeeps.pageSize hkeeps.bindings
      (fun q => .of_keeps hkeeps fun pd hpd => .inl ?_) (by simp [hpages]) fun q pd hq hpd => ?_
    · rw [hpages]
      exact getElem?_of_prefix (List.prefix_append ..) hpd
    · rw [hpages, List.getElem?_append_right hq] at hpd
      obtain hmem | hmem := List.mem_append.mp (List.mem_of_getElem? hpd)
      · rw [type_of_mem_newPages hmem]
        decide
      · rw [List.eq_of_mem_replicate hmem]
        decide

lemma Recorded.bind {name : Bytes} {b : Binding τ} (henv : EnvironmentAt T f' 0 bs')
    (hperm : bs'.Perm ((name, b) :: bs)) (hnodup : (bs.map Prod.fst).Nodup)
    (hbs : ∀ name b, f.bindings name = some b ↔ (name, b) ∈ bs) (hname : f.bindings name = none)
    (hf' : f'.bindings = Function.update f.bindings name (some b)) : f'.Recorded T := by
  have hnew : ∀ b', (name, b') ∉ bs := by
    intro b' hmem
    rw [← hbs, hname] at hmem
    cases hmem
  refine ⟨bs', henv, ?_, fun name' b' => ?_⟩
  · rw [(hperm.map _).nodup_iff, List.map_cons, List.nodup_cons]
    refine ⟨fun hmem => ?_, hnodup⟩
    obtain ⟨⟨_, b'⟩, hmem', rfl⟩ := List.mem_map.mp hmem
    exact hnew b' hmem'
  · rw [hperm.mem_iff, List.mem_cons, hf']
    by_cases hn : name' = name
    · subst hn
      rw [Function.update_self]
      have := hnew b'
      simp only [this, or_false, Prod.mk.injEq, Option.some.injEq, true_and]
      exact eq_comm
    · rw [Function.update_of_ne hn, hbs]
      simp [hn]

/-- A record is where the environment is read. -/
lemma Recorded.addBinding (h : f.Recorded T) (hinv : f.Inv) (hhead : f.Headed) (hd : d.Readable T)
    (hname : f.bindings d.name = none) (hf' : f.addBinding T d.name d.type d.offset = some f') :
    f'.Inv ∧ f'.Headed ∧ f'.Recorded T := by
  have hps := hinv.1.pageSize.min
  have hmax := hinv.1.pageSize.max
  simp only [ImageFile.addBinding, Option.bind_eq_bind, Option.bind_eq_some_iff] at hf'
  rw [← Definition.code_length (T := T)] at hf'
  obtain ⟨⟨boffset, g⟩, hg, hf'⟩ := hf'
  obtain rfl := Option.some.inj hf'
  obtain ⟨hginv, hkeeps, hpos, hspace⟩ := hinv.findSpace (.inl rfl) hd.size hg
  obtain ⟨-, hused⟩ := hinv.findSpace_used (.inl rfl) hd.size hg
  have hstored : ∀ i, boffset ≤ i → i < boffset + (d.code T).length → g.Stored i :=
    fun i hi hi' => (hused i hi hi').2.stored
  have hheaded := (hhead.keeps hkeeps).write hginv hstored
  refine ⟨(hginv.write hstored).bindings _, ⟨hheaded.version, hheaded.head⟩, ?_⟩
  obtain ⟨bs, henv, hnodup, hbs⟩ := h
  have hbindings : ((g.write boffset (recordBytes T d.name d.type d.offset)).bind d.name
      ⟨d.type, d.offset, boffset⟩).bindings =
        Function.update f.bindings d.name (some ⟨d.type, d.offset, boffset⟩) := by
    rw [← hkeeps.bindings]
    rfl
  -- what was used of the environment is not written to
  have hdisk : ∀ q pd o, f.pages[q]? = some pd → pd.type = .environment → o + pd.size < f.pageSize →
      g.disk.write boffset (d.code T) (q * f.pageSize + o) = f.disk (q * f.pageSize + o) := by
    intro q pd o hpd htype ho
    have hget : f.pages[(q * f.pageSize + o) / f.pageSize]? = some pd := by
      rw [address_div (by omega)]
      exact hpd
    have htoc : pd.type ≠ .toc := by
      rw [htype]
      decide
    rw [Disk.write_outside]
    · exact hkeeps.disk _ (.inr ⟨pd, hget, htoc⟩)
    · by_contra hin
      refine (hused (q * f.pageSize + o) (by omega) (by omega)).1 ⟨pd, hget, htoc, ?_⟩
      rwa [address_mod (by omega)]
  obtain ⟨page, pd, pad, hpd, htype, hspace, hpad, rfl, hpages, -⟩ | ⟨rfl, c, hpages⟩ := hspace
  · obtain rfl := hpad rfl
    rw [Nat.add_zero] at hpages hspace hbindings hdisk ⊢
    have hset : g.pages[page]? = some (.make .environment (pd.size - (d.code T).length)) := by
      rw [hpages, List.getElem?_set_self (List.getElem?_eq_some_iff.mp hpd).1]
    have hkeepsPage : ∀ q', q' ≠ page → f.KeepsPage ((g.write (page * f.pageSize + (f.pageSize - pd.size))
        (recordBytes T d.name d.type d.offset)).bind d.name
          ⟨d.type, d.offset, page * f.pageSize + (f.pageSize - pd.size)⟩) q' := by
      intro q' hq'
      have hget : ∀ pd', f.pages[q']? = some pd' → g.pages[q']? = some pd' := by
        intro pd' hpd'
        rwa [hpages, List.getElem?_set_ne (Ne.symm hq')]
      exact ⟨fun pd' hpd' htype' => ⟨hget pd' hpd', fun o => hdisk q' pd' o hpd' htype'⟩,
        fun pd' hpd' htype' => ⟨pd', hget pd' hpd', htype'⟩⟩
    obtain ⟨bs', henv', hperm⟩ := henv.concat (Nat.zero_le _) hpd htype
      (by exact hkeeps.pageSize) (by show g.pages.length = _; rw [hpages, List.length_set]) hd hspace hkeepsPage
      (by exact hset) (fun o => hdisk page pd o hpd htype) (Disk.holds_write ..)
    exact .bind henv' hperm hnodup hbs hname hbindings
  · have hfile := hinv.1.fileSize
    rw [Nat.add_zero] at hfile
    have hlen := newPages_length (f := f) .environment hpos
    have hget : ∀ (q : ℕ) (pd : PageData), f.pages[q]? = some pd → g.pages[q]? = some pd := by
      intro q pd hpd
      rw [hpages, List.append_assoc]
      exact getElem?_of_prefix (List.prefix_append ..) hpd
    have hrun : ((g.write f.fileSize (recordBytes T d.name d.type d.offset)).bind d.name
        ⟨d.type, d.offset, f.fileSize⟩).RunAt T f.pages.length (f.pageCount (d.code T).length) [d] :=
      .new (by omega) hmax (by exact hkeeps.pageSize) hd hpages (hfile ▸ Disk.holds_write ..)
    have htail : EnvironmentAt T ((g.write f.fileSize (recordBytes T d.name d.type d.offset)).bind
        d.name ⟨d.type, d.offset, f.fileSize⟩) (f.pages.length + f.pageCount (d.code T).length) [] := by
      refine .skips ?_ fun q pd hq hpd => ?_
      · show _ ≤ g.pages.length
        simp only [hpages, List.length_append, hlen]
        omega
      · replace hpd : g.pages[q]? = some pd := hpd
        rw [hpages, List.getElem?_append_right (by rw [List.length_append, hlen]; exact hq)] at hpd
        rw [List.eq_of_mem_replicate (List.mem_of_getElem? hpd)]
        exact fun htype => by cases htype
    have hps' : ((g.write f.fileSize (recordBytes T d.name d.type d.offset)).bind d.name
      ⟨d.type, d.offset, f.fileSize⟩).pageSize = f.pageSize := hkeeps.pageSize
    have henv' := henv.frame hps' (fun q _ => ⟨fun pd hpd htype => ⟨hget q pd hpd, fun o => hdisk q pd o hpd htype⟩,
        fun pd hpd htype => ⟨pd, hget q pd hpd, htype⟩⟩) (.run hrun htail)
    refine .bind henv' ?_ hnodup hbs hname hbindings
    rw [hps', ← hfile]
    exact List.perm_append_comm

/-! ### Runs -/

end ImageFile

/-- Everything that `readFile` has to find again is on disk. -/
structure Durable (T : Types τ) (f : ImageFile τ) : Prop where
  inv : f.Inv
  headed : f.Headed
  recorded : f.Recorded T

inductive DbEvent (τ : Type) where
  | allocNamed (vn : Bytes) (ty : τ) (datasz : ℕ)
  /-- whoever has a pointer to data writes to it -/
  | store (pos : ℕ) (bs : Bytes)
  | readFile

def DbEvent.step (T : Types τ) : DbEvent τ → ImageFile τ → Option (ImageFile τ)
  | .allocNamed vn ty datasz, f => f.allocNamed T vn ty datasz
  | .store pos bs, f =>
    if ∀ k < bs.length, (f.pages[(pos + k) / f.pageSize]?.map PageData.type) = some .data then
      some (f.write pos bs)
    else none
  | .readFile, f => ImageFile.readFile T f.fileSize f.disk

/-- The codec takes the type back, and the record is no longer than a file can be. -/
def DbEvent.Representable (T : Types τ) : DbEvent τ → ImageFile τ → Prop
  | .allocNamed vn ty _, _ =>
    T.decode (T.encode ty) = some ty ∧ 24 + vn.length + (T.encode ty).length < 2 ^ 63
  | _, _ => True

instance [DecidableEq τ] (T : Types τ) : ∀ e (f : ImageFile τ), Decidable (DbEvent.Representable T e f)
  | .allocNamed vn ty _, _ => inferInstanceAs (Decidable
      (T.decode (T.encode ty) = some ty ∧ 24 + vn.length + (T.encode ty).length < 2 ^ 63))
  | .store _ _, _ => isTrue trivial
  | .readFile, _ => isTrue trivial

variable {f f' f₀ : ImageFile τ}

lemma ImageFile.bindAll_bindings {bs : List (Bytes × Binding τ)} (name : Bytes) (b : Binding τ)
    (hnodup : (bs.map Prod.fst).Nodup) : (f.bindAll bs).bindings name = some b ↔
      (name, b) ∈ bs ∨ name ∉ bs.map Prod.fst ∧ f.bindings name = some b := by
  induction bs generalizing f with
  | nil => simp [bindAll]
  | cons c bs ih =>
    rw [List.map_cons, List.nodup_cons] at hnodup
    have hcons : f.bindAll (c :: bs) = (f.bind c.1 c.2).bindAll bs := rfl
    rw [hcons, ih hnodup.2, List.mem_cons, List.map_cons, List.mem_cons]
    by_cases hname : name = c.1
    · subst hname
      have hmem : (c.1, b) ∉ bs := fun h => hnodup.1 (List.mem_map.mpr ⟨_, h, rfl⟩)
      simp only [hmem, hnodup.1, bind, Function.update_self, Prod.ext_iff, Option.some.injEq]
      simp [eq_comm]
    · have hne : (name, b) ≠ c := by
        rintro rfl
        exact hname rfl
      simp [hname, hne, bind]

/-- What was on disk is read back. -/
lemma Durable.readFile (h : Durable T f) :
    ImageFile.readFile T f.fileSize f.disk = some { f with freespace := fun _ => [] } := by
  obtain ⟨bs, henv, hnodup, hbs⟩ := h.recorded
  have henv' : ImageFile.EnvironmentAt T f.forget 0 (bs ++ []) :=
    henv.frame rfl (fun q _ => ⟨fun pd hpd _ => ⟨hpd, fun _ _ => rfl⟩, fun pd hpd htype => ⟨pd, hpd, htype⟩⟩)
      .done
  rw [List.append_nil] at henv'
  have hread := henv'.readEnvironment (f.pages.length + 1) h.inv.forget h.headed.version
    (fun _ => none) (by show f.pages.length < _; omega)
  rw [h.inv.readFile h.headed]
  refine hread.trans ?_
  obtain ⟨m, hm⟩ := f.forget.bindAll_eq bs
  have hbindings : m = f.bindings := by
    funext name
    apply Option.ext
    intro b
    have hmem := ImageFile.bindAll_bindings (f := f.forget) name b hnodup
    rw [hm] at hmem
    rw [hmem, hbs]
    simp [ImageFile.forget]
  show some (f.forget.bindAll bs) = _
  rw [hm, hbindings]
  rfl

lemma Durable.allocNamed {vn : Bytes} {ty : τ} {datasz : ℕ} (h : Durable T f)
    (htype : T.decode (T.encode ty) = some ty)
    (hsize : 24 + vn.length + (T.encode ty).length < 2 ^ 63)
    (hf' : f.allocNamed T vn ty datasz = some f') : Durable T f' := by
  simp only [ImageFile.allocNamed, Option.bind_eq_bind, Option.bind_eq_some_iff,
    Option.guard_eq_some'] at hf'
  obtain ⟨-, hname, align, -, ⟨dloc, g⟩, hg, g', hg', -, hlen, hf'⟩ := hf'
  obtain rfl := Option.some.inj hf'
  obtain ⟨hinv, hkeeps, hpos, -⟩ := h.inv.findSpace (.inr rfl) hlen hg
  obtain ⟨-, hused⟩ := h.inv.findSpace_used (.inr rfl) hlen hg
  have hdloc := (hused dloc (Nat.le_refl _) (by omega)).2.stored.lt hinv
  have hlimit := hinv.1.limit
  have hd : Definition.Readable T ⟨vn, ty, dloc⟩ := by
    refine ⟨?_, by show dloc < 2 ^ 64; omega, htype⟩
    rw [Definition.code_length]
    show 8 + (8 + vn.length) + (8 + (T.encode ty).length) < 2 ^ 63
    omega
  have hnone : g.bindings vn = none := by
    rw [hkeeps.bindings]
    exact Option.isNone_iff_eq_none.mp hname
  obtain ⟨hinv', hheaded', hrecorded'⟩ :=
    (h.recorded.findSpace h.inv hlen hg).addBinding (d := ⟨vn, ty, dloc⟩) hinv (h.headed.keeps hkeeps) hd
      hnone hg'
  exact ⟨hinv', hheaded', hrecorded'⟩

lemma Durable.step {e : DbEvent τ} (h : Durable T f) (he : e.Representable T f)
    (hf' : DbEvent.step T e f = some f') : Durable T f' := by
  cases e with
  | allocNamed vn ty datasz => exact h.allocNamed he.1 he.2 hf'
  | store pos bs =>
    simp only [DbEvent.step, Option.ite_none_right_eq_some, Option.some.injEq] at hf'
    obtain ⟨hdata, rfl⟩ := hf'
    have htype : ∀ i, pos ≤ i → i < pos + bs.length →
        ∃ pd, f.pages[i / f.pageSize]? = some pd ∧ pd.type = .data := by
      intro i hi hi'
      have h := hdata (i - pos) (by omega)
      rwa [Nat.add_sub_cancel' hi, Option.map_eq_some_iff] at h
    have hstored : ∀ i, pos ≤ i → i < pos + bs.length → f.Stored i := by
      intro i hi hi'
      obtain ⟨pd, hpd, htype⟩ := htype i hi hi'
      exact ⟨pd, hpd, htype ▸ by decide⟩
    refine ⟨h.inv.write hstored, h.headed.write h.inv hstored,
      h.recorded.frame rfl rfl (fun q => ⟨fun pd hpd henv => ⟨hpd, fun o ho => ?_⟩,
        fun pd hpd henv => ⟨pd, hpd, henv⟩⟩) (Nat.le_refl _) fun q pd hq hpd => ?_⟩
    · apply Disk.write_outside
      by_contra hin
      obtain ⟨pd', hpd', hdata'⟩ := htype (q * f.pageSize + o) (by omega) (by omega)
      rw [address_div (by omega), hpd, Option.some.injEq] at hpd'
      rw [← hpd', henv] at hdata'
      cases hdata'
    · have hpd' : f.pages[q]? = some pd := hpd
      rw [List.getElem?_eq_none hq] at hpd'
      cases hpd'
  | readFile =>
    obtain rfl := Option.some.inj (h.readFile.symm.trans hf')
    refine ⟨h.inv.forget.bindings f.bindings, ⟨h.headed.version, h.headed.head⟩,
      h.recorded.frame rfl rfl (fun q => ⟨fun pd hpd _ => ⟨hpd, fun _ _ => rfl⟩,
        fun pd hpd htype => ⟨pd, hpd, htype⟩⟩) (Nat.le_refl _) fun q pd hq hpd => ?_⟩
    have hpd' : f.pages[q]? = some pd := hpd
    rw [List.getElem?_eq_none hq] at hpd'
    cases hpd'

lemma createFile_durable {psize : ℕ} (h : ImageFile.createFile psize = some f) : Durable T f := by
  obtain ⟨hinv, hheaded⟩ := ImageFile.createFile_inv h
  simp only [ImageFile.createFile, Option.bind_eq_bind, Option.bind_eq_some_iff] at h
  obtain ⟨ps, hps, h⟩ := h
  obtain rfl := Option.some.inj h
  refine ⟨hinv, hheaded, [], .skips (Nat.zero_le _) fun q pd _ hpd => ?_, .nil, fun name b => by simp⟩
  have hpd' : pd ∈ [PageData.make .toc 0] := List.mem_of_getElem? hpd
  rw [List.mem_singleton.mp hpd']
  exact fun htype => by cases htype

/-- At any point of a run from a new file, opening the file gives the page table, the pages of
descriptors, the head and the bindings that there are in memory. -/
theorem readFile_recovers [DecidableEq τ] {psize : ℕ} (hf₀ : ImageFile.createFile psize = some f₀)
    (h : Reachable (guarded (DbEvent.Representable T) (DbEvent.step T)) f₀ f) :
    ∃ f', ImageFile.readFile T f.fileSize f.disk = some f' ∧ f'.pages = f.pages ∧
      f'.tocpages = f.tocpages ∧ f'.headTocPos = f.headTocPos ∧ f'.bindings = f.bindings := by
  have hdurable : Durable T f := by
    refine h.invariant (P := Durable T) (createFile_durable hf₀) ?_
    intro e f f' hf hstep
    obtain ⟨he, hstep⟩ := guarded_eq_some.mp hstep
    exact hf.step he hstep
  exact ⟨_, hdurable.readFile, rfl, rfl, rfl, rfl⟩

/-- Two definitions, of a value in one page and of one in two, and a write to the first. -/
theorem readFile_recovers_two :
    ∃ f f' : ImageFile Bool, f.pages.map PageData.type = [.toc, .data, .environment, .data, .data] ∧
      ImageFile.readFile ⟨fun _ => some 8, fun b => [b.toUInt8], fun bs => some (bs == [1]), id⟩
        f.fileSize f.disk = some f' ∧ f'.pages = f.pages ∧ f'.tocpages = f.tocpages ∧
      f'.headTocPos = f.headTocPos ∧ f'.bindings = f.bindings := by
  have hs : ∃ f₀ f : ImageFile Bool, ImageFile.createFile 256 = some f₀ ∧
      runEvents (guarded
          (DbEvent.Representable
            ⟨fun _ => some 8, fun b => [b.toUInt8], fun bs => some (bs == [1]), id⟩)
          (DbEvent.step ⟨fun _ => some 8, fun b => [b.toUInt8], fun bs => some (bs == [1]), id⟩))
        [.allocNamed [97] true 100, .store 300 [7], .allocNamed [98] false 300] f₀ = some f ∧
      f.pages.map PageData.type = [.toc, .data, .environment, .data, .data] :=
    ⟨_, _, rfl, rfl, rfl⟩
  obtain ⟨f₀, f, hf₀, hrun, hpages⟩ := hs
  obtain ⟨f', h⟩ := readFile_recovers hf₀ (Reachable.start.runEvents hrun)
  exact ⟨f, f', hpages, h⟩

end Hobbes.Db
