import Hobbes.Regex.Nfa

/-!
# What the NFA accepts

What is read on the way through the states of an expression: the strings that lead back to the state where it begins,
and those that lead on. Since a loop goes through its own state, an expression that begins with a loop inside another
one can be left in between, and more is read than the expression denotes.
-/

namespace Hobbes.Regex

open Core Computability

/-! ### The strings of an expression -/

/-- The strings that lead back to where an expression begins, and those that lead behind it. -/
def readings : Regex → Language UInt8 × Language UInt8
  | .reps => (0, 1)
  | .rcharRange b e => (0, charLang fun c => b ≤ c ∧ c ≤ e)
  | .rstar v => (v.readings.1 + v.readings.2, 1)
  | .reither lhs rhs => (0, lhs.readings.1∗ * lhs.readings.2 + rhs.readings.1∗ * rhs.readings.2)
  | .rseq lhs rhs => (lhs.readings.1, lhs.readings.2 * (rhs.readings.1∗ * rhs.readings.2))
  | .rbind _ defn => defn.readings

def loops (r : Regex) : Language UInt8 := r.readings.1

def exits (r : Regex) : Language UInt8 := r.readings.2

/-- What the states of an expression read. -/
def built (r : Regex) : Language UInt8 := r.loops∗ * r.exits

section Readings

variable (b e : UInt8) (v lhs rhs defn : Regex) (var : List UInt8)

@[simp] lemma loops_reps : reps.loops = 0 := rfl
@[simp] lemma exits_reps : reps.exits = 1 := rfl
@[simp] lemma loops_rcharRange : (rcharRange b e).loops = 0 := rfl
@[simp] lemma exits_rcharRange : (rcharRange b e).exits = charLang fun c => b ≤ c ∧ c ≤ e := rfl
@[simp] lemma loops_rstar : (rstar v).loops = v.loops + v.exits := rfl
@[simp] lemma exits_rstar : (rstar v).exits = 1 := rfl
@[simp] lemma loops_reither : (reither lhs rhs).loops = 0 := rfl
@[simp] lemma exits_reither : (reither lhs rhs).exits = lhs.built + rhs.built := rfl
@[simp] lemma loops_rseq : (rseq lhs rhs).loops = lhs.loops := rfl
@[simp] lemma exits_rseq : (rseq lhs rhs).exits = lhs.exits * rhs.built := rfl
@[simp] lemma loops_rbind : (rbind var defn).loops = defn.loops := rfl
@[simp] lemma exits_rbind : (rbind var defn).exits = defn.exits := rfl

@[simp] lemma built_reps : reps.built = 1 := by simp [built]
@[simp] lemma built_rcharRange : (rcharRange b e).built = charLang fun c => b ≤ c ∧ c ≤ e := by simp [built]
@[simp] lemma built_rstar : (rstar v).built = (v.loops + v.exits)∗ := by simp [built]
@[simp] lemma built_reither : (reither lhs rhs).built = lhs.built + rhs.built := by simp [built]
@[simp] lemma built_rseq : (rseq lhs rhs).built = lhs.built * rhs.built := by simp [built, mul_assoc]
@[simp] lemma built_rbind : (rbind var defn).built = defn.built := rfl

end Readings

/-- Whatever an expression denotes is read. -/
lemma lang_le_built (r : Regex) : r.lang ≤ r.built := by
  induction r with
  | reps => rw [lang, built_reps]
  | rcharRange b e => rw [lang_rcharRange, built_rcharRange]
  | rstar v ih =>
    have hbody : v.built ≤ (v.loops + v.exits)∗ := by
      calc v.built = v.loops∗ * v.exits := rfl
        _ ≤ (v.loops + v.exits)∗ * (v.loops + v.exits)∗ :=
          mul_le_mul' (kstar_mono le_self_add) ((le_add_self).trans le_kstar)
        _ = (v.loops + v.exits)∗ := kstar_mul_kstar _
    rw [lang, built_rstar]
    calc v.lang∗ ≤ v.built∗ := kstar_mono ih
      _ ≤ (v.loops + v.exits)∗∗ := kstar_mono hbody
      _ = (v.loops + v.exits)∗ := kstar_idem _
  | reither lhs rhs ihl ihr =>
    rw [lang, built_reither]
    exact add_le_add ihl ihr
  | rseq lhs rhs ihl ihr =>
    rw [lang, built_rseq]
    exact mul_le_mul' ihl ihr
  | rbind var defn ih => exact ih

/-- The state where an expression begins is also that of a loop. -/
def BeginsWithLoop : Regex → Prop
  | .rstar _ => True
  | .rseq lhs _ => lhs.BeginsWithLoop
  | .rbind _ defn => defn.BeginsWithLoop
  | _ => False

/-- No loop begins where another one does. -/
def LoopsApart : Regex → Prop
  | .rstar v => ¬ v.BeginsWithLoop ∧ v.LoopsApart
  | .reither lhs rhs => lhs.LoopsApart ∧ rhs.LoopsApart
  | .rseq lhs rhs => lhs.LoopsApart ∧ rhs.LoopsApart
  | .rbind _ defn => defn.LoopsApart
  | _ => True

lemma loops_eq_zero {r : Regex} (h : ¬ r.BeginsWithLoop) : r.loops = 0 := by
  induction r with
  | reps => rfl
  | rcharRange b e => rfl
  | rstar v _ => exact absurd trivial h
  | reither lhs rhs _ _ => rfl
  | rseq lhs rhs ih _ => exact ih h
  | rbind var defn ih => exact ih h

lemma built_eq_lang {r : Regex} (h : r.LoopsApart) : r.built = r.lang := by
  induction r with
  | reps => rw [lang, built_reps]
  | rcharRange b e => rw [lang_rcharRange, built_rcharRange]
  | rstar v ih =>
    have hexits : v.exits = v.built := by rw [built, loops_eq_zero h.1, kstar_zero, one_mul]
    rw [lang, built_rstar, loops_eq_zero h.1, zero_add, hexits, ih h.2]
  | reither lhs rhs ihl ihr => rw [lang, built_reither, ihl h.1, ihr h.2]
  | rseq lhs rhs ihl ihr => rw [lang, built_rseq, ihl h.1, ihr h.2]
  | rbind var defn ih => exact ih h

/-! ### The paths through an expression -/

variable {M : εNFA UInt8 ℕ} {r : Regex} {self succ n s t z : ℕ} {a : Option UInt8} {x : List (Option UInt8)}

/-- A transition of an expression begins where the expression does, or in one of its states. -/
lemma source_of_mem_links (h : (s, a, t) ∈ r.links self succ n) : s = self ∨ n ≤ s ∧ s < n + r.stateCount := by
  induction r generalizing self succ n with
  | reps => exact .inl (congrArg Prod.fst h)
  | rcharRange b e => exact .inl h.1
  | rstar v ih =>
    rcases h with h | h
    · exact ih h
    · exact .inl (congrArg Prod.fst h)
  | reither lhs rhs ihl ihr =>
    rw [stateCount]
    rcases h with ((h | h) | h) | h
    · rcases ihl h with rfl | hs
      · exact .inr (by omega)
      · exact .inr (by omega)
    · rcases ihr h with rfl | hs
      · exact .inr (by omega)
      · exact .inr (by omega)
    · exact .inl (congrArg Prod.fst h)
    · exact .inl (congrArg Prod.fst h)
  | rseq lhs rhs ihl ihr =>
    rw [stateCount]
    rcases h with h | h
    · rcases ihr h with rfl | hs
      · exact .inr (by omega)
      · exact .inr (by omega)
    · exact (ihl h).imp_right fun hs => by omega
  | rbind var defn ih => exact ih h

/-- The states from `n` on have the transitions of `W` and no others. -/
def HasLinks (M : εNFA UInt8 ℕ) (n k : ℕ) (W : Set Link) : Prop :=
  ∀ s, n ≤ s → s < n + k → ∀ a t, t ∈ M.step s a ↔ (s, a, t) ∈ W

/-- The states of a part have the transitions of the part. -/
lemma HasLinks.part {m k l : ℕ} {W V : Set Link} (h : HasLinks M n k W) (hn : n ≤ m) (hk : m + l ≤ n + k)
    (hV : ∀ s, m ≤ s → s < m + l → ∀ a t, (s, a, t) ∈ W ↔ (s, a, t) ∈ V) : HasLinks M m l V := by
  intro s hs hlt a t
  rw [h s (hn.trans hs) (hlt.trans_le hk), hV s hs hlt]

/-- The state `n` begins an expression that goes on at `succ`. -/
def Begins (M : εNFA UInt8 ℕ) (r : Regex) (succ n : ℕ) : Prop :=
  HasLinks M n (1 + r.stateCount) (r.links n succ (n + 1))

lemma HasLinks.loop {v : Regex} (h : HasLinks M n v.stateCount ((rstar v).links self succ n)) (hself : self < n) :
    HasLinks M n v.stateCount (v.links self self n) := by
  apply h.part (Nat.le_refl _) (Nat.le_refl _)
  intro s hs _ a t
  refine or_iff_left fun heq => ?_
  obtain rfl : s = self := congrArg Prod.fst heq
  exact Nat.not_le.mpr hself hs

lemma HasLinks.either {lhs rhs : Regex}
    (h : HasLinks M n (reither lhs rhs).stateCount ((reither lhs rhs).links self succ n)) (hself : self < n) :
    Begins M lhs succ n ∧ Begins M rhs succ (n + (1 + lhs.stateCount)) := by
  have hno : ∀ s, n ≤ s → ∀ a t u, (s, a, t) ∉ ({(self, none, u)} : Set Link) := by
    rintro s hs a t u heq
    obtain rfl : s = self := congrArg Prod.fst heq
    exact Nat.not_le.mpr hself hs
  constructor
  · apply h.part (Nat.le_refl _) (by rw [stateCount]; omega)
    intro s hs hlt a t
    rw [links, Set.mem_union, Set.mem_union, Set.mem_union, or_iff_left (hno s hs a t _),
      or_iff_left (hno s hs a t _)]
    refine or_iff_left fun hmem => ?_
    rcases source_of_mem_links hmem with rfl | hs' <;> omega
  · apply h.part (Nat.le_add_right _ _) (by rw [stateCount]; omega)
    intro s hs hlt a t
    have hns : n ≤ s := (Nat.le_add_right _ _).trans hs
    rw [links, Set.mem_union, Set.mem_union, Set.mem_union, or_iff_left (hno s hns a t _),
      or_iff_left (hno s hns a t _)]
    refine or_iff_right fun hmem => ?_
    rcases source_of_mem_links hmem with rfl | hs' <;> omega

lemma HasLinks.seq {lhs rhs : Regex}
    (h : HasLinks M n (rseq lhs rhs).stateCount ((rseq lhs rhs).links self succ n)) (hself : self < n) :
    Begins M rhs succ n ∧
      HasLinks M (n + (1 + rhs.stateCount)) lhs.stateCount (lhs.links self n (n + (1 + rhs.stateCount))) := by
  constructor
  · apply h.part (Nat.le_refl _) (by rw [stateCount]; omega)
    intro s hs hlt a t
    refine or_iff_left fun hmem => ?_
    rcases source_of_mem_links hmem with rfl | hs' <;> omega
  · apply h.part (Nat.le_add_right _ _) (by rw [stateCount]; omega)
    intro s hs hlt a t
    refine or_iff_right fun hmem => ?_
    rcases source_of_mem_links hmem with rfl | hs' <;> omega

lemma Begins.inside (h : Begins M r succ n) : HasLinks M (n + 1) r.stateCount (r.links n succ (n + 1)) :=
  h.part (Nat.le_succ n) (by omega) fun _ _ _ _ _ => Iff.rfl

lemma Begins.mem_step (h : Begins M r succ n) (s : ℕ) (a : Option UInt8) (t : ℕ)
    (hmem : (s, a, t) ∈ r.links n succ (n + 1)) : t ∈ M.step s a := by
  rcases source_of_mem_links hmem with rfl | hs
  · exact (h s (Nat.le_refl _) (by omega) a t).mpr hmem
  · exact (h s (by omega) (by omega) a t).mpr hmem

/-- For the expression `r`, a path that begins with one of its transitions comes back or behind it, if it does not end
inside. -/
def Passes (M : εNFA UInt8 ℕ) (r : Regex) : Prop :=
  ∀ {self succ n z : ℕ} {a : Option UInt8} {t : ℕ} {x : List (Option UInt8)}, self < n → succ < n →
    (z < n ∨ n + r.stateCount ≤ z) → HasLinks M n r.stateCount (r.links self succ n) →
    (self, a, t) ∈ r.links self succ n → M.IsPath t z x →
    Leads M r.loops self z (a :: x) ∨ Leads M r.exits succ z (a :: x)

/-- A path from where an expression begins comes behind it, if it does not end inside. -/
lemma Passes.leads (hr : Passes M r) (h : Begins M r succ n) (hsucc : succ < n)
    (hz : z < n ∨ n + (1 + r.stateCount) ≤ z) (hx : M.IsPath n z x) : Leads M r.built succ z x := by
  refine leads_kstar (by omega) (fun x hx hne => ?_) hx
  cases hx with
  | nil => exact absurd rfl hne
  | cons t _ _ a x ht hx =>
    have hmem := (h n (Nat.le_refl _) (by omega) a t).mp ht
    exact hr (Nat.lt_succ_self n) (hsucc.trans (Nat.lt_succ_self n)) (by omega) h.inside hmem hx

/-- The same for a path that an epsilon transition leads to where it begins. -/
lemma Passes.leads_cons (hr : Passes M r) (h : Begins M r succ n) (hsucc : succ < n)
    (hz : z < n ∨ n + (1 + r.stateCount) ≤ z) (hx : M.IsPath n z x) : Leads M r.built succ z (none :: x) := by
  have hfirst : Leads M 1 n z (none :: x) := leads_single hx Language.nil_mem_one
  have hleads := hfirst.trans fun y hy => hr.leads h hsucc hz hy
  rwa [one_mul] at hleads

lemma eq_of_mem_singleton {u : ℕ} (h : (s, a, t) ∈ ({(self, none, u)} : Set Link)) : a = none ∧ t = u :=
  Prod.mk.inj (Prod.mk.inj h).2

lemma passes (M : εNFA UInt8 ℕ) (r : Regex) : Passes M r := by
  induction r with
  | reps =>
    intro self succ n z a t x _ _ _ _ hmem hx
    obtain ⟨rfl, rfl⟩ := eq_of_mem_singleton hmem
    exact .inr (leads_single hx Language.nil_mem_one)
  | rcharRange b e =>
    intro self succ n z a t x _ _ _ _ hmem hx
    obtain ⟨-, ⟨c, hc, hbc, hce⟩, ht⟩ := hmem
    obtain rfl : a = some c := hc
    obtain rfl : t = succ := ht
    exact .inr (leads_single hx ⟨c, ⟨hbc, hce⟩, rfl⟩)
  | rstar v ih =>
    intro self succ n z a t x hself _ hz h hmem hx
    rcases hmem with hmem | hmem
    · have hleads := ih hself hself hz (h.loop hself) hmem hx
      exact .inl (hleads.elim (fun h => h.mono le_self_add) fun h => h.mono le_add_self)
    · obtain ⟨rfl, rfl⟩ := eq_of_mem_singleton hmem
      exact .inr (leads_single hx Language.nil_mem_one)
  | reither lhs rhs ihl ihr =>
    intro self succ n z a t x hself hsucc hz h hmem hx
    obtain ⟨hl, hr⟩ := h.either hself
    rw [stateCount] at hz
    rw [exits_reither]
    rcases hmem with ((hmem | hmem) | hmem) | hmem
    · rcases source_of_mem_links hmem with heq | hs <;> omega
    · rcases source_of_mem_links hmem with heq | hs <;> omega
    · obtain ⟨rfl, rfl⟩ := eq_of_mem_singleton hmem
      exact .inr ((ihl.leads_cons hl hsucc (by omega) hx).mono le_self_add)
    · obtain ⟨rfl, rfl⟩ := eq_of_mem_singleton hmem
      exact .inr ((ihr.leads_cons hr (by omega) (by omega) hx).mono le_add_self)
  | rseq lhs rhs ihl ihr =>
    intro self succ n z a t x hself hsucc hz h hmem hx
    obtain ⟨hr, hl⟩ := h.seq hself
    rw [stateCount] at hz
    rcases hmem with hmem | hmem
    · rcases source_of_mem_links hmem with heq | hs <;> omega
    · refine (ihl (by omega) (by omega) (by omega) hl hmem hx).imp_right fun hleads => ?_
      exact hleads.trans fun y hy => ihr.leads hr hsucc (by omega) hy
  | rbind var defn ih =>
    intro self succ n z a t x hself hsucc hz h hmem hx
    exact ih hself hsucc hz h hmem hx

/-! ### Strings that are read -/

/-- The transitions of an expression read its strings. -/
def Spelt (M : εNFA UInt8 ℕ) (r : Regex) : Prop :=
  ∀ {self succ n : ℕ}, (∀ s a t, (s, a, t) ∈ r.links self succ n → t ∈ M.step s a) →
    (∀ w ∈ r.loops, Spells M self self w) ∧ ∀ w ∈ r.exits, Spells M self succ w

lemma Spelt.built (hr : Spelt M r) (h : ∀ s a t, (s, a, t) ∈ r.links n succ (n + 1) → t ∈ M.step s a)
    {w : List UInt8} (hw : w ∈ r.built) : Spells M n succ w := by
  obtain ⟨u, hu, v, hv, rfl⟩ := Language.mem_mul.mp hw
  obtain ⟨hloops, hexits⟩ := hr h
  exact (spells_kstar hloops hu).trans (hexits v hv)

lemma spelt (M : εNFA UInt8 ℕ) (r : Regex) : Spelt M r := by
  induction r with
  | reps =>
    intro self succ n h
    refine ⟨fun w hw => absurd hw (Language.notMem_zero w), fun w hw => ?_⟩
    rw [(Language.mem_one w).mp hw]
    exact Spells.single (h self none succ rfl)
  | rcharRange b e =>
    intro self succ n h
    refine ⟨fun w hw => absurd hw (Language.notMem_zero w), ?_⟩
    rintro w ⟨c, hc, rfl⟩
    exact Spells.single (h self (some c) succ ⟨rfl, ⟨c, rfl, hc⟩, rfl⟩)
  | rstar v ih =>
    intro self succ n h
    obtain ⟨hloops, hexits⟩ := ih fun s a t hmem => h s a t (.inl hmem)
    refine ⟨fun w hw => ((Language.mem_add _ _ w).mp hw).elim (hloops w) (hexits w), fun w hw => ?_⟩
    rw [(Language.mem_one w).mp hw]
    exact Spells.single (h self none succ (.inr rfl))
  | reither lhs rhs ihl ihr =>
    intro self succ n h
    refine ⟨fun w hw => absurd hw (Language.notMem_zero w), fun w hw => ?_⟩
    rw [exits_reither, Language.mem_add] at hw
    rcases hw with hw | hw
    · have hfirst : Spells M self n [] := Spells.single (h self none n (.inl (.inr rfl)))
      exact hfirst.trans (ihl.built (fun s a t hmem => h s a t (.inl (.inl (.inl hmem)))) hw)
    · have hfirst : Spells M self (n + (1 + lhs.stateCount)) [] := Spells.single (h self none _ (.inr rfl))
      exact hfirst.trans (ihr.built (fun s a t hmem => h s a t (.inl (.inl (.inr hmem)))) hw)
  | rseq lhs rhs ihl ihr =>
    intro self succ n h
    obtain ⟨hloops, hexits⟩ := ihl fun s a t hmem => h s a t (.inr hmem)
    refine ⟨hloops, fun w hw => ?_⟩
    obtain ⟨u, hu, v, hv, rfl⟩ := Language.mem_mul.mp hw
    exact (hexits u hu).trans (ihr.built (fun s a t hmem => h s a t (.inl hmem)) hv)
  | rbind var defn ih =>
    intro self succ n h
    exact ih h

/-! ### Cycles -/

/-- The empty string is denoted. -/
def Nullable : Regex → Prop
  | .reps => True
  | .rcharRange _ _ => False
  | .rstar _ => True
  | .reither lhs rhs => lhs.Nullable ∨ rhs.Nullable
  | .rseq lhs rhs => lhs.Nullable ∧ rhs.Nullable
  | .rbind _ defn => defn.Nullable

/-- Nothing that is repeated can be empty. -/
def Progresses : Regex → Prop
  | .rstar v => ¬ v.Nullable ∧ v.Progresses
  | .reither lhs rhs => lhs.Progresses ∧ rhs.Progresses
  | .rseq lhs rhs => lhs.Progresses ∧ rhs.Progresses
  | .rbind _ defn => defn.Progresses
  | _ => True

lemma nil_mem_mul {L X : Language UInt8} (h : [] ∈ L * X) : [] ∈ L ∧ [] ∈ X := by
  obtain ⟨u, hu, v, hv, heq⟩ := Language.mem_mul.mp h
  obtain ⟨rfl, rfl⟩ := List.append_eq_nil_iff.mp heq
  exact ⟨hu, hv⟩

lemma nullable_of_nil_mem_exits (h : [] ∈ r.exits) : r.Nullable := by
  induction r with
  | reps => exact trivial
  | rcharRange b e =>
    obtain ⟨c, -, hc⟩ := h
    cases hc
  | rstar v _ => exact trivial
  | reither lhs rhs ihl ihr =>
    rw [exits_reither, Language.mem_add] at h
    exact h.imp (fun h => ihl (nil_mem_mul h).2) fun h => ihr (nil_mem_mul h).2
  | rseq lhs rhs ihl ihr =>
    obtain ⟨hl, hr⟩ := nil_mem_mul h
    exact ⟨ihl hl, ihr (nil_mem_mul hr).2⟩
  | rbind var defn ih => exact ih h

/-- Where what is repeated cannot be empty, an expression is not gone around without a character. -/
lemma nil_notMem_loops (h : r.Progresses) : [] ∉ r.loops := by
  induction r with
  | reps => exact Language.notMem_zero _
  | rcharRange b e => exact Language.notMem_zero _
  | rstar v ih =>
    rw [loops_rstar, Language.mem_add, not_or]
    exact ⟨ih h.2, fun hnil => h.1 (nullable_of_nil_mem_exits hnil)⟩
  | reither lhs rhs _ _ => exact Language.notMem_zero _
  | rseq lhs rhs ih _ => exact ih h.1
  | rbind var defn ih => exact ih h

/-- Epsilon transitions that lead back to a state of an expression lead back to a state beside it. -/
def CyclesOutside (M : εNFA UInt8 ℕ) (r : Regex) : Prop :=
  ∀ {self succ n s : ℕ}, self < n → succ < n → HasLinks M n r.stateCount (r.links self succ n) → n ≤ s →
    s < n + r.stateCount → EpsCycle M s → EpsCycle M self ∨ EpsCycle M succ

lemma CyclesOutside.begins (hr : CyclesOutside M r) (hprogress : r.Progresses) (h : Begins M r succ n)
    (hsucc : succ < n) (hs : n ≤ s) (hlt : s < n + (1 + r.stateCount)) (hcycle : EpsCycle M s) : EpsCycle M succ := by
  have hstart : EpsCycle M n → EpsCycle M succ := by
    rintro ⟨x, hne, hx, hpath⟩
    cases hpath with
    | nil => exact absurd rfl hne
    | cons t _ _ a x ht hpath =>
      have hmem := (h n (Nat.le_refl _) (by omega) a t).mp ht
      rcases passes M r (Nat.lt_succ_self n) (by omega) (.inl (Nat.lt_succ_self n)) h.inside hmem hpath with
        ⟨w, hw, y, -, -, heq⟩ | ⟨w, hw, y, hy, -, heq⟩
      · obtain ⟨rfl, -⟩ := List.append_eq_nil_iff.mp (heq.symm.trans hx)
        exact absurd hw (nil_notMem_loops hprogress)
      · obtain ⟨rfl, hnil⟩ := List.append_eq_nil_iff.mp (heq.symm.trans hx)
        have hforth : Spells M n succ [] := (spelt M r h.mem_step).2 [] hw
        exact epsCycle_of_spells (Nat.ne_of_lt hsucc) (hnil ▸ spells_of_isPath hy) hforth
  rcases Nat.eq_or_lt_of_le hs with rfl | hns
  · exact hstart hcycle
  · exact (hr (Nat.lt_succ_self n) (by omega) h.inside hns (by omega) hcycle).elim hstart id

lemma cyclesOutside (M : εNFA UInt8 ℕ) (hprogress : r.Progresses) : CyclesOutside M r := by
  induction r with
  | reps =>
    intro self succ n s _ _ _ hs hlt
    exact absurd hlt (Nat.not_lt.mpr hs)
  | rcharRange b e =>
    intro self succ n s _ _ _ hs hlt
    exact absurd hlt (Nat.not_lt.mpr hs)
  | rstar v ih =>
    intro self succ n s hself _ h hs hlt hcycle
    exact .inl ((ih hprogress.2 hself hself (h.loop hself) hs hlt hcycle).elim id id)
  | reither lhs rhs ihl ihr =>
    intro self succ n s hself hsucc h hs hlt hcycle
    obtain ⟨hl, hr⟩ := h.either hself
    rw [stateCount] at hlt
    by_cases hleft : s < n + (1 + lhs.stateCount)
    · exact .inr (CyclesOutside.begins (ihl hprogress.1) hprogress.1 hl hsucc hs hleft hcycle)
    · exact .inr (CyclesOutside.begins (ihr hprogress.2) hprogress.2 hr (by omega) (by omega) (by omega) hcycle)
  | rseq lhs rhs ihl ihr =>
    intro self succ n s hself hsucc h hs hlt hcycle
    obtain ⟨hr, hl⟩ := h.seq hself
    rw [stateCount] at hlt
    have hright : ∀ u, n ≤ u → u < n + (1 + rhs.stateCount) → EpsCycle M u → EpsCycle M succ :=
      fun u hu hlt hcycle => CyclesOutside.begins (ihr hprogress.2) hprogress.2 hr hsucc hu hlt hcycle
    by_cases hin : s < n + (1 + rhs.stateCount)
    · exact .inr (hright s hs hin hcycle)
    · refine (ihl hprogress.1 (by omega) (by omega) hl (by omega) (by omega) hcycle).imp_right fun hcycle => ?_
      exact hright n (Nat.le_refl _) (by omega) hcycle
  | rbind var defn ih =>
    intro self succ n s hself hsucc h hs hlt hcycle
    exact ih hprogress hself hsucc h hs hlt hcycle

end Hobbes.Regex
