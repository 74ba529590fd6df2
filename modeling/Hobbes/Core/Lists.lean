import Mathlib.Data.List.Forall2
import Mathlib.Tactic.Common

/-!
# Lists of results and lists of numbers
-/

namespace Core

lemma mem_of_lookup {α β : Type} [BEq α] [LawfulBEq α] {l : List (α × β)} {a : α} {b : β}
    (h : l.lookup a = some b) : (a, b) ∈ l := by
  obtain ⟨l₁, l₂, rfl, -⟩ := List.lookup_eq_some_iff.mp h
  exact List.mem_append_right l₁ List.mem_cons_self

lemma lookup_cons_of_ne {α β : Type} [BEq α] [LawfulBEq α] {a k : α} (h : a ≠ k) (b : β)
    (l : List (α × β)) : ((k, b) :: l).lookup a = l.lookup a := by
  rw [List.lookup_cons, beq_false_of_ne h]

lemma lookup_zip_map {α β : Type} [BEq α] [LawfulBEq α] (f : α → β) {l : List α} {a : α} (h : a ∈ l) :
    (l.zip (l.map f)).lookup a = some (f a) := by
  induction l with
  | nil => cases h
  | cons b l ih =>
    rw [List.map_cons, List.zip_cons_cons]
    by_cases hab : a = b
    · subst hab
      rw [List.lookup_cons_self]
    · rw [lookup_cons_of_ne hab]
      exact ih ((List.mem_cons.mp h).resolve_left hab)

/-- A filter on the keys of an association list. -/
lemma lookup_filter {α β : Type} [BEq α] [LawfulBEq α] (f : α → Bool) (l : List (α × β)) (a : α) :
    (l.filter fun x => f x.1).lookup a = if f a then l.lookup a else none := by
  induction l with
  | nil => simp
  | cons x l ih =>
    obtain ⟨k, b⟩ := x
    rcases eq_or_ne a k with rfl | hne
    · rw [List.filter_cons]
      split_ifs with hf
      · simp
      · rw [ih, if_neg hf]
    · rw [List.filter_cons, lookup_cons_of_ne hne, ← ih]
      split_ifs
      · rw [lookup_cons_of_ne hne]
      · rfl

/-! ### Prefixes -/

lemma getElem?_of_prefix {α : Type} {l l' : List α} {i : ℕ} {a : α} (h : l <+: l')
    (ha : l[i]? = some a) : l'[i]? = some a := by
  obtain ⟨t, rfl⟩ := h
  rwa [List.getElem?_append_left (List.getElem?_eq_some_iff.mp ha).1]

lemma drop_eq_cons {α : Type*} {xs : List α} {i : ℕ} {x : α} (h : xs[i]? = some x) :
    xs.drop i = x :: xs.drop (i + 1) := by
  obtain ⟨hlt, rfl⟩ := List.getElem?_eq_some_iff.mp h
  exact List.drop_eq_getElem_cons hlt

/-! ### The largest number of a list -/

lemma max_dvd {a b m : ℕ} (ha : a ∣ m) (hb : b ∣ m) : max a b ∣ m := by
  rcases Nat.le_total a b with h | h
  · rwa [Nat.max_eq_right h]
  · rwa [Nat.max_eq_left h]

lemma le_foldl_max (as : List ℕ) (a : ℕ) : a ≤ as.foldl max a := by
  induction as generalizing a with
  | nil => exact Nat.le_refl a
  | cons b as ih => exact Nat.le_trans (Nat.le_max_left a b) (ih (max a b))

lemma mem_le_foldl_max {as : List ℕ} {a b : ℕ} (h : b ∈ as) : b ≤ as.foldl max a := by
  induction as generalizing a with
  | nil => cases h
  | cons c as ih =>
    rcases List.mem_cons.mp h with rfl | h
    · exact Nat.le_trans (Nat.le_max_right a b) (le_foldl_max as (max a b))
    · exact ih h

lemma foldl_max_le {as : List ℕ} {a m : ℕ} (ha : a ≤ m) (h : ∀ b ∈ as, b ≤ m) :
    as.foldl max a ≤ m := by
  induction as generalizing a with
  | nil => exact ha
  | cons b as ih =>
    refine ih (Nat.max_le.mpr ⟨ha, h b List.mem_cons_self⟩) fun c hc => ?_
    exact h c (List.mem_cons_of_mem b hc)

lemma foldl_max_dvd {as : List ℕ} {a m : ℕ} (ha : a ∣ m) (h : ∀ b ∈ as, b ∣ m) :
    as.foldl max a ∣ m := by
  induction as generalizing a with
  | nil => exact ha
  | cons b as ih =>
    exact ih (max_dvd ha (h b List.mem_cons_self)) fun c hc => h c (List.mem_cons_of_mem b hc)

lemma foldl_max_le_foldl_max {as bs : List ℕ} {a b : ℕ} (hab : a ≤ b)
    (h : List.Forall₂ (· ≤ ·) as bs) : as.foldl max a ≤ bs.foldl max b := by
  induction h generalizing a b with
  | nil => exact hab
  | cons hle _ ih =>
    exact ih (Nat.max_le.mpr ⟨Nat.le_trans hab (Nat.le_max_left ..),
      Nat.le_trans hle (Nat.le_max_right ..)⟩)

/-! ### Lists of results -/

/-- What a list of results was computed from. -/
lemma mapM_eq_some {α β : Type} {f : α → Option β} {xs : List α} {ys : List β} :
    xs.mapM f = some ys ↔ List.Forall₂ (fun x y => f x = some y) xs ys := by
  induction xs generalizing ys with
  | nil => cases ys <;> simp
  | cons x xs ih =>
    simp only [List.mapM_cons, Option.bind_eq_bind, Option.bind_eq_some_iff, pure,
      Option.some.injEq, List.forall₂_cons_left_iff, ih]
    constructor
    · rintro ⟨y, hy, ys', hys, rfl⟩
      exact ⟨y, ys', hy, hys, rfl⟩
    · rintro ⟨y, ys', hy, hys, rfl⟩
      exact ⟨y, hy, ys', hys, rfl⟩

lemma exists_mapM {α β : Type} {f : α → Option β} {xs : List α} (h : ∀ x ∈ xs, ∃ y, f x = some y) :
    ∃ ys, xs.mapM f = some ys := by
  induction xs with
  | nil => exact ⟨[], rfl⟩
  | cons x xs ih =>
    obtain ⟨y, hy⟩ := h x List.mem_cons_self
    obtain ⟨ys, hys⟩ := ih fun x hx => h x (List.mem_cons_of_mem _ hx)
    exact ⟨y :: ys, by simp [List.mapM_cons, hy, hys]⟩

lemma getElem?_of_mapM {α β : Type} {f : α → Option β} {xs : List α} {ys : List β}
    (h : xs.mapM f = some ys) (i : ℕ) : ys[i]? = xs[i]?.bind f := by
  rw [mapM_eq_some] at h
  induction h generalizing i with
  | nil => rfl
  | cons hxy _ ih =>
    cases i with
    | zero => simp [hxy]
    | succ i => simpa using ih i

lemma forall_of_mapM {α β : Type} {f : α → Option β} {P : β → Prop} {xs : List α} {ys : List β}
    (hm : xs.mapM f = some ys) (h : ∀ x y, f x = some y → P y) : ∀ y ∈ ys, P y := by
  induction mapM_eq_some.mp hm with
  | nil => simp
  | cons hxy hxys ih => exact List.forall_mem_cons.mpr ⟨h _ _ hxy, ih (mapM_eq_some.mpr hxys)⟩

lemma forall₂_of_mapM {α β γ : Type} {f : α → Option β} {g : α → Option γ} {R : β → γ → Prop}
    {xs : List α} {ys : List β} {zs : List γ} (hf : xs.mapM f = some ys) (hg : xs.mapM g = some zs)
    (h : ∀ x y z, f x = some y → g x = some z → R y z) : List.Forall₂ R ys zs := by
  rw [mapM_eq_some] at hf hg
  induction hf generalizing zs with
  | nil => cases hg; exact .nil
  | cons hxy _ ih =>
    obtain ⟨z, zs', hxz, hzs, rfl⟩ := List.forall₂_cons_left_iff.mp hg
    exact .cons (h _ _ _ hxy hxz) (ih hzs)

lemma exists_of_forall₂ {α β : Type} {R : α → β → Prop} {xs : List α} {ys : List β}
    (h : List.Forall₂ R xs ys) {y : β} (hy : y ∈ ys) : ∃ x ∈ xs, R x y := by
  induction h with
  | nil => cases hy
  | cons hxy _ ih =>
    rcases List.mem_cons.mp hy with rfl | hy
    · exact ⟨_, List.mem_cons_self, hxy⟩
    · obtain ⟨x, hx, hR⟩ := ih hy
      exact ⟨x, List.mem_cons_of_mem _ hx, hR⟩

/-! ### Folds that can fail -/

lemma exists_foldlM {α σ : Type} {f : σ → α → Option σ} {xs : List α}
    (h : ∀ x ∈ xs, ∀ s, ∃ s', f s x = some s') (s : σ) : ∃ s', xs.foldlM f s = some s' := by
  induction xs generalizing s with
  | nil => exact ⟨s, rfl⟩
  | cons x xs ih =>
    obtain ⟨t, ht⟩ := h x List.mem_cons_self s
    obtain ⟨s', hs'⟩ := ih (fun y hy => h y (List.mem_cons_of_mem x hy)) t
    exact ⟨s', by rw [List.foldlM_cons, ht]; exact hs'⟩

lemma foldlM_invariant {α σ : Type} {f : σ → α → Option σ} {P : σ → Prop} {xs : List α} {s s' : σ}
    (h : xs.foldlM f s = some s') (h₀ : P s)
    (hstep : ∀ x ∈ xs, ∀ s s', P s → f s x = some s' → P s') : P s' := by
  induction xs generalizing s with
  | nil => exact Option.some.inj h ▸ h₀
  | cons x xs ih =>
    rw [List.foldlM_cons, Option.bind_eq_bind, Option.bind_eq_some_iff] at h
    obtain ⟨t, ht, h⟩ := h
    exact ih h (hstep x List.mem_cons_self s t h₀ ht)
      fun y hy => hstep y (List.mem_cons_of_mem x hy)

lemma bind_eq_ok {ε α β : Type} {x : Except ε α} {f : α → Except ε β} {b : β} :
    x >>= f = .ok b ↔ ∃ a, x = .ok a ∧ f a = .ok b := by
  cases x <;> simp [bind, Except.bind]

lemma foldlM_ok_invariant {ε α σ : Type} {f : σ → α → Except ε σ} {P : σ → Prop} {xs : List α}
    {s s' : σ} (h : xs.foldlM f s = .ok s') (h₀ : P s)
    (hstep : ∀ x ∈ xs, ∀ s s', P s → f s x = .ok s' → P s') : P s' := by
  induction xs generalizing s with
  | nil => exact Except.ok.inj h ▸ h₀
  | cons x xs ih =>
    rw [List.foldlM_cons, bind_eq_ok] at h
    obtain ⟨t, ht, h⟩ := h
    exact ih h (hstep x List.mem_cons_self s t h₀ ht)
      fun y hy => hstep y (List.mem_cons_of_mem x hy)

lemma mapM_eq_ok {ε α β : Type} {f : α → Except ε β} {xs : List α} {ys : List β} :
    xs.mapM f = .ok ys ↔ List.Forall₂ (fun x y => f x = .ok y) xs ys := by
  induction xs generalizing ys with
  | nil => cases ys <;> simp [pure, Except.pure]
  | cons x xs ih =>
    simp only [List.mapM_cons, bind_eq_ok, List.forall₂_cons_left_iff, ih]
    constructor
    · rintro ⟨y, hy, ys', hys, h⟩
      exact ⟨y, ys', hy, hys, (Except.ok.inj h).symm⟩
    · rintro ⟨y, ys', hy, hys, rfl⟩
      exact ⟨y, hy, ys', hys, rfl⟩

lemma mapM_some {α β : Type} {f : α → Option β} {g : α → β} (h : ∀ a, f a = some (g a)) (as : List α) :
    as.mapM f = some (as.map g) := by
  rw [mapM_eq_some, List.forall₂_map_right_iff]
  exact List.forall₂_same.mpr fun a _ => h a

/-! ### Lists side by side -/

lemma exists_iff_of_forall₂ {α β : Type} {R : α → β → Prop} {P : α → Prop} {Q : β → Prop} {l : List α} {l' : List β}
    (h : List.Forall₂ R l l') (hPQ : ∀ a b, R a b → (P a ↔ Q b)) : (∃ a ∈ l, P a) ↔ ∃ b ∈ l', Q b := by
  induction h with
  | nil => simp
  | cons hab _ ih => simp only [List.exists_mem_cons_iff, hPQ _ _ hab, ih]

lemma forall_of_forall₂ {α β : Type} {R : α → β → Prop} {P : α → Prop} {Q : β → Prop} {l : List α} {l' : List β}
    (h : List.Forall₂ R l l') (hPQ : ∀ a b, R a b → Q b → P a) (hQ : ∀ b ∈ l', Q b) : ∀ a ∈ l, P a := by
  induction h with
  | nil => simp
  | cons hab _ ih =>
    obtain ⟨hb, hQ⟩ := List.forall_mem_cons.mp hQ
    exact List.forall_mem_cons.mpr ⟨hPQ _ _ hab hb, ih hQ⟩

lemma exists_of_forall₂_zip {α β γ : Type} {R : α → β × γ → Prop} {as : List α} {bs : List β} {cs : List γ}
    (h : List.Forall₂ R as (bs.zip cs)) {p : α × γ} (hp : p ∈ as.zip cs) :
    ∃ b, (b, p.2) ∈ bs.zip cs ∧ R p.1 (b, p.2) := by
  induction bs generalizing as cs with
  | nil => cases h; cases hp
  | cons b bs ih =>
    cases cs with
    | nil => cases h; cases hp
    | cons c cs =>
      cases h with
      | cons hR h =>
        rcases List.mem_cons.mp hp with rfl | hp
        · exact ⟨b, List.mem_cons_self, hR⟩
        · obtain ⟨b', hb', hR'⟩ := ih h hp
          exact ⟨b', List.mem_cons_of_mem _ hb', hR'⟩

lemma eq_of_map_eq {α β : Type} {f : α → β} {as bs : List α}
    (hf : ∀ a ∈ as, ∀ b ∈ bs, f a = f b → a = b) (h : as.map f = bs.map f) : as = bs := by
  induction as generalizing bs with
  | nil => exact (List.map_eq_nil_iff.mp h.symm).symm
  | cons a as ih =>
    cases bs with
    | nil => cases h
    | cons b bs =>
      obtain ⟨hab, h⟩ := List.cons.inj h
      rw [hf a List.mem_cons_self b List.mem_cons_self hab, ih (fun a ha b hb => ?_) h]
      exact hf a (List.mem_cons_of_mem _ ha) b (List.mem_cons_of_mem _ hb)

/-! ### Lists by their keys -/

/-- A list is what it has for each of the keys. -/
lemma perm_flatMap_filter {α κ : Type*} [DecidableEq κ] {key : α → κ} {ks : List κ} {xs : List α} (hks : ks.Nodup)
    (h : ∀ x ∈ xs, key x ∈ ks) : xs.Perm (ks.flatMap fun k => xs.filter fun x => key x = k) := by
  induction ks generalizing xs with
  | nil =>
    rw [List.eq_nil_iff_forall_not_mem.mpr fun x hx => List.not_mem_nil (h x hx)]
    exact .refl _
  | cons k ks ih =>
    obtain ⟨hk, hks⟩ := List.nodup_cons.mp hks
    have hrest : (xs.filter fun x => !decide (key x = k)).Perm (ks.flatMap fun j => xs.filter fun x => key x = j) := by
      have hmem : ∀ x ∈ xs.filter fun x => !decide (key x = k), key x ∈ ks := fun x hx => by
        obtain ⟨hx, hne⟩ := List.mem_filter.mp hx
        exact (List.mem_cons.mp (h x hx)).resolve_left (by simpa using hne)
      have heq : ∀ j ∈ ks, ((xs.filter fun x => !decide (key x = k)).filter fun x => key x = j) =
          xs.filter fun x => key x = j := fun j hj => by
        rw [List.filter_filter]
        refine List.filter_congr fun x _ => ?_
        by_cases hxj : key x = j
        · have hjk : ¬ j = k := fun h => hk (h ▸ hj)
          simp [hxj, hjk]
        · simp [hxj]
      exact (ih hks hmem).trans (.of_eq (List.flatMap_congr heq))
    rw [List.flatMap_cons]
    exact (List.filter_append_perm _ xs).symm.trans (hrest.append_left _)

/-! ### Blocks of one length -/

section Blocks

variable {α β : Type*} {g : α → List β} {c : ℕ}

lemma length_flatMap_of_length (hg : ∀ a, (g a).length = c) (l : List α) : (l.flatMap g).length = l.length * c := by
  induction l with
  | nil => rw [List.flatMap_nil, List.length_nil, List.length_nil, Nat.zero_mul]
  | cons a l ih => rw [List.flatMap_cons, List.length_append, hg, ih, List.length_cons, Nat.succ_mul, Nat.add_comm]

lemma getElem?_flatMap_of_length (hg : ∀ a, (g a).length = c) (hc : 0 < c) (l : List α) (i : ℕ) :
    (l.flatMap g)[i]? = l[i / c]?.bind fun a => (g a)[i % c]? := by
  induction l generalizing i with
  | nil => rfl
  | cons a l ih =>
    rw [List.flatMap_cons, List.getElem?_append, hg]
    split_ifs with hi
    · rw [Nat.div_eq_of_lt hi, Nat.mod_eq_of_lt hi]
      rfl
    · obtain ⟨j, rfl⟩ := Nat.exists_eq_add_of_le (Nat.not_lt.mp hi)
      rw [Nat.add_sub_cancel_left, ih, Nat.add_div_left _ hc, Nat.add_mod_left, List.getElem?_cons_succ]

/-- An element of a block is set by setting the block. -/
lemma set_flatMap_of_length (hg : ∀ a, (g a).length = c) {l : List α} {k j : ℕ} {a b : α} {x : β}
    (ha : l[k]? = some a) (hj : j < c) (hb : g b = (g a).set j x) :
    (l.set k b).flatMap g = (l.flatMap g).set (k * c + j) x := by
  induction l generalizing k with
  | nil => cases ha
  | cons a' l ih =>
    cases k with
    | zero =>
      obtain rfl : a' = a := Option.some.inj ha
      rw [List.set_cons_zero, List.flatMap_cons, List.flatMap_cons, hb, Nat.zero_mul, Nat.zero_add,
        List.set_append_left _ _ (by rwa [hg])]
    | succ k =>
      have hpos : (k + 1) * c + j = c + (k * c + j) := by
        rw [Nat.succ_mul]
        omega
      rw [List.set_cons_succ, List.flatMap_cons, List.flatMap_cons, ih ha, hpos,
        List.set_append_right _ _ (by rw [hg]; exact Nat.le_add_right _ _), hg, Nat.add_sub_cancel_left]

end Blocks
end Core
