import Mathlib.Tactic.Common

/-!
# Outcomes of calls

What becomes of a call that is given fuel: it returns, it throws, or the fuel does not last for it. More fuel does not
change what a call returns or that it throws.
-/

namespace Core

inductive Outcome (α : Type) where
  | returns (a : α)
  | throws
  | runsOn
  deriving DecidableEq

namespace Outcome

variable {α β σ : Type}

def bind : Outcome α → (α → Outcome β) → Outcome β
  | returns a, f => f a
  | throws, _ => throws
  | runsOn, _ => runsOn

instance : Monad Outcome where
  pure := returns
  bind := bind

lemma pure_def (a : α) : (pure a : Outcome α) = returns a := rfl

lemma bind_def (x : Outcome α) (f : α → Outcome β) : x >>= f = x.bind f := rfl

@[simp] lemma returns_bind (a : α) (f : α → Outcome β) : (returns a).bind f = f a := rfl

@[simp] lemma throws_bind (f : α → Outcome β) : throws.bind f = throws := rfl

@[simp] lemma runsOn_bind (f : α → Outcome β) : runsOn.bind f = runsOn := rfl

lemma bind_eq_returns {x : Outcome α} {f : α → Outcome β} {b : β} :
    x.bind f = returns b ↔ ∃ a, x = returns a ∧ f a = returns b := by
  cases x <;> simp

lemma bind_eq_throws {x : Outcome α} {f : α → Outcome β} :
    x.bind f = throws ↔ x = throws ∨ ∃ a, x = returns a ∧ f a = throws := by
  cases x <;> simp

lemma bind_eq_runsOn {x : Outcome α} {f : α → Outcome β} :
    x.bind f = runsOn ↔ x = runsOn ∨ ∃ a, x = returns a ∧ f a = runsOn := by
  cases x <;> simp

/-- A part of a call that fails only for lack of fuel. -/
def ofOption : Option α → Outcome α
  | some a => returns a
  | none => runsOn

/-- `try x catch (...) { return a; }` -/
def catchAll (x : Outcome α) (a : α) : Outcome α :=
  match x with
  | throws => returns a
  | x => x

lemma catchAll_eq_returns {x : Outcome α} {a b : α} :
    x.catchAll a = returns b ↔ x = returns b ∨ x = throws ∧ a = b := by
  cases x <;> simp [catchAll]

lemma exists_catchAll {x : Outcome α} (h : x ≠ runsOn) (a : α) : ∃ b, x.catchAll a = returns b := by
  cases x with
  | returns b => exact ⟨b, rfl⟩
  | throws => exact ⟨a, rfl⟩
  | runsOn => exact absurd rfl h

/-- `try x catch (...) { }`: what has been thrown is known afterwards. -/
def attempt : Outcome α → Outcome (Option α)
  | returns a => returns (some a)
  | throws => returns none
  | runsOn => runsOn

/-- Whether a call returns something that satisfies `p`. -/
def returnsWith (p : α → Bool) : Outcome α → Bool
  | returns a => p a
  | throws => false
  | runsOn => false

lemma returnsWith_iff {p : α → Bool} {x : Outcome α} : x.returnsWith p = true ↔ ∃ a, x = returns a ∧ p a = true := by
  cases x <;> simp [returnsWith]

@[simp] lemma ofOption_some (a : α) : ofOption (some a) = returns a := rfl

/-! ### What holds of an outcome -/

/-- What is returned satisfies `P`, and `Q` holds if the call throws. -/
def Meets (P : α → Prop) (Q : Prop) : Outcome α → Prop
  | returns a => P a
  | throws => Q
  | runsOn => True

lemma Meets.bind {P : α → Prop} {P' : β → Prop} {Q : Prop} {x : Outcome α} {f : α → Outcome β} (h : x.Meets P Q)
    (hf : ∀ a, P a → (f a).Meets P' Q) : (x.bind f).Meets P' Q := by
  cases x with
  | returns a => exact hf a h
  | throws => exact h
  | runsOn => exact trivial

lemma Meets.of_returns {P : α → Prop} {Q : Prop} {x : Outcome α} {a : α} (h : x.Meets P Q) (hx : x = returns a) :
    P a := by
  rw [hx] at h
  exact h

lemma Meets.of_throws {P : α → Prop} {Q : Prop} {x : Outcome α} (h : x.Meets P Q) (hx : x = throws) : Q := by
  rw [hx] at h
  exact h

lemma Meets.mono {P P' : α → Prop} {Q Q' : Prop} {x : Outcome α} (h : x.Meets P Q) (hP : ∀ a, P a → P' a)
    (hQ : Q → Q') : x.Meets P' Q' := by
  cases x with
  | returns a => exact hP a h
  | throws => exact hQ h
  | runsOn => exact trivial

lemma meets_true (x : Outcome α) : x.Meets (fun _ => True) True := by
  cases x <;> exact trivial

lemma Meets.catchAll {P : α → Prop} {Q : Prop} {x : Outcome α} (h : x.Meets P Q) {a : α} (ha : P a) :
    (x.catchAll a).Meets P False := by
  cases x with
  | returns b => exact h
  | throws => exact ha
  | runsOn => exact trivial

lemma Meets.attempt {P : α → Prop} {Q : Prop} {x : Outcome α} (h : x.Meets P Q) :
    x.attempt.Meets (fun r => (∀ a, r = some a → P a) ∧ (r = none → Q)) False := by
  cases x with
  | returns a =>
    refine ⟨?_, nofun⟩
    rintro b hb
    cases hb
    exact h
  | throws => exact ⟨nofun, fun _ => h⟩
  | runsOn => exact trivial

lemma Meets.and {P P' : α → Prop} {Q Q' : Prop} {x : Outcome α} (h : x.Meets P Q) (h' : x.Meets P' Q') :
    x.Meets (fun a => P a ∧ P' a) (Q ∧ Q') := by
  cases x with
  | returns a => exact ⟨h, h'⟩
  | throws => exact ⟨h, h'⟩
  | runsOn => exact trivial

lemma Meets.attempt_some {P : α → Prop} {x : Outcome α} (h : x.Meets P False) :
    x.attempt.Meets (fun r => ∃ a, r = some a ∧ P a) False := by
  cases x with
  | returns a => exact ⟨a, rfl, h⟩
  | throws => exact h.elim
  | runsOn => exact trivial

/-- The fuel lasts, and what is returned satisfies `P`. -/
def Ends (P : α → Prop) : Outcome α → Prop
  | returns a => P a
  | throws => True
  | runsOn => False

lemma Ends.ne_runsOn {P : α → Prop} {x : Outcome α} (h : x.Ends P) : x ≠ runsOn := by
  rintro rfl
  exact h

lemma Ends.mono {P P' : α → Prop} {x : Outcome α} (h : x.Ends P) (hP : ∀ a, P a → P' a) : x.Ends P' := by
  cases x with
  | returns a => exact hP a h
  | throws => exact trivial
  | runsOn => exact h

lemma Ends.bind {P : α → Prop} {P' : β → Prop} {x : Outcome α} {f : α → Outcome β} (h : x.Ends P)
    (hf : ∀ a, P a → (f a).Ends P') : (x.bind f).Ends P' := by
  cases x with
  | returns a => exact hf a h
  | throws => exact trivial
  | runsOn => exact h.elim

/-! ### More fuel -/

/-- `y` is what becomes of `x` with more fuel. -/
def Le (x y : Outcome α) : Prop := x = runsOn ∨ x = y

lemma Le.refl (x : Outcome α) : x.Le x := .inr rfl

lemma Le.trans {x y z : Outcome α} (h : x.Le y) (h' : y.Le z) : x.Le z := by
  rcases h with rfl | rfl
  · exact .inl rfl
  · exact h'

lemma Le.eq {x y : Outcome α} (h : x.Le y) (hx : x ≠ runsOn) : y = x := (h.resolve_left hx).symm

lemma Le.bind {x y : Outcome α} {f g : α → Outcome β} (h : x.Le y) (hfg : ∀ a, (f a).Le (g a)) :
    (x.bind f).Le (y.bind g) := by
  rcases h with rfl | rfl
  · exact .inl rfl
  · cases x with
    | returns a => exact hfg a
    | throws => exact .refl _
    | runsOn => exact .refl _

lemma Le.catchAll {x y : Outcome α} (h : x.Le y) (a : α) : (x.catchAll a).Le (y.catchAll a) := by
  rcases h with rfl | rfl
  · exact .inl rfl
  · exact .refl _

/-- Fuel lasts for two calls if it lasts for each of them. -/
lemma exists_bind {x : ℕ → Outcome α} {f : ℕ → α → Outcome β} (hx : ∀ n m, n ≤ m → (x n).Le (x m))
    (hf : ∀ n m a, n ≤ m → (f n a).Le (f m a)) (h : ∃ n, x n ≠ runsOn)
    (h' : ∀ n a, x n = returns a → ∃ m, f m a ≠ runsOn) : ∃ n, (x n).bind (f n) ≠ runsOn := by
  obtain ⟨n, hn⟩ := h
  cases hxn : x n with
  | runsOn => exact absurd hxn hn
  | throws =>
    refine ⟨n, ?_⟩
    rw [hxn]
    exact nofun
  | returns a =>
    obtain ⟨m, hm⟩ := h' n a hxn
    refine ⟨max n m, ?_⟩
    rw [(hx n _ (Nat.le_max_left n m)).eq hn, hxn, returns_bind, (hf m _ a (Nat.le_max_right n m)).eq hm]
    exact hm

/-! ### Loops -/

/-- `f` for each element of a list, in order. -/
def foldOver (f : σ → α → Outcome σ) : σ → List α → Outcome σ
  | s, [] => returns s
  | s, a :: as => (f s a).bind fun s' => foldOver f s' as

lemma foldOver_append (f : σ → α → Outcome σ) (s : σ) (as bs : List α) :
    foldOver f s (as ++ bs) = (foldOver f s as).bind fun s' => foldOver f s' bs := by
  induction as generalizing s with
  | nil => rfl
  | cons a as ih =>
    rw [List.cons_append, foldOver, foldOver]
    cases f s a with
    | returns s' => exact ih s'
    | throws => rfl
    | runsOn => rfl

/-- `I` holds of the elements that have been gone through and of the state. -/
lemma Meets.foldOver {f : σ → α → Outcome σ} (I : List α → σ → Prop) {Q : Prop} {as : List α} {s : σ} (hs : I [] s)
    (hf : ∀ done a s, a ∈ as → I done s → (f s a).Meets (I (done ++ [a])) Q) :
    (Outcome.foldOver f s as).Meets (I as) Q := by
  suffices h : ∀ done rest s, I done s → (∀ a ∈ rest, a ∈ as) → (Outcome.foldOver f s rest).Meets (I (done ++ rest)) Q
    from h [] as s hs fun _ ha => ha
  intro done rest
  induction rest generalizing done with
  | nil =>
    intro s hs _
    rw [List.append_nil]
    exact hs
  | cons a rest ih =>
    intro s hs hmem
    refine (hf done a s (hmem a List.mem_cons_self) hs).bind fun s' hs' => ?_
    have hrest := ih (done ++ [a]) s' hs' fun a' ha' => hmem a' (List.mem_cons_of_mem a ha')
    rwa [List.append_assoc, List.singleton_append] at hrest

/-- Each round adds what `g` makes of the element. -/
lemma Meets.foldOver_map {f : List β → α → Outcome (List β)} {g : α → β} {Q : Prop} {as : List α}
    (hf : ∀ bs, ∀ a ∈ as, (f bs a).Meets (· = bs ++ [g a]) Q) : (Outcome.foldOver f [] as).Meets (· = as.map g) Q := by
  apply Meets.foldOver (fun done bs => bs = done.map g) rfl
  rintro done a bs ha rfl
  rw [List.map_append, List.map_singleton]
  exact hf _ a ha

lemma Ends.foldOver {f : σ → α → Outcome σ} (I : List α → σ → Prop) {as : List α} {s : σ} (hs : I [] s)
    (hf : ∀ done a s, a ∈ as → I done s → (f s a).Ends (I (done ++ [a]))) : (Outcome.foldOver f s as).Ends (I as) := by
  suffices h : ∀ done rest s, I done s → (∀ a ∈ rest, a ∈ as) → (Outcome.foldOver f s rest).Ends (I (done ++ rest))
    from h [] as s hs fun _ ha => ha
  intro done rest
  induction rest generalizing done with
  | nil =>
    intro s hs _
    rw [List.append_nil]
    exact hs
  | cons a rest ih =>
    intro s hs hmem
    refine (hf done a s (hmem a List.mem_cons_self) hs).bind fun s' hs' => ?_
    have hrest := ih (done ++ [a]) s' hs' fun a' ha' => hmem a' (List.mem_cons_of_mem a ha')
    rwa [List.append_assoc, List.singleton_append] at hrest

lemma Le.foldOver {f g : σ → α → Outcome σ} (h : ∀ s a, (f s a).Le (g s a)) (s : σ) (as : List α) :
    (Outcome.foldOver f s as).Le (Outcome.foldOver g s as) := by
  induction as generalizing s with
  | nil => exact .refl _
  | cons a as ih => exact (h s a).bind fun s' => ih s'

/-- Fuel lasts for a loop if it lasts for each round, in whatever state it is met. -/
lemma exists_foldOver {f : ℕ → σ → α → Outcome σ} (hmono : ∀ n m s a, n ≤ m → (f n s a).Le (f m s a)) {I : σ → Prop}
    (as : List α) (hI : ∀ n s a s', a ∈ as → I s → f n s a = returns s' → I s')
    (hf : ∀ s a, a ∈ as → I s → ∃ n, f n s a ≠ runsOn) {s : σ} (hs : I s) :
    ∃ n, Outcome.foldOver (f n) s as ≠ runsOn := by
  induction as generalizing s with
  | nil => exact ⟨0, nofun⟩
  | cons a as ih =>
    obtain ⟨n, hn⟩ := hf s a List.mem_cons_self hs
    cases hfn : f n s a with
    | runsOn => exact absurd hfn hn
    | throws =>
      refine ⟨n, ?_⟩
      rw [foldOver, hfn]
      exact nofun
    | returns s' =>
      obtain ⟨m, hm⟩ := ih (fun n s a' s' ha' => hI n s a' s' (List.mem_cons_of_mem a ha'))
        (fun s a' ha' => hf s a' (List.mem_cons_of_mem a ha')) (hI n s a s' List.mem_cons_self hs hfn)
      refine ⟨max n m, ?_⟩
      have hrest := Le.foldOver (fun s a => hmono m _ s a (Nat.le_max_right n m)) s' as
      rw [foldOver, (hmono n _ s a (Nat.le_max_left n m)).eq hn, hfn, returns_bind, hrest.eq hm]
      exact hm

end Outcome

end Core
