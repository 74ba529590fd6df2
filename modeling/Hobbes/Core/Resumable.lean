import Hobbes.Core.Codec

/-!
# Machines that are resumed

A machine reads an input that comes in by pieces. At each call it is offered a number of bytes, takes some of
them, and answers whether it has finished.
-/

namespace Core

/-- A call that throws has no result. -/
abbrev Machine (S : Type) := S → ℕ → Bytes → Option (Bool × S × Bytes)

namespace Machine

variable {S T : Type} {f : Machine S} {g : Machine T}

/-- Call the machine until it has finished, with the offers that are left then. -/
def run (f : Machine S) : List ℕ → S → Bytes → Option (Bool × S × Bytes × List ℕ)
  | [], s, inp => some (false, s, inp, [])
  | k :: ks, s, inp => do
    let (done, s, inp) ← f s k inp
    if done then some (true, s, inp, ks) else run f ks s inp

/-- The number of calls that are offered something, or that have nothing left in front of `rest`. -/
def served (f : Machine S) (rest : Bytes) : List ℕ → S → Bytes → ℕ
  | [], _, _ => 0
  | k :: ks, s, inp => (if 0 < k ∨ inp = rest then 1 else 0) +
    (f s k inp).elim ks.length fun (_, s, inp) => served f rest ks s inp

/-- However its input comes in, the machine takes just `bs` and finishes in `s'`, as soon as enough calls
have been served. -/
def Completes (f : Machine S) (s : S) (bs : Bytes) (s' : S) : Prop :=
  ∃ m, ∀ ks rest, m ≤ f.served rest ks s (bs ++ rest) →
    ∃ ks', f.run ks s (bs ++ rest) = some (true, s', rest, ks')

lemma served_replicate (f : Machine S) (rest : Bytes) (n : ℕ) (s : S) (inp : Bytes) :
    f.served rest (List.replicate n 1) s inp = n := by
  induction n generalizing s inp with
  | zero => rfl
  | succ n ih =>
    rw [List.replicate_succ, served, if_pos (.inl Nat.one_pos)]
    cases f s 1 inp with
    | none => simp [Nat.add_comm]
    | some r => simp [ih, Nat.add_comm]

lemma Completes.unique {s s₁ s₂ : S} {bs : Bytes} (h₁ : f.Completes s bs s₁)
    (h₂ : f.Completes s bs s₂) : s₁ = s₂ := by
  obtain ⟨m₁, h₁⟩ := h₁
  obtain ⟨m₂, h₂⟩ := h₂
  have hserved : f.served [] (List.replicate (m₁ + m₂) 1) s (bs ++ []) = m₁ + m₂ :=
    served_replicate f [] (m₁ + m₂) s (bs ++ [])
  obtain ⟨ks₁, hrun₁⟩ := h₁ (List.replicate (m₁ + m₂) 1) [] (by omega)
  obtain ⟨ks₂, hrun₂⟩ := h₂ (List.replicate (m₁ + m₂) 1) [] (by omega)
  rw [hrun₁, Option.some.injEq] at hrun₂
  cases hrun₂
  rfl

/-- With just `bs` to take, at most `m` calls go on until the machine has finished, and the others wait for
their input. -/
def ProceedsIn (f : Machine S) (s' : S) : ℕ → S → Bytes → Prop
  | 0, _, _ => False
  | m + 1, s, bs => ∀ k rest, f s k (bs ++ rest) = some (true, s', rest) ∨
    ∃ s₁ bs₁, f s k (bs ++ rest) = some (false, s₁, bs₁ ++ rest) ∧
      (f.ProceedsIn s' m s₁ bs₁ ∨ k = 0 ∧ bs ≠ [] ∧ s₁ = s ∧ bs₁ = bs)

def Proceeds (f : Machine S) (s : S) (bs : Bytes) (s' : S) : Prop := ∃ m, f.ProceedsIn s' m s bs

lemma ProceedsIn.run {s' : S} {m : ℕ} {s : S} {bs : Bytes} (h : f.ProceedsIn s' m s bs) {ks : List ℕ}
    {rest : Bytes} (hm : m ≤ f.served rest ks s (bs ++ rest)) :
    ∃ ks', f.run ks s (bs ++ rest) = some (true, s', rest, ks') := by
  cases m with
  | zero => exact h.elim
  | succ m =>
    induction ks generalizing m s bs with
    | nil => exact absurd hm (Nat.not_succ_le_zero m)
    | cons k ks ih =>
      obtain hcall | ⟨s₁, bs₁, hcall, hnext⟩ := h k rest
      · exact ⟨ks, by simp [Machine.run, hcall]⟩
      · simp only [served, hcall, Option.elim_some] at hm
        have hrun : f.run (k :: ks) s (bs ++ rest) = f.run ks s₁ (bs₁ ++ rest) := by
          simp [Machine.run, hcall]
        rw [hrun]
        obtain hnext | ⟨rfl, hne, rfl, rfl⟩ := hnext
        · have hle : m ≤ f.served rest ks s₁ (bs₁ ++ rest) := by
            split at hm <;> omega
          cases m with
          | zero => exact hnext.elim
          | succ m => exact ih _ hnext hle
        · rw [if_neg (by simp [hne]), Nat.zero_add] at hm
          exact ih _ h hm

lemma Proceeds.completes {s s' : S} {bs : Bytes} (h : f.Proceeds s bs s') : f.Completes s bs s' := by
  obtain ⟨m, h⟩ := h
  exact ⟨m, fun _ _ hm => h.run hm⟩

lemma ProceedsIn.mono {s' : S} {m n : ℕ} (hle : m ≤ n) {s : S} {bs : Bytes}
    (h : f.ProceedsIn s' m s bs) : f.ProceedsIn s' n s bs := by
  induction m generalizing n s bs with
  | zero => exact h.elim
  | succ m ih =>
    obtain ⟨n, rfl⟩ := Nat.exists_eq_add_of_le' hle
    intro k rest
    exact (h k rest).imp_right fun ⟨s₁, bs₁, hcall, hnext⟩ =>
      ⟨s₁, bs₁, hcall, hnext.imp_left (ih (Nat.le_add_left m n))⟩

/-! ### Single calls -/

lemma Proceeds.of_call {s s' : S} (h : ∀ k inp, f s k inp = some (true, s', inp)) :
    f.Proceeds s [] s' :=
  ⟨1, fun k rest => .inl (h k rest)⟩

lemma Proceeds.call {s s₁ s' : S} {bs : Bytes} (h : ∀ k inp, f s k inp = some (false, s₁, inp))
    (hnext : f.Proceeds s₁ bs s') : f.Proceeds s bs s' := by
  obtain ⟨m, hm⟩ := hnext
  exact ⟨m + 1, fun k rest => .inr ⟨s₁, bs, h k (bs ++ rest), .inl hm⟩⟩

lemma Proceeds.call_cases {s s' : S} {bs : Bytes} (h : f.Proceeds s bs s') (k : ℕ) (rest : Bytes) :
    f s k (bs ++ rest) = some (true, s', rest) ∨
      ∃ s₁ bs₁, f s k (bs ++ rest) = some (false, s₁, bs₁ ++ rest) ∧ f.Proceeds s₁ bs₁ s' := by
  obtain ⟨_ | m, h⟩ := h
  · exact h.elim
  · refine (h k rest).imp_right fun ⟨s₁, bs₁, hcall, hnext⟩ => ⟨s₁, bs₁, hcall, ?_⟩
    obtain hnext | ⟨-, -, rfl, rfl⟩ := hnext
    · exact ⟨m, hnext⟩
    · exact ⟨m + 1, h⟩

/-! ### Machines inside of machines -/

/-- While it is in the states `emb t`, the machine `f` calls `g`, and when `g` has finished, `f` answers and
goes on as `next` says. -/
def Calls (f : Machine S) (g : Machine T) (emb : T → S) (next : T → Bool × S) : Prop :=
  ∀ t k inp, f (emb t) k inp = (g t k inp).map fun (done, t', inp') =>
    if done then ((next t').1, (next t').2, inp') else (false, emb t', inp')

variable {emb : T → S} {next : T → Bool × S}

/-- The machine finishes with the one that it calls. -/
lemma Calls.proceeds (h : f.Calls g emb next) {t t' : T} {bs : Bytes} (hg : g.Proceeds t bs t')
    (hnext : (next t').1) : f.Proceeds (emb t) bs (next t').2 := by
  obtain ⟨m, hg⟩ := hg
  refine ⟨m, ?_⟩
  induction m generalizing t bs with
  | zero => exact hg.elim
  | succ m ih =>
    intro k rest
    rw [h]
    obtain hcall | ⟨t₁, bs₁, hcall, hgo⟩ := hg k rest
    · exact .inl (by simp [hcall, hnext])
    · refine .inr ⟨emb t₁, bs₁, by simp [hcall], ?_⟩
      exact hgo.imp ih fun ⟨hk, hne, ht, hbs⟩ => ⟨hk, hne, ht ▸ rfl, hbs⟩

/-- The machine goes on behind the one that it calls. -/
lemma Calls.proceeds_then (h : f.Calls g emb next) {t t' : T} {s : S} {bs bs' : Bytes}
    (hg : g.Proceeds t bs t') (hnext : (next t').1 = false)
    (hf : f.Proceeds (next t').2 bs' s) : f.Proceeds (emb t) (bs ++ bs') s := by
  obtain ⟨m, hg⟩ := hg
  obtain ⟨m', hf⟩ := hf
  refine ⟨m + m', ?_⟩
  induction m generalizing t bs with
  | zero => exact hg.elim
  | succ m ih =>
    rw [Nat.add_right_comm]
    intro k rest
    rw [h, List.append_assoc]
    obtain hcall | ⟨t₁, bs₁, hcall, hgo⟩ := hg k (bs' ++ rest)
    · refine .inr ⟨(next t').2, bs', by simp [hcall, hnext], .inl ?_⟩
      exact hf.mono (Nat.le_add_left m' m)
    · refine .inr ⟨emb t₁, bs₁ ++ bs', by simp [hcall], ?_⟩
      refine hgo.imp ih fun ⟨hk, hne, ht, hbs⟩ => ⟨hk, ?_, ht ▸ rfl, hbs ▸ rfl⟩
      exact fun hnil => hne (List.append_eq_nil_iff.mp hnil).1

/-! ### Buffers -/

/-- A machine that copies what it is offered into a buffer. `P o s` says that the first `o` bytes of `bs` are
there in `s`. -/
lemma proceeds_fill {bs : Bytes} {P : ℕ → S → Prop}
    (hcall : ∀ o s, P o s → o < bs.length → ∀ k rest, ∃ s' c, c = min k (bs.length - o) ∧
      f s k (bs.drop o ++ rest) = some (o + c == bs.length, s', bs.drop (o + c) ++ rest) ∧
      P (o + c) s' ∧ (k = 0 → s' = s))
    {s' : S} (hfin : ∀ s, P bs.length s → s = s') {o : ℕ} {s : S} (hs : P o s) (ho : o < bs.length) :
    f.Proceeds s (bs.drop o) s' := by
  obtain ⟨n, hn⟩ := Nat.exists_eq_add_of_lt ho
  refine ⟨n + 1, ?_⟩
  induction n using Nat.strongRecOn generalizing o s with
  | ind n ih =>
    intro k rest
    obtain ⟨s₁, c, hc, hf, hP, hzero⟩ := hcall o s hs ho k rest
    rw [hf]
    by_cases hlen : o + c = bs.length
    · rw [hlen] at hP
      exact .inl (by simp [hfin s₁ hP, hlen])
    · refine .inr ⟨s₁, bs.drop (o + c), by simp [hlen], ?_⟩
      rcases Nat.eq_zero_or_pos k with rfl | hk
      · refine .inr ⟨rfl, ?_, hzero rfl, by simp [hc]⟩
        exact List.ne_nil_of_length_pos (by rw [List.length_drop]; omega)
      · refine .inl (ProceedsIn.mono (m := n - c + 1) (by omega) (ih (n - c) ?_ hP ?_ ?_)) <;> omega

end Machine

end Core
