import Hobbes.Parse.Parser

/-!
# Evaluation of generated expressions

`Evals L env e v` says that `e` has the value `v`, given enough steps.
-/

namespace Hobbes.Parse

open Core

variable {V : Type} [LinearOrder (Terminal Sym)] {unit : V} {L : LetRec V} {n m : ℕ} {env : Env V}
  {e a b : ParseExpr V} {r v : Val V}

omit [LinearOrder (Terminal Sym)] in
lemma mapM_mono {α β : Type} {f g : α → Option β} {xs : List α} {ys : List β}
    (hfg : ∀ x y, f x = some y → g x = some y) (h : xs.mapM f = some ys) : xs.mapM g = some ys :=
  mapM_eq_some.mpr ((mapM_eq_some.mp h).imp fun x y => hfg x y)

/-- One more step does not change a value. -/
lemma eval_succ (h : eval unit L n env e = some r) : eval unit L (n + 1) env e = some r := by
  induction n generalizing env e r with
  | zero => cases h
  | succ n ih =>
    cases e with
    | var y => exact h
    | unit => exact h
    | size k => exact h
    | int k => exact h
    | failure => exact h
    | reducer rl => exact h
    | ladd a b =>
      rw [eval] at h ⊢
      split at h
      · rename_i k l ha hb
        rw [ih ha, ih hb]
        exact h
      · cases h
    | iadd a b =>
      rw [eval] at h ⊢
      split at h
      · rename_i k l ha hb
        rw [ih ha, ih hb]
        exact h
      · cases h
    | isub a b =>
      rw [eval] at h ⊢
      split at h
      · rename_i k l ha hb
        rw [ih ha, ih hb]
        exact h
      · cases h
    | fncall f args =>
      rw [eval] at h ⊢
      split at h
      · rename_i vs ps body hargs hL
        rw [mapM_mono (fun _ _ => ih) hargs, hL]
        exact ih h
      · cases h
    | letIn y e b =>
      rw [eval] at h ⊢
      split at h
      · rename_i v hv
        rw [ih hv]
        exact ih h
      · cases h
    | ifEnd a b =>
      rw [eval] at h ⊢
      split at h
      · exact ih h
      · cases h
    | matchElement rows e =>
      rw [eval] at h ⊢
      split at h
      · split at h
        · exact ih h
        · cases h
      · cases h
    | matchResult k rows =>
      rw [eval] at h ⊢
      split at h
      · split at h
        · exact ih h
        · exact h
      · exact h
    | success e =>
      rw [eval] at h ⊢
      split at h
      · rename_i w hw
        rw [ih hw]
        exact h
      · cases h
    | reduction s f₀ f₁ f₂ =>
      rw [eval] at h ⊢
      split at h
      · rename_i i sd w h₀ h₁ h₂
        rw [ih h₀, ih h₁, ih h₂]
        exact h
      · cases h

lemma eval_mono (h : eval unit L n env e = some r) (hnm : n ≤ m) :
    eval unit L m env e = some r := by
  induction hnm with
  | refl => exact h
  | step _ ih => exact eval_succ ih

def Evals (unit : V) (L : LetRec V) (env : Env V) (e : ParseExpr V) (r : Val V) : Prop :=
  ∃ n, eval unit L n env e = some r

namespace Evals

lemma unique (h : Evals unit L env e r) (h' : Evals unit L env e v) : r = v := by
  obtain ⟨n, hn⟩ := h
  obtain ⟨m, hm⟩ := h'
  have hn' := eval_mono hn (Nat.le_max_left n m)
  have hm' := eval_mono hm (Nat.le_max_right n m)
  exact Option.some.inj (hn'.symm.trans hm')

lemma var {y : Var} (h : env y = some r) : Evals unit L env (.var y) r := ⟨1, h⟩

lemma unit_ : Evals unit L env .unit (.value unit) := ⟨1, rfl⟩

lemma size (k : ℕ) : Evals unit L env (.size k) (.size k) := ⟨1, rfl⟩

lemma int (k : ℤ) : Evals unit L env (.int k) (.int k) := ⟨1, rfl⟩

lemma failure : Evals unit L env .failure .failure := ⟨1, rfl⟩

lemma reducer (rl : ParseRule V) :
    Evals unit L env (.reducer rl) (.value (rl.reducer (rl.bound env.valueAt))) := ⟨1, rfl⟩

/-- Two expressions have their values after the same number of steps. -/
lemma common {env' : Env V} (ha : Evals unit L env a r) (hb : Evals unit L env' b v) :
    ∃ n, eval unit L n env a = some r ∧ eval unit L n env' b = some v := by
  obtain ⟨n, hn⟩ := ha
  obtain ⟨m, hm⟩ := hb
  exact ⟨max n m, eval_mono hn (Nat.le_max_left n m), eval_mono hm (Nat.le_max_right n m)⟩

lemma ladd {k l : ℕ} (ha : Evals unit L env a (.size k)) (hb : Evals unit L env b (.size l)) :
    Evals unit L env (.ladd a b) (.size (k + l)) := by
  obtain ⟨n, hn, hn'⟩ := ha.common hb
  exact ⟨n + 1, by rw [eval, hn, hn']⟩

lemma iadd {k l : ℤ} (ha : Evals unit L env a (.int k)) (hb : Evals unit L env b (.int l)) :
    Evals unit L env (.iadd a b) (.int (k + l)) := by
  obtain ⟨n, hn, hn'⟩ := ha.common hb
  exact ⟨n + 1, by rw [eval, hn, hn']⟩

lemma isub {k l : ℤ} (ha : Evals unit L env a (.int k)) (hb : Evals unit L env b (.int l)) :
    Evals unit L env (.isub a b) (.int (k - l)) := by
  obtain ⟨n, hn, hn'⟩ := ha.common hb
  exact ⟨n + 1, by rw [eval, hn, hn']⟩

lemma letIn {y : Var} (ha : Evals unit L env a r) (hb : Evals unit L (env.set y r) b v) :
    Evals unit L env (.letIn y a b) v := by
  obtain ⟨n, hn, hn'⟩ := ha.common hb
  exact ⟨n + 1, by rw [eval, hn]; exact hn'⟩

lemma args {es : List (ParseExpr V)} {vs : List (Val V)}
    (h : List.Forall₂ (Evals unit L env) es vs) : ∃ n, es.mapM (eval unit L n env) = some vs := by
  induction h with
  | nil => exact ⟨0, rfl⟩
  | cons ha _ ih =>
    obtain ⟨n, hn⟩ := ha
    obtain ⟨m, hm⟩ := ih
    refine ⟨max n m, mapM_eq_some.mpr (.cons (eval_mono hn (Nat.le_max_left n m)) ?_)⟩
    exact (mapM_eq_some.mp hm).imp fun _ _ h => eval_mono h (Nat.le_max_right n m)

lemma fncall {f : StateFn} {es : List (ParseExpr V)} {vs : List (Val V)} {ps : List Var}
    (hes : List.Forall₂ (Evals unit L env) es vs) (hL : L.lookup f = some (ps, b))
    (hb : Evals unit L (bindAll ps vs) b r) : Evals unit L env (.fncall f es) r := by
  obtain ⟨n, hn⟩ := args hes
  obtain ⟨m, hm⟩ := hb
  refine ⟨max n m + 1, ?_⟩
  rw [eval, mapM_mono (fun _ _ h => eval_mono h (Nat.le_max_left n m)) hn, hL]
  exact eval_mono hm (Nat.le_max_right n m)

lemma ifEnd {cs : List UInt8} {k : ℕ} (hcs : env .arr = some (.arr cs))
    (hk : env .i = some (.size k)) (h : Evals unit L env (if k = cs.length then a else b) r) :
    Evals unit L env (.ifEnd a b) r := by
  obtain ⟨n, hn⟩ := h
  exact ⟨n + 1, by rw [eval, hcs, hk]; exact hn⟩

lemma matchElement {rows : List (UInt8 × ParseExpr V)} {cs : List UInt8} {k : ℕ} {c : UInt8}
    (hcs : env .arr = some (.arr cs)) (hk : env .i = some (.size k)) (hc : cs[k]? = some c)
    (h : Evals unit L env ((rows.lookup c).getD e) r) :
    Evals unit L env (.matchElement rows e) r := by
  obtain ⟨n, hn⟩ := h
  refine ⟨n + 1, ?_⟩
  rw [eval, hcs, hk]
  simp only [hc]
  exact hn

section

variable {rows : List (Terminal Sym × ParseExpr V)} {k i : ℕ} {s : Terminal Sym} {sdp sd : ℤ} {w : V}

lemma matchResult {row : Terminal Sym × ParseExpr V}
    (hx : env .x = some (.reduction s i sdp w)) (hsd : env .sd = some (.int sd))
    (hrow : rows.find? (fun row => row.1 = s ∧ sd = sdp) = some row)
    (h : Evals unit L (((env.set .i (.size i)).set .sdp (.int sdp)).set (.v k) (.value w)) row.2 r) :
    Evals unit L env (.matchResult k rows) r := by
  obtain ⟨n, hn⟩ := h
  refine ⟨n + 1, ?_⟩
  rw [eval, hx, hsd]
  simp only [hrow]
  exact hn

/-- What no row matches is returned as it is. -/
lemma matchResult_pass (hx : env .x = some r) (hsd : env .sd = some (.int sd))
    (hrow : ∀ s i sdp w, r = .reduction s i sdp w → ∀ row ∈ rows, row.1 = s → sd ≠ sdp) :
    Evals unit L env (.matchResult k rows) r := by
  refine ⟨1, ?_⟩
  rw [eval, hx, hsd]
  cases r with
  | reduction s i sdp w =>
    have hnone : rows.find? (fun row => row.1 = s ∧ sd = sdp) = none := by
      refine List.find?_eq_none.mpr fun row hmem => ?_
      simpa using hrow s i sdp w rfl row hmem
    simp only [hnone]
  | _ => rfl

end

lemma success {w : V} (h : Evals unit L env e (.value w)) :
    Evals unit L env (.success e) (.success w) := by
  obtain ⟨n, hn⟩ := h
  exact ⟨n + 1, by rw [eval, hn]⟩

lemma reduction {s : Terminal Sym} {f₀ f₁ f₂ : ParseExpr V} {i : ℕ} {sd : ℤ} {w : V}
    (h₀ : Evals unit L env f₀ (.size i)) (h₁ : Evals unit L env f₁ (.int sd))
    (h₂ : Evals unit L env f₂ (.value w)) :
    Evals unit L env (.reduction s f₀ f₁ f₂) (.reduction s i sd w) := by
  obtain ⟨n, hn, hn'⟩ := h₀.common h₁
  obtain ⟨m, hm⟩ := h₂
  refine ⟨max n m + 1, ?_⟩
  rw [eval, eval_mono hn (Nat.le_max_left n m), eval_mono hn' (Nat.le_max_left n m),
    eval_mono hm (Nat.le_max_right n m)]

lemma vars {ys : List Var} {vs : List (Val V)} (h : List.Forall₂ (fun y v => env y = some v) ys vs) :
    List.Forall₂ (Evals unit L env) (ParserEvalInfo.vars ys) vs := by
  rw [ParserEvalInfo.vars, List.forall₂_map_left_iff]
  exact h.imp fun _ _ => var

end Evals

/-! ### The variables of a function -/

omit [LinearOrder (Terminal Sym)] in
lemma lookup_varNames (ws : List (Val V)) (k : ℕ) :
    ((ParserEvalInfo.varNames ws.length).zip ws).lookup (.v k) = ws[k]? := by
  have hshift : ∀ (ws : List (Val V)) (s : ℕ),
      (((List.range' s ws.length).map Var.v).zip ws).lookup (.v k) =
        if s ≤ k then ws[k - s]? else none := by
    intro ws
    induction ws with
    | nil => simp
    | cons w ws ih =>
      intro s
      rw [List.length_cons, List.range'_succ, List.map_cons, List.zip_cons_cons, List.lookup_cons,
        ih (s + 1)]
      rcases Nat.lt_trichotomy k s with hlt | rfl | hgt
      · rw [show (Var.v k == Var.v s) = false by simp [Nat.ne_of_lt hlt], if_neg (by omega),
          if_neg (by omega)]
      · simp
      · rw [show (Var.v k == Var.v s) = false by simp [Nat.ne_of_gt hgt], if_pos (by omega),
          if_pos (by omega), show k - s = k - (s + 1) + 1 by omega, List.getElem?_cons_succ]
  rw [ParserEvalInfo.varNames, List.range_eq_range', hshift ws 0]
  simp

omit [LinearOrder (Terminal Sym)] in
lemma lookup_varNames_ne {ws : List (Val V)} {y : Var} (hy : ∀ k, y ≠ .v k) (d : ℕ) :
    ((ParserEvalInfo.varNames d).zip ws).lookup y = none := by
  refine List.lookup_eq_none_iff.mpr fun x hx => ?_
  obtain ⟨k, -, hk⟩ := List.mem_map.mp (List.of_mem_zip hx).1
  simpa [← hk] using hy k

end Hobbes.Parse
