import Mathlib.Data.List.TakeWhile
import Hobbes.Storage.Storable

/-!
# The size of a value is what is written of it

`size` and `write` are two recursions over the same value. Both are compared with `encoding`, the
bytes that the value goes through a pipe as.
-/

namespace Hobbes.Storage

open Core

variable {c : Option Ty} {t : Ty} {ts : List Ty}

mutual

/-- The bytes that stand for a value. -/
def Value.encoding {c : Option Ty} {t : Ty} : Value c t → Bytes
  | .prim bytes _ => bytes
  | .unit | .count => []
  | .cstring s _ | .string s => leBytes 8 s.length ++ s
  | .vector (n := n) xs => leBytes 8 n ++ xs.encoding
  | .array xs | .tuple xs | .struct xs => xs.encoding
  | .pair first second => first.encoding ++ second.encoding
  | .variant tag x => leBytes 4 tag ++ x.encoding
  | .alias value | .recursion value | .recursive value => value.encoding

def Values.encoding {c : Option Ty} {ts : List Ty} : Values c ts → Bytes
  | .nil => []
  | .cons x xs => x.encoding ++ xs.encoding

end

/-! ### Types -/

mutual

lemma Ty.same_self (t : Ty) : t.same t = true := by
  match t with
  | .prim n => simp [Ty.same]
  | .unit | .cstring | .string | .recursion => simp [Ty.same]
  | .vector u | .alias u | .recursive u => simp [Ty.same, Ty.same_self u]
  | .array u n => simp [Ty.same, Ty.same_self u]
  | .pair u v => simp [Ty.same, Ty.same_self u, Ty.same_self v]
  | .tuple ts | .struct ts | .variant ts => simp [Ty.same, Ty.sames_self ts]

lemma Ty.sames_self (ts : List Ty) : Ty.sames ts ts = true := by
  match ts with
  | [] => simp [Ty.sames]
  | t :: ts => simp [Ty.sames, Ty.same_self t, Ty.sames_self ts]

end

lemma Ty.eq_prim_of_canMemcpy {k : ℕ} (h : t.canMemcpy = some k) : t = .prim k := by
  cases t <;> simp_all [Ty.canMemcpy]

/-- The pointer serves the recursive type around a value. -/
def RecF.Serves (f : RecF) (c : Option Ty) : Prop := ∀ t, c = some t → f.calls t = true

lemma RecF.serves_none (f : RecF) : f.Serves none := by
  intro t h
  simp at h

lemma RecF.serves_self (t : Ty) : RecF.Serves (some t) (some t) := by
  intro u h
  obtain rfl := Option.some.inj h
  exact Ty.same_self t

/-! ### Elements that are copied as they are -/

lemma Values.raw_eq {ts : List Ty} {k : ℕ} (xs : Values c ts) (h : ∀ t ∈ ts, t = .prim k) :
    xs.raw = xs.encoding ∧ xs.encoding.length = ts.length * k := by
  match xs with
  | .nil => simp [Values.raw, Values.encoding]
  | .cons x xs =>
    obtain rfl := h _ List.mem_cons_self
    obtain ⟨hraw, hlen⟩ := xs.raw_eq fun t ht => h t (List.mem_cons_of_mem _ ht)
    cases x with
    | prim bytes hbytes =>
      simp [Values.raw, Values.encoding, Value.encoding, hraw, hlen, hbytes, Nat.succ_mul,
        Nat.add_comm]

lemma Values.raw_eq_replicate {n k : ℕ} (xs : Values c (List.replicate n t))
    (h : t.canMemcpy = some k) : xs.raw = xs.encoding ∧ xs.encoding.length = n * k := by
  simpa using xs.raw_eq fun u hu => (List.eq_of_mem_replicate hu).trans (Ty.eq_prim_of_canMemcpy h)

lemma takeWhile_of_notMem {s : Bytes} (h : 0 ∉ s) : s.takeWhile (· != 0) = s := by
  rw [List.takeWhile_eq_self_iff]
  intro b hb
  simpa using ne_of_mem_of_not_mem hb h

/-! ### Sizes -/

mutual

/-- The size of a value is the length of its encoding, and the pointer is as it was. -/
lemma Value.size_eq {c : Option Ty} {t : Ty} (v : Value c t) {sf : RecF} (hsf : sf.Serves c) :
    v.size.run sf = some (UInt64.ofNat v.encoding.length, sf) := by
  match v with
  | .prim bytes h => simp [Value.size, Value.encoding, h]
  | .unit => rfl
  | .cstring s h => simp [Value.size, Value.encoding, takeWhile_of_notMem h]
  | .string s => simp [Value.size, Value.encoding]
  | .vector (t := u) xs =>
    cases hk : u.canMemcpy with
    | some k => simp [Value.size, Value.encoding, hk, (xs.raw_eq_replicate hk).2]
    | none => simp [Value.size, Value.encoding, hk, xs.sizeFrom_eq hsf]
  | .array (t := u) xs =>
    cases hk : u.canMemcpy with
    | some k => simp [Value.size, Value.encoding, hk, (xs.raw_eq_replicate hk).2, UInt64.mul_comm]
    | none => simp [Value.size, Value.encoding, hk, xs.sizeFrom_eq hsf]
  | .pair first second =>
    simp [Value.size, Value.encoding, first.size_eq hsf, second.size_eq hsf]
  | .tuple xs => simp [Value.size, Value.encoding, xs.size_eq hsf]
  | .struct xs => simp [Value.size, Value.encoding, xs.sizeFrom_eq hsf]
  | .variant tag x => simp [Value.size, Value.encoding, x.size_eq hsf]
  | .count => rfl
  | .alias value => simp [Value.size, Value.encoding, value.size_eq hsf]
  | .recursion value => simp [Value.size, Value.encoding, hsf _ rfl, value.size_eq hsf]
  | .recursive value =>
    simp [Value.size, Value.encoding, value.size_eq (RecF.serves_self _)]

lemma Values.size_eq {c : Option Ty} {ts : List Ty} (xs : Values c ts) {sf : RecF}
    (hsf : sf.Serves c) : xs.size.run sf = some (UInt64.ofNat xs.encoding.length, sf) := by
  match xs with
  | .nil => rfl
  | .cons x xs => simp [Values.size, Values.encoding, x.size_eq hsf, xs.size_eq hsf]

lemma Values.sizeFrom_eq {c : Option Ty} {ts : List Ty} (xs : Values c ts) {s : UInt64}
    {sf : RecF} (hsf : sf.Serves c) :
    (xs.sizeFrom s).run sf = some (s + UInt64.ofNat xs.encoding.length, sf) := by
  match xs with
  | .nil => simp [Values.sizeFrom, Values.encoding]
  | .cons x xs =>
    simp [Values.sizeFrom, Values.encoding, x.size_eq hsf, xs.sizeFrom_eq hsf, UInt64.add_assoc]

end

/-! ### Writes -/

/-- With the pointer `wf`, the program makes writes that put together a prefix of `e`, all of it if
it returns true, and leaves the pointer as it was. -/
def WriteM.Puts (p : WriteM Bool) (wf : RecF) (e : Bytes) : Prop :=
  ∃ (bs : List Bytes) (ok : Bool), p.run wf = Calls.each (ok, wf) (false, wf) (bs.map PipeCall.write) ∧
    bs.flatten <+: e ∧ (ok = true → bs.flatten = e)

section

variable {p q : WriteM Bool} {wf : RecF} {e e' : Bytes}

lemma WriteM.puts_write (src : Bytes) (wf : RecF) : (WriteM.write src).Puts wf src := by
  refine ⟨[src], true, ?_, by simp, by simp⟩
  change Calls.call _ _ = Calls.call _ _
  congr 1
  funext ok
  cases ok <;> rfl

lemma WriteM.puts_pure (ok : Bool) (wf : RecF) : (pure ok : WriteM Bool).Puts wf [] :=
  ⟨[], ok, rfl, by simp, by simp⟩

/-- `p && q`. -/
lemma WriteM.Puts.and (hp : p.Puts wf e) (hq : q.Puts wf e') :
    Puts (do if ← p then q else pure false) wf (e ++ e') := by
  obtain ⟨bs, ok, hrun, hpre, heq⟩ := hp
  rw [Puts, StateT.run_bind, hrun]
  cases ok with
  | false =>
    refine ⟨bs, false, ?_, hpre.trans (List.prefix_append ..), by simp⟩
    exact Calls.each_bind_ret _ rfl rfl
  | true =>
    obtain ⟨bs', ok', hrun', hpre', heq'⟩ := hq
    refine ⟨bs ++ bs', ok', ?_, ?_, fun hok => ?_⟩
    · rw [List.map_append]
      exact Calls.each_bind _ (by simpa using hrun') rfl
    · rw [List.flatten_append, heq rfl]
      exact (List.prefix_append_right_inj _).mpr hpre'
    · rw [List.flatten_append, heq rfl, heq' hok]

end

mutual

/-- What is written of a value is its encoding, if the write succeeds. -/
lemma Value.write_puts {c : Option Ty} {t : Ty} (v : Value c t) {wf : RecF}
    (hwf : wf.Serves c) : v.write.Puts wf v.encoding := by
  match v with
  | .prim bytes h => exact WriteM.puts_write bytes wf
  | .unit => exact WriteM.puts_pure true wf
  | .cstring s h =>
    simp only [Value.write, takeWhile_of_notMem h]
    exact (WriteM.puts_write _ wf).and (WriteM.puts_write s wf)
  | .string s => exact (WriteM.puts_write _ wf).and (WriteM.puts_write s wf)
  | .vector (t := u) xs =>
    cases hk : u.canMemcpy with
    | some k =>
      simp only [Value.write, hk, Value.encoding, (xs.raw_eq_replicate hk).1]
      exact (WriteM.puts_write _ wf).and (WriteM.puts_write _ wf)
    | none =>
      simp only [Value.write, hk, Value.encoding]
      exact (WriteM.puts_write _ wf).and (xs.write_puts hwf)
  | .array (t := u) xs =>
    cases hk : u.canMemcpy with
    | some k =>
      simp only [Value.write, hk, Value.encoding, (xs.raw_eq_replicate hk).1]
      exact WriteM.puts_write _ wf
    | none =>
      simp only [Value.write, hk, Value.encoding]
      exact xs.write_puts hwf
  | .pair first second => exact (first.write_puts hwf).and (second.write_puts hwf)
  | .tuple xs | .struct xs => exact xs.write_puts hwf
  | .variant tag x => exact (WriteM.puts_write _ wf).and (x.write_puts hwf)
  | .count => exact WriteM.puts_pure false wf
  | .alias value => exact value.write_puts hwf
  | .recursion value =>
    have hrun : (Value.recursion value).write.run wf = value.write.run wf := by
      simp [Value.write, hwf _ rfl]
    rw [WriteM.Puts, hrun]
    exact value.write_puts hwf
  | .recursive (t := u) value =>
    obtain ⟨bs, ok, hrun, hpre, heq⟩ := value.write_puts (RecF.serves_self u)
    refine ⟨bs, ok, ?_, hpre, heq⟩
    simp only [Value.write, StateT.run_bind, StateT.run_get, StateT.run_set, StateT.run_pure,
      Calls.pure_eq_ret, Calls.ret_bind, hrun]
    exact Calls.each_bind_ret _ rfl rfl

lemma Values.write_puts {c : Option Ty} {ts : List Ty} (xs : Values c ts) {wf : RecF}
    (hwf : wf.Serves c) : xs.write.Puts wf xs.encoding := by
  match xs with
  | .nil => exact WriteM.puts_pure true wf
  | .cons x xs => exact (x.write_puts hwf).and (xs.write_puts hwf)

end

end Hobbes.Storage
