import Hobbes.Match.TableBranches

/-!
# Columns of arrays
-/

namespace Hobbes.Match.Table

open Core Lang

variable {G E : Type} {guards : G → Bool} {mk : PatternRows G E → Make G E ℕ} {ps : PatternRows G E}
  {xs : List Column} {c : ℕ} {x : Column}

/-! ### The elements of an array -/

lemma maSize_eq_some {p : Pattern} {n : ℕ} (h : maSize p = some n) : ∃ y qs, p = .array y qs ∧ qs.length = n := by
  cases p <;> cases h
  exact ⟨_, _, rfl, rfl⟩

def elementColumns (x : Name) (n : ℕ) : List Column := (List.range n).map fun i => ⟨.element x i, false⟩

def elementTys (n : ℕ) : Ty → List Ty
  | .array t => List.replicate n t
  | _ => []

lemma placed_arrayPatterns {y : Name} {qs : List Pattern} (h : Placed x (.array y qs)) :
    List.Forall₂ Placed (elementColumns x.name qs.length) qs := by
  have hnamed := h.named rfl
  rw [Pattern.assignName, Pattern.assignElements_eq, Pattern.array.injEq] at hnamed
  have hstrings := h.inner
  rw [Pattern.hasInnerString, Pattern.hasStrings_eq, List.any_eq_false] at hstrings
  rw [List.forall₂_iff_get]
  refine ⟨by simp [elementColumns], fun i hi hi' => ?_⟩
  have hq := congrArg (·[i]?) hnamed.2
  simp only [List.getElem?_mapIdx, List.getElem?_eq_getElem hi', Option.map_some, Option.some.injEq, Nat.zero_add] at hq
  simp only [elementColumns, List.get_eq_getElem, List.getElem_map, List.getElem_range]
  exact placed_part hq (by simpa using hstrings _ (List.getElem_mem hi'))

/-- The patterns for an array of `n` elements. -/
abbrev arrayParts (n : ℕ) : Pattern → Option (List Pattern) :=
  branchParts maSize arrayPatterns (fun n _ => arrayAnyMatches n) n

lemma takenApart_array {n : ℕ} (hn : ∃ p, InColumn ps c p ∧ maSize p = some n) :
    TakenApart (arrayParts n) x (elementColumns x.name n) (elementTys n) ps c := by
  obtain ⟨p₀, hp₀, hsize₀⟩ := hn
  refine ⟨⟨p₀, hp₀, isSome_branchParts hsize₀⟩, ?_, ?_, fun p qs hp hplaced hqs => ?_, fun p qs t hp ht hqs => ?_⟩
  · rw [elementColumns, List.pairwise_map]
    refine List.nodup_range.imp fun {i j} hij => apart_of_parent rfl rfl fun h => hij ?_
    exact (Name.element.inj h).2
  · simp only [elementColumns, List.forall_mem_map]
    exact fun i _ => .element i .refl
  · rcases branchParts_eq_some hqs with ⟨hsize, rfl⟩ | ⟨-, rfl⟩
    · obtain ⟨y, qs, rfl, rfl⟩ := maSize_eq_some hsize
      exact placed_arrayPatterns hplaced
    · have hany : List.Forall₂ Placed (elementColumns x.name n) (arrayAnyMatches (elementColumns x.name n).length) :=
        placed_arrayAnyMatches (by simp [elementColumns])
      simpa [elementColumns] using hany
  · obtain ⟨y₀, qs₀, rfl, hlen₀⟩ := maSize_eq_some hsize₀
    obtain ⟨t', rfl, -⟩ := columnTy_array ht hp₀
    rcases branchParts_eq_some hqs with ⟨hsize, rfl⟩ | ⟨-, rfl⟩
    · obtain ⟨y, qs, rfl, rfl⟩ := maSize_eq_some hsize
      obtain ⟨t'', heq, hqs, -⟩ := columnTy_array ht hp
      obtain rfl := Ty.array.inj heq
      exact forall₂_replicate hqs
    · have := typed_arrayAnyMatches (List.replicate n t')
      rwa [List.length_replicate] at this

lemma Pattern.length_eq_of_acceptsAll {ps : List Pattern} {vs : List Value} (h : acceptsAll ps vs = true) :
    ps.length = vs.length := (acceptsAll_iff.mp h).length_eq

/-- An array is opened as the patterns for its length are. -/
lemma opens_array (hsplits : Splits maSize ps c) {ws : List Value} :
    Opens (arrayParts ws.length) (elementTys ws.length) ps c (.array ws) ws := by
  refine ⟨fun t hty ht => ?_, fun p qs hin hqs => ?_, fun p hin hnone => ?_⟩
  · cases hty with
    | array hvs => exact forall₂_replicate hvs
  · rcases branchParts_eq_some hqs with ⟨hsize, rfl⟩ | ⟨hnone, rfl⟩
    · obtain ⟨y, qs, rfl, hlen⟩ := maSize_eq_some hsize
      exact ⟨hlen, by rw [Pattern.accepts]; rfl⟩
    · have hlen : (arrayAnyMatches ws.length).length = ws.length := List.length_replicate
      refine ⟨hlen, ?_⟩
      rw [Pattern.accepts_of_isAny (isAny_of_splits hsplits hin hnone),
        Pattern.acceptsAll_of_isAny (fun q hq => isAny_of_mem_arrayAnyMatches hq) hlen]
  · obtain ⟨n, hsize, hne⟩ := branchParts_eq_none hnone
    obtain ⟨y, qs, rfl, rfl⟩ := maSize_eq_some hsize
    rw [Pattern.accepts, Bool.eq_false_iff]
    exact fun h => hne (Pattern.length_eq_of_acceptsAll h)

/-- The value of the column is an array of `n` elements. -/
def IsArray (c n : ℕ) (_ : Env) (vs : List Value) : Prop := ∃ ws, vs[c]? = some (.array ws) ∧ ws.length = n

/-- The elements of an array are loaded as the columns for its length. -/
lemma exists_loadElements {env : Env} {ws : List Value} (henv : env x.name = some (.array ws)) :
    ∃ env', loadAll guards ((List.range ws.length).map fun i => (.element x.name i, .element x.name i)) env =
      some env' ∧ Bound env' (elementColumns x.name ws.length) ws ∧ ∀ y, Apart x.name y → env' y = env y := by
  let ds : List (Name × Load G) := (List.range ws.length).map fun i => (.element x.name i, .element x.name i)
  have heval : ∀ i, (Load.element x.name i : Load G).eval guards env = ws[i]? := by
    intro i
    rw [Load.eval, henv]
  have hnodup : (ds.map Prod.fst).Nodup := by
    rw [List.map_map]
    exact List.nodup_range.map fun i j h => (Name.element.inj h).2
  have hparts : ∀ d ∈ ds, d.1.parent = some x.name := List.forall_mem_map.mpr fun _ _ => rfl
  have hsource : ∀ d ∈ ds, ∀ y, d.2.source = some y → y ∉ ds.map Prod.fst := by
    refine List.forall_mem_map.mpr fun i _ y hy => ?_
    obtain rfl := Option.some.inj hy
    exact not_mem_of_parent hparts
  have hval : ∀ d ∈ ds, ∃ v, d.2.eval guards env = some v := by
    refine List.forall_mem_map.mpr fun i hi => ?_
    rw [heval]
    exact ⟨_, List.getElem?_eq_getElem (List.mem_range.mp hi)⟩
  obtain ⟨env', hload, hdefs, hother⟩ := exists_loadParts env hnodup hparts hsource hval
  refine ⟨env', hload, ?_, hother⟩
  rw [List.forall_mem_map] at hdefs
  rw [Bound, List.forall₂_iff_get]
  refine ⟨by simp [elementColumns], fun i hi hi' => ?_⟩
  simp only [elementColumns, List.get_eq_getElem, List.getElem_map, List.getElem_range]
  rw [hdefs i (List.mem_range.mpr hi'), heval, List.getElem?_eq_getElem hi']

/-! The switch on the size of an array. -/

lemma lookup_map_of_inj {α β γ : Type} [DecidableEq α] [DecidableEq β] {f : α → β} {l : List (α × γ)} {a : α}
    (h : ∀ e ∈ l, f e.1 = f a → e.1 = a) : (l.map fun e => (f e.1, e.2)).lookup (f a) = l.lookup a := by
  induction l with
  | nil => rfl
  | cons e l ih =>
    obtain ⟨k, b⟩ := e
    obtain ⟨hk, hl⟩ := List.forall_mem_cons.mp h
    by_cases hka : k = a
    · subst hka
      rw [List.map_cons, List.lookup_cons_self, List.lookup_cons_self]
    · rw [List.map_cons, lookup_cons_of_ne (fun heq => hka (hk heq.symm)), lookup_cons_of_ne (Ne.symm hka), ih hl]

lemma long_ofNat_inj {m n : ℕ} (hm : m < 2 ^ 64) (hn : n < 2 ^ 64)
    (h : Primitive.long (BitVec.ofNat 64 m) = .long (BitVec.ofNat 64 n)) : m = n := by
  have := congrArg BitVec.toNat (Primitive.long.inj h)
  rwa [BitVec.toNat_ofNat, BitVec.toNat_ofNat, Nat.mod_eq_of_lt hm, Nat.mod_eq_of_lt hn] at this

/-- The switch is on the length of an array. -/
lemma lookup_long {jmps : List (ℕ × ℕ)} (hkeys : ∀ j ∈ jmps, j.1 < 2 ^ 64) {n : ℕ} (hn : n < 2 ^ 64) :
    (jmps.map fun lj => (Primitive.long (BitVec.ofNat 64 lj.1), lj.2)).lookup (.long (BitVec.ofNat 64 n)) =
      jmps.lookup n := by
  let f : ℕ → Primitive := fun m => .long (BitVec.ofNat 64 m)
  exact lookup_map_of_inj (f := f) fun e he h => long_ofNat_inj (hkeys e he) hn h

/-- The value of the column is an array, and its size is loaded. -/
def IsSized (c : ℕ) (y : Name) (env : Env) (vs : List Value) : Prop :=
  ∃ ws, vs[c]? = some (.array ws) ∧ env (.size y) = some (.prim (.long (BitVec.ofNat 64 ws.length)))

lemma handles_of_sizes (hok : TableOk xs ps) (hx : xs[c]? = some x) {y : Name} {qs : List Pattern}
    (hp : InColumn ps c (.array y qs)) {jmps : List (ℕ × ℕ)} {d : Option ℕ} {st : MState G E}
    {states : List (MState G E)} (hjumps : SplitJumps maSize ps c jmps d)
    (hnext : ∀ j ∈ jmps, HandledAt guards xs ps (IsArray c j.1) j.2 states)
    (hdflt : ∀ s, d = some s → HandledAt guards xs ps (Missed maSize ps c) s states)
    (hswitches : ((jmps.map fun lj => (Primitive.long (BitVec.ofNat 64 lj.1), lj.2)).map Prod.fst).Nodup →
      (∀ j ∈ jmps.map fun lj => (Primitive.long (BitVec.ofNat 64 lj.1), lj.2), primType j.1 = .long) →
      Switches guards (.size x.name) .long (jmps.map fun lj => (.long (BitVec.ofNat 64 lj.1), lj.2)) d st states) :
    Handles guards states xs ps (IsSized c x.name) st := by
  have hkeys : ∀ j ∈ jmps, j.1 < 2 ^ 64 := by
    intro j hj
    obtain ⟨p, hin, hsize⟩ := hjumps.mem_iff.mp (List.mem_map_of_mem hj)
    obtain ⟨z, qs', rfl, hlen⟩ := maSize_eq_some hsize
    obtain ⟨t, ht⟩ := hok.columnTy hx
    obtain ⟨t', -, -, -, hlt⟩ := columnTy_array ht hin
    exact hlen ▸ hlt
  refine handles_of_switches (hswitches ?_ (List.forall_mem_map.mpr fun _ _ => rfl)) fun env vs hin hq => ?_
  · rw [List.map_map]
    refine List.Nodup.map_on (fun j hj j' hj' h => ?_) (List.Nodup.of_map _ hjumps.nodup)
    exact List.inj_on_of_nodup_map hjumps.nodup hj hj' (long_ofNat_inj (hkeys j hj) (hkeys j' hj') h)
  obtain ⟨ws, hws, hsize⟩ := hq
  obtain ⟨v, t, hv, -, hvty, ht⟩ := hin.column hx
  obtain rfl := Option.some.inj (hv.symm.trans hws)
  obtain ⟨t', rfl, -⟩ := columnTy_array ht hp
  obtain ⟨ws', heq, -, -, hlt⟩ := hvty.exists_array
  obtain rfl := Value.array.inj heq
  refine ⟨_, hsize, rfl, fun s hs => ?_⟩
  rw [lookup_long hkeys hlt] at hs
  cases hlookup : jmps.lookup ws.length with
  | some s' =>
    rw [hlookup] at hs
    obtain rfl := Option.some.inj hs
    obtain ⟨st', hst', hhandles⟩ := hnext _ (mem_of_lookup hlookup)
    exact ⟨st', hst', hhandles env vs hin ⟨ws, hv, rfl⟩⟩
  | none =>
    rw [hlookup] at hs
    obtain ⟨st', hst', hhandles⟩ := hdflt s hs
    refine ⟨st', hst', hhandles env vs hin fun v' hv' p' hp' hsome => ?_⟩
    obtain rfl := Option.some.inj (hv.symm.trans hv')
    obtain ⟨n, hn⟩ := Option.isSome_iff_exists.mp hsome
    obtain ⟨z, qs', rfl, hlen⟩ := maSize_eq_some hn
    rw [Pattern.accepts, Bool.eq_false_iff]
    intro hacc
    rw [← hlen, Pattern.length_eq_of_acceptsAll hacc] at hn
    obtain ⟨s', hs'⟩ := exists_lookup (hjumps.mem_iff.mpr ⟨_, hp', hn⟩)
    rw [hlookup] at hs'
    cases hs'

lemma arrayRows_eq (n : ℕ) : ps.filterMap (branchRow maSize
      (fun p r => prependPatterns (copyRowWithoutColumn r c) (arrayPatterns p))
      (fun len r => prependPatterns (copyRowWithoutColumn r c) (arrayAnyMatches len)) c n) =
    ps.filterMap (takeApart (branchParts maSize arrayPatterns (fun n _ => arrayAnyMatches n) n) c) :=
  filterMap_branchRow _ _ (fun _ _ => rfl) fun _ _ _ => rfl

section

variable [DecidableEq G] [DecidableEq E]

/-- The rows for arrays of a length handle them, after their elements are loaded. -/
lemma spec_makeASSuccState (hmk : MakesStates guards mk) (hok : TableOk xs ps) (hx : xs[c]? = some x)
    (hsplits : Splits maSize ps c) {n : ℕ} (hn : ∃ p, InColumn ps c p ∧ maSize p = some n) :
    Spec (Good guards) (fun _ => True)
      (makeASSuccState mk x.name n (ps.filterMap (branchRow maSize
        (fun p r => prependPatterns (copyRowWithoutColumn r c) (arrayPatterns p))
        (fun len r => prependPatterns (copyRowWithoutColumn r c) (arrayAnyMatches len)) c n)))
      (HandledAt guards xs ps (IsArray c n)) := by
  have hparts := takenApart_array (x := x) hn
  rw [makeASSuccState, arrayRows_eq]
  refine (hmk _ _ (hparts.tableOk hok hx)).bind fun next => (spec_addState_handles _).imp (fun states h => ?_)
    fun _ _ h => h
  refine Handles.load_of_opens h hparts hok hx fun env vs hin hq v hv henv => ?_
  obtain ⟨ws, hws, rfl⟩ := hq
  obtain rfl := Option.some.inj (hv.symm.trans hws)
  obtain ⟨env', hload, hbound, hother⟩ := exists_loadElements henv
  exact ⟨env', ws, hload, opens_array hsplits, hbound, hother⟩

lemma spec_makeASSwitch (hok : TableOk xs ps) (hx : xs[c]? = some x) {y : Name} {qs : List Pattern}
    (hp : InColumn ps c (.array y qs)) (jmps : List (ℕ × ℕ)) (d : Option ℕ) :
    Spec (Good guards)
      (fun states => SplitJumps maSize ps c jmps d ∧ (∀ j ∈ jmps, HandledAt guards xs ps (IsArray c j.1) j.2 states) ∧
        ∀ s, d = some s → HandledAt guards xs ps (Missed maSize ps c) s states)
      (makeASSwitch x.name jmps d) fun st states => Handles guards states xs ps (fun _ _ => True) st := by
  refine (spec_makeSwitch .long).bind fun st => ?_
  have hadd : Spec (Good guards) (fun states => Handles guards states xs ps (IsSized c x.name) st) (addState st)
      (HandledAt guards xs ps (IsSized c x.name)) := spec_addState_handles st
  refine (hadd.imp (fun states h => ?_) fun _ _ h => h).bind fun s => spec_newExpr.bind fun ptr =>
    Spec.pure fun states h => ?_
  · exact handles_of_sizes hok hx hp h.1.1 h.1.2.1 h.1.2.2 h.2
  obtain ⟨st', hst', hhandles⟩ := h
  intro env vs hin _
  obtain ⟨v, t, hv, henv, hvty, ht⟩ := hin.column hx
  obtain ⟨t', rfl, -⟩ := columnTy_array ht hp
  obtain ⟨ws, rfl, -⟩ := hvty.exists_array
  have hload : loadAll guards [(.view x.name, .openArray x.name ptr), (.size x.name, .size (.view x.name))] env =
      some (Function.update (Function.update env (.view x.name) (some (.array ws))) (.size x.name)
        (some (.prim (.long (BitVec.ofNat 64 ws.length))))) := by
    simp [loadAll, Load.eval, henv]
  refine .load hload hst' (hhandles _ vs (hin.of_agree fun z hz => ?_) ⟨ws, hv, Function.update_self _ _ _⟩)
  rw [Function.update_of_ne (hok.ne_of_parent hx hz rfl), Function.update_of_ne (hok.ne_of_parent hx hz rfl)]

lemma spec_makeArrayState {y : Name} {qs : List Pattern} (hmk : MakesStates guards mk) (hok : TableOk xs ps)
    (hx : xs[c]? = some x) (hp : headPattern ps c = some (.array y qs)) :
    Spec (Good guards) (fun _ => True) (makeArrayState mk ps c)
      fun st states => Handles guards states xs ps (fun _ _ => True) st :=
  spec_split hmk hok hx hp rfl (fun hsplits _ hn => spec_makeASSuccState hmk hok hx hsplits hn)
    (spec_makeASSwitch hok hx (inColumn_headPattern hp))

end

end Hobbes.Match.Table
