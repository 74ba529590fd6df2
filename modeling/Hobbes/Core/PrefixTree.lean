import Mathlib.Data.List.Nodup
import Mathlib.Tactic.Common

/-!
# Prefix trees

A map from sequences to values, as the tree of the sequences' beginnings. The children of a node are in an ordered map,
that is searched by comparing keys. Where only sequences of one length are inserted, every path of this length leads to
a value.
-/

namespace Core

inductive PrefixTree (K V : Type) where
  | node (value : Option V) (children : List (K × PrefixTree K V))

namespace PrefixTree

variable {K V : Type}

def value : PrefixTree K V → Option V
  | node v _ => v

def children : PrefixTree K V → List (K × PrefixTree K V)
  | node _ cs => cs

def empty : PrefixTree K V := node none []

mutual

/-- The values, in the order of their sequences. -/
def values : PrefixTree K V → List V
  | node v cs => v.toList ++ childrenValues cs

def childrenValues : List (K × PrefixTree K V) → List V
  | [] => []
  | (_, c) :: cs => values c ++ childrenValues cs

end

variable (cmp : K → K → Ordering)

/-- The child at a key is changed, or a new one is put in its place. -/
def alter (k : K) (f : PrefixTree K V → PrefixTree K V) : List (K × PrefixTree K V) → List (K × PrefixTree K V)
  | [] => [(k, f empty)]
  | (k', c) :: cs =>
    match cmp k k' with
    | .lt => (k, f empty) :: (k', c) :: cs
    | .eq => (k', f c) :: cs
    | .gt => (k', c) :: alter k f cs

def insert : List K → V → PrefixTree K V → PrefixTree K V
  | [], v, t => node (some v) t.children
  | k :: ks, v, t => node t.value (alter cmp k (insert ks v) t.children)

def find (k : K) : List (K × PrefixTree K V) → Option (PrefixTree K V)
  | [] => none
  | (k', c) :: cs =>
    match cmp k k' with
    | .lt => none
    | .eq => some c
    | .gt => find k cs

def moveTo (k : K) (t : PrefixTree K V) : Option (PrefixTree K V) := find cmp k t.children

def findNode : List K → PrefixTree K V → Option (PrefixTree K V)
  | [], t => some t
  | k :: ks, t => (moveTo cmp k t).bind (findNode ks)

def lookup (ks : List K) (t : PrefixTree K V) : Option V := (findNode cmp ks t).bind value

/-! ### Children -/

def Sorted (cs : List (K × PrefixTree K V)) : Prop := cs.Pairwise fun p q => cmp p.1 q.1 = .lt

variable {cmp}

section

variable {k k' : K} {f : PrefixTree K V → PrefixTree K V} {cs : List (K × PrefixTree K V)} {c : PrefixTree K V}

lemma mem_of_find [Std.LawfulEqCmp cmp] (h : find cmp k cs = some c) : (k, c) ∈ cs := by
  induction cs with
  | nil => cases h
  | cons p cs ih =>
    obtain ⟨k', c'⟩ := p
    rw [find] at h
    split at h
    · cases h
    · rename_i heq
      cases h
      rw [Std.LawfulEqCmp.eq_of_compare heq]
      exact List.mem_cons_self
    · exact List.mem_cons_of_mem _ (ih h)

lemma find_eq_some [Std.TransCmp cmp] [Std.LawfulEqCmp cmp] (hcs : Sorted cmp cs) :
    find cmp k cs = some c ↔ (k, c) ∈ cs := by
  refine ⟨mem_of_find, fun h => ?_⟩
  induction cs with
  | nil => cases h
  | cons p cs ih =>
    obtain ⟨k', c'⟩ := p
    obtain ⟨hfirst, hrest⟩ := List.pairwise_cons.mp hcs
    rcases List.mem_cons.mp h with h | h
    · cases h
      rw [find, @Std.ReflCmp.compare_self _ cmp]
    · rw [find, Std.OrientedCmp.gt_of_lt (hfirst _ h)]
      exact ih hrest h

lemma find_alter [Std.TransCmp cmp] [Std.LawfulEqCmp cmp] (hcs : Sorted cmp cs) :
    find cmp k' (alter cmp k f cs) =
      if cmp k' k = .eq then some (f ((find cmp k cs).getD empty)) else find cmp k' cs := by
  induction cs with
  | nil => cases h : cmp k' k <;> simp [alter, find, h]
  | cons p cs ih =>
    obtain ⟨k₀, c⟩ := p
    obtain ⟨-, hrest⟩ := List.pairwise_cons.mp hcs
    cases h : cmp k k₀ with
    | lt =>
      cases hk : cmp k' k with
      | lt => simp [alter, find, h, hk, Std.TransCmp.lt_trans hk h]
      | eq => simp [alter, find, h, hk]
      | gt => simp [alter, find, h, hk]
    | eq =>
      obtain rfl := Std.LawfulEqCmp.eq_of_compare h
      cases hk : cmp k' k <;> simp [alter, find, h, hk]
    | gt =>
      simp only [alter, find, h, ih hrest]
      have hlt : cmp k₀ k = .lt := Std.OrientedCmp.lt_of_gt h
      cases hk : cmp k' k₀ with
      | lt => simp [Std.TransCmp.lt_trans hk hlt]
      | eq =>
        obtain rfl := Std.LawfulEqCmp.eq_of_compare hk
        simp [hlt]
      | gt => simp

lemma mem_alter [Std.LawfulEqCmp cmp] {p : K × PrefixTree K V} (h : p ∈ alter cmp k f cs) :
    p ∈ cs ∨ p.1 = k ∧ (p.2 = f empty ∨ ∃ c, (k, c) ∈ cs ∧ p.2 = f c) := by
  induction cs with
  | nil =>
    rw [alter, List.mem_singleton] at h
    exact .inr ⟨congrArg Prod.fst h, .inl (congrArg Prod.snd h)⟩
  | cons q cs ih =>
    obtain ⟨k₀, c⟩ := q
    rw [alter] at h
    cases hk : cmp k k₀ <;> rw [hk] at h
    · rcases List.mem_cons.mp h with rfl | h
      · exact .inr ⟨rfl, .inl rfl⟩
      · exact .inl h
    · obtain rfl := Std.LawfulEqCmp.eq_of_compare hk
      rcases List.mem_cons.mp h with rfl | h
      · exact .inr ⟨rfl, .inr ⟨c, List.mem_cons_self, rfl⟩⟩
      · exact .inl (List.mem_cons_of_mem _ h)
    · rcases List.mem_cons.mp h with rfl | h
      · exact .inl List.mem_cons_self
      · refine (ih h).imp (List.mem_cons_of_mem _) fun ⟨heq, hp⟩ => ⟨heq, hp.imp_right ?_⟩
        exact fun ⟨c', hc', hp⟩ => ⟨c', List.mem_cons_of_mem _ hc', hp⟩

lemma sorted_alter [Std.TransCmp cmp] [Std.LawfulEqCmp cmp] (hcs : Sorted cmp cs) : Sorted cmp (alter cmp k f cs) := by
  induction cs with
  | nil => exact List.pairwise_singleton _ _
  | cons p cs ih =>
    obtain ⟨k₀, c⟩ := p
    obtain ⟨hfirst, hrest⟩ := List.pairwise_cons.mp hcs
    rw [alter]
    cases hk : cmp k k₀ with
    | lt =>
      refine List.pairwise_cons.mpr ⟨List.forall_mem_cons.mpr ⟨hk, fun q hq => ?_⟩, hcs⟩
      exact Std.TransCmp.lt_trans hk (hfirst q hq)
    | eq => exact List.pairwise_cons.mpr ⟨hfirst, hrest⟩
    | gt =>
      refine List.pairwise_cons.mpr ⟨fun q hq => ?_, ih hrest⟩
      rcases mem_alter hq with hq | ⟨heq, -⟩
      · exact hfirst q hq
      · rw [heq]
        exact Std.OrientedCmp.lt_of_gt hk

end

/-! ### Looking up -/

lemma lookup_cons {k : K} {ks : List K} {t : PrefixTree K V} :
    lookup cmp (k :: ks) t = (moveTo cmp k t).bind fun c => lookup cmp ks c := by
  rw [lookup, findNode]
  cases moveTo cmp k t <;> rfl

lemma lookup_empty (ks : List K) : lookup cmp ks (empty : PrefixTree K V) = none := by
  cases ks with
  | nil => rfl
  | cons k ks => rfl

/-! ### Entries -/

/-- The sequences of a length with their values, in order. -/
def entries : ℕ → PrefixTree K V → List (List K × V)
  | 0, t => t.value.toList.map fun v => ([], v)
  | n + 1, t => t.children.flatMap fun p => (entries n p.2).map fun e => (p.1 :: e.1, e.2)

lemma length_of_mem_entries {n : ℕ} {t : PrefixTree K V} {e : List K × V} (h : e ∈ entries n t) : e.1.length = n := by
  induction n generalizing t e with
  | zero =>
    obtain ⟨v, -, rfl⟩ := List.mem_map.mp h
    rfl
  | succ n ih =>
    obtain ⟨p, -, h⟩ := List.mem_flatMap.mp h
    obtain ⟨e', he', rfl⟩ := List.mem_map.mp h
    exact congrArg (· + 1) (ih he')

/-! ### Sequences of one length -/

variable (cmp) in
/-- The children are in order, and every path of this length leads to a value. -/
def Complete : ℕ → PrefixTree K V → Prop
  | 0, t => t.value.isSome = true
  | n + 1, t => Sorted cmp t.children ∧ ∀ p ∈ t.children, entries n p.2 ≠ [] ∧ Complete n p.2

lemma complete_empty {n : ℕ} : Complete cmp (n + 1) (empty : PrefixTree K V) := ⟨.nil, nofun⟩

section

variable [Std.TransCmp cmp] [Std.LawfulEqCmp cmp] {n : ℕ} {t : PrefixTree K V}

/-- The last value that was inserted for a sequence is found. What is inserted into may be a new node. -/
lemma lookup_insert [DecidableEq K] {ks ks' : List K} (hks : ks.length = n) (hks' : ks'.length = n)
    (ht : t = empty ∨ Complete cmp n t) (v : V) :
    lookup cmp ks' (insert cmp ks v t) = if ks' = ks then some v else lookup cmp ks' t := by
  induction ks generalizing n ks' t with
  | nil =>
    subst hks
    rw [List.length_nil, List.length_eq_zero_iff] at hks'
    rw [hks', if_pos rfl]
    rfl
  | cons k ks ih =>
    subst hks
    cases ks' with
    | nil => cases hks'
    | cons k' ks' =>
      have hlen := Nat.succ.inj hks'
      have ht' : Complete cmp (ks.length + 1) t := ht.elim (fun h => h ▸ complete_empty) id
      rw [lookup_cons, lookup_cons, moveTo, insert]
      change (find cmp k' (alter cmp k _ t.children)).bind _ = _
      rw [find_alter ht'.1]
      by_cases hk : cmp k' k = .eq
      · obtain rfl := Std.LawfulEqCmp.eq_of_compare hk
        rw [if_pos hk, Option.bind_some, moveTo]
        cases hfind : find cmp k' t.children with
        | none =>
          rw [Option.getD_none, ih rfl hlen (.inl rfl), Option.bind_none]
          by_cases heq : ks' = ks
          · rw [if_pos heq, if_pos (congrArg _ heq)]
          · rw [if_neg heq, if_neg (by simpa using heq), lookup_empty]
        | some c =>
          rw [Option.getD_some, ih rfl hlen (.inr (ht'.2 _ (mem_of_find hfind)).2), Option.bind_some]
          simp
      · have hne : k' ≠ k := by
          rintro rfl
          exact hk Std.ReflCmp.compare_self
        rw [if_neg hk, if_neg (by simp [hne]), moveTo]

/-- The entries are what is found, where the children of all nodes on the way are in order. -/
lemma mem_entries_of {P : ℕ → PrefixTree K V → Prop} (hsorted : ∀ n t, P (n + 1) t → Sorted cmp t.children)
    (hchild : ∀ n t, P (n + 1) t → ∀ p ∈ t.children, P n p.2) (ht : P n t) {e : List K × V} :
    e ∈ entries n t ↔ e.1.length = n ∧ lookup cmp e.1 t = some e.2 := by
  induction n generalizing t e with
  | zero =>
    obtain ⟨ks, v⟩ := e
    rw [entries, List.mem_map, List.length_eq_zero_iff]
    constructor
    · rintro ⟨v', hv', heq⟩
      cases heq
      exact ⟨rfl, Option.mem_toList.mp hv'⟩
    · rintro ⟨rfl, hv⟩
      exact ⟨v, Option.mem_toList.mpr hv, rfl⟩
  | succ n ih =>
    obtain ⟨ks, v⟩ := e
    rw [entries, List.mem_flatMap]
    constructor
    · rintro ⟨p, hp, h⟩
      obtain ⟨⟨ks', v'⟩, he', heq⟩ := List.mem_map.mp h
      cases heq
      obtain ⟨hlen, hlookup⟩ := (ih (hchild n t ht p hp)).mp he'
      refine ⟨congrArg (· + 1) hlen, ?_⟩
      rw [lookup_cons, moveTo, (find_eq_some (hsorted n t ht)).mpr hp]
      exact hlookup
    · rintro ⟨hlen, hlookup⟩
      cases ks with
      | nil => cases hlen
      | cons k ks =>
        dsimp only at hlookup
        rw [lookup_cons] at hlookup
        obtain ⟨c, hc, hlookup⟩ := Option.bind_eq_some_iff.mp hlookup
        have hmem := mem_of_find hc
        exact ⟨(k, c), hmem, List.mem_map.mpr
          ⟨(ks, v), (ih (hchild n t ht _ hmem)).mpr ⟨Nat.succ.inj hlen, hlookup⟩, rfl⟩⟩

lemma mem_entries (ht : Complete cmp n t) {e : List K × V} :
    e ∈ entries n t ↔ e.1.length = n ∧ lookup cmp e.1 t = some e.2 :=
  mem_entries_of (P := Complete cmp) (fun _ _ h => h.1) (fun _ _ h p hp => (h.2 p hp).2) ht

omit [Std.LawfulEqCmp cmp] in
lemma nodup_entries (ht : Complete cmp n t) : ((entries n t).map Prod.fst).Nodup := by
  induction n generalizing t with
  | zero =>
    rw [entries, List.map_map]
    cases t.value <;> simp
  | succ n ih =>
    obtain ⟨hsorted, hchildren⟩ := ht
    rw [entries]
    generalize t.children = cs at hsorted hchildren
    induction cs with
    | nil => exact List.nodup_nil
    | cons p cs ihcs =>
      obtain ⟨hfirst, hrest⟩ := List.pairwise_cons.mp hsorted
      obtain ⟨hp, hcs⟩ := List.forall_mem_cons.mp hchildren
      rw [List.flatMap_cons, List.map_append, List.nodup_append]
      refine ⟨?_, ihcs hrest hcs, ?_⟩
      · rw [List.map_map]
        have hmap := List.Nodup.map (fun ks ks' (h : p.1 :: ks = p.1 :: ks') => (List.cons.inj h).2) (ih hp.2)
        rwa [List.map_map] at hmap
      · rintro ks hks ks' hks' rfl
        rw [List.map_map] at hks
        obtain ⟨e, -, rfl⟩ := List.mem_map.mp hks
        obtain ⟨e', he', heq⟩ := List.mem_map.mp hks'
        obtain ⟨q, hq, he'⟩ := List.mem_flatMap.mp he'
        obtain ⟨e₁, -, rfl⟩ := List.mem_map.mp he'
        have hlt := hfirst q hq
        rw [(List.cons.inj heq).1, @Std.ReflCmp.compare_self _ cmp] at hlt
        cases hlt

lemma complete_insert [DecidableEq K] {ks : List K} (hks : ks.length = n) (ht : t = empty ∨ Complete cmp n t) (v : V) :
    Complete cmp n (insert cmp ks v t) := by
  induction ks generalizing n t with
  | nil =>
    subst hks
    rfl
  | cons k ks ih =>
    subst hks
    have ht' : Complete cmp (ks.length + 1) t := ht.elim (fun h => h ▸ complete_empty) id
    have hnew : ∀ c : PrefixTree K V, c = empty ∨ Complete cmp ks.length c →
        entries ks.length (insert cmp ks v c) ≠ [] ∧ Complete cmp ks.length (insert cmp ks v c) := by
      intro c hc
      refine ⟨List.ne_nil_of_mem (a := (ks, v)) ((mem_entries (ih rfl hc)).mpr ⟨rfl, ?_⟩), ih rfl hc⟩
      rw [lookup_insert rfl rfl hc, if_pos rfl]
    refine ⟨sorted_alter ht'.1, fun p hp => ?_⟩
    rcases mem_alter hp with hp | ⟨-, hp | ⟨c, hc, hp⟩⟩
    · exact ht'.2 p hp
    · rw [hp]
      exact hnew empty (.inl rfl)
    · rw [hp]
      exact hnew c (.inr (ht'.2 _ hc).2)

/-- Where only the child at one key counts, this one is found. -/
lemma flatMap_eq_find {α : Type} {cs : List (K × PrefixTree K V)} (hcs : Sorted cmp cs) (k : K)
    (g : K × PrefixTree K V → List α) (hg : ∀ p ∈ cs, p.1 ≠ k → g p = []) :
    cs.flatMap g = ((find cmp k cs).map fun c => g (k, c)).getD [] := by
  induction cs with
  | nil => rfl
  | cons p cs ih =>
    obtain ⟨k', c⟩ := p
    obtain ⟨hfirst, hrest⟩ := List.pairwise_cons.mp hcs
    obtain ⟨hp, hgs⟩ := List.forall_mem_cons.mp hg
    have hne : ∀ {a b : K}, cmp a b = .lt → b ≠ a := by
      rintro a b hlt rfl
      rw [@Std.ReflCmp.compare_self _ cmp] at hlt
      cases hlt
    have hnone : ∀ {k : K}, (∀ q ∈ cs, cmp k q.1 = .lt) → find cmp k cs = none := by
      intro k hlt
      cases hfind : find cmp k cs with
      | none => rfl
      | some c => exact absurd rfl (hne (hlt _ (mem_of_find hfind)))
    rw [List.flatMap_cons, find]
    cases hk : cmp k k' with
    | lt =>
      have hlt : ∀ q ∈ cs, cmp k q.1 = .lt := fun q hq => Std.TransCmp.lt_trans hk (hfirst q hq)
      rw [hp (hne hk), ih hrest hgs, hnone hlt]
      rfl
    | eq =>
      obtain rfl := Std.LawfulEqCmp.eq_of_compare hk
      rw [ih hrest hgs, hnone hfirst, Option.map_none, Option.getD_none, List.append_nil]
      rfl
    | gt =>
      rw [hp (hne (Std.OrientedCmp.lt_of_gt hk)).symm, ih hrest hgs]
      rfl

end

lemma childrenValues_eq (cs : List (K × PrefixTree K V)) : childrenValues cs = cs.flatMap fun p => values p.2 := by
  induction cs with
  | nil => rw [childrenValues, List.flatMap_nil]
  | cons p cs ih => rw [childrenValues, List.flatMap_cons, ih]

/-! ### Sequences of any length -/

variable (cmp) in
/-- The children of all nodes are in order. -/
inductive Ordered : PrefixTree K V → Prop
  | node {v : Option V} {cs : List (K × PrefixTree K V)} (hcs : Sorted cmp cs) (h : ∀ p ∈ cs, Ordered p.2) :
    Ordered (node v cs)

lemma ordered_empty : Ordered cmp (empty : PrefixTree K V) := .node .nil nofun

namespace Ordered

variable {t : PrefixTree K V}

lemma sorted (h : Ordered cmp t) : Sorted cmp t.children := by
  cases h with
  | node hcs _ => exact hcs

lemma child (h : Ordered cmp t) {p : K × PrefixTree K V} (hp : p ∈ t.children) : Ordered cmp p.2 := by
  cases h with
  | node _ h => exact h p hp

variable [Std.TransCmp cmp] [Std.LawfulEqCmp cmp]

lemma insert (h : Ordered cmp t) (ks : List K) (v : V) : Ordered cmp (insert cmp ks v t) := by
  induction ks generalizing t with
  | nil => exact .node h.sorted fun _ hp => h.child hp
  | cons k ks ih =>
    refine .node (sorted_alter h.sorted) fun p hp => ?_
    rcases mem_alter hp with hp | ⟨-, hp | ⟨c, hc, hp⟩⟩
    · exact h.child hp
    · rw [hp]
      exact ih ordered_empty
    · rw [hp]
      exact ih (h.child hc)

/-- The last value that was inserted for a sequence is found. -/
lemma lookup_insert [DecidableEq K] (h : Ordered cmp t) (ks ks' : List K) (v : V) :
    lookup cmp ks' (PrefixTree.insert cmp ks v t) = if ks' = ks then some v else lookup cmp ks' t := by
  induction ks generalizing ks' t with
  | nil =>
    cases ks' with
    | nil => rfl
    | cons k' ks' => rw [if_neg nofun]; rfl
  | cons k ks ih =>
    cases ks' with
    | nil => rw [if_neg nofun]; rfl
    | cons k' ks' =>
      rw [lookup_cons, lookup_cons, moveTo, PrefixTree.insert]
      change (PrefixTree.find cmp k' (alter cmp k _ t.children)).bind _ = _
      rw [find_alter h.sorted]
      by_cases hk : cmp k' k = .eq
      · obtain rfl := Std.LawfulEqCmp.eq_of_compare hk
        rw [if_pos hk, Option.bind_some, moveTo]
        cases hfind : PrefixTree.find cmp k' t.children with
        | none =>
          rw [Option.getD_none, ih ordered_empty, Option.bind_none, lookup_empty]
          simp
        | some c =>
          rw [Option.getD_some, ih (h.child (mem_of_find hfind)), Option.bind_some]
          simp
      · have hne : k' ≠ k := by
          rintro rfl
          exact hk Std.ReflCmp.compare_self
        rw [if_neg hk, if_neg (by simp [hne]), moveTo]

lemma lookup_child (h : Ordered cmp t) {p : K × PrefixTree K V} (hp : p ∈ t.children) (ks : List K) :
    lookup cmp (p.1 :: ks) t = lookup cmp ks p.2 := by
  rw [lookup_cons, moveTo, (find_eq_some h.sorted).mpr hp]
  rfl

lemma mem_entries {n : ℕ} (h : Ordered cmp t) {e : List K × V} :
    e ∈ entries n t ↔ e.1.length = n ∧ lookup cmp e.1 t = some e.2 :=
  mem_entries_of (P := fun _ => Ordered cmp) (fun _ _ h => h.sorted) (fun _ _ h _ hp => h.child hp) h

lemma mem_values (h : Ordered cmp t) {v : V} : v ∈ values t ↔ ∃ ks, lookup cmp ks t = some v := by
  induction h with
  | @node v' cs hcs h ih =>
    have hnode : Ordered cmp (PrefixTree.node v' cs) := .node hcs h
    rw [values, childrenValues_eq, List.mem_append, Option.mem_toList, List.mem_flatMap]
    constructor
    · rintro (hv | ⟨p, hp, hv⟩)
      · exact ⟨[], hv⟩
      · obtain ⟨ks, hks⟩ := (ih p hp).mp hv
        exact ⟨p.1 :: ks, (hnode.lookup_child hp ks).trans hks⟩
    · rintro ⟨ks, hks⟩
      cases ks with
      | nil => exact .inl hks
      | cons k ks =>
        rw [lookup_cons] at hks
        obtain ⟨c, hc, hks⟩ := Option.bind_eq_some_iff.mp hks
        exact .inr ⟨(k, c), mem_of_find hc, (ih _ (mem_of_find hc)).mpr ⟨ks, hks⟩⟩

/-- What holds between the values of any two sequences holds between all values. -/
lemma pairwise_values (h : Ordered cmp t) {R : V → V → Prop}
    (hR : ∀ ks ks' v v', ks ≠ ks' → lookup cmp ks t = some v → lookup cmp ks' t = some v' → R v v') :
    (values t).Pairwise R := by
  induction h with
  | @node v₀ cs hcs h ih =>
    have hnode : Ordered cmp (PrefixTree.node v₀ cs) := .node hcs h
    have hmem : ∀ p ∈ cs, ∀ v ∈ values p.2, ∃ ks, lookup cmp (p.1 :: ks) (PrefixTree.node v₀ cs) = some v := by
      intro p hp v hv
      obtain ⟨ks, hks⟩ := (h p hp).mem_values.mp hv
      exact ⟨ks, (hnode.lookup_child hp ks).trans hks⟩
    rw [values, childrenValues_eq, List.pairwise_append]
    refine ⟨?_, List.pairwise_flatMap.mpr ⟨fun p hp => ih p hp ?_, ?_⟩, ?_⟩
    · cases v₀ <;> simp
    · intro ks ks' v v' hne hks hks'
      refine hR (p.1 :: ks) (p.1 :: ks') v v' (fun heq => hne (List.cons.inj heq).2) ?_ ?_
      · exact (hnode.lookup_child hp ks).trans hks
      · exact (hnode.lookup_child hp ks').trans hks'
    · refine hcs.imp_of_mem fun {p q} hp hq hlt v hv v' hv' => ?_
      obtain ⟨ks, hks⟩ := hmem p hp v hv
      obtain ⟨ks', hks'⟩ := hmem q hq v' hv'
      refine hR _ _ v v' (fun heq => ?_) hks hks'
      rw [(List.cons.inj heq).1, @Std.ReflCmp.compare_self _ cmp] at hlt
      cases hlt
    · intro v hv v' hv'
      obtain ⟨p, hp, hv'⟩ := List.mem_flatMap.mp hv'
      obtain ⟨ks', hks'⟩ := hmem p hp v' hv'
      exact hR [] (p.1 :: ks') v v' nofun (Option.mem_toList.mp hv) hks'

end Ordered

end PrefixTree

end Core
