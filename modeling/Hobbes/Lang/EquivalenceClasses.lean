import Hobbes.Core.Forest
import Hobbes.Lang.EquivalenceMapping
import Mathlib.Algebra.Group.WithOne.Defs

/-!
# What union-find represents

A mapping's nodes make a forest. Its roots are the representatives of the classes of the joins performed, and the
value of a root is the sum over its class. Compressing a path keeps all that, and joining two classes links one of
their roots to the other.
-/

namespace Hobbes

namespace EquivalenceMapping

open Core Forest

variable {K V : Type*} [DecidableEq K]

/-! ### Nodes -/

def parentOf (nodes : EqNodes K V) (k : K) : K := ((nodes.lookup k).map Eqsetmem.representative).getD k

def rankOf (nodes : EqNodes K V) (k : K) : ℕ := ((nodes.lookup k).map Eqsetmem.rank).getD 0

/-- The keys that a mapping has nodes for. -/
def known (nodes : EqNodes K V) : Finset K := nodes.keys.toFinset

@[simp] lemma mem_known {nodes : EqNodes K V} {k : K} : k ∈ known nodes ↔ k ∈ nodes := by
  rw [known, List.mem_toFinset, AList.mem_keys]

lemma known_congr {nodes nodes' : EqNodes K V} (h : ∀ k, k ∈ nodes' ↔ k ∈ nodes) : known nodes' = known nodes := by
  ext k
  rw [mem_known, mem_known, h]

lemma exists_lookup {nodes : EqNodes K V} {k : K} (h : k ∈ nodes) : ∃ n, nodes.lookup k = some n :=
  Option.isSome_iff_exists.mp (AList.lookup_isSome.mpr h)

lemma mem_of_lookup {nodes : EqNodes K V} {k : K} {n : Eqsetmem K V} (h : nodes.lookup k = some n) : k ∈ nodes :=
  AList.lookup_isSome.mp (Option.isSome_iff_exists.mpr ⟨n, h⟩)

lemma parentOf_of_lookup {nodes : EqNodes K V} {k : K} {n : Eqsetmem K V} (h : nodes.lookup k = some n) :
    parentOf nodes k = n.representative := by
  rw [parentOf, h]
  rfl

lemma rankOf_of_lookup {nodes : EqNodes K V} {k : K} {n : Eqsetmem K V} (h : nodes.lookup k = some n) :
    rankOf nodes k = n.rank := by
  rw [rankOf, h]
  rfl

lemma parentOf_of_notMem {nodes : EqNodes K V} {k : K} (h : k ∉ nodes) : parentOf nodes k = k := by
  rw [parentOf, AList.lookup_eq_none.mpr h]
  rfl

/-- Linking one node to another makes no new ones. -/
lemma mem_linked {nodes : EqNodes K V} {a b : K} {na nb n n' : Eqsetmem K V} (hna : nodes.lookup a = some na)
    (hnb : nodes.lookup b = some nb) (k : K) : k ∈ (nodes.insert a n).insert b n' ↔ k ∈ nodes := by
  rw [AList.mem_insert, AList.mem_insert]
  refine ⟨?_, fun hk => Or.inr (Or.inr hk)⟩
  rintro (rfl | rfl | hk)
  · exact mem_of_lookup hnb
  · exact mem_of_lookup hna
  · exact hk

/-! ### Roots -/

/-- Every node leads to a root. -/
structure Rooted (nodes : EqNodes K V) (root : K → K) : Prop where
  forest : Forest (parentOf nodes) root (rankOf nodes)
  parent_mem : ∀ k ∈ nodes, parentOf nodes k ∈ nodes
  root_mem : ∀ k ∈ nodes, root k ∈ nodes

namespace Rooted

variable {nodes : EqNodes K V} {root : K → K}

lemma empty : Rooted (∅ : EqNodes K V) fun k => k where
  forest := by
    have hp : parentOf (∅ : EqNodes K V) = fun k => k := funext fun k => parentOf_of_notMem (AList.notMem_empty k)
    rw [hp]
    exact Forest.self _
  parent_mem k h := absurd h (AList.notMem_empty k)
  root_mem k h := absurd h (AList.notMem_empty k)

lemma root_of_notMem (h : Rooted nodes root) {k : K} (hk : k ∉ nodes) : root k = k :=
  h.forest.root_self k (parentOf_of_notMem hk)

lemma root_mem_iff (h : Rooted nodes root) {k : K} : root k ∈ nodes ↔ k ∈ nodes := by
  refine ⟨fun hr => ?_, h.root_mem k⟩
  by_contra hk
  rw [h.root_of_notMem hk] at hr
  exact hk hr

/-- A new key is a class of its own. -/
lemma insert_new (h : Rooted nodes root) {k : K} (hk : k ∉ nodes) (v : V) :
    Rooted (nodes.insert k ⟨v, 0, k⟩) root := by
  have hparent : parentOf (nodes.insert k ⟨v, 0, k⟩) = parentOf nodes := by
    funext a
    rcases eq_or_ne a k with rfl | ha
    · rw [parentOf_of_notMem hk, parentOf_of_lookup (AList.lookup_insert nodes)]
    · rw [parentOf, AList.lookup_insert_ne ha, parentOf]
  have hrank : rankOf (nodes.insert k ⟨v, 0, k⟩) = rankOf nodes := by
    funext a
    rcases eq_or_ne a k with rfl | ha
    · rw [rankOf_of_lookup (AList.lookup_insert nodes), rankOf, AList.lookup_eq_none.mpr hk]
      rfl
    · rw [rankOf, AList.lookup_insert_ne ha, rankOf]
  refine ⟨?_, ?_, ?_⟩
  · rw [hparent, hrank]
    exact h.forest
  · intro a ha
    rw [hparent, AList.mem_insert]
    rcases (AList.mem_insert nodes).mp ha with rfl | ha
    · exact Or.inl (parentOf_of_notMem hk)
    · exact Or.inr (h.parent_mem a ha)
  · intro a ha
    rw [AList.mem_insert]
    rcases (AList.mem_insert nodes).mp ha with rfl | ha
    · exact Or.inl (h.root_of_notMem hk)
    · exact Or.inr (h.root_mem a ha)

/-- Another value at a node changes no links. -/
lemma insert_value (h : Rooted nodes root) {k : K} {n : Eqsetmem K V} (hn : nodes.lookup k = some n) (v : V) :
    Rooted (nodes.insert k { n with value := v }) root := by
  have hmem : ∀ a, a ∈ nodes.insert k { n with value := v } ↔ a ∈ nodes := by
    intro a
    rw [AList.mem_insert]
    exact ⟨fun ha => ha.elim (fun heq => heq ▸ mem_of_lookup hn) id, Or.inr⟩
  have hparent : parentOf (nodes.insert k { n with value := v }) = parentOf nodes := by
    funext a
    rcases eq_or_ne a k with rfl | ha
    · rw [parentOf_of_lookup hn, parentOf_of_lookup (AList.lookup_insert nodes)]
    · rw [parentOf, AList.lookup_insert_ne ha, parentOf]
  have hrank : rankOf (nodes.insert k { n with value := v }) = rankOf nodes := by
    funext a
    rcases eq_or_ne a k with rfl | ha
    · rw [rankOf_of_lookup hn, rankOf_of_lookup (AList.lookup_insert nodes)]
    · rw [rankOf, AList.lookup_insert_ne ha, rankOf]
  refine ⟨?_, fun a ha => ?_, fun a ha => (hmem _).mpr (h.root_mem a ((hmem a).mp ha))⟩
  · rw [hparent, hrank]
    exact h.forest
  · rw [hparent]
    exact (hmem _).mpr (h.parent_mem a ((hmem a).mp ha))

end Rooted

/-! ### Compressed paths -/

/-- Some links lead to the roots at once. -/
def Compressed (root : K → K) (nodes nodes' : EqNodes K V) : Prop :=
  ∀ k, nodes'.lookup k = nodes.lookup k ∨
    nodes'.lookup k = (nodes.lookup k).map fun n => { n with representative := root k }

namespace Compressed

variable {nodes nodes' nodes'' : EqNodes K V} {root : K → K}

lemma refl (root : K → K) (nodes : EqNodes K V) : Compressed root nodes nodes := fun _ => Or.inl rfl

lemma trans (h : Compressed root nodes nodes') (h' : Compressed root nodes' nodes'') :
    Compressed root nodes nodes'' := by
  intro k
  rcases h' k with hk | hk <;> rw [hk]
  · exact h k
  · rcases h k with hk | hk <;> rw [hk]
    · exact Or.inr rfl
    · rw [Option.map_map]
      exact Or.inr rfl

/-- All but the links is kept. -/
lemma map_lookup {α : Type*} (h : Compressed root nodes nodes') (f : Eqsetmem K V → α)
    (hf : ∀ n r, f { n with representative := r } = f n) (k : K) :
    (nodes'.lookup k).map f = (nodes.lookup k).map f := by
  rcases h k with hk | hk <;> rw [hk]
  rw [Option.map_map]
  congr 1
  funext n
  exact hf n (root k)

lemma mem_iff (h : Compressed root nodes nodes') (k : K) : k ∈ nodes' ↔ k ∈ nodes := by
  rw [← AList.lookup_isSome, ← AList.lookup_isSome]
  rcases h k with hk | hk <;> rw [hk]
  rw [Option.isSome_map]

lemma rooted (h : Compressed root nodes nodes') (hroot : Rooted nodes root) : Rooted nodes' root := by
  have hparent : ∀ k, parentOf nodes' k = parentOf nodes k ∨ parentOf nodes' k = root k := by
    intro k
    unfold parentOf
    rcases h k with hk | hk <;> rw [hk]
    · exact Or.inl rfl
    · cases hn : nodes.lookup k with
      | none => exact Or.inl rfl
      | some n => exact Or.inr rfl
  have hrank : rankOf nodes' = rankOf nodes := by
    funext k
    rw [rankOf, h.map_lookup Eqsetmem.rank fun _ _ => rfl, rankOf]
  refine ⟨?_, ?_, ?_⟩
  · rw [hrank]
    exact hroot.forest.compress hparent
  · intro k hk
    rw [h.mem_iff] at hk ⊢
    rcases hparent k with heq | heq <;> rw [heq]
    · exact hroot.parent_mem k hk
    · exact hroot.root_mem k hk
  · intro k hk
    rw [h.mem_iff] at hk ⊢
    exact hroot.root_mem k hk

end Compressed

namespace Rooted

variable {nodes : EqNodes K V} {root : K → K}

/-- Whatever the fuel, what is found is the root. -/
lemma findRepresentative_eq (h : Rooted nodes root) {fuel : ℕ} {k r : K} {nodes' : EqNodes K V}
    (hfind : findRepresentative fuel nodes k = some (nodes', r)) : r = root k ∧ Compressed root nodes nodes' := by
  induction fuel generalizing k r nodes' with
  | zero => cases hfind
  | succ fuel ih =>
    rw [findRepresentative] at hfind
    obtain ⟨n, hn, hfind⟩ := Option.bind_eq_some_iff.mp hfind
    have hparent := parentOf_of_lookup hn
    split_ifs at hfind with hself
    · cases hfind
      exact ⟨(h.forest.root_self k (hparent.trans hself.symm)).symm, .refl root nodes⟩
    · obtain ⟨⟨nodes₁, r₁⟩, hrec, hfind⟩ := Option.bind_eq_some_iff.mp hfind
      obtain ⟨n', hn', heq⟩ := Option.map_eq_some_iff.mp hfind
      obtain ⟨hr₁, hcomp⟩ := ih hrec
      cases heq
      have hroot : r₁ = root k := by rw [hr₁, ← hparent, h.forest.root_parent]
      refine ⟨hroot, hcomp.trans fun a => ?_⟩
      rcases eq_or_ne a k with rfl | ha
      · right
        rw [AList.lookup_insert, hn', hroot]
        rfl
      · left
        rw [AList.lookup_insert_ne ha]

/-- The fuel that is needed is bounded by the number of keys of a higher rank. -/
lemma findRepresentative_isSome (h : Rooted nodes root) {fuel : ℕ} {k : K} (hk : k ∈ nodes)
    (hfuel : ((known nodes).filter fun x => rankOf nodes k < rankOf nodes x).card < fuel) :
    ∃ nodes', findRepresentative fuel nodes k = some (nodes', root k) := by
  induction fuel generalizing k with
  | zero => omega
  | succ fuel ih =>
    obtain ⟨n, hn⟩ := exists_lookup hk
    have hparent := parentOf_of_lookup hn
    by_cases hself : k = n.representative
    · refine ⟨nodes, ?_⟩
      rw [findRepresentative, hn, Option.bind_some, if_pos hself, h.forest.root_self k (hparent.trans hself.symm)]
    · have hclimbs : rankOf nodes k < rankOf nodes n.representative := by
        rw [← hparent]
        exact h.forest.climbs k (by rw [hparent]; exact Ne.symm hself)
      have hmem : n.representative ∈ nodes := hparent ▸ h.parent_mem k hk
      have hfewer : ((known nodes).filter fun x => rankOf nodes n.representative < rankOf nodes x) ⊂
          (known nodes).filter fun x => rankOf nodes k < rankOf nodes x := by
        rw [Finset.ssubset_iff_of_subset
          (Finset.monotone_filter_right _ fun x _ hx => hclimbs.trans hx)]
        exact ⟨n.representative, by simp [hmem, hclimbs], by simp⟩
      obtain ⟨nodes', hrec⟩ := ih hmem (by have := Finset.card_lt_card hfewer; omega)
      have hroot : root n.representative = root k := by rw [← hparent, h.forest.root_parent]
      obtain ⟨n', hn'⟩ := exists_lookup (((h.findRepresentative_eq hrec).2.mem_iff k).mpr hk)
      refine ⟨nodes'.insert k { n' with representative := root n.representative }, ?_⟩
      rw [findRepresentative, hn, Option.bind_some, if_neg hself, hrec, Option.bind_some, hn', Option.map_some,
        hroot]

lemma findRepresentative_spec (h : Rooted nodes root) {k : K} (hk : k ∈ nodes) :
    ∃ nodes', findRepresentative (nodes.keys.length + 1) nodes k = some (nodes', root k) ∧
      Compressed root nodes nodes' := by
  have hcard := (Finset.card_filter_le (known nodes) fun x => rankOf nodes k < rankOf nodes x).trans
    (List.toFinset_card_le nodes.keys)
  obtain ⟨nodes', hfind⟩ := h.findRepresentative_isSome hk (Nat.lt_succ_of_le hcard)
  exact ⟨nodes', hfind, (h.findRepresentative_eq hfind).2⟩

/-- A node is found for every key, and a new one is made for a new key. -/
lemma findNode_spec {m : EquivalenceMapping K V} (h : Rooted m.nodes root) (lift : K → V) (k : K) :
    ∃ m', findNode lift m k = some (m', root k) ∧ m'.eqsz = m.eqsz ∧ Rooted m'.nodes root ∧
      (∀ a, a ∈ m'.nodes ↔ a = k ∨ a ∈ m.nodes) ∧
      (k ∈ m.nodes → Compressed root m.nodes m'.nodes) ∧
      (k ∉ m.nodes → m'.nodes = m.nodes.insert k ⟨lift k, 0, k⟩) := by
  by_cases hk : k ∈ m.nodes
  · obtain ⟨nodes', hfind, hcomp⟩ := h.findRepresentative_spec hk
    refine ⟨{ m with nodes := nodes' }, ?_, rfl, hcomp.rooted h, fun a => ?_, fun _ => hcomp,
      fun hnot => absurd hk hnot⟩
    · rw [findNode, if_pos hk, hfind]
      rfl
    · rw [hcomp.mem_iff]
      exact ⟨Or.inr, fun ha => ha.elim (fun heq => heq ▸ hk) fun ha => ha⟩
  · refine ⟨{ m with nodes := m.nodes.insert k ⟨lift k, 0, k⟩ }, ?_, rfl, h.insert_new hk _,
      fun a => AList.mem_insert m.nodes, fun hin => absurd hin hk, fun _ => rfl⟩
    rw [findNode, if_neg hk, h.root_of_notMem hk]

/-- One root is linked to another one. -/
lemma link (h : Rooted nodes root) {a b : K} {na nb : Eqsetmem K V} (hab : a ≠ b)
    (hna : nodes.lookup a = some na) (hnb : nodes.lookup b = some nb) (ha : root a = a) (hb : root b = b)
    {rank : ℕ} (hlt : na.rank < rank) (hle : nb.rank ≤ rank) (v : V) :
    Rooted ((nodes.insert a { na with representative := b }).insert b { nb with value := v, rank := rank })
      (relink root a b) := by
  set nodes' := (nodes.insert a { na with representative := b }).insert b
    { nb with value := v, rank := rank } with hdef
  have hparent_a : parentOf nodes a = a := by
    have := h.forest.parent_root a
    rwa [ha] at this
  have hparent_b : parentOf nodes b = b := by
    have := h.forest.parent_root b
    rwa [hb] at this
  have hla : nodes'.lookup a = some { na with representative := b } := by
    rw [hdef, AList.lookup_insert_ne hab, AList.lookup_insert]
  have hlb : nodes'.lookup b = some { nb with value := v, rank := rank } := AList.lookup_insert _
  have hother : ∀ k, k ≠ a → k ≠ b → nodes'.lookup k = nodes.lookup k := fun k hka hkb => by
    rw [hdef, AList.lookup_insert_ne hkb, AList.lookup_insert_ne hka]
  have hmem : ∀ k, k ∈ nodes' ↔ k ∈ nodes := mem_linked hna hnb
  have hparent : parentOf nodes' = Function.update (parentOf nodes) a b := by
    funext k
    rcases eq_or_ne k a with rfl | hka
    · rw [Function.update_self, parentOf_of_lookup hla]
    rw [Function.update_of_ne hka]
    rcases eq_or_ne k b with rfl | hkb
    · rw [parentOf_of_lookup hlb, parentOf_of_lookup hnb]
    · rw [parentOf, hother k hka hkb, parentOf]
  have hrank_of : ∀ k ≠ b, rankOf nodes' k = rankOf nodes k := by
    intro k hkb
    rcases eq_or_ne k a with rfl | hka
    · rw [rankOf_of_lookup hla, rankOf_of_lookup hna]
    · rw [rankOf, hother k hka hkb, rankOf]
  refine ⟨?_, ?_, ?_⟩
  · rw [hparent]
    refine h.forest.link hparent_a hparent_b hab ?_ ?_ hrank_of
    · rw [rankOf_of_lookup hla, rankOf_of_lookup hlb]
      exact hlt
    · rw [rankOf_of_lookup hnb, rankOf_of_lookup hlb]
      exact hle
  · intro k hk
    rw [hmem] at hk ⊢
    rw [hparent]
    rcases eq_or_ne k a with rfl | hka
    · rw [Function.update_self]
      exact mem_of_lookup hnb
    · rw [Function.update_of_ne hka]
      exact h.parent_mem k hk
  · intro k hk
    rw [hmem] at hk ⊢
    unfold relink
    split_ifs
    · exact mem_of_lookup hnb
    · exact h.root_mem k hk

end Rooted

/-- The value that is kept for a key, or will be. -/
def valueAt (lift : K → V) (nodes : EqNodes K V) (k : K) : V := ((nodes.lookup k).map Eqsetmem.value).getD (lift k)

lemma valueAt_of_lookup (lift : K → V) {nodes : EqNodes K V} {k : K} {n : Eqsetmem K V} (h : nodes.lookup k = some n) :
    valueAt lift nodes k = n.value := by
  rw [valueAt, h]
  rfl

lemma valueAt_insert_of_ne (lift : K → V) {nodes : EqNodes K V} {k a : K} (n : Eqsetmem K V) (h : a ≠ k) :
    valueAt lift (nodes.insert k n) a = valueAt lift nodes a := by
  rw [valueAt, AList.lookup_insert_ne h, valueAt]

lemma Compressed.valueAt {nodes nodes' : EqNodes K V} {root : K → K} (h : Compressed root nodes nodes') (lift : K → V)
    (k : K) : valueAt lift nodes' k = EquivalenceMapping.valueAt lift nodes k := by
  rw [EquivalenceMapping.valueAt, h.map_lookup Eqsetmem.value fun _ _ => rfl, EquivalenceMapping.valueAt]

namespace Rooted

variable {m : EquivalenceMapping K V} {root : K → K}

/-- What `findNode` finds is a node, and no value changes. -/
lemma findNode_values (h : Rooted m.nodes root) (lift : K → V) (k : K) :
    ∃ m' n, findNode lift m k = some (m', root k) ∧ m'.eqsz = m.eqsz ∧ Rooted m'.nodes root ∧
      (∀ a, a ∈ m'.nodes ↔ a = k ∨ a ∈ m.nodes) ∧ m'.nodes.lookup (root k) = some n ∧
      ∀ a, valueAt lift m'.nodes a = valueAt lift m.nodes a := by
  obtain ⟨m', hfind, hsize, hroot, hmem, hcomp, hnew⟩ := h.findNode_spec lift k
  obtain ⟨n, hn⟩ := exists_lookup (hroot.root_mem k ((hmem k).mpr (Or.inl rfl)))
  refine ⟨m', n, hfind, hsize, hroot, hmem, hn, fun a => ?_⟩
  by_cases hk : k ∈ m.nodes
  · exact (hcomp hk).valueAt lift a
  · rw [hnew hk]
    rcases eq_or_ne a k with rfl | ha
    · rw [valueAt_of_lookup lift (AList.lookup_insert m.nodes), valueAt, AList.lookup_eq_none.mpr hk]
      rfl
    · exact valueAt_insert_of_ne lift _ ha

variable [Add V]

/-- Two nodes that are joined are one, or one of them is linked to the other. -/
lemma joinNodes_cases (m : EquivalenceMapping K V) {l r : K} {lhs rhs : Eqsetmem K V}
    (hrank : l = r → lhs.rank = rhs.rank) : l = r ∧ joinNodes m l r lhs rhs = m ∨
      l ≠ r ∧ ∃ a b na nb rank, (a = l ∧ na = lhs ∧ b = r ∧ nb = rhs ∨ a = r ∧ na = rhs ∧ b = l ∧ nb = lhs) ∧
        na.rank < rank ∧ nb.rank ≤ rank ∧ joinNodes m l r lhs rhs =
          ⟨m.eqsz + 1, (m.nodes.insert a { na with representative := b }).insert b
            { nb with value := nb.value + na.value, rank := rank }⟩ := by
  unfold joinNodes
  split_ifs with hlt hgt heq
  · exact Or.inr ⟨fun heq => hlt.ne (hrank heq), l, r, lhs, rhs, rhs.rank, Or.inl ⟨rfl, rfl, rfl, rfl⟩, hlt, le_rfl,
      rfl⟩
  · exact Or.inr ⟨fun heq => hgt.ne' (hrank heq), r, l, rhs, lhs, lhs.rank, Or.inr ⟨rfl, rfl, rfl, rfl⟩, hgt, le_rfl,
      rfl⟩
  · exact Or.inl ⟨heq, rfl⟩
  · exact Or.inr ⟨heq, r, l, rhs, lhs, lhs.rank + 1, Or.inr ⟨rfl, rfl, rfl, rfl⟩, Nat.lt_succ_of_le (not_lt.mp hlt),
      Nat.le_succ _, rfl⟩

/-- Keys of one class stay as they are. Otherwise one root is linked to the other, that gets the sum of the values. -/
lemma join_spec (h : Rooted m.nodes root) (lift : K → V) (x y : K) :
    ∃ m' root', join lift m x y = some m' ∧ Rooted m'.nodes root' ∧ (∀ k ∈ m.nodes, k ∈ m'.nodes) ∧
      (root x = root y → root' = root ∧ ∀ k, valueAt lift m'.nodes k = valueAt lift m.nodes k) ∧
      (root x ≠ root y → ∃ a b, (a = root x ∧ b = root y ∨ a = root y ∧ b = root x) ∧ root' = relink root a b ∧
        valueAt lift m'.nodes b = valueAt lift m.nodes b + valueAt lift m.nodes a ∧
        ∀ k ≠ b, valueAt lift m'.nodes k = valueAt lift m.nodes k) := by
  obtain ⟨m₀, -, hfind₀, -, hroot₀, hmem₀, -, hvalue₀⟩ := h.findNode_values lift x
  obtain ⟨m₁, -, hfind₁, -, hroot₁, hmem₁, -, hvalue₁⟩ := hroot₀.findNode_values lift y
  obtain ⟨lhs, hl⟩ := exists_lookup (hroot₁.root_mem x ((hmem₁ x).mpr (Or.inr ((hmem₀ x).mpr (Or.inl rfl)))))
  obtain ⟨rhs, hr⟩ := exists_lookup (hroot₁.root_mem y ((hmem₁ y).mpr (Or.inl rfl)))
  have hvalue : ∀ k, valueAt lift m₁.nodes k = valueAt lift m.nodes k := fun k => (hvalue₁ k).trans (hvalue₀ k)
  have hmem : ∀ k ∈ m.nodes, k ∈ m₁.nodes := fun k hk => (hmem₁ k).mpr (Or.inr ((hmem₀ k).mpr (Or.inr hk)))
  have hjoin : join lift m x y = some (joinNodes m₁ (root x) (root y) lhs rhs) := by
    simp only [join, hfind₀, hfind₁, Option.bind_some, hl, hr, Option.map_some]
  have hrank : root x = root y → lhs.rank = rhs.rank := by
    intro heq
    rw [heq, hr] at hl
    cases hl
    rfl
  rcases joinNodes_cases m₁ hrank with ⟨heq, hsame⟩ | ⟨hne, a, b, na, nb, rank, hab, hlt, hle, hlink⟩
  · exact ⟨m₁, root, hsame ▸ hjoin, hroot₁, hmem, fun _ => ⟨rfl, hvalue⟩, fun h => absurd heq h⟩
  · have hna : m₁.nodes.lookup a = some na := by
      rcases hab with ⟨rfl, rfl, -⟩ | ⟨rfl, rfl, -⟩
      · exact hl
      · exact hr
    have hnb : m₁.nodes.lookup b = some nb := by
      rcases hab with ⟨-, -, rfl, rfl⟩ | ⟨-, -, rfl, rfl⟩
      · exact hr
      · exact hl
    have hends : a = root x ∧ b = root y ∨ a = root y ∧ b = root x :=
      hab.imp (fun h => ⟨h.1, h.2.2.1⟩) fun h => ⟨h.1, h.2.2.1⟩
    have hkeep : root a = a ∧ root b = b ∧ a ≠ b := by
      rcases hends with ⟨rfl, rfl⟩ | ⟨rfl, rfl⟩
      · exact ⟨h.forest.root_root x, h.forest.root_root y, hne⟩
      · exact ⟨h.forest.root_root y, h.forest.root_root x, hne.symm⟩
    refine ⟨_, relink root a b, hlink ▸ hjoin,
      hroot₁.link hkeep.2.2 hna hnb hkeep.1 hkeep.2.1 hlt hle _, fun k hk => (mem_linked hna hnb k).mpr (hmem k hk),
      fun heq => absurd heq hne, fun _ => ⟨a, b, hends, rfl, ?_, fun k hk => ?_⟩⟩
    · rw [valueAt_of_lookup lift (AList.lookup_insert _), ← hvalue b, ← hvalue a, valueAt_of_lookup lift hnb,
        valueAt_of_lookup lift hna]
    · rw [valueAt_insert_of_ne lift _ hk, ← hvalue k]
      rcases eq_or_ne k a with rfl | hka
      · rw [valueAt_of_lookup lift (AList.lookup_insert _), valueAt_of_lookup lift hna]
      · exact valueAt_insert_of_ne lift _ hka

end Rooted

/-! ### Sums of values -/

variable [AddCommSemigroup V] (lift : K → V)

/-- The nodes and their roots. Sums are over finite sets, that may be empty as far as the type of sums knows. -/
structure Inv (nodes : EqNodes K V) (root : K → K) : Prop where
  forest : Forest (parentOf nodes) root (rankOf nodes)
  parent_mem : ∀ k ∈ nodes, parentOf nodes k ∈ nodes
  root_mem : ∀ k ∈ nodes, root k ∈ nodes
  value : ∀ r n, nodes.lookup r = some n → root r = r →
    (n.value : WithZero V) = ∑ k ∈ known nodes with root k = r, (lift k : WithZero V)

variable {lift}

lemma Inv.empty : Inv lift (∅ : EqNodes K V) fun k => k where
  forest := Rooted.empty.forest
  parent_mem := Rooted.empty.parent_mem
  root_mem := Rooted.empty.root_mem
  value r n h := by simp at h

namespace Inv

variable {nodes : EqNodes K V} {root : K → K}

lemma rooted (h : Inv lift nodes root) : Rooted nodes root := ⟨h.forest, h.parent_mem, h.root_mem⟩

lemma root_of_notMem (h : Inv lift nodes root) {k : K} (hk : k ∉ nodes) : root k = k := h.rooted.root_of_notMem hk

lemma insert_new (h : Inv lift nodes root) {k : K} (hk : k ∉ nodes) :
    Inv lift (nodes.insert k ⟨lift k, 0, k⟩) root := by
  have hroot := h.rooted.insert_new hk (lift k)
  refine ⟨hroot.forest, hroot.parent_mem, hroot.root_mem, ?_⟩
  have hknown : known (nodes.insert k ⟨lift k, 0, k⟩) = Insert.insert k (known nodes) := by
    ext a
    rw [mem_known, AList.mem_insert, Finset.mem_insert, mem_known]
  have hself : root k = k := h.root_of_notMem hk
  intro r n hn hr
  rw [hknown, Finset.filter_insert]
  rcases eq_or_ne r k with rfl | hne
  · rw [AList.lookup_insert] at hn
    cases hn
    have hnone : (known nodes).filter (root · = r) = ∅ := by
      refine Finset.filter_eq_empty_iff.mpr fun a ha hroot => hk ?_
      rw [← hroot]
      exact h.root_mem a (mem_known.mp ha)
    rw [if_pos hself, hnone]
    simp
  · rw [AList.lookup_insert_ne hne] at hn
    rw [if_neg (by rw [hself]; exact hne.symm)]
    exact h.value r n hn hr

end Inv

lemma Compressed.inv {nodes nodes' : EqNodes K V} {root : K → K} (h : Compressed root nodes nodes')
    (hinv : Inv lift nodes root) : Inv lift nodes' root := by
  have hroot := h.rooted hinv.rooted
  refine ⟨hroot.forest, hroot.parent_mem, hroot.root_mem, fun r n hn hr => ?_⟩
  rw [known_congr h.mem_iff]
  have hvalue := h.map_lookup Eqsetmem.value (fun _ _ => rfl) r
  rw [hn] at hvalue
  obtain ⟨n', hn', heq⟩ := Option.map_eq_some_iff.mp hvalue.symm
  rw [← heq]
  exact hinv.value r n' hn' hr

/-! ### The operations of one mapping -/

section Operations

variable {m : EquivalenceMapping K V} {root : K → K}

lemma Inv.findNode_spec (h : Inv lift m.nodes root) (k : K) :
    ∃ m', findNode lift m k = some (m', root k) ∧ m'.eqsz = m.eqsz ∧ Inv lift m'.nodes root ∧
      (∀ a, a ∈ m'.nodes ↔ a = k ∨ a ∈ m.nodes) ∧
      (k ∈ m.nodes → Compressed root m.nodes m'.nodes) := by
  obtain ⟨m', hfind, hsize, -, hmem, hcomp, hnew⟩ := h.rooted.findNode_spec lift k
  refine ⟨m', hfind, hsize, ?_, hmem, hcomp⟩
  by_cases hk : k ∈ m.nodes
  · exact (hcomp hk).inv h
  · rw [hnew hk]
    exact h.insert_new hk

/-- One root is linked to another one, that takes over its value. -/
lemma Inv.link {nodes : EqNodes K V} (h : Inv lift nodes root) {a b : K} {na nb : Eqsetmem K V} (hab : a ≠ b)
    (hna : nodes.lookup a = some na) (hnb : nodes.lookup b = some nb) (ha : root a = a) (hb : root b = b)
    {rank : ℕ} (hlt : na.rank < rank) (hle : nb.rank ≤ rank) :
    Inv lift ((nodes.insert a { na with representative := b }).insert b
      { nb with value := nb.value + na.value, rank := rank }) (relink root a b) := by
  have hroot := h.rooted.link hab hna hnb ha hb hlt hle (nb.value + na.value)
  refine ⟨hroot.forest, hroot.parent_mem, hroot.root_mem, fun r n hn hr => ?_⟩
  rw [known_congr (mem_linked hna hnb)]
  rcases eq_or_ne r b with rfl | hrb
  · rw [AList.lookup_insert] at hn
    cases hn
    rw [sum_relink root _ _ hab, ← h.value r nb hnb hb, ← h.value a na hna ha]
    rfl
  · have hra : r ≠ a := by
      rintro rfl
      rw [relink, if_pos ha] at hr
      exact hrb hr.symm
    rw [AList.lookup_insert_ne hrb, AList.lookup_insert_ne hra] at hn
    rw [sum_relink_of_ne root _ _ hra hrb]
    refine h.value r n hn ?_
    unfold relink at hr
    split_ifs at hr with hrr
    · exact absurd hr.symm hrb
    · exact hr

/-- The two are in one class from now on, and the count grows if they were not before. -/
structure Joins (m m' : EquivalenceMapping K V) (root root' : K → K) (l : List (K × K)) : Prop where
  ker : Setoid.ker root' = Setoid.ker root ⊔ joined l
  grows : ∀ S : Finset K, (∀ k ∈ m'.nodes, k ∈ S) →
    m'.eqsz + (S.image root').card = m.eqsz + (S.image root).card

omit [AddCommSemigroup V] in
/-- Nothing new. -/
lemma Joins.of_eqsz {m' : EquivalenceMapping K V} {l : List (K × K)} (hl : ∀ a b, (a, b) ∈ l → root a = root b)
    (h : m'.eqsz = m.eqsz) : Joins m m' root root l :=
  ⟨(sup_eq_left.mpr (joined_le_iff.mpr hl)).symm, fun _ _ => by rw [h]⟩

omit [AddCommSemigroup V] in
lemma Joins.symm {m' : EquivalenceMapping K V} {root' : K → K} {u v : K} (h : Joins m m' root root' [(u, v)]) :
    Joins m m' root root' [(v, u)] := ⟨joined_pair_comm u v ▸ h.ker, h.grows⟩

lemma Inv.linkNodes_spec (h : Inv lift m.nodes root) {u v : K} {nu nv : Eqsetmem K V} (hu : u ∈ m.nodes)
    (hv : v ∈ m.nodes) (hnu : m.nodes.lookup (root u) = some nu) (hnv : m.nodes.lookup (root v) = some nv)
    (hne : root u ≠ root v) {rank : ℕ} (hlt : nu.rank < rank) (hle : nv.rank ≤ rank) :
    let m' : EquivalenceMapping K V := ⟨m.eqsz + 1,
      (m.nodes.insert (root u) { nu with representative := root v }).insert (root v)
        { nv with value := nv.value + nu.value, rank := rank }⟩
    ∃ root', Inv lift m'.nodes root' ∧ Joins m m' root root' [(u, v)] ∧ ∀ a, a ∈ m'.nodes ↔ a ∈ m.nodes := by
  intro m'
  have hmem : ∀ a, a ∈ m'.nodes ↔ a ∈ m.nodes := mem_linked hnu hnv
  refine ⟨relink root (root u) (root v),
    h.link hne hnu hnv (h.forest.root_root u) (h.forest.root_root v) hlt hle,
    ⟨ker_relink root rfl rfl, fun S hS => ?_⟩, hmem⟩
  have hcard := card_image_relink root rfl rfl (hS u ((hmem u).mpr hu)) (hS v ((hmem v).mpr hv)) hne
  have hsize : m'.eqsz = m.eqsz + 1 := rfl
  omega

lemma Inv.joinNodes_spec (h : Inv lift m.nodes root) {x y : K} {lhs rhs : Eqsetmem K V}
    (hx : x ∈ m.nodes) (hy : y ∈ m.nodes) (hl : m.nodes.lookup (root x) = some lhs)
    (hr : m.nodes.lookup (root y) = some rhs) :
    ∃ root', Inv lift (joinNodes m (root x) (root y) lhs rhs).nodes root' ∧
      Joins m (joinNodes m (root x) (root y) lhs rhs) root root' [(x, y)] ∧
      (∀ a, a ∈ (joinNodes m (root x) (root y) lhs rhs).nodes ↔ a ∈ m.nodes) ∧ (root x = root y → root' = root) := by
  have hrank : root x = root y → lhs.rank = rhs.rank := by
    intro heq
    rw [heq, hr] at hl
    cases hl
    rfl
  unfold joinNodes
  split_ifs with hlt hgt heq
  · have hne : root x ≠ root y := fun heq => hlt.ne (hrank heq)
    obtain ⟨root', hinv, hjoins, hmem⟩ := h.linkNodes_spec hx hy hl hr hne hlt le_rfl
    exact ⟨root', hinv, hjoins, hmem, fun heq => absurd heq hne⟩
  · have hne : root x ≠ root y := fun heq => hgt.ne' (hrank heq)
    obtain ⟨root', hinv, hjoins, hmem⟩ := h.linkNodes_spec hy hx hr hl hne.symm hgt le_rfl
    exact ⟨root', hinv, hjoins.symm, hmem, fun heq => absurd heq hne⟩
  · exact ⟨root, h, ⟨ker_sup_joined_of_eq root heq, fun _ _ => rfl⟩, fun _ => Iff.rfl, fun _ => rfl⟩
  · obtain ⟨root', hinv, hjoins, hmem⟩ :=
      h.linkNodes_spec hy hx hr hl (Ne.symm heq) (Nat.lt_succ_of_le (not_lt.mp hlt)) (Nat.le_succ _)
    exact ⟨root', hinv, hjoins.symm, hmem, fun h => absurd h heq⟩

lemma Inv.join_spec (h : Inv lift m.nodes root) (x y : K) :
    ∃ m' root', join lift m x y = some m' ∧ Inv lift m'.nodes root' ∧ Joins m m' root root' [(x, y)] ∧
      (∀ a, a ∈ m'.nodes ↔ a = x ∨ a = y ∨ a ∈ m.nodes) ∧ (root x = root y → root' = root) := by
  obtain ⟨m₀, hfind₀, hsize₀, hinv₀, hmem₀, -⟩ := h.findNode_spec x
  obtain ⟨m₁, hfind₁, hsize₁, hinv₁, hmem₁, -⟩ := hinv₀.findNode_spec y
  have hx : x ∈ m₁.nodes := (hmem₁ x).mpr (Or.inr ((hmem₀ x).mpr (Or.inl rfl)))
  have hy : y ∈ m₁.nodes := (hmem₁ y).mpr (Or.inl rfl)
  obtain ⟨lhs, hl⟩ := exists_lookup (hinv₁.root_mem x hx)
  obtain ⟨rhs, hr⟩ := exists_lookup (hinv₁.root_mem y hy)
  obtain ⟨root', hinv', hjoins, hmem', hsame⟩ := hinv₁.joinNodes_spec hx hy hl hr
  refine ⟨_, root', ?_, hinv', ⟨hjoins.ker, fun S hS => ?_⟩, fun a => ?_, hsame⟩
  · simp only [join, hfind₀, hfind₁, Option.bind_some, hl, hr, Option.map_some]
  · rw [hjoins.grows S hS, hsize₁, hsize₀]
  · rw [hmem', hmem₁, hmem₀]
    exact or_left_comm

end Operations

/-! ### Several mappings -/

section Pools

variable {ι : Type*} [DecidableEq ι]

/-- Pairs have been joined at one place, and no other place's classes have changed. -/
structure Advances (lift : K → V) (i : ι) (l : List (K × K)) (ms ms' : Pool ι K V) (roots roots' : ι → K → K) :
    Prop where
  inv : ∀ n, Inv lift (ms' n).nodes (roots' n)
  joins : ∀ n, Joins (ms n) (ms' n) (roots n) (roots' n) (if n = i then l else [])
  mem : ∀ n, ∀ k ∈ (ms n).nodes, k ∈ (ms' n).nodes

namespace Advances

variable {i : ι} {l l' : List (K × K)} {ms ms' ms'' : Pool ι K V} {roots roots' roots'' : ι → K → K}

lemma refl (hinv : ∀ n, Inv lift (ms n).nodes (roots n)) (hl : ∀ a b, (a, b) ∈ l → roots i a = roots i b) :
    Advances lift i l ms ms roots roots where
  inv := hinv
  joins n := by
    split_ifs with hn
    · exact .of_eqsz (hn ▸ hl) rfl
    · exact .of_eqsz (by simp) rfl
  mem _ _ hk := hk

lemma trans (h : Advances lift i l ms ms' roots roots') (h' : Advances lift i l' ms' ms'' roots' roots'') :
    Advances lift i (l ++ l') ms ms'' roots roots'' where
  inv := h'.inv
  joins n := by
    refine ⟨?_, fun S hS => ?_⟩
    · rw [(h'.joins n).ker, (h.joins n).ker, sup_assoc, ← joined_append]
      split_ifs <;> rfl
    · rw [(h'.joins n).grows S hS, (h.joins n).grows S fun k hk => hS k (h'.mem n k hk)]
  mem n k hk := h'.mem n k (h.mem n k hk)

/-- One mapping has taken a step. -/
lemma update (hinv : ∀ n, Inv lift (ms n).nodes (roots n)) {m : EquivalenceMapping K V} {root : K → K}
    (hm : Inv lift m.nodes root) (hjoins : Joins (ms i) m (roots i) root l)
    (hmem : ∀ k ∈ (ms i).nodes, k ∈ m.nodes) :
    Advances lift i l ms (Function.update ms i m) roots (Function.update roots i root) where
  inv n := by
    rcases eq_or_ne n i with rfl | hn
    · rwa [Function.update_self, Function.update_self]
    · rw [Function.update_of_ne hn, Function.update_of_ne hn]
      exact hinv n
  joins n := by
    rcases eq_or_ne n i with rfl | hn
    · rwa [Function.update_self, Function.update_self, if_pos rfl]
    · rw [Function.update_of_ne hn, Function.update_of_ne hn, if_neg hn]
      exact .of_eqsz (by simp) rfl
  mem n k hk := by
    rcases eq_or_ne n i with rfl | hn
    · rw [Function.update_self]
      exact hmem k hk
    · rwa [Function.update_of_ne hn]

/-- A mapping whose nodes have been compressed has the classes that it had. -/
lemma compress (hinv : ∀ n, Inv lift (ms n).nodes (roots n)) (i j : ι) {nodes : EqNodes K V}
    (hcomp : Compressed (roots j) (ms j).nodes nodes) :
    Advances lift i [] ms (Function.update ms j { ms j with nodes := nodes }) roots roots := by
  have h := update (i := j) (l := []) hinv (m := { ms j with nodes := nodes }) (hcomp.inv (hinv j))
    (.of_eqsz (by simp) rfl) fun k hk => (hcomp.mem_iff k).mpr hk
  rw [Function.update_eq_self] at h
  exact ⟨h.inv, fun n => by simpa using h.joins n, h.mem⟩

end Advances

lemma addNodes_spec {m : EquivalenceMapping K V} {root : K → K} (h : Inv lift m.nodes root) (ks : List K) :
    Inv lift (addNodes lift m ks).nodes root ∧ (addNodes lift m ks).eqsz = m.eqsz ∧
      ∀ k ∈ m.nodes, k ∈ (addNodes lift m ks).nodes := by
  induction ks generalizing m with
  | nil => exact ⟨h, rfl, fun k hk => hk⟩
  | cons k ks ih =>
    rw [addNodes, List.foldl_cons, ← addNodes]
    split_ifs with hk
    · exact ih h
    · obtain ⟨hinv, hsize, hmem⟩ := ih (m := { m with nodes := m.nodes.insert k ⟨lift k, 0, k⟩ }) (h.insert_new hk)
      exact ⟨hinv, hsize, fun a ha => hmem a ((AList.mem_insert m.nodes).mpr (Or.inr ha))⟩

/-- Key by key. The classes of the other mapping stay what they are, also if it is the same mapping. -/
lemma replay_spec {i j : ι} {ks : List K} {ms : Pool ι K V} {roots : ι → K → K}
    (hinv : ∀ n, Inv lift (ms n).nodes (roots n)) (hks : ∀ k ∈ ks, k ∈ (ms j).nodes) :
    ∃ ms' roots', replay lift i j ks ms = some ms' ∧
      Advances lift i (ks.map fun k => (k, roots j k)) ms ms' roots roots' := by
  induction ks generalizing ms roots with
  | nil => exact ⟨ms, roots, rfl, .refl hinv (by simp)⟩
  | cons k ks ih =>
    obtain ⟨nodes, hfind, hcomp⟩ := (hinv j).rooted.findRepresentative_spec (hks k List.mem_cons_self)
    set ms₁ := Function.update ms j { ms j with nodes := nodes } with hms₁
    have hadv : Advances lift i [] ms ms₁ roots roots := .compress hinv i j hcomp
    rw [replay, hfind, Option.bind_some, List.map_cons]
    simp only [← hms₁]
    by_cases hk : k = roots j k
    · obtain ⟨ms', roots', hreplay, hadv'⟩ :=
        ih hadv.inv fun k' hk' => hadv.mem j k' (hks k' (List.mem_cons_of_mem k hk'))
      refine ⟨ms', roots', ?_, ?_⟩
      · rw [if_neg (not_not.mpr hk), hreplay]
      · refine (hadv.trans (.refl (l := [(k, roots j k)]) hadv.inv fun a b hab => ?_)).trans hadv'
        obtain ⟨rfl, rfl⟩ := Prod.mk.inj (List.mem_singleton.mp hab)
        rw [← hk]
    · obtain ⟨m, root, hjoin, hm, hjoins, hmem, hsame⟩ := (hadv.inv i).join_spec k (roots j k)
      have hadv₁ := hadv.trans (.update hadv.inv hm hjoins fun a ha => (hmem a).mpr (Or.inr (Or.inr ha)))
      have hroots : Function.update roots i root j = roots j := by
        rcases eq_or_ne j i with rfl | hji
        · rw [Function.update_self]
          exact hsame ((hinv j).forest.root_root k).symm
        · rw [Function.update_of_ne hji]
      obtain ⟨ms', roots', hreplay, hadv'⟩ :=
        ih hadv₁.inv fun k' hk' => hadv₁.mem j k' (hks k' (List.mem_cons_of_mem k hk'))
      refine ⟨ms', roots', ?_, ?_⟩
      · rw [if_pos hk, hjoin, Option.bind_some, hreplay]
      · rw [hroots] at hadv'
        exact hadv₁.trans hadv'

/-- Adding the nodes and joining them joins what was joined in the other mapping. -/
lemma merge_spec {i j : ι} {ks : List K} {ms : Pool ι K V} {roots : ι → K → K}
    (hinv : ∀ n, Inv lift (ms n).nodes (roots n)) (hks : ks.Perm (ms j).nodes.keys) :
    ∃ p roots' l, merge lift i j ks ms = some p ∧ Advances lift i l ms p.1 roots roots' ∧
      joined l = Setoid.ker (roots j) := by
  have hadd := addNodes_spec (hinv i) ks
  have hadv : Advances lift i [] ms (Function.update ms i (addNodes lift (ms i) ks)) roots roots := by
    have h := Advances.update (l := []) hinv hadd.1 (.of_eqsz (by simp) hadd.2.1) hadd.2.2
    rwa [Function.update_eq_self] at h
  have hmem : ∀ k, k ∈ ks ↔ k ∈ (ms j).nodes := fun k => by rw [hks.mem_iff, AList.mem_keys]
  obtain ⟨ms', roots', hreplay, hadv'⟩ :=
    replay_spec hadv.inv (j := j) fun k hk => hadv.mem j k ((hmem k).mp hk)
  refine ⟨(ms', (ms' i).eqsz - (ms i).eqsz), roots', _, ?_, hadv.trans hadv', ?_⟩
  · rw [merge, hreplay, Option.map_some]
  · exact joined_map_eq_ker (hinv j).forest.root_root fun k hk =>
      (hinv j).root_of_notMem fun hin => hk ((hmem k).mpr hin)

/-- Every operation ends, and joins what it is to join. -/
lemma step_spec {ms : Pool ι K V} {roots : ι → K → K} (hinv : ∀ n, Inv lift (ms n).nodes (roots n)) {op : Op ι K}
    (hop : op.Orders ms) {js : ι → List (K × K)} (hjs : ∀ n, Setoid.ker (roots n) = joined (js n)) :
    ∃ ms' roots' i l, op.step lift ms = some ms' ∧ Advances lift i l ms ms' roots roots' ∧
      ∀ n, Setoid.ker (roots' n) = joined (op.joins js n) := by
  cases op with
  | find i k =>
    obtain ⟨m, hfind, hsize, hm, hmem, -⟩ := (hinv i).findNode_spec k
    obtain ⟨n, hn⟩ := exists_lookup (hm.root_mem k ((hmem k).mpr (Or.inl rfl)))
    have hadv := Advances.update (l := []) hinv hm (.of_eqsz (by simp) hsize) fun a ha => (hmem a).mpr (Or.inr ha)
    rw [Function.update_eq_self] at hadv
    refine ⟨_, roots, i, [], ?_, hadv, hjs⟩
    simp only [Op.step, find, hfind, Option.bind_some, hn, Option.map_some]
  | join i k0 k1 =>
    obtain ⟨m, root, hjoin, hm, hjoins, hmem, -⟩ := (hinv i).join_spec k0 k1
    have hadv := Advances.update hinv hm hjoins fun a ha => (hmem a).mpr (Or.inr (Or.inr ha))
    refine ⟨_, _, i, _, by rw [Op.step, hjoin, Option.map_some], hadv, fun n => ?_⟩
    rw [(hadv.joins n).ker, hjs n, ← joined_append]
    rcases eq_or_ne n i with rfl | hn
    · rw [if_pos rfl, Op.joins, Function.update_self]
    · rw [if_neg hn, Op.joins, Function.update_of_ne hn, List.append_nil]
  | merge i j ks =>
    obtain ⟨p, roots', l, hmerge, hadv, hl⟩ := merge_spec (i := i) hinv hop
    refine ⟨p.1, roots', i, l, by rw [Op.step, hmerge, Option.map_some], hadv, fun n => ?_⟩
    rw [(hadv.joins n).ker, hjs n]
    rcases eq_or_ne n i with rfl | hn
    · rw [if_pos rfl, Op.joins, Function.update_self, joined_append, hl, hjs j]
    · rw [if_neg hn, Op.joins, Function.update_of_ne hn, joined_nil, sup_bot_eq]

/-! ### What is represented -/

lemma Inv.representative_eq {m : EquivalenceMapping K V} {root : K → K} (h : Inv lift m.nodes root) (k : K) :
    representative lift m k = some (root k) := by
  obtain ⟨m', hfind, -⟩ := h.findNode_spec k
  rw [representative, hfind]
  rfl

/-- The keys' representatives, without repetition. -/
def classes (lift : K → V) (m : EquivalenceMapping K V) (S : Finset K) : Finset (Option K) :=
  S.image (representative lift m)

lemma Inv.card_classes {m : EquivalenceMapping K V} {root : K → K} (h : Inv lift m.nodes root) (S : Finset K) :
    (classes lift m S).card = (S.image root).card := by
  have heq : classes lift m S = (S.image root).image some := by
    rw [Finset.image_image]
    exact Finset.image_congr fun k _ => h.representative_eq k
  rw [heq, Finset.card_image_of_injective _ (Option.some_injective K)]

/-- A mapping on which these joins have been performed. -/
structure Represents (lift : K → V) (m : EquivalenceMapping K V) (l : List (K × K)) : Prop where
  found : ∀ k, (representative lift m k).isSome
  representative_eq_iff : ∀ a b, representative lift m a = representative lift m b ↔
    Relation.EqvGen (fun x y => (x, y) ∈ l) a b
  value : ∀ k, ∃ m' v, find lift m k = some (m', v) ∧
    (v : WithZero V) = ∑ x ∈ insert k (known m.nodes) with representative lift m x = representative lift m k,
      (lift x : WithZero V)
  compression : ∀ fuel k nodes r, findRepresentative fuel m.nodes k = some (nodes, r) →
    (∀ a, representative lift { m with nodes := nodes } a = representative lift m a) ∧
      ∀ a, (nodes.lookup a).map Eqsetmem.value = (m.nodes.lookup a).map Eqsetmem.value
  ranks : ∀ k n, m.nodes.lookup k = some n → n.representative ≠ k →
    ∃ n', m.nodes.lookup n.representative = some n' ∧ n.rank < n'.rank

lemma Inv.represents {m : EquivalenceMapping K V} {root : K → K} {l : List (K × K)} (h : Inv lift m.nodes root)
    (hl : Setoid.ker root = joined l) : Represents lift m l where
  found k := by rw [h.representative_eq k]; rfl
  representative_eq_iff a b := by
    rw [h.representative_eq, h.representative_eq, Option.some_inj, ← Setoid.ker_def, hl]
    rfl
  value k := by
    obtain ⟨m', hfind, -, hinv, hmem, -⟩ := h.findNode_spec k
    obtain ⟨n, hn⟩ := exists_lookup (hinv.root_mem k ((hmem k).mpr (Or.inl rfl)))
    refine ⟨m', n.value, by rw [find, hfind, Option.bind_some, hn, Option.map_some], ?_⟩
    have hknown : known m'.nodes = insert k (known m.nodes) := by
      ext a
      rw [mem_known, hmem, Finset.mem_insert, mem_known]
    rw [hinv.value (root k) n hn (h.forest.root_root k), hknown]
    simp only [h.representative_eq, Option.some_inj]
  compression fuel k nodes r hfind := by
    obtain ⟨-, hcomp⟩ := h.rooted.findRepresentative_eq hfind
    refine ⟨fun a => ?_, hcomp.map_lookup Eqsetmem.value fun _ _ => rfl⟩
    have hinv : Inv lift ({ m with nodes := nodes } : EquivalenceMapping K V).nodes root := hcomp.inv h
    rw [hinv.representative_eq, h.representative_eq]
  ranks k n hn hne := by
    have hparent := parentOf_of_lookup hn
    obtain ⟨n', hn'⟩ := exists_lookup (hparent ▸ h.parent_mem k (mem_of_lookup hn))
    refine ⟨n', hn', ?_⟩
    have hclimbs := h.forest.climbs k (by rwa [hparent])
    rwa [hparent, rankOf_of_lookup hn, rankOf_of_lookup hn'] at hclimbs

lemma inv_of_reached {ms : Pool ι K V} {js : ι → List (K × K)} (h : Reached lift ms js) :
    ∃ roots : ι → K → K, (∀ n, Inv lift (ms n).nodes (roots n)) ∧ ∀ n, Setoid.ker (roots n) = joined (js n) := by
  induction h with
  | init =>
    refine ⟨fun _ k => k, fun _ => .empty, fun _ => ?_⟩
    rw [joined_nil, Setoid.ker_eq_bot_iff]
    exact Function.injective_id
  | step _ hop hs ih =>
    obtain ⟨roots, hinv, hjs⟩ := ih
    obtain ⟨ms', roots', i, l, hstep, hadv, hjs'⟩ := step_spec hinv hop hjs
    rw [hs] at hstep
    cases hstep
    exact ⟨roots', hadv.inv, hjs'⟩

/-- Whatever has been done, the classes are those of the joins, and whatever is done next ends, with a count that
grows by as many as there are fewer classes. -/
theorem represents_of_reached {ms : Pool ι K V} {js : ι → List (K × K)} (h : Reached lift ms js) :
    (∀ n, Represents lift (ms n) (js n)) ∧
      ∀ op : Op ι K, op.Orders ms → ∃ ms', op.step lift ms = some ms' ∧
        ∀ n, (ms' n).size + (classes lift (ms' n) (known (ms' n).nodes)).card =
          (ms n).size + (classes lift (ms n) (known (ms' n).nodes)).card := by
  obtain ⟨roots, hinv, hjs⟩ := inv_of_reached h
  refine ⟨fun n => (hinv n).represents (hjs n), fun op hop => ?_⟩
  obtain ⟨ms', roots', i, l, hstep, hadv, -⟩ := step_spec hinv hop hjs
  refine ⟨ms', hstep, fun n => ?_⟩
  rw [(hadv.inv n).card_classes, (hinv n).card_classes]
  exact (hadv.joins n).grows (known (ms' n).nodes) fun k hk => mem_known.mpr hk

/-- Two keys are joined in one mapping, and this one is merged into another. -/
theorem represents_of_reached_merged : ∃ ms : Pool Bool ℕ ℕ,
    Represents id (ms true) [(1, 2)] ∧ representative id (ms true) 1 = representative id (ms true) 2 := by
  have hjoin : Reached id _ (Op.joins (fun _ => []) (.join false 1 2 : Op Bool ℕ)) := .step .init trivial rfl
  have horder : [2, 1].Perm [1, 2] := List.Perm.swap 1 2 []
  obtain ⟨ms, hmerge, -⟩ := (represents_of_reached hjoin).2 (.merge true false [2, 1]) horder
  have hreached := hjoin.step (show Op.Orders _ (.merge true false [2, 1]) from horder) hmerge
  have hmerged := (represents_of_reached hreached).1 true
  exact ⟨ms, hmerged, (hmerged.representative_eq_iff 1 2).mpr (.rel 1 2 List.mem_cons_self)⟩

end Pools

end EquivalenceMapping

end Hobbes
