import Mathlib
import Statsdcc.Hashring.Routing

/-!
# The order in which the nodes are enumerated

`generate_continuum` enumerates an `unordered_map`, so the order in which the
points of the shards are generated is not determined by the nodes. The sort
leaves points with equal hashes in an order that depends on the generation,
because `RingElement::operator<` compares nothing but the hashes.

## Main definitions

- `Hashring.KeepsTies`, `Hashring.ReversesTies` — where the sort leaves points
  with equal hashes
- `Hashring.OrderIndependent` — every enumeration routes every key alike

## Main results

- `Hashring.get_eq_first_tie` — a key belongs to the first of the points that
  have the hash that follows the key
- `Hashring.orderIndependent_iff` — on rings that are short enough for the search the
  order makes no difference exactly when the points that a key can reach agree on the node
-/

open Bytes

namespace Statsdcc

namespace Hashring

/-- The sort leaves points with equal hashes in their order. -/
def KeepsTies (env : RingEnv) : Prop :=
  ∀ (ring : List RingElement) (hash : UInt32),
    (env.stableSort ring).filter (·.hash = hash) = ring.filter (·.hash = hash)

/-- The sort reverses points with equal hashes, as merging with `<=` does. -/
def ReversesTies (env : RingEnv) : Prop :=
  ∀ (ring : List RingElement) (hash : UInt32),
    (env.stableSort ring).filter (·.hash = hash) = ring.reverse.filter (·.hash = hash)

-- ════════════════════════════════════════════════════════════════════════
-- What the enumeration does not change
-- ════════════════════════════════════════════════════════════════════════

section Perm

variable {R : Type} [CDouble R] {env : RingEnv} {nodes nodes' : UnorderedMap Bytes Node}

theorem totalWeight_perm (h : nodes'.entries.Perm nodes.entries) :
    totalWeight nodes' = totalWeight nodes := by
  rw [totalWeight, totalWeight, weightSum, weightSum, (h.map _).sum_eq]

theorem length_perm (h : nodes'.entries.Perm nodes.entries) (node : Node) :
    length R nodes' node = length R nodes node := by
  rw [length, length, totalWeight_perm h, h.length_eq]

theorem points_perm (h : nodes'.entries.Perm nodes.entries) :
    (points R env nodes').Perm (points R env nodes) := by
  have hsame : (fun entry : Sigma fun _ : Bytes => Node =>
      shardPoints env entry.1 (length R nodes' entry.2)) =
      fun entry => shardPoints env entry.1 (length R nodes entry.2) := by
    funext entry
    rw [length_perm h]
  rw [points, points, hsame]
  exact h.flatMap_right _

theorem pointTotal_perm (h : nodes'.entries.Perm nodes.entries) :
    pointTotal R nodes' = pointTotal R nodes := by
  rw [← length_points ⟨fun _ _ => 0, id⟩, (points_perm h).length_eq, length_points]

theorem lookup_perm (h : nodes'.entries.Perm nodes.entries) (shard : Bytes) :
    nodes'.lookup shard = nodes.lookup shard :=
  AList.perm_lookup h

end Perm

-- ════════════════════════════════════════════════════════════════════════
-- Points with equal hashes
-- ════════════════════════════════════════════════════════════════════════

section Ties

variable {R : Type} [CDouble R] {env : RingEnv} {nodes : UnorderedMap Bytes Node}

/-- The points agree on the first element that satisfies `p` if they agree on all of them. -/
theorem find?_congr_filter {α : Type*} {p : α → Bool} {xs ys : List α}
    (h : xs.filter p = ys.filter p) : xs.find? p = ys.find? p := by
  rw [← List.head?_filter, ← List.head?_filter, h]

/-- A key belongs to the first point of the ring that has the hash of its successor. -/
theorem get_eq_first_tie (hsort : SortsRings env) (hfew : pointTotal R nodes < 2 ^ 30)
    {key : Bytes} {e : RingElement}
    (hfollows : Follows (points R env nodes) (hashValue env key) e) :
    get env ⟨env.stableSort (points R env nodes), nodes⟩ key =
      ((env.stableSort (points R env nodes)).find? (·.hash = e.hash)).bind
        fun x => nodes.lookup x.shard := by
  obtain ⟨hperm, hsorted⟩ := hsort (points R env nodes)
  have hfollows' := hfollows.of_perm hperm.symm
  have hne := List.ne_nil_of_mem hfollows'.mem
  obtain ⟨x, hx, hxfollows⟩ := follows_successorIdx hsorted hne (hashValue env key)
  have hhash : x.hash = e.hash := UInt32.toNat_inj.mp (hxfollows.key_unique hfollows')
  have hfirst : (env.stableSort (points R env nodes)).find? (·.hash = e.hash) = some x := by
    obtain ⟨hlt, hget⟩ := List.getElem?_eq_some_iff.mp hx
    rw [List.find?_eq_some_iff_getElem]
    refine ⟨by simpa using hhash, _, hlt, hget, fun j hj => ?_⟩
    -- a point before the successor is before the hash, and the successor is not
    have hbefore := lt_of_lt_successorIdx hj (List.getElem?_eq_getElem (by omega))
    have hle := le_of_successorIdx_pos (by omega) hx
    simp only [Bool.not_eq_eq_eq_not, Bool.not_true, decide_eq_false_iff_not]
    intro heq
    rw [heq, ← hhash] at hbefore
    exact UInt32.lt_irrefl _ (UInt32.lt_of_lt_of_le hbefore hle)
  have hlen : (env.stableSort (points R env nodes)).length < 2 ^ 30 := by
    rw [hperm.length_eq, length_points]
    exact hfew
  rw [hfirst]
  simp only [get, findInt_eq_find hlen, find_sorted hsorted, Option.bind_some, hx]

/-- If the points of one shard come first, they come before all points with the same hash. -/
theorem find?_append_of_mem {shard : Bytes} {xs ys : List RingElement}
    (hxs : ∀ x ∈ xs, x.shard = shard) {e : RingElement} (he : e ∈ xs) :
    ∃ x, (xs ++ ys).find? (·.hash = e.hash) = some x ∧ x.shard = shard := by
  have hsome : (xs.find? (·.hash = e.hash)).isSome := by
    rw [List.find?_isSome]
    exact ⟨e, he, by simp⟩
  obtain ⟨x, hx⟩ := Option.isSome_iff_exists.mp hsome
  refine ⟨x, ?_, hxs x (List.mem_of_find?_eq_some hx)⟩
  rw [List.find?_append, hx]
  rfl

/-- A shard that is inserted stands first. -/
theorem insert_perm {shard : Bytes} {node : Node} (hnode : nodes.lookup shard = some node) :
    (nodes.insert shard node).entries.Perm nodes.entries := by
  apply List.lookup_ext (nodes.insert shard node).nodupKeys nodes.nodupKeys
  intro x y
  show y ∈ (nodes.insert shard node).lookup x ↔ y ∈ nodes.lookup x
  by_cases hx : x = shard
  · subst hx
    rw [AList.lookup_insert, hnode]
  · rw [AList.lookup_insert_ne hx]

/-- Some enumeration has a given shard last. -/
theorem exists_last {shard : Bytes} {node : Node} (hnode : nodes.lookup shard = some node) :
    ∃ (nodes' : UnorderedMap Bytes Node) (others : List (Sigma fun _ : Bytes => Node)),
      nodes'.entries = others ++ [⟨shard, node⟩] ∧ nodes'.entries.Perm nodes.entries := by
  have hreversed := List.reverse_perm (nodes.insert shard node).entries
  have hnodup := (List.perm_nodupKeys hreversed).mpr (nodes.insert shard node).nodupKeys
  refine ⟨⟨_, hnodup⟩, (nodes.entries.kerase shard).reverse, ?_,
    hreversed.trans (insert_perm hnode)⟩
  show (nodes.insert shard node).entries.reverse = _
  rw [AList.entries_insert, List.reverse_cons]

/-- Every shard of a point comes first among the equal hashes in some enumeration. -/
theorem exists_enumeration (hties : KeepsTies env ∨ ReversesTies env) {e : RingElement}
    (he : e ∈ points R env nodes) :
    ∃ nodes' : UnorderedMap Bytes Node, nodes'.entries.Perm nodes.entries ∧
      ∃ x, (env.stableSort (points R env nodes')).find? (·.hash = e.hash) = some x ∧
        x.shard = e.shard := by
  obtain ⟨node, hnode, hmem⟩ := mem_points.mp he
  have hblock : ∀ x ∈ shardPoints env e.shard (length R nodes node), x.shard = e.shard :=
    fun x hx => shard_of_mem_shardPoints hx
  rcases hties with hkeep | hreverse
  · have hperm := insert_perm hnode
    refine ⟨nodes.insert e.shard node, hperm, ?_⟩
    rw [find?_congr_filter (hkeep _ _), points, AList.entries_insert, List.flatMap_cons,
      length_perm hperm]
    exact find?_append_of_mem hblock hmem
  · -- the shard is enumerated last, and the sort reverses the order
    obtain ⟨last, others, hentries, hperm⟩ := exists_last hnode
    refine ⟨last, hperm, ?_⟩
    rw [find?_congr_filter (hreverse _ _), points, hentries, List.flatMap_append,
      List.reverse_append, List.flatMap_singleton, length_perm hperm]
    apply find?_append_of_mem
    · intro x hx
      exact hblock x (List.mem_reverse.mp hx)
    · exact List.mem_reverse.mpr hmem

end Ties

-- ════════════════════════════════════════════════════════════════════════
-- When the enumeration makes no difference
-- ════════════════════════════════════════════════════════════════════════

/-- Every two enumerations of the nodes give every key the same node. -/
def OrderIndependent (R : Type) [CDouble R] (env : RingEnv) (nodes : UnorderedMap Bytes Node) :
    Prop :=
  ∀ nodes₁ nodes₂ : UnorderedMap Bytes Node, nodes₁.entries.Perm nodes.entries →
    nodes₂.entries.Perm nodes.entries → ∃ hashring₁ hashring₂,
      new R env nodes₁ = .ok hashring₁ ∧ new R env nodes₂ = .ok hashring₂ ∧
        ∀ key, ∃ node, get env hashring₁ key = some node ∧ get env hashring₂ key = some node

section Order

variable {R : Type} [CDouble R] {env : RingEnv} {nodes : UnorderedMap Bytes Node}

theorem new_of_perm (hne : nodes.entries.length ≠ 0) {nodes' : UnorderedMap Bytes Node}
    (h : nodes'.entries.Perm nodes.entries) :
    new R env nodes' = .ok ⟨env.stableSort (points R env nodes'), nodes'⟩ := by
  have hne' : nodes'.entries.length ≠ 0 := by
    rw [h.length_eq]
    exact hne
  rw [new, if_neg hne']

/-- A ring without points has no node for any key. -/
theorem get_of_no_points (hsort : SortsRings env) (hnil : points R env nodes = []) (key : Bytes) :
    get env ⟨env.stableSort (points R env nodes), nodes⟩ key = none := by
  have hring : env.stableSort (points R env nodes) = [] := by
    rw [hnil]
    exact (hsort []).1.eq_nil
  have hfind : findInt [] (hashValue env key) = some 0 := by
    rw [findInt_eq_find (by decide), find_sorted List.Pairwise.nil]
    rfl
  rw [get, hring, hfind]
  rfl

/-- Every point with the hash that follows a key owns the key in some enumeration. -/
theorem exists_get (hsort : SortsRings env) (hties : KeepsTies env ∨ ReversesTies env)
    (hne : nodes.entries.length ≠ 0) (hfew : pointTotal R nodes < 2 ^ 30) {key : Bytes}
    {e : RingElement}
    (hfollows : Follows (points R env nodes) (hashValue env key) e) :
    ∃ nodes' hashring, nodes'.entries.Perm nodes.entries ∧ new R env nodes' = .ok hashring ∧
      get env hashring key = nodes.lookup e.shard := by
  obtain ⟨nodes', hperm, x, hx, hshard⟩ := exists_enumeration hties hfollows.mem
  have hpts : (points R env nodes').Perm (points R env nodes) := points_perm hperm
  have hfollows' := hfollows.of_perm hpts.symm
  refine ⟨nodes', _, hperm, new_of_perm hne hperm, ?_⟩
  rw [get_eq_first_tie hsort (by rwa [pointTotal_perm hperm]) hfollows', hx, Option.bind_some,
    hshard, lookup_perm hperm]

/-- In every enumeration a key has the node of a point with the hash that follows it. -/
theorem get_of_perm (hsort : SortsRings env) (hne : nodes.entries.length ≠ 0)
    (hpoints : points R env nodes ≠ []) (hfew : pointTotal R nodes < 2 ^ 30)
    {nodes' : UnorderedMap Bytes Node} (hperm : nodes'.entries.Perm nodes.entries) (key : Bytes) :
    ∃ e, Follows (points R env nodes) (hashValue env key) e ∧
      get env ⟨env.stableSort (points R env nodes'), nodes'⟩ key = nodes.lookup e.shard := by
  have hpts : (points R env nodes').Perm (points R env nodes) := points_perm hperm
  have hpoints' : points R env nodes' ≠ [] := by
    intro hnil
    rw [hnil] at hpts
    exact hpoints hpts.symm.eq_nil
  have hne' : nodes'.entries.length ≠ 0 := by
    rw [hperm.length_eq]
    exact hne
  obtain ⟨hashring, hok, hget⟩ :=
    get_of_new hsort hne' hpoints' (by rwa [pointTotal_perm hperm])
  rw [new_of_perm hne hperm, Except.ok.injEq] at hok
  obtain ⟨e, hfollows, hnode⟩ := hget key
  exact ⟨e, hfollows.of_perm hpts, by rw [hok, hnode, lookup_perm hperm]⟩

/-- **Routing does not depend on the enumeration** of nodes that give fewer than `2 ^ 30`
points exactly when the ring has a point, and any two points with the hash that follows
some key have shards with equal nodes. -/
theorem orderIndependent_iff (R : Type) [CDouble R] (env : RingEnv)
    (nodes : UnorderedMap Bytes Node) (hsort : SortsRings env)
    (hties : KeepsTies env ∨ ReversesTies env) (hne : nodes.entries.length ≠ 0)
    (hfew : pointTotal R nodes < 2 ^ 30) :
    OrderIndependent R env nodes ↔ points R env nodes ≠ [] ∧
      ∀ key, ∀ e ∈ points R env nodes, ∀ e' ∈ points R env nodes,
        Follows (points R env nodes) (hashValue env key) e → e'.hash = e.hash →
          nodes.lookup e'.shard = nodes.lookup e.shard := by
  constructor
  · intro hind
    constructor
    · intro hnil
      obtain ⟨hashring, _, hok, -, hget⟩ := hind nodes nodes (.refl _) (.refl _)
      rw [new_of_perm hne (.refl _), Except.ok.injEq] at hok
      obtain ⟨node, hnode, -⟩ := hget []
      rw [← hok, get_of_no_points hsort hnil] at hnode
      cases hnode
    · intro key e he e' he' hfollows hhash
      have hfollows' := hfollows.of_key_eq he' (congrArg UInt32.toNat hhash)
      -- enumerations in which the one or the other point owns the key
      obtain ⟨nodes₁, ring₁, hperm₁, hok₁, hget₁⟩ := exists_get hsort hties hne hfew hfollows
      obtain ⟨nodes₂, ring₂, hperm₂, hok₂, hget₂⟩ := exists_get hsort hties hne hfew hfollows'
      obtain ⟨hashring₁, hashring₂, hok₁', hok₂', hget⟩ := hind nodes₁ nodes₂ hperm₁ hperm₂
      rw [hok₁, Except.ok.injEq] at hok₁'
      rw [hok₂, Except.ok.injEq] at hok₂'
      subst hok₁' hok₂'
      obtain ⟨node, hnode₁, hnode₂⟩ := hget key
      rw [← hget₁, ← hget₂, hnode₁, hnode₂]
  · rintro ⟨hpoints, hagree⟩ nodes₁ nodes₂ hperm₁ hperm₂
    refine ⟨_, _, new_of_perm hne hperm₁, new_of_perm hne hperm₂, fun key => ?_⟩
    obtain ⟨e₁, hfollows₁, hget₁⟩ := get_of_perm hsort hne hpoints hfew hperm₁ key
    obtain ⟨e₂, hfollows₂, hget₂⟩ := get_of_perm hsort hne hpoints hfew hperm₂ key
    have hhash : e₂.hash = e₁.hash := UInt32.toNat_inj.mp (hfollows₂.key_unique hfollows₁)
    obtain ⟨node, hnode, -⟩ := mem_points.mp hfollows₁.mem
    refine ⟨node, by rw [hget₁, hnode], ?_⟩
    rw [hget₂, hagree key e₁ hfollows₁.mem e₂ hfollows₂.mem hfollows₁ hhash, hnode]

end Order

/-- A sort that reverses points with equal hashes. -/
def reversingSort (ring : List RingElement) : List RingElement :=
  ring.reverse.mergeSort fun x y => x.hash.toNat ≤ y.hash.toNat

theorem reversingSort_spec (md4 : Bytes → Fin 16 → Byte) :
    SortsRings ⟨md4, reversingSort⟩ ∧ ReversesTies ⟨md4, reversingSort⟩ := by
  have htrans : ∀ x y z : RingElement, decide (x.hash.toNat ≤ y.hash.toNat) = true →
      decide (y.hash.toNat ≤ z.hash.toNat) = true →
        decide (x.hash.toNat ≤ z.hash.toNat) = true := by
    simpa using fun _ _ _ => Nat.le_trans
  have htotal : ∀ x y : RingElement,
      (decide (x.hash.toNat ≤ y.hash.toNat) || decide (y.hash.toNat ≤ x.hash.toNat)) = true := by
    simpa using fun _ _ => Nat.le_total _ _
  constructor
  · intro ring
    have hsorted := List.pairwise_mergeSort htrans htotal ring.reverse
    exact ⟨(List.mergeSort_perm _ _).trans (List.reverse_perm _),
      hsorted.imp fun h => of_decide_eq_true h⟩
  · intro ring hash
    -- points with equal hashes are sorted already, so the sort keeps them as a subsequence
    have hties : (ring.reverse.filter (·.hash = hash)).Pairwise
        fun x y => decide (x.hash.toNat ≤ y.hash.toNat) = true := by
      apply List.pairwise_of_forall_mem_list
      intro x hx y hy
      have hx' : x.hash = hash := by simpa using (List.mem_filter.mp hx).2
      have hy' : y.hash = hash := by simpa using (List.mem_filter.mp hy).2
      simp [hx', hy']
    have hsub := List.sublist_mergeSort htrans htotal hties List.filter_sublist
    have hfilter := hsub.filter (·.hash = hash)
    rw [List.filter_filter] at hfilter
    simp only [Bool.and_self] at hfilter
    apply (hfilter.eq_of_length _).symm
    exact ((List.mergeSort_perm ring.reverse _).filter _).length_eq.symm

/-- Two shards on different ports, with one virtual node each. -/
def twoPorts : UnorderedMap Bytes Node := shardsAB ⟨⟨[], 1⟩, 1, 1⟩ ⟨⟨[], 2⟩, 1, 1⟩

/-- With the digests of `twoShards` no two points have equal hashes. -/
theorem orderIndependent_twoPorts :
    OrderIndependent Exact ⟨twoShards.md4, reversingSort⟩ twoPorts := by
  obtain ⟨hsort, hties⟩ := reversingSort_spec twoShards.md4
  apply (orderIndependent_iff Exact _ twoPorts hsort (.inr hties) (by decide)
    (by decide +kernel)).mpr
  have hcollision : NoCollision (points Exact ⟨twoShards.md4, reversingSort⟩ twoPorts) := by
    decide +kernel
  refine ⟨by decide +kernel, fun key e he e' he' _ hhash => ?_⟩
  rw [hcollision e' he' e he hhash]

/-- With a constant digest all points of both shards have the same hash, and the
empty key belongs to the shard that is enumerated last. -/
theorem routes_differ_twoPorts :
    ∃ nodes₁ nodes₂ hashring₁ hashring₂, nodes₁.entries.Perm twoPorts.entries ∧
      nodes₂.entries.Perm twoPorts.entries ∧
      new Exact ⟨fun _ _ => 0, reversingSort⟩ nodes₁ = .ok hashring₁ ∧
      new Exact ⟨fun _ _ => 0, reversingSort⟩ nodes₂ = .ok hashring₂ ∧
      get ⟨fun _ _ => 0, reversingSort⟩ hashring₁ [] ≠
        get ⟨fun _ _ => 0, reversingSort⟩ hashring₂ [] := by
  obtain ⟨hsort, hties⟩ := reversingSort_spec fun _ _ => 0
  have hfollows : ∀ shard, ⟨0, shard⟩ ∈ points Exact ⟨fun _ _ => 0, reversingSort⟩ twoPorts →
      Follows (points Exact ⟨fun _ _ => 0, reversingSort⟩ twoPorts)
        (hashValue ⟨fun _ _ => 0, reversingSort⟩ []) ⟨0, shard⟩ := fun shard hmem =>
    ⟨hmem, fun _ => Nat.zero_le _, fun _ _ _ => Nat.zero_le _, fun _ _ _ => Nat.zero_le _⟩
  obtain ⟨nodes₁, ring₁, hperm₁, hok₁, hget₁⟩ := exists_get hsort (.inr hties) (by decide)
    (by decide +kernel)
    (hfollows (ascii "a") (by decide +kernel))
  obtain ⟨nodes₂, ring₂, hperm₂, hok₂, hget₂⟩ := exists_get hsort (.inr hties) (by decide)
    (by decide +kernel)
    (hfollows (ascii "b") (by decide +kernel))
  refine ⟨nodes₁, nodes₂, ring₁, ring₂, hperm₁, hperm₂, hok₁, hok₂, ?_⟩
  rw [hget₁, hget₂]
  decide

end Hashring

end Statsdcc
