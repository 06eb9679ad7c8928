import Mathlib
import Statsdcc.Hashring.Enumeration
import Statsdcc.Lib.Printed
import Statsdcc.Lib.StableSort

/-!
# The continuum

What `generate_continuum` leaves for a map of nodes: how many points each shard
has, when there is a point at all, and what the sort makes of them. A number of
virtual nodes other than `40` is taken as it is; otherwise the weights decide.

## Main definitions

- `Hashring.Populated` — a node whose shard gets a point
- `Hashring.Answers` — every key is answered with a configured node
- `Hashring.IsContinuum` — the stable sort of the points by their hashes

## Main results

- `Hashring.answers_iff` — every key is answered exactly when some node is populated and
  the points are not too many for the search
- `Hashring.anyPopulated_of_pos` — positive weights give a point
- `Hashring.continuum_iff` — `operator<` lets the sort promise something for the
  empty ring only
- `Hashring.pointCount_spec` — how the numbers of points of two shards compare
-/

open Bytes

namespace Statsdcc

/-- `RingElement::operator<`, which compares with `<=`. -/
def RingElement.lt (x y : RingElement) : Bool := decide (x.hash ≤ y.hash)

namespace Hashring

-- ════════════════════════════════════════════════════════════════════════
-- The number of points
-- ════════════════════════════════════════════════════════════════════════

/-- The number of virtual nodes that the weight of a node asks for. -/
def share (R : Type) [CDouble R] (nodes : UnorderedMap Bytes Node) (node : Node) : ℤ :=
  storeInt (CDouble.floor (CDouble.ofInt node.weight / CDouble.ofInt (totalWeight nodes) *
    CDouble.ofInt vnodes * CDouble.ofInt nodes.entries.length : R))

/-- The node asks for at least one virtual node: by its own number, or by its
weight where this number is `0` or `40`. -/
def Populated (R : Type) [CDouble R] (nodes : UnorderedMap Bytes Node) (node : Node) : Prop :=
  if node.vnodes = 0 ∨ node.vnodes = vnodes then 1 ≤ share R nodes node else 0 < node.vnodes

/-- Some node asks for a point. -/
def AnyPopulated (R : Type) [CDouble R] (nodes : UnorderedMap Bytes Node) : Prop :=
  ∃ shard node, nodes.lookup shard = some node ∧ Populated R nodes node

section

variable {R : Type} [CDouble R] {env : RingEnv} {nodes : UnorderedMap Bytes Node}

theorem length_eq (nodes : UnorderedMap Bytes Node) (node : Node) :
    length R nodes node =
      if node.vnodes = 0 ∨ node.vnodes = vnodes then share R nodes node else node.vnodes := by
  by_cases h0 : node.vnodes = 0
  · simp [length, share, h0]
  · by_cases h40 : node.vnodes = vnodes
    · simp [length, share, h40]
    · simp [length, h0, h40]

theorem populated_iff (nodes : UnorderedMap Bytes Node) (node : Node) :
    Populated R nodes node ↔ 0 < length R nodes node := by
  rw [Populated, length_eq]
  split <;> omega

/-- There is a point exactly when some node is populated. -/
theorem points_ne_nil_iff :
    points R env nodes ≠ [] ↔ AnyPopulated R nodes := by
  constructor
  · intro hne
    obtain ⟨e, he⟩ := List.exists_mem_of_ne_nil _ hne
    obtain ⟨node, hnode, hmem⟩ := mem_points.mp he
    refine ⟨e.shard, node, hnode, (populated_iff nodes node).mpr ?_⟩
    by_contra hlength
    rw [shardPoints, Int.toNat_of_nonpos (by omega)] at hmem
    cases hmem
  · rintro ⟨shard, node, hnode, hpopulated⟩
    have hlength := (populated_iff nodes node).mp hpopulated
    obtain ⟨e, he⟩ := List.exists_mem_of_ne_nil _ (shardPoints_ne_nil env shard hlength)
    obtain rfl := shard_of_mem_shardPoints he
    exact List.ne_nil_of_mem (mem_points.mpr ⟨node, hnode, he⟩)

/-- How many points of the ring belong to a shard. -/
def pointCount (R : Type) [CDouble R] (env : RingEnv) (nodes : UnorderedMap Bytes Node)
    (shard : Bytes) : ℕ :=
  (points R env nodes).countP (·.shard = shard)

/-- Every virtual node of a shard has four points. -/
theorem pointCount_eq {shard : Bytes} {node : Node} (hnode : nodes.lookup shard = some node) :
    pointCount R env nodes shard = 4 * (length R nodes node).toNat := by
  have hperm := insert_perm hnode
  have hown : (shardPoints env shard (length R nodes node)).countP (·.shard = shard) =
      4 * (length R nodes node).toNat := by
    rw [List.countP_eq_length.mpr, length_shardPoints]
    intro e he
    simpa using shard_of_mem_shardPoints he
  have hother : ((nodes.entries.kerase shard).flatMap fun entry =>
      shardPoints env entry.1 (length R (nodes.insert shard node) entry.2)).countP
        (·.shard = shard) = 0 := by
    rw [List.countP_eq_zero]
    intro e he
    obtain ⟨entry, hentry, hmem⟩ := List.mem_flatMap.mp he
    have hkey : entry.1 ∈ (nodes.entries.kerase shard).keys := List.mem_map_of_mem hentry
    rw [shard_of_mem_shardPoints hmem, decide_eq_true_eq]
    rintro rfl
    exact List.notMem_keys_kerase _ nodes.nodupKeys hkey
  -- the enumeration with the shard in front has the same points
  rw [pointCount, ← (points_perm hperm).countP_eq, points, AList.entries_insert,
    List.flatMap_cons, List.countP_append, length_perm hperm, hown, hother, Nat.add_zero]

-- ════════════════════════════════════════════════════════════════════════
-- Keys are answered
-- ════════════════════════════════════════════════════════════════════════

/-- The sort returns the points that it is given. -/
def Permutes (sort : List RingElement → List RingElement) : Prop := ∀ ring, (sort ring).Perm ring

/-- The ring is not empty, and `get` reads an index of it and answers with a
configured node for every key. -/
structure Answers (env : RingEnv) (nodes : UnorderedMap Bytes Node) (hashring : Hashring) :
    Prop where
  ring_ne : hashring.ring ≠ []
  get_eq : ∀ key, ∃ i e node, findInt hashring.ring (hashValue env key) = some i ∧
    hashring.ring[i]? = some e ∧ nodes.lookup e.shard = some node ∧
      get env hashring key = some node

/-- A ring with points whose number is a small `int` answers every key, sorted or not. -/
theorem answers_of_points (hsort : Permutes env.stableSort) {hashring : Hashring}
    (hnew : new R env nodes = .ok hashring) (hpoints : points R env nodes ≠ [])
    (hfew : pointTotal R nodes % 2 ^ 32 < 2 ^ 30) : Answers env nodes hashring := by
  obtain rfl := eq_of_new hnew
  have hperm := hsort (points R env nodes)
  have hring : env.stableSort (points R env nodes) ≠ [] := by
    intro hnil
    rw [hnil] at hperm
    exact hpoints hperm.symm.eq_nil
  have hlength : (env.stableSort (points R env nodes)).length % 2 ^ 32 < 2 ^ 30 := by
    rw [hperm.length_eq, length_points]
    exact hfew
  refine ⟨hring, fun key => ?_⟩
  obtain ⟨i, e, hfind, he⟩ := exists_findInt hring hlength (hashValue env key)
  obtain ⟨node, hnode, -⟩ := mem_points.mp (hperm.subset (List.mem_of_getElem? he))
  refine ⟨i, e, node, hfind, he, hnode, ?_⟩
  simp only [get, hfind, Option.bind_some, he, hnode]

/-- Digests that put every virtual node at `0` and the empty key behind them. -/
def zeroLabels : Bytes → Fin 16 → Byte := fun text _ => if text = [] then 1 else 0

theorem label_ne_nil (shard : Bytes) (i : ℕ) : label shard i ≠ [] := by
  have hlength : (ascii "-").length = 1 := rfl
  intro hnil
  have hzero := congrArg List.length hnil
  rw [label, List.length_take, List.length_append, List.length_append, hlength,
    List.length_nil] at hzero
  omega

/-- With these digests the key is behind all points. -/
theorem hash_lt_zeroLabels {sort : List RingElement → List RingElement} {e : RingElement}
    (he : e ∈ points R ⟨zeroLabels, sort⟩ nodes) : e.hash < hashValue ⟨zeroLabels, sort⟩ [] := by
  obtain ⟨node, -, hmem⟩ := mem_points.mp he
  obtain ⟨i, -, hmem⟩ := List.mem_flatMap.mp hmem
  obtain ⟨j, -, hmem⟩ := List.mem_map.mp hmem
  simp only [zeroLabels, if_neg (label_ne_nil e.shard i)] at hmem
  rw [← congrArg RingElement.hash hmem]
  show hash 0 0 0 0 < hash 1 1 1 1
  decide

/-- A number of points that is no small `int` leaves a key without an answer. -/
theorem not_answers_of_many {sort : List RingElement → List RingElement} (hsort : Permutes sort)
    {hashring : Hashring} (hnew : new R ⟨zeroLabels, sort⟩ nodes = .ok hashring)
    (hmany : 2 ^ 30 ≤ pointTotal R nodes % 2 ^ 32) :
    ¬Answers ⟨zeroLabels, sort⟩ nodes hashring := by
  obtain rfl := eq_of_new hnew
  have hperm := hsort (points R ⟨zeroLabels, sort⟩ nodes)
  have hlength := hperm.length_eq
  have hfour : pointTotal R nodes % 4 = 0 := by
    rw [pointTotal, List.sum_map_mul_left, Nat.mul_mod_right]
  rw [length_points] at hlength
  intro h
  obtain ⟨i, e, node, hfind, -⟩ := h.get_eq []
  have hnone := findInt_eq_none (fun x hx => hash_lt_zeroLabels (hperm.subset hx))
    (by rw [hlength, hfour]) (by rwa [hlength])
  rw [hnone] at hfind
  cases hfind

/-- **Every key is answered with a configured node** for all digests exactly when some node
is populated and the number of points, as an `int`, is below `2 ^ 30` and not negative. -/
theorem answers_iff {sort : List RingElement → List RingElement} (hsort : Permutes sort)
    (hne : nodes.entries.length ≠ 0) :
    (∀ md4, ∃ hashring, new R ⟨md4, sort⟩ nodes = .ok hashring ∧
      Answers ⟨md4, sort⟩ nodes hashring) ↔
      AnyPopulated R nodes ∧ pointTotal R nodes % 2 ^ 32 < 2 ^ 30 := by
  constructor
  · intro hall
    constructor
    · obtain ⟨hashring, hnew, h⟩ := hall zeroLabels
      obtain rfl := eq_of_new hnew
      refine (@points_ne_nil_iff R _ ⟨zeroLabels, sort⟩ nodes).mp fun hnil => h.ring_ne ?_
      have hperm := hsort (points R ⟨zeroLabels, sort⟩ nodes)
      rw [hnil] at hperm
      show sort (points R ⟨zeroLabels, sort⟩ nodes) = []
      rw [hnil]
      exact hperm.eq_nil
    · by_contra hmany
      obtain ⟨hashring, hnew, h⟩ := hall zeroLabels
      exact not_answers_of_many hsort hnew (Nat.le_of_not_lt hmany) h
  · rintro ⟨hpopulated, hfew⟩ md4
    refine ⟨_, by rw [new, if_neg hne], ?_⟩
    have hsort' : Permutes (RingEnv.mk md4 sort).stableSort := hsort
    exact answers_of_points hsort' (by rw [new, if_neg hne]) (points_ne_nil_iff.mpr hpopulated)
      hfew

end

/-- One shard with the given number of virtual nodes. -/
def oneShard (vnodes weight : ℤ) : UnorderedMap Bytes Node :=
  shardA ⟨⟨[], 1⟩, vnodes, weight⟩

theorem answers_oneShard :
    (∀ md4, ∃ hashring, new Exact ⟨md4, twoShards.stableSort⟩ (oneShard 1 1) = .ok hashring ∧
      Answers ⟨md4, twoShards.stableSort⟩ (oneShard 1 1) hashring) ↔
      AnyPopulated Exact (oneShard 1 1) ∧ pointTotal Exact (oneShard 1 1) % 2 ^ 32 < 2 ^ 30 :=
  answers_iff (fun ring => (sortsRings_twoShards ring).1) (by decide)

/-- A node with a negative number of virtual nodes passes the check of the
constructor and leaves an empty ring. -/
theorem not_answers_negative :
    ∃ hashring, new Exact twoShards (oneShard (-1) 1) = .ok hashring ∧
      ¬Answers twoShards (oneShard (-1) 1) hashring := by
  refine ⟨_, rfl, fun h => ?_⟩
  have hpoints : points Exact twoShards (oneShard (-1) 1) = [] := by decide +kernel
  obtain ⟨i, e, node, -, he, -⟩ := h.get_eq []
  rw [hpoints] at he
  cases List.mem_mergeSort.mp (List.mem_of_getElem? he)

-- ════════════════════════════════════════════════════════════════════════
-- The share of a weight
-- ════════════════════════════════════════════════════════════════════════

section Weights

variable {nodes : UnorderedMap Bytes Node}

theorem share_exact (htotal : totalWeight nodes ≠ 0) (node : Node) :
    share Exact nodes node =
      storeInt ⌊(node.weight : ℚ) / totalWeight nodes * 40 * nodes.entries.length⌋ := by
  have hne : (totalWeight nodes : ℚ) ≠ 0 := Int.cast_ne_zero.mpr htotal
  show storeInt (Exact.floor (Exact.fin node.weight / Exact.fin (totalWeight nodes) * _ * _)) = _
  rw [Exact.fin_div_fin _ hne]
  rfl

/-- Weights that add up to zero give no node a share. -/
theorem share_exact_of_zero (htotal : totalWeight nodes = 0) (node : Node) :
    share Exact nodes node = -2 ^ 31 := by
  have hquotient : ∃ x : Exact, (∀ q, x ≠ .fin q) ∧
      (CDouble.ofInt node.weight / CDouble.ofInt (totalWeight nodes) : Exact) = x := by
    refine ⟨_, fun q => ?_, rfl⟩
    show Exact.div (.fin _) (.fin _) ≠ _
    rw [htotal, Exact.div, if_pos (by simp)]
    split <;> simp
  have hmul : ∀ (x : Exact) (q : ℚ), (∀ p, x ≠ .fin p) → ∀ p, x * .fin q ≠ .fin p := by
    intro x q hx p
    cases x with
    | fin p' => exact absurd rfl (hx p')
    | inf neg =>
      show Exact.mul _ _ ≠ _
      rw [Exact.mul]
      split <;> simp
    | nan => exact fun h => by cases h
  obtain ⟨x, hx, hquotient⟩ := hquotient
  rw [share, hquotient]
  show storeInt (Exact.floor (x * .fin vnodes * .fin nodes.entries.length)) = -2 ^ 31
  have hlast := hmul _ nodes.entries.length (hmul x vnodes hx)
  cases hvalue : x * .fin vnodes * .fin nodes.entries.length with
  | fin p => exact absurd hvalue (hlast p)
  | inf neg => rfl
  | nan => rfl

/-- Where the weights decide, a node is populated when its weight is at least one
part in `40 * n` of the sum of the weights, and its share is an `int`. -/
theorem populated_exact_iff {node : Node} (hvnodes : node.vnodes = 0 ∨ node.vnodes = vnodes) :
    Populated Exact nodes node ↔
      0 < totalWeight nodes ∧ totalWeight nodes ≤ node.weight * (40 * nodes.entries.length) ∧
        node.weight * (40 * nodes.entries.length) < 2 ^ 31 * totalWeight nodes ∨
      totalWeight nodes < 0 ∧ node.weight * (40 * nodes.entries.length) ≤ totalWeight nodes ∧
        2 ^ 31 * totalWeight nodes < node.weight * (40 * nodes.entries.length) := by
  rw [Populated, if_pos hvnodes]
  have hcast : ∀ n : ℕ, (node.weight : ℚ) / totalWeight nodes * 40 * n =
      ((node.weight * (40 * n) : ℤ) : ℚ) / totalWeight nodes := by
    intro n
    push_cast
    ring
  rcases lt_trichotomy (totalWeight nodes) 0 with htotal | htotal | htotal
  · have hneg : (totalWeight nodes : ℚ) < 0 := by exact_mod_cast htotal
    rw [share_exact htotal.ne, hcast, one_le_storeInt_iff, Int.le_floor, Int.floor_lt,
      le_div_iff_of_neg hneg, div_lt_iff_of_neg hneg, ← Int.cast_mul, ← Int.cast_mul, Int.cast_le,
      Int.cast_lt]
    omega
  · rw [share_exact_of_zero htotal]
    omega
  · have hpos : (0 : ℚ) < totalWeight nodes := by exact_mod_cast htotal
    rw [share_exact htotal.ne', hcast, one_le_storeInt_iff, Int.le_floor, Int.floor_lt,
      le_div_iff₀ hpos, div_lt_iff₀ hpos, ← Int.cast_mul, ← Int.cast_mul, Int.cast_le, Int.cast_lt]
    omega

/-- Some node has at least the average weight. -/
theorem exists_average_weight (hne : nodes.entries ≠ []) :
    ∃ shard node, nodes.lookup shard = some node ∧
      weightSum nodes ≤ node.weight * nodes.entries.length := by
  have hsum : (nodes.entries.map fun _ => weightSum nodes).sum ≤
      (nodes.entries.map fun entry => entry.2.weight * (nodes.entries.length : ℤ)).sum := by
    rw [List.sum_map_mul_right, List.map_const', List.sum_replicate, ← weightSum, nsmul_eq_mul,
      mul_comm]
  obtain ⟨entry, hentry, hle⟩ := List.exists_le_of_sum_le hne _ _ hsum
  exact ⟨entry.1, entry.2, AList.mem_lookup_iff.mpr hentry, hle⟩

theorem weightSum_pos (hne : nodes.entries ≠ [])
    (hweight : ∀ shard node, nodes.lookup shard = some node → 0 < node.weight) :
    0 < weightSum nodes := by
  apply List.sum_pos
  · intro x hx
    obtain ⟨entry, hentry, rfl⟩ := List.mem_map.mp hx
    exact hweight entry.1 entry.2 (AList.mem_lookup_iff.mpr hentry)
  · simpa using hne

/-- A sum that is an `int` does not wrap. -/
theorem totalWeight_eq (hpos : 0 < weightSum nodes) (hint : weightSum nodes < 2 ^ 31) :
    totalWeight nodes = weightSum nodes :=
  Int.bmod_eq_of_le (by omega) (by omega)

theorem weight_le_weightSum
    (hweight : ∀ shard node, nodes.lookup shard = some node → 0 < node.weight) {shard : Bytes}
    {node : Node} (hnode : nodes.lookup shard = some node) : node.weight ≤ weightSum nodes := by
  refine List.single_le_sum (fun x hx => ?_) _ (List.mem_map_of_mem (AList.mem_lookup_iff.mp hnode))
  obtain ⟨entry, hentry, rfl⟩ := List.mem_map.mp hx
  exact (hweight entry.1 entry.2 (AList.mem_lookup_iff.mpr hentry)).le

/-- Positive weights whose sum is an `int`, and numbers of virtual nodes that are not
negative, give some node of not too many a point. -/
theorem anyPopulated_of_pos (hne : nodes.entries ≠ []) (hint : weightSum nodes < 2 ^ 31)
    (hfew : 40 * nodes.entries.length < 2 ^ 31)
    (hpos : ∀ shard node, nodes.lookup shard = some node → 0 ≤ node.vnodes ∧ 0 < node.weight) :
    AnyPopulated Exact nodes := by
  have hweight := fun shard node hnode => (hpos shard node hnode).2
  have hsum := weightSum_pos hne hweight
  have htotal := totalWeight_eq hsum hint
  obtain ⟨shard, node, hnode, haverage⟩ := exists_average_weight hne
  refine ⟨shard, node, hnode, ?_⟩
  by_cases hvnodes : node.vnodes = 0 ∨ node.vnodes = vnodes
  · rw [populated_exact_iff hvnodes, htotal]
    refine .inl ⟨hsum, ?_, ?_⟩
    · linarith [mul_left_comm node.weight 40 (nodes.entries.length : ℤ)]
    · calc node.weight * (40 * nodes.entries.length)
          ≤ weightSum nodes * (40 * nodes.entries.length) := by
            gcongr
            exact weight_le_weightSum hweight hnode
        _ < weightSum nodes * 2 ^ 31 := by
            gcongr
            exact_mod_cast hfew
        _ = 2 ^ 31 * weightSum nodes := mul_comm _ _
  · rw [Populated, if_neg hvnodes]
    have hnonneg := (hpos shard node hnode).1
    omega

/-- The shares of not too many nodes with positive weights whose sum is an `int`. -/
theorem share_of_few (hint : weightSum nodes < 2 ^ 31) (hfew : 40 * nodes.entries.length < 2 ^ 31)
    (hweight : ∀ shard node, nodes.lookup shard = some node → 0 < node.weight) {shard : Bytes}
    {node : Node} (hnode : nodes.lookup shard = some node) :
    share Exact nodes node =
        ⌊(node.weight : ℚ) / weightSum nodes * 40 * nodes.entries.length⌋ ∧
      0 ≤ share Exact nodes node := by
  have hsum := weightSum_pos (List.ne_nil_of_mem (AList.mem_lookup_iff.mp hnode)) hweight
  have hsum' : (0 : ℚ) < weightSum nodes := by exact_mod_cast hsum
  have hweight' : (0 : ℚ) < node.weight := by exact_mod_cast hweight shard node hnode
  have hle : (node.weight : ℚ) ≤ weightSum nodes := by
    exact_mod_cast weight_le_weightSum hweight hnode
  have hfew' : (40 * nodes.entries.length : ℚ) < 2 ^ 31 := by exact_mod_cast hfew
  have hnonneg : 0 ≤ ⌊(node.weight : ℚ) / weightSum nodes * 40 * nodes.entries.length⌋ :=
    Int.floor_nonneg.mpr (by positivity)
  have hlt : ⌊(node.weight : ℚ) / weightSum nodes * 40 * nodes.entries.length⌋ < 2 ^ 31 := by
    rw [Int.floor_lt]
    push_cast
    calc (node.weight : ℚ) / weightSum nodes * 40 * nodes.entries.length
        = (node.weight : ℚ) / weightSum nodes * (40 * nodes.entries.length) := mul_assoc _ _ _
      _ ≤ 1 * (40 * nodes.entries.length) := by
        gcongr
        exact (div_le_one hsum').mpr hle
      _ < 2 ^ 31 := by rwa [one_mul]
  have htotal : totalWeight nodes ≠ 0 := by
    rw [totalWeight_eq hsum hint]
    exact hsum.ne'
  have hshare := share_exact htotal node
  rw [totalWeight_eq hsum hint, storeInt_of_mem (by omega) hlt] at hshare
  exact ⟨hshare, by rwa [hshare]⟩

end Weights

-- ════════════════════════════════════════════════════════════════════════
-- The order of the points
-- ════════════════════════════════════════════════════════════════════════

/-- The ring holds the points sorted by hash, those with equal hashes in the order
in which they were generated. -/
structure IsContinuum (points ring : List RingElement) : Prop where
  perm : ring.Perm points
  sorted : Sorted ring
  ties : ∀ hash : UInt32, ring.filter (·.hash = hash) = points.filter (·.hash = hash)

/-- The comparator that `stable_sort` needs. -/
def strictLt (x y : RingElement) : Bool := decide (x.hash < y.hash)

theorem strictWeakOrderOn_strictLt (ring : List RingElement) :
    StrictWeakOrderOn strictLt ring := by
  constructor <;> intros <;> simp_all only [strictLt, decide_eq_true_eq, decide_eq_false_iff_not,
    UInt32.lt_iff_toNat_lt] <;> omega

/-- With a strict comparator the contract of the sort gives the continuum. -/
theorem isContinuum_of_strict {sort : (RingElement → RingElement → Bool) → List RingElement →
    List RingElement} (hsort : StableSortSpec sort) (ring : List RingElement) :
    IsContinuum ring (sort strictLt ring) := by
  obtain ⟨hperm, hsorted, hties⟩ := hsort strictLt ring (strictWeakOrderOn_strictLt ring)
  refine ⟨hperm, hsorted.imp fun h => ?_, fun hash => ?_⟩
  · simpa [strictLt, UInt32.le_iff_toNat_le] using h
  · by_cases hex : ∃ x ∈ ring, x.hash = hash
    · obtain ⟨x, hx, rfl⟩ := hex
      have htied : Tied strictLt x = fun y => decide (y.hash = x.hash) := by
        funext y
        rw [Bool.eq_iff_iff]
        simp only [Tied, strictLt, Bool.and_eq_true, Bool.not_eq_true', decide_eq_false_iff_not,
          decide_eq_true_eq, UInt32.lt_iff_toNat_lt, ← UInt32.toNat_inj]
        omega
      rw [← htied]
      exact hties x hx
    · have hnone : ∀ y ∈ ring, ¬decide (y.hash = hash) = true := by simpa using hex
      rw [List.filter_eq_nil_iff.mpr hnone, List.filter_eq_nil_iff.mpr fun y hy =>
        hnone y (hperm.subset hy)]

/-- `operator<` puts every point before itself, so it orders the empty list only. -/
theorem strictWeakOrderOn_lt_iff {ring : List RingElement} :
    StrictWeakOrderOn RingElement.lt ring ↔ ring = [] := by
  refine ⟨fun h => h.eq_nil_of_refl fun x => ?_, ?_⟩
  · simp [RingElement.lt]
  · rintro rfl
    exact .nil _

section

variable {R : Type} [CDouble R] {nodes : UnorderedMap Bytes Node}

/-- **The contract of `stable_sort` covers the empty ring only**: `operator<` is a
strict weak order on the points, and every sort that meets the contract leaves the
continuum, exactly when no node is populated. -/
theorem continuum_iff (md4 : Bytes → Fin 16 → Byte) (hne : nodes.entries.length ≠ 0) :
    (StrictWeakOrderOn RingElement.lt (points R ⟨md4, id⟩ nodes) ↔ ¬AnyPopulated R nodes) ∧
      ((∀ sort, StableSortSpec sort → ∃ hashring,
        new R ⟨md4, sort RingElement.lt⟩ nodes = .ok hashring ∧
          IsContinuum (points R ⟨md4, id⟩ nodes) hashring.ring) ↔ ¬AnyPopulated R nodes) := by
  rw [strictWeakOrderOn_lt_iff, ← @points_ne_nil_iff R _ ⟨md4, id⟩ nodes, not_not]
  refine ⟨Iff.rfl, fun h => ?_, fun hnil sort hsort => ?_⟩
  · by_contra hpoints
    obtain ⟨sort, hsort, hdrops⟩ := @StableSortSpec.exists_empty RingElement
    obtain ⟨hashring, hnew, hcontinuum⟩ := h sort hsort
    obtain rfl := eq_of_new hnew
    have hring : sort RingElement.lt (points R ⟨md4, id⟩ nodes) = [] :=
      hdrops _ _ fun horder => hpoints (strictWeakOrderOn_lt_iff.mp horder)
    have hperm : (sort RingElement.lt (points R ⟨md4, id⟩ nodes)).Perm (points R ⟨md4, id⟩ nodes) :=
      hcontinuum.perm
    rw [hring] at hperm
    exact hpoints hperm.symm.eq_nil
  · refine ⟨_, by rw [new, if_neg hne], ?_⟩
    have hsorted := hsort RingElement.lt _ (strictWeakOrderOn_lt_iff.mpr hnil)
    have hring : sort RingElement.lt (points R ⟨md4, id⟩ nodes) = [] := by
      have hperm := hsorted.perm
      rw [hnil] at hperm ⊢
      exact hperm.eq_nil
    show IsContinuum (points R ⟨md4, id⟩ nodes) (sort RingElement.lt (points R ⟨md4, id⟩ nodes))
    rw [hring, hnil]
    exact ⟨.refl _, .nil, fun _ => rfl⟩

end

theorem continuum_oneShard :
    (StrictWeakOrderOn RingElement.lt (points Exact ⟨twoShards.md4, id⟩ (oneShard 1 1)) ↔
        ¬AnyPopulated Exact (oneShard 1 1)) ∧
      ((∀ sort, StableSortSpec sort → ∃ hashring,
        new Exact ⟨twoShards.md4, sort RingElement.lt⟩ (oneShard 1 1) = .ok hashring ∧
          IsContinuum (points Exact ⟨twoShards.md4, id⟩ (oneShard 1 1)) hashring.ring) ↔
        ¬AnyPopulated Exact (oneShard 1 1)) :=
  continuum_iff twoShards.md4 (by decide)

/-- With a constant digest all points have the same hash, and merging by `operator<`
reverses them. -/
theorem reversed_twoPorts :
    ¬StrictWeakOrderOn RingElement.lt (points Exact ⟨fun _ _ => 0, id⟩ twoPorts) ∧
      StableSortSpec (@stableSort RingElement) ∧ ∃ hashring,
        new Exact ⟨fun _ _ => 0, stableSort RingElement.lt⟩ twoPorts = .ok hashring ∧
          ¬IsContinuum (points Exact ⟨fun _ _ => 0, id⟩ twoPorts) hashring.ring := by
  refine ⟨fun h => ?_, stableSort_spec, _, rfl, fun h => ?_⟩
  · exact absurd (strictWeakOrderOn_lt_iff.mp h) (by decide +kernel)
  · have hreverse : stableSort RingElement.lt (points Exact ⟨fun _ _ => 0, id⟩ twoPorts) =
        (points Exact ⟨fun _ _ => 0, id⟩ twoPorts).reverse :=
      stableSort_eq_reverse (by decide +kernel)
    have hties := h.ties 0
    change (stableSort RingElement.lt (points Exact ⟨fun _ _ => 0, id⟩ twoPorts)).filter _ = _
      at hties
    rw [hreverse] at hties
    exact absurd hties (by decide +kernel)

-- ════════════════════════════════════════════════════════════════════════
-- Comparing two shards
-- ════════════════════════════════════════════════════════════════════════

section Comparing

variable {nodes : UnorderedMap Bytes Node} {a b : Bytes} {nodeA nodeB : Node}

/-- A weight that is not smaller has a share that is not smaller. -/
theorem share_mono (hint : weightSum nodes < 2 ^ 31) (hfew : 40 * nodes.entries.length < 2 ^ 31)
    (hweight : ∀ shard node, nodes.lookup shard = some node → 0 < node.weight)
    (ha : nodes.lookup a = some nodeA) (hb : nodes.lookup b = some nodeB)
    (h : nodeB.weight ≤ nodeA.weight) : share Exact nodes nodeB ≤ share Exact nodes nodeA := by
  have hsum : (0 : ℚ) < weightSum nodes := by
    exact_mod_cast weightSum_pos (List.ne_nil_of_mem (AList.mem_lookup_iff.mp ha)) hweight
  have hle : (nodeB.weight : ℚ) ≤ nodeA.weight := by exact_mod_cast h
  rw [(share_of_few hint hfew hweight ha).1, (share_of_few hint hfew hweight hb).1]
  apply Int.floor_le_floor
  gcongr

/-- Twice the weight has more than the share, unless this is zero. -/
theorem share_lt_of_double (hint : weightSum nodes < 2 ^ 31)
    (hfew : 40 * nodes.entries.length < 2 ^ 31)
    (hweight : ∀ shard node, nodes.lookup shard = some node → 0 < node.weight)
    (ha : nodes.lookup a = some nodeA) (hb : nodes.lookup b = some nodeB)
    (h : 2 * nodeB.weight ≤ nodeA.weight) (hshare : 0 < share Exact nodes nodeB) :
    share Exact nodes nodeB < share Exact nodes nodeA := by
  have hsum : (0 : ℚ) < weightSum nodes := by
    exact_mod_cast weightSum_pos (List.ne_nil_of_mem (AList.mem_lookup_iff.mp ha)) hweight
  have hle : 2 * (nodeB.weight : ℚ) ≤ nodeA.weight := by exact_mod_cast h
  rw [(share_of_few hint hfew hweight hb).1] at hshare ⊢
  rw [(share_of_few hint hfew hweight ha).1]
  have hfloor : (⌊(nodeB.weight : ℚ) / weightSum nodes * 40 * nodes.entries.length⌋ : ℚ) ≤
      (nodeB.weight : ℚ) / weightSum nodes * 40 * nodes.entries.length := Int.floor_le _
  have hone : (1 : ℚ) ≤ ⌊(nodeB.weight : ℚ) / weightSum nodes * 40 * nodes.entries.length⌋ := by
    exact_mod_cast hshare
  have hdouble : 2 * ((nodeB.weight : ℚ) / weightSum nodes * 40 * nodes.entries.length) ≤
      (nodeA.weight : ℚ) / weightSum nodes * 40 * nodes.entries.length := by
    calc 2 * ((nodeB.weight : ℚ) / weightSum nodes * 40 * nodes.entries.length)
        = 2 * (nodeB.weight : ℚ) / weightSum nodes * 40 * nodes.entries.length := by ring
      _ ≤ (nodeA.weight : ℚ) / weightSum nodes * 40 * nodes.entries.length := by gcongr
  rw [← Int.add_one_le_iff, Int.le_floor]
  push_cast
  linarith

/-- **The numbers of points of two shards** of not too many nodes with positive numbers and
weights, the sum of which is an `int`: a number of virtual nodes other than `40` decides
alone, and the weight decides where it is `40`; within either kind a bigger number or weight
gives no fewer points, and twice the weight gives more. -/
theorem pointCount_spec (env : RingEnv)
    (hpos : ∀ shard node, nodes.lookup shard = some node → 0 < node.vnodes ∧ 0 < node.weight)
    (hint : weightSum nodes < 2 ^ 31) (hfew : 40 * nodes.entries.length < 2 ^ 31)
    (ha : nodes.lookup a = some nodeA) (hb : nodes.lookup b = some nodeB) :
    (pointCount Exact env nodes a : ℤ) =
        (if nodeA.vnodes = vnodes then
          4 * ⌊(nodeA.weight : ℚ) / weightSum nodes * 40 * nodes.entries.length⌋
        else 4 * nodeA.vnodes) ∧
      ((nodeA.vnodes = vnodes ↔ nodeB.vnodes = vnodes) → nodeB.vnodes ≤ nodeA.vnodes →
        nodeB.weight ≤ nodeA.weight → pointCount Exact env nodes b ≤ pointCount Exact env nodes a) ∧
      (nodeA.vnodes = vnodes → nodeB.vnodes = vnodes → 2 * nodeB.weight ≤ nodeA.weight →
        0 < pointCount Exact env nodes b →
          pointCount Exact env nodes b < pointCount Exact env nodes a) := by
  have hweight := fun shard node hnode => (hpos shard node hnode).2
  have hlength : ∀ node : Node, 0 < node.vnodes → length Exact nodes node =
      if node.vnodes = vnodes then share Exact nodes node else node.vnodes := by
    intro node hnode
    have h0 : ¬node.vnodes = 0 := by omega
    simp only [length_eq, h0, false_or]
  obtain ⟨hvnodesA, -⟩ := hpos a nodeA ha
  obtain ⟨hvnodesB, -⟩ := hpos b nodeB hb
  obtain ⟨hshareA, hnonneg⟩ := share_of_few hint hfew hweight ha
  rw [pointCount_eq ha, pointCount_eq hb, hlength nodeA hvnodesA, hlength nodeB hvnodesB]
  refine ⟨?_, fun hkind hvnodes hle => ?_, fun hvA hvB hdouble hpoints => ?_⟩
  · rw [← hshareA]
    split <;> push_cast <;> omega
  · have hshare := share_mono hint hfew hweight ha hb hle
    by_cases hvA : nodeA.vnodes = vnodes
    · rw [if_pos hvA, if_pos (hkind.mp hvA)]
      omega
    · rw [if_neg hvA, if_neg fun hvB => hvA (hkind.mpr hvB)]
      omega
  · rw [if_pos hvB] at hpoints
    have hshare := share_lt_of_double hint hfew hweight ha hb hdouble (by omega)
    rw [if_pos hvA, if_pos hvB]
    omega

end Comparing

/-- Four shards, two of them with the number of virtual nodes that the code takes
for "not set". -/
def fourShards : UnorderedMap Bytes Node :=
  ((((∅ : UnorderedMap Bytes Node).insert (ascii "a") ⟨⟨[], 1⟩, 40, 2⟩).insert (ascii "b")
    ⟨⟨[], 2⟩, 39, 1⟩).insert (ascii "c") ⟨⟨[], 3⟩, 39, 2⟩).insert (ascii "d") ⟨⟨[], 4⟩, 40, 1000⟩

theorem positive_fourShards : ∀ shard node, fourShards.lookup shard = some node →
    0 < node.vnodes ∧ 0 < node.weight := by
  have hall : ∀ entry ∈ fourShards.entries, 0 < entry.2.vnodes ∧ 0 < entry.2.weight := by decide
  intro shard node hnode
  exact hall ⟨shard, node⟩ (AList.mem_lookup_iff.mp hnode)

theorem pointCount_fourShards :
    (pointCount Exact twoShards fourShards (ascii "d") : ℤ) =
        (if (40 : ℤ) = vnodes then
          4 * ⌊((1000 : ℤ) : ℚ) / weightSum fourShards * 40 * fourShards.entries.length⌋
        else 4 * 40) ∧
      (((40 : ℤ) = vnodes ↔ (40 : ℤ) = vnodes) → (40 : ℤ) ≤ 40 → (2 : ℤ) ≤ 1000 →
        pointCount Exact twoShards fourShards (ascii "a") ≤
          pointCount Exact twoShards fourShards (ascii "d")) ∧
      ((40 : ℤ) = vnodes → (40 : ℤ) = vnodes → 2 * (2 : ℤ) ≤ 1000 →
        0 < pointCount Exact twoShards fourShards (ascii "a") →
          pointCount Exact twoShards fourShards (ascii "a") <
            pointCount Exact twoShards fourShards (ascii "d")) :=
  pointCount_spec twoShards positive_fourShards (by decide) (by decide)
    (show fourShards.lookup (ascii "d") = some ⟨⟨[], 4⟩, 40, 1000⟩ by decide)
    (show fourShards.lookup (ascii "a") = some ⟨⟨[], 1⟩, 40, 2⟩ by decide)

/-- Two shards whose weights add up to more than an `int` holds. -/
def heavyShards : UnorderedMap Bytes Node :=
  shardsAB ⟨⟨[], 1⟩, 40, 2 ^ 30⟩ ⟨⟨[], 2⟩, 40, 2 ^ 30⟩

/-- A shard with the given weight and `n` shards with the weight `1`. -/
def crowd (weight : ℤ) (n : ℕ) : UnorderedMap Bytes Node where
  entries := (List.range (n + 1)).map fun i =>
    ⟨natText i, ⟨⟨[], 1⟩, vnodes, if i = 0 then weight else 1⟩⟩
  nodupKeys := by
    rw [List.NodupKeys, List.keys, List.map_map]
    exact List.nodup_range.map natText_injective

theorem length_crowd (weight : ℤ) (n : ℕ) : (crowd weight n).entries.length = n + 1 := by
  rw [crowd, List.length_map, List.length_range]

theorem lookup_crowd (weight : ℤ) {n i : ℕ} (hi : i < n + 1) :
    (crowd weight n).lookup (natText i) = some ⟨⟨[], 1⟩, vnodes, if i = 0 then weight else 1⟩ :=
  AList.mem_lookup_iff.mpr (List.mem_map.mpr ⟨i, List.mem_range.mpr hi, rfl⟩)

theorem positive_crowd {weight : ℤ} (hweight : 0 < weight) (n : ℕ) :
    ∀ shard node, (crowd weight n).lookup shard = some node →
      0 < node.vnodes ∧ 0 < node.weight := by
  intro shard node hnode
  obtain ⟨i, -, heq⟩ := List.mem_map.mp (AList.mem_lookup_iff.mp hnode)
  cases heq
  refine ⟨show 0 < vnodes by decide, ?_⟩
  dsimp only
  split <;> omega

theorem weightSum_crowd (weight : ℤ) (n : ℕ) : weightSum (crowd weight n) = weight + n := by
  rw [weightSum, crowd, List.map_map, List.range_succ_eq_map, List.map_cons, List.sum_cons,
    List.map_map]
  simp [Function.comp_def]

theorem pointCount_crowd (env : RingEnv) {weight : ℤ} {n i : ℕ} (hi : i < n + 1)
    (hpos : 0 < weight + n) (hint : weight + n < 2 ^ 31) :
    pointCount Exact env (crowd weight n) (natText i) =
      4 * (storeInt ⌊((if i = 0 then weight else 1 : ℤ) : ℚ) / (weight + n : ℤ) * 40 *
        (n + 1 : ℕ)⌋).toNat := by
  have hsum := weightSum_crowd weight n
  have htotal : totalWeight (crowd weight n) = weight + n := by
    rw [totalWeight_eq (by rwa [hsum]) (by rwa [hsum]), hsum]
  rw [pointCount_eq (lookup_crowd weight hi), length_eq, if_pos (.inr rfl),
    share_exact (by rw [htotal]; exact hpos.ne'), htotal, length_crowd]

/-- `a` has more virtual nodes and more weight than `b` and no point, and `c` has
twice the weight of `b` and as many points. Weights whose sum wraps give no point, whatever
their share of the sum is, and neither does a share that is no `int`. -/
theorem pointCount_not_mono_fourShards :
    (∀ shard node, fourShards.lookup shard = some node → 0 < node.vnodes ∧ 0 < node.weight) ∧
      pointCount Exact twoShards fourShards (ascii "a") = 0 ∧
      pointCount Exact twoShards fourShards (ascii "b") = 156 ∧
      pointCount Exact twoShards fourShards (ascii "c") = 156 ∧
      (weightSum heavyShards = 2 ^ 31 ∧ pointCount Exact twoShards heavyShards (ascii "a") = 0 ∧
        4 * ⌊(2 ^ 30 : ℚ) / weightSum heavyShards * 40 * heavyShards.entries.length⌋ = 160) ∧
      (∀ shard node, (crowd (2 ^ 31 - 2 ^ 26 - 1) (2 ^ 26)).lookup shard = some node →
        0 < node.vnodes ∧ 0 < node.weight) ∧
      weightSum (crowd (2 ^ 31 - 2 ^ 26 - 1) (2 ^ 26)) < 2 ^ 31 ∧
      pointCount Exact twoShards (crowd (2 ^ 31 - 2 ^ 26 - 1) (2 ^ 26)) (natText 0) = 0 ∧
      pointCount Exact twoShards (crowd (2 ^ 31 - 2 ^ 26 - 1) (2 ^ 26)) (natText 1) = 4 := by
  have ha : fourShards.lookup (ascii "a") = some ⟨⟨[], 1⟩, 40, 2⟩ := by decide
  have hb : fourShards.lookup (ascii "b") = some ⟨⟨[], 2⟩, 39, 1⟩ := by decide
  have hc : fourShards.lookup (ascii "c") = some ⟨⟨[], 3⟩, 39, 2⟩ := by decide
  have hheavy : heavyShards.lookup (ascii "a") = some ⟨⟨[], 1⟩, 40, 2 ^ 30⟩ := by decide
  refine ⟨positive_fourShards, ?_, ?_, ?_, ⟨by decide, ?_, by decide +kernel⟩,
    positive_crowd (by norm_num) _, ?_, ?_, ?_⟩
  · rw [pointCount_eq ha]
    decide +kernel
  · rw [pointCount_eq hb]
    decide +kernel
  · rw [pointCount_eq hc]
    decide +kernel
  · rw [pointCount_eq hheavy]
    decide +kernel
  · rw [weightSum_crowd]
    norm_num
  · rw [pointCount_crowd twoShards (by norm_num) (by norm_num) (by norm_num), if_pos rfl,
      storeInt_of_le (by rw [Int.le_floor]; norm_num)]
    rfl
  · have hone : ⌊((1 : ℤ) : ℚ) / (2 ^ 31 - 2 ^ 26 - 1 + (2 ^ 26 : ℕ) : ℤ) * 40 *
        (2 ^ 26 + 1 : ℕ)⌋ = 1 := by
      rw [Int.floor_eq_iff]
      norm_num
    rw [pointCount_crowd twoShards (by norm_num) (by norm_num) (by norm_num), if_neg one_ne_zero,
      hone]
    rfl

end Hashring

end Statsdcc
