import Mathlib
import Statsdcc.Hashring.Search

/-!
# Routing by a ring

The points of a ring, and the nodes of keys: with fewer than `2 ^ 30` points a key belongs
to the shard of the point that follows it. A new shard then takes keys from the others and
shuffles none; from `2 ^ 30` points on the search overflows.

## Main definitions

- `Hashring.CustomVnodes` — every node has a number of virtual nodes of its own
- `Hashring.NoCollision` — the shards have no hash in common

## Main results

- `Hashring.length_points` — the number of points of a ring
- `Hashring.get_of_new` — a key belongs to the shard of the point that follows it
- `Hashring.get_enlarged` — a new shard takes keys and shuffles none
- `Hashring.get_enlarged_overflow` — unless the ring gets too long for the search
-/

open Bytes

namespace Statsdcc

namespace Hashring

-- ════════════════════════════════════════════════════════════════════════
-- The points of a ring
-- ════════════════════════════════════════════════════════════════════════

theorem shard_of_mem_shardPoints {env : RingEnv} {shard : Bytes} {n : ℤ} {e : RingElement}
    (h : e ∈ shardPoints env shard n) : e.shard = shard := by
  obtain ⟨i, -, h⟩ := List.mem_flatMap.mp h
  obtain ⟨j, -, rfl⟩ := List.mem_map.mp h
  rfl

theorem shardPoints_ne_nil (env : RingEnv) (shard : Bytes) {n : ℤ} (hn : 0 < n) :
    shardPoints env shard n ≠ [] := by
  intro hnil
  rw [shardPoints, List.flatMap_eq_nil_iff] at hnil
  have hfirst := hnil 0 (List.mem_range.mpr (by omega))
  simp [replicas] at hfirst

theorem length_shardPoints (env : RingEnv) (shard : Bytes) (n : ℤ) :
    (shardPoints env shard n).length = 4 * n.toNat := by
  simp [shardPoints, replicas, List.length_flatMap, Nat.mul_comm]

section Points

variable {R : Type} [CDouble R]

/-- The number of points of a ring: every virtual node has four. -/
def pointTotal (R : Type) [CDouble R] (nodes : UnorderedMap Bytes Node) : ℕ :=
  (nodes.entries.map fun entry => 4 * (length R nodes entry.2).toNat).sum

theorem length_points (env : RingEnv) (nodes : UnorderedMap Bytes Node) :
    (points R env nodes).length = pointTotal R nodes := by
  simp only [points, List.length_flatMap, length_shardPoints, pointTotal]

/-- The points of a map are those of its shards, however it is enumerated. -/
theorem mem_points {env : RingEnv} {nodes : UnorderedMap Bytes Node} {e : RingElement} :
    e ∈ points R env nodes ↔ ∃ node, nodes.lookup e.shard = some node ∧
      e ∈ shardPoints env e.shard (length R nodes node) := by
  constructor
  · intro h
    obtain ⟨⟨shard, node⟩, hentry, he⟩ := List.mem_flatMap.mp h
    obtain rfl := shard_of_mem_shardPoints he
    exact ⟨node, AList.mem_lookup_iff.mpr hentry, he⟩
  · rintro ⟨node, hnode, he⟩
    exact List.mem_flatMap.mpr ⟨⟨e.shard, node⟩, AList.mem_lookup_iff.mp hnode, he⟩

/-- Every node has a number of virtual nodes of its own. -/
def CustomVnodes (nodes : UnorderedMap Bytes Node) : Prop :=
  ∀ shard node, nodes.lookup shard = some node → 0 < node.vnodes ∧ node.vnodes ≠ vnodes

theorem length_of_custom (nodes : UnorderedMap Bytes Node) {node : Node} (h0 : 0 < node.vnodes)
    (h : node.vnodes ≠ vnodes) : length R nodes node = node.vnodes := by
  have hne : node.vnodes ≠ 0 := by omega
  simp [length, hne, h]

theorem CustomVnodes.points_ne_nil {nodes : UnorderedMap Bytes Node} (h : CustomVnodes nodes)
    (hne : nodes.entries.length ≠ 0) (env : RingEnv) : points R env nodes ≠ [] := by
  intro hnil
  cases hentries : nodes.entries with
  | nil => exact hne (by rw [hentries]; rfl)
  | cons entry entries =>
    have hlookup : nodes.lookup entry.1 = some entry.2 :=
      AList.mem_lookup_iff.mpr (by rw [hentries]; exact .head _)
    obtain ⟨h0, hcustom⟩ := h _ _ hlookup
    rw [points, List.flatMap_eq_nil_iff] at hnil
    refine shardPoints_ne_nil env entry.1 ?_ (hnil entry (by rw [hentries]; exact .head _))
    rw [length_of_custom nodes h0 hcustom]
    exact h0

/-- The sum of the numbers of virtual nodes. -/
def vnodesSum (nodes : UnorderedMap Bytes Node) : ℤ :=
  (nodes.entries.map fun entry => entry.2.vnodes).sum

theorem CustomVnodes.pointTotal_eq {nodes : UnorderedMap Bytes Node} (h : CustomVnodes nodes) :
    (pointTotal R nodes : ℤ) = 4 * vnodesSum nodes := by
  have hlength : ∀ entry ∈ nodes.entries,
      ((4 * (length R nodes entry.2).toNat : ℕ) : ℤ) = 4 * entry.2.vnodes := by
    intro entry hentry
    obtain ⟨h0, hcustom⟩ := h entry.1 entry.2 (AList.mem_lookup_iff.mpr hentry)
    rw [length_of_custom nodes h0 hcustom]
    omega
  rw [pointTotal, vnodesSum, Nat.cast_list_sum, List.map_map, ← List.sum_map_mul_left]
  exact congrArg List.sum (List.map_congr_left hlength)

/-- A new shard adds its virtual nodes. -/
theorem vnodesSum_enlarged {nodes nodes' : UnorderedMap Bytes Node} {s : Bytes} {node : Node}
    (hnew : nodes.lookup s = none)
    (henlarged : ∀ shard, nodes'.lookup shard =
      if shard = s then some node else nodes.lookup shard) :
    vnodesSum nodes' = node.vnodes + vnodesSum nodes := by
  have hperm : nodes'.entries.Perm (nodes.insert s node).entries := by
    apply List.lookup_ext nodes'.nodupKeys (nodes.insert s node).nodupKeys
    intro x y
    show y ∈ nodes'.lookup x ↔ y ∈ (nodes.insert s node).lookup x
    by_cases hx : x = s
    · rw [henlarged, if_pos hx, hx, AList.lookup_insert]
    · rw [henlarged, if_neg hx, AList.lookup_insert_ne hx]
  have hentries : (nodes.insert s node).entries = ⟨s, node⟩ :: nodes.entries := by
    rw [AList.entries_insert, List.kerase_of_notMem_keys (AList.lookup_eq_none.mp hnew)]
  rw [vnodesSum, (hperm.map _).sum_eq, hentries, List.map_cons, List.sum_cons, vnodesSum]

/-- The points of a shard do not depend on the other shards. -/
theorem mem_points_iff_of_custom {env : RingEnv} {nodes nodes' : UnorderedMap Bytes Node}
    (h : CustomVnodes nodes) {e : RingElement}
    (hlookup : nodes.lookup e.shard = nodes'.lookup e.shard) :
    e ∈ points R env nodes ↔ e ∈ points R env nodes' := by
  rw [mem_points, mem_points]
  refine exists_congr fun node => ?_
  rw [← hlookup]
  refine and_congr_right fun hnode => ?_
  obtain ⟨h0, hcustom⟩ := h _ _ hnode
  rw [length_of_custom nodes h0 hcustom, length_of_custom nodes' h0 hcustom]

/-- No point of one shard has the hash of a point of another shard. -/
def NoCollision (ring : List RingElement) : Prop :=
  ∀ x ∈ ring, ∀ y ∈ ring, x.hash = y.hash → x.shard = y.shard

instance (ring : List RingElement) : Decidable (NoCollision ring) :=
  inferInstanceAs (Decidable (∀ x ∈ ring, ∀ y ∈ ring, x.hash = y.hash → x.shard = y.shard))

/-- `std::stable_sort` returns a sorted permutation. -/
def SortsRings (env : RingEnv) : Prop :=
  ∀ ring, (env.stableSort ring).Perm ring ∧ Sorted (env.stableSort ring)

theorem eq_of_new {env : RingEnv} {nodes : UnorderedMap Bytes Node} {hashring : Hashring}
    (hnew : new R env nodes = .ok hashring) :
    hashring = ⟨env.stableSort (points R env nodes), nodes⟩ := by
  rw [new] at hnew
  split at hnew
  · cases hnew
  · exact (Except.ok.inj hnew).symm

/-- A key belongs to the shard of the point that follows its hash. -/
theorem get_of_new {env : RingEnv} (hsort : SortsRings env) {nodes : UnorderedMap Bytes Node}
    (hne : nodes.entries.length ≠ 0) (hpoints : points R env nodes ≠ [])
    (hfew : pointTotal R nodes < 2 ^ 30) :
    ∃ hashring, new R env nodes = .ok hashring ∧ ∀ key, ∃ e,
      Follows (points R env nodes) (hashValue env key) e ∧
        get env hashring key = nodes.lookup e.shard := by
  obtain ⟨hperm, hsorted⟩ := hsort (points R env nodes)
  refine ⟨⟨env.stableSort (points R env nodes), nodes⟩, by rw [new, if_neg hne], fun key => ?_⟩
  have hring : env.stableSort (points R env nodes) ≠ [] := by
    intro hnil
    rw [hnil] at hperm
    exact hpoints hperm.symm.eq_nil
  have hlen : (env.stableSort (points R env nodes)).length < 2 ^ 30 := by
    rw [hperm.length_eq, length_points]
    exact hfew
  obtain ⟨i, e, hfind, he, hfollows⟩ := findInt_spec hsorted hring hlen (hashValue env key)
  refine ⟨e, hfollows.of_perm hperm, ?_⟩
  simp only [get, hfind, Option.bind_some, he]

/-- **A new shard takes keys and shuffles none**, as long as the enlarged ring has fewer
than `2 ^ 30` points: the node of a key on the enlarged ring is its node on the original
ring or the node of the new shard. -/
theorem get_enlarged (env : RingEnv) (hsort : SortsRings env)
    {nodes nodes' : UnorderedMap Bytes Node} (hne : nodes.entries.length ≠ 0) {s : Bytes}
    {node : Node} (hnew : nodes.lookup s = none)
    (henlarged : ∀ shard, nodes'.lookup shard = if shard = s then some node else nodes.lookup shard)
    (hcustom : CustomVnodes nodes') (hcollision : NoCollision (points R env nodes'))
    (hfew : vnodesSum nodes' < 2 ^ 28) :
    ∃ hashring hashring', new R env nodes = .ok hashring ∧ new R env nodes' = .ok hashring' ∧
      ∀ key, ∃ n, get env hashring key = some n ∧
        (get env hashring' key = some n ∨ get env hashring' key = some node) := by
  have hother : ∀ {shard}, shard ≠ s → nodes.lookup shard = nodes'.lookup shard :=
    fun hshard => by rw [henlarged, if_neg hshard]
  have hold : ∀ {shard n}, nodes.lookup shard = some n → shard ≠ s := by
    rintro shard n hn rfl
    rw [hnew] at hn
    cases hn
  have hcustomOld : CustomVnodes nodes := fun shard n hn =>
    hcustom shard n (by rw [← hother (hold hn), hn])
  have hsub : points R env nodes ⊆ points R env nodes' := by
    intro e he
    obtain ⟨n, hn, -⟩ := mem_points.mp he
    exact (mem_points_iff_of_custom hcustomOld (hother (hold hn))).mp he
  have hne' : nodes'.entries.length ≠ 0 := by
    intro hnil
    have hlookup := henlarged s
    rw [if_pos rfl] at hlookup
    have hentry := AList.mem_lookup_iff.mp hlookup
    rw [List.length_eq_zero_iff.mp hnil] at hentry
    cases hentry
  have htotal' : (pointTotal R nodes' : ℤ) = 4 * vnodesSum nodes' := hcustom.pointTotal_eq
  have htotal : (pointTotal R nodes : ℤ) = 4 * vnodesSum nodes := hcustomOld.pointTotal_eq
  have hgrows := vnodesSum_enlarged hnew henlarged
  have hpos : 0 < node.vnodes := (hcustom s node (by rw [henlarged, if_pos rfl])).1
  obtain ⟨hashring, hok, hget⟩ :=
    get_of_new (R := R) hsort hne (hcustomOld.points_ne_nil hne env) (by omega)
  obtain ⟨hashring', hok', hget'⟩ :=
    get_of_new (R := R) hsort hne' (hcustom.points_ne_nil hne' env) (by omega)
  refine ⟨hashring, hashring', hok, hok', fun key => ?_⟩
  obtain ⟨e, he, hnode⟩ := hget key
  obtain ⟨e', he', hnode'⟩ := hget' key
  obtain ⟨n, hn, -⟩ := mem_points.mp he.mem
  refine ⟨n, hnode.trans hn, ?_⟩
  by_cases hshard : e'.shard = s
  · exact .inr (by rw [hnode', henlarged, if_pos hshard])
  · -- a point of an old shard follows the key on the original ring, too
    have hmem : e' ∈ points R env nodes :=
      (mem_points_iff_of_custom hcustomOld (hother hshard)).mpr he'.mem
    have hhash : e'.hash = e.hash :=
      UInt32.toNat_inj.mp ((he'.of_subset hsub hmem).key_unique he)
    have hsame : e'.shard = e.shard := hcollision e' he'.mem e (hsub he.mem) hhash
    exact .inl (by rw [hnode', ← hother hshard, hsame, hn])

end Points

/-- Two shards with one virtual node each; the digests are those of MD4. -/
def twoShards : RingEnv where
  md4 text :=
    if text = ascii "a-0" then
      ![122, 47, 214, 109, 109, 36, 82, 204, 115, 40, 188, 233, 145, 254, 74, 69]
    else ![99, 149, 31, 64, 31, 96, 237, 22, 72, 101, 217, 111, 182, 221, 137, 189]
  stableSort ring := ring.mergeSort fun x y => x.hash.toNat ≤ y.hash.toNat

theorem sortsRings_twoShards : SortsRings twoShards := by
  intro ring
  have hsorted : (twoShards.stableSort ring).Pairwise
      fun x y => decide (x.hash.toNat ≤ y.hash.toNat) = true :=
    List.pairwise_mergeSort (by simpa using fun _ _ _ => Nat.le_trans)
      (by simpa using fun _ _ => Nat.le_total _ _) ring
  exact ⟨List.mergeSort_perm _ _, hsorted.imp fun h => of_decide_eq_true h⟩

/-- The shard `a`, and the shard `b` as well. -/
def shardA (node : Node) : UnorderedMap Bytes Node :=
  (∅ : UnorderedMap Bytes Node).insert (ascii "a") node

def shardsAB (nodeA nodeB : Node) : UnorderedMap Bytes Node :=
  (shardA nodeA).insert (ascii "b") nodeB

theorem lookup_shardsAB (nodeA nodeB : Node) (shard : Bytes) :
    (shardsAB nodeA nodeB).lookup shard =
      if shard = ascii "b" then some nodeB else (shardA nodeA).lookup shard := by
  by_cases hshard : shard = ascii "b"
  · rw [hshard, if_pos rfl, shardsAB, AList.lookup_insert]
  · rw [if_neg hshard, shardsAB, AList.lookup_insert_ne hshard]

theorem lookup_shardA (nodeA : Node) (shard : Bytes) :
    (shardA nodeA).lookup shard = if shard = ascii "a" then some nodeA else none := by
  by_cases hshard : shard = ascii "a"
  · rw [hshard, if_pos rfl, shardA, AList.lookup_insert]
  · rw [if_neg hshard, shardA, AList.lookup_insert_ne hshard]
    rfl

theorem customVnodes_shardsAB {nodeA nodeB : Node} (hA : 0 < nodeA.vnodes ∧ nodeA.vnodes ≠ vnodes)
    (hB : 0 < nodeB.vnodes ∧ nodeB.vnodes ≠ vnodes) : CustomVnodes (shardsAB nodeA nodeB) := by
  intro shard node hnode
  rw [lookup_shardsAB, lookup_shardA] at hnode
  split_ifs at hnode <;> cases hnode <;> assumption

theorem get_enlarged_twoShards :
    ∃ hashring hashring',
      new Exact twoShards (shardA ⟨⟨[], 1⟩, 1, 1⟩) = .ok hashring ∧
      new Exact twoShards (shardsAB ⟨⟨[], 1⟩, 1, 1⟩ ⟨⟨[], 2⟩, 1, 1⟩) = .ok hashring' ∧
      ∀ key, ∃ n, get twoShards hashring key = some n ∧
        (get twoShards hashring' key = some n ∨
          get twoShards hashring' key = some ⟨⟨[], 2⟩, 1, 1⟩) :=
  get_enlarged twoShards sortsRings_twoShards (by decide) (by decide) (lookup_shardsAB _ _)
    (customVnodes_shardsAB (by decide) (by decide)) (by decide +kernel) (by decide)

/-- Digests that depend on the first character: `b` has other points than `a`, and the
empty key comes after all of them. -/
def byFirst : RingEnv where
  md4 text := fun _ =>
    match text with
    | [] => 2
    | c :: _ => if c = 98 then 1 else 0
  stableSort := twoShards.stableSort

theorem hash_byFirst {c : Byte} (hc : c ≠ nul) {n : ℤ} {e : RingElement}
    (h : e ∈ shardPoints byFirst [c] n) : e.hash = if c = 98 then hash 1 1 1 1 else 0 := by
  obtain ⟨i, -, h⟩ := List.mem_flatMap.mp h
  obtain ⟨j, -, rfl⟩ := List.mem_map.mp h
  have hlabel : label [c] i = c :: (ascii "-" ++ natText i).take 1022 := by
    have hcstr : cStr [c] = [c] := cStr_eq_self (by simpa using hc.symm)
    rw [label, hcstr]
    rfl
  simp only [byFirst, hlabel]
  split
  · rfl
  · rfl

/-- The hash of a point of the two shards, by which they are told apart. -/
theorem hash_shardsAB {nodeA nodeB : Node} {e : RingElement}
    (h : e ∈ points Exact byFirst (shardsAB nodeA nodeB)) :
    e.shard = ascii "a" ∧ e.hash = 0 ∨ e.shard = ascii "b" ∧ e.hash = hash 1 1 1 1 := by
  obtain ⟨node, hnode, hmem⟩ := mem_points.mp h
  rw [lookup_shardsAB, lookup_shardA] at hnode
  split_ifs at hnode with hb ha
  · rw [hb] at hmem
    exact .inr ⟨hb, hash_byFirst (by decide) hmem⟩
  · rw [ha] at hmem
    exact .inl ⟨ha, hash_byFirst (by decide) hmem⟩

/-- Points of the two shards never have one hash. -/
theorem noCollision_byFirst (nodeA nodeB : Node) :
    NoCollision (points Exact byFirst (shardsAB nodeA nodeB)) := by
  have hne : (0 : UInt32) ≠ hash 1 1 1 1 := by decide
  intro x hx y hy hhash
  rcases hash_shardsAB hx with ⟨hx, hx0⟩ | ⟨hx, hx0⟩ <;>
    rcases hash_shardsAB hy with ⟨hy, hy0⟩ | ⟨hy, hy0⟩
  · rw [hx, hy]
  · exact absurd (hx0.symm.trans (hhash.trans hy0)) hne
  · exact absurd (hy0.symm.trans (hhash.symm.trans hx0)) hne
  · rw [hx, hy]

/-- The empty key is not found from `2 ^ 30` points of the two shards on. -/
theorem get_byFirst_of_many {nodeA nodeB : Node} {hashring : Hashring}
    (hok : new Exact byFirst (shardsAB nodeA nodeB) = .ok hashring)
    (htotal : pointTotal Exact (shardsAB nodeA nodeB) = 2 ^ 30) :
    get byFirst hashring [] = none := by
  obtain rfl := eq_of_new hok
  obtain ⟨hperm, -⟩ := sortsRings_twoShards (points Exact byFirst (shardsAB nodeA nodeB))
  have hlength : (byFirst.stableSort (points Exact byFirst (shardsAB nodeA nodeB))).length =
      2 ^ 30 := by
    rw [← htotal, ← length_points byFirst]
    exact hperm.length_eq
  have hbefore : ∀ x ∈ byFirst.stableSort (points Exact byFirst (shardsAB nodeA nodeB)),
      x.hash < hashValue byFirst [] := by
    intro x hx
    rcases hash_shardsAB (hperm.subset hx) with ⟨-, hx⟩ | ⟨-, hx⟩ <;> rw [hx] <;> decide
  rw [get, findInt_eq_none hbefore (by omega) (by omega)]
  rfl

/-- With the last four of `2 ^ 30` points the search for a key behind all of them
overflows, where it answered on the ring without them. -/
theorem get_enlarged_overflow :
    SortsRings byFirst ∧
      CustomVnodes (shardsAB ⟨⟨[], 1⟩, 2 ^ 28 - 1, 1⟩ ⟨⟨[], 2⟩, 1, 1⟩) ∧
      NoCollision (points Exact byFirst (shardsAB ⟨⟨[], 1⟩, 2 ^ 28 - 1, 1⟩ ⟨⟨[], 2⟩, 1, 1⟩)) ∧
      ∃ hashring hashring',
        new Exact byFirst (shardA ⟨⟨[], 1⟩, 2 ^ 28 - 1, 1⟩) = .ok hashring ∧
        new Exact byFirst (shardsAB ⟨⟨[], 1⟩, 2 ^ 28 - 1, 1⟩ ⟨⟨[], 2⟩, 1, 1⟩) = .ok hashring' ∧
        get byFirst hashring [] = some ⟨⟨[], 1⟩, 2 ^ 28 - 1, 1⟩ ∧
        get byFirst hashring' [] = none := by
  have hsort : SortsRings byFirst := fun ring => sortsRings_twoShards ring
  have hcustom' : CustomVnodes (shardsAB ⟨⟨[], 1⟩, 2 ^ 28 - 1, 1⟩ ⟨⟨[], 2⟩, 1, 1⟩) :=
    customVnodes_shardsAB (by decide) (by decide)
  have hcustom : CustomVnodes (shardA ⟨⟨[], 1⟩, 2 ^ 28 - 1, 1⟩) := by
    intro shard node hnode
    rw [lookup_shardA] at hnode
    split_ifs at hnode
    cases hnode
    decide
  have htotal : pointTotal Exact (shardA ⟨⟨[], 1⟩, 2 ^ 28 - 1, 1⟩) = 2 ^ 30 - 4 := by
    have h := hcustom.pointTotal_eq (R := Exact)
    have hsum : vnodesSum (shardA ⟨⟨[], 1⟩, 2 ^ 28 - 1, 1⟩) = 2 ^ 28 - 1 := rfl
    omega
  have htotal' : pointTotal Exact (shardsAB ⟨⟨[], 1⟩, 2 ^ 28 - 1, 1⟩ ⟨⟨[], 2⟩, 1, 1⟩) =
      2 ^ 30 := by
    have h := hcustom'.pointTotal_eq (R := Exact)
    have hsum : vnodesSum (shardsAB ⟨⟨[], 1⟩, 2 ^ 28 - 1, 1⟩ ⟨⟨[], 2⟩, 1, 1⟩) = 2 ^ 28 := rfl
    omega
  obtain ⟨hashring, hok, hget⟩ := get_of_new (R := Exact) hsort (by decide)
    (hcustom.points_ne_nil (by decide) byFirst) (by omega)
  refine ⟨hsort, hcustom', noCollision_byFirst _ _, hashring, _, hok, rfl, ?_,
    get_byFirst_of_many rfl htotal'⟩
  obtain ⟨e, hfollows, hnode⟩ := hget []
  obtain ⟨node, hlookup, -⟩ := mem_points.mp hfollows.mem
  rw [hnode]
  rw [lookup_shardA] at hlookup ⊢
  split_ifs at hlookup ⊢
  rfl

end Hashring

end Statsdcc
