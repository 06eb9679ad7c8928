import Mathlib
import Statsdcc.Lib.CyclicSuccessor
import Statsdcc.Lib.UnorderedMap
import Statsdcc.Lib.Double

/-!
# The hash ring

`Hashring` spreads keys over the carbon servers. Every shard has points on a
ring of 32 bit hashes, and a key belongs to the shard of the point that follows
its own hash. MD4 and `std::stable_sort` are parameters.

## Main definitions

- `Hashring.new` — the constructor, with `generate_continuum`
- `Hashring.findInt` — `find`, the binary search for the next point, on machine integers
- `Hashring.find` — the same search on unbounded integers
- `Hashring.get` — the node of a key

## Main results

- `Hashring.find_sorted` — on a sorted ring the unbounded search is successor lookup
-/

open Bytes

namespace Statsdcc

/-- `Hostport`, the address of a server. -/
structure Hostport where
  host : Bytes
  port : ℤ
  deriving DecidableEq

/-- `hashring::Node`. -/
structure Node extends Hostport where
  vnodes : ℤ
  weight : ℤ
  deriving DecidableEq

/-- `Hashring::RingElement`. -/
structure RingElement where
  hash : UInt32
  shard : Bytes
  deriving DecidableEq

/-- The data members of `Hashring` that its constructor does not fix. -/
structure Hashring where
  ring : List RingElement
  nodes : UnorderedMap Bytes Node

/-- The length of an MD4 digest. -/
instance Hashring.neZeroDigest : NeZero (16 : ℕ) := ⟨by decide⟩

/-- The functions outside the repository that a ring uses. -/
structure RingEnv where
  md4 : Bytes → Fin 16 → Byte
  stableSort : List RingElement → List RingElement

namespace Hashring

/-- `replicas`, set by the constructor. -/
def replicas : ℕ := 4

/-- `vnodes`, set by the constructor. -/
def vnodes : ℤ := 40

/-- `Hashring::hash` -/
def hash (a b c d : Byte) : UInt32 :=
  (a.toUInt32 <<< 24) ||| (b.toUInt32 <<< 16) ||| (c.toUInt32 <<< 8) ||| d.toUInt32

/-- `hash_value` -/
def hashValue (env : RingEnv) (key : Bytes) : UInt32 :=
  let digest := env.md4 key
  hash (digest 3) (digest 2) (digest 1) (digest 0)

/-- The text that is hashed for a virtual node, in a buffer of 1024 characters. -/
def label (shard : Bytes) (i : ℕ) : Bytes := (cStr shard ++ ascii "-" ++ natText i).take 1023

/-- The points of one shard. -/
def shardPoints (env : RingEnv) (shard : Bytes) (length : ℤ) : List RingElement :=
  (List.range length.toNat).flatMap fun i =>
    let digest := env.md4 (label shard i)
    (List.range replicas).map fun j =>
      { hash := hash (digest (Fin.ofNat 16 (3 + j * 4))) (digest (Fin.ofNat 16 (2 + j * 4)))
          (digest (Fin.ofNat 16 (1 + j * 4))) (digest (Fin.ofNat 16 (j * 4)))
        shard := shard }

/-- The sum of the weights. -/
def weightSum (nodes : UnorderedMap Bytes Node) : ℤ :=
  (nodes.entries.map fun entry => entry.2.weight).sum

/-- `total` of `generate_continuum`, an `int` that wraps. -/
def totalWeight (nodes : UnorderedMap Bytes Node) : ℤ := Int.bmod (weightSum nodes) (2 ^ 32)

/-- `length` of `generate_continuum`: the number of virtual nodes of a shard. -/
def length (R : Type) [CDouble R] (nodes : UnorderedMap Bytes Node) (node : Node) : ℤ :=
  let percentage : R := CDouble.ofInt node.weight / CDouble.ofInt (totalWeight nodes)
  let vnodes' := if node.vnodes ≠ 0 then node.vnodes else vnodes
  if vnodes' ≠ 0 ∧ vnodes' ≠ vnodes then vnodes'
  else storeInt (CDouble.floor
    (percentage * CDouble.ofInt vnodes' * CDouble.ofInt nodes.entries.length))

/-- The points of all shards, in the order in which the map is enumerated. -/
def points (R : Type) [CDouble R] (env : RingEnv) (nodes : UnorderedMap Bytes Node) :
    List RingElement :=
  nodes.entries.flatMap fun entry => shardPoints env entry.1 (length R nodes entry.2)

/-- The constructor. -/
def new (R : Type) [CDouble R] (env : RingEnv) (nodes : UnorderedMap Bytes Node) :
    Except Bytes Hashring :=
  if nodes.entries.length = 0 then .error (ascii "Nodes list cannot be empty")
  else .ok { ring := env.stableSort (points R env nodes), nodes := nodes }

/-- `ring[i].hash`, `none` outside of the ring. -/
def readHash (ring : List RingElement) (i : ℤ) : Option UInt32 :=
  if i < 0 then none else (ring[i.toNat]?).map RingElement.hash

/-- The loop of the search on unbounded integers. -/
def findFrom (ring : List RingElement) (hashValue : UInt32) (low high : ℤ) : Option ℕ :=
  let mid := (low + high) / 2
  if mid = ring.length then some 0
  else
    match readHash ring mid, if mid = 0 then some 0 else readHash ring (mid - 1) with
    | some middle, some prev =>
      if hashValue ≤ middle ∧ prev < hashValue then some mid.toNat
      else if middle < hashValue then
        if high < mid + 1 then some 0 else findFrom ring hashValue (mid + 1) high
      else if mid - 1 < low then some 0
      else findFrom ring hashValue low (mid - 1)
    | _, _ => none
termination_by (high + 1 - low).toNat
decreasing_by all_goals omega

/-- The search on unbounded integers, `none` when it would read outside of the ring. It is
what `find` computes as long as nothing overflows. -/
def find (ring : List RingElement) (hashValue : UInt32) : Option ℕ :=
  findFrom ring hashValue 0 ring.length

/-- The loop of `find`. `none` stands for undefined behaviour: an overflow of
`low + high`, or a read outside of the ring. -/
def findIntFrom (ring : List RingElement) (hashValue : UInt32) (size low high : ℤ) : Option ℕ :=
  if low + high < -2 ^ 31 ∨ 2 ^ 31 ≤ low + high then none
  else
    let mid := (low + high) / 2
    if mid = size then some 0
    else
      match readHash ring mid, if mid = 0 then some 0 else readHash ring (mid - 1) with
      | some middle, some prev =>
        if hashValue ≤ middle ∧ prev < hashValue then some mid.toNat
        else if middle < hashValue then
          -- `mid` is at most `2 ^ 30` here, so this sum and difference are in range
          if high < mid + 1 then some 0 else findIntFrom ring hashValue size (mid + 1) high
        else if mid - 1 < low then some 0
        else findIntFrom ring hashValue size low (mid - 1)
      | _, _ => none
termination_by (high + 1 - low).toNat
decreasing_by all_goals omega

/-- `find`. The length of the ring is converted to an `int`, modulo `2 ^ 32`. -/
def findInt (ring : List RingElement) (hashValue : UInt32) : Option ℕ :=
  let size := Int.bmod ring.length (2 ^ 32)
  findIntFrom ring hashValue size 0 size

/-- `get`. A shard that is not in the map is created with a node that no
constructor has set. -/
def get (env : RingEnv) (hashring : Hashring) (key : Bytes) : Option Node :=
  ((findInt hashring.ring (hashValue env key)).bind fun i =>
    hashring.ring[i]?).bind fun element => hashring.nodes.lookup element.shard

-- ════════════════════════════════════════════════════════════════════════
-- The binary search
-- ════════════════════════════════════════════════════════════════════════

/-- The ring is sorted by hash. -/
def Sorted (ring : List RingElement) : Prop :=
  ring.Pairwise fun x y => x.hash.toNat ≤ y.hash.toNat

/-- The point of the ring that follows a hash. -/
abbrev Follows (ring : List RingElement) (hashValue : UInt32) (element : RingElement) : Prop :=
  CyclicSuccessor (fun x : RingElement => x.hash.toNat) ring hashValue.toNat element

theorem readHash_of_lt (ring : List RingElement) {i : ℤ} (h0 : 0 ≤ i) (hi : i < ring.length) :
    ∃ e, ring[i.toNat]? = some e ∧ readHash ring i = some e.hash := by
  have hlt : i.toNat < ring.length := by omega
  refine ⟨ring[i.toNat], List.getElem?_eq_getElem hlt, ?_⟩
  rw [readHash, if_neg (by omega), List.getElem?_eq_getElem hlt]
  rfl

theorem Sorted.le {ring : List RingElement} (h : Sorted ring) {i j : ℕ} {x y : RingElement}
    (hij : i ≤ j) (hi : ring[i]? = some x) (hj : ring[j]? = some y) :
    x.hash.toNat ≤ y.hash.toNat := by
  rcases Nat.lt_or_eq_of_le hij with hlt | rfl
  · obtain ⟨hi', rfl⟩ := List.getElem?_eq_some_iff.mp hi
    obtain ⟨hj', rfl⟩ := List.getElem?_eq_some_iff.mp hj
    exact List.pairwise_iff_getElem.mp h i j hi' hj' hlt
  · rw [hi, Option.some.injEq] at hj
    rw [hj]

/-- The invariant of the loop of `find`: the points before `low` are too small,
and the one at `high`, if there is one, is not. -/
structure Bracketed (ring : List RingElement) (hashValue : UInt32) (low high : ℤ) : Prop where
  low_nonneg : 0 ≤ low
  low_le : low ≤ ring.length
  below : ∀ i : ℕ, i < low → ∀ x ∈ ring[i]?, x.hash < hashValue
  high_end : high = ring.length ∨
    (high < ring.length ∧ ∀ x ∈ ring[high.toNat]?, hashValue ≤ x.hash)

/-- The hash before `mid`, `0` before the first point. -/
theorem readHash_prev (ring : List RingElement) {mid : ℤ} (h0 : 0 ≤ mid)
    (hmid : mid < ring.length) :
    ∃ prev : UInt32, (if mid = 0 then some 0 else readHash ring (mid - 1)) = some prev ∧
      (mid = 0 → prev.toNat = 0) ∧
      (mid ≠ 0 → ∃ x, ring[(mid - 1).toNat]? = some x ∧ x.hash = prev) := by
  by_cases hzero : mid = 0
  · exact ⟨0, if_pos hzero, fun _ => rfl, fun h => absurd hzero h⟩
  · obtain ⟨x, hx, hread⟩ : ∃ x, ring[(mid - 1).toNat]? = some x ∧
        readHash ring (mid - 1) = some x.hash := readHash_of_lt ring (by omega) (by omega)
    exact ⟨x.hash, by rw [if_neg hzero, hread], fun h => absurd h hzero, fun _ => ⟨x, hx, rfl⟩⟩

/-- The least index of a point that is not before the hash, `0` if there is none. -/
def successorIdx (ring : List RingElement) (hashValue : UInt32) : ℕ :=
  (ring.findIdx? fun x => hashValue ≤ x.hash).getD 0

theorem successorIdx_of_ahead {ring : List RingElement} {hashValue : UInt32} {i : ℕ}
    {e : RingElement} (hi : ring[i]? = some e) (hle : hashValue ≤ e.hash)
    (hbefore : ∀ j < i, ∀ x ∈ ring[j]?, x.hash < hashValue) : successorIdx ring hashValue = i := by
  obtain ⟨hlt, rfl⟩ := List.getElem?_eq_some_iff.mp hi
  have hfound : (ring.findIdx? fun x => decide (hashValue ≤ x.hash)) = some i := by
    rw [List.findIdx?_eq_some_iff_getElem]
    refine ⟨hlt, by simpa using hle, fun j hj => ?_⟩
    have := hbefore j hj ring[j] (List.getElem?_eq_getElem (by omega))
    simpa using this
  rw [successorIdx, hfound]
  rfl

theorem successorIdx_of_all {ring : List RingElement} {hashValue : UInt32}
    (hall : ∀ x ∈ ring, x.hash < hashValue) : successorIdx ring hashValue = 0 := by
  have hnone : (ring.findIdx? fun x => decide (hashValue ≤ x.hash)) = none := by
    rw [List.findIdx?_eq_none_iff]
    intro x hx
    simpa using hall x hx
  rw [successorIdx, hnone]
  rfl

/-- All points before `successorIdx` are before the hash. -/
theorem lt_of_lt_successorIdx {ring : List RingElement} {hashValue : UInt32} {j : ℕ}
    {x : RingElement} (hj : j < successorIdx ring hashValue) (hx : ring[j]? = some x) :
    x.hash < hashValue := by
  rw [successorIdx] at hj
  cases hidx : ring.findIdx? fun x => decide (hashValue ≤ x.hash) with
  | none =>
    rw [hidx] at hj
    exact absurd hj (Nat.not_lt_zero j)
  | some i =>
    rw [hidx] at hj
    obtain ⟨hlt, -, hbefore⟩ := List.findIdx?_eq_some_iff_getElem.mp hidx
    obtain ⟨hj', rfl⟩ := List.getElem?_eq_some_iff.mp hx
    have := hbefore j hj
    simpa using this

/-- The point at `successorIdx` is not before the hash, unless it is the first one. -/
theorem le_of_successorIdx_pos {ring : List RingElement} {hashValue : UInt32} {x : RingElement}
    (hpos : 0 < successorIdx ring hashValue) (hx : ring[successorIdx ring hashValue]? = some x) :
    hashValue ≤ x.hash := by
  rw [successorIdx] at hpos hx
  cases hidx : ring.findIdx? fun x => decide (hashValue ≤ x.hash) with
  | none =>
    rw [hidx] at hpos
    exact absurd hpos (Nat.lt_irrefl 0)
  | some i =>
    rw [hidx, Option.getD_some] at hx
    obtain ⟨hlt, hle, -⟩ := List.findIdx?_eq_some_iff_getElem.mp hidx
    rw [List.getElem?_eq_getElem hlt, Option.some.injEq] at hx
    rw [← hx]
    simpa using hle

/-- The point at `successorIdx` follows the hash. -/
theorem follows_successorIdx {ring : List RingElement} (hsorted : Sorted ring) (hne : ring ≠ [])
    (hashValue : UInt32) :
    ∃ e, ring[successorIdx ring hashValue]? = some e ∧ Follows ring hashValue e := by
  rw [successorIdx]
  cases hidx : ring.findIdx? fun x => decide (hashValue ≤ x.hash) with
  | none =>
    have hpos : 0 < ring.length := List.length_pos_iff.mpr hne
    have hfirst : ring[0]? = some ring[0] := List.getElem?_eq_getElem hpos
    refine ⟨ring[0], hfirst, .of_sorted_first hsorted hfirst (.inl fun x hx => ?_)⟩
    have := List.findIdx?_eq_none_iff.mp hidx x hx
    simpa [UInt32.lt_iff_toNat_lt] using this
  | some i =>
    obtain ⟨hlt, hle, hbefore⟩ := List.findIdx?_eq_some_iff_getElem.mp hidx
    have hi : ring[i]? = some ring[i] := List.getElem?_eq_getElem hlt
    refine ⟨ring[i], hi, .of_sorted_ahead hsorted hi ?_ fun j hj x hx => ?_⟩
    · simpa [UInt32.le_iff_toNat_le] using hle
    · obtain ⟨hj', rfl⟩ := List.getElem?_eq_some_iff.mp hx
      have := hbefore j hj
      simpa [UInt32.lt_iff_toNat_lt] using this

/-- A point that is too small moves `low` behind it. -/
theorem Bracketed.raise {ring : List RingElement} (hsorted : Sorted ring) {hashValue : UInt32}
    {low high mid : ℤ} {middle : RingElement} (h : Bracketed ring hashValue low high)
    (hlow : low ≤ mid) (hmiddle : ring[mid.toNat]? = some middle)
    (hsmall : middle.hash < hashValue) : Bracketed ring hashValue (mid + 1) high := by
  have hlowNonneg := h.low_nonneg
  have hlt : mid.toNat < ring.length := (List.getElem?_eq_some_iff.mp hmiddle).1
  refine ⟨by omega, by omega, fun i hi x hx => ?_, h.high_end⟩
  have hxm := hsorted.le (by omega : i ≤ mid.toNat) hx hmiddle
  rw [UInt32.lt_iff_toNat_lt] at hsmall ⊢
  omega

/-- A point that is not too small becomes the one at `high`. -/
theorem Bracketed.lower {ring : List RingElement} {hashValue : UInt32} {low high mid : ℤ}
    {point : RingElement} (h : Bracketed ring hashValue low high) (hlt : mid < ring.length)
    (hpoint : ring[mid.toNat]? = some point) (hle : hashValue ≤ point.hash) :
    Bracketed ring hashValue low mid := by
  refine ⟨h.low_nonneg, h.low_le, h.below, .inr ⟨hlt, fun x hx => ?_⟩⟩
  rw [hpoint] at hx
  cases hx
  exact hle

/-- On a sorted ring the loop stops at the next point, and reads nothing outside of the ring. -/
theorem findFrom_sorted {ring : List RingElement} (hsorted : Sorted ring) {hashValue : UInt32}
    {low high : ℤ} (hinv : Bracketed ring hashValue low high) (hle : low ≤ high) :
    findFrom ring hashValue low high = some (successorIdx ring hashValue) := by
  obtain ⟨n, hn⟩ : ∃ n, (high + 1 - low).toNat = n := ⟨_, rfl⟩
  induction n using Nat.strong_induction_on generalizing low high with
  | h n ih =>
  have hlow := hinv.low_nonneg
  have hbelow := hinv.below
  have hend := hinv.high_end
  have hhigh : high ≤ ring.length := by
    rcases hend with h | h <;> omega
  rw [findFrom]
  obtain ⟨mid, hmidDef⟩ : ∃ mid, (low + high) / 2 = mid := ⟨_, rfl⟩
  have hmid : low ≤ mid ∧ mid ≤ high := by omega
  simp only [hmidDef]
  by_cases hsize : mid = ring.length
  · -- `low` has reached the end of the ring
    rw [if_pos hsize, successorIdx_of_all fun x hx => ?_]
    obtain ⟨j, hj⟩ := List.mem_iff_getElem?.mp hx
    have hjlt : j < ring.length := (List.getElem?_eq_some_iff.mp hj).1
    exact hbelow j (by omega) x hj
  rw [if_neg hsize]
  have hmid0 : 0 ≤ mid := by omega
  have hmidLt : mid < ring.length := by omega
  obtain ⟨middle, hmiddle, hread⟩ := readHash_of_lt ring hmid0 hmidLt
  obtain ⟨prev, hprevRead, hprevZero, hprev⟩ := readHash_prev ring hmid0 hmidLt
  simp only [hread, hprevRead, UInt32.le_iff_toNat_le, UInt32.lt_iff_toNat_lt]
  split
  · rename_i hfound
    rw [successorIdx_of_ahead hmiddle (UInt32.le_iff_toNat_le.mpr hfound.1)]
    intro j hj x hx
    obtain ⟨y, hy, rfl⟩ := hprev (by omega)
    have hxy := hsorted.le (by omega : j ≤ (mid - 1).toNat) hx hy
    rw [UInt32.lt_iff_toNat_lt]
    omega
  · rename_i hnot
    split
    · rename_i hsmall
      split
      · -- the point at `high` is not too small, so `mid` was below it
        rename_i hover
        have hmidHigh : mid = high := by omega
        rcases hend with h | ⟨-, h⟩
        · omega
        · have hm := h middle (by rw [← hmidHigh]; exact hmiddle)
          rw [UInt32.le_iff_toNat_le] at hm
          omega
      · have hraised := hinv.raise hsorted hmid.1 hmiddle (UInt32.lt_iff_toNat_lt.mpr hsmall)
        exact ih _ (by omega) hraised (by omega) rfl
    · rename_i hlarge
      have hprevLe : hashValue.toNat ≤ prev.toNat := by omega
      split
      · -- no point before `mid` is left, and `mid` is the first one
        rename_i hover
        by_cases hzero : mid = 0
        · subst hzero
          rw [successorIdx_of_ahead hmiddle (UInt32.le_iff_toNat_le.mpr (by omega))]
          · rfl
          · intro j hj
            omega
        · obtain ⟨y, hy, rfl⟩ := hprev hzero
          have hy' := hbelow (mid - 1).toNat (by omega) y hy
          rw [UInt32.lt_iff_toNat_lt] at hy'
          omega
      · obtain ⟨y, hy, rfl⟩ := hprev (by omega)
        have hlowered := hinv.lower (by omega) hy (UInt32.le_iff_toNat_le.mpr hprevLe)
        exact ih _ (by omega) hlowered (by omega) rfl

/-- **The unbounded search is successor lookup** on every sorted ring. -/
theorem find_sorted {ring : List RingElement} (hsorted : Sorted ring) (hashValue : UInt32) :
    find ring hashValue = some (successorIdx ring hashValue) := by
  apply findFrom_sorted hsorted _ (by omega)
  refine ⟨le_rfl, by omega, fun i hi => ?_, .inl rfl⟩
  omega

end Hashring

end Statsdcc
