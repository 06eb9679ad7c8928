import Mathlib
import Statsdcc.Hashring
import Statsdcc.Lib.Printed

/-!
# The labels of virtual nodes

`generate_continuum` hashes one text for every virtual node: its shard, a hyphen and
its index. The index tells the texts apart as long as the buffer has room for it.

## Main definitions

- `Hashring.wholeLabel` — the text before it is cut to the size of the buffer
- `Hashring.labels` — the texts that the points of a ring are hashed from

## Main results

- `Hashring.label_unique_iff` — a virtual node has its label for itself exactly when
  the label fits the buffer with room to spare
- `Hashring.nodup_labels` — if all labels of a ring do, no two of them are equal
- `Hashring.hashes_of_length_le` — so the points of a ring with short shards have the
  hashes of different texts
- `Hashring.shardHashes_of_long` — the virtual nodes of a long shard fall on four hashes
-/

open Bytes

namespace Statsdcc

namespace Hashring

-- ════════════════════════════════════════════════════════════════════════
-- Labels before and behind the cut
-- ════════════════════════════════════════════════════════════════════════

/-- The label of a virtual node, uncut. -/
def wholeLabel (shard : Bytes) (i : ℕ) : Bytes := shard ++ minus :: natText i

theorem nul_notMem_wholeLabel {s : Bytes} (hs : nul ∉ s) (i : ℕ) : nul ∉ wholeLabel s i := by
  have hnat : nul ∉ natText i := notMem_natText (by decide) i
  rw [wholeLabel, List.mem_append, List.mem_cons, not_or, not_or]
  exact ⟨hs, by decide, hnat⟩

/-- The last hyphen of a label is the one before the index, whatever the shard contains. -/
theorem wholeLabel_inj {s t : Bytes} {i j : ℕ} (h : wholeLabel s i = wholeLabel t j) :
    s = t ∧ i = j := by
  have hnat : ∀ n, minus ∉ natText n := notMem_natText (by decide)
  obtain ⟨hshard, hindex⟩ := append_cons_inj_right (hnat i) (hnat j) h
  exact ⟨hshard, natText_injective hindex⟩

theorem label_eq_take {s : Bytes} (hs : nul ∉ s) (i : ℕ) :
    label s i = (wholeLabel s i).take 1023 := by
  have hminus : ascii "-" = [minus] := by decide
  rw [label, wholeLabel, cStr_eq_self hs, hminus, List.append_assoc, List.singleton_append]

/-- The buffer has no room for anything behind a long shard. -/
theorem label_of_long {s : Bytes} (hs : nul ∉ s) (hlong : 1023 ≤ s.length) (i : ℕ) :
    label s i = s.take 1023 := by
  rw [label_eq_take hs, wholeLabel, List.take_append_of_le_length hlong]

/-- A label that leaves room in the buffer is not cut, and no other label is cut to it. -/
theorem eq_of_label_eq {s t : Bytes} {i j : ℕ} (hs : nul ∉ s) (ht : nul ∉ t)
    (hfits : (wholeLabel s i).length < 1023) (h : label t j = label s i) : t = s ∧ j = i := by
  rw [label_eq_take hs, label_eq_take ht, List.take_of_length_le hfits.le] at h
  have hlength := congrArg List.length h
  rw [List.length_take] at hlength
  have hfits' : (wholeLabel t j).length ≤ 1023 := by omega
  rw [List.take_of_length_le hfits'] at h
  exact wholeLabel_inj h

/-- A label that fills the buffer is the name of a shard whose virtual nodes all have it. -/
theorem exists_shard_of_full {s : Bytes} {i : ℕ} (hs : nul ∉ s)
    (hfull : 1023 ≤ (wholeLabel s i).length) :
    ∃ t, nul ∉ t ∧ ∀ j, label t j = label s i := by
  have hnul : nul ∉ (wholeLabel s i).take 1023 := fun hmem =>
    nul_notMem_wholeLabel hs i (List.mem_of_mem_take hmem)
  have hlength : ((wholeLabel s i).take 1023).length = 1023 := by
    rw [List.length_take, min_eq_left hfull]
  refine ⟨(wholeLabel s i).take 1023, hnul, fun j => ?_⟩
  rw [label_of_long hnul hlength.ge, List.take_take, min_self, label_eq_take hs]

/-- **A virtual node has its label for itself** exactly when the label does not fill
the buffer. -/
theorem label_unique_iff {s : Bytes} (hs : nul ∉ s) (i : ℕ) :
    (∀ t j, nul ∉ t → label t j = label s i → t = s ∧ j = i) ↔
      (wholeLabel s i).length < 1023 := by
  constructor
  · intro hunique
    by_contra hfull
    obtain ⟨t, ht, hlabel⟩ := exists_shard_of_full hs (Nat.le_of_not_lt hfull)
    have hindex := (hunique t (i + 1) ht (hlabel (i + 1))).2
    omega
  · intro hfits t j ht h
    exact eq_of_label_eq hs ht hfits h

theorem label_unique_iff_short :
    (∀ t j, nul ∉ t → label t j = label (ascii "a") 0 → t = ascii "a" ∧ j = 0) ↔
      (wholeLabel (ascii "a") 0).length < 1023 :=
  label_unique_iff (by decide) 0

/-- Two virtual nodes of a shard whose name fills the buffer have one label. -/
theorem not_label_injective :
    ¬∀ (s t : Bytes) (i j : ℕ), nul ∉ s → nul ∉ t → label s i = label t j → s = t ∧ i = j := by
  intro h
  have hnul : nul ∉ List.replicate 1023 (97 : Byte) := by
    intro hmem
    exact absurd (List.eq_of_mem_replicate hmem) (by decide)
  have hlong : 1023 ≤ (List.replicate 1023 (97 : Byte)).length := List.length_replicate.ge
  have hsame : label (List.replicate 1023 97) 0 = label (List.replicate 1023 97) 1 := by
    rw [label_of_long hnul hlong, label_of_long hnul hlong]
  exact absurd (h _ _ 0 1 hnul hnul hsame).2 (by decide)

-- ════════════════════════════════════════════════════════════════════════
-- The labels of a ring
-- ════════════════════════════════════════════════════════════════════════

/-- The hashes of the points of one virtual node. -/
def labelHashes (env : RingEnv) (text : Bytes) : List UInt32 :=
  let digest := env.md4 text
  (List.range replicas).map fun j =>
    hash (digest (Fin.ofNat 16 (3 + j * 4))) (digest (Fin.ofNat 16 (2 + j * 4)))
      (digest (Fin.ofNat 16 (1 + j * 4))) (digest (Fin.ofNat 16 (j * 4)))

/-- The texts that the points of one shard are hashed from. -/
def shardLabels (shard : Bytes) (length : ℤ) : List Bytes :=
  (List.range length.toNat).map (label shard)

/-- The texts that the points of a ring are hashed from. -/
def labels (R : Type) [CDouble R] (nodes : UnorderedMap Bytes Node) : List Bytes :=
  nodes.entries.flatMap fun entry => shardLabels entry.1 (length R nodes entry.2)

/-- No shard has a NUL, and no label of the ring fills the buffer. -/
def LabelsFit (R : Type) [CDouble R] (nodes : UnorderedMap Bytes Node) : Prop :=
  ∀ entry ∈ nodes.entries, nul ∉ entry.1 ∧
    ∀ i < (length R nodes entry.2).toNat, (wholeLabel entry.1 i).length < 1023

theorem map_hash_shardPoints (env : RingEnv) (shard : Bytes) (n : ℤ) :
    (shardPoints env shard n).map RingElement.hash =
      (shardLabels shard n).flatMap (labelHashes env) := by
  rw [shardPoints, shardLabels, List.map_flatMap, List.flatMap_map]
  refine List.flatMap_congr fun i _ => ?_
  rw [List.map_map]
  rfl

section

variable {R : Type} [CDouble R] {env : RingEnv} {nodes : UnorderedMap Bytes Node}

/-- A ring has the hashes of its labels. -/
theorem map_hash_points :
    (points R env nodes).map RingElement.hash = (labels R nodes).flatMap (labelHashes env) := by
  rw [points, labels, List.map_flatMap, List.flatMap_assoc]
  exact List.flatMap_congr fun entry _ => map_hash_shardPoints env entry.1 _

/-- No two virtual nodes of a ring are hashed from the same text if no label fills
the buffer. -/
theorem nodup_labels (hfit : LabelsFit R nodes) : (labels R nodes).Nodup := by
  rw [labels, List.nodup_flatMap]
  constructor
  · intro entry hentry
    obtain ⟨hnul, hlength⟩ := hfit entry hentry
    refine List.Nodup.map_on (fun i hi j _ h => ?_) List.nodup_range
    exact (eq_of_label_eq hnul hnul (hlength i (List.mem_range.mp hi)) h.symm).2.symm
  · have hkeys : nodes.entries.Pairwise fun x y => x.1 ≠ y.1 :=
      List.pairwise_map.mp nodes.keys_nodup
    refine hkeys.imp_of_mem fun {x y} hx hy hne text hxtext hytext => ?_
    obtain ⟨i, hi, rfl⟩ := List.mem_map.mp hxtext
    obtain ⟨j, -, h⟩ := List.mem_map.mp hytext
    obtain ⟨hnul, hlength⟩ := hfit x hx
    exact hne (eq_of_label_eq hnul (hfit y hy).1 (hlength i (List.mem_range.mp hi)) h).1.symm

/-- Shards of up to 1011 characters leave room for every index of type `int`. -/
theorem labelsFit_of_length_le
    (hshard : ∀ entry ∈ nodes.entries, nul ∉ entry.1 ∧ entry.1.length ≤ 1011)
    (hint : ∀ entry ∈ nodes.entries, length R nodes entry.2 < 2 ^ 31) : LabelsFit R nodes := by
  intro entry hentry
  refine ⟨(hshard entry hentry).1, fun i hi => ?_⟩
  have hindex : i < 10 ^ 10 := by
    have hlt := hint entry hentry
    omega
  have hdigits : (natText i).length ≤ 10 := by
    rw [natText, Digits.text, List.length_map]
    exact length_natDigits_le (by decide) hindex
  have hname := (hshard entry hentry).2
  rw [wholeLabel, List.length_append, List.length_cons]
  omega

/-- The points of a ring with such shards have the hashes of texts that are all
different. -/
theorem hashes_of_length_le (env : RingEnv)
    (hshard : ∀ entry ∈ nodes.entries, nul ∉ entry.1 ∧ entry.1.length ≤ 1011)
    (hint : ∀ entry ∈ nodes.entries, length R nodes entry.2 < 2 ^ 31) :
    ∃ texts : List Bytes, texts.Nodup ∧
      (points R env nodes).map RingElement.hash = texts.flatMap (labelHashes env) :=
  ⟨labels R nodes, nodup_labels (labelsFit_of_length_le hshard hint), map_hash_points⟩

end

/-- The virtual nodes of a long shard have the four hashes of its first 1023 characters. -/
theorem shardHashes_of_long (env : RingEnv) {shard : Bytes} (hnul : nul ∉ shard)
    (hlong : 1023 ≤ shard.length) (n : ℤ) :
    (shardPoints env shard n).map RingElement.hash =
      (List.replicate n.toNat (labelHashes env (shard.take 1023))).flatten := by
  have hlabels : shardLabels shard n = List.replicate n.toNat (shard.take 1023) := by
    rw [shardLabels, List.map_congr_left fun i _ => label_of_long hnul hlong i, List.map_const',
      List.length_range]
  rw [map_hash_shardPoints, hlabels, List.flatMap_replicate]

end Hashring

end Statsdcc
