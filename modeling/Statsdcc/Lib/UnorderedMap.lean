import Mathlib

/-!
# Finite maps with C++ subscript semantics

`UnorderedMap κ ν` is Mathlib's association list with distinct keys. The order
of its entries stands for the enumeration order of a hash map, which no result
may rely on: two maps are compared through `lookup`.

## Main definitions

- `UnorderedMap.modify` — `m[k] = f(m[k])`, creating the entry when it is absent
- `UnorderedMap.insertEach` — a loop that writes one entry per entry of a map
- `UnorderedMap.gather` — a loop that appends to entries
-/

/-- A finite map from `κ` to `ν`. -/
abbrev UnorderedMap (κ ν : Type*) := AList (fun _ : κ => ν)

namespace UnorderedMap

variable {κ ν μ : Type*} [DecidableEq κ]

/-- `m[k] = f(m[k])`: an absent entry is created with the value `d` first. -/
def modify (m : UnorderedMap κ ν) (k : κ) (d : ν) (f : ν → ν) : UnorderedMap κ ν :=
  m.insert k (f ((m.lookup k).getD d))

@[simp] theorem lookup_modify_self (m : UnorderedMap κ ν) (k : κ) (d : ν) (f : ν → ν) :
    (m.modify k d f).lookup k = some (f ((m.lookup k).getD d)) :=
  AList.lookup_insert m

@[simp] theorem lookup_modify_ne (m : UnorderedMap κ ν) {k k' : κ} (h : k' ≠ k) (d : ν)
    (f : ν → ν) : (m.modify k d f).lookup k' = m.lookup k' :=
  AList.lookup_insert_ne h

@[simp] theorem mem_modify (m : UnorderedMap κ ν) (k k' : κ) (d : ν) (f : ν → ν) :
    k' ∈ m.modify k d f ↔ k' = k ∨ k' ∈ m :=
  AList.mem_insert m

/-- Two updates of one entry give the same map if they give the same value. -/
theorem modify_eq_iff (m : UnorderedMap κ ν) (k : κ) (d : ν) (f g : ν → ν) :
    m.modify k d f = m.modify k d g ↔ f ((m.lookup k).getD d) = g ((m.lookup k).getD d) := by
  constructor
  · intro h
    have hlookup := congrArg (AList.lookup k) h
    rwa [lookup_modify_self, lookup_modify_self, Option.some.injEq] at hlookup
  · intro h
    rw [modify, modify, h]

/-- An update without fixed points changes the map. -/
theorem modify_ne (m : UnorderedMap κ ν) (k : κ) (d : ν) {f : ν → ν} (hf : ∀ x, f x ≠ x) :
    m.modify k d f ≠ m := by
  intro h
  have hlookup := congrArg (AList.lookup k) h
  rw [lookup_modify_self] at hlookup
  rw [← hlookup] at hlookup
  exact hf _ (Option.some.inj hlookup)

theorem mem_of_lookup {m : UnorderedMap κ ν} {k : κ} {v : ν} (h : m.lookup k = some v) : k ∈ m :=
  AList.lookup_isSome.mp (Option.isSome_iff_exists.mpr ⟨v, h⟩)

theorem exists_lookup {m : UnorderedMap κ ν} {k : κ} (h : k ∈ m) : ∃ v, m.lookup k = some v :=
  Option.isSome_iff_exists.mp (AList.lookup_isSome.mpr h)

/-- For each entry `(k, v)` of `m`, write `g k v` under `k` into `acc`. -/
def insertEach (acc : UnorderedMap κ μ) (m : UnorderedMap κ ν) (g : κ → ν → μ) :
    UnorderedMap κ μ :=
  m.entries.foldl (fun acc e => acc.insert e.1 (g e.1 e.2)) acc

private theorem lookup_foldl_insert (g : κ → ν → μ) (k : κ) :
    ∀ (es : List (Σ _ : κ, ν)) (acc : UnorderedMap κ μ), es.NodupKeys →
      (es.foldl (fun acc e => acc.insert e.1 (g e.1 e.2)) acc).lookup k =
        ((es.dlookup k).map (g k)).or (acc.lookup k)
  | [], acc, _ => by simp
  | ⟨a, v⟩ :: es, acc, h => by
    rw [List.nodupKeys_cons] at h
    rw [List.foldl_cons, lookup_foldl_insert g k es _ h.2]
    by_cases hk : k = a
    · subst hk
      have hnone : es.dlookup k = none := List.dlookup_eq_none.mpr h.1
      simp [hnone]
    · rw [List.dlookup_cons_ne _ _ (fun h' => hk h'), AList.lookup_insert_ne hk]

/-- Each entry of `m` is written; every other entry of `acc` stays. -/
theorem lookup_insertEach (acc : UnorderedMap κ μ) (m : UnorderedMap κ ν) (g : κ → ν → μ)
    (k : κ) : (insertEach acc m g).lookup k = ((m.lookup k).map (g k)).or (acc.lookup k) :=
  lookup_foldl_insert g k m.entries acc m.nodupKeys

theorem mem_insertEach (acc : UnorderedMap κ μ) (m : UnorderedMap κ ν) (g : κ → ν → μ) (k : κ) :
    k ∈ insertEach acc m g ↔ k ∈ m ∨ k ∈ acc := by
  rw [← AList.lookup_isSome, ← AList.lookup_isSome, ← AList.lookup_isSome, lookup_insertEach]
  cases m.lookup k <;> simp

/-- A loop over the entries whose results depend on the keys only. -/
theorem map_entries {β : Type*} (m : UnorderedMap κ ν) {f : (Σ _ : κ, ν) → β}
    {g : κ → β} (h : ∀ k v, m.lookup k = some v → f ⟨k, v⟩ = g k) :
    m.entries.map f = m.keys.map g := by
  rw [AList.keys, List.keys, List.map_map]
  refine List.map_congr_left fun e he => ?_
  exact h e.1 e.2 (AList.mem_lookup_iff.mpr he)

/-- A loop over entries that may throw, and does not. -/
theorem mapM_eq_some_map {α β : Type*} {f : α → Option β} {g : α → β} {es : List α}
    (h : ∀ e ∈ es, f e = some (g e)) : es.mapM f = some (es.map g) := by
  induction es with
  | nil => rfl
  | cons e es ih =>
    rw [List.mapM_cons, h e (by simp), ih fun e' he' => h e' (by simp [he'])]
    rfl

/-- For each pair `(k, xs)`, append `xs` to the entry under `k`. -/
def gather {α : Type*} (rs : List (κ × List α)) : UnorderedMap κ (List α) :=
  rs.foldl (fun m r => m.modify r.1 [] (· ++ r.2)) ∅

/-- The entry under `k` is what was appended under `k`, in order. -/
theorem lookup_gather {α : Type*} (rs : List (κ × List α)) (k : κ) :
    (gather rs).lookup k =
      if rs.filter (fun r => r.1 = k) = [] then none
      else some ((rs.filter fun r => r.1 = k).flatMap Prod.snd) := by
  induction rs using List.reverseRecOn with
  | nil => rfl
  | append_singleton rs r ih =>
    rw [gather, List.foldl_concat]
    show ((gather rs).modify r.1 [] (· ++ r.2)).lookup k = _
    by_cases hk : r.1 = k
    · have hfilter :
          (rs ++ [r]).filter (fun r => r.1 = k) = rs.filter (fun r => r.1 = k) ++ [r] := by
        simp [hk]
      rw [hfilter, if_neg (by simp), hk, lookup_modify_self, ih]
      split
      · rename_i hnil
        simp [hnil]
      · simp
    · have hfilter : (rs ++ [r]).filter (fun r => r.1 = k) = rs.filter fun r => r.1 = k := by
        simp [hk]
      rw [hfilter, lookup_modify_ne _ (Ne.symm hk), ih]

/-- Changing one entry changes a sum over all. -/
theorem sum_modify {M : Type*} [AddCommMonoid M] (m : UnorderedMap κ ν) (k : κ) (d : ν)
    (f : ν → ν) (g : κ → ν → M) {y : M}
    (hy : g k (f ((m.lookup k).getD d)) = (m.lookup k).elim 0 (g k) + y) :
    ((m.modify k d f).entries.map fun e => g e.1 e.2).sum =
      (m.entries.map fun e => g e.1 e.2).sum + y := by
  rw [modify, AList.entries_insert, List.map_cons, List.sum_cons, hy]
  by_cases hk : k ∈ m
  · obtain ⟨x, front, back, -, hentries, herase⟩ := List.exists_of_kerase hk
    have hx : m.lookup k = some x :=
      AList.mem_lookup_iff.mpr (by rw [hentries]; exact List.mem_append_right _ (.head _))
    rw [herase, hentries, hx]
    simp only [Option.elim_some, List.map_append, List.map_cons, List.sum_append, List.sum_cons]
    abel
  · rw [List.kerase_of_notMem_keys hk, AList.lookup_eq_none.mpr hk, Option.elim_none, zero_add,
      add_comm]

/-- Adding to one entry adds to the sum of all. -/
theorem sum_modify_add {M : Type*} [AddCommMonoid M] (m : UnorderedMap κ M) (k : κ) (y : M) :
    ((m.modify k 0 (· + y)).entries.map Sigma.snd).sum = (m.entries.map Sigma.snd).sum + y := by
  refine sum_modify m k 0 (· + y) (fun _ x => x) ?_
  cases m.lookup k <;> rfl

end UnorderedMap
