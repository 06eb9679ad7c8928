import Mathlib
import Statsdcc.Config.Load
import Statsdcc.Lib.Printed
import Statsdcc.Lib.Transition

/-!
# The shards of the configuration

The entries of `carbon` are stored in a map under their shards. An entry without a
shard takes the number of its place in the list, which another entry may have been
given as its name.

## Main definitions

- `Backends.HasCarbon` — the list of carbon entries of a document
- `Backends.shardOf` — the shard that an entry is given
- `Backends.StoresEach` — one node for each entry, under its shard

## Main results

- `Backends.lookup_storeAll`, `Backends.mem_storeAll` — what a loop over shards stores
- `LoadedConfig.storesEach_iff` — when no entry is lost
-/

open Bytes JsonValue

namespace Statsdcc

namespace Backends

/-- The shard that an entry is given, if it is given one. -/
def shardOf {V : Type} [JsonMembers V] (entry : V) : Option Bytes :=
  (JsonMembers.member entry (ascii "shard")).join.bind asString

/-- The shards and nodes of the entries, in order. -/
def shards {V : Type} [JsonValue V] (cs : V) : Option (List (Bytes × Node)) :=
  (values cs).zipIdx.mapM fun entry => carbonShard entry.1 entry.2

/-- The loop `backends.carbon[shard] = node`. -/
def storeAll (carbon : UnorderedMap Bytes Node) (shards : List (Bytes × Node)) :
    UnorderedMap Bytes Node :=
  shards.foldl (fun carbon shard => carbon.insert shard.1 shard.2) carbon

/-- The document has this list of carbon entries. -/
def HasCarbon {V : Type} [JsonValue V] (json cs : V) : Prop :=
  ∃ backends names, subscript json (ascii "backends") = some backends ∧
    getMemberNames backends = some names ∧ ascii "carbon" ∈ names ∧
    subscript backends (ascii "carbon") = some cs

/-- The map has one node for each entry, which is found under the shard of the entry. -/
def StoresEach (carbon : UnorderedMap Bytes Node) (shards : List (Bytes × Node)) : Prop :=
  carbon.entries.length = shards.length ∧
    ∀ shard ∈ shards, carbon.lookup shard.1 = some shard.2

-- ════════════════════════════════════════════════════════════════════════
-- Storing shards
-- ════════════════════════════════════════════════════════════════════════

theorem mem_storeAll {carbon : UnorderedMap Bytes Node} {shards : List (Bytes × Node)}
    {k : Bytes} : k ∈ storeAll carbon shards ↔ k ∈ shards.map Prod.fst ∨ k ∈ carbon := by
  induction shards generalizing carbon with
  | nil => simp [storeAll]
  | cons shard shards ih =>
    rw [storeAll, List.foldl_cons, ← storeAll, ih, AList.mem_insert, List.map_cons, List.mem_cons,
      or_left_comm, or_assoc]

/-- A shard that is not in the list keeps its node. -/
theorem lookup_storeAll_of_notMem {carbon : UnorderedMap Bytes Node}
    {shards : List (Bytes × Node)} {k : Bytes} (h : k ∉ shards.map Prod.fst) :
    (storeAll carbon shards).lookup k = carbon.lookup k := by
  induction shards generalizing carbon with
  | nil => rfl
  | cons shard shards ih =>
    rw [List.map_cons, List.mem_cons, not_or] at h
    rw [storeAll, List.foldl_cons, ← storeAll, ih h.2, AList.lookup_insert_ne h.1]

/-- Different shards are all found. -/
theorem lookup_storeAll {carbon : UnorderedMap Bytes Node} {shards : List (Bytes × Node)}
    (h : (shards.map Prod.fst).Nodup) {shard : Bytes × Node} (hmem : shard ∈ shards) :
    (storeAll carbon shards).lookup shard.1 = some shard.2 := by
  induction shards generalizing carbon with
  | nil => cases hmem
  | cons first shards ih =>
    rw [List.map_cons, List.nodup_cons] at h
    rw [storeAll, List.foldl_cons, ← storeAll]
    rcases List.mem_cons.mp hmem with rfl | hmem
    · rw [lookup_storeAll_of_notMem h.1, AList.lookup_insert]
    · exact ih h.2 hmem

/-- A map that holds just the shards of the list has one node for each entry when the
shards are different. -/
theorem storesEach_iff_nodup {carbon : UnorderedMap Bytes Node} {shards : List (Bytes × Node)}
    (hkeys : ∀ k, k ∈ carbon ↔ k ∈ shards.map Prod.fst)
    (hfound : (shards.map Prod.fst).Nodup → ∀ shard ∈ shards,
      carbon.lookup shard.1 = some shard.2) :
    StoresEach carbon shards ↔ (shards.map Prod.fst).Nodup := by
  have hset : carbon.keys.toFinset = (shards.map Prod.fst).toFinset := by
    ext k
    rw [List.mem_toFinset, List.mem_toFinset]
    exact hkeys k
  have hlength : carbon.entries.length = (shards.map Prod.fst).toFinset.card := by
    rw [← hset, List.toFinset_card_of_nodup carbon.keys_nodup, AList.keys, List.keys,
      List.length_map]
  constructor
  · rintro ⟨hcount, -⟩
    rw [hlength, ← List.length_map (f := Prod.fst)] at hcount
    exact Multiset.toFinset_card_eq_card_iff_nodup.mp hcount
  · intro hnodup
    refine ⟨?_, hfound hnodup⟩
    rw [hlength, List.toFinset_card_of_nodup hnodup, List.length_map]

-- ════════════════════════════════════════════════════════════════════════
-- The loop over the backends
-- ════════════════════════════════════════════════════════════════════════

section Constructor

variable {V : Type}

/-- The loop over the entries reads them and stores what it has read. -/
theorem foldlM_carbonShard [JsonValue V] (entries : List (V × ℕ))
    (carbon : UnorderedMap Bytes Node) :
    (entries.foldlM (fun carbon entry => do
        let (shard, node) ← carbonShard entry.1 entry.2
        return carbon.insert shard node) carbon) =
      (entries.mapM fun entry => carbonShard entry.1 entry.2).map (storeAll carbon) := by
  induction entries generalizing carbon with
  | nil => rfl
  | cons entry entries ih =>
    rw [List.foldlM_cons, List.mapM_cons]
    cases carbonShard entry.1 entry.2 with
    | none => rfl
    | some shard =>
      refine (ih (carbon.insert shard.1 shard.2)).trans ?_
      cases entries.mapM fun entry => carbonShard entry.1 entry.2 <;> rfl

/-- What the map holds while the names of the backends are gone through. -/
structure Holds (shards : List (Bytes × Node)) (backends : Backends) : Prop where
  keys : ∀ k, k ∈ backends.carbon ↔ k ∈ shards.map Prod.fst
  found : (shards.map Prod.fst).Nodup → ∀ shard ∈ shards,
    backends.carbon.lookup shard.1 = some shard.2

/-- One name leaves the map alone, or stores the shards. -/
theorem read_spec [JsonValue V] {json cs : V} (hcs : ∃ bs, subscript json (ascii "backends") =
      some bs ∧ subscript bs (ascii "carbon") = some cs) {backends backends' : Backends}
    {name : Bytes} (h : Backends.read json backends name = some backends') :
    (name ≠ ascii "carbon" ∧ backends'.carbon = backends.carbon) ∨
      (name = ascii "carbon" ∧ ∃ shards, Backends.shards cs = some shards ∧
        backends'.carbon = storeAll backends.carbon shards) := by
  obtain ⟨bs, hbs, hcarbon⟩ := hcs
  by_cases hname : name = ascii "carbon"
  · refine .inr ⟨hname, ?_⟩
    simp only [Backends.read, if_pos hname, hbs, hcarbon, Option.bind_eq_bind, Option.bind_some]
      at h
    obtain ⟨carbon, hfold, heq⟩ := Option.bind_eq_some_iff.mp h
    obtain ⟨shards, hshards, rfl⟩ :=
      Option.map_eq_some_iff.mp ((foldlM_carbonShard _ _).symm.trans hfold)
    cases heq
    exact ⟨shards, hshards, rfl⟩
  · refine .inl ⟨hname, ?_⟩
    simp only [Backends.read, if_neg hname] at h
    split_ifs at h
    · simp only [Option.bind_eq_bind, Option.bind_eq_some_iff] at h
      obtain ⟨_, -, _, -, _, -, heq⟩ := h
      cases heq
      rfl
    · cases h
      rfl
    · cases h
      rfl

/-- What holds behind the names that were read: nothing is stored before `carbon`, and
the shards are behind it. -/
def Stored [JsonValue V] (cs : V) (names : List Bytes) (backends : Backends) : Prop :=
  (∃ shards, Backends.shards cs = some shards ∧ Holds shards backends) ∨
    backends.carbon = ∅ ∧ ascii "carbon" ∉ names

theorem Stored.read [JsonValue V] {json cs : V} (hcs : ∃ bs,
      subscript json (ascii "backends") = some bs ∧ subscript bs (ascii "carbon") = some cs)
    {names : List Bytes} {backends backends' : Backends} {name : Bytes}
    (h : Stored cs names backends) (hread : Backends.read json backends name = some backends') :
    Stored cs (names ++ [name]) backends' := by
  rcases read_spec hcs hread with ⟨hname, hsame⟩ | ⟨-, shards, hshards, hstored⟩
  · refine h.imp ?_ fun hempty => ⟨hsame.trans hempty.1, ?_⟩
    · rintro ⟨shards, hshards, hholds⟩
      exact ⟨shards, hshards, hsame ▸ hholds.keys, hsame ▸ hholds.found⟩
    · rw [List.mem_append, List.mem_singleton, not_or]
      exact ⟨hempty.2, Ne.symm hname⟩
  · refine .inl ⟨shards, hshards, fun k => ?_, fun hnodup shard hmem => ?_⟩
    · rw [hstored, mem_storeAll, or_iff_left_iff_imp]
      intro hk
      rcases h with ⟨shards', hshards', hholds⟩ | ⟨hempty, -⟩
      · cases hshards'.symm.trans hshards
        exact (hholds.keys k).mp hk
      · rw [hempty] at hk
        exact absurd hk (AList.notMem_empty k)
    · rw [hstored]
      exact lookup_storeAll hnodup hmem

/-- The loop over the names reads the carbons and leaves their shards in the map. -/
theorem holds_of_foldlM [JsonValue V] {json cs : V} (hcs : ∃ bs,
      subscript json (ascii "backends") = some bs ∧ subscript bs (ascii "carbon") = some cs)
    {names : List Bytes} {backends : Backends} (hmem : ascii "carbon" ∈ names)
    (h : names.foldlM (Backends.read json) {} = some backends) :
    ∃ shards, Backends.shards cs = some shards ∧ Holds shards backends := by
  rw [Transition.foldlM_eq_run] at h
  have hstored : Stored cs names backends :=
    Transition.run_induction (I := Stored cs) (.inr ⟨rfl, List.not_mem_nil⟩)
      (fun _ _ _ _ hstored hread => hstored.read hcs hread) h
  exact hstored.resolve_right fun hempty => hempty.2 hmem

-- ════════════════════════════════════════════════════════════════════════
-- Given names and numbers
-- ════════════════════════════════════════════════════════════════════════

/-- The shard of an entry is the one that it is given, or else its number. -/
theorem shard_of_carbonShard [JsonMembers V] {entry : V} {i : ℕ} {shard : Bytes × Node}
    (h : carbonShard entry i = some shard) : shard.1 = (shardOf entry).getD (natText i) := by
  simp only [carbonShard, Option.bind_eq_bind, Option.bind_eq_some_iff, Option.pure_def,
    Option.some.injEq] at h
  obtain ⟨name, hname, _, _, _, _, _, _, _, _, rfl⟩ := h
  rw [getString, JsonMembers.get_eq] at hname
  cases hmember : JsonMembers.member entry (ascii "shard") with
  | none =>
    rw [hmember] at hname
    cases hname
  | some found =>
    rw [hmember, Option.map_some, Option.bind_some] at hname
    cases found with
    | none =>
      rw [Option.getD_none, JsonMembers.asString_ofString, Option.some.injEq] at hname
      simp only [shardOf, hmember, Option.join_some, Option.bind_none, Option.getD_none, hname]
    | some found =>
      rw [Option.getD_some] at hname
      simp only [shardOf, hmember, Option.join_some, Option.bind_some, hname, Option.getD_some]

theorem map_fst_of_mapM [JsonMembers V] {entries : List (V × ℕ)} {shards : List (Bytes × Node)}
    (h : (entries.mapM fun entry => carbonShard entry.1 entry.2) = some shards) :
    shards.map Prod.fst = entries.map fun entry => (shardOf entry.1).getD (natText entry.2) := by
  induction entries generalizing shards with
  | nil =>
    cases h
    rfl
  | cons entry entries ih =>
    rw [List.mapM_cons, Option.bind_eq_bind, Option.bind_eq_some_iff] at h
    obtain ⟨shard, hshard, h⟩ := h
    obtain ⟨rest, hrest, heq⟩ := Option.bind_eq_some_iff.mp h
    cases heq
    rw [List.map_cons, List.map_cons, ih hrest, shard_of_carbonShard hshard]

/-- Different names and the numbers of the places without a name are different when no
number of such a place is a name. -/
theorem nodup_zipIdx_iff {name : V → Option Bytes} {entries : List V}
    (hnames : (entries.filterMap name).Nodup) :
    (entries.zipIdx.map fun entry => (name entry.1).getD (natText entry.2)).Nodup ↔
      ∀ i entry, entries[i]? = some entry → name entry = none →
        natText i ∉ entries.filterMap name := by
  rw [List.Nodup, List.pairwise_map, List.pairwise_iff_getElem]
  simp only [List.length_zipIdx, List.getElem_zipIdx, Nat.zero_add]
  constructor
  · intro hne i entry hentry hnone hmem
    obtain ⟨other, hother, hname⟩ := List.mem_filterMap.mp hmem
    obtain ⟨j, hj, rfl⟩ := List.getElem_of_mem hother
    obtain ⟨hi, rfl⟩ := List.getElem?_eq_some_iff.mp hentry
    rcases lt_trichotomy i j with hij | rfl | hji
    · refine hne i j hi hj hij ?_
      rw [hnone, hname, Option.getD_none, Option.getD_some]
    · rw [hname] at hnone
      cases hnone
    · refine hne j i hj hi hji ?_
      rw [hnone, hname, Option.getD_none, Option.getD_some]
  · intro hnumbers i j hi hj hij heq
    have hgiven := List.pairwise_iff_getElem.mp (List.pairwise_filterMap.mp hnames) i j hi hj hij
    cases hnamei : name entries[i] with
    | none =>
      cases hnamej : name entries[j] with
      | none =>
        rw [hnamei, hnamej] at heq
        exact hij.ne (natText_injective heq)
      | some s =>
        rw [hnamei, hnamej, Option.getD_none, Option.getD_some] at heq
        refine hnumbers i _ (List.getElem?_eq_getElem hi) hnamei ?_
        exact List.mem_filterMap.mpr ⟨_, List.getElem_mem hj, heq ▸ hnamej⟩
    | some s =>
      cases hnamej : name entries[j] with
      | none =>
        rw [hnamei, hnamej, Option.getD_none, Option.getD_some] at heq
        refine hnumbers j _ (List.getElem?_eq_getElem hj) hnamej ?_
        exact List.mem_filterMap.mpr ⟨_, List.getElem_mem hi, heq ▸ hnamei⟩
      | some s' =>
        rw [hnamei, hnamej] at heq
        exact hgiven s hnamei s' hnamej heq

end Constructor

end Backends

open Backends

/-- Where the given shards are different, the map has one node for each entry, found
under the shard of the entry, just when no entry without a shard stands at a place whose
number is the shard of another entry. -/
theorem LoadedConfig.storesEach_iff {V : Type} [JsonMembers V] {json cs : V}
    {config : LoadedConfig} (h : LoadedConfig.ofJson json = some config) (hcs : HasCarbon json cs)
    (hgiven : ((values cs).filterMap shardOf).Nodup) :
    ∃ shards, Backends.shards cs = some shards ∧
      (StoresEach config.backends.carbon shards ↔
        ∀ i entry, (values cs)[i]? = some entry → shardOf entry = none →
          natText i ∉ (values cs).filterMap shardOf) := by
  have hread := (LoadedConfig.members_of_ofJson h).2.2.2
  obtain ⟨bs, names, hbs, hnames, hmem, hcarbon⟩ := hcs
  simp only [Backends.ofJson, hbs, hnames, Option.bind_eq_bind, Option.bind_some] at hread
  obtain ⟨shards, hshards, hholds⟩ :=
    holds_of_foldlM ⟨bs, hbs, hcarbon⟩ hmem hread
  refine ⟨shards, hshards, ?_⟩
  rw [storesEach_iff_nodup hholds.keys hholds.found, map_fst_of_mapM hshards,
    nodup_zipIdx_iff hgiven]

theorem LoadedConfig.storesEach_iff_two :
    ∃ config shards,
      LoadedConfig.ofJson (Json.object [(ascii "backends", .object [(ascii "carbon",
        .array [.object [(ascii "shard", .string (ascii "a"))], .object []])])]) = some config ∧
      Backends.shards (Json.array [.object [(ascii "shard", .string (ascii "a"))], .object []]) =
        some shards ∧ StoresEach config.backends.carbon shards := by
  have hcarbon : HasCarbon (Json.object [(ascii "backends", .object [(ascii "carbon",
      .array [.object [(ascii "shard", .string (ascii "a"))], .object []])])])
      (.array [.object [(ascii "shard", .string (ascii "a"))], .object []]) :=
    ⟨_, _, rfl, rfl, by decide, rfl⟩
  obtain ⟨shards, hshards, hiff⟩ := LoadedConfig.storesEach_iff rfl hcarbon (by decide)
  refine ⟨_, shards, rfl, hshards, hiff.mpr fun i entry hentry hnone hmem => ?_⟩
  have hi := (List.getElem?_eq_some_iff.mp hentry).1
  match i, hi with
  | 0, _ => exact absurd hmem (by decide)
  | 1, _ => exact absurd hmem (by decide)

/-- An entry without a shard loses its place to another entry that is given its number. -/
theorem LoadedConfig.not_storesEach_number :
    ¬∀ (json cs : Json) (config : LoadedConfig) (shards : List (Bytes × Node)),
      LoadedConfig.ofJson json = some config → HasCarbon json cs →
        ((values cs).filterMap shardOf).Nodup → Backends.shards cs = some shards →
          StoresEach config.backends.carbon shards := by
  intro h
  have hstores := h
    (.object [(ascii "backends", .object [(ascii "carbon",
      .array [.object [(ascii "shard", .string (ascii "1"))], .object []])])])
    (.array [.object [(ascii "shard", .string (ascii "1"))], .object []]) _ _ rfl
    ⟨_, _, rfl, rfl, by decide, rfl⟩ (by decide) rfl
  have hlength := hstores.1
  revert hlength
  decide

end Statsdcc
