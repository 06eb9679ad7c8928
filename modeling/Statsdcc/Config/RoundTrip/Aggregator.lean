import Mathlib
import Statsdcc.Config.RoundTrip
import Statsdcc.Config.Shards

/-!
# Reading the published configuration of the aggregator again

Every backend that is in the configuration is written and read again. The section
prefixes are not written, and `stdout` is written with its value, but read as set
whenever it is a member.

## Main definitions

- `LoadedConfig.republished` — what is read from the document that `to_json` writes
- `LoadedConfig.Same` — equal settings
- `LoadedConfig.Published` — the settings that are written, or have their defaults

## Main results

- `LoadedConfig.ofJson_toJson` — the second reading
- `LoadedConfig.same_republished_iff` — when it has the settings of the first one
-/

open Bytes JsonValue JsonDocument

namespace Statsdcc

/-- What holds of all results of a function holds of the results of a loop. -/
theorem forall_of_mapM {α β : Type*} {f : α → Option β} {P : β → Prop}
    (hf : ∀ x y, f x = some y → P y) {xs : List α} {ys : List β} (h : xs.mapM f = some ys) :
    ∀ y ∈ ys, P y := by
  induction xs generalizing ys with
  | nil =>
    cases h
    exact List.forall_mem_nil P
  | cons x xs ih =>
    rw [List.mapM_cons, Option.bind_eq_bind, Option.bind_eq_some_iff] at h
    obtain ⟨y, hy, h⟩ := h
    obtain ⟨rest, hrest, heq⟩ := Option.bind_eq_some_iff.mp h
    cases heq
    exact List.forall_mem_cons.mpr ⟨hf x y hy, ih hrest⟩

/-- The value of an `int`. -/
def IsInt (i : ℤ) : Prop := ∃ x : Int32, x.toInt = i

/-- The numbers of a node are `int`. -/
structure Node.Built (node : Node) : Prop where
  port : IsInt node.port
  vnodes : IsInt node.vnodes
  weight : IsInt node.weight

structure Backends.Built (backends : Backends) : Prop where
  carbon : ∀ entry ∈ backends.carbon.entries, entry.2.Built
  repeaters : ∀ repeater ∈ backends.repeaters, IsInt repeater.port

theorem built_of_carbonShard {V : Type} [JsonValue V] {entry : V} {i : ℕ} {shard : Bytes × Node}
    (h : carbonShard entry i = some shard) : shard.2.Built := by
  simp only [carbonShard, Option.bind_eq_bind, Option.bind_eq_some_iff, Option.pure_def,
    Option.some.injEq] at h
  obtain ⟨_, _, _, _, port, _, vnodes, _, weight, _, rfl⟩ := h
  exact ⟨⟨port, rfl⟩, ⟨vnodes, rfl⟩, ⟨weight, rfl⟩⟩

theorem isInt_of_repeaterHostport {V : Type} [JsonValue V] {entry : V} {repeater : Hostport}
    (h : repeaterHostport entry = some repeater) : IsInt repeater.port := by
  simp only [repeaterHostport, Option.bind_eq_bind, Option.bind_eq_some_iff, Option.pure_def,
    Option.some.injEq] at h
  obtain ⟨_, _, port, _, rfl⟩ := h
  exact ⟨port, rfl⟩

section Written

variable {V : Type} [JsonDocument V]

/-- The members of the value that describes a carbon. -/
theorem lookup_carbonJson (carbon : Σ _ : Bytes, Node) :
    let json : V := carbonJson carbon
    Container json ∧ lookup json (ascii "shard") = some (ofString carbon.1) ∧
      lookup json (ascii "host") = some (ofString carbon.2.host) ∧
      lookup json (ascii "port") = some (ofInt (.ofInt carbon.2.port)) ∧
      lookup json (ascii "vnodes") = some (ofInt (.ofInt carbon.2.vnodes)) ∧
      lookup json (ascii "weight") = some (ofInt (.ofInt carbon.2.weight)) := by
  simp (disch := first | decide | repeat first | exact container_null | apply container_assign) only
    [carbonJson, lookup_assign, lookup_assign_self, container_assign, and_self]

theorem lookup_hostportJson (hostport : Hostport) :
    let json : V := hostportJson hostport
    Container json ∧ lookup json (ascii "host") = some (ofString hostport.host) ∧
      lookup json (ascii "port") = some (ofInt (.ofInt hostport.port)) := by
  simp (disch := first | decide | repeat first | exact container_null | apply container_assign) only
    [hostportJson, lookup_assign, lookup_assign_self, container_assign, and_self]

theorem carbonShard_carbonJson {carbon : Σ _ : Bytes, Node} (h : carbon.2.Built) (i : ℕ) :
    carbonShard (carbonJson carbon : V) i = some (carbon.1, carbon.2) := by
  obtain ⟨shard, ⟨host, port⟩, vnodes, weight⟩ := carbon
  obtain ⟨⟨port, rfl⟩, ⟨vnodes, rfl⟩, ⟨weight, rfl⟩⟩ := h
  obtain ⟨hjson, hshard, hhost, hport, hvnodes, hweight⟩ :=
    lookup_carbonJson (V := V) ⟨shard, ⟨host, port.toInt⟩, vnodes.toInt, weight.toInt⟩
  simp only [carbonShard, hjson.getString_eq, hjson.getInt_eq, hshard, hhost, hport, hvnodes,
    hweight, Option.getD_some, JsonMembers.asString_ofString, asInt_ofInt, Int32.ofInt_toInt,
    Option.bind_eq_bind, Option.bind_some, Option.pure_def]

theorem repeaterHostport_hostportJson {repeater : Hostport} (h : IsInt repeater.port) :
    repeaterHostport (hostportJson repeater : V) = some repeater := by
  obtain ⟨host, port⟩ := repeater
  obtain ⟨port, rfl⟩ := h
  obtain ⟨hjson, hhost, hport⟩ := lookup_hostportJson (V := V) ⟨host, port.toInt⟩
  simp only [repeaterHostport, hjson.getString_eq, hjson.getInt_eq, hhost, hport,
    Option.getD_some, JsonMembers.asString_ofString, asInt_ofInt, Int32.ofInt_toInt,
    Option.bind_eq_bind, Option.bind_some, Option.pure_def]

/-- The list of carbons as it is written is the list of their shards. -/
theorem shards_carbonJson {entries : List (Σ _ : Bytes, Node)}
    (h : ∀ entry ∈ entries, entry.2.Built) (n : ℕ) :
    (((entries.map (carbonJson (V := V))).zipIdx n).mapM fun entry =>
        carbonShard entry.1 entry.2) =
      some (entries.map fun entry => (entry.1, entry.2)) := by
  induction entries generalizing n with
  | nil => rfl
  | cons entry entries ih =>
    rw [List.forall_mem_cons] at h
    rw [List.map_cons, List.zipIdx_cons, List.mapM_cons, carbonShard_carbonJson h.1, ih h.2]
    rfl

end Written

namespace Backends

theorem built_storeAll {carbon : UnorderedMap Bytes Node} {shards : List (Bytes × Node)}
    (hcarbon : ∀ entry ∈ carbon.entries, entry.2.Built)
    (hshards : ∀ shard ∈ shards, shard.2.Built) :
    ∀ entry ∈ (storeAll carbon shards).entries, entry.2.Built := by
  induction shards generalizing carbon with
  | nil => exact hcarbon
  | cons shard shards ih =>
    rw [List.forall_mem_cons] at hshards
    refine ih (fun entry hentry => ?_) hshards.2
    rcases List.mem_cons.mp hentry with rfl | hentry
    · exact hshards.1
    · exact hcarbon entry ((List.kerase_sublist _ _).subset hentry)

/-- One name adds nodes and repeaters that were read from the document. -/
theorem Built.read {V : Type} [JsonValue V] {json : V} {backends backends' : Backends}
    {name : Bytes} (hbuilt : backends.Built)
    (h : Backends.read json backends name = some backends') : backends'.Built := by
  rw [Backends.read] at h
  split_ifs at h
  · simp only [Option.bind_eq_bind, Option.bind_eq_some_iff, Option.pure_def,
      Option.some.injEq] at h
    obtain ⟨_, _, cs, _, carbon, hfold, rfl⟩ := h
    obtain ⟨shards, hshards, rfl⟩ :=
      Option.map_eq_some_iff.mp ((foldlM_carbonShard _ _).symm.trans hfold)
    exact ⟨built_storeAll hbuilt.carbon
      (forall_of_mapM (fun _ _ => built_of_carbonShard) hshards), hbuilt.repeaters⟩
  · simp only [Option.bind_eq_bind, Option.bind_eq_some_iff, Option.pure_def,
      Option.some.injEq] at h
    obtain ⟨_, _, rs, _, repeaters, hrepeaters, rfl⟩ := h
    refine ⟨hbuilt.carbon, List.forall_mem_append.mpr ⟨hbuilt.repeaters, ?_⟩⟩
    exact forall_of_mapM (fun _ _ => isInt_of_repeaterHostport) hrepeaters
  · cases h
    exact ⟨hbuilt.carbon, hbuilt.repeaters⟩
  · cases h
    exact hbuilt

theorem built_of_foldlM {V : Type} [JsonValue V] {json : V} {names : List Bytes}
    {backends : Backends} (h : names.foldlM (Backends.read json) {} = some backends) :
    backends.Built := by
  rw [Transition.foldlM_eq_run] at h
  have hstart : Backends.Built {} := ⟨List.forall_mem_nil _, List.forall_mem_nil _⟩
  exact Transition.run_induction (I := fun _ backends => backends.Built) hstart
    (fun _ _ _ _ hbuilt hread => hbuilt.read hread) h

section Written

variable {V : Type} [JsonDocument V] {json bs : V}

theorem read_carbon (hbs : subscript json (ascii "backends") = some bs) {cs : V}
    (hcs : subscript bs (ascii "carbon") = some cs) {entries : List (Σ _ : Bytes, Node)}
    (hvalues : values cs = entries.map carbonJson)
    (hbuilt : ∀ entry ∈ entries, entry.2.Built) (backends : Backends) :
    Backends.read json backends (ascii "carbon") =
      some { backends with
        carbon := storeAll backends.carbon (entries.map fun entry => (entry.1, entry.2)) } := by
  have hfold := (foldlM_carbonShard ((entries.map (carbonJson (V := V))).zipIdx)
    backends.carbon).trans (congrArg _ (shards_carbonJson hbuilt 0))
  rw [read, if_pos rfl, hbs, Option.bind_eq_bind, Option.bind_some, hcs, Option.bind_eq_bind,
    Option.bind_some, hvalues]
  exact Option.bind_eq_some_iff.mpr ⟨_, hfold, rfl⟩

theorem read_repeater (hbs : subscript json (ascii "backends") = some bs) {rs : V}
    (hrs : subscript bs (ascii "repeater") = some rs) {repeaters : List Hostport}
    (hvalues : values rs = repeaters.map hostportJson)
    (hbuilt : ∀ repeater ∈ repeaters, IsInt repeater.port) (backends : Backends) :
    Backends.read json backends (ascii "repeater") =
      some { backends with repeaters := backends.repeaters ++ repeaters } := by
  have hread : (repeaters.map (hostportJson (V := V))).mapM repeaterHostport = some repeaters := by
    rw [List.mapM_map]
    refine (UnorderedMap.mapM_eq_some_map fun repeater hmem => ?_).trans
      (congrArg some repeaters.map_id)
    exact repeaterHostport_hostportJson (hbuilt repeater hmem)
  rw [read, if_neg (by decide), if_pos rfl, hbs, Option.bind_eq_bind, Option.bind_some, hrs,
    Option.bind_eq_bind, Option.bind_some, hvalues]
  exact Option.bind_eq_some_iff.mpr ⟨_, hread, rfl⟩

/-- The names are gone through once each, so their order does not matter. -/
theorem foldlM_read (hbs : subscript json (ascii "backends") = some bs) {cs rs : V}
    (hcs : subscript bs (ascii "carbon") = some cs)
    (hrs : subscript bs (ascii "repeater") = some rs) {backends : Backends}
    (hcarbons : values cs = backends.carbon.entries.map carbonJson)
    (hrepeaters : values rs = backends.repeaters.map hostportJson) (hbuilt : backends.Built)
    {names : List Bytes} (hnodup : names.Nodup) :
    names.foldlM (Backends.read json) {} = some
      { carbon :=
          if ascii "carbon" ∈ names then
            storeAll ∅ (backends.carbon.entries.map fun entry => (entry.1, entry.2))
          else ∅
        repeaters := if ascii "repeater" ∈ names then backends.repeaters else []
        stdout := decide (ascii "stdout" ∈ names) } := by
  have hcr : ascii "repeater" ≠ ascii "carbon" := by decide
  have hcs' : ascii "stdout" ≠ ascii "carbon" := by decide
  have hrs' : ascii "stdout" ≠ ascii "repeater" := by decide
  induction names using List.reverseRecOn with
  | nil => rfl
  | append_singleton names name ih =>
    obtain ⟨hfront, -, hdisjoint⟩ := List.nodup_append.mp hnodup
    have hnew : name ∉ names := fun hmem => hdisjoint _ hmem _ (List.mem_singleton_self _) rfl
    rw [List.foldlM_append, ih hfront, Option.bind_eq_bind, Option.bind_some, List.foldlM_cons]
    simp only [List.mem_append, List.mem_singleton]
    by_cases hcarbon : name = ascii "carbon"
    · subst hcarbon
      rw [read_carbon hbs hcs hcarbons hbuilt.carbon, if_neg hnew]
      simp [hcr, hcs']
    · by_cases hrepeater : name = ascii "repeater"
      · subst hrepeater
        rw [read_repeater hbs hrs hrepeaters hbuilt.repeaters, if_neg hnew]
        simp [hcr.symm, hrs']
      · rw [read, if_neg hcarbon, if_neg hrepeater]
        by_cases hstdout : name = ascii "stdout"
        · subst hstdout
          simp [hcs'.symm, hrs'.symm]
        · simp [hstdout, Ne.symm hcarbon, Ne.symm hrepeater, Ne.symm hstdout]

end Written

end Backends

namespace LoadedConfig

section Written

variable {V : Type} [JsonDocument V]

/-- The document before the lists are written. -/
def singleValues (config : LoadedConfig) : V :=
  let root := assign config.toConfig.toJson [ascii "name"] (ofString config.name)
  let root := assign root [ascii "workers"] (ofInt config.workers)
  assign root [ascii "frequency"] (ofInt (.ofInt config.frequency))

theorem container_singleValues (config : LoadedConfig) : Container (config.singleValues : V) :=
  container_assign (container_assign (container_assign config.toConfig.container_toJson
    _ _ _) _ _ _) _ _ _

/-- The single values of the document, and what it has from `Config::to_json`. -/
theorem lookup_singleValues (config : LoadedConfig) :
    lookup (config.singleValues : V) (ascii "name") = some (ofString config.name) ∧
      lookup (config.singleValues : V) (ascii "workers") = some (ofInt config.workers) ∧
      lookup (config.singleValues : V) (ascii "frequency") =
        some (ofInt (.ofInt config.frequency)) ∧
      ∀ k, k ≠ ascii "name" → k ≠ ascii "workers" → k ≠ ascii "frequency" →
        lookup (config.singleValues : V) k = lookup config.toConfig.toJson k := by
  have hconfig := config.toConfig.container_toJson (V := V)
  have hname := container_assign hconfig (ascii "name") [] (ofString config.name)
  have hworkers := container_assign hname (ascii "workers") [] (ofInt config.workers)
  simp only [singleValues]
  refine ⟨?_, ?_, ?_, fun k hk hk' hk'' => ?_⟩
  · rw [lookup_assign hworkers (by decide), lookup_assign hname (by decide),
      lookup_assign_self hconfig]
  · rw [lookup_assign hworkers (by decide), lookup_assign_self hname]
  · rw [lookup_assign_self hworkers]
  · rw [lookup_assign hworkers hk'', lookup_assign hname hk', lookup_assign hconfig hk]

/-- The document with the percentiles, before the backends are written. -/
def withPercentiles (config : LoadedConfig) : V :=
  config.percentiles.foldl (fun root p =>
    update root [ascii "percentiles"] (append · (ofInt (.ofInt p)))) config.singleValues

theorem container_withPercentiles (config : LoadedConfig) :
    Container (config.withPercentiles : V) :=
  container_foldl_update config.container_singleValues _ _ _ _

/-- The loops over the carbons and the repeaters write behind `backends`. -/
theorem toJson_eq (config : LoadedConfig) :
    (config.toJson : V) =
      config.backends.repeaters.foldl (fun root repeater =>
        update root [ascii "backends", ascii "repeater"] (append · (hostportJson repeater)))
        (config.backends.carbon.entries.foldl (fun root carbon =>
          update root [ascii "backends", ascii "carbon"] (append · (carbonJson carbon)))
          (assign config.withPercentiles [ascii "backends", ascii "stdout"]
            (ofBool config.backends.stdout))) := rfl

theorem container_toJson (config : LoadedConfig) : Container (config.toJson : V) :=
  container_foldl_update (container_foldl_update (container_assign
    config.container_withPercentiles _ _ _) _ _ _ _) _ _ _ _

theorem lookup_toJson_of_ne_backends (config : LoadedConfig) {k : Bytes}
    (hbackends : k ≠ ascii "backends") :
    lookup (config.toJson : V) k = lookup config.withPercentiles k := by
  have hstdout := container_assign (config.container_withPercentiles (V := V)) (ascii "backends")
    [ascii "stdout"] (ofBool config.backends.stdout)
  rw [toJson_eq, lookup_foldl_update (container_foldl_update hstdout _ _ _ _) hbackends,
    lookup_foldl_update hstdout hbackends, lookup_assign config.container_withPercentiles hbackends]

theorem lookup_withPercentiles (config : LoadedConfig) {k : Bytes}
    (hpercentiles : k ≠ ascii "percentiles") :
    lookup (config.withPercentiles : V) k = lookup config.singleValues k :=
  lookup_foldl_update config.container_singleValues hpercentiles _ _ _

/-- `AggregatorConfig::to_json` writes other members than `Config::to_json`. -/
theorem lookup_toJson_of_ne (config : LoadedConfig) {k : Bytes} (hname : k ≠ ascii "name")
    (hworkers : k ≠ ascii "workers") (hfrequency : k ≠ ascii "frequency")
    (hpercentiles : k ≠ ascii "percentiles") (hbackends : k ≠ ascii "backends") :
    lookup (config.toJson : V) k = lookup config.toConfig.toJson k := by
  rw [config.lookup_toJson_of_ne_backends hbackends, config.lookup_withPercentiles hpercentiles,
    config.lookup_singleValues.2.2.2 k hname hworkers hfrequency]

/-- The members of the constructor of `AggregatorConfig` that are single values. -/
theorem lookup_toJson_values (config : LoadedConfig) :
    lookup (config.toJson : V) (ascii "name") = some (ofString config.name) ∧
      lookup (config.toJson : V) (ascii "workers") = some (ofInt config.workers) ∧
      lookup (config.toJson : V) (ascii "frequency") = some (ofInt (.ofInt config.frequency)) := by
  obtain ⟨hname, hworkers, hfrequency, -⟩ := config.lookup_singleValues (V := V)
  refine ⟨?_, ?_, ?_⟩ <;>
    rw [config.lookup_toJson_of_ne_backends (by decide),
      config.lookup_withPercentiles (by decide)]
  · exact hname
  · exact hworkers
  · exact hfrequency

theorem lookup_toJson_eq_none (config : LoadedConfig) {key : Bytes}
    (hkey : key ∉ [ascii "name", ascii "workers", ascii "frequency", ascii "percentiles",
      ascii "backends", ascii "servers", ascii "log_level"]) :
    lookup (config.toJson : V) key = none := by
  simp only [List.mem_cons, not_or] at hkey
  obtain ⟨hname, hworkers, hfrequency, hpercentiles, hbackends, hservers, hlevel, -⟩ := hkey
  rw [config.lookup_toJson_of_ne hname hworkers hfrequency hpercentiles hbackends,
    Config.lookup_toJson_of_ne _ hservers hlevel]

/-- A section name is not written, so its default is read. -/
theorem sectionOf_toJson (config : LoadedConfig) (key : Bytes)
    (hkey : key ∉ [ascii "name", ascii "workers", ascii "frequency", ascii "percentiles",
      ascii "backends", ascii "servers", ascii "log_level"]) (default : Bytes) :
    sectionOf (config.toJson : V) key default =
      some (if default = [] then [] else default ++ ascii ".") := by
  rw [sectionOf, config.container_toJson.getString_eq, config.lookup_toJson_eq_none hkey,
    Option.getD_none, JsonMembers.asString_ofString]
  rfl

/-- Neither a list nor the backends are there before they are written. -/
theorem child_singleValues (config : LoadedConfig) {k : Bytes}
    (hk : k = ascii "percentiles" ∨ k = ascii "backends") :
    child (config.singleValues : V) k = null := by
  have hnone : lookup (config.singleValues : V) k = none := by
    rcases hk with rfl | rfl
    all_goals
      rw [config.lookup_singleValues.2.2.2 _ (by decide) (by decide) (by decide),
        Config.lookup_toJson_of_ne _ (by decide) (by decide)]
  exact child_eq_null hnone

theorem percentilesOf_toJson {config : LoadedConfig} (hne : config.percentiles ≠ [])
    (hbuilt : ∀ p ∈ config.percentiles, IsInt p) :
    percentilesOf (config.toJson : V) = some config.percentiles := by
  have hvalues : values (child (config.toJson : V) (ascii "percentiles")) =
      config.percentiles.map fun p => ofInt (.ofInt p) := by
    rw [child, config.lookup_toJson_of_ne_backends (by decide), ← child]
    exact values_foldl_append config.container_singleValues (config.child_singleValues (.inl rfl))
      _ _
  have hread : (config.percentiles.map fun p => (ofInt (.ofInt p) : V)).mapM
      (fun p => (asInt p).map Int32.toInt) = some config.percentiles := by
    rw [List.mapM_map]
    refine (UnorderedMap.mapM_eq_some_map fun p hmem => ?_).trans
      (congrArg some config.percentiles.map_id)
    obtain ⟨x, rfl⟩ := hbuilt p hmem
    rw [Function.comp_apply, Int32.ofInt_toInt, asInt_ofInt]
    rfl
  have hsize : size (child (config.toJson : V) (ascii "percentiles")) ≠ 0 := by
    rw [← JsonMembers.length_values, hvalues, List.length_map]
    exact fun hzero => hne (List.length_eq_zero_iff.mp hzero)
  rw [percentilesOf, config.container_toJson.subscript_eq, Option.bind_eq_bind, Option.bind_some,
    if_neg hsize, hvalues]
  exact hread

-- ════════════════════════════════════════════════════════════════════════
-- The backends
-- ════════════════════════════════════════════════════════════════════════

theorem child_toJson_backends (config : LoadedConfig) :
    child (config.toJson : V) (ascii "backends") =
      config.backends.repeaters.foldl (fun json repeater =>
        update json [ascii "repeater"] (append · (hostportJson repeater)))
        (config.backends.carbon.entries.foldl (fun json carbon =>
          update json [ascii "carbon"] (append · (carbonJson carbon)))
          (assign null [ascii "stdout"] (ofBool config.backends.stdout))) := by
  have hpercentiles := config.container_withPercentiles (V := V)
  have hstdout := container_assign hpercentiles (ascii "backends") [ascii "stdout"]
    (ofBool config.backends.stdout)
  have hnew : child (config.withPercentiles : V) (ascii "backends") = null := by
    rw [child, config.lookup_withPercentiles (by decide), ← child,
      config.child_singleValues (.inr rfl)]
  rw [toJson_eq, child_foldl_update (container_foldl_update hstdout _ _ _ _),
    child_foldl_update hstdout, assign, child_update hpercentiles, hnew]
  rfl

/-- The backends as they are written: a list is a member unless it is empty. -/
theorem lookup_backends (config : LoadedConfig) :
    let backends : V := child config.toJson (ascii "backends")
    Container backends ∧
      (lookup backends (ascii "carbon") = none ↔ config.backends.carbon.entries = []) ∧
      (lookup backends (ascii "repeater") = none ↔ config.backends.repeaters = []) ∧
      lookup backends (ascii "stdout") ≠ none ∧
      values (child backends (ascii "carbon")) = config.backends.carbon.entries.map carbonJson ∧
      values (child backends (ascii "repeater")) =
        config.backends.repeaters.map hostportJson := by
  have hnull := container_assign (container_null (V := V)) (ascii "stdout") []
    (ofBool config.backends.stdout)
  have hcarbon := container_foldl_update hnull (ascii "carbon") []
    (fun carbon json => append json (carbonJson carbon)) config.backends.carbon.entries
  rw [child_toJson_backends]
  have hnone {k : Bytes} (hk : k ≠ ascii "stdout") :
      lookup (assign null [ascii "stdout"] (ofBool config.backends.stdout) : V) k = none := by
    rw [lookup_assign container_null hk, lookup_null]
  refine ⟨container_foldl_update hcarbon _ _ _ _, ?_, ?_, ?_, ?_, ?_⟩
  · rw [lookup_foldl_update hcarbon (by decide)]
    exact lookup_foldl_update_eq_none hnull (hnone (by decide)) _ _ _
  · refine lookup_foldl_update_eq_none hcarbon ?_ _ _ _
    rw [lookup_foldl_update hnull (by decide), hnone (by decide)]
  · rw [lookup_foldl_update hcarbon (by decide), lookup_foldl_update hnull (by decide),
      lookup_assign_self container_null]
    exact Option.some_ne_none _
  · rw [child, lookup_foldl_update hcarbon (by decide), ← child]
    exact values_foldl_append hnull (child_eq_null (hnone (by decide))) _ _
  · refine values_foldl_append hcarbon (child_eq_null ?_) _ _
    rw [lookup_foldl_update hnull (by decide), hnone (by decide)]

/-- The names of the backends are read as they are written. -/
theorem backends_ofJson_toJson (config : LoadedConfig) (hbuilt : config.backends.Built) :
    Backends.ofJson (config.toJson : V) = some
      { carbon :=
          Backends.storeAll ∅ (config.backends.carbon.entries.map fun entry => (entry.1, entry.2))
        repeaters := config.backends.repeaters
        stdout := true } := by
  obtain ⟨hbackends, hcarbon, hrepeater, hstdout, hcarbons, hrepeaters⟩ :=
    config.lookup_backends (V := V)
  obtain ⟨names, hnames, hnodup, hmem⟩ := hbackends.exists_getMemberNames
  have hbs := config.container_toJson.subscript_eq (V := V) (ascii "backends")
  rw [Backends.ofJson, hbs, Option.bind_eq_bind, Option.bind_some, hnames, Option.bind_eq_bind,
    Option.bind_some, Backends.foldlM_read hbs (hbackends.subscript_eq _)
      (hbackends.subscript_eq _) hcarbons hrepeaters hbuilt hnodup,
    decide_eq_true ((hmem _).mpr hstdout)]
  congr 2
  · split_ifs with hname
    · rfl
    · rw [hcarbon.mp (not_not.mp ((hmem _).not.mp hname))]
      rfl
  · split_ifs with hname
    · rfl
    · exact (hrepeater.mp (not_not.mp ((hmem _).not.mp hname))).symm

end Written

/-- What a configuration that was read from a document has in common with every other. -/
structure Built (config : LoadedConfig) : Prop where
  base : config.toConfig.Built
  frequency : IsInt config.frequency
  nonempty : config.percentiles ≠ []
  percentiles : ∀ p ∈ config.percentiles, IsInt p
  backends : config.backends.Built

theorem built_of_percentilesOf {V : Type} [JsonMembers V] {json : V} {percentiles : List ℤ}
    (h : percentilesOf json = some percentiles) :
    percentiles ≠ [] ∧ ∀ p ∈ percentiles, IsInt p := by
  obtain ⟨ps, -, h⟩ := Option.bind_eq_some_iff.mp h
  split_ifs at h with hsize
  · cases h
    exact ⟨List.cons_ne_nil _ _, List.forall_mem_singleton.mpr ⟨90, rfl⟩⟩
  · refine ⟨?_, forall_of_mapM (fun p i hp => ?_) h⟩
    · rintro rfl
      rw [← JsonMembers.length_values] at hsize
      cases hvalues : values ps with
      | nil => exact hsize (congrArg List.length hvalues)
      | cons p ps =>
        rw [hvalues, List.mapM_cons, Option.bind_eq_bind, Option.bind_eq_some_iff] at h
        obtain ⟨i, -, h⟩ := h
        obtain ⟨is, -, hcons⟩ := Option.bind_eq_some_iff.mp h
        cases hcons
    · obtain ⟨x, -, rfl⟩ := Option.map_eq_some_iff.mp hp
      exact ⟨x, rfl⟩

theorem built_of_ofJson {V : Type} [JsonMembers V] {json : V} {config : LoadedConfig}
    (h : LoadedConfig.ofJson json = some config) : config.Built := by
  obtain ⟨hbase, hfrequency, hpercentiles, hbackends⟩ := members_of_ofJson h
  obtain ⟨frequency, -, hfrequency⟩ := Option.map_eq_some_iff.mp hfrequency
  obtain ⟨_, -, hnames⟩ := Option.bind_eq_some_iff.mp hbackends
  obtain ⟨names, -, hread⟩ := Option.bind_eq_some_iff.mp hnames
  obtain ⟨hnonempty, hint⟩ := built_of_percentilesOf hpercentiles
  exact ⟨Config.built_of_ofJson hbase, ⟨frequency, hfrequency⟩, hnonempty, hint,
    Backends.built_of_foldlM hread⟩

/-- What is read from the document that `to_json` writes. -/
def republished (config : LoadedConfig) : LoadedConfig :=
  { config.toConfig.republished config.workers with
    name := config.name
    frequency := config.frequency
    percentiles := config.percentiles
    backends :=
      { carbon :=
          Backends.storeAll ∅ (config.backends.carbon.entries.map fun entry => (entry.1, entry.2))
        repeaters := config.backends.repeaters
        stdout := true } }

/-- The published configuration is read without an error. -/
theorem ofJson_toJson {V : Type} [JsonDocument V] {config : LoadedConfig}
    (hbuilt : config.Built) :
    LoadedConfig.ofJson (config.toJson : V) = some config.republished := by
  obtain ⟨hname, hworkers, hfrequency⟩ := config.lookup_toJson_values (V := V)
  have hcontainer := config.container_toJson (V := V)
  have hconfig : Config.ofJson (config.toJson : V) =
      some (config.toConfig.republished config.workers) := by
    refine Config.ofJson_of_lookup hbuilt.base hcontainer ?_ ?_ ?_
    · exact config.lookup_toJson_of_ne (by decide) (by decide) (by decide) (by decide) (by decide)
    · exact config.lookup_toJson_of_ne (by decide) (by decide) (by decide) (by decide) (by decide)
    · rw [hcontainer.getInt_eq, hworkers, Option.getD_some, asInt_ofInt]
  have hnameRead : getString (config.toJson : V) (ascii "name") (ascii "statsdcc") =
      some config.name := by
    rw [hcontainer.getString_eq, hname, Option.getD_some, JsonMembers.asString_ofString]
  obtain ⟨frequency, hfrequencyInt⟩ := hbuilt.frequency
  have hfrequencyRead : getInt (config.toJson : V) (ascii "frequency") 10 = some frequency := by
    rw [hcontainer.getInt_eq, hfrequency, Option.getD_some, asInt_ofInt, ← hfrequencyInt,
      Int32.ofInt_toInt]
  simp only [LoadedConfig.ofJson, hconfig, hnameRead, hfrequencyRead,
    config.sectionOf_toJson (ascii "prefix") (by decide),
    config.sectionOf_toJson (ascii "prefix_counter") (by decide),
    config.sectionOf_toJson (ascii "prefix_timer") (by decide),
    config.sectionOf_toJson (ascii "prefix_gauge") (by decide),
    config.sectionOf_toJson (ascii "prefix_set") (by decide),
    percentilesOf_toJson hbuilt.nonempty hbuilt.percentiles,
    config.backends_ofJson_toJson hbuilt.backends, Option.bind_eq_bind, Option.bind_some,
    hfrequencyInt, Option.pure_def]
  rfl

/-- Equal settings; the order of the carbons in their map is not one. -/
structure Same (config config' : LoadedConfig) : Prop where
  base : config.toConfig = config'.toConfig
  aggregator : config.toAggregatorConfig = config'.toAggregatorConfig
  carbon : ∀ shard, config.backends.carbon.lookup shard = config'.backends.carbon.lookup shard
  repeaters : config.backends.repeaters = config'.backends.repeaters
  stdout : config.backends.stdout = config'.backends.stdout

theorem lookup_storeAll_entries (carbon : UnorderedMap Bytes Node) (shard : Bytes) :
    (Backends.storeAll ∅ (carbon.entries.map fun entry => (entry.1, entry.2))).lookup shard =
      carbon.lookup shard := by
  have hkeys : (carbon.entries.map fun entry => (entry.1, entry.2)).map Prod.fst =
      carbon.keys := by
    rw [List.map_map, AList.keys, List.keys]
    rfl
  cases hlookup : carbon.lookup shard with
  | none =>
    rw [Backends.lookup_storeAll_of_notMem, AList.lookup_empty]
    rw [hkeys]
    exact AList.lookup_eq_none.mp hlookup
  | some node =>
    have hmem : (shard, node) ∈ carbon.entries.map fun entry => (entry.1, entry.2) :=
      List.mem_map.mpr ⟨⟨shard, node⟩, AList.mem_lookup_iff.mp hlookup, rfl⟩
    exact Backends.lookup_storeAll (hkeys ▸ carbon.keys_nodup) hmem

/-- The settings of the aggregator that are written, or have their defaults. -/
structure Published (config : LoadedConfig) : Prop where
  base : config.toConfig.Published
  prefixAll : config.prefixAll = []
  prefixCounter : config.prefixCounter = ascii "counters."
  prefixTimer : config.prefixTimer = ascii "timers."
  prefixGauge : config.prefixGauge = ascii "gauges."
  prefixSet : config.prefixSet = ascii "sets."
  stdout : config.backends.stdout = true

theorem same_republished_iff (config : LoadedConfig) :
    config.Same config.republished ↔ config.Published := by
  constructor
  · rintro ⟨hbase, haggregator, -, -, hstdout⟩
    have hpublished := ((config.toConfig.eq_republished_iff _).mp hbase).1
    exact ⟨hpublished, congrArg AggregatorConfig.prefixAll haggregator,
      congrArg AggregatorConfig.prefixCounter haggregator,
      congrArg AggregatorConfig.prefixTimer haggregator,
      congrArg AggregatorConfig.prefixGauge haggregator,
      congrArg AggregatorConfig.prefixSet haggregator, hstdout⟩
  · obtain ⟨base, ⟨name, all, counter, timer, gauge, set, frequency, percentiles⟩, backends⟩ :=
      config
    rintro ⟨hbase, rfl, rfl, rfl, rfl, rfl, hstdout⟩
    exact ⟨(base.eq_republished_iff _).mpr ⟨hbase, rfl⟩, rfl,
      fun shard => (lookup_storeAll_entries _ shard).symm, rfl, hstdout⟩

end LoadedConfig

end Statsdcc
