import Mathlib
import Statsdcc.Config.RoundTrip.Aggregator

/-!
# Reading the published configuration of the proxy again

`ProxyConfig::to_json` writes one aggregator over the other, as an object where the
constructor takes a list of objects; the number of workers and the blacklist are not
written.

## Main definitions

- `ProxyConfig.Published` — the settings that are written, or have their defaults

## Main results

- `ProxyConfig.ofJson_toJson`, `ProxyConfig.ofJson_toJson_eq_none` — the second reading
- `Config.published_iff` — for both programs, when it has the settings of the first one
-/

open Bytes JsonValue JsonDocument

namespace Statsdcc

namespace ProxyConfig

variable {Regex : Type}

section Written

variable {V : Type} [JsonDocument V]

/-- `ProxyConfig::to_json` adds the backends to what `Config::to_json` writes. -/
theorem lookup_toJson_of_ne (config : ProxyConfig Regex) {k : Bytes}
    (hbackends : k ≠ ascii "backends") :
    lookup (config.toJson : V) k = lookup config.toConfig.toJson k := by
  have hconfig := config.toConfig.container_toJson (V := V)
  have hstdout := container_assign hconfig (ascii "backends") [ascii "stdout"]
    (ofBool config.stdout)
  exact (lookup_foldl_update hstdout hbackends _ _ _).trans (lookup_assign hconfig hbackends _ _)

theorem container_toJson (config : ProxyConfig Regex) : Container (config.toJson : V) :=
  container_foldl_update (container_assign config.toConfig.container_toJson _ _ _) _ _ _ _

/-- The backends are written one over the other. -/
theorem child_toJson_backends (config : ProxyConfig Regex) :
    child (config.toJson : V) (ascii "backends") =
      config.aggregators.foldl (fun json aggregator =>
        update json [ascii "aggregator"] fun _ => hostportJson aggregator)
        (assign null [ascii "stdout"] (ofBool config.stdout)) := by
  have hconfig := config.toConfig.container_toJson (V := V)
  have hstdout := container_assign hconfig (ascii "backends") [ascii "stdout"]
    (ofBool config.stdout)
  have hnew : child (config.toConfig.toJson : V) (ascii "backends") = null :=
    child_eq_null (Config.lookup_toJson_of_ne _ (by decide) (by decide))
  refine (child_foldl_update hstdout _ _ _ _).trans ?_
  rw [assign, child_update hconfig, hnew]
  rfl

theorem base_ofJson_toJson {config : ProxyConfig Regex} (hbuilt : config.toConfig.Built) :
    Config.ofJson (config.toJson : V) = some (config.toConfig.republished 1) := by
  refine Config.ofJson_of_lookup hbuilt config.container_toJson ?_ ?_ ?_
  · exact config.lookup_toJson_of_ne (by decide)
  · exact config.lookup_toJson_of_ne (by decide)
  · rw [config.container_toJson.getInt_eq, config.lookup_toJson_of_ne (by decide),
      Config.lookup_toJson_of_ne _ (by decide) (by decide), Option.getD_none, asInt_ofInt]

/-- Other names than `aggregator` add no aggregators. -/
theorem foldlM_readBackend (json : V) {names : List Bytes} (hnames : ascii "aggregator" ∉ names)
    (backends : List Hostport × Bool) :
    names.foldlM (readBackend json) backends =
      some (backends.1, backends.2 || decide (ascii "stdout" ∈ names)) := by
  induction names generalizing backends with
  | nil => simp
  | cons name names ih =>
    rw [List.mem_cons, not_or] at hnames
    rw [List.foldlM_cons, readBackend, if_neg (Ne.symm hnames.1)]
    by_cases hname : name = ascii "stdout"
    · rw [if_pos hname, Option.bind_eq_bind, Option.bind_some, ih hnames.2]
      simp [hname]
    · rw [if_neg hname, Option.bind_eq_bind, Option.bind_some, ih hnames.2]
      simp [Ne.symm hname]

/-- Without aggregators the published configuration is read without an error. -/
theorem ofJson_toJson (compile : Bytes → Option Regex) {config : ProxyConfig Regex}
    (hbuilt : config.toConfig.Built) (hnil : config.aggregators = []) :
    ProxyConfig.ofJson compile (config.toJson : V) = some
      { config.toConfig.republished 1 with
        aggregators := []
        stdout := true
        blacklist := [] } := by
  have hcontainer := config.container_toJson (V := V)
  have hchild := config.child_toJson_backends (V := V)
  rw [hnil, List.foldl_nil] at hchild
  have hbackends : Container (child (config.toJson : V) (ascii "backends")) := by
    rw [hchild]
    exact container_assign container_null _ _ _
  obtain ⟨names, hnames, -, hmem⟩ := hbackends.exists_getMemberNames
  have haggregator : ascii "aggregator" ∉ names := by
    rw [hmem, hchild, lookup_assign container_null (by decide), lookup_null]
    exact not_not.mpr rfl
  have hstdout : ascii "stdout" ∈ names := by
    rw [hmem, hchild, lookup_assign_self container_null]
    exact Option.some_ne_none _
  have hblacklist : child (config.toJson : V) (ascii "blacklist") = null := by
    refine child_eq_null ?_
    rw [config.lookup_toJson_of_ne (by decide), Config.lookup_toJson_of_ne _ (by decide)
      (by decide)]
  have hvalues : values (null : V) = [] := values_appended []
  rw [ProxyConfig.ofJson, base_ofJson_toJson hbuilt, hcontainer.subscript_eq,
    hcontainer.subscript_eq, hblacklist]
  simp only [Option.bind_eq_bind, Option.bind_some, hnames, foldlM_readBackend _ haggregator,
    decide_eq_true hstdout, hvalues, List.mapM_nil, Option.pure_def, Bool.false_or]

/-- A loop of readings throws when one of them does. -/
theorem mapM_eq_none {α β : Type*} {f : α → Option β} {xs : List α} {x : α} (hmem : x ∈ xs)
    (hnone : f x = none) : xs.mapM f = none := by
  induction xs with
  | nil => cases hmem
  | cons y ys ih =>
    rw [List.mapM_cons]
    rcases List.mem_cons.mp hmem with rfl | hmem
    · rw [hnone]
      rfl
    · rw [ih hmem]
      cases f y <;> rfl

/-- An aggregator is written as an object, whose members are not objects. -/
theorem readBackend_aggregator {json bs : V} (hbs : subscript json (ascii "backends") = some bs)
    {aggregator : Hostport}
    (hss : subscript bs (ascii "aggregator") = some (hostportJson aggregator))
    (backends : List Hostport × Bool) :
    readBackend json backends (ascii "aggregator") = none := by
  obtain ⟨hcontainer, hhost, -⟩ := lookup_hostportJson (V := V) aggregator
  have hmember : JsonMembers.member (hostportJson aggregator : V) (ascii "host") =
      some (some (ofString aggregator.host)) := by
    rw [hcontainer.member_eq, hhost]
  have hnone : aggregatorHostport (ofString aggregator.host : V) = none := by
    rw [aggregatorHostport, getString_ofString]
    rfl
  rw [readBackend, if_pos rfl, hbs, Option.bind_eq_bind, Option.bind_some, hss,
    Option.bind_eq_bind, Option.bind_some, mapM_eq_none (mem_values hmember) hnone]
  rfl

/-- A loop throws when it throws at one of its names. -/
theorem foldlM_eq_none {α β : Type*} {f : β → α → Option β} {xs : List α} {x : α} (hmem : x ∈ xs)
    (hnone : ∀ b, f b x = none) (b : β) : xs.foldlM f b = none := by
  induction xs generalizing b with
  | nil => cases hmem
  | cons y ys ih =>
    rw [List.foldlM_cons]
    rcases List.mem_cons.mp hmem with rfl | hmem
    · rw [hnone]
      rfl
    · cases f b y with
      | none => rfl
      | some b' => exact ih hmem b'

/-- With aggregators the published configuration is not read at all. -/
theorem ofJson_toJson_eq_none (compile : Bytes → Option Regex) {config : ProxyConfig Regex}
    (hne : config.aggregators ≠ []) : ProxyConfig.ofJson compile (config.toJson : V) = none := by
  obtain ⟨first, last, hlast⟩ := (List.eq_nil_or_concat config.aggregators).resolve_left hne
  rw [List.concat_eq_append] at hlast
  have hfront := container_foldl_update
    (container_assign (container_null (V := V)) (ascii "stdout") [] (ofBool config.stdout))
    (ascii "aggregator") [] (fun aggregator _ => hostportJson aggregator) first
  have hchild := config.child_toJson_backends (V := V)
  rw [hlast, List.foldl_concat] at hchild
  have hbackends : Container (child (config.toJson : V) (ascii "backends")) := by
    rw [hchild]
    exact container_update hfront _ _ _
  have hwritten : lookup (child (config.toJson : V) (ascii "backends")) (ascii "aggregator") =
      some (hostportJson last) := by
    rw [hchild]
    exact lookup_assign_self hfront _ _
  obtain ⟨names, hnames, -, hmem⟩ := hbackends.exists_getMemberNames
  have haggregator : ascii "aggregator" ∈ names := by
    rw [hmem, hwritten]
    exact Option.some_ne_none _
  have hss : subscript (child (config.toJson : V) (ascii "backends")) (ascii "aggregator") =
      some (hostportJson last) := by
    rw [hbackends.subscript_eq, child, hwritten, Option.getD_some]
  have hbs := config.container_toJson.subscript_eq (V := V) (ascii "backends")
  have hfold := foldlM_eq_none haggregator (readBackend_aggregator hbs hss) ([], false)
  rw [ProxyConfig.ofJson]
  cases Config.ofJson (config.toJson : V) with
  | none => rfl
  | some base =>
    rw [hbs]
    simp only [Option.bind_eq_bind, Option.bind_some, hnames, hfold, Option.bind_none]

end Written

/-- The settings of the proxy that are written, or have their defaults. -/
structure Published (config : ProxyConfig Regex) : Prop where
  base : config.toConfig.Published
  workers : config.workers = 1
  aggregators : config.aggregators = []
  stdout : config.stdout = true
  blacklist : config.blacklist = []

theorem built_of_ofJson {V : Type} [JsonValue V] {compile : Bytes → Option Regex} {json : V}
    {config : ProxyConfig Regex} (h : ProxyConfig.ofJson compile json = some config) :
    config.toConfig.Built := by
  simp only [ProxyConfig.ofJson, Option.bind_eq_bind, Option.bind_eq_some_iff, Option.pure_def,
    Option.some.injEq] at h
  obtain ⟨base, hbase, _, _, _, _, _, _, _, _, _, _, rfl⟩ := h
  exact Config.built_of_ofJson hbase

theorem ofJson_toJson_iff {V : Type} [JsonDocument V] {compile : Bytes → Option Regex}
    {config : ProxyConfig Regex} (hbuilt : config.toConfig.Built) :
    ProxyConfig.ofJson compile (config.toJson : V) = some config ↔ config.Published := by
  by_cases hnil : config.aggregators = []
  · rw [ofJson_toJson compile hbuilt hnil, Option.some.injEq]
    constructor
    · intro h
      have hbase := (config.toConfig.eq_republished_iff 1).mp
        (congrArg ProxyConfig.toConfig h).symm
      exact ⟨hbase.1, hbase.2, hnil, (congrArg ProxyConfig.stdout h).symm,
        (congrArg ProxyConfig.blacklist h).symm⟩
    · obtain ⟨base, aggregators, stdout, blacklist⟩ := config
      rintro ⟨hbase, hworkers, rfl, rfl, rfl⟩
      have hsame : base = base.republished 1 := (base.eq_republished_iff 1).mpr ⟨hbase, hworkers⟩
      exact congrArg (ProxyConfig.mk · [] true []) hsame.symm
  · rw [ofJson_toJson_eq_none compile hnil]
    exact iff_of_false nofun fun h => hnil h.aggregators

end ProxyConfig

-- ════════════════════════════════════════════════════════════════════════
-- Both programs
-- ════════════════════════════════════════════════════════════════════════

/-- A configuration that was read from a document is read again, with equal settings, from
the document that it publishes just when its settings are among those that are written, or
have their defaults. -/
theorem Config.published_iff {V Regex : Type} [JsonDocument V] (compile : Bytes → Option Regex)
    (json : V) :
    (∀ config : LoadedConfig, LoadedConfig.ofJson json = some config →
      ((∃ config', LoadedConfig.ofJson (config.toJson : V) = some config' ∧
        config.Same config') ↔ config.Published)) ∧
    ∀ config : ProxyConfig Regex, ProxyConfig.ofJson compile json = some config →
      (ProxyConfig.ofJson compile (config.toJson : V) = some config ↔ config.Published) := by
  refine ⟨fun config h => ?_, fun config h => ?_⟩
  · rw [LoadedConfig.ofJson_toJson (LoadedConfig.built_of_ofJson h),
      ← config.same_republished_iff]
    simp
  · exact ProxyConfig.ofJson_toJson_iff (ProxyConfig.built_of_ofJson h)

theorem Config.published_iff_stdout :
    (∃ config config' : LoadedConfig,
      LoadedConfig.ofJson (Json.object
        [(ascii "backends", .object [(ascii "stdout", .bool true)])]) = some config ∧
      LoadedConfig.ofJson (config.toJson : Json) = some config' ∧ config.Same config') ∧
    ∃ config : ProxyConfig Unit,
      ProxyConfig.ofJson (fun _ => some ()) (Json.object
        [(ascii "backends", .object [(ascii "stdout", .bool true)])]) = some config ∧
      ProxyConfig.ofJson (fun _ => some ()) (config.toJson : Json) = some config := by
  obtain ⟨haggregator, hproxy⟩ := Config.published_iff (fun _ => some ()) (Json.object
    [(ascii "backends", .object [(ascii "stdout", .bool true)])])
  constructor
  · obtain ⟨config', hread, hsame⟩ := (haggregator _ rfl).mpr
      ⟨⟨.inr rfl, rfl, rfl⟩, rfl, rfl, rfl, rfl, rfl, rfl⟩
    exact ⟨_, config', rfl, hread, hsame⟩
  · exact ⟨_, rfl, (hproxy _ rfl).mpr ⟨⟨.inr rfl, rfl, rfl⟩, rfl, rfl, rfl, rfl⟩⟩

/-- An aggregator that does not print publishes a configuration that does. -/
theorem Config.not_published_stdout :
    ¬∀ (json : Json) (config : LoadedConfig), LoadedConfig.ofJson json = some config →
      ∃ config', LoadedConfig.ofJson (config.toJson : Json) = some config' ∧
        config.Same config' := by
  intro h
  have hread : ∃ config, LoadedConfig.ofJson (Json.object []) = some config ∧
      config.backends.stdout = false := ⟨_, rfl, rfl⟩
  obtain ⟨config, hread, hstdout⟩ := hread
  obtain ⟨config', hagain, hsame⟩ := h _ _ hread
  rw [LoadedConfig.ofJson_toJson (LoadedConfig.built_of_ofJson hread), Option.some.injEq] at hagain
  have hprints : config'.backends.stdout = true := congrArg (·.backends.stdout) hagain.symm
  rw [← hsame.stdout, hstdout] at hprints
  cases hprints

end Statsdcc
