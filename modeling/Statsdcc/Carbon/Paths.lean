import Mathlib
import Statsdcc.Carbon

/-!
# The paths of one flush

A path consists of the global prefix, the section, the cleaned name and, but for
gauges, the name of a statistic. Each part can be read off the path, so that two
lines have the same path only if two names are cleaned to one, or a path of the
ledger's own statistics looks like a section.

## Main results

- `Carbon.nodup_paths` — when one flush sends no path twice
- `Carbon.paths_collide` — what makes it send a path twice
-/

open Bytes

namespace Statsdcc

namespace Carbon

/-- One path for each statistic of each key of a map. -/
theorem nodup_statPaths {ν : Type*} {es : List (Σ _ : Bytes, ν)} (hkeys : es.NodupKeys)
    (base : Bytes) {p : Bytes → Bytes} (hp : ∀ e ∈ es, ∀ e' ∈ es, p e.1 = p e'.1 → e.1 = e'.1)
    {stats : ν → List Bytes}
    (hstats : ∀ e ∈ es, (stats e.2).Nodup ∧ ∀ s ∈ stats e.2, point ∉ s) :
    (es.flatMap fun e => (stats e.2).map fun s => base ++ (p e.1 ++ point :: s)).Nodup := by
  rw [List.nodup_flatMap]
  constructor
  · intro e he
    obtain ⟨hnodup, hpoint⟩ := hstats e he
    refine hnodup.map_on fun s hs s' hs' heq => ?_
    exact (append_cons_inj_right (hpoint s hs) (hpoint s' hs') (List.append_cancel_left heq)).2
  · refine (List.NodupKeys.pairwise_ne hkeys).imp_of_mem ?_
    intro e e' he he' hne path hpath hpath'
    obtain ⟨s, hs, rfl⟩ := List.mem_map.mp hpath
    obtain ⟨s', hs', heq⟩ := List.mem_map.mp hpath'
    have hnames := (append_cons_inj_right ((hstats e' he').2 s' hs') ((hstats e he).2 s hs)
      (List.append_cancel_left heq)).1
    exact hne (hp e he e' he' hnames.symm)

/-- Different keys of the map keep different names. -/
def NamesApart {ν : Type*} (env : CarbonEnv) (m : UnorderedMap Bytes ν) : Prop :=
  ∀ k ∈ m, ∀ k' ∈ m, processName env k = processName env k' → k = k'

instance {ν : Type*} (env : CarbonEnv) (m : UnorderedMap Bytes ν) : Decidable (NamesApart env m) :=
  inferInstanceAs (Decidable (∀ k ∈ m.keys, ∀ k' ∈ m.keys, _))

theorem NamesApart.of_entries {ν : Type*} {env : CarbonEnv} {m : UnorderedMap Bytes ν}
    (h : NamesApart env m) :
    ∀ e ∈ m.entries, ∀ e' ∈ m.entries, processName env e.1 = processName env e'.1 → e.1 = e'.1 :=
  fun e he e' he' =>
    h e.1 (List.mem_map_of_mem he) e'.1 (List.mem_map_of_mem he')

theorem isStatChar_of_all {names : List Bytes} (h : ∀ s ∈ names, s.all isStatChar = true) :
    ∀ s ∈ names, ∀ c ∈ s, isStatChar c = true :=
  fun s hs => List.all_eq_true.mp (h s hs)

section Paths

variable {R : Type} [CDouble R]

/-- The default names of the sections. -/
structure DefaultSections (config : AggregatorConfig) : Prop where
  counter : config.prefixCounter = ascii "counters."
  timer : config.prefixTimer = ascii "timers."
  gauge : config.prefixGauge = ascii "gauges."
  set : config.prefixSet = ascii "sets."

def sections : List Bytes := [ascii "counters.", ascii "timers.", ascii "gauges.", ascii "sets."]

/-- The paths of the ledger's own statistics. -/
def statPaths (env : CarbonEnv) (ledger : Ledger R) (flusherId : ℤ) : List Bytes :=
  ([ascii ".numStats", ascii ".carbonStats.calculationtime"] ++
    ledger.statsdMetrics.keys.map (ascii "." ++ ·)).map (prefixStats env flusherId ++ ·)

/-- The condition under which a flush sends no path twice: names of one section
stay different, the configured names are clean, and no path of the ledger's own
statistics begins like the paths of a section. -/
structure PathsApart (env : CarbonEnv) (ledger : Ledger R) (flusherId : ℤ) : Prop where
  counters : NamesApart env ledger.counters
  timers : NamesApart env ledger.timers
  gauges : NamesApart env ledger.gauges
  sets : NamesApart env ledger.sets
  name_clean : Clean env.config.name
  prefix_clean : Clean env.config.prefixAll
  own : ∀ name ∈ sections, ∀ path ∈ statPaths env ledger flusherId,
    ¬(env.config.prefixAll ++ name) <+: path

theorem counterPair_path (env : CarbonEnv) (key : Bytes) (value rate : R) :
    (counterPair env key value rate).map Record.path =
      [ascii "rate", ascii "count"].map fun s =>
        env.config.prefixAll ++ env.config.prefixCounter ++
          (processName env key ++ point :: s) := by
  simp [counterPair, ascii, point]

/-- Every counter of a processed ledger has a rate, so that nothing is thrown. -/
theorem exists_counterRecords (env : CarbonEnv) {ledger : Ledger R}
    (h : ledger.Processed env.config) :
    ∃ rs, counterRecords env ledger = some rs ∧
      rs.map Record.path = (ledger.counters.entries.flatMap fun e =>
        [ascii "rate", ascii "count"].map fun s =>
          env.config.prefixAll ++ env.config.prefixCounter ++ (processName env e.1 ++ point :: s)) ∧
      ∀ r ∈ rs, Clean r.value := by
  refine ⟨_, by rw [counterRecords, h.rated.mapM_rates (counterPair env), Option.map_some],
    ?_, ?_⟩
  · rw [List.map_flatten, List.map_map, List.flatMap_def]
    refine congrArg List.flatten (List.map_congr_left fun e _ => ?_)
    exact counterPair_path env e.1 e.2 _
  · intro r hr
    obtain ⟨rs, hrs, hr⟩ := List.mem_flatten.mp hr
    obtain ⟨e, -, rfl⟩ := List.mem_map.mp hrs
    simp only [counterPair, List.mem_cons, List.not_mem_nil, or_false] at hr
    rcases hr with rfl | rfl <;> exact clean_toText _

theorem timerRecords_path (env : CarbonEnv) (ledger : Ledger R) :
    (timerRecords env ledger).map Record.path = ledger.timerData.entries.flatMap fun e =>
      e.2.keys.map fun s =>
        env.config.prefixAll ++ env.config.prefixTimer ++ (processName env e.1 ++ point :: s) := by
  rw [timerRecords, List.map_flatMap]
  refine List.flatMap_congr fun e _ => ?_
  rw [List.map_map, AList.keys, List.keys, List.map_map]
  refine List.map_congr_left fun stat _ => ?_
  simp [ascii, point]

omit [CDouble R] in
theorem setRecords_path (env : CarbonEnv) (ledger : Ledger R) :
    (setRecords env ledger).map Record.path = ledger.sets.entries.flatMap fun e =>
      [ascii "count"].map fun s =>
        env.config.prefixAll ++ env.config.prefixSet ++ (processName env e.1 ++ point :: s) := by
  rw [setRecords, List.map_map, List.map_eq_flatMap]
  refine List.flatMap_congr fun e _ => ?_
  simp [ascii, point]

theorem gaugeRecords_path (env : CarbonEnv) (ledger : Ledger R) :
    (gaugeRecords env ledger).map Record.path = ledger.gauges.entries.map fun e =>
      env.config.prefixAll ++ env.config.prefixGauge ++ processName env e.1 := by
  rw [gaugeRecords, List.map_map]
  rfl

omit [CDouble R] in
theorem statRecords_path (env : CarbonEnv) (ledger : Ledger R) (flusherId : ℤ) (totalTime : ℕ) :
    (statRecords env ledger flusherId totalTime).map Record.path =
      statPaths env ledger flusherId := by
  simp [statRecords, statPaths, AList.keys, List.keys]

theorem nodup_statPaths_own (env : CarbonEnv) {ledger : Ledger R}
    (h : ledger.Processed env.config) (flusherId : ℤ) :
    (statPaths env ledger flusherId).Nodup := by
  have hkeys : ∀ k ∈ ledger.statsdMetrics.keys,
      k = ascii "metrics_processed" ∨ k = ascii "processing_time" :=
    fun k hk => h.statsdMetric_eq (AList.mem_keys.mp hk)
  refine List.Nodup.map (fun _ _ => List.append_cancel_left) ?_
  refine List.nodup_append.mpr ⟨by decide, ?_, ?_⟩
  · exact (AList.keys_nodup _).map fun _ _ => List.append_cancel_left
  · rintro _ hfixed _ hmetric rfl
    obtain ⟨k, hk, hpath⟩ := List.mem_map.mp hmetric
    rcases hkeys k hk with rfl | rfl <;> rw [← hpath] at hfixed <;>
      exact absurd hfixed (by decide)

theorem clean_statPaths {env : CarbonEnv} {ledger : Ledger R} (h : ledger.Processed env.config)
    (hname : Clean env.config.name) (flusherId : ℤ) :
    ∀ path ∈ statPaths env ledger flusherId, Clean path := by
  have hglobal : Clean (prefixStats env flusherId) :=
    (hname.append (by decide)).append (clean_intText flusherId)
  intro path hpath
  obtain ⟨name, hname', rfl⟩ := List.mem_map.mp hpath
  refine hglobal.append ?_
  rcases List.mem_append.mp hname' with hfixed | hmetric
  · simp only [List.mem_cons, List.not_mem_nil, or_false] at hfixed
    rcases hfixed with rfl | rfl <;> decide
  · obtain ⟨k, hk, rfl⟩ := List.mem_map.mp hmetric
    rcases h.statsdMetric_eq (AList.mem_keys.mp hk) with rfl | rfl <;> decide

/-- The paths of one section: they are different and begin alike. -/
structure SectionPaths (env : CarbonEnv) (name : Bytes) (rs : List Record) : Prop where
  nodup : (rs.map Record.path).Nodup
  starts : ∀ path ∈ rs.map Record.path, (env.config.prefixAll ++ name) <+: path
  clean : ∀ r ∈ rs, Clean r.path ∧ Clean r.value

/-- Paths of sections with different names are different. -/
theorem SectionPaths.ne {env : CarbonEnv} {name name' : Bytes} {rs rs' : List Record}
    (h : SectionPaths env name rs) (h' : SectionPaths env name' rs') (hne : ¬name <+: name')
    (hne' : ¬name' <+: name) : ∀ x ∈ rs.map Record.path, ∀ y ∈ rs'.map Record.path, x ≠ y := by
  rintro x hx _ hy rfl
  rcases List.prefix_or_prefix_of_prefix (h.starts x hx) (h'.starts x hy) with hp | hp
  · exact hne ((List.prefix_append_right_inj _).mp hp)
  · exact hne' ((List.prefix_append_right_inj _).mp hp)

/-- Sections with different names have different paths altogether. -/
theorem nodup_sections {env : CarbonEnv} {groups : List (Bytes × List Record)}
    (h : ∀ g ∈ groups, SectionPaths env g.1 g.2)
    (hnames : groups.Pairwise fun g g' => ¬g.1 <+: g'.1 ∧ ¬g'.1 <+: g.1) :
    ((groups.flatMap Prod.snd).map Record.path).Nodup := by
  rw [List.map_flatMap, List.nodup_flatMap]
  refine ⟨fun g hg => (h g hg).nodup, hnames.imp_of_mem ?_⟩
  intro g g' hg hg' hne x hx hx'
  exact (h g hg).ne (h g' hg') hne.1 hne.2 x hx x hx' rfl

/-- The paths of a section with one path for each statistic of each key. -/
theorem sectionPaths_of_stats {ν : Type*} {env : CarbonEnv} (hregex : RegexSpec env.regexReplace)
    (hglobal : Clean env.config.prefixAll) {name : Bytes} (hname : Clean name)
    {m : UnorderedMap Bytes ν} (hapart : NamesApart env m) (stats : ν → List Bytes)
    (hstats : ∀ e ∈ m.entries, (stats e.2).Nodup ∧ ∀ s ∈ stats e.2, ∀ c ∈ s, isStatChar c = true)
    {rs : List Record} (hpaths : rs.map Record.path = m.entries.flatMap fun e =>
      (stats e.2).map fun s => env.config.prefixAll ++ name ++ (processName env e.1 ++ point :: s))
    (hvalues : ∀ r ∈ rs, Clean r.value) : SectionPaths env name rs := by
  have hform : ∀ path ∈ rs.map Record.path, ∃ rest, Clean rest ∧
      path = env.config.prefixAll ++ name ++ rest := by
    intro path hpath
    rw [hpaths] at hpath
    obtain ⟨e, he, hpath⟩ := List.mem_flatMap.mp hpath
    obtain ⟨s, hs, rfl⟩ := List.mem_map.mp hpath
    have hstat : Clean (ascii "." ++ s) :=
      Clean.append (by decide) (clean_of_isStatChar ((hstats e he).2 s hs))
    exact ⟨_, (clean_processName hregex e.1).append hstat, rfl⟩
  constructor
  case nodup =>
    rw [hpaths]
    refine nodup_statPaths m.nodupKeys _ hapart.of_entries fun e he => ?_
    exact ⟨(hstats e he).1, fun s hs => notMem_of_forall ((hstats e he).2 s hs) (by decide)⟩
  case starts =>
    intro path hpath
    obtain ⟨rest, -, rfl⟩ := hform path hpath
    exact List.prefix_append _ _
  case clean =>
    intro r hr
    obtain ⟨rest, hrest, hpath⟩ := hform r.path (List.mem_map_of_mem hr)
    exact ⟨hpath ▸ (hglobal.append hname).append hrest, hvalues r hr⟩

/-- The paths of the gauges, which have no statistics. -/
theorem sectionPaths_gauges {env : CarbonEnv} (hregex : RegexSpec env.regexReplace)
    (hdefault : DefaultSections env.config) (hglobal : Clean env.config.prefixAll)
    {ledger : Ledger R} (hapart : NamesApart env ledger.gauges) :
    SectionPaths env (ascii "gauges.") (gaugeRecords env ledger) := by
  have hentries : ledger.gauges.entries.Nodup := (AList.nodupKeys _).nodup
  constructor
  case nodup =>
    rw [gaugeRecords_path]
    refine List.Nodup.map_on (fun e he e' he' heq => ?_) hentries
    have hkey := hapart.of_entries e he e' he' (List.append_cancel_left heq)
    exact List.NodupKeys.eq_of_fst_eq (AList.nodupKeys _) he he' hkey
  case starts =>
    intro path hpath
    rw [gaugeRecords_path, hdefault.gauge] at hpath
    obtain ⟨e, -, rfl⟩ := List.mem_map.mp hpath
    exact List.prefix_append _ _
  case clean =>
    intro r hr
    obtain ⟨e, -, rfl⟩ := List.mem_map.mp hr
    rw [hdefault.gauge]
    exact ⟨(hglobal.append (by decide)).append (clean_processName hregex e.1), clean_toText _⟩

/-- The paths of the ledger's own statistics are different, too. -/
theorem nodup_append_statRecords {env : CarbonEnv} {ledger : Ledger R} {flusherId : ℤ}
    (hledger : ledger.Processed env.config) (hapart : PathsApart env ledger flusherId)
    {rs : List Record} (hnodup : (rs.map Record.path).Nodup)
    (hstarts : ∀ path ∈ rs.map Record.path, ∃ name ∈ sections,
      (env.config.prefixAll ++ name) <+: path) (totalTime : ℕ) :
    ((rs ++ statRecords env ledger flusherId totalTime).map Record.path).Nodup := by
  rw [List.map_append, statRecords_path]
  refine List.nodup_append.mpr ⟨hnodup, nodup_statPaths_own env hledger flusherId, ?_⟩
  rintro path hpath _ hown rfl
  obtain ⟨name, hname, hstart⟩ := hstarts path hpath
  exact hapart.own name hname path hown hstart

theorem clean_statRecords {env : CarbonEnv} {ledger : Ledger R} {flusherId : ℤ}
    (hledger : ledger.Processed env.config) (hname : Clean env.config.name) (totalTime : ℕ) :
    ∀ r ∈ statRecords env ledger flusherId totalTime, Clean r.path ∧ Clean r.value := by
  intro r hr
  constructor
  · refine clean_statPaths hledger hname flusherId r.path ?_
    rw [← statRecords_path env ledger flusherId totalTime]
    exact List.mem_map_of_mem hr
  · simp only [statRecords, List.mem_cons, List.mem_map] at hr
    rcases hr with rfl | rfl | ⟨metric, -, rfl⟩
    · exact clean_natText _
    · exact clean_natText _
    · exact clean_intText _

theorem sectionPaths_timers {env : CarbonEnv} (hregex : RegexSpec env.regexReplace)
    (hdefault : DefaultSections env.config) (hglobal : Clean env.config.prefixAll)
    {ledger : Ledger R} (hledger : ledger.Processed env.config)
    (hapart : NamesApart env ledger.timers) :
    SectionPaths env (ascii "timers.") (timerRecords env ledger) := by
  have htimers : NamesApart env ledger.timerData := fun k hk k' hk' =>
    hapart k ((hledger.mem_timerData k).mp hk) k' ((hledger.mem_timerData k').mp hk')
  refine sectionPaths_of_stats hregex hglobal (by decide) htimers (fun data => data.keys) ?_
    (hdefault.timer ▸ timerRecords_path env ledger) ?_
  · intro e he
    have hnames := hledger.statNames (AList.mem_lookup_iff.mpr he)
    exact ⟨AList.keys_nodup _, fun s hs => hnames s (AList.mem_keys.mp hs)⟩
  · intro r hr
    obtain ⟨timer, -, hr⟩ := List.mem_flatMap.mp hr
    obtain ⟨stat, -, rfl⟩ := List.mem_map.mp hr
    exact clean_toText _

omit [CDouble R] in
theorem sectionPaths_sets {env : CarbonEnv} (hregex : RegexSpec env.regexReplace)
    (hdefault : DefaultSections env.config) (hglobal : Clean env.config.prefixAll)
    {ledger : Ledger R} (hapart : NamesApart env ledger.sets) :
    SectionPaths env (ascii "sets.") (setRecords env ledger) := by
  refine sectionPaths_of_stats hregex hglobal (by decide) hapart (fun _ => [ascii "count"]) ?_
    (hdefault.set ▸ setRecords_path env ledger) ?_
  · exact fun _ _ => ⟨by decide, isStatChar_of_all (by decide)⟩
  · intro r hr
    obtain ⟨set, -, rfl⟩ := List.mem_map.mp hr
    exact clean_natText _

theorem exists_sectionPaths_counters {env : CarbonEnv} (hregex : RegexSpec env.regexReplace)
    (hdefault : DefaultSections env.config) (hglobal : Clean env.config.prefixAll)
    {ledger : Ledger R} (hledger : ledger.Processed env.config)
    (hapart : NamesApart env ledger.counters) :
    ∃ rs, counterRecords env ledger = some rs ∧ SectionPaths env (ascii "counters.") rs := by
  obtain ⟨rs, hrs, hpaths, hvalues⟩ := exists_counterRecords env hledger
  refine ⟨rs, hrs, sectionPaths_of_stats hregex hglobal (by decide) hapart
    (fun _ => [ascii "rate", ascii "count"]) ?_ (hdefault.counter ▸ hpaths) hvalues⟩
  exact fun _ _ => ⟨by decide, isStatChar_of_all (by decide)⟩

/-- The records of a flush have distinct paths. -/
theorem exists_records {env : CarbonEnv} (hregex : RegexSpec env.regexReplace)
    (hdefault : DefaultSections env.config) {ledger : Ledger R}
    (hledger : ledger.Processed env.config) {flusherId : ℤ}
    (hapart : PathsApart env ledger flusherId) (totalTime : ℕ) :
    ∃ rs, records env ledger flusherId totalTime = some rs ∧ (rs.map Record.path).Nodup ∧
      ∀ r ∈ rs, Clean r.path ∧ Clean r.value := by
  have hglobal := hapart.prefix_clean
  obtain ⟨counters, hcounters, hc⟩ :=
    exists_sectionPaths_counters hregex hdefault hglobal hledger hapart.counters
  have ht := sectionPaths_timers hregex hdefault hglobal hledger hapart.timers
  have hg := sectionPaths_gauges hregex hdefault hglobal hapart.gauges
  have hs := sectionPaths_sets hregex hdefault hglobal hapart.sets
  obtain ⟨groups, hgroups⟩ : ∃ groups, groups =
      [(ascii "counters.", counters), (ascii "timers.", timerRecords env ledger),
        (ascii "gauges.", gaugeRecords env ledger), (ascii "sets.", setRecords env ledger)] :=
    ⟨_, rfl⟩
  have hsection : ∀ g ∈ groups, g.1 ∈ sections ∧ SectionPaths env g.1 g.2 := by
    subst hgroups
    simp [sections, hc, ht, hg, hs]
  have happend : counters ++ timerRecords env ledger ++ gaugeRecords env ledger ++
      setRecords env ledger = groups.flatMap Prod.snd := by
    subst hgroups
    simp
  have hnames : groups.Pairwise fun g g' => ¬g.1 <+: g'.1 ∧ ¬g'.1 <+: g.1 := by
    have hsections : sections.Pairwise fun name name' => ¬name <+: name' ∧ ¬name' <+: name := by
      decide
    have hmap : groups.map Prod.fst = sections := by
      subst hgroups
      rfl
    rw [← hmap, List.pairwise_map] at hsections
    exact hsections
  refine ⟨_, by rw [records, hcounters, Option.map_some, happend], ?_, ?_⟩
  · refine nodup_append_statRecords hledger hapart ?_ ?_ totalTime
    · exact nodup_sections (fun g hg => (hsection g hg).2) hnames
    · intro path hpath
      obtain ⟨r, hr, rfl⟩ := List.mem_map.mp hpath
      obtain ⟨g, hg, hr⟩ := List.mem_flatMap.mp hr
      obtain ⟨hname, hpaths⟩ := hsection g hg
      exact ⟨g.1, hname, hpaths.starts r.path (List.mem_map_of_mem hr)⟩
  · intro r hr
    rcases List.mem_append.mp hr with hr | hr
    · obtain ⟨g, hg, hr⟩ := List.mem_flatMap.mp hr
      exact (hsection g hg).2.clean r hr
    · exact clean_statRecords hledger hapart.name_clean totalTime r hr

/-- One flush of a processed ledger sends no path twice, if the names of each
section stay different when they are cleaned, and the ledger's own statistics do
not look like a section. -/
theorem nodup_paths {env : CarbonEnv} (hregex : RegexSpec env.regexReplace)
    (hdefault : DefaultSections env.config) {ledger : Ledger R}
    (hledger : ledger.Processed env.config) {flusherId : ℤ}
    (hapart : PathsApart env ledger flusherId) (timeStamp totalTime : ℕ) :
    ∃ payloads, flushStats env ledger flusherId timeStamp totalTime = some payloads ∧
      ((sentLines payloads).map linePath).Nodup := by
  obtain ⟨rs, hrs, hnodup, hclean⟩ := exists_records hregex hdefault hledger hapart totalTime
  refine ⟨_, by rw [flushStats, hrs]; rfl, ?_⟩
  exact nodup_linePath_of_records env timeStamp hclean hnodup

end Paths

/-- One server for all keys. -/
def oneServer (config : AggregatorConfig) : CarbonEnv := ⟨config, regexReplace, fun _ => ⟨[], 0⟩⟩

theorem nodup_paths_oneServer :
    ∃ payloads, flushStats (oneServer {})
        (Ledger.flushed {} [ascii "a b:1|c", ascii "a/b:2|c", ascii "a b:2|g"]) 0 0 0 =
          some payloads ∧
      ((sentLines payloads).map linePath).Nodup :=
  nodup_paths regexSpec ⟨rfl, rfl, rfl, rfl⟩ (Ledger.processed_flushed _ _ _)
    ⟨by decide +kernel, by decide +kernel, by decide +kernel, by decide +kernel, by decide,
      by decide, by decide +kernel⟩ 0 0

/-- The ledger after the lines is flushed with two lines of the same path. -/
def Collides (config : AggregatorConfig) (lines : List Bytes) : Prop :=
  (Ledger.flushed config lines).Processed config ∧ DefaultSections config ∧
    (∀ name ∈ sections, ¬name <+: config.name) ∧
    ∃ payloads ∈ flushStats (oneServer config) (Ledger.flushed config lines) 0 0 0,
      ¬((sentLines payloads).map linePath).Nodup

/-- Names that are cleaned to one path, a section's name as the configured name,
and blanks in the configured name or prefix. -/
theorem paths_collide :
    Collides {} [ascii "a b:1|c", ascii "a_b:1|c"] ∧
      Collides { name := ascii "gauges" } [ascii "thread_0.numStats:1|g"] ∧
      Collides { name := ascii "a b" } [] ∧
      Collides { prefixAll := ascii "a b." } [ascii "a:1|c"] := by
  refine ⟨?_, ?_, ?_, ?_⟩ <;>
    exact ⟨Ledger.processed_flushed _ _ _, ⟨rfl, rfl, rfl, rfl⟩, by decide, by decide +kernel⟩

end Carbon

end Statsdcc
