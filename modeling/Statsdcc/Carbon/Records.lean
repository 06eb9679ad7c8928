import Mathlib
import Statsdcc.Report
import Statsdcc.Carbon.Paths

/-!
# The records of a payload

Metric names are any bytes that a client sends. `process_name` leaves none of
them in a path that could end a field or a line, so that a payload is split into
as many lines as were appended to it.

## Main results

- `Carbon.processName_eq_self` — `process_name` keeps a name of allowed characters
- `Carbon.unspaced_carbonPath` — no path has white space
- `Carbon.payloads_of_records` — a payload is read as the records appended to it
-/

open Bytes

namespace Statsdcc

namespace Carbon

/-- A text without white space. -/
def Unspaced (s : Bytes) : Prop := ∀ c ∈ s, isSpace c = false

instance (s : Bytes) : Decidable (Unspaced s) :=
  decidable_of_iff (s.all (fun c => !isSpace c) = true) (by simp [Unspaced])

theorem Unspaced.append {s t : Bytes} (hs : Unspaced s) (ht : Unspaced t) : Unspaced (s ++ t) := by
  intro c hc
  rcases List.mem_append.mp hc with hc | hc
  · exact hs c hc
  · exact ht c hc

/-- A text whose characters pass a test that no white space passes. -/
theorem unspaced_of_forall {p : Byte → Bool} (hp : ∀ c, isSpace c = true → p c = false)
    {s : Bytes} (h : ∀ c ∈ s, p c = true) : Unspaced s := by
  intro c hc
  by_contra hspace
  have hfail := hp c (by simpa using hspace)
  rw [h c hc] at hfail
  cases hfail

/-- The characters of white space. -/
theorem isSpace_cases {c : Byte} (h : isSpace c = true) :
    c ∈ ([9, 10, 11, 12, 13, 32] : Bytes) := by
  simp only [isSpace, space, ← UInt8.toNat_inj, UInt8.reduceToNat, Bool.or_eq_true,
    Bool.and_eq_true, decide_eq_true_eq] at h
  simp only [List.mem_cons, List.not_mem_nil, or_false, ← UInt8.toNat_inj, UInt8.reduceToNat]
  omega

theorem not_of_isSpace {p : Byte → Bool}
    (hp : ([9, 10, 11, 12, 13, 32] : Bytes).all (fun c => !p c) = true) (c : Byte)
    (h : isSpace c = true) : p c = false := by
  simpa using List.all_eq_true.mp hp c (isSpace_cases h)

theorem Unspaced.clean {s : Bytes} (h : Unspaced s) : Clean s := by
  have hnot : ∀ c ∈ s, (!isSpace c) = true := fun c hc => by simp [h c hc]
  exact ⟨notMem_of_forall hnot (by decide), notMem_of_forall hnot (by decide)⟩

theorem unspaced_of_isPlain {s : Bytes} (h : ∀ c ∈ s, isPlain c = true) : Unspaced s :=
  unspaced_of_forall (not_of_isSpace (by decide)) h

theorem unspaced_natText (n : ℕ) : Unspaced (natText n) :=
  unspaced_of_isPlain fun _ => isPlain_natText

theorem unspaced_intText (n : ℤ) : Unspaced (intText n) := by
  rw [intText]
  split
  · intro c hc
    rcases List.mem_cons.mp hc with rfl | hc
    · decide
    · exact unspaced_natText _ c hc
  · exact unspaced_natText _

section Names

variable {env : CarbonEnv}

/-- Only allowed characters are left of a name. -/
theorem isNameChar_processName (h : RegexSpec env.regexReplace) (name : Bytes) :
    ∀ c ∈ processName env name, isNameChar c = true := by
  rw [processName, h.others]
  exact fun c hc => (List.mem_filter.mp hc).2

theorem squeezeSpaces_of_unspaced {s : Bytes} (h : Unspaced s) (inRun : Bool) :
    squeezeSpaces inRun s = s := by
  induction s generalizing inRun with
  | nil => rfl
  | cons c s ih =>
    have hc : ¬ isSpace c = true := by simp [h c (by simp)]
    rw [squeezeSpaces, if_neg hc, ih fun b hb => h b (by simp [hb])]

/-- A name of allowed characters is left unchanged. -/
theorem processName_eq_self (h : RegexSpec env.regexReplace) {name : Bytes}
    (hname : ∀ c ∈ name, isNameChar c = true) : processName env name = name := by
  have hspaces : Unspaced name := unspaced_of_forall (not_of_isSpace (by decide)) hname
  have hslashes : (name.map fun c => if c = slash then minus else c) = name := by
    refine (List.map_congr_left fun c hc => ?_).trans (List.map_id name)
    exact if_neg fun heq => notMem_of_forall hname (by decide) (heq ▸ hc)
  rw [processName, h.spaces, squeezeSpaces_of_unspaced hspaces, h.slashes, h.others]
  rw [hslashes]
  exact List.filter_eq_self.mpr hname

theorem processName_idem (h : RegexSpec env.regexReplace) (name : Bytes) :
    processName env (processName env name) = processName env name :=
  processName_eq_self h (isNameChar_processName h name)

theorem unspaced_processName (h : RegexSpec env.regexReplace) (name : Bytes) :
    Unspaced (processName env name) :=
  unspaced_of_forall (not_of_isSpace (by decide)) (isNameChar_processName h name)

end Names

/-- The configured name and prefixes have no white space. -/
structure UnspacedConfig (config : AggregatorConfig) : Prop where
  name : Unspaced config.name
  all : Unspaced config.prefixAll
  counter : Unspaced config.prefixCounter
  timer : Unspaced config.prefixTimer
  gauge : Unspaced config.prefixGauge
  set : Unspaced config.prefixSet

/-- A payload is made of the records, and no field of them has white space. -/
structure PayloadOf (timeStamp : ℕ) (appended : List Record) (payload : Bytes) : Prop where
  text : payload = appended.flatMap fun r =>
    r.path ++ ascii " " ++ r.value ++ ascii " " ++ natText timeStamp ++ ascii "\n"
  lines : getlines payload = appended.map fun r =>
    r.path ++ ascii " " ++ r.value ++ ascii " " ++ natText timeStamp
  path : ∀ r ∈ appended, Unspaced r.path
  value : ∀ r ∈ appended, Unspaced r.value
  time : Unspaced (natText timeStamp)

section Payloads

variable {R : Type} [CDouble R] {env : CarbonEnv} {ledger : Ledger R}

theorem unspaced_text (ledger : Ledger R) (totalTime : ℕ) (stat : Stat) :
    Unspaced (stat.text ledger totalTime) := by
  have htext : ∀ x : R, Unspaced (CDouble.toText x) := fun x =>
    unspaced_of_isPlain (CDouble.isPlain_toText x)
  cases stat with
  | rate | count | timer | gauge => exact htext _
  | set | numStats | calculationTime => exact unspaced_natText _
  | own => exact unspaced_intText _

/-- No path of a processed ledger has white space. -/
theorem unspaced_carbonPath (hregex : RegexSpec env.regexReplace)
    (hconfig : UnspacedConfig env.config) (hledger : ledger.Processed env.config) (flusherId : ℤ)
    {stat : Stat} (hstat : stat.In ledger) : Unspaced (carbonPath env flusherId stat) := by
  have hname := unspaced_processName hregex
  have hglobal : Unspaced (prefixStats env flusherId) :=
    (hconfig.name.append (by decide)).append (unspaced_intText flusherId)
  cases stat with
  | rate key | count key =>
    exact ((hconfig.all.append hconfig.counter).append (hname key)).append (by decide)
  | timer key name =>
    obtain ⟨data, hdata, hmem⟩ := hstat
    have hchars := hledger.statNames hdata name hmem
    have hunspaced : Unspaced name := unspaced_of_forall (not_of_isSpace (by decide)) hchars
    exact (((hconfig.all.append hconfig.timer).append (hname key)).append (by decide)).append
      hunspaced
  | gauge key => exact (hconfig.all.append hconfig.gauge).append (hname key)
  | set key => exact ((hconfig.all.append hconfig.set).append (hname key)).append (by decide)
  | numStats | calculationTime => exact hglobal.append (by decide)
  | own name =>
    apply hglobal.append
    rcases hledger.statsdMetric_eq hstat with rfl | rfl <;> decide

/-- A list is as long as the parts that a function sorts it into. -/
theorem sum_length_filter {α β : Type*} [DecidableEq β] (f : α → β) {keys : List β}
    (hkeys : keys.Nodup) {xs : List α} (h : ∀ x ∈ xs, f x ∈ keys) :
    (keys.map fun k => (xs.filter fun x => f x = k).length).sum = xs.length := by
  rw [← List.sum_toFinset _ hkeys]
  induction xs with
  | nil => simp
  | cons x xs ih =>
    have hsplit : ∀ k, ((x :: xs).filter fun x => f x = k).length =
        (xs.filter fun x => f x = k).length + if f x = k then 1 else 0 := by
      intro k
      rw [List.filter_cons]
      by_cases hk : f x = k <;> simp [hk]
    have hx : f x ∈ keys.toFinset := List.mem_toFinset.mpr (h x (by simp))
    simp only [hsplit]
    rw [Finset.sum_add_distrib, ih fun x' hx' => h x' (by simp [hx']), Finset.sum_ite_eq,
      if_pos hx, List.length_cons]

/-- The payloads have one line for each record. -/
theorem length_sentLines (env : CarbonEnv) {rs : List Record} (timeStamp : ℕ)
    (hclean : ∀ r ∈ rs, Clean r.path ∧ Clean r.value) :
    (sentLines (UnorderedMap.gather
      (rs.map fun r => (env.hashring r.key, r.text timeStamp)))).length = rs.length := by
  generalize hpayloads : UnorderedMap.gather
    (rs.map fun r => (env.hashring r.key, r.text timeStamp)) = payloads
  have hlines : ∀ dest payload, payloads.lookup dest = some payload →
      (getlines payload).length = (rs.filter fun r => env.hashring r.key = dest).length := by
    intro dest payload h
    rw [← hpayloads] at h
    rw [getlines_payload env timeStamp hclean h, List.length_map]
  have hmem : ∀ r ∈ rs, env.hashring r.key ∈ payloads.keys := by
    intro r hr
    show env.hashring r.key ∈ payloads
    rw [← AList.lookup_isSome, ← hpayloads, UnorderedMap.lookup_gather, if_neg]
    · rfl
    · exact List.ne_nil_of_mem (List.mem_filter.mpr ⟨List.mem_map_of_mem hr, by simp⟩)
  rw [sentLines, List.length_flatMap, UnorderedMap.map_entries payloads hlines]
  exact sum_length_filter _ payloads.keys_nodup hmem

/-- **A payload is read as the records appended to it**: there is one for each server that
a record is appended for, its lines are the appended records, whatever the names of the
metrics are, each with three fields without white space. The client's part of a path is a
cleaned name, and cleaning a clean name changes nothing. -/
theorem payloads_of_records (hregex : RegexSpec env.regexReplace)
    (hconfig : UnspacedConfig env.config) (hledger : ledger.Processed env.config) (flusherId : ℤ)
    (timeStamp totalTime : ℕ) :
    ∃ appends payloads, records env ledger flusherId totalTime = some appends ∧
      flushStats env ledger flusherId timeStamp totalTime = some payloads ∧
      (∀ dest, (payloads.lookup dest = none ↔ ∀ r ∈ appends, env.hashring r.key ≠ dest) ∧
        ∀ payload, payloads.lookup dest = some payload →
          PayloadOf timeStamp (appends.filter fun r => env.hashring r.key = dest) payload) ∧
      (sentLines payloads).length = appends.length ∧
      (∀ r ∈ appends, ∃ stat : Stat, stat.In ledger ∧ r.path = carbonPath env flusherId stat) ∧
      (∀ name, ∀ c ∈ processName env name, isNameChar c = true) ∧
      (∀ name, (∀ c ∈ name, isNameChar c = true) → processName env name = name) ∧
      ∀ name, processName env (processName env name) = processName env name := by
  have hrecords := records_eq env hledger.rated flusherId totalTime
  have hfields : ∀ r ∈ (stats ledger).map (recordOf env ledger flusherId totalTime),
      Unspaced r.path ∧ Unspaced r.value := by
    intro r hr
    obtain ⟨stat, hstat, rfl⟩ := List.mem_map.mp hr
    exact ⟨unspaced_carbonPath hregex hconfig hledger flusherId ((mem_stats ledger stat).mp hstat),
      unspaced_text ledger totalTime stat⟩
  have hclean : ∀ r ∈ (stats ledger).map (recordOf env ledger flusherId totalTime),
      Clean r.path ∧ Clean r.value := fun r hr => ⟨(hfields r hr).1.clean, (hfields r hr).2.clean⟩
  refine ⟨_, _, hrecords, by rw [flushStats, hrecords, Option.map_some], fun dest => ⟨?_, ?_⟩,
    length_sentLines env timeStamp hclean, ?_,
    isNameChar_processName hregex, fun name => processName_eq_self hregex, processName_idem hregex⟩
  · rw [UnorderedMap.lookup_gather]
    split_ifs with hnil
    · simpa using hnil
    · simpa using hnil
  · intro payload hpayload
    have hlines := getlines_payload env timeStamp hclean hpayload
    rw [UnorderedMap.lookup_gather] at hpayload
    split_ifs at hpayload
    rw [Option.some.injEq] at hpayload
    constructor
    case text =>
      rw [← hpayload, List.filter_map, List.flatMap_map]
      refine List.flatMap_congr fun r _ => ?_
      simp [Record.text, tsSuffix]
    case lines =>
      rw [hlines]
      refine List.map_congr_left fun r _ => ?_
      simp [Record.line, ascii, space]
    case path => exact fun r hr => (hfields r (List.mem_of_mem_filter hr)).1
    case value => exact fun r hr => (hfields r (List.mem_of_mem_filter hr)).2
    case time => exact unspaced_natText timeStamp
  · intro r hr
    obtain ⟨stat, hstat, rfl⟩ := List.mem_map.mp hr
    exact ⟨stat, (mem_stats ledger stat).mp hstat, rfl⟩

end Payloads

/-- A name with white space and a newline. -/
theorem payloads_of_records_oneServer :
    ∃ appends payloads,
      records (oneServer {}) (Ledger.flushed {} [ascii "a 1 2\nb:1|c"]) 1 0 = some appends ∧
      flushStats (oneServer {}) (Ledger.flushed {} [ascii "a 1 2\nb:1|c"]) 1 0 0 = some payloads ∧
      (∀ dest, (payloads.lookup dest = none ↔
          ∀ r ∈ appends, (oneServer {}).hashring r.key ≠ dest) ∧
        ∀ payload, payloads.lookup dest = some payload →
          PayloadOf 0 (appends.filter fun r => (oneServer {}).hashring r.key = dest) payload) ∧
      (sentLines payloads).length = appends.length := by
  have hledger : (Ledger.flushed {} [ascii "a 1 2\nb:1|c"]).Processed (oneServer {}).config :=
    Ledger.processed_flushed ⟨{}, lexicalCast⟩ _ 0
  have hregex : RegexSpec (oneServer {}).regexReplace := regexSpec
  obtain ⟨appends, payloads, hrecords, hflush, hpayload, hlength, -⟩ := payloads_of_records hregex
    ⟨by decide, by decide, by decide, by decide, by decide, by decide⟩ hledger 1 0 0
  exact ⟨appends, payloads, hrecords, hflush, hpayload, hlength⟩

end Carbon

end Statsdcc
