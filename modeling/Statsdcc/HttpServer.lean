import Mathlib
import Statsdcc.Lib.JsonWrite
import Statsdcc.Lib.Printed
import Statsdcc.Ledger.Entries
import Statsdcc.Interrupts
import Statsdcc.Worker.Published

/-!
# The status page of the aggregator

`HttpServer::get_app_status` reads the figures that each worker has published, one after
the other while the workers run, and makes a JSON object of them: the rate and the drops,
the names with the most lines, and the bad lines. So a page may show figures of different
ledgers. A worker sets the bad lines before the names, and the page reads them in the other
order, so the one step `publish` of the model leaves no page out.

## Main definitions

- `HttpServer.getAppStatus`, `HttpServer.step` — a call that makes the page `/app`, and
  the steps of the program while it runs
- `HttpServer.SortSpec` — what `std::sort` does with the names
- `HttpServer.HotMetrics` — the names with the most lines among some lines
- `HttpServer.AppStatus` — what the page shows of a worker

## Main results

- `HttpServer.hotMetrics_replay` — the object of the names is `HotMetrics`
- `HttpServer.app_status_of_run` — what the page shows after every run
-/

open Bytes JsonDocument

namespace Statsdcc

/-- The name under which a line is stored. -/
def storedName {R : Type} [CDouble R] (cast : Bytes → Option R) (line : Bytes) : Option Bytes :=
  (parseLine cast line).map fun parsed => parsed.1.nameBuffer

/-- How many lines are stored under a name. -/
def occurrences {R : Type} [CDouble R] (cast : Bytes → Option R) (k : Bytes)
    (lines : List Bytes) : ℕ :=
  lines.countP fun line => storedName cast line = some k

namespace HttpServer

/-- The names of a worker in the order in which the page takes them; `sort` stands for
`std::sort` with the comparison by decreasing frequency. -/
def sortedFreq (sort : List (Bytes × ℤ) → List (Bytes × ℤ)) (frequency : UnorderedMap Bytes ℤ) :
    List (Bytes × ℤ) :=
  sort (frequency.entries.map fun e => (e.1, e.2))

/-- What the loop body of `get_app_status` reads of a worker, in its order. -/
inductive Access
  | metricsRate
  | metricsDropped
  | frequency
  | badLinesSeen
  deriving DecidableEq

def loopBody : List Access := [.metricsRate, .metricsDropped, .frequency, .badLinesSeen]

variable {R V : Type} [JsonDocument V] {W T : ℕ}

/-- The part of the loop body with one access. -/
def Access.write (sort : List (Bytes × ℤ) → List (Bytes × ℤ)) (w : Worker R) (id : Bytes)
    (root : V) : Access → V
  | metricsRate => assign root [id, ascii "metrics_rate"] (ofUInt64 w.metricsRate)
  | metricsDropped => assign root [id, ascii "metrics_dropped"] (ofUInt64 w.metricsDropped)
  | frequency => ((sortedFreq sort w.frequency).take 5).foldl
      (fun root m => assign root [id, ascii "hot_metrics", m.1] (ofInt64 (.ofInt m.2))) root
  | badLinesSeen =>
    assign root [id, ascii "bad_lines_seen"] (ofUInt64 (.ofInt w.badLinesSeen.toInt))

/-- A call of `get_app_status`: the accesses to come, and the object. -/
structure AppStatusCall (W : ℕ) (V : Type) where
  accesses : List (Fin W × Access)
  root : V

/-- The start of `get_app_status`, which goes through all workers. -/
def getAppStatus : AppStatusCall W V where
  accesses := (List.finRange W).flatMap fun i => loopBody.map (i, ·)
  root := null

/-- The program while `get_app_status` runs. -/
structure Serving (R V : Type) (W T : ℕ) where
  aggregator : Aggregator R W T
  call : AppStatusCall W V

inductive ServingAction (W T : ℕ)
  | aggregator (a : Action W T)
  /-- The thread of the HTTP server makes its next access. -/
  | read

/-- One step of the program; the workers have the numbers from one on. -/
def step [CDouble R] [NeZero W] (env : Env R) (consumer : AggregatorConsumer W)
    (sort : List (Bytes × ℤ) → List (Bytes × ℤ)) (s : Serving R V W T) :
    ServingAction W T → Option (Serving R V W T)
  | .aggregator a =>
    (Aggregator.step env consumer s.aggregator a).map fun t => { s with aggregator := t }
  | .read =>
    match s.call.accesses with
    | [] => none
    | (i, access) :: accesses =>
      some { s with call := {
        accesses
        root := access.write sort (s.aggregator.workers i) (natText (i + 1)) s.call.root } }

/-- `std::sort` with a comparison by decreasing frequency; names with one frequency can
stand in any order. -/
structure SortSpec (sort : List (Bytes × ℤ) → List (Bytes × ℤ)) : Prop where
  perm : ∀ freq, (sort freq).Perm freq
  sorted : ∀ freq, (sort freq).Pairwise fun a b => b.2 ≤ a.2

/-- An object that shows how often names occur in the lines: of up to five names, and no
name occurs more often than one that is shown. -/
structure HotMetrics [CDouble R] (cast : Bytes → Option R) (lines : List Bytes) (hot : V) :
    Prop where
  shown : ∀ k v, lookup hot k = some v →
    0 < occurrences cast k lines ∧ v = ofInt64 (.ofInt (occurrences cast k lines))
  top : ∀ k k' v, lookup hot k = some v → lookup hot k' = none →
    occurrences cast k' lines ≤ occurrences cast k lines
  size : ∃ names, JsonValue.getMemberNames hot = some names ∧
    names.length = min 5 (lines.filterMap (storedName cast)).toFinset.card

-- ════════════════════════════════════════════════════════════════════════
-- The names with the most lines
-- ════════════════════════════════════════════════════════════════════════

section Hot

variable [CDouble R] {cast : Bytes → Option R}

/-- The frequency of a name is the number of its lines. -/
theorem frequency_replay (config : AggregatorConfig) (lines : List Bytes) (k : Bytes) :
    (Ledger.replay ⟨config, cast⟩ lines).frequency.lookup k =
      if occurrences cast k lines = 0 then none else some (occurrences cast k lines : ℤ) := by
  induction lines using List.reverseRecOn with
  | nil => rfl
  | append_singleton lines line ih =>
    rw [Ledger.replay_concat, occurrences, List.countP_append, List.countP_singleton, storedName,
      ← occurrences]
    rcases hparse : parseLine cast line with _ | ⟨buffers, type, x⟩
    · have hbad : parseLine (⟨config, cast⟩ : Env R).lexicalCast line = none := hparse
      rw [buffer_of_bad hbad]
      exact ih
    · have hstored : parseLine (⟨config, cast⟩ : Env R).lexicalCast line =
        some (buffers, type, x) := hparse
      rw [buffer_of_parse hstored, Ledger.frequency_store, Option.map_some]
      by_cases hk : k = buffers.nameBuffer
      · subst hk
        rw [UnorderedMap.lookup_modify_self]
        show some (((Ledger.replay ⟨config, cast⟩ lines).frequency.lookup _).getD 0 + 1) = _
        rw [ih, if_pos (decide_eq_true rfl), if_neg (Nat.succ_ne_zero _)]
        split
        case isTrue hzero => rw [hzero]; rfl
        case isFalse => rw [Option.getD_some]; push_cast; rfl
      · have hother : decide (some buffers.nameBuffer = some k) = false :=
          decide_eq_false fun heq => hk (Option.some.inj heq).symm
        rw [UnorderedMap.lookup_modify_ne _ hk, hother, if_neg Bool.false_ne_true, Nat.add_zero]
        exact ih

/-- The object that the loop over the first five names makes. -/
def hotObject (sort : List (Bytes × ℤ) → List (Bytes × ℤ)) (frequency : UnorderedMap Bytes ℤ) :
    V :=
  ((sortedFreq sort frequency).take 5).foldl
    (fun root m => set root m.1 (ofInt64 (.ofInt m.2))) null

/-- A name stands in the sorted list with its frequency. -/
theorem mem_sortedFreq {sort : List (Bytes × ℤ) → List (Bytes × ℤ)} (hsort : SortSpec sort)
    {frequency : UnorderedMap Bytes ℤ} {k : Bytes} {n : ℤ} :
    (k, n) ∈ sortedFreq sort frequency ↔ frequency.lookup k = some n := by
  rw [sortedFreq, (hsort.perm _).mem_iff, List.mem_map]
  constructor
  · rintro ⟨e, he, heq⟩
    cases heq
    exact AList.mem_lookup_iff.mpr he
  · intro hk
    exact ⟨⟨k, n⟩, AList.mem_lookup_iff.mp hk, rfl⟩

/-- The names that the page takes are distinct. -/
theorem nodup_takenNames {sort : List (Bytes × ℤ) → List (Bytes × ℤ)} (hsort : SortSpec sort)
    (frequency : UnorderedMap Bytes ℤ) :
    (((sortedFreq sort frequency).take 5).map Prod.fst).Nodup := by
  have hkeys : ((sortedFreq sort frequency).map Prod.fst).Nodup := by
    refine ((hsort.perm _).map Prod.fst).nodup_iff.mpr ?_
    rw [List.map_map]
    exact frequency.nodupKeys
  exact hkeys.sublist ((List.take_sublist _ _).map _)

theorem lookup_hotObject {sort : List (Bytes × ℤ) → List (Bytes × ℤ)} (hsort : SortSpec sort)
    (frequency : UnorderedMap Bytes ℤ) (k : Bytes) :
    lookup (hotObject sort frequency : V) k =
      (((sortedFreq sort frequency).take 5).lookup k).map fun n => ofInt64 (.ofInt n) := by
  rw [hotObject, lookup_foldl_set container_null (fun n => ofInt64 (.ofInt n))
    (nodup_takenNames hsort frequency), lookup_null, Option.or_none]

theorem exists_of_lookup_hotObject {sort : List (Bytes × ℤ) → List (Bytes × ℤ)}
    (hsort : SortSpec sort) {frequency : UnorderedMap Bytes ℤ} {k : Bytes} {v : V}
    (hv : lookup (hotObject sort frequency) k = some v) :
    ∃ n, (k, n) ∈ (sortedFreq sort frequency).take 5 ∧ v = ofInt64 (.ofInt n) := by
  rw [lookup_hotObject hsort] at hv
  obtain ⟨n, hn, rfl⟩ := Option.map_eq_some_iff.mp hv
  obtain ⟨front, back, htake, -⟩ := List.lookup_eq_some_iff.mp hn
  exact ⟨n, htake ▸ List.mem_append_right _ List.mem_cons_self, rfl⟩

/-- The object has a member for each name that the page takes. -/
theorem length_getMemberNames_hotObject {sort : List (Bytes × ℤ) → List (Bytes × ℤ)}
    (hsort : SortSpec sort) (frequency : UnorderedMap Bytes ℤ) :
    ∃ names, JsonValue.getMemberNames (hotObject sort frequency : V) = some names ∧
      names.length = min 5 frequency.keys.length := by
  have hcontainer : Container (hotObject sort frequency : V) :=
    container_foldl_set container_null (fun n => ofInt64 (.ofInt n)) _
  obtain ⟨names, hnames, hdistinct, hmem⟩ := hcontainer.exists_getMemberNames
  have hsame : names.Perm (((sortedFreq sort frequency).take 5).map Prod.fst) := by
    refine (List.perm_ext_iff_of_nodup hdistinct (nodup_takenNames hsort frequency)).mpr
      fun k => ?_
    rw [hmem, lookup_hotObject hsort, ne_eq, Option.map_eq_none_iff, List.lookup_eq_none_iff,
      List.mem_map]
    simp only [not_forall, bne_iff_ne, not_not, exists_prop]
    exact exists_congr fun m => and_congr_right fun _ => eq_comm
  refine ⟨names, hnames, ?_⟩
  rw [hsame.length_eq, List.length_map, List.length_take, sortedFreq, (hsort.perm _).length_eq,
    List.length_map]
  exact congrArg (min 5) (List.length_map Sigma.fst).symm

/-- The names under which lines are stored have a frequency. -/
theorem storedNames_eq_keys (config : AggregatorConfig) (lines : List Bytes) :
    (lines.filterMap (storedName cast)).toFinset =
      (Ledger.replay ⟨config, cast⟩ lines).frequency.keys.toFinset := by
  ext k
  rw [List.mem_toFinset, List.mem_toFinset, List.mem_filterMap, ← AList.mem_keys,
    ← AList.lookup_isSome, frequency_replay]
  have hpos : (∃ line ∈ lines, storedName cast line = some k) ↔ 0 < occurrences cast k lines := by
    rw [occurrences, List.countP_pos_iff]
    simp only [decide_eq_true_eq]
  rw [hpos]
  split_ifs with hzero
  · simp [hzero]
  · simp [Nat.pos_of_ne_zero hzero]

/-- **The page shows the names with the most lines.** -/
theorem hotMetrics_replay {sort : List (Bytes × ℤ) → List (Bytes × ℤ)} (hsort : SortSpec sort)
    (config : AggregatorConfig) (lines : List Bytes) :
    HotMetrics cast lines
      (hotObject sort (Ledger.replay ⟨config, cast⟩ lines).frequency : V) := by
  have hcount : ∀ k n, (k, n) ∈ sortedFreq sort (Ledger.replay ⟨config, cast⟩ lines).frequency →
      0 < occurrences cast k lines ∧ n = occurrences cast k lines := by
    intro k n hn
    rw [mem_sortedFreq hsort, frequency_replay] at hn
    split_ifs at hn with hzero
    exact ⟨Nat.pos_of_ne_zero hzero, (Option.some.inj hn).symm⟩
  constructor
  case shown =>
    intro k v hv
    obtain ⟨n, hn, rfl⟩ := exists_of_lookup_hotObject hsort hv
    obtain ⟨hpos, rfl⟩ := hcount k n (List.mem_of_mem_take hn)
    exact ⟨hpos, rfl⟩
  case top =>
    intro k k' v hv hv'
    obtain ⟨n, hn, rfl⟩ := exists_of_lookup_hotObject hsort hv
    by_cases hzero : occurrences cast k' lines = 0
    · rw [hzero]
      exact Nat.zero_le _
    have hk' : (k', (occurrences cast k' lines : ℤ)) ∈
        sortedFreq sort (Ledger.replay ⟨config, cast⟩ lines).frequency := by
      rw [mem_sortedFreq hsort, frequency_replay, if_neg hzero]
    -- the names behind the first five occur no more often than these
    have hsorted : (sortedFreq sort (Ledger.replay ⟨config, cast⟩ lines).frequency).Pairwise
        fun a b => b.2 ≤ a.2 := hsort.sorted _
    rw [← List.take_append_drop 5 (sortedFreq _ _), List.mem_append] at hk'
    rw [← List.take_append_drop 5 (sortedFreq _ _), List.pairwise_append] at hsorted
    rcases hk' with hk' | hk'
    · rw [lookup_hotObject hsort, Option.map_eq_none_iff, List.lookup_eq_none_iff] at hv'
      exact absurd (hv' _ hk') (by simp)
    · have hle := hsorted.2.2 _ hn _ hk'
      rw [(hcount k n (List.mem_of_mem_take hn)).2] at hle
      exact Int.ofNat_le.mp hle
  case size =>
    obtain ⟨names, hnames, hlength⟩ := length_getMemberNames_hotObject (V := V) hsort
      (Ledger.replay ⟨config, cast⟩ lines).frequency
    refine ⟨names, hnames, ?_⟩
    rw [hlength, storedNames_eq_keys config,
      List.toFinset_card_of_nodup (Ledger.replay ⟨config, cast⟩ lines).frequency.keys_nodup]

end Hot

-- ════════════════════════════════════════════════════════════════════════
-- The page
-- ════════════════════════════════════════════════════════════════════════

-- ════════════════════════════════════════════════════════════════════════
-- The page
-- ════════════════════════════════════════════════════════════════════════

section Page

variable {sort : List (Bytes × ℤ) → List (Bytes × ℤ)} {root json : V} {id k : Bytes}

/-- What an access gives to the object of its worker. -/
def Access.member (sort : List (Bytes × ℤ) → List (Bytes × ℤ)) (w : Worker R) (json : V) :
    Access → V
  | metricsRate => assign json [ascii "metrics_rate"] (ofUInt64 w.metricsRate)
  | metricsDropped => assign json [ascii "metrics_dropped"] (ofUInt64 w.metricsDropped)
  | frequency => ((sortedFreq sort w.frequency).take 5).foldl
      (fun json m => update json [ascii "hot_metrics"] (set · m.1 (ofInt64 (.ofInt m.2)))) json
  | badLinesSeen =>
    assign json [ascii "bad_lines_seen"] (ofUInt64 (.ofInt w.badLinesSeen.toInt))

theorem Access.container_write (h : Container root) (w : Worker R) (access : Access) :
    Container (access.write sort w id root) := by
  cases access with
  | frequency =>
    exact container_foldl_update h id [ascii "hot_metrics"]
      (fun (m : Bytes × ℤ) json => set json m.1 (ofInt64 (.ofInt m.2))) _
  | metricsRate | metricsDropped | badLinesSeen => exact container_assign h _ _ _

theorem Access.child_write (h : Container root) (w : Worker R) (access : Access) :
    child (access.write sort w id root) id = access.member sort w (child root id) := by
  cases access with
  | frequency =>
    exact child_foldl_update h id [ascii "hot_metrics"]
      (fun (m : Bytes × ℤ) json => set json m.1 (ofInt64 (.ofInt m.2))) _
  | metricsRate | metricsDropped | badLinesSeen => exact child_update h id _ _

theorem Access.child_write_of_ne (h : Container root) (hne : k ≠ id) (w : Worker R)
    (access : Access) : child (access.write sort w id root) k = child root k := by
  cases access with
  | frequency =>
    have hlookup := lookup_foldl_update h hne [ascii "hot_metrics"]
      (fun (m : Bytes × ℤ) json => set json m.1 (ofInt64 (.ofInt m.2)))
      ((sortedFreq sort w.frequency).take 5)
    exact congrArg (Option.getD · null) hlookup
  | metricsRate | metricsDropped | badLinesSeen => exact child_update_of_ne h hne _ _

theorem Access.container_member (h : Container json) (w : Worker R) (access : Access) :
    Container (access.member sort w json) := by
  cases access with
  | frequency => exact container_foldl_update h _ _ _ _
  | metricsRate | metricsDropped | badLinesSeen => exact container_assign h _ _ _

/-- The object of a worker, which an access found in the state `t access`. -/
def workerObject (sort : List (Bytes × ℤ) → List (Bytes × ℤ)) (t : Access → Worker R)
    (json : V) : V :=
  loopBody.foldl (fun json access => access.member sort (t access) json) json

/-- The loop body for one worker, whose accesses found it in these states. -/
def workerStatus (sort : List (Bytes × ℤ) → List (Bytes × ℤ)) (t : Access → Worker R)
    (id : Bytes) (root : V) : V :=
  loopBody.foldl (fun root access => access.write sort (t access) id root) root

theorem container_workerStatus (h : Container root) (t : Access → Worker R) :
    Container (workerStatus sort t id root) := by
  rw [workerStatus]
  induction loopBody generalizing root with
  | nil => exact h
  | cons access accesses ih => exact ih (Access.container_write h _ _)

theorem child_workerStatus (h : Container root) (t : Access → Worker R) :
    child (workerStatus sort t id root) id = workerObject sort t (child root id) := by
  rw [workerStatus, workerObject]
  induction loopBody generalizing root with
  | nil => rfl
  | cons access accesses ih =>
    rw [List.foldl_cons, ih (Access.container_write h _ _), Access.child_write h, List.foldl_cons]

theorem child_workerStatus_of_ne (h : Container root) (hne : k ≠ id) (t : Access → Worker R) :
    child (workerStatus sort t id root) k = child root k := by
  rw [workerStatus]
  induction loopBody generalizing root with
  | nil => rfl
  | cons access accesses ih =>
    rw [List.foldl_cons, ih (Access.container_write h _ _), Access.child_write_of_ne h hne]

/-- What the object of a worker shows. -/
theorem workerObject_null (sort : List (Bytes × ℤ) → List (Bytes × ℤ)) (t : Access → Worker R) :
    let json : V := workerObject sort t null
    lookup json (ascii "metrics_rate") = some (ofUInt64 (t .metricsRate).metricsRate) ∧
      lookup json (ascii "metrics_dropped") =
        some (ofUInt64 (t .metricsDropped).metricsDropped) ∧
      lookup json (ascii "bad_lines_seen") =
        some (ofUInt64 (.ofInt (t .badLinesSeen).badLinesSeen.toInt)) ∧
      child json (ascii "hot_metrics") = hotObject sort (t .frequency).frequency := by
  intro json
  let rate : V := Access.member sort (t .metricsRate) null .metricsRate
  let drops : V := Access.member sort (t .metricsDropped) rate .metricsDropped
  let hot : V := Access.member sort (t .frequency) drops .frequency
  have hrate : Container rate := Access.container_member container_null _ _
  have hdrops : Container drops := Access.container_member hrate _ _
  have hhot : Container hot := Access.container_member hdrops _ _
  have hsame : ∀ k, k ≠ ascii "hot_metrics" → k ≠ ascii "bad_lines_seen" →
      lookup json k = lookup drops k := by
    intro k hk hk'
    exact (lookup_assign hhot hk' _ _).trans (lookup_foldl_update hdrops hk _ _ _)
  refine ⟨?_, ?_, lookup_assign_self hhot _ _, ?_⟩
  · rw [hsame _ (by decide) (by decide)]
    exact (lookup_assign hrate (by decide) _ _).trans (lookup_assign_self container_null _ _)
  · rw [hsame _ (by decide) (by decide)]
    exact lookup_assign_self hrate _ _
  · have hnew : child drops (ascii "hot_metrics") = null := by
      refine child_eq_null ?_
      refine (lookup_assign hrate (by decide) _ _).trans ?_
      exact (lookup_assign container_null (by decide) _ _).trans (lookup_null _)
    have hloop := child_foldl_update hdrops (ascii "hot_metrics") []
      (fun (m : Bytes × ℤ) json => set json m.1 (ofInt64 (.ofInt m.2)))
      ((sortedFreq sort (t .frequency).frequency).take 5)
    have hchild : child json (ascii "hot_metrics") = child hot (ascii "hot_metrics") :=
      child_update_of_ne hhot (by decide) _ _
    rw [hchild]
    refine hloop.trans ?_
    rw [hnew]
    rfl

end Page

-- ════════════════════════════════════════════════════════════════════════
-- The call while the workers run
-- ════════════════════════════════════════════════════════════════════════

section Run

variable [CDouble R] [NeZero W] {env : Env R} {consumer : AggregatorConsumer W}
  {sort : List (Bytes × ℤ) → List (Bytes × ℤ)}

/-- Without an access to come the call does nothing. -/
theorem reaches_of_nil {s s' : Serving R V W T} (hnil : s.call.accesses = [])
    {as : List (ServingAction W T)}
    (hrun : Transition.run (step env consumer sort) s as = some s') :
    Transition.Reaches (Aggregator.step env consumer) s.aggregator s'.aggregator ∧
      s'.call.root = s.call.root := by
  induction as generalizing s with
  | nil =>
    cases hrun
    exact ⟨.refl _, rfl⟩
  | cons a as ih =>
    obtain ⟨t, ht, hrest⟩ := Option.bind_eq_some_iff.mp hrun
    cases a with
    | aggregator a =>
      obtain ⟨aggregator, hstep, rfl⟩ := Option.map_eq_some_iff.mp ht
      obtain ⟨hreaches, hroot⟩ := ih (s := ⟨aggregator, s.call⟩) hnil hrest
      exact ⟨(Transition.Reaches.single hstep).trans hreaches, hroot⟩
    | read =>
      rw [step, hnil] at ht
      cases ht

/-- The next access is made in some state of the run. -/
theorem exists_read {s s' : Serving R V W T} {i : Fin W} {access : Access}
    {accesses : List (Fin W × Access)} (hcall : s.call.accesses = (i, access) :: accesses)
    {as : List (ServingAction W T)}
    (hrun : Transition.run (step env consumer sort) s as = some s')
    (hdone : s'.call.accesses = []) :
    ∃ t : Aggregator R W T,
      Transition.Reaches (Aggregator.step env consumer) s.aggregator t ∧
        ∃ bs, Transition.run (step env consumer sort)
          { aggregator := t
            call := {
              accesses
              root := access.write sort (t.workers i) (natText (i + 1)) s.call.root } } bs =
          some s' := by
  induction as generalizing s with
  | nil =>
    cases hrun
    rw [hdone] at hcall
    cases hcall
  | cons a as ih =>
    obtain ⟨u, hu, hrest⟩ := Option.bind_eq_some_iff.mp hrun
    cases a with
    | aggregator a =>
      obtain ⟨aggregator, hstep, rfl⟩ := Option.map_eq_some_iff.mp hu
      obtain ⟨t, hreaches, hread⟩ := ih (s := ⟨aggregator, s.call⟩) hcall hrest
      exact ⟨t, (Transition.Reaches.single hstep).trans hreaches, hread⟩
    | read =>
      rw [step, hcall] at hu
      cases hu
      exact ⟨s.aggregator, .refl _, as, hrest⟩

/-- The states in which the figures of a worker are read, one after the other. -/
structure ReadDuring (env : Env R) (consumer : AggregatorConsumer W) (s s' : Aggregator R W T)
    (t : Access → Aggregator R W T) : Prop where
  start : Transition.Reaches (Aggregator.step env consumer) s (t .metricsRate)
  drops : Transition.Reaches (Aggregator.step env consumer) (t .metricsRate) (t .metricsDropped)
  hot : Transition.Reaches (Aggregator.step env consumer) (t .metricsDropped) (t .frequency)
  bad : Transition.Reaches (Aggregator.step env consumer) (t .frequency) (t .badLinesSeen)
  stop : Transition.Reaches (Aggregator.step env consumer) (t .badLinesSeen) s'

/-- The loop body makes its accesses in four states of the run. -/
theorem exists_loopBody {s s' : Serving R V W T} {i : Fin W} {accesses : List (Fin W × Access)}
    (hcall : s.call.accesses = loopBody.map (i, ·) ++ accesses)
    {as : List (ServingAction W T)}
    (hrun : Transition.run (step env consumer sort) s as = some s')
    (hdone : s'.call.accesses = []) :
    ∃ t : Access → Aggregator R W T,
      ReadDuring env consumer s.aggregator (t .badLinesSeen) t ∧
        ∃ bs, Transition.run (step env consumer sort)
          { aggregator := t .badLinesSeen
            call := {
              accesses
              root := workerStatus sort (fun access => (t access).workers i) (natText (i + 1))
                s.call.root } } bs = some s' := by
  obtain ⟨t₁, hstart, _, hrun₁⟩ := exists_read hcall hrun hdone
  obtain ⟨t₂, hdrops, _, hrun₂⟩ := exists_read rfl hrun₁ hdone
  obtain ⟨t₃, hhot, _, hrun₃⟩ := exists_read rfl hrun₂ hdone
  obtain ⟨t₄, hbad, bs, hrun₄⟩ := exists_read rfl hrun₃ hdone
  let t : Access → Aggregator R W T
    | .metricsRate => t₁
    | .metricsDropped => t₂
    | .frequency => t₃
    | .badLinesSeen => t₄
  exact ⟨t, ⟨hstart, hdrops, hhot, hbad, .refl _⟩, bs, hrun₄⟩

/-- The loop over some workers: each has its object under its own number, with figures that
were read during the call. -/
theorem pages_of_run {is : List (Fin W)} (hnodup : is.Nodup) {s s' : Serving R V W T}
    (hcall : s.call.accesses = is.flatMap fun i => loopBody.map (i, ·))
    (hroot : Container s.call.root) {as : List (ServingAction W T)}
    (hrun : Transition.run (step env consumer sort) s as = some s')
    (hdone : s'.call.accesses = []) :
    Transition.Reaches (Aggregator.step env consumer) s.aggregator s'.aggregator ∧
      (∀ k, (∀ i ∈ is, k ≠ natText (i.val + 1)) → child s'.call.root k = child s.call.root k) ∧
      ∀ i ∈ is, ∃ t, ReadDuring env consumer s.aggregator s'.aggregator t ∧
        child s'.call.root (natText (i.val + 1)) =
          workerObject sort (fun access => (t access).workers i)
            (child s.call.root (natText (i.val + 1))) := by
  induction is generalizing s as with
  | nil =>
    obtain ⟨hreaches, hsame⟩ := reaches_of_nil hcall hrun
    exact ⟨hreaches, fun k _ => by rw [hsame], fun i hi => by cases hi⟩
  | cons i is ih =>
    obtain ⟨hi, hnodup'⟩ := List.nodup_cons.mp hnodup
    rw [List.flatMap_cons] at hcall
    obtain ⟨t, hread, bs, hrest⟩ := exists_loopBody hcall hrun hdone
    have hbody := hread.start.trans (hread.drops.trans (hread.hot.trans hread.bad))
    let root' : V := workerStatus sort (fun access => (t access).workers i)
      (natText (i.val + 1)) s.call.root
    have hroot' : Container root' := container_workerStatus hroot _
    have hself : child root' (natText (i.val + 1)) =
        workerObject sort (fun access => (t access).workers i)
          (child s.call.root (natText (i.val + 1))) := child_workerStatus hroot _
    have hother : ∀ k, k ≠ natText (i.val + 1) → child root' k = child s.call.root k :=
      fun k hk => child_workerStatus_of_ne hroot hk _
    obtain ⟨hreaches, hothers, hpages⟩ := ih hnodup' rfl hroot' hrest
    have hnumber : ∀ j ∈ is, natText (j.val + 1) ≠ natText (i.val + 1) := by
      intro j hj heq
      have hval : j.val = i.val := Nat.succ_injective (natText_injective heq)
      exact hi (Fin.ext hval ▸ hj)
    refine ⟨hbody.trans hreaches, fun k hk => ?_, fun j hj => ?_⟩
    · rw [hothers k fun j hj => hk j (List.mem_cons_of_mem i hj)]
      exact hother k (hk i List.mem_cons_self)
    · rcases List.mem_cons.mp hj with rfl | hj
      · refine ⟨t, { hread with stop := hreaches }, ?_⟩
        rw [hothers _ fun i hmem => (hnumber i hmem).symm]
        exact hself
      · obtain ⟨u, hduring, hpage⟩ := hpages j hj
        refine ⟨u, { hduring with start := hbody.trans hduring.start }, ?_⟩
        exact hpage.trans (congrArg _ (hother _ (hnumber j hj)))

end Run

-- ════════════════════════════════════════════════════════════════════════
-- The page after a run
-- ════════════════════════════════════════════════════════════════════════

/-- What the figures of a worker on a page are about: the numbers of three ledgers, and how
many metrics were dropped. -/
structure Figures where
  rate : ℕ
  hot : ℕ
  bad : ℕ
  dropped : ℕ

/-- The figures are at least as new as those at the start `w` of a call, and at most as new
as those at its end `w'`. -/
structure Figures.Between (n : Figures) (w w' : Worker R) : Prop where
  rate : w.cleared ≤ n.rate
  hot : w.published ≤ n.hot
  order : n.rate ≤ n.hot ∧ n.hot ≤ n.bad
  bad : n.bad ≤ w'.published
  dropped : w.dropped.length ≤ n.dropped ∧ n.dropped ≤ w'.dropped.length

/-- What the page shows of a worker, which began in the state `w₀`. -/
structure AppStatus [CDouble R] (env : Env R) (w₀ w : Worker R) (n : Figures) (json : V) :
    Prop where
  /-- The names with the most lines in a ledger that was handed off. -/
  hot : HotMetrics env.lexicalCast (((w.ledgerLines n.hot).getD []).map Prod.fst)
    (child json (ascii "hot_metrics"))
  /-- The bad lines of this ledger or of a later one. -/
  badLines : lookup json (ascii "bad_lines_seen") = some (ofUInt64 (.ofInt
    ((w.ledgerLines n.bad).elim w₀.badLinesSeen (Worker.badLinesOf env)).toInt))
  /-- The number of lines in a second of this ledger or of an earlier one. -/
  rate : lookup json (ascii "metrics_rate") =
    some (ofUInt64 ((w.ledgerLines n.rate).elim w₀.metricsRate fun lines =>
      Worker.rateOf env.config lines.length))
  drops : lookup json (ascii "metrics_dropped") =
    some (ofUInt64 (w₀.metricsDropped + UInt64.ofNat n.dropped))

/-- **The status page after a run**: whatever the program does during the call, under the
number of each worker the page shows figures that the worker had published when they were
read, of the last ledger but for what was published during the call. -/
theorem app_status_of_run [CDouble R] [NeZero W] (env : Env R) (consumer : AggregatorConsumer W)
    {sort : List (Bytes × ℤ) → List (Bytes × ℤ)} (hsort : SortSpec sort)
    {s₀ s : Aggregator R W T} (hs₀ : s₀.Initial) (as : List (Action W T))
    (hrun : Transition.run (Aggregator.step env consumer) s₀ as = some s)
    {s' : Serving R V W T} (bs : List (ServingAction W T))
    (hcall : Transition.run (step env consumer sort) { aggregator := s, call := getAppStatus } bs =
      some s')
    (hdone : s'.call.accesses = []) (i : Fin W) :
    ∃ n : Figures, n.Between (s.workers i) (s'.aggregator.workers i) ∧
      AppStatus env (s₀.workers i) (s'.aggregator.workers i) n
        (child s'.call.root (natText (i + 1))) := by
  have hpages := pages_of_run (List.nodup_finRange W) rfl container_null hcall hdone
  obtain ⟨t, hread, hpage⟩ := hpages.2.2 i (List.mem_finRange i)
  have hgrows {u u' : Aggregator R W T}
      (h : Transition.Reaches (Aggregator.step env consumer) u u') :
      (u.workers i).Grows (u'.workers i) := by
    obtain ⟨cs, hcs⟩ := h
    exact Aggregator.grows_of_run hcs i
  have hstart := hgrows hread.start
  have hdrops := hgrows hread.drops
  have hhot := hgrows hread.hot
  have hbad := hgrows hread.bad
  have hstop := hgrows hread.stop
  have hpublished {u : Aggregator R W T}
      (h : Transition.Reaches (Aggregator.step env consumer) s u) :
      Worker.Published env (s₀.workers i).badLinesSeen (s₀.workers i).metricsRate
        (u.workers i) := by
    obtain ⟨cs, hcs⟩ := Transition.Reaches.trans ⟨as, hrun⟩ h
    exact hs₀.published_of_run hcs i
  have hreached := hread.start.trans hread.drops
  have hreached' := hreached.trans hread.hot
  obtain ⟨hrate, hdropped, hseen, hmetrics⟩ :=
    workerObject_null (V := V) sort fun access => (t access).workers i
  have hend : child s'.call.root (natText (i + 1)) =
      workerObject sort (fun access => (t access).workers i) null :=
    hpage.trans (congrArg _ (child_null _))
  refine ⟨⟨((t .metricsRate).workers i).cleared, ((t .frequency).workers i).published,
    ((t .badLinesSeen).workers i).published, ((t .metricsDropped).workers i).dropped.length⟩,
    ?_, ?_⟩
  · constructor
    case rate => exact hstart.cleared
    case hot => exact (hstart.trans (hdrops.trans hhot)).published
    case order =>
      refine ⟨?_, hbad.published⟩
      exact (Worker.cleared_le_published _).trans (hdrops.trans hhot).published
    case bad => exact hstop.published
    case dropped =>
      exact ⟨(hstart.trans hdrops).dropped, (hhot.trans (hbad.trans hstop)).dropped⟩
  rw [hend]
  constructor
  case hot =>
    rw [hmetrics, (hpublished hreached').frequency,
      (hbad.trans hstop).ledgerLines_eq (Worker.published_le_length _),
      Worker.ledgerLines_published]
    have hempty : (∅ : UnorderedMap Bytes ℤ) = (Ledger.replay env []).frequency := rfl
    cases ((t .frequency).workers i).publishedLines with
    | none =>
      rw [Option.elim_none, hempty]
      exact hotMetrics_replay hsort env.config []
    | some lines => exact hotMetrics_replay hsort env.config (lines.map Prod.fst)
  case badLines =>
    rw [hseen, (hpublished (hreached'.trans hread.bad)).badLinesSeen,
      hstop.ledgerLines_eq (Worker.published_le_length _), Worker.ledgerLines_published]
  case rate =>
    rw [hrate, (hpublished hread.start).metricsRate,
      (hdrops.trans (hhot.trans (hbad.trans hstop))).ledgerLines_eq
        ((Worker.cleared_le_published _).trans (Worker.published_le_length _)),
      Worker.ledgerLines_cleared]
  case drops =>
    obtain ⟨cs, hcs⟩ := Transition.Reaches.trans ⟨as, hrun⟩ hreached
    rw [hdropped, hs₀.metricsDropped_of_run hcs]

/-- A stable sort is one way to sort. -/
def stableSort (freq : List (Bytes × ℤ)) : List (Bytes × ℤ) :=
  freq.mergeSort fun a b => b.2 ≤ a.2

theorem sortSpec_stableSort : SortSpec stableSort where
  perm freq := List.mergeSort_perm freq _
  sorted freq := by
    have htrans : ∀ a b c : Bytes × ℤ, decide (b.2 ≤ a.2) = true → decide (c.2 ≤ b.2) = true →
        decide (c.2 ≤ a.2) = true := by
      intro a b c hab hbc
      exact decide_eq_true ((of_decide_eq_true hbc).trans (of_decide_eq_true hab))
    have htotal : ∀ a b : Bytes × ℤ, (decide (b.2 ≤ a.2) || decide (a.2 ≤ b.2)) = true := by
      intro a b
      rw [Bool.or_eq_true, decide_eq_true_eq, decide_eq_true_eq]
      exact le_total _ _
    exact (List.pairwise_mergeSort htrans htotal freq).imp of_decide_eq_true

/-- A call that runs while a second interrupt comes. -/
def interruptedCall {W T : ℕ} [NeZero W] : List (ServingAction W T) :=
  [.read, .read, .aggregator (.interrupt 0), .read, .read]

theorem app_status_servedRun :
    ∃ (s : Aggregator Exact 1 1) (s' : Serving Exact Json 1 1),
      Transition.run (Aggregator.step ⟨{}, lexicalCast⟩ (.new {} List.length)) .init
        Aggregator.servedRun = some s ∧
      Transition.run (step ⟨{}, lexicalCast⟩ (.new {} List.length) stableSort)
        { aggregator := s, call := getAppStatus } interruptedCall = some s' ∧
      (s.workers 0).publishedLines.map (List.map Prod.fst) = some [ascii "a:1|c"] ∧
      ∃ n : Figures, n.Between (s.workers 0) (s'.aggregator.workers 0) ∧
        AppStatus ⟨{}, lexicalCast⟩ ((.init : Aggregator Exact 1 1).workers 0)
          (s'.aggregator.workers 0) n (child s'.call.root (natText 1)) :=
  ⟨_, _, rfl, rfl, rfl, app_status_of_run ⟨{}, lexicalCast⟩ (.new {} List.length)
    sortSpec_stableSort Aggregator.initial_init Aggregator.servedRun rfl interruptedCall rfl rfl 0⟩

end HttpServer

end Statsdcc
