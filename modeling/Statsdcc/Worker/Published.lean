import Mathlib
import Statsdcc.Accounting

/-!
# What a worker publishes

After it has handed a ledger off, a worker sets the figures that the status page
shows: `bad_lines_seen` and `frequency`, and a few steps later `metrics_rate`. They
are read by another thread at any time.

## Main definitions

- `Worker.publishedLines`, `Worker.clearedLines` — the lines of the last ledger that
  the figures are about
- `Worker.Published` — the figures are those of these lines
- `Worker.published`, `Worker.cleared` — the numbers of these ledgers

## Main results

- `Worker.Published.act` — every step of `Worker::process` keeps it
- `Aggregator.published_of_run` — so it holds after every run
- `Aggregator.grows_of_run` — a ledger keeps its number
-/

open Bytes

namespace Statsdcc

variable {R : Type}

namespace WorkerPc

/-- The copy of the ledger has been handed off, its figures are not yet set. -/
def unpublished : WorkerPc → Bool
  | join _ | publish _ => true
  | _ => false

/-- The same for the rate of the metrics. -/
def uncleared : WorkerPc → Bool
  | join _ | publish _ | replace _ | clear _ => true
  | _ => false

end WorkerPc

namespace Worker

/-- The lines of the last ledger handed off, or of the one before. -/
def lastLines (w : Worker R) (before : Bool) : Option (List Stamped) :=
  if before then (w.flushers.map Flusher.lines).dropLast.getLast?
  else (w.flushers.map Flusher.lines).getLast?

/-- The lines of the ledger that `frequency` and `bad_lines_seen` are about. -/
def publishedLines (w : Worker R) : Option (List Stamped) := w.lastLines w.pc.unpublished

/-- The lines of the ledger that `metrics_rate` is about. -/
def clearedLines (w : Worker R) : Option (List Stamped) := w.lastLines w.pc.uncleared

/-- The lines of the `n`-th ledger handed off, which for 0 is none. -/
def ledgerLines (w : Worker R) (n : ℕ) : Option (List Stamped) :=
  ((w.flushers.map Flusher.lines).take n).getLast?

/-- The number of the ledger that `frequency` and `bad_lines_seen` are about. -/
def published (w : Worker R) : ℕ :=
  if w.pc.unpublished then w.flushers.length - 1 else w.flushers.length

/-- The number of the ledger that `metrics_rate` is about. -/
def cleared (w : Worker R) : ℕ :=
  if w.pc.uncleared then w.flushers.length - 1 else w.flushers.length

theorem ledgerLines_published (w : Worker R) : w.ledgerLines w.published = w.publishedLines := by
  rw [ledgerLines, published, publishedLines, lastLines]
  split_ifs
  · rw [List.dropLast_eq_take, List.length_map]
  · rw [← List.length_map (f := Flusher.lines), List.take_length]

theorem ledgerLines_cleared (w : Worker R) : w.ledgerLines w.cleared = w.clearedLines := by
  rw [ledgerLines, cleared, clearedLines, lastLines]
  split_ifs
  · rw [List.dropLast_eq_take, List.length_map]
  · rw [← List.length_map (f := Flusher.lines), List.take_length]

theorem published_le_length (w : Worker R) : w.published ≤ w.flushers.length := by
  rw [published]
  split_ifs <;> omega

/-- The rate is set behind the other figures. -/
theorem cleared_le_published (w : Worker R) : w.cleared ≤ w.published := by
  have huncleared : w.pc.unpublished = true → w.pc.uncleared = true := by
    cases w.pc <;> first | exact fun _ => rfl | exact nofun
  rw [cleared, published]
  split_ifs <;> first | omega | simp_all

/-- What only grows while the worker runs. -/
structure Grows (w w' : Worker R) : Prop where
  lines : w.flushers.map Flusher.lines <+: w'.flushers.map Flusher.lines
  published : w.published ≤ w'.published
  cleared : w.cleared ≤ w'.cleared
  dropped : w.dropped.length ≤ w'.dropped.length

theorem Grows.refl (w : Worker R) : w.Grows w :=
  ⟨List.prefix_refl _, Nat.le_refl _, Nat.le_refl _, Nat.le_refl _⟩

theorem Grows.trans {w w' w'' : Worker R} (h : w.Grows w') (h' : w'.Grows w'') : w.Grows w'' :=
  ⟨h.lines.trans h'.lines, h.published.trans h'.published, h.cleared.trans h'.cleared,
    h.dropped.trans h'.dropped⟩

/-- A ledger keeps its number. -/
theorem Grows.ledgerLines_eq {w w' : Worker R} (h : w.Grows w') {n : ℕ}
    (hn : n ≤ w.flushers.length) : w'.ledgerLines n = w.ledgerLines n := by
  obtain ⟨rest, hrest⟩ := h.lines
  rw [ledgerLines, ← hrest, List.take_append_of_le_length (by rwa [List.length_map]), ledgerLines]

/-- The `int` that the bad lines of a ledger with these lines are published as. -/
def badLinesOf [CDouble R] (env : Env R) (lines : List Stamped) : Int32 :=
  .ofInt ((Ledger.replay env (lines.map Prod.fst)).badLinesSeen env.config)

/-- The rate that is published for a number of lines, which were counted in an `int`. -/
def rateOf (config : AggregatorConfig) (n : ℕ) : UInt64 :=
  .ofInt ((Int32.ofNat n).toInt.tdiv config.frequency)

/-- The published figures are those of the last ledger. Before the first one the
counters have the values `bad` and `rate`, which no constructor sets. -/
structure Published [CDouble R] (env : Env R) (bad : Int32) (rate : UInt64) (w : Worker R) :
    Prop where
  frequency : w.frequency = w.publishedLines.elim ∅ fun lines =>
    (Ledger.replay env (lines.map Prod.fst)).frequency
  badLinesSeen : w.badLinesSeen = w.publishedLines.elim bad (badLinesOf env)
  metricsRate : w.metricsRate = w.clearedLines.elim rate fun lines =>
    rateOf env.config lines.length
  /-- `count` counts the lines of the ledger in place, until it is cleared. -/
  counting : w.pc.uncleared = false → w.count = .ofNat w.currentLines.length
  counted : w.pc.uncleared = true → ∃ lines, w.lastLines false = some lines ∧
    w.count = .ofNat lines.length
  replaced : ∀ item, w.pc = .clear item → w.currentLines = []

section

variable [CDouble R] {env : Env R} {bad : Int32} {rate : UInt64} {w w' : Worker R}

theorem published_new (env : Env R) (id : ℕ) (dropped rate : UInt64) (bad : Int32) :
    Published env bad rate
      { id := id, metricsDropped := dropped, metricsRate := rate, badLinesSeen := bad } where
  frequency := rfl
  badLinesSeen := rfl
  metricsRate := rfl
  counting _ := rfl
  counted h := by cases h
  replaced item h := by cases h

/-- A step that leaves the figures, the ledgers and their lines alone. -/
theorem Published.frame (h : w.Published env bad rate)
    (hunpublished : w'.pc.unpublished = w.pc.unpublished)
    (huncleared : w'.pc.uncleared = w.pc.uncleared)
    (hflushers : w'.flushers.map Flusher.lines = w.flushers.map Flusher.lines)
    (hfrequency : w'.frequency = w.frequency) (hbad : w'.badLinesSeen = w.badLinesSeen)
    (hrate : w'.metricsRate = w.metricsRate) (hcount : w'.count = w.count)
    (hlines : w.pc.uncleared = false → w'.currentLines = w.currentLines)
    (hreplaced : ∀ item, w'.pc = .clear item → w'.currentLines = []) :
    w'.Published env bad rate := by
  constructor
  case frequency =>
    rw [hfrequency, publishedLines, lastLines, hunpublished, hflushers]
    exact h.frequency
  case badLinesSeen =>
    rw [hbad, publishedLines, lastLines, hunpublished, hflushers]
    exact h.badLinesSeen
  case metricsRate =>
    rw [hrate, clearedLines, lastLines, huncleared, hflushers]
    exact h.metricsRate
  case counting =>
    intro hclear
    rw [huncleared] at hclear
    rw [hcount, hlines hclear]
    exact h.counting hclear
  case counted =>
    rw [huncleared, hcount, lastLines, hflushers]
    exact h.counted
  case replaced => exact hreplaced

/-- A flusher thread is started. -/
theorem Published.handOff (h : w.Published env bad rate) {item : Stamped}
    (hpc : w.pc = .handOff item) :
    Published env bad rate { w.spawnFlusher with pc := .join item } := by
  have hlines : w.spawnFlusher.flushers.map Flusher.lines =
      w.flushers.map Flusher.lines ++ [w.currentLines] := by
    rw [spawnFlusher, List.map_append]
    rfl
  have hbefore : w.spawnFlusher.lastLines true = w.lastLines false := by
    rw [lastLines, hlines, if_pos rfl, List.dropLast_concat]
    rfl
  have hpublished := h.frequency
  have hseen := h.badLinesSeen
  have hrate := h.metricsRate
  rw [publishedLines, hpc] at hpublished hseen
  rw [clearedLines, hpc] at hrate
  constructor
  case frequency =>
    show w.frequency = (w.spawnFlusher.lastLines true).elim _ _
    rw [hbefore]
    exact hpublished
  case badLinesSeen =>
    show w.badLinesSeen = (w.spawnFlusher.lastLines true).elim _ _
    rw [hbefore]
    exact hseen
  case metricsRate =>
    show w.metricsRate = (w.spawnFlusher.lastLines true).elim _ _
    rw [hbefore]
    exact hrate
  case counting =>
    intro hclear
    cases hclear
  case counted =>
    intro _
    refine ⟨w.currentLines, ?_, h.counting (by rw [hpc]; rfl)⟩
    show (w.spawnFlusher.flushers.map Flusher.lines).getLast? = _
    rw [hlines, List.getLast?_concat]
  case replaced =>
    intro item' hclear
    cases hclear

/-- The figures are set from the ledger that has been handed off. -/
theorem Published.publish (h : w.Published env bad rate) (hfaithful : w.Faithful env)
    {item : Stamped} (hpc : w.pc = .publish item) :
    Published env bad rate { w with
      badLinesSeen := .ofInt (w.currentLedger.badLinesSeen env.config)
      frequency := w.currentLedger.frequency
      pc := .replace item } := by
  obtain ⟨elapsed, hledger⟩ := hfaithful.processed (by rw [hpc]; rfl)
  have hlast : w.lastLines false = some w.currentLines := hfaithful.handedOff (by rw [hpc]; rfl)
  have hrate := h.metricsRate
  rw [clearedLines, hpc] at hrate
  constructor
  case frequency =>
    show w.currentLedger.frequency = (w.lastLines false).elim _ _
    rw [hlast, hledger]
    rfl
  case badLinesSeen =>
    show Int32.ofInt (w.currentLedger.badLinesSeen env.config) = (w.lastLines false).elim _ _
    rw [hlast, hledger]
    rfl
  case metricsRate => exact hrate
  case counting =>
    intro hclear
    cases hclear
  case counted => exact fun _ => h.counted (by rw [hpc]; rfl)
  case replaced =>
    intro item' hclear
    cases hclear

/-- The rate is set from the count of the same ledger. -/
theorem Published.clear (h : w.Published env bad rate) {item : Stamped} (hpc : w.pc = .clear item) :
    Published env bad rate { w with
      metricsRate := .ofInt (w.count.toInt.tdiv env.config.frequency)
      count := 0
      interruptFlag := false
      pc := .buffer item } := by
  obtain ⟨lines, hlast, hcount⟩ := h.counted (by rw [hpc]; rfl)
  have hpublished := h.frequency
  have hseen := h.badLinesSeen
  rw [publishedLines, hpc] at hpublished hseen
  constructor
  case frequency => exact hpublished
  case badLinesSeen => exact hseen
  case metricsRate =>
    show UInt64.ofInt (w.count.toInt.tdiv env.config.frequency) = (w.lastLines false).elim _ _
    rw [hlast, hcount]
    rfl
  case counting =>
    intro _
    show (0 : Int32) = .ofNat w.currentLines.length
    rw [h.replaced item hpc]
    rfl
  case counted =>
    intro hclear
    cases hclear
  case replaced =>
    intro item' hclear
    cases hclear

/-- A line is buffered and counted. -/
theorem Published.buffer (h : w.Published env bad rate) {item : Stamped}
    (hpc : w.pc = .buffer item) :
    Published env bad rate { w with
      currentLedger := w.currentLedger.buffer env item.1
      currentLines := w.currentLines ++ [item]
      count := w.count + 1
      pc := .pop } := by
  have hpublished := h.frequency
  have hseen := h.badLinesSeen
  have hrate := h.metricsRate
  rw [publishedLines, hpc] at hpublished hseen
  rw [clearedLines, hpc] at hrate
  constructor
  case frequency => exact hpublished
  case badLinesSeen => exact hseen
  case metricsRate => exact hrate
  case counting =>
    intro _
    show w.count + 1 = .ofNat (w.currentLines ++ [item]).length
    rw [h.counting (by rw [hpc]; rfl), List.length_append, List.length_singleton,
      Int32.ofNat_add]
    rfl
  case counted =>
    intro hclear
    cases hclear
  case replaced =>
    intro item' hclear
    cases hclear

theorem Published.act (h : w.Published env bad rate) (hfaithful : w.Faithful env)
    {a : WorkerAction} (hact : w.act env a = some w') : w'.Published env bad rate := by
  cases acted_of_act hact with
  | handOff hpc => exact h.handOff hpc
  | publish hpc => exact h.publish hfaithful hpc
  | clear hpc => exact h.clear hpc
  | buffer hpc => exact h.buffer hpc
  | replace hpc =>
    refine h.frame ?_ ?_ rfl rfl rfl rfl rfl (fun hclear => ?_) fun _ _ => rfl
    · rw [hpc]
      rfl
    · rw [hpc]
      rfl
    · rw [hpc] at hclear
      cases hclear
  | pop hpc | testSet hpc | testClear hpc | process _ hpc | join hpc =>
    refine h.frame ?_ ?_ rfl rfl rfl rfl rfl (fun _ => rfl) fun _ hclear => ?_
    · rw [hpc]
      rfl
    · rw [hpc]
      rfl
    · cases hclear

theorem Published.move (h : w.Published env bad rate) (hfaithful : w.Faithful env)
    (hmove : Move env w w') : w'.Published env bad rate := by
  cases hmove with
  | act a hact => exact h.act hfaithful hact
  | interrupt | enqueue | drop =>
    exact h.frame rfl rfl rfl rfl rfl rfl rfl (fun _ => rfl) h.replaced
  | setFlusher j status =>
    exact h.frame rfl rfl (map_setFlusher _ (fun _ _ => rfl) w j status) rfl rfl rfl rfl
      (fun _ => rfl) h.replaced

theorem grows_of_act {a : WorkerAction} (hact : w.act env a = some w') : w.Grows w' := by
  cases acted_of_act hact with
  | handOff hpc =>
    have hlength : w.spawnFlusher.flushers.length = w.flushers.length + 1 :=
      List.length_append
    refine ⟨⟨[w.currentLines], ?_⟩, ?_, ?_, Nat.le_refl _⟩
    · show _ = w.spawnFlusher.flushers.map Flusher.lines
      rw [spawnFlusher, List.map_append]
      rfl
    · show (if w.pc.unpublished then _ else _) ≤ w.spawnFlusher.flushers.length - 1
      rw [hlength, hpc]
      exact Nat.le_refl _
    · show (if w.pc.uncleared then _ else _) ≤ w.spawnFlusher.flushers.length - 1
      rw [hlength, hpc]
      exact Nat.le_refl _
  | pop hpc | testSet hpc | testClear hpc | process _ hpc | join hpc | publish hpc | replace hpc
  | clear hpc | buffer hpc =>
    refine ⟨List.prefix_refl _, ?_, ?_, Nat.le_refl _⟩
    · rw [Worker.published, hpc]
      first | exact Nat.le_refl _ | exact Nat.sub_le _ _
    · rw [Worker.cleared, hpc]
      first | exact Nat.le_refl _ | exact Nat.sub_le _ _

theorem grows_of_move (hmove : Move env w w') : w.Grows w' := by
  cases hmove with
  | act a hact => exact grows_of_act hact
  | interrupt | enqueue =>
    exact ⟨List.prefix_refl _, Nat.le_refl _, Nat.le_refl _, Nat.le_refl _⟩
  | drop metric =>
    refine ⟨List.prefix_refl _, Nat.le_refl _, Nat.le_refl _, ?_⟩
    exact (List.length_append ▸ Nat.le_add_right _ _ :
      w.dropped.length ≤ (w.dropped ++ [metric]).length)
  | setFlusher j status =>
    have hlength : (w.setFlusher j status).flushers.length = w.flushers.length :=
      List.length_modify _ _ _
    have hlines := map_setFlusher Flusher.lines (fun _ _ => rfl) w j status
    refine ⟨hlines ▸ List.prefix_refl _, ?_, ?_, Nat.le_refl _⟩
    · rw [Worker.published, Worker.published, hlength]
      exact Nat.le_refl _
    · rw [Worker.cleared, Worker.cleared, hlength]
      exact Nat.le_refl _

end

end Worker

/-- The published figures are those of the last ledger after every run. -/
theorem Aggregator.Initial.published_of_run [CDouble R] {W T : ℕ} [NeZero W] {env : Env R}
    {consumer : AggregatorConsumer W} {s₀ s : Aggregator R W T} (hs₀ : s₀.Initial)
    {as : List (Action W T)}
    (hrun : Transition.run (Aggregator.step env consumer) s₀ as = some s) (i : Fin W) :
    Worker.Published env (s₀.workers i).badLinesSeen (s₀.workers i).metricsRate (s.workers i) := by
  have hboth := worker_induction (I := fun i w => w.Faithful env ∧
    Worker.Published env (s₀.workers i).badLinesSeen (s₀.workers i).metricsRate w) ?_ ?_ hrun i
  · exact hboth.2
  · intro i
    obtain ⟨dropped, rate, bad, hw⟩ := hs₀.workers i
    rw [hw]
    exact ⟨Worker.faithful_new env _ _ _ _, Worker.published_new env _ _ _ _⟩
  · rintro i w w' ⟨hfaithful, hpublished⟩ hmove
    exact ⟨hfaithful.move hmove, hpublished.move hfaithful hmove⟩

/-- The same for what only grows. -/
theorem Aggregator.grows_of_run [CDouble R] {W T : ℕ} [NeZero W] {env : Env R}
    {consumer : AggregatorConsumer W} {s s' : Aggregator R W T} {as : List (Action W T)}
    (hrun : Transition.run (Aggregator.step env consumer) s as = some s') (i : Fin W) :
    (s.workers i).Grows (s'.workers i) :=
  worker_induction (I := fun i w => (s.workers i).Grows w) (fun _ => .refl _)
    (fun _ _ _ hgrows hmove => hgrows.trans (Worker.grows_of_move hmove)) hrun i

end Statsdcc
