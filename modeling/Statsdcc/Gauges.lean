import Mathlib
import Statsdcc.Accounting
import Statsdcc.Ledger.WellFormed
import Statsdcc.Lib.Binary64
import Statsdcc.Lib.Update

/-!
# Gauges across flushes

A gauge line sets its gauge or adds to it, and the meaning of a gauge is the fold
of all its lines from zero. A worker starts each ledger without any gauge, so
that a ledger holds the fold of its own lines only.

## Main results

- `lookup_gauges_replay` — a ledger holds the fold of its own gauge lines
- `gauge_eq_fold`, `gauge_eq_fold_exact_iff` — when this is the fold of all gauge lines
- `gauge_restarted_gaugeRun` — a run in which it is not
-/

open Bytes

namespace Statsdcc

/-- A well-formed gauge line that fits into the buffers of `sscanf`. -/
structure GaugeLine where
  line : MetricLine
  amount : Decimal
  value_eq : line.value = .gauge amount
  fits : line.Fits

namespace GaugeLine

def name (g : GaugeLine) : Bytes := g.line.name

def text (g : GaugeLine) : Bytes := g.line.text

section

variable {R : Type} [CDouble R]

/-- A value that begins with a sign is added, any other value sets the gauge. A value out
of range makes the line bad. -/
def update (g : GaugeLine) : Option (Update R) :=
  (CDouble.ofRat g.amount.value).map fun x => if SignedText g.amount.text then .add x else .set x

/-- The updates of one gauge. -/
def updates (R : Type) [CDouble R] (name : Bytes) (gs : List GaugeLine) : List (Update R) :=
  (gs.filter fun g => g.name = name).filterMap update

/-- The meaning of a gauge: the fold of its lines from zero. -/
def fold (R : Type) [CDouble R] (name : Bytes) (gs : List GaugeLine) : R :=
  Update.applyAll 0 (updates R name gs)

theorem updates_append (name : Bytes) (gs gs' : List GaugeLine) :
    updates R name (gs ++ gs') = updates R name gs ++ updates R name gs' := by
  simp [updates]

/-- The fold goes on from where it was. -/
theorem fold_append (name : Bytes) (gs gs' : List GaugeLine) :
    fold R name (gs ++ gs') = Update.applyAll (fold R name gs) (updates R name gs') := by
  rw [fold, updates_append, Update.applyAll_append]
  rfl

/-- An absolute update of the gauge is an unsigned line for it. -/
theorem exists_set_iff {name : Bytes} {gs : List GaugeLine} :
    (∃ x, Update.set x ∈ updates R name gs) ↔
      ∃ g ∈ gs, g.name = name ∧ ¬SignedText g.amount.text ∧
        (CDouble.ofRat g.amount.value : Option R) ≠ none := by
  constructor
  · rintro ⟨x, hx⟩
    obtain ⟨g, hg, hupdate⟩ := List.mem_filterMap.mp hx
    obtain ⟨hmem, hname⟩ := List.mem_filter.mp hg
    obtain ⟨y, hy, hupdate⟩ := Option.map_eq_some_iff.mp hupdate
    refine ⟨g, hmem, of_decide_eq_true hname, fun hsigned => ?_, by simp [hy]⟩
    rw [if_pos hsigned] at hupdate
    cases hupdate
  · rintro ⟨g, hmem, hname, hsigned, hvalue⟩
    obtain ⟨x, hx⟩ := Option.ne_none_iff_exists'.mp hvalue
    refine ⟨x, List.mem_filterMap.mpr ⟨g, List.mem_filter.mpr ⟨hmem, by simpa⟩, ?_⟩⟩
    rw [update, hx, Option.map_some, if_neg hsigned]

/-- A gauge line updates its gauge. -/
theorem lookup_gauges_buffer {env : Env R} (hspec : LexicalCastSpec env.lexicalCast)
    (g : GaugeLine) (l : Ledger R) (name : Bytes) :
    (l.buffer env g.text).gauges.lookup name =
      if g.name = name then
        match (g.update : Option (Update R)) with
        | some (.add x) => some ((l.gauges.lookup name).getD 0 + x)
        | some (.set x) => some x
        | none => l.gauges.lookup name
      else l.gauges.lookup name := by
  have hnumber : (g.line.value.number : Option R) = CDouble.ofRat g.amount.value := by
    rw [g.value_eq, MetricValue.number]
  have htype : g.line.value.type = .gauge := by rw [g.value_eq, MetricValue.type]
  have hsigned := g.line.charAfterColon_text
  rw [g.value_eq, MetricValue.text] at hsigned
  have hparse := MetricLine.parseLine_text hspec g.fits
  rw [hnumber, htype] at hparse
  rw [update]
  cases hvalue : (CDouble.ofRat g.amount.value : Option R) with
  | none =>
    rw [hvalue, Option.map_none] at hparse
    rw [text, buffer_of_bad hparse, Option.map_none]
    exact (ite_self _).symm
  | some x =>
    rw [hvalue, Option.map_some] at hparse
    rw [text, buffer_of_parse hparse, Option.map_some]
    by_cases hsign : SignedText g.amount.text
    · rw [if_pos hsign, Ledger.store, if_pos (hsigned.mpr hsign)]
      by_cases hname : g.name = name
      · subst hname
        rw [if_pos rfl]
        exact UnorderedMap.lookup_modify_self _ _ _ _
      · rw [if_neg hname]
        exact UnorderedMap.lookup_modify_ne _ (Ne.symm hname) _ _
    · rw [if_neg hsign, Ledger.store, if_neg fun h => hsign (hsigned.mp h)]
      by_cases hname : g.name = name
      · subst hname
        rw [if_pos rfl]
        exact AList.lookup_insert _
      · rw [if_neg hname]
        exact AList.lookup_insert_ne (Ne.symm hname)

/-- **A ledger holds the fold of its own gauge lines.** -/
theorem lookup_gauges_replay {env : Env R} (hspec : LexicalCastSpec env.lexicalCast)
    (gs : List GaugeLine) (name : Bytes) :
    (Ledger.replay env (gs.map text)).gauges.lookup name =
      if updates R name gs = [] then none else some (fold R name gs) := by
  induction gs using List.reverseRecOn with
  | nil => rfl
  | append_singleton gs g ih =>
    have hreplay : Ledger.replay env ((gs ++ [g]).map text) =
        (Ledger.replay env (gs.map text)).buffer env g.text := by
      rw [List.map_append, List.map_singleton, Ledger.replay_concat]
    have hsame : updates R name (gs ++ [g]) = updates R name gs →
        fold R name (gs ++ [g]) = fold R name gs := fun h => by rw [fold, fold, h]
    rw [hreplay, lookup_gauges_buffer hspec g, ih]
    by_cases hname : g.name = name
    case neg =>
      have hupdates : updates R name (gs ++ [g]) = updates R name gs := by simp [updates, hname]
      rw [if_neg hname, hsame hupdates, hupdates]
    rw [if_pos hname]
    cases hupdate : (g.update : Option (Update R)) with
    | none =>
      have hupdates : updates R name (gs ++ [g]) = updates R name gs := by
        simp [updates, hname, hupdate]
      rw [hsame hupdates, hupdates]
    | some u =>
      have hupdates : updates R name (gs ++ [g]) = updates R name gs ++ [u] := by
        simp [updates, hname, hupdate]
      have hfold : fold R name (gs ++ [g]) = Update.apply (fold R name gs) u := by
        rw [fold, hupdates, Update.applyAll_append]
        rfl
      have hne : updates R name gs ++ [u] ≠ [] := by simp
      rw [hupdates, if_neg hne, hfold]
      cases u with
      | set x => rfl
      | add x =>
        by_cases hnil : updates R name gs = []
        · have hzero : fold R name gs = 0 := by rw [fold, hnil, Update.applyAll_nil]
          rw [if_pos hnil, hzero]
          rfl
        · rw [if_neg hnil]
          rfl

/-- A flushed ledger with the gauge holds the fold of the ledger's lines. -/
theorem lookup_gauges_flushed {env : Env R} (hspec : LexicalCastSpec env.lexicalCast)
    {gs : List GaugeLine} {l : Ledger R} {elapsed : ℤ}
    (hl : l = ((Ledger.replay env (gs.map text)).process env.config elapsed).copy) {name : Bytes}
    (hname : name ∈ l.gauges) : l.gauges.lookup name = some (fold R name gs) := by
  have hgauges : l.gauges = (Ledger.replay env (gs.map text)).gauges := by
    rw [hl]
    rfl
  have hlookup := lookup_gauges_replay hspec gs name
  rw [← hgauges] at hlookup
  by_cases hnil : updates R name gs = []
  · rw [if_pos hnil, AList.lookup_eq_none] at hlookup
    exact absurd hname hlookup
  · rw [hlookup, if_neg hnil]

end

/-- The updates of one gauge in exact arithmetic. -/
def exactUpdates (name : Bytes) (gs : List GaugeLine) : List (Update ℚ) :=
  (gs.filter fun g => g.name = name).map fun g =>
    if SignedText g.amount.text then .add g.amount.value else .set g.amount.value

theorem exactUpdates_append (name : Bytes) (gs gs' : List GaugeLine) :
    exactUpdates name (gs ++ gs') = exactUpdates name gs ++ exactUpdates name gs' := by
  simp [exactUpdates]

theorem fold_exact (name : Bytes) (gs : List GaugeLine) :
    fold Exact name gs = .fin (Update.applyAll 0 (exactUpdates name gs)) := by
  have hupdates : updates Exact name gs = (exactUpdates name gs).map (Update.map .fin) := by
    rw [updates, exactUpdates, List.map_map, ← List.filterMap_eq_map]
    refine List.filterMap_congr fun g _ => ?_
    show Option.map _ (some (Exact.fin g.amount.value)) = _
    rw [Option.map_some, Function.comp_apply, Function.comp_apply, apply_ite (Update.map Exact.fin)]
    rfl
  rw [fold, hupdates]
  exact Update.applyAll_map (fun _ _ => rfl) 0 _

theorem exists_set_exact_iff {name : Bytes} {gs : List GaugeLine} :
    (∃ x, Update.set x ∈ exactUpdates name gs) ↔
      ∃ g ∈ gs, g.name = name ∧ ¬SignedText g.amount.text := by
  constructor
  · rintro ⟨x, hx⟩
    obtain ⟨g, hg, hupdate⟩ := List.mem_map.mp hx
    obtain ⟨hmem, hname⟩ := List.mem_filter.mp hg
    refine ⟨g, hmem, of_decide_eq_true hname, fun hsigned => ?_⟩
    rw [if_pos hsigned] at hupdate
    cases hupdate
  · rintro ⟨g, hmem, hname, hsigned⟩
    exact ⟨g.amount.value, List.mem_map.mpr
      ⟨g, List.mem_filter.mpr ⟨hmem, by simpa⟩, if_neg hsigned⟩⟩

end GaugeLine

/-- Lines that are all gauge lines can be read as such. -/
theorem exists_gaugeLines (lines : List Bytes)
    (h : ∀ line ∈ lines, ∃ g : GaugeLine, g.text = line) :
    ∃ gs : List GaugeLine, gs.map GaugeLine.text = lines := by
  induction lines with
  | nil => exact ⟨[], rfl⟩
  | cons line lines ih =>
    obtain ⟨g, hg⟩ := h line (by simp)
    obtain ⟨gs, hgs⟩ := ih fun line' hline' => h line' (by simp [hline'])
    exact ⟨g :: gs, by rw [List.map_cons, hg, hgs]⟩

namespace Aggregator

variable {W T : ℕ} [NeZero W]

/-- What the workers pop are the gauge lines themselves. -/
theorem exists_gaugeLine_of_popped {R : Type} [CDouble R] {env : Env R}
    {consumer : AggregatorConsumer W} {s₀ s : Aggregator R W T} (hs₀ : s₀.Initial)
    {as : List (Action W T)}
    (hlines : ∀ line ∈ consumedLines as, ∃ g : GaugeLine, g.text = line)
    (hrun : Transition.run (step env consumer) s₀ as = some s) {i : Fin W} {metric : Bytes}
    (hmetric : metric ∈ (s.workers i).popped) : ∃ g : GaugeLine, g.text = metric := by
  obtain ⟨line, hline, hconsume⟩ := (hs₀.balanced_of_run hrun).exists_consumed hmetric
  obtain ⟨g, rfl⟩ := hlines line hline
  have hcolon : colon ∈ g.text := by simp [GaugeLine.text, MetricLine.text]
  rw [consumer.consume_of_colon hcolon, Prod.mk.injEq] at hconsume
  have htext : cStr g.text = g.text := cStr_eq_self g.line.nul_notMem_text
  exact ⟨g, htext.symm.trans hconsume.2⟩

/-- The gauge lines behind the ledger `f` that a worker has cut behind the ledgers `pre`:
those of the earlier ledgers and its own, of which it holds the fold. -/
theorem exists_gaugeLines_of_flushed {R : Type} [CDouble R] {env : Env R}
    (hspec : LexicalCastSpec env.lexicalCast) {consumer : AggregatorConsumer W}
    {s₀ s : Aggregator R W T} (hs₀ : s₀.Initial) {as : List (Action W T)}
    (hlines : ∀ line ∈ consumedLines as, ∃ g : GaugeLine, g.text = line)
    (hrun : Transition.run (step env consumer) s₀ as = some s) (i : Fin W)
    {pre post : List (Flusher R)} {f : Flusher R}
    (hflushers : (s.workers i).flushers = pre ++ f :: post) :
    ∃ before current : List GaugeLine,
      before.map GaugeLine.text = (pre.flatMap Flusher.lines).map Prod.fst ∧
      current.map GaugeLine.text = f.lines.map Prod.fst ∧
      ∀ name ∈ f.ledger.gauges,
        f.ledger.gauges.lookup name = some (GaugeLine.fold R name current) := by
  have hfaithful := hs₀.faithful_of_run hrun i
  have hread : ∀ f' ∈ pre ++ [f], ∀ line ∈ f'.lines.map Prod.fst, ∃ g : GaugeLine,
      g.text = line := by
    intro f' hf' line hline
    have hmem : f' ∈ (s.workers i).flushers := by
      rw [hflushers, List.append_cons]
      exact List.mem_append_left _ hf'
    exact exists_gaugeLine_of_popped hs₀ hlines hrun
      (hfaithful.popped_of_flushed (List.mem_map_of_mem hmem) hline)
  have hreadBefore : ∀ line ∈ (pre.flatMap Flusher.lines).map Prod.fst, ∃ g : GaugeLine,
      g.text = line := by
    intro line hline
    obtain ⟨x, hx, rfl⟩ := List.mem_map.mp hline
    obtain ⟨f', hf', hx⟩ := List.mem_flatMap.mp hx
    exact hread f' (List.mem_append_left _ hf') x.1 (List.mem_map_of_mem hx)
  obtain ⟨before, hbefore⟩ := exists_gaugeLines _ hreadBefore
  obtain ⟨current, hcurrent⟩ := exists_gaugeLines _ (hread f (by simp))
  refine ⟨before, current, hbefore, hcurrent, fun name hname => ?_⟩
  obtain ⟨elapsed, hledger⟩ := hfaithful.flushed f (by simp [hflushers])
  rw [← hcurrent] at hledger
  exact GaugeLine.lookup_gauges_flushed hspec hledger hname

/-- **When a flushed gauge is the fold of all its lines.** For every run in which the clients
send gauge lines only, every worker, and every ledger `f` that the worker has cut behind the
ledgers `pre`: an unsigned line for the gauge in this ledger is enough, and so is a fold of
zero before it. -/
theorem gauge_eq_fold {R : Type} [CDouble R] (env : Env R)
    (hspec : LexicalCastSpec env.lexicalCast) (consumer : AggregatorConsumer W)
    {s₀ s : Aggregator R W T} (hs₀ : s₀.Initial) (as : List (Action W T))
    (hlines : ∀ line ∈ consumedLines as, ∃ g : GaugeLine, g.text = line)
    (hrun : Transition.run (step env consumer) s₀ as = some s) (i : Fin W)
    {pre post : List (Flusher R)} {f : Flusher R}
    (hflushers : (s.workers i).flushers = pre ++ f :: post) :
    ∃ before current : List GaugeLine,
      before.map GaugeLine.text = (pre.flatMap Flusher.lines).map Prod.fst ∧
      current.map GaugeLine.text = f.lines.map Prod.fst ∧
      ∀ name ∈ f.ledger.gauges,
        ((∃ g ∈ current, g.name = name ∧ ¬SignedText g.amount.text ∧
              (CDouble.ofRat g.amount.value : Option R) ≠ none) ∨
            GaugeLine.fold R name before = 0) →
          f.ledger.gauges.lookup name = some (GaugeLine.fold R name (before ++ current)) := by
  obtain ⟨before, current, hbefore, hcurrent, hfold⟩ :=
    exists_gaugeLines_of_flushed hspec hs₀ hlines hrun i hflushers
  refine ⟨before, current, hbefore, hcurrent, fun name hname hcondition => ?_⟩
  rw [hfold name hname, GaugeLine.fold_append]
  rcases hcondition with hset | hzero
  · obtain ⟨x, hx⟩ := GaugeLine.exists_set_iff.mpr hset
    exact congrArg some (Update.applyAll_of_set hx _ _)
  · rw [hzero]
    rfl

/-- In exact arithmetic a flushed gauge is the fold of all its lines only then. -/
theorem gauge_eq_fold_exact_iff (env : Env Exact)
    (hspec : LexicalCastSpec env.lexicalCast) (consumer : AggregatorConsumer W)
    {s₀ s : Aggregator Exact W T} (hs₀ : s₀.Initial) (as : List (Action W T))
    (hlines : ∀ line ∈ consumedLines as, ∃ g : GaugeLine, g.text = line)
    (hrun : Transition.run (step env consumer) s₀ as = some s) (i : Fin W)
    {pre post : List (Flusher Exact)} {f : Flusher Exact}
    (hflushers : (s.workers i).flushers = pre ++ f :: post) :
    ∃ before current : List GaugeLine,
      before.map GaugeLine.text = (pre.flatMap Flusher.lines).map Prod.fst ∧
      current.map GaugeLine.text = f.lines.map Prod.fst ∧
      ∀ name ∈ f.ledger.gauges,
        f.ledger.gauges.lookup name = some (GaugeLine.fold Exact name (before ++ current)) ↔
          (∃ g ∈ current, g.name = name ∧ ¬SignedText g.amount.text) ∨
            GaugeLine.fold Exact name before = 0 := by
  obtain ⟨before, current, hbefore, hcurrent, hfold⟩ :=
    exists_gaugeLines_of_flushed hspec hs₀ hlines hrun i hflushers
  refine ⟨before, current, hbefore, hcurrent, fun name hname => ?_⟩
  have hzero : (0 : Exact) = .fin 0 := rfl
  rw [hfold name hname, Option.some.injEq, hzero, GaugeLine.fold_exact, GaugeLine.fold_exact,
    GaugeLine.fold_exact, Exact.fin.injEq, Exact.fin.injEq, GaugeLine.exactUpdates_append,
    Update.applyAll_append, Update.applyAll_eq_iff, GaugeLine.exists_set_exact_iff]

/-- A line for the gauge `a` with one digit. -/
def digitGauge (sign : Sign) (digit : Fin 10) : GaugeLine where
  line :=
    { name := ascii "a"
      value := .gauge ⟨sign, [digit], none, none, by simp⟩
      rate := none
      name_ne := MetricLine.sampledCounter.name_ne
      nul_notMem_name := MetricLine.sampledCounter.nul_notMem_name
      colon_notMem_name := MetricLine.sampledCounter.colon_notMem_name
      value_ne := Decimal.text_ne_nil _
      nul_notMem_value := Decimal.notMem_text _ (by decide)
      bar_notMem_value := Decimal.notMem_text _ (by decide)
      rate_pos := MetricLine.rate_pos_none }
  amount := ⟨sign, [digit], none, none, by simp⟩
  value_eq := rfl
  fits := ⟨Nat.le_of_ble_eq_true rfl, by cases sign <;> exact Nat.le_of_ble_eq_true rfl⟩

/-- An absolute and a relative update, with a flush behind each of them. -/
def gaugeRun {W T : ℕ} [NeZero W] [NeZero T] : List (Action W T) :=
  [.consume 0 (ascii "a:5|g"), .push 0 true, .worker 0 .pop, .worker 0 .test, .worker 0 .buffer,
   .interrupt 0, .consume 0 (ascii "a:+3|g"), .push 0 true, .worker 0 .pop, .worker 0 .test,
   .worker 0 (.process 0), .worker 0 .handOff, .worker 0 .join, .worker 0 .publish,
   .worker 0 .replace, .worker 0 .clear, .worker 0 .buffer,
   .interrupt 0, .consume 0 (ascii "a:1|g"), .push 0 true, .worker 0 .pop, .worker 0 .test,
   .worker 0 (.process 0), .worker 0 .handOff]

theorem exists_gaugeLine_gaugeRun :
    ∀ line ∈ consumedLines (gaugeRun : List (Action 1 1)), ∃ g : GaugeLine, g.text = line := by
  intro line hline
  rcases hline with _ | ⟨_, _ | ⟨_, _ | ⟨_, hline⟩⟩⟩
  · exact ⟨digitGauge .none 5, rfl⟩
  · exact ⟨digitGauge .plus 3, rfl⟩
  · exact ⟨digitGauge .none 1, rfl⟩
  · cases hline

theorem gauge_eq_fold_gaugeRun :
    ∃ (s : Aggregator Binary64 1 1) (f : Flusher Binary64) (post : List (Flusher Binary64)),
      Transition.run (step ⟨{}, lexicalCast⟩ (.new {} List.length)) init gaugeRun = some s ∧
      (s.workers 0).flushers = [] ++ f :: post ∧
      ∃ before current : List GaugeLine,
        before.map GaugeLine.text =
          (([] : List (Flusher Binary64)).flatMap Flusher.lines).map Prod.fst ∧
        current.map GaugeLine.text = f.lines.map Prod.fst ∧
        ∀ name ∈ f.ledger.gauges,
          ((∃ g ∈ current, g.name = name ∧ ¬SignedText g.amount.text ∧
                (CDouble.ofRat g.amount.value : Option Binary64) ≠ none) ∨
              GaugeLine.fold Binary64 name before = 0) →
            f.ledger.gauges.lookup name =
              some (GaugeLine.fold Binary64 name (before ++ current)) := by
  have hlength : (Transition.run (step ⟨{}, lexicalCast⟩ (.new {} List.length)) init gaugeRun).map
      (fun s : Aggregator Binary64 1 1 => (s.workers 0).flushers.length) = some 2 := by
    decide +kernel
  obtain ⟨s, hrun, hlength⟩ := Option.map_eq_some_iff.mp hlength
  obtain ⟨f, post, hflushers⟩ := List.exists_cons_of_length_pos (hlength ▸ Nat.two_pos)
  exact ⟨s, f, post, hrun, hflushers, gauge_eq_fold ⟨{}, lexicalCast⟩ lexicalCast_spec
    (.new {} List.length) initial_init gaugeRun exists_gaugeLine_gaugeRun hrun 0 hflushers⟩

/-- The second ledger holds `3` for a gauge that was set to `5` and increased
by `3`. -/
theorem gauge_restarted_gaugeRun :
    (∃ s : Aggregator Binary64 1 1,
      Transition.run (step ⟨{}, lexicalCast⟩ (.new {} List.length)) init gaugeRun = some s ∧
      (s.workers 0).flushers.map (fun f => f.ledger.gauges.lookup (ascii "a")) =
        [some (CDouble.ofInt 5), some (CDouble.ofInt 3)] ∧
      (s.workers 0).flushers.map (fun f => f.lines.map Prod.fst) =
        [[(digitGauge .none 5).text], [(digitGauge .plus 3).text]]) ∧
      GaugeLine.fold Binary64 (ascii "a") [digitGauge .none 5, digitGauge .plus 3] =
        CDouble.ofInt 8 := by
  constructor
  · have hflushers : (Transition.run (step ⟨{}, lexicalCast⟩ (.new {} List.length))
        init gaugeRun).map (fun s : Aggregator Binary64 1 1 =>
          ((s.workers 0).flushers.map (fun f => f.ledger.gauges.lookup (ascii "a")),
            (s.workers 0).flushers.map (fun f => f.lines.map Prod.fst))) =
        some ([some (CDouble.ofInt 5), some (CDouble.ofInt 3)],
          [[(digitGauge .none 5).text], [(digitGauge .plus 3).text]]) := by
      decide +kernel
    obtain ⟨s, hrun, hflushers⟩ := Option.map_eq_some_iff.mp hflushers
    exact ⟨s, hrun, Prod.mk.inj hflushers⟩
  · decide +kernel

end Aggregator

end Statsdcc
