import Mathlib
import Statsdcc.Worker

/-!
# The lines behind a worker's ledgers

`Worker.Faithful` relates the ledgers of a worker to the lines that it has taken
from its queue: each ledger is what its lines make of a new one, and the lines of
all ledgers, in the order in which the ledgers were cut, are the lines taken.

## Main results

- `Worker.Faithful.act` — every step of `Worker::process` keeps it
- `Worker.Faithful.move` — and so does everything other threads do
-/

open Bytes

namespace Statsdcc

namespace WorkerPc

/-- `current_ledger->process()` has run and the ledger is still in place. -/
def processed : WorkerPc → Bool
  | handOff _ | join _ | publish _ | replace _ => true
  | _ => false

end WorkerPc

variable {R : Type}

namespace Worker

/-- The lines of the ledgers handed to flusher threads, in cut order. -/
def flushedLines (w : Worker R) : List Stamped := (w.flushers.map Flusher.lines).flatten

/-- The lines of the current ledger that no flusher thread has a copy of: none
between the creation of the thread and the replacement of the ledger. -/
def unflushedLines (w : Worker R) : List Stamped :=
  if w.pc.handedOff then [] else w.currentLines

theorem unflushedLines_of_inPlace {w : Worker R} (h : w.pc.handedOff = false) :
    w.unflushedLines = w.currentLines := by
  simp [unflushedLines, h]

/-- What a flusher thread was given does not change while it runs. -/
theorem map_setFlusher {β : Type*} (g : Flusher R → β)
    (hg : ∀ f status, g { f with status } = g f) (w : Worker R) (j : ℕ) (status : FlusherStatus) :
    (w.setFlusher j status).flushers.map g = w.flushers.map g := by
  have hlist : ∀ (fs : List (Flusher R)) (j : ℕ),
      (fs.modify j fun f => { f with status }).map g = fs.map g := by
    intro fs
    induction fs with
    | nil => intro j; simp
    | cons f fs ih =>
      intro j
      cases j with
      | zero => simp [hg]
      | succ j => simp [ih]
  exact hlist w.flushers j

theorem flushedLines_setFlusher (w : Worker R) (j : ℕ) (status : FlusherStatus) :
    (w.setFlusher j status).flushedLines = w.flushedLines := by
  rw [flushedLines, map_setFlusher _ (fun _ _ => rfl), flushedLines]

theorem flushedLines_spawnFlusher (w : Worker R) :
    w.spawnFlusher.flushedLines = w.flushedLines ++ w.currentLines := by
  simp [flushedLines, spawnFlusher]

section

variable [CDouble R]

/-- The ledgers of a worker are what its lines make of them. -/
structure Faithful (env : Env R) (w : Worker R) : Prop where
  buffered : w.pc.processed = false →
    w.currentLedger = Ledger.replay env (w.currentLines.map Prod.fst)
  processed : w.pc.processed = true → ∃ elapsed, w.currentLedger =
    (Ledger.replay env (w.currentLines.map Prod.fst)).process env.config elapsed
  flushed : ∀ f ∈ w.flushers, ∃ elapsed, f.ledger =
    ((Ledger.replay env (f.lines.map Prod.fst)).process env.config elapsed).copy
  handedOff : w.pc.handedOff = true →
    (w.flushers.map Flusher.lines).getLast? = some w.currentLines
  order : w.popped = (w.flushedLines ++ w.unflushedLines).map Prod.fst ++ w.pc.inHand

theorem faithful_new (env : Env R) (id : ℕ) (dropped rate : UInt64) (bad : Int32) :
    Faithful env
      { id := id, metricsDropped := dropped, metricsRate := rate, badLinesSeen := bad } where
  buffered _ := rfl
  processed h := by cases h
  flushed f hf := by cases hf
  handedOff h := by cases h
  order := rfl

/-- A step that leaves all lines and ledgers alone. -/
theorem Faithful.of_eq {env : Env R} {w w' : Worker R} (h : Faithful env w)
    (hprocessed : w'.pc.processed = w.pc.processed) (hhanded : w'.pc.handedOff = w.pc.handedOff)
    (hhand : w'.pc.inHand = w.pc.inHand) (hledger : w'.currentLedger = w.currentLedger)
    (hlines : w'.currentLines = w.currentLines) (hflushers : w'.flushers = w.flushers)
    (hpopped : w'.popped = w.popped) : Faithful env w' where
  buffered := by rw [hprocessed, hledger, hlines]; exact h.buffered
  processed := by rw [hprocessed, hledger, hlines]; exact h.processed
  flushed := by rw [hflushers]; exact h.flushed
  handedOff := by rw [hhanded, hflushers, hlines]; exact h.handedOff
  order := by
    rw [hpopped, hhand, flushedLines, unflushedLines, hhanded, hflushers, hlines]
    exact h.order

theorem Faithful.act {env : Env R} {w w' : Worker R} {a : WorkerAction} (h : Faithful env w)
    (hact : w.act env a = some w') : Faithful env w' := by
  have horder := h.order
  have hbuffered := h.buffered
  have hprocessed := h.processed
  cases acted_of_act hact with
  | pop hpc hqueue =>
    rw [unflushedLines, hpc] at horder
    rw [hpc] at hbuffered
    refine ⟨fun _ => hbuffered rfl, fun h' => ?_, h.flushed, fun h' => ?_, ?_⟩
    · cases h'
    · cases h'
    · show w.popped ++ _ = _
      rw [horder]
      simp [flushedLines, unflushedLines, WorkerPc.inHand, WorkerPc.handedOff]
  | testSet hpc hflag | testClear hpc hflag =>
    refine h.of_eq ?_ ?_ ?_ rfl rfl rfl rfl <;> rw [hpc] <;> rfl
  | process elapsed hpc =>
    rw [unflushedLines, hpc] at horder
    rw [hpc] at hbuffered
    refine ⟨fun h' => ?_, fun _ => ⟨elapsed, ?_⟩, h.flushed, fun h' => ?_, horder⟩
    · cases h'
    · rw [hbuffered rfl]
    · cases h'
  | @handOff item hpc =>
    rw [unflushedLines, hpc] at horder
    rw [hpc] at hprocessed
    obtain ⟨elapsed, hledger⟩ := hprocessed rfl
    refine ⟨fun h' => ?_, fun _ => ⟨elapsed, hledger⟩, fun f hf => ?_, fun _ => ?_, ?_⟩
    · cases h'
    · rcases List.mem_append.mp hf with hf | hf
      · exact h.flushed f hf
      · rw [List.mem_singleton] at hf
        subst hf
        exact ⟨elapsed, by rw [hledger]⟩
    · simp [spawnFlusher]
    · -- the lines of the current ledger are from now on those of the new thread
      have hflushed : flushedLines { w.spawnFlusher with pc := .join item } =
          w.flushedLines ++ w.currentLines := flushedLines_spawnFlusher w
      rw [hflushed]
      simpa [unflushedLines, WorkerPc.handedOff, WorkerPc.inHand, spawnFlusher] using horder
  | join hpc hprev | publish hpc =>
    refine h.of_eq ?_ ?_ ?_ rfl rfl rfl rfl <;> rw [hpc] <;> rfl
  | replace hpc =>
    rw [unflushedLines, hpc] at horder
    refine ⟨fun _ => rfl, fun h' => ?_, h.flushed, fun h' => ?_, horder⟩
    · cases h'
    · cases h'
  | clear hpc =>
    refine h.of_eq ?_ ?_ ?_ rfl rfl rfl rfl <;> rw [hpc] <;> rfl
  | buffer hpc =>
    rw [unflushedLines, hpc] at horder
    rw [hpc] at hbuffered
    refine ⟨fun _ => ?_, fun h' => ?_, h.flushed, fun h' => ?_, ?_⟩
    · simp [hbuffered rfl, Ledger.replay]
    · cases h'
    · cases h'
    · simpa [flushedLines, unflushedLines, WorkerPc.inHand, WorkerPc.handedOff] using horder

theorem Faithful.move {env : Env R} {w w' : Worker R} (h : Faithful env w)
    (hmove : Move env w w') : Faithful env w' := by
  cases hmove with
  | act a hact => exact h.act hact
  | interrupt => exact h.of_eq rfl rfl rfl rfl rfl rfl rfl
  | enqueue metric => exact h.of_eq rfl rfl rfl rfl rfl rfl rfl
  | drop metric => exact h.of_eq rfl rfl rfl rfl rfl rfl rfl
  | setFlusher j status =>
    refine ⟨h.buffered, h.processed, fun f hf => ?_, fun hpc => ?_, ?_⟩
    · have hmem : (f.lines, f.ledger) ∈ w.flushers.map fun f => (f.lines, f.ledger) := by
        rw [← map_setFlusher (fun f : Flusher R => (f.lines, f.ledger)) (fun _ _ => rfl) w j status]
        exact List.mem_map_of_mem hf
      obtain ⟨g, hg, heq⟩ := List.mem_map.mp hmem
      obtain ⟨elapsed, hledger⟩ := h.flushed g hg
      obtain ⟨hlines, hledger'⟩ := Prod.mk.inj heq
      exact ⟨elapsed, by rw [← hledger', hledger, hlines]⟩
    · rw [map_setFlusher _ (fun _ _ => rfl)]
      exact h.handedOff hpc
    · rw [flushedLines_setFlusher]
      exact h.order

/-- The lines of a ledger handed off were popped. -/
theorem Faithful.popped_of_flushed {env : Env R} {w : Worker R} (h : w.Faithful env)
    {lines : List Stamped} (hlines : lines ∈ w.flushers.map Flusher.lines) {metric : Bytes}
    (hmem : metric ∈ lines.map Prod.fst) : metric ∈ w.popped := by
  obtain ⟨x, hx, rfl⟩ := List.mem_map.mp hmem
  have hflushed : x ∈ w.flushedLines := List.mem_flatten.mpr ⟨lines, hlines, hx⟩
  rw [h.order, List.mem_append]
  exact .inl (List.mem_map_of_mem (List.mem_append_left _ hflushed))

/-- And so were those of the current ledger. -/
theorem Faithful.popped_of_current {env : Env R} {w : Worker R} (h : w.Faithful env)
    {metric : Bytes} (hmem : metric ∈ w.currentLines.map Prod.fst) : metric ∈ w.popped := by
  cases hpc : w.pc.handedOff with
  | true => exact h.popped_of_flushed (List.mem_of_getLast? (h.handedOff hpc)) hmem
  | false =>
    rw [h.order, unflushedLines_of_inPlace hpc, List.mem_append, List.map_append]
    exact .inl (List.mem_append_right _ hmem)

end

end Worker

end Statsdcc
