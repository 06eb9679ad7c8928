import Mathlib
import Statsdcc.Lib.Heap
import Statsdcc.Lib.Handoff
import Statsdcc.Consumer
import Statsdcc.Aggregator
import Statsdcc.Proxy

/-!
# The strings behind the queues

The work queues hold `char*`. A call of `consume` allocates a block, copies the
string into it and passes the pointer to `submit`, which frees it when the queue
is full. A worker thread that pops a pointer builds a `std::string` from it and
frees the block. Any other thread may run between two of these steps, and the
allocator may give out an address again as soon as it has been freed.

What the language leaves undefined (to read or free a block that is not there,
to write past its end) sets `fault`.

## Main definitions

- `Strings.step` — one access of one thread to a block or a queue
- `Strings.erase` — the strings in place of the pointers

## Main results

- `Strings.custody_of_run` — each block has one holder, after every run
- `Strings.passes_strings` — no access is undefined, no block is lost, and what the
  threads do to the queues they do to queues of strings
- `Strings.passed_aggregator`, `Strings.passed_proxy` — the same for both programs
-/

open Bytes

namespace Statsdcc

/-- A call of `consume`, with the pointer it has in hand. -/
inductive ProducerPc (Q : ℕ)
  | idle
  /-- Before `strcpy`. -/
  | copy (queue : Fin Q) (source : Bytes) (ptr : ℕ)
  /-- In `submit`, before the push. -/
  | push (queue : Fin Q) (ptr : ℕ)
  /-- The push failed: the metric is logged and counted. -/
  | log (queue : Fin Q) (ptr : ℕ)
  | free (ptr : ℕ)

/-- The pointer of a call. -/
def ProducerPc.held {Q : ℕ} : ProducerPc Q → List ℕ
  | idle => []
  | copy _ _ p | push _ p | log _ p | free p => [p]

/-- The loop of `Worker::process`, as far as `metric_ptr` goes. -/
inductive ConsumerPc
  | pop
  /-- Before `metric = std::string(metric_ptr)`. -/
  | read (ptr : ℕ)
  | free (ptr : ℕ) (metric : Bytes)
  /-- The rest of the loop body, which has the `std::string`. -/
  | work (metric : Bytes)

/-- The pointer in the hands of a worker thread. -/
def ConsumerPc.held : ConsumerPc → List ℕ
  | read p | free p _ => [p]
  | pop | work _ => []

/-- The heap, the queues of pointers and the threads. -/
structure Strings (Q T C : ℕ) where
  heap : Heap Byte := ∅
  queues : Fin Q → List ℕ := fun _ => []
  producers : Fin T → ProducerPc Q := fun _ => .idle
  consumers : Fin C → ConsumerPc := fun _ => .pop
  fault : Bool := false

/-- A step of one thread. -/
inductive StringsAction (T C : ℕ)
  /-- `consume` is called; `tc_malloc` returns `ptr`, or `NULL`. -/
  | malloc (t : Fin T) (line : Bytes) (ptr : Option ℕ)
  | copy (t : Fin T)
  | push (t : Fin T) (ok : Bool)
  | log (t : Fin T)
  | release (t : Fin T)
  | pop (c : Fin C)
  | read (c : Fin C)
  | free (c : Fin C)
  | finish (c : Fin C)
  deriving DecidableEq

/-- Where `consume` sends a line and the string it copies. -/
def AggregatorConsumer.route {W : ℕ} [NeZero W] (consumer : AggregatorConsumer W)
    (metric : Bytes) : Fin W × Bytes :=
  match metric.idxOf? colon with
  | some pos => (consumer.workerOf (metric.take pos), metric)
  | none => (consumer.badKeysQueueHash, consumer.badKeysMetric)

/-- What is submitted is the string that was copied, up to its first NUL. -/
theorem AggregatorConsumer.consume_eq_route {W : ℕ} [NeZero W] (consumer : AggregatorConsumer W)
    (metric : Bytes) :
    consumer.consume metric = ((consumer.route metric).1, cStr (consumer.route metric).2) := by
  rw [consume, route]
  cases metric.idxOf? colon with
  | none => rfl
  | some pos => rfl

namespace Strings

variable {Q T C : ℕ}

def setProducer (s : Strings Q T C) (t : Fin T) (pc : ProducerPc Q) : Strings Q T C :=
  { s with producers := Function.update s.producers t pc }

def setConsumer (s : Strings Q T C) (c : Fin C) (pc : ConsumerPc) : Strings Q T C :=
  { s with consumers := Function.update s.consumers c pc }

/-- The program is undefined from here on. -/
def undefined (s : Strings Q T C) : Strings Q T C := { s with fault := true }

/-- One step of one thread, `none` when it is not enabled. -/
def step (route : Bytes → Fin Q × Bytes) (queueOf : Fin C → Fin Q) (s : Strings Q T C) :
    StringsAction T C → Option (Strings Q T C)
  | .malloc t line ptr =>
    match s.producers t, ptr with
    | .idle, some p =>
      let (queue, source) := route line
      (s.heap.malloc p (source.length + 1)).map fun heap =>
        { s.setProducer t (.copy queue source p) with heap }
    -- a warning is logged
    | .idle, none => some s
    | _, _ => none
  | .copy t =>
    match s.producers t with
    | .copy queue source p =>
      match s.heap.strcpy p (cStr source) with
      | some heap => some { s.setProducer t (.push queue p) with heap }
      | none => some s.undefined
    | _ => none
  | .push t ok =>
    match s.producers t with
    | .push queue p =>
      if p = 0 then some (s.setProducer t .idle)
      else if ok then
        if (s.queues queue).length < queueCapacity then
          some { s.setProducer t .idle with
            queues := Function.update s.queues queue (s.queues queue ++ [p]) }
        else none
      else some (s.setProducer t (.log queue p))
    | _ => none
  | .log t =>
    match s.producers t with
    | .log _ p =>
      match s.heap.read p with
      | some _ => some (s.setProducer t (.free p))
      | none => some s.undefined
    | _ => none
  | .release t =>
    match s.producers t with
    | .free p =>
      match s.heap.free p with
      | some heap => some { s.setProducer t .idle with heap }
      | none => some s.undefined
    | _ => none
  | .pop c =>
    match s.consumers c, s.queues (queueOf c) with
    | .pop, p :: ps =>
      some { s.setConsumer c (.read p) with queues := Function.update s.queues (queueOf c) ps }
    | _, _ => none
  | .read c =>
    match s.consumers c with
    | .read p =>
      match s.heap.read p with
      | some metric => some (s.setConsumer c (.free p metric))
      | none => some s.undefined
    | _ => none
  | .free c =>
    match s.consumers c with
    | .free p metric =>
      match s.heap.free p with
      | some heap => some { s.setConsumer c (.work metric) with heap }
      | none => some s.undefined
    | _ => none
  | .finish c =>
    match s.consumers c with
    | .work _ => some (s.setConsumer c .pop)
    | _ => none

-- ════════════════════════════════════════════════════════════════════════
-- Who holds a pointer, and what is behind it
-- ════════════════════════════════════════════════════════════════════════

/-- Those that can hold a pointer. -/
inductive Party (Q T C : ℕ)
  | producer (t : Fin T)
  | queue (q : Fin Q)
  | consumer (c : Fin C)
  deriving DecidableEq

/-- The string at an address. -/
def text (h : Heap Byte) (p : ℕ) : Bytes := (h.read p).getD []

/-- There is the string of a line for this queue. -/
def Carries (route : Bytes → Fin Q × Bytes) (h : Heap Byte) (q : Fin Q) (p : ℕ) : Prop :=
  ∃ line, (route line).1 = q ∧ h.read p = some (cStr (route line).2)

/-- What a call knows of the block that it holds. -/
def ProducerReady (route : Bytes → Fin Q × Bytes) (h : Heap Byte) : ProducerPc Q → Prop
  | .copy q source p => (∃ line, route line = (q, source)) ∧
      ∃ b, h.blocks p = some b ∧ b.size = source.length + 1
  | .push q p | .log q p => Carries route h q p
  | .idle | .free _ => True

def ConsumerReady (route : Bytes → Fin Q × Bytes) (h : Heap Byte) (q : Fin Q) :
    ConsumerPc → Prop
  | .read p => Carries route h q p
  | .pop | .free _ _ | .work _ => True

variable (route : Bytes → Fin Q × Bytes) (queueOf : Fin C → Fin Q)

/-- The pointers of each party. -/
def held (s : Strings Q T C) : Party Q T C → List ℕ
  | .producer t => (s.producers t).held
  | .queue q => s.queues q
  | .consumer c => (s.consumers c).held

/-- What each party knows of the blocks that it holds. -/
def Ready (s : Strings Q T C) : Party Q T C → Prop
  | .producer t => ProducerReady route s.heap (s.producers t)
  | .queue q => ∀ p ∈ s.queues q, Carries route s.heap q p
  | .consumer c => ConsumerReady route s.heap (queueOf c) (s.consumers c)

/-- The invariant of the pointers: each block has one holder, who knows what is in it. -/
structure Custody (s : Strings Q T C) : Prop where
  owned : s.heap.Owned s.held
  ready : ∀ i, s.Ready route queueOf i
  defined : s.fault = false

/-- The value of a call: the copy of its string that the queue is to get. -/
def callOf (h : Heap Byte) : ProducerPc Q → Multiset (Fin Q × Bytes)
  | .copy q source _ => {(q, cStr source)}
  | .push q p | .log q p => {(q, text h p)}
  | .idle | .free _ => 0

def handOf (h : Heap Byte) : ConsumerPc → Option Bytes
  | .read p => some (text h p)
  | .free _ metric | .work metric => some metric
  | .pop => none

/-- The strings in place of the pointers. -/
def erase (s : Strings Q T C) : Handoff Bytes (Fin Q) (Fin C) where
  calls := ∑ t, callOf s.heap (s.producers t)
  queues q := (s.queues q).map (text s.heap)
  hands c := handOf s.heap (s.consumers c)

/-- What a step does to the queues of strings. -/
def events (s : Strings Q T C) :
    StringsAction T C → List (Handoff.Event Bytes (Fin Q) (Fin C))
  | .malloc _ line (some _) => [.call (route line).1 (cStr (route line).2)]
  | .push t true =>
    match s.producers t with
    | .push q p => [.push q (text s.heap p)]
    | _ => []
  | .log t =>
    match s.producers t with
    | .log q p => [.drop q (text s.heap p)]
    | _ => []
  | .pop c => (s.queues (queueOf c)).head?.toList.map fun p => .pop c (text s.heap p)
  | .finish c => [.finish c]
  | _ => []

-- ════════════════════════════════════════════════════════════════════════
-- Steps
-- ════════════════════════════════════════════════════════════════════════

section Steps

variable {route : Bytes → Fin Q × Bytes} {queueOf : Fin C → Fin Q}
variable {s s' : Strings Q T C} {h h' : Heap Byte} {p : ℕ}

theorem text_of_read {metric : Bytes} (hread : h.read p = some metric) : text h p = metric := by
  rw [text, hread]
  rfl

theorem text_eq_of_blocks (hblocks : h'.blocks p = h.blocks p) : text h' p = text h p := by
  rw [text, text, Heap.read_eq_of_blocks_eq hblocks]

theorem Carries.frame {q : Fin Q} (hc : Carries route h q p)
    (hblocks : h'.blocks p = h.blocks p) : Carries route h' q p := by
  obtain ⟨line, hq, hread⟩ := hc
  exact ⟨line, hq, (Heap.read_eq_of_blocks_eq hblocks).trans hread⟩

theorem callOf_frame {pc : ProducerPc Q} (hblocks : ∀ p ∈ pc.held, h'.blocks p = h.blocks p) :
    callOf h' pc = callOf h pc := by
  cases pc with
  | idle | copy | free => rfl
  | push q p | log q p =>
    simp only [callOf]
    rw [text_eq_of_blocks (hblocks p (List.mem_singleton_self p))]

theorem handOf_frame {pc : ConsumerPc} (hblocks : ∀ p ∈ pc.held, h'.blocks p = h.blocks p) :
    handOf h' pc = handOf h pc := by
  cases pc with
  | pop | free | work => rfl
  | read p =>
    simp only [handOf]
    rw [text_eq_of_blocks (hblocks p (List.mem_singleton_self p))]

/-- The party has not moved, and its blocks are as they were. -/
structure Still (s s' : Strings Q T C) (i : Party Q T C) : Prop where
  cell : match i with
    | .producer t => s'.producers t = s.producers t
    | .queue q => s'.queues q = s.queues q
    | .consumer c => s'.consumers c = s.consumers c
  blocks : ∀ p ∈ s.held i, s'.heap.blocks p = s.heap.blocks p

theorem Still.held {i : Party Q T C} (hstill : Still s s' i) : s'.held i = s.held i := by
  have hcell := hstill.cell
  cases i with
  | producer t => exact congrArg ProducerPc.held hcell
  | queue q => exact hcell
  | consumer c => exact congrArg ConsumerPc.held hcell

theorem Still.ready {i : Party Q T C} (hstill : Still s s' i)
    (hready : s.Ready route queueOf i) : s'.Ready route queueOf i := by
  obtain ⟨hcell, hblocks⟩ := hstill
  cases i with
  | producer t =>
    simp only [Ready, Strings.held] at hcell hready hblocks ⊢
    rw [hcell]
    cases hpc : s.producers t with
    | idle | free => trivial
    | copy q source p =>
      rw [hpc] at hready hblocks
      obtain ⟨hline, hb⟩ := hready
      refine ⟨hline, ?_⟩
      rw [hblocks p (List.mem_singleton_self p)]
      exact hb
    | push q p | log q p =>
      rw [hpc] at hready hblocks
      exact Carries.frame hready (hblocks p (List.mem_singleton_self p))
  | queue q =>
    simp only [Ready, Strings.held] at hcell hready hblocks ⊢
    rw [hcell]
    exact fun p hp => (hready p hp).frame (hblocks p hp)
  | consumer c =>
    simp only [Ready, Strings.held] at hcell hready hblocks ⊢
    rw [hcell]
    cases hpc : s.consumers c with
    | pop | free | work => trivial
    | read p =>
      rw [hpc] at hready hblocks
      exact Carries.frame hready (hblocks p (List.mem_singleton_self p))

/-- Custody when all parties but some are still. -/
theorem Custody.of_still (hcust : s.Custody route queueOf) {M : Party Q T C → Prop}
    (hstill : ∀ i, ¬ M i → Still s s' i) (howned : s'.heap.Owned s'.held)
    (hready : ∀ i, M i → s'.Ready route queueOf i) (hfault : s'.fault = s.fault) :
    s'.Custody route queueOf where
  owned := howned
  ready i := by
    by_cases hi : M i
    · exact hready i hi
    · exact (hstill i hi).ready (hcust.ready i)
  defined := hfault.trans hcust.defined

/-- The strings in the queues and in the hands of the worker threads when only a
call moves. -/
theorem erase_of_producer {t : Fin T} (hstill : ∀ i ≠ .producer t, Still s s' i) :
    s'.erase.calls + callOf s.heap (s.producers t) =
        s.erase.calls + callOf s'.heap (s'.producers t) ∧
      s'.erase.queues = s.erase.queues ∧ s'.erase.hands = s.erase.hands := by
  refine ⟨?_, ?_, ?_⟩
  · refine Transition.sum_frame (f := fun t => callOf s.heap (s.producers t))
      (g := fun t => callOf s'.heap (s'.producers t)) fun t' ht' => ?_
    obtain ⟨hcell, hblocks⟩ := hstill (.producer t') fun heq => ht' (Party.producer.inj heq)
    simp only at hcell
    rw [hcell]
    exact callOf_frame hblocks
  · funext q
    obtain ⟨hcell, hblocks⟩ := hstill (.queue q) (by simp)
    simp only at hcell
    show (s'.queues q).map _ = (s.queues q).map _
    rw [hcell]
    exact List.map_congr_left fun p hp => text_eq_of_blocks (hblocks p hp)
  · funext c
    obtain ⟨hcell, hblocks⟩ := hstill (.consumer c) (by simp)
    simp only at hcell
    show handOf s'.heap (s'.consumers c) = handOf s.heap (s.consumers c)
    rw [hcell]
    exact handOf_frame hblocks

/-- The strings when only a worker thread moves. -/
theorem erase_of_consumer {c : Fin C} (hstill : ∀ i ≠ .consumer c, Still s s' i) :
    s'.erase = { s.erase with
      hands := Function.update s.erase.hands c (handOf s'.heap (s'.consumers c)) } := by
  have hcalls : s'.erase.calls = s.erase.calls := by
    show ∑ t, callOf s'.heap (s'.producers t) = ∑ t, callOf s.heap (s.producers t)
    refine Finset.sum_congr rfl fun t _ => ?_
    obtain ⟨hcell, hblocks⟩ := hstill (.producer t) (by simp)
    simp only at hcell
    rw [hcell]
    exact callOf_frame hblocks
  have hqueues : s'.erase.queues = s.erase.queues := by
    funext q
    obtain ⟨hcell, hblocks⟩ := hstill (.queue q) (by simp)
    simp only at hcell
    show (s'.queues q).map _ = (s.queues q).map _
    rw [hcell]
    exact List.map_congr_left fun p hp => text_eq_of_blocks (hblocks p hp)
  have hhands : s'.erase.hands =
      Function.update s.erase.hands c (handOf s'.heap (s'.consumers c)) := by
    funext c'
    by_cases hc : c' = c
    · subst hc
      rw [Function.update_self]
      rfl
    · rw [Function.update_of_ne hc]
      obtain ⟨hcell, hblocks⟩ := hstill (.consumer c') fun heq => hc (Party.consumer.inj heq)
      simp only at hcell
      show handOf s'.heap (s'.consumers c') = handOf s.heap (s.consumers c')
      rw [hcell]
      exact handOf_frame hblocks
  show Handoff.mk s'.erase.calls s'.erase.queues s'.erase.hands = _
  rw [hcalls, hqueues, hhands]

/-- A call that moves, and perhaps changes a block that no one else holds. -/
theorem still_setProducer {t : Fin T} {pc : ProducerPc Q}
    (hblocks : ∀ i ≠ .producer t, ∀ p ∈ s.held i, h'.blocks p = s.heap.blocks p) :
    ∀ i ≠ .producer t, Still s { s.setProducer t pc with heap := h' } i := by
  intro i hi
  refine ⟨?_, hblocks i hi⟩
  cases i with
  | producer t' => exact Function.update_of_ne (fun heq => hi (congrArg Party.producer heq)) _ _
  | queue q => rfl
  | consumer c => rfl

theorem still_setConsumer {c : Fin C} {pc : ConsumerPc}
    (hblocks : ∀ i ≠ .consumer c, ∀ p ∈ s.held i, h'.blocks p = s.heap.blocks p) :
    ∀ i ≠ .consumer c, Still s { s.setConsumer c pc with heap := h' } i := by
  intro i hi
  refine ⟨?_, hblocks i hi⟩
  cases i with
  | producer t => rfl
  | queue q => rfl
  | consumer c' => exact Function.update_of_ne (fun heq => hi (congrArg Party.consumer heq)) _ _

/-- Only its holder is concerned by a block. -/
theorem Custody.others (hcust : s.Custody route queueOf) {i : Party Q T C} (hp : p ∈ s.held i)
    (hframe : ∀ q ≠ p, h'.blocks q = s.heap.blocks q) :
    ∀ j ≠ i, ∀ q ∈ s.held j, h'.blocks q = s.heap.blocks q := by
  intro j hj q hq
  refine hframe q ?_
  rintro rfl
  exact hj (hcust.owned.custody.apart hq hp)

/-- The block of a call that was given one. -/
theorem Custody.malloc (hcust : s.Custody route queueOf) {t : Fin T} {line : Bytes}
    (hpc : s.producers t = .idle)
    (hmalloc : s.heap.malloc p ((route line).2.length + 1) = some h') :
    let s' := { s.setProducer t (.copy (route line).1 (route line).2 p) with heap := h' }
    s'.Custody route queueOf ∧
      s'.erase = { s.erase with
        calls := s.erase.calls + {((route line).1, cStr (route line).2)} } := by
  intro s'
  have hself : s'.producers t = .copy (route line).1 (route line).2 p :=
    Function.update_self _ _ _
  have hblocks : ∀ i ≠ .producer t, ∀ q ∈ s.held i, h'.blocks q = s.heap.blocks q := by
    intro i _ q hq
    refine Heap.blocks_malloc_of_ne hmalloc ?_
    rintro rfl
    obtain ⟨b, hb⟩ := hcust.owned.exists_block hq
    rw [(Heap.malloc_eq_some hmalloc).2.1] at hb
    cases hb
  have hstill : ∀ i ≠ .producer t, Still s s' i := still_setProducer hblocks
  constructor
  · refine hcust.of_still (M := (· = .producer t)) hstill ?_ ?_ rfl
    · refine hcust.owned.malloc (i := .producer t) hmalloc ?_ fun i hi => (hstill i hi).held
      show (s'.producers t).held.Perm (p :: (s.producers t).held)
      rw [hself, hpc]
      exact List.Perm.refl _
    · rintro i rfl
      show ProducerReady route h' (s'.producers t)
      rw [hself]
      exact ⟨⟨line, rfl⟩, _, Heap.blocks_malloc hmalloc, rfl⟩
  · obtain ⟨hcalls, hqueues, hhands⟩ := erase_of_producer hstill
    rw [hpc, hself] at hcalls
    show Handoff.mk s'.erase.calls s'.erase.queues s'.erase.hands = _
    rw [hqueues, hhands]
    exact congrArg (fun calls => Handoff.mk calls _ _) ((add_zero _).symm.trans hcalls)

/-- `strcpy` finds its block and room in it. -/
theorem Custody.strcpy (hcust : s.Custody route queueOf) {t : Fin T} {q : Fin Q} {source : Bytes}
    (hpc : s.producers t = .copy q source p) :
    ∃ h', s.heap.strcpy p (cStr source) = some h' ∧
      let s' := { s.setProducer t (.push q p) with heap := h' }
      s'.Custody route queueOf ∧ s'.erase = s.erase := by
  have hready := hcust.ready (.producer t)
  simp only [Ready, hpc, ProducerReady] at hready
  obtain ⟨⟨line, hline⟩, b, hb, hsize⟩ := hready
  have hfits : (cStr source).length < b.size := by
    rw [hsize]
    exact Nat.lt_succ_of_le (List.takeWhile_sublist _).length_le
  have hcpy := Heap.strcpy_of_fits hb hfits
  refine ⟨_, hcpy, ?_⟩
  intro s'
  have hheld : p ∈ s.held (.producer t) := by
    rw [Strings.held, hpc]
    exact List.mem_singleton_self p
  have hself : s'.producers t = .push q p := Function.update_self _ _ _
  have hstill : ∀ i ≠ .producer t, Still s s' i :=
    still_setProducer (hcust.others hheld fun q hq => Heap.blocks_set_of_ne _ _ hq)
  have hread : s'.heap.read p = some (cStr source) := by
    show (Heap.blocks _ p).bind Block.text = _
    rw [Heap.blocks_set_self]
    rfl
  constructor
  · refine hcust.of_still (M := (· = .producer t)) hstill ?_ ?_ rfl
    · refine (hcust.owned.strcpy hcpy).of_perm fun i => ?_
      by_cases hi : i = .producer t
      · subst hi
        show (s'.producers t).held.Perm (s.producers t).held
        rw [hself, hpc]
        exact List.Perm.refl _
      · rw [(hstill i hi).held]
    · rintro i rfl
      show ProducerReady route s'.heap (s'.producers t)
      rw [hself]
      exact ⟨line, by rw [hline], by rw [hread, hline]⟩
  · obtain ⟨hcalls, hqueues, hhands⟩ := erase_of_producer hstill
    rw [hpc, hself] at hcalls
    simp only [callOf] at hcalls
    rw [text_of_read hread] at hcalls
    show Handoff.mk s'.erase.calls s'.erase.queues s'.erase.hands = _
    rw [hqueues, hhands, add_right_cancel hcalls]

/-- The queue takes the block of the call. -/
theorem Custody.push (hcust : s.Custody route queueOf) {t : Fin T} {q : Fin Q}
    (hpc : s.producers t = .push q p) :
    let s' := { s.setProducer t .idle with
      queues := Function.update s.queues q (s.queues q ++ [p]) }
    s'.Custody route queueOf ∧ s'.erase.calls + {(q, text s.heap p)} = s.erase.calls ∧
      s'.erase = { s.erase with
        calls := s'.erase.calls
        queues := Function.update s.erase.queues q (s.erase.queues q ++ [text s.heap p]) } := by
  intro s'
  have hself : s'.producers t = .idle := Function.update_self _ _ _
  have hqueue : s'.queues q = s.queues q ++ [p] := Function.update_self _ _ _
  have hstill : ∀ i, ¬ (i = .producer t ∨ i = .queue q) → Still s s' i := by
    intro i hi
    refine ⟨?_, fun _ _ => rfl⟩
    cases i with
    | producer t' =>
      exact Function.update_of_ne (fun heq => hi (.inl (congrArg Party.producer heq))) _ _
    | queue q' => exact Function.update_of_ne (fun heq => hi (.inr (congrArg Party.queue heq))) _ _
    | consumer c => rfl
  have hcarries : Carries route s.heap q p := by
    have hready := hcust.ready (.producer t)
    simp only [Ready, hpc] at hready
    exact hready
  refine ⟨?_, ?_, ?_⟩
  · refine hcust.of_still hstill ?_ ?_ rfl
    · refine hcust.owned.pass (p := p) (i := .producer t) (j := .queue q) (by simp) ?_ ?_ ?_
      · show (s.producers t).held.Perm (p :: (s'.producers t).held)
        rw [hself, hpc]
        exact List.Perm.refl _
      · show (s'.queues q).Perm (p :: s.queues q)
        rw [hqueue]
        exact List.perm_append_singleton p _
      · exact fun i ht hq => (hstill i (not_or.mpr ⟨ht, hq⟩)).held
    · rintro i (rfl | rfl)
      · show ProducerReady route s.heap (s'.producers t)
        rw [hself]
        trivial
      · show ∀ p' ∈ s'.queues q, Carries route s.heap q p'
        rw [hqueue]
        exact Proxy.forall_mem_concat (hcust.ready (.queue q)) hcarries
  · have hcalls := Transition.sum_frame (f := fun t => callOf s.heap (s.producers t))
      (g := fun t => callOf s.heap (s'.producers t)) (i := t) fun t' ht' =>
        congrArg _ (Function.update_of_ne ht' _ _)
    simp only [hpc, hself, callOf, add_zero] at hcalls
    exact hcalls
  · have hqueues : s'.erase.queues =
        Function.update s.erase.queues q (s.erase.queues q ++ [text s.heap p]) := by
      funext q'
      by_cases hq : q' = q
      · subst hq
        rw [Function.update_self]
        show (s'.queues q').map _ = (s.queues q').map _ ++ _
        rw [hqueue, List.map_append]
        rfl
      · rw [Function.update_of_ne hq]
        show (s'.queues q').map _ = (s.queues q').map _
        exact congrArg _ (Function.update_of_ne hq _ _)
    show Handoff.mk s'.erase.calls s'.erase.queues s'.erase.hands = _
    rw [hqueues]
    rfl

/-- A call goes on with its block. -/
theorem Custody.keep (hcust : s.Custody route queueOf) {t : Fin T} (pc : ProducerPc Q)
    (hheld : pc.held = (s.producers t).held) (hready : ProducerReady route s.heap pc) :
    let s' := s.setProducer t pc
    s'.Custody route queueOf ∧
      s'.erase.calls + callOf s.heap (s.producers t) = s.erase.calls + callOf s.heap pc ∧
      s'.erase = { s.erase with calls := s'.erase.calls } := by
  intro s'
  have hself : s'.producers t = pc := Function.update_self _ _ _
  have hstill : ∀ i ≠ .producer t, Still s s' i :=
    still_setProducer fun _ _ _ _ => rfl
  refine ⟨?_, ?_⟩
  · refine hcust.of_still (M := (· = .producer t)) hstill ?_ ?_ rfl
    · refine hcust.owned.of_perm fun i => ?_
      by_cases hi : i = .producer t
      · subst hi
        show (s'.producers t).held.Perm (s.producers t).held
        rw [hself, hheld]
      · rw [(hstill i hi).held]
    · rintro i rfl
      show ProducerReady route s.heap (s'.producers t)
      rw [hself]
      exact hready
  · obtain ⟨hcalls, hqueues, hhands⟩ := erase_of_producer hstill
    rw [hself] at hcalls
    refine ⟨hcalls, ?_⟩
    show Handoff.mk s'.erase.calls s'.erase.queues s'.erase.hands = _
    rw [hqueues, hhands]

/-- A call frees its block. -/
theorem Custody.release (hcust : s.Custody route queueOf) {t : Fin T}
    (hpc : s.producers t = .free p) :
    ∃ h', s.heap.free p = some h' ∧
      let s' := { s.setProducer t .idle with heap := h' }
      s'.Custody route queueOf ∧ s'.erase = s.erase := by
  have hheld : p ∈ s.held (.producer t) := by
    rw [Strings.held, hpc]
    exact List.mem_singleton_self p
  have hidle : ((s.setProducer t .idle).producers t) = .idle := Function.update_self _ _ _
  have hperm : (s.held (.producer t)).Perm (p :: (s.setProducer t .idle).held (.producer t)) := by
    show (s.producers t).held.Perm (p :: ((s.setProducer t .idle).producers t).held)
    rw [hidle, hpc]
    exact List.Perm.refl _
  have hrest : ∀ i ≠ .producer t, Still s (s.setProducer t .idle) i :=
    still_setProducer fun _ _ _ _ => rfl
  obtain ⟨h', hfree, howned, hframe⟩ :=
    hcust.owned.free hperm fun i hi => (hrest i hi).held
  refine ⟨h', hfree, ?_⟩
  intro s'
  have hstill : ∀ i ≠ .producer t, Still s s' i :=
    still_setProducer (hcust.others hheld hframe)
  constructor
  · refine hcust.of_still (M := (· = .producer t)) hstill howned ?_ rfl
    rintro i rfl
    show ProducerReady route h' ((s.setProducer t .idle).producers t)
    rw [hidle]
    trivial
  · obtain ⟨hcalls, hqueues, hhands⟩ := erase_of_producer hstill
    rw [hpc, show s'.producers t = .idle from hidle] at hcalls
    show Handoff.mk s'.erase.calls s'.erase.queues s'.erase.hands = _
    rw [hqueues, hhands, add_right_cancel hcalls]

/-- A worker thread takes the block at the front of its queue. -/
theorem Custody.pop (hcust : s.Custody route queueOf) {c : Fin C} {ps : List ℕ}
    (hpc : s.consumers c = .pop) (hfront : s.queues (queueOf c) = p :: ps) :
    let s' := { s.setConsumer c (.read p) with
      queues := Function.update s.queues (queueOf c) ps }
    s'.Custody route queueOf ∧
      s'.erase = { s.erase with
        queues := Function.update s.erase.queues (queueOf c) (ps.map (text s.heap))
        hands := Function.update s.erase.hands c (some (text s.heap p)) } := by
  intro s'
  have hself : s'.consumers c = .read p := Function.update_self _ _ _
  have hqueue : s'.queues (queueOf c) = ps := Function.update_self _ _ _
  have hstill : ∀ i, ¬ (i = .queue (queueOf c) ∨ i = .consumer c) → Still s s' i := by
    intro i hi
    refine ⟨?_, fun _ _ => rfl⟩
    cases i with
    | producer t => rfl
    | queue q => exact Function.update_of_ne (fun heq => hi (.inl (congrArg Party.queue heq))) _ _
    | consumer c' =>
      exact Function.update_of_ne (fun heq => hi (.inr (congrArg Party.consumer heq))) _ _
  have hready := hcust.ready (.queue (queueOf c))
  simp only [Ready, hfront, List.forall_mem_cons] at hready
  constructor
  · refine hcust.of_still hstill ?_ ?_ rfl
    · refine hcust.owned.pass (p := p) (i := .queue (queueOf c)) (j := .consumer c) (by simp)
        ?_ ?_ ?_
      · show (s.queues (queueOf c)).Perm (p :: s'.queues (queueOf c))
        rw [hqueue, hfront]
      · show (s'.consumers c).held.Perm (p :: (s.consumers c).held)
        rw [hself, hpc]
        exact List.Perm.refl _
      · exact fun i hq hc => (hstill i (not_or.mpr ⟨hq, hc⟩)).held
    · rintro i (rfl | rfl)
      · show ∀ p' ∈ s'.queues (queueOf c), Carries route s.heap (queueOf c) p'
        rw [hqueue]
        exact hready.2
      · show ConsumerReady route s.heap (queueOf c) (s'.consumers c)
        rw [hself]
        exact hready.1
  · have hqueues : s'.erase.queues =
        Function.update s.erase.queues (queueOf c) (ps.map (text s.heap)) := by
      funext q
      by_cases hq : q = queueOf c
      · subst hq
        rw [Function.update_self]
        show (s'.queues (queueOf c)).map _ = _
        rw [hqueue]
        rfl
      · rw [Function.update_of_ne hq]
        show (s'.queues q).map _ = (s.queues q).map _
        exact congrArg _ (Function.update_of_ne hq _ _)
    have hhands : s'.erase.hands =
        Function.update s.erase.hands c (some (text s.heap p)) := by
      funext c'
      by_cases hc : c' = c
      · subst hc
        rw [Function.update_self]
        show handOf s.heap (s'.consumers c') = _
        rw [hself]
        rfl
      · rw [Function.update_of_ne hc]
        exact congrArg (handOf s.heap) (Function.update_of_ne hc _ _)
    show Handoff.mk s'.erase.calls s'.erase.queues s'.erase.hands = _
    rw [hqueues, hhands]
    rfl

/-- A worker thread builds its `std::string` from the block, or goes on to the next turn. -/
theorem Custody.turn (hcust : s.Custody route queueOf) {c : Fin C} (pc : ConsumerPc)
    (hheld : pc.held = (s.consumers c).held)
    (hready : ConsumerReady route s.heap (queueOf c) pc) :
    let s' := s.setConsumer c pc
    s'.Custody route queueOf ∧
      s'.erase = { s.erase with
        hands := Function.update s.erase.hands c (handOf s.heap pc) } := by
  intro s'
  have hself : s'.consumers c = pc := Function.update_self _ _ _
  have hstill : ∀ i ≠ .consumer c, Still s s' i :=
    still_setConsumer fun _ _ _ _ => rfl
  constructor
  · refine hcust.of_still (M := (· = .consumer c)) hstill ?_ ?_ rfl
    · refine hcust.owned.of_perm fun i => ?_
      by_cases hi : i = .consumer c
      · subst hi
        show (s'.consumers c).held.Perm (s.consumers c).held
        rw [hself, hheld]
      · rw [(hstill i hi).held]
    · rintro i rfl
      show ConsumerReady route s.heap (queueOf c) (s'.consumers c)
      rw [hself]
      exact hready
  · have herase := erase_of_consumer hstill
    rw [hself] at herase
    exact herase

/-- A worker thread frees its block. -/
theorem Custody.free (hcust : s.Custody route queueOf) {c : Fin C} {metric : Bytes}
    (hpc : s.consumers c = .free p metric) :
    ∃ h', s.heap.free p = some h' ∧
      let s' := { s.setConsumer c (.work metric) with heap := h' }
      s'.Custody route queueOf ∧ s'.erase = s.erase := by
  have hheld : p ∈ s.held (.consumer c) := by
    rw [Strings.held, hpc]
    exact List.mem_singleton_self p
  have hwork : (s.setConsumer c (.work metric)).consumers c = .work metric :=
    Function.update_self _ _ _
  have hperm : (s.held (.consumer c)).Perm
      (p :: (s.setConsumer c (.work metric)).held (.consumer c)) := by
    show (s.consumers c).held.Perm (p :: ((s.setConsumer c (.work metric)).consumers c).held)
    rw [hwork, hpc]
    exact List.Perm.refl _
  have hrest : ∀ i ≠ .consumer c, Still s (s.setConsumer c (.work metric)) i :=
    still_setConsumer fun _ _ _ _ => rfl
  obtain ⟨h', hfree, howned, hframe⟩ :=
    hcust.owned.free hperm fun i hi => (hrest i hi).held
  refine ⟨h', hfree, ?_⟩
  intro s'
  have hstill : ∀ i ≠ .consumer c, Still s s' i :=
    still_setConsumer (hcust.others hheld hframe)
  constructor
  · refine hcust.of_still (M := (· = .consumer c)) hstill howned ?_ rfl
    rintro i rfl
    show ConsumerReady route h' (queueOf c) ((s.setConsumer c (.work metric)).consumers c)
    rw [hwork]
    trivial
  · rw [erase_of_consumer hstill, show s'.consumers c = .work metric from hwork]
    have hhand : s.erase.hands c = some metric := congrArg (handOf s.heap) hpc
    show Handoff.mk _ _ (Function.update s.erase.hands c (some metric)) = s.erase
    rw [← hhand, Function.update_eq_self]

/-- A step keeps custody, and does to the queues of strings what its events say. -/
theorem Custody.step {a : StringsAction T C} (hcust : s.Custody route queueOf)
    (hstep : Strings.step route queueOf s a = some s') :
    s'.Custody route queueOf ∧
      Transition.run (Handoff.step queueCapacity queueOf) s.erase (s.events route queueOf a) =
        some s'.erase := by
  cases a with
  | malloc t line ptr =>
    simp only [Strings.step] at hstep
    split at hstep
    case h_1 p hpc =>
      obtain ⟨h', hmalloc, rfl⟩ := Option.map_eq_some_iff.mp hstep
      obtain ⟨hcust', herase⟩ := hcust.malloc hpc hmalloc
      exact ⟨hcust', congrArg some herase.symm⟩
    case h_2 =>
      cases hstep
      exact ⟨hcust, rfl⟩
    case h_3 => cases hstep
  | copy t =>
    simp only [Strings.step] at hstep
    split at hstep
    case h_2 => cases hstep
    case h_1 q source p hpc =>
      obtain ⟨h', hcpy, hcust', herase⟩ := hcust.strcpy hpc
      rw [hcpy] at hstep
      cases hstep
      exact ⟨hcust', congrArg some herase.symm⟩
  | push t ok =>
    simp only [Strings.step] at hstep
    split at hstep
    case h_2 => cases hstep
    case h_1 q p hpc =>
      have hp : p ≠ 0 := by
        refine hcust.owned.ne_null (i := .producer t) ?_
        rw [Strings.held, hpc]
        exact List.mem_singleton_self p
      rw [if_neg hp] at hstep
      cases ok with
      | true =>
        rw [if_pos rfl] at hstep
        split_ifs at hstep with hroom
        cases hstep
        obtain ⟨hcust', hcalls, herase⟩ := hcust.push hpc
        refine ⟨hcust', ?_⟩
        have hroom' : (s.erase.queues q).length < queueCapacity := by
          show ((s.queues q).map _).length < _
          rw [List.length_map]
          exact hroom
        simp only [events, hpc]
        rw [Transition.run_cons, Handoff.step_push hcalls hroom']
        exact congrArg some herase.symm
      | false =>
        cases hstep
        have hready := hcust.ready (.producer t)
        simp only [Ready, hpc] at hready
        obtain ⟨hcust', hcalls, herase⟩ := hcust.keep (t := t) (.log q p)
          (by rw [hpc]; rfl) hready
        rw [hpc] at hcalls
        rw [add_right_cancel hcalls] at herase
        exact ⟨hcust', congrArg some herase.symm⟩
  | log t =>
    simp only [Strings.step] at hstep
    split at hstep
    case h_2 => cases hstep
    case h_1 q p hpc =>
      have hready := hcust.ready (.producer t)
      simp only [Ready, hpc] at hready
      obtain ⟨line, -, hread⟩ := hready
      rw [hread] at hstep
      cases hstep
      obtain ⟨hcust', hcalls, herase⟩ := hcust.keep (t := t) (.free p) (by rw [hpc]; rfl)
        trivial
      simp only [hpc, callOf, add_zero] at hcalls
      refine ⟨hcust', ?_⟩
      simp only [events, hpc]
      rw [Transition.run_cons, Handoff.step_drop hcalls]
      exact congrArg some herase.symm
  | release t =>
    simp only [Strings.step] at hstep
    split at hstep
    case h_2 => cases hstep
    case h_1 p hpc =>
      obtain ⟨h', hfree, hcust', herase⟩ := hcust.release hpc
      rw [hfree] at hstep
      cases hstep
      exact ⟨hcust', congrArg some herase.symm⟩
  | pop c =>
    simp only [Strings.step] at hstep
    split at hstep
    case h_2 => cases hstep
    case h_1 p ps hpc hfront =>
      cases hstep
      obtain ⟨hcust', herase⟩ := hcust.pop hpc hfront
      refine ⟨hcust', ?_⟩
      have hhand : s.erase.hands c = none := congrArg (handOf s.heap) hpc
      have hqueue : s.erase.queues (queueOf c) = text s.heap p :: ps.map (text s.heap) :=
        congrArg (List.map (text s.heap)) hfront
      simp only [events, hfront]
      show Transition.run _ s.erase [Handoff.Event.pop c (text s.heap p)] = _
      rw [Transition.run_cons, Handoff.step_pop hhand hqueue]
      exact congrArg some herase.symm
  | read c =>
    simp only [Strings.step] at hstep
    split at hstep
    case h_2 => cases hstep
    case h_1 p hpc =>
      have hready := hcust.ready (.consumer c)
      simp only [Ready, hpc] at hready
      obtain ⟨line, -, hread⟩ := hready
      rw [hread] at hstep
      cases hstep
      obtain ⟨hcust', herase⟩ := hcust.turn (c := c) (.free p (cStr (route line).2))
        (by rw [hpc]; rfl) trivial
      have hhand : s.erase.hands c = some (cStr (route line).2) := by
        rw [← text_of_read hread]
        exact congrArg (handOf s.heap) hpc
      refine ⟨hcust', congrArg some ?_⟩
      rw [herase]
      show s.erase = Handoff.mk _ _ (Function.update s.erase.hands c (some _))
      rw [← hhand, Function.update_eq_self]
  | free c =>
    simp only [Strings.step] at hstep
    split at hstep
    case h_2 => cases hstep
    case h_1 p metric hpc =>
      obtain ⟨h', hfree, hcust', herase⟩ := hcust.free hpc
      rw [hfree] at hstep
      cases hstep
      exact ⟨hcust', congrArg some herase.symm⟩
  | finish c =>
    simp only [Strings.step] at hstep
    split at hstep
    case h_2 => cases hstep
    case h_1 metric hpc =>
      cases hstep
      obtain ⟨hcust', herase⟩ := hcust.turn (c := c) .pop (by rw [hpc]; rfl) trivial
      have hhand : s.erase.hands c = some metric := congrArg (handOf s.heap) hpc
      refine ⟨hcust', ?_⟩
      simp only [events]
      rw [Transition.run_cons, Handoff.step_finish hhand]
      exact congrArg some herase.symm

theorem custody_init : Custody route queueOf ({} : Strings Q T C) where
  owned := by
    refine Heap.Owned.empty fun i => ?_
    cases i with
    | producer t => rfl
    | queue q => rfl
    | consumer c => rfl
  ready i := by
    cases i with
    | producer t => trivial
    | queue q => exact fun p hp => absurd hp List.not_mem_nil
    | consumer c => trivial
  defined := rfl

theorem erase_init : (({} : Strings Q T C).erase) = {} := by
  show Handoff.mk (∑ _t : Fin T, 0) _ _ = Handoff.mk 0 _ _
  rw [Finset.sum_const_zero]
  rfl

/-- Each block has one holder who knows what is in it, and the pointers stand for
the strings of the queues, after every run. -/
theorem custody_of_run {as : List (StringsAction T C)}
    (hrun : Transition.run (Strings.step route queueOf) {} as = some s) :
    s.Custody route queueOf ∧
      Transition.run (Handoff.step queueCapacity queueOf) {}
          (Transition.trace (Strings.step route queueOf) (events route queueOf) {} as) =
        some s.erase := by
  rw [← erase_init (Q := Q) (T := T) (C := C)]
  exact Transition.run_trace (I := Custody route queueOf) custody_init
    (fun _ _ _ hcust hstep => (hcust.step hstep).1)
    (fun _ _ _ hcust hstep => (hcust.step hstep).2) hrun

/-- The lines of the calls that were given a block. -/
def lines (as : List (StringsAction T C)) : List Bytes :=
  as.filterMap fun
    | .malloc _ line (some _) => some line
    | _ => none

/-- Each of them is a call of the queues of strings. -/
theorem called_trace {s₀ : Strings Q T C} {as : List (StringsAction T C)}
    (hrun : Transition.run (Strings.step route queueOf) s₀ as = some s) :
    Handoff.called (Transition.trace (Strings.step route queueOf) (events route queueOf) s₀ as) =
      (lines as).map fun line => ((route line).1, cStr (route line).2) := by
  induction as generalizing s₀ with
  | nil => rfl
  | cons a as ih =>
    obtain ⟨s₁, hs₁, hrest⟩ := Option.bind_eq_some_iff.mp hrun
    have hhead : Handoff.called (s₀.events route queueOf a) =
        (lines [a]).map fun line => ((route line).1, cStr (route line).2) := by
      cases a with
      | malloc t line ptr =>
        cases ptr with
        | none => rfl
        | some p => rfl
      | push t ok =>
        cases ok with
        | true =>
          simp only [events]
          cases s₀.producers t with
          | idle | copy | push | log | free => rfl
        | false => rfl
      | log t =>
        simp only [events]
        cases s₀.producers t with
        | idle | copy | push | log | free => rfl
      | pop c =>
        simp only [events]
        cases s₀.queues (queueOf c) with
        | nil => rfl
        | cons p ps => rfl
      | copy | release | read | free | finish => rfl
    have hlines : lines (a :: as) = lines [a] ++ lines as := List.filterMap_append (l := [a])
    rw [Transition.trace_cons hs₁, hlines, List.map_append, ← ih hrest, ← hhead]
    exact List.filterMap_append ..

/-- The queues pass the strings of the lines, and the heap is used as it should be. -/
structure Passed (route : Bytes → Fin Q × Bytes) (queueOf : Fin C → Fin Q)
    (as : List (StringsAction T C)) (s : Strings Q T C) : Prop where
  /-- No block is used after it was freed, freed twice, or written past its end. -/
  defined : s.fault = false
  /-- Each block has one holder, and each pointer a block. -/
  owned : s.heap.Owned s.held
  /-- Nothing leaks: when no thread and no queue has a pointer, no block is left. -/
  noLeak : (∀ i, s.held i = []) → ∀ p, s.heap.blocks p = none
  /-- The pointers and the heap behave like queues of strings. -/
  refines : Transition.run (Handoff.step queueCapacity queueOf) {}
    (Transition.trace (Strings.step route queueOf) (events route queueOf) {} as) = some s.erase
  /-- The string of each line is pushed to its queue or dropped, once. -/
  once : ((lines as).map fun line => ((route line).1, cStr (route line).2) :
      Multiset (Fin Q × Bytes)) =
    Handoff.returned (Transition.trace (Strings.step route queueOf) (events route queueOf) {} as) +
      ∑ t, callOf s.heap (s.producers t)
  /-- The strings come out as they went in, and in this order. -/
  fifo : ∀ q,
    Handoff.pushed q
        (Transition.trace (Strings.step route queueOf) (events route queueOf) {} as) =
      Handoff.popped queueOf q
          (Transition.trace (Strings.step route queueOf) (events route queueOf) {} as) ++
        (s.queues q).map (text s.heap)

theorem passed_of_run {as : List (StringsAction T C)}
    (hrun : Transition.run (Strings.step route queueOf) {} as = some s) :
    Passed route queueOf as s := by
  obtain ⟨hcust, htrace⟩ := custody_of_run hrun
  have hcalled := Handoff.called_eq htrace
  rw [called_trace hrun] at hcalled
  exact ⟨hcust.defined, hcust.owned, hcust.owned.blocks_eq_none, htrace, hcalled,
    Handoff.pushed_eq htrace⟩

variable (route queueOf)

/-- **The hand-over of strings is memory-safe and loses nothing**, whatever the
threads do in which order and whatever addresses the allocator gives out. -/
theorem passes_strings (as : List (StringsAction T C))
    (hrun : Transition.run (Strings.step route queueOf) {} as = some s) :
    Passed route queueOf as s :=
  passed_of_run hrun

end Steps

/-- In the aggregator, where each worker thread has a queue, the strings that are pushed or
dropped are those that `consume` submits. -/
theorem passed_aggregator {W : ℕ} [NeZero W] (consumer : AggregatorConsumer W)
    {s : Strings W T W} {as : List (StringsAction T W)}
    (hrun : Transition.run (Strings.step consumer.route id) {} as = some s) :
    Passed consumer.route id as s ∧
      ((lines as).map consumer.consume : Multiset (Fin W × Bytes)) =
        Handoff.returned (Transition.trace (Strings.step consumer.route id)
          (events consumer.route id) {} as) + ∑ t, callOf s.heap (s.producers t) := by
  have h := passed_of_run hrun
  rw [List.map_congr_left fun line _ => consumer.consume_eq_route line]
  exact ⟨h, h.once⟩

/-- In the proxy all worker threads share one queue, and every line goes to it. -/
theorem passed_proxy {s : Strings 1 T C} {as : List (StringsAction T C)}
    (hrun : Transition.run (Strings.step (fun line => (0, line)) fun _ => 0) {} as = some s) :
    Passed (fun line => (0, line)) (fun _ => 0) as s ∧
      Multiset.ofList ((lines as).map fun line => (0, cStr line)) =
        Multiset.ofList (Handoff.returned
          (Transition.trace (Strings.step (fun line => (0, line)) fun _ => 0)
            (events (fun line => (0, line)) fun _ => 0) {} as)) +
          ∑ t, callOf s.heap (s.producers t) :=
  have h := passed_of_run hrun
  ⟨h, h.once⟩

/-- Two server threads and two worker threads with one queue each. The second
line is copied to the address of the first, which its worker has just freed. -/
def reuseRun {T C : ℕ} [NeZero T] [NeZero C] : List (StringsAction T C) :=
  [.malloc 0 (ascii "a:1|c") (some 1), .copy 0, .push 0 true, .pop 0, .read 0, .free 0,
   .malloc 1 (ascii "a:2|c") (some 1), .finish 0, .malloc 0 (ascii "a:3|c") (some 2), .copy 1,
   .copy 0, .push 0 true, .push 1 false, .log 1, .pop 0, .release 1, .read 0,
   .malloc 1 (ascii "a:4|c") none]

theorem passes_strings_reuseRun :
    ∃ s : Strings 2 2 2,
      Transition.run (Strings.step (fun line => (0, line)) id) {} reuseRun = some s ∧
        s.consumers 0 = .free 2 (ascii "a:3|c") ∧
        Passed (fun line => (0, line)) id reuseRun s :=
  ⟨_, rfl, rfl, passes_strings (fun line => (0, line)) id reuseRun rfl⟩

end Strings

end Statsdcc
