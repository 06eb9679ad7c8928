import Mathlib
import Statsdcc.TcpServer
import Statsdcc.Lib.Segments

/-!
# The lines of the TCP connections

The strings that are completed in `metric` are compared with the segments of what
each connection sends. All connections write to the same buffer, and each read puts
the character behind its bytes there as well.

A descriptor is reused when its connection is closed, so it has a list of streams.

## Main definitions

- `TcpServer.lines` — the terminated segments of the connections of a descriptor
- `TcpServer.Valid` — the events that can happen
- `TcpServer.Assembled` — all along a run, the completed strings are the segments
- `TcpServer.Harmless` — no newline comes behind the first read

## Main results

- `TcpServer.putChars_eq` — what one read completes, and what it leaves in `metric`
- `TcpServer.assembled_iff` — the runs whose lines are assembled
- `TcpServer.strings_of_harmless` — the C strings in these runs
-/

open Bytes Segments

namespace Statsdcc

namespace TcpServer

/-- What the connections of a descriptor have sent, the latest connection first. -/
def sent (fd : ℕ) (streams : List Bytes) : TcpEvent → List Bytes
  | .accept fd' => if fd' = fd then [] :: streams else streams
  | .read fd' bytes _ => if fd' = fd then streams.modifyHead (· ++ bytes) else streams
  | .close _ => streams

def streams (fd : ℕ) (events : List TcpEvent) : List Bytes := events.foldl (sent fd) []

/-- The segments ended by a newline of what each connection has sent, in order. -/
def lines (fd : ℕ) (events : List TcpEvent) : List Bytes :=
  (streams fd events).reverse.flatMap (terminated newline)

/-- What a newline from the descriptor has completed: the characters before its NUL. -/
def completedBy (fd : ℕ) (server : TcpServer) : List Bytes :=
  (server.completed.filter fun entry => entry.1 = fd).map Prod.snd

/-- The connections behind an event, `none` when it cannot happen: `readn` returns
between one and `MAX_MSG_SIZE - 1` bytes of a connection. -/
def connectionStep (connections : List ℕ) : TcpEvent → Option (List ℕ)
  | .accept fd => if fd ∈ connections then none else some (fd :: connections)
  | .read fd bytes _ =>
    if fd ∈ connections ∧ bytes ≠ [] ∧ bytes.length ≤ maxMsgSize - 1 then some connections
    else none
  | .close fd => if fd ∈ connections then some (connections.erase fd) else none

/-- The events can happen in this order. -/
def Valid (events : List TcpEvent) : Prop :=
  ∃ connections, Transition.run connectionStep [] events = some connections

/-- No character is written outside of `metric`, and at each point of the run the
strings completed for a descriptor are the segments that its connections have sent. -/
def Assembled (events : List TcpEvent) : Prop :=
  ∀ front, front <+: events → ∃ server, Transition.run step {} front = some server ∧
    ∀ fd, completedBy fd server = lines fd front

/-- The reads, each with the character behind its bytes. -/
def readsOf (events : List TcpEvent) : List (Bytes × Byte) :=
  events.filterMap fun
    | .read _ bytes beyond => some (bytes, beyond)
    | _ => none

/-- How many characters there are behind the last newline of the first read. -/
def held : List (Bytes × Byte) → ℕ
  | [] => 0
  | (bytes, _) :: reads =>
    (pending newline bytes).length + 1 + (reads.map fun read => read.1.length + 1).sum

/-- Only the bytes of the first read have a newline, and what comes behind its last
one fits into `metric`. -/
def Harmless : List (Bytes × Byte) → Prop
  | [] => True
  | (bytes, beyond) :: reads =>
    beyond ≠ newline ∧ (∀ read ∈ reads, newline ∉ read.1 ++ [read.2]) ∧
      held ((bytes, beyond) :: reads) ≤ maxMsgSize

-- ════════════════════════════════════════════════════════════════════════
-- One read
-- ════════════════════════════════════════════════════════════════════════

/-- The characters of a read complete the segments of what is in `metric` with them. -/
theorem putChars_eq {fd : ℕ} {server server' : TcpServer} {cs : Bytes}
    (hfree : newline ∉ server.metric) (h : cs.foldlM (putChar fd) server = some server') :
    server' = { server with
      metric := pending newline (server.metric ++ cs)
      completed := server.completed ++
        (terminated newline (server.metric ++ cs)).map fun line => (fd, line) } := by
  induction cs generalizing server with
  | nil =>
    rw [List.foldlM_nil, Option.pure_def, Option.some.injEq] at h
    rw [List.append_nil, pending_of_notMem hfree, terminated_of_notMem hfree, ← h]
    simp
  | cons c cs ih =>
    rw [List.foldlM_cons, Option.bind_eq_bind, Option.bind_eq_some_iff] at h
    obtain ⟨next, hnext, hrest⟩ := h
    simp only [putChar] at hnext
    split_ifs at hnext with hroom hc
    · cases hnext
      rw [ih List.not_mem_nil hrest, hc, terminated_append_cons, pending_append_cons,
        terminated_of_notMem hfree, pending_of_notMem hfree]
      simp
    · cases hnext
      have hnot : newline ∉ server.metric ++ [c] := by
        rw [List.mem_append, not_or, List.mem_singleton]
        exact ⟨hfree, Ne.symm hc⟩
      rw [ih hnot hrest]
      simp

/-- Characters without a newline are all in `metric` at once. -/
theorem length_le_of_putChars {fd : ℕ} {server server' : TcpServer} {cs : Bytes}
    (hcs : newline ∉ cs) (hne : cs ≠ []) (h : cs.foldlM (putChar fd) server = some server') :
    server.metric.length + cs.length ≤ maxMsgSize := by
  induction cs generalizing server with
  | nil => exact absurd rfl hne
  | cons c cs ih =>
    rw [List.foldlM_cons, Option.bind_eq_bind, Option.bind_eq_some_iff] at h
    obtain ⟨next, hnext, hrest⟩ := h
    rw [List.mem_cons, not_or] at hcs
    simp only [putChar, if_neg (Ne.symm hcs.1)] at hnext
    split_ifs at hnext with hroom
    cases hnext
    rw [List.length_cons]
    by_cases hnil : cs = []
    · rw [hnil, List.length_nil]
      omega
    · have hle := ih hcs.2 hnil hrest
      simp only [List.length_append, List.length_singleton] at hle
      omega

theorem completedBy_append (fd fd' : ℕ) (server : TcpServer) (metric : Bytes)
    (found : List Bytes) :
    completedBy fd' { server with
      metric := metric
      completed := server.completed ++ found.map fun line => (fd, line) } =
      completedBy fd' server ++ if fd = fd' then found else [] := by
  rw [completedBy, completedBy, List.filter_append, List.map_append]
  congr 1
  by_cases h : fd = fd'
  · simp [h, List.filter_map, Function.comp_def]
  · simp [h, List.filter_map, Function.comp_def]

-- ════════════════════════════════════════════════════════════════════════
-- The streams
-- ════════════════════════════════════════════════════════════════════════

theorem streams_append (fd : ℕ) (events : List TcpEvent) (event : TcpEvent) :
    streams fd (events ++ [event]) = sent fd (streams fd events) event := by
  rw [streams, List.foldl_append]
  rfl

theorem lines_accept (fd fd' : ℕ) (events : List TcpEvent) :
    lines fd (events ++ [.accept fd']) = lines fd events := by
  rw [lines, streams_append, sent]
  split_ifs
  · simp [lines, terminated]
  · rfl

theorem lines_close (fd fd' : ℕ) (events : List TcpEvent) :
    lines fd (events ++ [.close fd']) = lines fd events := by
  rw [lines, streams_append, sent, lines]

theorem lines_read_of_ne {fd fd' : ℕ} (h : fd' ≠ fd) (events : List TcpEvent) (bytes : Bytes)
    (beyond : Byte) : lines fd (events ++ [.read fd' bytes beyond]) = lines fd events := by
  rw [lines, streams_append, sent, if_neg h, lines]

/-- A read starts no stream and ends none. -/
theorem streams_read_ne_nil {fd : ℕ} {events : List TcpEvent} (h : streams fd events ≠ [])
    (fd' : ℕ) (bytes : Bytes) (beyond : Byte) :
    streams fd (events ++ [.read fd' bytes beyond]) ≠ [] := by
  rw [streams_append, sent]
  split_ifs
  · simpa using h
  · exact h

/-- A read ends the segments of what was pending with its bytes. -/
theorem lines_read {fd : ℕ} {events : List TcpEvent} {stream : Bytes} {earlier : List Bytes}
    (h : streams fd events = stream :: earlier) (bytes : Bytes) (beyond : Byte) :
    lines fd (events ++ [.read fd bytes beyond]) =
      lines fd events ++ terminated newline (pending newline stream ++ bytes) := by
  rw [lines, streams_append, sent, if_pos rfl, lines, h, List.modifyHead_cons, List.reverse_cons,
    List.reverse_cons, List.flatMap_append, List.flatMap_append, List.flatMap_singleton,
    List.flatMap_singleton, terminated_append, List.append_assoc]

theorem readsOf_append (events : List TcpEvent) (event : TcpEvent) :
    readsOf (events ++ [event]) = readsOf events ++ readsOf [event] := List.filterMap_append

@[simp] theorem readsOf_accept (events : List TcpEvent) (fd : ℕ) :
    readsOf (events ++ [.accept fd]) = readsOf events :=
  (readsOf_append events _).trans (List.append_nil _)

@[simp] theorem readsOf_close (events : List TcpEvent) (fd : ℕ) :
    readsOf (events ++ [.close fd]) = readsOf events :=
  (readsOf_append events _).trans (List.append_nil _)

@[simp] theorem readsOf_read (events : List TcpEvent) (fd : ℕ) (bytes : Bytes) (beyond : Byte) :
    readsOf (events ++ [.read fd bytes beyond]) = readsOf events ++ [(bytes, beyond)] :=
  readsOf_append events _

/-- A stream has only characters that were read. -/
theorem notMem_streams {c : Byte} {events : List TcpEvent}
    (h : ∀ read ∈ readsOf events, c ∉ read.1) (fd : ℕ) :
    ∀ stream ∈ streams fd events, c ∉ stream := by
  induction events using List.reverseRecOn with
  | nil => exact fun stream hstream => absurd hstream List.not_mem_nil
  | append_singleton events event ih =>
    rw [readsOf_append] at h
    have hfront := ih fun read hread => h read (List.mem_append_left _ hread)
    rw [streams_append]
    cases event with
    | accept fd' =>
      rw [sent]
      split_ifs
      · exact List.forall_mem_cons.mpr ⟨List.not_mem_nil, hfront⟩
      · exact hfront
    | close fd' => exact hfront
    | read fd' bytes beyond =>
      have hbytes : c ∉ bytes := h (bytes, beyond) (List.mem_append_right _ List.mem_cons_self)
      rw [sent]
      split_ifs
      · cases hstreams : streams fd events with
        | nil => exact fun stream hstream => absurd hstream List.not_mem_nil
        | cons stream streams =>
          rw [hstreams, List.forall_mem_cons] at hfront
          rw [List.modifyHead_cons, List.forall_mem_cons, List.mem_append, not_or]
          exact ⟨⟨hfront.1, hbytes⟩, hfront.2⟩
      · exact hfront

/-- A segment that a connection has sent has only characters that were read. -/
theorem notMem_lines {c : Byte} {events : List TcpEvent}
    (h : ∀ read ∈ readsOf events, c ∉ read.1) (fd : ℕ) : ∀ seg ∈ lines fd events, c ∉ seg := by
  intro seg hseg hc
  obtain ⟨stream, hstream, hterminated⟩ := List.mem_flatMap.mp hseg
  exact notMem_streams h fd stream (List.mem_reverse.mp hstream)
    (mem_of_mem_terminated hterminated hc)

-- ════════════════════════════════════════════════════════════════════════
-- Harmless runs
-- ════════════════════════════════════════════════════════════════════════

theorem held_append {reads : List (Bytes × Byte)} (h : reads ≠ []) (read : Bytes × Byte) :
    held (reads ++ [read]) = held reads + (read.1.length + 1) := by
  cases reads with
  | nil => exact absurd rfl h
  | cons first reads =>
    simp only [held, List.cons_append, List.map_append, List.sum_append, List.map_singleton,
      List.sum_singleton]
    omega

theorem held_pos {reads : List (Bytes × Byte)} (h : reads ≠ []) : 0 < held reads := by
  cases reads with
  | nil => exact absurd rfl h
  | cons first reads =>
    rw [held]
    omega

theorem harmless_append {reads : List (Bytes × Byte)} (h : reads ≠ []) (read : Bytes × Byte) :
    Harmless (reads ++ [read]) ↔ Harmless reads ∧ newline ∉ read.1 ++ [read.2] ∧
      held reads + (read.1.length + 1) ≤ maxMsgSize := by
  have hheld := held_append h read
  cases reads with
  | nil => exact absurd rfl h
  | cons first reads =>
    obtain ⟨bytes, beyond⟩ := first
    rw [List.cons_append] at hheld ⊢
    rw [Harmless, Harmless, hheld]
    simp only [List.mem_append, List.mem_singleton, or_imp, forall_and, forall_eq]
    constructor
    · rintro ⟨hbeyond, ⟨hreads, hread⟩, hle⟩
      exact ⟨⟨hbeyond, hreads, by omega⟩, hread, hle⟩
    · rintro ⟨⟨hbeyond, hreads, -⟩, hread, hle⟩
      exact ⟨hbeyond, ⟨hreads, hread⟩, hle⟩

theorem Harmless.front {reads more : List (Bytes × Byte)} (h : Harmless (reads ++ more)) :
    Harmless reads := by
  induction more using List.reverseRecOn with
  | nil => rwa [List.append_nil] at h
  | append_singleton more read ih =>
    rw [← List.append_assoc] at h
    by_cases hnil : reads ++ more = []
    · rw [(List.append_eq_nil_iff.mp hnil).1]
      trivial
    · exact ih ((harmless_append hnil read).mp h).1

/-- What a harmless run keeps: behind its first read there are more characters in
`metric` than are pending on any connection. -/
structure Invariant (events : List TcpEvent) (server : TcpServer) : Prop where
  accepted : ∀ fd ∈ server.connections, streams fd events ≠ []
  held : server.metric.length = held (readsOf events)
  free : newline ∉ server.metric
  pending_lt : ∀ fd stream, (streams fd events).head? = some stream →
    (pending newline stream).length + min 1 (readsOf events).length ≤ server.metric.length
  assembled : ∀ fd, completedBy fd server = lines fd events

theorem invariant_init : Invariant [] {} :=
  ⟨fun _ h => absurd h List.not_mem_nil, rfl, List.not_mem_nil, nofun, fun _ => rfl⟩

variable {events : List TcpEvent} {server server' : TcpServer} {fd : ℕ}

theorem Invariant.accept (h : Invariant events server) (fd : ℕ) :
    Invariant (events ++ [.accept fd]) { server with connections := fd :: server.connections } := by
  refine ⟨fun fd' hfd' => ?_, by rw [readsOf_accept]; exact h.held, h.free,
    fun fd' stream hstream => ?_,
    fun fd' => (h.assembled fd').trans (lines_accept fd' fd events).symm⟩
  · rw [streams_append, sent]
    by_cases heq : fd = fd'
    · rw [if_pos heq]
      exact List.cons_ne_nil _ _
    · rw [if_neg heq]
      exact h.accepted fd' ((List.mem_cons.mp hfd').resolve_left (Ne.symm heq))
  · rw [streams_append, sent] at hstream
    rw [readsOf_accept]
    by_cases heq : fd = fd'
    · rw [if_pos heq, List.head?_cons, Option.some.injEq] at hstream
      subst hstream
      rw [pending_of_notMem List.not_mem_nil, h.held]
      by_cases hnil : readsOf events = []
      · simp [hnil]
      · have hpos := held_pos hnil
        rw [List.length_nil]
        omega
    · rw [if_neg heq] at hstream
      exact h.pending_lt fd' stream hstream

theorem Invariant.close (h : Invariant events server) (fd : ℕ) :
    Invariant (events ++ [.close fd])
      { server with connections := server.connections.erase fd } := by
  have hstreams : ∀ fd', streams fd' (events ++ [.close fd]) = streams fd' events := fun fd' =>
    streams_append fd' events _
  refine ⟨fun fd' hfd' => ?_, by rw [readsOf_close]; exact h.held, h.free,
    fun fd' stream hstream => ?_,
    fun fd' => (h.assembled fd').trans (lines_close fd' fd events).symm⟩
  · rw [hstreams]
    exact h.accepted fd' (List.mem_of_mem_erase hfd')
  · rw [hstreams] at hstream
    rw [readsOf_close]
    exact h.pending_lt fd' stream hstream

/-- What is completed by a read, and what it should complete. -/
theorem Invariant.completed_read (h : Invariant events server) (hfd : fd ∈ server.connections)
    {bytes : Bytes} {beyond : Byte}
    (hread : (bytes ++ [beyond]).foldlM (putChar fd) server = some server') :
    ∃ stream, (streams fd events).head? = some stream ∧
      completedBy fd server' =
        lines fd events ++ terminated newline (server.metric ++ (bytes ++ [beyond])) ∧
      lines fd (events ++ [.read fd bytes beyond]) =
        lines fd events ++ terminated newline (pending newline stream ++ bytes) := by
  obtain ⟨stream, earlier, hstreams⟩ := List.exists_cons_of_ne_nil (h.accepted fd hfd)
  refine ⟨stream, by rw [hstreams, List.head?_cons], ?_, lines_read hstreams bytes beyond⟩
  rw [putChars_eq h.free hread, completedBy_append, if_pos rfl, h.assembled]

/-- The streams behind a read, by what was pending. -/
theorem head?_streams_read {stream : Bytes} {bytes : Bytes} {beyond : Byte} {fd' : ℕ}
    (h : (streams fd' (events ++ [.read fd bytes beyond])).head? = some stream) :
    ∃ before, (streams fd' events).head? = some before ∧
      (stream = before ∨ stream = before ++ bytes) := by
  rw [streams_append, sent] at h
  by_cases heq : fd = fd'
  · rw [if_pos heq, List.head?_modifyHead, Option.map_eq_some_iff] at h
    obtain ⟨before, hbefore, rfl⟩ := h
    exact ⟨before, hbefore, .inr rfl⟩
  · rw [if_neg heq] at h
    exact ⟨stream, h, .inl rfl⟩

/-- The first read may have newlines, but not behind its bytes. -/
theorem Invariant.first_read (h : Invariant events server) (hfd : fd ∈ server.connections)
    {bytes : Bytes} {beyond : Byte} (hreads : readsOf events = []) (hbeyond : beyond ≠ newline)
    (hread : (bytes ++ [beyond]).foldlM (putChar fd) server = some server') :
    Invariant (events ++ [.read fd bytes beyond]) server' := by
  have hmetric : server.metric = [] := by
    have hheld := h.held
    rw [hreads, TcpServer.held, List.length_eq_zero_iff] at hheld
    exact hheld
  have hpending : ∀ fd' stream, (streams fd' events).head? = some stream →
      pending newline stream = [] := by
    intro fd' stream hstream
    have hle := h.pending_lt fd' stream hstream
    rw [hmetric, List.length_nil, Nat.le_zero, Nat.add_eq_zero_iff] at hle
    exact List.length_eq_zero_iff.mp hle.1
  have hnot : newline ∉ [beyond] := by
    rw [List.mem_singleton]
    exact Ne.symm hbeyond
  have hafter := putChars_eq h.free hread
  rw [hmetric, List.nil_append, pending_append_of_notMem _ hnot,
    terminated_append_of_notMem _ hnot] at hafter
  have hreads' : readsOf (events ++ [.read fd bytes beyond]) = [(bytes, beyond)] := by
    rw [readsOf_read, hreads, List.nil_append]
  subst hafter
  constructor
  case accepted => exact fun fd' hfd' => streams_read_ne_nil (h.accepted fd' hfd') _ _ _
  case held =>
    rw [hreads']
    simp [TcpServer.held]
  case free =>
    rw [List.mem_append, not_or]
    exact ⟨notMem_pending bytes, hnot⟩
  case pending_lt =>
    intro fd' stream hstream
    obtain ⟨before, hbefore, rfl | rfl⟩ := head?_streams_read hstream
    · rw [hpending fd' _ hbefore, hreads']
      simp
    · rw [pending_append, hpending fd' _ hbefore, hreads']
      simp
  case assembled =>
    intro fd'
    rw [completedBy_append, h.assembled]
    by_cases heq : fd = fd'
    · subst heq
      obtain ⟨stream, earlier, hstreams⟩ := List.exists_cons_of_ne_nil (h.accepted fd hfd)
      rw [if_pos rfl, lines_read hstreams, hpending fd stream (by rw [hstreams, List.head?_cons]),
        List.nil_append]
    · rw [if_neg heq, List.append_nil, lines_read_of_ne heq]

/-- A later read without a newline completes nothing. -/
theorem Invariant.later_read (h : Invariant events server) (hfd : fd ∈ server.connections)
    {bytes : Bytes} {beyond : Byte} (hreads : readsOf events ≠ [])
    (hcs : newline ∉ bytes ++ [beyond])
    (hread : (bytes ++ [beyond]).foldlM (putChar fd) server = some server') :
    Invariant (events ++ [.read fd bytes beyond]) server' := by
  have hbytes : newline ∉ bytes := fun hmem => hcs (List.mem_append_left _ hmem)
  have hall : newline ∉ server.metric ++ (bytes ++ [beyond]) := by
    rw [List.mem_append, not_or]
    exact ⟨h.free, hcs⟩
  have hafter := putChars_eq h.free hread
  rw [pending_of_notMem hall, terminated_of_notMem hall, List.map_nil, List.append_nil] at hafter
  have hheld : (server.metric ++ (bytes ++ [beyond])).length =
      server.metric.length + (bytes.length + 1) := by
    rw [List.length_append, List.length_append, List.length_singleton]
  have hone : min 1 (readsOf events).length = 1 :=
    min_eq_left (List.length_pos_iff.mpr hreads)
  have hone' : min 1 (readsOf events ++ [(bytes, beyond)]).length = 1 :=
    min_eq_left (List.length_pos_iff.mpr (by simp))
  subst hafter
  constructor
  case accepted => exact fun fd' hfd' => streams_read_ne_nil (h.accepted fd' hfd') _ _ _
  case held =>
    rw [hheld, readsOf_read, held_append hreads, h.held]
  case free => exact hall
  case pending_lt =>
    intro fd' stream hstream
    obtain ⟨before, hbefore, hstream⟩ := head?_streams_read hstream
    have hle := h.pending_lt fd' before hbefore
    rw [hone] at hle
    rw [hheld, readsOf_read, hone']
    obtain rfl | rfl := hstream
    · omega
    · rw [pending_append_of_notMem _ hbytes, List.length_append]
      omega
  case assembled =>
    intro fd'
    refine (h.assembled fd').trans ?_
    by_cases heq : fd = fd'
    · subst heq
      obtain ⟨stream, earlier, hstreams⟩ := List.exists_cons_of_ne_nil (h.accepted fd hfd)
      have hnot : newline ∉ pending newline stream ++ bytes := by
        rw [List.mem_append, not_or]
        exact ⟨notMem_pending stream, hbytes⟩
      rw [lines_read hstreams, terminated_of_notMem hnot, List.append_nil]
    · rw [lines_read_of_ne heq]

/-- The run lemma: a valid harmless run writes inside of `metric`. -/
theorem exists_run {connections : List ℕ}
    (hvalid : Transition.run connectionStep [] events = some connections)
    (hharmless : Harmless (readsOf events)) :
    ∃ server, Transition.run step {} events = some server ∧ server.connections = connections ∧
      Invariant events server := by
  induction events using List.reverseRecOn generalizing connections with
  | nil =>
    cases hvalid
    exact ⟨{}, rfl, rfl, invariant_init⟩
  | append_singleton events event ih =>
    obtain ⟨before, hbefore, hevent⟩ := Transition.run_concat.mp hvalid
    cases event with
    | accept fd =>
      obtain ⟨server, hrun, rfl, h⟩ := ih hbefore (readsOf_accept events fd ▸ hharmless)
      simp only [connectionStep] at hevent
      split_ifs at hevent with hopen
      cases hevent
      exact ⟨_, Transition.run_concat.mpr ⟨server, hrun, if_neg hopen⟩, rfl, h.accept fd⟩
    | close fd =>
      obtain ⟨server, hrun, rfl, h⟩ := ih hbefore (readsOf_close events fd ▸ hharmless)
      simp only [connectionStep] at hevent
      split_ifs at hevent with hopen
      cases hevent
      exact ⟨_, Transition.run_concat.mpr ⟨server, hrun, if_pos hopen⟩, rfl, h.close fd⟩
    | read fd bytes beyond =>
      rw [readsOf_read] at hharmless
      simp only [connectionStep] at hevent
      split_ifs at hevent with hopen
      cases hevent
      have hstep : ∀ server, server.connections = connections →
          ∀ server', (bytes ++ [beyond]).foldlM (putChar fd) server = some server' →
            step server (.read fd bytes beyond) = some server' := by
        rintro server rfl server' hread
        rw [step, if_pos hopen, hread]
      have hmax : maxMsgSize = 65536 := rfl
      by_cases hnil : readsOf events = []
      · obtain ⟨server, hrun, hconnections, h⟩ := ih hbefore (by rw [hnil]; trivial)
        rw [hnil, List.nil_append, Harmless] at hharmless
        have hmetric : server.metric.length = 0 := by
          rw [h.held, hnil]
          rfl
        obtain ⟨server', hread, hsame⟩ := exists_putChars fd server (bytes ++ [beyond])
          (by rw [List.length_append, List.length_singleton]; omega)
        exact ⟨server', Transition.run_concat.mpr ⟨server, hrun, hstep server hconnections _ hread⟩,
          hsame.trans hconnections,
          h.first_read (hconnections ▸ hopen.1) hnil hharmless.1 hread⟩
      · obtain ⟨hbefore', hcs, hle⟩ := (harmless_append hnil _).mp hharmless
        obtain ⟨server, hrun, hconnections, h⟩ := ih hbefore hbefore'
        obtain ⟨server', hread, hsame⟩ := exists_putChars fd server (bytes ++ [beyond])
          (by rw [h.held, List.length_append, List.length_singleton]; exact hle)
        exact ⟨server', Transition.run_concat.mpr ⟨server, hrun, hstep server hconnections _ hread⟩,
          hsame.trans hconnections,
          h.later_read (hconnections ▸ hopen.1) hnil hcs hread⟩

-- ════════════════════════════════════════════════════════════════════════
-- The other runs
-- ════════════════════════════════════════════════════════════════════════

/-- A newline behind the first read ends a string that is too long, or one that
should not end. -/
theorem Invariant.notMem_later_read (h : Invariant events server) {stream bytes : Bytes}
    {beyond : Byte} (hstream : (streams fd events).head? = some stream)
    (hreads : readsOf events ≠ [])
    (heq : terminated newline (server.metric ++ (bytes ++ [beyond])) =
      terminated newline (pending newline stream ++ bytes)) : newline ∉ bytes ++ [beyond] := by
  have hlt := h.pending_lt fd stream hstream
  rw [min_eq_left (List.length_pos_iff.mpr hreads)] at hlt
  have hseg : ∀ {front seg rest : Bytes}, newline ∉ front → newline ∉ seg →
      terminated newline (front ++ (seg ++ newline :: rest)) =
        (front ++ seg) :: terminated newline rest := by
    intro front seg rest hfront hseg
    have hnot : newline ∉ front ++ seg := by
      rw [List.mem_append, not_or]
      exact ⟨hfront, hseg⟩
    rw [← List.append_assoc, terminated_append_cons, terminated_of_notMem hnot,
      pending_of_notMem hnot, List.nil_append]
  by_cases hbytes : newline ∈ bytes
  · obtain ⟨seg, rest, rfl, hnot⟩ := List.eq_append_cons_of_mem hbytes
    rw [List.append_assoc, List.cons_append, hseg h.free hnot, hseg (notMem_pending stream) hnot,
      List.cons.injEq] at heq
    have hlength := congrArg List.length heq.1
    rw [List.length_append, List.length_append] at hlength
    omega
  · rw [List.mem_append, not_or, List.mem_singleton]
    refine ⟨hbytes, fun hbeyond => ?_⟩
    have hnot : newline ∉ pending newline stream ++ bytes := by
      rw [List.mem_append, not_or]
      exact ⟨notMem_pending stream, hbytes⟩
    rw [← hbeyond, hseg h.free hbytes, terminated_of_notMem hnot] at heq
    cases heq

/-- The character behind the first read ends no string. -/
theorem Invariant.ne_first_read (h : Invariant events server) {stream bytes : Bytes}
    {beyond : Byte} (hstream : (streams fd events).head? = some stream)
    (hreads : readsOf events = [])
    (heq : terminated newline (server.metric ++ (bytes ++ [beyond])) =
      terminated newline (pending newline stream ++ bytes)) : beyond ≠ newline := by
  intro hbeyond
  have hheld := h.held
  have hle := h.pending_lt fd stream hstream
  rw [hreads, TcpServer.held] at hheld
  rw [hheld] at hle
  have hmetric : server.metric = [] := List.length_eq_zero_iff.mp hheld
  have hpending : pending newline stream = [] := List.length_eq_zero_iff.mp (by omega)
  rw [hmetric, hpending, List.nil_append, List.nil_append, hbeyond, terminated_append_cons] at heq
  have hlength := congrArg List.length heq
  rw [List.length_append, List.length_cons] at hlength
  omega

/-- Only harmless runs are assembled. -/
theorem harmless_of_assembled (hvalid : Valid events) (h : Assembled events) :
    Harmless (readsOf events) := by
  induction events using List.reverseRecOn with
  | nil => trivial
  | append_singleton events event ih =>
    obtain ⟨connections, hvalid⟩ := hvalid
    obtain ⟨before, hbefore, hevent⟩ := Transition.run_concat.mp hvalid
    have hharmless := ih ⟨before, hbefore⟩ fun front hfront =>
      h front (hfront.trans (List.prefix_append _ _))
    cases event with
    | accept fd => exact (readsOf_accept events fd).symm ▸ hharmless
    | close fd => exact (readsOf_close events fd).symm ▸ hharmless
    | read fd bytes beyond =>
      simp only [connectionStep] at hevent
      split_ifs at hevent with hopen
      cases hevent
      obtain ⟨server, hrun, hconnections, hinvariant⟩ := exists_run hbefore hharmless
      obtain ⟨server', hrun', hassembled⟩ := h _ (List.prefix_refl _)
      obtain ⟨server₀, hrun₀, hstep⟩ := Transition.run_concat.mp hrun'
      obtain rfl : server₀ = server := by
        rw [hrun] at hrun₀
        exact (Option.some.inj hrun₀).symm
      have hfd : fd ∈ server₀.connections := hconnections ▸ hopen.1
      rw [step, if_pos ⟨hfd, hopen.2⟩] at hstep
      obtain ⟨stream, hstream, hcompleted, hlines⟩ := hinvariant.completed_read hfd hstep
      have heq := hassembled fd
      rw [hcompleted, hlines] at heq
      have hsame := List.append_cancel_left heq
      rw [readsOf_read]
      by_cases hnil : readsOf events = []
      · have hmax : maxMsgSize = 65536 := rfl
        have hpending : (pending newline bytes).length ≤ bytes.length := length_pending_le bytes
        rw [hnil, List.nil_append]
        refine ⟨hinvariant.ne_first_read hstream hnil hsame,
          fun _ hread => absurd hread List.not_mem_nil, ?_⟩
        simp only [held, List.map_nil, List.sum_nil]
        omega
      · have hcs := hinvariant.notMem_later_read hstream hnil hsame
        refine (harmless_append hnil _).mpr ⟨hharmless, hcs, ?_⟩
        have hle := length_le_of_putChars hcs (by simp) hstep
        rw [hinvariant.held, List.length_append, List.length_singleton] at hle
        exact hle

/-- All harmless runs are assembled. -/
theorem assembled_of_harmless (hvalid : Valid events) (h : Harmless (readsOf events)) :
    Assembled events := by
  induction events using List.reverseRecOn with
  | nil =>
    rintro front hfront
    rw [List.prefix_nil.mp hfront]
    exact ⟨{}, rfl, fun _ => rfl⟩
  | append_singleton events event ih =>
    obtain ⟨connections, hvalid⟩ := hvalid
    obtain ⟨before, hbefore, -⟩ := Transition.run_concat.mp hvalid
    rw [readsOf_append] at h
    intro front hfront
    rcases List.prefix_concat_iff.mp hfront with rfl | hfront
    · obtain ⟨server, hrun, -, hinvariant⟩ := exists_run hvalid (readsOf_append events event ▸ h)
      exact ⟨server, hrun, hinvariant.assembled⟩
    · exact ih ⟨before, hbefore⟩ h.front front hfront

/-- Then the C strings that a consumer finds in `metric` are the segments, too, if no NUL is
sent. -/
theorem strings_of_harmless (hvalid : Valid events) (h : Harmless (readsOf events))
    (hnul : ∀ read ∈ readsOf events, nul ∉ read.1) :
    ∃ server, Transition.run step {} events = some server ∧
      ∀ fd, (completedBy fd server).map cStr = lines fd events := by
  obtain ⟨server, hrun, hassembled⟩ := assembled_of_harmless hvalid h _ (List.prefix_refl _)
  refine ⟨server, hrun, fun fd => ?_⟩
  rw [hassembled fd, List.map_congr_left fun seg hseg =>
    cStr_eq_self (notMem_lines hnul fd seg hseg), List.map_id']

/-- **When lines are assembled**: only the bytes of the first read of all connections
have newlines, no character behind a read is one, and all that comes behind the last
newline fits into `metric`. -/
theorem assembled_iff (hvalid : Valid events) :
    Assembled events ↔ Harmless (readsOf events) :=
  ⟨harmless_of_assembled hvalid, assembled_of_harmless hvalid⟩

theorem assembled_iff_one_line :
    Assembled [.accept 4, .read 4 (ascii "a:1|c\n") nul, .close 4] ↔
      Harmless (readsOf [.accept 4, .read 4 (ascii "a:1|c\n") nul, .close 4]) :=
  assembled_iff ⟨_, rfl⟩

/-- One connection ends without a newline, and the line of the next one is completed
behind its bytes and the character after them. -/
theorem not_assembled_two_connections :
    Valid [.accept 4, .accept 5, .read 4 (ascii "a:1|c") nul, .close 4,
      .read 5 (ascii "b:1|c\n") nul, .close 5] ∧
    lines 5 [.accept 4, .accept 5, .read 4 (ascii "a:1|c") nul, .close 4,
      .read 5 (ascii "b:1|c\n") nul, .close 5] = [ascii "b:1|c"] ∧
    ¬Assembled [.accept 4, .accept 5, .read 4 (ascii "a:1|c") nul, .close 4,
      .read 5 (ascii "b:1|c\n") nul, .close 5] := by
  refine ⟨⟨_, rfl⟩, by decide, fun h => ?_⟩
  obtain ⟨server, hrun, hall⟩ := h _ (List.prefix_refl _)
  cases hrun
  exact absurd (hall 5) (by decide)

end TcpServer

end Statsdcc
