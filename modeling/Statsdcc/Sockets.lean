import Mathlib
import Statsdcc.Connection
import Statsdcc.Hashring
import Statsdcc.Lib.Custody

/-!
# The sockets of the carbon backend

`Carbon` keeps one `Connection` for each destination. It makes it the first time
it has a string for the destination and makes a new socket for it when the peer
has hung up. Between two of its system calls other threads open and close
descriptors of their own, so that the kernel may give the number of a socket that
was closed to one of them.

`uses` is a history variable: for each system call on a descriptor of the backend,
what the descriptor was at that time.

## Main definitions

- `Sockets.step` — one system call of the backend, or of another thread
- `SocketUse.Proper` — the descriptor is what the backend takes it for

## Main results

- `Sockets.sound_of_run` — every call is proper and no descriptor is lost, after
  every run
-/

namespace Statsdcc

open StreamIo

/-- What a descriptor is open for: something of another thread, or a stream socket
of the backend with its peer, if it has been connected. -/
inductive Descriptor
  | foreign
  | stream (peer : Option Hostport)
  deriving DecidableEq

/-- The data members of `net::Connection`. -/
structure CarbonConnection where
  hostport : Hostport
  /-- `none` is `-1`. -/
  sockfd : Option ℕ
  deriving DecidableEq

/-- The string for a destination, and those that `flush_stats` sends behind it. -/
structure CarbonJob where
  dest : Hostport
  str : Buffer
  rest : List (Hostport × Buffer)

/-- The next step of `net::connect`, or the `close` before it. -/
inductive Dial
  | hangup
  | resolve
  | socket
  | setsockopt (fd : ℕ)
  | connect (fd : ℕ)
  | abandon (fd : ℕ)

/-- Where `flush_stats` stands. -/
inductive CarbonPc
  | idle
  /-- The loop over `stat_strings`. -/
  | next (rest : List (Hostport × Buffer))
  /-- In `net::connect`: for the constructor, or for `refresh` in a call of `write`. -/
  | dial (job : CarbonJob) (write : Option Connection) (stage : Dial)
  | write (job : CarbonJob) (c : Connection)
  /-- The connections are destroyed with the backend. -/
  | destroying

/-- A system call on a descriptor of the backend, with what the descriptor is: in
`net::connect`, or on the socket of the connection to `dest`. -/
inductive SocketUse
  | dialling (found : Option Descriptor)
  | established (dest : Hostport) (found : Option Descriptor)

/-- The call meets the socket that it is meant for. -/
def SocketUse.Proper : SocketUse → Prop
  | dialling found => found = some (.stream none)
  | established dest found => found = some (.stream (some dest))

/-- The open descriptors of the process, and the backend. -/
structure Sockets where
  table : ℕ → Option Descriptor
  connections : UnorderedMap Hostport CarbonConnection := ∅
  pc : CarbonPc := .idle
  uses : List SocketUse := []

/-- A system call with its result, or a step between two of them. -/
inductive SocketAction
  | flush (payload : List (Hostport × Buffer))
  | find
  /-- `close` in `refresh`. -/
  | close
  /-- `inet_pton`, with `resolve_ip` behind it. -/
  | resolve (pton : ℤ) (resolved : Bool)
  | socket (fd : Option ℕ)
  /-- `SO_KEEPALIVE`, whose result nothing reads. -/
  | setsockopt
  | connect (ok : Bool)
  /-- `close` in `net::connect`. -/
  | abandon
  | write (result : SysResult)
  | poll (revents : ℕ)
  | destroy
  | destruct (dest : Hostport)
  | foreignOpen (fd : ℕ)
  | foreignClose (fd : ℕ)

namespace Sockets

/-- The descriptor of the connection to a destination. -/
def sockfd (s : Sockets) (dest : Hostport) : Option ℕ :=
  (s.connections.lookup dest).bind CarbonConnection.sockfd

/-- What the descriptor of the connection to a destination is. -/
def found (s : Sockets) (dest : Hostport) : Option Descriptor := (s.sockfd dest).bind s.table

/-- Close a descriptor. There is nothing to close at `-1`. -/
def closeFd (s : Sockets) (fd : Option ℕ) : Sockets :=
  match fd with
  | some fd => { s with table := Function.update s.table fd none }
  | none => s

def use (s : Sockets) (u : SocketUse) : Sockets := { s with uses := s.uses ++ [u] }

/-- What is next in a call of `write`. -/
def nextPc (job : CarbonJob) (c : Connection) : CarbonPc :=
  match c.phase with
  | .writing _ | .polling => .write job c
  | .connecting => .dial job (some c) .resolve
  | .returned _ => .next job.rest

def proceed (s : Sockets) (job : CarbonJob) (c : Connection) : Sockets :=
  { s with pc := nextPc job c }

/-- The host and port that `net::connect` is called with. -/
def target (s : Sockets) (job : CarbonJob) : Option Connection → Hostport
  | none => job.dest
  | some _ => ((s.connections.lookup job.dest).map CarbonConnection.hostport).getD job.dest

/-- `net::connect` returns: the connection is put into the map, or has a new socket. -/
def dialled (s : Sockets) (job : CarbonJob) (write : Option Connection) (fd : Option ℕ) :
    Option Sockets :=
  let s' := { s with connections := s.connections.insert job.dest ⟨s.target job write, fd⟩ }
  match write with
  | none => some (s'.proceed job (Connection.start job.str fd.isNone))
  | some c => (Connection.step job.str c (.connect fd.isSome)).map (s'.proceed job)

/-- One step of the backend or of another thread, `none` when it is not enabled. -/
def step (s : Sockets) : SocketAction → Option Sockets
  | .flush payload =>
    match s.pc with
    | .idle => some { s with pc := .next payload }
    | _ => none
  | .find =>
    match s.pc with
    | .next [] => some { s with pc := .idle }
    | .next ((dest, str) :: rest) =>
      match s.connections.lookup dest with
      | none => some { s with pc := .dial ⟨dest, str, rest⟩ none .resolve }
      | some connection =>
        some (s.proceed ⟨dest, str, rest⟩ (Connection.start str connection.sockfd.isNone))
    | _ => none
  | .close =>
    match s.pc with
    | .dial job write .hangup =>
      some { (s.use (.established job.dest (s.found job.dest))).closeFd (s.sockfd job.dest) with
        pc := .dial job write .resolve }
    | _ => none
  | .resolve pton resolved =>
    match s.pc with
    | .dial job write .resolve =>
      if pton = 0 ∧ resolved = false ∨ pton = -1 then s.dialled job write none
      else some { s with pc := .dial job write .socket }
    | _ => none
  | .socket fd =>
    match s.pc, fd with
    | .dial job write .socket, none => s.dialled job write none
    | .dial job write .socket, some fd =>
      match s.table fd with
      | none =>
        some { s with
          table := Function.update s.table fd (some (.stream none))
          pc := .dial job write (.setsockopt fd) }
      | some _ => none
    | _, _ => none
  | .setsockopt =>
    match s.pc with
    | .dial job write (.setsockopt fd) =>
      some { s.use (.dialling (s.table fd)) with pc := .dial job write (.connect fd) }
    | _ => none
  | .connect ok =>
    match s.pc with
    | .dial job write (.connect fd) =>
      let s' := s.use (.dialling (s.table fd))
      if ok then
        let peer := s.target job write
        { s' with table := Function.update s.table fd (some (.stream peer)) }.dialled job write
          (some fd)
      else some { s' with pc := .dial job write (.abandon fd) }
    | _ => none
  | .abandon =>
    match s.pc with
    | .dial job write (.abandon fd) =>
      ((s.use (.dialling (s.table fd))).closeFd (some fd)).dialled job write none
    | _ => none
  | .write result =>
    match s.pc with
    | .write job c =>
      (Connection.step job.str c (.write result)).map
        ((s.use (.established job.dest (s.found job.dest))).proceed job)
    | _ => none
  | .poll revents =>
    match s.pc with
    | .write job c =>
      (Connection.step job.str c (.poll revents)).map fun c' =>
        let s' := s.use (.established job.dest (s.found job.dest))
        -- behind a hang-up the old socket is closed first
        if revents &&& Connection.pollHup ≠ 0 then { s' with pc := .dial job (some c') .hangup }
        else s'.proceed job c'
    | _ => none
  | .destroy =>
    match s.pc with
    | .idle => some { s with pc := .destroying }
    | _ => none
  | .destruct dest =>
    match s.pc, s.connections.lookup dest with
    | .destroying, some connection =>
      let s' := { s with connections := s.connections.erase dest }
      match connection.sockfd with
      | none => some s'
      | some fd => some ((s'.use (.established dest (s.table fd))).closeFd (some fd))
    | _, _ => none
  | .foreignOpen fd =>
    match s.table fd with
    | none => some { s with table := Function.update s.table fd (some .foreign) }
    | some _ => none
  | .foreignClose fd =>
    match s.table fd with
    | some .foreign => some { s with table := Function.update s.table fd none }
    | _ => none

-- ════════════════════════════════════════════════════════════════════════
-- Who holds a descriptor
-- ════════════════════════════════════════════════════════════════════════

/-- The descriptor of `net::connect`. -/
def dialFd : CarbonPc → List ℕ
  | .dial _ _ (.setsockopt fd) | .dial _ _ (.connect fd) | .dial _ _ (.abandon fd) => [fd]
  | _ => []

/-- The destination whose connection is between two sockets: its number is out of date. -/
def redialled : CarbonPc → Option Hostport
  | .dial _ _ .hangup => none
  | .dial job (some _) _ => some job.dest
  | _ => none

/-- The descriptors of `net::connect`, and of the connection to each destination. -/
def held (s : Sockets) : Option Hostport → List ℕ
  | none => dialFd s.pc
  | some dest => if redialled s.pc = some dest then [] else (s.sockfd dest).toList

/-- An open stream socket. -/
def IsStream (s : Sockets) (fd : ℕ) : Prop := ∃ peer, s.table fd = some (.stream peer)

/-- What the step that is next relies on. -/
def Ready (s : Sockets) : CarbonPc → Prop
  | .idle | .next _ | .destroying => True
  | .dial job none stage => s.connections.lookup job.dest = none ∧ stage ≠ .hangup
  | .dial job (some c) .hangup => (∃ fd, s.sockfd job.dest = some fd) ∧ c.phase = .connecting
  | .dial job (some c) _ => job.dest ∈ s.connections ∧ c.phase = .connecting
  | .write job c => (∃ fd, s.sockfd job.dest = some fd) ∧ c.isBad = false

/-- The sockets are used as they should be. -/
structure Sound (s : Sockets) : Prop where
  /-- Every call was made on the socket it was meant for. -/
  proper : ∀ u ∈ s.uses, u.Proper
  /-- Each open stream socket has one holder, and each holder an open socket. -/
  custody : Custody s.IsStream s.held
  /-- The connection to a destination has a socket that is connected to it. -/
  peers : ∀ dest, ∀ fd ∈ s.held (some dest), s.table fd = some (.stream (some dest))
  dialling : ∀ fd ∈ s.held none, s.table fd = some (.stream none)
  hostports : ∀ dest connection, s.connections.lookup dest = some connection →
    connection.hostport = dest
  ready : s.Ready s.pc

end Sockets

-- ════════════════════════════════════════════════════════════════════════
-- The phases of a connection
-- ════════════════════════════════════════════════════════════════════════

namespace Connection

/-- A call of `write` connects without a socket, and writes and polls with one. -/
structure Settled (c : Connection) : Prop where
  connecting : c.phase = .connecting → c.isBad = true
  writing : ∀ loop, c.phase = .writing loop → c.isBad = false
  polling : c.phase = .polling → c.isBad = false

variable {str : Buffer} {c c' : Connection}

theorem settled_of_returned {b : Bool} (h : c.phase = .returned b) : c.Settled := by
  refine ⟨fun h' => ?_, fun loop h' => ?_, fun h' => ?_⟩
  all_goals
    rw [h] at h'
    cases h'

theorem settled_settle (hbad : c.isBad = false) (loop : Writen) :
    (settle c loop).Settled ∧ (settle c loop).isBad = false := by
  rw [settle]
  cases loop.result with
  | none =>
    refine ⟨⟨fun h => ?_, fun _ _ => hbad, fun h => ?_⟩, hbad⟩
    · cases h
    · cases h
  | some r =>
    by_cases hr : r = -1
    · simp only [hr, if_true, refresh, hbad]
      refine ⟨⟨fun h => ?_, fun _ _ => rfl, fun _ => rfl⟩, trivial⟩
      cases h
    · simp only [hr, if_false]
      exact ⟨settled_of_returned (b := true) rfl, hbad⟩

theorem settled_write (str : Buffer) (c : Connection) :
    (write str c).Settled ∧ (write str c).isBad = c.isBad := by
  rw [write]
  split_ifs with hbad
  · rw [refresh, if_pos hbad]
    refine ⟨⟨fun _ => hbad, fun loop h => ?_, fun h => ?_⟩, rfl⟩
    · cases h
    · cases h
  · have hgood : c.isBad = false := Bool.not_eq_true _ ▸ hbad
    obtain ⟨hsettled, hbad'⟩ := settled_settle hgood (Writen.start str)
    exact ⟨hsettled, hbad'.trans hgood.symm⟩

theorem settled_refreshed (str : Buffer) (c : Connection) :
    (refreshed str c).Settled ∧ (refreshed str c).isBad = c.isBad := by
  rw [refreshed]
  split_ifs
  · exact ⟨settled_of_returned (b := false) rfl, rfl⟩
  · exact settled_write str c

theorem settled_of_write {result : SysResult} (hbad : c.isBad = false)
    (hstep : step str c (.write result) = some c') : c'.Settled ∧ c'.isBad = false := by
  simp only [step] at hstep
  split at hstep
  case h_2 => cases hstep
  case h_1 loop hphase =>
    obtain ⟨loop', -, rfl⟩ := Option.map_eq_some_iff.mp hstep
    exact settled_settle hbad loop'

/-- A hang-up makes `refresh` connect although there is a socket. -/
theorem of_poll {revents : ℕ} (hbad : c.isBad = false)
    (hstep : step str c (.poll revents) = some c') :
    if revents &&& pollHup ≠ 0 then c'.phase = .connecting
    else c'.Settled ∧ c'.isBad = false := by
  simp only [step] at hstep
  split_ifs at hstep with hphase hhup
  · cases hstep
    rw [if_pos hhup]
  · cases hstep
    rw [if_neg hhup]
    obtain ⟨hsettled, hbad'⟩ := settled_refreshed str c
    exact ⟨hsettled, hbad'.trans hbad⟩

theorem settled_of_connect {connected : Bool} (hstep : step str c (.connect connected) = some c') :
    c'.Settled ∧ c'.isBad = !connected := by
  simp only [step] at hstep
  split_ifs at hstep
  cases hstep
  exact settled_refreshed str { c with isBad := !connected }

end Connection

namespace Sockets

-- ════════════════════════════════════════════════════════════════════════
-- Steps
-- ════════════════════════════════════════════════════════════════════════

section Steps

variable {s s' : Sockets} {job : CarbonJob} {c : Connection} {dest : Hostport} {fd : ℕ}

theorem sockfd_of_lookup {connection : CarbonConnection}
    (h : s.connections.lookup dest = some connection) : s.sockfd dest = connection.sockfd := by
  rw [sockfd, h]
  rfl

theorem sockfd_insert_self (connections : UnorderedMap Hostport CarbonConnection)
    (hostport : Hostport) (fd : Option ℕ) :
    ((connections.insert dest ⟨hostport, fd⟩).lookup dest).bind CarbonConnection.sockfd = fd := by
  rw [AList.lookup_insert]
  rfl

/-- The descriptors between the calls of `flush_stats`. -/
def atRest (s : Sockets) : Sockets := { s with pc := .idle }

theorem held_none (s : Sockets) : s.held none = dialFd s.pc := rfl

theorem held_some (s : Sockets) (dest : Hostport) :
    s.held (some dest) = if redialled s.pc = some dest then [] else (s.sockfd dest).toList := rfl

theorem held_of_redialled (h : redialled s.pc = none) (dest : Hostport) :
    s.held (some dest) = (s.sockfd dest).toList := by
  rw [held, h]
  exact if_neg (Option.some_ne_none dest).symm

/-- A step inside of the backend that changes no descriptor. -/
theorem Sound.setPc (hsound : s.Sound) {pc : CarbonPc}
    (hheld : ∀ i, ({ s with pc } : Sockets).held i = s.held i) (hready : s.Ready pc) :
    Sound { s with pc } where
  proper := hsound.proper
  custody := hsound.custody.keep (fun i => by rw [hheld]) fun _ => Iff.rfl
  peers dest fd hfd := hsound.peers dest fd (hheld (some dest) ▸ hfd)
  dialling fd hfd := hsound.dialling fd (hheld none ▸ hfd)
  hostports := hsound.hostports
  ready := hready

/-- A program counter at which nothing but the connections holds a descriptor. -/
theorem Sound.rest (hsound : s.Sound) (hdial : dialFd s.pc = [])
    (hredialled : redialled s.pc = none) : s.atRest.Sound := by
  refine hsound.setPc (fun i => ?_) trivial
  cases i with
  | none => exact hdial.symm
  | some dest =>
    rw [held_of_redialled hredialled, held_of_redialled rfl]
    rfl

theorem Sound.use (hsound : s.Sound) {u : SocketUse} (hu : u.Proper) : (s.use u).Sound where
  proper := List.forall_mem_append.mpr ⟨hsound.proper, List.forall_mem_singleton.mpr hu⟩
  custody := hsound.custody
  peers := hsound.peers
  dialling := hsound.dialling
  hostports := hsound.hostports
  ready := by
    have hready := hsound.ready
    exact hready

/-- The connection of a call of `write` agrees with the one in the map. -/
structure Suits (s : Sockets) (job : CarbonJob) (c : Connection) : Prop where
  settled : c.Settled
  mem : job.dest ∈ s.connections
  sockfd : s.sockfd job.dest = none ↔ c.isBad = true

theorem Suits.exists_sockfd (hsuits : Suits s job c) (hbad : c.isBad = false) :
    ∃ fd, s.sockfd job.dest = some fd := by
  refine Option.ne_none_iff_exists'.mp fun hnone => ?_
  rw [hsuits.sockfd.mp hnone] at hbad
  cases hbad

/-- A call of `write` goes on. -/
theorem Sound.proceed (hrest : s.atRest.Sound) (hsuits : Suits s job c) :
    (s.proceed job c).Sound := by
  have hkeep : ∀ pc, dialFd pc = [] → (∀ dest, redialled pc = some dest → s.sockfd dest = none) →
      s.Ready pc → Sound { s with pc } := by
    intro pc hdial hredialled hready
    refine hrest.setPc (fun i => ?_) hready
    cases i with
    | none => exact hdial
    | some dest =>
      rw [held_of_redialled (s := s.atRest) rfl]
      show (if redialled pc = some dest then [] else (s.sockfd dest).toList) =
        (s.sockfd dest).toList
      split_ifs with hre
      · rw [hredialled dest hre]
        rfl
      · rfl
  rw [Sockets.proceed, nextPc]
  split
  case h_1 loop hphase =>
    refine hkeep _ rfl (fun dest h => by cases h) ?_
    have hbad := hsuits.settled.writing loop hphase
    exact ⟨hsuits.exists_sockfd hbad, hbad⟩
  case h_2 hphase =>
    refine hkeep _ rfl (fun dest h => by cases h) ?_
    have hbad := hsuits.settled.polling hphase
    exact ⟨hsuits.exists_sockfd hbad, hbad⟩
  case h_3 hphase =>
    refine hkeep _ rfl (fun dest h => ?_) ⟨hsuits.mem, hphase⟩
    cases h
    exact hsuits.sockfd.mpr (hsuits.settled.connecting hphase)
  case h_4 => exact hkeep _ rfl (fun dest h => by cases h) trivial

/-- What holds while `net::connect` runs: the connection it is for has no descriptor. -/
theorem Sound.dial (hsound : s.Sound) {write : Option Connection} {stage : Dial}
    (hpc : s.pc = .dial job write stage) (hstage : stage ≠ .hangup) :
    s.held (some job.dest) = [] ∧ (∀ dest ≠ job.dest, s.held (some dest) = (s.sockfd dest).toList) ∧
      s.target job write = job.dest := by
  have hready := hsound.ready
  cases write with
  | none =>
    have hredialled : redialled s.pc = none := by
      rw [hpc]
      cases stage <;> rfl
    rw [hpc] at hready
    refine ⟨?_, fun dest _ => held_of_redialled hredialled dest, rfl⟩
    rw [held_of_redialled hredialled, sockfd, hready.1]
    rfl
  | some c =>
    have hredialled : redialled s.pc = some job.dest := by
      rw [hpc]
      cases stage with
      | hangup => exact absurd rfl hstage
      | resolve | socket | setsockopt | connect | abandon => rfl
    refine ⟨?_, fun dest hdest => ?_, ?_⟩
    · rw [held, hredialled]
      exact if_pos rfl
    · rw [held, hredialled]
      exact if_neg fun h => hdest (Option.some.inj h).symm
    · rw [target]
      cases hlookup : s.connections.lookup job.dest with
      | none => rfl
      | some connection => exact hsound.hostports _ _ hlookup

/-- The connections when one of them has a new descriptor, or none. -/
theorem hostports_insert (hsound : s.Sound) (fd : Option ℕ) :
    ∀ dest connection, (s.connections.insert job.dest ⟨job.dest, fd⟩).lookup dest =
      some connection → connection.hostport = dest := by
  intro dest connection hlookup
  by_cases hdest : dest = job.dest
  · subst hdest
    rw [AList.lookup_insert, Option.some.injEq] at hlookup
    rw [← hlookup]
  · rw [AList.lookup_insert_ne hdest] at hlookup
    exact hsound.hostports dest connection hlookup

/-- The connection that `net::connect` was called for is left without a socket. -/
theorem Sound.noSocket (hsound : s.Sound) {write : Option Connection} {stage : Dial}
    (hpc : s.pc = .dial job write stage) (hstage : stage ≠ .hangup) (hdial : dialFd s.pc = []) :
    Sound { s with
      connections := s.connections.insert job.dest ⟨s.target job write, none⟩, pc := .idle } := by
  obtain ⟨hown, hother, htarget⟩ := hsound.dial hpc hstage
  rw [htarget]
  have hheld : ∀ i, ({ s with
      connections := s.connections.insert job.dest ⟨job.dest, none⟩
      pc := .idle } : Sockets).held i = s.held i := by
    intro i
    cases i with
    | none => exact hdial.symm
    | some dest =>
      rw [held_of_redialled rfl]
      by_cases hdest : dest = job.dest
      · subst hdest
        rw [hown, sockfd, sockfd_insert_self]
        rfl
      · rw [hother dest hdest, sockfd, sockfd, AList.lookup_insert_ne hdest]
  exact
    { proper := hsound.proper
      custody := hsound.custody.keep (fun i => by rw [hheld]) fun _ => Iff.rfl
      peers := fun dest fd hfd => hsound.peers dest fd (hheld (some dest) ▸ hfd)
      dialling := fun fd hfd => hsound.dialling fd (hheld none ▸ hfd)
      hostports := hostports_insert hsound none
      ready := trivial }

/-- The connection gets the socket that `net::connect` has connected. -/
theorem Sound.newSocket (hsound : s.Sound) {write : Option Connection}
    (hpc : s.pc = .dial job write (.connect fd)) :
    Sound { s with
      table := Function.update s.table fd (some (.stream (some (s.target job write))))
      connections := s.connections.insert job.dest ⟨s.target job write, some fd⟩
      pc := .idle } := by
  obtain ⟨hown, hother, htarget⟩ := hsound.dial hpc (by simp)
  rw [htarget]
  have hnone : s.held none = [fd] := by
    rw [held, hpc]
    rfl
  have hstream : s.table fd = some (.stream none) :=
    hsound.dialling fd (hnone ▸ List.mem_singleton_self fd)
  set s' : Sockets := { s with
    table := Function.update s.table fd (some (.stream (some job.dest)))
    connections := s.connections.insert job.dest ⟨job.dest, some fd⟩
    pc := .idle }
  have hown' : s'.held (some job.dest) = [fd] := by
    rw [held_of_redialled rfl, sockfd, sockfd_insert_self]
    rfl
  have hother' : ∀ dest ≠ job.dest, s'.held (some dest) = s.held (some dest) := by
    intro dest hdest
    rw [held_of_redialled rfl, hother dest hdest, sockfd, sockfd, AList.lookup_insert_ne hdest]
  have htable : ∀ fd' ≠ fd, s'.table fd' = s.table fd' :=
    fun fd' hfd' => Function.update_of_ne hfd' _ _
  have hself : s'.table fd = some (.stream (some job.dest)) := Function.update_self _ _ _
  have hpassed : Custody s.IsStream s'.held := by
    refine hsound.custody.pass (p := fd) (i := none) (j := some job.dest)
      (Option.some_ne_none _).symm ?_ ?_ ?_
    · rw [hnone]
      exact List.Perm.refl _
    · rw [hown', hown]
    · intro i hi hj
      cases i with
      | none => exact absurd rfl hi
      | some dest => exact hother' dest fun h => hj (congrArg some h)
  constructor
  case proper => exact hsound.proper
  case custody =>
    refine hpassed.keep (fun _ => List.Perm.refl _) fun fd' => ?_
    by_cases hfd : fd' = fd
    · subst hfd
      exact iff_of_true ⟨_, hself⟩ ⟨_, hstream⟩
    · rw [IsStream, IsStream, htable fd' hfd]
  case peers =>
    intro dest fd' hfd'
    by_cases hdest : dest = job.dest
    · subst hdest
      rw [hown', List.mem_singleton] at hfd'
      rw [hfd', hself]
    · rw [hother' dest hdest] at hfd'
      have hne : fd' ≠ fd := by
        rintro rfl
        have hboth := hsound.custody.apart hfd' (hnone ▸ List.mem_singleton_self fd' :
          fd' ∈ s.held none)
        cases hboth
      rw [htable fd' hne]
      exact hsound.peers dest fd' hfd'
  case dialling => exact fun fd' hfd' => absurd hfd' List.not_mem_nil
  case hostports => exact hostports_insert hsound (some fd)
  case ready => trivial

/-- `net::connect` has returned, and `write` goes on with its result. -/
theorem Sound.dialled {write : Option Connection} {fd : Option ℕ}
    (hrest : Sound { s with
      connections := s.connections.insert job.dest ⟨s.target job write, fd⟩, pc := .idle })
    (hdialled : s.dialled job write fd = some s') : s'.Sound := by
  have hsuits : ∀ c : Connection, c.Settled → c.isBad = fd.isNone →
      Suits { s with connections := s.connections.insert job.dest ⟨s.target job write, fd⟩ }
        job c := by
    intro c hsettled hbad
    refine ⟨hsettled, (AList.mem_insert _).mpr (.inl rfl), ?_⟩
    rw [sockfd, sockfd_insert_self, hbad]
    cases fd with
    | none => exact iff_of_true rfl rfl
    | some fd => exact iff_of_false (Option.some_ne_none fd) Bool.false_ne_true
  cases write with
  | none =>
    simp only [Sockets.dialled, Option.some.injEq] at hdialled
    subst hdialled
    obtain ⟨hsettled, hbad⟩ := Connection.settled_write job.str { isBad := fd.isNone }
    exact Sound.proceed hrest (hsuits _ hsettled hbad)
  | some c =>
    simp only [Sockets.dialled] at hdialled
    obtain ⟨c', hc', rfl⟩ := Option.map_eq_some_iff.mp hdialled
    obtain ⟨hsettled, hbad⟩ := Connection.settled_of_connect hc'
    refine Sound.proceed hrest (hsuits _ hsettled (hbad.trans ?_))
    cases fd with
    | none => rfl
    | some fd => rfl

/-- A descriptor of another thread, or one that is not open. -/
theorem Sound.foreign (hsound : s.Sound) {d : Option Descriptor} (hfd : ¬ s.IsStream fd)
    (hd : ∀ peer, d ≠ some (.stream peer)) :
    Sound { s with table := Function.update s.table fd d } := by
  set s' : Sockets := { s with table := Function.update s.table fd d }
  have htable : ∀ fd' ≠ fd, s'.table fd' = s.table fd' :=
    fun fd' hfd' => Function.update_of_ne hfd' _ _
  have hself : s'.table fd = d := Function.update_self _ _ _
  have hne : ∀ i, ∀ fd' ∈ s.held i, fd' ≠ fd := by
    rintro i fd' hfd' rfl
    exact hfd (hsound.custody.used_of_mem hfd')
  constructor
  case proper => exact hsound.proper
  case custody =>
    refine hsound.custody.keep (fun _ => List.Perm.refl _) fun fd' => ?_
    by_cases hfd' : fd' = fd
    · subst hfd'
      refine iff_of_false ?_ hfd
      rintro ⟨peer, hpeer⟩
      exact hd peer (hself.symm.trans hpeer)
    · rw [IsStream, IsStream, htable fd' hfd']
  case peers =>
    exact fun dest fd' hfd' =>
      (htable fd' (hne (some dest) fd' hfd')).trans (hsound.peers dest fd' hfd')
  case dialling =>
    exact fun fd' hfd' => (htable fd' (hne none fd' hfd')).trans (hsound.dialling fd' hfd')
  case hostports => exact hsound.hostports
  case ready =>
    have hready := hsound.ready
    exact hready

/-- The holder of a descriptor closes it. -/
theorem Sound.close (hsound : s.Sound) {i : Option Hostport} (hfd : s.held i = [fd])
    {connections : UnorderedMap Hostport CarbonConnection} {pc : CarbonPc}
    (hown : Sockets.held ⟨Function.update s.table fd none, connections, pc, s.uses⟩ i = [])
    (hother : ∀ j ≠ i,
      Sockets.held ⟨Function.update s.table fd none, connections, pc, s.uses⟩ j = s.held j)
    (hhostports : ∀ dest connection, connections.lookup dest = some connection →
      connection.hostport = dest)
    (hready : Sockets.Ready ⟨Function.update s.table fd none, connections, pc, s.uses⟩ pc) :
    Sound ⟨Function.update s.table fd none, connections, pc, s.uses⟩ := by
  set s' : Sockets := ⟨Function.update s.table fd none, connections, pc, s.uses⟩
  have htable : ∀ fd' ≠ fd, s'.table fd' = s.table fd' :=
    fun fd' hfd' => Function.update_of_ne hfd' _ _
  have hmem : fd ∈ s.held i := hfd ▸ List.mem_singleton_self fd
  have hkept : ∀ {j fd'}, fd' ∈ s'.held j → j ≠ i ∧ fd' ∈ s.held j ∧ fd' ≠ fd := by
    intro j fd' hfd'
    have hj : j ≠ i := by
      rintro rfl
      rw [hown] at hfd'
      cases hfd'
    rw [hother j hj] at hfd'
    refine ⟨hj, hfd', ?_⟩
    rintro rfl
    exact hj (hsound.custody.apart hfd' hmem)
  constructor
  case proper => exact hsound.proper
  case custody =>
    refine hsound.custody.release (p := fd) (i := i) ?_ hother fun fd' => ?_
    · rw [hfd, hown]
    · by_cases hfd' : fd' = fd
      · subst hfd'
        refine iff_of_false ?_ fun hand => hand.1 rfl
        rintro ⟨peer, hpeer⟩
        have hnone : s'.table fd' = none := Function.update_self _ _ _
        rw [hnone] at hpeer
        cases hpeer
      · rw [IsStream, htable fd' hfd', and_iff_right hfd']
        rfl
  case peers =>
    intro dest fd' hfd'
    obtain ⟨-, hheld, hne⟩ := hkept hfd'
    exact (htable fd' hne).trans (hsound.peers dest fd' hheld)
  case dialling =>
    intro fd' hfd'
    obtain ⟨-, hheld, hne⟩ := hkept hfd'
    exact (htable fd' hne).trans (hsound.dialling fd' hheld)
  case hostports => exact hhostports
  case ready => exact hready

/-- The kernel opens a socket for `net::connect`. -/
theorem Sound.open (hsound : s.Sound) {write : Option Connection}
    (hpc : s.pc = .dial job write .socket) (hfree : s.table fd = none) :
    Sound { s with
      table := Function.update s.table fd (some (.stream none))
      pc := .dial job write (.setsockopt fd) } := by
  set s' : Sockets := { s with
    table := Function.update s.table fd (some (.stream none))
    pc := .dial job write (.setsockopt fd) }
  have htable : ∀ fd' ≠ fd, s'.table fd' = s.table fd' :=
    fun fd' hfd' => Function.update_of_ne hfd' _ _
  have hself : s'.table fd = some (.stream none) := Function.update_self _ _ _
  have hfd : ¬ s.IsStream fd := by
    rintro ⟨peer, hpeer⟩
    rw [hfree] at hpeer
    cases hpeer
  have hsome : ∀ dest, s'.held (some dest) = s.held (some dest) := by
    intro dest
    rw [held, held, hpc]
    cases write with
    | none => rfl
    | some c => rfl
  have hnone : s.held none = [] := by
    rw [held, hpc]
    rfl
  have hne : ∀ {dest fd'}, fd' ∈ s.held (some dest) → fd' ≠ fd := by
    rintro dest fd' hfd' rfl
    exact hfd (hsound.custody.used_of_mem hfd')
  constructor
  case proper => exact hsound.proper
  case custody =>
    refine hsound.custody.acquire (p := fd) (i := none) hfd ?_ (fun i hi => ?_) fun fd' => ?_
    · rw [hnone]
      exact List.Perm.refl _
    · cases i with
      | none => exact absurd rfl hi
      | some dest => exact hsome dest
    · by_cases hfd' : fd' = fd
      · subst hfd'
        exact iff_of_true ⟨_, hself⟩ (.inl rfl)
      · rw [IsStream, htable fd' hfd', or_iff_right hfd']
        rfl
  case peers =>
    intro dest fd' hfd'
    rw [hsome] at hfd'
    exact (htable fd' (hne hfd')).trans (hsound.peers dest fd' hfd')
  case dialling =>
    intro fd' hfd'
    rw [List.mem_singleton.mp (hfd' : fd' ∈ [fd]), hself]
  case hostports => exact hsound.hostports
  case ready =>
    have hready := hsound.ready
    rw [hpc] at hready
    cases write with
    | none => exact ⟨hready.1, by simp⟩
    | some c => exact hready

/-- The socket of a connection that has one is the one it is taken for. -/
theorem Sound.found (hsound : s.Sound) (hredialled : redialled s.pc = none)
    (hfd : s.sockfd dest = some fd) :
    s.held (some dest) = [fd] ∧ s.found dest = some (.stream (some dest)) := by
  have hheld : s.held (some dest) = [fd] := by
    rw [held_of_redialled hredialled, hfd]
    rfl
  refine ⟨hheld, ?_⟩
  rw [Sockets.found, hfd]
  exact hsound.peers dest fd (hheld ▸ List.mem_singleton_self fd)

theorem mem_of_sockfd (hfd : s.sockfd dest = some fd) : dest ∈ s.connections := by
  obtain ⟨connection, hlookup, -⟩ := Option.bind_eq_some_iff.mp hfd
  exact UnorderedMap.mem_of_lookup hlookup

theorem suits_of_sockfd (hfd : s.sockfd job.dest = some fd) (hsettled : c.Settled)
    (hbad : c.isBad = false) : Suits s job c := by
  refine ⟨hsettled, mem_of_sockfd hfd, ?_⟩
  rw [hfd, hbad]
  exact iff_of_false (Option.some_ne_none fd) Bool.false_ne_true

/-- The loop over `stat_strings`. -/
theorem Sound.find (hsound : s.Sound) (hstep : s.step .find = some s') : s'.Sound := by
  simp only [Sockets.step] at hstep
  split at hstep
  case h_1 hpc =>
    cases hstep
    exact hsound.rest (by rw [hpc]; rfl) (by rw [hpc]; rfl)
  case h_2 dest str rest hpc =>
    have hrest : s.atRest.Sound := hsound.rest (by rw [hpc]; rfl) (by rw [hpc]; rfl)
    split at hstep
    case h_1 hlookup =>
      cases hstep
      refine hsound.setPc (fun i => ?_) ⟨hlookup, by simp⟩
      cases i with
      | none =>
        rw [held_none, held_none, hpc]
        rfl
      | some d =>
        rw [held_some, held_some, hpc]
        rfl
    case h_2 connection hlookup =>
      cases hstep
      obtain ⟨hsettled, hbad⟩ :=
        Connection.settled_write str { isBad := connection.sockfd.isNone }
      refine Sound.proceed hrest ⟨hsettled, UnorderedMap.mem_of_lookup hlookup, ?_⟩
      rw [sockfd_of_lookup hlookup, Connection.start, hbad, Option.isNone_iff_eq_none]
  case h_3 => cases hstep

/-- The old socket is closed before a new one is made. -/
theorem Sound.hangup (hsound : s.Sound) (hstep : s.step .close = some s') : s'.Sound := by
  simp only [Sockets.step] at hstep
  split at hstep
  case h_2 => cases hstep
  case h_1 job write hpc =>
    cases hstep
    have hready := hsound.ready
    rw [hpc] at hready
    cases write with
    | none => exact absurd rfl hready.2
    | some c =>
      obtain ⟨⟨fd, hfd⟩, hphase⟩ := hready
      have hredialled : redialled s.pc = none := by
        rw [hpc]
        rfl
      obtain ⟨hheld, hfound⟩ := hsound.found hredialled hfd
      rw [hfound, hfd]
      have huse : (s.use (.established job.dest (some (.stream (some job.dest))))).Sound :=
        hsound.use rfl
      refine huse.close (i := some job.dest) hheld (if_pos rfl) (fun i hi => ?_) hsound.hostports
        ⟨mem_of_sockfd hfd, hphase⟩
      cases i with
      | none =>
        rw [held_none, held_none]
        show dialFd (.dial job (some c) .resolve) = dialFd s.pc
        rw [hpc]
        rfl
      | some dest =>
        have hne : some job.dest ≠ some dest := fun h => hi h.symm
        show (if some job.dest = some dest then [] else (s.sockfd dest).toList) = s.held (some dest)
        rw [if_neg hne, held_of_redialled hredialled]

/-- A step of `net::connect` that leaves the descriptors alone. -/
theorem Sound.stage (hsound : s.Sound) {write : Option Connection} {stage stage' : Dial}
    (hpc : s.pc = .dial job write stage) (hstage : stage ≠ .hangup) (hstage' : stage' ≠ .hangup)
    (hdial : dialFd (.dial job write stage') = dialFd (.dial job write stage)) :
    Sound { s with pc := .dial job write stage' } := by
  have hready := hsound.ready
  rw [hpc] at hready
  refine hsound.setPc (fun i => ?_) ?_
  · cases i with
    | none =>
      show dialFd _ = dialFd s.pc
      rw [hpc, hdial]
    | some dest =>
      have hredialled : redialled (.dial job write stage') = redialled s.pc := by
        rw [hpc]
        cases write with
        | none => cases stage' <;> cases stage <;> rfl
        | some c =>
          cases stage' <;> cases stage <;> first | rfl | exact absurd rfl hstage |
            exact absurd rfl hstage'
      rw [held, held, hredialled]
      rfl
  · cases write with
    | none => exact ⟨hready.1, hstage'⟩
    | some c =>
      cases stage' with
      | hangup => exact absurd rfl hstage'
      | resolve | socket | setsockopt | connect | abandon =>
        cases stage with
        | hangup => exact absurd rfl hstage
        | resolve | socket | setsockopt | connect | abandon => exact hready

/-- `setsockopt` on a new socket. -/
theorem Sound.setsockopt (hsound : s.Sound) (hstep : s.step .setsockopt = some s') :
    s'.Sound := by
  simp only [Sockets.step] at hstep
  split at hstep
  case h_2 => cases hstep
  case h_1 job write fd hpc =>
    cases hstep
    have hheld : fd ∈ s.held none := by
      rw [held, hpc]
      exact List.mem_singleton_self fd
    have huse : (s.use (.dialling (s.table fd))).Sound := hsound.use (hsound.dialling fd hheld)
    exact huse.stage hpc (by simp) (by simp) rfl

/-- `connect` on a socket of `net::connect`. -/
theorem Sound.connect (hsound : s.Sound) {ok : Bool} (hstep : s.step (.connect ok) = some s') :
    s'.Sound := by
  simp only [Sockets.step] at hstep
  split at hstep
  case h_2 => cases hstep
  case h_1 job write fd hpc =>
    have hheld : fd ∈ s.held none := by
      rw [held, hpc]
      exact List.mem_singleton_self fd
    have huse : (s.use (.dialling (s.table fd))).Sound := hsound.use (hsound.dialling fd hheld)
    cases ok with
    | true =>
      rw [if_pos rfl] at hstep
      exact Sound.dialled (huse.newSocket hpc) hstep
    | false =>
      rw [if_neg Bool.false_ne_true] at hstep
      cases hstep
      exact huse.stage hpc (by simp) (by simp) rfl

/-- The socket that could not be connected is closed. -/
theorem Sound.abandon (hsound : s.Sound) (hstep : s.step .abandon = some s') : s'.Sound := by
  simp only [Sockets.step] at hstep
  split at hstep
  case h_2 => cases hstep
  case h_1 job write fd hpc =>
    have hheld : s.held none = [fd] := by
      rw [held, hpc]
      rfl
    have huse : (s.use (.dialling (s.table fd))).Sound :=
      hsound.use (hsound.dialling fd (hheld ▸ List.mem_singleton_self fd))
    have hback : Sound ⟨Function.update s.table fd none, s.connections, .dial job write .resolve,
        (s.use (.dialling (s.table fd))).uses⟩ := by
      have hready := hsound.ready
      rw [hpc] at hready
      refine huse.close (i := none) hheld rfl (fun i hi => ?_) hsound.hostports ?_
      · cases i with
        | none => exact absurd rfl hi
        | some dest =>
          show (if redialled _ = some dest then [] else (s.sockfd dest).toList) =
            if redialled s.pc = some dest then [] else (s.sockfd dest).toList
          rw [hpc]
          cases write with
          | none => rfl
          | some c => rfl
      · cases write with
        | none => exact ⟨hready.1, by simp⟩
        | some c => exact hready
    exact Sound.dialled (hback.noSocket rfl (by simp) rfl) hstep

/-- `write` and `poll` on the socket of a connection. -/
theorem Sound.io (hsound : s.Sound) (hpc : s.pc = .write job c) :
    ∃ fd, s.sockfd job.dest = some fd ∧ c.isBad = false ∧
      (s.use (.established job.dest (s.found job.dest))).Sound ∧
      (s.use (.established job.dest (s.found job.dest))).atRest.Sound := by
  have hready := hsound.ready
  rw [hpc] at hready
  obtain ⟨⟨fd, hfd⟩, hbad⟩ := hready
  have hredialled : redialled s.pc = none := by
    rw [hpc]
    rfl
  have huse : (s.use (.established job.dest (s.found job.dest))).Sound :=
    hsound.use (hsound.found hredialled hfd).2
  refine ⟨fd, hfd, hbad, huse, huse.rest ?_ hredialled⟩
  show dialFd s.pc = []
  rw [hpc]
  rfl

theorem Sound.write (hsound : s.Sound) {result : SysResult}
    (hstep : s.step (.write result) = some s') : s'.Sound := by
  simp only [Sockets.step] at hstep
  split at hstep
  case h_2 => cases hstep
  case h_1 job c hpc =>
    obtain ⟨c', hc', rfl⟩ := Option.map_eq_some_iff.mp hstep
    obtain ⟨fd, hfd, hbad, -, hrest⟩ := hsound.io hpc
    obtain ⟨hsettled, hbad'⟩ := Connection.settled_of_write hbad hc'
    exact Sound.proceed hrest (suits_of_sockfd hfd hsettled hbad')

theorem Sound.poll (hsound : s.Sound) {revents : ℕ} (hstep : s.step (.poll revents) = some s') :
    s'.Sound := by
  simp only [Sockets.step] at hstep
  split at hstep
  case h_2 => cases hstep
  case h_1 job c hpc =>
    obtain ⟨c', hc', rfl⟩ := Option.map_eq_some_iff.mp hstep
    obtain ⟨fd, hfd, hbad, huse, hrest⟩ := hsound.io hpc
    have hpoll := Connection.of_poll hbad hc'
    by_cases hhup : revents &&& Connection.pollHup ≠ 0
    · rw [if_pos hhup] at hpoll ⊢
      refine huse.setPc (fun i => ?_) ⟨⟨fd, hfd⟩, hpoll⟩
      cases i with
      | none =>
        rw [held_none, held_none]
        show dialFd (.dial job (some c') .hangup) = dialFd s.pc
        rw [hpc]
        rfl
      | some dest =>
        rw [held_some, held_some]
        show (if redialled (.dial job (some c') .hangup) = some dest then [] else _) =
          if redialled s.pc = some dest then [] else _
        rw [hpc]
        rfl
    · rw [if_neg hhup] at hpoll ⊢
      exact Sound.proceed hrest (suits_of_sockfd hfd hpoll.1 hpoll.2)

/-- A connection is destroyed. -/
theorem Sound.destruct (hsound : s.Sound) (hstep : s.step (.destruct dest) = some s') :
    s'.Sound := by
  simp only [Sockets.step] at hstep
  split at hstep
  case h_2 => cases hstep
  case h_1 connection hpc hlookup =>
    have hredialled : redialled s.pc = none := by
      rw [hpc]
      rfl
    have hnone : ∀ connections : UnorderedMap Hostport CarbonConnection,
        redialled ({ s with connections } : Sockets).pc = none := fun _ => hredialled
    have hhostports : ∀ d connection, (s.connections.erase dest).lookup d = some connection →
        connection.hostport = d := by
      intro d connection' hd
      by_cases hdest : d = dest
      · subst hdest
        rw [AList.lookup_erase] at hd
        cases hd
      · rw [AList.lookup_erase_ne hdest] at hd
        exact hsound.hostports d connection' hd
    have hother : ∀ d ≠ dest, ({ s with connections := s.connections.erase dest } : Sockets).held
        (some d) = s.held (some d) := by
      intro d hd
      rw [held_of_redialled (hnone _), held_of_redialled hredialled, sockfd, sockfd,
        AList.lookup_erase_ne hd]
    have hown : ({ s with connections := s.connections.erase dest } : Sockets).held (some dest) =
        [] := by
      rw [held_of_redialled (hnone _), sockfd, AList.lookup_erase]
      rfl
    split at hstep
    case h_1 hsockfd =>
      cases hstep
      have hheld : ∀ i, ({ s with connections := s.connections.erase dest } : Sockets).held i =
          s.held i := by
        intro i
        cases i with
        | none => rfl
        | some d =>
          by_cases hd : d = dest
          · subst hd
            rw [hown, held_of_redialled hredialled, sockfd_of_lookup hlookup, hsockfd]
            rfl
          · exact hother d hd
      exact
        { proper := hsound.proper
          custody := hsound.custody.keep (fun i => by rw [hheld]) fun _ => Iff.rfl
          peers := fun d fd hfd => hsound.peers d fd (hheld (some d) ▸ hfd)
          dialling := hsound.dialling
          hostports := hhostports
          ready := by rw [hpc]; trivial }
    case h_2 fd hsockfd =>
      cases hstep
      have hfd : s.sockfd dest = some fd := (sockfd_of_lookup hlookup).trans hsockfd
      obtain ⟨hheld, hfound⟩ := hsound.found hredialled hfd
      rw [Sockets.found, hfd, Option.bind_some] at hfound
      have huse : (s.use (.established dest (s.table fd))).Sound := hsound.use hfound
      refine huse.close (i := some dest) hheld hown (fun i hi => ?_) hhostports ?_
      · cases i with
        | none => rfl
        | some d => exact hother d fun h => hi (congrArg some h)
      · show Ready _ s.pc
        rw [hpc]
        trivial

theorem Sound.step {a : SocketAction} (hsound : s.Sound) (hstep : s.step a = some s') :
    s'.Sound := by
  cases a with
  | flush payload =>
    simp only [Sockets.step] at hstep
    split at hstep
    case h_2 => cases hstep
    case h_1 hpc =>
      cases hstep
      refine hsound.setPc (fun i => ?_) trivial
      cases i with
      | none =>
        rw [held_none, held_none, hpc]
        rfl
      | some dest =>
        rw [held_some, held_some, hpc]
        rfl
  | find => exact hsound.find hstep
  | close => exact hsound.hangup hstep
  | resolve pton resolved =>
    simp only [Sockets.step] at hstep
    split at hstep
    case h_2 => cases hstep
    case h_1 job write hpc =>
      split_ifs at hstep
      · exact Sound.dialled (hsound.noSocket hpc (by simp) (by rw [hpc]; rfl)) hstep
      · cases hstep
        exact hsound.stage hpc (by simp) (by simp) rfl
  | socket fd =>
    simp only [Sockets.step] at hstep
    split at hstep
    case h_1 job write hpc =>
      exact Sound.dialled (hsound.noSocket hpc (by simp) (by rw [hpc]; rfl)) hstep
    case h_2 job write fd hpc =>
      split at hstep
      case h_1 hfree =>
        cases hstep
        exact hsound.open hpc hfree
      case h_2 => cases hstep
    case h_3 => cases hstep
  | setsockopt => exact hsound.setsockopt hstep
  | connect ok => exact hsound.connect hstep
  | abandon => exact hsound.abandon hstep
  | write result => exact hsound.write hstep
  | poll revents => exact hsound.poll hstep
  | destroy =>
    simp only [Sockets.step] at hstep
    split at hstep
    case h_2 => cases hstep
    case h_1 hpc =>
      cases hstep
      refine hsound.setPc (fun i => ?_) trivial
      cases i with
      | none =>
        rw [held_none, held_none, hpc]
        rfl
      | some dest =>
        rw [held_some, held_some, hpc]
        rfl
  | destruct dest => exact hsound.destruct hstep
  | foreignOpen fd =>
    simp only [Sockets.step] at hstep
    split at hstep
    case h_2 => cases hstep
    case h_1 hfree =>
      cases hstep
      refine hsound.foreign ?_ (by simp)
      rintro ⟨peer, hpeer⟩
      rw [hfree] at hpeer
      cases hpeer
  | foreignClose fd =>
    simp only [Sockets.step] at hstep
    split at hstep
    case h_2 => cases hstep
    case h_1 hforeign =>
      cases hstep
      refine hsound.foreign ?_ (by simp)
      rintro ⟨peer, hpeer⟩
      rw [hforeign] at hpeer
      cases hpeer

/-- The backend has been constructed, and no descriptor is a socket of it. -/
theorem sound_init {table : ℕ → Option Descriptor}
    (htable : ∀ fd peer, table fd ≠ some (.stream peer)) : Sound { table } := by
  have hheld : ∀ i, ({ table } : Sockets).held i = [] := by
    intro i
    cases i with
    | none => rfl
    | some dest => exact held_of_redialled rfl dest
  refine ⟨fun u hu => absurd hu List.not_mem_nil, .of_nil hheld ?_, fun dest fd hfd => ?_,
    fun fd hfd => absurd hfd List.not_mem_nil, fun dest connection hlookup => ?_, trivial⟩
  · rintro fd ⟨peer, hpeer⟩
    exact htable fd peer hpeer
  · rw [hheld] at hfd
    cases hfd
  · rw [AList.lookup_empty] at hlookup
    cases hlookup

/-- Between two calls of `flush_stats`, and while the backend is destroyed, the open
stream sockets are those of the connections. -/
theorem Sound.stream_iff (hsound : s.Sound) (hpc : s.pc = .idle ∨ s.pc = .destroying) (fd : ℕ) :
    s.IsStream fd ↔ ∃ dest, s.sockfd dest = some fd := by
  have hredialled : redialled s.pc = none := by
    rcases hpc with hpc | hpc
    all_goals
      rw [hpc]
      rfl
  have hdial : s.held none = [] := by
    rw [held_none]
    rcases hpc with hpc | hpc
    all_goals
      rw [hpc]
      rfl
  rw [← hsound.custody.used_iff fd]
  constructor
  · rintro ⟨i, hi⟩
    cases i with
    | none =>
      rw [hdial] at hi
      cases hi
    | some dest =>
      rw [held_of_redialled hredialled, Option.mem_toList] at hi
      exact ⟨dest, hi⟩
  · rintro ⟨dest, hfd⟩
    refine ⟨some dest, ?_⟩
    rw [(hsound.found hredialled hfd).1]
    exact List.mem_singleton_self fd

end Steps

/-- **The carbon backend keeps its sockets apart**: whatever its system calls return
and whatever descriptors other threads open and close in between, each call of it
meets the socket it is meant for, and between two flushes the open sockets are those
of the connections. -/
theorem sound_of_run (table : ℕ → Option Descriptor)
    (htable : ∀ fd peer, table fd ≠ some (.stream peer)) (as : List SocketAction) {s : Sockets}
    (hrun : Transition.run step { table } as = some s) :
    s.Sound ∧ (s.pc = .idle ∨ s.pc = .destroying →
      ∀ fd, s.IsStream fd ↔ ∃ dest, s.sockfd dest = some fd) := by
  have hsound : s.Sound := Transition.run_induction (I := fun _ s => s.Sound) (sound_init htable)
    (fun _ _ _ _ hsound hstep => hsound.step hstep) hrun
  exact ⟨hsound, fun hpc fd => hsound.stream_iff hpc fd⟩

/-- The standard streams. -/
def standardTable (fd : ℕ) : Option Descriptor := if fd < 3 then some .foreign else none

theorem standardTable_ne (fd : ℕ) (peer : Option Hostport) :
    standardTable fd ≠ some (.stream peer) := by
  rw [standardTable]
  split_ifs <;> simp

/-- The peer hangs up, and another thread gets the number of the old socket before
there is a new one. -/
def reusedRun : List SocketAction :=
  [.flush [(⟨Bytes.ascii "a", 2003⟩, ⟨Bytes.ascii "x", by decide⟩)], .find, .resolve 1 false,
   .socket (some 3), .setsockopt, .connect true, .write .failed, .poll 0x10, .close,
   .foreignOpen 3, .resolve 0 true, .socket (some 4), .setsockopt, .connect true,
   .write (.returned 1), .find]

theorem sound_of_run_reusedRun :
    ∃ s, Transition.run step { table := standardTable } reusedRun = some s ∧
      s.table 3 = some .foreign ∧ s.table 4 = some (.stream (some ⟨Bytes.ascii "a", 2003⟩)) ∧
      s.Sound ∧ (s.pc = .idle ∨ s.pc = .destroying →
        ∀ fd, s.IsStream fd ↔ ∃ dest, s.sockfd dest = some fd) := by
  refine ⟨_, rfl, rfl, rfl, ?_⟩
  exact sound_of_run standardTable standardTable_ne reusedRun rfl

end Sockets

end Statsdcc
