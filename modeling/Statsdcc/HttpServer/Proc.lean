import Mathlib
import Statsdcc.Lib.JsonWrite
import Statsdcc.Lib.Printed

/-!
# The page of the threads

`HttpServer::get_proc_status` reads the file `status` of each thread under `/proc` into
one object, which it copies to the page and does not clear before the next file. The
threads are numbered in their groups: servers, workers and, in the aggregator, the
clock. `Boost` has the functions on strings that `read_status` calls.

## Main definitions

- `HttpServer.readStatus` — the fields of one file
- `HttpServer.getProcStatus`, `HttpServer.getProxyProcStatus` — the object of the page
- `HttpServer.lastValue` — the last value of a key in some files
- `HttpServer.Shows`, `HttpServer.PageShows` — what the page shows

## Main results

- `HttpServer.lookup_readLines` — what is found under a key behind a file
- `HttpServer.proc_status_shows` — what is found on the pages of both programs
-/

open Bytes JsonDocument

namespace Statsdcc

namespace HttpServer

/-- The functions of the library on strings. -/
structure Boost where
  /-- `boost::split(pieces, line, boost::is_any_of(separators))` -/
  split : Bytes → Bytes → List Bytes
  trimRightCopy : Bytes → Bytes
  trimLeftCopy : Bytes → Bytes
  /-- `boost::replace_all(value, search, format)` -/
  replaceAll : Bytes → Bytes → Bytes → Bytes

/-- The files of `/proc`. -/
structure ProcFiles where
  /-- The text of a file; `none` when it does not open. -/
  text : Bytes → Option Bytes
  opendir : Bytes → Bool

def tab : Byte := 9

/-- The key and the value of a line with one colon. -/
def statusField (boost : Boost) (line : Bytes) : Option (Bytes × Bytes) :=
  match boost.split (ascii ":") line with
  | [key, value] =>
    some (boost.trimRightCopy key,
      boost.replaceAll (boost.trimLeftCopy value) [tab] (ascii "    "))
  | _ => none

section Program

variable {V : Type} [JsonDocument V]

/-- The loop body of `read_status`. -/
def readLine (boost : Boost) (keys : List Bytes) (status : V) (line : Bytes) : V :=
  match statusField boost line with
  | some (key, value) =>
    if keys ≠ [] ∧ key ∉ keys then status else set status key (JsonValue.ofString value)
  | none => status

def readLines (boost : Boost) (keys : List Bytes) (status : V) (text : Bytes) : V :=
  (getlines text).foldl (readLine boost keys) status

/-- `read_status`; `none` is `false`. -/
def readStatus (boost : Boost) (files : ProcFiles) (path : Bytes) (keys : List Bytes)
    (status : V) : Option V :=
  (files.text path).map (readLines boost keys status)

variable (V) in
/-- The variables of `get_proc_status`. -/
structure ProcStatus where
  root : V := null
  threadsStatus : V := null
  id : ℕ := 0
  success : ℕ := 0
  fail : ℕ := 0

def mainPath (mainPid : ℤ) : Bytes := ascii "/proc/" ++ intText mainPid ++ ascii "/status"

def statusPath (pathPrefix : Bytes) (tid : ℤ) : Bytes :=
  pathPrefix ++ intText tid ++ ascii "/status"

/-- `path_prefix` -/
def pathPrefix (files : ProcFiles) (mainPid : ℤ) : Bytes :=
  let tasks := ascii "/proc/" ++ intText mainPid ++ ascii "/task/"
  if files.opendir tasks then tasks else ascii "/proc/"

/-- The main thread, which is not counted when its file is read. -/
def readMain (boost : Boost) (files : ProcFiles) (keys : List Bytes) (mainPid : ℤ) :
    ProcStatus V :=
  match readStatus boost files (mainPath mainPid) keys null with
  | some status =>
    { root := assign null [ascii "threads", ascii "main"] status, threadsStatus := status }
  | none => { fail := 1 }

/-- The loop body for a thread of a group. -/
def readThread (boost : Boost) (files : ProcFiles) (keys : List Bytes) (mainPid : ℤ)
    (group : Bytes) (s : ProcStatus V) (tid : ℤ) : ProcStatus V :=
  match readStatus boost files (statusPath (pathPrefix files mainPid) tid) keys
      s.threadsStatus with
  | some status =>
    { s with
      root := assign s.root [ascii "threads", group, natText (s.id + 1)] status
      threadsStatus := status
      id := s.id + 1
      success := s.success + 1 }
  | none => { s with fail := s.fail + 1 }

/-- The loop over the threads of a group. -/
def readGroup (boost : Boost) (files : ProcFiles) (keys : List Bytes) (mainPid : ℤ)
    (s : ProcStatus V) (group : Bytes × List ℤ) : ProcStatus V :=
  group.2.foldl (readThread boost files keys mainPid group.1) { s with id := 0 }

/-- `request_status` -/
def requestStatus (s : ProcStatus V) : V :=
  let json := assign null [ascii "total"] (JsonValue.ofInt (.ofNat (s.success + s.fail)))
  let json := assign json [ascii "success"] (JsonValue.ofInt (.ofNat s.success))
  assign json [ascii "failed"] (JsonValue.ofInt (.ofNat s.fail))

/-- The page for some groups of threads. -/
def procStatus (boost : Boost) (files : ProcFiles) (keys : List Bytes) (mainPid : ℤ)
    (groups : List (Bytes × List ℤ)) : V :=
  let s := groups.foldl (readGroup boost files keys mainPid) (readMain boost files keys mainPid)
  assign s.root [ascii "status"] (requestStatus s)

/-- `get_proc_status` of the aggregator, `none` when it reads the id of a thread that has
not stored it yet. -/
def getProcStatus (boost : Boost) (files : ProcFiles) (keys : List Bytes) (mainPid : ℤ)
    (servers workers : List (List ℤ)) (clock : List ℤ) : Option V := do
  let workers ← workers.mapM List.head?
  let clock ← clock.head?
  return procStatus boost files keys mainPid
    [(ascii "servers", servers.flatten), (ascii "workers", workers), (ascii "clock", [clock])]

/-- `get_proc_status` of the proxy. -/
def getProxyProcStatus (boost : Boost) (files : ProcFiles) (keys : List Bytes) (mainPid : ℤ)
    (servers : List (List ℤ)) (workers : List ℤ) : V :=
  procStatus boost files keys mainPid
    [(ascii "servers", servers.flatten), (ascii "workers", workers)]

end Program

-- ════════════════════════════════════════════════════════════════════════
-- The fields of a file
-- ════════════════════════════════════════════════════════════════════════

/-- The last value of a key in some texts, if the key is asked for. -/
def lastValue (boost : Boost) (keys : List Bytes) (k : Bytes) (texts : List Bytes) :
    Option Bytes :=
  if keys ≠ [] ∧ k ∉ keys then none
  else ((texts.flatMap getlines).filterMap (statusField boost)).reverse.lookup k

theorem lastValue_append (boost : Boost) (keys : List Bytes) (k : Bytes)
    (texts texts' : List Bytes) :
    lastValue boost keys k (texts ++ texts') =
      (lastValue boost keys k texts').or (lastValue boost keys k texts) := by
  rw [lastValue, lastValue, lastValue]
  split_ifs
  · rfl
  · rw [List.flatMap_append, List.filterMap_append, List.reverse_append, List.lookup_append]

section Fields

variable {V : Type} [JsonDocument V] {boost : Boost} {keys : List Bytes} {status : V}

theorem container_readLine (h : Container status) (line : Bytes) :
    Container (readLine boost keys status line) := by
  rw [readLine]
  split
  · split_ifs
    · exact h
    · exact container_set h _ _
  · exact h

theorem container_foldl_readLine (h : Container status) (lines : List Bytes) :
    Container (lines.foldl (readLine boost keys) status) := by
  induction lines generalizing status with
  | nil => exact h
  | cons line lines ih => exact ih (container_readLine h line)

theorem container_readLines (h : Container status) (text : Bytes) :
    Container (readLines boost keys status text) :=
  container_foldl_readLine h _

/-- What is found under a key behind some lines. -/
theorem lookup_foldl_readLine (h : Container status) (k : Bytes) (lines : List Bytes) :
    lookup (lines.foldl (readLine boost keys) status) k =
      ((if keys ≠ [] ∧ k ∉ keys then none
        else (lines.filterMap (statusField boost)).reverse.lookup k).map JsonValue.ofString).or
        (lookup status k) := by
  induction lines generalizing status with
  | nil => split_ifs <;> rfl
  | cons line lines ih =>
    rw [List.foldl_cons, ih (container_readLine h line), readLine]
    cases hfield : statusField boost line with
    | none => rw [List.filterMap_cons_none hfield]
    | some field =>
      obtain ⟨key, value⟩ := field
      rw [List.filterMap_cons_some hfield, List.reverse_cons, List.lookup_append]
      by_cases hk : k = key
      · subst hk
        by_cases hasked : keys ≠ [] ∧ k ∉ keys
        · simp only [if_pos hasked]
        · simp only [if_neg hasked, lookup_set h, if_true, List.lookup_cons_self]
          cases (lines.filterMap (statusField boost)).reverse.lookup k <;> rfl
      · have hnone : [(key, value)].lookup k = none := by
          rw [List.lookup_cons, beq_false_of_ne hk]
          rfl
        have hsame : ∀ skip : Prop, [Decidable skip] →
            lookup (if skip then status else set status key (JsonValue.ofString value)) k =
              lookup status k := by
          intro skip _
          split_ifs
          · rfl
          · rw [lookup_set h, if_neg hk]
        rw [hnone, Option.or_none]
        exact congrArg _ (hsame _)

/-- Behind a file a key has the last value in the file, or the value it had before. -/
theorem lookup_readLines (h : Container status) (k text : Bytes) :
    lookup (readLines boost keys status text) k =
      ((lastValue boost keys k [text]).map JsonValue.ofString).or (lookup status k) := by
  rw [readLines, lookup_foldl_readLine h, lastValue, List.flatMap_singleton]

theorem container_foldl_readLines (h : Container status) (texts : List Bytes) :
    Container (texts.foldl (readLines boost keys) status) := by
  induction texts generalizing status with
  | nil => exact h
  | cons text texts ih => exact ih (container_readLines h text)

theorem lookup_foldl_readLines (h : Container status) (k : Bytes) (texts : List Bytes) :
    lookup (texts.foldl (readLines boost keys) status) k =
      ((lastValue boost keys k texts).map JsonValue.ofString).or (lookup status k) := by
  induction texts using List.reverseRecOn with
  | nil =>
    rw [lastValue]
    split_ifs <;> rfl
  | append_singleton texts text ih =>
    rw [List.foldl_concat, lookup_readLines (container_foldl_readLines h texts), ih,
      lastValue_append, ← Option.or_assoc]
    cases lastValue boost keys k [text] <;> rfl

end Fields

-- ════════════════════════════════════════════════════════════════════════
-- The threads of a group
-- ════════════════════════════════════════════════════════════════════════

/-- The texts of the files that can be read, in the order of the threads. -/
def texts (files : ProcFiles) (mainPid : ℤ) (tids : List ℤ) : List Bytes :=
  tids.filterMap fun tid => files.text (statusPath (pathPrefix files mainPid) tid)

/-- The texts of some groups. -/
def groupTexts (files : ProcFiles) (mainPid : ℤ) (groups : List (Bytes × List ℤ)) : List Bytes :=
  groups.flatMap fun group => texts files mainPid group.2

section Loop

variable {V : Type} [JsonDocument V]

/-- What the page has for a group. -/
def groupObject (root : V) (group : Bytes) : V := child (child root (ascii "threads")) group

/-- What it has for the thread with a number in the group. -/
def shown (root : V) (group : Bytes) (number : ℕ) : Option V :=
  lookup (groupObject root group) (natText number)

/-- A page that can be given the threads of a group. -/
structure Writable (root : V) (group : Bytes) : Prop where
  page : Container root
  threads : Container (child root (ascii "threads"))
  members : Container (groupObject root group)

variable {boost : Boost} {files : ProcFiles} {keys : List Bytes} {mainPid : ℤ} {root : V}
  {group group' : Bytes}

theorem Writable.groupObject_assign (h : Writable root group) (path : List Bytes) (status : V) :
    groupObject (assign root (ascii "threads" :: group :: path) status) group =
      assign (groupObject root group) path status := by
  rw [groupObject, assign, child_update h.page, child_update h.threads]
  rfl

theorem Writable.groupObject_assign_of_ne (h : Writable root group) (hne : group' ≠ group)
    (path : List Bytes) (status : V) :
    groupObject (assign root (ascii "threads" :: group :: path) status) group' =
      groupObject root group' := by
  rw [groupObject, assign, child_update h.page, child_update_of_ne h.threads hne, groupObject]

theorem Writable.assign (h : Writable root group) (hgroup : Writable root group') (number : ℕ)
    (status : V) :
    Writable (JsonDocument.assign root [ascii "threads", group, natText number] status)
      group' := by
  refine ⟨container_assign h.page _ _ _, ?_, ?_⟩
  · rw [JsonDocument.assign, child_update h.page]
    exact container_update h.threads _ _ _
  · by_cases hne : group' = group
    · subst hne
      rw [h.groupObject_assign]
      exact container_assign h.members _ _ _
    · rw [h.groupObject_assign_of_ne hne]
      exact hgroup.members

theorem Writable.shown_assign (h : Writable root group) (number n : ℕ) (status : V) :
    shown (JsonDocument.assign root [ascii "threads", group, natText number] status) group n =
      if n = number then some status else shown root group n := by
  rw [shown, h.groupObject_assign]
  by_cases hn : n = number
  · rw [hn, lookup_assign_self h.members, if_pos rfl]
  · rw [lookup_assign h.members fun heq => hn (natText_injective heq), if_neg hn, shown]

/-- What a loop over threads has done, when nothing was shown for the numbers to come. -/
structure Looped (boost : Boost) (files : ProcFiles) (keys : List Bytes) (mainPid : ℤ)
    (group : Bytes) (tids : List ℤ) (s s' : ProcStatus V) : Prop where
  writable : ∀ group', Writable s.root group' → Writable s'.root group'
  threadsStatus : s'.threadsStatus =
    (texts files mainPid tids).foldl (readLines boost keys) s.threadsStatus
  success : s'.success = s.success + (texts files mainPid tids).length
  fail : s'.fail + (texts files mainPid tids).length = s.fail + tids.length
  others : ∀ group', group' ≠ group → groupObject s'.root group' = groupObject s.root group'
  front : ∀ n, n ≤ s.id → shown s'.root group n = shown s.root group n
  back : ∀ n, shown s'.root group (s.id + 1 + n) =
    if n < (texts files mainPid tids).length then
      some (((texts files mainPid tids).take (n + 1)).foldl (readLines boost keys)
        s.threadsStatus)
    else shown s.root group (s.id + 1 + n)

theorem looped_readThreads (tids : List ℤ) {s : ProcStatus V} (hs : Writable s.root group) :
    Looped boost files keys mainPid group tids s
      (tids.foldl (readThread boost files keys mainPid group) s) := by
  induction tids generalizing s with
  | nil => exact ⟨fun _ => id, rfl, rfl, rfl, fun _ _ => rfl, fun _ _ => rfl, fun _ => rfl⟩
  | cons tid tids ih =>
    rw [List.foldl_cons]
    cases htext : files.text (statusPath (pathPrefix files mainPid) tid) with
    | none =>
      have htexts : texts files mainPid (tid :: tids) = texts files mainPid tids :=
        List.filterMap_cons_none htext
      have hread : readThread boost files keys mainPid group s tid =
          { s with fail := s.fail + 1 } := by
        rw [readThread, readStatus, htext]
        rfl
      rw [hread]
      have h := ih (s := { s with fail := s.fail + 1 }) hs
      refine ⟨h.writable, ?_, ?_, ?_, h.others, h.front, ?_⟩
      · rw [htexts]
        exact h.threadsStatus
      · rw [htexts]
        exact h.success
      · rw [htexts, h.fail, List.length_cons]
        show s.fail + 1 + tids.length = s.fail + (tids.length + 1)
        omega
      · rw [htexts]
        exact h.back
    | some text =>
      have htexts : texts files mainPid (tid :: tids) = text :: texts files mainPid tids :=
        List.filterMap_cons_some htext
      let status := readLines boost keys s.threadsStatus text
      let next : ProcStatus V := { s with
        root := JsonDocument.assign s.root [ascii "threads", group, natText (s.id + 1)] status
        threadsStatus := status
        id := s.id + 1
        success := s.success + 1 }
      have hread : readThread boost files keys mainPid group s tid = next := by
        rw [readThread, readStatus, htext]
        rfl
      rw [hread]
      have h := ih (s := next) (hs.assign hs _ _)
      refine ⟨fun group' hgroup => h.writable group' (hs.assign hgroup _ _), ?_, ?_, ?_,
        fun group' hgroup => ?_, fun n hn => ?_, fun n => ?_⟩
      · rw [htexts]
        exact h.threadsStatus
      · rw [htexts, h.success, List.length_cons]
        show s.success + 1 + _ = _
        omega
      · have hfail := h.fail
        rw [htexts, List.length_cons, List.length_cons]
        show _ + (_ + 1) = s.fail + _
        have hsame : next.fail = s.fail := rfl
        omega
      · rw [h.others group' hgroup, hs.groupObject_assign_of_ne hgroup]
      · rw [h.front n (Nat.le_succ_of_le hn), hs.shown_assign, if_neg (by omega)]
      · rw [htexts, List.length_cons]
        cases n with
        | zero =>
          rw [if_pos (Nat.succ_pos _), Nat.add_zero, h.front (s.id + 1) (Nat.le_refl _),
            hs.shown_assign, if_pos rfl]
          rfl
        | succ n =>
          have hback := h.back n
          have hid : next.id + 1 + n = s.id + 1 + (n + 1) := by
            show s.id + 1 + 1 + n = _
            omega
          have hother : shown next.root group (s.id + 1 + (n + 1)) =
              shown s.root group (s.id + 1 + (n + 1)) := by
            rw [hs.shown_assign, if_neg (by omega)]
          rw [hid, hother] at hback
          rw [hback]
          exact if_congr Nat.succ_lt_succ_iff.symm rfl rfl

/-- What the loops over some groups have done. -/
structure LoopedGroups (boost : Boost) (files : ProcFiles) (keys : List Bytes) (mainPid : ℤ)
    (groups : List (Bytes × List ℤ)) (s s' : ProcStatus V) : Prop where
  writable : ∀ group', Writable s.root group' → Writable s'.root group'
  success : s'.success = s.success + (groupTexts files mainPid groups).length
  fail : s'.fail + (groupTexts files mainPid groups).length =
    s.fail + (groups.flatMap Prod.snd).length
  others : ∀ group, group ∉ groups.map Prod.fst →
    groupObject s'.root group = groupObject s.root group
  shown : ∀ front group back, groups = front ++ group :: back → ∀ n,
    shown s'.root group.1 (n + 1) =
      if n < (texts files mainPid group.2).length then
        some ((groupTexts files mainPid front ++ (texts files mainPid group.2).take (n + 1)).foldl
          (readLines boost keys) s.threadsStatus)
      else shown s.root group.1 (n + 1)

theorem loopedGroups_readGroups {groups : List (Bytes × List ℤ)}
    (hnames : (groups.map Prod.fst).Nodup) {s : ProcStatus V}
    (hs : ∀ group ∈ groups, Writable s.root group.1) :
    LoopedGroups boost files keys mainPid groups s
      (groups.foldl (readGroup boost files keys mainPid) s) := by
  induction groups generalizing s with
  | nil =>
    refine ⟨fun _ => id, rfl, rfl, fun _ _ => rfl, fun front group back hgroups => ?_⟩
    cases front <;> cases hgroups
  | cons group groups ih =>
    obtain ⟨hnot, hnames'⟩ := List.nodup_cons.mp hnames
    obtain ⟨hfirst, hothers⟩ := List.forall_mem_cons.mp hs
    have hone : Looped boost files keys mainPid group.1 group.2 { s with id := 0 }
        (readGroup boost files keys mainPid s group) :=
      looped_readThreads group.2 (s := { s with id := 0 }) hfirst
    have h := ih hnames' (s := readGroup boost files keys mainPid s group)
      fun other hmem => hone.writable other.1 (hothers other hmem)
    have htexts : groupTexts files mainPid (group :: groups) =
        texts files mainPid group.2 ++ groupTexts files mainPid groups := List.flatMap_cons
    rw [List.foldl_cons]
    constructor
    case writable => exact fun group' hgroup => h.writable group' (hone.writable group' hgroup)
    case success =>
      rw [h.success, hone.success, htexts, List.length_append]
      exact Nat.add_assoc _ _ _
    case fail =>
      have hfirst := hone.fail
      have hrest := h.fail
      rw [htexts, List.length_append, List.flatMap_cons, List.length_append]
      dsimp only at hfirst
      omega
    case others =>
      intro name hname
      rw [List.map_cons, List.mem_cons, not_or] at hname
      rw [h.others name hname.2, hone.others name hname.1]
    case shown =>
      intro front group' back hgroups n
      cases front with
      | nil =>
        obtain ⟨rfl, rfl⟩ := List.cons.inj hgroups
        have hback := hone.back n
        rw [Nat.zero_add, Nat.add_comm 1 n] at hback
        rw [HttpServer.shown, h.others group.1 hnot]
        exact hback
      | cons first front =>
        obtain ⟨rfl, rfl⟩ := List.cons.inj hgroups
        have hne : group'.1 ≠ group.1 := by
          rintro heq
          refine hnot (heq ▸ List.mem_map_of_mem ?_)
          exact List.mem_append_right _ List.mem_cons_self
        have hsame : HttpServer.shown (readGroup boost files keys mainPid s group).root group'.1
            (n + 1) = HttpServer.shown s.root group'.1 (n + 1) := by
          rw [HttpServer.shown, hone.others _ hne, HttpServer.shown]
        have hthreads : groupTexts files mainPid (group :: front) =
            texts files mainPid group.2 ++ groupTexts files mainPid front := List.flatMap_cons
        rw [h.shown front group' back rfl n, hone.threadsStatus, hsame, hthreads,
          List.append_assoc, List.foldl_append (l := texts files mainPid group.2)]

-- ════════════════════════════════════════════════════════════════════════
-- The page
-- ════════════════════════════════════════════════════════════════════════

/-- What the page shows of the threads of a group: those whose files could be read, with
numbers from one on. For each key a thread has the last value in its own file or, if
there is none, the last one in the files read before. -/
structure Shows (boost : Boost) (keys : List Bytes) (earlier texts : List Bytes) (group : V) :
    Prop where
  thread : ∀ (n : ℕ) (text : Bytes), texts[n]? = some text →
    ∃ thread, lookup group (natText (n + 1)) = some thread ∧
      ∀ k, lookup thread k = ((lastValue boost keys k [text]).or
        (lastValue boost keys k (earlier ++ texts.take n))).map JsonValue.ofString
  rest : ∀ n, texts.length ≤ n → lookup group (natText (n + 1)) = none

/-- What the page shows when no thread of a group was on it before. -/
theorem shows_of_shown {earlier texts : List Bytes} {status : V} (hcontainer : Container status)
    (hstatus : ∀ k, lookup status k = (lastValue boost keys k earlier).map JsonValue.ofString)
    {before : List Bytes}
    (hshown : ∀ n, shown root group (n + 1) = if n < texts.length then
      some ((before ++ texts.take (n + 1)).foldl (readLines boost keys) status) else none) :
    Shows boost keys (earlier ++ before) texts (groupObject root group) := by
  constructor
  case thread =>
    intro n text htext
    have hlt := (List.getElem?_eq_some_iff.mp htext).1
    refine ⟨_, (hshown n).trans (if_pos hlt), fun k => ?_⟩
    have htake : texts.take (n + 1) = texts.take n ++ [text] := by
      rw [List.take_add_one, htext]
      rfl
    rw [lookup_foldl_readLines hcontainer, hstatus, htake, ← List.append_assoc, lastValue_append,
      List.append_assoc, lastValue_append boost keys k earlier, ← Option.map_or, Option.or_assoc]
  case rest =>
    intro n hn
    exact (hshown n).trans (if_neg (Nat.not_lt.mpr hn))

/-- What the page shows: the fields of the main thread, each group as `Shows` says, where
the files read before are those of the main thread, of the groups before and of the
threads before in the group; and how many files could be read and how many not, the main
thread among these only if it could not. -/
structure PageShows (boost : Boost) (files : ProcFiles) (keys : List Bytes) (mainPid : ℤ)
    (groups : List (Bytes × List ℤ)) (page : V) : Prop where
  main : ∀ k, lookup (groupObject page (ascii "main")) k =
    (lastValue boost keys k (files.text (mainPath mainPid)).toList).map JsonValue.ofString
  threads : ∀ front group back, groups = front ++ group :: back →
    Shows boost keys ((files.text (mainPath mainPid)).toList ++ groupTexts files mainPid front)
      (texts files mainPid group.2) (groupObject page group.1)
  counts : ∃ success fail : ℕ, success = (groupTexts files mainPid groups).length ∧
    (files.text (mainPath mainPid)).toList.length + success + fail =
      1 + (groups.flatMap Prod.snd).length ∧
    lookup (child page (ascii "status")) (ascii "success") =
      some (JsonValue.ofInt (.ofNat success)) ∧
    lookup (child page (ascii "status")) (ascii "failed") =
      some (JsonValue.ofInt (.ofNat fail)) ∧
    lookup (child page (ascii "status")) (ascii "total") =
      some (JsonValue.ofInt (.ofNat (success + fail)))

theorem writable_null (group : Bytes) : Writable (null : V) group := by
  refine ⟨container_null, ?_, ?_⟩
  · rw [child_null]
    exact container_null
  · rw [groupObject, child_null, child_null]
    exact container_null

/-- The main thread, before all others. -/
theorem readMain_spec (boost : Boost) (files : ProcFiles) (keys : List Bytes) (mainPid : ℤ) :
    let s : ProcStatus V := readMain boost files keys mainPid
    let main := (files.text (mainPath mainPid)).toList
    s.success = 0 ∧ s.fail + main.length = 1 ∧ Container s.threadsStatus ∧
      (∀ k, lookup s.threadsStatus k = (lastValue boost keys k main).map JsonValue.ofString) ∧
      groupObject s.root (ascii "main") = s.threadsStatus ∧
      ∀ group, group ≠ ascii "main" → Writable s.root group ∧ groupObject s.root group = null := by
  intro s main
  have hnull : ∀ group, groupObject (null : V) group = null := by
    intro group
    rw [groupObject, child_null, child_null]
  cases htext : files.text (mainPath mainPid) with
  | none =>
    have hs : s = { fail := 1 } := by
      show readMain boost files keys mainPid = _
      rw [readMain, readStatus, htext]
      rfl
    have hmain : main = [] := congrArg Option.toList htext
    rw [hs, hmain]
    refine ⟨rfl, rfl, container_null, fun k => ?_, hnull _, fun group _ =>
      ⟨writable_null group, hnull group⟩⟩
    rw [lookup_null, lastValue]
    split_ifs <;> rfl
  | some text =>
    have hs : s = { root := JsonDocument.assign null [ascii "threads", ascii "main"]
                      (readLines boost keys null text)
                    threadsStatus := readLines boost keys null text } := by
      show readMain boost files keys mainPid = _
      rw [readMain, readStatus, htext]
      rfl
    have hmain : main = [text] := congrArg Option.toList htext
    have hwritable := writable_null (V := V) (ascii "main")
    rw [hs, hmain]
    refine ⟨rfl, rfl, container_readLines container_null text, fun k => ?_, ?_,
      fun group hgroup => ⟨⟨container_assign container_null _ _ _, ?_, ?_⟩, ?_⟩⟩
    · show lookup (readLines boost keys null text) k = _
      rw [lookup_readLines container_null, lookup_null, Option.or_none]
    · exact hwritable.groupObject_assign [] _
    · rw [JsonDocument.assign, child_update container_null]
      exact container_update hwritable.threads _ _ _
    · rw [hwritable.groupObject_assign_of_ne hgroup, hnull]
      exact container_null
    · rw [hwritable.groupObject_assign_of_ne hgroup, hnull]

/-- The object of the counts. -/
theorem lookup_requestStatus (s : ProcStatus V) :
    lookup (requestStatus s) (ascii "success") = some (JsonValue.ofInt (.ofNat s.success)) ∧
      lookup (requestStatus s) (ascii "failed") = some (JsonValue.ofInt (.ofNat s.fail)) ∧
      lookup (requestStatus s) (ascii "total") =
        some (JsonValue.ofInt (.ofNat (s.success + s.fail))) := by
  simp (disch := first | decide | repeat first | exact container_null | apply container_assign) only
    [requestStatus, lookup_assign, lookup_assign_self, and_self]

theorem pageShows_procStatus (boost : Boost) (files : ProcFiles) (keys : List Bytes)
    (mainPid : ℤ) (groups : List (Bytes × List ℤ))
    (hnames : (ascii "main" :: groups.map Prod.fst).Nodup) :
    PageShows boost files keys mainPid groups
      (procStatus boost files keys mainPid groups : V) := by
  obtain ⟨hnot, hnames'⟩ := List.nodup_cons.mp hnames
  obtain ⟨hsuccess, hfail, hcontainer, hstatus, hmain, hothers⟩ :=
    readMain_spec (V := V) boost files keys mainPid
  have hname : ∀ group ∈ groups, group.1 ≠ ascii "main" := by
    rintro group hmem heq
    exact hnot (heq ▸ List.mem_map_of_mem hmem)
  have h : LoopedGroups boost files keys mainPid groups (readMain boost files keys mainPid : _)
      (groups.foldl (readGroup boost files keys mainPid)
        (readMain boost files keys mainPid : ProcStatus V)) :=
    loopedGroups_readGroups hnames' fun group hmem => (hothers _ (hname group hmem)).1
  generalize hloop : groups.foldl (readGroup boost files keys mainPid)
    (readMain boost files keys mainPid : ProcStatus V) = s at h
  have hroot : Container s.root :=
    (h.writable (ascii "status") (hothers _ (by decide)).1).page
  have hpage : (procStatus boost files keys mainPid groups : V) =
      JsonDocument.assign s.root [ascii "status"] (requestStatus s) := by
    rw [procStatus, hloop]
  have hgroup : ∀ group, groupObject (procStatus boost files keys mainPid groups : V) group =
      groupObject s.root group := by
    intro group
    rw [hpage, groupObject, JsonDocument.assign, child_update_of_ne hroot (by decide),
      groupObject]
  constructor
  case main =>
    intro k
    rw [hgroup, h.others _ hnot, hmain, hstatus]
  case threads =>
    intro front group back hgroups
    have hmem : group ∈ groups := hgroups ▸ List.mem_append_right _ List.mem_cons_self
    rw [hgroup]
    refine shows_of_shown hcontainer hstatus fun n => ?_
    rw [h.shown front group back hgroups n, shown, (hothers _ (hname group hmem)).2, lookup_null]
  case counts =>
    obtain ⟨hread, hunread, htotal⟩ := lookup_requestStatus s
    have hcount := h.fail
    refine ⟨s.success, s.fail, ?_, ?_, ?_⟩
    · rw [h.success, hsuccess, Nat.zero_add]
    · rw [h.success, hsuccess]
      omega
    · rw [hpage, JsonDocument.assign, child_update hroot]
      exact ⟨hread, hunread, htotal⟩

end Loop

/-- **What the page of the threads shows** in both programs; the aggregator can make it
when its workers and its clock have stored their ids. -/
theorem proc_status_shows {V : Type} [JsonDocument V] (boost : Boost) (files : ProcFiles)
    (keys : List Bytes) (mainPid : ℤ) (servers : List (List ℤ)) :
    (∀ workers clock tids tid, workers.mapM List.head? = some tids →
      List.head? clock = some tid →
        ∃ page : V, getProcStatus boost files keys mainPid servers workers clock = some page ∧
          PageShows boost files keys mainPid [(ascii "servers", servers.flatten),
            (ascii "workers", tids), (ascii "clock", [tid])] page) ∧
    ∀ workers, PageShows boost files keys mainPid
      [(ascii "servers", servers.flatten), (ascii "workers", workers)]
      (getProxyProcStatus boost files keys mainPid servers workers : V) := by
  refine ⟨fun workers clock tids tid hworkers hclock => ?_, fun workers => ?_⟩
  · refine ⟨_, ?_, pageShows_procStatus boost files keys mainPid _ (by
      simp only [List.map_cons, List.map_nil]
      decide)⟩
    rw [getProcStatus, hworkers, hclock]
    rfl
  · exact pageShows_procStatus boost files keys mainPid _ (by
      simp only [List.map_cons, List.map_nil]
      decide)

/-- The functions on strings, where a single character is replaced. -/
def plainBoost : Boost where
  split separators line := line.splitOnP fun c => decide (c ∈ separators)
  trimRightCopy key := key.rdropWhile isSpace
  trimLeftCopy value := value.dropWhile isSpace
  replaceAll value search format := value.flatMap fun c => if [c] = search then format else [c]

/-- Two threads can be read, the second without the field of the first, and one cannot. -/
def fewFiles : ProcFiles where
  text path :=
    if path = ascii "/proc/7/task/8/status" then
      some (ascii "State:\tS (sleeping)\nVmSwap:\t0 kB\n")
    else if path = ascii "/proc/7/task/9/status" then some (ascii "State:\tR (running)\n")
    else none
  opendir path := path = ascii "/proc/7/task/"

/-- The worker has the field of the server. -/
example : ((shown (getProxyProcStatus plainBoost fewFiles [ascii "VmSwap"] 7 [[8]] [9] : Json)
    (ascii "workers") 1).map (·.members.map Prod.fst)) = some [ascii "VmSwap"] := by
  decide

theorem proc_status_shows_fewFiles :
    (∃ page : Json, getProcStatus plainBoost fewFiles [ascii "VmSwap"] 7 [[8], []] [[9]] [10] =
        some page ∧ PageShows plainBoost fewFiles [ascii "VmSwap"] 7 [(ascii "servers", [8]),
          (ascii "workers", [9]), (ascii "clock", [10])] page) ∧
      PageShows plainBoost fewFiles [ascii "VmSwap"] 7
        [(ascii "servers", [8]), (ascii "workers", [9])]
        (getProxyProcStatus plainBoost fewFiles [ascii "VmSwap"] 7 [[8], []] [9] : Json) :=
  have h := proc_status_shows plainBoost fewFiles [ascii "VmSwap"] 7 [[8], []]
  ⟨h.1 [[9]] [10] [9] 10 rfl rfl, h.2 [9]⟩

end HttpServer

end Statsdcc
