import Mathlib
import Statsdcc.Ledger.WellFormed

/-!
# The shape of accepted lines

What can be said of a line that `buffer` does not count as bad, and which of the
ledger's maps it has changed.

## Main results

- `acceptedLine_of_buffer` — an accepted line has a name, a value, and a type
  field that decides which map is updated
- `accepted_not_documented` — it need not have one of the documented types
-/

open Bytes

namespace Statsdcc

variable {R : Type}

/-- Both ledgers have the same map of the type. -/
def Ledger.SameMap (l l' : Ledger R) : MetricType → Prop
  | .counter => l.counters = l'.counters
  | .timer => l.timers = l'.timers ∧ l.timerCounters = l'.timerCounters
  | .gauge => l.gauges = l'.gauges
  | .set => l.sets = l'.sets

/-- The type that a type field stands for: the one it begins with behind its
blanks, and a counter if it begins with none. -/
def fieldType (field : Bytes) : MetricType :=
  let trimmed := field.dropWhile (· = space)
  if (ascii "ms").isPrefixOf trimmed then .timer
  else if (ascii "c").isPrefixOf trimmed then .counter
  else if (ascii "g").isPrefixOf trimmed then .gauge
  else if (ascii "s").isPrefixOf trimmed then .set
  else .counter

/-- The line consists of a name, a value, a type field of one or two characters
that stands for `type`, and a rest. -/
structure AcceptedLine (metric name value field rest : Bytes) (type : MetricType) : Prop where
  text_eq : metric = name ++ colon :: (value ++ bar :: (field ++ rest))
  name_ok : name ≠ [] ∧ colon ∉ name ∧ name.length ≤ maxTokenStringLength
  value_ok : value ≠ [] ∧ bar ∉ value ∧ value.length ≤ maxTokenStringLength
  field_ok : field.dropWhile (· = space) ≠ [] ∧ bar ∉ field ∧ field.length ≤ 2
  field_end : field.length = 2 ∨ rest = [] ∨ rest.head? = some bar
  type_eq : fieldType field = type
  number : type ≠ .set → NumberText value

section

variable [CDouble R]

/-- The type and the value of a line that passes the tests. -/
theorem checkLine_eq_some {cast : Bytes → Option R} {field value : Bytes} {type : MetricType}
    {x : R} (h : checkLine cast (field.dropWhile (· = space)) value = some (type, x)) :
    field.dropWhile (· = space) ≠ [] ∧ fieldType field = type ∧
      (type ≠ .set → cast value = some x) := by
  have hmap : ∀ t : MetricType, (cast value).map (t, ·) = some (type, x) →
      t = type ∧ cast value = some x := by
    intro t ht
    obtain ⟨y, hy, heq⟩ := Option.map_eq_some_iff.mp ht
    cases heq
    exact ⟨rfl, hy⟩
  have hnil : field.dropWhile (· = space) ≠ [] := by
    intro hnil
    rw [hnil] at h
    cases h
  simp only [checkLine, if_neg hnil] at h
  simp only [fieldType]
  split_ifs at h ⊢ with hms hc hg hs
  · obtain ⟨htype, hcast⟩ := hmap _ h
    exact ⟨hnil, htype, fun _ => hcast⟩
  · obtain ⟨htype, hcast⟩ := hmap _ h
    exact ⟨hnil, htype, fun _ => hcast⟩
  · obtain ⟨htype, hcast⟩ := hmap _ h
    exact ⟨hnil, htype, fun _ => hcast⟩
  · cases h
    exact ⟨hnil, rfl, fun h => absurd rfl h⟩
  · obtain ⟨htype, hcast⟩ := hmap _ h
    exact ⟨hnil, htype, fun _ => hcast⟩

/-- A line that was cut short is accepted under its own name only, and with a
part of its type field. -/
theorem accepted_of_part {cast : Bytes → Option R} {name value field line : Bytes}
    (hname : colon ∉ name) (hvalue : bar ∉ value)
    (hpart : line <+: name ++ colon :: (value ++ bar :: field)) {buffers : ScanBuffers R}
    {type : MetricType} {x : R} (h : parseLine cast line = some (buffers, type, x)) :
    buffers.nameBuffer = name ∧ ∃ part, part <+: field ∧ part ≠ [] ∧
      fieldType (typeField part) = type := by
  obtain ⟨name', value', rest, hsplit, rfl, hcheck⟩ := parseLine_eq_some.mp h
  obtain ⟨htext, ⟨hname', -⟩, hvalue', -⟩ := splitLine_eq_some.mp hsplit
  have hcut : cStr line <+: name ++ colon :: (value ++ bar :: field) :=
    (List.takeWhile_prefix _).trans hpart
  rw [htext] at hcut
  obtain ⟨rfl, hbehind⟩ := field_of_part hname' hname hcut
  obtain ⟨rfl, hrest⟩ := field_of_part hvalue' hvalue hbehind
  obtain ⟨htrimmed, htype, -⟩ := checkLine_eq_some hcheck
  refine ⟨rfl, rest, hrest, ?_, htype⟩
  rintro rfl
  exact htrimmed rfl

theorem Ledger.store_sameMap (l : Ledger R) (metric : Bytes) (buffers : ScanBuffers R)
    (type : MetricType) (x : R) {type' : MetricType} (h : type' ≠ type) :
    (l.store metric buffers type x).SameMap l type' := by
  cases type with
  | gauge =>
    simp only [store]
    split <;> cases type' <;> first | exact absurd rfl h | exact rfl | exact ⟨rfl, rfl⟩
  | counter | timer | set =>
    cases type' <;> first | exact absurd rfl h | exact rfl | exact ⟨rfl, rfl⟩

theorem Ledger.store_has (l : Ledger R) (metric : Bytes) (buffers : ScanBuffers R)
    (type : MetricType) (x : R) : (l.store metric buffers type x).Has type buffers.nameBuffer := by
  cases type with
  | gauge =>
    simp only [store]
    split
    · exact (UnorderedMap.mem_modify _ _ _ _ _).mpr (.inl rfl)
    · exact (AList.mem_insert _).mpr (.inl rfl)
  | counter | timer | set => exact (UnorderedMap.mem_modify _ _ _ _ _).mpr (.inl rfl)

omit [CDouble R] in
theorem Ledger.SameMap.has {l l' : Ledger R} {type : MetricType} (h : l.SameMap l' type)
    {k : Bytes} (hk : l.Has type k) : l'.Has type k := by
  cases type with
  | timer =>
    simp only [SameMap] at h
    simp only [Has, ← h.1]
    exact hk
  | counter | gauge | set =>
    simp only [SameMap] at h
    simp only [Has, ← h]
    exact hk

/-- A stored line adds at most its own name, to the map of its type. -/
theorem Ledger.has_store_type {l : Ledger R} {metric k : Bytes} {buffers : ScanBuffers R}
    {type' type : MetricType} {x : R} (h : (l.store metric buffers type' x).Has type k) :
    type = type' ∧ k = buffers.nameBuffer ∨ l.Has type k := by
  by_cases htype : type = type'
  · rcases Ledger.has_store h with hk | hold
    · exact .inl ⟨htype, hk⟩
    · exact .inr hold
  · exact .inr ((l.store_sameMap metric buffers type' x htype).has h)

/-- Every key of a ledger that rejected no line is the name of a line of its type. -/
theorem Ledger.exists_line_of_has {env : Env R} {lines : List Bytes}
    (haccepted : ∀ line ∈ lines, parseLine env.lexicalCast line ≠ none) {type : MetricType}
    {k : Bytes} (h : (Ledger.replay env lines).Has type k) :
    ∃ line ∈ lines, ∃ buffers x,
      parseLine env.lexicalCast line = some (buffers, type, x) ∧ buffers.nameBuffer = k := by
  refine Ledger.replay_induction (P := fun l => l.Has type k → ∃ line ∈ lines, ∃ buffers x,
    parseLine env.lexicalCast line = some (buffers, type, x) ∧ buffers.nameBuffer = k) ?_ ?_ h
  · intro hnew
    cases type <;> cases hnew
  · intro l line hline ih h
    obtain ⟨⟨buffers, type', x⟩, hparse⟩ := Option.ne_none_iff_exists'.mp (haccepted line hline)
    rw [buffer_of_parse hparse] at h
    rcases Ledger.has_store_type h with ⟨rfl, rfl⟩ | hold
    · exact ⟨line, hline, buffers, x, hparse, rfl⟩
    · have hhas : l.Has type k := by cases type <;> exact hold
      exact ih hhas

/-- **Accepted lines** have a name, a value and a type field, and change the map
of this type alone. -/
theorem acceptedLine_of_buffer (env : Env R) (hspec : LexicalCastSpec env.lexicalCast)
    {metric : Bytes} (hnul : nul ∉ metric) (l : Ledger R)
    (h : l.buffer env metric ≠ l.countCall.countBadLine env.config) :
    ∃ name value field rest type, AcceptedLine metric name value field rest type ∧
      (l.buffer env metric).Has type name ∧
      ∀ type', type' ≠ type → (l.buffer env metric).SameMap l type' := by
  rcases hparse : parseLine env.lexicalCast metric with _ | ⟨buffers, type, x⟩
  · exact absurd (buffer_of_bad hparse l) h
  · rw [buffer_of_parse hparse]
    obtain ⟨name, value, rest, hsplit, rfl, hcheck⟩ := parseLine_eq_some.mp hparse
    rw [cStr_eq_self hnul] at hsplit
    obtain ⟨htext, ⟨hcolon, hname, hnameLen⟩, hbar, hvalue, hvalueLen⟩ :=
      splitLine_eq_some.mp hsplit
    obtain ⟨htrimmed, htype, hcast⟩ := checkLine_eq_some hcheck
    refine ⟨name, value, typeField rest, rest.drop (typeField rest).length, type, ?_,
      Ledger.store_has _ _ _ _ _, fun type' htype' => ?_⟩
    · constructor
      case text_eq =>
        have hrest : typeField rest ++ rest.drop (typeField rest).length = rest :=
          scansetItem_append_drop 2 bar rest
        rw [hrest, htext]
      case name_ok => exact ⟨hname, hcolon, hnameLen⟩
      case value_ok => exact ⟨hvalue, hbar, hvalueLen⟩
      case field_ok =>
        exact ⟨htrimmed, not_mem_takeWhile_ne bar _, length_scansetItem_le 2 bar rest⟩
      case field_end => exact scansetItem_end 2 bar rest
      case type_eq => exact htype
      case number => exact fun hset => hspec.number (hcast hset)
    · have hsame := l.countCall.store_sameMap metric
        ⟨name, value, typeField rest, lineRate rest⟩ type x htype'
      cases type' <;> exact hsame

theorem acceptedLine_of_buffer_counter :
    ∃ name value field rest type, AcceptedLine (ascii "a:1|c") name value field rest type ∧
      (Ledger.buffer (R := Exact) ⟨{}, lexicalCast⟩ {} (ascii "a:1|c")).Has type name ∧
      ∀ type', type' ≠ type →
        (Ledger.buffer (R := Exact) ⟨{}, lexicalCast⟩ {} (ascii "a:1|c")).SameMap {} type' :=
  acceptedLine_of_buffer ⟨{}, lexicalCast⟩ lexicalCast_spec (by decide) {} fun h =>
    absurd (congrArg (fun l : Ledger Exact => l.frequency.lookup (ascii "a")) h) (by decide)

end

/-- A line of the documented form, with any blanks around its type. -/
inductive Documented : Bytes → MetricType → Prop
  | intro {name value : Bytes} {type : MetricType} (before after : ℕ) (rate : Option Bytes)
      (hname : name ≠ [] ∧ colon ∉ name) (hvalue : value ≠ [] ∧ bar ∉ value)
      (hnumber : type ≠ .set → NumberText value) (hrate : ∀ r ∈ rate, NumberText r) :
      Documented
        (name ++ colon :: (value ++ bar :: (List.replicate before space ++ (type.text ++
          (List.replicate after space ++ rate.elim [] (bar :: atSign :: ·))))))
        type

/-- A line of an unknown type is accepted as a counter. -/
theorem accepted_not_documented :
    (Ledger.buffer (R := Exact) ⟨{}, lexicalCast⟩ {} (ascii "a:1|x")).entries (ascii "a") =
        { frequency := some 1, counter := some (.fin 1) } ∧
      ∀ type, ¬Documented (ascii "a:1|x") type := by
  refine ⟨by decide +kernel, fun type h => ?_⟩
  generalize htext : ascii "a:1|x" = metric at h
  obtain ⟨before, after, rate, hname, hvalue, hnumber, hrate⟩ := h
  rename_i name value
  have hlength := congrArg List.length htext
  simp only [List.length_append, List.length_cons] at hlength
  have hfive : (ascii "a:1|x").length = 5 := rfl
  have hsplit := splitLine_eq_some.mpr ⟨htext,
    ⟨hname.2, hname.1, by rw [maxTokenStringLength]; omega⟩,
    hvalue.2, hvalue.1, by rw [maxTokenStringLength]; omega⟩
  have hrest : some (ascii "a", ascii "1", ascii "x") = splitLine (ascii "a:1|x") := rfl
  rw [← hrest] at hsplit
  have hbehind := (Prod.mk.inj (Prod.mk.inj (Option.some.inj hsplit)).2).2
  -- neither a blank nor a documented type begins with an `x`
  have hhead := congrArg List.head? hbehind
  cases before with
  | zero => cases type <;> simp [ascii, MetricType.text] at hhead
  | succ n => simp [ascii, space, List.replicate_succ] at hhead

end Statsdcc
