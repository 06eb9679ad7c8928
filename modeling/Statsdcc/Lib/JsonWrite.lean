import Mathlib
import Statsdcc.Lib.Json

/-!
# JSON documents as a program writes them

`JsonDocument V` adds the operations of `Json::Value` that write, and what is read
afterwards. `value[key]` of a value that is not `const` makes the member that it does not
find. `update` is a change of the value that such subscripts lead to, and the lemmas say
what is read afterwards. `Json` is an instance here, too.

## Main definitions

- `JsonDocument.update` — a change behind a path of keys
- `JsonDocument.Container` — a value that may be given members, and can be asked for them

## Main results

- `JsonDocument.lookup_set` — what is found under a key after an assignment
- `JsonDocument.lookup_update`, `JsonDocument.child_update` — what is found under the first
  key of a path
- `JsonDocument.values_foldl_append` — the list that a loop of appends makes
-/

open Bytes JsonValue

/-- The operations of `Json::Value` that write. Members are given to `null` and to objects
only, elements to `null` and to arrays only. -/
class JsonDocument (V : Type) extends JsonMembers V where
  null : V
  ofInt64 : Int64 → V
  ofUInt64 : UInt64 → V
  /-- `value[key] = member` -/
  set : V → Bytes → V → V
  /-- `value.append(element)` -/
  append : V → V → V
  member_null (key : Bytes) : member null key = some none
  member_ofString (s key : Bytes) : member (ofString s) key = none
  member_set {json : V} (h : ∀ k, member json k ≠ none) (key : Bytes) (x : V) (k : Bytes) :
    member (set json key x) k = if k = key then some (some x) else member json k
  subscript_eq (json : V) (key : Bytes) :
    subscript json key = (member json key).map fun found => found.getD null
  asInt_ofInt (i : Int32) : asInt (ofInt i) = some i
  asBool_ofBool (b : Bool) : asBool (ofBool b) = some b
  values_appended (elements : List V) : values (elements.foldl append null) = elements
  mem_values {json x : V} {key : Bytes} (h : member json key = some (some x)) : x ∈ values json
  getMemberNames_of_members {json : V} (h : ∀ k, member json k ≠ none) :
    ∃ names, getMemberNames json = some names ∧ names.Nodup ∧
      ∀ k, k ∈ names ↔ ∃ x, member json k = some (some x)

namespace JsonDocument

open JsonMembers

variable {V : Type} [JsonDocument V] {json : V} {key k : Bytes}

/-- The member of this name. -/
def lookup (json : V) (key : Bytes) : Option V := (member json key).join

/-- `value[key]`, or `null` in place of an absent member. -/
def child (json : V) (key : Bytes) : V := (lookup json key).getD null

/-- The change `f` of `value[key₁][key₂]…`. -/
def update (json : V) : List Bytes → (V → V) → V
  | [], f => f json
  | key :: path, f => set json key (update (child json key) path f)

/-- `value[key₁][key₂]… = member` -/
def assign (json : V) (path : List Bytes) (member : V) : V := update json path fun _ => member

/-- The value is `null` or an object. -/
def Container (json : V) : Prop := ∀ key, member json key ≠ none

theorem Container.member_eq (h : Container json) (key : Bytes) :
    member json key = some (lookup json key) := by
  obtain ⟨found, hfound⟩ := Option.ne_none_iff_exists'.mp (h key)
  rw [lookup, hfound, Option.join_some]

@[simp] theorem container_null : Container (null : V) := by
  intro key
  rw [member_null]
  exact Option.some_ne_none _

@[simp] theorem lookup_null (key : Bytes) : lookup (null : V) key = none := by
  rw [lookup, member_null, Option.join_some]

@[simp] theorem child_null (key : Bytes) : child (null : V) key = null := by
  rw [child, lookup_null, Option.getD_none]

theorem child_eq_null (h : lookup json key = none) : child json key = null := by
  rw [child, h, Option.getD_none]

theorem container_set (h : Container json) (key : Bytes) (x : V) :
    Container (set json key x) := by
  intro k
  rw [member_set h]
  split_ifs
  · exact Option.some_ne_none _
  · exact h k

/-- What is found under a key after an assignment. -/
theorem lookup_set (h : Container json) (key : Bytes) (x : V) (k : Bytes) :
    lookup (set json key x) k = if k = key then some x else lookup json k := by
  rw [lookup, member_set h]
  split_ifs
  · rfl
  · rfl

theorem child_set_self (h : Container json) (key : Bytes) (x : V) :
    child (set json key x) key = x := by
  rw [child, lookup_set h, if_pos rfl, Option.getD_some]

theorem child_set_of_ne (h : Container json) (hne : k ≠ key) (x : V) :
    child (set json key x) k = child json k := by
  rw [child, lookup_set h, if_neg hne, child]

-- ════════════════════════════════════════════════════════════════════════
-- Changes behind a path
-- ════════════════════════════════════════════════════════════════════════

theorem container_update (h : Container json) (key : Bytes) (path : List Bytes) (f : V → V) :
    Container (update json (key :: path) f) :=
  container_set h _ _

theorem lookup_update (h : Container json) (hne : k ≠ key) (path : List Bytes) (f : V → V) :
    lookup (update json (key :: path) f) k = lookup json k := by
  rw [update, lookup_set h, if_neg hne]

theorem lookup_update_self (h : Container json) (key : Bytes) (path : List Bytes) (f : V → V) :
    lookup (update json (key :: path) f) key = some (update (child json key) path f) := by
  rw [update, lookup_set h, if_pos rfl]

theorem child_update (h : Container json) (key : Bytes) (path : List Bytes) (f : V → V) :
    child (update json (key :: path) f) key = update (child json key) path f :=
  child_set_self h _ _

theorem child_update_of_ne (h : Container json) (hne : k ≠ key) (path : List Bytes)
    (f : V → V) : child (update json (key :: path) f) k = child json k := by
  rw [child, lookup_update h hne, child]

theorem container_assign (h : Container json) (key : Bytes) (path : List Bytes) (x : V) :
    Container (assign json (key :: path) x) :=
  container_set h _ _

theorem lookup_assign (h : Container json) (hne : k ≠ key) (path : List Bytes) (x : V) :
    lookup (assign json (key :: path) x) k = lookup json k :=
  lookup_update h hne path _

theorem lookup_assign_self (h : Container json) (key : Bytes) (x : V) :
    lookup (assign json [key] x) key = some x :=
  lookup_update_self h key [] _

section Loops

variable {α : Type*} {f : α → V → V}

theorem container_foldl_update (h : Container json) (key : Bytes) (path : List Bytes)
    (f : α → V → V) (xs : List α) :
    Container (xs.foldl (fun json x => update json (key :: path) (f x)) json) := by
  induction xs generalizing json with
  | nil => exact h
  | cons x xs ih => exact ih (container_update h _ _ _)

/-- A loop of changes behind another key changes nothing that is found under a key. -/
theorem lookup_foldl_update (h : Container json) (hne : k ≠ key) (path : List Bytes)
    (f : α → V → V) (xs : List α) :
    lookup (xs.foldl (fun json x => update json (key :: path) (f x)) json) k = lookup json k := by
  induction xs generalizing json with
  | nil => rfl
  | cons x xs ih => rw [List.foldl_cons, ih (container_update h _ _ _), lookup_update h hne]

/-- A loop of changes behind a key is a loop over what stands there. -/
theorem child_foldl_update (h : Container json) (key : Bytes) (path : List Bytes)
    (f : α → V → V) (xs : List α) :
    child (xs.foldl (fun json x => update json (key :: path) (f x)) json) key =
      xs.foldl (fun json x => update json path (f x)) (child json key) := by
  induction xs generalizing json with
  | nil => rfl
  | cons x xs ih =>
    rw [List.foldl_cons, ih (container_update h _ _ _), child_update h, List.foldl_cons]

/-- A loop of changes makes the member, unless it is not run at all. -/
theorem lookup_foldl_update_self (h : Container json) (key : Bytes) (path : List Bytes)
    (f : α → V → V) {xs : List α} (hne : xs ≠ []) :
    lookup (xs.foldl (fun json x => update json (key :: path) (f x)) json) key =
      some (child (xs.foldl (fun json x => update json (key :: path) (f x)) json) key) := by
  induction xs using List.reverseRecOn with
  | nil => exact absurd rfl hne
  | append_singleton xs x _ =>
    have hfront := container_foldl_update h key path f xs
    rw [List.foldl_concat, child, lookup_update_self hfront, Option.getD_some]

theorem lookup_foldl_update_eq_none (h : Container json) (hnew : lookup json key = none)
    (path : List Bytes) (f : α → V → V) (xs : List α) :
    lookup (xs.foldl (fun json x => update json (key :: path) (f x)) json) key = none ↔
      xs = [] := by
  constructor
  · intro hnone
    by_contra hne
    rw [lookup_foldl_update_self h key path f hne] at hnone
    cases hnone
  · rintro rfl
    exact hnew

/-- The elements that a loop appends to a new member. -/
theorem values_foldl_append (h : Container json) (hnew : child json key = null)
    (element : α → V) (xs : List α) :
    values (child (xs.foldl (fun json x => update json [key] (append · (element x))) json) key) =
      xs.map element := by
  have hloop := child_foldl_update h key [] (fun x json => append json (element x)) xs
  have happended : (xs.map element).foldl append (null : V) =
      xs.foldl (fun json x => append json (element x)) null := List.foldl_map
  rw [hloop, hnew, ← values_appended (xs.map element), happended]
  rfl

/-- A loop that assigns under different keys. -/
theorem lookup_foldl_set (h : Container json) (value : α → V) {ms : List (Bytes × α)}
    (hnodup : (ms.map Prod.fst).Nodup) (k : Bytes) :
    lookup (ms.foldl (fun json m => set json m.1 (value m.2)) json) k =
      ((ms.lookup k).map value).or (lookup json k) := by
  induction ms generalizing json with
  | nil => rfl
  | cons m ms ih =>
    rw [List.map_cons, List.nodup_cons] at hnodup
    rw [List.foldl_cons, ih (container_set h _ _) hnodup.2, lookup_set h, List.lookup_cons]
    by_cases hk : k = m.1
    · subst hk
      have hnone : ms.lookup m.1 = none := by
        rw [List.lookup_eq_none_iff]
        intro p hp
        refine bne_iff_ne.mpr ?_
        rintro heq
        exact hnodup.1 (heq ▸ List.mem_map_of_mem hp)
      rw [hnone, if_pos rfl, beq_self_eq_true]
      rfl
    · rw [if_neg hk, beq_false_of_ne hk]

theorem container_foldl_set (h : Container json) (value : α → V) (ms : List (Bytes × α)) :
    Container (ms.foldl (fun json m => set json m.1 (value m.2)) json) := by
  induction ms generalizing json with
  | nil => exact h
  | cons m ms ih => exact ih (container_set h _ _)

end Loops

-- ════════════════════════════════════════════════════════════════════════
-- Reading what was written
-- ════════════════════════════════════════════════════════════════════════

theorem Container.subscript_eq (h : Container json) (key : Bytes) :
    subscript json key = some (child json key) := by
  rw [JsonDocument.subscript_eq, h.member_eq, Option.map_some, child]

theorem Container.get_eq (h : Container json) (key : Bytes) (default : V) :
    get json key default = some ((lookup json key).getD default) := by
  rw [JsonMembers.get_eq, h.member_eq, Option.map_some]

theorem Container.getInt_eq (h : Container json) (key : Bytes) (default : Int32) :
    getInt json key default = asInt ((lookup json key).getD (ofInt default)) := by
  rw [getInt, h.get_eq, Option.bind_some]

theorem Container.getBool_eq (h : Container json) (key : Bytes) (default : Bool) :
    getBool json key default = asBool ((lookup json key).getD (ofBool default)) := by
  rw [getBool, h.get_eq, Option.bind_some]

theorem Container.getString_eq (h : Container json) (key default : Bytes) :
    getString json key default = asString ((lookup json key).getD (ofString default)) := by
  rw [getString, h.get_eq, Option.bind_some]

/-- The names are those under which something is found. -/
theorem Container.exists_getMemberNames (h : Container json) :
    ∃ names, getMemberNames json = some names ∧ names.Nodup ∧
      ∀ k, k ∈ names ↔ lookup json k ≠ none := by
  obtain ⟨names, hnames, hnodup, hmem⟩ := getMemberNames_of_members h
  refine ⟨names, hnames, hnodup, fun k => ?_⟩
  rw [hmem, h.member_eq, Option.ne_none_iff_exists']
  simp only [Option.some.injEq]

/-- A string has no members. -/
theorem getString_ofString (s key default : Bytes) :
    getString (ofString s : V) key default = none := by
  rw [getString, JsonMembers.get_eq, member_ofString, Option.map_none, Option.bind_none]

end JsonDocument

-- ════════════════════════════════════════════════════════════════════════
-- An instance
-- ════════════════════════════════════════════════════════════════════════

namespace Json

/-- The members of an object; other values have none. -/
def members : Json → List (Bytes × Json)
  | object members => members
  | _ => []

/-- `value[key] = member`; `null` becomes an object. -/
def set (json : Json) (key : Bytes) (member : Json) : Json :=
  object (json.members.filter (fun m => m.1 < key) ++
    (key, member) :: json.members.filter fun m => key < m.1)

/-- `value.append(element)`; `null` becomes an array. -/
def append : Json → Json → Json
  | array elements, element => array (elements ++ [element])
  | _, element => array [element]

/-- A filter on keys keeps or drops what is found under a key. -/
theorem lookup_filter (p : Bytes → Bool) (members : List (Bytes × Json)) (k : Bytes) :
    (members.filter fun m => p m.1).lookup k = if p k then members.lookup k else none := by
  induction members with
  | nil => simp
  | cons m members ih =>
    obtain ⟨key, member⟩ := m
    rw [List.filter_cons]
    by_cases hk : k = key
    · subst hk
      by_cases hp : p k
      · simp only [hp, if_true, List.lookup_cons_self]
      · rw [if_neg hp, ih, if_neg hp, if_neg hp]
    · have hne : (k == key) = false := beq_false_of_ne hk
      by_cases hp : p key
      · simp only [hp, if_true, List.lookup_cons, hne, ih]
      · simp only [if_neg hp, List.lookup_cons, hne, ih]

/-- Two different strings have an order. -/
theorem lt_or_gt_of_ne {a b : Bytes} (h : a ≠ b) : a < b ∨ b < a := by
  by_contra hnot
  rw [not_or] at hnot
  exact h (List.le_antisymm (List.not_lt.mp hnot.2) (List.not_lt.mp hnot.1))

theorem lookup_members_set (json member : Json) (key k : Bytes) :
    (json.set key member).members.lookup k =
      if k = key then some member else json.members.lookup k := by
  rw [set, members, List.lookup_append, lookup_filter (fun a => decide (a < key)),
    List.lookup_cons, lookup_filter (fun a => decide (key < a))]
  by_cases hk : k = key
  · subst hk
    simp [List.lt_irrefl]
  · have hne : (k == key) = false := beq_false_of_ne hk
    rw [if_neg hk, hne]
    rcases lt_or_gt_of_ne hk with hlt | hgt
    · simp [hlt, List.lt_asymm hlt]
    · simp [hgt, List.lt_asymm hgt]

theorem find_of_container {json : Json} (h : ∀ k, json.find k ≠ none) (k : Bytes) :
    json.find k = some (json.members.lookup k) := by
  cases json with
  | null => rfl
  | object members => rfl
  | bool | int | string | array => exact absurd rfl (h k)

theorem foldl_append (elements : List Json) :
    elements.foldl append null = if elements = [] then null else array elements := by
  induction elements using List.reverseRecOn with
  | nil => rfl
  | append_singleton elements element ih =>
    have hne : elements ++ [element] ≠ [] := by simp
    rw [List.foldl_concat, ih, if_neg hne]
    by_cases hnil : elements = []
    · rw [if_pos hnil, hnil]
      rfl
    · rw [if_neg hnil]
      rfl

theorem mem_of_lookup {members : List (Bytes × Json)} {key : Bytes} {x : Json}
    (h : members.lookup key = some x) : (key, x) ∈ members := by
  obtain ⟨front, back, rfl, -⟩ := List.lookup_eq_some_iff.mp h
  exact List.mem_append_right _ List.mem_cons_self

instance : JsonDocument Json where
  null := null
  ofInt64 n := int n.toInt
  ofUInt64 n := int n.toNat
  set := set
  append := append
  member_null _ := rfl
  member_ofString _ _ := rfl
  member_set h key x k := by
    have hfind := find_of_container h k
    show some ((Json.set _ key x).members.lookup k) = _
    rw [lookup_members_set]
    split_ifs
    · rfl
    · exact hfind.symm
  subscript_eq _ _ := rfl
  asInt_ofInt i := by
    show asInt (.int i.toInt) = some i
    rw [asInt, if_pos ⟨i.le_toInt, i.toInt_lt⟩, Int32.ofInt_toInt]
  asBool_ofBool _ := rfl
  values_appended elements := by
    show (elements.foldl append null).values = elements
    rw [foldl_append]
    by_cases hnil : elements = []
    · rw [if_pos hnil, hnil]
      rfl
    · rw [if_neg hnil]
      rfl
  mem_values {json x key} h := by
    cases json with
    | object members => exact List.mem_map_of_mem (mem_of_lookup (Option.some.inj h))
    | null => cases h
    | bool | int | string | array => cases h
  getMemberNames_of_members {json} h := by
    cases json with
    | null => exact ⟨[], rfl, List.nodup_nil, fun k => by simp [JsonMembers.member, find]⟩
    | object members =>
      refine ⟨_, rfl, List.nodup_dedup _, fun k => ?_⟩
      rw [List.mem_dedup, List.mem_map]
      constructor
      · rintro ⟨m, hm, rfl⟩
        cases hlookup : members.lookup m.1 with
        | none =>
          have hne := List.lookup_eq_none_iff.mp hlookup m hm
          simp at hne
        | some x => exact ⟨x, congrArg some hlookup⟩
      · rintro ⟨x, hx⟩
        exact ⟨(k, x), mem_of_lookup (Option.some.inj hx), rfl⟩
    | bool | int | string | array => exact absurd rfl (h [])

end Json
