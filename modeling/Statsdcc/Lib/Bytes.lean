import Mathlib

/-!
# Byte strings

Strings of a C++ program are lists of bytes. `cStr` is what a function that
takes a C string sees of one, and `getlines` is a `std::getline` loop over one.
-/

/-- A `char`. -/
abbrev Byte := UInt8

/-- A `std::string`: any bytes, NUL included. -/
abbrev Bytes := List Byte

namespace Bytes

/-- The bytes of an ASCII literal. -/
def ascii (s : String) : Bytes := s.toList.map fun c => c.toNat.toUInt8

def nul : Byte := 0
def newline : Byte := 10
def space : Byte := 32
def plus : Byte := 43
def minus : Byte := 45
def point : Byte := 46
def slash : Byte := 47
def colon : Byte := 58
def atSign : Byte := 64
def underscore : Byte := 95
def bar : Byte := 124

/-- A character that fails a test does not occur in a string that passes it. -/
theorem notMem_of_forall {p : Byte → Bool} {s : Bytes} (h : ∀ c ∈ s, p c = true) {c : Byte}
    (hc : p c = false) : c ∉ s := by
  intro hmem
  rw [h c hmem] at hc
  cases hc

/-- The bytes before the first NUL: what is left of a string behind `c_str()`. -/
def cStr (s : Bytes) : Bytes := s.takeWhile (· ≠ nul)

/-- A string without `stop` is all text before it. -/
theorem takeWhile_ne_eq_self {stop : Byte} {s : Bytes} (h : stop ∉ s) :
    s.takeWhile (· ≠ stop) = s := by
  rw [List.takeWhile_eq_self_iff]
  intro c hc
  simpa using fun h' : c = stop => h (h' ▸ hc)

theorem cStr_eq_self {s : Bytes} (h : nul ∉ s) : cStr s = s := takeWhile_ne_eq_self h

/-- The text before the first `stop` is what stands before it. -/
theorem takeWhile_ne_append {stop : Byte} {item : Bytes} (h : stop ∉ item) (rest : Bytes) :
    (item ++ stop :: rest).takeWhile (· ≠ stop) = item := by
  induction item with
  | nil => simp
  | cons c item ih =>
    rw [List.mem_cons, not_or] at h
    rw [List.cons_append, List.takeWhile_cons_of_pos (by simpa using Ne.symm h.1), ih h.2]

/-- A string is its text up to a delimiter, followed by the delimiter. -/
theorem takeWhile_ne_decompose {stop : Byte} {s : Bytes}
    (h : (s.takeWhile (· ≠ stop)).length < s.length) :
    s = s.takeWhile (· ≠ stop) ++ stop :: s.drop ((s.takeWhile (· ≠ stop)).length + 1) := by
  induction s with
  | nil => simp at h
  | cons c s ih =>
    by_cases hc : c = stop
    · simp [hc]
    · rw [List.takeWhile_cons_of_pos (by simpa using hc)] at h ⊢
      rw [List.length_cons, List.length_cons, Nat.add_lt_add_iff_right] at h
      rw [List.length_cons, List.drop_succ_cons, List.cons_append, ← ih h]

theorem not_mem_takeWhile_ne (stop : Byte) (s : Bytes) : stop ∉ s.takeWhile (· ≠ stop) := by
  intro h
  simpa using List.mem_takeWhile_imp h

/-- The text before the first `c`, by its position. -/
theorem take_idxOf_eq_takeWhile {c : Byte} {s : Bytes} {pos : ℕ} (h : s.idxOf? c = some pos) :
    s.take pos = s.takeWhile (· ≠ c) := by
  induction s generalizing pos with
  | nil => simp at h
  | cons b s ih =>
    rw [List.idxOf?_cons] at h
    by_cases hb : b = c
    · simp_all
    · simp only [beq_iff_eq, hb, if_false, Option.map_eq_some_iff] at h
      obtain ⟨n, hn, rfl⟩ := h
      rw [List.take_succ_cons, ih hn, List.takeWhile_cons_of_pos (by simpa using hb)]

/-- The position of the first `stop` is the length of what stands before it. -/
theorem idxOf?_append_cons {stop : Byte} {item : Bytes} (h : stop ∉ item) (rest : Bytes) :
    (item ++ stop :: rest).idxOf? stop = some item.length := by
  induction item with
  | nil => simp [List.idxOf?_cons]
  | cons c item ih =>
    rw [List.mem_cons, not_or] at h
    rw [List.cons_append, List.idxOf?_cons, ih h.2]
    simp [Ne.symm h.1]

/-- The text behind the last `c` is what stands behind it. -/
theorem append_cons_inj_right {c : Byte} {p p' s s' : Bytes} (hs : c ∉ s) (hs' : c ∉ s')
    (h : p ++ c :: s = p' ++ c :: s') : p = p' ∧ s = s' := by
  have hreverse := congrArg List.reverse h
  simp only [List.reverse_append, List.reverse_cons, List.append_assoc, List.singleton_append]
    at hreverse
  have hs₁ : c ∉ s.reverse := by simpa using hs
  have hs₂ : c ∉ s'.reverse := by simpa using hs'
  have hsuffix : s = s' := by
    rw [← List.reverse_inj, ← takeWhile_ne_append hs₁ p.reverse, hreverse,
      takeWhile_ne_append hs₂]
  subst hsuffix
  exact ⟨List.append_cancel_right h, rfl⟩

/-- A string cut short ends before a delimiter or behind it. -/
theorem part_append_cons {s item rest : Bytes} {stop : Byte} (h : s <+: item ++ stop :: rest) :
    s <+: item ∨ ∃ t, t <+: rest ∧ s = item ++ stop :: t := by
  obtain ⟨cut, hcut⟩ := h
  rcases List.append_eq_append_iff.mp hcut with ⟨mid, rfl, -⟩ | ⟨mid, rfl, hmid⟩
  · exact .inl (List.prefix_append _ _)
  · rcases List.cons_eq_append_iff.mp hmid with ⟨rfl, -⟩ | ⟨t, rfl, hrest⟩
    · exact .inl (by simp)
    · exact .inr ⟨t, ⟨cut, hrest.symm⟩, rfl⟩

/-- A string cut short behind its first delimiter has the same first field. -/
theorem field_of_part {stop : Byte} {item item' rest rest' : Bytes} (h : stop ∉ item)
    (h' : stop ∉ item') (hpart : item ++ stop :: rest <+: item' ++ stop :: rest') :
    item = item' ∧ rest <+: rest' := by
  obtain ⟨cut, hcut⟩ := hpart
  have hitem : item = item' := by
    rw [← takeWhile_ne_append h (rest ++ cut), ← takeWhile_ne_append h' rest', ← hcut,
      List.append_assoc, List.cons_append]
  subst hitem
  rw [List.append_assoc, List.cons_append] at hcut
  exact ⟨rfl, cut, (List.cons.inj (List.append_cancel_left hcut)).2⟩

/-- The white space of the C locale, which a numeric conversion skips. -/
def isSpace (c : Byte) : Bool := c = space || (9 ≤ c.toNat && c.toNat ≤ 13)

/-- The segments that a `std::getline` loop reads: the text between newlines,
without a final empty one. `cur` holds the segment read so far, reversed. -/
def getlinesFrom (cur : Bytes) : Bytes → List Bytes
  | [] => if cur = [] then [] else [cur.reverse]
  | c :: s => if c = newline then cur.reverse :: getlinesFrom [] s else getlinesFrom (c :: cur) s

def getlines (s : Bytes) : List Bytes := getlinesFrom [] s

theorem getlinesFrom_append {l : Bytes} (h : newline ∉ l) (cur s : Bytes) :
    getlinesFrom cur (l ++ s) = getlinesFrom (l.reverse ++ cur) s := by
  induction l generalizing cur with
  | nil => rfl
  | cons c l ih =>
    rw [List.mem_cons, not_or] at h
    rw [List.cons_append, getlinesFrom, if_neg (Ne.symm h.1), ih h.2]
    simp

/-- A line ended by a newline is read as one segment. -/
theorem getlines_line {l : Bytes} (h : newline ∉ l) (s : Bytes) :
    getlines (l ++ newline :: s) = l :: getlines s := by
  rw [getlines, getlinesFrom_append h, getlinesFrom, if_pos rfl]
  simp [getlines]

/-- A last line without a newline is read as well, unless it is empty. -/
theorem getlines_last {l : Bytes} (h : newline ∉ l) (hne : l ≠ []) : getlines l = [l] := by
  have hlast := getlinesFrom_append h [] []
  rw [List.append_nil] at hlast
  rw [getlines, hlast]
  simp [getlinesFrom, hne]

@[simp] theorem getlines_nil : getlines [] = [] := rfl

/-- A string with a newline has a line. -/
theorem getlinesFrom_ne_nil {s : Bytes} (h : newline ∈ s) (cur : Bytes) :
    getlinesFrom cur s ≠ [] := by
  induction s generalizing cur with
  | nil => cases h
  | cons c s ih =>
    rw [getlinesFrom]
    by_cases hc : c = newline
    · rw [if_pos hc]
      exact List.cons_ne_nil _ _
    · rw [if_neg hc]
      rcases List.mem_cons.mp h with h | h
      · exact absurd h.symm hc
      · exact ih h _

/-- Lines each ended by a newline are read back in order. -/
theorem getlines_flatMap {ls : List Bytes} (h : ∀ l ∈ ls, newline ∉ l) :
    getlines (ls.flatMap (· ++ [newline])) = ls := by
  induction ls with
  | nil => rfl
  | cons l ls ih =>
    rw [List.flatMap_cons, List.append_assoc, List.singleton_append,
      getlines_line (h l (by simp)), ih fun l' hl' => h l' (by simp [hl'])]

/-- The only line of a newline-free string that was cut short. -/
theorem mem_getlines_of_part {s t l : Bytes} (ht : newline ∉ t) (hs : s <+: t)
    (hl : l ∈ getlines s) : l <+: t := by
  by_cases hnil : s = []
  · rw [hnil, getlines_nil] at hl
    cases hl
  · rw [getlines_last (fun hc => ht (hs.subset hc)) hnil, List.mem_singleton] at hl
    exact hl ▸ hs

/-- The lines of two lines that were cut short. -/
theorem mem_getlines_of_part_two {s t u l : Bytes} (ht : newline ∉ t) (hu : newline ∉ u)
    (hs : s <+: t ++ newline :: u) (hl : l ∈ getlines s) : l <+: t ∨ l <+: u := by
  rcases part_append_cons hs with hs | ⟨v, hv, rfl⟩
  · exact .inl (mem_getlines_of_part ht hs hl)
  · rw [getlines_line ht] at hl
    rcases List.mem_cons.mp hl with rfl | hl
    · exact .inl (List.prefix_refl _)
    · exact .inr (mem_getlines_of_part hu hv hl)

end Bytes
