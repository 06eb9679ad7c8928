import Mathlib
import Statsdcc.Lib.Custody

/-!
# Blocks of a heap and who holds them

An allocator gives out blocks at addresses that are not in use; to write or free
a block that is not there, or to write past its end, is an error. In a program
that passes blocks from one party to another, each block has one holder at any
time, so that no party can meet a block that another one has freed.

## Main definitions

- `Heap.Owned` — every block has one holder, and every held address a block

## Main results

- `Heap.Owned.malloc`, `Heap.Owned.pass`, `Heap.Owned.free` — the life of a block
-/

/-- A block of memory: its size, and the string in it once one has been written. -/
structure Block (α : Type*) where
  size : ℕ
  text : Option (List α) := none

/-- The allocated blocks by their addresses. `NULL` is the address 0. -/
structure Heap (α : Type*) where
  blocks : ℕ → Option (Block α) := fun _ => none

namespace Heap

variable {α : Type*}

/-- A heap without blocks. -/
instance : EmptyCollection (Heap α) := ⟨{}⟩

/-- Put a block at an address, or take it away. -/
def set (h : Heap α) (p : ℕ) (b : Option (Block α)) : Heap α :=
  { blocks := Function.update h.blocks p b }

@[simp] theorem blocks_set_self (h : Heap α) (p : ℕ) (b : Option (Block α)) :
    (h.set p b).blocks p = b := Function.update_self _ _ _

theorem blocks_set_of_ne (h : Heap α) {p q : ℕ} (b : Option (Block α)) (hq : q ≠ p) :
    (h.set p b).blocks q = h.blocks q := Function.update_of_ne hq _ _

/-- Allocate at `p`, which the allocator may choose when it is free. -/
def malloc (h : Heap α) (p size : ℕ) : Option (Heap α) :=
  if p = 0 then none
  else match h.blocks p with
    | none => some (h.set p (some { size }))
    | some _ => none

/-- Write a string and the terminator behind it. -/
def strcpy (h : Heap α) (p : ℕ) (s : List α) : Option (Heap α) :=
  match h.blocks p with
  | some b =>
    if s.length < b.size then some (h.set p (some { b with text := some s })) else none
  | none => none

/-- The string at an address. -/
def read (h : Heap α) (p : ℕ) : Option (List α) := (h.blocks p).bind Block.text

/-- Free a block. To free `NULL` does nothing. -/
def free (h : Heap α) (p : ℕ) : Option (Heap α) :=
  if p = 0 then some h
  else match h.blocks p with
    | some _ => some (h.set p none)
    | none => none

section

variable {h h' : Heap α} {p q size : ℕ} {s : List α}

theorem malloc_eq_some (hmalloc : h.malloc p size = some h') :
    p ≠ 0 ∧ h.blocks p = none ∧ h' = h.set p (some { size }) := by
  rw [malloc] at hmalloc
  split_ifs at hmalloc with hp
  split at hmalloc
  case h_1 hfree => exact ⟨hp, hfree, (Option.some.inj hmalloc).symm⟩
  case h_2 => cases hmalloc

theorem blocks_malloc (hmalloc : h.malloc p size = some h') :
    h'.blocks p = some { size } := by
  obtain ⟨-, -, rfl⟩ := malloc_eq_some hmalloc
  exact blocks_set_self ..

theorem blocks_malloc_of_ne (hmalloc : h.malloc p size = some h') (hq : q ≠ p) :
    h'.blocks q = h.blocks q := by
  obtain ⟨-, -, rfl⟩ := malloc_eq_some hmalloc
  exact blocks_set_of_ne h _ hq

/-- A string fits into a block that has room for the terminator. -/
theorem strcpy_of_fits {b : Block α} (hb : h.blocks p = some b) (hfits : s.length < b.size) :
    h.strcpy p s = some (h.set p (some { b with text := some s })) := by
  rw [strcpy, hb]
  exact if_pos hfits

theorem read_eq_of_blocks_eq (hblocks : h'.blocks q = h.blocks q) : h'.read q = h.read q := by
  rw [read, read, hblocks]

end

-- ════════════════════════════════════════════════════════════════════════
-- One holder for each block
-- ════════════════════════════════════════════════════════════════════════

/-- Every block is held by one party, once, and every held address has a block. -/
structure Owned {ι : Type*} (h : Heap α) (held : ι → List ℕ) : Prop where
  custody : Custody (fun p => ∃ b, h.blocks p = some b) held
  null : h.blocks 0 = none

namespace Owned

variable {ι : Type*} {h h' : Heap α} {held held' : ι → List ℕ} {i j : ι} {p : ℕ}

theorem empty (hheld : ∀ i, held i = []) : Owned (∅ : Heap α) held where
  custody := by
    refine .of_nil hheld ?_
    rintro p ⟨b, hb⟩
    cases hb
  null := rfl

theorem exists_block (hown : Owned h held) (hp : p ∈ held i) : ∃ b, h.blocks p = some b :=
  hown.custody.used_of_mem hp

theorem ne_null (hown : Owned h held) (hp : p ∈ held i) : p ≠ 0 := by
  rintro rfl
  obtain ⟨b, hb⟩ := hown.exists_block hp
  rw [hown.null] at hb
  cases hb

/-- When nobody holds a block, none is left. -/
theorem blocks_eq_none (hown : Owned h held) (hheld : ∀ i, held i = []) (p : ℕ) :
    h.blocks p = none :=
  Option.eq_none_iff_forall_ne_some.mpr fun b hb => hown.custody.not_used hheld p ⟨b, hb⟩

/-- The parties may change what they hold as long as each holds the same blocks. -/
theorem of_perm (hown : Owned h held) (hperm : ∀ i, (held' i).Perm (held i)) : Owned h held' :=
  ⟨hown.custody.keep hperm fun _ => Iff.rfl, hown.null⟩

/-- A block that one party passes to another. -/
theorem pass (hown : Owned h held) (hij : i ≠ j) (hi : (held i).Perm (p :: held' i))
    (hj : (held' j).Perm (p :: held j)) (hother : ∀ k, k ≠ i → k ≠ j → held' k = held k) :
    Owned h held' :=
  ⟨hown.custody.pass hij hi hj hother, hown.null⟩

/-- What is written into a block changes no holder. -/
theorem strcpy {s : List α} (hown : Owned h held) (hcpy : h.strcpy p s = some h') :
    Owned h' held := by
  rw [Heap.strcpy] at hcpy
  split at hcpy
  case h_2 => cases hcpy
  case h_1 b hb =>
    split_ifs at hcpy
    cases hcpy
    constructor
    case custody =>
      refine hown.custody.keep (fun _ => List.Perm.refl _) fun q => ?_
      by_cases hq : q = p
      · subst hq
        exact iff_of_true ⟨_, blocks_set_self ..⟩ ⟨b, hb⟩
      · rw [blocks_set_of_ne h _ hq]
    case null =>
      have hp : 0 ≠ p := by
        rintro rfl
        rw [hown.null] at hb
        cases hb
      rw [blocks_set_of_ne h _ hp]
      exact hown.null

/-- The party that allocates a block holds it. -/
theorem malloc {size : ℕ} (hown : Owned h held) (hmalloc : h.malloc p size = some h')
    (hi : (held' i).Perm (p :: held i)) (hother : ∀ k ≠ i, held' k = held k) :
    Owned h' held' := by
  obtain ⟨hp, hfree, -⟩ := malloc_eq_some hmalloc
  have hnew : ¬ ∃ b, h.blocks p = some b := by
    rintro ⟨b, hb⟩
    rw [hfree] at hb
    cases hb
  refine ⟨hown.custody.acquire hnew hi hother fun q => ?_, ?_⟩
  · by_cases hq : q = p
    · subst hq
      exact iff_of_true ⟨_, blocks_malloc hmalloc⟩ (.inl rfl)
    · rw [blocks_malloc_of_ne hmalloc hq, or_iff_right hq]
  · rw [blocks_malloc_of_ne hmalloc hp.symm]
    exact hown.null

/-- Whoever holds a block can free it, and then nobody holds it. -/
theorem free (hown : Owned h held) (hi : (held i).Perm (p :: held' i))
    (hother : ∀ k ≠ i, held' k = held k) :
    ∃ h', h.free p = some h' ∧ Owned h' held' ∧ ∀ q ≠ p, h'.blocks q = h.blocks q := by
  have hpi : p ∈ held i := hi.mem_iff.mpr (List.mem_cons_self ..)
  have hp : p ≠ 0 := hown.ne_null hpi
  obtain ⟨b, hb⟩ := hown.exists_block hpi
  refine ⟨h.set p none, ?_, ⟨?_, ?_⟩, fun q hq => blocks_set_of_ne h _ hq⟩
  · rw [Heap.free, if_neg hp, hb]
  · refine hown.custody.release hi hother fun q => ?_
    by_cases hq : q = p
    · subst hq
      refine iff_of_false ?_ fun hand => hand.1 rfl
      rintro ⟨b', hb'⟩
      rw [blocks_set_self] at hb'
      cases hb'
    · rw [blocks_set_of_ne h _ hq, and_iff_right hq]
  · rw [blocks_set_of_ne h _ hp.symm]
    exact hown.null

end Owned

end Heap
