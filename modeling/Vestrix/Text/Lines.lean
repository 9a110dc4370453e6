/-
# Lines of a file

A chain file is read line by line, both by iterating over a binary file in Python and
by `read_until(b'\n')` in Rust: a line ends with a line feed, except that the last one
may end with the file.
-/

import Mathlib.Data.List.DropRight

namespace Vestrix
namespace Text

/-- A line feed. -/
def lineFeed : UInt8 := 10

/-- The lines of a file, with their line feeds. -/
def physicalLines : List UInt8 → List (List UInt8)
  | [] => []
  | b :: s =>
    if b = lineFeed then [b] :: physicalLines s
    else match physicalLines s with
      | [] => [[b]]
      | l :: ls => (b :: l) :: ls

/-- A file of the given lines. -/
def joinLines (lines : List (List UInt8)) : List UInt8 := lines.flatMap (· ++ [lineFeed])

/-- No lines are no bytes. -/
@[simp] theorem joinLines_nil : joinLines [] = [] := rfl

/-- The first line comes first, with its line feed. -/
@[simp] theorem joinLines_cons (l : List UInt8) (ls : List (List UInt8)) :
    joinLines (l :: ls) = l ++ lineFeed :: joinLines ls := by
  rw [joinLines, List.flatMap_cons, List.append_assoc]
  rfl

/-- A line ends at its first line feed. -/
theorem physicalLines_append {l : List UInt8} (h : lineFeed ∉ l) (s : List UInt8) :
    physicalLines (l ++ lineFeed :: s) = (l ++ [lineFeed]) :: physicalLines s := by
  induction l with
  | nil => rw [List.nil_append, physicalLines, if_pos rfl, List.nil_append]
  | cons b l ih =>
    rw [List.mem_cons, not_or] at h
    rw [List.cons_append, physicalLines, if_neg (Ne.symm h.1), ih h.2, List.cons_append]

/-- **A file splits into the lines it was made of.** -/
theorem physicalLines_joinLines {lines : List (List UInt8)} (h : ∀ l ∈ lines, lineFeed ∉ l) :
    physicalLines (joinLines lines) = lines.map (· ++ [lineFeed]) := by
  induction lines with
  | nil => rfl
  | cons l ls ih =>
    rw [List.forall_mem_cons] at h
    rw [joinLines_cons, physicalLines_append h.1, ih h.2, List.map_cons]

/-- The lines of a file that ends with a line feed, and of what follows it. -/
theorem physicalLines_append_of_terminated {s : List UInt8}
    (h : ∀ l ∈ physicalLines s, l.getLast? = some lineFeed) (t : List UInt8) :
    physicalLines (s ++ t) = physicalLines s ++ physicalLines t := by
  induction s with
  | nil => rfl
  | cons b s ih =>
    rw [physicalLines] at h
    rw [List.cons_append, physicalLines, physicalLines]
    split_ifs at h ⊢ with hb
    · rw [ih fun l hl => h l (List.mem_cons_of_mem _ hl), List.cons_append]
    · cases hs : physicalLines s with
      | nil =>
        rw [hs] at h
        exact absurd (Option.some.inj (h [b] (List.mem_singleton_self _))) hb
      | cons l ls =>
        rw [hs, List.forall_mem_cons] at h
        obtain ⟨hhead, htail⟩ := h
        have hl : l.getLast? = some lineFeed := by
          cases l with
          | nil => exact absurd (Option.some.inj hhead) hb
          | cons c l => rwa [List.getLast?_cons_cons] at hhead
        rw [ih (by rw [hs]; exact List.forall_mem_cons.2 ⟨hl, htail⟩), hs]
        rfl

/-- A line that is appended to a file of whole lines is one more line. -/
theorem physicalLines_append_line {s l : List UInt8}
    (h : ∀ l ∈ physicalLines s, l.getLast? = some lineFeed) (hl : lineFeed ∉ l) :
    physicalLines (s ++ (l ++ [lineFeed])) = physicalLines s ++ [l ++ [lineFeed]] := by
  rw [physicalLines_append_of_terminated h, physicalLines_append hl]
  rfl

/-- The lines of a file are the whole file. -/
theorem flatten_physicalLines (s : List UInt8) : (physicalLines s).flatten = s := by
  induction s with
  | nil => rfl
  | cons b s ih =>
    rw [physicalLines]
    split_ifs
    · rw [List.flatten_cons, ih, List.singleton_append]
    · cases h : physicalLines s with
      | nil =>
        rw [h, List.flatten_nil] at ih
        rw [← ih]
        rfl
      | cons l ls =>
        rw [h, List.flatten_cons] at ih
        rw [List.flatten_cons, List.cons_append, ih]

/-- A file that is not empty has a line. -/
theorem physicalLines_ne_nil {s : List UInt8} (h : s ≠ []) : physicalLines s ≠ [] := by
  intro hnil
  have hflatten := flatten_physicalLines s
  rw [hnil] at hflatten
  exact h hflatten.symm

/-- Every line of a file that ends with a line feed does. -/
theorem terminated_of_getLast? {s : List UInt8} (h : ∀ b ∈ s.getLast?, b = lineFeed) :
    ∀ l ∈ physicalLines s, l.getLast? = some lineFeed := by
  induction s with
  | nil => exact fun l hl => absurd hl List.not_mem_nil
  | cons b s ih =>
    have hs : ∀ c ∈ s.getLast?, c = lineFeed := fun c hc => by
      cases s with
      | nil => cases hc
      | cons d s => exact h c (by rwa [List.getLast?_cons_cons])
    rw [physicalLines]
    split_ifs with hb
    · rw [List.forall_mem_cons, hb]
      exact ⟨rfl, ih hs⟩
    · cases hlines : physicalLines s with
      | nil =>
        have hnil := flatten_physicalLines s
        rw [hlines, List.flatten_nil] at hnil
        rw [← hnil] at h
        exact absurd (h b rfl) hb
      | cons l ls =>
        obtain ⟨hl, hls⟩ := List.forall_mem_cons.1 (hlines ▸ ih hs)
        refine List.forall_mem_cons.2 ⟨?_, hls⟩
        rw [List.getLast?_cons, hl]
        rfl

/-- The first lines of a file, where they end with line feeds, are a file of their own. -/
theorem exists_of_physicalLines_eq_append {s : List UInt8} {ls ms : List (List UInt8)}
    (h : physicalLines s = ls ++ ms) (hls : ∀ l ∈ ls, l.getLast? = some lineFeed) :
    ∃ t u, s = t ++ u ∧ physicalLines t = ls ∧ physicalLines u = ms := by
  induction s generalizing ls with
  | nil =>
    obtain ⟨rfl, rfl⟩ := List.append_eq_nil_iff.1 h.symm
    exact ⟨[], [], rfl, rfl, rfl⟩
  | cons b s ih =>
    cases ls with
    | nil => exact ⟨[], b :: s, rfl, rfl, h⟩
    | cons l ls =>
      rw [List.forall_mem_cons] at hls
      rw [physicalLines, List.cons_append] at h
      split_ifs at h with hb
      · obtain ⟨rfl, htail⟩ := List.cons.inj h
        obtain ⟨t, u, rfl, ht, hu⟩ := ih htail hls.2
        exact ⟨b :: t, u, rfl, by rw [physicalLines, if_pos hb, ht], hu⟩
      · cases hs : physicalLines s with
        | nil =>
          rw [hs] at h
          obtain ⟨rfl, -⟩ := List.cons.inj h
          exact absurd (Option.some.inj hls.1) hb
        | cons k ks =>
          rw [hs] at h
          obtain ⟨rfl, rfl⟩ := List.cons.inj h
          have hk : k.getLast? = some lineFeed := by
            cases k with
            | nil => exact absurd (Option.some.inj hls.1) hb
            | cons c k =>
              have hlast := hls.1
              rwa [List.getLast?_cons_cons] at hlast
          obtain ⟨t, u, rfl, ht, hu⟩ := ih (show _ = (k :: ls) ++ ms from hs) (List.forall_mem_cons.2 ⟨hk, hls.2⟩)
          exact ⟨b :: t, u, rfl, by rw [physicalLines, if_neg hb, ht], hu⟩

/-- **The last line of a file** is what follows the last line feed before its end. -/
theorem getLast?_physicalLines (s : List UInt8) :
    (physicalLines (s ++ [lineFeed])).getLast? =
      some (s.rtakeWhile (· ≠ lineFeed) ++ [lineFeed]) := by
  have hfront : ∀ b ∈ (s.rdropWhile (· ≠ lineFeed)).getLast?, b = lineFeed := by
    intro b hb
    obtain ⟨hne, rfl⟩ := List.mem_getLast?_eq_getLast hb
    simpa using List.rdropWhile_last_not (· ≠ lineFeed) s hne
  have hlast : lineFeed ∉ s.rtakeWhile (· ≠ lineFeed) := fun h => by
    simpa using List.mem_rtakeWhile_imp h
  conv_lhs => rw [← List.rdropWhile_append_rtakeWhile (p := (· ≠ lineFeed)) (l := s), List.append_assoc]
  rw [physicalLines_append_line (terminated_of_getLast? hfront) hlast, List.getLast?_concat]

/-- No line is empty. -/
theorem length_physicalLines_le (s : List UInt8) : (physicalLines s).length ≤ s.length := by
  induction s with
  | nil => exact le_refl 0
  | cons b s ih =>
    rw [physicalLines, List.length_cons]
    split_ifs
    · rw [List.length_cons]
      exact Nat.succ_le_succ ih
    · cases h : physicalLines s with
      | nil => exact Nat.succ_le_succ (Nat.zero_le _)
      | cons l ls =>
        rw [h] at ih
        exact ih.trans (Nat.le_succ _)

end Text
end Vestrix
