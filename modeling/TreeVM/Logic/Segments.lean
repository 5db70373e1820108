import Mathlib.Data.List.Basic

/-!
# Segments of one growing array

Several owners keep their elements in one array that only grows at its end.  The segment of an
owner is a start and a length; it is extended in place while it is the last one and copied to the
end before it grows otherwise.

* `drop_take_add`: the segment after one more element, wherever it was moved;
* `take_drop_append`: what is behind a segment does not matter to it;
* `read`: the segment read through a counter of a fixed width, `read_eq`: when that is harmless;
* `eraseDups_concat`: distinct elements in the order of their first occurrence.
-/

namespace TreeVM

variable {α : Type}

/-- The segment of the owner after a new edge, wherever it was moved. -/
theorem drop_take_add (l : List α) (start num : Nat) (x : α)
    (hle : start + num ≤ l.length) {start' : Nat} {l' : List α}
    (h : (num = 0 ∧ start' = l.length ∧ l' = l) ∨
      (start' = l.length ∧ l' = l ++ (l.drop start).take num) ∨
      (start' = start ∧ start + num = l.length ∧ l' = l)) :
    ((l' ++ [x]).drop start').take (num + 1) = (l.drop start).take num ++ [x] ∧
      start' + (num + 1) ≤ (l' ++ [x]).length := by
  have hlen : ((l.drop start).take num).length = num := by
    rw [List.length_take, List.length_drop]
    omega
  rcases h with ⟨rfl, rfl, rfl⟩ | ⟨rfl, rfl⟩ | ⟨rfl, heq, rfl⟩
  · simp
  · rw [List.append_assoc, List.drop_left]
    refine ⟨List.take_of_length_le (by rw [List.length_append, hlen]; simp), ?_⟩
    simp only [List.length_append, hlen, List.length_singleton]
    omega
  · have hdrop : (l'.drop start').take num = l'.drop start' :=
      List.take_of_length_le (by rw [List.length_drop]; omega)
    rw [List.drop_append_of_le_length (by omega), hdrop]
    refine ⟨List.take_of_length_le ?_, ?_⟩
    · rw [List.length_append, List.length_drop, List.length_singleton]
      omega
    · rw [List.length_append, List.length_singleton]
      omega

theorem take_drop_append {l rest : List α} {start num : Nat}
    (hle : start + num ≤ l.length) :
    ((l ++ rest).drop start).take num = (l.drop start).take num := by
  rw [List.drop_append_of_le_length (by omega), List.take_append_of_le_length]
  rw [List.length_drop]
  omega

namespace Segments

/-- The cells of a segment, each read at an index below `w`. -/
def read (w : Nat) (cells : List α) (start num : Nat) : List α :=
  (List.range num).filterMap fun i => cells[(start + i) % w]?

theorem read_eq {w : Nat} {cells : List α} {start num : Nat} (hle : start + num ≤ cells.length)
    (hw : start + num ≤ w) : read w cells start num = (cells.drop start).take num := by
  induction num with
  | zero =>
      simp [read]
  | succ num ih =>
      have hlast : cells[(start + num) % w]? = (cells.drop start)[num]? := by
        rw [Nat.mod_eq_of_lt (by omega), List.getElem?_drop]
      have hinit := ih (by omega) (by omega)
      rw [read] at hinit ⊢
      rw [List.range_succ, List.filterMap_append, hinit, List.take_add_one, ← hlast]
      congr 1

theorem eraseDups_concat [BEq α] [LawfulBEq α] (l : List α) (x : α) [Decidable (x ∈ l)] :
    (l ++ [x]).eraseDups = if x ∈ l then l.eraseDups else l.eraseDups ++ [x] := by
  rw [List.eraseDups_append]
  split
  · rename_i hx
    have hnone : [x].removeAll l = [] := by simp [List.removeAll, hx]
    rw [hnone, List.eraseDups_nil, List.append_nil]
  · rename_i hx
    have hall : [x].removeAll l = [x] := by simp [List.removeAll, hx]
    rw [hall]
    simp [List.eraseDups_cons]

theorem eraseDups_ne_twice [BEq α] [LawfulBEq α] {l rest : List α} {x : α} :
    l.eraseDups ≠ x :: x :: rest := by
  intro h
  cases l with
  | nil => exact List.cons_ne_nil _ _ h.symm
  | cons a l =>
      rw [List.eraseDups_cons, List.cons.injEq] at h
      obtain ⟨rfl, h⟩ := h
      have hmem : a ∈ (l.filter fun b => !b == a).eraseDups := h ▸ List.mem_cons_self
      have hne := List.of_mem_filter (List.mem_eraseDups.mp hmem)
      simp at hne

end Segments

end TreeVM
