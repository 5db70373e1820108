import Mathlib.Data.List.SplitBy
import Mathlib.Data.List.DropRight

/-!
# Pieces of a list

A list is cut at its blank elements.  An element that stands alone is a piece of its own.

* `ordinary`: neither blank nor alone; `pieces`: the maximal runs of ordinary elements, and the
  elements that stand alone, in order;
* `pieces_append`: no piece runs over a cut between two elements that are not both ordinary;
* `FirstPiece`, `pieces_induction`: a list without its first piece.
-/

namespace TreeVM

section Pieces

variable {α : Type} (blank alone : α → Bool)

def ordinary (a : α) : Bool :=
  !blank a && !alone a

/-- Ordinary neighbours stay together, and the blank chunks are left out. -/
def pieces (xs : List α) : List (List α) :=
  (xs.splitBy fun a b => ordinary blank alone a && ordinary blank alone b).filter
    fun chunk => !chunk.any blank

variable {blank alone} {a : α} {xs ys : List α}

@[simp] theorem pieces_nil : pieces blank alone ([] : List α) = [] := rfl

/-- There is no piece with elements of both sides of the cut. -/
theorem pieces_append (h : ∀ x ∈ xs.getLast?, ∀ y ∈ ys.head?,
    (ordinary blank alone x && ordinary blank alone y) = false) :
    pieces blank alone (xs ++ ys) = pieces blank alone xs ++ pieces blank alone ys := by
  rw [pieces, List.splitBy_append h, List.filter_append]
  rfl

theorem pieces_singleton (a : α) :
    pieces blank alone [a] = if blank a then [] else [[a]] := by
  have hchunk : [a].splitBy (fun a b => ordinary blank alone a && ordinary blank alone b) = [[a]] :=
    rfl
  rw [pieces, hchunk]
  cases h : blank a <;> simp [h]

theorem pieces_cons (h : ordinary blank alone a = false) :
    pieces blank alone (a :: xs) = pieces blank alone [a] ++ pieces blank alone xs := by
  rw [← List.singleton_append]
  refine pieces_append fun x hx y _ => ?_
  obtain rfl : x = a := by simpa using hx.symm
  rw [h, Bool.false_and]

theorem pieces_blank (h : blank a = true) :
    pieces blank alone (a :: xs) = pieces blank alone xs := by
  have hcut : ordinary blank alone a = false := by simp [ordinary, h]
  rw [pieces_cons hcut, pieces_singleton, if_pos h, List.nil_append]

theorem pieces_alone (hblank : blank a = false) (halone : alone a = true) :
    pieces blank alone (a :: xs) = [a] :: pieces blank alone xs := by
  have hcut : ordinary blank alone a = false := by simp [ordinary, halone]
  rw [pieces_cons hcut, pieces_singleton, hblank, if_neg Bool.false_ne_true, List.cons_append,
    List.nil_append]

theorem pieces_run {run : List α} (hne : run ≠ [])
    (hrun : ∀ x ∈ run, ordinary blank alone x = true) : pieces blank alone run = [run] := by
  have hchain : run.IsChain fun a b => (ordinary blank alone a && ordinary blank alone b) = true := by
    refine List.Pairwise.isChain ?_
    refine List.Pairwise.imp_of_mem (R := fun _ _ => True) ?_ (List.pairwise_of_forall fun _ _ => trivial)
    intro x y hx hy _
    rw [hrun x hx, hrun y hy, Bool.true_and]
  have hany : run.any blank = false := by
    rw [List.any_eq_false]
    intro x hx
    have h := hrun x hx
    simp only [ordinary, Bool.and_eq_true, Bool.not_eq_true'] at h
    simp [h.1]
  rw [pieces, List.splitBy_of_isChain hne hchain]
  simp [hany]

theorem pieces_dropWhile (xs : List α) :
    pieces blank alone (xs.dropWhile blank) = pieces blank alone xs := by
  induction xs with
  | nil => rfl
  | cons a xs ih =>
      cases h : blank a with
      | false => rw [List.dropWhile_cons_of_neg (by simp [h])]
      | true => rw [List.dropWhile_cons_of_pos h, ih, pieces_blank h]

theorem pieces_rdropWhile (xs : List α) :
    pieces blank alone (xs.rdropWhile blank) = pieces blank alone xs := by
  induction xs using List.reverseRecOn with
  | nil => rfl
  | append_singleton xs a ih =>
      cases h : blank a with
      | false => rw [List.rdropWhile_concat_neg _ _ _ (by simp [h])]
      | true =>
          have hcut : ordinary blank alone a = false := by simp [ordinary, h]
          rw [List.rdropWhile_concat_pos _ _ _ h, ih, pieces_append, pieces_singleton, if_pos h,
            List.append_nil]
          intro x _ y hy
          obtain rfl : y = a := by simpa using hy.symm
          rw [hcut, Bool.and_false]

variable (blank alone) in
/-- `piece` is the first piece of a list that goes on with `rest`. -/
def FirstPiece (piece rest : List α) : Prop :=
  (∃ a, piece = [a] ∧ blank a = false ∧ alone a = true) ∨
  (piece ≠ [] ∧ (∀ x ∈ piece, ordinary blank alone x = true) ∧
    ∀ y ∈ rest.head?, ordinary blank alone y = false)

theorem pieces_blanks {white : List α} (h : ∀ x ∈ white, blank x = true) :
    pieces blank alone (white ++ xs) = pieces blank alone xs := by
  induction white with
  | nil => rfl
  | cons a white ih =>
      obtain ⟨ha, hwhite⟩ := List.forall_mem_cons.mp h
      rw [List.cons_append, pieces_blank ha, ih hwhite]

theorem FirstPiece.pieces {piece rest : List α} (h : FirstPiece blank alone piece rest) :
    pieces blank alone (piece ++ rest) = piece :: pieces blank alone rest := by
  obtain ⟨a, rfl, hblank, halone⟩ | ⟨hne, hrun, hstop⟩ := h
  · exact pieces_alone hblank halone
  · rw [pieces_append, pieces_run hne hrun, List.singleton_append]
    intro x _ y hy
    rw [hstop y hy, Bool.and_false]

/-- The first piece stays when the list ends earlier. -/
theorem FirstPiece.cut {piece rest more : List α} (h : FirstPiece blank alone piece (rest ++ more)) :
    FirstPiece blank alone piece rest := by
  refine h.imp id fun ⟨hne, hrun, hstop⟩ => ⟨hne, hrun, fun y hy => hstop y ?_⟩
  rw [List.head?_append_of_ne_nil]
  · exact hy
  · rintro rfl
    cases hy

theorem firstPiece_single (hblank : blank a = false) (halone : alone a = true) :
    FirstPiece blank alone [a] xs :=
  .inl ⟨a, rfl, hblank, halone⟩

theorem firstPiece_run (xs : List α) (h : ordinary blank alone a = true) :
    FirstPiece blank alone ((a :: xs).takeWhile (ordinary blank alone))
      ((a :: xs).dropWhile (ordinary blank alone)) := by
  refine .inr ⟨by simp [h], fun x hx => List.mem_takeWhile_imp hx, fun y hy => ?_⟩
  have hstop := List.head?_dropWhile_not (ordinary blank alone) (a :: xs)
  rwa [Option.mem_def.mp hy] at hstop

/-- A list is blank, or it has a first piece behind its blanks. -/
theorem blank_or_firstPiece (blank alone : α → Bool) (xs : List α) : (∀ x ∈ xs, blank x = true) ∨
    ∃ white piece rest, xs = white ++ (piece ++ rest) ∧ (∀ x ∈ white, blank x = true) ∧
      FirstPiece blank alone piece rest := by
  have hparts := List.takeWhile_append_dropWhile (p := blank) (l := xs)
  have hwhite : ∀ x ∈ xs.takeWhile blank, blank x = true := fun x hx => List.mem_takeWhile_imp hx
  have hhead := List.head?_dropWhile_not blank xs
  cases hrest : xs.dropWhile blank with
  | nil =>
      rw [hrest, List.append_nil] at hparts
      rw [← hparts]
      exact .inl hwhite
  | cons a rest =>
      rw [hrest] at hparts hhead
      cases halone : alone a with
      | true => exact .inr ⟨_, [a], rest, hparts.symm, hwhite, firstPiece_single hhead halone⟩
      | false =>
          have hord : ordinary blank alone a = true := by
            rw [ordinary, halone, show blank a = false from hhead]
            rfl
          refine .inr ⟨_, _, _, ?_, hwhite, firstPiece_run rest hord⟩
          rw [List.takeWhile_append_dropWhile, hparts]

theorem pieces_eq_nil (h : ∀ x ∈ xs, blank x = true) : pieces blank alone xs = [] := by
  rw [← List.append_nil xs, pieces_blanks h]
  rfl

theorem FirstPiece.ne_nil {piece rest : List α} (h : FirstPiece blank alone piece rest) :
    piece ≠ [] := by
  obtain ⟨a, rfl, -, -⟩ | ⟨hne, -, -⟩ := h
  · exact List.cons_ne_nil a []
  · exact hne

theorem FirstPiece.not_blank {piece rest : List α} (h : FirstPiece blank alone piece rest) :
    ∀ x ∈ piece, blank x = false := by
  obtain ⟨a, rfl, hblank, -⟩ | ⟨-, hrun, -⟩ := h
  · intro x hx
    rwa [List.mem_singleton.mp hx]
  · intro x hx
    have h := hrun x hx
    simp only [ordinary, Bool.and_eq_true, Bool.not_eq_true'] at h
    exact h.1

theorem ne_nil_of_mem_pieces {piece : List α} (h : piece ∈ pieces blank alone xs) : piece ≠ [] :=
  List.ne_nil_of_mem_splitBy (List.mem_of_mem_filter h)

/-- Induction that takes the first piece off, with the blanks before it -/
@[elab_as_elim]
theorem pieces_induction (blank alone : α → Bool) {motive : List α → Prop}
    (blanks : ∀ xs, (∀ x ∈ xs, blank x = true) → motive xs)
    (first : ∀ white piece rest, (∀ x ∈ white, blank x = true) →
      FirstPiece blank alone piece rest → motive rest → motive (white ++ (piece ++ rest)))
    (xs : List α) : motive xs := by
  induction hn : xs.length using Nat.strongRecOn generalizing xs with
  | ind n ih =>
      subst hn
      obtain hxs | ⟨white, piece, rest, rfl, hwhite, hpiece⟩ := blank_or_firstPiece blank alone xs
      · exact blanks xs hxs
      · have hpos := List.length_pos_iff.mpr hpiece.ne_nil
        refine first white piece rest hwhite hpiece (ih rest.length ?_ rest rfl)
        rw [List.length_append, List.length_append]
        omega

/-- Nothing but blanks is lost. -/
theorem flatten_pieces (blank alone : α → Bool) (xs : List α) :
    (pieces blank alone xs).flatten = xs.filter fun a => !blank a := by
  have hblanks : ∀ white : List α, (∀ x ∈ white, blank x = true) →
      white.filter (fun a => !blank a) = [] := by
    intro white h
    rw [List.filter_eq_nil_iff]
    intro x hx
    simp [h x hx]
  induction xs using pieces_induction blank alone with
  | blanks xs h =>
      rw [pieces_eq_nil h, hblanks xs h]
      rfl
  | first white piece rest hwhite hpiece ih =>
      have hkeep : piece.filter (fun a => !blank a) = piece := by
        rw [List.filter_eq_self]
        intro x hx
        simp [hpiece.not_blank x hx]
      rw [pieces_blanks hwhite, hpiece.pieces, List.flatten_cons, ih, List.filter_append,
        List.filter_append, hblanks white hwhite, hkeep, List.nil_append]

end Pieces

end TreeVM
