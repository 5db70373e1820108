import Mathlib.Data.List.Basic

/-!
# Interned chains

Tables in which an entry is a leaf or puts a label on another entry.

* `Denotes`: the labels on the way from an entry to its leaf, and the leaf;
* `NoTwins`: no two entries put the same label on the same entry;
* `Denotes.injective`: then two entries that denote the same are one entry.
-/

namespace TreeVM

namespace Interned

section

variable {α κ : Type} (view : α → Option (κ × Nat)) (table : List α)

/-- Entry `i` is a leaf, or has its labels on a leaf; `view` gives the outermost label of an entry. -/
inductive Denotes : Nat → List κ → Nat → Prop
  | leaf {i : Nat} {a : α} : table[i]? = some a → view a = none → Denotes i [] i
  | label {i j n : Nat} {a : α} {k : κ} {ks : List κ} : table[i]? = some a → view a = some (k, j) →
      Denotes j ks n → Denotes i (k :: ks) n

def NoTwins : Prop :=
  ∀ (i j : Nat) (a b : α) (x : κ × Nat), table[i]? = some a → table[j]? = some b →
    view a = some x → view b = some x → i = j

end

variable {α κ : Type} {view : α → Option (κ × Nat)} {table : List α} {i j n m : Nat}
  {ks ks' : List κ}

theorem Denotes.lt (h : Denotes view table i ks n) : i < table.length := by
  cases h with
  | leaf hi _ => exact (List.getElem?_eq_some_iff.mp hi).1
  | label hi _ _ => exact (List.getElem?_eq_some_iff.mp hi).1

theorem Denotes.unique (h : Denotes view table i ks n) (h' : Denotes view table i ks' m) :
    ks = ks' ∧ n = m := by
  induction h generalizing ks' with
  | leaf hi hview =>
      cases h' with
      | leaf => exact ⟨rfl, rfl⟩
      | label hi' hview' _ =>
          cases hi.symm.trans hi'
          cases hview.symm.trans hview'
  | label hi hview _ ih =>
      cases h' with
      | leaf hi' hview' =>
          cases hi.symm.trans hi'
          cases hview.symm.trans hview'
      | label hi' hview' hrest =>
          cases hi.symm.trans hi'
          cases hview.symm.trans hview'
          obtain ⟨rfl, rfl⟩ := ih hrest
          exact ⟨rfl, rfl⟩

/-- Without twins, the labels and the leaf determine the entry. -/
theorem Denotes.injective (htwins : NoTwins view table) (h : Denotes view table i ks n)
    (h' : Denotes view table j ks n) : i = j := by
  induction h generalizing j with
  | leaf =>
      cases h'
      rfl
  | label hi hview _ ih =>
      cases h' with
      | label hj hview' hrest =>
          cases ih hrest
          exact htwins _ _ _ _ _ hi hj hview hview'

theorem Denotes.append (h : Denotes view table i ks n) (more : List α) :
    Denotes view (table ++ more) i ks n := by
  have hkeep : ∀ {i : Nat} {a : α}, table[i]? = some a → (table ++ more)[i]? = some a := by
    intro i a hi
    rw [List.getElem?_append_left (List.getElem?_eq_some_iff.mp hi).1]
    exact hi
  induction h with
  | leaf hi hview => exact .leaf (hkeep hi) hview
  | label hi hview _ ih => exact .label (hkeep hi) hview ih

/-- An entry denotes something when labels lead down in some ranking. -/
theorem exists_denotes (rank : Nat → Nat) (hrank : ∀ (i j : Nat) (a : α) (k : κ),
      table[i]? = some a → view a = some (k, j) → j < table.length ∧ rank j < rank i)
    (hi : i < table.length) : ∃ ks n, Denotes view table i ks n := by
  induction hr : rank i using Nat.strongRecOn generalizing i with
  | ind r ih =>
      subst hr
      have ha := List.getElem?_eq_getElem hi
      cases hview : view table[i] with
      | none => exact ⟨[], i, .leaf ha hview⟩
      | some x =>
          obtain ⟨hj, hlt⟩ := hrank i x.2 _ x.1 ha hview
          obtain ⟨ks, n, hdenotes⟩ := ih (rank x.2) hlt hj rfl
          exact ⟨x.1 :: ks, n, .label ha hview hdenotes⟩

/-! ## A new entry -/

theorem NoTwins.append {a : α} (h : NoTwins view table) (hnew : ∀ b ∈ table, view b ≠ view a) :
    NoTwins view (table ++ [a]) := by
  have hcases : ∀ {i : Nat} {b : α}, (table ++ [a])[i]? = some b →
      table[i]? = some b ∨ i = table.length ∧ b = a := by
    intro i b hi
    by_cases hlt : i < table.length
    · exact .inl (by rwa [List.getElem?_append_left hlt] at hi)
    · rw [List.getElem?_append_right (Nat.le_of_not_lt hlt), List.getElem?_singleton] at hi
      split at hi
      · exact .inr ⟨by omega, (Option.some.inj hi).symm⟩
      · cases hi
  intro i j b c x hb hc hview hview'
  rcases hcases hb with hold | ⟨rfl, rfl⟩ <;> rcases hcases hc with hold' | ⟨rfl, rfl⟩
  · exact h i j b c x hold hold' hview hview'
  · exact absurd (hview.trans hview'.symm) (hnew b (List.mem_of_getElem? hold))
  · exact absurd (hview'.trans hview.symm) (hnew c (List.mem_of_getElem? hold'))
  · rfl

theorem Denotes.new {a : α} {k : κ} (h : Denotes view table j ks n) (hview : view a = some (k, j)) :
    Denotes view (table ++ [a]) table.length (k :: ks) n :=
  .label List.getElem?_concat_length hview (h.append [a])

end Interned

end TreeVM
