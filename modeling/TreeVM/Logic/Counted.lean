import Mathlib.Algebra.Group.Int.Defs
import Mathlib.Algebra.Group.Nat.Defs
import Mathlib.Data.List.Basic

/-!
# Loops that count over a table

`for(i = 0; i < len; i++)` with a counter of `w` bits.

* `countLoop`: the loop; the body gets the entry and a state, and can leave the loop;
* `visit`: the body at one entry after the other;
* `EndsOnce`: the loop ends, as if each entry had been visited once;
* `endsOnce_iff`: when it does, for tables up to the first one that the counter does not reach behind.
-/

namespace TreeVM

namespace Counted

variable {ε σ : Type} {w : Nat}

/-- No result stands for a loop that has not ended after so many rounds. -/
def countLoop (len : Nat) (body : Nat → σ → Except ε σ) : Nat → BitVec w → σ → Option (Except ε σ)
  | 0, _, _ => none
  | rounds + 1, i, s =>
      if i.toNat < len then
        match body i.toNat s with
        | .error e => some (.error e)
        | .ok s => countLoop len body rounds (i + 1) s
      else some (.ok s)

/-- The body at `count` entries from `i` on -/
def visit (body : Nat → σ → Except ε σ) : Nat → Nat → σ → Except ε σ
  | 0, _, s => .ok s
  | count + 1, i, s =>
      match body i s with
      | .error e => .error e
      | .ok s => visit body count (i + 1) s

/-- The loop ends, and has visited each of the `len` entries once, unless it was left before. -/
def EndsOnce (w len : Nat) (body : Nat → σ → Except ε σ) (s : σ) : Prop :=
  ∃ rounds, countLoop len body rounds (0 : BitVec w) s = some (visit body len 0 s)

variable {body : Nat → σ → Except ε σ} {len : Nat}

/-- The rounds before the counter wraps -/
theorem countLoop_visit {count i : Nat} (rounds : Nat) (s : σ) (hlen : i + count ≤ len)
    (hfits : i + count ≤ 2 ^ w) :
    countLoop len body (rounds + count) (BitVec.ofNat w i) s =
      match visit body count i s with
      | .error e => some (.error e)
      | .ok s => countLoop len body rounds (BitVec.ofNat w (i + count)) s := by
  induction count generalizing i s with
  | zero => rfl
  | succ count ih =>
      have hi : (BitVec.ofNat w i).toNat = i := by
        rw [BitVec.toNat_ofNat, Nat.mod_eq_of_lt (by omega)]
      have hnext : BitVec.ofNat w i + 1 = BitVec.ofNat w (i + 1) :=
        (BitVec.ofNat_add i 1).symm
      rw [← Nat.add_assoc, countLoop, hi, if_pos (by omega), visit]
      cases body i s with
      | error e => rfl
      | ok s =>
          rw [hnext]
          have hrest := ih s (i := i + 1) (by omega) (by omega)
          rwa [Nat.add_assoc i 1 count, Nat.add_comm 1 count] at hrest

/-- A counter that never reaches the end of the table is never too large. -/
theorem countLoop_never (hlen : 2 ^ w ≤ len) (rounds : Nat) (i : BitVec w) (s s' : σ) :
    countLoop len body rounds i s ≠ some (.ok s') := by
  induction rounds generalizing i s with
  | zero => nofun
  | succ rounds ih =>
      have hi := i.isLt
      rw [countLoop, if_pos (by omega)]
      cases body i.toNat s with
      | error e => nofun
      | ok s => exact ih (i + 1) s

theorem countLoop_ends (s : σ) (hlen : len < 2 ^ w) :
    countLoop len body (1 + len) (0 : BitVec w) s = some (visit body len 0 s) := by
  refine (countLoop_visit 1 s (Nat.le_of_eq (Nat.zero_add len)) (by omega)).trans ?_
  cases visit body len 0 s with
  | error e => rfl
  | ok s' =>
      have hstop : (BitVec.ofNat w (0 + len)).toNat = len := by
        rw [Nat.zero_add, BitVec.toNat_ofNat, Nat.mod_eq_of_lt hlen]
      dsimp only
      rw [countLoop, hstop, if_neg (Nat.lt_irrefl len)]

/-- The loop ends properly, if and only if the counter can pass the last entry or an entry leaves the
loop. -/
theorem endsOnce_iff (s : σ) (hlen : len ≤ 2 ^ w) :
    EndsOnce w len body s ↔ len < 2 ^ w ∨ ∃ e, visit body len 0 s = .error e := by
  constructor
  · rintro ⟨rounds, hends⟩
    by_cases hlt : len < 2 ^ w
    · exact .inl hlt
    · cases hvisit : visit body len 0 s with
      | error e => exact .inr ⟨e, rfl⟩
      | ok s' =>
          rw [hvisit] at hends
          exact absurd hends (countLoop_never (by omega) rounds 0 s s')
  · rintro (hlt | ⟨e, hleaves⟩)
    · exact ⟨1 + len, countLoop_ends s hlt⟩
    · refine ⟨1 + len, (countLoop_visit 1 s (Nat.le_of_eq (Nat.zero_add len)) (by omega)).trans ?_⟩
      rw [hleaves]

/-! ## Rules for the entries -/

/-- An invariant that every entry preserves without leaving the loop -/
theorem visit_invariant {P : Nat → σ → Prop} {count i : Nat} {s : σ} (hstart : P i s)
    (hstep : ∀ (j : Nat) (s : σ), i ≤ j → j < i + count → P j s → ∃ s', body j s = .ok s' ∧ P (j + 1) s') :
    ∃ s', visit body count i s = .ok s' ∧ P (i + count) s' := by
  induction count generalizing i s with
  | zero => exact ⟨s, rfl, hstart⟩
  | succ count ih =>
      obtain ⟨s', hbody, hnext⟩ := hstep i s (Nat.le_refl i) (by omega) hstart
      obtain ⟨s'', hvisit, hend⟩ := ih hnext fun j s hi hj => hstep j s (by omega) (by omega)
      refine ⟨s'', ?_, ?_⟩
      · rw [visit, hbody]
        exact hvisit
      · rwa [Nat.add_assoc, Nat.add_comm 1 count] at hend

/-- A loop that only tests is left at the first entry that fails. -/
theorem visit_leaves_iff {test : Nat → Unit → Except ε Unit} {count i : Nat} :
    (∃ e, visit test count i () = .error e) ↔
      ∃ j, (i ≤ j ∧ j < i + count) ∧ ∃ e, test j () = .error e := by
  induction count generalizing i with
  | zero =>
      simp only [visit, reduceCtorEq, exists_false, false_iff]
      rintro ⟨j, hj, -⟩
      omega
  | succ count ih =>
      rw [visit]
      cases htest : test i () with
      | error e =>
          refine iff_of_true ⟨e, rfl⟩ ⟨i, by omega, e, htest⟩
      | ok s =>
          refine ih.trans ⟨?_, ?_⟩
          · rintro ⟨j, hj, hleaves⟩
            exact ⟨j, by omega, hleaves⟩
          · rintro ⟨j, hj, e, hleaves⟩
            have hne : j ≠ i := by
              rintro rfl
              rw [htest] at hleaves
              cases hleaves
            exact ⟨j, by omega, e, hleaves⟩

end Counted

end TreeVM
