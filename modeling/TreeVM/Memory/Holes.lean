import TreeVM.Memory.Bytes
import Mathlib.Data.List.Basic

/-!
# Code with holes

A back end that emits forward jumps writes placeholders and overwrites them later.  Here `w` is the
width of a placeholder and `holes` are the positions of those that are still open.

* `AtExcept w holes mem code`: the memory holds `code`, up to the open holes;
* `AtExcept.patched`: overwriting a placeholder opens a hole in the code before, and the memory
  holds the new bytes there;
* `Apart w`: two placeholders do not overlap.
-/

namespace TreeVM

/-- Two placeholders of width `w` do not overlap. -/
def Apart (w p q : Nat) : Prop :=
  p + w ≤ q ∨ q + w ≤ p

theorem Apart.symm {w p q : Nat} (h : Apart w p q) : Apart w q p :=
  Or.symm h

def InHole (w : Nat) (holes : List Nat) (i : Nat) : Prop :=
  ∃ p ∈ holes, p ≤ i ∧ i < p + w

/-- The memory holds `code` from address `0` on, except in the open holes. -/
def AtExcept (w : Nat) (holes : List Nat) (mem : Nat → UInt8) (code : List UInt8) : Prop :=
  ∀ i, (h : i < code.length) → ¬ InHole w holes i → mem i = code[i]

theorem InHole.mono {w : Nat} {holes holes' : List Nat} {i : Nat} (h : InHole w holes i)
    (hsub : ∀ p ∈ holes, p ∈ holes') : InHole w holes' i := by
  obtain ⟨p, hp, hi⟩ := h
  exact ⟨p, hsub p hp, hi⟩

namespace AtExcept

variable {w : Nat} {holes holes' : List Nat} {mem : Nat → UInt8} {code : List UInt8}

/-- Holes that begin behind the code do not matter to it. -/
theorem mono (h : AtExcept w holes mem code)
    (hsub : ∀ p ∈ holes, p ∈ holes' ∨ code.length ≤ p) : AtExcept w holes' mem code := by
  intro i hi hhole
  refine h i hi fun ⟨p, hp, hpi⟩ => ?_
  rcases hsub p hp with hp | hp
  · exact hhole ⟨p, hp, hpi⟩
  · omega

theorem of_append {bs : List UInt8} (h : AtExcept w holes mem (code ++ bs)) :
    AtExcept w holes mem code := by
  intro i hi hhole
  rw [h i (by simp; omega) hhole, List.getElem_append_left hi]

/-- What was emitted behind all open holes stands in the memory. -/
theorem emitted {bs : List UInt8} (h : AtExcept w holes mem (code ++ bs))
    (hbehind : ∀ p ∈ holes, p + w ≤ code.length ∨ code.length + bs.length ≤ p) :
    At mem code.length bs := by
  refine At.iff_getElem.mpr fun k hk => ?_
  have hfree : ¬ InHole w holes (code.length + k) := by
    rintro ⟨p, hp, hpi⟩
    rcases hbehind p hp with hp | hp <;> omega
  rw [h _ (by simp; omega) hfree, List.getElem_append_right (by omega)]
  simp

theorem of_at (h : At mem 0 code) : AtExcept w [] mem code := by
  intro i hi _
  have hb := At.iff_getElem.mp h i hi
  rwa [Nat.zero_add] at hb

section Patched

variable {p : Nat} {bs : List UInt8}

theorem getElem_patched_of_lt {i : Nat} (hp : p + bs.length ≤ code.length)
    (h : i < (code.take p ++ bs ++ code.drop (p + bs.length)).length)
    (hi : i < p ∨ p + bs.length ≤ i) (hc : i < code.length) :
    (code.take p ++ bs ++ code.drop (p + bs.length))[i] = code[i] := by
  rcases hi with hi | hi
  · rw [List.getElem_append_left (by simp; omega), List.getElem_append_left (by simp; omega),
      List.getElem_take]
  · have hlen : (code.take p ++ bs).length = p + bs.length := by simp; omega
    rw [List.getElem_append_right (by omega), List.getElem_drop]
    congr 1
    omega

/-- The code before a placeholder was overwritten agrees with the memory up to that placeholder. -/
theorem before_patch (hp : p + bs.length ≤ code.length) (hw : bs.length = w)
    (h : AtExcept w holes mem (code.take p ++ bs ++ code.drop (p + bs.length))) :
    AtExcept w (p :: holes) mem code := by
  intro i hi hhole
  have hout : i < p ∨ p + bs.length ≤ i := by
    by_contra hin
    exact hhole ⟨p, by simp, by omega, by omega⟩
  have hlen : (code.take p ++ bs ++ code.drop (p + bs.length)).length = code.length := by
    simp
    omega
  rw [h i (by omega) fun hin => hhole (hin.mono (by simp +contextual)),
    getElem_patched_of_lt hp (by omega) hout hi]

/-- The memory holds the bytes that a placeholder was overwritten with. -/
theorem patched (hp : p + bs.length ≤ code.length) (hw : bs.length = w)
    (hapart : ∀ q ∈ holes, Apart w p q)
    (h : AtExcept w holes mem (code.take p ++ bs ++ code.drop (p + bs.length))) :
    At mem p bs := by
  refine At.iff_getElem.mpr fun k hk => ?_
  have hfree : ¬ InHole w holes (p + k) := by
    rintro ⟨q, hq, hqi⟩
    rcases hapart q hq with hq | hq <;> omega
  rw [h (p + k) (by simp; omega) hfree, List.getElem_append_left (by simp; omega),
    List.getElem_append_right (by rw [List.length_take]; omega)]
  have hindex : p + k - (code.take p).length = k := by
    rw [List.length_take]
    omega
  simp only [hindex]

end Patched

end AtExcept

end TreeVM
