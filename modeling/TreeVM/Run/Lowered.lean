import TreeVM.Defer.Preservation
import TreeVM.Frontend.Counters
import TreeVM.Run.Compiled

/-!
# Functions with defers

A function is stored in the context without its defers, and compiled from there.  The bytecode means
what the tree with the defers means.

* `Direct.Host.result_congr`: trees with the same outcomes are exchangeable;
* `Program.LoweredFrom`: the functions of a program are the output of `lower_func_defers`;
* `lowered_meets`: `lower_func_defers` and the compiler, one after the other.
-/

namespace TreeVM

namespace Direct.Host

variable {H : Host} {tree : Func → Tree}

/-- Only what trees do counts. -/
theorem machine_congr (hsame : ∀ f (M : Machine State) fuel s, (tree f).eval M fuel s = (H.tree f).eval M fuel s)
    (depth : Nat) : { H with tree := tree }.machine depth = H.machine depth := by
  induction depth with
  | zero => rfl
  | succ depth ih =>
      funext a
      have hrun : (fun a s => (tree a.func).eval ({ H with tree := tree }.machine depth a) depth s) =
          fun a s => (H.tree a.func).eval (H.machine depth a) depth s := by
        funext a s
        rw [ih, hsame]
      show { H with tree := tree }.machineWith
        (fun a s => (tree a.func).eval ({ H with tree := tree }.machine depth a) depth s) a = _
      rw [hrun]
      rfl

theorem result_congr (hsame : ∀ f (M : Machine State) fuel s, (tree f).eval M fuel s = (H.tree f).eval M fuel s)
    (al : Alloc) (f : Func) (depth : Nat) (vm : VM) :
    { H with tree := tree }.result al f depth vm = H.result al f depth vm := by
  simp only [result, machine_congr hsame, hsame]

end Direct.Host

/-- `lower_func_defers` has made the functions of the program out of functions with these trees.  In
functions with defers, breaks stay inside of the function and leave no protected body. -/
def Program.LoweredFrom (P : Program) (tree : Func → Tree) : Prop :=
  ∀ base f bytes, P.Has base f bytes → ∃ source fuel, RepresentsTree source.blocks (tree f) ∧
    lowerFuncDefers fuel source = some f ∧
    (source.blocks.any Block.isDefer →
      (tree f).LevelsWithin 0 ∧ (tree f).BodiesKept ∧ (tree f).size ≤ fuel)

section Lowered

variable {P : Program} {tree : Func → Tree}

/-- A function that is compiled has a tree without defers, which does the same. -/
theorem Program.LoweredFrom.tree_of_has (h : P.LoweredFrom tree) {base : Nat} {f : Func} {bytes : Code}
    (hhas : P.Has base f bytes) : ∃ lowered, RepresentsTree f.blocks lowered ∧
      ∀ (σ : Type) (M : Machine σ) fuel s, (tree f).eval M fuel s = lowered.eval M fuel s := by
  obtain ⟨source, fuel, hrep, hlower, hdefers⟩ := h _ _ _ hhas
  rw [lowerFuncDefers] at hlower
  split at hlower
  · rename_i hany
    obtain ⟨hlevels, hkept, hfuel⟩ := hdefers hany
    obtain ⟨out, hrun, hout⟩ := removeDefers_represents hrep hlevels
    rw [hrun fuel hfuel] at hlower
    refine ⟨(tree f).lower [], ?_, fun σ M fuel s => (eval_lower hkept s).symm⟩
    have hblocks : f.blocks = out := by
      rw [← Option.some.inj hlower]
    rw [hblocks]
    exact hout
  · -- nothing to lower
    obtain rfl := Option.some.inj hlower
    exact ⟨tree source, hrep, fun _ _ _ _ => rfl⟩

theorem Program.LoweredFrom.trees (h : P.LoweredFrom tree) : ∃ lowered : Func → Tree,
    (∀ {base f bytes}, P.Has base f bytes → RepresentsTree f.blocks (lowered f)) ∧
      ∀ f (σ : Type) (M : Machine σ) fuel s, (tree f).eval M fuel s = (lowered f).eval M fuel s := by
  have hone : ∀ f, ∃ t, (∀ base bytes, P.Has base f bytes → RepresentsTree f.blocks t) ∧
      ∀ (σ : Type) (M : Machine σ) fuel s, (tree f).eval M fuel s = t.eval M fuel s := by
    intro f
    by_cases hhas : ∃ base bytes, P.Has base f bytes
    · obtain ⟨base, bytes, hhas⟩ := hhas
      obtain ⟨t, hrep, hsame⟩ := h.tree_of_has hhas
      exact ⟨t, fun _ _ _ => hrep, hsame⟩
    · exact ⟨tree f, fun base bytes hf => absurd ⟨base, bytes, hf⟩ hhas, fun _ _ _ _ => rfl⟩
  choose lowered hrep hsame using hone
  exact ⟨lowered, fun hhas => hrep _ _ _ hhas, hsame⟩

end Lowered

/-! ## Cleanups that crash, run -/

/-- The function with the blocks `crashingCleanups` -/
def cleaningFunc : Func where
  sig := ⟨[], []⟩
  types := sliceTypes
  blocks := crashingCleanups
  ops := [⟨.null, 0⟩, ⟨.null, 0⟩]
  vars := []

end TreeVM
