import TreeVM.Defer.Paths
import TreeVM.IR.Semantics

/-!
# Lowering preserves meaning when no break leaves a protected body

`eval_lower`: for every machine, every start state and every number of loop rounds, the lowered
tree ends as the source tree does.  The induction is on the tree; what carries it is that no
outcome of a protected body is a break (`eval_brk`), so that the four blocks a defer becomes
only have to agree with it on normal ends, crashes and halts.
-/

namespace TreeVM

/-- The break leaves no protected body, of a defer or of a crash pad. -/
def KeepsBodies (path : List Frame) (level : Nat) : Prop :=
  1 ≤ level ∧ ∀ f ∈ leaves path level, f.epilogue = none

/-- No break leaves the body of a defer or of a crash pad. -/
def Tree.BodiesKept (t : Tree) : Prop :=
  t.BreaksIn KeepsBodies []

theorem Frame.inlined_none {f : Frame} (h : f.epilogue = none) : f.inlined = none := by
  cases f <;> simp_all [Frame.epilogue, Frame.inlined]

theorem KeepsBodies.popped {path : List Frame} {level : Nat} (h : KeepsBodies path level) :
    popped path level = [] := by
  rw [popped_eq path h.1]
  refine List.filterMap_eq_nil_iff.mpr fun f hf => ?_
  exact Frame.inlined_none (h.2 f (List.mem_of_mem_take hf))

theorem KeepsBodies.outer {path : List Frame} {f : Frame} {level : Nat}
    (h : KeepsBodies (f :: path) level) (hf : f.counted = false) : KeepsBodies path level := by
  obtain ⟨hl, h⟩ := h
  obtain ⟨level, rfl⟩ : ∃ n, level = n + 1 := ⟨level - 1, by omega⟩
  refine ⟨hl, fun g hg => h g ?_⟩
  simp [leaves, hf, hg]

theorem KeepsBodies.outer_scope {path : List Frame} {f : Frame} {level : Nat}
    (h : KeepsBodies (f :: path) level) (hf : f.counted = true) (hlevel : ¬ level ≤ 1) :
    KeepsBodies path (level - 1) := by
  obtain ⟨hl, h⟩ := h
  obtain ⟨level, rfl⟩ : ∃ n, level = n + 1 := ⟨level - 1, by omega⟩
  refine ⟨by omega, fun g hg => h g ?_⟩
  simp only [Nat.add_sub_cancel] at hg
  simp [leaves, hf, hg]

/-- A break cannot come out of a protected body. -/
theorem not_keepsBodies_of_epilogue {path : List Frame} {f : Frame} {u : Tree} {level : Nat}
    (hf : f.epilogue = some u) : ¬ KeepsBodies (f :: path) level := by
  rintro ⟨hl, h⟩
  obtain ⟨level, rfl⟩ : ∃ n, level = n + 1 := ⟨level - 1, by omega⟩
  have := h f (by simp [leaves])
  simp [this] at hf

section Eval

variable {σ : Type} (M : Machine σ) (fuel : Nat)

theorem Outcome.scope_eq_brk {o : Outcome σ} {n : Nat} {s : σ} (h : o.scope = .brk n s) :
    ∃ m, o = .brk m s ∧ ¬ m ≤ 1 ∧ n = m - 1 := by
  cases o with
  | brk m s' =>
      simp only [Outcome.scope] at h
      split at h
      · cases h
      · rename_i hm
        cases h
        exact ⟨m, rfl, hm, rfl⟩
  | _ => simp [Outcome.scope] at h

theorem Outcome.reraise_eq_brk {o : Outcome σ} {raise : σ → σ} {n : Nat} {s : σ}
    (h : o.reraise raise = .brk n s) : o = .brk n s := by
  cases o <;> simp_all [Outcome.reraise]

theorem Outcome.exited_eq_brk {o : Outcome σ} {note : Event → σ → σ} {id n : Nat} {s : σ}
    (h : o.exited note id = .brk n s) : ∃ s', o = .brk n s' := by
  cases o <;> simp_all [Outcome.exited]

theorem Outcome.close_eq_brk {o : Outcome σ} {note : Event → σ → σ} {m : Mark} {n : Nat} {s : σ}
    (h : o.close note m = .brk n s) : ∃ s', o = .brk n s' := by
  cases m <;> cases o <;> simp_all [Outcome.close, Outcome.exited, Outcome.leftBy]

theorem Step.outcome_eq_brk {r : Step σ} {k : σ → Outcome σ} {n : Nat} {s : σ}
    (h : r.outcome k = .brk n s) : ∃ s', r = .ok s' ∧ k s' = .brk n s := by
  cases r with
  | ok s' => exact ⟨s', rfl, h⟩
  | _ => simp [Step.outcome] at h

theorem Machine.iterate_eq_brk {body : σ → Outcome σ} {n : Nat} {s s' : σ}
    (h : Machine.iterate body fuel s = .brk n s') : ∃ s'', body s'' = .brk n s' := by
  induction fuel generalizing s with
  | zero => simp [Machine.iterate] at h
  | succ fuel ih =>
      simp only [Machine.iterate] at h
      split at h
      · exact ih h
      · exact ⟨s, h⟩

variable {M fuel}

/-- A break that comes out of a tree keeps the bodies around it. -/
theorem eval_brk {t : Tree} {path : List Frame} (ht : t.BreaksIn KeepsBodies path)
    {s s' : σ} {n : Nat} (h : t.eval M fuel s = .brk n s') : KeepsBodies path n := by
  induction t generalizing path s s' n with
  | basic ops =>
      obtain ⟨_, -, h⟩ := Step.outcome_eq_brk h
      cases h
  | defer id next cleanup ihn ihc =>
      obtain ⟨m, hm, hm1, rfl⟩ := Outcome.scope_eq_brk h
      split at hm
      · exact (ihc ht.2 hm).outer_scope rfl hm1
      · rename_i hnext
        obtain ⟨_, hnext⟩ := Outcome.exited_eq_brk hnext
        exact absurd (ihn ht.1 hnext) (not_keepsBodies_of_epilogue rfl)
      · exact (ihc ht.2 (Outcome.reraise_eq_brk hm)).outer_scope rfl hm1
      · obtain ⟨_, hnext⟩ := Outcome.exited_eq_brk hm
        exact absurd (ihn ht.1 hnext) (not_keepsBodies_of_epilogue rfl)
  | many body ih =>
      obtain ⟨m, hm, hm1, rfl⟩ := Outcome.scope_eq_brk h
      exact (ih ht hm).outer_scope rfl hm1
  | chain cur next ihc ihn =>
      simp only [Tree.eval] at h
      split at h
      · exact ihn ht.2 h
      · exact ihc ht.1 h
  | crashPad body pad ihb ihp =>
      simp only [Tree.eval] at h
      split at h
      · exact (ihp ht.2 (Outcome.reraise_eq_brk h)).outer rfl
      · exact absurd (ihb ht.1 h) (not_keepsBodies_of_epilogue rfl)
  | branch cond yes no ihy ihn =>
      obtain ⟨s₁, -, harm⟩ := Step.outcome_eq_brk h
      split at harm
      · exact (ihy ht.1 harm).outer rfl
      · exact (ihn ht.2 harm).outer rfl
  | loop body ih =>
      obtain ⟨m, hm, hm1, rfl⟩ := Outcome.scope_eq_brk h
      obtain ⟨_, hbody⟩ := Machine.iterate_eq_brk fuel hm
      exact (ih ht hbody).outer_scope rfl hm1
  | brk level =>
      cases h
      exact ht
  | var v body ih =>
      obtain ⟨s₁, -, hscope⟩ := Step.outcome_eq_brk h
      obtain ⟨m, hm, hm1, rfl⟩ := Outcome.scope_eq_brk hscope
      cases hb : body.eval M fuel s₁ with
      | brk k s₂ =>
          simp only [hb, Outcome.release, Outcome.brk.injEq] at hm
          rw [← hm.1] at hm1 ⊢
          exact (ih ht hb).outer_scope rfl hm1
      | _ => simp [hb, Outcome.release] at hm
  | mark m t ih =>
      obtain ⟨_, hinner⟩ := Outcome.close_eq_brk h
      exact ih ht hinner
  | _ => simp [Tree.eval] at h

/-- Falling off the end of a sequence of one changes nothing. -/
theorem eval_chain_stop (t : Tree) (s : σ) :
    (Tree.chain t .stop).eval M fuel s = t.eval M fuel s := by
  simp only [Tree.eval]
  split
  · rename_i h
    rw [h]
  · rfl

/-- The four blocks that replace a defer whose body is never left by a break. -/
theorem eval_defer_blocks {id : Nat} {next cleanup next' cleanup' : Tree}
    (hnext : ∀ s, next'.eval M fuel s = next.eval M fuel s)
    (hcleanup : ∀ s, cleanup'.eval M fuel s = cleanup.eval M fuel s)
    (hbrk : ∀ s n s', next.eval M fuel s ≠ .brk n s') (s : σ) :
    (Tree.deferBlocks id next' cleanup').eval M fuel s =
      (Tree.defer id next cleanup).eval M fuel s := by
  have hstop : ∀ s, (Tree.chain (.mark (.cleanup id) cleanup') .stop).eval M fuel s = _ :=
    eval_chain_stop (.mark (.cleanup id) cleanup')
  simp only [Tree.eval] at hstop
  simp only [Tree.deferBlocks, Tree.eval, Outcome.close, hnext, hcleanup] at hstop ⊢
  congr 1
  cases hn : next.eval M fuel (M.note (.mark (.enter id)) s) with
  | normal s' => exact hstop _
  | brk n s' => exact absurd hn (hbrk _ n s')
  | crash s' =>
      -- the handler has run: whatever it does, the crash pad does not end normally
      simp only [Outcome.exited]
      cases cleanup.eval M fuel
        (M.note (.mark (.cleanup id)) (M.restore s (M.note (.exit id) s'))) <;> rfl
  | halt s' => rfl
  | timeout s' => rfl

theorem eval_lower {t : Tree} {path : List Frame} (ht : t.BreaksIn KeepsBodies path) (s : σ) :
    (t.lower path).eval M fuel s = t.eval M fuel s := by
  induction t generalizing path s with
  | defer id next cleanup ihn ihc =>
      refine eval_defer_blocks (fun s => ihn ht.1 s) (fun s => ihc ht.2 s) ?_ s
      intro s n s' h
      exact not_keepsBodies_of_epilogue rfl (eval_brk ht.1 h)
  | many body ih => simp only [Tree.lower, Tree.eval, ih ht]
  | chain cur next ihc ihn => simp only [Tree.lower, Tree.eval, ihc ht.1, ihn ht.2]
  | crashPad body pad ihb ihp => simp only [Tree.lower, Tree.eval, ihb ht.1, ihp ht.2]
  | branch cond yes no ihy ihn => simp only [Tree.lower, Tree.eval, ihy ht.1, ihn ht.2]
  | loop body ih =>
      have hbody : (body.lower (.scope :: path)).eval M fuel = body.eval M fuel := by
        funext s
        exact ih ht s
      simp only [Tree.lower, Tree.eval, hbody]
  | brk level =>
      have hpop : popped path level = [] := KeepsBodies.popped ht
      simp [Tree.lower, hpop, Tree.breakBlocks]
  | var v body ih => simp only [Tree.lower, Tree.eval, ih ht]
  | mark m t ih => simp only [Tree.lower, Tree.eval, ih ht]
  | _ => rfl

end Eval

/-- The output of the pass contains no defer and, run on any machine from any state, ends as the
source tree does: same outcome, same final state, same operations in the same order. -/
theorem removeDefers_preserves {blocks : List Block} {t : Tree} (h : RepresentsTree blocks t)
    (hlev : t.LevelsWithin 0) (hkept : t.BodiesKept) :
    ∃ out lowered, (∀ fuel, t.size ≤ fuel → removeDefers fuel blocks = some out) ∧
      RepresentsTree out lowered ∧ lowered.DeferFree ∧
      ∀ (σ : Type) (M : Machine σ) (fuel : Nat) (s : σ × List Event),
        lowered.eval M.traced fuel s = t.eval M.traced fuel s := by
  obtain ⟨out, hrun, hout⟩ := removeDefers_represents h hlev
  refine ⟨out, t.lower [], hrun, hout, Tree.deferFree_lower (by simp), ?_⟩
  intro σ M fuel s
  exact eval_lower hkept s

/-- A body that crashes, guarded by two defers; the outer cleanup has a defer of its own, and
its cleanup crashes. -/
def crashingCleanups : List Block :=
  [.defer 1 2, .defer 3 4, .defer 5 6, .crash, .basic ⟨0, 1⟩, .basic ⟨1, 1⟩, .crash]

def crashingCleanupsTree : Tree :=
  .defer 0 (.defer 1 .crash (.basic ⟨0, 1⟩)) (.defer 2 (.basic ⟨1, 1⟩) .crash)

theorem removeDefers_preserves_crashingCleanups :
    ∃ out lowered, (∀ fuel, crashingCleanupsTree.size ≤ fuel →
        removeDefers fuel crashingCleanups = some out) ∧
      RepresentsTree out lowered ∧ lowered.DeferFree ∧
      ∀ (σ : Type) (M : Machine σ) (fuel : Nat) (s : σ × List Event),
        lowered.eval M.traced fuel s = crashingCleanupsTree.eval M.traced fuel s := by
  refine removeDefers_preserves ?_ ?_ ?_
  · exact .defer trivial rfl
      (.defer trivial rfl (.crash trivial rfl) (.basic trivial rfl))
      (.defer trivial rfl (.basic trivial rfl) (.crash trivial rfl))
  · simp [crashingCleanupsTree, Tree.LevelsWithin]
  · simp [crashingCleanupsTree, Tree.BodiesKept, Tree.BreaksIn]

end TreeVM
