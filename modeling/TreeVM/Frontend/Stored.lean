import TreeVM.Defer.Refinement
import TreeVM.Frontend.Counters
import TreeVM.Frontend.Translation

/-!
# What is stored of a source

The REPL lowers the defers of a function before it stores it.  Statements whose protected bodies are
left by no exit keep their meaning.

* `Stmts.Kept`: these statements;
* `Stmts.breaksIn`: the breaks in the tree of statements;
* `lowered_translates`: the frontend and `lower_func_defers`, one after the other.
-/

namespace TreeVM

namespace Stmts

/-- No exit leaves a body that a cleanup protects. -/
def Kept : Stmts → Prop
  | done => True
  | op _ rest => rest.Kept
  | loop body rest => body.Kept ∧ rest.Kept
  | ifThen _ yes rest => yes.Kept ∧ rest.Kept
  | ifElse _ yes no rest => yes.Kept ∧ no.Kept ∧ rest.Kept
  | exit _ rest => rest.Kept
  | protect body cleanup rest => body.Stays ∧ body.Kept ∧ cleanup.Kept ∧ rest.Kept
  | defer cleanup rest => rest.Stays ∧ cleanup.Kept ∧ rest.Kept
  | var _ rest => rest.Kept

theorem Kept.straight {p : Stmts} (h : p.Kept) : p.Straight := by
  induction p with
  | done => trivial
  | op _ _ ih => exact ih h
  | loop _ _ ihb ih => exact ⟨ihb h.1, ih h.2⟩
  | ifThen _ _ _ ihy ih => exact ⟨ihy h.1, ih h.2⟩
  | ifElse _ _ _ _ ihy ihn ih => exact ⟨ihy h.1, ihn h.2.1, ih h.2.2⟩
  | exit _ _ ih => exact ih h
  | protect _ _ _ ihb ihc ih => exact ⟨ihb h.2.1, ihc h.2.2.1, ih h.2.2.2⟩
  | defer _ _ ihc ih => exact ⟨.inr h.1, ihc h.2.1, ih h.2.2⟩
  | var _ _ ih => exact ih h

/-- Where no exit may stand, none leaves the statements. -/
theorem Legal.stays {p : Stmts} (h : p.Legal False) : p.Stays := by
  induction p with
  | done => trivial
  | op _ _ ih => exact ih h
  | loop _ _ _ ih => exact ih h.2
  | ifThen _ _ _ ihy ih => exact ⟨ihy h.1, ih h.2⟩
  | ifElse _ _ _ _ ihy ihn ih => exact ⟨ihy h.1, ihn h.2.1, ih h.2.2⟩
  | exit _ _ _ => exact h.1.elim
  | protect _ _ _ ihb ihc ih => exact ⟨ihb h.1, ihc h.2.1, ih h.2.2⟩
  | defer _ _ ihc ih => exact ⟨ihc h.1, ih h.2⟩
  | var _ _ ih => exact ih h

end Stmts

/-! ## The breaks of statements -/

/-- A property of breaks that only depends on the frames up to the innermost loop -/
structure Admits (P : List Frame → Nat → Prop) : Prop where
  scope : ∀ {path level}, 1 ≤ level → P path level → P (.scope :: path) (level + 1)
  arm : ∀ {path level}, 1 ≤ level → P path level → P (.arm :: path) level
  loop : ∀ {path level}, 1 ≤ level → level ≤ 2 → P (.scope :: .scope :: .scope :: path) level

/-- The exits that may stand here have the property. -/
structure ExitsHold (P : List Frame → Nat → Prop) (path : List Frame) (depth : Nat) (l : LoopDepths) : Prop where
  within : l.Within depth
  holds : ∀ isContinue, P path (l.level depth isContinue)

section Breaks

variable {P : List Frame → Nat → Prop} {path : List Frame} {depth : Nat} {l : LoopDepths}

theorem LoopDepths.level_pos (c : Bool) : 1 ≤ l.level depth c :=
  Nat.le_add_left 1 _

theorem ExitsHold.inner (hP : Admits P) (h : ExitsHold P path depth l) : ExitsHold P (.scope :: path) (depth + 1) l where
  within := h.within.mono 1
  holds c := by
    rw [LoopDepths.level_succ h.within]
    exact hP.scope (LoopDepths.level_pos c) (h.holds c)

theorem ExitsHold.arm (hP : Admits P) (h : ExitsHold P path depth l) : ExitsHold P (.arm :: path) depth l :=
  ⟨h.within, fun c => hP.arm (LoopDepths.level_pos c) (h.holds c)⟩

theorem ExitsHold.inside (hP : Admits P) (path : List Frame) (depth : Nat) :
    ExitsHold P (.scope :: .scope :: .scope :: path) (depth + 3) (.inside depth) where
  within := LoopDepths.inside_within depth
  holds c := by
    refine hP.loop (LoopDepths.level_pos c) ?_
    cases c <;> simp only [LoopDepths.level, LoopDepths.inside, LoopDepths.target] <;> split <;> omega

theorem triple_breaksIn {r : OpRange} {middle after : Tree} (hmiddle : middle.BreaksIn P (.scope :: path))
    (hafter : after.BreaksIn P (.scope :: path)) : (Tree.triple (.basic r) middle after).BreaksIn P path :=
  ⟨trivial, hmiddle, hafter, trivial⟩

/-- Every break of the tree is an exit that may stand where it stands. -/
theorem Stmts.breaksIn (hP : Admits P) {p : Stmts} {start pos : Nat} {inLoop : Prop} (hkept : p.Kept)
    (hlegal : p.Legal inLoop) (hexits : p.Stays ∨ ExitsHold P path depth l) :
    (p.tree start pos depth l).BreaksIn P path := by
  induction p generalizing path start pos depth l inLoop with
  | done => trivial
  | op o rest ih => exact ih hkept hlegal hexits
  | loop body rest ihb ih =>
      have hbody : (body.tree pos pos (depth + 3) (.inside depth)).BreaksIn P
          (.scope :: .scope :: .scope :: path) := ihb hkept.1 hlegal.1 (.inr (.inside hP path depth))
      exact triple_breaksIn ⟨hbody, trivial⟩ (ih hkept.2 hlegal.2 (hexits.imp id fun h => h.inner hP))
  | ifThen cond yes rest ihy ih =>
      refine triple_breaksIn ⟨ihy hkept.1 hlegal.1 (hexits.imp And.left fun h => (h.inner hP).arm hP), trivial⟩ ?_
      exact ih hkept.2 hlegal.2 (hexits.imp And.right fun h => h.inner hP)
  | ifElse cond yes no rest ihy ihn ih =>
      refine triple_breaksIn ⟨ihy hkept.1 hlegal.1 (hexits.imp And.left fun h => (h.inner hP).arm hP), ?_⟩ ?_
      · exact ihn hkept.2.1 hlegal.2.1 (hexits.imp (fun h => h.2.1) fun h => (h.inner hP).arm hP)
      · exact ih hkept.2.2 hlegal.2.2 (hexits.imp (fun h => h.2.2) fun h => h.inner hP)
  | exit c rest ih =>
      rcases hexits with hstays | hexits
      · exact hstays.elim
      · exact triple_breaksIn ((hexits.inner hP).holds c) (ih hkept hlegal.2 (.inr (hexits.inner hP)))
  | protect body cleanup rest ihb ihc ih =>
      -- neither the body nor the cleanup is left
      refine triple_breaksIn ⟨ihb hkept.2.1 hlegal.1 (.inl hkept.1), ?_⟩ ?_
      · exact ihc hkept.2.2.1 hlegal.2.1 (.inl hlegal.2.1.stays)
      · exact ih hkept.2.2.2 hlegal.2.2 (hexits.imp (fun h => h.2.2) fun h => h.inner hP)
  | defer cleanup rest ihc ih =>
      refine triple_breaksIn ⟨ih hkept.2.2 hlegal.2 (.inl hkept.1), ?_⟩ trivial
      exact ihc hkept.2.1 hlegal.1 (.inl hlegal.1.stays)
  | var v rest ih =>
      exact ⟨trivial, ih hkept hlegal (hexits.imp id fun h => (h.inner hP).inner hP), trivial⟩

theorem admits_keepsBodies : Admits KeepsBodies where
  scope hlevel h := by
    refine ⟨Nat.le_add_left 1 _, fun f hf => ?_⟩
    rcases List.mem_cons.mp hf with rfl | hf
    · rfl
    · exact h.2 f hf
  arm := by
    rintro path (_ | level) hlevel h
    · cases hlevel
    · refine ⟨hlevel, fun f hf => ?_⟩
      rcases List.mem_cons.mp hf with rfl | hf
      · rfl
      · exact h.2 f hf
  loop := by
    intro path level hlevel hle
    refine ⟨hlevel, fun f hf => ?_⟩
    have hcases : level = 1 ∨ level = 2 := by omega
    rcases hcases with rfl | rfl <;> simp [leaves, Frame.counted] at hf <;> rw [hf] <;> rfl

theorem admits_within : Admits fun path level => level ≤ path.length + 1 where
  scope _ h := Nat.succ_le_succ h
  arm _ h := Nat.le_succ_of_le h
  loop _ h := Nat.le_trans h (by simp only [List.length_cons]; omega)

theorem levelsWithin_of_breaksIn {t : Tree} (h : t.BreaksIn (fun path level => level ≤ path.length + 1) path) :
    t.LevelsWithin path.length := by
  induction t generalizing path with
  | defer id next cleanup ihn ihc => exact ⟨ihn h.1, ihc h.2⟩
  | many body ih => exact ih h
  | chain cur next ihc ihn => exact ⟨ihc h.1, ihn h.2⟩
  | crashPad body pad ihb ihp => exact ⟨ihb h.1, ihp h.2⟩
  | branch cond yes no ihy ihn => exact ⟨ihy h.1, ihn h.2⟩
  | loop body ih => exact ih h
  | brk level => exact h
  | var v body ih => exact ih h
  | mark m t ih => exact ih h
  | _ => trivial

end Breaks

/-- Without `BLOCK_DEFER` nothing is lowered. -/
theorem deferFree_of_represents {bs : List Block} {place : Place} {t : Tree} {S : Nat → Prop}
    (h : Represents S bs place t) (hnone : ¬ bs.any Block.isDefer) : t.DeferFree := by
  induction h with
  | defer _ hb _ _ _ _ => exact absurd (List.any_eq_true.mpr ⟨_, List.mem_of_getElem? hb, rfl⟩) hnone
  | crashPad _ _ _ _ ihb ihp => exact ⟨ihb, ihp⟩
  | branch _ _ _ _ ihy ihn => exact ⟨ihy, ihn⟩
  | link _ _ _ _ ihc ihs => exact ⟨ihc, ihs⟩
  | last _ ih => exact ⟨ih, trivial⟩
  | many _ _ _ ih => exact ih
  | loop _ _ _ ih => exact ih
  | var _ _ _ ih => exact ih
  | mark _ ih => exact ih
  | _ => trivial

/-- No break of kept statements leaves more blocks than it stands in. -/
theorem Stmts.Kept.levelsWithin {p : Stmts} (hkept : p.Kept) (hlegal : p.Legal False) :
    (p.tree 0 0 0 {}).LevelsWithin 0 := by
  have hwithin : (p.tree 0 0 0 {}).BreaksIn (fun path level => level ≤ path.length + 1) [] :=
    Stmts.breaksIn admits_within hkept hlegal (.inl hlegal.stays)
  exact levelsWithin_of_breaksIn hwithin

/-- None leaves a protected body. -/
theorem Stmts.Kept.bodiesKept {p : Stmts} (hkept : p.Kept) (hlegal : p.Legal False) :
    (p.tree 0 0 0 {}).BodiesKept :=
  Stmts.breaksIn admits_keepsBodies hkept hlegal (.inl hlegal.stays)

/-- Behind the defers a function of kept statements still does what they do. -/
theorem Stmts.Kept.lowered {source : Func} {p : Stmts} (hkept : p.Kept) (hlegal : p.Legal False)
    (hops : source.ops = p.ops) (hrep : RepresentsTree source.blocks (p.tree 0 0 0 {})) {n : Nat}
    (hn : (p.tree 0 0 0 {}).size ≤ n) :
    ∃ f t, lowerFuncDefers n source = some f ∧ f.ops = p.ops ∧ RepresentsTree f.blocks t ∧ t.DeferFree ∧
      ∀ {σ : Type} (M : Machine σ) (k : Nat) (s : σ), M.ops = f.ops → M.Silent →
        t.eval M k s = (p.exec M k s s).toOutcome (({} : LoopDepths).level 0) := by
  rw [lowerFuncDefers]
  by_cases hany : source.blocks.any Block.isDefer
  · obtain ⟨out, hrun, hout⟩ := removeDefers_represents hrep (hkept.levelsWithin hlegal)
    rw [if_pos hany, hrun n hn]
    refine ⟨_, (p.tree 0 0 0 {}).lower [], rfl, hops, hout, Tree.deferFree_lower (by simp), ?_⟩
    intro σ M k s hM hsilent
    rw [eval_lower (hkept.bodiesKept hlegal)]
    exact Stmts.eval_whole hsilent hkept.straight (hM.trans hops) s
  · rw [if_neg hany]
    refine ⟨source, p.tree 0 0 0 {}, rfl, hops, hrep, deferFree_of_represents hrep hany, ?_⟩
    intro σ M k s hM hsilent
    exact Stmts.eval_whole hsilent hkept.straight (hM.trans hops) s

/-! ## The frontend and `lower_func_defers` -/

section Sources

variable {M : Type} {macros : Nat → Frontend M → Option VmResult × Frontend M} {literalAt : Nat → UInt64}
  {fe fe' : Frontend M} {fuel : Nat} {source : Text}

/-- Accepted source is statements.  Where no exit leaves a protected body, the function without its
defers does what they do. -/
theorem lowered_translates (hblocks : fe.func.blocks = []) (hops : fe.func.ops = [])
    (hscopes : fe.scopes = []) (hdepth : fe.scopeDepth = 0)
    (hquick : ∀ st, EngagedBy macros literalAt source fe st → ¬ st.RunsMacro)
    (hvar : ∀ st, EngagedBy macros literalAt source fe st → ¬ st.DeclaresInCondition)
    (h : compileSource macros literalAt fuel source fe = some (true, fe')) :
    ∃ p : Stmts, (∀ q : Stmts, q.lexemes = sourceLexemes macros literalAt fuel source fe ↔ q = p) ∧
      (p.Kept → RepresentsTree fe'.func.blocks (p.tree 0 0 0 {}) ∧ (p.tree 0 0 0 {}).LevelsWithin 0 ∧
        (p.tree 0 0 0 {}).BodiesKept ∧
        ∀ n, (p.tree 0 0 0 {}).size ≤ n → ∃ f t, lowerFuncDefers n fe'.func.toFunc = some f ∧
          f.ops = p.ops ∧ RepresentsTree f.blocks t ∧ t.DeferFree ∧
          ∀ {σ : Type} (M : Machine σ) (k : Nat) (s : σ), M.ops = f.ops → M.Silent →
            t.eval M k s = (p.exec M k s s).toOutcome (({} : LoopDepths).level 0)) := by
  obtain ⟨p, hwritten, hlegal, hops', htree⟩ :=
    compileSource_statements hblocks hops hscopes hdepth hquick hvar h
  exact ⟨p, hwritten, fun hkept => ⟨htree, hkept.levelsWithin hlegal, hkept.bodiesKept hlegal,
    fun n hn => hkept.lowered hlegal hops' htree hn⟩⟩

end Sources

/-! ## A sample -/

/-- The body in front of the cleanup has a loop with an exit. -/
def finallySource : Text :=
  utf8 "Var Int x Start Loop x x Add Break Again Finally x x Sub End x 1 Assign"

def finallyStmts : Stmts :=
  .var 0 (.protect
    (.loop (.op ⟨.pushVar, 0⟩ (.op ⟨.pushVar, 0⟩ (.op ⟨.addAssign, 0⟩ (.exit false .done)))) .done)
    (.op ⟨.pushVar, 0⟩ (.op ⟨.pushVar, 0⟩ (.op ⟨.subAssign, 0⟩ .done)))
    (.op ⟨.pushVar, 0⟩ (.op ⟨.pushGlobal, 0⟩ (.op ⟨.assign, 0⟩ .done))))

theorem lowered_translates_finally :
    ∃ (fe' : Frontend Unit) (f : Func) (t : Tree),
      compileSource noMacros (fun _ => 0) 20 finallySource emptyFrontend = some (true, fe') ∧
      (finallyStmts.tree 0 0 0 {}).BodiesKept ∧
      lowerFuncDefers 80 fe'.func.toFunc = some f ∧ f.ops = finallyStmts.ops ∧
      RepresentsTree f.blocks t ∧ t.DeferFree ∧
      ∀ {σ : Type} (M : Machine σ) (k : Nat) (s : σ), M.ops = f.ops → M.Silent →
        t.eval M k s = (finallyStmts.exec M k s s).toOutcome (({} : LoopDepths).level 0) := by
  obtain ⟨fe', hsample, -⟩ := sample_of_run 20 finallySource (fun _ => true)
    (by decide) (by decide)
  obtain ⟨p, hwritten, hlowered⟩ :=
    lowered_translates rfl rfl rfl rfl hsample.quick hsample.var hsample.compiled
  obtain rfl : finallyStmts = p := (hwritten _).mp (by decide)
  obtain ⟨-, -, hbodies, hlower⟩ := hlowered (by simp [finallyStmts, Stmts.Kept, Stmts.Stays])
  obtain ⟨f, t, hlower, hops, hrep, hfree, heval⟩ := hlower 80 (by decide)
  exact ⟨fe', f, t, hsample.compiled, hbodies, hlower, hops, hrep, hfree, heval⟩

end TreeVM
