import TreeVM.Frontend.Steps
import TreeVM.Frontend.Words

/-!
# The words and the tree

Every function of the frontend takes a state whose scopes fit the tree to such a state, also when it
fails, and nothing is taken out of the tree.

* `Advances`: this relation between the states;
* one lemma for each function, up to `engageToken_advances` and `compileSource_advances`.
-/

namespace TreeVM

variable {M : Type} {firstVar : Nat} {fe fe' fe'' : Frontend M} {F : Footprint}

theorem KeepsInner.trans {bs bs' bs'' : List Block} (h : KeepsInner bs bs')
    (h' : KeepsInner bs' bs'') : KeepsInner bs bs'' := by
  intro i b hb hinner
  obtain ⟨b', hb', hinner', heq⟩ := h i b hb hinner
  obtain ⟨b'', hb'', hinner'', heq'⟩ := h' i b' hb' hinner'
  refine ⟨b'', hb'', hinner'', fun hne => ?_⟩
  obtain rfl := heq hne
  exact heq' hne

theorem KeepsInner.refl (bs : List Block) : KeepsInner bs bs :=
  fun _ b hb hinner => ⟨b, hb, hinner, fun _ => rfl⟩

/-- The scopes fit the tree again, which has only grown. -/
def Advances (firstVar : Nat) (fe fe' : Frontend M) : Prop :=
  ∀ F, FootprintFits firstVar fe F →
    KeepsInner fe.func.blocks fe'.func.blocks ∧ ∃ F', (∀ e ∈ F, e ∈ F') ∧ FootprintFits firstVar fe' F'

namespace Advances

theorem refl (fe : Frontend M) : Advances firstVar fe fe :=
  fun F hF => ⟨.refl _, F, fun _ he => he, hF⟩

theorem trans (h : Advances firstVar fe fe') (h' : Advances firstVar fe' fe'') :
    Advances firstVar fe fe'' := by
  intro F hF
  obtain ⟨hkeeps, F', hsub, hF'⟩ := h F hF
  obtain ⟨hkeeps', F'', hsub', hF''⟩ := h' F' hF'
  exact ⟨hkeeps.trans hkeeps', F'', fun e he => hsub' e (hsub e he), hF''⟩

/-- The step may use that the scopes fit. -/
theorem of_fits (h : ∀ F, FootprintFits firstVar fe F → Advances firstVar fe fe') :
    Advances firstVar fe fe' :=
  fun F hF => h F hF F hF

end Advances

/-- Nothing changes that the invariant is about. -/
structure SameTree (fe fe' : Frontend M) : Prop where
  blocks : fe'.func.blocks = fe.func.blocks
  ops : fe'.func.ops = fe.func.ops
  vars : fe'.func.vars = fe.func.vars
  scopes : fe'.scopes = fe.scopes
  currentBasic : fe'.currentBasic = fe.currentBasic
  scopeDepth : fe'.scopeDepth = fe.scopeDepth

theorem SameTree.fits (h : SameTree fe fe') (hF : FootprintFits firstVar fe F) : FootprintFits firstVar fe' F := by
  rw [FootprintFits, h.blocks, h.ops, h.vars, h.scopes, h.currentBasic, h.scopeDepth]
  exact hF

theorem SameTree.advances (h : SameTree fe fe') : Advances firstVar fe fe' := by
  intro F hF
  refine ⟨?_, F, fun _ he => he, h.fits hF⟩
  rw [h.blocks]
  exact .refl _

theorem SameTree.refl (fe : Frontend M) : SameTree fe fe :=
  ⟨rfl, rfl, rfl, rfl, rfl, rfl⟩

theorem SameTree.trans (h : SameTree fe fe') (h' : SameTree fe' fe'') : SameTree fe fe'' :=
  ⟨h'.blocks.trans h.blocks, h'.ops.trans h.ops, h'.vars.trans h.vars, h'.scopes.trans h.scopes,
    h'.currentBasic.trans h.currentBasic, h'.scopeDepth.trans h.scopeDepth⟩

/-! ## Operations -/

theorem FootprintFits.prepare (hF : FootprintFits firstVar fe F) : prepareFunc fe = (some (), fe) := by
  obtain ⟨R, E, covered, h⟩ := hF
  obtain ⟨r, hr⟩ := h.leaf
  rw [prepareFunc]
  cases hblocks : fe.func.blocks with
  | nil =>
      rw [hblocks] at hr
      cases hr
  | cons entry blocks =>
      rw [hblocks] at hr
      simp [hr]

/-- Neither a condition is awaited nor a cleanup. -/
theorem Frontend.phase_of_ready (hready : fe.readyForWord = true) {scope : FrontendScope}
    {rest : List FrontendScope} (heq : fe.scopes = scope :: rest) :
    scope.phase ≠ .waitOpen ∧ scope.phase ≠ .cleanupWaitOpen := by
  rw [Frontend.readyForWord, heq] at hready
  simpa using hready

theorem Frontend.reading_iff (hready : fe.readyForWord = true) :
    Reading fe.scopes ↔ fe.inCondition := by
  constructor
  · rintro ⟨scope, rest, heq, hkind, hphase⟩
    exact ⟨scope, rest, heq, hkind, hphase.resolve_left (Frontend.phase_of_ready hready heq).1⟩
  · rintro ⟨scope, rest, heq, hkind, hphase⟩
    exact ⟨scope, rest, heq, hkind, .inr hphase⟩

theorem emitOp_of_fits (hF : FootprintFits firstVar fe F) (op : Op) :
    emitOp op fe =
      (some (), let fe := { fe with func := { fe.func with ops := fe.func.ops ++ [op] } }
        if fe.inCondition then fe else fe.extendBasic) := by
  simp only [emitOp, Bind.bind, hF.prepare, FrontStep.modify]

theorem emitOp_advances (op : Op) (hready : fe.readyForWord = true) :
    Advances firstVar fe (emitOp op fe).2 := by
  intro F hF
  rw [emitOp_of_fits hF]
  obtain ⟨R, E, covered, h⟩ := hF
  by_cases hcond : fe.inCondition
  · obtain ⟨scope, rest, heq, hkind, hphase⟩ := id hcond
    rw [if_pos (by exact hcond)]
    refine ⟨.refl _, F, fun _ he => he, R, E, covered, ?_⟩
    rw [heq] at h
    have hread := h.read hkind hphase
    simpa [heq] using hread
  · have hreading : ¬ Reading fe.scopes := fun hr => hcond ((Frontend.reading_iff hready).mp hr)
    obtain ⟨-, r, hcur, -⟩ := h.writing hreading
    have hemit := h.emit hreading
    rw [if_neg (by exact hcond)]
    refine ⟨(relabels_end hcur).keepsInner, F, fun _ he => he, R, E, fe.func.ops.length + 1, ?_⟩
    simpa [Frontend.extendBasic, Frontend.setBlocks] using hemit

theorem emitOp_scopes (hF : FootprintFits firstVar fe F) (op : Op) : (emitOp op fe).2.scopes = fe.scopes := by
  rw [emitOp_of_fits hF]
  by_cases hcond : fe.inCondition
  · rw [if_pos (by exact hcond)]
  · rw [if_neg (by exact hcond)]
    rfl

/-! ## Leaving and entering -/

/-- A leaf that waits becomes the current block. -/
theorem enterBlock_advances {i depth : Nat} {scopes : List FrontendScope}
    (hwaits : ∀ F R E covered, ScopesStand firstVar fe.func.blocks fe.func.ops.length fe.func.vars.length
      fe.scopes fe.currentBasic fe.scopeDepth F R E covered → i ∈ R.waiting ∧
        ∃ R' E', ScopesStand firstVar (fe.func.blocks.modify i (Block.setStart fe.func.ops.length))
          fe.func.ops.length fe.func.vars.length scopes i depth F R' E' fe.func.ops.length) :
    Advances firstVar fe { { fe with scopes := scopes }.enterBlock i with scopeDepth := depth } := by
  rintro F ⟨R, E, covered, h⟩
  obtain ⟨hi, R', E', hentered⟩ := hwaits F R E covered h
  obtain ⟨st, hst⟩ := h.waiting i hi
  exact ⟨(relabels_start hst).keepsInner, F, fun _ he => he, R', E', fe.func.ops.length, hentered⟩

theorem leave_advances {scope : FrontendScope} {rest : List FrontendScope}
    (heq : fe.scopes = scope :: rest) (hreading : ¬ Reading fe.scopes) :
    Advances firstVar fe (fe.leave scope) := by
  refine enterBlock_advances fun F R E covered h => ?_
  rw [heq] at h hreading ⊢
  exact h.leave hreading

theorem badControl_sameTree {α : Type} : SameTree fe (badControl (α := α) fe).2 :=
  ⟨rfl, rfl, rfl, rfl, rfl, rfl⟩

/-- Control words are refused where a parenthesis is expected or a condition is read. -/
theorem Frontend.inBody (hclosed : fe.closedToControl = false) : InBody fe.scopes := by
  constructor
  · rintro ⟨scope, rest, heq, -, hphase⟩
    rw [Frontend.closedToControl, heq] at hclosed
    rcases hphase with hphase | hphase <;> simp [hphase] at hclosed
  · intro scope rest heq hphase
    rw [Frontend.closedToControl, heq] at hclosed
    simp [hphase] at hclosed

theorem not_reading_of_kind {scopes rest : List FrontendScope} {scope : FrontendScope}
    (heq : scopes = scope :: rest) (hkind : scope.kind ≠ .branch) : ¬ Reading scopes := by
  rintro ⟨scope', rest', heq', hkind', -⟩
  rw [heq] at heq'
  cases heq'
  exact hkind hkind'

theorem not_reading_of_phase {scopes rest : List FrontendScope} {scope : FrontendScope}
    (heq : scopes = scope :: rest) (hphase : scope.phase = .body ∨ scope.phase = .elseBody) :
    ¬ Reading scopes := by
  rintro ⟨scope', rest', heq', -, hphase'⟩
  rw [heq] at heq'
  cases heq'
  rcases hphase with h | h <;> rcases hphase' with h' | h' <;> rw [h] at h' <;> cases h'

/-- The scope around the innermost one takes words. -/
theorem FootprintFits.inBody_tail (hF : FootprintFits firstVar fe F) {scope : FrontendScope}
    {rest : List FrontendScope} (heq : fe.scopes = scope :: rest) : InBody rest := by
  obtain ⟨R, E, covered, h⟩ := hF
  have hopened := h.opened
  rw [heq] at hopened
  cases hopened with
  | cons _ hrest _ _ _ _ _ _ _ _ => exact hrest

theorem endLoop_advances : Advances firstVar fe (endLoop fe).2 := by
  rw [endLoop]
  split
  · rename_i scope rest heq
    split
    · rename_i hkind
      exact leave_advances heq (not_reading_of_kind heq (by simp [hkind]))
    · exact badControl_sameTree.advances
  · exact badControl_sameTree.advances

theorem finishEpilogue_advances : Advances firstVar fe (finishEpilogue fe).2 := by
  rw [finishEpilogue]
  split
  · rename_i scope rest heq
    split
    · rename_i hcase
      exact leave_advances heq (not_reading_of_kind heq (by simp [hcase.1]))
    · exact badControl_sameTree.advances
  · exact badControl_sameTree.advances

theorem beginElse_advances : Advances firstVar fe (beginElse fe).2 := by
  rw [beginElse]
  split
  · rename_i scope rest heq
    split
    · rename_i hcase
      refine enterBlock_advances fun F R E covered h => ?_
      rw [heq] at h ⊢
      exact h.turnElse hcase.1 hcase.2
    · exact badControl_sameTree.advances
  · exact badControl_sameTree.advances

theorem beginCleanup_advances : Advances firstVar fe (beginCleanup fe).2 := by
  rw [beginCleanup]
  split
  · rename_i scope rest heq
    split
    · rename_i hcase
      refine enterBlock_advances fun F R E covered h => ?_
      rw [heq] at h ⊢
      exact h.turnFinally hcase.1 hcase.2.1 hcase.2.2
    · exact badControl_sameTree.advances
  · exact badControl_sameTree.advances

/-- An `If` without `Else`: the other arm stays empty. -/
theorem startSecond_advances {scope : FrontendScope} {rest : List FrontendScope}
    (heq : fe.scopes = scope :: rest) (hkind : scope.kind = .branch) (hphase : scope.phase = .body) :
    Advances firstVar fe (fe.startHere scope.second) := by
  have hreading := not_reading_of_phase heq (.inl hphase)
  rintro F ⟨R, E, covered, h⟩
  have hwaits : scope.second ∈ R.waiting := by
    rw [heq] at h
    exact (h.turnElse hkind hphase).1
  obtain ⟨st, hst⟩ := h.waiting _ hwaits
  exact ⟨(relabels_start hst).keepsInner, F, fun _ he => he, R, E, covered, h.touch hreading hwaits⟩

theorem endIf_advances : Advances firstVar fe (endIf fe).2 := by
  rw [endIf]
  split
  · rename_i scope rest heq
    split
    · rename_i hcase
      have hreading := not_reading_of_phase heq hcase.2
      by_cases hphase : scope.phase = .body
      · simp only [if_pos hphase]
        exact (startSecond_advances heq hcase.1 hphase).trans (leave_advances heq hreading)
      · simp only [if_neg hphase]
        exact leave_advances heq hreading
    · exact badControl_sameTree.advances
  · exact badControl_sameTree.advances

/-- The prefix `Defer`s that are complete are left, and nothing is read behind them. -/
theorem finishImplicit_advances :
    Advances firstVar fe (finishImplicitEpilogues fe) ∧
      (∀ F, FootprintFits firstVar fe F → InBody fe.scopes → InBody (finishImplicitEpilogues fe).scopes) := by
  rw [finishImplicitEpilogues]
  generalize hscopes : fe.scopes = scopes
  induction scopes generalizing fe with
  | nil =>
      rw [finishImplicitFrom, hscopes]
      exact ⟨.refl fe, fun _ _ hbody => hbody⟩
  | cons scope rest ih =>
      rw [finishImplicitFrom]
      split
      · rename_i hends
        have hleave : Advances firstVar fe _ :=
          leave_advances hscopes (not_reading_of_kind hscopes (by simp [hends.1]))
        have hrest : (fe.leave scope).scopes = rest := by
          simp [Frontend.leave, Frontend.enterBlock, Frontend.startHere, Frontend.setBlocks, hscopes]
        obtain ⟨hih, hbody⟩ := ih hrest
        refine ⟨hleave.trans hih, fun F hF _ => ?_⟩
        obtain ⟨-, F', -, hF'⟩ := hleave F hF
        exact hbody F' hF' (hF.inBody_tail hscopes)
      · rw [hscopes]
        exact ⟨.refl fe, fun _ _ hbody => hbody⟩

/-! ## Parentheses -/

theorem mark_advances {scope : FrontendScope} {rest : List FrontendScope} {d : Nat}
    {phase : ScopePhase} (heq : fe.scopes = scope :: rest)
    (hcase : scope.kind = .branch ∧ (scope.phase = .waitOpen ∨ scope.phase = .condition) ∧
        phase = .condition ∨
      scope.implicitEnd = true ∧ (scope.phase = .cleanupWaitOpen ∨ scope.phase = .cleanup) ∧
        phase = .cleanup) :
    Advances firstVar fe (fe.setTop { scope with delimiterDepth := d, phase := phase }) := by
  rintro F ⟨R, E, covered, h⟩
  rw [heq] at h
  refine ⟨.refl _, F, fun _ he => he, R, E, covered, ?_⟩
  simpa [Frontend.setTop, heq] using h.mark hcase

/-- The scopes in which parentheses are counted -/
theorem FootprintFits.delimited (hF : FootprintFits firstVar fe F) {scope : FrontendScope} {rest : List FrontendScope}
    (heq : fe.scopes = scope :: rest)
    (hcase : scope.phase = .waitOpen ∨ scope.phase = .cleanupWaitOpen ∨ scope.delimiterDepth ≠ 0) :
    scope.kind = .branch ∧ (scope.phase = .waitOpen ∨ scope.phase = .condition) ∨
      scope.kind = .epilogue ∧ scope.implicitEnd = true ∧
        (scope.phase = .cleanupWaitOpen ∨ scope.phase = .cleanup) := by
  obtain ⟨R, E, covered, h⟩ := hF
  have hopened := h.opened
  rw [heq] at hopened
  cases hopened with
  | cons _ _ _ _ _ _ _ _ hinside _ =>
      cases hinside with
      | condition hkind hphase _ _ _ => exact .inl ⟨hkind, hphase⟩
      | capture hkind hphase himplicit _ _ _ _ => exact .inr ⟨hkind, himplicit, hphase⟩
      | _ => simp_all

/-- The condition of an `If` ends. -/
theorem closeCondition_advances {scope : FrontendScope} {rest : List FrontendScope}
    (heq : fe.scopes = scope :: rest) (hkind : scope.kind = .branch)
    (hphase : scope.phase = .condition) :
    Advances firstVar fe
      (((fe.setTop { scope with delimiterDepth := 0, phase := .body }).setBlocks
        (fe.func.blocks.modify scope.block (Block.endCond fe.func.ops.length))).enterBlock
          scope.first) := by
  rintro F ⟨R, E, covered, h⟩
  rw [heq] at h
  obtain ⟨st, hst⟩ := h.first_leaf hkind hphase
  refine ⟨(h.relabels_condition hkind hphase).keepsInner.trans (relabels_start hst).keepsInner, F,
    fun _ he => he, R, [], fe.func.ops.length, ?_⟩
  have hclose := h.closeCondition hkind hphase
  simpa [Frontend.setTop, Frontend.setBlocks, Frontend.enterBlock, Frontend.startHere, heq]
    using hclose

/-- The cleanup of a prefix `Defer` ends. -/
theorem closeCleanup_advances {scope : FrontendScope} {rest : List FrontendScope}
    (heq : fe.scopes = scope :: rest) (himplicit : scope.implicitEnd = true)
    (hphase : scope.phase = .cleanup) :
    Advances firstVar fe
      ((fe.setTop { scope with delimiterDepth := 0, phase := .body }).enterBlock scope.first) := by
  refine enterBlock_advances fun F R E covered h => ?_
  rw [heq] at h ⊢
  exact h.closeCleanup himplicit hphase

theorem handleDelimiter_advances (opening : Bool) :
    Advances firstVar fe (handleDelimiter opening fe).2 := by
  refine .of_fits fun F hF => ?_
  rw [handleDelimiter]
  split
  · exact .refl fe
  rename_i scope rest heq
  split
  · rename_i hwait
    have hdelimited := hF.delimited heq (hwait.imp_right .inl)
    split
    · exact badControl_sameTree.advances
    rcases hdelimited with ⟨hkind, hphase⟩ | ⟨hkind, himplicit, hphase⟩
    · simp only [if_pos hkind]
      exact mark_advances heq (.inl ⟨hkind, hphase, rfl⟩)
    · have hbranch : scope.kind ≠ .branch := by simp [hkind]
      simp only [if_neg hbranch]
      exact mark_advances heq (.inr ⟨himplicit, hphase, rfl⟩)
  rename_i hwait
  split
  · exact .refl fe
  rename_i hdepth
  have hdelimited := hF.delimited heq (.inr (.inr hdepth))
  -- the parenthesis that opens the condition or the cleanup has been read
  have hinside : scope.kind = .branch ∧ scope.phase = .condition ∨
      scope.kind = .epilogue ∧ scope.implicitEnd = true ∧ scope.phase = .cleanup := by
    rcases hdelimited with ⟨hkind, hphase⟩ | ⟨hkind, himplicit, hphase⟩
    · exact .inl ⟨hkind, hphase.resolve_left fun h => hwait (.inl h)⟩
    · exact .inr ⟨hkind, himplicit, hphase.resolve_left fun h => hwait (.inr h)⟩
  have hmark : ∀ d, Advances firstVar fe (fe.setTop { scope with delimiterDepth := d }) := by
    intro d
    refine @mark_advances _ _ _ _ _ d scope.phase heq ?_
    rcases hinside with ⟨hkind, hphase⟩ | ⟨-, himplicit, hphase⟩
    · exact .inl ⟨hkind, .inr hphase, hphase⟩
    · exact .inr ⟨himplicit, .inr hphase, hphase⟩
  split
  · exact hmark _
  by_cases hzero : scope.delimiterDepth - 1 = 0
  · simp only [hzero, ne_eq, not_true_eq_false, if_false]
    rcases hinside with ⟨hkind, hphase⟩ | ⟨hkind, himplicit, hphase⟩
    · simp only [if_pos hkind]
      exact closeCondition_advances heq hkind hphase
    · have hbranch : scope.kind ≠ .branch := by simp [hkind]
      simp only [if_neg hbranch]
      exact closeCleanup_advances heq himplicit hphase
  · simp only [if_pos hzero]
    exact hmark _

/-! ## New blocks -/

theorem appendBasicBlock_cases (fe : Frontend M) :
    appendBasicBlock fe = (none, fe) ∨ appendBasicBlock fe = (some fe.func.blocks.length,
      fe.setBlocks (fe.func.blocks ++ [.basic ⟨fe.func.ops.length, 0⟩])) := by
  rw [appendBasicBlock]
  split
  · exact .inl rfl
  · exact .inr rfl

theorem wrapCurrent_cases (middle : Block) (fe : Frontend M) :
    wrapCurrent middle fe = (none, fe) ∨ wrapCurrent middle fe =
      (some (fe.func.blocks.length + 1, fe.func.blocks.length + 3), fe.setBlocks
        (wrapped fe.func.blocks fe.currentBasic fe.func.ops.length middle)) := by
  rw [wrapCurrent]
  split
  · exact .inl rfl
  · exact .inr rfl

/-- Blocks are appended that nothing refers to. -/
theorem append_advances (ys : List Block) :
    Advances firstVar fe (fe.setBlocks (fe.func.blocks ++ ys)) := by
  rintro F ⟨R, E, covered, h⟩
  exact ⟨(relabels_append ys).keepsInner, F, fun _ he => he, R, E, covered, h.append ys⟩

/-- The current block is wrapped, and a scope is opened in which the leaf `cur` comes first. -/
def Frontend.opened (fe : Frontend M) (pre : List Block) (middle : Block) (scope : FrontendScope)
    (cur depth : Nat) : Frontend M :=
  { fe.setBlocks (wrapped (fe.func.blocks ++ pre) fe.currentBasic fe.func.ops.length middle) with
    scopes := scope :: fe.scopes
    currentBasic := cur
    scopeDepth := depth }

/-- A function that opens a scope has opened it, or has appended blocks only. -/
def Opens (step : FrontStep M Unit) (fe fe' : Frontend M) : Prop :=
  step fe = (some (), fe') ∨ ∃ ys, step fe = (none, fe.setBlocks (fe.func.blocks ++ ys))

theorem Opens.advances {step : FrontStep M Unit} (h : Opens step fe fe')
    (hopened : Advances firstVar fe fe') : Advances firstVar fe (step fe).2 := by
  rcases h with h | ⟨ys, h⟩
  · rw [h]
    exact hopened
  · rw [h]
    exact append_advances ys

theorem FrontStep.bind_some {α β : Type} {x : FrontStep M α} {f : α → FrontStep M β} {a : α}
    (h : x fe = (some a, fe')) : (x >>= f) fe = f a fe' := by
  simp only [Bind.bind, h]

theorem FrontStep.bind_none {α β : Type} {x : FrontStep M α} {f : α → FrontStep M β}
    (h : x fe = (none, fe')) : (x >>= f) fe = (none, fe') := by
  simp only [Bind.bind, h]

theorem FrontStep.bind_get {β : Type} {f : Frontend M → FrontStep M β} : (FrontStep.get >>= f) fe = f fe fe :=
  rfl

theorem FrontStep.bind_modify {β : Type} {g : Frontend M → Frontend M} {f : Unit → FrontStep M β} :
    (FrontStep.modify g >>= f) fe = f () (g fe) :=
  rfl

/-- Two leaves for a new scope -/
theorem twoLeaves_cases (rest : Nat → Nat → FrontStep M Unit) (fe : Frontend M) :
    let step := appendBasicBlock >>= fun n => appendBasicBlock >>= fun c => rest n c
    (∃ ys, step fe = (none, fe.setBlocks (fe.func.blocks ++ ys))) ∨
    step fe = rest fe.func.blocks.length (fe.func.blocks.length + 1) (fe.setBlocks
      (fe.func.blocks ++ [.basic ⟨fe.func.ops.length, 0⟩, .basic ⟨fe.func.ops.length, 0⟩])) := by
  intro step
  rcases appendBasicBlock_cases fe with h | h
  · refine .inl ⟨[], (FrontStep.bind_none h).trans ?_⟩
    simp [Frontend.setBlocks]
  rcases appendBasicBlock_cases
    (fe.setBlocks (fe.func.blocks ++ [.basic ⟨fe.func.ops.length, 0⟩])) with h' | h'
  · exact .inl ⟨_, (FrontStep.bind_some h).trans (FrontStep.bind_none h')⟩
  · right
    refine (FrontStep.bind_some h).trans ((FrontStep.bind_some h').trans ?_)
    simp [Frontend.setBlocks]

theorem beginIf_opens (fe : Frontend M) :
    Opens beginIf fe (fe.opened [.basic ⟨fe.func.ops.length, 0⟩, .basic ⟨fe.func.ops.length, 0⟩]
      (.branch ⟨fe.func.ops.length, 0⟩ fe.func.blocks.length (fe.func.blocks.length + 1))
      (newBranch fe.func.blocks.length fe.scopeDepth) fe.func.blocks.length (fe.scopeDepth + 1)) := by
  rcases twoLeaves_cases _ fe with ⟨ys, h⟩ | h
  · exact .inr ⟨ys, h⟩
  rcases wrapCurrent_cases _ _ with h' | h'
  · exact .inr ⟨_, h.trans (FrontStep.bind_get.trans (FrontStep.bind_none h'))⟩
  · left
    refine h.trans (FrontStep.bind_get.trans ((FrontStep.bind_some h').trans ?_))
    simp [FrontStep.modify, newBranch, Frontend.pushScope, Frontend.opened, Frontend.setBlocks]

theorem beginEpilogue_opens (implicitEnd : Bool) (fe : Frontend M) :
    Opens (beginEpilogue implicitEnd) fe
      (fe.opened [.basic ⟨fe.func.ops.length, 0⟩, .basic ⟨fe.func.ops.length, 0⟩]
        (.defer fe.func.blocks.length (fe.func.blocks.length + 1))
        (newEpilogue fe.func.blocks.length fe.scopeDepth implicitEnd)
        (if implicitEnd then fe.func.blocks.length + 1 else fe.func.blocks.length)
        (fe.scopeDepth + 2)) := by
  rcases twoLeaves_cases _ fe with ⟨ys, h⟩ | h
  · exact .inr ⟨ys, h⟩
  rcases wrapCurrent_cases _ _ with h' | h'
  · exact .inr ⟨_, h.trans (FrontStep.bind_get.trans (FrontStep.bind_none h'))⟩
  · left
    refine h.trans (FrontStep.bind_get.trans ((FrontStep.bind_some h').trans ?_))
    simp [FrontStep.modify, newEpilogue, Frontend.pushScope, Frontend.opened, Frontend.setBlocks]

theorem beginLoop_opens (fe : Frontend M) :
    Opens beginLoop fe
      (fe.opened [.basic ⟨fe.func.ops.length, 0⟩, .many (some fe.func.blocks.length) none]
        (.loop (fe.func.blocks.length + 1)) (newLoop fe.func.blocks.length fe.scopeDepth)
        fe.func.blocks.length (fe.scopeDepth + 3)) := by
  rcases appendBasicBlock_cases fe with h | h
  · refine .inr ⟨[], (FrontStep.bind_none h).trans ?_⟩
    simp [Frontend.setBlocks]
  by_cases hfull : blockInvalid ≤
      (fe.setBlocks (fe.func.blocks ++ [.basic ⟨fe.func.ops.length, 0⟩])).func.blocks.length + 1
  · refine .inr ⟨[.basic ⟨fe.func.ops.length, 0⟩], (FrontStep.bind_some h).trans ?_⟩
    exact congrFun (if_pos hfull) _
  rcases wrapCurrent_cases _ _ with h' | h'
  · refine .inr ⟨[.basic ⟨fe.func.ops.length, 0⟩, .many (some fe.func.blocks.length) none],
      (FrontStep.bind_some h).trans ((congrFun (if_neg hfull) _).trans
        (FrontStep.bind_modify.trans ((FrontStep.bind_none h').trans ?_)))⟩
    simp [Frontend.setBlocks]
  · left
    refine (FrontStep.bind_some h).trans ((congrFun (if_neg hfull) _).trans
      (FrontStep.bind_modify.trans ((FrontStep.bind_some h').trans ?_)))
    simp [FrontStep.modify, newLoop, Frontend.pushScope, Frontend.opened, Frontend.setBlocks]

theorem beginIf_advances (hbody : InBody fe.scopes) :
    Advances firstVar fe (beginIf fe).2 := by
  refine (beginIf_opens fe).advances ?_
  rintro F ⟨R, E, covered, h⟩
  obtain ⟨hinner, F', R', hsub, hopened⟩ := h.openIf hbody rfl
  exact ⟨hinner, F', hsub, R', [], _, hopened⟩

theorem beginLoop_advances (hbody : InBody fe.scopes) :
    Advances firstVar fe (beginLoop fe).2 := by
  refine (beginLoop_opens fe).advances ?_
  rintro F ⟨R, E, covered, h⟩
  obtain ⟨hinner, F', R', hsub, hopened⟩ := h.openLoop hbody rfl
  exact ⟨hinner, F', hsub, R', [], _, hopened⟩

theorem beginEpilogue_advances (implicitEnd : Bool) (hbody : InBody fe.scopes) :
    Advances firstVar fe (beginEpilogue implicitEnd fe).2 := by
  refine (beginEpilogue_opens implicitEnd fe).advances ?_
  rintro F ⟨R, E, covered, h⟩
  obtain ⟨hinner, F', R', hsub, hopened⟩ := h.openEpilogue hbody implicitEnd rfl
  exact ⟨hinner, F', hsub, R', [], _, hopened⟩

/-- What `emit_loop_exit` does: nothing, or a jump is put in front of the current block. -/
theorem emitLoopExit_cases (isContinue : Bool) (fe : Frontend M) :
    SameTree fe (emitLoopExit isContinue fe).2 ∧ (emitLoopExit isContinue fe).1 = none ∨
    ∃ inner loop, splitAtLoop fe.scopes = some (inner, loop) ∧ cleanupExitIsLegal inner = true ∧
      (if isContinue then loop.continueDepth else loop.breakDepth) ≤ fe.scopeDepth + 1 ∧
      emitLoopExit isContinue fe = (some (), { fe.setBlocks (wrapped fe.func.blocks fe.currentBasic
        fe.func.ops.length (.brk (fe.scopeDepth + 1 -
          (if isContinue then loop.continueDepth else loop.breakDepth) + 1))) with
        currentBasic := fe.func.blocks.length + 3, scopeDepth := fe.scopeDepth + 1 }) := by
  rw [emitLoopExit]
  split
  · exact .inl ⟨badControl_sameTree, rfl⟩
  rename_i inner loop hsplit
  generalize htarget : (if isContinue then loop.continueDepth else loop.breakDepth) = target
  by_cases hlegal : cleanupExitIsLegal inner = false
  · rw [if_pos hlegal]
    exact .inl ⟨badControl_sameTree, rfl⟩
  rw [if_neg hlegal]
  by_cases hlt : fe.scopeDepth + 1 < target
  · simp only [if_pos hlt]
    exact .inl ⟨badControl_sameTree, rfl⟩
  simp only [if_neg hlt]
  rcases wrapCurrent_cases (.brk (fe.scopeDepth + 1 - target + 1)) fe with h | h
  · left
    simp only [h]
    exact ⟨.refl fe, trivial⟩
  · right
    refine ⟨inner, loop, hsplit, by simpa using hlegal, ?_, ?_⟩
    · rw [htarget]
      exact Nat.le_of_not_lt hlt
    · simp only [h, htarget]
      rfl

theorem emitLoopExit_advances (isContinue : Bool) (hreading : ¬ Reading fe.scopes) :
    Advances firstVar fe (emitLoopExit isContinue fe).2 := by
  rcases emitLoopExit_cases isContinue fe with ⟨hsame, -⟩ | ⟨inner, loop, -, -, -, h⟩
  · exact hsame.advances
  · rw [h]
    rintro F ⟨R, E, covered, h⟩
    obtain ⟨hinner, -, F', hsub, -, hexit⟩ := h.exit hreading rfl
    exact ⟨hinner, F', hsub, R, _, _, hexit⟩

theorem declareVar_advances (tid : Nat) (name : Name) (hreading : ¬ Reading fe.scopes) :
    Advances firstVar fe (declareVar tid name fe).2 := by
  rintro F hF
  rw [declareVar]
  split
  · exact Advances.refl fe F hF
  split
  · exact SameTree.advances ⟨rfl, rfl, rfl, rfl, rfl, rfl⟩ F hF
  split
  · exact SameTree.advances ⟨rfl, rfl, rfl, rfl, rfl, rfl⟩ F hF
  obtain ⟨R, E, covered, h⟩ := hF
  obtain ⟨r, hr⟩ := h.leaf
  obtain ⟨hinner, F', E', hsub, hdeclare⟩ := h.declare hreading hr rfl
  simp only [hr, Option.getD_some]
  refine ⟨hinner, F', hsub, R, E', fe.func.ops.length, ?_⟩
  simpa using hdeclare

/-! ## What the parser consumes -/

/-- A function that leaves the tree and the scopes alone -/
def FrontStep.Quiet {α : Type} (step : FrontStep M α) : Prop :=
  ∀ fe, SameTree fe (step fe).2

namespace FrontStep.Quiet

variable {α β : Type}

theorem pure (a : α) : FrontStep.Quiet (M := M) (Pure.pure a) :=
  fun fe => .refl fe

theorem get : FrontStep.Quiet (M := M) FrontStep.get :=
  fun fe => .refl fe

theorem fail : FrontStep.Quiet (M := M) (FrontStep.fail (α := α)) :=
  fun fe => .refl fe

theorem failWith (error : FrontendError) : FrontStep.Quiet (M := M) (FrontStep.failWith (α := α) error) :=
  fun _ => ⟨rfl, rfl, rfl, rfl, rfl, rfl⟩

theorem failAt (error : FrontendError) (word : Text) :
    FrontStep.Quiet (M := M) (FrontStep.failAt (α := α) error word) :=
  fun _ => ⟨rfl, rfl, rfl, rfl, rfl, rfl⟩

theorem bind {x : FrontStep M α} {f : α → FrontStep M β} (hx : x.Quiet) (hf : ∀ a, (f a).Quiet) :
    (x >>= f).Quiet := by
  intro fe
  have hx := hx fe
  rcases h : x fe with ⟨_ | a, fe'⟩
  · rw [FrontStep.bind_none h]
    rw [h] at hx
    exact hx
  · rw [FrontStep.bind_some h]
    rw [h] at hx
    exact hx.trans (hf a fe')

theorem ite {c : Prop} [Decidable c] {x y : FrontStep M α} (hx : x.Quiet) (hy : y.Quiet) :
    (if c then x else y).Quiet := by
  split
  · exact hx
  · exact hy

end FrontStep.Quiet

theorem nextToken_quiet : FrontStep.Quiet (M := M) nextToken := by
  intro fe
  rw [nextToken]
  split
  · exact .refl fe
  · exact ⟨rfl, rfl, rfl, rfl, rfl, rfl⟩

theorem nextName_quiet (error : FrontendError) : FrontStep.Quiet (M := M) (nextName error) := by
  intro fe
  have hnext := nextToken_quiet fe
  rw [nextName]
  split
  · rename_i token fe' heq
    rw [heq] at hnext
    split
    · exact hnext.trans (FrontStep.Quiet.failWith (α := Token) error fe')
    · exact hnext
  · rename_i fe' heq
    rw [heq] at hnext
    exact hnext.trans (FrontStep.Quiet.failWith (α := Token) error fe')

theorem parseNumber_quiet : FrontStep.Quiet (M := M) parseNumber :=
  .bind (nextName_quiet _) fun _ => .ite (.failAt _ _) (.pure _)

theorem internType_quiet (kind : TypeKind) : FrontStep.Quiet (M := M) (internType kind) := by
  refine .bind .get fun fe => ?_
  split
  · exact .pure _
  · exact fun _ => ⟨rfl, rfl, rfl, rfl, rfl, rfl⟩

theorem namedType_quiet (name : Token) : FrontStep.Quiet (M := M) (namedType name) := by
  refine .bind .get fun fe => ?_
  split
  · exact .pure _
  · exact .failAt _ _

theorem parseTypeFrom_quiet (rounds : Nat) : FrontStep.Quiet (M := M) (parseTypeFrom rounds) := by
  induction rounds with
  | zero => exact .fail
  | succ rounds ih =>
      refine .bind (nextName_quiet _) fun token => ?_
      refine .ite (.pure _) (.ite (.pure _) (.ite ?_ (.ite ?_ (.ite ?_ (namedType_quiet _)))))
      · exact .bind ih fun elem => internType_quiet _
      · exact .bind ih fun elem => internType_quiet _
      · refine .bind parseNumber_quiet fun parsed => .ite (.failWith _) ?_
        exact .bind ih fun elem => internType_quiet _

/-! ## Words -/

theorem runVar_advances (hreading : ¬ Reading fe.scopes) : Advances firstVar fe (runVar fe).2 := by
  have htype : SameTree fe (parseType fe).2 := parseTypeFrom_quiet _ fe
  rcases h : parseType fe with ⟨_ | tid, fe₁⟩
  · rw [h] at htype
    rw [runVar, FrontStep.bind_none h]
    exact htype.advances
  rw [h] at htype
  have hname : SameTree fe₁ (parseName fe₁).2 := nextName_quiet _ fe₁
  rcases h' : parseName fe₁ with ⟨_ | name, fe₂⟩
  · rw [h'] at hname
    rw [runVar, FrontStep.bind_some h, FrontStep.bind_none h']
    exact (htype.trans hname).advances
  · rw [h'] at hname
    rw [runVar, FrontStep.bind_some h, FrontStep.bind_some h']
    have hsame := htype.trans hname
    refine hsame.advances.trans (declareVar_advances tid name.bytes ?_)
    rw [hsame.scopes]
    exact hreading

theorem control_advances (word : Immediate) (hbody : InBody fe.scopes) :
    Advances firstVar fe (control word fe).2 := by
  cases word with
  | func idx => exact .refl fe
  | var => exact .refl fe
  | loop => exact beginLoop_advances hbody
  | again => exact endLoop_advances
  | ifWord => exact beginIf_advances hbody
  | elseWord => exact beginElse_advances
  | done => exact endIf_advances
  | breakWord => exact emitLoopExit_advances false hbody.1
  | continueWord => exact emitLoopExit_advances true hbody.1
  | start => exact beginEpilogue_advances false hbody
  | finallyWord => exact beginCleanup_advances
  | endWord => exact finishEpilogue_advances
  | defer => exact beginEpilogue_advances true hbody

theorem runControl_advances (word : Immediate) : Advances firstVar fe (runControl word fe).2 := by
  rw [runControl]
  by_cases hclosed : fe.closedToControl
  · rw [if_pos hclosed]
    exact badControl_sameTree.advances
  rw [if_neg hclosed]
  have hbody := Frontend.inBody (by simpa using hclosed)
  by_cases hends : word.endsDefers
  · rw [if_pos hends]
    refine .of_fits fun F hF => finishImplicit_advances.1.trans (control_advances word ?_)
    exact finishImplicit_advances.2 F hF hbody
  · rw [if_neg hends]
    exact control_advances word hbody

section Tokens

variable (macros : Nat → Frontend M → Option VmResult × Frontend M) (literalAt : Nat → UInt64)

/-- What the current token stands for, when it is a word. -/
def Frontend.currentWord (fe : Frontend M) : Option WordKind :=
  if fe.currentToken.isParen then none
  else (findWord fe.words fe.currentToken.bytes).map Word.kind

/-- A token that the invariant speaks about: not a macro, and no `Var` in the condition of an `If` -/
def Frontend.Plain (fe : Frontend M) : Prop :=
  (∀ idx, fe.currentWord ≠ some (.immediate (.func idx))) ∧
    (fe.currentWord = some (.immediate .var) → ¬ fe.inCondition)

theorem engageWord_advances {word : Word} (hquick : ∀ idx, word.kind ≠ .immediate (.func idx))
    (hvar : word.kind = .immediate .var → ¬ fe.inCondition) :
    Advances firstVar fe (engageWord macros word fe).2 := by
  rw [engageWord]
  by_cases hready : fe.readyForWord
  swap
  · rw [if_neg hready]
    exact badControl_sameTree.advances
  rw [if_pos hready]
  cases hkind : word.kind with
  | op op => exact emitOp_advances op hready
  | func idx => exact emitOp_advances _ hready
  | native global =>
      refine .of_fits fun F hF => ?_
      have hfirst : Advances firstVar fe _ := emitOp_advances ⟨.pushGlobal, global⟩ hready
      have hok := emitOp_of_fits hF ⟨.pushGlobal, global⟩
      have hscopes := emitOp_scopes hF ⟨.pushGlobal, global⟩
      rw [engageKind, FrontStep.bind_some (f := fun _ => emitOp ⟨.callNativeOnStack, 0⟩) (by rw [hok])]
      rw [hok] at hfirst hscopes
      refine hfirst.trans (emitOp_advances _ ?_)
      rw [Frontend.readyForWord, hscopes]
      exact hready
  | immediate word =>
      rw [hkind] at hquick hvar
      cases word with
      | func idx => exact absurd rfl (hquick idx)
      | var =>
          refine runVar_advances fun hreading => hvar rfl ?_
          exact (Frontend.reading_iff hready).mp hreading
      | _ => exact runControl_advances _

theorem emitNumber_advances (token : Token) (hready : fe.readyForWord = true) :
    Advances firstVar fe (emitNumber literalAt token fe).2 := by
  simp only [emitNumber]
  split
  · exact .refl fe
  split
  · exact SameTree.advances ⟨rfl, rfl, rfl, rfl, rfl, rfl⟩
  have hsame : SameTree fe (appendLiteral literalAt (strtoll token.data).value fe).2 := by
    rw [appendLiteral]
    split
    · exact ⟨rfl, rfl, rfl, rfl, rfl, rfl⟩
    · simp only
      split <;> exact ⟨rfl, rfl, rfl, rfl, rfl, rfl⟩
  rcases h : appendLiteral literalAt (strtoll token.data).value fe with ⟨_ | global, fe'⟩
  · rw [h] at hsame
    rw [FrontStep.bind_none h]
    exact hsame.advances
  · rw [h] at hsame
    rw [FrontStep.bind_some h]
    refine hsame.advances.trans (emitOp_advances _ ?_)
    rw [Frontend.readyForWord, hsame.scopes]
    exact hready

theorem compileFallback_advances (token : Token) :
    Advances firstVar fe (compileFallback literalAt token fe).2 := by
  refine .of_fits fun F hF => ?_
  rw [compileFallback]
  by_cases hready : fe.readyForWord
  swap
  · rw [if_neg hready]
    exact badControl_sameTree.advances
  rw [if_pos hready]
  cases hvar : findVar fe.func token.bytes with
  | some idx =>
      have hok := emitOp_of_fits hF
        ⟨if idx < fe.func.sig.outs.length + fe.func.sig.ins.length then .pushArg else .pushVar,
          UInt16.ofNat idx⟩
      have hadvances : Advances firstVar fe _ := emitOp_advances
        ⟨if idx < fe.func.sig.outs.length + fe.func.sig.ins.length then .pushArg else .pushVar,
          UInt16.ofNat idx⟩ hready
      rw [hok] at hadvances
      simp only [Option.map_some, emitVar, FrontStep.bind_get]
      rw [hok]
      exact hadvances
  | none =>
      simp only [Option.map_none, Option.getD_none]
      split
      · exact emitNumber_advances literalAt token hready
      · exact SameTree.advances ⟨rfl, rfl, rfl, rfl, rfl, rfl⟩

/-- What one token does, unless it is a macro or a `Var` in the condition of an `If`. -/
theorem engageToken_advances (hplain : fe.Plain) :
    Advances firstVar fe (engageToken macros literalAt fe).2 := by
  obtain ⟨hquick, hvar⟩ := hplain
  rw [engageToken]
  by_cases hparen : fe.currentToken.isParen
  · simp only [if_pos hparen]
    exact handleDelimiter_advances _
  · simp only [if_neg hparen]
    rw [Frontend.currentWord, if_neg hparen] at hquick hvar
    cases hfind : findWord fe.words fe.currentToken.bytes with
    | none => exact compileFallback_advances literalAt _
    | some word =>
        rw [hfind] at hquick hvar
        exact engageWord_advances macros (fun idx h => hquick idx (congrArg some h))
          fun h => hvar (congrArg some h)

end Tokens

end TreeVM
