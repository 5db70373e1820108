import TreeVM.Frontend.Sessions
import TreeVM.Frontend.Stmts

/-!
# One step of the frontend

All that a token can do to the function and the scopes.

* `Frontend.lexemes`: what the current token says;
* `TokenMove`, `ScopeEnds`: the changes of the state, each with what it reads;
* `engageToken_moves`: a token that is engaged is a sequence of them;
* `TokenMove.preserves`: blocks that no open scope will write stay as they are.
-/

namespace TreeVM

variable {M : Type}

/-! ## What is read -/

/-- A parenthesis counts when it is the one that a scope waits for, or the one that closes. -/
def delimiterLexemes (opening : Bool) : List FrontendScope → List Lexeme
  | [] => []
  | scope :: _ =>
      if scope.phase = .waitOpen ∨ scope.phase = .cleanupWaitOpen then [.opening]
      else if opening = false ∧ scope.delimiterDepth = 1 then [.closing]
      else []

/-- What a word says in a function with this many variables -/
def WordKind.lexemes (vars : Nat) : WordKind → List Lexeme
  | .op o => [.op o]
  | .func idx => [.op ⟨.call, idx⟩]
  | .native global => [.op ⟨.pushGlobal, global⟩, .op ⟨.callNativeOnStack, 0⟩]
  | .immediate .var => [.var vars]
  | .immediate (.func _) => []
  | .immediate word => [.word word]

namespace Frontend

/-- The operation that pushes variable `idx` -/
def varOp (fe : Frontend M) (idx : Nat) : Op :=
  ⟨if idx < fe.func.sig.outs.length + fe.func.sig.ins.length then .pushArg else .pushVar, UInt16.ofNat idx⟩

/-- What the current token says: a word, a variable, or else the literal that comes next -/
def lexemes (fe : Frontend M) : List Lexeme :=
  let token := fe.currentToken
  if token.isParen then delimiterLexemes (isOpening (byteAt token.data 0)) fe.scopes
  else
    match findWord fe.words token.bytes with
    | some word => word.kind.lexemes fe.func.vars.length
    | none =>
        match findVar fe.func token.bytes with
        | some idx => [.op (fe.varOp idx)]
        | none => [.op ⟨.pushGlobal, UInt16.ofNat ((fe.ctx.map (·.globals.length)).getD 0)⟩]

/-- `frontend_emit_op`, where the current block is there -/
def emitted (fe : Frontend M) (op : Op) : Frontend M :=
  let fe := { fe with func := { fe.func with ops := fe.func.ops ++ [op] } }
  if fe.inCondition then fe else fe.extendBasic

/-- The scope behind its last parenthesis -/
def closed (fe : Frontend M) (scope : FrontendScope) : Frontend M :=
  let fe := fe.setTop { scope with delimiterDepth := 0, phase := .body }
  let fe :=
    if scope.kind = .branch then
      fe.setBlocks (fe.func.blocks.modify scope.block (Block.endCond fe.func.ops.length))
    else fe
  fe.enterBlock scope.first

/-- Behind a jump -/
def exited (fe : Frontend M) (level : Nat) : Frontend M :=
  { fe.setBlocks (wrapped fe.func.blocks fe.currentBasic fe.func.ops.length (.brk level)) with
    currentBasic := fe.func.blocks.length + 3
    scopeDepth := fe.scopeDepth + 1 }

/-- Behind the declaration of a variable -/
def declared (fe : Frontend M) (tid : Nat) (name : Name) : Frontend M :=
  let n := fe.func.blocks.length
  let blocks := fe.func.blocks ++ [(fe.func.blocks[fe.currentBasic]?).getD .unset,
    .var fe.func.vars.length (n + 3), .chain (some (n + 1)) none, .basic ⟨fe.func.ops.length, 0⟩]
  { fe with
    func := { fe.func with
      vars := fe.func.vars ++ [⟨tid, some name⟩]
      blocks := blocks.set fe.currentBasic (.many (some n) (some (n + 2))) }
    currentBasic := n + 3
    scopeDepth := fe.scopeDepth + 2 }

/-- Behind `Loop`, `If`, and `Start` or `Defer` -/
def openedLoop (fe : Frontend M) : Frontend M :=
  fe.opened [.basic ⟨fe.func.ops.length, 0⟩, .many (some fe.func.blocks.length) none]
    (.loop (fe.func.blocks.length + 1)) (newLoop fe.func.blocks.length fe.scopeDepth)
    fe.func.blocks.length (fe.scopeDepth + 3)

def openedIf (fe : Frontend M) : Frontend M :=
  fe.opened [.basic ⟨fe.func.ops.length, 0⟩, .basic ⟨fe.func.ops.length, 0⟩]
    (.branch ⟨fe.func.ops.length, 0⟩ fe.func.blocks.length (fe.func.blocks.length + 1))
    (newBranch fe.func.blocks.length fe.scopeDepth) fe.func.blocks.length (fe.scopeDepth + 1)

def openedEpilogue (fe : Frontend M) (implicitEnd : Bool) : Frontend M :=
  fe.opened [.basic ⟨fe.func.ops.length, 0⟩, .basic ⟨fe.func.ops.length, 0⟩]
    (.defer fe.func.blocks.length (fe.func.blocks.length + 1))
    (newEpilogue fe.func.blocks.length fe.scopeDepth implicitEnd)
    (if implicitEnd then fe.func.blocks.length + 1 else fe.func.blocks.length) (fe.scopeDepth + 2)

end Frontend

/-- The depths that exits leave here -/
def loopDepths (scopes : List FrontendScope) : LoopDepths :=
  match splitAtLoop scopes with
  | some (_, loop) => ⟨loop.breakDepth, loop.continueDepth⟩
  | none => {}

/-- An exit may stand here. -/
def Exitable (scopes : List FrontendScope) : Prop :=
  ∃ inner loop, splitAtLoop scopes = some (inner, loop) ∧ cleanupExitIsLegal inner = true

/-- The words that end scopes.  Prefix `Defer`s that are complete end first. -/
inductive ScopeEnds : Frontend M → List Lexeme → Frontend M → Prop
  | implicit {fe fe' : Frontend M} {scope rest xs} : fe.scopes = scope :: rest → scope.endsImplicitly →
      ScopeEnds (fe.leave scope) xs fe' → ScopeEnds fe xs fe'
  | again {fe : Frontend M} {scope rest} : fe.scopes = scope :: rest → scope.kind = .loop →
      ScopeEnds fe [.word .again] (fe.leave scope)
  | elseWord {fe : Frontend M} {scope rest} : fe.scopes = scope :: rest → scope.kind = .branch →
      scope.phase = .body → ScopeEnds fe [.word .elseWord]
        { (fe.setTop { scope with phase := .elseBody }).enterBlock scope.second with
          scopeDepth := scope.parentDepth + 1 }
  | doneThen {fe : Frontend M} {scope rest} : fe.scopes = scope :: rest → scope.kind = .branch →
      scope.phase = .body → ScopeEnds fe [.word .done] ((fe.startHere scope.second).leave scope)
  | doneElse {fe : Frontend M} {scope rest} : fe.scopes = scope :: rest → scope.kind = .branch →
      scope.phase = .elseBody → ScopeEnds fe [.word .done] (fe.leave scope)
  | finallyWord {fe : Frontend M} {scope rest} : fe.scopes = scope :: rest → scope.kind = .epilogue →
      scope.implicitEnd = false → scope.phase = .body → ScopeEnds fe [.word .finallyWord]
        { (fe.setTop { scope with phase := .cleanup }).enterBlock scope.second with
          scopeDepth := scope.parentDepth + 2 }
  | endWord {fe : Frontend M} {scope rest} : fe.scopes = scope :: rest → scope.kind = .epilogue →
      scope.implicitEnd = false → scope.phase = .cleanup → ScopeEnds fe [.word .endWord] (fe.leave scope)

/-- The changes that tokens make, with what is read -/
inductive TokenMove : Frontend M → List Lexeme → Frontend M → Prop
  | same {fe fe' : Frontend M} : SameTree fe fe' → TokenMove fe [] fe'
  | op {fe : Frontend M} (o : Op) : fe.readyForWord = true → TokenMove fe [.op o] (fe.emitted o)
  | loop {fe : Frontend M} : InBody fe.scopes → TokenMove fe [.word .loop] fe.openedLoop
  | branch {fe : Frontend M} : InBody fe.scopes → TokenMove fe [.word .ifWord] fe.openedIf
  | epilogue {fe : Frontend M} (implicitEnd : Bool) : InBody fe.scopes →
      TokenMove fe [.word (if implicitEnd then .defer else .start)] (fe.openedEpilogue implicitEnd)
  | exit {fe : Frontend M} (isContinue : Bool) : InBody fe.scopes → Exitable fe.scopes →
      TokenMove fe [.word (exitWord isContinue)]
        (fe.exited (fe.scopeDepth + 1 - (loopDepths fe.scopes).target isContinue + 1))
  | var {fe : Frontend M} (tid : Nat) (name : Name) : InBody fe.scopes →
      TokenMove fe [.var fe.func.vars.length] (fe.declared tid name)
  | leave {fe fe' : Frontend M} {xs} : ScopeEnds fe xs fe' → TokenMove fe xs fe'
  | opening {fe : Frontend M} {scope rest} : fe.scopes = scope :: rest →
      scope.phase = .waitOpen ∨ scope.phase = .cleanupWaitOpen → TokenMove fe [.opening]
        (fe.setTop { scope with
          delimiterDepth := 1, phase := if scope.kind = .branch then .condition else .cleanup })
  | nested {fe : Frontend M} {scope rest} (d : Nat) : fe.scopes = scope :: rest →
      ¬ (scope.phase = .waitOpen ∨ scope.phase = .cleanupWaitOpen) → scope.delimiterDepth ≠ 0 →
      TokenMove fe [] (fe.setTop { scope with delimiterDepth := d })
  | closing {fe : Frontend M} {scope rest} : fe.scopes = scope :: rest →
      ¬ (scope.phase = .waitOpen ∨ scope.phase = .cleanupWaitOpen) → scope.delimiterDepth ≠ 0 →
      TokenMove fe [.closing] (fe.closed scope)

/-- TokenMove, one after the other -/
inductive TokenMoves : Frontend M → List Lexeme → Frontend M → Prop
  | refl (fe : Frontend M) : TokenMoves fe [] fe
  | step {fe fe₁ fe₂ : Frontend M} {xs ys : List Lexeme} : TokenMove fe xs fe₁ → TokenMoves fe₁ ys fe₂ →
      TokenMoves fe (xs ++ ys) fe₂

theorem TokenMove.to {fe fe' : Frontend M} {xs : List Lexeme} (h : TokenMove fe xs fe') : TokenMoves fe xs fe' :=
  List.append_nil xs ▸ .step h (.refl fe')

theorem TokenMoves.trans {fe fe₁ fe₂ : Frontend M} {xs ys : List Lexeme} (h : TokenMoves fe xs fe₁)
    (h' : TokenMoves fe₁ ys fe₂) : TokenMoves fe (xs ++ ys) fe₂ := by
  induction h with
  | refl fe => exact h'
  | step hmove _ ih =>
      rw [List.append_assoc]
      exact .step hmove (ih h')

/-! ## Tokens are moves -/

section Tokens

variable {firstVar : Nat} {fe fe' : Frontend M} {F : Footprint}
  {macros : Nat → Frontend M → Option VmResult × Frontend M} {literalAt : Nat → UInt64}

theorem SameTree.movesTo (h : SameTree fe fe') : TokenMoves fe [] fe' :=
  (TokenMove.same h).to

theorem handleDelimiter_moves {opening : Bool} (h : handleDelimiter opening fe = (some (), fe')) :
    TokenMoves fe (delimiterLexemes opening fe.scopes) fe' := by
  rw [handleDelimiter] at h
  cases hscopes : fe.scopes with
  | nil =>
      rw [hscopes] at h
      cases h
      exact .refl fe
  | cons scope rest =>
      rw [hscopes] at h
      simp only [delimiterLexemes]
      by_cases hwait : scope.phase = .waitOpen ∨ scope.phase = .cleanupWaitOpen
      · simp only [if_pos hwait] at h ⊢
        split at h
        · cases h
        · cases h
          exact (TokenMove.opening hscopes hwait).to
      simp only [if_neg hwait] at h ⊢
      by_cases hzero : scope.delimiterDepth = 0
      · simp only [if_pos hzero] at h
        cases h
        have hone : ¬ scope.delimiterDepth = 1 := by omega
        simp only [hone, and_false, if_false]
        exact .refl fe
      simp only [if_neg hzero] at h
      cases opening with
      | true =>
          simp only [if_true] at h
          cases h
          simp only [Bool.true_eq_false, false_and, if_false]
          exact (TokenMove.nested _ hscopes hwait hzero).to
      | false =>
          simp only [Bool.false_eq_true, if_false, true_and] at h ⊢
          by_cases hone : scope.delimiterDepth = 1
          · simp only [hone, Nat.sub_self, ne_eq, not_true_eq_false, if_false] at h
            cases h
            rw [if_pos hone]
            exact (TokenMove.closing hscopes hwait hzero).to
          · have hmore : scope.delimiterDepth - 1 ≠ 0 := by omega
            simp only [if_pos hmore] at h
            cases h
            rw [if_neg hone]
            exact (TokenMove.nested _ hscopes hwait hzero).to

theorem finishImplicit_leaves {xs : List Lexeme} (h : ScopeEnds (finishImplicitEpilogues fe) xs fe') :
    ScopeEnds fe xs fe' := by
  rw [finishImplicitEpilogues] at h
  generalize hscopes : fe.scopes = scopes at h
  induction scopes generalizing fe with
  | nil => exact h
  | cons scope rest ih =>
      rw [finishImplicitFrom] at h
      split at h
      · rename_i hends
        have hrest : (fe.leave scope).scopes = rest := by
          simp [Frontend.leave, Frontend.enterBlock, Frontend.startHere, Frontend.setBlocks, hscopes]
        exact .implicit hscopes hends (ih hrest h)
      · exact h

theorem Opens.eq_of_some {step : FrontStep M Unit} {fe₁ : Frontend M} (h : Opens step fe fe₁)
    (hrun : step fe = (some (), fe')) : fe' = fe₁ := by
  rcases h with h | ⟨ys, h⟩
  · rw [h] at hrun
    cases hrun
    rfl
  · rw [h] at hrun
    cases hrun

/-- The words that end a scope look at the innermost one. -/
theorem innermost_of_some {step : FrontendScope → List FrontendScope → Option Unit × Frontend M}
    (h : (match fe.scopes with
      | scope :: rest => step scope rest
      | [] => badControl fe) = (some (), fe')) :
    ∃ scope rest, fe.scopes = scope :: rest ∧ step scope rest = (some (), fe') := by
  cases hscopes : fe.scopes with
  | nil =>
      rw [hscopes] at h
      cases h
  | cons scope rest =>
      rw [hscopes] at h
      exact ⟨scope, rest, rfl, h⟩

theorem emitLoopExit_moves (isContinue : Bool) (hbody : InBody fe.scopes)
    (h : emitLoopExit isContinue fe = (some (), fe')) :
    TokenMoves fe [.word (exitWord isContinue)] fe' := by
  rcases emitLoopExit_cases isContinue fe with ⟨-, hnone⟩ | ⟨inner, loop, hsplit, hlegal, -, hsome⟩
  · rw [h] at hnone
    cases hnone
  · rw [h] at hsome
    cases hsome
    have hexit : TokenMove fe [.word (exitWord isContinue)] _ := .exit isContinue hbody ⟨inner, loop, hsplit, hlegal⟩
    rw [loopDepths, hsplit] at hexit
    exact hexit.to

theorem control_leaves {word : Immediate} (hends : word.endsDefers = true) (h : control word fe = (some (), fe')) :
    ScopeEnds fe [.word word] fe' := by
  cases word with
  | again =>
      obtain ⟨scope, rest, hscopes, h⟩ := innermost_of_some h
      split at h
      · rename_i hkind
        cases h
        exact .again hscopes hkind
      · cases h
  | elseWord =>
      obtain ⟨scope, rest, hscopes, h⟩ := innermost_of_some h
      split at h
      · rename_i hcase
        cases h
        exact .elseWord hscopes hcase.1 hcase.2
      · cases h
  | done =>
      obtain ⟨scope, rest, hscopes, h⟩ := innermost_of_some h
      split at h
      · rename_i hcase
        cases h
        by_cases hphase : scope.phase = .body
        · simp only [if_pos hphase]
          exact .doneThen hscopes hcase.1 hphase
        · simp only [if_neg hphase]
          exact .doneElse hscopes hcase.1 (hcase.2.resolve_left hphase)
      · cases h
  | finallyWord =>
      obtain ⟨scope, rest, hscopes, h⟩ := innermost_of_some h
      split at h
      · rename_i hcase
        cases h
        exact .finallyWord hscopes hcase.1 hcase.2.1 hcase.2.2
      · cases h
  | endWord =>
      obtain ⟨scope, rest, hscopes, h⟩ := innermost_of_some h
      split at h
      · rename_i hcase
        cases h
        exact .endWord hscopes hcase.1 hcase.2.1 hcase.2.2
      · cases h
  | _ => cases hends

theorem control_moves {word : Immediate} (hends : word.endsDefers ≠ true) (hbody : InBody fe.scopes)
    (h : control word fe = (some (), fe')) : TokenMoves fe [.word word] fe' := by
  cases word with
  | func idx => cases h
  | var => cases h
  | loop =>
      obtain rfl := (beginLoop_opens fe).eq_of_some h
      exact (TokenMove.loop hbody).to
  | ifWord =>
      obtain rfl := (beginIf_opens fe).eq_of_some h
      exact (TokenMove.branch hbody).to
  | start =>
      obtain rfl := (beginEpilogue_opens false fe).eq_of_some h
      exact (TokenMove.epilogue false hbody).to
  | defer =>
      obtain rfl := (beginEpilogue_opens true fe).eq_of_some h
      exact (TokenMove.epilogue true hbody).to
  | breakWord => exact emitLoopExit_moves false hbody h
  | continueWord => exact emitLoopExit_moves true hbody h
  | _ => exact absurd rfl hends

theorem runControl_moves {word : Immediate} (h : runControl word fe = (some (), fe')) :
    TokenMoves fe [.word word] fe' := by
  rw [runControl] at h
  split at h
  · cases h
  rename_i hopen
  split at h
  · rename_i hends
    exact (TokenMove.leave (finishImplicit_leaves (control_leaves hends h))).to
  · rename_i hends
    exact control_moves hends (Frontend.inBody (Bool.not_eq_true _ ▸ hopen)) h

theorem emitOp_moves (hF : FootprintFits firstVar fe F) (hready : fe.readyForWord = true) {op : Op}
    (h : emitOp op fe = (some (), fe')) : TokenMove fe [.op op] fe' := by
  rw [emitOp_of_fits hF op] at h
  cases h
  exact .op op hready

theorem runVar_moves (hbody : InBody fe.scopes) (h : runVar fe = (some (), fe')) :
    TokenMoves fe [.var fe.func.vars.length] fe' := by
  have htype : SameTree fe (parseType fe).2 := parseTypeFrom_quiet _ fe
  rcases hparse : parseType fe with ⟨_ | tid, fe₁⟩
  · rw [runVar, FrontStep.bind_none hparse] at h
    cases h
  rw [hparse] at htype
  have hname : SameTree fe₁ (parseName fe₁).2 := nextName_quiet _ fe₁
  rcases hparse' : parseName fe₁ with ⟨_ | name, fe₂⟩
  · rw [runVar, FrontStep.bind_some hparse, FrontStep.bind_none hparse'] at h
    cases h
  rw [hparse'] at hname
  rw [runVar, FrontStep.bind_some hparse, FrontStep.bind_some hparse', declareVar] at h
  have hsame : SameTree fe fe₂ := htype.trans hname
  split at h
  · cases h
  split at h
  · cases h
  split at h
  · cases h
  cases h
  have hdeclare : TokenMove fe₂ [.var fe₂.func.vars.length] _ := .var tid name.bytes (hsame.scopes ▸ hbody)
  rw [← hsame.vars]
  exact hsame.movesTo.trans hdeclare.to

theorem engageWord_moves (hF : FootprintFits firstVar fe F) {word : Word}
    (hquick : ∀ idx, word.kind ≠ .immediate (.func idx))
    (hvar : word.kind = .immediate .var → ¬ fe.inCondition)
    (h : engageWord macros word fe = (some (), fe')) : TokenMoves fe (word.kind.lexemes fe.func.vars.length) fe' := by
  rw [engageWord] at h
  split at h
  swap
  · cases h
  rename_i hready
  cases hkind : word.kind with
  | op op =>
      rw [hkind] at h
      exact (emitOp_moves hF hready h).to
  | func idx =>
      rw [hkind] at h
      exact (emitOp_moves hF hready h).to
  | native global =>
      rw [hkind] at h
      have hok := emitOp_of_fits hF ⟨.pushGlobal, global⟩
      rw [engageKind, FrontStep.bind_some (f := fun _ => emitOp ⟨.callNativeOnStack, 0⟩) hok] at h
      obtain ⟨-, F', -, hF'⟩ := emitOp_advances ⟨.pushGlobal, global⟩ hready F hF
      have hscopes := emitOp_scopes hF ⟨.pushGlobal, global⟩
      rw [hok] at hF' hscopes
      have hready' : (fe.emitted ⟨.pushGlobal, global⟩).readyForWord = true := by
        rw [Frontend.readyForWord, show (fe.emitted ⟨.pushGlobal, global⟩).scopes = fe.scopes from hscopes]
        exact hready
      exact .step (.op _ hready) (emitOp_moves hF' hready' h).to
  | immediate word =>
      rw [hkind] at h hquick hvar
      cases word with
      | func idx => exact absurd rfl (hquick idx)
      | var =>
          refine runVar_moves ⟨fun hreading => hvar rfl ((Frontend.reading_iff hready).mp hreading), ?_⟩ h
          exact fun scope rest heq => (Frontend.phase_of_ready hready heq).2
      | _ => exact runControl_moves h

theorem emitNumber_moves (hF : FootprintFits firstVar fe F) (hready : fe.readyForWord = true) {token : Token}
    (h : emitNumber literalAt token fe = (some (), fe')) :
    TokenMoves fe [.op ⟨.pushGlobal, UInt16.ofNat ((fe.ctx.map (·.globals.length)).getD 0)⟩] fe' := by
  simp only [emitNumber] at h
  split at h
  · cases h
  split at h
  · cases h
  have hsame : SameTree fe (appendLiteral literalAt (strtoll token.data).value fe).2 ∧
      ∀ idx, (appendLiteral literalAt (strtoll token.data).value fe).1 = some idx →
        idx = (fe.ctx.map (·.globals.length)).getD 0 := by
    rw [appendLiteral]
    split
    · exact ⟨⟨rfl, rfl, rfl, rfl, rfl, rfl⟩, fun idx hidx => by cases hidx⟩
    · rename_i ctx hctx
      simp only
      split
      · exact ⟨⟨rfl, rfl, rfl, rfl, rfl, rfl⟩, fun idx hidx => by cases hidx⟩
      · refine ⟨⟨rfl, rfl, rfl, rfl, rfl, rfl⟩, fun idx hidx => ?_⟩
        cases hidx
        rw [hctx]
        rfl
  rcases hrun : appendLiteral literalAt (strtoll token.data).value fe with ⟨_ | idx, fe₁⟩
  · rw [FrontStep.bind_none hrun] at h
    cases h
  · rw [hrun] at hsame
    rw [FrontStep.bind_some hrun] at h
    obtain ⟨hsame, hidx⟩ := hsame
    obtain rfl := hidx idx rfl
    have hready' : fe₁.readyForWord = true := by
      rw [Frontend.readyForWord, hsame.scopes]
      exact hready
    exact hsame.movesTo.trans (emitOp_moves (hsame.fits hF) hready' h).to

/-- A token that is engaged makes moves that read what it says. -/
theorem engageToken_moves (hF : FootprintFits firstVar fe F) (hplain : fe.Plain)
    (h : engageToken macros literalAt fe = (some (), fe')) : TokenMoves fe fe.lexemes fe' := by
  obtain ⟨hquick, hvar⟩ := hplain
  rw [engageToken] at h
  rw [Frontend.lexemes]
  by_cases hparen : fe.currentToken.isParen
  · simp only [if_pos hparen] at h ⊢
    exact handleDelimiter_moves h
  simp only [if_neg hparen] at h ⊢
  rw [Frontend.currentWord, if_neg hparen] at hquick hvar
  cases hfind : findWord fe.words fe.currentToken.bytes with
  | some word =>
      rw [hfind] at h hquick hvar
      exact engageWord_moves hF (fun idx hidx => hquick idx (congrArg some hidx))
        (fun hword => hvar (congrArg some hword)) h
  | none =>
      rw [hfind] at h
      simp only [compileFallback] at h ⊢
      split at h
      swap
      · cases h
      rename_i hready
      cases hname : findVar fe.func fe.currentToken.bytes with
      | some idx =>
          have hok : emitVar idx fe = (some (), fe.emitted (fe.varOp idx)) :=
            emitOp_of_fits hF (fe.varOp idx)
          rw [hname] at h
          simp only [Option.map_some, hok] at h
          cases h
          exact (TokenMove.op (fe.varOp idx) hready).to
      | none =>
          rw [hname] at h
          simp only [Option.map_none, Option.getD_none] at h
          split at h
          · exact emitNumber_moves hF hready h
          · cases h

end Tokens

/-! ## TokenMove keep the invariant -/

section Moves

variable {firstVar : Nat} {fe fe' fe'' : Frontend M} {F : Footprint} {xs ys : List Lexeme}

/-- The scope whose parenthesis is awaited, or in which parentheses are counted -/
theorem FootprintFits.counted (hF : FootprintFits firstVar fe F) {scope : FrontendScope}
    {rest : List FrontendScope} (heq : fe.scopes = scope :: rest)
    (hwait : ¬ (scope.phase = .waitOpen ∨ scope.phase = .cleanupWaitOpen)) (hdepth : scope.delimiterDepth ≠ 0) :
    scope.kind = .branch ∧ scope.phase = .condition ∨
      scope.kind = .epilogue ∧ scope.implicitEnd = true ∧ scope.phase = .cleanup := by
  rcases hF.delimited heq (.inr (.inr hdepth)) with ⟨hkind, hphase⟩ | ⟨hkind, himplicit, hphase⟩
  · exact .inl ⟨hkind, hphase.resolve_left fun h => hwait (.inl h)⟩
  · exact .inr ⟨hkind, himplicit, hphase.resolve_left fun h => hwait (.inr h)⟩

theorem not_branch {scope : FrontendScope} (hkind : scope.kind = .epilogue) : scope.kind ≠ .branch := by
  rw [hkind]
  exact ScopeKind.noConfusion

theorem ScopeEnds.advances (h : ScopeEnds fe xs fe') : Advances firstVar fe fe' := by
  induction h with
  | implicit heq hends _ ih =>
      exact (leave_advances heq (not_reading_of_kind heq (not_branch hends.1))).trans ih
  | again heq hkind =>
      refine leave_advances heq (not_reading_of_kind heq ?_)
      rw [hkind]
      exact ScopeKind.noConfusion
  | elseWord heq hkind hphase =>
      refine enterBlock_advances fun F R E covered h => ?_
      rw [heq] at h ⊢
      exact h.turnElse hkind hphase
  | doneThen heq hkind hphase =>
      exact (startSecond_advances heq hkind hphase).trans (leave_advances heq (not_reading_of_phase heq (.inl hphase)))
  | doneElse heq hkind hphase => exact leave_advances heq (not_reading_of_phase heq (.inr hphase))
  | finallyWord heq hkind himplicit hphase =>
      refine enterBlock_advances fun F R E covered h => ?_
      rw [heq] at h ⊢
      exact h.turnFinally hkind himplicit hphase
  | endWord heq hkind _ _ => exact leave_advances heq (not_reading_of_kind heq (not_branch hkind))

theorem TokenMove.advances (h : TokenMove fe xs fe') : Advances firstVar fe fe' := by
  cases h with
  | same hsame => exact hsame.advances
  | op o hready =>
      refine .of_fits fun F hF => ?_
      have hemit : Advances firstVar fe _ := emitOp_advances o hready
      rw [emitOp_of_fits hF] at hemit
      exact hemit
  | loop hbody =>
      rintro F ⟨R, E, covered, h⟩
      obtain ⟨hinner, F', R', hsub, hopened⟩ := h.openLoop hbody rfl
      exact ⟨hinner, F', hsub, R', [], _, hopened⟩
  | branch hbody =>
      rintro F ⟨R, E, covered, h⟩
      obtain ⟨hinner, F', R', hsub, hopened⟩ := h.openIf hbody rfl
      exact ⟨hinner, F', hsub, R', [], _, hopened⟩
  | epilogue implicitEnd hbody =>
      rintro F ⟨R, E, covered, h⟩
      obtain ⟨hinner, F', R', hsub, hopened⟩ := h.openEpilogue hbody implicitEnd rfl
      exact ⟨hinner, F', hsub, R', [], _, hopened⟩
  | exit isContinue hbody _ =>
      rintro F ⟨R, E, covered, h⟩
      obtain ⟨hinner, -, F', hsub, -, hexit⟩ := h.exit hbody.1 rfl
      exact ⟨hinner, F', hsub, R, _, _, hexit⟩
  | var tid name hbody =>
      rintro F ⟨R, E, covered, h⟩
      obtain ⟨r, hr⟩ := h.leaf
      obtain ⟨hinner, F', E', hsub, hdeclare⟩ := h.declare hbody.1 hr rfl
      refine ⟨?_, F', hsub, R, E', fe.func.ops.length, ?_⟩
      · simpa [Frontend.declared, hr] using hinner
      · simpa [Frontend.declared, hr] using hdeclare
  | leave hleave => exact hleave.advances
  | opening heq hwait =>
      refine .of_fits fun F hF => ?_
      rcases hF.delimited heq (hwait.imp_right .inl) with ⟨hkind, hphase⟩ | ⟨hkind, himplicit, hphase⟩
      · rw [if_pos hkind]
        exact mark_advances heq (.inl ⟨hkind, hphase, rfl⟩)
      · rw [if_neg (not_branch hkind)]
        exact mark_advances heq (.inr ⟨himplicit, hphase, rfl⟩)
  | @nested scope rest d heq hwait hdepth =>
      refine .of_fits fun F hF => ?_
      refine @mark_advances _ _ _ _ _ d scope.phase heq ?_
      rcases hF.counted heq hwait hdepth with ⟨hkind, hphase⟩ | ⟨-, himplicit, hphase⟩
      · exact .inl ⟨hkind, .inr hphase, hphase⟩
      · exact .inr ⟨himplicit, .inr hphase, hphase⟩
  | closing heq hwait hdepth =>
      refine .of_fits fun F hF => ?_
      rw [Frontend.closed]
      rcases hF.counted heq hwait hdepth with ⟨hkind, hphase⟩ | ⟨hkind, himplicit, hphase⟩
      · simp only [if_pos hkind]
        exact closeCondition_advances heq hkind hphase
      · simp only [if_neg (not_branch hkind)]
        exact closeCleanup_advances heq himplicit hphase

theorem TokenMoves.advances (h : TokenMoves fe xs fe') : Advances firstVar fe fe' := by
  induction h with
  | refl fe => exact .refl fe
  | step hmove _ ih => exact hmove.advances.trans ih

/-- The operations that lexemes add -/
def lexemeOps (xs : List Lexeme) : List Op :=
  xs.filterMap fun x =>
    match x with
    | .op o => some o
    | _ => none

theorem ScopeEnds.ops (h : ScopeEnds fe xs fe') : fe'.func.ops = fe.func.ops ++ lexemeOps xs := by
  induction h with
  | implicit _ _ _ ih => exact ih
  | _ => exact (List.append_nil _).symm

theorem TokenMove.ops (h : TokenMove fe xs fe') : fe'.func.ops = fe.func.ops ++ lexemeOps xs := by
  cases h with
  | same hsame => exact hsame.ops.trans (List.append_nil _).symm
  | op o hready =>
      rw [Frontend.emitted]
      split <;> rfl
  | leave hleave => exact hleave.ops
  | epilogue implicitEnd hbody => exact (List.append_nil _).symm
  | closing heq hwait hdepth =>
      rw [Frontend.closed]
      split <;> exact (List.append_nil _).symm
  | _ => exact (List.append_nil _).symm

theorem TokenMoves.ops (h : TokenMoves fe xs fe') : fe'.func.ops = fe.func.ops ++ lexemeOps xs := by
  induction h with
  | refl fe => exact (List.append_nil _).symm
  | step hmove _ ih => rw [ih, hmove.ops, lexemeOps, lexemeOps, lexemeOps, List.filterMap_append, List.append_assoc]

end Moves

/-! ## Blocks that stay -/

/-- The leaves that are entered when the scope goes on -/
def FrontendScope.pending (scope : FrontendScope) : List Nat :=
  match scope.kind, scope.phase with
  | .loop, _ => [scope.after]
  | .branch, .elseBody => [scope.after]
  | .branch, _ => [scope.second, scope.after]
  | .epilogue, .body => if scope.implicitEnd then [scope.after] else [scope.second, scope.after]
  | .epilogue, _ => if scope.implicitEnd then [scope.first, scope.after] else [scope.after]

def pending (scopes : List FrontendScope) : List Nat :=
  scopes.flatMap FrontendScope.pending

/-- The branch whose condition is awaited or read -/
def readBlock : List FrontendScope → List Nat
  | [] => []
  | scope :: _ =>
      if scope.kind = .branch ∧ (scope.phase = .waitOpen ∨ scope.phase = .condition) then [scope.block]
      else []

/-- The blocks that will still be written -/
def Frontend.unfinished (fe : Frontend M) : List Nat :=
  fe.currentBasic :: (readBlock fe.scopes ++ pending fe.scopes)

theorem FrontendScope.after_pending (scope : FrontendScope) : scope.after ∈ scope.pending := by
  rw [pending]
  split
  · exact List.mem_singleton_self _
  · exact List.mem_singleton_self _
  · exact List.mem_cons_of_mem _ (List.mem_singleton_self _)
  · split <;> simp
  · split <;> simp

theorem readBlock_nil {scopes : List FrontendScope} (h : ¬ Reading scopes) : readBlock scopes = [] := by
  cases scopes with
  | nil => rfl
  | cons scope rest =>
      rw [readBlock, if_neg]
      exact fun hread => h ⟨scope, rest, rfl, hread⟩

section Poised

variable {bs : List Block} {F : Footprint}

theorem InsideScope.waiting_eq {scope : FrontendScope} {P : Path} {d : Nat} {own : Region}
    (h : InsideScope bs F scope P d own) : own.waiting = scope.pending := by
  cases h with
  | loop hk => simp [FrontendScope.pending, hk]
  | condition hk hp => rcases hp with hp | hp <;> simp [FrontendScope.pending, hk, hp]
  | yes hk hp => simp [FrontendScope.pending, hk, hp]
  | no hk hp => simp [FrontendScope.pending, hk, hp]
  | protect hk hp _ hi => simp [FrontendScope.pending, hk, hp, hi]
  | cleanup hk hp _ hi => simp [FrontendScope.pending, hk, hp, hi]
  | capture hk hp hi => rcases hp with hp | hp <;> simp [FrontendScope.pending, hk, hp, hi]
  | rest hk hp _ hi => simp [FrontendScope.pending, hk, hp, hi]

theorem Open.waiting_eq {scopes : List FrontendScope} {R : Region} (h : Open bs F scopes R) :
    R.waiting = TreeVM.pending scopes := by
  induction h with
  | nil => rfl
  | cons _ _ _ _ _ _ _ _ hinside _ ih =>
      rw [hinside.waiting_eq, ih]
      rfl

/-- What the invariant says about the blocks that will still be written -/
structure Poised (fe : Frontend M) : Prop where
  nodup : (fe.currentBasic :: pending fe.scopes).Nodup
  waiting : ∀ i ∈ pending fe.scopes, ∃ st, fe.func.blocks[i]? = some (.basic ⟨st, 0⟩)
  leaf : ∃ r, fe.func.blocks[fe.currentBasic]? = some (.basic r)
  writing : ¬ Reading fe.scopes →
    ∃ r, fe.func.blocks[fe.currentBasic]? = some (.basic r) ∧ r.start + r.len = fe.func.ops.length
  reading : ∀ scope rest, fe.scopes = scope :: rest → scope.kind = .branch →
    scope.phase = .waitOpen ∨ scope.phase = .condition →
    ∃ covered, AtCondition fe.func.blocks fe.func.ops.length fe.currentBasic covered scope

theorem FootprintFits.poised {firstVar : Nat} {fe : Frontend M} (hF : FootprintFits firstVar fe F) : Poised fe := by
  obtain ⟨R, E, covered, h⟩ := hF
  have hwaiting := h.opened.waiting_eq
  refine ⟨?_, fun i hi => h.waiting i (hwaiting ▸ hi), h.leaf, fun hw => (h.writing hw).2,
    fun scope rest heq hkind hphase => ⟨covered, h.reading scope rest heq hkind hphase⟩⟩
  rw [← hwaiting]
  exact h.nodup.sublist (List.Sublist.cons_cons _ (List.sublist_append_left _ _))

theorem Poised.cur_lt {fe : Frontend M} (h : Poised fe) : fe.currentBasic < fe.func.blocks.length := by
  obtain ⟨r, hr⟩ := h.leaf
  exact (List.getElem?_eq_some_iff.mp hr).1

theorem Poised.pending_lt {fe : Frontend M} (h : Poised fe) {i : Nat} (hi : i ∈ pending fe.scopes) :
    i < fe.func.blocks.length := by
  obtain ⟨st, hst⟩ := h.waiting i hi
  exact (List.getElem?_eq_some_iff.mp hst).1

end Poised

/-- Blocks that are finished stay, and stay finished. -/
structure Preserves (fe fe' : Frontend M) : Prop where
  stays : ∀ i, i < fe.func.blocks.length → i ∉ fe.unfinished → fe'.func.blocks[i]? = fe.func.blocks[i]?
  unfinished : ∀ i ∈ fe'.unfinished, i < fe.func.blocks.length → i ∈ fe.unfinished
  le : fe.func.blocks.length ≤ fe'.func.blocks.length

namespace Preserves

variable {fe fe' fe'' : Frontend M}

theorem refl (fe : Frontend M) : Preserves fe fe :=
  ⟨fun _ _ _ => rfl, fun _ hi _ => hi, Nat.le_refl _⟩

theorem trans (h : Preserves fe fe') (h' : Preserves fe' fe'') : Preserves fe fe'' where
  stays i hi hfinished := by
    have hi' : i < fe'.func.blocks.length := Nat.lt_of_lt_of_le hi h.le
    rw [h'.stays i hi' fun hmem => hfinished (h.unfinished i hmem hi), h.stays i hi hfinished]
  unfinished i hmem hi := h.unfinished i (h'.unfinished i hmem (Nat.lt_of_lt_of_le hi h.le)) hi
  le := Nat.le_trans h.le h'.le

/-- Blocks are written that were unfinished, and none is added. -/
theorem of_written (hlength : fe'.func.blocks.length = fe.func.blocks.length)
    (hblocks : ∀ i, i ∉ fe.unfinished → fe'.func.blocks[i]? = fe.func.blocks[i]?)
    (hsub : ∀ i ∈ fe'.unfinished, i ∈ fe.unfinished) : Preserves fe fe' :=
  ⟨fun i _ hi => hblocks i hi, fun i hi _ => hsub i hi, Nat.le_of_eq hlength.symm⟩

/-- The current block is replaced, and blocks are added. -/
theorem of_grown (hle : fe.func.blocks.length ≤ fe'.func.blocks.length)
    (hblocks : ∀ i, i < fe.func.blocks.length → i ≠ fe.currentBasic →
      fe'.func.blocks[i]? = fe.func.blocks[i]?)
    (hnew : ∀ i ∈ fe'.unfinished, i < fe.func.blocks.length → i ∈ pending fe.scopes) : Preserves fe fe' where
  stays i hi hfinished := hblocks i hi fun heq => hfinished (heq ▸ List.mem_cons_self)
  unfinished i hmem hi := List.mem_cons_of_mem _ (List.mem_append_right _ (hnew i hmem hi))
  le := hle

/-- A leaf that is pending is entered. -/
theorem of_enter {scopes : List FrontendScope} {i depth : Nat} (hi : i ∈ pending fe.scopes)
    (hreading : ¬ Reading scopes) (hsub : ∀ j ∈ pending scopes, j ∈ pending fe.scopes) :
    Preserves fe { { fe with scopes := scopes }.enterBlock i with scopeDepth := depth } := by
  refine of_written (List.length_modify _ _ _) (fun j hj => ?_) fun j hj => ?_
  · refine List.getElem?_modify_ne _ _ fun heq => hj ?_
    exact heq ▸ List.mem_cons_of_mem _ (List.mem_append_right _ hi)
  · have hj : j ∈ i :: (readBlock scopes ++ pending scopes) := hj
    rw [readBlock_nil hreading, List.nil_append] at hj
    rcases List.mem_cons.mp hj with rfl | hj
    · exact List.mem_cons_of_mem _ (List.mem_append_right _ hi)
    · exact List.mem_cons_of_mem _ (List.mem_append_right _ (hsub j hj))

theorem of_leave {scope : FrontendScope} {rest : List FrontendScope} (heq : fe.scopes = scope :: rest)
    (hreading : ¬ Reading rest) : Preserves fe (fe.leave scope) := by
  have hleave : fe.leave scope =
      { { fe with scopes := rest }.enterBlock scope.after with scopeDepth := scope.parentDepth + 1 } := by
    simp only [Frontend.leave, heq, List.tail_cons]
  rw [hleave]
  refine of_enter ?_ hreading fun j hj => ?_
  · rw [heq]
    exact List.mem_append_left _ scope.after_pending
  · rw [heq]
    exact List.mem_append_right _ hj

/-- A scope is opened in new blocks. -/
theorem of_opened {pre : List Block} {middle : Block}
    {scope : FrontendScope} {cur depth : Nat} (hcur : fe.func.blocks.length ≤ cur)
    (hblock : fe.func.blocks.length ≤ scope.block) (hpending : ∀ i ∈ scope.pending, fe.func.blocks.length ≤ i) :
    Preserves fe (fe.opened pre middle scope cur depth) := by
  refine of_grown ?_ (fun i hi hne => ?_) fun i hi hlt => ?_
  · simp [Frontend.opened, Frontend.setBlocks, wrapped]
  · have hold : i < (fe.func.blocks ++ pre).length := by
      rw [List.length_append]
      exact Nat.lt_add_right _ hi
    exact (grown_old hold hne).trans (List.getElem?_append_left hi)
  · have hi : i ∈ cur :: (readBlock (scope :: fe.scopes) ++ (scope.pending ++ pending fe.scopes)) := hi
    rcases List.mem_cons.mp hi with rfl | hi
    · omega
    rcases List.mem_append.mp hi with hi | hi
    · rw [readBlock] at hi
      split at hi
      · rw [List.mem_singleton.mp hi] at hlt
        omega
      · cases hi
    rcases List.mem_append.mp hi with hi | hi
    · have := hpending i hi
      omega
    · exact hi

end Preserves

theorem SameTree.unfinished {fe fe' : Frontend M} (h : SameTree fe fe') : fe'.unfinished = fe.unfinished := by
  rw [Frontend.unfinished, Frontend.unfinished, h.scopes, h.currentBasic]

theorem ScopeEnds.preserves {firstVar : Nat} {fe fe' : Frontend M} {F : Footprint} {xs : List Lexeme}
    (h : ScopeEnds fe xs fe') (hF : FootprintFits firstVar fe F) : Preserves fe fe' := by
  induction h generalizing F with
  | implicit heq hends _ ih =>
      have hleave : Advances firstVar _ _ := leave_advances heq (not_reading_of_kind heq (not_branch hends.1))
      obtain ⟨-, F', -, hF'⟩ := hleave F hF
      exact (Preserves.of_leave heq (hF.inBody_tail heq).1).trans (ih hF')
  | again heq _ => exact .of_leave heq (hF.inBody_tail heq).1
  | doneElse heq _ _ => exact .of_leave heq (hF.inBody_tail heq).1
  | endWord heq _ _ _ => exact .of_leave heq (hF.inBody_tail heq).1
  | @elseWord fe scope rest heq hkind hphase =>
      rw [Frontend.setTop, heq, List.tail_cons]
      refine .of_enter ?_ (not_reading_of_phase rfl (.inr rfl)) fun j hj => ?_
      · simp [heq, pending, FrontendScope.pending, hkind, hphase]
      · simp only [pending, FrontendScope.pending, List.flatMap_cons, hkind] at hj
        simp only [heq, pending, FrontendScope.pending, List.flatMap_cons, hkind, hphase]
        exact List.mem_cons_of_mem _ hj
  | @doneThen fe scope rest heq hkind hphase =>
      have hsecond : scope.second ∈ pending fe.scopes := by
        simp [heq, pending, FrontendScope.pending, hkind, hphase]
      have htouch : Preserves fe (fe.startHere scope.second) := by
        refine .of_written (List.length_modify _ _ _) (fun i hi => ?_) fun _ hi => hi
        refine List.getElem?_modify_ne _ _ fun heq' => hi ?_
        exact heq' ▸ List.mem_cons_of_mem _ (List.mem_append_right _ hsecond)
      exact htouch.trans (.of_leave heq (hF.inBody_tail heq).1)
  | @finallyWord fe scope rest heq hkind himplicit hphase =>
      rw [Frontend.setTop, heq, List.tail_cons]
      refine .of_enter ?_ (not_reading_of_kind rfl (not_branch hkind)) fun j hj => ?_
      · simp [heq, pending, FrontendScope.pending, hkind, hphase, himplicit]
      · simp only [pending, FrontendScope.pending, List.flatMap_cons, hkind, himplicit] at hj
        simp only [heq, pending, FrontendScope.pending, List.flatMap_cons, hkind, hphase, himplicit]
        exact List.mem_cons_of_mem _ hj

theorem TokenMove.preserves {firstVar : Nat} {fe fe' : Frontend M} {F : Footprint} {xs : List Lexeme}
    (h : TokenMove fe xs fe') (hF : FootprintFits firstVar fe F) : Preserves fe fe' := by
  have hpoised := hF.poised
  cases h with
  | same hsame =>
      refine .of_written (congrArg _ hsame.blocks) (fun i _ => ?_) fun i hi => ?_
      · rw [hsame.blocks]
      · rwa [hsame.unfinished] at hi
  | op o hready =>
      rw [Frontend.emitted]
      split
      · exact .of_written rfl (fun _ _ => rfl) fun _ hi => hi
      · refine .of_written (List.length_modify _ _ _) (fun i hi => ?_) fun _ hi => hi
        exact List.getElem?_modify_ne _ _ fun heq => hi (heq ▸ List.mem_cons_self)
  | loop hbody =>
      refine .of_opened (Nat.le_refl _) (Nat.le_add_right _ _) fun i hi => ?_
      rw [List.mem_singleton.mp hi]
      exact Nat.le_add_right _ _
  | branch hbody =>
      refine .of_opened (Nat.le_refl _) (Nat.le_add_right _ _) fun i hi => ?_
      simp only [FrontendScope.pending, newBranch, List.mem_cons, List.not_mem_nil, or_false] at hi
      omega
  | epilogue implicitEnd hbody =>
      refine .of_opened ?_ (Nat.le_add_right _ _) fun i hi => ?_
      · split <;> omega
      · cases implicitEnd <;>
          simp [FrontendScope.pending, newEpilogue] at hi <;> omega
  -- the words that wrap the current block: what comes after them goes into a new one
  | exit isContinue hbody _ =>
      refine .of_grown ?_ (fun i hi hne => grown_old hi hne) fun i hi hlt => ?_
      · simp [Frontend.exited, Frontend.setBlocks, wrapped]
      · have hi : i ∈ (fe.func.blocks.length + 3) :: (readBlock fe.scopes ++ pending fe.scopes) := hi
        rw [readBlock_nil hbody.1, List.nil_append] at hi
        rcases List.mem_cons.mp hi with rfl | hi
        · omega
        · exact hi
  | var tid name hbody =>
      refine .of_grown ?_ (fun i hi hne => grown_old hi hne) fun i hi hlt => ?_
      · simp [Frontend.declared]
      · have hi : i ∈ (fe.func.blocks.length + 3) :: (readBlock fe.scopes ++ pending fe.scopes) := hi
        rw [readBlock_nil hbody.1, List.nil_append] at hi
        rcases List.mem_cons.mp hi with rfl | hi
        · omega
        · exact hi
  | leave hleave => exact hleave.preserves hF
  | @opening scope rest heq hwait =>
      refine .of_written rfl (fun _ _ => rfl) fun i hi => ?_
      rcases hF.delimited heq (hwait.imp_right .inl) with ⟨hkind, hphase⟩ | ⟨hkind, himplicit, hphase⟩
      · rcases hphase with hphase | hphase <;>
          simpa [Frontend.unfinished, Frontend.setTop, heq, readBlock, pending, FrontendScope.pending, hkind,
            hphase] using hi
      · rcases hphase with hphase | hphase <;>
          simpa [Frontend.unfinished, Frontend.setTop, heq, readBlock, pending, FrontendScope.pending, hkind,
            himplicit, hphase] using hi
  | @nested scope rest d heq hwait hdepth =>
      refine .of_written rfl (fun _ _ => rfl) fun i hi => ?_
      simpa [Frontend.unfinished, Frontend.setTop, heq, readBlock, pending, FrontendScope.pending] using hi
  | @closing scope rest heq hwait hdepth =>
      rw [Frontend.closed]
      rcases hF.counted heq hwait hdepth with ⟨hkind, hphase⟩ | ⟨hkind, himplicit, hphase⟩
      · -- the current block is the first arm
        obtain ⟨covered, hat⟩ := hpoised.reading scope rest heq hkind (.inr hphase)
        have hblock : scope.block ∈ fe.unfinished := by
          simp [Frontend.unfinished, heq, readBlock, hkind, hphase]
        simp only [if_pos hkind]
        refine .of_written ?_ (fun i hi => ?_) fun i hi => ?_
        · exact (List.length_modify _ _ _).trans (List.length_modify _ _ _)
        · have hfirst : scope.first ≠ i := fun h => hi (h ▸ hat.first ▸ List.mem_cons_self)
          refine (List.getElem?_modify_ne _ _ hfirst).trans (List.getElem?_modify_ne _ _ fun h => hi ?_)
          exact h ▸ hblock
        · have hi : i ∈ scope.first :: (readBlock ({ scope with delimiterDepth := 0, phase := .body } ::
            fe.scopes.tail) ++ pending ({ scope with delimiterDepth := 0, phase := .body } :: fe.scopes.tail)) := hi
          rw [readBlock_nil (not_reading_of_phase rfl (.inl rfl)), List.nil_append, ← hat.first] at hi
          rcases List.mem_cons.mp hi with rfl | hi
          · exact List.mem_cons_self
          · refine List.mem_cons_of_mem _ (List.mem_append_right _ ?_)
            simpa [heq, pending, FrontendScope.pending, hkind, hphase] using hi
      · simp only [if_neg (not_branch hkind)]
        rw [Frontend.setTop, heq, List.tail_cons]
        have henter : Preserves fe
            { { fe with scopes := { scope with delimiterDepth := 0, phase := .body } :: rest }.enterBlock
              scope.first with scopeDepth := fe.scopeDepth } := by
          refine .of_enter ?_ (not_reading_of_kind rfl (not_branch hkind)) fun j hj => ?_
          · simp [heq, pending, FrontendScope.pending, hkind, hphase, himplicit]
          · simp only [pending, FrontendScope.pending, List.flatMap_cons, hkind, himplicit] at hj
            simp only [heq, pending, FrontendScope.pending, List.flatMap_cons, hkind, hphase, himplicit]
            exact List.mem_cons_of_mem _ hj
        exact henter

end TreeVM
