import TreeVM.Frontend.Moves

/-!
# What accepted source is translated to

The blocks behind accepted source are those of the statements that it is made of.

* `Closes`, `Goes`: how the source goes on from a state, with the blocks that are there in the end;
* `TokenMove.goes`: one move, taken back;
* `compileSource_translates`: accepted source is written statements, in their blocks.

The induction starts behind the last token.  There all blocks are known, and a move only tells which
of them the next statement owns.
-/

namespace TreeVM

variable {M : Type}

/-- The blocks at `i` stand for the tree. -/
abbrev HoldsTree (bs : List Block) (i : Nat) (t : Tree) : Prop :=
  Represents (fun _ => True) bs (.node i) t

/-- The leaf `i`, entered behind `pos` operations, holds these statements. -/
def Leaf (bs : List Block) (scopes : List FrontendScope) (i pos depth : Nat) (p : Stmts) : Prop :=
  HoldsTree bs i (p.tree pos pos depth (loopDepths scopes)) ∧ p.Legal (Exitable scopes)

/-- How the source goes on where statements end: with the word that ends the scope, the statements
behind it, and so on.  `bs` are the blocks in the end. -/
inductive Closes (bs : List Block) : List FrontendScope → (pos depth : Nat) → List Lexeme → Prop
  | nil {pos depth} : Closes bs [] pos depth []
  | again {scope rest pos depth p xs} : scope.kind = .loop →
      Leaf bs rest scope.after pos (scope.parentDepth + 1) p →
      Closes bs rest (pos + p.ops.length) (scope.parentDepth + 1 + p.climb) xs →
      Closes bs (scope :: rest) pos depth (.word .again :: (p.lexemes ++ xs))
  | elseWord {scope rest pos depth p xs} : scope.kind = .branch → scope.phase = .body →
      Leaf bs ({ scope with phase := .elseBody } :: rest) scope.second pos (scope.parentDepth + 1) p →
      Closes bs ({ scope with phase := .elseBody } :: rest) (pos + p.ops.length)
        (scope.parentDepth + 1 + p.climb) xs →
      Closes bs (scope :: rest) pos depth (.word .elseWord :: (p.lexemes ++ xs))
  | done {scope rest pos depth p xs} : scope.kind = .branch →
      scope.phase = .elseBody ∨ scope.phase = .body ∧ bs[scope.second]? = some (.basic ⟨pos, 0⟩) →
      Leaf bs rest scope.after pos (scope.parentDepth + 1) p →
      Closes bs rest (pos + p.ops.length) (scope.parentDepth + 1 + p.climb) xs →
      Closes bs (scope :: rest) pos depth (.word .done :: (p.lexemes ++ xs))
  | finallyWord {scope rest pos depth p xs} : scope.kind = .epilogue → scope.implicitEnd = false →
      scope.phase = .body →
      Leaf bs ({ scope with phase := .cleanup } :: rest) scope.second pos (scope.parentDepth + 2) p →
      Closes bs ({ scope with phase := .cleanup } :: rest) (pos + p.ops.length)
        (scope.parentDepth + 2 + p.climb) xs →
      Closes bs (scope :: rest) pos depth (.word .finallyWord :: (p.lexemes ++ xs))
  | endWord {scope rest pos depth p xs} : scope.kind = .epilogue → scope.implicitEnd = false →
      scope.phase = .cleanup → Leaf bs rest scope.after pos (scope.parentDepth + 1) p →
      Closes bs rest (pos + p.ops.length) (scope.parentDepth + 1 + p.climb) xs →
      Closes bs (scope :: rest) pos depth (.word .endWord :: (p.lexemes ++ xs))
  | closing {scope rest pos depth p xs} : scope.kind = .epilogue → scope.implicitEnd = true →
      scope.phase = .cleanup →
      Leaf bs ({ scope with delimiterDepth := 0, phase := .body } :: rest) scope.first pos depth p →
      Closes bs ({ scope with delimiterDepth := 0, phase := .body } :: rest) (pos + p.ops.length)
        (depth + p.climb) xs →
      Closes bs (scope :: rest) pos depth (.closing :: (p.lexemes ++ xs))
  | implicit {scope rest pos depth xs} : scope.endsImplicitly →
      bs[scope.after]? = some (.basic ⟨pos, 0⟩) → Closes bs rest pos (scope.parentDepth + 1) xs →
      Closes bs (scope :: rest) pos depth xs

/-- How the source goes on from a state with the blocks `bs₀`: with the rest of the current
statements, or with a parenthesis and a condition first. -/
inductive Goes (bs₀ bs : List Block) : List FrontendScope → (cur pos depth : Nat) → List Lexeme → Prop
  | body {scopes cur start pos depth xs} {p : Stmts} : InBody scopes →
      bs₀[cur]? = some (.basic ⟨start, pos - start⟩) → start ≤ pos →
      HoldsTree bs cur (p.tree start pos depth (loopDepths scopes)) → p.Legal (Exitable scopes) →
      Closes bs scopes (pos + p.ops.length) (depth + p.climb) xs →
      Goes bs₀ bs scopes cur pos depth (p.lexemes ++ xs)
  | condition {scope rest cur start pos depth xs} {cond : List Op} {p : Stmts} : scope.kind = .branch →
      scope.phase = .condition →
      bs₀[scope.block]? = some (.branch ⟨start, 0⟩ scope.first scope.second) → start ≤ pos →
      bs[scope.block]? = some (.branch ⟨start, pos + cond.length - start⟩ scope.first scope.second) →
      Leaf bs ({ scope with delimiterDepth := 0, phase := .body } :: rest) scope.first (pos + cond.length)
        depth p →
      Closes bs ({ scope with delimiterDepth := 0, phase := .body } :: rest)
        (pos + cond.length + p.ops.length) (depth + p.climb) xs →
      Goes bs₀ bs (scope :: rest) cur pos depth (cond.map .op ++ .closing :: (p.lexemes ++ xs))
  | opening {scope rest cur pos depth xs} :
      scope.kind = .branch ∧ scope.phase = .waitOpen ∨ scope.phase = .cleanupWaitOpen →
      Goes bs₀ bs ({ scope with
        delimiterDepth := 1, phase := if scope.kind = .branch then .condition else .cleanup } :: rest)
        cur pos depth xs →
      Goes bs₀ bs (scope :: rest) cur pos depth (.opening :: xs)

/-- How the source goes on from here. -/
def Frontend.GoesOn (fe : Frontend M) (bs : List Block) (xs : List Lexeme) : Prop :=
  Goes fe.func.blocks bs fe.scopes fe.currentBasic fe.func.ops.length fe.scopeDepth xs

/-- In the end finished blocks are as they are now. -/
def Frontend.Keeps (fe : Frontend M) (bs : List Block) : Prop :=
  ∀ i, i < fe.func.blocks.length → i ∉ fe.unfinished → bs[i]? = fe.func.blocks[i]?

theorem Preserves.keeps {fe fe' : Frontend M} {bs : List Block} (h : Preserves fe fe') (hkeeps : fe'.Keeps bs) :
    fe.Keeps bs := by
  intro i hi hfinished
  rw [hkeeps i (Nat.lt_of_lt_of_le hi h.le) fun hmem => hfinished (h.unfinished i hmem hi)]
  exact h.stays i hi hfinished

/-! ## Exits -/

section Exits

variable {scope : FrontendScope} {rest : List FrontendScope}

theorem loopDepths_cons (h : scope.kind ≠ .loop) : loopDepths (scope :: rest) = loopDepths rest := by
  rw [loopDepths, splitAtLoop, if_neg h, loopDepths]
  cases splitAtLoop rest <;> rfl

theorem exitable_cons (h : scope.kind ≠ .loop) (hphase : ¬ (scope.kind = .epilogue ∧ scope.phase = .cleanup)) :
    Exitable (scope :: rest) = Exitable rest := by
  have hlegal : ∀ inner, cleanupExitIsLegal (scope :: inner) = cleanupExitIsLegal inner := by
    intro inner
    have hlegal : (!(decide (scope.kind = .epilogue) && decide (scope.phase = .cleanup))) = true := by
      rw [← Bool.decide_and, decide_eq_false hphase]
      rfl
    rw [cleanupExitIsLegal, List.all_cons, hlegal, Bool.true_and, cleanupExitIsLegal]
  refine propext ⟨?_, ?_⟩
  · rintro ⟨inner, loop, hsplit, hinner⟩
    rw [splitAtLoop, if_neg h] at hsplit
    obtain ⟨⟨inner', loop'⟩, hsplit', heq⟩ := Option.map_eq_some_iff.mp hsplit
    cases heq
    exact ⟨inner', loop, hsplit', hlegal inner' ▸ hinner⟩
  · rintro ⟨inner, loop, hsplit, hinner⟩
    refine ⟨scope :: inner, loop, ?_, hlegal inner ▸ hinner⟩
    rw [splitAtLoop, if_neg h, hsplit]
    rfl

theorem exitable_loop (h : scope.kind = .loop) : Exitable (scope :: rest) = True := by
  refine eq_true ⟨[], scope, ?_, rfl⟩
  rw [splitAtLoop, if_pos h]

theorem exitable_cleanup (hkind : scope.kind = .epilogue) (hphase : scope.phase = .cleanup) :
    Exitable (scope :: rest) = False := by
  refine eq_false ?_
  rintro ⟨inner, loop, hsplit, hinner⟩
  have hloop : scope.kind ≠ .loop := by
    rw [hkind]
    exact ScopeKind.noConfusion
  rw [splitAtLoop, if_neg hloop] at hsplit
  obtain ⟨⟨inner', loop'⟩, -, heq⟩ := Option.map_eq_some_iff.mp hsplit
  cases heq
  simp [cleanupExitIsLegal, hkind, hphase] at hinner

end Exits

/-! ## Reading the relations back -/

section Inversion

variable {bs₀ bs : List Block} {scope : FrontendScope} {scopes rest : List FrontendScope} {cur pos depth : Nat}
  {xs : List Lexeme}

theorem Goes.body_inv (h : Goes bs₀ bs scopes cur pos depth xs) (hbody : InBody scopes) :
    ∃ (start : Nat) (p : Stmts) (ys : List Lexeme), xs = p.lexemes ++ ys ∧
      bs₀[cur]? = some (.basic ⟨start, pos - start⟩) ∧ start ≤ pos ∧
      HoldsTree bs cur (p.tree start pos depth (loopDepths scopes)) ∧ p.Legal (Exitable scopes) ∧
      Closes bs scopes (pos + p.ops.length) (depth + p.climb) ys := by
  cases h with
  | body _ hcur hle htree hlegal hcloses => exact ⟨_, _, _, rfl, hcur, hle, htree, hlegal, hcloses⟩
  | condition hkind hphase => exact absurd ⟨_, _, rfl, hkind, .inr hphase⟩ hbody.1
  | opening hwait =>
      rcases hwait with ⟨hkind, hphase⟩ | hphase
      · exact absurd ⟨_, _, rfl, hkind, .inl hphase⟩ hbody.1
      · exact absurd hphase (hbody.2 _ _ rfl)

/-- Statements at the leaf `i`, and how the source goes on behind them -/
def LeafHolds (bs : List Block) (scopes : List FrontendScope) (i pos depth : Nat) (xs : List Lexeme) : Prop :=
  ∃ (p : Stmts) (ys : List Lexeme), xs = p.lexemes ++ ys ∧ Leaf bs scopes i pos depth p ∧
    Closes bs scopes (pos + p.ops.length) (depth + p.climb) ys

/-- Statements from the start of their block on -/
theorem Goes.leaf (h : Goes bs₀ bs scopes cur pos depth xs) (hbody : InBody scopes)
    (hcur : bs₀[cur]? = some (.basic ⟨pos, 0⟩)) : LeafHolds bs scopes cur pos depth xs := by
  obtain ⟨start, p, ys, hxs, hcur', hle, htree, hlegal, hcloses⟩ := h.body_inv hbody
  obtain rfl : start = pos := (OpRange.mk.inj (Block.basic.inj (Option.some.inj (hcur'.symm.trans hcur)))).1
  exact ⟨p, ys, hxs, ⟨htree, hlegal⟩, hcloses⟩

namespace Closes

theorem loop_inv (h : Closes bs (scope :: rest) pos depth xs) (hkind : scope.kind = .loop) :
    ∃ ys, xs = .word .again :: ys ∧ LeafHolds bs rest scope.after pos (scope.parentDepth + 1) ys := by
  cases h with
  | again _ hleaf hcloses => exact ⟨_, rfl, _, _, rfl, hleaf, hcloses⟩
  | implicit hends =>
      rw [hends.1] at hkind
      cases hkind
  | _ => simp_all

theorem else_inv (h : Closes bs (scope :: rest) pos depth xs) (hkind : scope.kind = .branch)
    (hphase : scope.phase = .elseBody) :
    ∃ ys, xs = .word .done :: ys ∧ LeafHolds bs rest scope.after pos (scope.parentDepth + 1) ys := by
  cases h with
  | done _ _ hleaf hcloses => exact ⟨_, rfl, _, _, rfl, hleaf, hcloses⟩
  | implicit hends =>
      rw [hends.1] at hkind
      cases hkind
  | _ => simp_all

theorem then_inv (h : Closes bs (scope :: rest) pos depth xs) (hkind : scope.kind = .branch)
    (hphase : scope.phase = .body) :
    (∃ ys, xs = .word .done :: ys ∧ bs[scope.second]? = some (.basic ⟨pos, 0⟩) ∧
      LeafHolds bs rest scope.after pos (scope.parentDepth + 1) ys) ∨
    ∃ ys, xs = .word .elseWord :: ys ∧ LeafHolds bs ({ scope with phase := .elseBody } :: rest) scope.second pos
      (scope.parentDepth + 1) ys := by
  cases h with
  | done _ hsecond hleaf hcloses =>
      left
      refine ⟨_, rfl, ?_, _, _, rfl, hleaf, hcloses⟩
      rcases hsecond with helse | ⟨-, hsecond⟩
      · rw [hphase] at helse
        cases helse
      · exact hsecond
  | elseWord _ _ hleaf hcloses => exact .inr ⟨_, rfl, _, _, rfl, hleaf, hcloses⟩
  | implicit hends =>
      rw [hends.1] at hkind
      cases hkind
  | _ => simp_all

theorem protect_inv (h : Closes bs (scope :: rest) pos depth xs) (hkind : scope.kind = .epilogue)
    (himplicit : scope.implicitEnd = false) (hphase : scope.phase = .body) :
    ∃ ys, xs = .word .finallyWord :: ys ∧ LeafHolds bs ({ scope with phase := .cleanup } :: rest) scope.second pos
      (scope.parentDepth + 2) ys := by
  cases h with
  | finallyWord _ _ _ hleaf hcloses => exact ⟨_, rfl, _, _, rfl, hleaf, hcloses⟩
  | implicit hends =>
      rw [hends.2.1] at himplicit
      cases himplicit
  | _ => simp_all

theorem cleanup_inv (h : Closes bs (scope :: rest) pos depth xs) (hkind : scope.kind = .epilogue)
    (himplicit : scope.implicitEnd = false) (hphase : scope.phase = .cleanup) :
    ∃ ys, xs = .word .endWord :: ys ∧ LeafHolds bs rest scope.after pos (scope.parentDepth + 1) ys := by
  cases h with
  | endWord _ _ _ hleaf hcloses => exact ⟨_, rfl, _, _, rfl, hleaf, hcloses⟩
  | implicit hends =>
      rw [hends.2.1] at himplicit
      cases himplicit
  | _ => simp_all

theorem capture_inv (h : Closes bs (scope :: rest) pos depth xs) (hkind : scope.kind = .epilogue)
    (himplicit : scope.implicitEnd = true) (hphase : scope.phase = .cleanup) :
    ∃ ys, xs = .closing :: ys ∧ LeafHolds bs ({ scope with delimiterDepth := 0, phase := .body } :: rest)
      scope.first pos depth ys := by
  cases h with
  | closing _ _ _ hleaf hcloses => exact ⟨_, rfl, _, _, rfl, hleaf, hcloses⟩
  | implicit hends =>
      rw [hends.2.2] at hphase
      cases hphase
  | _ => simp_all

theorem implicit_inv (h : Closes bs (scope :: rest) pos depth xs) (hends : scope.endsImplicitly) :
    bs[scope.after]? = some (.basic ⟨pos, 0⟩) ∧ Closes bs rest pos (scope.parentDepth + 1) xs := by
  obtain ⟨hkind, himplicit, hphase⟩ := hends
  cases h with
  | implicit _ hafter hcloses => exact ⟨hafter, hcloses⟩
  | _ => simp_all

end Closes

end Inversion

/-! ## Where scopes end -/

section Leaving

variable {firstVar : Nat} {fe fe' : Frontend M} {bs : List Block} {F : Footprint} {scope : FrontendScope}
  {scopes rest : List FrontendScope} {xs ys : List Lexeme} {i depth : Nat}

/-- The current block is as it will be, and its scopes end. -/
def Frontend.Settled (fe : Frontend M) (bs : List Block) (xs : List Lexeme) : Prop :=
  bs[fe.currentBasic]? = fe.func.blocks[fe.currentBasic]? ∧
    Closes bs fe.scopes fe.func.ops.length fe.scopeDepth xs

theorem inBody_of_phase (heq : scopes = scope :: rest)
    (hphase : scope.phase = .body ∨ scope.phase = .elseBody ∨ scope.phase = .cleanup) : InBody scopes := by
  constructor
  · rintro ⟨scope', rest', heq', -, hphase'⟩
    rw [heq] at heq'
    cases heq'
    rcases hphase with h | h | h <;> rcases hphase' with h' | h' <;> rw [h] at h' <;> cases h'
  · rintro scope' rest' heq' hphase'
    rw [heq] at heq'
    cases heq'
    rcases hphase with h | h | h <;> rw [h] at hphase' <;> cases hphase'

theorem FootprintFits.loop_phase (hF : FootprintFits firstVar fe F) (heq : fe.scopes = scope :: rest)
    (hkind : scope.kind = .loop) : scope.phase = .body := by
  obtain ⟨R, E, covered, h⟩ := hF
  have hopened := h.opened
  rw [heq] at hopened
  cases hopened with
  | cons _ _ _ _ _ _ _ _ hinside _ =>
      cases hinside with
      | loop _ hphase => exact hphase
      | _ => simp_all

theorem inBody_nil : InBody [] := by
  constructor
  · rintro ⟨scope, rest, heq, -⟩
    cases heq
  · intro scope rest heq
    cases heq

/-- The current block takes operations. -/
theorem Poised.current (hpoised : Poised fe) (hreading : ¬ Reading fe.scopes) :
    ∃ start, fe.func.blocks[fe.currentBasic]? = some (.basic ⟨start, fe.func.ops.length - start⟩) ∧
      start ≤ fe.func.ops.length := by
  obtain ⟨r, hr, hend⟩ := hpoised.writing hreading
  have hrange : r = ⟨r.start, fe.func.ops.length - r.start⟩ := by
    rw [← hend, Nat.add_sub_cancel_left]
  exact ⟨r.start, hrange ▸ hr, hend ▸ Nat.le_add_right _ _⟩

theorem Frontend.Settled.goesOn (h : fe.Settled bs xs) (hpoised : Poised fe) (hbody : InBody fe.scopes) :
    fe.GoesOn bs xs := by
  obtain ⟨start, hcur, hle⟩ := hpoised.current hbody.1
  exact .body hbody hcur hle (.basic trivial (h.1.trans hcur)) trivial h.2 (p := .done)

/-- A leaf is entered. -/
def Frontend.entered (fe : Frontend M) (scopes : List FrontendScope) (i depth : Nat) : Frontend M :=
  { { fe with scopes := scopes }.enterBlock i with scopeDepth := depth }

theorem leave_eq (heq : fe.scopes = scope :: rest) :
    fe.leave scope = fe.entered rest scope.after (scope.parentDepth + 1) := by
  simp only [Frontend.leave, Frontend.entered, heq, List.tail_cons]

theorem entered_leaf (hpoised : Poised fe) (hi : i ∈ pending fe.scopes) :
    (fe.entered scopes i depth).func.blocks[i]? = some (.basic ⟨fe.func.ops.length, 0⟩) := by
  obtain ⟨st, hst⟩ := hpoised.waiting i hi
  exact startAt hst

/-- Behind a leaf that was entered the old current block is finished. -/
theorem entered_cur (hpoised : Poised fe) (hi : i ∈ pending fe.scopes) (hreading : ¬ Reading scopes)
    (hsub : ∀ j ∈ pending scopes, j ∈ pending fe.scopes) (hkeeps : (fe.entered scopes i depth).Keeps bs) :
    bs[fe.currentBasic]? = fe.func.blocks[fe.currentBasic]? := by
  have hnot : fe.currentBasic ∉ pending fe.scopes := (List.nodup_cons.mp hpoised.nodup).1
  have hne : i ≠ fe.currentBasic := fun h => hnot (h ▸ hi)
  have hkept := hkeeps fe.currentBasic ?_ ?_
  · rw [hkept]
    exact List.getElem?_modify_ne _ _ hne
  · exact Nat.lt_of_lt_of_eq hpoised.cur_lt (List.length_modify _ _ _).symm
  · show fe.currentBasic ∉ i :: (readBlock scopes ++ pending scopes)
    rw [readBlock_nil hreading, List.nil_append]
    intro hmem
    rcases List.mem_cons.mp hmem with h | h
    · exact hne h.symm
    · exact hnot (hsub _ h)

/-- The statements that the leaf holds -/
theorem entered_enters (hpoised : Poised fe) (hi : i ∈ pending fe.scopes) (hbody : InBody scopes)
    (h : (fe.entered scopes i depth).GoesOn bs xs) : LeafHolds bs scopes i fe.func.ops.length depth xs := by
  exact Goes.leaf h hbody (entered_leaf hpoised hi)

/-- What a scope that is left owns -/
theorem leave_parts (hF : FootprintFits firstVar fe F) (heq : fe.scopes = scope :: rest)
    (hkeeps : (fe.leave scope).Keeps bs) (h : (fe.leave scope).GoesOn bs xs) :
    bs[fe.currentBasic]? = fe.func.blocks[fe.currentBasic]? ∧
      LeafHolds bs rest scope.after fe.func.ops.length (scope.parentDepth + 1) xs := by
  rw [leave_eq heq] at hkeeps h
  have hbody : InBody rest := hF.inBody_tail heq
  have hafter : scope.after ∈ pending fe.scopes := by
    rw [heq]
    exact List.mem_append_left _ scope.after_pending
  have hsub : ∀ j ∈ pending rest, j ∈ pending fe.scopes := by
    intro j hj
    rw [heq]
    exact List.mem_append_right _ hj
  exact ⟨entered_cur hF.poised hafter hbody.1 hsub hkeeps, entered_enters hF.poised hafter hbody h⟩

/-- A prefix `Defer` ends with the scope around it. -/
theorem implicit_settled (hF : FootprintFits firstVar fe F) (heq : fe.scopes = scope :: rest)
    (hends : scope.endsImplicitly) (hkeeps : (fe.leave scope).Keeps bs) (h : (fe.leave scope).Settled bs xs) :
    fe.Settled bs xs := by
  obtain ⟨hcur, hcloses⟩ := h
  have hafter : scope.after ∈ pending fe.scopes := by
    rw [heq]
    exact List.mem_append_left _ scope.after_pending
  rw [leave_eq heq] at hcur hcloses hkeeps
  refine ⟨entered_cur hF.poised hafter (hF.inBody_tail heq).1 (fun j hj => ?_) hkeeps, ?_⟩
  · rw [heq]
    exact List.mem_append_right _ hj
  · rw [heq]
    exact .implicit hends (hcur.trans (entered_leaf hF.poised hafter)) hcloses

/-- A word that ends a scope, taken back -/
theorem ScopeEnds.settled (h : ScopeEnds fe xs fe') (hF : FootprintFits firstVar fe F) (hkeeps : fe'.Keeps bs)
    (hgoes : fe'.GoesOn bs ys) : fe.Settled bs (xs ++ ys) ∧ InBody fe.scopes := by
  induction h generalizing F with
  | @implicit fe fe' scope rest xs heq hends hrest ih =>
      have hbody : InBody fe.scopes := inBody_of_phase heq (.inl hends.2.2)
      have hleave : Advances firstVar fe _ := leave_advances heq hbody.1
      obtain ⟨-, F', -, hF'⟩ := hleave F hF
      obtain ⟨hsettled, -⟩ := ih hF' hkeeps hgoes
      exact ⟨implicit_settled hF heq hends ((hrest.preserves hF').keeps hkeeps) hsettled, hbody⟩
  | again heq hkind =>
      obtain ⟨hcur, p, zs, rfl, hleaf, hcloses⟩ := leave_parts hF heq hkeeps hgoes
      refine ⟨⟨hcur, ?_⟩, inBody_of_phase heq (.inl (hF.loop_phase heq hkind))⟩
      rw [heq]
      exact .again hkind hleaf hcloses
  | @doneThen fe scope rest heq hkind hphase =>
      -- the arm that is missing is an empty leaf, which starts here
      have htouch : Advances firstVar fe _ := startSecond_advances heq hkind hphase
      obtain ⟨-, F', -, hF'⟩ := htouch F hF
      have heq' : (fe.startHere scope.second).scopes = scope :: rest := heq
      obtain ⟨hcur, p, zs, rfl, hleaf, hcloses⟩ := leave_parts hF' heq' hkeeps hgoes
      have hpending : pending fe.scopes = scope.second :: scope.after :: pending rest := by
        simp [heq, pending, FrontendScope.pending, hkind, hphase]
      have hnodup := hF.poised.nodup
      rw [hpending] at hnodup
      simp only [List.nodup_cons, List.mem_cons, not_or] at hnodup
      obtain ⟨⟨hne, -⟩, ⟨hne', hnot⟩, -⟩ := hnodup
      obtain ⟨st, hst⟩ := hF.poised.waiting scope.second (hpending ▸ List.mem_cons_self)
      have hblock : ((fe.startHere scope.second).leave scope).func.blocks[scope.second]? =
          some (.basic ⟨fe.func.ops.length, 0⟩) :=
        (List.getElem?_modify_ne _ _ (Ne.symm hne')).trans (startAt hst)
      have hsecond : bs[scope.second]? = some (.basic ⟨fe.func.ops.length, 0⟩) := by
        refine (hkeeps _ (List.getElem?_eq_some_iff.mp hblock).1 ?_).trans hblock
        rw [leave_eq heq']
        show scope.second ∉ scope.after :: (readBlock rest ++ pending rest)
        rw [readBlock_nil (hF.inBody_tail heq).1, List.nil_append]
        intro hmem
        rcases List.mem_cons.mp hmem with heq' | hmem
        · exact hne' heq'
        · exact hnot hmem
      refine ⟨⟨hcur.trans (List.getElem?_modify_ne _ _ (Ne.symm hne)), ?_⟩, inBody_of_phase heq (.inl hphase)⟩
      rw [heq]
      exact .done hkind (.inr ⟨hphase, hsecond⟩) hleaf hcloses
  | doneElse heq hkind hphase =>
      obtain ⟨hcur, p, zs, rfl, hleaf, hcloses⟩ := leave_parts hF heq hkeeps hgoes
      refine ⟨⟨hcur, ?_⟩, inBody_of_phase heq (.inr (.inl hphase))⟩
      rw [heq]
      exact .done hkind (.inl hphase) hleaf hcloses
  | endWord heq hkind himplicit hphase =>
      obtain ⟨hcur, p, zs, rfl, hleaf, hcloses⟩ := leave_parts hF heq hkeeps hgoes
      refine ⟨⟨hcur, ?_⟩, inBody_of_phase heq (.inr (.inr hphase))⟩
      rw [heq]
      exact .endWord hkind himplicit hphase hleaf hcloses
  | @elseWord fe scope rest heq hkind hphase =>
      have hentered : { (fe.setTop { scope with phase := .elseBody }).enterBlock scope.second with
          scopeDepth := scope.parentDepth + 1 } =
          fe.entered ({ scope with phase := .elseBody } :: rest) scope.second (scope.parentDepth + 1) := by
        simp only [Frontend.setTop, Frontend.entered, heq, List.tail_cons]
      rw [hentered] at hkeeps hgoes
      have hsecond : scope.second ∈ pending fe.scopes := by
        simp [heq, pending, FrontendScope.pending, hkind, hphase]
      obtain ⟨p, zs, rfl, hleaf, hcloses⟩ :=
        entered_enters hF.poised hsecond (inBody_of_phase rfl (.inr (.inl rfl))) hgoes
      refine ⟨⟨entered_cur hF.poised hsecond (not_reading_of_phase rfl (.inr rfl)) (fun j hj => ?_) hkeeps, ?_⟩,
        inBody_of_phase heq (.inl hphase)⟩
      · simp only [pending, FrontendScope.pending, List.flatMap_cons, hkind] at hj
        simp only [heq, pending, FrontendScope.pending, List.flatMap_cons, hkind, hphase]
        exact List.mem_cons_of_mem _ hj
      · rw [heq]
        exact .elseWord hkind hphase hleaf hcloses
  | @finallyWord fe scope rest heq hkind himplicit hphase =>
      have hentered : { (fe.setTop { scope with phase := .cleanup }).enterBlock scope.second with
          scopeDepth := scope.parentDepth + 2 } =
          fe.entered ({ scope with phase := .cleanup } :: rest) scope.second (scope.parentDepth + 2) := by
        simp only [Frontend.setTop, Frontend.entered, heq, List.tail_cons]
      rw [hentered] at hkeeps hgoes
      have hsecond : scope.second ∈ pending fe.scopes := by
        simp [heq, pending, FrontendScope.pending, hkind, hphase, himplicit]
      obtain ⟨p, zs, rfl, hleaf, hcloses⟩ :=
        entered_enters hF.poised hsecond (inBody_of_phase rfl (.inr (.inr rfl))) hgoes
      have hreading : ¬ Reading ({ scope with phase := .cleanup } :: rest) := not_reading_of_kind rfl (not_branch hkind)
      refine ⟨⟨entered_cur hF.poised hsecond hreading (fun j hj => ?_) hkeeps, ?_⟩,
        inBody_of_phase heq (.inl hphase)⟩
      · simp only [pending, FrontendScope.pending, List.flatMap_cons, hkind, himplicit] at hj
        simp only [heq, pending, FrontendScope.pending, List.flatMap_cons, hkind, hphase, himplicit]
        exact List.mem_cons_of_mem _ hj
      · rw [heq]
        exact .finallyWord hkind himplicit hphase hleaf hcloses

end Leaving

/-! ## New blocks -/

section Opening

variable {firstVar : Nat} {fe fe' : Frontend M} {bs pre : List Block} {F : Footprint} {r : OpRange} {middle : Block}
  {before after i k : Nat} {t t' : Tree} {ys : List Lexeme}

theorem holdsTree_triple {cur link : Nat} (hcur : bs[cur]? = some (.many (some before) (some link)))
    (hbefore : bs[before]? = some (.basic r)) (hlink : bs[link]? = some (.chain (some i) (some (k + 1))))
    (hlast : bs[k + 1]? = some (.chain (some k) none)) (ht : HoldsTree bs i t) (ht' : HoldsTree bs k t') :
    HoldsTree bs cur (.triple (.basic r) t t') := by
  refine .many trivial hcur (.link (.basic trivial hbefore) trivial hlink ?_)
  exact .link ht trivial hlast (.last ht')

/-- The current block was wrapped, and these blocks will still be written. -/
structure Wraps (fe fe' : Frontend M) (pre : List Block) (middle : Block) (own : List Nat) : Prop where
  blocks : fe'.func.blocks = wrapped (fe.func.blocks ++ pre) fe.currentBasic fe.func.ops.length middle
  unfinished : ∀ i ∈ fe'.unfinished, i ∈ own ∨ i ∈ pending fe.scopes
  fresh : ∀ i ∈ own, fe.func.blocks.length ≤ i

namespace Wraps

variable {own : List Nat}

theorem cur_lt (hpoised : Poised fe) (pre : List Block) : fe.currentBasic < (fe.func.blocks ++ pre).length := by
  rw [List.length_append]
  exact Nat.lt_add_right _ hpoised.cur_lt

/-- A new block that is complete -/
theorem kept (h : Wraps fe fe' pre middle own) (hpoised : Poised fe) (hkeeps : fe'.Keeps bs)
    (hi : fe.func.blocks.length ≤ i) (hlt : i < fe.func.blocks.length + pre.length + 5) (hown : i ∉ own) :
    bs[i]? = (wrapped (fe.func.blocks ++ pre) fe.currentBasic fe.func.ops.length middle)[i]? := by
  rw [← h.blocks]
  refine hkeeps i ?_ fun hmem => ?_
  · rw [h.blocks]
    simpa [wrapped, Nat.add_assoc] using hlt
  · rcases h.unfinished i hmem with hmem | hmem
    · exact hown hmem
    · exact absurd (hpoised.pending_lt hmem) (Nat.not_lt.mpr hi)

/-- The block in the middle, where it is complete -/
theorem middle_kept (h : Wraps fe fe' pre middle own) (hpoised : Poised fe) (hkeeps : fe'.Keeps bs)
    (hi : i = fe.func.blocks.length + pre.length + 1) (hown : i ∉ own) : bs[i]? = some middle := by
  have hnew : (wrapped (fe.func.blocks ++ pre) fe.currentBasic fe.func.ops.length middle)[i]? = some middle :=
    wrapped_middle (cur_lt hpoised pre) (by rw [List.length_append]; exact hi)
  exact (h.kept hpoised hkeeps (by omega) (by omega) hown).trans hnew

/-- The blocks around the new scope -/
theorem triple (h : Wraps fe fe' pre middle own) (hpoised : Poised fe) (hkeeps : fe'.Keeps bs)
    (hr : fe.func.blocks[fe.currentBasic]? = some (.basic r)) (hk : fe.func.blocks.length + pre.length = k)
    (hown : k ∉ own ∧ k + 2 ∉ own ∧ k + 4 ∉ own) (ht : HoldsTree bs (k + 1) t)
    (ht' : HoldsTree bs (k + 3) t') : HoldsTree bs fe.currentBasic (.triple (.basic r) t t') := by
  have hlength : (fe.func.blocks ++ pre).length = k := by
    rw [List.length_append, hk]
  have hcur : fe.currentBasic < (fe.func.blocks ++ pre).length := cur_lt hpoised pre
  have hnew : ∀ j, j < 5 → k + j ∉ own → bs[k + j]? =
      ([((fe.func.blocks ++ pre)[fe.currentBasic]?).getD .unset, middle, .chain (some (k + 1)) (some (k + 4)),
        .basic ⟨fe.func.ops.length, 0⟩, .chain (some (k + 3)) none])[j]? := by
    intro j hj hown
    rw [h.kept hpoised hkeeps (by omega) (by omega) hown, wrapped, hlength, ← hlength]
    exact grown_new hcur
  have hroot : bs[fe.currentBasic]? = some (.many (some k) (some (k + 2))) := by
    have hkept := hkeeps fe.currentBasic ?_ fun hmem => ?_
    · rw [hkept, h.blocks, wrapped, hlength]
      exact grown_cur hcur
    · rw [h.blocks]
      simp only [wrapped, List.length_set, List.length_append] at hcur ⊢
      omega
    · rcases h.unfinished _ hmem with hmem | hmem
      · exact absurd hpoised.cur_lt (Nat.not_lt.mpr (h.fresh _ hmem))
      · exact (List.nodup_cons.mp hpoised.nodup).1 hmem
  refine holdsTree_triple hroot ?_ (hnew 2 (by omega) hown.2.1) (hnew 4 (by omega) hown.2.2) ht ht'
  rw [show k = k + 0 from rfl, hnew 0 (by omega) hown.1, List.getElem?_append_left hpoised.cur_lt, hr]
  rfl

end Wraps

/-- A scope that was opened -/
theorem opened_wraps {scope : FrontendScope} {cur depth : Nat} (hcur : fe.func.blocks.length ≤ cur)
    (hblock : fe.func.blocks.length ≤ scope.block) (hpending : ∀ i ∈ scope.pending, fe.func.blocks.length ≤ i) :
    Wraps fe (fe.opened pre middle scope cur depth) pre middle
      (cur :: (readBlock (scope :: fe.scopes) ++ scope.pending)) where
  blocks := rfl
  unfinished i hi := by
    have hi : i ∈ cur :: (readBlock (scope :: fe.scopes) ++ (scope.pending ++ pending fe.scopes)) := hi
    rw [← List.append_assoc, ← List.cons_append] at hi
    exact List.mem_append.mp hi
  fresh i hi := by
    rcases List.mem_cons.mp hi with rfl | hi
    · exact hcur
    rcases List.mem_append.mp hi with hi | hi
    · rw [readBlock] at hi
      split at hi
      · rw [List.mem_singleton.mp hi]
        exact hblock
      · cases hi
    · exact hpending i hi

end Opening

/-! ## One move, taken back -/

section Goes

variable {firstVar : Nat} {fe fe' : Frontend M} {bs bs₀ : List Block} {F : Footprint} {scope : FrontendScope}
  {rest : List FrontendScope} {cur pos depth : Nat} {xs ys : List Lexeme}

theorem Goes.await_inv (h : Goes bs₀ bs (scope :: rest) cur pos depth xs)
    (hwait : scope.kind = .branch ∧ scope.phase = .waitOpen ∨ scope.phase = .cleanupWaitOpen) :
    ∃ ys, xs = .opening :: ys ∧ Goes bs₀ bs ({ scope with
      delimiterDepth := 1, phase := if scope.kind = .branch then .condition else .cleanup } :: rest)
      cur pos depth ys := by
  cases h with
  | body hbody =>
      rcases hwait with ⟨hkind, hphase⟩ | hphase
      · exact absurd ⟨_, _, rfl, hkind, .inl hphase⟩ hbody.1
      · exact absurd hphase (hbody.2 _ _ rfl)
  | condition hkind hphase =>
      rcases hwait with ⟨-, hphase'⟩ | hphase' <;>
      · rw [hphase] at hphase'
        cases hphase'
  | opening _ hgoes => exact ⟨_, rfl, hgoes⟩

theorem Goes.condition_inv (h : Goes bs₀ bs (scope :: rest) cur pos depth xs) (hkind : scope.kind = .branch)
    (hphase : scope.phase = .condition) :
    ∃ (start : Nat) (cond : List Op) (ys : List Lexeme), xs = cond.map .op ++ .closing :: ys ∧
      bs₀[scope.block]? = some (.branch ⟨start, 0⟩ scope.first scope.second) ∧ start ≤ pos ∧
      bs[scope.block]? = some (.branch ⟨start, pos + cond.length - start⟩ scope.first scope.second) ∧
      LeafHolds bs ({ scope with delimiterDepth := 0, phase := .body } :: rest) scope.first (pos + cond.length)
        depth ys := by
  cases h with
  | body hbody => exact absurd ⟨_, _, rfl, hkind, .inr hphase⟩ hbody.1
  | condition _ _ hblock hle hcond hleaf hcloses =>
      exact ⟨_, _, _, rfl, hblock, hle, hcond, _, _, rfl, hleaf, hcloses⟩
  | opening hwait =>
      rcases hwait with ⟨-, hphase'⟩ | hphase' <;>
      · rw [hphase] at hphase'
        cases hphase'

/-- Statements that start in the current block -/
theorem Poised.goesOn (hpoised : Poised fe) (hbody : InBody fe.scopes) {p : Stmts} {pos depth : Nat}
    (htree : ∀ start, fe.func.blocks[fe.currentBasic]? = some (.basic ⟨start, fe.func.ops.length - start⟩) →
      HoldsTree bs fe.currentBasic (p.tree start fe.func.ops.length fe.scopeDepth (loopDepths fe.scopes)))
    (hlegal : p.Legal (Exitable fe.scopes)) (hcloses : Closes bs fe.scopes pos depth ys)
    (hpos : fe.func.ops.length + p.ops.length = pos) (hdepth : fe.scopeDepth + p.climb = depth)
    (hxs : xs = p.lexemes ++ ys) : fe.GoesOn bs xs := by
  obtain ⟨start, hcur, hle⟩ := hpoised.current hbody.1
  subst hpos hdepth hxs
  exact .body hbody hcur hle (htree start hcur) hlegal hcloses

section Leaf

variable {p : Stmts} {i : Nat}

/-- Exits in the scope are those around it. -/
theorem Leaf.around (h : Leaf bs (scope :: rest) i pos depth p) (hkind : scope.kind ≠ .loop)
    (hphase : ¬ (scope.kind = .epilogue ∧ scope.phase = .cleanup)) : Leaf bs rest i pos depth p := by
  rw [Leaf, loopDepths_cons hkind, exitable_cons hkind hphase] at h
  exact h

theorem Leaf.ofCleanup (h : Leaf bs (scope :: rest) i pos depth p) (hkind : scope.kind = .epilogue)
    (hphase : scope.phase = .cleanup) :
    HoldsTree bs i (p.tree pos pos depth (loopDepths rest)) ∧ p.Legal False := by
  have hloop : scope.kind ≠ .loop := by
    rw [hkind]
    exact ScopeKind.noConfusion
  rw [Leaf, loopDepths_cons hloop, exitable_cleanup hkind hphase] at h
  exact h

end Leaf

/-! ### Operations -/

theorem emitted_goes {o : Op} (hpoised : Poised fe) (hready : fe.readyForWord = true)
    (hgoes : (fe.emitted o).GoesOn bs ys) : fe.GoesOn bs (.op o :: ys) := by
  have hlength : (fe.func.ops ++ [o]).length = fe.func.ops.length + 1 := List.length_append
  by_cases hcond : fe.inCondition
  · -- an operation of the condition: the block of the branch is written later
    have hemitted : fe.emitted o = { fe with func := { fe.func with ops := fe.func.ops ++ [o] } } := if_pos hcond
    obtain ⟨scope, rest, heq, hkind, hphase⟩ := hcond
    have hgoes : Goes fe.func.blocks bs fe.scopes fe.currentBasic (fe.func.ops ++ [o]).length fe.scopeDepth ys := by
      rw [hemitted] at hgoes
      exact hgoes
    rw [heq, hlength] at hgoes
    obtain ⟨start, cond, zs, rfl, hblock, -, hend, p, ws, rfl, hleaf, hcloses⟩ := hgoes.condition_inv hkind hphase
    obtain ⟨covered, hat⟩ := hpoised.reading scope rest heq hkind (.inr hphase)
    have hle : start ≤ fe.func.ops.length := by
      cases hblock.symm.trans hat.cond
      exact hat.le
    have hmore : fe.func.ops.length + 1 + cond.length = fe.func.ops.length + (o :: cond).length := by
      rw [List.length_cons]
      omega
    rw [hmore] at hend hleaf hcloses
    rw [Frontend.GoesOn, heq]
    exact .condition hkind hphase hblock hle hend hleaf hcloses
  · -- an operation of the current block, which grows
    have hemitted : fe.emitted o = { fe with func := { fe.func with ops := fe.func.ops ++ [o] } }.extendBasic :=
      if_neg hcond
    have hbody : InBody fe.scopes := ⟨fun hreading => hcond ((Frontend.reading_iff hready).mp hreading),
      fun scope rest heq => (Frontend.phase_of_ready hready heq).2⟩
    have hgoes : Goes (fe.func.blocks.modify fe.currentBasic (Block.endBasic (fe.func.ops ++ [o]).length)) bs
        fe.scopes fe.currentBasic (fe.func.ops ++ [o]).length fe.scopeDepth ys := by
      rw [hemitted] at hgoes
      exact hgoes
    rw [hlength] at hgoes
    obtain ⟨start, p, zs, rfl, hcur, hle, htree, hlegal, hcloses⟩ := hgoes.body_inv hbody
    refine hpoised.goesOn hbody (p := .op o p) (fun start' hcur' => ?_) hlegal hcloses ?_ rfl rfl
    · have hcur'' := List.getElem?_modify_eq (Block.endBasic (fe.func.ops.length + 1)) fe.currentBasic fe.func.blocks
      rw [hcur'] at hcur''
      obtain rfl : start' = start :=
        (OpRange.mk.inj (Block.basic.inj (Option.some.inj (hcur''.symm.trans hcur)))).1
      exact htree
    · simp only [Stmts.ops, List.length_cons]
      omega

/-! ### New scopes -/

theorem openedLoop_goes (hpoised : Poised fe) (hbody : InBody fe.scopes) (hkeeps : fe.openedLoop.Keeps bs)
    (hgoes : fe.openedLoop.GoesOn bs ys) : fe.GoesOn bs (.word .loop :: ys) := by
  have hwraps : Wraps fe fe.openedLoop _ _ [fe.func.blocks.length, fe.func.blocks.length + 5] :=
    opened_wraps (Nat.le_refl _) (Nat.le_add_right _ _) fun i hi => List.mem_singleton.mp hi ▸ Nat.le_add_right _ _
  obtain ⟨p, zs, rfl, ⟨htree, hlegal⟩, hcloses⟩ := Goes.leaf hgoes (inBody_of_phase rfl (.inl rfl))
    ((wrapped_pre hpoised.cur_lt (Nat.le_refl _) (by simp)).trans (by simp; rfl))
  obtain ⟨zs, rfl, q, ws, rfl, ⟨htreeq, hlegalq⟩, hcloses⟩ := hcloses.loop_inv rfl
  have hmiddle : bs[fe.func.blocks.length + 3]? = some (.loop (fe.func.blocks.length + 1)) :=
    hwraps.middle_kept hpoised hkeeps rfl (by simp)
  have hmany : bs[fe.func.blocks.length + 1]? = some (.many (some fe.func.blocks.length) none) :=
    (hwraps.kept hpoised hkeeps (by omega) (by simp) (by simp)).trans
      ((wrapped_pre hpoised.cur_lt (Nat.le_add_right _ _) (by simp)).trans (by simp))
  have hexit : Exitable fe.openedLoop.scopes = True := exitable_loop rfl
  rw [hexit] at hlegal
  refine hpoised.goesOn hbody (p := .loop p q) (fun start hcur => ?_) ⟨hlegal, hlegalq⟩ hcloses ?_ ?_ ?_
  · exact hwraps.triple hpoised hkeeps hcur rfl (by simp; omega)
      (.loop trivial hmiddle (.many trivial hmany (.last htree))) htreeq
  · simp only [Stmts.ops, List.length_append]
    exact (Nat.add_assoc _ _ _).symm
  · show fe.scopeDepth + (q.climb + 1) = fe.scopeDepth + 1 + q.climb
    omega
  · simp [Stmts.lexemes]

theorem openedIf_goes (hpoised : Poised fe) (hbody : InBody fe.scopes) (hkeeps : fe.openedIf.Keeps bs)
    (hgoes : fe.openedIf.GoesOn bs ys) : fe.GoesOn bs (.word .ifWord :: ys) := by
  have hwraps : Wraps fe fe.openedIf _ _
      [fe.func.blocks.length, fe.func.blocks.length + 3, fe.func.blocks.length + 1, fe.func.blocks.length + 5] :=
    opened_wraps (Nat.le_refl _) (Nat.le_add_right _ _) fun i hi => by
      simp only [FrontendScope.pending, newBranch, List.mem_cons, List.not_mem_nil, or_false] at hi
      omega
  obtain ⟨us, rfl, hcondition⟩ := Goes.await_inv hgoes (.inl ⟨rfl, rfl⟩)
  obtain ⟨start, cond, zs, rfl, hblock, -, hcond, p, ws, rfl, hleaf, hcloses⟩ := hcondition.condition_inv rfl rfl
  have hmiddle : fe.openedIf.func.blocks[fe.func.blocks.length + 3]? = some (.branch ⟨fe.func.ops.length, 0⟩
      fe.func.blocks.length (fe.func.blocks.length + 1)) :=
    wrapped_middle (Wraps.cur_lt hpoised _) (by simp)
  obtain rfl : start = fe.func.ops.length := by
    cases hblock.symm.trans hmiddle
    rfl
  rw [show fe.openedIf.func.ops.length = fe.func.ops.length from rfl, Nat.add_sub_cancel_left] at hcond
  obtain ⟨htree, hlegal⟩ := hleaf.around ScopeKind.noConfusion fun h => ScopeKind.noConfusion h.1
  rcases hcloses.then_inv rfl rfl with
    ⟨zs, rfl, hsecond, q, us, rfl, ⟨htreeq, hlegalq⟩, hcloses⟩ | ⟨zs, rfl, q, us, rfl, hleaf, hcloses⟩
  · refine hpoised.goesOn hbody (p := .ifThen cond p q) (fun start hcur => ?_) ⟨hlegal, hlegalq⟩ hcloses ?_ ?_ ?_
    · exact hwraps.triple hpoised hkeeps hcur rfl (by simp; omega)
        (.branch trivial hcond htree (.basic trivial hsecond)) htreeq
    · simp only [Stmts.ops, List.length_append, ← Nat.add_assoc]
      rfl
    · show fe.scopeDepth + (q.climb + 1) = fe.scopeDepth + 1 + q.climb
      omega
    · simp [Stmts.lexemes]
  · obtain ⟨htreeq, hlegalq⟩ := hleaf.around ScopeKind.noConfusion fun h => ScopeKind.noConfusion h.1
    obtain ⟨zs, rfl, r, vs, rfl, ⟨htreer, hlegalr⟩, hcloses⟩ := hcloses.else_inv rfl rfl
    refine hpoised.goesOn hbody (p := .ifElse cond p q r) (fun start hcur => ?_) ⟨hlegal, hlegalq, hlegalr⟩
      hcloses ?_ ?_ ?_
    · exact hwraps.triple hpoised hkeeps hcur rfl (by simp; omega) (.branch trivial hcond htree htreeq) htreer
    · simp only [Stmts.ops, List.length_append, ← Nat.add_assoc]
      rfl
    · show fe.scopeDepth + (r.climb + 1) = fe.scopeDepth + 1 + r.climb
      omega
    · simp [Stmts.lexemes]

theorem openedStart_goes (hpoised : Poised fe) (hbody : InBody fe.scopes) (hkeeps : (fe.openedEpilogue false).Keeps bs)
    (hgoes : (fe.openedEpilogue false).GoesOn bs ys) : fe.GoesOn bs (.word .start :: ys) := by
  have hwraps : Wraps fe (fe.openedEpilogue false) _ _
      [fe.func.blocks.length, fe.func.blocks.length + 1, fe.func.blocks.length + 5] :=
    opened_wraps (Nat.le_refl _) (Nat.le_add_right _ _) fun i hi => by
      simp [FrontendScope.pending, newEpilogue] at hi
      omega
  obtain ⟨p, zs, rfl, hleaf, hcloses⟩ := Goes.leaf hgoes (inBody_of_phase rfl (.inl rfl))
    ((wrapped_pre hpoised.cur_lt (Nat.le_refl _) (by simp)).trans (by simp; rfl))
  obtain ⟨htree, hlegal⟩ := hleaf.around ScopeKind.noConfusion fun h => ScopePhase.noConfusion h.2
  obtain ⟨zs, rfl, q, us, rfl, hleaf, hcloses⟩ := hcloses.protect_inv rfl rfl rfl
  obtain ⟨htreeq, hlegalq⟩ := hleaf.ofCleanup rfl rfl
  obtain ⟨zs, rfl, r, vs, rfl, ⟨htreer, hlegalr⟩, hcloses⟩ := hcloses.cleanup_inv rfl rfl rfl
  have hmiddle : bs[fe.func.blocks.length + 3]? =
      some (.defer fe.func.blocks.length (fe.func.blocks.length + 1)) :=
    hwraps.middle_kept hpoised hkeeps rfl (by simp)
  refine hpoised.goesOn hbody (p := .protect p q r) (fun start hcur => ?_) ⟨hlegal, hlegalq, hlegalr⟩ hcloses ?_ ?_ ?_
  · exact hwraps.triple hpoised hkeeps hcur rfl (by simp; omega)
      (.defer trivial hmiddle htree htreeq) htreer
  · simp only [Stmts.ops, List.length_append, ← Nat.add_assoc]
    rfl
  · show fe.scopeDepth + (r.climb + 1) = fe.scopeDepth + 1 + r.climb
    omega
  · simp [Stmts.lexemes]

theorem openedDefer_goes (hpoised : Poised fe) (hbody : InBody fe.scopes) (hkeeps : (fe.openedEpilogue true).Keeps bs)
    (hgoes : (fe.openedEpilogue true).GoesOn bs ys) : fe.GoesOn bs (.word .defer :: ys) := by
  have hwraps : Wraps fe (fe.openedEpilogue true) _ _
      [fe.func.blocks.length + 1, fe.func.blocks.length, fe.func.blocks.length + 5] :=
    opened_wraps (Nat.le_add_right _ _) (Nat.le_add_right _ _) fun i hi => by
      simp [FrontendScope.pending, newEpilogue] at hi
      omega
  obtain ⟨us, rfl, hcleanup⟩ := Goes.await_inv hgoes (.inr rfl)
  obtain ⟨p, zs, rfl, hleaf, hcloses⟩ := hcleanup.leaf (inBody_of_phase rfl (.inr (.inr rfl)))
    ((wrapped_pre hpoised.cur_lt (Nat.le_add_right _ _) (by simp)).trans (by simp; rfl))
  obtain ⟨htree, hlegal⟩ := hleaf.ofCleanup rfl rfl
  obtain ⟨zs, rfl, q, us, rfl, hleaf, hcloses⟩ := hcloses.capture_inv rfl rfl rfl
  obtain ⟨htreeq, hlegalq⟩ := hleaf.around ScopeKind.noConfusion fun h => ScopePhase.noConfusion h.2
  -- the scope ends with the scope around it
  obtain ⟨hafter, hcloses⟩ := hcloses.implicit_inv ⟨rfl, rfl, rfl⟩
  have hmiddle : bs[fe.func.blocks.length + 3]? =
      some (.defer fe.func.blocks.length (fe.func.blocks.length + 1)) :=
    hwraps.middle_kept hpoised hkeeps rfl (by simp)
  refine hpoised.goesOn hbody (p := .defer p q) (fun start hcur => ?_) ⟨hlegal, hlegalq⟩ hcloses ?_ rfl ?_
  · exact hwraps.triple hpoised hkeeps hcur rfl (by simp; omega)
      (.defer trivial hmiddle htreeq htree) (.basic trivial hafter)
  · simp only [Stmts.ops, List.length_append, ← Nat.add_assoc]
    rfl
  · simp [Stmts.lexemes]

/-! ### Exits and variables -/

theorem exited_goes {isContinue : Bool} (hpoised : Poised fe) (hbody : InBody fe.scopes) (hexit : Exitable fe.scopes)
    (hkeeps : (fe.exited (fe.scopeDepth + 1 - (loopDepths fe.scopes).target isContinue + 1)).Keeps bs)
    (hgoes : (fe.exited (fe.scopeDepth + 1 - (loopDepths fe.scopes).target isContinue + 1)).GoesOn bs ys) :
    fe.GoesOn bs (.word (exitWord isContinue) :: ys) := by
  have hwraps : Wraps fe (fe.exited (fe.scopeDepth + 1 - (loopDepths fe.scopes).target isContinue + 1)) []
      (.brk (fe.scopeDepth + 1 - (loopDepths fe.scopes).target isContinue + 1)) [fe.func.blocks.length + 3] := by
    refine ⟨?_, fun i hi => ?_, fun i hi => ?_⟩
    · rw [List.append_nil]
      rfl
    · have hi : i ∈ (fe.func.blocks.length + 3) :: (readBlock fe.scopes ++ pending fe.scopes) := hi
      rw [readBlock_nil hbody.1, List.nil_append] at hi
      exact (List.mem_cons.mp hi).imp_left List.mem_singleton.mpr
    · rw [List.mem_singleton.mp hi]
      exact Nat.le_add_right _ _
  obtain ⟨p, zs, rfl, ⟨htree, hlegal⟩, hcloses⟩ := Goes.leaf hgoes hbody (wrapped_after hpoised.cur_lt rfl)
  have hmiddle : bs[fe.func.blocks.length + 1]? =
      some (.brk (fe.scopeDepth + 1 - (loopDepths fe.scopes).target isContinue + 1)) :=
    hwraps.middle_kept hpoised hkeeps rfl (by simp)
  refine hpoised.goesOn hbody (p := .exit isContinue p) (fun start hcur => ?_) ⟨hexit, hlegal⟩ hcloses rfl ?_ rfl
  · exact hwraps.triple hpoised hkeeps hcur rfl (by simp) (.brk trivial hmiddle) htree
  · show fe.scopeDepth + (p.climb + 1) = fe.scopeDepth + 1 + p.climb
    omega

theorem declared_goes {tid : Nat} {name : Name} (hpoised : Poised fe) (hbody : InBody fe.scopes)
    (hkeeps : (fe.declared tid name).Keeps bs) (hgoes : (fe.declared tid name).GoesOn bs ys) :
    fe.GoesOn bs (.var fe.func.vars.length :: ys) := by
  have hlt := hpoised.cur_lt
  have hkept : ∀ i, i < fe.func.blocks.length + 4 → i ≠ fe.func.blocks.length + 3 → i ∉ pending fe.scopes →
      bs[i]? = (fe.declared tid name).func.blocks[i]? := by
    intro i hi hne hpending
    refine hkeeps i (by simpa [Frontend.declared] using hi) fun hmem => ?_
    have hmem : i ∈ (fe.func.blocks.length + 3) :: (readBlock fe.scopes ++ pending fe.scopes) := hmem
    rw [readBlock_nil hbody.1, List.nil_append] at hmem
    rcases List.mem_cons.mp hmem with heq | hmem
    · exact hne heq
    · exact hpending hmem
  have hnew : ∀ j, j < 3 → bs[fe.func.blocks.length + j]? =
      ([(fe.func.blocks[fe.currentBasic]?).getD .unset, .var fe.func.vars.length (fe.func.blocks.length + 3),
        .chain (some (fe.func.blocks.length + 1)) none, .basic ⟨fe.func.ops.length, 0⟩])[j]? := by
    intro j hj
    have hpending : fe.func.blocks.length + j ∉ pending fe.scopes := fun hmem => by
      have := hpoised.pending_lt hmem
      omega
    exact (hkept _ (by omega) (by omega) hpending).trans (grown_new hlt)
  have hroot : bs[fe.currentBasic]? =
      some (.many (some fe.func.blocks.length) (some (fe.func.blocks.length + 2))) :=
    (hkept _ (by omega) (by omega) (List.nodup_cons.mp hpoised.nodup).1).trans (grown_cur hlt)
  obtain ⟨p, zs, rfl, ⟨htree, hlegal⟩, hcloses⟩ := Goes.leaf hgoes hbody (grown_new hlt)
  refine hpoised.goesOn hbody (p := .var fe.func.vars.length p) (fun start hcur => ?_) hlegal hcloses rfl ?_ rfl
  · have hbefore := hnew 0 (by omega)
    rw [hcur] at hbefore
    refine .many trivial hroot (.link (.basic trivial hbefore) trivial (hnew 2 (by omega)) ?_)
    exact .last (.var trivial (hnew 1 (by omega)) htree)
  · show fe.scopeDepth + (p.climb + 2) = fe.scopeDepth + 2 + p.climb
    omega

/-! ### Parentheses -/

theorem opening_goes (hF : FootprintFits firstVar fe F) (heq : fe.scopes = scope :: rest)
    (hwait : scope.phase = .waitOpen ∨ scope.phase = .cleanupWaitOpen)
    (hgoes : (fe.setTop { scope with
      delimiterDepth := 1, phase := if scope.kind = .branch then .condition else .cleanup }).GoesOn bs ys) :
    fe.GoesOn bs (.opening :: ys) := by
  rw [Frontend.GoesOn, Frontend.setTop, heq] at hgoes
  rw [Frontend.GoesOn, heq]
  refine .opening ?_ hgoes
  rcases hF.delimited heq (hwait.imp_right .inl) with ⟨hkind, hphase⟩ | ⟨hkind, -, hphase⟩
  · rcases hphase with hphase | hphase
    · exact .inl ⟨hkind, hphase⟩
    · exact absurd hwait (by simp [hphase])
  · rcases hphase with hphase | hphase
    · exact .inr hphase
    · exact absurd hwait (by simp [hphase])

theorem nested_goes {d : Nat} (hF : FootprintFits firstVar fe F) (heq : fe.scopes = scope :: rest)
    (hwait : ¬ (scope.phase = .waitOpen ∨ scope.phase = .cleanupWaitOpen)) (hdepth : scope.delimiterDepth ≠ 0)
    (hgoes : (fe.setTop { scope with delimiterDepth := d }).GoesOn bs ys) : fe.GoesOn bs ys := by
  have hgoes : Goes fe.func.blocks bs ({ scope with delimiterDepth := d } :: rest) fe.currentBasic
      fe.func.ops.length fe.scopeDepth ys := by
    rw [Frontend.GoesOn, Frontend.setTop, heq] at hgoes
    exact hgoes
  rw [Frontend.GoesOn, heq]
  rcases hF.counted heq hwait hdepth with ⟨hkind, hphase⟩ | ⟨hkind, himplicit, hphase⟩
  · obtain ⟨start, cond, zs, rfl, hblock, hle, hend, p, ws, rfl, hleaf, hcloses⟩ := hgoes.condition_inv hkind hphase
    exact .condition hkind hphase hblock hle hend hleaf hcloses
  · obtain ⟨start, p, zs, rfl, hcur, hle, htree, hlegal, hcloses⟩ :=
      hgoes.body_inv (inBody_of_phase rfl (.inr (.inr hphase)))
    obtain ⟨zs, rfl, q, ws, rfl, hleaf, hcloses⟩ := hcloses.capture_inv hkind himplicit hphase
    have hloop : scope.kind ≠ .loop := by
      rw [hkind]
      exact ScopeKind.noConfusion
    have hsame : Exitable ({ scope with delimiterDepth := d } :: rest) = Exitable (scope :: rest) := by
      rw [exitable_cleanup hkind hphase]
      exact exitable_cleanup hkind hphase
    have hdepths : loopDepths ({ scope with delimiterDepth := d } :: rest) = loopDepths (scope :: rest) := by
      rw [loopDepths_cons hloop]
      exact loopDepths_cons hloop
    rw [hdepths] at htree
    rw [hsame] at hlegal
    exact .body (inBody_of_phase rfl (.inr (.inr hphase))) hcur hle htree hlegal
      (.closing hkind himplicit hphase hleaf hcloses)

theorem closed_goes (hF : FootprintFits firstVar fe F) (heq : fe.scopes = scope :: rest)
    (hwait : ¬ (scope.phase = .waitOpen ∨ scope.phase = .cleanupWaitOpen)) (hdepth : scope.delimiterDepth ≠ 0)
    (hkeeps : (fe.closed scope).Keeps bs) (hgoes : (fe.closed scope).GoesOn bs ys) :
    fe.GoesOn bs (.closing :: ys) := by
  have hpoised := hF.poised
  rcases hF.counted heq hwait hdepth with ⟨hkind, hphase⟩ | ⟨hkind, himplicit, hphase⟩
  · -- the condition ends, and its first arm starts
    obtain ⟨covered, hat⟩ := hpoised.reading scope rest heq hkind (.inr hphase)
    obtain ⟨st, hst⟩ := hat.leaf
    rw [hat.first] at hst
    have hne : scope.block ≠ scope.first := fun h => by
      rw [← h, hat.cond] at hst
      cases hst
    have hblocks : (fe.closed scope).func.blocks = (fe.func.blocks.modify scope.block
        (Block.endCond fe.func.ops.length)).modify scope.first (Block.setStart fe.func.ops.length) := by
      simp only [Frontend.closed, if_pos hkind]
      rfl
    have hgoes : Goes (fe.closed scope).func.blocks bs ({ scope with delimiterDepth := 0, phase := .body } :: rest)
        scope.first fe.func.ops.length fe.scopeDepth ys := by
      simp only [Frontend.closed, if_pos hkind, Frontend.GoesOn, Frontend.setTop, heq, List.tail_cons] at hgoes ⊢
      exact hgoes
    have hfirst : (fe.closed scope).func.blocks[scope.first]? = some (.basic ⟨fe.func.ops.length, 0⟩) := by
      rw [hblocks]
      exact startAt ((List.getElem?_modify_ne _ _ hne).trans hst)
    have hblock : (fe.closed scope).func.blocks[scope.block]? =
        some (.branch ⟨covered, fe.func.ops.length - covered⟩ scope.first scope.second) := by
      rw [hblocks, List.getElem?_modify_ne _ _ (Ne.symm hne), List.getElem?_modify_eq, hat.cond]
      rfl
    have hend : bs[scope.block]? =
        some (.branch ⟨covered, fe.func.ops.length - covered⟩ scope.first scope.second) := by
      refine (hkeeps _ (List.getElem?_eq_some_iff.mp hblock).1 fun hmem => ?_).trans hblock
      have hmem : scope.block ∈ scope.first ::
          (readBlock ({ scope with delimiterDepth := 0, phase := .body } :: rest) ++
          pending ({ scope with delimiterDepth := 0, phase := .body } :: rest)) := by
        simp only [Frontend.closed, if_pos hkind, Frontend.setTop, heq, List.tail_cons] at hmem
        exact hmem
      rw [readBlock_nil (not_reading_of_phase rfl (.inl rfl)), List.nil_append] at hmem
      rcases List.mem_cons.mp hmem with h | hmem
      · exact hne h
      -- a branch is no leaf that waits
      have hpending : scope.block ∈ pending fe.scopes := by
        simpa [heq, pending, FrontendScope.pending, hkind, hphase] using hmem
      obtain ⟨st', hst'⟩ := hpoised.waiting _ hpending
      cases hat.cond.symm.trans hst'
    obtain ⟨p, zs, rfl, hleaf, hcloses⟩ := hgoes.leaf (inBody_of_phase rfl (.inl rfl)) hfirst
    rw [Frontend.GoesOn, heq]
    show Goes _ _ _ _ _ _ (([] : List Op).map .op ++ .closing :: (p.lexemes ++ zs))
    exact .condition hkind hphase hat.cond hat.le hend hleaf hcloses
  · -- the cleanup of a prefix `Defer` ends, and its body starts
    have hclosed : fe.closed scope =
        fe.entered ({ scope with delimiterDepth := 0, phase := .body } :: rest) scope.first fe.scopeDepth := by
      simp only [Frontend.closed, Frontend.setTop, Frontend.entered, if_neg (not_branch hkind), heq, List.tail_cons]
      rfl
    rw [hclosed] at hkeeps hgoes
    have hfirst : scope.first ∈ pending fe.scopes := by
      simp [heq, pending, FrontendScope.pending, hkind, hphase, himplicit]
    have hreading : ¬ Reading ({ scope with delimiterDepth := 0, phase := .body } :: rest) :=
      not_reading_of_kind rfl (not_branch hkind)
    obtain ⟨p, zs, rfl, hleaf, hcloses⟩ :=
      entered_enters hpoised hfirst (inBody_of_phase rfl (.inl rfl)) hgoes
    have hsettled : fe.Settled bs (.closing :: (p.lexemes ++ zs)) := by
      refine ⟨entered_cur hpoised hfirst hreading (fun j hj => ?_) hkeeps, ?_⟩
      · simp only [pending, FrontendScope.pending, List.flatMap_cons, hkind, himplicit] at hj
        simp only [heq, pending, FrontendScope.pending, List.flatMap_cons, hkind, hphase, himplicit]
        exact List.mem_cons_of_mem _ hj
      · rw [heq]
        exact .closing hkind himplicit hphase hleaf hcloses
    exact hsettled.goesOn hpoised (inBody_of_phase heq (.inr (.inr hphase)))

/-- A move, taken back: how the source goes on in front of it -/
theorem TokenMove.goes (h : TokenMove fe xs fe') (hF : FootprintFits firstVar fe F) (hkeeps : fe'.Keeps bs)
    (hgoes : fe'.GoesOn bs ys) : fe.GoesOn bs (xs ++ ys) := by
  have hpoised := hF.poised
  cases h with
  | same hsame =>
      rw [Frontend.GoesOn, ← hsame.blocks, ← hsame.ops, ← hsame.scopes, ← hsame.currentBasic,
        ← hsame.scopeDepth]
      exact hgoes
  | op o hready => exact emitted_goes hpoised hready hgoes
  | loop hbody => exact openedLoop_goes hpoised hbody hkeeps hgoes
  | branch hbody => exact openedIf_goes hpoised hbody hkeeps hgoes
  | epilogue implicitEnd hbody =>
      cases implicitEnd with
      | false => exact openedStart_goes hpoised hbody hkeeps hgoes
      | true => exact openedDefer_goes hpoised hbody hkeeps hgoes
  | exit isContinue hbody hexit => exact exited_goes hpoised hbody hexit hkeeps hgoes
  | var tid name hbody => exact declared_goes hpoised hbody hkeeps hgoes
  | leave hends =>
      obtain ⟨hsettled, hbody⟩ := hends.settled hF hkeeps hgoes
      exact hsettled.goesOn hpoised hbody
  | opening heq hwait => exact opening_goes hF heq hwait hgoes
  | nested d heq hwait hdepth => exact nested_goes hF heq hwait hdepth hgoes
  | closing heq hwait hdepth => exact closed_goes hF heq hwait hdepth hkeeps hgoes

end Goes

theorem TokenMoves.preserves {firstVar : Nat} {fe fe' : Frontend M} {F : Footprint} {xs : List Lexeme}
    (h : TokenMoves fe xs fe') (hF : FootprintFits firstVar fe F) : Preserves fe fe' := by
  induction h generalizing F with
  | refl fe => exact .refl fe
  | step hmove _ ih =>
      have hstep : Advances firstVar _ _ := hmove.advances
      obtain ⟨-, F', -, hF'⟩ := hstep F hF
      exact (hmove.preserves hF).trans (ih hF')

/-- A sequence of moves, taken back -/
theorem TokenMoves.goes {firstVar : Nat} {fe fe' : Frontend M} {F : Footprint} {bs : List Block} {xs ys : List Lexeme}
    (h : TokenMoves fe xs fe') (hF : FootprintFits firstVar fe F) (hkeeps : fe'.Keeps bs)
    (hgoes : fe'.GoesOn bs ys) : fe.GoesOn bs (xs ++ ys) := by
  induction h generalizing F with
  | refl fe => exact hgoes
  | step hmove hrest ih =>
      have hstep : Advances firstVar _ _ := hmove.advances
      obtain ⟨-, F', -, hF'⟩ := hstep F hF
      rw [List.append_assoc]
      exact hmove.goes hF ((hrest.preserves hF').keeps hkeeps) (ih hF' hkeeps hgoes)

/-! ## Whole sources -/

section Sources

variable (macros : Nat → Frontend M → Option VmResult × Frontend M) (literalAt : Nat → UInt64)

/-- What the tokens of the source say, each where it is engaged -/
def Frontend.lexemesFrom : Nat → Frontend M → List Lexeme
  | 0, _ => []
  | fuel + 1, fe =>
      match nextToken fe with
      | (none, _) => []
      | (some token, fe) =>
          let st := { fe with currentToken := token }
          match engageToken macros literalAt st with
          | (some (), fe) => st.lexemes ++ lexemesFrom fuel fe
          | (none, _) => st.lexemes

/-- What the source says to a function -/
def sourceLexemes (fuel : Nat) (source : Text) (fe : Frontend M) : List Lexeme :=
  (((prepareFunc fe).2).begin source).lexemesFrom macros literalAt fuel

variable {macros literalAt} {firstVar : Nat} {fe fe' : Frontend M} {F : Footprint} {fuel : Nat} {source : Text}

theorem interpret_moves (hF : FootprintFits firstVar fe F)
    (hplain : ∀ st, Engages macros literalAt fe st → st.Plain)
    (h : interpret macros literalAt fuel fe = some (true, fe')) :
    TokenMoves fe (fe.lexemesFrom macros literalAt fuel) fe' := by
  induction fuel generalizing fe F with
  | zero => cases h
  | succ fuel ih =>
      rw [interpret] at h
      rw [Frontend.lexemesFrom]
      have hnext := nextToken_quiet fe
      rcases htoken : nextToken fe with ⟨_ | token, fe₁⟩
      · rw [htoken] at h hnext
        cases h
        exact hnext.movesTo
      rw [htoken] at h hnext
      have hsame : SameTree fe { fe₁ with currentToken := token } :=
        hnext.trans ⟨rfl, rfl, rfl, rfl, rfl, rfl⟩
      have hF₁ := hsame.fits hF
      simp only at h ⊢
      rcases hengage : engageToken macros literalAt { fe₁ with currentToken := token } with ⟨_ | _, fe₂⟩
      · rw [hengage] at h
        cases h
      · rw [hengage] at h
        have hmoves := engageToken_moves hF₁ (hplain _ (.here htoken)) hengage
        have hstep : Advances firstVar _ _ := hmoves.advances
        obtain ⟨-, F₂, -, hF₂⟩ := hstep F hF₁
        exact hsame.movesTo.trans (hmoves.trans (ih hF₂ (fun st hst => hplain st (.later htoken hengage hst)) h))

/-- At the end of the source only prefix `Defer`s are open. -/
theorem finishImplicit_settled (hF : FootprintFits firstVar fe F) :
    Preserves fe (finishImplicitEpilogues fe) ∧ ((finishImplicitEpilogues fe).scopes = [] →
      fe.Settled (finishImplicitEpilogues fe).func.blocks [] ∧ InBody fe.scopes) := by
  rw [finishImplicitEpilogues]
  generalize hscopes : fe.scopes = scopes
  induction scopes generalizing fe F with
  | nil =>
      refine ⟨.refl fe, fun _ => ⟨⟨rfl, ?_⟩, inBody_nil⟩⟩
      rw [hscopes]
      exact .nil
  | cons scope rest ih =>
      rw [finishImplicitFrom]
      split
      · rename_i hends
        have hleave : Advances firstVar fe _ :=
          leave_advances hscopes (not_reading_of_kind hscopes (not_branch hends.1))
        obtain ⟨-, F', -, hF'⟩ := hleave F hF
        have hrest : (fe.leave scope).scopes = rest := by
          simp [Frontend.leave, Frontend.enterBlock, Frontend.startHere, Frontend.setBlocks, hscopes]
        obtain ⟨hpreserves, hsettled⟩ := ih hF' hrest
        refine ⟨(Preserves.of_leave hscopes (hF.inBody_tail hscopes).1).trans hpreserves, fun hnil => ?_⟩
        have hkeeps : (fe.leave scope).Keeps (finishImplicitFrom rest (fe.leave scope)).func.blocks :=
          hpreserves.keeps fun _ _ _ => rfl
        exact ⟨implicit_settled hF hscopes hends hkeeps (hsettled hnil).1, inBody_of_phase rfl (.inl hends.2.2)⟩
      · refine ⟨.refl fe, fun hnil => ?_⟩
        rw [hscopes] at hnil
        cases hnil

theorem finishImplicit_ops (fe : Frontend M) : (finishImplicitEpilogues fe).func.ops = fe.func.ops := by
  rw [finishImplicitEpilogues]
  generalize fe.scopes = scopes
  induction scopes generalizing fe with
  | nil => rfl
  | cons scope rest ih =>
      rw [finishImplicitFrom]
      split
      · exact ih (fe.leave scope)
      · rfl

/-- The operations are those that are written. -/
theorem Stmts.ops_eq (p : Stmts) : p.ops = lexemeOps p.lexemes := by
  have happend : ∀ xs ys, lexemeOps (xs ++ ys) = lexemeOps xs ++ lexemeOps ys :=
    fun xs ys => List.filterMap_append
  have hcond : ∀ cond : List Op, lexemeOps (cond.map .op) = cond := by
    intro cond
    rw [lexemeOps, List.filterMap_map]
    exact List.filterMap_some
  have hskip : ∀ (x : Lexeme) (xs : List Lexeme), (∀ o, x ≠ .op o) → lexemeOps (x :: xs) = lexemeOps xs := by
    intro x xs hx
    cases x with
    | op o => exact absurd rfl (hx o)
    | _ => rfl
  induction p with
  | done => rfl
  | op o rest ih => exact congrArg (o :: ·) ih
  | _ => simp_all [lexemes, ops]

/-- Accepted source is statements.  They stand where the current block was. -/
theorem compileSource_holds {fe₁ : Frontend M} (hprepare : prepareFunc fe = (some (), fe₁))
    (hF : FootprintFits firstVar fe₁ F) (hscopes : fe₁.scopes = [])
    (hplain : ∀ st, EngagedBy macros literalAt source fe st → st.Plain)
    (h : compileSource macros literalAt fuel source fe = some (true, fe')) :
    ∃ (start : Nat) (p : Stmts), p.lexemes = sourceLexemes macros literalAt fuel source fe ∧
      fe'.func.ops = fe₁.func.ops ++ p.ops ∧
      fe₁.func.blocks[fe₁.currentBasic]? = some (.basic ⟨start, fe₁.func.ops.length - start⟩) ∧
      start ≤ fe₁.func.ops.length ∧ p.Legal False ∧
      HoldsTree fe'.func.blocks fe₁.currentBasic (p.tree start fe₁.func.ops.length fe₁.scopeDepth {}) := by
  rw [compileSource, hprepare] at h
  obtain ⟨⟨ok, fe₂⟩, hinterpret, hconclude⟩ := Option.map_eq_some_iff.mp h
  cases ok with
  | false =>
      simp only [Frontend.conclude, if_true] at hconclude
      cases hconclude
  | true =>
      -- forwards for the invariant, then backwards from the last state
      have hF₀ : FootprintFits firstVar (fe₁.begin source) F := (begin_sameTree source).fits hF
      have hmoves := interpret_moves hF₀ (fun st hst => hplain st ⟨fe₁, hprepare, hst⟩) hinterpret
      have hrun : Advances firstVar _ _ := hmoves.advances
      obtain ⟨-, F₂, -, hF₂⟩ := hrun _ hF₀
      have hsame : SameTree fe₂ { fe₂ with interpreterVm := {} } := ⟨rfl, rfl, rfl, rfl, rfl, rfl⟩
      have hF₃ := hsame.fits hF₂
      obtain ⟨hpreserves, hsettled⟩ := finishImplicit_settled hF₃
      have hend := finishImplicit_ops { fe₂ with interpreterVm := {} }
      have hnone : (finishImplicitEpilogues { fe₂ with interpreterVm := {} }).scopes = [] ∧
          fe' = finishImplicitEpilogues { fe₂ with interpreterVm := {} } := by
        simp only [Frontend.conclude, reduceCtorEq, if_false] at hconclude
        split at hconclude
        · rename_i hnil
          cases hconclude
          exact ⟨hnil, rfl⟩
        · cases hconclude
      obtain ⟨hnil, rfl⟩ := hnone
      -- behind the last token the blocks are known
      obtain ⟨hlast, hbody⟩ := hsettled hnil
      have hgoes : fe₂.GoesOn _ [] := hlast.goesOn hF₃.poised hbody
      have hkeeps : fe₂.Keeps (finishImplicitEpilogues { fe₂ with interpreterVm := {} }).func.blocks :=
        hpreserves.keeps fun _ _ _ => rfl
      have hstart := hmoves.goes hF₀ hkeeps hgoes
      rw [List.append_nil] at hstart
      have hempty : (fe₁.begin source).scopes = [] := hscopes
      have hbody₁ : InBody (fe₁.begin source).scopes := by
        rw [hempty]
        exact inBody_nil
      obtain ⟨start, p, ys, hxs, hcur, hle, htree, hlegal, hcloses⟩ := Goes.body_inv hstart hbody₁
      rw [hempty] at htree hlegal hcloses
      obtain rfl : ys = [] := by
        cases hcloses
        rfl
      have hlexemes : p.lexemes = sourceLexemes macros literalAt fuel source fe := by
        rw [sourceLexemes, hprepare, hxs, List.append_nil]
      have hexit : Exitable [] = False := by
        refine eq_false ?_
        rintro ⟨inner, loop, hsplit, -⟩
        cases hsplit
      refine ⟨start, p, hlexemes, ?_, hcur, hle, hexit ▸ hlegal, htree⟩
      rw [hend, p.ops_eq, hlexemes, sourceLexemes, hprepare]
      exact hmoves.ops

/-- The source of a new function -/
theorem compileSource_statements (hblocks : fe.func.blocks = []) (hops : fe.func.ops = [])
    (hscopes : fe.scopes = []) (hdepth : fe.scopeDepth = 0)
    (hquick : ∀ st, EngagedBy macros literalAt source fe st → ¬ st.RunsMacro)
    (hvar : ∀ st, EngagedBy macros literalAt source fe st → ¬ st.DeclaresInCondition)
    (h : compileSource macros literalAt fuel source fe = some (true, fe')) :
    ∃ p : Stmts, (∀ q : Stmts, q.lexemes = sourceLexemes macros literalAt fuel source fe ↔ q = p) ∧
      p.Legal False ∧ fe'.func.ops = p.ops ∧ RepresentsTree fe'.func.blocks (p.tree 0 0 0 {}) := by
  have hprepare : prepareFunc fe = (some (), { fe.setBlocks [.basic ⟨0, 0⟩] with currentBasic := 0 }) := by
    rw [prepareFunc, hblocks]
  have hstart : Startable fe.func.vars.length fe := .empty hblocks hops rfl hscopes hdepth
  obtain ⟨fe₁, F, hprepare', hF⟩ := hstart.prepared
  cases hprepare.symm.trans hprepare'
  obtain ⟨start, p, hlexemes, hops', hcur, -, hlegal, htree⟩ := compileSource_holds hprepare hF hscopes
    (fun st hst => Frontend.plain_of (hquick st hst) (hvar st hst)) h
  obtain rfl : start = 0 := (OpRange.mk.inj (Block.basic.inj (Option.some.inj hcur.symm))).1
  simp only [Frontend.setBlocks, hops, hdepth, List.length_nil, List.nil_append] at hops' htree
  have hwritten : ∀ q : Stmts, q.lexemes = sourceLexemes macros literalAt fuel source fe ↔ q = p := fun q =>
    hlexemes ▸ Stmts.lexemes_injective.eq_iff
  exact ⟨p, hwritten, hlegal, hops', htree⟩

/-- Accepted source is statements, and only these are written so.  The function that is built is their
tree: the blocks stand for it, and on every machine it does what the statements do. -/
theorem compileSource_translates (hblocks : fe.func.blocks = []) (hops : fe.func.ops = [])
    (hscopes : fe.scopes = []) (hdepth : fe.scopeDepth = 0)
    (hquick : ∀ st, EngagedBy macros literalAt source fe st → ¬ st.RunsMacro)
    (hvar : ∀ st, EngagedBy macros literalAt source fe st → ¬ st.DeclaresInCondition)
    (h : compileSource macros literalAt fuel source fe = some (true, fe')) :
    ∃ p : Stmts, (∀ q : Stmts, q.lexemes = sourceLexemes macros literalAt fuel source fe ↔ q = p) ∧
      p.Legal False ∧
      fe'.func.ops = p.ops ∧ RepresentsTree fe'.func.blocks (p.tree 0 0 0 {}) ∧
      (p.Straight → ∀ {σ : Type} (M : Machine σ) (n : Nat) (s : σ), M.ops = fe'.func.ops → M.Silent →
        (p.tree 0 0 0 {}).eval M n s = (p.exec M n s s).toOutcome (({} : LoopDepths).level 0)) := by
  obtain ⟨p, hwritten, hlegal, hops', htree⟩ :=
    compileSource_statements hblocks hops hscopes hdepth hquick hvar h
  exact ⟨p, hwritten, hlegal, hops', htree, fun hstraight σ M n s hM hsilent =>
    Stmts.eval_whole hsilent hstraight (hM.trans hops') s⟩

end Sources

/-! ## A sample -/

def countdownSource : Text :=
  utf8 "Var Int x Loop x x Sub If (x) Continue Else Break Done Again"

def countdownStmts : Stmts :=
  .var 0 (.loop (.op ⟨.pushVar, 0⟩ (.op ⟨.pushVar, 0⟩ (.op ⟨.subAssign, 0⟩
    (.ifElse [⟨.pushVar, 0⟩] (.exit true .done) (.exit false .done) .done)))) .done)

theorem compileSource_translates_break :
    ∃ fe', compileSource noMacros (fun _ => 0) 20 countdownSource emptyFrontend = some (true, fe') ∧
      fe'.func.ops = countdownStmts.ops ∧
      RepresentsTree fe'.func.blocks (countdownStmts.tree 0 0 0 {}) ∧
      ∀ {σ : Type} (M : Machine σ) (n : Nat) (s : σ), M.ops = fe'.func.ops → M.Silent →
        (countdownStmts.tree 0 0 0 {}).eval M n s =
          (countdownStmts.exec M n s s).toOutcome (({} : LoopDepths).level 0) := by
  obtain ⟨fe', hsample, -⟩ := sample_of_run 20 countdownSource (fun _ => true)
    (by decide) (by decide)
  obtain ⟨p, hwritten, -, hops, htree, heval⟩ :=
    compileSource_translates rfl rfl rfl rfl hsample.quick hsample.var hsample.compiled
  obtain rfl : countdownStmts = p := (hwritten _).mp (by decide)
  exact ⟨fe', hsample.compiled, hops, htree, heval (by simp [countdownStmts, Stmts.Straight])⟩

end TreeVM
