import TreeVM.Frontend.Sessions

/-!
# Where `Break` and `Continue` lead

* `JumpsTo`: the level of a jump designates a scope, and no cleanup is left on the way;
* `Open.split`: the scopes inside the innermost loop, in the tree;
* `loopExit_jumpsTo_iff`: the jumps of accepted source.

`handle_delimiter` does not set `scope_depth` where the cleanup of a prefix `Defer` ends: it is too
large by the scopes that the cleanup has opened around its last block.
-/

namespace TreeVM

/-- The jump at block `jump` leaves the scopes up to the one that block `target` opens; none of them
is a cleanup. -/
def JumpsTo (blocks : List Block) (jump target : Nat) : Prop :=
  ∃ F path level, Forms blocks F ∧ (jump, path) ∈ F ∧ blocks[jump]? = some (.brk level) ∧
    0 < level ∧ path[level - 1]? = some (target, false) ∧ Clean (path.take level)

/-- The cleanups of the prefix `Defer`s among these scopes consist of operations. -/
def StraightDefers (blocks : List Block) (inner : List FrontendScope) : Prop :=
  ∀ scope ∈ inner, scope.endsImplicitly → ∃ r, blocks[scope.second]? = some (.basic r)

/-! ## Levels -/

theorem Clean.nil : Clean [] :=
  nofun

theorem Clean.append {A B : Path} (hA : Clean A) (hB : Clean B) : Clean (A ++ B) := by
  intro e he
  exact (List.mem_append.mp he).elim (hA e) (hB e)

theorem Clean.cons {A : Path} (hA : Clean A) (i : Nat) : Clean ((i, false) :: A) := by
  intro e he
  rcases List.mem_cons.mp he with rfl | he
  · rfl
  · exact hA e he

/-- A level designates a scope when no scope is counted too many. -/
theorem level_iff {B C : Path} {target x : Nat} (hclean : Clean B)
    (hnodup : ((B ++ (target, false) :: C).map Prod.fst).Nodup) :
    ((B ++ (target, false) :: C)[B.length + x]? = some (target, false) ∧
      Clean ((B ++ (target, false) :: C).take (B.length + x + 1))) ↔ x = 0 := by
  constructor
  · rintro ⟨hat, -⟩
    have hindex : ((B ++ (target, false) :: C).map Prod.fst)[B.length + x]? = some target := by
      rw [List.getElem?_map, hat]
      rfl
    have hself : ((B ++ (target, false) :: C).map Prod.fst)[B.length]? = some target := by
      simp
    have hlt := (List.getElem?_eq_some_iff.mp hself).1
    have heq := (List.getElem?_inj hlt hnodup).mp (hself.trans hindex.symm)
    omega
  · rintro rfl
    refine ⟨by simp, ?_⟩
    have htake : (B ++ (target, false) :: C).take (B.length + 0 + 1) = B ++ [(target, false)] := by
      simp [List.take_append, List.take_of_length_le (Nat.le_succ B.length)]
    rw [htake]
    exact hclean.append (Clean.nil.cons target)

/-! ## The scopes inside the innermost loop -/

section Split

variable {bs : List Block} {F : Footprint} {scopes inner : List FrontendScope}
  {scope loop : FrontendScope} {R own : Region} {P : Path} {d : Nat}

/-- The path and the excess of one scope that is no loop. -/
theorem InsideScope.segment (h : InsideScope bs F scope P d own) (hkind : scope.kind ≠ .loop)
    (hlegal : ¬ (scope.kind = .epilogue ∧ scope.phase = .cleanup))
    (hphase : scope.phase ≠ .cleanupWaitOpen) :
    ∃ A e, own.path = A ++ P ∧ Clean A ∧ own.excess = d + e ∧
      (e = 0 ↔ (scope.endsImplicitly → ∃ r, bs[scope.second]? = some (.basic r))) := by
  cases h with
  | loop hloop _ _ _ _ _ _ _ _ => exact absurd hloop hkind
  | condition hbranch _ _ _ _ =>
      exact ⟨[], 0, rfl, nofun, rfl, by simp [FrontendScope.endsImplicitly, hbranch]⟩
  | yes hbranch _ _ _ _ =>
      exact ⟨[], 0, rfl, nofun, rfl, by simp [FrontendScope.endsImplicitly, hbranch]⟩
  | no hbranch _ _ _ =>
      exact ⟨[], 0, rfl, nofun, rfl, by simp [FrontendScope.endsImplicitly, hbranch]⟩
  | protect _ _ _ himplicit _ =>
      exact ⟨[(scope.block, false)], 0, rfl, Clean.nil.cons _, rfl,
        by simp [FrontendScope.endsImplicitly, himplicit]⟩
  | cleanup hepilogue hcleanup _ _ => exact absurd ⟨hepilogue, hcleanup⟩ hlegal
  | capture hepilogue hcapture _ _ _ _ _ =>
      exact absurd ⟨hepilogue, hcapture.resolve_left hphase⟩ hlegal
  | @rest e hepilogue hbody _ himplicit _ he =>
      refine ⟨[(scope.block, false)], e, rfl, Clean.nil.cons _, rfl, he.trans ?_⟩
      simp [FrontendScope.endsImplicitly, hepilogue, hbody, himplicit]

theorem Open.split (h : Open bs F scopes R) (hsplit : splitAtLoop scopes = some (inner, loop))
    (hlegal : cleanupExitIsLegal inner = true) (hbody : InBody scopes) :
    ∃ A P d, R.path = A ++ (loop.first, false) :: (loop.block, false) :: P ∧ Clean A ∧
      bs[loop.block]? = some (.loop loop.first) ∧
      loop.breakDepth = P.length + d + 1 ∧ loop.continueDepth = P.length + d + 2 ∧
      ∃ e, R.excess = d + e ∧ (e = 0 ↔ StraightDefers bs inner) := by
  induction h generalizing inner with
  | nil => cases hsplit
  | @cons scope rest R₀ E own _ hrest _ hclean _ _ _ hdepth hinside _ ih =>
      rw [splitAtLoop] at hsplit
      by_cases hkind : scope.kind = .loop
      · rw [if_pos hkind] at hsplit
        cases hsplit
        cases hinside with
        | loop _ _ _ _ hbreak hcontinue hblock _ _ =>
            refine ⟨[], E ++ R₀.path, R₀.excess, rfl, nofun, hblock, ?_, ?_, 0, rfl, ?_⟩
            · omega
            · omega
            · simp [StraightDefers]
        | _ => simp_all
      · rw [if_neg hkind, Option.map_eq_some_iff] at hsplit
        obtain ⟨⟨inner', loop'⟩, hsplit, heq⟩ := hsplit
        cases heq
        rw [cleanupExitIsLegal, List.all_cons, Bool.and_eq_true] at hlegal
        obtain ⟨A, P, d, hpath, hA, hblock, hbreak, hcontinue, e, hexcess, he⟩ := ih hsplit hlegal.2 hrest
        obtain ⟨B, e', hpath', hB, hexcess', he'⟩ :=
          hinside.segment hkind (fun ⟨hk, hp⟩ => by simp [hk, hp] at hlegal) (hbody.2 _ _ rfl)
        refine ⟨B ++ (E ++ A), P, d, ?_, hB.append (hclean.append hA), hblock, hbreak, hcontinue, e + e',
          ?_, ?_⟩
        · simp only [hpath', hpath, List.append_assoc]
        · simp only [hexcess', hexcess]
          omega
        · rw [Nat.add_eq_zero_iff, he, he', StraightDefers, StraightDefers, List.forall_mem_cons, and_comm]

end Split

/-- The jump that `emit_loop_exit` makes, in the tree of the accepted source. -/
theorem ScopesStand.exit_jumpsTo {firstVar ops vars cur depth covered jump level : Nat}
    {bs bs' : List Block} {scopes inner : List FrontendScope} {loop : FrontendScope}
    {F F' : Footprint} {R : Region} {E : Path} {isContinue : Bool}
    (h : ScopesStand firstVar bs ops vars scopes cur depth F R E covered) (hbody : InBody scopes)
    (hsplit : splitAtLoop scopes = some (inner, loop)) (hlegal : cleanupExitIsLegal inner = true)
    (hlevel : level = depth + 1 - (if isContinue then loop.continueDepth else loop.breakDepth) + 1)
    (hforms : Forms bs' F') (hjump : (jump, (cur, false) :: (E ++ R.path)) ∈ F')
    (hbrk : bs'[jump]? = some (.brk level)) :
    JumpsTo bs' jump (if isContinue then loop.first else loop.block) ↔ StraightDefers bs inner := by
  obtain ⟨A, P, d, hpath, hA, -, hbreak, hcontinue, e, hexcess, he⟩ :=
    h.opened.split hsplit hlegal hbody
  -- the scopes that the jump leaves, and the one that it is meant to leave last
  obtain ⟨B, C, hB, hBC, hlevel⟩ : ∃ B C : Path, Clean B ∧
      (cur, false) :: (E ++ R.path) =
        B ++ ((if isContinue then loop.first else loop.block), false) :: C ∧
      level = B.length + e + 1 := by
    have hdepth := h.depth
    rw [hpath, hexcess] at hdepth
    simp only [List.length_append, List.length_cons] at hdepth
    have hEA : Clean ((cur, false) :: (E ++ A)) := (h.clean.append hA).cons cur
    cases isContinue with
    | true =>
        refine ⟨(cur, false) :: (E ++ A), (loop.block, false) :: P, hEA, ?_, ?_⟩
        · simp [hpath]
        · simp only [if_true] at hlevel
          simp only [List.length_cons, List.length_append]
          omega
    | false =>
        refine ⟨(cur, false) :: (E ++ A) ++ [(loop.first, false)], P,
          hEA.append (Clean.nil.cons loop.first), ?_, ?_⟩
        · simp [hpath]
        · simp only [Bool.false_eq_true, if_false] at hlevel
          simp only [List.length_cons, List.length_append, List.length_nil]
          omega
  rw [← he]
  rw [hBC] at hjump
  have hiff := level_iff (x := e) hB (hforms.path_nodup hjump)
  rw [← hiff]
  constructor
  · rintro ⟨G, path, level', hG, hmem, hbrk', -, hat, hclean⟩
    cases hbrk.symm.trans hbrk'
    obtain rfl := hforms.owns.det hG.owns
    obtain rfl := hforms.path_unique hjump hmem
    rw [hlevel] at hat hclean
    exact ⟨hat, hclean⟩
  · rintro ⟨hat, hclean⟩
    refine ⟨F', _, level, hforms, hjump, hbrk, by omega, ?_, ?_⟩
    · rw [hlevel]
      exact hat
    · rw [hlevel]
      exact hclean

/-! ## Accepted source -/

section Accepted

variable {M : Type} {firstVar : Nat} {fe₀ fe fe' st : Frontend M}
  {macros : Nat → Frontend M → Option VmResult × Frontend M} {literalAt : Nat → UInt64}

theorem Engages.trans {fe₁ fe₂ : Frontend M} (h : Engages macros literalAt fe fe₁)
    (hengage : engageToken macros literalAt fe₁ = (some (), fe₂))
    (hst : Engages macros literalAt fe₂ st) : Engages macros literalAt fe st := by
  induction h with
  | here htoken => exact .later htoken hengage hst
  | later htoken hengage' _ ih => exact .later htoken hengage' (ih hengage)

theorem Engages.advances (hst : Engages macros literalAt fe st)
    (hplain : ∀ st, Engages macros literalAt fe st → st.Plain) : Advances firstVar fe st := by
  induction hst with
  | @here fe fe₁ token htoken =>
      have hnext := nextToken_quiet fe
      rw [htoken] at hnext
      exact (hnext.trans ⟨rfl, rfl, rfl, rfl, rfl, rfl⟩).advances
  | @later fe fe₁ fe₂ st token htoken hengage _ ih =>
      have hnext := nextToken_quiet fe
      rw [htoken] at hnext
      have hstep : Advances firstVar _ _ := engageToken_advances macros literalAt
        (hplain _ (.here htoken))
      rw [hengage] at hstep
      exact ((hnext.trans ⟨rfl, rfl, rfl, rfl, rfl, rfl⟩).advances.trans hstep).trans
        (ih fun st hst => hplain st (.later htoken hengage hst))

/-- Every token of accepted source is engaged with success. -/
theorem Engages.succeeds {fuel : Nat} (hst : Engages macros literalAt fe st)
    (h : interpret macros literalAt fuel fe = some (true, fe')) :
    ∃ fuel' fe₂, engageToken macros literalAt st = (some (), fe₂) ∧
      interpret macros literalAt fuel' fe₂ = some (true, fe') := by
  induction hst generalizing fuel with
  | @here fe fe₁ token htoken =>
      cases fuel with
      | zero => cases h
      | succ fuel =>
          rw [interpret, htoken] at h
          simp only at h
          rcases hengage : engageToken macros literalAt { fe₁ with currentToken := token } with
            ⟨_ | _, fe₂⟩
          · rw [hengage] at h
            cases h
          · rw [hengage] at h
            exact ⟨fuel, fe₂, rfl, h⟩
  | @later fe fe₁ fe₂ st token htoken hengage _ ih =>
      cases fuel with
      | zero => cases h
      | succ fuel =>
          rw [interpret, htoken] at h
          simp only [hengage] at h
          exact ih h

/-- The word of a jump -/
def exitWord (isContinue : Bool) : Immediate :=
  if isContinue then .continueWord else .breakWord

theorem engageToken_exit {isContinue : Bool} {fe₂ : Frontend M}
    (hword : st.currentWord = some (.immediate (exitWord isContinue)))
    (h : engageToken macros literalAt st = (some (), fe₂)) :
    InBody st.scopes ∧ emitLoopExit isContinue st = (some (), fe₂) := by
  rw [Frontend.currentWord] at hword
  by_cases hparen : st.currentToken.isParen
  · rw [if_pos hparen] at hword
    cases hword
  rw [if_neg hparen] at hword
  rw [engageToken] at h
  simp only [if_neg hparen] at h
  cases hfind : findWord st.words st.currentToken.bytes with
  | none =>
      rw [hfind] at hword
      cases hword
  | some word =>
      rw [hfind] at hword h
      have hkind : word.kind = .immediate (exitWord isContinue) := Option.some.inj hword
      simp only [engageWord, hkind] at h
      by_cases hready : st.readyForWord
      swap
      · rw [if_neg hready] at h
        cases h
      rw [if_pos hready] at h
      have hcontrol : runControl (exitWord isContinue) st = (some (), fe₂) := by
        cases isContinue <;> exact h
      rw [runControl] at hcontrol
      by_cases hclosed : st.closedToControl
      · rw [if_pos hclosed] at hcontrol
        cases hcontrol
      rw [if_neg hclosed] at hcontrol
      refine ⟨Frontend.inBody (by simpa using hclosed), ?_⟩
      cases isContinue <;> exact hcontrol

/-- A jump of accepted source leads to the innermost loop and leaves no cleanup, if and only if the
cleanups of the prefix `Defer`s between the word and the loop consist of operations. -/
theorem loopExit_jumpsTo_iff (hstart : Startable firstVar fe₀)
    (hreach : Reaches macros literalAt fe₀ fe) {fuel : Nat} {source : Text}
    (hquick : ∀ st, EngagedBy macros literalAt source fe st → ¬ st.RunsMacro)
    (hvar : ∀ st, EngagedBy macros literalAt source fe st → ¬ st.DeclaresInCondition)
    (h : compileSource macros literalAt fuel source fe = some (true, fe'))
    (hst : EngagedBy macros literalAt source fe st) {isContinue : Bool}
    (hword : st.currentWord = some (.immediate (exitWord isContinue))) :
    ∃ inner loop, splitAtLoop st.scopes = some (inner, loop) ∧
      fe'.func.blocks[loop.block]? = some (.loop loop.first) ∧
      (∃ level, fe'.func.blocks[st.func.blocks.length + 1]? = some (.brk level)) ∧
      (JumpsTo fe'.func.blocks (st.func.blocks.length + 1)
          (if isContinue then loop.first else loop.block) ↔
        StraightDefers st.func.blocks inner) := by
  obtain ⟨fe₁, F, hprepare, hF⟩ := hreach.prepared hstart
  obtain ⟨fe₁', hprepare', hengages⟩ := hst
  cases hprepare.symm.trans hprepare'
  have hplain : ∀ st, Engages macros literalAt (fe₁.begin source) st → st.Plain := fun st hst =>
    Frontend.plain_of (hquick st ⟨fe₁, hprepare, hst⟩) (hvar st ⟨fe₁, hprepare, hst⟩)
  rw [compileSource, hprepare] at h
  simp only [Option.map_eq_some_iff] at h
  obtain ⟨⟨ok, fe₃⟩, hinterpret, hconclude⟩ := h
  obtain rfl : ok = true := by
    cases ok with
    | true => rfl
    | false => simp [Frontend.conclude] at hconclude
  obtain ⟨fuel', fe₂, hengage, hrest⟩ := hengages.succeeds hinterpret
  obtain ⟨hbody, hexit⟩ := engageToken_exit hword hengage
  -- the state at the word
  obtain ⟨-, F₁, -, hF₁⟩ := ((begin_sameTree source).advances.trans (hengages.advances hplain)) F hF
  obtain ⟨R, E, covered, hstands⟩ := hF₁
  rcases emitLoopExit_cases isContinue st with ⟨-, hnone⟩ | ⟨inner, loop, hsplit, hlegal, -, hmade⟩
  · rw [hexit] at hnone
    cases hnone
  rw [hexit] at hmade
  generalize hlevel : st.scopeDepth + 1 -
    (if isContinue then loop.continueDepth else loop.breakDepth) + 1 = level at hmade
  have hfe₂ := (Prod.mk.inj hmade).2
  obtain ⟨hinner, hbrk, F₂, hsub, hjump, hexited⟩ := hstands.exit hbody.1
    (rfl : wrapped st.func.blocks st.currentBasic st.func.ops.length (.brk level) = _)
  have hF₂ : FootprintFits firstVar fe₂ F₂ := by
    rw [hfe₂]
    exact ⟨R, _, _, hexited⟩
  have hblocks : fe₂.func.blocks =
      wrapped st.func.blocks st.currentBasic st.func.ops.length (.brk level) := by rw [hfe₂]; rfl
  -- the rest of the call keeps the jump
  have hlast : Advances firstVar fe₂ fe' := by
    have hend : Advances firstVar fe₃ _ := conclude_advances true
    rw [hconclude] at hend
    exact (interpret_advances (fun st' hst' => hplain st' (hengages.trans hengage hst')) hrest).trans hend
  obtain ⟨hkeeps, F₃, hsub', R', E', covered', hstands'⟩ := hlast F₂ hF₂
  rw [hblocks] at hkeeps
  have hkept : ∀ {i : Nat} {b : Block},
      (wrapped st.func.blocks st.currentBasic st.func.ops.length (.brk level))[i]? = some b →
      b.Inner → (∀ c y n, b ≠ .branch c y n) → fe'.func.blocks[i]? = some b := by
    intro i b hb hb' hne
    obtain ⟨b', hi, -, heq⟩ := hkeeps i b hb hb'
    rw [hi, heq hne]
  have hjump' := hkept hbrk (by simp [Block.Inner]) (by simp)
  obtain ⟨-, -, -, -, -, hblock, -⟩ := hstands.opened.split hsplit hlegal hbody
  obtain ⟨b, hb, -, heq⟩ := hinner _ _ hblock (by simp [Block.Inner])
  rw [heq (by simp)] at hb
  refine ⟨inner, loop, hsplit, hkept hb (by simp [Block.Inner]) (by simp), ⟨level, hjump'⟩, ?_⟩
  exact hstands.exit_jumpsTo hbody hsplit hlegal hlevel.symm hstands'.forms (hsub' _ hjump) hjump'

end Accepted

/-! ## Samples -/

/-- The inner loop is left through an `If` and a `Defer`. -/
def breakSource : Text :=
  utf8 "Loop Loop Defer (1) If (2) Break Done Again Again"

theorem loopExit_jumpsTo_iff_break :
    ∃ fe' st inner loop,
      compileSource noMacros (fun _ => 0) 20 breakSource emptyFrontend = some (true, fe') ∧
      EngagedBy noMacros (fun _ => 0) breakSource emptyFrontend st ∧
      st.currentWord = some (.immediate .breakWord) ∧
      splitAtLoop st.scopes = some (inner, loop) ∧ inner.length = 2 ∧
      fe'.func.blocks[loop.block]? = some (.loop loop.first) ∧
      JumpsTo fe'.func.blocks (st.func.blocks.length + 1) loop.block := by
  obtain ⟨fe', hsample, -⟩ := sample_of_run 20 breakSource (fun _ => true)
    (by decide) (by decide)
  have hbreak : ∃ st ∈ engagedOf noMacros (fun _ => 0) 20 breakSource emptyFrontend,
      st.currentWord = some (.immediate .breakWord) ∧
      (splitAtLoop st.scopes).any (fun s => s.1.length = 2 ∧ ∀ scope ∈ s.1,
        scope.endsImplicitly → st.func.blocks[scope.second]? = some (.basic ⟨0, 1⟩)) = true := by
    decide
  obtain ⟨st, hmem, hword, hinside⟩ := hbreak
  obtain ⟨⟨inner, loop⟩, hsplit, hinside⟩ := (Option.any_eq_true _ _).mp hinside
  obtain ⟨hlength, hcleanups⟩ := of_decide_eq_true hinside
  have hst := (hsample.engaged st).mpr hmem
  have hexit : st.currentWord = some (.immediate (exitWord false)) := hword
  obtain ⟨inner', loop', hsplit', hloop, -, hiff⟩ := loopExit_jumpsTo_iff (.empty rfl rfl rfl rfl rfl) .start
    hsample.quick hsample.var hsample.compiled hst hexit
  cases hsplit.symm.trans hsplit'
  exact ⟨fe', st, inner, loop, hsample.compiled, hst, hword, hsplit, hlength, hloop,
    hiff.mpr fun scope hscope hends => ⟨_, hcleanups scope hscope hends⟩⟩

def deferSource : Text :=
  utf8 "Loop Defer(Var Int x)Break Again"

/-- Blocks 8 to 14 are those of the `Defer`, blocks 15 to 18 those of the `Var` in its cleanup, blocks
19 to 23 those of the `Break`. -/
def deferBreakBlocks : List Block :=
  [.many (some 3) (some 5), .many (some 10) (some 12), .many (some 1) none, .basic ⟨0, 0⟩, .loop 2,
    .chain (some 4) (some 7), .basic ⟨0, 0⟩, .chain (some 6) none,
    .many (some 19) (some 21), .many (some 15) (some 17), .basic ⟨0, 0⟩, .defer 8 9,
    .chain (some 11) (some 14), .basic ⟨0, 0⟩, .chain (some 13) none,
    .basic ⟨0, 0⟩, .var 0 18, .chain (some 16) none, .basic ⟨0, 0⟩,
    .basic ⟨0, 0⟩, .brk 7, .chain (some 20) (some 23), .basic ⟨0, 0⟩, .chain (some 22) none]

/-- The parenthesis behind the cleanup leaves the scopes of its `Var` counted. -/
theorem deferVar_missesLoop :
    ∃ fe', compileSource noMacros (fun _ => 0) 8 deferSource emptyFrontend = some (true, fe') ∧
      fe'.func.blocks[20]? = some (.brk 7) ∧ ¬ JumpsTo fe'.func.blocks 20 4 := by
  obtain ⟨fe', hcompile, hblocks⟩ := compiled_of_run 8 deferSource
    (fun fe => fe.func.blocks = deferBreakBlocks) (by decide +kernel)
  refine ⟨fe', hcompile, ?_⟩
  rw [of_decide_eq_true hblocks]
  refine ⟨rfl, ?_⟩
  rintro ⟨F, path, level, hforms, hmem, hbrk, -, hat, -⟩
  have hjump : Owns deferBreakBlocks [(11, false), (1, false), (2, false), (4, false), (0, false)]
      (.node 8) _ :=
    .many rfl (.link (.basic rfl) rfl (.link (.brk rfl) rfl (.last (.basic rfl))))
  have hcleanup : Owns deferBreakBlocks [(11, true), (1, false), (2, false), (4, false), (0, false)]
      (.node 9) _ := .many rfl (.link (.basic rfl) rfl (.last (.var rfl (.basic rfl))))
  have hbody : Owns deferBreakBlocks [(2, false), (4, false), (0, false)] (.node 1) _ :=
    .many rfl (.link (.basic rfl) rfl (.link (.defer rfl hjump hcleanup) rfl (.last (.basic rfl))))
  have howns : Owns deferBreakBlocks [] (.node 0) _ :=
    .many rfl (.link (.basic rfl) rfl
      (.link (.loop rfl (.many rfl (.last hbody))) rfl (.last (.basic rfl))))
  -- the jump stands in six scopes, and its level is 7
  cases hbrk
  obtain rfl := howns.det hforms.owns
  simp at hmem
  subst hmem
  cases hat

end TreeVM
