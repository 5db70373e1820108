import TreeVM.Frontend.Advance

/-!
# Sessions of the frontend

A session is a sequence of calls of `frontend_compile_source`, failed ones included.

* `Engages`: the states in which a call engages its tokens;
* `Startable`, `Reaches`: where a session starts, and the states behind its calls;
* `compileSource_wellFormed`: accepted source gives a well-formed tree.
-/

namespace TreeVM

variable {M : Type} {firstVar : Nat} {fe₀ fe fe' : Frontend M}

/-- The blocks that block 0 reaches form a tree, their op ranges cover the operations, and the
variables from `firstVar` on have one block each. -/
def Draft.WellFormed (func : Draft) (firstVar : Nat) : Prop :=
  ∃ F, Forms func.blocks F ∧ Tiles func.blocks F func.ops.length func.ops.length ∧
    OwnsVars func.blocks F firstVar func.vars.length

/-- The current token is a macro. -/
def Frontend.RunsMacro (fe : Frontend M) : Prop :=
  ∃ idx, fe.currentWord = some (.immediate (.func idx))

/-- The current token is `Var`, and the innermost scope is an `If` whose condition is read. -/
def Frontend.DeclaresInCondition (fe : Frontend M) : Prop :=
  fe.currentWord = some (.immediate .var) ∧ fe.inCondition

theorem Frontend.plain_of (hquick : ¬ fe.RunsMacro) (hvar : ¬ fe.DeclaresInCondition) : fe.Plain :=
  ⟨fun idx h => hquick ⟨idx, h⟩, fun h hcond => hvar ⟨h, hcond⟩⟩

section Calls

variable (macros : Nat → Frontend M → Option VmResult × Frontend M) (literalAt : Nat → UInt64)

/-- The states in which the outer interpreter engages a token -/
inductive Engages : Frontend M → Frontend M → Prop
  | here {fe fe₁ : Frontend M} {token} : nextToken fe = (some token, fe₁) →
      Engages fe { fe₁ with currentToken := token }
  | later {fe fe₁ fe₂ st : Frontend M} {token} : nextToken fe = (some token, fe₁) →
      engageToken macros literalAt { fe₁ with currentToken := token } = (some (), fe₂) →
      Engages fe₂ st → Engages fe st

/-- The states in which `frontend_compile_source` engages a token of the source -/
def EngagedBy (source : Text) (fe st : Frontend M) : Prop :=
  ∃ fe₁, prepareFunc fe = (some (), fe₁) ∧ Engages macros literalAt (fe₁.begin source) st

/-- The function of a session is empty, or it is well formed and the current block is a leaf whose
operations are the last ones. -/
inductive Startable (firstVar : Nat) (fe : Frontend M) : Prop
  | empty : fe.func.blocks = [] → fe.func.ops = [] → fe.func.vars.length = firstVar →
      fe.scopes = [] → fe.scopeDepth = 0 → Startable firstVar fe
  | tree {F E r} : Forms fe.func.blocks F →
      Tiles fe.func.blocks F fe.func.ops.length fe.func.ops.length →
      OwnsVars fe.func.blocks F firstVar fe.func.vars.length → firstVar ≤ fe.func.vars.length →
      (fe.currentBasic, E) ∈ F → Clean E → fe.func.blocks[fe.currentBasic]? = some (.basic r) →
      r.start + r.len = fe.func.ops.length → fe.scopes = [] → fe.scopeDepth = E.length →
      Startable firstVar fe

/-- The states of a session between the calls.  Words and types may be added there. -/
inductive Reaches (fe₀ : Frontend M) : Frontend M → Prop
  | start : Reaches fe₀ fe₀
  | edit {fe fe' : Frontend M} : Reaches fe₀ fe → SameTree fe fe' → Reaches fe₀ fe'
  | call {fe fe' : Frontend M} {fuel source ok} : Reaches fe₀ fe →
      (∀ st, EngagedBy macros literalAt source fe st → ¬ st.RunsMacro) →
      (∀ st, EngagedBy macros literalAt source fe st → ¬ st.DeclaresInCondition) →
      compileSource macros literalAt fuel source fe = some (ok, fe') → Reaches fe₀ fe'

variable {macros literalAt}

/-- Without scopes the tree and the current leaf are all there is. -/
theorem ScopesStand.unopened {bs : List Block} {ops vars cur : Nat} {F : Footprint} {E : Path}
    {r : OpRange} (hforms : Forms bs F) (htiles : Tiles bs F ops ops)
    (howned : OwnsVars bs F firstVar vars) (hcount : firstVar ≤ vars) (hhere : (cur, E) ∈ F)
    (hclean : Clean E) (hleaf : bs[cur]? = some (.basic r)) (hend : r.start + r.len = ops) :
    ScopesStand firstVar bs ops vars [] cur E.length F ⟨[], 0, [], []⟩ E ops where
  forms := hforms
  opened := .nil
  clean := hclean
  here := by simpa using hhere
  depth := by simp
  capturing := by
    intro scope rest hscopes
    cases hscopes
  nodup := by simp
  waiting := List.forall_mem_nil _
  tiles := htiles
  owned := howned
  count := hcount
  reading := by
    intro scope rest hscopes
    cases hscopes
  writing _ := ⟨rfl, r, hleaf, hend⟩

theorem Startable.prepared (h : Startable firstVar fe) :
    ∃ fe' F, prepareFunc fe = (some (), fe') ∧ FootprintFits firstVar fe' F := by
  cases h with
  | empty hblocks hops hvars hscopes hdepth =>
      refine ⟨_, [(0, [])], by rw [prepareFunc, hblocks], ⟨[], 0, [], []⟩, [], 0, ?_⟩
      simp only [Frontend.setBlocks, hops, hscopes, hdepth, hvars, List.length_nil]
      refine .unopened ⟨.basic rfl, by simp [Footprint.indices]⟩ ⟨?_, ?_, ?_⟩ ⟨?_, ?_, ?_⟩
        (Nat.le_refl _) List.mem_cons_self (List.forall_mem_nil _) rfl rfl
      · intro e he r hr
        obtain rfl := List.mem_singleton.mp he
        cases hr
        exact Nat.le_refl _
      · intro k
        constructor
        · rintro ⟨e, he, hspans⟩
          obtain rfl := List.mem_singleton.mp he
          exact absurd hspans (not_spans_of_empty rfl rfl)
        · intro hk
          exact absurd hk (Nat.not_lt_zero k)
      · intro e he e' he' _ _ _
        rw [List.mem_singleton.mp he, List.mem_singleton.mp he']
      · intro e he v hv
        obtain rfl := List.mem_singleton.mp he
        cases hv
      · intro v hfirst hlt
        omega
      · intro e he v hv
        obtain rfl := List.mem_singleton.mp he
        intro w hw
        cases hw
  | @tree F E r hforms htiles howns hle hhere hclean hleaf hend hscopes hdepth =>
      have hF : FootprintFits firstVar fe F := by
        refine ⟨⟨[], 0, [], []⟩, E, fe.func.ops.length, ?_⟩
        rw [hscopes, hdepth]
        exact .unopened hforms htiles howns hle hhere hclean hleaf hend
      exact ⟨fe, F, hF.prepare, hF⟩

theorem begin_sameTree (source : Text) : SameTree fe (fe.begin source) :=
  ⟨rfl, rfl, rfl, rfl, rfl, rfl⟩

/-- The outer interpreter engages tokens that the invariant speaks about. -/
theorem interpret_advances {fuel : Nat} {ok : Bool}
    (hplain : ∀ st, Engages macros literalAt fe st → st.Plain)
    (h : interpret macros literalAt fuel fe = some (ok, fe')) : Advances firstVar fe fe' := by
  induction fuel generalizing fe with
  | zero => cases h
  | succ fuel ih =>
      rw [interpret] at h
      have hnext := nextToken_quiet fe
      rcases htoken : nextToken fe with ⟨_ | token, fe₁⟩
      · rw [htoken] at h hnext
        cases h
        exact hnext.advances
      rw [htoken] at h hnext
      have hsame : SameTree fe { fe₁ with currentToken := token } :=
        hnext.trans ⟨rfl, rfl, rfl, rfl, rfl, rfl⟩
      have hstep : Advances firstVar _ _ := engageToken_advances macros literalAt
        (hplain _ (.here htoken))
      simp only at h
      rcases hengage : engageToken macros literalAt { fe₁ with currentToken := token } with
        ⟨_ | _, fe₂⟩
      · rw [hengage] at h hstep
        cases h
        exact hsame.advances.trans hstep
      · rw [hengage] at h hstep
        refine (hsame.advances.trans hstep).trans (ih (fun st hst => hplain st ?_) h)
        exact .later htoken hengage hst

theorem conclude_advances (ok : Bool) : Advances firstVar fe (fe.conclude ok).2 := by
  rw [Frontend.conclude]
  cases ok with
  | false =>
      simp only [if_true]
      split
      · exact SameTree.advances ⟨rfl, rfl, rfl, rfl, rfl, rfl⟩
      · exact SameTree.advances ⟨rfl, rfl, rfl, rfl, rfl, rfl⟩
  | true =>
      have hsame : SameTree fe { fe with interpreterVm := {} } := ⟨rfl, rfl, rfl, rfl, rfl, rfl⟩
      have hfinish : Advances firstVar fe _ := hsame.advances.trans finishImplicit_advances.1
      simp only [reduceCtorEq, if_false]
      split
      · exact hfinish
      · exact hfinish.trans (SameTree.advances ⟨rfl, rfl, rfl, rfl, rfl, rfl⟩)

/-- Behind accepted source no scope is open. -/
theorem conclude_scopes {ok : Bool} (h : fe.conclude ok = (true, fe')) : fe'.scopes = [] := by
  rw [Frontend.conclude] at h
  cases ok with
  | false => simp at h
  | true =>
      simp only [reduceCtorEq, if_false] at h
      split at h
      · rename_i hscopes
        cases h
        exact hscopes
      · simp at h

/-- A call takes scopes that fit the tree to such scopes. -/
theorem compileSource_advances {F : Footprint} {fuel : Nat} {source : Text} {ok : Bool}
    {fe₁ : Frontend M} (hprepare : prepareFunc fe = (some (), fe₁)) (hF : FootprintFits firstVar fe₁ F)
    (hplain : ∀ st, EngagedBy macros literalAt source fe st → st.Plain)
    (h : compileSource macros literalAt fuel source fe = some (ok, fe')) :
    (∃ F', (∀ e ∈ F, e ∈ F') ∧ FootprintFits firstVar fe' F') ∧ (ok = true → fe'.scopes = []) := by
  rw [compileSource, hprepare] at h
  simp only [Option.map_eq_some_iff] at h
  obtain ⟨⟨ok', fe₂⟩, hinterpret, hconclude⟩ := h
  have hbegin : Advances firstVar fe₁ (fe₁.begin source) := (begin_sameTree source).advances
  have hrun : Advances firstVar (fe₁.begin source) fe₂ :=
    interpret_advances (fun st hst => hplain st ⟨fe₁, hprepare, hst⟩) hinterpret
  have hend : Advances firstVar fe₂ fe' := by
    have : Advances firstVar fe₂ _ := conclude_advances ok'
    rw [hconclude] at this
    exact this
  refine ⟨(((hbegin.trans hrun).trans hend) F hF).2, ?_⟩
  rintro rfl
  exact conclude_scopes hconclude

theorem SameTree.prepare {fe₁ : Frontend M} (hsame : SameTree fe fe')
    (h : prepareFunc fe = (some (), fe₁)) :
    ∃ fe₂, prepareFunc fe' = (some (), fe₂) ∧ SameTree fe₁ fe₂ := by
  rw [prepareFunc] at h
  rw [prepareFunc, hsame.blocks, hsame.currentBasic]
  split at h
  · rename_i hblocks
    cases h
    refine ⟨_, rfl, ?_⟩
    exact ⟨rfl, hsame.ops, hsame.vars, hsame.scopes, rfl, hsame.scopeDepth⟩
  · rename_i entry blocks hblocks
    rw [hblocks] at h ⊢
    split at h
    · rename_i r heq
      cases h
      exact ⟨fe', rfl, hsame⟩
    · rename_i heq
      cases h
      exact ⟨_, rfl, hsame.blocks, hsame.ops, hsame.vars, hsame.scopes, rfl, hsame.scopeDepth⟩
    · cases h

/-- Between the calls the function is the first one, or its scopes fit its tree. -/
theorem Reaches.prepared (hstart : Startable firstVar fe₀) (h : Reaches macros literalAt fe₀ fe) :
    ∃ fe₁ F, prepareFunc fe = (some (), fe₁) ∧ FootprintFits firstVar fe₁ F := by
  induction h with
  | start => exact hstart.prepared
  | edit _ hsame ih =>
      obtain ⟨fe₁, F, hprepare, hF⟩ := ih
      obtain ⟨fe₂, hprepare', hsame'⟩ := hsame.prepare hprepare
      exact ⟨fe₂, F, hprepare', hsame'.fits hF⟩
  | call _ hquick hvar hcall ih =>
      obtain ⟨fe₁, F, hprepare, hF⟩ := ih
      obtain ⟨⟨F', -, hF'⟩, -⟩ := compileSource_advances hprepare hF
        (fun st hst => Frontend.plain_of (hquick st hst) (hvar st hst)) hcall
      exact ⟨_, F', hF'.prepare, hF'⟩

/-- Accepted source gives a well-formed tree, unless a variable is declared in a condition. -/
theorem compileSource_wellFormed (hstart : Startable firstVar fe₀)
    (hreach : Reaches macros literalAt fe₀ fe) {fuel : Nat} {source : Text}
    (hquick : ∀ st, EngagedBy macros literalAt source fe st → ¬ st.RunsMacro)
    (hvar : ∀ st, EngagedBy macros literalAt source fe st → ¬ st.DeclaresInCondition)
    (h : compileSource macros literalAt fuel source fe = some (true, fe')) :
    fe'.func.WellFormed firstVar := by
  obtain ⟨fe₁, F, hprepare, hF⟩ := hreach.prepared hstart
  obtain ⟨⟨F', -, R, E, covered, hstands⟩, hscopes⟩ := compileSource_advances hprepare hF
    (fun st hst => Frontend.plain_of (hquick st hst) (hvar st hst)) h
  have hreading : ¬ Reading fe'.scopes := by
    rintro ⟨scope, rest, heq, -⟩
    rw [hscopes rfl] at heq
    cases heq
  obtain ⟨hcovered, -⟩ := hstands.writing hreading
  exact ⟨F', hstands.forms, hcovered ▸ hstands.tiles, hstands.owned⟩

end Calls

/-! ## The engaged states of a run -/

section Engaged

variable (macros : Nat → Frontend M → Option VmResult × Frontend M) (literalAt : Nat → UInt64)

/-- The states in which the outer interpreter engages a token, in their order -/
def engagedFrom : Nat → Frontend M → List (Frontend M)
  | 0, _ => []
  | fuel + 1, fe =>
      match nextToken fe with
      | (none, _) => []
      | (some token, fe) =>
          let st := { fe with currentToken := token }
          st :: match engageToken macros literalAt st with
            | (some (), fe) => engagedFrom fuel fe
            | (none, _) => []

/-- The same for a call of `frontend_compile_source` -/
def engagedOf (fuel : Nat) (source : Text) (fe : Frontend M) : List (Frontend M) :=
  engagedFrom macros literalAt fuel ((prepareFunc fe).2.begin source)

variable {macros literalAt} {st : Frontend M} {fuel : Nat}

theorem Engages.cases {fe₁ : Frontend M} {token : Token} (h : Engages macros literalAt fe st)
    (htoken : nextToken fe = (some token, fe₁)) :
    st = { fe₁ with currentToken := token } ∨ ∃ fe₂, engageToken macros literalAt
      { fe₁ with currentToken := token } = (some (), fe₂) ∧ Engages macros literalAt fe₂ st := by
  cases h with
  | here htoken' =>
      rw [htoken] at htoken'
      cases htoken'
      exact .inl rfl
  | later htoken' hengage hst =>
      rw [htoken] at htoken'
      cases htoken'
      exact .inr ⟨_, hengage, hst⟩

/-- Where the outer interpreter ends, the list has all of them. -/
theorem engages_iff_mem {r : Bool × Frontend M} (h : interpret macros literalAt fuel fe = some r) :
    Engages macros literalAt fe st ↔ st ∈ engagedFrom macros literalAt fuel fe := by
  induction fuel generalizing fe with
  | zero => cases h
  | succ fuel ih =>
      rw [interpret] at h
      rw [engagedFrom]
      rcases hnext : nextToken fe with ⟨_ | token, fe₁⟩
      · refine ⟨fun hst => ?_, nofun⟩
        cases hst with
        | here htoken => cases hnext.symm.trans htoken
        | later htoken => cases hnext.symm.trans htoken
      rw [hnext] at h
      dsimp only at h ⊢
      rcases hengage : engageToken macros literalAt { fe₁ with currentToken := token } with ⟨_ | _, fe₂⟩
      · rw [List.mem_singleton]
        constructor
        · intro hst
          rcases hst.cases hnext with rfl | ⟨fe₃, hengage', -⟩
          · rfl
          · cases hengage.symm.trans hengage'
        · rintro rfl
          exact .here hnext
      · rw [hengage] at h
        rw [List.mem_cons, ← ih h]
        constructor
        · intro hst
          rcases hst.cases hnext with rfl | ⟨fe₃, hengage', hst⟩
          · exact .inl rfl
          · cases hengage.symm.trans hengage'
            exact .inr hst
        · rintro (rfl | hst)
          · exact .here hnext
          · exact .later hnext hengage hst

theorem engagedBy_iff_mem {source : Text} {r : Bool × Frontend M} (hready : (prepareFunc fe).1 = some ())
    (h : compileSource macros literalAt fuel source fe = some r) :
    EngagedBy macros literalAt source fe st ↔ st ∈ engagedOf macros literalAt fuel source fe := by
  rcases hprepare : prepareFunc fe with ⟨_ | _, fe₁⟩
  · rw [hprepare] at hready
    cases hready
  rw [compileSource, hprepare] at h
  obtain ⟨r', hinterpret, -⟩ := Option.map_eq_some_iff.mp h
  rw [engagedOf, hprepare, ← engages_iff_mem hinterpret, EngagedBy, hprepare]
  constructor
  · rintro ⟨fe₂, heq, hst⟩
    cases heq
    exact hst
  · exact fun hst => ⟨fe₁, rfl, hst⟩

end Engaged

def WordKind.isMacro : WordKind → Bool
  | .immediate (.func _) => true
  | _ => false

theorem runsMacro_iff : fe.RunsMacro ↔ fe.currentWord.any WordKind.isMacro = true := by
  rw [Frontend.RunsMacro, Option.any_eq_true]
  constructor
  · rintro ⟨idx, hword⟩
    exact ⟨_, hword, rfl⟩
  · rintro ⟨kind, hword, hmacro⟩
    unfold WordKind.isMacro at hmacro
    split at hmacro
    · exact ⟨_, hword⟩
    · cases hmacro

instance (fe : Frontend M) : Decidable fe.RunsMacro :=
  decidable_of_iff _ runsMacro_iff.symm

instance (fe : Frontend M) : Decidable fe.DeclaresInCondition :=
  inferInstanceAs (Decidable (_ ∧ _))

/-! ## Samples -/

/-- A frontend with the core words, on an empty function -/
def emptyFrontend : Frontend Unit where
  ctx := some ⟨[], []⟩
  func := {
    sig := ⟨[], []⟩
    types := [⟨{ kind := .int }, some (utf8 "int")⟩, ⟨{ kind := .byte }, some (utf8 "byte")⟩]
    vars := [] }
  words := coreWords
  macroVm := ()

def noMacros : Nat → Frontend Unit → Option VmResult × Frontend Unit :=
  fun _ fe => (none, fe)

/-- A source for the empty function: what the results about accepted source ask for -/
structure Sample (fuel : Nat) (source : Text) (fe' : Frontend Unit) : Prop where
  compiled : compileSource noMacros (fun _ => 0) fuel source emptyFrontend = some (true, fe')
  engaged : ∀ st, EngagedBy noMacros (fun _ => 0) source emptyFrontend st ↔
    st ∈ engagedOf noMacros (fun _ => 0) fuel source emptyFrontend
  quick : ∀ st, EngagedBy noMacros (fun _ => 0) source emptyFrontend st → ¬ st.RunsMacro
  var : ∀ st, EngagedBy noMacros (fun _ => 0) source emptyFrontend st → ¬ st.DeclaresInCondition

theorem compiled_of_run (fuel : Nat) (source : Text) (leaves : Frontend Unit → Bool)
    (hrun : (compileSource noMacros (fun _ => 0) fuel source emptyFrontend).any
      (fun r => r.1 && leaves r.2) = true) :
    ∃ fe', compileSource noMacros (fun _ => 0) fuel source emptyFrontend = some (true, fe') ∧
      leaves fe' = true := by
  obtain ⟨⟨ok, fe'⟩, hcompile, hleaves⟩ := (Option.any_eq_true _ _).mp hrun
  obtain ⟨rfl, hleaves⟩ := (Bool.and_eq_true _ _).mp hleaves
  exact ⟨fe', hcompile, hleaves⟩

/-- The run says whether a source is a sample, and what it leaves. -/
theorem sample_of_run (fuel : Nat) (source : Text) (leaves : Frontend Unit → Bool)
    (hrun : (compileSource noMacros (fun _ => 0) fuel source emptyFrontend).any
      (fun r => r.1 && leaves r.2) = true)
    (hplain : ∀ st ∈ engagedOf noMacros (fun _ => 0) fuel source emptyFrontend,
      ¬ st.RunsMacro ∧ ¬ st.DeclaresInCondition) :
    ∃ fe', Sample fuel source fe' ∧ leaves fe' = true := by
  obtain ⟨fe', hcompile, hleaves⟩ := compiled_of_run fuel source leaves hrun
  have hengaged := fun st => @engagedBy_iff_mem _ _ _ _ st _ _ _ rfl hcompile
  exact ⟨fe', ⟨hcompile, hengaged, fun st hst => (hplain st ((hengaged st).mp hst)).1,
    fun st hst => (hplain st ((hengaged st).mp hst)).2⟩, hleaves⟩

def loopSource : Text :=
  utf8 "Var Int x Loop If (x 1 Sub) x x Add Break Else Start x x Mul Finally x 2 Assign End Done Again"

theorem compileSource_wellFormed_loop :
    ∃ fe', compileSource noMacros (fun _ => 0) 40 loopSource emptyFrontend = some (true, fe') ∧
      fe'.func.ops.length = 12 ∧ fe'.func.vars.length = 1 ∧ fe'.func.WellFormed 0 := by
  obtain ⟨fe', hsample, hleaves⟩ := sample_of_run 40 loopSource
    (fun fe => fe.func.ops.length = 12 ∧ fe.func.vars.length = 1) (by decide) (by decide)
  obtain ⟨hops, hvars⟩ := of_decide_eq_true hleaves
  exact ⟨fe', hsample.compiled, hops, hvars, compileSource_wellFormed
    (.empty rfl rfl rfl rfl rfl) .start hsample.quick hsample.var hsample.compiled⟩

/-- The blocks of `If(Var Int x)Done`.  Block 1 was the first arm, until `Var` put its own blocks
there. -/
def declaringBlocks : List Block :=
  [.many (some 3) (some 5), .many (some 0) (some 10), .basic ⟨0, 0⟩, .basic ⟨0, 0⟩, .branch ⟨0, 0⟩ 1 2,
    .chain (some 4) (some 7), .basic ⟨0, 0⟩, .chain (some 6) none,
    .basic ⟨0, 0⟩, .var 0 11, .chain (some 9) none, .basic ⟨0, 0⟩]

/-- The closing parenthesis overwrites a link of the block that `Var` made of the first arm: block 1
leads back to block 0. -/
theorem declaredInCondition_loops :
    ∃ fe', compileSource noMacros (fun _ => 0) 6 (utf8 "If(Var Int x)Done") emptyFrontend =
      some (true, fe') ∧ ¬ fe'.func.WellFormed 0 := by
  obtain ⟨fe', hcompile, hblocks⟩ := compiled_of_run 6 (utf8 "If(Var Int x)Done")
    (fun fe => fe.func.blocks = declaringBlocks) (by decide +kernel)
  refine ⟨fe', hcompile, ?_⟩
  rintro ⟨F, hforms, -, -⟩
  rw [of_decide_eq_true hblocks] at hforms
  -- down to block 1, which leads to block 0 again
  have howns := hforms.owns
  have hroot := howns.root_mem
  obtain ⟨F₁, rfl, hseq⟩ := howns.inv rfl
  cases hseq with
  | link _ hchain hseq =>
      cases hchain
      cases hseq with
      | link hbranch _ _ =>
          obtain ⟨F₂, F₃, rfl, hyes, -⟩ := hbranch.inv rfl
          obtain ⟨F₄, rfl, hseq⟩ := hyes.inv rfl
          cases hseq with
          | link hzero _ _ =>
              have hmem := hzero.root_mem
              have hagain := hforms.path_unique (i := 0) hroot (q := [(1, false), (0, false)])
                (by simp [hmem])
              cases hagain

end TreeVM
