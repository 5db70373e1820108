import TreeVM.Compile.Neutral
import TreeVM.Verify.BlockTyping
import TreeVM.Verify.CompilerTyping

/-!
# Functions that compile and functions that pass

The compiler does not look at code behind an end that is not reached, the first pass does.  The
first pass does not look at the scopes of locals and at the code of callees, the compiler does.

* `skipsNothing`: there is no code behind an end that is not reached;
* `compileBlock_typing`: blocks that are compiled follow the rules, where nothing is skipped;
* `compiled_firstPass`: what the first pass may still object to in functions that compile;
* `passed_blocks_compile`: what the compiler may still object to in functions that pass.
-/

namespace TreeVM

/-! ## The compiler -/

section Compiled

variable (env : CompileEnv)

/-- No child stands behind one whose end is not reached. -/
def childrenSkipNothing (block : Nat → Bool) (blockOutline : Nat → Outline) :
    Nat → Option Nat → Option Nat → Bool
  | _, none, _ => true
  | 0, some _, _ => true
  | fuel + 1, some child, link =>
      block child &&
        match link.bind (env.func.blocks[·]?) with
        | some (.chain cur next) =>
            (cur.isNone || (blockOutline child).reach = .reachable) &&
              childrenSkipNothing block blockOutline fuel cur next
        | _ => true

/-- `compile_block` comes to all parts of the block. -/
def skipsNothing : Nat → Nat → Bool
  | 0, _ => true
  | fuel + 1, idx =>
      match env.func.blocks[idx]? with
      | some (.many cur next) =>
          childrenSkipNothing env (skipsNothing fuel) (outline env fuel) fuel cur next
      | some (.crashPad body pad) => skipsNothing fuel body && skipsNothing fuel pad
      | some (.branch _ yes no) => skipsNothing fuel yes && skipsNothing fuel no
      | some (.loop body) => skipsNothing fuel body
      | some (.var _ body) => skipsNothing fuel body
      | _ => true

/-- Between blocks the compiler has an empty stack, and knows the types of the locals. -/
structure Between (c : Compiler) : Prop where
  params : c.params = []
  typed : c.Typed env
  live : LiveTyped env c

/-- Basic blocks keep to the operations of the function.  `compile_basic` reads their ranges without
looking. -/
def Func.RangesIn (f : Func) : Prop :=
  ∀ r, .basic r ∈ f.blocks → r.start + r.len ≤ f.ops.length

end Compiled

section Compiles

variable {env : CompileEnv} {fuel i : Nat} {c c' : Compiler} {r : Reach}

theorem LiveTyped.inherits (h : LiveTyped env c) (hinherits : Inherits c c') : LiveTyped env c' :=
  fun v x hx hlive => h v x (hinherits.live v x hx hlive) hlive

theorem Between.after (h : Between env c) (hcounts : env.func.CountsFit)
    (hc : compileBlock env fuel i c = .ok (r, c')) : Between env c' where
  params := (compileBlock_rests env fuel i c r c' hc).params hcounts h.params
  typed := (compileBlock_follows env fuel i c r c' h.typed hc).typed h.typed
  live := h.live.inherits (compileBlock_keeps h.typed hc).toInherits

theorem between_start (env : CompileEnv) (t : Table) : Between env (.start env.func t) := by
  refine ⟨rfl, Compiler.typed_start env t, fun v x hx hlive => ?_⟩
  exact absurd ⟨x, hx, hlive⟩ (@not_live_start env t v)

/-- The parts of a block are entered with an empty stack as well. -/
theorem Between.descends {p q : BlockCall} (h : Between env p.state)
    (hlaid : layoutAll env.func.types = some env.types) (hcounts : env.func.CountsFit)
    (hstep : Descends env p q) : Between env q.state := by
  refine ⟨hstep.params hcounts h.params, hstep.typed, ?_⟩
  rcases hstep.locals with hinherits | ⟨v, body, tid, ty, hdecl⟩
  · exact h.live.inherits hinherits
  · intro w x hx hlive
    rw [hdecl.state] at hx
    by_cases hw : v = w
    · subst hw
      have hin := (List.getElem?_eq_some_iff.mp hdecl.type).1
      have hset : (p.state.vars.set v ⟨tid, p.state.frameSize, true⟩)[v]? = some x := hx
      rw [List.getElem?_set_self' ] at hset
      obtain ⟨_, -, rfl⟩ := Option.map_eq_some_iff.mp hset
      rw [(entries_of_layoutAll hlaid).length_eq]
      exact hin
    · rw [enterVar_vars hw] at hx
      exact h.live w x hx hlive

theorem opsIn_eq {range : OpRange} {ops : List Op} (h : opsIn env range = some ops) :
    range.start + range.len ≤ env.func.ops.length ∧ ops = env.func.opsOf range := by
  rw [opsIn] at h
  split at h
  · rename_i hinside
    cases h
    exact ⟨hinside, rfl⟩
  · cases h

theorem rangeTyping_of_compileOps {range : OpRange}
    (hlaid : layoutAll env.func.types = some env.types) (h : Between env c)
    (hinside : range.start + range.len ≤ env.func.ops.length)
    (hc : compileOps env (env.func.opsOf range) c = .ok c') :
    RangeTyping env.ctx env.func range c'.params := by
  refine ⟨hinside, h.params ▸ compileOps_typing hlaid h.live h.typed ?_ hc⟩
  rw [h.params]
  exact fun _ hmem => absurd hmem List.not_mem_nil

theorem compileBasic_typing {range : OpRange} (hlaid : layoutAll env.func.types = some env.types)
    (h : Between env c) (hinside : range.start + range.len ≤ env.func.ops.length)
    (hc : compileBasic env c range = .ok (r, c')) : ∃ ts, RangeTyping env.ctx env.func range ts := by
  have hops : opsIn env range = some (env.func.opsOf range) := if_pos hinside
  simp only [compileBasic, hops] at hc
  obtain ⟨c₁, hcode, -⟩ := bind_eq_ok.mp hc
  exact ⟨c₁.params, rangeTyping_of_compileOps hlaid h hinside hcode⟩

theorem compileCond_typing {cond : OpRange} (hlaid : layoutAll env.func.types = some env.types)
    (h : Between env c) (hc : compileCond env c cond = .ok c') :
    RangeTyping env.ctx env.func cond [intId] := by
  simp only [compileCond, Compiler.fail] at hc
  split at hc
  · cases hc
  · rename_i ops hops
    obtain ⟨hinside, rfl⟩ := opsIn_eq hops
    obtain ⟨c₁, hcode, hc⟩ := bind_eq_ok.mp hc
    have hrange := rangeTyping_of_compileOps hlaid h hinside hcode
    obtain ⟨hone, -⟩ := ite_error_ok.mp hc
    rw [h.params] at hone
    have hparams : c₁.params = [intId] := by
      obtain ⟨hlen, hhead⟩ := not_or.mp hone
      cases hc₁ : c₁.params with
      | nil => simp [hc₁] at hlen
      | cons tid rest =>
          rw [hc₁] at hlen hhead
          have hrest : rest = [] := by simpa using hlen
          have htid : tid = intId := by simpa using hhead
          rw [hrest, htid]
    exact hparams ▸ hrange

/-- What `compileBlock_typing` says about the parts of a block -/
def TypesBlocks (env : CompileEnv) (fuel : Nat) : Prop :=
  ∀ i c r c', Between env c → skipsNothing env fuel i = true →
    compileBlock env fuel i c = .ok (r, c') → BlockTyping env.ctx env.func (.node i)

theorem compileChildren_typing {n : Nat} {cur next : Option Nat} (hcounts : env.func.CountsFit)
    (hblock : TypesBlocks env fuel) (h : Between env c)
    (hskip : childrenSkipNothing env (skipsNothing env fuel) (outline env fuel) n cur next = true)
    (hc : compileChildren env (compileBlock env fuel) n cur next .reachable c = .ok (r, c')) :
    BlockTyping env.ctx env.func (.seq cur next) := by
  induction n generalizing cur next c with
  | zero =>
      cases cur with
      | none => exact .stop
      | some child => cases hc
  | succ n ih =>
      cases cur with
      | none => exact .stop
      | some child =>
          obtain ⟨⟨r₁, c₁⟩, hchild, hc⟩ := bind_eq_ok.mp hc
          rw [childrenSkipNothing, Bool.and_eq_true] at hskip
          obtain ⟨hskipChild, hskip⟩ := hskip
          have hfirst := hblock child c r₁ c₁ h hskipChild hchild
          cases next with
          | none => exact .last hfirst
          | some l =>
              simp only [Compiler.fail] at hc
              split at hc
              · rename_i cur next hlink
                rw [Option.bind_some, hlink] at hskip
                obtain ⟨hreach, hskip⟩ := (Bool.and_eq_true _ _).mp hskip
                cases cur with
                | none => exact .link hfirst hlink .stop
                | some child' =>
                    have hr₁ := (compileBlock_follows env fuel child c r₁ c₁ h.typed hchild).reach
                    have hreached : (outline env fuel child).reach = .reachable := by
                      simpa using hreach
                    rw [hr₁, hreached] at hc
                    exact .link hfirst hlink (ih (h.after hcounts hchild) hskip hc)
              · cases hc

/-- The parts of a block are compiled from states in which the stack is empty. -/
theorem compileBlock_typing (hlaid : layoutAll env.func.types = some env.types)
    (hcounts : env.func.CountsFit) (hranges : env.func.RangesIn) (fuel : Nat) : TypesBlocks env fuel := by
  induction fuel with
  | zero =>
      intro i c r c' _ _ hc
      cases hc
  | succ fuel ih =>
      intro i c r c' h hskip hc
      have hpart : ∀ q : BlockCall, Enters env ⟨fuel + 1, i, c⟩ q → Between env q.state :=
        fun q hq => h.descends hlaid hcounts (hq.descends h.typed)
      rw [compileBlock] at hc
      rw [skipsNothing] at hskip
      cases hblock : env.func.blocks[i]? with
      | none =>
          rw [hblock] at hc
          cases hc
      | some b =>
          rw [hblock] at hc hskip
          cases b with
          | basic ops =>
              have hinside := hranges ops (List.mem_of_getElem? hblock)
              obtain ⟨ts, hrange⟩ := compileBasic_typing hlaid h hinside hc
              exact .basic hblock hrange
          | defer next cleanup => cases hc
          | many cur next =>
              obtain ⟨⟨r₁, c₁⟩, hinner, -⟩ := bind_eq_ok.mp hc
              have hopened : Between env (c.pushScope c.frameSize) := ⟨h.params, h.typed, h.live⟩
              exact .many hblock (compileChildren_typing hcounts ih hopened hskip hinner)
          | chain cur next => cases hc
          | crash => exact .crash hblock
          | hardCrash => exact .hardCrash hblock
          | crashPad body pad =>
              obtain ⟨hskipBody, hskipPad⟩ := (Bool.and_eq_true _ _).mp hskip
              simp only [compileCrashPad_eq] at hc
              obtain ⟨⟨bodyR, c₁⟩, hbody, hc⟩ := bind_eq_ok.mp hc
              obtain ⟨⟨endPatch, c₂⟩, hhandler, hc⟩ := bind_eq_ok.mp hc
              obtain ⟨⟨padR, c₃⟩, hpad, -⟩ := bind_eq_ok.mp hc
              exact .crashPad hblock (ih _ _ _ _ (hpart _ (.padBody hblock)) hskipBody hbody)
                (ih _ _ _ _ (hpart _ (.pad hblock hbody hhandler)) hskipPad hpad)
          | branch cond yes no =>
              obtain ⟨hskipYes, hskipNo⟩ := (Bool.and_eq_true _ _).mp hskip
              simp only [compileBranch_eq] at hc
              obtain ⟨arms, harms, -⟩ := bind_eq_ok.mp hc
              obtain ⟨noPatch, c₁, c₂, c₃, hyes, hfirst, -, hno, hsecond⟩ := compileArms_eq_ok harms
              obtain ⟨tested, hcond, -⟩ := bind_eq_ok.mp hyes
              have hint : intId < env.func.types.length := by
                obtain ⟨t, ht, -⟩ := Option.map_eq_some_iff.mp (kinds_of_layoutAll hlaid).1
                exact (List.getElem?_eq_some_iff.mp ht).1
              exact .branch hblock (compileCond_typing hlaid h hcond) hint
                (ih _ _ _ _ (hpart _ (.yes hblock hyes)) hskipYes hfirst)
                (ih _ _ _ _ (hpart _ (.no hblock hyes hfirst hno)) hskipNo hsecond)
          | loop body =>
              obtain ⟨⟨r₁, c₁⟩, hbody, -⟩ := bind_eq_ok.mp hc
              exact .loop hblock (ih _ _ _ _ (hpart _ (.loopBody hblock)) hskip hbody)
          | brk level => exact .brk hblock
          | var v body =>
              simp only [compileVar, Compiler.fail] at hc
              split at hc
              · cases hc
              · rename_i tid hvar
                split at hc
                · cases hc
                · rename_i t ht
                  obtain ⟨hsize, hc⟩ := ite_error_ok.mp hc
                  obtain ⟨c₁, hadd, hc⟩ := bind_eq_ok.mp hc
                  obtain ⟨⟨r₂, c₂⟩, hbody, -⟩ := bind_eq_ok.mp hc
                  have hentered := hpart _ (.varBody hblock hvar ht (Nat.le_of_not_lt hsize) hadd)
                  exact .var hblock (List.getElem?_eq_some_iff.mp hvar).1
                    (ih _ _ _ _ hentered hskip hbody)

end Compiles

/-! ## Functions that compile -/

section Congr

variable {env env' : CompileEnv}

theorem childrenSkipNothing_congr (hfunc : env.func = env'.func) (block : Nat → Bool)
    (blockOutline : Nat → Outline) (n : Nat) (cur next : Option Nat) :
    childrenSkipNothing env block blockOutline n cur next =
      childrenSkipNothing env' block blockOutline n cur next := by
  induction n generalizing cur next with
  | zero => cases cur <;> rfl
  | succ n ih =>
      cases cur with
      | none => rfl
      | some child => simp only [childrenSkipNothing, hfunc, ih]

theorem skipsNothing_congr (hfunc : env.func = env'.func) (htypes : env.types = env'.types)
    (n : Nat) : skipsNothing env n = skipsNothing env' n := by
  induction n with
  | zero => rfl
  | succ n ih =>
      funext i
      simp only [skipsNothing, ih, outline_congr hfunc htypes, childrenSkipNothing_congr hfunc, hfunc]

end Congr

section Compiled

variable {ctx : Context} {place : Nat → UInt64}

/-- A function that compiles follows the rules, unless code is skipped or a basic block reads behind
its operations. -/
theorem compileBody_wellTyped {callee : Nat → Table → Except Table Table} {fuel : Nat} {f : Func}
    {t : Table} {c : Compiler} (h : compileBody ctx place callee fuel f t = .ok c)
    (hcounts : f.CountsFit) (hranges : f.RangesIn) (hskip : skipsNothing f.alone fuel 0 = true) :
    f.WellTyped ctx := by
  intro _
  rw [compileBody] at h
  split at h
  · cases h
  · cases h
  · rename_i types hlaid _
    obtain ⟨⟨r, c₁⟩, hblock, -⟩ := bind_eq_ok.mp h
    let env : CompileEnv := ⟨f, types, ctx, place, callee⟩
    have htypes : types = (layoutAll f.types).getD [] := by
      rw [hlaid, Option.getD_some]
    have hsame : skipsNothing env fuel = skipsNothing f.alone fuel :=
      @skipsNothing_congr env f.alone rfl htypes fuel
    exact compileBlock_typing hlaid hcounts hranges fuel 0 _ r c₁ (between_start env t) (hsame ▸ hskip) hblock

/-- `type_check_first_pass` has only its rules for portals to object to functions that
`vm_compile_no_defers` accepts, unless they hold code that the compiler skips or basic blocks that
read behind the operations. -/
theorem compiled_firstPass (hcounts : ∀ f ∈ ctx.funcs, f.CountsFit) (hranges : ∀ f ∈ ctx.funcs, f.RangesIn)
    (hcompiled : ∀ f ∈ ctx.funcs, f.blocks ≠ [] → ∃ fuel t r,
      compileFunc ctx place (fuel + 1) f t = .ok r ∧ skipsNothing f.alone fuel 0 = true) :
    ∃ least, ∀ fuel, least ≤ fuel → ∀ c : Checker, c.Ok →
      (∃ d, firstPass ctx fuel c = .ok d) ∨
        ∃ e, firstPass ctx fuel c = .error (.typeError e) ∧
          (e.kind = .portalNonLocal ∨ e.kind = .portalBackingScope) := by
  have htyped : ∀ f ∈ ctx.funcs, f.WellTyped ctx := by
    intro f hf hblocks
    obtain ⟨fuel, t, r, hcode, hskip⟩ := hcompiled f hf hblocks
    obtain ⟨c, hbody, -⟩ := map_eq_ok.mp hcode
    exact compileBody_wellTyped hbody (hcounts f hf) (hranges f hf) hskip hblocks
  obtain ⟨least, hpass⟩ := firstPass_onlyPortals htyped
  refine ⟨least, fun fuel hfuel c hc => ?_⟩
  have hresult := hpass fuel hfuel c hc
  generalize firstPass ctx fuel c = r at hresult ⊢
  cases hresult with
  | ok _ => exact .inl ⟨_, rfl⟩
  | portal he => exact .inr ⟨_, rfl, he⟩

end Compiled

/-- Both functions of `sharedBacking` compile. -/
theorem compiled_firstPass_shared : ∃ least, ∀ fuel, least ≤ fuel → ∀ c : Checker, c.Ok →
    (∃ d, firstPass sharedBacking fuel c = .ok d) ∨
      ∃ e, firstPass sharedBacking fuel c = .error (.typeError e) ∧
        (e.kind = .portalNonLocal ∨ e.kind = .portalBackingScope) := by
  have hbasic : ∀ f ∈ sharedBacking.funcs, ∀ r, .basic r ∈ f.blocks →
      r.len < 2 ^ 32 ∧ r.start + r.len ≤ f.ops.length := by
    intro f hf r hr
    simp only [sharedBacking, List.mem_cons, List.not_mem_nil, or_false] at hf
    rcases hf with rfl | rfl
    · cases List.mem_singleton.mp hr
      decide
    · simp only [sharedCaller, List.mem_cons, List.not_mem_nil, reduceCtorEq, false_or, or_false] at hr
      cases hr
      decide
  refine @compiled_firstPass sharedBacking (fun _ => 0) (fun f hf r hr => (hbasic f hf r hr).1)
    (fun f hf r hr => (hbasic f hf r hr).2) ?_
  intro f hf _
  simp only [sharedBacking, List.mem_cons, List.not_mem_nil, or_false] at hf
  rcases hf with rfl | rfl
  · exact ⟨5, [], _, rfl, rfl⟩
  · exact ⟨5, [], _, rfl, rfl⟩

/-! ## Functions that pass -/

section Passed

variable {env : CompileEnv} {start fuel i : Nat} {t : Table} {c : Compiler}

theorem BlockTyping.many_inv {ctx : Context} {func : Func} {cur next : Option Nat}
    (h : BlockTyping ctx func (.node i)) (hblock : func.blocks[i]? = some (.many cur next)) :
    BlockTyping ctx func (.seq cur next) := by
  cases h <;> simp_all

theorem BlockTyping.basic_inv {ctx : Context} {func : Func} {r : OpRange}
    (h : BlockTyping ctx func (.node i)) (hblock : func.blocks[i]? = some (.basic r)) :
    ∃ ts, RangeTyping ctx func r ts := by
  cases h with
  | basic hblock' hrange =>
      rw [hblock] at hblock'
      cases hblock'
      exact ⟨_, hrange⟩
  | _ => simp_all

theorem BlockTyping.branch_inv {ctx : Context} {func : Func} {cond : OpRange} {yes no : Nat}
    (h : BlockTyping ctx func (.node i)) (hblock : func.blocks[i]? = some (.branch cond yes no)) :
    RangeTyping ctx func cond [intId] := by
  cases h <;> simp_all

theorem ChildAt.typing {block : Nat → Compiler → Except Table (Reach × Compiler)} {j : Nat}
    {cur next : Option Nat} {c' : Compiler} (h : ChildAt env block cur next c j c')
    (hseq : BlockTyping env.ctx env.func (.seq cur next)) :
    BlockTyping env.ctx env.func (.node j) := by
  induction h with
  | here =>
      cases hseq with
      | last hfirst => exact hfirst
      | link hfirst _ _ => exact hfirst
  | later _ hlink _ ih =>
      cases hseq with
      | link _ hlink' hrest =>
          rw [hlink] at hlink'
          cases hlink'
          exact ih hrest

/-- The blocks that the compiler comes to follow the rules. -/
theorem Visits.typing (h : Visits env start t fuel i c)
    (hroot : BlockTyping env.ctx env.func (.node 0)) : BlockTyping env.ctx env.func (.node i) := by
  induction h with
  | root => exact hroot
  | child _ hblock hchild ih => exact hchild.typing (ih.many_inv hblock)
  | varBody _ hblock _ _ _ _ ih => cases ih <;> simp_all
  | yes _ hblock _ ih => cases ih <;> simp_all
  | no _ hblock _ _ _ ih => cases ih <;> simp_all
  | loopBody _ hblock ih => cases ih <;> simp_all
  | padBody _ hblock ih => cases ih <;> simp_all
  | pad _ hblock _ _ ih => cases ih <;> simp_all

theorem Visits.between (h : Visits env start t fuel i c)
    (hlaid : layoutAll env.func.types = some env.types) (hcounts : env.func.CountsFit) :
    Between env c :=
  h.induct (P := fun p => Between env p.state) (between_start env t)
    fun _ _ hstep hp => hp.descends hlaid hcounts hstep

/-- What the compiler asks of operations beyond their types -/
structure Compilable (env : CompileEnv) (c : Compiler) (ops : List Op) : Prop where
  live : ∀ op ∈ ops, LivePush c op
  callees : ∀ op ∈ ops, CalleeCompiles env op

theorem RangeTyping.compiles {range : OpRange} {ts : List Nat}
    (h : RangeTyping env.ctx env.func range ts) (hlaid : layoutAll env.func.types = some env.types)
    (hnatives : NativesFit env.func) (hc : Between env c)
    (hops : Compilable env c (env.func.opsOf range)) :
    opsIn env range = some (env.func.opsOf range) ∧
      ∃ c', compileOps env (env.func.opsOf range) c = .ok c' ∧ c'.params = ts := by
  refine ⟨by rw [opsIn, if_pos h.inside, Func.opsOf], ?_⟩
  have hts : TypesIn env.func c.params := by
    rw [hc.params]
    exact fun _ hmem => absurd hmem List.not_mem_nil
  exact (hc.params ▸ h.ops).compiles hlaid hops.callees hnatives hops.live hc.typed hts

theorem compileBasic_accepts {range : OpRange} {ts : List Nat}
    (h : RangeTyping env.ctx env.func range ts) (hlaid : layoutAll env.func.types = some env.types)
    (hnatives : NativesFit env.func) (hc : Between env c)
    (hops : Compilable env c (env.func.opsOf range)) :
    ∃ c', compileBasic env c range = .ok (.reachable, c') := by
  obtain ⟨hin, c₁, hc₁, hparams⟩ := h.compiles hlaid hnatives hc hops
  have hroom : (UInt32.ofNat c₁.params.length).toNat ≤ c₁.params.length := by
    rw [UInt32.toNat_ofNat']
    exact Nat.mod_le _ _
  -- what is left on the stack is dropped
  obtain ⟨c₂, hc₂, -⟩ := @popTypes_accepts (c₁.emit (.dropN (UInt32.ofNat c₁.params.length))) _ hroom
  simp only [compileBasic, hin, hc.params, List.length_nil, hc₁, bind, Except.bind, Nat.sub_zero, hc₂]
  rw [if_neg (Nat.not_lt_zero _)]
  split
  · exact ⟨c₁, rfl⟩
  · exact ⟨c₂, rfl⟩

theorem compileCond_accepts {cond : OpRange}
    (h : RangeTyping env.ctx env.func cond [intId]) (hlaid : layoutAll env.func.types = some env.types)
    (hnatives : NativesFit env.func) (hc : Between env c)
    (hops : Compilable env c (env.func.opsOf cond)) :
    ∃ c', compileCond env c cond = .ok c' := by
  obtain ⟨hin, c₁, hc₁, hparams⟩ := h.compiles hlaid hnatives hc hops
  simp only [compileCond, hin, hc.params, List.length_nil, hc₁, hparams, bind, Except.bind]
  rw [if_neg (by simp)]
  exact ⟨c₁, rfl⟩

/-- Wherever the compiler comes to operations in functions that the first pass accepts, it accepts
them too, unless a local is out of scope or a callee does not compile. -/
theorem passed_blocks_compile {fuel' : Nat} {d d' : Checker} (hd : d.Ok)
    (hpass : firstPass env.ctx fuel' d = .ok d') (hfunc : env.func ∈ env.ctx.funcs)
    (hlaid : layoutAll env.func.types = some env.types) (hcounts : env.func.CountsFit)
    (hnatives : NativesFit env.func) (hvisit : Visits env start t fuel i c) :
    (∀ r, env.func.blocks[i]? = some (.basic r) → Compilable env c (env.func.opsOf r) →
      ∃ c', compileBasic env c r = .ok (.reachable, c')) ∧
    (∀ cond yes no, env.func.blocks[i]? = some (.branch cond yes no) →
      Compilable env c (env.func.opsOf cond) → ∃ c', compileCond env c cond = .ok c') := by
  have hbetween := hvisit.between hlaid hcounts
  have htyping : env.func.blocks ≠ [] → BlockTyping env.ctx env.func (.node i) :=
    fun hne => hvisit.typing (firstPass_wellTyped hd hpass env.func hfunc hne)
  have hne : ∀ b, env.func.blocks[i]? = some b → env.func.blocks ≠ [] :=
    fun b hb => List.ne_nil_of_mem (List.mem_of_getElem? hb)
  constructor
  · intro r hblock hops
    obtain ⟨ts, hrange⟩ := (htyping (hne _ hblock)).basic_inv hblock
    exact compileBasic_accepts hrange hlaid hnatives hbetween hops
  · intro cond yes no hblock hops
    have hrange := (htyping (hne _ hblock)).branch_inv hblock
    exact compileCond_accepts hrange hlaid hnatives hbetween hops

end Passed

/-- The body of `sharedCaller` is compiled with all three locals in scope. -/
theorem sharedEnv_visits : ∃ c, Visits sharedEnv 5 [] 2 3 c ∧
    c.vars.map VarLayout.live = [true, true, true] := by
  refine ⟨_, .varBody (.varBody (.varBody .root rfl rfl rfl ?_ rfl) rfl rfl rfl ?_ rfl) rfl rfl rfl ?_
    rfl, rfl⟩
  all_goals decide

theorem passed_blocks_compile_shared : ∃ c c', Visits sharedEnv 5 [] 2 3 c ∧
    compileBasic sharedEnv c ⟨0, 8⟩ = .ok (.reachable, c') := by
  obtain ⟨c, hvisit, hvars⟩ := sharedEnv_visits
  have hlaid : layoutAll sharedEnv.func.types = some sharedEnv.types := by decide
  have hcounts : sharedEnv.func.CountsFit := by
    intro r hr
    simp only [sharedEnv, sharedCaller, List.mem_cons, List.not_mem_nil, reduceCtorEq, false_or,
      or_false] at hr
    cases hr
    decide
  have hlive : ∀ op ∈ sharedCaller.ops, LivePush c op := by
    intro op hop hkind
    have hall : ∀ op ∈ sharedCaller.ops, op.kind = .pushVar →
        ([true, true, true] : List Bool)[op.extra.toNat]? = some true := by decide
    have hv := hall op hop hkind
    rw [← hvars, List.getElem?_map] at hv
    exact Option.map_eq_some_iff.mp hv
  obtain ⟨c', hc'⟩ := (passed_blocks_compile ok_empty sharedBacking_firstPass
    (List.mem_cons_of_mem _ List.mem_cons_self) hlaid hcounts sharedCaller_natives hvisit).1 ⟨0, 8⟩ rfl
    ⟨hlive, sharedEnv_callees⟩
  exact ⟨c, c', hvisit, hc'⟩

end TreeVM
