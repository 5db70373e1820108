import TreeVM.Compile.OpSound
import TreeVM.Compile.Plans
import Mathlib.Data.Fintype.EquivFin
import Mathlib.Logic.Relation
import Mathlib.Order.WellFounded

/-!
# Does the compiler come back?

`compile_context_func_code` fills the slot of a callee only when the callee has been compiled, so
a function that is reached from itself is compiled inside its own compilation.

* `Bottom`, `compileOr`: `vm_compile_no_defers`, cut off at a depth, with anything in the place of
  what is deeper;
* `Terminates`: from some depth on neither the depth nor the place holders matter;
* `compile_terminates_iff`: this is so if and only if the calls that the compiler follows do not
  lead to a function that leads back to itself.
-/

namespace TreeVM

/-! ## Cutting the recursion off -/

/-- What stands for the calls that are too deep. -/
structure Bottom (τ : Type := Table) where
  func : Func → τ → Except τ (Code × τ)
  block : Nat → Compiler τ → Except τ (Reach × Compiler τ)
  children : Option Nat → Option Nat → Reach → Compiler τ → Except τ (Reach × Compiler τ)

/-- `compileChildren`, cut off. -/
def compileChildrenOr {τ : Type} (b : Bottom τ) (env : CompileEnv τ)
    (block : Nat → Compiler τ → Except τ (Reach × Compiler τ)) :
    Nat → Option Nat → Option Nat → Reach → Compiler τ → Except τ (Reach × Compiler τ)
  | _, none, _, r, c => .ok (r, c)
  | 0, some child, link, r, c => b.children (some child) link r c
  | fuel + 1, some child, link, r, c => do
      let (r, c) ← if r = .reachable then block child c else pure (r, c)
      match link with
      | none => return (r, c)
      | some l =>
          match env.func.blocks[l]? with
          | some (.chain cur next) => compileChildrenOr b env block fuel cur next r c
          | _ => c.fail

/-- `compileBlock`, cut off. -/
def compileBlockOr {τ : Type} (b : Bottom τ) (env : CompileEnv τ) :
    Nat → Nat → Compiler τ → Except τ (Reach × Compiler τ)
  | 0, idx, c => b.block idx c
  | fuel + 1, idx, c =>
      match env.func.blocks[idx]? with
      | none => c.fail
      | some (.basic r) => compileBasic env c r
      | some (.many cur next) => do
          let (r, c) ← compileChildrenOr b env (compileBlockOr b env fuel) fuel cur next .reachable
            (c.pushScope c.frameSize)
          endScope r c
      | some (.chain _ _) => c.fail
      | some .crash => .ok (.unreachable, c.emit .crash)
      | some .hardCrash => .ok (.unreachable, c.emit .hardCrash)
      | some (.crashPad body pad) => compileCrashPad (compileBlockOr b env fuel) body pad c
      | some (.branch cond yes no) => compileBranch env (compileBlockOr b env fuel) cond yes no c
      | some (.loop body) => compileLoop (compileBlockOr b env fuel) body c
      | some (.brk level) => compileBreak c level
      | some (.var v body) => compileVar env (compileBlockOr b env fuel) v body c
      | some (.defer _ _) => c.fail

/-- `vm_compile_no_defers`, cut off: `blocks` bounds the recursion over blocks, the last number the
recursion over calls. -/
def compileOr (b : Bottom) (ctx : Context) (place : Nat → UInt64) (blocks : Nat) :
    Nat → Func → Table → Except Table (Code × Table)
  | 0, f, table => b.func f table
  | calls + 1, f, table =>
      match f.blocks, layoutAll f.types with
      | [], _ => .error table
      | _, none => .error table
      | _, some types => do
          let callee := contextFuncCode ctx (compileOr b ctx place blocks calls)
          let env : CompileEnv := ⟨f, types, ctx, place, callee⟩
          let c : Compiler := { vars := f.vars.map fun tid => { tid := tid }, table := table }
          let (_, c) ← compileBlockOr b env blocks 0 c
          let c ← finishFunc f c
          return c.result

/-- The compilation of `f` ends: from some depth on the result is the same, whatever stands for
deeper calls. -/
def Terminates (ctx : Context) (place : Nat → UInt64) (f : Func) (t : Table) : Prop :=
  ∃ n r, ∀ b blocks calls, n ≤ blocks → n ≤ calls → compileOr b ctx place blocks calls f t = r

/-! ## Blocks that form a finite graph -/

/-- The blocks that a block names.  Behind a missing child the list of children ends. -/
inductive Block.Names : Block → Nat → Prop
  | manyCur {cur : Nat} {next : Option Nat} : Names (.many (some cur) next) cur
  | manyNext {cur next : Nat} : Names (.many (some cur) (some next)) next
  | chainCur {cur : Nat} {next : Option Nat} : Names (.chain (some cur) next) cur
  | chainNext {cur next : Nat} : Names (.chain (some cur) (some next)) next
  | padBody {body pad : Nat} : Names (.crashPad body pad) body
  | pad {body pad : Nat} : Names (.crashPad body pad) pad
  | yes {cond : OpRange} {yes no : Nat} : Names (.branch cond yes no) yes
  | no {cond : OpRange} {yes no : Nat} : Names (.branch cond yes no) no
  | loop {body : Nat} : Names (.loop body) body
  | var {v body : Nat} : Names (.var v body) body
  | deferNext {next cleanup : Nat} : Names (.defer next cleanup) next
  | deferCleanup {next cleanup : Nat} : Names (.defer next cleanup) cleanup

/-- Block `j` stands right below block `i`. -/
def Below (blocks : List Block) (j i : Nat) : Prop :=
  ∃ b, blocks[i]? = some b ∧ b.Names j

/-- Every way down from block `0` ends, as it does in a finite tree. -/
def Func.FiniteBlocks (f : Func) : Prop :=
  Acc (Below f.blocks) 0

/-- Ends below a place: a block, or what is left of a list of children. -/
def EndsBelow (blocks : List Block) : Place → Prop
  | .node i => Acc (Below blocks) i
  | .seq cur next => ∀ j, cur = some j → Acc (Below blocks) j ∧
      ∀ l, next = some l → Acc (Below blocks) l

theorem acc_of_block {blocks : List Block} {i : Nat} {b : Block} (hi : blocks[i]? = some b)
    (h : ∀ j, b.Names j → Acc (Below blocks) j) : Acc (Below blocks) i := by
  refine .intro i ?_
  rintro j ⟨b', hb', hnames⟩
  cases hi.symm.trans hb'
  exact h j hnames

theorem endsBelow_of_represents {S : Nat → Prop} {blocks : List Block} {p : Place} {tree : Tree}
    (h : Represents S blocks p tree) : EndsBelow blocks p := by
  induction h with
  | basic _ hi | crash _ hi | hardCrash _ hi | brk _ hi =>
      exact acc_of_block hi fun j hj => by cases hj
  | defer _ hi _ _ ihn ihc =>
      refine acc_of_block hi fun j hj => ?_
      cases hj with
      | deferNext => exact ihn
      | deferCleanup => exact ihc
  | many _ hi _ ih =>
      refine acc_of_block hi fun j hj => ?_
      cases hj with
      | manyCur => exact (ih j rfl).1
      | manyNext => exact (ih _ rfl).2 j rfl
  | crashPad _ hi _ _ ihb ihp =>
      refine acc_of_block hi fun j hj => ?_
      cases hj with
      | padBody => exact ihb
      | pad => exact ihp
  | branch _ hi _ _ ihy ihn =>
      refine acc_of_block hi fun j hj => ?_
      cases hj with
      | yes => exact ihy
      | no => exact ihn
  | loop _ hi _ ih | var _ hi _ ih =>
      refine acc_of_block hi fun j hj => ?_
      cases hj
      exact ih
  | mark _ ih => exact ih
  | stop => exact fun j hj => by cases hj
  | last _ ih =>
      intro j hj
      cases hj
      exact ⟨ih, fun l hl => by cases hl⟩
  | link _ _ hl _ ihc ihs =>
      intro j hj
      cases hj
      refine ⟨ihc, fun l hl' => ?_⟩
      cases hl'
      refine acc_of_block hl fun j hj => ?_
      cases hj with
      | chainCur => exact (ihs j rfl).1
      | chainNext => exact (ihs _ rfl).2 j rfl

/-- A tree is finite. -/
theorem finiteBlocks_of_represents {S : Nat → Prop} {f : Func} {tree : Tree}
    (h : Represents S f.blocks (.node 0) tree) : f.FiniteBlocks :=
  endsBelow_of_represents h

/-- From depth `n` on the compilation of block `i` is settled. -/
def BlockSettled (blocks : List Block) (i n : Nat) : Prop :=
  ∀ (τ : Type) (b b' : Bottom τ) env fuel fuel' c, env.func.blocks = blocks → n ≤ fuel →
    n ≤ fuel' → compileBlockOr b env fuel i c = compileBlockOr b' env fuel' i c

def ChildrenSettled (blocks : List Block) (cur next : Option Nat) (n : Nat) : Prop :=
  ∀ (τ : Type) (b b' : Bottom τ) env block block' fuel fuel' r c, env.func.blocks = blocks →
    n ≤ block → n ≤ block' → n ≤ fuel → n ≤ fuel' →
    compileChildrenOr b env (compileBlockOr b env block) fuel cur next r c =
      compileChildrenOr b' env (compileBlockOr b' env block') fuel' cur next r c

section Settled

variable {blocks : List Block} {i n m : Nat}

theorem BlockSettled.mono (h : BlockSettled blocks i n) (hle : n ≤ m) : BlockSettled blocks i m :=
  fun τ b b' env fuel fuel' c henv hfuel hfuel' =>
    h τ b b' env fuel fuel' c henv (Nat.le_trans hle hfuel) (Nat.le_trans hle hfuel')

theorem ChildrenSettled.mono {cur next : Option Nat} (h : ChildrenSettled blocks cur next n)
    (hle : n ≤ m) : ChildrenSettled blocks cur next m :=
  fun τ b b' env block block' fuel fuel' r c henv hblock hblock' hfuel hfuel' =>
    h τ b b' env block block' fuel fuel' r c henv (Nat.le_trans hle hblock)
      (Nat.le_trans hle hblock') (Nat.le_trans hle hfuel) (Nat.le_trans hle hfuel')

/-- The children of a block, from what is known about the blocks it names. -/
theorem childrenSettled_of {cur next : Option Nat}
    (hcur : ∀ j, cur = some j → ∃ n, BlockSettled blocks j n)
    (hnext : ∀ j l, cur = some j → next = some l → ∀ cur' next',
      blocks[l]? = some (.chain cur' next') → ∃ n, ChildrenSettled blocks cur' next' n) : ∃ n, ChildrenSettled blocks cur next n := by
  cases cur with
  | none =>
      refine ⟨0, fun _ b b' env block block' fuel fuel' r c _ _ _ _ _ => ?_⟩
      rw [compileChildrenOr, compileChildrenOr]
  | some child =>
      obtain ⟨n₁, h₁⟩ := hcur child rfl
      obtain ⟨n₂, h₂⟩ : ∃ n, ∀ l, next = some l → ∀ cur' next',
          blocks[l]? = some (.chain cur' next') → ChildrenSettled blocks cur' next' n := by
        cases next with
        | none => exact ⟨0, fun l hl => by cases hl⟩
        | some l =>
            rcases hl : blocks[l]? with _ | (_ | _ | _ | ⟨cur', next'⟩ | _ | _ | _ | _ | _ | _ | _)
            case some.chain =>
              obtain ⟨n, hn⟩ := hnext child l rfl rfl cur' next' hl
              refine ⟨n, fun l' hl' cur'' next'' hchain => ?_⟩
              cases hl'
              rw [hl] at hchain
              cases hchain
              exact hn
            all_goals
              refine ⟨0, fun l' hl' cur'' next'' hchain => ?_⟩
              cases hl'
              rw [hl] at hchain
              cases hchain
      refine ⟨max n₁ n₂ + 1, fun τ b b' env block block' fuel fuel' r c henv hb hb' hf hf' => ?_⟩
      obtain ⟨fuel, rfl⟩ : ∃ k, fuel = k + 1 := ⟨fuel - 1, by omega⟩
      obtain ⟨fuel', rfl⟩ : ∃ k, fuel' = k + 1 := ⟨fuel' - 1, by omega⟩
      have hchild : compileBlockOr b env block child = compileBlockOr b' env block' child :=
        funext fun c => h₁ τ b b' env block block' c henv (by omega) (by omega)
      simp only [compileChildrenOr, ite_bind, hchild]
      congr 1
      funext a
      cases next with
      | none => rfl
      | some l =>
          simp only [henv]
          rcases hl : blocks[l]? with _ | (_ | _ | _ | ⟨cur', next'⟩ | _ | _ | _ | _ | _ | _ | _)
          case some.chain =>
            exact h₂ l rfl cur' next' hl τ b b' env block block' fuel fuel' a.1 a.2 henv (by omega)
              (by omega) (by omega) (by omega)
          all_goals rfl

theorem blockSettled_succ (h : ∀ (τ : Type) (b b' : Bottom τ) env fuel fuel' c, env.func.blocks = blocks → n ≤ fuel →
    n ≤ fuel' → compileBlockOr b env (fuel + 1) i c = compileBlockOr b' env (fuel' + 1) i c) :
    ∃ n, BlockSettled blocks i n := by
  refine ⟨n + 1, fun τ b b' env fuel fuel' c henv hfuel hfuel' => ?_⟩
  obtain ⟨fuel, rfl⟩ : ∃ k, fuel = k + 1 := ⟨fuel - 1, by omega⟩
  obtain ⟨fuel', rfl⟩ : ∃ k, fuel' = k + 1 := ⟨fuel' - 1, by omega⟩
  exact h τ b b' env fuel fuel' c henv (by omega) (by omega)

/-- A settled block is one function of the compiler. -/
theorem BlockSettled.apply {τ : Type} (h : BlockSettled blocks i n) (b b' : Bottom τ) (hle : n ≤ m)
    {env : CompileEnv τ} {fuel fuel' : Nat} (henv : env.func.blocks = blocks) (hfuel : m ≤ fuel)
    (hfuel' : m ≤ fuel') : compileBlockOr b env fuel i = compileBlockOr b' env fuel' i :=
  funext fun c => h τ b b' env fuel fuel' c henv (Nat.le_trans hle hfuel) (Nat.le_trans hle hfuel')

/-- By induction on the way down: one case per block. -/
theorem settled_of_acc (h : Acc (Below blocks) i) :
    (∃ n, BlockSettled blocks i n) ∧
      ∀ cur next, blocks[i]? = some (.chain cur next) → ∃ n, ChildrenSettled blocks cur next n := by
  induction h with
  | intro i _ ih =>
      have hchildren : ∀ b cur next, blocks[i]? = some b → (∀ j, cur = some j → b.Names j) →
          (∀ j l, cur = some j → next = some l → b.Names l) → ∃ n, ChildrenSettled blocks cur next n :=
        fun b cur next hi hcur hnext => childrenSettled_of
          (fun j hj => (ih j ⟨b, hi, hcur j hj⟩).1) fun j l hj hl => (ih l ⟨b, hi, hnext j l hj hl⟩).2
      constructor
      · cases hi : blocks[i]? with
        | none =>
            refine blockSettled_succ (n := 0) fun τ b b' env fuel fuel' c henv _ _ => ?_
            simp only [compileBlockOr, henv, hi]
        | some block =>
            have hbelow : ∀ j, block.Names j → ∃ n, BlockSettled blocks j n :=
              fun j hj => (ih j ⟨block, hi, hj⟩).1
            cases block with
            | many cur next =>
                obtain ⟨n, hn⟩ := hchildren _ cur next hi (fun j hj => hj ▸ .manyCur)
                  fun j l hj hl => hj ▸ hl ▸ .manyNext
                refine blockSettled_succ (n := n) fun τ b b' env fuel fuel' c henv hf hf' => ?_
                simp only [compileBlockOr, henv, hi]
                rw [hn τ b b' env fuel fuel' fuel fuel' _ _ henv hf hf' hf hf']
            | crashPad body pad =>
                obtain ⟨n, hbody⟩ := hbelow body .padBody
                obtain ⟨m, hpad⟩ := hbelow pad .pad
                refine blockSettled_succ (n := max n m) fun τ b b' env fuel fuel' c henv hf hf' => ?_
                simp only [compileBlockOr, henv, hi, compileCrashPad,
                  hbody.apply b b' (Nat.le_max_left n m) henv hf hf',
                  hpad.apply b b' (Nat.le_max_right n m) henv hf hf']
            | branch cond yes no =>
                obtain ⟨n, hyes⟩ := hbelow yes .yes
                obtain ⟨m, hno⟩ := hbelow no .no
                refine blockSettled_succ (n := max n m) fun τ b b' env fuel fuel' c henv hf hf' => ?_
                simp only [compileBlockOr, henv, hi, compileBranch,
                  hyes.apply b b' (Nat.le_max_left n m) henv hf hf',
                  hno.apply b b' (Nat.le_max_right n m) henv hf hf']
            | loop body =>
                obtain ⟨n, hbody⟩ := hbelow body .loop
                refine blockSettled_succ (n := n) fun τ b b' env fuel fuel' c henv hf hf' => ?_
                simp only [compileBlockOr, henv, hi, compileLoop,
                  hbody.apply b b' (Nat.le_refl n) henv hf hf']
            | var v body =>
                obtain ⟨n, hbody⟩ := hbelow body .var
                refine blockSettled_succ (n := n) fun τ b b' env fuel fuel' c henv hf hf' => ?_
                simp only [compileBlockOr, henv, hi, compileVar,
                  hbody.apply b b' (Nat.le_refl n) henv hf hf']
            | basic _ | chain _ _ | crash | hardCrash | brk _ | defer _ _ =>
                refine blockSettled_succ (n := 0) fun τ b b' env fuel fuel' c henv _ _ => ?_
                simp only [compileBlockOr, henv, hi]
      · intro cur next hi
        exact hchildren _ cur next hi (fun j hj => hj ▸ .chainCur) fun j l hj hl =>
          hj ▸ hl ▸ .chainNext

end Settled

/-- `compileBlock` is cut off by a rejection. -/
def Bottom.rejecting {τ : Type} : Bottom τ :=
  ⟨fun _ t => .error t, fun _ c => c.fail, fun _ _ _ c => c.fail⟩

theorem compileChildren_eq_or {τ : Type} (env : CompileEnv τ)
    (block : Nat → Compiler τ → Except τ (Reach × Compiler τ)) (fuel : Nat)
    (cur next : Option Nat) (r : Reach) (c : Compiler τ) : compileChildren env block fuel cur next r c =
      compileChildrenOr .rejecting env block fuel cur next r c := by
  induction fuel generalizing cur next r c with
  | zero => cases cur <;> rfl
  | succ fuel ih =>
      cases cur with
      | none => rfl
      | some child =>
          simp only [compileChildren, compileChildrenOr, ih]
          all_goals rfl

theorem compileBlock_eq_or {τ : Type} (env : CompileEnv τ) (fuel i : Nat) :
    compileBlock env fuel i = compileBlockOr .rejecting env fuel i := by
  funext c
  induction fuel generalizing i c with
  | zero => rfl
  | succ fuel ih =>
      have hblock : compileBlock env fuel = compileBlockOr .rejecting env fuel :=
        funext fun i => funext (ih i)
      simp only [compileBlock, compileBlockOr, compileMany, hblock, compileChildren_eq_or]
      all_goals rfl

/-- What a compilation with the plan `p` does, given the compilation of callees. -/
def Plan.carryOut (p : Plan) (ctx : Context)
    (compile : Func → Table → Except Table (Code × Table)) (t : Table) :
    Except Table (Code × Table) :=
  (askAll (contextFuncCode ctx compile) p.asks t >>= endPlan (overTable Table) p.ends).map
    Compiler.result

/-- `f` has the plan `p`, given enough depth. -/
def Func.Plans (f : Func) (ctx : Context) (place : Nat → UInt64) (p : Plan) : Prop :=
  ∃ n, ∀ m, n ≤ m → f.plan ctx place m = p

section Plans

variable {ctx : Context} {place : Nat → UInt64} {f : Func} {p p' : Plan} {n : Nat}

theorem Func.Plans.unique (h : f.Plans ctx place p) (h' : f.Plans ctx place p') : p = p' := by
  obtain ⟨n, hn⟩ := h
  obtain ⟨m, hm⟩ := h'
  rw [← hn (max n m) (Nat.le_max_left n m), hm (max n m) (Nat.le_max_right n m)]

/-- Behind the depth at which the blocks are settled, every compilation carries out one plan. -/
theorem carries_of_settled (h : BlockSettled f.blocks 0 n) {b : Bottom} {blocks calls : Nat}
    (hle : n ≤ blocks) {t : Table} : compileOr b ctx place blocks (calls + 1) f t =
      (f.plan ctx place n).carryOut ctx (compileOr b ctx place blocks calls) t := by
  rw [Plan.carryOut, ← compileBody_eq_plan]
  simp only [compileOr, compileBody]
  cases hblocks : f.blocks with
  | nil => rfl
  | cons first rest =>
      cases layoutAll f.types with
      | none => rfl
      | some types =>
          simp only
          rw [compileBlock_eq_or, h.apply b .rejecting (Nat.le_refl n) rfl hle (Nat.le_refl n)]
          cases compileBlockOr Bottom.rejecting _ n 0 _ with
          | error e => rfl
          | ok a =>
              simp only [bind, Except.bind]
              cases finishFunc f a.2 <;> rfl

theorem plan_eq_of_settled (h : BlockSettled f.blocks 0 n) {m : Nat} (hm : n ≤ m) :
    f.plan ctx place m = f.plan ctx place n := by
  simp only [Func.plan, compileBody]
  cases hblocks : f.blocks with
  | nil => rfl
  | cons first rest =>
      cases layoutAll f.types with
      | none => rfl
      | some types =>
          simp only
          rw [compileBlock_eq_or, compileBlock_eq_or,
            h.apply .rejecting .rejecting (Nat.le_refl n) rfl hm (Nat.le_refl n)]

theorem plan_of_settled (h : BlockSettled f.blocks 0 n) :
    f.Plans ctx place (f.plan ctx place n) :=
  ⟨n, fun _ hm => plan_eq_of_settled h hm⟩

/-- The same for `compileFunc`, which has one bound for both recursions. -/
theorem compileFunc_carries (h : BlockSettled f.blocks 0 n) {fuel : Nat} (hle : n ≤ fuel)
    {t : Table} : compileFunc ctx place (fuel + 1) f t =
      (f.plan ctx place n).carryOut ctx (compileFunc ctx place fuel) t := by
  rw [Plan.carryOut, ← plan_eq_of_settled h hle, ← compileBody_eq_plan]
  rfl

end Plans

/-! ## The calls that the compiler follows -/

section Calls

variable (ctx : Context) (place : Nat → UInt64) (t : Table)

/-- The functions that are accepted as callees, when the compilation starts with the table `t`. -/
inductive Compiles : Nat → Prop
  | cached {i : Nat} {f : Func} (hf : ctx.funcs[i]? = some f) (h : t.Has i) : Compiles i
  | compiled {i : Nat} {f : Func} {p : Plan} (hf : ctx.funcs[i]? = some f)
      (hp : f.Plans ctx place p) (hends : p.ends.isSome) (hasks : ∀ j ∈ p.asks, Compiles j) :
      Compiles i

/-- While `f` is compiled, the compiler gets to a call of `j` that is not compiled yet. -/
def Func.Follows (f : Func) (j : Nat) : Prop :=
  ∃ p pre post, f.Plans ctx place p ∧ p.asks = pre ++ j :: post ∧
    (∀ i ∈ pre, Compiles ctx place t i) ∧ ¬ t.Has j

def FollowsTo (i j : Nat) : Prop :=
  ∃ f, ctx.funcs[i]? = some f ∧ f.Follows ctx place t j

/-- Function `i` leads to a function that leads back to itself. -/
def Recursive (i : Nat) : Prop :=
  ∃ k, Relation.ReflTransGen (FollowsTo ctx place t) i k ∧ Relation.TransGen (FollowsTo ctx place t) k k

/-- The tables behind accepted callees. -/
structure Reached (t' : Table) : Prop where
  keeps : ∀ i, t.Has i → t'.Has i
  accepted : ∀ i f, ctx.funcs[i]? = some f → t'.Has i → Compiles ctx place t i

theorem Compiles.func {i : Nat} (h : Compiles ctx place t i) : ∃ f, ctx.funcs[i]? = some f := by
  cases h with
  | cached hf _ => exact ⟨_, hf⟩
  | compiled hf _ _ _ => exact ⟨_, hf⟩

/-- `compile` compiles the functions of `fs` as they are planned, through at least `n` calls. -/
def Deep (fs : List Func) : Nat → (Func → Table → Except Table (Code × Table)) → Prop
  | 0, _ => True
  | n + 1, compile => ∃ callee, Deep fs n callee ∧
      ∀ f ∈ fs, ∀ p, f.Plans ctx place p → ∀ t, compile f t = p.carryOut ctx callee t

/-- Asking for `j` needs at most `n` calls. -/
def AskSettled (fs : List Func) (j n : Nat) : Prop :=
  ∀ t', Reached ctx place t t' → ∃ r, (∀ compile, Deep ctx place fs n compile →
    contextFuncCode ctx compile j t' = r) ∧
      ∀ t'', r = .ok t'' → Reached ctx place t t'' ∧ Compiles ctx place t j

end Calls

section CallLemmas

variable {ctx : Context} {place : Nat → UInt64} {t t' : Table} {fs : List Func} {i j n m : Nat}
  {compile : Func → Table → Except Table (Code × Table)}

theorem Reached.start : Reached ctx place t t :=
  ⟨fun _ h => h, fun _ _ => .cached⟩

theorem has_ensureSlot : (ensureSlot t i).Has j ↔ t.Has j := by
  constructor
  · rintro ⟨code, hcode⟩
    rw [ensureSlot, List.getElem?_append] at hcode
    split at hcode
    · exact ⟨code, hcode⟩
    · rw [List.getElem?_replicate] at hcode
      split at hcode <;> cases hcode
  · rintro ⟨code, hcode⟩
    refine ⟨code, ?_⟩
    rw [ensureSlot, List.getElem?_append_left (List.getElem?_eq_some_iff.mp hcode).1]
    exact hcode

theorem Table.Has.set {code : Code} (h : t.Has j) : Table.Has (t.set i (some code)) j := by
  obtain ⟨c, hc⟩ := h
  rw [Table.Has, List.getElem?_set]
  by_cases hij : i = j
  · have hlt : i < t.length := hij ▸ (List.getElem?_eq_some_iff.mp hc).1
    exact ⟨code, by rw [if_pos hij, if_pos hlt]⟩
  · exact ⟨c, by rw [if_neg hij, hc]⟩

theorem Table.Has.of_set {code : Code} (h : Table.Has (t.set i (some code)) j) :
    j = i ∨ t.Has j := by
  obtain ⟨c, hc⟩ := h
  rw [List.getElem?_set] at hc
  by_cases hij : i = j
  · exact .inl hij.symm
  · rw [if_neg hij] at hc
    exact .inr ⟨c, hc⟩

theorem Reached.ensureSlot (h : Reached ctx place t t') (i : Nat) :
    Reached ctx place t (ensureSlot t' i) :=
  ⟨fun j hj => has_ensureSlot.mpr (h.keeps j hj), fun j f hf hj =>
    h.accepted j f hf (has_ensureSlot.mp hj)⟩

theorem Reached.set (h : Reached ctx place t t') (hi : Compiles ctx place t i) (code : Code) :
    Reached ctx place t (t'.set i (some code)) := by
  refine ⟨fun j hj => (h.keeps j hj).set, fun j f hf hj => ?_⟩
  rcases hj.of_set with rfl | hj
  · exact hi
  · exact h.accepted j f hf hj

/-- A cached callee is not compiled. -/
theorem contextFuncCode_has {f : Func} (hf : ctx.funcs[i]? = some f) (h : t.Has i) :
    contextFuncCode ctx compile i t = .ok (ensureSlot t i) := by
  obtain ⟨code, hcode⟩ : (ensureSlot t i).Has i := has_ensureSlot.mpr h
  simp only [contextFuncCode, hf, hcode]

theorem contextFuncCode_none (hf : ctx.funcs[i]? = none) :
    contextFuncCode ctx compile i t = .error t := by
  simp only [contextFuncCode, hf]

theorem contextFuncCode_compiles {f : Func} (hf : ctx.funcs[i]? = some f) (h : ¬ t.Has i) :
    contextFuncCode ctx compile i t =
      (compile f (ensureSlot t i) >>= fun r => pure (r.2.set i (some r.1))) := by
  have hnone : ∀ code, (ensureSlot t i)[i]? ≠ some (some code) :=
    fun code hcode => h (has_ensureSlot.mp ⟨code, hcode⟩)
  simp only [contextFuncCode, hf]

theorem Deep.mono (h : Deep ctx place fs m compile) (hle : n ≤ m) : Deep ctx place fs n compile := by
  induction n generalizing m compile with
  | zero => trivial
  | succ n ih =>
      obtain ⟨m, rfl⟩ : ∃ k, m = k + 1 := ⟨m - 1, by omega⟩
      obtain ⟨callee, hdeep, hcompile⟩ := h
      exact ⟨callee, ih hdeep (by omega), hcompile⟩

theorem AskSettled.mono (h : AskSettled ctx place t fs j n) (hle : n ≤ m) :
    AskSettled ctx place t fs j m := by
  intro t' ht'
  obtain ⟨r, hr, hok⟩ := h t' ht'
  exact ⟨r, fun compile hdeep => hr compile (hdeep.mono hle), hok⟩

theorem compileOr_deep (hsettled : ∀ f ∈ fs, BlockSettled f.blocks 0 n) {b : Bottom} {blocks : Nat}
    (hle : n ≤ blocks) (calls : Nat) :
    Deep ctx place fs calls (compileOr b ctx place blocks calls) := by
  induction calls with
  | zero => trivial
  | succ calls ih =>
      refine ⟨_, ih, fun f hf p hp t => ?_⟩
      rw [carries_of_settled (hsettled f hf) hle,
        (plan_of_settled (hsettled f hf)).unique hp]

theorem compileFunc_deep (hsettled : ∀ f ∈ fs, BlockSettled f.blocks 0 n) (calls : Nat) :
    Deep ctx place fs calls (compileFunc ctx place (n + calls)) := by
  induction calls with
  | zero => trivial
  | succ calls ih =>
      refine ⟨_, ih, fun f hf p hp t => ?_⟩
      rw [← (plan_of_settled (hsettled f hf)).unique hp]
      exact compileFunc_carries (hsettled f hf) (Nat.le_add_right n calls)

/-- The callee that is asked for next is cached, or the compiler follows the call. -/
theorem askSettled_next {f : Func} {p : Plan} {pre post : List Nat} (hp : f.Plans ctx place p)
    (hasks : p.asks = pre ++ j :: post) (hpre : ∀ i ∈ pre, Compiles ctx place t i)
    (hnext : ∀ j, f.Follows ctx place t j → ∃ n, AskSettled ctx place t fs j n) :
    ∃ n, AskSettled ctx place t fs j n := by
  by_cases hhas : t.Has j
  · refine ⟨0, fun t' ht' => ?_⟩
    cases hf : ctx.funcs[j]? with
    | none =>
        exact ⟨_, fun _ _ => contextFuncCode_none hf, fun t'' h => by cases h⟩
    | some f =>
        refine ⟨_, fun _ _ => contextFuncCode_has hf (ht'.keeps j hhas), fun t'' h => ?_⟩
        cases h
        exact ⟨ht'.ensureSlot j, .cached hf hhas⟩
  · exact hnext j ⟨p, pre, post, hp, hasks, hpre, hhas⟩

/-- The list of callees that is left to ask for, by induction on it. -/
theorem askAll_settled {f : Func} {p : Plan} (hp : f.Plans ctx place p)
    (hnext : ∀ j, f.Follows ctx place t j → ∃ n, AskSettled ctx place t fs j n)
    (pre rest : List Nat) (hasks : p.asks = pre ++ rest)
    (hpre : ∀ i ∈ pre, Compiles ctx place t i) :
    ∃ n, ∀ t', Reached ctx place t t' → ∃ r, (∀ compile, Deep ctx place fs n compile →
      askAll (contextFuncCode ctx compile) rest t' = r) ∧
        ∀ t'', r = .ok t'' → Reached ctx place t t'' ∧ ∀ i ∈ rest, Compiles ctx place t i := by
  induction rest generalizing pre with
  | nil =>
      refine ⟨0, fun t' ht' => ⟨.ok t', fun _ _ => rfl, fun t'' h => ?_⟩⟩
      cases h
      exact ⟨ht', fun i hi => by cases hi⟩
  | cons j rest ih =>
      obtain ⟨n, hj⟩ := askSettled_next hp hasks hpre hnext
      by_cases hcompiles : Compiles ctx place t j
      · have hpre' : ∀ i ∈ pre ++ [j], Compiles ctx place t i := by
          intro i hi
          rcases List.mem_append.mp hi with hi | hi
          · exact hpre i hi
          · exact List.mem_singleton.mp hi ▸ hcompiles
        obtain ⟨m, hrest⟩ := ih (pre ++ [j]) (by simpa using hasks) hpre'
        refine ⟨max n m, fun t' ht' => ?_⟩
        obtain ⟨r, hr, hok⟩ := hj t' ht'
        cases r with
        | error e =>
            refine ⟨.error e, fun compile hdeep => ?_, fun t'' h => by cases h⟩
            rw [askAll, hr compile (hdeep.mono (Nat.le_max_left n m))]
            rfl
        | ok t₁ =>
            obtain ⟨r', hr', hok'⟩ := hrest t₁ (hok t₁ rfl).1
            refine ⟨r', fun compile hdeep => ?_, fun t'' h => ⟨(hok' t'' h).1, fun i hi => ?_⟩⟩
            · rw [askAll, hr compile (hdeep.mono (Nat.le_max_left n m))]
              exact hr' compile (hdeep.mono (Nat.le_max_right n m))
            · rcases List.mem_cons.mp hi with rfl | hi
              · exact hcompiles
              · exact (hok' t'' h).2 i hi
      · -- the callee is rejected, and with it the caller
        refine ⟨n, fun t' ht' => ?_⟩
        obtain ⟨r, hr, hok⟩ := hj t' ht'
        cases r with
        | error e =>
            refine ⟨.error e, fun compile hdeep => ?_, fun t'' h => by cases h⟩
            rw [askAll, hr compile hdeep]
            rfl
        | ok t₁ => exact absurd (hok t₁ rfl).2 hcompiles

/-- The step of the induction over the calls. -/
theorem askSettled_of_next {f : Func} {p : Plan} (hf : ctx.funcs[j]? = some f) (hmem : f ∈ fs)
    (hp : f.Plans ctx place p)
    (hnext : ∀ i, f.Follows ctx place t i → ∃ n, AskSettled ctx place t fs i n) :
    ∃ n, AskSettled ctx place t fs j n := by
  obtain ⟨n, hasks⟩ := askAll_settled hp hnext [] p.asks rfl fun i hi => by cases hi
  refine ⟨n + 1, fun t' ht' => ?_⟩
  by_cases hhas : t'.Has j
  · refine ⟨_, fun _ _ => contextFuncCode_has hf hhas, fun t'' h => ?_⟩
    cases h
    exact ⟨ht'.ensureSlot j, ht'.accepted j f hf hhas⟩
  · obtain ⟨r, hr, hok⟩ := hasks _ (ht'.ensureSlot j)
    refine ⟨(r >>= endPlan (overTable Table) p.ends).map Compiler.result >>= fun r =>
      pure (r.2.set j (some r.1)), fun compile hdeep => ?_, fun t'' h => ?_⟩
    · obtain ⟨callee, hdeep, hcompile⟩ := hdeep
      rw [contextFuncCode_compiles hf hhas, hcompile f hmem p hp, Plan.carryOut, hr callee hdeep]
    · obtain ⟨⟨code, t₂⟩, hcompiled, h⟩ := bind_eq_ok.mp h
      obtain ⟨c, hcarried, hresult⟩ := map_eq_ok.mp hcompiled
      obtain ⟨t₁, hr₁, hends⟩ := bind_eq_ok.mp hcarried
      obtain ⟨hreached, hall⟩ := hok t₁ hr₁
      cases hp' : p.ends with
      | none =>
          rw [hp'] at hends
          cases hends
      | some c' =>
          rw [hp'] at hends
          cases hends
          cases hresult
          cases h
          have hj : Compiles ctx place t j := .compiled hf hp (by rw [hp']; rfl) hall
          exact ⟨hreached.set hj _, hj⟩

/-- A function that does not lead back to itself is settled, by induction along the calls. -/
theorem askSettled_of_not_recursive (hfs : ∀ f ∈ ctx.funcs, f ∈ fs)
    (hplans : ∀ f ∈ fs, ∃ p, f.Plans ctx place p) (h : ¬ Recursive ctx place t j) :
    ∃ n, AskSettled ctx place t fs j n := by
  let S := { i : Fin ctx.funcs.length // ¬ Recursive ctx place t i }
  let above : S → S → Prop := fun a b => Relation.TransGen (FollowsTo ctx place t) b.1 a.1
  have htrans : IsTrans S above := ⟨fun _ _ _ hab hbc => hbc.trans hab⟩
  have hirrefl : Std.Irrefl above := ⟨fun a ha => a.2 ⟨a.1, .refl, ha⟩⟩
  have hfinite : Finite S := Subtype.finite
  have hwf : WellFounded above := Finite.wellFounded_of_trans_of_irrefl above
  have hall : ∀ a : S, ∃ n, AskSettled ctx place t fs a.1 n := by
    intro a
    induction a using hwf.induction with
    | h a ih =>
        have hf : ctx.funcs[(a.1 : Nat)]? = some ctx.funcs[(a.1 : Nat)] :=
          List.getElem?_eq_getElem a.1.isLt
        have hmem := hfs _ (List.mem_of_getElem? hf)
        obtain ⟨p, hp⟩ := hplans _ hmem
        refine askSettled_of_next hf hmem hp fun i hi => ?_
        have hcall : FollowsTo ctx place t a.1 i := ⟨_, hf, hi⟩
        by_cases hlt : i < ctx.funcs.length
        · have hnot : ¬ Recursive ctx place t i := fun ⟨k, hik, hk⟩ => a.2 ⟨k, .head hcall hik, hk⟩
          exact ih ⟨⟨i, hlt⟩, hnot⟩ (.single hcall)
        · have hnone : ctx.funcs[i]? = none := List.getElem?_eq_none (Nat.le_of_not_lt hlt)
          exact ⟨0, fun t' _ => ⟨_, fun _ _ => contextFuncCode_none hnone, fun t'' h => by cases h⟩⟩
  by_cases hlt : j < ctx.funcs.length
  · exact hall ⟨⟨j, hlt⟩, h⟩
  · have hnone : ctx.funcs[j]? = none := List.getElem?_eq_none (Nat.le_of_not_lt hlt)
    exact ⟨0, fun t' _ => ⟨_, fun _ _ => contextFuncCode_none hnone, fun t'' h => by cases h⟩⟩

/-! ### Recursion -/

theorem Recursive.next (h : Recursive ctx place t i) :
    ∃ j, FollowsTo ctx place t i j ∧ Recursive ctx place t j := by
  obtain ⟨k, hik, hk⟩ := h
  rcases Relation.ReflTransGen.cases_head hik with rfl | ⟨j, hij, hjk⟩
  · obtain ⟨j, hij, hjk⟩ := Relation.TransGen.head'_iff.mp hk
    exact ⟨j, hij, i, hjk, hk⟩
  · exact ⟨j, hij, k, hjk, hk⟩

/-- What is accepted without being cached has a finite derivation, so it does not lead back. -/
theorem Compiles.not_recursive (h : Compiles ctx place t i) (hnew : ¬ t.Has i) :
    ¬ Recursive ctx place t i := by
  induction h with
  | cached _ h => exact absurd h hnew
  | compiled hf hp _ _ ih =>
      intro hrec
      obtain ⟨j, ⟨f', hf', p', pre, post, hp', hasks, -, hj⟩, hrec⟩ := hrec.next
      cases hf.symm.trans hf'
      cases hp.unique hp'
      exact ih j (by simp [hasks]) hj hrec

/-- `marker` stands for what is too deep, and comes out as it is. -/
def Cut (marker : Table) (compile : Nat → Func → Table → Except Table (Code × Table))
    (ctx : Context) (place : Nat → UInt64) (fs : List Func) : Prop :=
  (∀ f t, compile 0 f t = .error marker) ∧
    ∀ n, ∀ f ∈ fs, ∀ p, f.Plans ctx place p → ∀ t,
      compile (n + 1) f t = p.carryOut ctx (compile n) t

section Cut

variable {marker : Table} {compile : Nat → Func → Table → Except Table (Code × Table)}
  {is : List Nat}

theorem askAll_cut (hask : ∀ i ∈ is, ∀ t', Reached ctx place t t' →
      contextFuncCode ctx (compile n) i t' = .error marker ∨
        ∃ t'', contextFuncCode ctx (compile n) i t' = .ok t'' ∧ Reached ctx place t t'')
    (ht' : Reached ctx place t t') :
    askAll (contextFuncCode ctx (compile n)) is t' = .error marker ∨
      ∃ t'', askAll (contextFuncCode ctx (compile n)) is t' = .ok t'' ∧ Reached ctx place t t'' := by
  induction is generalizing t' with
  | nil => exact .inr ⟨t', rfl, ht'⟩
  | cons i is ih =>
      rcases hask i List.mem_cons_self t' ht' with herror | ⟨t₁, hok, ht₁⟩
      · refine .inl ?_
        rw [askAll, herror]
        rfl
      · rw [askAll, hok]
        exact ih (fun i hi => hask i (List.mem_cons_of_mem _ hi)) ht₁

/-- A callee that is accepted is compiled, unless the cut is in the way. -/
theorem Compiles.ask (hcut : Cut marker compile ctx place fs) (hfs : ∀ f ∈ ctx.funcs, f ∈ fs)
    (h : Compiles ctx place t i) (n : Nat) : ∀ t', Reached ctx place t t' →
      contextFuncCode ctx (compile n) i t' = .error marker ∨
        ∃ t'', contextFuncCode ctx (compile n) i t' = .ok t'' ∧ Reached ctx place t t'' := by
  induction n generalizing i with
  | zero =>
      intro t' ht'
      obtain ⟨f, hf⟩ := h.func
      by_cases hhas : t'.Has i
      · exact .inr ⟨_, contextFuncCode_has hf hhas, ht'.ensureSlot i⟩
      · refine .inl ?_
        rw [contextFuncCode_compiles hf hhas, hcut.1]
        rfl
  | succ n ih =>
      intro t' ht'
      obtain ⟨f, hf⟩ := h.func
      by_cases hhas : t'.Has i
      · exact .inr ⟨_, contextFuncCode_has hf hhas, ht'.ensureSlot i⟩
      cases h with
      | cached hf' h => exact absurd (ht'.keeps i h) hhas
      | @compiled _ g p hg hp hends hasks =>
          rw [contextFuncCode_compiles hg hhas, hcut.2 n g (hfs g (List.mem_of_getElem? hg)) p hp,
            Plan.carryOut]
          rcases askAll_cut (fun j hj => ih (hasks j hj)) (ht'.ensureSlot i) with herror | ⟨t₁, hok, ht₁⟩
          · refine .inl ?_
            rw [herror]
            rfl
          · obtain ⟨c, hc⟩ := Option.isSome_iff_exists.mp hends
            refine .inr ⟨t₁.set i (some c.code), ?_, ht₁.set (.compiled hg hp hends hasks) _⟩
            rw [hok, hc]
            rfl

/-- A function from which the compiler follows a call into a recursion does not get behind any
cut. -/
theorem compile_recursive (hcut : Cut marker compile ctx place fs)
    (hfs : ∀ f ∈ ctx.funcs, f ∈ fs) {f : Func} (hf : f ∈ fs) (hcall : f.Follows ctx place t j)
    (hrec : Recursive ctx place t j) (ht' : Reached ctx place t t') (n : Nat) :
    compile n f t' = .error marker := by
  induction n generalizing f j t' with
  | zero => exact hcut.1 f t'
  | succ n ih =>
      obtain ⟨p, pre, post, hp, hasks, hpre, hnew⟩ := hcall
      rw [hcut.2 n f hf p hp, Plan.carryOut, hasks, askAll_append]
      rcases askAll_cut (fun i hi => (hpre i hi).ask hcut hfs n) ht' with herror | ⟨t₁, hok, ht₁⟩
      · rw [herror]
        rfl
      · obtain ⟨k, ⟨g, hg, hnext⟩, hk⟩ := hrec.next
        have hhas : ¬ t₁.Has j := fun hhas => (ht₁.accepted j g hg hhas).not_recursive hnew hrec
        have hinner := ih (hfs g (List.mem_of_getElem? hg)) hnext hk (ht₁.ensureSlot j)
        have hask : contextFuncCode ctx (compile n) j t₁ = .error marker := by
          rw [contextFuncCode_compiles hg hhas, hinner]
          rfl
        rw [hok]
        change ((askAll (contextFuncCode ctx (compile n)) (j :: post) t₁ >>= _).map _) = _
        rw [askAll, hask]
        rfl

end Cut

end CallLemmas

/-! ## Termination -/

section Termination

variable {ctx : Context} {place : Nat → UInt64} {f : Func} {t : Table}

theorem Func.FiniteBlocks.settled {fs : List Func} (h : ∀ f ∈ fs, f.FiniteBlocks) :
    ∃ n, ∀ f ∈ fs, BlockSettled f.blocks 0 n := by
  induction fs with
  | nil => exact ⟨0, fun f hf => by cases hf⟩
  | cons f fs ih =>
      obtain ⟨n, hn⟩ := ih fun f hf => h f (List.mem_cons_of_mem _ hf)
      obtain ⟨m, hm⟩ := (settled_of_acc (h f List.mem_cons_self)).1
      refine ⟨max n m, fun g hg => ?_⟩
      rcases List.mem_cons.mp hg with rfl | hg
      · exact hm.mono (Nat.le_max_right n m)
      · exact (hn g hg).mono (Nat.le_max_left n m)

theorem finiteBlocks_cons (hf : f.FiniteBlocks) (hctx : ∀ g ∈ ctx.funcs, g.FiniteBlocks) :
    ∀ g ∈ f :: ctx.funcs, g.FiniteBlocks := by
  intro g hg
  rcases List.mem_cons.mp hg with rfl | hg
  · exact hf
  · exact hctx g hg

/-- Where no call leads into a recursion, everything that is deep enough gives one result. -/
theorem compile_settled {fs : List Func} (hctx : ∀ g ∈ ctx.funcs, g ∈ fs) (hf : f ∈ fs)
    (hplans : ∀ g ∈ fs, ∃ p, g.Plans ctx place p)
    (hnot : ∀ j, f.Follows ctx place t j → ¬ Recursive ctx place t j) :
    ∃ n r, ∀ compile, Deep ctx place fs n compile → compile f t = r := by
  obtain ⟨p, hp⟩ := hplans f hf
  have hnext : ∀ j, f.Follows ctx place t j → ∃ n, AskSettled ctx place t fs j n :=
    fun j hj => askSettled_of_not_recursive hctx hplans (hnot j hj)
  obtain ⟨n, hasks⟩ := askAll_settled hp hnext [] p.asks rfl fun i hi => by cases hi
  obtain ⟨r, hr, -⟩ := hasks t .start
  refine ⟨n + 1, (r >>= endPlan (overTable Table) p.ends).map Compiler.result, ?_⟩
  rintro compile ⟨callee, hdeep, hcompile⟩
  rw [hcompile f hf p hp t, Plan.carryOut, hr callee hdeep]

/-- There the bound of `compileFunc` does not matter either. -/
theorem compileFunc_eq_compileOr (hf : f.FiniteBlocks) (hctx : ∀ g ∈ ctx.funcs, g.FiniteBlocks)
    (hnot : ∀ j, f.Follows ctx place t j → ¬ Recursive ctx place t j) :
    ∃ n, ∀ b fuel blocks calls, n ≤ fuel → n ≤ blocks → n ≤ calls →
      compileFunc ctx place fuel f t = compileOr b ctx place blocks calls f t := by
  obtain ⟨n, hsettled⟩ := Func.FiniteBlocks.settled (finiteBlocks_cons hf hctx)
  obtain ⟨m, r, hr⟩ := compile_settled (fun g hg => List.mem_cons_of_mem f hg) List.mem_cons_self
    (fun g hg => ⟨_, plan_of_settled (hsettled g hg)⟩) hnot
  refine ⟨n + m, fun b fuel blocks calls hfuel hblocks hcalls => ?_⟩
  obtain ⟨k, rfl⟩ : ∃ k, fuel = n + k := ⟨fuel - n, by omega⟩
  rw [hr _ ((compileFunc_deep hsettled k).mono (by omega)),
    hr _ ((compileOr_deep hsettled (by omega : n ≤ blocks) calls).mono (by omega))]

/-- A compilation that gets to a recursion does not come back. -/
theorem Terminates.not_recursive (h : Terminates ctx place f t) (hf : f.FiniteBlocks)
    (hctx : ∀ g ∈ ctx.funcs, g.FiniteBlocks) {j : Nat} (hcall : f.Follows ctx place t j) :
    ¬ Recursive ctx place t j := by
  intro hrec
  obtain ⟨m, r, hr⟩ := h
  obtain ⟨n, hsettled⟩ := Func.FiniteBlocks.settled (finiteBlocks_cons hf hctx)
  -- with a marker in the place of everything too deep, the marker comes out
  have hmarked : ∀ marker, r = .error marker := by
    intro marker
    let b : Bottom := ⟨fun _ _ => .error marker, fun _ c => c.fail, fun _ _ _ c => c.fail⟩
    have hcut : Cut marker (compileOr b ctx place (max m n)) ctx place (f :: ctx.funcs) := by
      refine ⟨fun _ _ => rfl, fun k g hg p hp t => ?_⟩
      rw [carries_of_settled (hsettled g hg) (Nat.le_max_right m n),
        (plan_of_settled (hsettled g hg)).unique hp]
    rw [← hr b (max m n) m (Nat.le_max_left m n) (Nat.le_refl m)]
    exact compile_recursive hcut (fun g hg => List.mem_cons_of_mem _ hg) List.mem_cons_self hcall
      hrec .start m
  have hsame := (hmarked []).symm.trans (hmarked [none])
  cases hsame

/-- The compiler comes back, if and only if no call that it follows leads to a function that leads
back to itself. -/
theorem compile_terminates_iff (hf : f.FiniteBlocks) (hctx : ∀ g ∈ ctx.funcs, g.FiniteBlocks) :
    Terminates ctx place f t ↔
      ∀ j, f.Follows ctx place t j → ¬ Recursive ctx place t j := by
  refine ⟨fun h j hcall => h.not_recursive hf hctx hcall, fun hnot => ?_⟩
  obtain ⟨n, hsettled⟩ := Func.FiniteBlocks.settled (finiteBlocks_cons hf hctx)
  obtain ⟨m, r, hr⟩ := compile_settled (fun g hg => List.mem_cons_of_mem f hg) List.mem_cons_self
    (fun g hg => ⟨_, plan_of_settled (hsettled g hg)⟩) hnot
  refine ⟨max n m, r, fun b blocks calls hblocks hcalls => hr _ ?_⟩
  have hdeep : Deep ctx place (f :: ctx.funcs) calls (compileOr b ctx place blocks calls) :=
    compileOr_deep hsettled (Nat.le_trans (Nat.le_max_left n m) hblocks) calls
  exact hdeep.mono (Nat.le_trans (Nat.le_max_right n m) hcalls)

end Termination

/-- A function that calls function `0` of the context. -/
def callsFirst : Func :=
  ⟨⟨[], []⟩, [{ kind := .int }, { kind := .byte }], [.basic ⟨0, 1⟩], [⟨.call, 0⟩], []⟩

def callsNothing : Func :=
  ⟨⟨[], []⟩, [{ kind := .int }, { kind := .byte }], [.basic ⟨0, 0⟩], [], []⟩

theorem settled_single {f : Func} {r : OpRange} (h : f.blocks = [.basic r]) :
    f.FiniteBlocks ∧ BlockSettled f.blocks 0 1 := by
  have hfirst : f.blocks[0]? = some (.basic r) := by
    rw [h]
    rfl
  refine ⟨acc_of_block hfirst fun j hj => (by cases hj), ?_⟩
  intro τ b b' env fuel fuel' c henv hfuel hfuel'
  obtain ⟨fuel, rfl⟩ : ∃ k, fuel = k + 1 := ⟨fuel - 1, by omega⟩
  obtain ⟨fuel', rfl⟩ : ∃ k, fuel' = k + 1 := ⟨fuel' - 1, by omega⟩
  simp only [compileBlockOr, henv, hfirst]

/-- A function that calls itself is never compiled. -/
theorem callsFirst_endless : ¬ ∀ (ctx : Context) (place : Nat → UInt64) (f : Func) (t : Table),
    ctx.funcs.length < 65536 → f.vars.length < 65536 → f.FiniteBlocks →
      (∀ g ∈ ctx.funcs, g.FiniteBlocks) → Terminates ctx place f t := by
  intro hall
  obtain ⟨hfinite, hsettled⟩ := settled_single (f := callsFirst) rfl
  have hctx : ∀ g ∈ [callsFirst], g.FiniteBlocks := fun g hg => List.mem_singleton.mp hg ▸ hfinite
  have hends := hall ⟨[callsFirst], []⟩ (fun _ => 0) callsFirst [] (by decide) (by decide) hfinite hctx
  have hasks : (callsFirst.plan ⟨[callsFirst], []⟩ (fun _ => 0) 1).asks = [] ++ 0 :: [] := by
    decide
  have hcall : callsFirst.Follows ⟨[callsFirst], []⟩ (fun _ => 0) [] 0 :=
    ⟨_, [], [], plan_of_settled hsettled, hasks, fun i hi => (by cases hi), fun ⟨_, h⟩ => by cases h⟩
  exact hends.not_recursive hfinite hctx hcall ⟨0, .refl, .single ⟨callsFirst, rfl, hcall⟩⟩

/-- One call of a function without calls. -/
theorem compile_terminates_iff_callsFirst :
    Terminates ⟨[callsNothing], []⟩ (fun _ => 0) callsFirst [] := by
  obtain ⟨hfinite, hsettled⟩ := settled_single (f := callsFirst) rfl
  obtain ⟨hfinite', hsettled'⟩ := settled_single (f := callsNothing) rfl
  have hctx : ∀ g ∈ [callsNothing], g.FiniteBlocks := fun g hg =>
    List.mem_singleton.mp hg ▸ hfinite'
  refine (compile_terminates_iff hfinite hctx).mpr ?_
  have hasks : (callsFirst.plan ⟨[callsNothing], []⟩ (fun _ => 0) 1).asks = [0] := by
    decide
  have hnone : (callsNothing.plan ⟨[callsNothing], []⟩ (fun _ => 0) 1).asks = [] := by
    decide
  rintro j ⟨p, pre, post, hp, hpasks, -, -⟩ hrec
  rw [← (plan_of_settled hsettled).unique hp, hasks] at hpasks
  obtain rfl : j = 0 := List.mem_singleton.mp (hpasks ▸ by simp)
  obtain ⟨k, ⟨g, hg, p', pre', post', hp', hpasks', -, -⟩, -⟩ := hrec.next
  cases hg
  rw [← (plan_of_settled hsettled').unique hp', hnone] at hpasks'
  simp at hpasks'

end TreeVM
