import TreeVM.IR.Tree
import TreeVM.Verify.CallSites
import TreeVM.Verify.Typing

/-!
# Typing rules for blocks

The stack of types is empty between blocks, so that a rule only says which operations a block has.

* `BlockTyping`: the rules; `Func.WellTyped`: the body of a function follows them;
* `BlockTyping.scans`, `firstPass_onlyPortals`: `type_check_first_pass` has nothing but its rules
  for portals to object to functions that follow the rules;
* `scanBlock_typing`, `firstPass_wellTyped`: what it accepts follows the rules.
-/

namespace TreeVM

section Rules

variable (ctx : Context) (func : Func)

/-- The operations of a range -/
def Func.opsOf (func : Func) (r : OpRange) : List Op :=
  (func.ops.drop r.start).take r.len

/-- The range lies in the array of operations, which lead from the empty stack to these types. -/
structure RangeTyping (r : OpRange) (ts : List Nat) : Prop where
  inside : r.start + r.len ≤ func.ops.length
  ops : OpsTyping ctx func (func.opsOf r) [] ts

inductive BlockTyping : Place → Prop
  | basic {i r ts} : func.blocks[i]? = some (.basic r) → RangeTyping ctx func r ts →
      BlockTyping (.node i)
  | many {i cur next} : func.blocks[i]? = some (.many cur next) → BlockTyping (.seq cur next) →
      BlockTyping (.node i)
  | stop {next} : BlockTyping (.seq none next)
  | last {j} : BlockTyping (.node j) → BlockTyping (.seq (some j) none)
  | link {j l cur next} : BlockTyping (.node j) → func.blocks[l]? = some (.chain cur next) →
      BlockTyping (.seq cur next) → BlockTyping (.seq (some j) (some l))
  | defer {i next cleanup} : func.blocks[i]? = some (.defer next cleanup) →
      BlockTyping (.node next) → BlockTyping (.node cleanup) → BlockTyping (.node i)
  | crash {i} : func.blocks[i]? = some .crash → BlockTyping (.node i)
  | hardCrash {i} : func.blocks[i]? = some .hardCrash → BlockTyping (.node i)
  | brk {i level} : func.blocks[i]? = some (.brk level) → BlockTyping (.node i)
  | crashPad {i body pad} : func.blocks[i]? = some (.crashPad body pad) →
      BlockTyping (.node body) → BlockTyping (.node pad) → BlockTyping (.node i)
  | branch {i cond yes no} : func.blocks[i]? = some (.branch cond yes no) →
      RangeTyping ctx func cond [intId] → intId < func.types.length → BlockTyping (.node yes) →
      BlockTyping (.node no) → BlockTyping (.node i)
  | loop {i body} : func.blocks[i]? = some (.loop body) → BlockTyping (.node body) →
      BlockTyping (.node i)
  | var {i v body} : func.blocks[i]? = some (.var v body) → v < func.vars.length →
      BlockTyping (.node body) → BlockTyping (.node i)

/-- A function without blocks has nothing to check. -/
def Func.WellTyped (ctx : Context) (func : Func) : Prop :=
  func.blocks ≠ [] → BlockTyping ctx func (.node 0)

end Rules

/-! ## The first pass -/

/-- The pass goes on in a state with `Q`, or stops at one of its rules for portals. -/
inductive OnlyPortals (Q : Checker → Prop) : Except Fault Checker → Prop
  | ok {c} : Q c → OnlyPortals Q (.ok c)
  | portal {e} : e.kind = .portalNonLocal ∨ e.kind = .portalBackingScope →
      OnlyPortals Q (.error (.typeError e))

theorem OnlyPortals.bind {Q Q' : Checker → Prop} {r : Except Fault Checker}
    {k : Checker → Except Fault Checker} (h : OnlyPortals Q r)
    (hk : ∀ c, Q c → OnlyPortals Q' (k c)) : OnlyPortals Q' (r >>= k) := by
  cases h with
  | ok hc => exact hk _ hc
  | portal he => exact .portal he

theorem OnlyPortals.mono {Q Q' : Checker → Prop} {r : Except Fault Checker}
    (h : OnlyPortals Q r) (hQ : ∀ c, Q c → Q' c) : OnlyPortals Q' r := by
  cases h with
  | ok hc => exact .ok (hQ _ hc)
  | portal he => exact .portal he

section FirstPass

variable {ctx : Context} {func : Func} {state : ScanState} {op : Op} {loc : CodeLoc} {c : Checker}
  {ts ts' : List Nat}

/-- The checker records some hold edges, and the places on the stack have these types. -/
structure Holding (ctx : Context) (func : Func) (ts : List Nat) (c : Checker) : Prop where
  rep : ∃ E, Rep c E
  stack : ∃ ps, c.Stack ps ∧ lvalTypes ctx func ps = ts

theorem Holding.types (h : Holding ctx func ts c) : c.types ctx func = ts := by
  obtain ⟨ps, hs, rfl⟩ := h.stack
  exact types_stack hs

theorem Holding.length (h : Holding ctx func ts c) : c.pars.length = ts.length := by
  rw [← h.types, Checker.types, List.length_map]

theorem checkPortalRegion_bind {Q : Checker → Prop} {r : Except Fault Checker} (portal backing : Nat)
    (h : OnlyPortals Q r) : OnlyPortals Q (do
      checkPortalRegion ctx func state op loc c portal backing
      r) := by
  rw [checkPortalRegion]
  split
  · exact .portal (.inl rfl)
  · split
    · exact .portal (.inr rfl)
    · exact h

/-- An edge between places on the stack can be recorded. -/
theorem addHold_accepts {owner held : Nat} {p q : Lval} {justConst : Bool}
    (howner : c.Denotes owner p) (hheld : c.Denotes held q) :
    OnlyPortals (fun _ => True) (c.addHold owner held loc justConst) := by
  rw [Checker.addHold, List.getElem?_eq_getElem howner.lt]
  simp only
  rw [if_neg (Nat.not_le.mpr hheld.lt)]
  split
  · exact .ok trivial
  · exact .ok trivial

/-- The two topmost places and their types -/
theorem topPlaces {ps : List Lval} {a b : Nat} (hs : c.Stack ps)
    (hts : lvalTypes ctx func ps = a :: b :: ts) : ∃ x y xs p q, c.pars = x :: y :: xs ∧
      c.Denotes x p ∧ c.Denotes y q ∧ lvalType ctx func p = a ∧ lvalType ctx func q = b := by
  obtain ⟨p, q, ps₁, rfl, hp, hq, -⟩ := lvalTypes_eq_cons_cons hts
  rw [Checker.Stack] at hs
  generalize c.pars = pars at hs
  cases hs with
  | cons hx hs =>
      cases hs with
      | cons hy _ => exact ⟨_, _, _, p, q, rfl, hx, hy, hp, hq⟩

theorem holdAssign_onlyPortals {ps : List Lval} (hs : c.Stack ps) {a b : Nat}
    (hts : lvalTypes ctx func ps = a :: b :: ts) :
    OnlyPortals (fun _ => True) (holdAssign ctx func state op loc c) := by
  obtain ⟨src, dst, xs, p, q, hpars, hsrc, hdst, -, -⟩ := topPlaces hs hts
  simp only [holdAssign, hpars]
  split
  · exact .ok trivial
  · split
    · exact .portal (.inl rfl)
    · split
      · exact checkPortalRegion_bind _ _ (addHold_accepts hdst hsrc)
      · exact .ok trivial

theorem holdSliceFromOne_onlyPortals {ps : List Lval} (hs : c.Stack ps) {a b : Nat}
    (hts : lvalTypes ctx func ps = a :: b :: ts) :
    OnlyPortals (fun _ => True) (holdSliceFromOne ctx func state op loc c) := by
  obtain ⟨elem, ref, xs, p, q, hpars, helem, href, -, -⟩ := topPlaces hs hts
  simp only [holdSliceFromOne, hpars]
  exact checkPortalRegion_bind _ _ (addHold_accepts href helem)

theorem holdSliceFromAr_onlyPortals {ps : List Lval} (hs : c.Stack ps) {arr ref elem : Nat}
    (hts : lvalTypes ctx func ps = arr :: ref :: ts)
    (hkind : (kindAt func ref).bind refElem = some elem) :
    OnlyPortals (fun _ => True) (holdSliceFromAr ctx func state op loc c) := by
  obtain ⟨x, y, xs, p, q, hpars, hx, hy, -, rfl⟩ := topPlaces hs hts
  obtain ⟨kind, hkind, helem⟩ := Option.bind_eq_some_iff.mp hkind
  simp only [holdSliceFromAr, hpars, parType_eq hy, hkind]
  cases kind with
  | slice elem => exact checkPortalRegion_bind _ _ (addHold_accepts hy hx)
  | view elem => exact checkPortalRegion_bind _ _ (addHold_accepts hy hx)
  | int | byte | array | struct | nativeFunc => cases helem

theorem firstPassOp_onlyPortals (h : OpTyping ctx func op ts ts') (hc : Holding ctx func ts c) :
    OnlyPortals (Holding ctx func ts) (firstPassOp ctx func state op loc c) := by
  obtain ⟨E, hrep⟩ := hc.rep
  obtain ⟨ps, hs, hts⟩ := hc.stack
  have htypes : typeCheckOp ctx func op loc c = .ok () := by
    rw [typeCheckOp_ok, ← Checker.types, hc.types]
    exact h.typesOk
  have hresult : OnlyPortals (fun _ => True) (firstPassOp ctx func state op loc c) := by
    have hok := h.typesOk
    rw [← hts, TypesOk] at hok
    simp only [firstPassOp, htypes, bind, Except.bind]
    split
    · rename_i hop
      rw [hop] at hok
      obtain ⟨arr, ref, rest, elem, _, _, hmap, href, -⟩ := hok
      exact holdSliceFromAr_onlyPortals hs hmap href
    · rename_i hop
      rw [hop] at hok
      obtain ⟨elem, ref, rest, hmap, -⟩ := hok
      exact holdSliceFromOne_onlyPortals hs hmap
    · rename_i hop
      rw [hop] at hok
      obtain ⟨tid, rest, hmap, -⟩ := hok
      exact holdAssign_onlyPortals hs hmap
    · exact .ok trivial
  generalize hr : firstPassOp ctx func state op loc c = r at hresult
  cases hresult with
  | portal he => exact .portal he
  | ok _ =>
      obtain ⟨-, hrep', hs'⟩ := firstPassOp_keeps hrep hs hr
      exact .ok ⟨hrep', ps, hs', hts⟩

/-- The switch of `scan_ops`, behind the handler -/
theorem scanEffect_onlyPortals (h : OpTyping ctx func op ts ts') (hc : Holding ctx func ts c) :
    OnlyPortals (Holding ctx func ts') (scanEffect ctx func op c) := by
  obtain ⟨E, hrep⟩ := hc.rep
  obtain ⟨ps, hs, rfl⟩ := hc.stack
  obtain ⟨ps', heffect, hts'⟩ := h.effect
  obtain ⟨c', hc', -⟩ := scanEffect_of_lvalEffect hrep hs heffect
  obtain ⟨ps₁, heffect₁, hrep', hs'⟩ := scanEffect_eq_ok hrep hs hc'
  rw [heffect] at heffect₁
  cases heffect₁
  rw [hc']
  exact .ok ⟨⟨E, hrep'⟩, ps', hs', hts'⟩

end FirstPass

section Scan

variable {ctx : Context} {func : Func} {current block : Nat} {state : ScanState} {c : Checker}
  {ts ts' : List Nat}

/-- The handler of `type_check_first_pass` -/
def firstPassHandler (ctx : Context) : ScanOp :=
  inFunc ctx (firstPassOp ctx)

theorem scanOpsFrom_onlyPortals {opi : Nat} {ops : List Op}
    (hfunc : ctx.funcs[current]? = some func) (h : OpsTyping ctx func ops ts ts')
    (hc : Holding ctx func ts c) : OnlyPortals (Holding ctx func ts')
      (scanOpsFrom ctx (firstPassHandler ctx) current func state block opi ops c) := by
  induction h generalizing c opi with
  | nil => exact .ok hc
  | @cons op ops ts ts₁ ts' hop _ ih =>
      have hhandler : OnlyPortals (Holding ctx func ts)
          (firstPassHandler ctx current state op ⟨block, opi⟩ c) := by
        simp only [firstPassHandler, inFunc, hfunc]
        exact firstPassOp_onlyPortals hop hc
      exact hhandler.bind fun d hd => (scanEffect_onlyPortals hop hd).bind fun e he => ih he

theorem scanOps_onlyPortals {r : OpRange} (hfunc : ctx.funcs[current]? = some func)
    (h : RangeTyping ctx func r ts) (hc : Holding ctx func [] c) : OnlyPortals (Holding ctx func ts)
      (scanOps ctx (firstPassHandler ctx) current func state block r c) := by
  have hinside := h.inside
  rw [scanOps, if_neg (by omega), hc.length]
  refine (scanOpsFrom_onlyPortals hfunc h.ops hc).bind fun d hd => ?_
  rw [List.length_nil, if_neg (Nat.not_lt_zero _)]
  exact .ok hd

/-- Whatever is on the stack is dropped. -/
theorem Holding.clear (hc : Holding ctx func ts c) {n : Nat} (hn : c.pars.length ≤ n) :
    Holding ctx func [] { c with pars := c.pars.drop n } := by
  obtain ⟨E, hrep⟩ := hc.rep
  refine ⟨⟨E, hrep.setPars _⟩, [], ?_, rfl⟩
  rw [Checker.Stack, List.drop_eq_nil_of_le hn]
  exact .nil

theorem scanBasic_onlyPortals {r : OpRange} (hfunc : ctx.funcs[current]? = some func)
    (h : RangeTyping ctx func r ts) (hc : Holding ctx func [] c) : OnlyPortals (Holding ctx func [])
      (scanBasic ctx (firstPassHandler ctx) current func state block r c) := by
  rw [scanBasic, hc.length]
  exact (scanOps_onlyPortals hfunc h hc).bind fun d hd => .ok (hd.clear (Nat.le_refl _))

theorem scanCondition_onlyPortals {cond : OpRange} (hfunc : ctx.funcs[current]? = some func)
    (h : RangeTyping ctx func cond [intId]) (hint : intId < func.types.length)
    (hc : Holding ctx func [] c) : OnlyPortals (Holding ctx func [])
      (scanCondition ctx (firstPassHandler ctx) current func state block cond c) := by
  rw [scanCondition, hc.length]
  refine (scanOps_onlyPortals hfunc h hc).bind fun d hd => ?_
  obtain ⟨E, hrep⟩ := hd.rep
  obtain ⟨ps, hs, hts⟩ := hd.stack
  obtain ⟨p, ps₁, rfl, hp, hps₁⟩ := lvalTypes_eq_cons hts
  cases List.map_eq_nil_iff.mp hps₁
  rw [Checker.Stack] at hs
  generalize hpars : d.pars = pars at hs
  obtain - | @⟨x, _, _, _, hx, hrest⟩ := hs
  cases hrest
  have hisInt : parIsInt ctx func d x = true := by
    rw [parIsInt_denotes hx, hp]
    simp [hint]
  simp only [hisInt]
  exact .ok ⟨⟨E, hrep.setPars _⟩, [], .nil, rfl⟩

variable (ctx func current) in
/-- With enough fuel, the first pass has only its rules for portals to object to this place. -/
def ScansTo : Place → Prop
  | .node i => ∃ least, ∀ fuel, least ≤ fuel → ∀ state c, Holding ctx func [] c →
      OnlyPortals (Holding ctx func [])
        (scanBlock ctx (firstPassHandler ctx) current func fuel state i c)
  | .seq cur next => ∃ least, ∀ fuel, least ≤ fuel → ∀ rounds, least ≤ rounds → ∀ state c,
      Holding ctx func [] c → OnlyPortals (Holding ctx func [])
        (scanChildren func (scanBlock ctx (firstPassHandler ctx) current func fuel state) rounds cur
          next c)

/-- A block is scanned with one unit of fuel more than its parts. -/
theorem ScansTo.node {i : Nat} (h : ∃ least, ∀ fuel, least ≤ fuel → ∀ state c,
    Holding ctx func [] c → OnlyPortals (Holding ctx func [])
      (scanBlock ctx (firstPassHandler ctx) current func (fuel + 1) state i c)) :
    ScansTo ctx func current (.node i) := by
  obtain ⟨least, h⟩ := h
  refine ⟨least + 1, fun fuel hfuel => ?_⟩
  obtain ⟨fuel, rfl⟩ := Nat.exists_eq_add_of_le' (Nat.le_trans (Nat.le_add_left 1 least) hfuel)
  exact h fuel (by omega)

/-- Two parts, one after the other, each from the empty stack. -/
theorem ScansTo.both {i j k : Nat} (hi : ScansTo ctx func current (.node i))
    (hj : ScansTo ctx func current (.node j))
    (hblock : ∀ fuel state c, Holding ctx func [] c →
      scanBlock ctx (firstPassHandler ctx) current func (fuel + 1) state k c =
        scanBlock ctx (firstPassHandler ctx) current func fuel state i c >>= fun c =>
          scanBlock ctx (firstPassHandler ctx) current func fuel state j (c.cut 0)) :
    ScansTo ctx func current (.node k) := by
  obtain ⟨least, hi⟩ := hi
  obtain ⟨least', hj⟩ := hj
  refine .node ⟨max least least', fun fuel hfuel state c hc => ?_⟩
  rw [hblock fuel state c hc]
  refine (hi fuel (by omega) state c hc).bind fun d hd => ?_
  exact hj fuel (by omega) state _ (hd.clear (Nat.le_refl _))

theorem BlockTyping.scans {p : Place} (hfunc : ctx.funcs[current]? = some func)
    (h : BlockTyping ctx func p) : ScansTo ctx func current p := by
  induction h with
  | basic hblock hrange =>
      refine .node ⟨0, fun fuel _ state c hc => ?_⟩
      simp only [scanBlock, hblock]
      exact scanBasic_onlyPortals hfunc hrange hc
  | many hblock _ ih =>
      obtain ⟨least, ih⟩ := ih
      refine .node ⟨least, fun fuel hfuel state c hc => ?_⟩
      simp only [scanBlock, hblock]
      exact ih fuel hfuel fuel hfuel state c hc
  | stop => exact ⟨0, fun fuel _ rounds _ state c hc => by
      rw [scanChildren]
      exact .ok hc⟩
  | last _ ih =>
      obtain ⟨least, ih⟩ := ih
      refine ⟨least + 1, fun fuel hfuel rounds hrounds state c hc => ?_⟩
      obtain ⟨rounds, rfl⟩ := Nat.exists_eq_add_of_le' (Nat.le_trans (Nat.le_add_left 1 least) hrounds)
      rw [scanChildren]
      exact (ih fuel (by omega) state c hc).bind fun d hd => .ok hd
  | link _ hlink _ ih ih' =>
      obtain ⟨least, ih⟩ := ih
      obtain ⟨least', ih'⟩ := ih'
      refine ⟨max least least' + 1, fun fuel hfuel rounds hrounds state c hc => ?_⟩
      obtain ⟨rounds, rfl⟩ := Nat.exists_eq_add_of_le' (Nat.le_trans (Nat.le_add_left 1 _) hrounds)
      rw [scanChildren]
      refine (ih fuel (by omega) state c hc).bind fun d hd => ?_
      simp only [hlink]
      exact ih' fuel (by omega) rounds (by omega) state d hd
  | defer hblock _ _ ih ih' =>
      refine ih.both ih' fun fuel state c hc => ?_
      simp only [scanBlock, hblock, hc.length, List.length_nil]
  | crash hblock =>
      refine .node ⟨0, fun fuel _ state c hc => ?_⟩
      simp only [scanBlock, hblock]
      exact .ok hc
  | hardCrash hblock =>
      refine .node ⟨0, fun fuel _ state c hc => ?_⟩
      simp only [scanBlock, hblock]
      exact .ok hc
  | brk hblock =>
      refine .node ⟨0, fun fuel _ state c hc => ?_⟩
      simp only [scanBlock, hblock]
      exact .ok hc
  | crashPad hblock _ _ ih ih' =>
      refine ih.both ih' fun fuel state c hc => ?_
      simp only [scanBlock, hblock, hc.length, List.length_nil]
  | branch hblock hcond hint _ _ ih ih' =>
      obtain ⟨least, ih⟩ := ih
      obtain ⟨least', ih'⟩ := ih'
      refine .node ⟨max least least', fun fuel hfuel state c hc => ?_⟩
      simp only [scanBlock, hblock, hc.length, List.length_nil]
      refine (scanCondition_onlyPortals hfunc hcond hint hc).bind fun d hd => ?_
      refine (ih fuel (by omega) state d hd).bind fun e he => ?_
      exact ih' fuel (by omega) state _ (he.clear (Nat.le_refl _))
  | loop hblock _ ih =>
      obtain ⟨least, ih⟩ := ih
      refine .node ⟨least, fun fuel hfuel state c hc => ?_⟩
      simp only [scanBlock, hblock]
      exact ih fuel hfuel state c hc
  | var hblock hv _ ih =>
      obtain ⟨least, ih⟩ := ih
      refine .node ⟨least, fun fuel hfuel state c hc => ?_⟩
      simp only [scanBlock, hblock, if_neg (Nat.not_le.mpr hv)]
      exact ih fuel hfuel _ c hc

end Scan

/-! ## What the first pass accepts -/

section Sound

variable {ctx : Context} {func : Func} {current block : Nat} {state : ScanState} {c c' : Checker}
  {ts : List Nat}

theorem scanOpsFrom_typing {opi : Nat} {ops : List Op} (hfunc : ctx.funcs[current]? = some func)
    (hc : Holding ctx func ts c)
    (h : scanOpsFrom ctx (firstPassHandler ctx) current func state block opi ops c = .ok c') :
    ∃ ts', OpsTyping ctx func ops ts ts' ∧ Holding ctx func ts' c' := by
  induction ops generalizing c ts opi with
  | nil =>
      cases h
      exact ⟨ts, .nil, hc⟩
  | cons op ops ih =>
      obtain ⟨c₁, hpass, h⟩ := bind_eq_ok.mp h
      obtain ⟨c₂, heffect, h⟩ := bind_eq_ok.mp h
      obtain ⟨E, hrep⟩ := hc.rep
      obtain ⟨ps, hs, rfl⟩ := hc.stack
      simp only [firstPassHandler, inFunc, hfunc] at hpass
      obtain ⟨htypes, ⟨E₁, hrep₁⟩, hs₁⟩ := firstPassOp_keeps hrep hs hpass
      obtain ⟨ps₂, hps₂, hrep₂, hs₂⟩ := scanEffect_eq_ok hrep₁ hs₁ heffect
      have hrule : OpTyping ctx func op (lvalTypes ctx func ps) (lvalTypes ctx func ps₂) := by
        refine opTyping_iff.mpr ⟨?_, ps₂, hps₂, rfl⟩
        rw [typeCheckOp_ok, ← Checker.types, types_stack hs] at htypes
        exact htypes
      obtain ⟨ts', hrest, hc'⟩ := ih ⟨⟨E₁, hrep₂⟩, ps₂, hs₂, rfl⟩ h
      exact ⟨ts', .cons hrule hrest, hc'⟩

theorem scanOps_typing {r : OpRange} (hfunc : ctx.funcs[current]? = some func)
    (hc : Holding ctx func [] c)
    (h : scanOps ctx (firstPassHandler ctx) current func state block r c = .ok c') :
    ∃ ts, RangeTyping ctx func r ts ∧ Holding ctx func ts c' := by
  rw [scanOps] at h
  obtain ⟨hinside, h⟩ := ite_error_ok.mp h
  obtain ⟨c₁, hops, h⟩ := bind_eq_ok.mp h
  obtain ⟨-, h⟩ := ite_error_ok.mp h
  cases h
  obtain ⟨ts, hrules, hc'⟩ := scanOpsFrom_typing hfunc hc hops
  exact ⟨ts, ⟨by omega, hrules⟩, hc'⟩

theorem scanBasic_typing {r : OpRange} (hfunc : ctx.funcs[current]? = some func)
    (hc : Holding ctx func [] c)
    (h : scanBasic ctx (firstPassHandler ctx) current func state block r c = .ok c') :
    (∃ ts, RangeTyping ctx func r ts) ∧ Holding ctx func [] c' := by
  obtain ⟨c₁, hops, h⟩ := bind_eq_ok.mp h
  obtain ⟨ts, hrange, hc₁⟩ := scanOps_typing hfunc hc hops
  cases h
  rw [hc.length]
  exact ⟨⟨ts, hrange⟩, hc₁.clear (Nat.le_refl _)⟩

theorem scanCondition_typing {cond : OpRange} (hfunc : ctx.funcs[current]? = some func)
    (hc : Holding ctx func [] c)
    (h : scanCondition ctx (firstPassHandler ctx) current func state block cond c = .ok c') :
    RangeTyping ctx func cond [intId] ∧ intId < func.types.length ∧ Holding ctx func [] c' := by
  obtain ⟨c₁, hops, h⟩ := bind_eq_ok.mp h
  obtain ⟨ts, hrange, hc₁⟩ := scanOps_typing hfunc hc hops
  have htypes := hc₁.types
  obtain ⟨E, hrep⟩ := hc₁.rep
  split at h
  · rename_i x rest hpars
    obtain ⟨htop, h⟩ := ite_error_ok.mp h
    cases h
    rw [hc.length, List.length_nil] at htop
    obtain ⟨hlen, hint⟩ := not_or.mp htop
    cases List.length_eq_zero_iff.mp (Decidable.not_not.mp hlen)
    obtain ⟨htype, hlt⟩ := parIsInt_iff.mp (Bool.not_eq_false _ ▸ hint)
    rw [Checker.types, hpars, List.map_cons, List.map_nil, htype] at htypes
    exact ⟨htypes ▸ hrange, hlt, ⟨E, hrep.setPars _⟩, [], .nil, rfl⟩
  · cases h

/-- What the lemmas about blocks with parts assume of the parts -/
def TypesScans (ctx : Context) (func : Func) (scan : Nat → Checker → Except Fault Checker) : Prop :=
  ∀ i c c', Holding ctx func [] c → scan i c = .ok c' →
    BlockTyping ctx func (.node i) ∧ Holding ctx func [] c'

theorem scanChildren_typing {scan : Nat → Checker → Except Fault Checker} {rounds : Nat}
    {cur next : Option Nat} (hscan : TypesScans ctx func scan) (hc : Holding ctx func [] c)
    (h : scanChildren func scan rounds cur next c = .ok c') :
    BlockTyping ctx func (.seq cur next) ∧ Holding ctx func [] c' := by
  induction rounds generalizing cur next c with
  | zero =>
      cases cur with
      | none =>
          cases h
          exact ⟨.stop, hc⟩
      | some child => cases h
  | succ rounds ih =>
      cases cur with
      | none =>
          cases h
          exact ⟨.stop, hc⟩
      | some child =>
          obtain ⟨c₁, hchild, h⟩ := bind_eq_ok.mp h
          obtain ⟨hfirst, hc₁⟩ := hscan child c c₁ hc hchild
          cases next with
          | none =>
              cases h
              exact ⟨.last hfirst, hc₁⟩
          | some l =>
              simp only at h
              split at h
              · rename_i cur next hlink
                obtain ⟨hrest, hc'⟩ := ih hc₁ h
                exact ⟨.link hfirst hlink hrest, hc'⟩
              · cases h

/-- Two parts, one after the other -/
theorem TypesScans.both {scan : Nat → Checker → Except Fault Checker} {i j : Nat}
    (hscan : TypesScans ctx func scan) (hc : Holding ctx func [] c)
    (h : scan i c >>= (fun d => scan j (d.cut c.pars.length)) = .ok c') :
    BlockTyping ctx func (.node i) ∧ BlockTyping ctx func (.node j) ∧ Holding ctx func [] c' := by
  obtain ⟨c₁, hfirst, h⟩ := bind_eq_ok.mp h
  obtain ⟨hi, hc₁⟩ := hscan i c c₁ hc hfirst
  rw [hc.length] at h
  obtain ⟨hj, hc'⟩ := hscan j _ c' (hc₁.clear (Nat.le_refl _)) h
  exact ⟨hi, hj, hc'⟩

theorem scanBlock_typing (hfunc : ctx.funcs[current]? = some func) (fuel : Nat) :
    ∀ state, TypesScans ctx func (scanBlock ctx (firstPassHandler ctx) current func fuel state) := by
  induction fuel with
  | zero =>
      intro state i c c' _ h
      cases h
  | succ fuel ih =>
      intro state i c c' hc h
      rw [scanBlock] at h
      cases hblock : func.blocks[i]? with
      | none =>
          rw [hblock] at h
          cases h
      | some b =>
          rw [hblock] at h
          cases b with
          | basic ops =>
              obtain ⟨⟨ts, hrange⟩, hc'⟩ := scanBasic_typing hfunc hc h
              exact ⟨.basic hblock hrange, hc'⟩
          | defer next cleanup =>
              obtain ⟨hnext, hcleanup, hc'⟩ := (ih state).both hc h
              exact ⟨.defer hblock hnext hcleanup, hc'⟩
          | many cur next =>
              obtain ⟨hchildren, hc'⟩ := scanChildren_typing (ih state) hc h
              exact ⟨.many hblock hchildren, hc'⟩
          | chain cur next => cases h
          | crash =>
              cases h
              exact ⟨.crash hblock, hc⟩
          | hardCrash =>
              cases h
              exact ⟨.hardCrash hblock, hc⟩
          | crashPad body pad =>
              obtain ⟨hbody, hpad, hc'⟩ := (ih state).both hc h
              exact ⟨.crashPad hblock hbody hpad, hc'⟩
          | branch cond yes no =>
              obtain ⟨c₁, hcond, h⟩ := bind_eq_ok.mp h
              obtain ⟨hrange, hint, hc₁⟩ := scanCondition_typing hfunc hc hcond
              have hlen : c.pars.length = c₁.pars.length := hc.length.trans hc₁.length.symm
              rw [hlen] at h
              obtain ⟨hyes, hno, hc'⟩ := (ih state).both hc₁ h
              exact ⟨.branch hblock hrange hint hyes hno, hc'⟩
          | loop body =>
              obtain ⟨hbody, hc'⟩ := ih state body c c' hc h
              exact ⟨.loop hblock hbody, hc'⟩
          | brk level =>
              cases h
              exact ⟨.brk hblock, hc⟩
          | var v body =>
              obtain ⟨hv, h⟩ := ite_error_ok.mp h
              obtain ⟨hbody, hc'⟩ := ih _ body c c' hc h
              exact ⟨.var hblock (Nat.lt_of_not_le hv) hbody, hc'⟩

end Sound

/-! ## Functions -/

section Functions

variable {ctx : Context}

theorem scanFunc_onlyPortals {current : Nat} {func : Func}
    (hfunc : ctx.funcs[current]? = some func) (h : func.WellTyped ctx) :
    ∃ least, ∀ fuel, least ≤ fuel → ∀ c, (∃ E, Rep c E) → OnlyPortals (fun d => ∃ E, Rep d E)
      (scanFunc ctx (firstPassHandler ctx) fuel current func c) := by
  by_cases hblocks : func.blocks = []
  · refine ⟨0, fun fuel _ c hc => ?_⟩
    obtain ⟨E, hrep⟩ := hc
    rw [scanFunc, if_pos hblocks]
    exact .ok ⟨E, hrep.setPars []⟩
  · obtain ⟨least, hscan⟩ := (h hblocks).scans hfunc
    refine ⟨least, fun fuel hfuel c hc => ?_⟩
    obtain ⟨E, hrep⟩ := hc
    rw [scanFunc, if_neg hblocks]
    refine (hscan fuel hfuel _ { c with pars := [] } ⟨⟨E, hrep.setPars []⟩, [], .nil, rfl⟩).mono ?_
    exact fun d hd => hd.rep

theorem scanFuncsFrom_onlyPortals {current : Nat} {funcs : List Func}
    (hfuncs : ctx.funcs.drop current = funcs) (h : ∀ f ∈ funcs, f.WellTyped ctx) :
    ∃ least, ∀ fuel, least ≤ fuel → ∀ c, (∃ E, Rep c E) → OnlyPortals (fun d => ∃ E, Rep d E)
      (scanFuncsFrom ctx (firstPassHandler ctx) fuel current funcs c) := by
  induction funcs generalizing current with
  | nil =>
      refine ⟨0, fun fuel _ c hc => ?_⟩
      obtain ⟨E, hrep⟩ := hc
      exact .ok ⟨E, hrep.setPars []⟩
  | cons f funcs ih =>
      have hfunc : ctx.funcs[current]? = some f := by
        rw [← List.head?_drop, hfuncs, List.head?_cons]
      have htail : ctx.funcs.drop (current + 1) = funcs := by
        rw [← List.tail_drop, hfuncs, List.tail_cons]
      obtain ⟨least, hfirst⟩ := scanFunc_onlyPortals hfunc (h f List.mem_cons_self)
      obtain ⟨least', hrest⟩ := ih htail fun g hg => h g (List.mem_cons_of_mem f hg)
      refine ⟨max least least', fun fuel hfuel c hc => ?_⟩
      exact (hfirst fuel (by omega) c hc).bind fun d hd => hrest fuel (by omega) d hd

/-- The first pass has only its rules for portals to object to functions that follow the rules. -/
theorem firstPass_onlyPortals (h : ∀ f ∈ ctx.funcs, f.WellTyped ctx) :
    ∃ least, ∀ fuel, least ≤ fuel → ∀ c : Checker, c.Ok →
      OnlyPortals (fun _ => True) (firstPass ctx fuel c) := by
  obtain ⟨least, hscan⟩ := @scanFuncsFrom_onlyPortals ctx 0 ctx.funcs rfl h
  refine ⟨least, fun fuel hfuel c hc => ?_⟩
  exact (hscan fuel hfuel _ ⟨_, rep_clearHolds hc⟩).mono fun _ _ => trivial

theorem scanFuncsFrom_wellTyped {fuel current : Nat} {funcs : List Func} {c c' : Checker}
    (hfuncs : ctx.funcs.drop current = funcs) (hrep : ∃ E, Rep c E)
    (h : scanFuncsFrom ctx (firstPassHandler ctx) fuel current funcs c = .ok c') :
    ∀ f ∈ funcs, f.WellTyped ctx := by
  induction funcs generalizing current c with
  | nil => exact fun f hf => absurd hf List.not_mem_nil
  | cons f funcs ih =>
      have hfunc : ctx.funcs[current]? = some f := by
        rw [← List.head?_drop, hfuncs, List.head?_cons]
      have htail : ctx.funcs.drop (current + 1) = funcs := by
        rw [← List.tail_drop, hfuncs, List.tail_cons]
      obtain ⟨c₁, hfirst, h⟩ := bind_eq_ok.mp h
      obtain ⟨E, hrep⟩ := hrep
      have hclear : Holding ctx f [] { c with pars := [] } := ⟨⟨E, hrep.setPars []⟩, [], .nil, rfl⟩
      have hf : f.WellTyped ctx ∧ ∃ E, Rep c₁ E := by
        rw [scanFunc] at hfirst
        split at hfirst
        · rename_i hblocks
          cases hfirst
          exact ⟨fun hne => absurd hblocks hne, E, hrep.setPars []⟩
        · obtain ⟨htyping, hc₁⟩ := scanBlock_typing hfunc fuel _ 0 _ c₁ hclear hfirst
          exact ⟨fun _ => htyping, hc₁.rep⟩
      exact List.forall_mem_cons.mpr ⟨hf.1, ih htail hf.2 h⟩

/-- Functions that the first pass accepts follow the rules. -/
theorem firstPass_wellTyped {fuel : Nat} {c c' : Checker} (hc : c.Ok)
    (h : firstPass ctx fuel c = .ok c') : ∀ f ∈ ctx.funcs, f.WellTyped ctx :=
  scanFuncsFrom_wellTyped rfl ⟨_, rep_clearHolds hc⟩ h

end Functions

end TreeVM
