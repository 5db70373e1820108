import TreeVM.Verify.Lval
import TreeVM.Verify.OpTypes

/-!
# Two passes over the same functions

Both passes of the checker walk over all operations in the same order.  A relation between the
checkers of two passes that their steps keep holds wherever the passes are.

* `ScanRel`: a relation that the stack effects keep; `Alike`: what a rule says of two passes;
* `scanFuncs_alike`: two passes that treat related checkers alike have the same outcome;
* `Site`, `Meets`: the operations that a pass comes to, and the checker it has there;
* `Checker.Stack`, `lvalEffect`: the stack as paths, and what an operation does to it.
-/

namespace TreeVM

/-! ## The rule -/

/-- A relation between checkers that the walk over the operations keeps by itself. -/
structure ScanRel (ctx : Context) (R : Checker → Checker → Prop) : Prop where
  length : ∀ {c d}, R c d → c.pars.length = d.pars.length
  drop : ∀ {c d} n, R c d → R { c with pars := c.pars.drop n } { d with pars := d.pars.drop n }
  effect : ∀ {func op c d c'}, R c d → scanEffect ctx func op c = .ok c' →
    ∃ d', scanEffect ctx func op d = .ok d' ∧ R c' d'
  isInt : ∀ {func c d x xs y ys}, R c d → c.pars = x :: xs → d.pars = y :: ys →
    parIsInt ctx func c x = parIsInt ctx func d y

section Rule

variable {ctx : Context} {R : Checker → Checker → Prop} {h g g' : ScanOp} {fuel : Nat}

/-- If the first pass goes on, then the second one and its variant do the same. -/
def Alike (R : Checker → Checker → Prop) (r s s' : Except Fault Checker) : Prop :=
  ∀ c', r = .ok c' → s = s' ∧ ∀ d', s = .ok d' → R c' d'

/-- Where the first pass goes on, the second one and its variant treat related checkers alike. -/
def HandlersAlike (R : Checker → Checker → Prop) (h g g' : ScanOp) : Prop :=
  ∀ current state op loc c d, R c d → Alike R (h current state op loc c)
    (g current state op loc d) (g' current state op loc d)

theorem Alike.ok {c d : Checker} (hR : R c d) : Alike R (.ok c) (.ok d) (.ok d) := by
  intro c' hc'
  cases hc'
  refine ⟨rfl, fun d' hd' => ?_⟩
  cases hd'
  exact hR

theorem Alike.error {e : Fault} {s s' : Except Fault Checker} : Alike R (.error e) s s' :=
  nofun

theorem Alike.bind {r s s' : Except Fault Checker} {k l l' : Checker → Except Fault Checker}
    (hr : Alike R r s s') (hk : ∀ c d, R c d → Alike R (k c) (l d) (l' d)) :
    Alike R (r >>= k) (s >>= l) (s' >>= l') := by
  intro c' hc'
  obtain ⟨c, rfl, hc⟩ := bind_eq_ok.mp hc'
  obtain ⟨rfl, hd⟩ := hr c rfl
  cases s with
  | error e => exact ⟨rfl, nofun⟩
  | ok d => exact hk c d (hd d rfl) c' hc

theorem scanEffect_alike (hrel : ScanRel ctx R) {func : Func} {op : Op} {c d : Checker}
    (hR : R c d) :
    Alike R (scanEffect ctx func op c) (scanEffect ctx func op d) (scanEffect ctx func op d) := by
  intro c' hc'
  obtain ⟨d', hd', hR'⟩ := hrel.effect hR hc'
  refine ⟨rfl, fun d'' hd'' => ?_⟩
  rw [hd'] at hd''
  cases hd''
  exact hR'

variable {current : Nat} {func : Func}

theorem scanOpsFrom_alike (hrel : ScanRel ctx R) (hh : HandlersAlike R h g g')
    (state : ScanState) (block opi : Nat) (ops : List Op) {c d : Checker} (hR : R c d) :
    Alike R (scanOpsFrom ctx h current func state block opi ops c)
      (scanOpsFrom ctx g current func state block opi ops d)
      (scanOpsFrom ctx g' current func state block opi ops d) := by
  induction ops generalizing opi c d with
  | nil => exact .ok hR
  | cons op ops ih =>
      rw [scanOpsFrom, scanOpsFrom, scanOpsFrom]
      refine (hh current state op ⟨block, opi⟩ c d hR).bind fun c d hR => ?_
      exact (scanEffect_alike hrel hR).bind fun c d hR => ih (opi + 1) hR

theorem scanOps_alike (hrel : ScanRel ctx R) (hh : HandlersAlike R h g g') (state : ScanState)
    (block : Nat) (r : OpRange) {c d : Checker} (hR : R c d) :
    Alike R (scanOps ctx h current func state block r c)
      (scanOps ctx g current func state block r d)
      (scanOps ctx g' current func state block r d) := by
  rw [scanOps, scanOps, scanOps]
  split
  · exact .error
  · refine (scanOpsFrom_alike hrel hh state block _ _ hR).bind fun c' d' hR' => ?_
    rw [hrel.length hR, hrel.length hR']
    split
    · exact .error
    · exact .ok hR'

theorem scanBasic_alike (hrel : ScanRel ctx R) (hh : HandlersAlike R h g g') (state : ScanState)
    (block : Nat) (r : OpRange) {c d : Checker} (hR : R c d) :
    Alike R (scanBasic ctx h current func state block r c)
      (scanBasic ctx g current func state block r d)
      (scanBasic ctx g' current func state block r d) := by
  rw [scanBasic, scanBasic, scanBasic]
  refine (scanOps_alike hrel hh state block r hR).bind fun c' d' hR' => ?_
  rw [hrel.length hR, hrel.length hR']
  exact .ok (hrel.drop _ hR')

theorem scanCondition_alike (hrel : ScanRel ctx R) (hh : HandlersAlike R h g g')
    (state : ScanState) (block : Nat) (cond : OpRange) {c d : Checker} (hR : R c d) :
    Alike R (scanCondition ctx h current func state block cond c)
      (scanCondition ctx g current func state block cond d)
      (scanCondition ctx g' current func state block cond d) := by
  rw [scanCondition, scanCondition, scanCondition]
  refine (scanOps_alike hrel hh state block cond hR).bind fun c' d' hR' => ?_
  have hlength := hrel.length hR'
  have htail := hrel.drop 1 hR'
  cases hc : c'.pars with
  | nil => exact .error
  | cons x xs =>
      cases hd : d'.pars with
      | nil =>
          rw [hc, hd] at hlength
          cases hlength
      | cons y ys =>
          rw [hc, hd] at hlength htail
          simp only [hrel.length hR, Nat.succ.inj hlength, hrel.isInt hR' hc hd]
          split
          · exact .error
          · exact .ok htail

theorem scanChildren_alike {block block' block'' : Nat → Checker → Except Fault Checker}
    (hblock : ∀ idx c d, R c d → Alike R (block idx c) (block' idx d) (block'' idx d)) (n : Nat)
    (child link : Option Nat) {c d : Checker} (hR : R c d) :
    Alike R (scanChildren func block n child link c) (scanChildren func block' n child link d)
      (scanChildren func block'' n child link d) := by
  induction n generalizing child link c d with
  | zero =>
      cases child with
      | none => exact .ok hR
      | some child => exact .error
  | succ n ih =>
      cases child with
      | none => exact .ok hR
      | some child =>
          rw [scanChildren, scanChildren, scanChildren]
          refine (hblock child c d hR).bind fun c d hR => ?_
          cases link with
          | none => exact .ok hR
          | some l =>
              simp only
              split
              · exact ih _ _ hR
              · exact .error

theorem ScanRel.cut (hrel : ScanRel ctx R) {c d : Checker} (hR : R c d) {n m : Nat} (hn : n = m) :
    R (c.cut n) (d.cut m) := by
  rw [hn, Checker.cut, Checker.cut, hrel.length hR]
  exact hrel.drop _ hR

theorem scanBlock_alike (hrel : ScanRel ctx R) (hh : HandlersAlike R h g g') (n : Nat)
    (state : ScanState) (idx : Nat) {c d : Checker} (hR : R c d) :
    Alike R (scanBlock ctx h current func n state idx c)
      (scanBlock ctx g current func n state idx d)
      (scanBlock ctx g' current func n state idx d) := by
  induction n generalizing state idx c d with
  | zero => exact .error
  | succ n ih =>
      have hbefore := hrel.length hR
      rw [scanBlock, scanBlock, scanBlock]
      cases func.blocks[idx]? with
      | none => exact .error
      | some b =>
          cases b with
          | basic r => exact scanBasic_alike hrel hh state idx r hR
          | many cur next => exact scanChildren_alike (fun idx c d hR => ih state idx hR) n cur next hR
          | chain _ _ => exact .error
          | defer next defer =>
              exact (ih state next hR).bind fun c d hR => ih state defer (hrel.cut hR hbefore)
          | crash => exact .ok hR
          | hardCrash => exact .ok hR
          | brk _ => exact .ok hR
          | crashPad body pad =>
              exact (ih state body hR).bind fun c d hR => ih state pad (hrel.cut hR hbefore)
          | branch cond yes no =>
              refine (scanCondition_alike hrel hh state idx cond hR).bind fun c d hR => ?_
              exact (ih state yes hR).bind fun c d hR => ih state no (hrel.cut hR hbefore)
          | loop body => exact ih state body hR
          | var v body =>
              simp only
              split
              · exact .error
              · exact ih (state.enterVar v) body hR

theorem ScanRel.clear (hrel : ScanRel ctx R) {c d : Checker} (hR : R c d) :
    R { c with pars := [] } { d with pars := [] } := by
  have hdrop := hrel.drop c.pars.length hR
  rw [List.drop_length, hrel.length hR, List.drop_length] at hdrop
  exact hdrop

theorem scanFunc_alike (hrel : ScanRel ctx R) (hh : HandlersAlike R h g g') (current : Nat)
    (func : Func) {c d : Checker} (hR : R c d) :
    Alike R (scanFunc ctx h fuel current func c) (scanFunc ctx g fuel current func d)
      (scanFunc ctx g' fuel current func d) := by
  have hR := hrel.clear hR
  rw [scanFunc, scanFunc, scanFunc]
  split
  · exact .ok hR
  · exact scanBlock_alike hrel hh fuel _ 0 hR

theorem scanFuncsFrom_alike (hrel : ScanRel ctx R) (hh : HandlersAlike R h g g') (current : Nat)
    (funcs : List Func) {c d : Checker} (hR : R c d) :
    Alike R (scanFuncsFrom ctx h fuel current funcs c) (scanFuncsFrom ctx g fuel current funcs d)
      (scanFuncsFrom ctx g' fuel current funcs d) := by
  induction funcs generalizing current c d with
  | nil => exact .ok (hrel.clear hR)
  | cons func funcs ih =>
      rw [scanFuncsFrom, scanFuncsFrom, scanFuncsFrom]
      exact (scanFunc_alike hrel hh current func hR).bind fun c d hR => ih (current + 1) hR

/-- Two passes that treat related checkers alike, wherever a first pass goes on. -/
theorem scanFuncs_alike (hrel : ScanRel ctx R) (hh : HandlersAlike R h g g') {c d : Checker}
    (hR : R c d) : Alike R (scanFuncs ctx h fuel c) (scanFuncs ctx g fuel d)
      (scanFuncs ctx g' fuel d) :=
  scanFuncsFrom_alike hrel hh 0 ctx.funcs hR

end Rule

/-! ## Sites -/

/-- What a pass hands to its handler in front of an operation. -/
structure Site where
  current : Nat
  state : ScanState
  op : Op
  loc : CodeLoc
  checker : Checker
  deriving DecidableEq

/-- The handler with another answer at one site. -/
def ScanOp.answering (handler : ScanOp) (site : Site) (answer : Except Fault Checker) : ScanOp :=
  fun current state op loc c =>
    if ⟨current, state, op, loc, c⟩ = site then answer else handler current state op loc c

/-- The pass comes to the site: what it returns depends on the answer there. -/
def Meets (ctx : Context) (handler : ScanOp) (fuel : Nat) (c : Checker) (site : Site) : Prop :=
  ∃ answer, scanFuncs ctx (handler.answering site answer) fuel c ≠ scanFuncs ctx handler fuel c

/-- Where a second pass comes to, the first one has been and has gone on. -/
theorem Meets.related {ctx : Context} {R : Checker → Checker → Prop} {h g : ScanOp} {fuel : Nat}
    {c c' d : Checker} {site : Site} (hmeets : Meets ctx g fuel d site) (hrel : ScanRel ctx R)
    (hh : HandlersAlike R h g g) (hR : R c d) (hc : scanFuncs ctx h fuel c = .ok c') :
    ∃ e e', R e site.checker ∧ h site.current site.state site.op site.loc e = .ok e' := by
  obtain ⟨answer, hne⟩ := hmeets
  by_contra hnot
  have hagree : HandlersAlike R h g (g.answering site answer) := by
    intro current state op loc e f hR e' he'
    obtain ⟨-, hkeep⟩ := hh current state op loc e f hR e' he'
    refine ⟨?_, hkeep⟩
    rw [ScanOp.answering, if_neg]
    rintro rfl
    exact hnot ⟨e, e', hR, he'⟩
  exact hne (scanFuncs_alike hrel hagree hR c' hc).1.symm

theorem scanRel_eq (ctx : Context) : ScanRel ctx Eq where
  length h := by rw [h]
  drop n h := by rw [h]
  effect h he := ⟨_, h ▸ he, rfl⟩
  isInt h hx hy := by
    cases h
    rw [hx] at hy
    cases hy
    rfl

/-- A pass that accepts the functions goes on wherever it comes to. -/
theorem Meets.accepts {ctx : Context} {g : ScanOp} {fuel : Nat} {c c' : Checker} {site : Site}
    (hmeets : Meets ctx g fuel c site) (h : scanFuncs ctx g fuel c = .ok c') :
    ∃ d, g site.current site.state site.op site.loc site.checker = .ok d := by
  have halike : HandlersAlike Eq g g g := by
    rintro current state op loc c _ rfl c' hc'
    refine ⟨rfl, fun d hd => ?_⟩
    rw [hc'] at hd
    exact Except.ok.inj hd
  obtain ⟨_, e', rfl, he⟩ := hmeets.related (scanRel_eq ctx) halike rfl h
  exact ⟨e', he⟩

/-! ## The stack as paths -/

/-- The places on the stack are these paths. -/
def Checker.Stack (c : Checker) (ps : List Lval) : Prop :=
  List.Forall₂ c.Denotes c.pars ps

section Effect

variable (ctx : Context) (func : Func) (op : Op)

/-- The signature of the native function on top of the stack -/
def nativeSigOf : List Lval → Option Sig
  | [] => none
  | p :: _ =>
      match kindAt func (lvalType ctx func p) with
      | some (.nativeFunc sig) => some sig
      | _ => none

/-- The switch of `scan_ops` on paths -/
def lvalEffect (ps : List Lval) : Option (List Lval) :=
  match op.kind with
  | .null => some ps
  | .pushVar => some (.var op.extra.toNat :: ps)
  | .pushArg => some (.arg op.extra.toNat :: ps)
  | .pushGlobal => some (.global op.extra.toNat :: ps)
  | .bitNotAssign => if ps.length < 1 then none else some ps
  | .drop => if ps.length < op.extra.toNat then none else some (ps.drop op.extra.toNat)
  | .sliceInc => if ps.length < 1 then none else some (ps.drop 1)
  | .sliceDec => if ps.length < 1 then none else some (ps.drop 1)
  | .arrAt =>
      match ps with
      | _ :: p :: rest => some (.elem p :: rest)
      | _ => none
  | .sliceAt =>
      match ps with
      | _ :: p :: rest => some (.elem p :: rest)
      | _ => none
  | .structAt =>
      match ps with
      | p :: rest => some (.field p op.extra.toNat :: rest)
      | [] => none
  | .call =>
      match ctx.funcs[op.extra.toNat]? with
      | none => none
      | some callee =>
          if ps.length < callee.sig.ins.length + callee.sig.outs.length then none
          else some (ps.drop callee.sig.ins.length)
  | .callNativeOnStack =>
      match nativeSigOf ctx func ps with
      | none => none
      | some sig =>
          if ps.length < sig.outs.length + sig.ins.length + 1 then none
          else some (ps.drop (sig.ins.length + 1))
  | _ => if ps.length < 2 then none else some (ps.drop 1)

end Effect

/-- A step of the checker is one on paths; it keeps the hold edges. -/
inductive Shows (E : Holds) (c : Checker) : Except Fault Checker → Option (List Lval) → Prop
  | ok {c' ps} : Rep c' E → c'.Stack ps → c.Extends c' → Shows E c (.ok c') (some ps)
  | stop {f} : Shows E c (.error f) none

section Stack

variable {ctx : Context} {func : Func} {op : Op} {E : Holds} {c : Checker} {ps : List Lval}

theorem samePars_setPars (c : Checker) (pars : List Nat) : SamePars c { c with pars := pars } :=
  ⟨fun _ => rfl, rfl⟩

theorem Rep.setPars (h : Rep c E) (pars : List Nat) : Rep { c with pars := pars } E := by
  have hsame := samePars_setPars c pars
  refine ⟨⟨h.ok.distinct, fun i hi => ?_, h.ok.segments, h.ok.held⟩, fun i handle q hi hq => ?_,
    fun q hq => h.unknown q fun i hi => hq i (hsame.denotes.mpr hi)⟩
  · obtain ⟨q, hq⟩ := h.ok.denotes i hi
    exact ⟨q, hsame.denotes.mpr hq⟩
  · exact (h.edges i handle q hi (hsame.denotes.mp hq)).imp fun _ _ he => he.mono hsame.extends_

theorem Checker.Stack.drop (h : c.Stack ps) (n : Nat) :
    ({ c with pars := c.pars.drop n } : Checker).Stack (ps.drop n) :=
  (List.forall₂_drop n h).imp fun _ _ hp => (samePars_setPars c _).denotes.mpr hp

theorem shows_drop (hrep : Rep c E) (hs : c.Stack ps) (need n : Nat) :
    Shows E c
      (if c.pars.length < need then .error .rejected else .ok { c with pars := c.pars.drop n })
      (if ps.length < need then none else some (ps.drop n)) := by
  rw [hs.length_eq]
  split
  · exact .stop
  · exact .ok (hrep.setPars _) (hs.drop n) (samePars_setPars c _).extends_

theorem shows_pop (hrep : Rep c E) (hs : c.Stack ps) (n : Nat) :
    Shows E c (c.pop n) (if ps.length < n then none else some (ps.drop n)) :=
  shows_drop hrep hs n n

theorem shows_popSecond (hrep : Rep c E) (hs : c.Stack ps) :
    Shows E c (popSecond c) (if ps.length < 2 then none else some (ps.drop 1)) := by
  have hdrop := shows_drop hrep hs 2 1
  rw [popSecond, Checker.pop]
  by_cases hlen : c.pars.length < 2
  · rw [if_pos hlen] at hdrop ⊢
    exact hdrop
  · rw [if_neg hlen] at hdrop ⊢
    rw [if_neg (by omega)]
    exact hdrop

/-- A place that is interned and pushed. -/
theorem shows_push (hrep : Rep c E) (hs : c.Stack ps) {par : Par} {p : Lval}
    (hfor : Checker.ParFor c par p) : Shows E c (.ok (c.push par)) (some (p :: ps)) := by
  have hi := Checker.intern_spec hrep.ok hfor
  rw [Checker.push]
  generalize c.intern par = interned at hi
  obtain ⟨idx, c'⟩ := interned
  have hsame := samePars_setPars c' (idx :: c'.pars)
  refine .ok ((hrep.intern hi).setPars _) (.cons (hsame.denotes.mpr hi.denotes) ?_)
    (hi.extends_.trans hsame.extends_)
  rw [hi.same.1]
  exact hs.imp fun _ _ hp => hp.mono (hi.extends_.trans hsame.extends_)

theorem Shows.weaken {c' : Checker} {r : Except Fault Checker} {o : Option (List Lval)}
    (h : Shows E c' r o) (hext : c.Extends c') : Shows E c r o := by
  cases h with
  | ok hrep hs hext' => exact .ok hrep hs (hext.trans hext')
  | stop => exact .stop

/-- A part of the topmost entry, the `n` topmost ones being gone. -/
theorem shows_part (hrep : Rep c E) {x : Nat} {xs : List Nat} {p : Lval} {rest : List Lval}
    {par : Par} {q : Lval} (hs : List.Forall₂ c.Denotes xs rest) (hx : c.Denotes x p)
    (hfor : ∀ d : Checker, d.Denotes x p → Checker.ParFor d par q) :
    Shows E c (.ok (({ c with pars := xs } : Checker).push par)) (some (q :: rest)) := by
  have hsame := samePars_setPars c xs
  have hs' : ({ c with pars := xs } : Checker).Stack rest :=
    hs.imp fun _ _ hp => hsame.denotes.mpr hp
  exact (shows_push (hrep.setPars xs) hs' (hfor _ (hsame.denotes.mpr hx))).weaken hsame.extends_

/-- `OP_ARR_AT` and `OP_SLICE_AT` -/
theorem shows_member (hrep : Rep c E) : ∀ xs ps, List.Forall₂ c.Denotes xs ps → Shows E c
    (match xs with
      | _ :: parent :: rest =>
          .ok (({ c with pars := rest } : Checker).push ⟨.arrMember, 0, parent⟩)
      | _ => .error .rejected)
    (match ps with
      | _ :: p :: rest => some (.elem p :: rest)
      | _ => none)
  | _, _, .nil => .stop
  | _, _, .cons _ .nil => .stop
  | _, _, .cons _ (.cons hx hs) => shows_part hrep hs hx fun _ hd => .elem hd

/-- `OP_STRUCT_AT` -/
theorem shows_field (hrep : Rep c E) (i : Nat) : ∀ xs ps, List.Forall₂ c.Denotes xs ps → Shows E c
    (match xs with
      | parent :: rest =>
          .ok (({ c with pars := rest } : Checker).push ⟨.structField, i, parent⟩)
      | [] => .error .rejected)
    (match ps with
      | p :: rest => some (.field p i :: rest)
      | [] => none)
  | _, _, .nil => .stop
  | _, _, .cons hx hs => shows_part hrep hs hx fun _ hd => .field hd

theorem nativeSigOnStack_stack (hs : c.Stack ps) :
    nativeSigOnStack ctx func c = nativeSigOf ctx func ps := by
  rw [nativeSigOnStack]
  rw [Checker.Stack] at hs
  cases hpars : c.pars with
  | nil =>
      rw [hpars] at hs
      cases hs
      rfl
  | cons x xs =>
      rw [hpars] at hs
      cases hs with
      | cons hx _ =>
          simp only [nativeSigOf, parType_eq hx]
          all_goals rfl

/-- `scan_ops` does to the places what it does to the paths. -/
theorem scanEffect_shows (hrep : Rep c E) (hs : c.Stack ps) :
    Shows E c (scanEffect ctx func op c) (lvalEffect ctx func op ps) := by
  rw [scanEffect, lvalEffect.eq_def]
  cases op.kind with
  | null => exact .ok hrep hs (.refl c)
  | pushVar => exact shows_push hrep hs .var
  | pushArg => exact shows_push hrep hs .arg
  | pushGlobal => exact shows_push hrep hs .global
  | assign => exact shows_popSecond hrep hs
  | addAssign => exact shows_popSecond hrep hs
  | subAssign => exact shows_popSecond hrep hs
  | mulAssign => exact shows_popSecond hrep hs
  | divAssign => exact shows_popSecond hrep hs
  | andAssign => exact shows_popSecond hrep hs
  | orAssign => exact shows_popSecond hrep hs
  | xorAssign => exact shows_popSecond hrep hs
  | bitNotAssign =>
      simp only [hs.length_eq]
      split
      · exact .stop
      · exact .ok hrep hs (.refl c)
  | drop => exact shows_pop hrep hs _
  | arrPush => exact shows_popSecond hrep hs
  | arrDrop => exact shows_popSecond hrep hs
  | sliceFromAr => exact shows_popSecond hrep hs
  | sliceFromOne => exact shows_popSecond hrep hs
  | sliceInc => exact shows_pop hrep hs 1
  | sliceDec => exact shows_pop hrep hs 1
  | arrAt => exact shows_member hrep _ _ hs
  | sliceAt => exact shows_member hrep _ _ hs
  | structAt => exact shows_field hrep _ _ _ hs
  | call =>
      simp only
      cases ctx.funcs[op.extra.toNat]? with
      | none => exact .stop
      | some callee => exact shows_drop hrep hs _ _
  | callNativeOnStack =>
      simp only [nativeSigOnStack_stack hs]
      cases nativeSigOf ctx func ps with
      | none => exact .stop
      | some sig => exact shows_drop hrep hs _ _

theorem parIsInt_denotes {x : Nat} {p : Lval} (hx : c.Denotes x p) : parIsInt ctx func c x =
    (decide (lvalType ctx func p < func.types.length) && lvalType ctx func p == intId) := by
  rw [parIsInt, parType_eq hx]

end Stack

/-! ## The relations -/

section Relations

variable {ctx : Context} {F : Holds} {c d : Checker}

/-- A checker that records some edges, and a second one that records `F`, with the same stack. -/
structure Paired (F : Holds) (c d : Checker) : Prop where
  left : ∃ E, Rep c E
  right : Rep d F
  stack : ∃ ps, c.Stack ps ∧ d.Stack ps

theorem scanRel_paired : ScanRel ctx (Paired F) where
  length h := by
    obtain ⟨ps, hc, hd⟩ := h.stack
    exact hc.length_eq.trans hd.length_eq.symm
  drop n h := by
    obtain ⟨E, hE⟩ := h.left
    obtain ⟨ps, hc, hd⟩ := h.stack
    exact ⟨⟨E, hE.setPars _⟩, h.right.setPars _, ps.drop n, hc.drop n, hd.drop n⟩
  effect := by
    intro func op c d c' h hc'
    obtain ⟨E, hE⟩ := h.left
    obtain ⟨ps, hc, hd⟩ := h.stack
    have hleft := @scanEffect_shows ctx func op _ _ _ hE hc
    have hright := @scanEffect_shows ctx func op _ _ _ h.right hd
    rw [hc'] at hleft
    generalize lvalEffect ctx func op ps = o at hleft hright
    generalize scanEffect ctx func op d = r at hright ⊢
    cases hleft with
    | ok hrep hs _ =>
        cases hright with
        | ok hrep' hs' _ => exact ⟨_, rfl, ⟨E, hrep⟩, hrep', _, hs, hs'⟩
  isInt := by
    intro func c d x xs y ys h hx hy
    obtain ⟨ps, hc, hd⟩ := h.stack
    rw [Checker.Stack, hx] at hc
    rw [Checker.Stack, hy] at hd
    cases hc with
    | cons hx' _ =>
        cases hd with
        | cons hy' _ => rw [parIsInt_denotes hx', parIsInt_denotes hy']

/-- One checker, which records some edges. -/
structure OneTable (c d : Checker) : Prop where
  same : c = d
  rep : ∃ E, Rep c E
  stack : ∃ ps, c.Stack ps

theorem scanRel_oneTable : ScanRel ctx OneTable where
  length h := by rw [h.same]
  drop n h := by
    obtain ⟨rfl, ⟨E, hE⟩, ps, hs⟩ := h
    exact ⟨rfl, ⟨E, hE.setPars _⟩, ps.drop n, hs.drop n⟩
  effect := by
    intro func op c d c' h hc'
    obtain ⟨rfl, ⟨E, hE⟩, ps, hs⟩ := h
    have hshows := @scanEffect_shows ctx func op _ _ _ hE hs
    rw [hc'] at hshows
    generalize lvalEffect ctx func op ps = o at hshows
    cases hshows with
    | ok hrep hs _ => exact ⟨c', hc', rfl, ⟨E, hrep⟩, _, hs⟩
  isInt := by
    intro func c d x xs y ys h hx hy
    rw [h.same, hy] at hx
    cases hx
    rw [h.same]

end Relations

end TreeVM
