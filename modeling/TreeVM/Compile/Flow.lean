import TreeVM.Compile.FuncSound
import TreeVM.Logic.Within

/-!
# Program points of compiled code

Every instruction of compiled code is reached in one known state: the locals, the temporaries and
their types, the crash pads.

* `Point`: an offset with that state;
* `Flow`: the instruction at a point and the points behind it;
* `codeBlock_within`: the code of a block stays at such points until it leaves through one of its
  exits;
* `funcCode_safe`: the code of a function stays at such points for good.

`strict` asks in addition that no jump leaves the handler of a crash pad (`HandlersKept`).
-/

namespace TreeVM

/-- `floor` is that of `Ctx`; `dropped` counts the inputs that the function has dropped. -/
structure Point where
  pc : Nat
  slots : List Slot
  temps : List Nat := []
  pads : List Pad := []
  floor : Option (List Pad) := none
  dropped : Nat := 0

/-- Where the handler of a pad starts. -/
def Pad.point (pad : Pad) (below : List Pad) : Point where
  pc := pad.handler
  slots := pad.slots
  pads := below
  floor := some below

section Flow

variable (env : CompileEnv) (I : Image) (strict : Prop)

/-- The instruction at a point; every point behind it satisfies `P`. -/
inductive Flow (P : Point → Prop) (p : Point) : Prop
  | op {op i temps} : op ∈ env.func.ops → p.dropped = 0 →
      OpInstr env I p.slots op p.temps (some i) temps → InstrAt I p.pc p.temps i →
      P { p with pc := p.pc + i.size, temps := temps } → Flow P p
  | discard : p.dropped = 0 → p.temps.length < 2 ^ 32 →
      InstrAt I p.pc p.temps (.dropN (UInt32.ofNat p.temps.length)) →
      P { p with pc := p.pc + 5, temps := [] } → Flow P p
  | test {yes no : UInt16} : p.dropped = 0 → p.temps = [intId] →
      InstrAt I p.pc p.temps (.branchTop yes no) →
      P { p with pc := yes.toNat, temps := [] } → P { p with pc := no.toNat, temps := [] } →
      Flow P p
  | jump {target : UInt16} {slots floor} : p.dropped = 0 → p.temps = [] →
      InstrAt I p.pc [] (.jump target) → slots <:+ p.slots →
      (∀ pad ∈ p.pads, pad.slots <:+ slots) →
      frameOf env.types slots = frameOf env.types p.slots → (strict → floor = p.floor) →
      P { p with pc := target.toNat, slots := slots, floor := floor } → Flow P p
  | alloc {v tid x} : p.dropped = 0 → p.temps = [] → InstrAt I p.pc [] (.storageAdd x) →
      x.toInt = stackSize env.types tid → frameOf env.types p.slots + stackSize env.types tid ≤ 32767 →
      P { p with pc := p.pc + 3, slots := ⟨v, frameOf env.types p.slots, tid⟩ :: p.slots } →
      Flow P p
  | release {slots x} : p.dropped = 0 → p.temps = [] → InstrAt I p.pc [] (.storageAdd x) →
      slots <:+ p.slots → (∀ pad ∈ p.pads, pad.slots <:+ slots) →
      x.toInt = (frameOf env.types slots : Int) - frameOf env.types p.slots →
      P { p with pc := p.pc + 3, slots := slots } → Flow P p
  | guard {handler : UInt16} : p.dropped = 0 → p.temps = [] →
      InstrAt I p.pc [] (.pushCrash handler) →
      P (Pad.point ⟨handler.toNat, p.slots⟩ p.pads) →
      P { p with pc := p.pc + 3, pads := ⟨handler.toNat, p.slots⟩ :: p.pads } → Flow P p
  | unguard {pad pads} : p.dropped = 0 → p.temps = [] → InstrAt I p.pc [] .popCrash →
      p.pads = pad :: pads → (strict → ∀ below, p.floor = some below → below <:+ pads) →
      P { p with pc := p.pc + 1, pads := pads } → Flow P p
  | crash : p.dropped = 0 → p.temps = [] → InstrAt I p.pc [] .crash → Flow P p
  | hardCrash : p.dropped = 0 → p.temps = [] → InstrAt I p.pc [] .hardCrash → Flow P p
  | dropArgs : p.slots = [] → p.temps = [] → p.pads = [] → p.floor = none → p.dropped = 0 →
      env.func.sig.ins.length < 2 ^ 32 → InstrAt I p.pc [] (.dropN (UInt32.ofNat env.func.sig.ins.length)) →
      P { p with pc := p.pc + 5, dropped := env.func.sig.ins.length } → Flow P p
  | ret : p.slots = [] → p.temps = [] → p.pads = [] → p.floor = none →
      p.dropped = env.func.sig.ins.length → InstrAt I p.pc [] .ret → Flow P p

theorem Flow.mono : MonoStep (Flow env I strict) := by
  intro P Q p hPQ h
  cases h with
  | op hop hd hi hat hP => exact .op hop hd hi hat (hPQ _ hP)
  | discard hd hlen hat hP => exact .discard hd hlen hat (hPQ _ hP)
  | test hd ht hat hyes hno => exact .test hd ht hat (hPQ _ hyes) (hPQ _ hno)
  | jump hd ht hat hslots hpads hframe hfloor hP =>
      exact .jump hd ht hat hslots hpads hframe hfloor (hPQ _ hP)
  | alloc hd ht hat hx hfit hP => exact .alloc hd ht hat hx hfit (hPQ _ hP)
  | release hd ht hat hslots hpads hx hP => exact .release hd ht hat hslots hpads hx (hPQ _ hP)
  | guard hd ht hat hpad hP => exact .guard hd ht hat (hPQ _ hpad) (hPQ _ hP)
  | unguard hd ht hat hpads hfloor hP => exact .unguard hd ht hat hpads hfloor (hPQ _ hP)
  | crash hd ht hat => exact .crash hd ht hat
  | hardCrash hd ht hat => exact .hardCrash hd ht hat
  | dropArgs hs ht hp hf hd hins hat hP => exact .dropArgs hs ht hp hf hd hins hat (hPQ _ hP)
  | ret hs ht hp hf hd hat => exact .ret hs ht hp hf hd hat

/-- From this point on, compiled code stays at known points. -/
def Safe : Point → Prop :=
  Within (Flow env I strict) fun _ => False

end Flow

/-! ## Contexts -/

/-- The point between two blocks. -/
def Ctx.point (Γ : Ctx) (pc : Nat) : Point where
  pc := pc
  slots := Γ.slots
  pads := Γ.pads
  floor := Γ.floor

def ScopeAt.point (s : ScopeAt) (pc : Nat) : Point where
  pc := pc
  slots := s.slots
  pads := s.pads
  floor := s.floor

/-- What is inside a scope or under a pad is above the rest. -/
structure Ctx.Nested (types : List Ty) (Γ : Ctx) : Prop where
  slots : SlotsOk types Γ.slots
  pads : ∀ pad ∈ Γ.pads, pad.slots <:+ Γ.slots
  floor : ∀ below, Γ.floor = some below → below <:+ Γ.pads
  scopeSlots : ∀ s ∈ Γ.scopes, s.slots <:+ Γ.slots
  scopePads : ∀ s ∈ Γ.scopes, s.pads <:+ Γ.pads ∧ ∀ pad ∈ s.pads, pad.slots <:+ s.slots
  scopeFloor : ∀ s ∈ Γ.scopes, ∀ below, s.floor = some below → below <:+ s.pads

theorem frameOf_le_of_suffix {types : List Ty} {l l' : List Slot} (h : SlotsOk types l)
    (hsuffix : l' <:+ l) : frameOf types l' ≤ frameOf types l := by
  induction l with
  | nil =>
      obtain rfl := List.suffix_nil.mp hsuffix
      exact Nat.le_refl _
  | cons s l ih =>
      rcases List.suffix_cons_iff.mp hsuffix with rfl | hsuffix
      · exact Nat.le_refl _
      · calc
          frameOf types l' ≤ frameOf types l := ih h.2.2 hsuffix
          _ = s.base := h.1.symm
          _ ≤ frameOf types (s :: l) := Nat.le_add_right _ _

theorem SlotsOk.of_suffix {types : List Ty} {l l' : List Slot} (h : SlotsOk types l)
    (hsuffix : l' <:+ l) : SlotsOk types l' := by
  induction l with
  | nil =>
      rw [List.suffix_nil.mp hsuffix]
      trivial
  | cons s l ih =>
      rcases List.suffix_cons_iff.mp hsuffix with rfl | hsuffix
      · exact h
      · exact ih h.2.2 hsuffix

theorem SlotsOk.mem_le {types : List Ty} {l : List Slot} (h : SlotsOk types l) {s : Slot}
    (hs : s ∈ l) : s.base + stackSize types s.tid ≤ frameOf types l := by
  obtain ⟨before, behind, rfl⟩ := List.append_of_mem hs
  exact frameOf_le_of_suffix h (List.suffix_append _ _)

/-- No break in the tree at a place leaves the handler of a crash pad: inside the innermost
handler there are `n` scopes, outside of all handlers `n` is `none`. -/
inductive HandlersKept (blocks : List Block) : Option Nat → Place → Prop
  | basic {n i r} : blocks[i]? = some (.basic r) → HandlersKept blocks n (.node i)
  | many {n i cur next} : blocks[i]? = some (.many cur next) →
      HandlersKept blocks (n.map (· + 1)) (.seq cur next) → HandlersKept blocks n (.node i)
  | stop {n next} : HandlersKept blocks n (.seq none next)
  | last {n c} : HandlersKept blocks n (.node c) → HandlersKept blocks n (.seq (some c) none)
  | link {n c l cur next} : blocks[l]? = some (.chain cur next) → HandlersKept blocks n (.node c) →
      HandlersKept blocks n (.seq cur next) → HandlersKept blocks n (.seq (some c) (some l))
  | crash {n i} : blocks[i]? = some .crash → HandlersKept blocks n (.node i)
  | hardCrash {n i} : blocks[i]? = some .hardCrash → HandlersKept blocks n (.node i)
  | brk {n i level} : blocks[i]? = some (.brk level) → (∀ k, n = some k → level ≤ k) →
      HandlersKept blocks n (.node i)
  | var {n i v body} : blocks[i]? = some (.var v body) →
      HandlersKept blocks (n.map (· + 1)) (.node body) → HandlersKept blocks n (.node i)
  | branch {n i cond yes no} : blocks[i]? = some (.branch cond yes no) →
      HandlersKept blocks n (.node yes) → HandlersKept blocks n (.node no) →
      HandlersKept blocks n (.node i)
  | loop {n i body} : blocks[i]? = some (.loop body) →
      HandlersKept blocks (n.map (· + 1)) (.node body) → HandlersKept blocks n (.node i)
  | crashPad {n i body pad} : blocks[i]? = some (.crashPad body pad) →
      HandlersKept blocks n (.node body) → HandlersKept blocks (some 0) (.node pad) →
      HandlersKept blocks n (.node i)

/-- The scopes that a break inside the current handler may leave. -/
def Ctx.SameFloor (Γ : Ctx) (n : Option Nat) : Prop :=
  ∀ j s, Γ.scopes[j]? = some s → (∀ k, n = some k → j < k) → s.floor = Γ.floor

/-- No break in the block at a place leaves a handler, in its context. -/
def KeptIn (blocks : List Block) (Γ : Ctx) (p : Place) : Prop :=
  ∃ n, HandlersKept blocks n p ∧ Γ.SameFloor n

theorem Ctx.SameFloor.scope {Γ : Ctx} {n : Option Nat} (h : Γ.SameFloor n) (target : Option Nat) :
    (Γ.scope target).SameFloor (n.map (· + 1)) := by
  intro j s hj hn
  cases j with
  | zero =>
      cases hj
      rfl
  | succ j =>
      refine h j s hj fun k hk => ?_
      exact Nat.lt_of_succ_lt_succ (hn (k + 1) (by rw [hk, Option.map_some]))

namespace KeptIn

variable {blocks : List Block} {Γ : Ctx} {i : Nat}

theorem many {cur next : Option Nat} {target : Option Nat} (h : KeptIn blocks Γ (.node i))
    (hi : blocks[i]? = some (.many cur next)) : KeptIn blocks (Γ.scope target) (.seq cur next) := by
  obtain ⟨n, hkeep, hfloor⟩ := h
  cases hkeep <;> simp_all only [Option.some.injEq, Block.many.injEq, reduceCtorEq]
  exact ⟨_, ‹_›, hfloor.scope target⟩

theorem last {c : Nat} {next : Option Nat} (h : KeptIn blocks Γ (.seq (some c) next)) :
    KeptIn blocks Γ (.node c) := by
  obtain ⟨n, hkeep, hfloor⟩ := h
  cases hkeep with
  | last hc => exact ⟨n, hc, hfloor⟩
  | link _ hc _ => exact ⟨n, hc, hfloor⟩

theorem link {c l : Nat} {cur next : Option Nat} (h : KeptIn blocks Γ (.seq (some c) (some l)))
    (hl : blocks[l]? = some (.chain cur next)) : KeptIn blocks Γ (.seq cur next) := by
  obtain ⟨n, hkeep, hfloor⟩ := h
  cases hkeep with
  | link hl' _ hrest =>
      rw [hl] at hl'
      cases hl'
      exact ⟨n, hrest, hfloor⟩

theorem brk {level : Nat} {s : ScopeAt} (h : KeptIn blocks Γ (.node i))
    (hi : blocks[i]? = some (.brk (level + 1))) (hs : Γ.scopes[level]? = some s) :
    s.floor = Γ.floor := by
  obtain ⟨n, hkeep, hfloor⟩ := h
  cases hkeep <;> simp_all only [Option.some.injEq, Block.brk.injEq, reduceCtorEq]
  exact hfloor level s hs ‹_›

theorem var {v body tid : Nat} {types : List Ty} {target : Option Nat}
    (h : KeptIn blocks Γ (.node i)) (hi : blocks[i]? = some (.var v body)) :
    KeptIn blocks (Γ.local types target v tid) (.node body) := by
  obtain ⟨n, hkeep, hfloor⟩ := h
  cases hkeep <;> simp_all only [Option.some.injEq, Block.var.injEq, reduceCtorEq]
  exact ⟨_, ‹_›, hfloor.scope target⟩

theorem branch {cond : OpRange} {yes no : Nat} (h : KeptIn blocks Γ (.node i))
    (hi : blocks[i]? = some (.branch cond yes no)) :
    KeptIn blocks Γ (.node yes) ∧ KeptIn blocks Γ (.node no) := by
  obtain ⟨n, hkeep, hfloor⟩ := h
  cases hkeep <;> simp_all only [Option.some.injEq, Block.branch.injEq, reduceCtorEq]
  exact ⟨⟨n, ‹_›, hfloor⟩, ⟨n, ‹_›, hfloor⟩⟩

theorem loop {body : Nat} {target : Option Nat} (h : KeptIn blocks Γ (.node i))
    (hi : blocks[i]? = some (.loop body)) : KeptIn blocks (Γ.scope target) (.node body) := by
  obtain ⟨n, hkeep, hfloor⟩ := h
  cases hkeep <;> simp_all only [Option.some.injEq, Block.loop.injEq, reduceCtorEq]
  exact ⟨_, ‹_›, hfloor.scope target⟩

theorem crashPad {body pad : Nat} (handler : Nat) (h : KeptIn blocks Γ (.node i))
    (hi : blocks[i]? = some (.crashPad body pad)) :
    KeptIn blocks (Γ.guarded handler) (.node body) ∧ KeptIn blocks Γ.handler (.node pad) := by
  obtain ⟨n, hkeep, hfloor⟩ := h
  cases hkeep <;> simp_all only [Option.some.injEq, Block.crashPad.injEq, reduceCtorEq]
  refine ⟨⟨n, ‹_›, hfloor⟩, some 0, ‹_›, fun j s _ hj => ?_⟩
  exact absurd (hj 0 rfl) (Nat.not_lt_zero j)

end KeptIn

namespace Ctx.Nested

variable {types : List Ty} {Γ : Ctx}

theorem scope (h : Γ.Nested types) (target : Option Nat) : (Γ.scope target).Nested types where
  slots := h.slots
  pads := h.pads
  floor := h.floor
  scopeSlots := List.forall_mem_cons.mpr ⟨List.suffix_refl _, h.scopeSlots⟩
  scopePads := List.forall_mem_cons.mpr ⟨⟨List.suffix_refl _, h.pads⟩, h.scopePads⟩
  scopeFloor := List.forall_mem_cons.mpr ⟨h.floor, h.scopeFloor⟩

theorem inLocal (h : Γ.Nested types) {target : Option Nat} {v tid : Nat}
    (hfit : frameOf types Γ.slots + stackSize types tid ≤ 32767) :
    (Γ.local types target v tid).Nested types where
  slots := ⟨rfl, hfit, h.slots⟩
  pads pad hpad := (h.pads pad hpad).trans (List.suffix_cons _ _)
  floor := h.floor
  scopeSlots s hs := ((h.scope target).scopeSlots s hs).trans (List.suffix_cons _ _)
  scopePads := (h.scope target).scopePads
  scopeFloor := (h.scope target).scopeFloor

theorem guarded (h : Γ.Nested types) (handler : Nat) : (Γ.guarded handler).Nested types where
  slots := h.slots
  pads := List.forall_mem_cons.mpr ⟨List.suffix_refl _, h.pads⟩
  floor below hbelow := (h.floor below hbelow).trans (List.suffix_cons _ _)
  scopeSlots := h.scopeSlots
  scopePads s hs := ⟨(h.scopePads s hs).1.trans (List.suffix_cons _ _), (h.scopePads s hs).2⟩
  scopeFloor := h.scopeFloor

theorem handler (h : Γ.Nested types) : Γ.handler.Nested types where
  slots := h.slots
  pads := h.pads
  floor below hbelow := by
    cases hbelow
    exact List.suffix_refl _
  scopeSlots := h.scopeSlots
  scopePads := h.scopePads
  scopeFloor := h.scopeFloor

end Ctx.Nested

theorem Ctx.nested_empty (types : List Ty) : Ctx.Nested types {} where
  slots := trivial
  pads _ hpad := by cases hpad
  floor _ hbelow := by cases hbelow
  scopeSlots _ hs := by cases hs
  scopePads _ hs := by cases hs
  scopeFloor _ hs := by cases hs

/-! ## Blocks -/

/-- Where the code of a block is left: behind it, or behind a scope by a break. -/
inductive Exits (Γ : Ctx) (r : Reach) (o' : Nat) : Point → Prop
  | next : r = .reachable → Exits Γ r o' (Γ.point o')
  | brk {j : Nat} {t : Nat} {s : ScopeAt} : Γ.scopes[j]? = some s → s.target = some t → Exits Γ r o' (s.point t)

section Blocks

variable {env : CompileEnv} {I : Image} {strict : Prop}

theorem codeOps_within (strict : Prop) {slots : List Slot} {ops : List Op} {o o' : Nat} {ps ps' : List Nat}
    (h : CodeOps env I slots ops o ps o' ps') (hops : ∀ op ∈ ops, op ∈ env.func.ops) {p : Point}
    (hslots : p.slots = slots) (hdropped : p.dropped = 0) :
    Within (Flow env I strict) (fun q => q = { p with pc := o', temps := ps' })
      { p with pc := o, temps := ps } := by
  induction h with
  | nil => exact .exit rfl
  | @skip op ops o ps o' ps' ps'' hop _ ih =>
      have hsame : ps' = ps := by
        cases hop
        rfl
      rw [← hsame]
      exact ih fun op hmem => hops op (List.mem_cons_of_mem _ hmem)
  | emit hop hat _ ih =>
      have hrest := ih fun op hmem => hops op (List.mem_cons_of_mem _ hmem)
      refine .step (Flow.mono env I strict) (.op (hops _ List.mem_cons_self) hdropped ?_ hat hrest)
      rw [hslots]
      exact hop

/-- Popping the pads `top`. -/
theorem popsAt_within {p : Point} (hdropped : p.dropped = 0) (htemps : p.temps = [])
    {top rest : List Pad} {o : Nat}
    (hfloor : strict → ∀ below, p.floor = some below → below <:+ rest)
    (h : PopsAt I o top.length) :
    Within (Flow env I strict) (fun q => q = { p with pc := o + top.length, pads := rest })
      { p with pc := o, pads := top ++ rest } := by
  induction top generalizing o with
  | nil => exact .exit rfl
  | cons pad top ih =>
      have hfirst : InstrAt I o [] .popCrash := h 0 (by simp)
      have hmore : PopsAt I (o + 1) top.length := by
        intro k hk
        rw [show o + 1 + k = o + (k + 1) by omega]
        exact h (k + 1) (by simpa using hk)
      have hrest := ih hmore
      rw [show o + 1 + top.length = o + (pad :: top).length by simp; omega] at hrest
      refine .step (Flow.mono env I strict) (.unguard hdropped htemps hfirst rfl ?_ hrest)
      intro hstrict below hbelow
      exact (hfloor hstrict below hbelow).trans (List.suffix_append _ _)

theorem toNat_ofNat_uint16 {n : Nat} (h : n ≤ 65535) : (UInt16.ofNat n).toNat = n := by
  simp only [UInt16.toNat_ofNat']
  omega

/-- A jump that changes nothing else. -/
theorem jumpAt_flow {Γ : Ctx} {types : List Ty} (hΓ : Γ.Nested types) {o target : Nat}
    (h : JumpAt I o target) {P : Point → Prop} (hP : P (Γ.point target)) :
    Flow env I strict P (Γ.point o) := by
  refine .jump rfl rfl h.2 (List.suffix_refl _) hΓ.pads rfl (fun _ => rfl) ?_
  rw [toNat_ofNat_uint16 h.1]
  exact hP

/-- `compile_break`: pads are popped, the frame shrinks, the jump leaves. -/
theorem break_within {Γ : Ctx} (hΓ : Γ.Nested env.types) {s : ScopeAt} {level target o o₁ : Nat}
    (hs : Γ.scopes[level]? = some s) (hfloor : strict → s.floor = Γ.floor)
    (hpops : PopsAt I o (Γ.pads.length - s.pads.length))
    (hadd : if frameOf env.types s.slots = frameOf env.types Γ.slots then
        o₁ = o + (Γ.pads.length - s.pads.length)
      else AddAt I (o + (Γ.pads.length - s.pads.length))
          ((frameOf env.types s.slots : Int) - frameOf env.types Γ.slots) ∧
        o₁ = o + (Γ.pads.length - s.pads.length) + 3)
    (hjump : JumpAt I o₁ target) :
    Within (Flow env I strict) (fun q => q = s.point target) (Γ.point o) := by
  have hmem := List.mem_of_getElem? hs
  obtain ⟨⟨top, htop⟩, hpads⟩ := hΓ.scopePads s hmem
  have hslots := hΓ.scopeSlots s hmem
  have hcount : Γ.pads.length - s.pads.length = top.length := by
    rw [← htop]
    simp
  rw [hcount] at hpops hadd
  have hpop : Within (Flow env I strict)
      (fun q => q = { Γ.point o with pc := o + top.length, pads := s.pads })
      { Γ.point o with pc := o, pads := top ++ s.pads } := by
    refine popsAt_within rfl rfl (fun hstrict below hbelow => ?_) hpops
    refine hΓ.scopeFloor s hmem below ?_
    rw [hfloor hstrict]
    exact hbelow
  rw [htop] at hpop
  refine hpop.bind (Flow.mono env I strict) ?_
  rintro q rfl
  -- the last jump also drops slots that take no storage
  have hleave : ∀ slots, s.slots <:+ slots → frameOf env.types s.slots = frameOf env.types slots →
      Within (Flow env I strict) (fun q => q = s.point target)
        { pc := o₁, slots := slots, pads := s.pads, floor := Γ.floor } := by
    intro slots hsuffix hframe
    have hexit : Within (Flow env I strict) (fun q => q = s.point target)
        { pc := (UInt16.ofNat target).toNat, slots := s.slots, pads := s.pads, floor := s.floor } := by
      rw [toNat_ofNat_uint16 hjump.1]
      exact .exit rfl
    exact .step (Flow.mono env I strict) (.jump rfl rfl hjump.2 hsuffix hpads hframe hfloor hexit)
  split at hadd
  · rename_i hframe
    rw [← hadd]
    exact hleave Γ.slots hslots hframe
  · obtain ⟨⟨x, hx, hat⟩, hnext⟩ := hadd
    refine .step (Flow.mono env I strict) (.release rfl rfl hat hslots hpads hx ?_)
    have := hleave s.slots (List.suffix_refl _) rfl
    rw [hnext] at this
    exact this

/-- Breaks out of a new scope go behind it or further out. -/
theorem Exits.of_scope {Γ Δ : Ctx} {target : Option Nat} {r : Reach} {o₁ o' : Nat} {q : Point}
    (h : Exits Δ r o₁ q) (hscopes : Δ.scopes = (Γ.scope target).scopes)
    (htarget : ∀ t, target = some t → t = o') :
    (r = .reachable ∧ q = Δ.point o₁) ∨ Exits Γ (Reach.orBreaks .unreachable target) o' q := by
  cases h with
  | next hr => exact .inl ⟨hr, rfl⟩
  | @brk j t s hs ht =>
      rw [hscopes] at hs
      cases j with
      | zero =>
          cases hs
          have hsome : target = some t := ht
          have ho : t = o' := htarget t hsome
          subst ho
          exact .inr (.next (by rw [Reach.orBreaks, if_pos (.inr (by rw [hsome]; rfl))]))
      | succ j => exact .inr (.brk hs ht)

theorem Exits.orBreaks {Γ : Ctx} {target : Option Nat} {r : Reach} {o' : Nat} {q : Point}
    (h : Exits Γ (Reach.orBreaks .unreachable target) o' q) :
    Exits Γ (r.orBreaks target) o' q := by
  cases h with
  | next hr =>
      have hsome : target.isSome := by
        by_contra hnone
        simp [Reach.orBreaks, hnone] at hr
      exact .next (by rw [Reach.orBreaks, if_pos (.inr hsome)])
  | brk hs ht => exact .brk hs ht

theorem codeBlock_within {Γ : Ctx} {p : Place} {o o' : Nat} {r : Reach}
    (h : CodeBlock env I Γ p o r o') (hΓ : Γ.Nested env.types)
    (hkept : strict → KeptIn env.func.blocks Γ p) :
    Within (Flow env I strict) (Exits Γ r o') (Γ.point o) := by
  have hF := Flow.mono env I strict
  -- by induction on the code; every construct is followed to its own exits
  induction h with
  | @basic Γ i r ops o o₁ ps hi hops hcode hlen hdiscard =>
      have hwithin := codeOps_within strict hcode (fun op hop => opsIn_mem hops hop)
        (p := Γ.point o) rfl rfl
      refine hwithin.bind hF ?_
      rintro q rfl
      split
      · rename_i hps
        subst hps
        exact .exit (.next rfl)
      · rename_i hps
        refine .step hF (.discard rfl hlen (hdiscard hps) (.exit (.next rfl)))
  | @many Γ i cur next target o r o' hi htarget _ ih =>
      refine (ih (hΓ.scope target) fun hstrict => (hkept hstrict).many hi).mono hF fun q hq => ?_
      rcases hq.of_scope rfl htarget with ⟨hr, rfl⟩ | hq
      · exact .next (by rw [Reach.orBreaks, if_pos (.inl hr)])
      · exact hq.orBreaks
  | stop => exact .exit (.next rfl)
  | last _ ih => exact ih hΓ fun hstrict => (hkept hstrict).last
  | link hl _ _ ih₁ ih₂ =>
      refine (ih₁ hΓ fun hstrict => (hkept hstrict).last).bind hF ?_
      -- a break out of the first part skips the rest of the sequence
      rintro q (_ | ⟨hs, ht⟩)
      · exact ih₂ hΓ fun hstrict => (hkept hstrict).link hl
      · exact .exit (.brk hs ht)
  | skip _ ih => exact ih hΓ fun hstrict => (hkept hstrict).last
  | crash _ hat => exact .step hF (.crash rfl rfl hat)
  | hardCrash _ hat => exact .step hF (.hardCrash rfl rfl hat)
  | brk hi hs ht hpops hadd hjump =>
      have hbreak := break_within hΓ hs (fun hstrict => (hkept hstrict).brk hi hs) hpops hadd hjump
      refine hbreak.mono hF ?_
      rintro q rfl
      exact .brk hs ht
  | @var Γ i v body tid t target o r o₁ o' hi _ ht hfit hadd htarget _ hend hstop ih =>
      have hsize : stackSize env.types tid = t.size.toNat := by rw [stackSize, ht]
      rw [← hsize] at hfit hadd hend
      obtain ⟨x, hx, hat⟩ := hadd
      refine .step hF (.alloc (v := v) rfl rfl hat hx hfit ?_)
      refine (ih (hΓ.inLocal hfit) fun hstrict => (hkept hstrict).var hi).bind hF fun q hq => ?_
      rcases hq.of_scope rfl htarget with ⟨hr, rfl⟩ | hq
      · -- the end of the body: the local is released
        obtain ⟨⟨y, hy, hat'⟩, rfl⟩ := hend hr
        refine .step hF (.release rfl rfl hat' (List.suffix_cons _ _) hΓ.pads ?_
          (.exit (.next (by rw [Reach.orBreaks, if_pos (.inl hr)]))))
        rw [hy]
        simp only [Ctx.point, Ctx.local, Ctx.scope, frameOf]
        omega
      · exact .exit hq.orBreaks
  -- the test forks; the first arm ends with a jump over the second
  | @branch Γ i cond yes no ops o o₁ r₁ o₂ o₃ r₂ o' hi hops hcode ho₃ ho₁ hat _ hend hstop _ ih₁
      ih₂ =>
      have hno := ih₂ hΓ fun hstrict => ((hkept hstrict).branch hi).2
      have hyes := ih₁ hΓ fun hstrict => ((hkept hstrict).branch hi).1
      have hwithin := codeOps_within strict hcode (fun op hop => opsIn_mem hops hop)
        (p := Γ.point o) rfl rfl
      refine hwithin.bind hF ?_
      rintro q rfl
      refine .step hF (.test rfl rfl hat ?_ ?_)
      · rw [toNat_ofNat_uint16 ho₁]
        refine hyes.bind hF ?_
        rintro q (hr | ⟨hs, ht⟩)
        · refine .step hF (jumpAt_flow hΓ (hend hr).1 (.exit (.next ?_)))
          rw [if_pos (.inl hr)]
        · exact .exit (.brk hs ht)
      · rw [toNat_ofNat_uint16 ho₃]
        refine hno.mono hF ?_
        rintro q (hr | ⟨hs, ht⟩)
        · exact .next (by rw [if_pos (.inr hr)])
        · exact .brk hs ht
  -- the end of the body is the point where the code began, so the loop is closed by `Within.loop`
  | @loop Γ i body target o r o₁ o' hi htarget _ hend hstop ih =>
      have hbody := ih (hΓ.scope target) fun hstrict => (hkept hstrict).loop hi
      refine Within.loop (B := fun q => r = .reachable ∧ q = Γ.point o₁) hF
        (hbody.mono hF fun q hq => ?_) ?_
      · rcases hq.of_scope rfl htarget with hback | hq
        · exact .inl hback
        · exact .inr hq
      · rintro q ⟨hr, rfl⟩
        exact jumpAt_flow hΓ (hend hr).1 rfl
  -- a crash of the body starts the pad at the handler; a body that ends pops it and jumps over
  | @crashPad Γ i body pad handler o r₁ o₁ r₂ o₂ o' hi hhandler hat _ hend hstop _ hcrash hskip ih₁
      ih₂ =>
      have hbody := ih₁ (hΓ.guarded handler) fun hstrict => ((hkept hstrict).crashPad handler hi).1
      have hpad := ih₂ hΓ.handler fun hstrict => ((hkept hstrict).crashPad handler hi).2
      refine .step hF (.guard rfl rfl hat ?_ ?_)
      · rw [toNat_ofNat_uint16 hhandler]
        refine hpad.bind hF ?_
        rintro q (hr | ⟨hs, ht⟩)
        · exact .step hF (.crash rfl rfl (hcrash hr).1)
        · exact .exit (.brk hs ht)
      · rw [toNat_ofNat_uint16 hhandler]
        refine hbody.bind hF ?_
        rintro q (hr | ⟨hs, ht⟩)
        · obtain ⟨hpop, hjump, -⟩ := hend hr
          refine .step hF (.unguard rfl rfl hpop rfl (fun _ => hΓ.floor) ?_)
          exact .step hF (jumpAt_flow hΓ hjump (.exit (.next hr)))
        · exact .exit (.brk hs ht)

/-- The code of a function stays at known points. -/
theorem funcCode_safe (h : FuncCode env I)
    (hkept : strict → HandlersKept env.func.blocks none (.node 0)) :
    Safe env I strict { pc := 0, slots := [] } := by
  have hF := Flow.mono env I strict
  obtain ⟨r, o, hcode, hend⟩ := h.body
  have hbody := codeBlock_within hcode (Ctx.nested_empty env.types)
    fun hstrict => ⟨none, hkept hstrict, fun _ _ hs => by cases hs⟩
  refine Within.bind hF hbody ?_
  rintro q (hr | ⟨hs, -⟩)
  · rw [EndAt] at hend
    split at hend
    · rename_i hins
      exact .step hF (.ret rfl rfl rfl rfl hins.symm hend)
    · obtain ⟨hdrop, hret⟩ := hend
      exact .step hF (.dropArgs rfl rfl rfl rfl rfl h.ins hdrop
        (.step hF (.ret rfl rfl rfl rfl rfl hret)))
  · cases hs

end Blocks

end TreeVM
