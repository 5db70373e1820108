import Mathlib.Algebra.Order.Ring.Int
import TreeVM.Run.Returns

/-!
# Signed arithmetic

`B_ADD`, `B_SUB`, `B_MUL` and `B_DIV` compute C expressions over `int64_t`, which are defined when
the exact result is an `int64_t`.

* `ArithOp.exact`: the exact result; `State.ArithDefined`: the next instruction is defined;
* `ArithOp.OperandsFit`: what has to hold of the operands;
* `run_arithmetic_iff`: in every state of a run the one holds exactly when the other does.
-/

namespace TreeVM

/-- The range of `num_t` -/
def Representable (x : Int) : Prop :=
  -2 ^ 63 ≤ x ∧ x < 2 ^ 63

theorem Representable.toInt (x : Int64) : Representable x.toInt :=
  ⟨Int64.le_toInt x, Int64.toInt_lt x⟩

theorem Representable.bmod_eq {x : Int} (h : Representable x) : x.bmod (2 ^ 64) = x := by
  obtain ⟨hmin, hmax⟩ := h
  exact Int.bmod_eq_of_le (by omega) (by omega)

namespace ArithOp

/-- The exact result, for the operations that are arithmetic.  Division truncates. -/
def exact (lhs rhs : Int) : ArithOp → Option Int
  | add => some (lhs + rhs)
  | sub => some (lhs - rhs)
  | mul => some (lhs * rhs)
  | div => some (lhs.tdiv rhs)
  | _ => none

/-- The operands stay inside the limits, without the result being computed. -/
def OperandsFit (lhs rhs : Int) : ArithOp → Prop
  | add => (0 ≤ rhs → lhs ≤ 2 ^ 63 - 1 - rhs) ∧ (rhs < 0 → -2 ^ 63 - rhs ≤ lhs)
  | sub => (0 ≤ rhs → -2 ^ 63 + rhs ≤ lhs) ∧ (rhs < 0 → lhs ≤ 2 ^ 63 - 1 + rhs)
  | mul =>
      (0 < lhs → 0 < rhs → rhs ≤ (2 ^ 63 - 1) / lhs) ∧ (0 < lhs → rhs < 0 → -rhs ≤ 2 ^ 63 / lhs) ∧
      (lhs < 0 → 0 < rhs → rhs ≤ 2 ^ 63 / -lhs) ∧
      (lhs < 0 → rhs < 0 → -rhs ≤ (2 ^ 63 - 1) / -lhs)
  | div => ¬ (lhs = -2 ^ 63 ∧ rhs = -1)
  | _ => True

variable {lhs rhs : Int}

theorem le_limit_iff {a b c : Int} (hb : 0 < b) : a ≤ c / b ↔ b * a ≤ c := by
  rw [Int.le_ediv_iff_mul_le hb, Int.mul_comm]

theorem mul_fits_iff : OperandsFit lhs rhs mul ↔ Representable (lhs * rhs) := by
  rw [OperandsFit, Representable]
  -- the signs of the operands decide which limit counts
  rcases lt_trichotomy lhs 0 with hl | rfl | hl
  · have hpos : 0 < -lhs := by omega
    rw [le_limit_iff hpos, le_limit_iff hpos, neg_mul_neg, neg_mul]
    rcases lt_trichotomy rhs 0 with hr | rfl | hr
    · have hsign := mul_pos_of_neg_of_neg hl hr
      refine ⟨fun h => ?_, fun h => by omega⟩
      have := h.2.2.2 hl hr
      omega
    · simp
    · have hsign := mul_neg_of_neg_of_pos hl hr
      refine ⟨fun h => ?_, fun h => by omega⟩
      have := h.2.2.1 hl hr
      omega
  · simp
  · rw [le_limit_iff hl, le_limit_iff hl, mul_neg]
    rcases lt_trichotomy rhs 0 with hr | rfl | hr
    · have hsign := mul_neg_of_pos_of_neg hl hr
      refine ⟨fun h => ?_, fun h => by omega⟩
      have := h.2.1 hl hr
      omega
    · simp
    · have hsign := mul_pos hl hr
      refine ⟨fun h => ?_, fun h => by omega⟩
      have := h.1 hl hr
      omega

theorem div_fits_iff (hl : Representable lhs) :
    OperandsFit lhs rhs div ↔ Representable (lhs.tdiv rhs) := by
  obtain ⟨hmin, hmax⟩ := hl
  have habs := Int.natAbs_tdiv lhs rhs
  rw [OperandsFit]
  by_cases hone : rhs = -1
  · rw [hone, Int.tdiv_neg, Int.tdiv_one, Representable]
    omega
  · rw [Representable]
    refine iff_of_true (fun h => hone h.2) ?_
    by_cases hpos : rhs = 1
    · rw [hpos, Int.tdiv_one]
      exact ⟨hmin, hmax⟩
    by_cases hzero : rhs = 0
    · rw [hzero, Int.tdiv_zero]
      omega
    have hhalf : lhs.natAbs.div rhs.natAbs ≤ lhs.natAbs / 2 :=
      Nat.div_le_div_left (by omega) (by omega)
    omega

/-- The limits are those of the exact result. -/
theorem fits_iff {op : ArithOp} {z : Int} (hl : Representable lhs) (hr : Representable rhs)
    (h : op.exact lhs rhs = some z) : op.OperandsFit lhs rhs ↔ Representable z := by
  obtain ⟨hlmin, hlmax⟩ := hl
  obtain ⟨hrmin, hrmax⟩ := hr
  cases op with
  | add =>
      cases h
      rw [OperandsFit, Representable]
      omega
  | sub =>
      cases h
      rw [OperandsFit, Representable]
      omega
  | mul =>
      cases h
      exact mul_fits_iff
  | div =>
      cases h
      exact div_fits_iff ⟨hlmin, hlmax⟩
  | and => cases h
  | or => cases h
  | xor => cases h

/-- The machine crashes, or its result is the exact one as long as that is representable. -/
theorem apply_exact {op : ArithOp} {l r : Int64} {z : Int}
    (h : op.exact l.toInt r.toInt = some z) (hz : Representable z) :
    (op = div ∧ r = 0) ∨ ∃ x : Int64, op.apply l r = .ok x ∧ x.toInt = z := by
  have hbmod := hz.bmod_eq
  cases op with
  | add =>
      cases h
      exact .inr ⟨l + r, rfl, by rw [Int64.toInt_add, hbmod]⟩
  | sub =>
      cases h
      exact .inr ⟨l - r, rfl, by rw [Int64.toInt_sub, hbmod]⟩
  | mul =>
      cases h
      exact .inr ⟨l * r, rfl, by rw [Int64.toInt_mul, hbmod]⟩
  | div =>
      cases h
      by_cases hzero : r = 0
      · exact .inl ⟨rfl, hzero⟩
      · exact .inr ⟨l / r, if_neg hzero, by rw [Int64.toInt_div, hbmod]⟩
  | and => cases h
  | or => cases h
  | xor => cases h

theorem div_of_error {op : ArithOp} {l r : Int64} {cause : VmResult}
    (h : op.apply l r = .error cause) : op = div ∧ r = 0 := by
  cases op with
  | div =>
      rw [apply] at h
      split at h
      · rename_i hzero
        exact ⟨rfl, hzero⟩
      · cases h
  | _ => cases h

end ArithOp

namespace State

variable (env : Env) (s : State)

/-- The next instruction computes with the numbers at `lhs` and `rhs`. -/
def Computes (op : ArithOp) (pc lhs rhs : Nat) (rest : List Nat) : Prop :=
  fetch env.code s.pc = some (.binary (.arith op), pc) ∧ s.vm.params = rhs :: lhs :: rest

/-- When the next instruction is arithmetic it crashes, or the exact result is representable and
is the one that is stored. -/
def ArithDefined : Prop :=
  ∀ op pc lhs rhs rest z, s.Computes env op pc lhs rhs rest →
    op.exact (readInt s.vm.mem lhs).toInt (readInt s.vm.mem rhs).toInt = some z →
    (∃ cause, ∀ a, exec env a { s with pc := pc } (.binary (.arith op)) =
      .fail ({ s with pc := pc }.withParams (lhs :: rest)) cause) ∨
    Representable z ∧ ∃ x : Int64, x.toInt = z ∧
      ∀ a, exec env a { s with pc := pc } (.binary (.arith op)) =
        .next { s with
          pc := pc, vm := { s.vm with mem := writeInt s.vm.mem lhs x, params := lhs :: rest } }

/-- When the next instruction is arithmetic its operands are inside the limits. -/
def OperandsFit : Prop :=
  ∀ op pc lhs rhs rest, s.Computes env op pc lhs rhs rest →
    op.OperandsFit (readInt s.vm.mem lhs).toInt (readInt s.vm.mem rhs).toInt

variable {env s}

theorem arithDefined_iff : s.ArithDefined env ↔ s.OperandsFit env := by
  constructor
  · intro h op pc lhs rhs rest hcomputes
    rcases hexact : op.exact (readInt s.vm.mem lhs).toInt (readInt s.vm.mem rhs).toInt with _ | z
    · cases op with
      | and => exact trivial
      | or => exact trivial
      | xor => exact trivial
      | _ => cases hexact
    · rcases h op pc lhs rhs rest z hcomputes hexact with ⟨cause, hfail⟩ | ⟨hz, -⟩
      · have hexec := hfail {}
        simp only [exec, hcomputes.2, BinOp.apply] at hexec
        split at hexec
        · cases hexec
        · rename_i r happly
          rcases hvalue : op.apply (readInt s.vm.mem lhs) (readInt s.vm.mem rhs) with r' | x
          · obtain ⟨rfl, hzero⟩ := ArithOp.div_of_error hvalue
            rw [ArithOp.OperandsFit, hzero]
            exact fun hne => absurd hne.2 (by decide)
          · rw [hvalue] at happly
            cases happly
      · exact (ArithOp.fits_iff (.toInt _) (.toInt _) hexact).mpr hz
  · intro h op pc lhs rhs rest z hcomputes hexact
    have hz := (ArithOp.fits_iff (.toInt _) (.toInt _) hexact).mp (h op pc lhs rhs rest hcomputes)
    rcases ArithOp.apply_exact hexact hz with ⟨rfl, hzero⟩ | ⟨x, hx, hvalue⟩
    · refine .inl ⟨.divByZero, fun a => ?_⟩
      simp only [exec, hcomputes.2, BinOp.apply, hzero]
      rfl
    · refine .inr ⟨hz, x, hvalue, fun a => ?_⟩
      simp only [exec, hcomputes.2, BinOp.apply, hx]
      rfl

end State

/-- In every state of every run of an accepted program, an arithmetic instruction is defined
exactly when its operands are inside the limits.  `State.arithDefined_iff` has it for every state,
so no fact about the program or the run is used. -/
theorem run_arithmetic_iff (P : Program) (env : Env) (vm : VM) {al : Alloc} {c c' : Config} :
    P.Accepted → P.Loaded env.code → Starts al vm P.start.toNat c →
      Leads env (fun _ _ => True) c c' → (c'.state.ArithDefined env ↔ c'.state.OperandsFit env) :=
  fun _ _ _ _ => State.arithDefined_iff

/-! ## Samples -/

/-- `f(out a : int, in b : int)` divides `a` by `b`. -/
def divides : Func where
  sig := ⟨[⟨0, false⟩], [0]⟩
  types := sliceTypes
  blocks := [.basic ⟨0, 3⟩]
  ops := [⟨.pushArg, 0⟩, ⟨.pushArg, 1⟩, ⟨.divAssign, 0⟩]
  vars := [0, 0]

/-- The arguments are -1 and what the memory has at 100. -/
def divisionVM (byte : UInt8) : VM :=
  { freshVM with
    mem := fun p => if p = 107 then byte else if 200 ≤ p ∧ p < 208 then 255 else 0
    params := [200, 100]
    paramCap := 32 }

/-- The program reaches the division. -/
theorem divisionVM_reached (byte : UInt8) (code : Nat → UInt8) (check : Config → Bool)
    (h : ((Config.start (divisionVM byte) 5000).bind fun c =>
      (c.advances ⟨code, fun _ vm => (.ok, vm)⟩ 2).map (c, ·)).any (fun c => check c.2) = true) :
    ∃ c c', Starts {} (divisionVM byte) 5000 c ∧
      Leads ⟨code, fun _ vm => (.ok, vm)⟩ (fun _ _ => True) c c' ∧ check c' = true := by
  obtain ⟨c, c', hstarts, hrun, hcheck⟩ := reached_of_check _ _ _ _ (fun _ c => check c) h
  exact ⟨c, c', hstarts, leads_of_advances hrun fun _ _ _ _ => trivial, hcheck⟩

/-- `INT64_MIN / -1` is not caught: the exact quotient is not an `int64_t`. -/
theorem divides_overflows : ¬ ∀ (P : Program) (env : Env) (vm : VM) (al : Alloc) (c c' : Config),
    P.Accepted → P.Loaded env.code → Starts al vm P.start.toNat c →
      Leads env (fun _ _ => True) c c' → c'.state.ArithDefined env := by
  intro hall
  let P := Program.assemble ⟨[], []⟩ 10 divides
  obtain ⟨hloaded, -, -⟩ := Program.ready_of_check P P.memory (by decide)
  obtain ⟨c, c', hstarts, hrun, hcheck⟩ := divisionVM_reached 128 P.memory
    (fun c => decide (fetch P.memory c.state.pc = some (.binary (.arith .div), c.state.pc + 1)) &&
      decide (c.state.vm.params = [200, 100, 200, 100]) &&
      decide ((readInt c.state.vm.mem 100).toInt = -2 ^ 63) &&
      decide ((readInt c.state.vm.mem 200).toInt = -1)) (by decide)
  simp only [Bool.and_eq_true, decide_eq_true_eq, and_assoc] at hcheck
  obtain ⟨hfetch, hparams, hlhs, hrhs⟩ := hcheck
  have hdefined := hall P P.env (divisionVM 128) {} c c' (Program.assemble_accepted (by decide))
    hloaded hstarts hrun
  have hfits := State.arithDefined_iff.mp hdefined .div _ 100 200 [200, 100] ⟨hfetch, hparams⟩
  rw [hlhs, hrhs] at hfits
  exact hfits ⟨rfl, rfl⟩

/-- `0 / -1` is defined. -/
theorem run_arithmetic_iff_divides : ∃ (P : Program) (env : Env) (vm : VM) (c c' : Config),
    P.func = divides ∧ Starts {} vm P.start.toNat c ∧
      (∃ pc, c'.state.Computes env .div pc 100 200 [200, 100]) ∧ c'.state.ArithDefined env := by
  let P := Program.assemble ⟨[], []⟩ 10 divides
  obtain ⟨hloaded, -, -⟩ := Program.ready_of_check P P.memory (by decide)
  obtain ⟨c, c', hstarts, hrun, hcheck⟩ := divisionVM_reached 0 P.memory
    (fun c => decide (fetch P.memory c.state.pc = some (.binary (.arith .div), c.state.pc + 1)) &&
      decide (c.state.vm.params = [200, 100, 200, 100]) &&
      decide ((readInt c.state.vm.mem 100).toInt = 0)) (by decide)
  simp only [Bool.and_eq_true, decide_eq_true_eq, and_assoc] at hcheck
  obtain ⟨hfetch, hparams, hlhs⟩ := hcheck
  refine ⟨P, P.env, divisionVM 0, c, c', rfl, hstarts, ⟨_, hfetch, hparams⟩,
    (run_arithmetic_iff P P.env (divisionVM 0) (Program.assemble_accepted (by decide))
      hloaded hstarts hrun).mpr ?_⟩
  rintro op pc lhs rhs rest ⟨hfetch', hparams'⟩
  cases hfetch.symm.trans hfetch'
  cases hparams.symm.trans hparams'
  rw [ArithOp.OperandsFit, hlhs]
  exact fun hne => absurd hne.1 (by decide)

end TreeVM
