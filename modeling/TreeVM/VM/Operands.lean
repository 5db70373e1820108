import TreeVM.VM.Machine

/-!
# Operands of array and slice operations

Five cases of the switch compare a signed operand of 64 bits with a length of 32 bits.

* `SizedOp`: these operations, with their lengths and effects as mathematical numbers;
* `SizedOp.apply_ok`, `SizedOp.apply_error`: the machine compares the low half of the operand;
* `SizedOp.checked_iff`: when that is the comparison of the whole operand.
-/

namespace TreeVM

/-- The operations that compare an operand with a length. -/
inductive SizedOp
  | arrAt (dataOffset elemSize : UInt64) (capacity : UInt32)
  | arrDrop
  | sliceAt (elemSize lenOffset : UInt64)
  | sliceInc (elemSize lenOffset : UInt64)
  | sliceDec (elemSize lenOffset : UInt64)
  deriving DecidableEq, Repr

namespace SizedOp

def op : SizedOp → BinOp
  | arrAt dataOffset elemSize capacity => .arrAt dataOffset elemSize capacity
  | arrDrop => .arrDrop
  | sliceAt elemSize lenOffset => .sliceAt elemSize lenOffset
  | sliceInc elemSize lenOffset => .sliceInc elemSize lenOffset
  | sliceDec elemSize lenOffset => .sliceDec elemSize lenOffset

/-- The length of the array or slice at `p` -/
def len (mem : Mem) (p : Nat) : SizedOp → Nat
  | arrAt _ _ _ => (readLen mem p).toNat
  | arrDrop => (readLen mem p).toNat
  | sliceAt _ lenOffset => (readLen mem (ptrAdd p lenOffset)).toNat
  | sliceInc _ lenOffset => (readLen mem (ptrAdd p lenOffset)).toNat
  | sliceDec _ lenOffset => (readLen mem (ptrAdd p lenOffset)).toNat

/-- The numbers that the operation takes: an index below the length and the capacity, or an amount
up to the length. -/
def Allows (mem : Mem) (p : Nat) (x : SizedOp) (n : Int) : Prop :=
  0 ≤ n ∧
  match x with
  | arrAt _ _ capacity => n < x.len mem p ∧ n < capacity.toNat
  | sliceAt _ _ => n < x.len mem p
  | _ => n ≤ x.len mem p

/-- The cause of the crash -/
def cause : SizedOp → VmResult
  | arrDrop => .arrayUnderflow
  | _ => .arrayBounds

/-- What the operation does with a number that it takes: the memory and the entry that remains. -/
def effect (mem : Mem) (p : Nat) (x : SizedOp) (n : Nat) : Mem × Nat :=
  match x with
  | arrAt dataOffset elemSize _ => (mem, (p + dataOffset.toNat + n * elemSize.toNat) % 2 ^ 64)
  | arrDrop => (writeLen mem p (UInt32.ofNat (x.len mem p - n)), p)
  | sliceAt elemSize _ => (mem, (readPtr mem p + n * elemSize.toNat) % 2 ^ 64)
  | sliceInc elemSize _ => (writePtr mem p ((readPtr mem p + n * elemSize.toNat) % 2 ^ 64), p)
  | sliceDec _ lenOffset =>
      (writeLen mem (ptrAdd p lenOffset) (UInt32.ofNat (x.len mem p - n)), p)

end SizedOp

/-! ## Casts -/

theorem toSize_toNat {n : Int64} (hn : 0 ≤ n.toInt) : (toSize n).toNat = n.toInt.toNat :=
  Int64.toNat_toUInt64_of_le (Int64.le_iff_toInt_le.mpr (by simpa using hn))

theorem toCount_toNat {n : Int64} (hn : 0 ≤ n.toInt) :
    (toCount n).toNat = n.toInt.toNat % 2 ^ 32 := by
  rw [toCount, UInt64.toNat_toUInt32]
  exact congrArg (· % 2 ^ 32) (toSize_toNat hn)

theorem ptrAdd_mul (p : Nat) (elemSize : UInt64) {n : Int64} (hn : 0 ≤ n.toInt) :
    ptrAdd p (elemSize * toSize n) = (p + n.toInt.toNat * elemSize.toNat) % 2 ^ 64 := by
  rw [ptrAdd, UInt64.toNat_mul, toSize_toNat hn, Nat.add_mod_mod, Nat.mul_comm]

theorem ptrAdd_ptrAdd_mul (p : Nat) (offset elemSize : UInt64) {n : Int64} (hn : 0 ≤ n.toInt) :
    ptrAdd (ptrAdd p offset) (elemSize * toSize n) =
      (p + offset.toNat + n.toInt.toNat * elemSize.toNat) % 2 ^ 64 := by
  rw [ptrAdd_mul _ _ hn, ptrAdd, Nat.mod_add_mod]

theorem int64_neg_iff {n : Int64} : n < 0 ↔ n.toInt < 0 := by
  rw [Int64.lt_iff_toInt_lt]
  simp

/-- What is left of a length after a smaller number was taken off -/
theorem length_sub {len : UInt32} {n : Int64} (hn : 0 ≤ n.toInt) (hsmall : n.toInt < 2 ^ 32)
    (hle : n.toInt ≤ len.toNat) : len - toCount n = UInt32.ofNat (len.toNat - n.toInt.toNat) := by
  have hcount := toCount_toNat hn
  rw [Nat.mod_eq_of_lt (by omega)] at hcount
  have hlen := len.toNat_lt
  apply UInt32.toNat.inj
  rw [UInt32.toNat_sub_of_le _ _ (UInt32.le_iff_toNat_le.mpr (by omega)), hcount,
    UInt32.toNat_ofNat_of_lt' (Nat.lt_of_le_of_lt (Nat.sub_le _ _) hlen)]

/-! ## Comparisons -/

namespace SizedOp

variable {mem : Mem} {lhs rhs : Nat} {x : SizedOp}

/-- The operand, as the machine compares it: its low half, unless it is negative -/
def compared (n : Int64) : Int :=
  if n.toInt < 0 then n.toInt else n.toInt % 2 ^ 32

theorem compared_of_small {n : Int64} (hsmall : n.toInt < 2 ^ 32) : compared n = n.toInt := by
  rw [compared]
  split
  · rfl
  · exact Int.emod_eq_of_lt (by omega) hsmall

theorem compared_eq {n : Int64} (hn : ¬ n.toInt < 0) : compared n = (toCount n).toNat := by
  rw [compared, if_neg hn, toCount_toNat (by omega)]
  omega

/-- The test of `B_PUSH_SLICE_AT` -/
theorem index_refused_iff {n : Int64} {len : UInt32} :
    n < 0 ∨ len ≤ toCount n ↔ ¬ (0 ≤ compared n ∧ compared n < len.toNat) := by
  rw [int64_neg_iff, UInt32.le_iff_toNat_le]
  by_cases hn : n.toInt < 0
  · rw [compared, if_pos hn]
    omega
  · rw [compared_eq hn]
    omega

/-- The test of `B_PUSH_ARR_AT` -/
theorem index_of_two_refused_iff {n : Int64} {len capacity : UInt32} :
    n < 0 ∨ len ≤ toCount n ∨ capacity ≤ toCount n ↔
      ¬ (0 ≤ compared n ∧ compared n < len.toNat ∧ compared n < capacity.toNat) := by
  rw [or_or_distrib_left, index_refused_iff, index_refused_iff]
  omega

/-- The test of `B_ARR_DROP` -/
theorem amount_refused_iff {n : Int64} {len : UInt32} :
    n < 0 ∨ len < toCount n ↔ ¬ (0 ≤ compared n ∧ compared n ≤ len.toNat) := by
  rw [int64_neg_iff, UInt32.lt_iff_toNat_lt]
  by_cases hn : n.toInt < 0
  · rw [compared, if_pos hn]
    omega
  · rw [compared_eq hn]
    omega

/-- What the machine does with an operand that it does not refuse -/
def outcome (mem : Mem) (p : Nat) (x : SizedOp) (n : Int64) : Mem × Nat :=
  match x with
  | arrAt dataOffset elemSize _ => (mem, ptrAdd (ptrAdd p dataOffset) (elemSize * toSize n))
  | arrDrop => (writeLen mem p (readLen mem p - toCount n), p)
  | sliceAt elemSize _ => (mem, ptrAdd (readPtr mem p) (elemSize * toSize n))
  | sliceInc elemSize _ => (writePtr mem p (ptrAdd (readPtr mem p) (elemSize * toSize n)), p)
  | sliceDec _ lenOffset =>
      (writeLen mem (ptrAdd p lenOffset) (readLen mem (ptrAdd p lenOffset) - toCount n), p)

theorem apply_ok (h : x.Allows mem lhs (compared (readInt mem rhs))) :
    x.op.apply mem lhs rhs = .ok (x.outcome mem lhs (readInt mem rhs)) := by
  cases x with
  | arrAt dataOffset elemSize capacity =>
      simp only [op, BinOp.apply, outcome]
      rw [if_neg fun hrefused => index_of_two_refused_iff.mp hrefused h]
  | arrDrop =>
      simp only [op, BinOp.apply, outcome]
      rw [if_neg fun hrefused => amount_refused_iff.mp hrefused h]
  | sliceAt elemSize lenOffset =>
      simp only [op, BinOp.apply, outcome]
      rw [if_neg fun hrefused => index_refused_iff.mp hrefused h]
  | sliceInc elemSize lenOffset =>
      simp only [op, BinOp.apply, outcome]
      rw [if_neg fun hneg => amount_refused_iff.mp (.inl hneg) h,
        if_neg fun hlt => amount_refused_iff.mp (.inr hlt) h]
  | sliceDec elemSize lenOffset =>
      simp only [op, BinOp.apply, outcome]
      rw [if_neg fun hneg => amount_refused_iff.mp (.inl hneg) h,
        if_neg fun hlt => amount_refused_iff.mp (.inr hlt) h]

theorem apply_error (h : ¬ x.Allows mem lhs (compared (readInt mem rhs))) :
    x.op.apply mem lhs rhs = .error x.cause := by
  cases x with
  | arrAt dataOffset elemSize capacity =>
      simp only [op, BinOp.apply, cause]
      rw [if_pos (index_of_two_refused_iff.mpr h)]
  | arrDrop =>
      simp only [op, BinOp.apply, cause]
      rw [if_pos (amount_refused_iff.mpr h)]
  | sliceAt elemSize lenOffset =>
      simp only [op, BinOp.apply, cause]
      rw [if_pos (index_refused_iff.mpr h)]
  | sliceInc elemSize lenOffset =>
      have hrefused := amount_refused_iff.mpr h
      simp only [op, BinOp.apply, cause]
      by_cases hneg : readInt mem rhs < 0
      · rw [if_pos hneg]
      · rw [if_neg hneg, if_pos (hrefused.resolve_left hneg)]
  | sliceDec elemSize lenOffset =>
      have hrefused := amount_refused_iff.mpr h
      simp only [op, BinOp.apply, cause]
      by_cases hneg : readInt mem rhs < 0
      · rw [if_pos hneg]
      · rw [if_neg hneg, if_pos (hrefused.resolve_left hneg)]

/-- Below `2 ^ 32` the machine computes with the whole operand. -/
theorem outcome_eq {n : Int64} (hsmall : n.toInt < 2 ^ 32) (h : x.Allows mem lhs n.toInt) :
    x.outcome mem lhs n = x.effect mem lhs n.toInt.toNat := by
  have hn : 0 ≤ n.toInt := h.1
  cases x with
  | arrAt dataOffset elemSize capacity => rw [outcome, effect, ptrAdd_ptrAdd_mul _ _ _ hn]
  | arrDrop => rw [outcome, effect, length_sub hn hsmall h.2, len]
  | sliceAt elemSize lenOffset => rw [outcome, effect, ptrAdd_mul _ _ hn]
  | sliceInc elemSize lenOffset => rw [outcome, effect, ptrAdd_mul _ _ hn]
  | sliceDec elemSize lenOffset => rw [outcome, effect, length_sub hn hsmall h.2, len]

/-- What happened when the machine went on with an operand below `2 ^ 32` -/
theorem of_apply_ok {r : Mem × Nat} (h : x.op.apply mem lhs rhs = .ok r)
    (hsmall : (readInt mem rhs).toInt < 2 ^ 32) :
    x.Allows mem lhs (readInt mem rhs).toInt ∧ r = x.effect mem lhs (readInt mem rhs).toInt.toNat := by
  have hcompared := compared_of_small hsmall
  by_cases hallows : x.Allows mem lhs (readInt mem rhs).toInt
  · rw [apply_ok (hcompared.symm ▸ hallows), outcome_eq hsmall hallows] at h
    exact ⟨hallows, (Except.ok.inj h).symm⟩
  · rw [apply_error (hcompared.symm ▸ hallows)] at h
    cases h

end SizedOp

/-! ## Instructions -/

def Status.mem : Status → Mem
  | running s => s.vm.mem
  | done _ vm => vm.mem

theorem unwind_mem (s : State) (frames : List CrashFrame) : (unwind s frames).mem = s.vm.mem := by
  induction frames generalizing s with
  | nil => rfl
  | cons f rest ih =>
      rw [unwind]
      split
      · simp only
        split
        · rfl
        · exact ih _
      · rfl

namespace SizedOp

variable (x : SizedOp) (env : Env) (a : Alloc) (s : State) (lhs rhs : Nat) (rest : List Nat)

/-- The instruction treats the operand as the mathematical number: it goes on exactly with the
numbers that the operation takes, and a crash changes no byte. -/
structure Checked : Prop where
  goesOn : x.Allows s.vm.mem lhs (readInt s.vm.mem rhs).toInt →
    exec env a (s.withParams (rhs :: lhs :: rest)) (.binary x.op) =
      .next { s with vm := { s.vm with
        mem := (x.effect s.vm.mem lhs (readInt s.vm.mem rhs).toInt.toNat).1
        params := (x.effect s.vm.mem lhs (readInt s.vm.mem rhs).toInt.toNat).2 :: rest } }
  crashes : ¬ x.Allows s.vm.mem lhs (readInt s.vm.mem rhs).toInt →
    exec env a (s.withParams (rhs :: lhs :: rest)) (.binary x.op) =
      .fail (s.withParams (lhs :: rest)) x.cause
  unchanged : ¬ x.Allows s.vm.mem lhs (readInt s.vm.mem rhs).toInt →
    (exec env a (s.withParams (rhs :: lhs :: rest)) (.binary x.op)).status.mem = s.vm.mem

variable {x env a s lhs rhs rest}

theorem exec_ok {r : Mem × Nat} (h : x.op.apply s.vm.mem lhs rhs = .ok r) :
    exec env a (s.withParams (rhs :: lhs :: rest)) (.binary x.op) =
      .next { s with vm := { s.vm with mem := r.1, params := r.2 :: rest } } := by
  simp only [exec, State.withParams, h]

theorem exec_error {cause : VmResult} (h : x.op.apply s.vm.mem lhs rhs = .error cause) :
    exec env a (s.withParams (rhs :: lhs :: rest)) (.binary x.op) =
      .fail (s.withParams (lhs :: rest)) cause := by
  simp only [exec, State.withParams, h]

theorem len_lt (mem : Mem) (p : Nat) (x : SizedOp) : x.len mem p < 2 ^ 32 := by
  cases x <;> exact UInt32.toNat_lt _

theorem Allows.le_len {mem : Mem} {p : Nat} {n : Int} (h : x.Allows mem p n) : n ≤ x.len mem p := by
  obtain ⟨-, h⟩ := h
  cases x with
  | arrAt dataOffset elemSize capacity => exact Int.le_of_lt h.1
  | arrDrop => exact h
  | sliceAt elemSize lenOffset => exact Int.le_of_lt h
  | sliceInc elemSize lenOffset => exact h
  | sliceDec elemSize lenOffset => exact h

theorem Allows.small {mem : Mem} {p : Nat} {n : Int} (h : x.Allows mem p n) : n < 2 ^ 32 := by
  have hle := h.le_len
  have hlt := x.len_lt mem p
  omega

/-- The operand is treated as a whole unless it is too large while its low half is not. -/
theorem checked_iff : x.Checked env a s lhs rhs rest ↔
    (readInt s.vm.mem rhs).toInt < 2 ^ 32 ∨
      ¬ x.Allows s.vm.mem lhs ((readInt s.vm.mem rhs).toInt % 2 ^ 32) := by
  constructor
  · intro h
    by_contra hnot
    obtain ⟨hlarge, hallows⟩ := not_or.mp hnot
    have hcompared : compared (readInt s.vm.mem rhs) = (readInt s.vm.mem rhs).toInt % 2 ^ 32 := by
      rw [compared, if_neg (by omega)]
    have hok := apply_ok (hcompared ▸ not_not.mp hallows)
    have hcrash := h.crashes fun hall => hlarge hall.small
    rw [exec_ok hok] at hcrash
    cases hcrash
  · intro h
    have hiff : x.Allows s.vm.mem lhs (compared (readInt s.vm.mem rhs)) ↔
        x.Allows s.vm.mem lhs (readInt s.vm.mem rhs).toInt := by
      by_cases hsmall : (readInt s.vm.mem rhs).toInt < 2 ^ 32
      · rw [compared_of_small hsmall]
      · have hlow := h.resolve_left hsmall
        rw [compared, if_neg (by omega)]
        exact iff_of_false hlow fun hall => hsmall hall.small
    refine ⟨fun hallows => ?_, fun hnot => ?_, fun hnot => ?_⟩
    · rw [← outcome_eq hallows.small hallows]
      exact exec_ok (apply_ok (hiff.mpr hallows))
    · exact exec_error (apply_error fun hcompared => hnot (hiff.mp hcompared))
    · rw [exec_error (apply_error fun hcompared => hnot (hiff.mp hcompared)), Exec.status]
      exact unwind_mem _ _

/-- An array of length 1 at address 64, the number 1 at 128 and `2 ^ 32` at 256 -/
def tailedMem : Mem := fun p =>
  if p = 64 ∨ p = 128 ∨ p = 260 then 1 else 0

def tailedState : State where
  vm := { mem := tailedMem, storage := ⟨0, 0, 0⟩, params := [], paramCap := 0, crash := [], crashCap := 0 }
  pc := 0
  base := 0
  paramBase := 0
  ans := .ok

/-- `B_PUSH_ARR_AT` takes the index `2 ^ 32` for 0 and goes on with an address far behind the
array. -/
theorem arrAt_truncates :
    ¬ (arrAt 8 8 4).Checked ⟨fun _ => 0, fun _ vm => (.ok, vm)⟩ {} tailedState 64 256 [] := by
  intro h
  have hindex : readInt tailedMem 256 = 4294967296 := by decide
  have hlen : readLen tailedMem 64 = 1 := by decide
  have hok : (arrAt 8 8 4).op.apply tailedMem 64 256 = .ok (tailedMem, 34359738440) := by
    simp only [op, BinOp.apply, hindex, hlen]
    rw [if_neg (by decide)]
    rfl
  have hnot : ¬ (arrAt 8 8 4).Allows tailedMem 64 (readInt tailedMem 256).toInt := by
    rw [hindex]
    exact fun hall => absurd hall.small (by decide)
  have hcrash := h.crashes hnot
  rw [exec_ok (s := tailedState) hok] at hcrash
  cases hcrash

end SizedOp

end TreeVM
