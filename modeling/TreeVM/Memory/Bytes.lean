import Mathlib.Algebra.Group.Int.Defs
import Mathlib.Algebra.Group.Nat.Defs
import Mathlib.Data.List.Basic

/-!
# Little-endian numbers in a byte memory

A memory is a function from addresses to bytes.

* `bytesOf n x`: the `n` low bytes of `x`, least significant first; `numberOf` reads them back;
* `At mem a bs`: the bytes `bs` stand at address `a`;
* `read`, `write`: a number of `n` bytes, a block of bytes.
-/

namespace TreeVM

/-- The `n` low bytes of `x`. -/
def bytesOf : Nat → Nat → List UInt8
  | 0, _ => []
  | n + 1, x => UInt8.ofNat x :: bytesOf n (x / 256)

def numberOf : List UInt8 → Nat
  | [] => 0
  | b :: bs => b.toNat + 256 * numberOf bs

@[simp] theorem length_bytesOf (n x : Nat) : (bytesOf n x).length = n := by
  induction n generalizing x with
  | zero => rfl
  | succ n ih => simp [bytesOf, ih]

theorem numberOf_bytesOf (n x : Nat) : numberOf (bytesOf n x) = x % 256 ^ n := by
  induction n generalizing x with
  | zero => simp [bytesOf, numberOf, Nat.mod_one]
  | succ n ih =>
      have hbyte : (UInt8.ofNat x).toNat = x % 256 := by simp
      rw [bytesOf, numberOf, ih, hbyte, Nat.pow_succ, Nat.mul_comm (256 ^ n) 256, Nat.mod_mul]

/-- The bytes `bs` stand at address `a`. -/
def At (mem : Nat → UInt8) (a : Nat) : List UInt8 → Prop
  | [] => True
  | b :: bs => mem a = b ∧ At mem (a + 1) bs

/-- `n` bytes from address `a`. -/
def readBytes (mem : Nat → UInt8) (a : Nat) : Nat → List UInt8
  | 0 => []
  | n + 1 => mem a :: readBytes mem (a + 1) n

def readNat (mem : Nat → UInt8) (a n : Nat) : Nat :=
  numberOf (readBytes mem a n)

def writeBytes (mem : Nat → UInt8) (a : Nat) (bs : List UInt8) : Nat → UInt8 :=
  fun x => if a ≤ x then bs.getD (x - a) (mem x) else mem x

instance At.decidable (mem : Nat → UInt8) : ∀ a bs, Decidable (At mem a bs)
  | _, [] => .isTrue trivial
  | a, _ :: bs => @instDecidableAnd _ _ _ (At.decidable mem (a + 1) bs)

namespace At

variable {mem : Nat → UInt8} {a : Nat}

@[simp] theorem nil : At mem a [] :=
  trivial

@[simp] theorem cons {b : UInt8} {bs : List UInt8} :
    At mem a (b :: bs) ↔ mem a = b ∧ At mem (a + 1) bs :=
  Iff.rfl

theorem append {bs cs : List UInt8} :
    At mem a (bs ++ cs) ↔ At mem a bs ∧ At mem (a + bs.length) cs := by
  induction bs generalizing a with
  | nil => simp
  | cons b bs ih =>
      simp only [List.cons_append, cons, ih, List.length_cons, and_assoc]
      rw [show a + 1 + bs.length = a + (bs.length + 1) by omega]

theorem readBytes {bs : List UInt8} (h : At mem a bs) : readBytes mem a bs.length = bs := by
  induction bs generalizing a with
  | nil => rfl
  | cons b bs ih => simp [TreeVM.readBytes, h.1, ih h.2]

/-- A number stored in `n` bytes reads back modulo `256 ^ n`. -/
theorem readNat {n x : Nat} (h : At mem a (bytesOf n x)) : readNat mem a n = x % 256 ^ n := by
  have hbytes := h.readBytes
  rw [length_bytesOf] at hbytes
  rw [TreeVM.readNat, hbytes, numberOf_bytesOf]

theorem iff_getElem {bs : List UInt8} :
    At mem a bs ↔ ∀ k, (h : k < bs.length) → mem (a + k) = bs[k] := by
  induction bs generalizing a with
  | nil => simp
  | cons b bs ih =>
      rw [cons, ih]
      constructor
      · rintro ⟨hb, hbs⟩ k hk
        cases k with
        | zero => exact hb
        | succ k =>
            rw [show a + (k + 1) = a + 1 + k by omega]
            exact hbs k (by simpa using hk)
      · intro h
        refine ⟨h 0 (by simp), fun k hk => ?_⟩
        rw [show a + 1 + k = a + (k + 1) by omega]
        exact h (k + 1) (by simpa using hk)

end At

/-! ## Writing and reading -/

section Write

variable {mem : Nat → UInt8} {a x : Nat} {bs : List UInt8}

@[simp] theorem length_readBytes (mem : Nat → UInt8) (a n : Nat) : (readBytes mem a n).length = n := by
  induction n generalizing a with
  | zero => rfl
  | succ n ih => simp [readBytes, ih]

theorem getElem_readBytes {n k : Nat} (h : k < (readBytes mem a n).length) :
    (readBytes mem a n)[k] = mem (a + k) := by
  have hat : ∀ n a, At mem a (readBytes mem a n) := by
    intro n
    induction n with
    | zero => exact fun _ => trivial
    | succ n ih => exact fun a => ⟨rfl, ih (a + 1)⟩
  exact (At.iff_getElem.mp (hat n a) k h).symm

/-- Numbers are read from the bytes alone. -/
theorem readNat_congr {mem' : Nat → UInt8} {a' n : Nat}
    (h : ∀ k < n, mem' (a' + k) = mem (a + k)) : readNat mem' a' n = readNat mem a n := by
  have hbytes : readBytes mem' a' n = readBytes mem a n := by
    refine List.ext_getElem (by simp) fun k hk _ => ?_
    rw [getElem_readBytes, getElem_readBytes]
    exact h k (by simpa using hk)
  rw [readNat, readNat, hbytes]

theorem writeBytes_before (h : x < a) : writeBytes mem a bs x = mem x := by
  rw [writeBytes, if_neg (by omega)]

theorem writeBytes_behind (h : a + bs.length ≤ x) : writeBytes mem a bs x = mem x := by
  rw [writeBytes, if_pos (by omega), List.getD_eq_getElem?_getD, List.getElem?_eq_none (by omega),
    Option.getD_none]

theorem writeBytes_getElem {k : Nat} (h : k < bs.length) : writeBytes mem a bs (a + k) = bs[k] := by
  rw [writeBytes, if_pos (by omega), Nat.add_sub_cancel_left, List.getD_eq_getElem?_getD,
    List.getElem?_eq_getElem h, Option.getD_some]

theorem at_writeBytes (mem : Nat → UInt8) (a : Nat) (bs : List UInt8) :
    At (writeBytes mem a bs) a bs :=
  At.iff_getElem.mpr fun _ hk => writeBytes_getElem hk

end Write

end TreeVM
