import TreeVM.IR.Layout
import TreeVM.VM.Operands
import Mathlib.Logic.Function.Basic
import Mathlib.Logic.Relation

/-!
# Slices and what they were made from

Slices stand at addresses of their own, the slots.

* `View`: the elements that a slice was made from, and the operands that moved its ends;
* `SliceStep`: the operations that make, move and copy slices;
* `slices_designate`: which of the elements a slice designates.

`B_SLICE_INC` moves the beginning of a slice and keeps its length.
-/

namespace TreeVM

/-- What is known about a slice: the elements it was made from, the sum of the operands of
`B_SLICE_INC` and that of `B_SLICE_DEC`. -/
structure View where
  data : Nat
  count : Nat
  advanced : Nat
  dropped : Nat
  deriving DecidableEq, Repr

/-- Addresses of slices; no two slices overlap. -/
structure Slots where
  holds : Nat → Prop
  inside : ∀ p, holds p → p + 12 ≤ 2 ^ 64
  apart : ∀ p q, holds p → holds q → p ≠ q → p + 12 ≤ q ∨ q + 12 ≤ p

structure SliceState where
  mem : Mem
  view : Nat → Option View

namespace SliceState

/-- An operation has changed the memory, and the slice at `p` has a new view. -/
def become (st : SliceState) (mem : Mem) (p : Nat) (v : View) : SliceState :=
  ⟨mem, Function.update st.view p (some v)⟩

end SliceState

/-- The operations on slices with elements of size `elemSize`.  Operands are at most `2 ^ 31`. -/
inductive SliceStep (elemSize : UInt64) (slots : Slots) : SliceState → SliceState → Prop
  | fromArr {st : SliceState} {dst arr q : Nat} {dataOffset : UInt64} {mem : Mem} :
      slots.holds dst →
      (BinOp.sliceFromArr dataOffset elemSize sliceLenOffset).apply st.mem dst arr = .ok (mem, q) →
      SliceStep elemSize slots st
        (st.become mem dst ⟨ptrAdd arr dataOffset, (readLen st.mem arr).toNat, 0, 0⟩)
  | fromOne {st : SliceState} {dst elem q : Nat} {mem : Mem} : slots.holds dst →
      (BinOp.sliceFromOne sliceLenOffset).apply st.mem dst elem = .ok (mem, q) →
      SliceStep elemSize slots st (st.become mem dst ⟨elem, 1, 0, 0⟩)
  | inc {st : SliceState} {p amount q : Nat} {v : View} {mem : Mem} : st.view p = some v →
      (readInt st.mem amount).toInt ≤ 2 ^ 31 →
      (BinOp.sliceInc elemSize sliceLenOffset).apply st.mem p amount = .ok (mem, q) →
      SliceStep elemSize slots st (st.become mem p
        { v with advanced := v.advanced + (readInt st.mem amount).toInt.toNat })
  | dec {st : SliceState} {p amount q : Nat} {v : View} {mem : Mem} : st.view p = some v →
      (readInt st.mem amount).toInt ≤ 2 ^ 31 →
      (BinOp.sliceDec elemSize sliceLenOffset).apply st.mem p amount = .ok (mem, q) →
      SliceStep elemSize slots st (st.become mem p
        { v with dropped := v.dropped + (readInt st.mem amount).toInt.toNat })
  | copy {st : SliceState} {dst src q : Nat} {v : View} {mem : Mem} : slots.holds dst →
      st.view src = some v →
      (BinOp.copy slicePayloadSize).apply st.mem dst src = .ok (mem, q) →
      SliceStep elemSize slots st (st.become mem dst v)

/-! ## One slice -/

/-- The slice at `p` begins `advanced` elements behind the beginning, and has lost `dropped`
elements. -/
structure Designates (elemSize : UInt64) (mem : Mem) (p : Nat) (v : View) : Prop where
  data : readPtr mem p = (v.data + v.advanced * elemSize.toNat) % 2 ^ 64
  len : (readLen mem (p + 8)).toNat + v.dropped = v.count

section Memory

variable {mem mem' : Mem} {p q x : Nat} {elemSize : UInt64} {v : View}

theorem readPtr_writePtr (mem : Mem) (p x : Nat) : readPtr (writePtr mem p x) p = x % 2 ^ 64 :=
  (at_writeBytes mem p (bytesOf 8 x)).readNat

theorem readLen_writeLen (mem : Mem) (p : Nat) (n : UInt32) : readLen (writeLen mem p n) p = n := by
  have hread : readNat (writeLen mem p n) p 4 = n.toNat % 256 ^ 4 :=
    (at_writeBytes mem p (bytesOf 4 n.toNat)).readNat
  have hlt : n.toNat < 256 ^ 4 := n.toNat_lt
  rw [readLen, hread, Nat.mod_eq_of_lt hlt]
  exact UInt32.ofNat_toNat

theorem readLen_writePtr (mem : Mem) (p x : Nat) :
    readLen (writePtr mem p x) (p + 8) = readLen mem (p + 8) := by
  refine congrArg UInt32.ofNat (readNat_congr fun k _ => writeBytes_behind ?_)
  rw [length_bytesOf]
  omega

theorem readPtr_writeLen (mem : Mem) (p : Nat) (n : UInt32) :
    readPtr (writeLen mem (p + 8) n) p = readPtr mem p :=
  readNat_congr fun k hk => writeBytes_before (by omega)

/-- A slice is read from its 12 bytes. -/
theorem Designates.congr (h : Designates elemSize mem p v)
    (hsame : ∀ k < 12, mem' (q + k) = mem (p + k)) : Designates elemSize mem' q v := by
  have hdata : readPtr mem' q = readPtr mem p := readNat_congr fun k hk => hsame k (by omega)
  have hlen : readLen mem' (q + 8) = readLen mem (p + 8) := by
    rw [readLen, readLen, readNat_congr fun k hk => ?_]
    rw [Nat.add_assoc, Nat.add_assoc]
    exact hsame (8 + k) (by omega)
  refine ⟨?_, ?_⟩
  · rw [hdata]
    exact h.data
  · rw [hlen]
    exact h.len

theorem ptrAdd_len (hp : p + 12 ≤ 2 ^ 64) : ptrAdd p sliceLenOffset = p + 8 := by
  have hoffset : sliceLenOffset.toNat = 8 := rfl
  rw [ptrAdd, hoffset, Nat.mod_eq_of_lt (by omega)]

/-- Only the bytes of the slice at `p` have changed. -/
def ChangesSlice (mem mem' : Mem) (p : Nat) : Prop :=
  ∀ x, x < p ∨ p + 12 ≤ x → mem' x = mem x

theorem Designates.frame (h : Designates elemSize mem p v) (hchange : ChangesSlice mem mem' q)
    (hapart : p + 12 ≤ q ∨ q + 12 ≤ p) : Designates elemSize mem' p v :=
  h.congr fun k hk => hchange (p + k) (by omega)

/-! ## The operations -/

/-- Pointer and length of a slice are written. -/
theorem make_designates {data : Nat} {len : UInt32} (hp : p + 12 ≤ 2 ^ 64) :
    Designates elemSize (writeLen (writePtr mem p data) (ptrAdd p sliceLenOffset) len) p
      ⟨data, len.toNat, 0, 0⟩ ∧
    ChangesSlice mem (writeLen (writePtr mem p data) (ptrAdd p sliceLenOffset) len) p := by
  rw [ptrAdd_len hp]
  refine ⟨⟨?_, ?_⟩, fun x hx => ?_⟩
  · rw [readPtr_writeLen, readPtr_writePtr]
    simp
  · rw [readLen_writeLen]
    rfl
  · rw [writeLen, writePtr]
    rcases hx with hx | hx
    · rw [writeBytes_before (by omega), writeBytes_before hx]
    · rw [writeBytes_behind (by simp; omega), writeBytes_behind (by simp; omega)]

theorem inc_designates {amount : Nat} (h : Designates elemSize mem p v)
    (hsmall : (readInt mem amount).toInt ≤ 2 ^ 31)
    (happly : (BinOp.sliceInc elemSize sliceLenOffset).apply mem p amount = .ok (mem', q)) :
    Designates elemSize mem' p { v with advanced := v.advanced + (readInt mem amount).toInt.toNat } ∧
      ChangesSlice mem mem' p := by
  obtain ⟨-, heffect⟩ := (SizedOp.of_apply_ok (x := .sliceInc elemSize sliceLenOffset) happly
    (by omega))
  obtain ⟨rfl, -⟩ := Prod.mk.inj heffect
  refine ⟨⟨?_, ?_⟩, fun x hx => ?_⟩
  · rw [readPtr_writePtr, h.data, Nat.mod_mod, Nat.mod_add_mod, Nat.add_assoc, ← Nat.add_mul]
  · rw [readLen_writePtr]
    exact h.len
  · rcases hx with hx | hx
    · exact writeBytes_before hx
    · exact writeBytes_behind (by simp; omega)

theorem dec_designates {amount : Nat} (h : Designates elemSize mem p v) (hp : p + 12 ≤ 2 ^ 64)
    (hsmall : (readInt mem amount).toInt ≤ 2 ^ 31)
    (happly : (BinOp.sliceDec elemSize sliceLenOffset).apply mem p amount = .ok (mem', q)) :
    Designates elemSize mem' p { v with dropped := v.dropped + (readInt mem amount).toInt.toNat } ∧
      ChangesSlice mem mem' p := by
  obtain ⟨hallows, heffect⟩ := (SizedOp.of_apply_ok (x := .sliceDec elemSize sliceLenOffset) happly
    (by omega))
  obtain ⟨rfl, -⟩ := Prod.mk.inj heffect
  have hle := hallows.le_len
  simp only [SizedOp.len, ptrAdd_len hp] at hle ⊢
  refine ⟨⟨?_, ?_⟩, fun x hx => ?_⟩
  · rw [readPtr_writeLen]
    exact h.data
  · have hlt := (readLen mem (p + 8)).toNat_lt
    have hlen := h.len
    rw [readLen_writeLen, UInt32.toNat_ofNat_of_lt' (Nat.lt_of_le_of_lt (Nat.sub_le _ _) hlt)]
    simp only
    omega
  · rcases hx with hx | hx
    · exact writeBytes_before (by omega)
    · exact writeBytes_behind (by simp; omega)

theorem copy_designates {dst src : Nat} (h : Designates elemSize mem src v)
    (happly : (BinOp.copy slicePayloadSize).apply mem dst src = .ok (mem', q)) :
    Designates elemSize mem' dst v ∧ ChangesSlice mem mem' dst := by
  have hsize : slicePayloadSize.toNat = 12 := rfl
  rw [BinOp.apply] at happly
  obtain ⟨rfl, -⟩ := Prod.mk.inj (Except.ok.inj happly)
  rw [memmove, hsize]
  refine ⟨h.congr fun k hk => ?_, fun x hx => ?_⟩
  · rw [writeBytes_getElem (by simpa using hk), getElem_readBytes]
  · rcases hx with hx | hx
    · exact writeBytes_before hx
    · exact writeBytes_behind (by simp; omega)

end Memory

/-! ## Sequences -/

section Sequences

variable {elemSize : UInt64} {slots : Slots} {st st' : SliceState}

/-- Views are those of slices in slots. -/
def SliceState.Tracked (elemSize : UInt64) (slots : Slots) (st : SliceState) : Prop :=
  ∀ p v, st.view p = some v → slots.holds p ∧ Designates elemSize st.mem p v

/-- The slice at `p` gets a new view, the others are as before. -/
theorem SliceState.Tracked.become (h : st.Tracked elemSize slots) {mem : Mem} {p : Nat} {v : View}
    (hp : slots.holds p) (hv : Designates elemSize mem p v) (hchange : ChangesSlice st.mem mem p) :
    (st.become mem p v).Tracked elemSize slots := by
  intro q w hq
  by_cases heq : q = p
  · subst heq
    simp only [SliceState.become, Function.update_self, Option.some.injEq] at hq
    subst hq
    exact ⟨hp, hv⟩
  · simp only [SliceState.become, Function.update_of_ne heq] at hq
    obtain ⟨hholds, hdesignates⟩ := h q w hq
    exact ⟨hholds, hdesignates.frame hchange (slots.apart q p hholds hp heq)⟩

theorem SliceStep.tracked (hstep : SliceStep elemSize slots st st') (h : st.Tracked elemSize slots) :
    st'.Tracked elemSize slots := by
  cases hstep with
  | fromArr hdst happly =>
      obtain ⟨rfl, -⟩ := Prod.mk.inj (Except.ok.inj happly)
      obtain ⟨hnew, hchange⟩ := make_designates (slots.inside _ hdst)
      exact h.become hdst hnew hchange
  | fromOne hdst happly =>
      obtain ⟨rfl, -⟩ := Prod.mk.inj (Except.ok.inj happly)
      have hone : (1 : UInt32).toNat = 1 := rfl
      obtain ⟨hnew, hchange⟩ := make_designates (slots.inside _ hdst)
      rw [hone] at hnew
      exact h.become hdst hnew hchange
  | inc hv hsmall happly =>
      obtain ⟨hp, hold⟩ := h _ _ hv
      obtain ⟨hnew, hchange⟩ := inc_designates hold hsmall happly
      exact h.become hp hnew hchange
  | dec hv hsmall happly =>
      obtain ⟨hp, hold⟩ := h _ _ hv
      obtain ⟨hnew, hchange⟩ := dec_designates hold (slots.inside _ hp) hsmall happly
      exact h.become hp hnew hchange
  | copy hdst hv happly =>
      obtain ⟨-, hold⟩ := h _ _ hv
      obtain ⟨hnew, hchange⟩ := copy_designates hold happly
      exact h.become hdst hnew hchange

/-- Slices keep their views, whatever the operations are. -/
theorem slices_tracked {mem : Mem} (h : Relation.ReflTransGen (SliceStep elemSize slots)
      ⟨mem, fun _ => none⟩ st) : st.Tracked elemSize slots := by
  induction h with
  | refl => exact fun _ _ hv => nomatch hv
  | tail _ hstep ih => exact hstep.tracked ih

/-- The elements of the slice are among those it was made from. -/
def View.Inside (v : View) : Prop :=
  ∀ k < v.count - v.dropped, v.advanced + k < v.count

theorem View.inside_iff (v : View) : v.Inside ↔ v.advanced ≤ v.dropped ∨ v.count ≤ v.dropped := by
  constructor
  · intro h
    by_contra hnot
    have := h (v.count - v.dropped - 1) (by omega)
    omega
  · intro h k hk
    omega

/-- `B_PUSH_SLICE_AT` crashes or yields one of the elements the slice was made from. -/
def YieldsElements (elemSize : UInt64) (mem : Mem) (p : Nat) (v : View) : Prop :=
  ∀ idx mem' q, (readInt mem idx).toInt ≤ 2 ^ 31 →
    (BinOp.sliceAt elemSize sliceLenOffset).apply mem p idx = .ok (mem', q) →
    ∃ j < v.count, q = (v.data + j * elemSize.toNat) % 2 ^ 64

theorem Designates.yields {mem : Mem} {p : Nat} {v : View} (h : Designates elemSize mem p v)
    (hp : p + 12 ≤ 2 ^ 64) (hinside : v.Inside) : YieldsElements elemSize mem p v := by
  intro idx mem' q hsmall happly
  obtain ⟨hallows, heffect⟩ := SizedOp.of_apply_ok (x := .sliceAt elemSize sliceLenOffset) happly
    (by omega)
  obtain ⟨-, rfl⟩ := Prod.mk.inj heffect
  obtain ⟨hn, hlt⟩ := hallows
  have hlen := h.len
  simp only [SizedOp.len, ptrAdd_len hp] at hlt
  refine ⟨v.advanced + (readInt mem idx).toInt.toNat, hinside _ (by omega), ?_⟩
  rw [h.data, Nat.mod_add_mod, Nat.add_assoc, ← Nat.add_mul]

/-- The slice begins behind as many elements as `B_SLICE_INC` has advanced it by, and has lost as
many as `B_SLICE_DEC` has dropped.  Its elements are among those it was made from when it has lost
at least as many, and then so is what `B_PUSH_SLICE_AT` yields. -/
theorem slices_designate {mem : Mem} {p : Nat} {v : View}
    (h : Relation.ReflTransGen (SliceStep elemSize slots) ⟨mem, fun _ => none⟩ st)
    (hv : st.view p = some v) :
    Designates elemSize st.mem p v ∧
      (v.Inside ↔ v.advanced ≤ v.dropped ∨ v.count ≤ v.dropped) ∧
      (v.Inside → YieldsElements elemSize st.mem p v) := by
  obtain ⟨hp, hdesignates⟩ := slices_tracked h p v hv
  exact ⟨hdesignates, v.inside_iff, hdesignates.yields (slots.inside p hp)⟩

end Sequences

/-! ## Samples -/

/-- An array of length 2 at address 64, the number 1 at 128 -/
def pairMem : Mem := fun p =>
  if p = 64 then 2 else if p = 128 then 1 else 0

/-- One slot at address 1024 -/
def oneSlot : Slots where
  holds p := p = 1024
  inside p hp := by omega
  apart p q hp hq hne := absurd (hp.trans hq.symm) hne

/-- The slice of the array -/
def pairSlice : SliceState :=
  SliceState.become ⟨pairMem, fun _ => none⟩
    (writeLen (writePtr pairMem 1024 72) 1032 2) 1024 ⟨72, 2, 0, 0⟩

theorem pairSlice_made : SliceStep 8 oneSlot ⟨pairMem, fun _ => none⟩ pairSlice := by
  have hlen : readLen pairMem 64 = 2 := by decide
  have happly : (BinOp.sliceFromArr 8 8 sliceLenOffset).apply pairMem 1024 64 =
      .ok (writeLen (writePtr pairMem 1024 72) 1032 2, 1024) := by
    simp only [BinOp.apply, hlen]
    rfl
  have hstep : SliceStep 8 oneSlot ⟨pairMem, fun _ => none⟩ _ := .fromArr rfl happly
  rw [hlen] at hstep
  exact hstep

/-- The same slice, after `B_SLICE_INC` with the number at 128 -/
def pairTail : SliceState :=
  pairSlice.become (writePtr pairSlice.mem 1024 80) 1024 ⟨72, 2, 1, 0⟩

theorem pairTail_made : SliceStep 8 oneSlot pairSlice pairTail := by
  have hone : readInt pairSlice.mem 128 = 1 := by decide
  have happly : (BinOp.sliceInc 8 sliceLenOffset).apply pairSlice.mem 1024 128 =
      .ok (writePtr pairSlice.mem 1024 80, 1024) := by
    have hdata : readPtr pairSlice.mem 1024 = 72 := by decide
    have hlen : readLen pairSlice.mem (ptrAdd 1024 sliceLenOffset) = 2 := by decide
    simp only [BinOp.apply, hone, hdata, hlen]
    rfl
  have hview : pairSlice.view 1024 = some ⟨72, 2, 0, 0⟩ := rfl
  have hstep : SliceStep 8 oneSlot pairSlice _ := .inc hview (by rw [hone]; decide) happly
  rw [hone] at hstep
  exact hstep

/-- Element 1 of the slice without its first element is behind the array. -/
theorem pairTail_leaves : Relation.ReflTransGen (SliceStep 8 oneSlot) ⟨pairMem, fun _ => none⟩ pairTail ∧
    ¬ YieldsElements 8 pairTail.mem 1024 ⟨72, 2, 1, 0⟩ := by
  refine ⟨(Relation.ReflTransGen.single pairSlice_made).tail pairTail_made, fun h => ?_⟩
  have hone : readInt pairTail.mem 128 = 1 := by decide
  have happly : (BinOp.sliceAt 8 sliceLenOffset).apply pairTail.mem 1024 128 =
      .ok (pairTail.mem, 88) := by
    have hdata : readPtr pairTail.mem 1024 = 80 := by decide
    have hlen : readLen pairTail.mem (ptrAdd 1024 sliceLenOffset) = 2 := by decide
    simp only [BinOp.apply, hone, hdata, hlen]
    rfl
  obtain ⟨j, hj, heq⟩ := h 128 pairTail.mem 88 (by rw [hone]; decide) happly
  have height : (8 : UInt64).toNat = 8 := rfl
  simp only [height] at hj heq
  omega

/-- The same slice, after `B_SLICE_DEC` with that number as well -/
def pairLast : SliceState :=
  pairTail.become (writeLen pairTail.mem 1032 1) 1024 ⟨72, 2, 1, 1⟩

theorem pairLast_made : SliceStep 8 oneSlot pairTail pairLast := by
  have hone : readInt pairTail.mem 128 = 1 := by decide
  have happly : (BinOp.sliceDec 8 sliceLenOffset).apply pairTail.mem 1024 128 =
      .ok (writeLen pairTail.mem 1032 1, 1024) := by
    have hlen : readLen pairTail.mem (ptrAdd 1024 sliceLenOffset) = 2 := by decide
    simp only [BinOp.apply, hone, hlen]
    rfl
  have hview : pairTail.view 1024 = some ⟨72, 2, 1, 0⟩ := rfl
  have hstep : SliceStep 8 oneSlot pairTail _ := .dec hview (by rw [hone]; decide) happly
  rw [hone] at hstep
  exact hstep

/-- Behind both the slice has the second element of the array only. -/
theorem slices_designate_pair : Designates 8 pairLast.mem 1024 ⟨72, 2, 1, 1⟩ ∧
    YieldsElements 8 pairLast.mem 1024 ⟨72, 2, 1, 1⟩ := by
  have hview : pairLast.view 1024 = some ⟨72, 2, 1, 1⟩ := rfl
  obtain ⟨hdesignates, hinside, hyields⟩ := slices_designate
    (((Relation.ReflTransGen.single pairSlice_made).tail pairTail_made).tail pairLast_made) hview
  exact ⟨hdesignates, hyields (hinside.mpr (.inl (Nat.le_refl 1)))⟩

end TreeVM
