import TreeVM.IR.LayoutOrder
import Mathlib.Data.Finset.Card

/-!
# Layouts contain their parts

`type_layout_one` computes sizes modulo 2^64.

* `ceilTo`, `Extent`, `extentOf`: the layout of an entry in exact arithmetic;
* `PartsInside`: the parts of a laid-out entry lie inside its payload, and the payload inside its size;
* `contained_iff`: this holds of all entries if and only if the exact sizes are below 2^64.
-/

namespace TreeVM

/-! ## Rounding -/

/-- `n` rounded up to a multiple of `a` -/
def ceilTo (n a : Nat) : Nat :=
  (n + a - 1) / a * a

/-- The alignments that occur -/
def IsAlign (a : UInt64) : Prop :=
  a.toNat = 1 ∨ a.toNat = 4 ∨ a.toNat = 8

theorem le_ceilTo {n a : Nat} (ha : 0 < a) : n ≤ ceilTo n a := by
  have hdiv := Nat.div_add_mod (n + a - 1) a
  have hmod := Nat.mod_lt (n + a - 1) ha
  rw [ceilTo, Nat.mul_comm]
  omega

theorem ceilTo_lt {n a : Nat} (ha : 0 < a) : ceilTo n a < n + a := by
  have hle := Nat.div_mul_le_self (n + a - 1) a
  rw [ceilTo]
  omega

theorem IsAlign.pos {a : UInt64} (ha : IsAlign a) : 0 < a.toNat := by
  obtain h | h | h := ha <;> omega

/-- Rounding wraps to zero exactly where the sum before the division does not fit. -/
theorem alignUp_toNat {a : UInt64} (ha : IsAlign a) (n : UInt64) :
    (alignUp n a).toNat = if n.toNat + a.toNat - 1 < 2 ^ 64 then ceilTo n.toNat a.toNat else 0 := by
  have hn := n.toNat_lt
  have hpos := ha.pos
  have hsum : (n + a - 1).toNat = (n.toNat + a.toNat - 1) % 2 ^ 64 := by
    rw [UInt64.toNat_sub, UInt64.toNat_add, UInt64.toNat_one]
    omega
  have hproduct : (alignUp n a).toNat =
      (n.toNat + a.toNat - 1) % 2 ^ 64 / a.toNat * a.toNat % 2 ^ 64 := by
    rw [alignUp, UInt64.toNat_mul, UInt64.toNat_div, hsum]
  have hle := Nat.div_mul_le_self ((n.toNat + a.toNat - 1) % 2 ^ 64) a.toNat
  have hlt := Nat.mod_lt (n.toNat + a.toNat - 1) (show 0 < 2 ^ 64 by omega)
  rw [hproduct, Nat.mod_eq_of_lt (by omega)]
  split
  · rename_i hfits
    rw [Nat.mod_eq_of_lt hfits, ceilTo]
  · rename_i hwraps
    have ha8 : a.toNat ≤ 8 := by obtain h | h | h := ha <;> omega
    rw [show (n.toNat + a.toNat - 1) % 2 ^ 64 / a.toNat = 0 from
      Nat.div_eq_of_lt (by omega), Nat.zero_mul]

/-- The sum fits if the rounded number does, since alignments divide 2^64. -/
theorem ceilTo_fits {n : Nat} {a : UInt64} (ha : IsAlign a) :
    ceilTo n a.toNat < 2 ^ 64 ↔ n + a.toNat - 1 < 2 ^ 64 := by
  rw [ceilTo]
  obtain h | h | h := ha <;> rw [h] <;> omega

/-! ## Exact layouts -/

structure Extent where
  payload : Nat
  align : Nat
  deriving DecidableEq, Repr

/-- The end of the fields so far, and the largest alignment -/
def extentFields (extent : Nat → Option Extent) : List Field → Extent → Option Extent
  | [], x => some x
  | f :: fs, x => do
      let e ← extent f.tid
      extentFields extent fs ⟨ceilTo x.payload e.align + e.payload, max x.align e.align⟩

def extentKind (extent : Nat → Option Extent) : TypeKind → Option Extent
  | .int | .nativeFunc _ => some ⟨8, 8⟩
  | .byte => some ⟨1, 1⟩
  | .slice _ | .view _ => some ⟨12, 8⟩
  | .array elem capacity _ => do
      let e ← extent elem
      let align := max 4 e.align
      return ⟨ceilTo (ceilTo 4 e.align + capacity.toNat * e.payload) align, align⟩
  | .struct fields => do
      let x ← extentFields extent fields ⟨0, 1⟩
      return ⟨ceilTo x.payload x.align, x.align⟩

/-- The payload and the alignment of an entry, over entries nested at most `fuel` deep -/
def extentOf (types : List Ty) : Nat → Nat → Option Extent
  | 0, _ => none
  | fuel + 1, tid => do
      let t ← types[tid]?
      extentKind (extentOf types fuel) t.kind

/-- The exact size of an entry is a 64-bit number. -/
def ExactFits (types : List Ty) (tid : Nat) : Prop :=
  ∃ x, extentOf types types.length tid = some x ∧ ceilTo x.payload 8 < 2 ^ 64

/-! ## Parts of laid-out entries -/

section Parts

variable (types : List Ty)

/-- Where a field ends, as if there were no overflow -/
def Field.stop (f : Field) : Nat :=
  f.offset.toNat + ((types[f.tid]?).map fun t => t.payloadSize.toNat).getD 0

/-- The parts of a laid-out entry lie inside it.  The data pointer of a slice or a view is in front of
its length. -/
def PartsInside (t : Ty) : Prop :=
  t.payloadSize.toNat ≤ t.size.toNat ∧
  match t.kind with
  | .array elem capacity offset => ∃ e, types[elem]? = some e ∧
      offset.toNat + capacity.toNat * e.payloadSize.toNat ≤ t.payloadSize.toNat
  | .struct fields => (fields.Pairwise fun f g => f.stop types ≤ g.offset.toNat) ∧
      ∀ f ∈ fields, f.stop types ≤ t.payloadSize.toNat
  | .slice _ | .view _ => 8 ≤ sliceLenOffset.toNat ∧ sliceLenOffset.toNat + 4 ≤ t.payloadSize.toNat
  | _ => True

end Parts

/-- The types of the fields are laid out exactly. -/
def ExactAt (types : List Ty) (extent : Nat → Option Extent) (tid : Nat) : Prop :=
  ∃ t, types[tid]? = some t ∧ IsAlign t.align ∧
    extent tid = some ⟨t.payloadSize.toNat, t.align.toNat⟩

section Fields

variable {types : List Ty} {extent : Nat → Option Extent}

theorem max_toNat (a b : UInt64) : (if a < b then b else a).toNat = max a.toNat b.toNat := by
  have h := @UInt64.lt_iff_toNat_lt a b
  split
  · rename_i hlt
    exact (max_eq_right (h.mp hlt).le).symm
  · rename_i hle
    exact (max_eq_left (not_lt.mp (mt h.mpr hle))).symm

theorem IsAlign.max {a b : UInt64} (ha : IsAlign a) (hb : IsAlign b) :
    IsAlign (if a < b then b else a) := by
  split
  · exact hb
  · exact ha

/-- The alignment never overflows. -/
theorem scanFields_align {fields : List Field} {scan scan' : FieldScan} {x : Extent}
    (hexact : ∀ f ∈ fields, ExactAt types extent f.tid)
    (h : scanFields types fields scan = some scan') (halign : IsAlign scan.maxAlign)
    (hx : scan.maxAlign.toNat = x.align) :
    ∃ x', extentFields extent fields x = some x' ∧ IsAlign scan'.maxAlign ∧
      scan'.maxAlign.toNat = x'.align := by
  induction fields generalizing scan x with
  | nil =>
      cases h
      exact ⟨x, rfl, halign, hx⟩
  | cons f fs ih =>
      obtain ⟨⟨t, ht, halign', hextent⟩, hexact⟩ := List.forall_mem_cons.mp hexact
      rw [scanFields, ht, Option.bind_eq_bind, Option.bind_some] at h
      rw [extentFields, hextent, Option.bind_eq_bind, Option.bind_some]
      exact ih hexact h (halign.max halign') (by rw [max_toNat, hx])

theorem extentFields_le {fields : List Field} {x x' : Extent}
    (halign : ∀ f ∈ fields, ∀ e, extent f.tid = some e → 0 < e.align)
    (h : extentFields extent fields x = some x') : x.payload ≤ x'.payload := by
  induction fields generalizing x with
  | nil =>
      cases h
      exact Nat.le_refl _
  | cons f fs ih =>
      obtain ⟨hf, halign⟩ := List.forall_mem_cons.mp halign
      obtain ⟨e, he, h⟩ := Option.bind_eq_some_iff.mp h
      calc x.payload ≤ ceilTo x.payload e.align := le_ceilTo (hf e he)
        _ ≤ ceilTo x.payload e.align + e.payload := Nat.le_add_right _ _
        _ ≤ x'.payload := ih halign h

theorem ExactAt.pos {f : Field} (h : ExactAt types extent f.tid) :
    ∀ e, extent f.tid = some e → 0 < e.align := by
  obtain ⟨t, -, halign, hextent⟩ := h
  intro e he
  cases hextent.symm.trans he
  exact halign.pos

theorem Field.stop_of {f : Field} {t : Ty} (ht : types[f.tid]? = some t) (offset : UInt64) :
    Field.stop types { f with offset := offset } = offset.toNat + t.payloadSize.toNat := by
  rw [Field.stop, ht]
  rfl

/-- Without overflow the fields stand one after the other. -/
theorem scanFields_fits {fields : List Field} {scan scan' : FieldScan} {x x' : Extent}
    (hexact : ∀ f ∈ fields, ExactAt types extent f.tid)
    (h : scanFields types fields scan = some scan') (hx : scan.offset.toNat = x.payload)
    (hx' : extentFields extent fields x = some x') (hfits : x'.payload < 2 ^ 64) :
    scan'.offset.toNat = x'.payload ∧
    ∃ placed, scan'.fields = scan.fields ++ placed ∧
      (placed.Pairwise fun f g => f.stop types ≤ g.offset.toNat) ∧
      (∀ f ∈ placed, x.payload ≤ f.offset.toNat ∧ f.stop types ≤ x'.payload) ∧
      (x'.payload = x.payload ∨ ∃ f ∈ placed, f.stop types = x'.payload) := by
  induction fields generalizing scan x with
  | nil =>
      cases h
      cases hx'
      exact ⟨hx, [], by simp, .nil, nofun, .inl rfl⟩
  | cons f fs ih =>
      obtain ⟨⟨t, ht, halign, hextent⟩, hexact⟩ := List.forall_mem_cons.mp hexact
      rw [scanFields, ht, Option.bind_eq_bind, Option.bind_some] at h
      rw [extentFields, hextent, Option.bind_eq_bind, Option.bind_some] at hx'
      have hnext := extentFields_le (fun g hg => (hexact g hg).pos) hx'
      have hceil := le_ceilTo (n := x.payload) halign.pos
      dsimp only at hnext
      have hoffset : (alignUp scan.offset t.align).toNat = ceilTo x.payload t.align.toNat := by
        rw [alignUp_toNat halign, hx, if_pos ((ceilTo_fits halign).mp (by omega))]
      have hstop := Field.stop_of ht (alignUp scan.offset t.align)
      have hsum : (alignUp scan.offset t.align + t.payloadSize).toNat =
          ceilTo x.payload t.align.toNat + t.payloadSize.toNat := by
        rw [UInt64.toNat_add, hoffset, Nat.mod_eq_of_lt (by omega)]
      obtain ⟨hend, placed, hplaced, horder, hbounds, hlast⟩ := ih hexact h hsum hx'
      dsimp only at hbounds hlast
      refine ⟨hend, { f with offset := alignUp scan.offset t.align } :: placed, ?_, ?_, ?_, ?_⟩
      · rw [hplaced, List.append_assoc, List.singleton_append]
      · refine List.pairwise_cons.mpr ⟨fun g hg => ?_, horder⟩
        rw [hstop, hoffset]
        exact (hbounds g hg).1
      · refine List.forall_mem_cons.mpr ⟨⟨?_, by omega⟩, fun g hg => ?_⟩
        · dsimp only
          omega
        obtain ⟨hfrom, hto⟩ := hbounds g hg
        exact ⟨by omega, hto⟩
      · obtain hlast | ⟨g, hg, hlast⟩ := hlast
        · exact .inr ⟨_, List.mem_cons_self, by omega⟩
        · exact .inr ⟨g, List.mem_cons_of_mem _ hg, hlast⟩

theorem scanFields_placed {fields : List Field} {scan scan' : FieldScan}
    (h : scanFields types fields scan = some scan') :
    ∃ placed, scan'.fields = scan.fields ++ placed := by
  induction fields generalizing scan with
  | nil =>
      cases h
      exact ⟨[], by simp⟩
  | cons f fs ih =>
      obtain ⟨t, -, h⟩ := Option.bind_eq_some_iff.mp h
      obtain ⟨placed, hplaced⟩ := ih h
      exact ⟨_, hplaced.trans (List.append_assoc _ _ _)⟩

/-- With overflow a field ends behind 2^64, or it starts in front of the end of another. -/
theorem scanFields_overflows {fields : List Field} {scan scan' : FieldScan} {x x' : Extent}
    (hexact : ∀ f ∈ fields, ExactAt types extent f.tid)
    (h : scanFields types fields scan = some scan') (hx : scan.offset.toNat = x.payload)
    (hx' : extentFields extent fields x = some x') (hfits : 2 ^ 64 ≤ x'.payload)
    {placed : List Field} (hplaced : scan'.fields = scan.fields ++ placed) :
    (∃ f ∈ placed, 2 ^ 64 ≤ f.stop types) ∨
    ¬ (placed.Pairwise fun f g => f.stop types ≤ g.offset.toNat) ∨
    ∃ f ∈ placed, f.offset.toNat < x.payload := by
  induction fields generalizing scan x placed with
  | nil =>
      cases hx'
      have hlt := UInt64.toNat_lt scan.offset
      omega
  | cons f fs ih =>
      obtain ⟨⟨t, ht, halign, hextent⟩, hexact⟩ := List.forall_mem_cons.mp hexact
      rw [scanFields, ht, Option.bind_eq_bind, Option.bind_some] at h
      rw [extentFields, hextent, Option.bind_eq_bind, Option.bind_some] at hx'
      have hstop := Field.stop_of ht (alignUp scan.offset t.align)
      have halignUp := alignUp_toNat halign scan.offset
      rw [hx] at halignUp
      obtain ⟨more, hmore⟩ := scanFields_placed h
      obtain rfl : placed = { f with offset := alignUp scan.offset t.align } :: more := by
        rw [hplaced, List.append_assoc, List.append_cancel_left_eq] at hmore
        exact hmore
      by_cases hround : ceilTo x.payload t.align.toNat < 2 ^ 64
      · rw [if_pos ((ceilTo_fits halign).mp hround)] at halignUp
        by_cases hend : ceilTo x.payload t.align.toNat + t.payloadSize.toNat < 2 ^ 64
        · have hsum : (alignUp scan.offset t.align + t.payloadSize).toNat =
              ceilTo x.payload t.align.toNat + t.payloadSize.toNat := by
            rw [UInt64.toNat_add, halignUp, Nat.mod_eq_of_lt hend]
          obtain ⟨g, hg, hlong⟩ | hpairs | ⟨g, hg, hbefore⟩ := ih hexact h hsum hx' hmore
          · exact .inl ⟨g, List.mem_cons_of_mem _ hg, hlong⟩
          · exact .inr (.inl fun hall => hpairs (List.pairwise_cons.mp hall).2)
          · refine .inr (.inl fun hall => ?_)
            have hafter := (List.pairwise_cons.mp hall).1 g hg
            dsimp only at hbefore
            omega
        · exact .inl ⟨_, List.mem_cons_self, by omega⟩
      · -- the offset wraps to zero, in front of the fields before
        rw [if_neg (mt (ceilTo_fits halign).mpr hround)] at halignUp
        refine .inr (.inr ⟨_, List.mem_cons_self, ?_⟩)
        have hlt := ceilTo_lt (n := x.payload) halign.pos
        dsimp only
        obtain h8 | h8 | h8 := halign <;> omega

end Fields

/-! ## One entry -/

section Entry

variable {types : List Ty} {extent : Nat → Option Extent}

theorem isAlign_cell : IsAlign cellAlign :=
  .inr (.inr rfl)

/-- Where the data of an array starts, and what its alignment is -/
theorem Settled.array_start {t e : Ty} (h : Settled types t) {elem : Nat} {capacity : UInt32}
    {offset : UInt64} (hkind : t.kind = .array elem capacity offset) (he : types[elem]? = some e) :
    offset = alignUp 4 e.align ∧ t.align = (if 4 < e.align then e.align else 4) ∧
      t.payloadSize = alignUp (offset + e.payloadSize * capacity.toUInt64) t.align := by
  have hlaid := h.kind
  rw [relayout_array hkind, he, Option.map_some, Option.some.injEq] at hlaid
  have halign : t.align = if 4 < e.align then e.align else 4 := by rw [← hlaid]
  have hoffset : offset = alignUp 4 e.align := by
    have hkinds := congrArg Ty.kind hlaid
    rw [hkind] at hkinds
    cases hkinds
    rfl
  exact ⟨hoffset, halign, by rw [halign, hoffset, ← hlaid]⟩

theorem Settled.struct_fields {t : Ty} (h : Settled types t) {fields : List Field}
    (hkind : t.kind = .struct fields) : ∃ scan, scanFields types fields {} = some scan ∧
      fields = scan.fields ∧ t.align = scan.maxAlign ∧
      t.payloadSize = alignUp scan.offset t.align := by
  have hlaid := h.kind
  rw [relayout_struct hkind] at hlaid
  obtain ⟨scan, hscan, hlaid⟩ := Option.map_eq_some_iff.mp hlaid
  have halign : t.align = scan.maxAlign := by rw [← hlaid]
  refine ⟨scan, hscan, ?_, halign, by rw [halign, ← hlaid]⟩
  have hkinds := congrArg Ty.kind hlaid
  rw [hkind] at hkinds
  cases hkinds
  rfl

/-- A payload of `n` bytes, rounded up twice, holds them exactly if nothing wraps. -/
theorem rounded_holds {n : Nat} {w a : UInt64} (ha : IsAlign a) (hw : w.toNat = n % 2 ^ 64) :
    ((alignUp w a).toNat ≤ (alignUp (alignUp w a) cellAlign).toNat ∧ n ≤ (alignUp w a).toNat ↔
      ceilTo (ceilTo n a.toNat) 8 < 2 ^ 64) ∧
    (ceilTo (ceilTo n a.toNat) 8 < 2 ^ 64 → (alignUp w a).toNat = ceilTo n a.toNat) := by
  have hceil := le_ceilTo (n := n) ha.pos
  have hceil8 := le_ceilTo (n := ceilTo n a.toNat) (show 0 < 8 by omega)
  have hsize := alignUp_toNat isAlign_cell (alignUp w a)
  have hfits8 := ceilTo_fits (n := ceilTo n a.toNat) isAlign_cell
  rw [show cellAlign.toNat = 8 from rfl] at hsize hfits8
  by_cases hround : ceilTo n a.toNat < 2 ^ 64
  · rw [Nat.mod_eq_of_lt (by omega)] at hw
    have hpayload : (alignUp w a).toNat = ceilTo n a.toNat := by
      rw [alignUp_toNat ha, hw, if_pos ((ceilTo_fits ha).mp hround)]
    rw [hpayload] at hsize ⊢
    refine ⟨?_, fun _ => rfl⟩
    by_cases hfits : ceilTo (ceilTo n a.toNat) 8 < 2 ^ 64
    · rw [hsize, if_pos (hfits8.mp hfits)]
      exact iff_of_true ⟨hceil8, hceil⟩ hfits
    · rw [hsize, if_neg (mt hfits8.mpr hfits)]
      refine iff_of_false (fun h => ?_) hfits
      have hzero := hfits8.mpr (by omega)
      omega
  · refine ⟨iff_of_false (fun ⟨_, h⟩ => ?_) (by omega), fun h => by omega⟩
    have hlt := (alignUp w a).toNat_lt
    by_cases hn : n < 2 ^ 64
    · rw [Nat.mod_eq_of_lt hn] at hw
      rw [alignUp_toNat ha, hw, if_neg (mt (ceilTo_fits ha).mpr hround)] at h
      have hsmall := ceilTo_lt (n := n) ha.pos
      obtain h8 | h8 | h8 := ha <;> omega
    · omega

variable (types extent) in
/-- The exact layout of an entry, and whether the entry contains its parts -/
def EntryExact (t : Ty) : Prop :=
  IsAlign t.align ∧ ∃ x, extentKind extent t.kind = some x ∧ t.align.toNat = x.align ∧
    (PartsInside types t ↔ ceilTo x.payload 8 < 2 ^ 64) ∧
    (ceilTo x.payload 8 < 2 ^ 64 → t.payloadSize.toNat = x.payload)

/-- An entry with a fixed payload, which alone has to be contained -/
theorem entryExact_fixed {t : Ty} (hsettled : Settled types t) {n a : Nat}
    (hx : extentKind extent t.kind = some ⟨n, a⟩) (hpayload : t.payloadSize.toNat = n)
    (halign : t.align.toNat = a) (ha : a = 1 ∨ a = 4 ∨ a = 8) (hn : n < 2 ^ 32)
    (hparts : PartsInside types t ↔ t.payloadSize.toNat ≤ t.size.toNat) :
    EntryExact types extent t := by
  have hfits := ceilTo_fits (n := n) isAlign_cell
  have hround := alignUp_toNat isAlign_cell t.payloadSize
  have hceil := le_ceilTo (n := n) (show 0 < 8 by omega)
  rw [show cellAlign.toNat = 8 from rfl] at hfits hround
  rw [hpayload, if_pos (by omega), ← hsettled.size] at hround
  refine ⟨by rw [IsAlign, halign]; exact ha, _, hx, halign, ?_, fun _ => hpayload⟩
  rw [hparts, hpayload, hround]
  exact iff_of_true hceil (hfits.mpr (by omega))

theorem entryExact_array {t : Ty} (hsettled : Settled types t) {elem : Nat} {capacity : UInt32}
    {offset : UInt64} (hkind : t.kind = .array elem capacity offset)
    (hexact : ExactAt types extent elem) : EntryExact types extent t := by
  have hsize := hsettled.size
  obtain ⟨e, he, halignElem, hextent⟩ := hexact
  obtain ⟨hoffset, halign, hpayload⟩ := hsettled.array_start hkind he
  have ha : IsAlign t.align := by
    rw [halign]
    exact IsAlign.max (.inr (.inl rfl)) halignElem
  have hmax : t.align.toNat = max 4 e.align.toNat := by
    rw [halign, max_toNat]
    rfl
  have hstart : offset.toNat = ceilTo 4 e.align.toNat := by
    rw [hoffset, alignUp_toNat halignElem, show (4 : UInt64).toNat = 4 from rfl, if_pos]
    obtain h | h | h := halignElem <;> omega
  have hsum : (offset + e.payloadSize * capacity.toUInt64).toNat =
      (offset.toNat + capacity.toNat * e.payloadSize.toNat) % 2 ^ 64 := by
    rw [UInt64.toNat_add, UInt64.toNat_mul, UInt32.toNat_toUInt64, Nat.add_mod_mod, Nat.mul_comm]
  obtain ⟨hholds, hpayloads⟩ := rounded_holds ha hsum
  rw [← hpayload, ← hsize] at hholds
  rw [← hpayload] at hpayloads
  have hx : extentKind extent t.kind = some ⟨ceilTo (offset.toNat +
      capacity.toNat * e.payloadSize.toNat) t.align.toNat, t.align.toNat⟩ := by
    simp only [extentKind, hkind, hextent, Option.bind_eq_bind, Option.bind_some, Option.pure_def,
      hstart, hmax]
  refine ⟨ha, _, hx, rfl, ?_, hpayloads⟩
  rw [← hholds, PartsInside, hkind]
  refine and_congr_right fun _ => ⟨fun ⟨e', he', hparts⟩ => ?_, fun hparts => ⟨e, he, hparts⟩⟩
  cases he.symm.trans he'
  exact hparts

theorem entryExact_struct {t : Ty} (hsettled : Settled types t) {fields : List Field}
    (hkind : t.kind = .struct fields) (hexact : ∀ f ∈ fields, ExactAt types extent f.tid) :
    EntryExact types extent t := by
  have hsize := hsettled.size
  obtain ⟨scan, hscan, hfields, halign, hpayload⟩ := hsettled.struct_fields hkind
  obtain ⟨y, hy, ha, hmax⟩ := scanFields_align hexact hscan (.inl rfl) (x := ⟨0, 1⟩) rfl
  rw [← halign] at ha hmax
  have hx : extentKind extent t.kind = some ⟨ceilTo y.payload t.align.toNat, t.align.toNat⟩ := by
    simp only [extentKind, hkind, hy, Option.bind_eq_bind, Option.bind_some, Option.pure_def, hmax]
  refine ⟨ha, _, hx, rfl, ?_⟩
  by_cases hfits : y.payload < 2 ^ 64
  · obtain ⟨hend, placed, hplaced, horder, hbounds, hlast⟩ :=
      scanFields_fits hexact hscan rfl hy hfits
    obtain rfl : fields = placed := by rw [hfields, hplaced]; rfl
    obtain ⟨hholds, hpayloads⟩ := rounded_holds (n := y.payload) ha
      (hend.trans (Nat.mod_eq_of_lt hfits).symm)
    rw [← hpayload, ← hsize] at hholds
    rw [← hpayload] at hpayloads
    refine ⟨?_, hpayloads⟩
    rw [← hholds, PartsInside, hkind]
    refine and_congr_right fun _ => ⟨fun ⟨_, hstops⟩ => ?_, fun hle => ⟨horder, fun f hf => ?_⟩⟩
    · obtain hzero | ⟨f, hf, hstop⟩ := hlast
      · rw [hzero]
        exact Nat.zero_le _
      · rw [← hstop]
        exact hstops f hf
    · exact Nat.le_trans (hbounds f hf).2 hle
  · have hplaced : scan.fields = ({} : FieldScan).fields ++ fields := by
      rw [hfields]
      rfl
    have hover := scanFields_overflows hexact hscan rfl hy (Nat.le_of_not_lt hfits) hplaced
    have hceil := le_ceilTo (n := y.payload) ha.pos
    have hceil8 := le_ceilTo (n := ceilTo y.payload t.align.toNat) (show 0 < 8 by omega)
    refine ⟨iff_of_false ?_ (by dsimp only; omega), fun h => by dsimp only at h; omega⟩
    rw [PartsInside, hkind]
    rintro ⟨-, horder, hstops⟩
    have hlt := t.payloadSize.toNat_lt
    obtain ⟨f, hf, hlong⟩ | hpairs | ⟨f, -, hbefore⟩ := hover
    · have hstop := hstops f hf
      omega
    · exact hpairs horder
    · exact Nat.not_lt_zero _ hbefore

/-- An entry contains its parts, when their sizes are exact, unless its own size wraps. -/
theorem entryExact {t : Ty} (hsettled : Settled types t)
    (hexact : ∀ r ∈ t.kind.refs, ExactAt types extent r) : EntryExact types extent t := by
  have hlaid := hsettled.kind
  cases hkind : t.kind with
  | int =>
      rw [relayout_int hkind, Option.some.injEq] at hlaid
      have hx : extentKind extent t.kind = some ⟨8, 8⟩ := by rw [hkind]; rfl
      refine entryExact_fixed hsettled hx ?_ ?_ (.inr (.inr rfl)) (by decide) ?_
      · rw [← hlaid]; rfl
      · rw [← hlaid]; rfl
      · simp [PartsInside, hkind]
  | byte =>
      rw [relayout_byte hkind, Option.some.injEq] at hlaid
      have hx : extentKind extent t.kind = some ⟨1, 1⟩ := by rw [hkind]; rfl
      refine entryExact_fixed hsettled hx ?_ ?_ (.inl rfl) (by decide) ?_
      · rw [← hlaid]; rfl
      · rw [← hlaid]; rfl
      · simp [PartsInside, hkind]
  | nativeFunc sig =>
      rw [relayout_nativeFunc hkind] at hlaid
      obtain ⟨-, hlaid⟩ := Option.ite_none_right_eq_some.mp hlaid
      rw [Option.some.injEq] at hlaid
      have hx : extentKind extent t.kind = some ⟨8, 8⟩ := by rw [hkind]; rfl
      refine entryExact_fixed hsettled hx ?_ ?_ (.inr (.inr rfl)) (by decide) ?_
      · rw [← hlaid]; rfl
      · rw [← hlaid]; rfl
      · simp [PartsInside, hkind]
  | slice elem | view elem =>
      have hpayload : t.payloadSize = 12 ∧ t.align = 8 := by
        first
        | rw [relayout_slice hkind] at hlaid
        | rw [relayout_view hkind] at hlaid
        obtain ⟨e, -, hlaid⟩ := Option.map_eq_some_iff.mp hlaid
        rw [← hlaid]
        exact ⟨rfl, rfl⟩
      have hx : extentKind extent t.kind = some ⟨12, 8⟩ := by rw [hkind]; rfl
      refine entryExact_fixed hsettled hx ?_ ?_ (.inr (.inr rfl)) (by decide) ?_
      · rw [hpayload.1]; rfl
      · rw [hpayload.2]; rfl
      · simp [PartsInside, hkind, hpayload.1, sliceLenOffset]
  | array elem capacity offset =>
      exact entryExact_array hsettled hkind (hexact elem (by simp [hkind, TypeKind.refs]))
  | struct fields =>
      refine entryExact_struct hsettled hkind fun f hf => hexact f.tid ?_
      rw [hkind]
      exact List.mem_map_of_mem hf

end Entry

/-! ## Tables -/

section Tables

variable {types types' : List Ty} {rank : Nat → Nat}

/-- Ranks can be chosen below the number of entries. -/
theorem Laid.bounded (h : Laid types rank) :
    ∃ rank', Laid types rank' ∧ ∀ i < types.length, rank' i < types.length := by
  let below (i : Nat) : Finset Nat := (Finset.range types.length).filter fun j => rank j < rank i
  refine ⟨fun i => (below i).card, ⟨h.settled, fun i t ht r hr => ?_⟩, fun i hi => ?_⟩
  · obtain ⟨hlt, hrank⟩ := h.refs i t ht r hr
    refine ⟨hlt, Finset.card_lt_card ?_⟩
    rw [Finset.ssubset_iff_of_subset fun j hj => ?_]
    · exact ⟨r, by simp [below, hlt, hrank], by simp [below]⟩
    · simp only [below, Finset.mem_filter] at hj ⊢
      exact ⟨hj.1, by omega⟩
  · have hsub : below i ⊂ Finset.range types.length := by
      rw [Finset.ssubset_iff_of_subset (Finset.filter_subset _ _)]
      exact ⟨i, Finset.mem_range.mpr hi, by simp⟩
    simpa using Finset.card_lt_card hsub

theorem extentFields_congr {extent : Nat → Option Extent} {fields fields' : List Field} {x : Extent}
    (h : fields'.map Field.tid = fields.map Field.tid) :
    extentFields extent fields' x = extentFields extent fields x := by
  induction fields generalizing fields' x with
  | nil =>
      rw [List.map_nil, List.map_eq_nil_iff] at h
      rw [h]
  | cons f fs ih =>
      cases fields' with
      | nil => cases h
      | cons f' fs' =>
          obtain ⟨hf, hfs⟩ := List.cons.inj h
          simp only [extentFields, hf, ih hfs]

theorem extentKind_shape {extent : Nat → Option Extent} {kind kind' : TypeKind}
    (h : kind'.shape = kind.shape) : extentKind extent kind' = extentKind extent kind := by
  have hrefs := refs_of_shape h
  cases kind <;> cases kind' <;>
    simp only [TypeKind.shape, reduceCtorEq, TypeKind.array.injEq, TypeKind.slice.injEq,
      TypeKind.view.injEq, TypeKind.struct.injEq] at h
  case struct.struct fields fields' =>
    simp only [extentKind, extentFields_congr (show fields'.map Field.tid = fields.map Field.tid from hrefs)]
  case array.array =>
    simp only [extentKind, h.1, h.2.1]
  all_goals rfl

/-- Layout leaves the exact sizes alone. -/
theorem extentOf_same (h : List.Forall₂ SameEntry types types') (fuel tid : Nat) :
    extentOf types' fuel tid = extentOf types fuel tid := by
  induction fuel generalizing tid with
  | zero => rfl
  | succ fuel ih =>
      rw [extentOf, extentOf]
      cases ht : types[tid]? with
      | none =>
          rw [List.getElem?_eq_none_iff, h.length_eq, ← List.getElem?_eq_none_iff] at ht
          rw [ht]
          rfl
      | some t =>
          obtain ⟨t', ht', hsame⟩ := forall₂_getElem? h ht
          simp only [ht', Option.bind_eq_bind, Option.bind_some, extentKind_shape hsame.shape,
            funext ih]

theorem extentFields_mono {extent extent' : Nat → Option Extent}
    (h : ∀ i x, extent i = some x → extent' i = some x) {fields : List Field} {x x' : Extent}
    (hx : extentFields extent fields x = some x') : extentFields extent' fields x = some x' := by
  induction fields generalizing x with
  | nil => exact hx
  | cons f fs ih =>
      obtain ⟨e, he, hx⟩ := Option.bind_eq_some_iff.mp hx
      rw [extentFields, h _ _ he]
      exact ih hx

theorem extentKind_mono {extent extent' : Nat → Option Extent}
    (h : ∀ i x, extent i = some x → extent' i = some x) {kind : TypeKind} {x : Extent}
    (hx : extentKind extent kind = some x) : extentKind extent' kind = some x := by
  cases kind with
  | array elem capacity offset =>
      obtain ⟨e, he, hx⟩ := Option.bind_eq_some_iff.mp hx
      rw [extentKind, h _ _ he]
      exact hx
  | struct fields =>
      obtain ⟨y, hy, hx⟩ := Option.bind_eq_some_iff.mp hx
      rw [extentKind, extentFields_mono h hy]
      exact hx
  | _ => exact hx

theorem extentOf_mono {fuel fuel' i : Nat} {x : Extent} (hle : fuel ≤ fuel')
    (hx : extentOf types fuel i = some x) : extentOf types fuel' i = some x := by
  induction fuel generalizing fuel' i x with
  | zero => cases hx
  | succ fuel ih =>
      obtain _ | fuel' := fuel'
      · omega
      obtain ⟨t, ht, hx⟩ := Option.bind_eq_some_iff.mp hx
      rw [extentOf, ht]
      exact extentKind_mono (fun j y hy => ih (Nat.le_of_succ_le_succ hle) hy) hx

/-- Entries that contain their parts, or whose exact sizes fit, are laid out exactly. -/
theorem exactAt_of_good (hlaid : Laid types rank)
    (hgood : ∀ i t, types[i]? = some t → PartsInside types t ∨ ExactFits types i)
    {i fuel : Nat} {t : Ty} (ht : types[i]? = some t) (hfuel : rank i < fuel)
    (hle : fuel ≤ types.length) :
    ExactAt types (extentOf types fuel) i ∧ (PartsInside types t ↔ ExactFits types i) := by
  induction hn : rank i using Nat.strongRecOn generalizing i fuel t with
  | ind n ih =>
      subst hn
      obtain _ | fuel := fuel
      · omega
      have hparts : ∀ r ∈ t.kind.refs, ExactAt types (extentOf types fuel) r := by
        intro r hr
        obtain ⟨hlt, hrank⟩ := hlaid.refs i t ht r hr
        exact (ih (rank r) hrank (List.getElem?_eq_getElem hlt) (by omega) (by omega) rfl).1
      obtain ⟨halign, x, hx, hxalign, hiff, hpayload⟩ := entryExact (hlaid.settled i t ht) hparts
      have hextent : extentOf types (fuel + 1) i = some x := by
        rw [extentOf, ht, Option.bind_eq_bind, Option.bind_some, hx]
      have hexact : ExactFits types i ↔ ceilTo x.payload 8 < 2 ^ 64 := by
        have hall := extentOf_mono hle hextent
        refine ⟨fun ⟨y, hy, hfits⟩ => ?_, fun hfits => ⟨x, hall, hfits⟩⟩
        cases hall.symm.trans hy
        exact hfits
      have hfits : ceilTo x.payload 8 < 2 ^ 64 := by
        obtain hcontained | hgood := hgood i t ht
        · exact hiff.mp hcontained
        · exact hexact.mp hgood
      refine ⟨⟨t, ht, halign, ?_⟩, hiff.trans hexact.symm⟩
      rw [hextent, hpayload hfits, hxalign]

/-- In an accepted table every entry contains its parts, if and only if every exact size fits in 64
bits. -/
theorem contained_iff (h : layoutAll types = some types') :
    (∀ t ∈ types', PartsInside types' t) ↔ ∀ i < types.length, ExactFits types i := by
  obtain ⟨⟨rank, hlaid⟩, hlength, -⟩ := laid_of_layoutAll h
  obtain ⟨rank, hlaid, hrank⟩ := hlaid.bounded
  have hsame : ∀ i, ExactFits types' i ↔ ExactFits types i := by
    intro i
    rw [ExactFits, ExactFits, hlength]
    simp only [extentOf_same (entries_of_layoutAll h)]
  constructor
  · intro hall i hi
    rw [← hlength] at hi
    have ht := List.getElem?_eq_getElem hi
    obtain ⟨-, hiff⟩ := exactAt_of_good hlaid
      (fun j u hu => .inl (hall u (List.mem_of_getElem? hu))) ht (hrank i hi) (Nat.le_refl _)
    exact (hsame i).mp (hiff.mp (hall _ (List.getElem_mem hi)))
  · intro hall t ht
    obtain ⟨i, hi⟩ := List.mem_iff_getElem?.mp ht
    have hlt := (List.getElem?_eq_some_iff.mp hi).1
    have hfits : ∀ j < types'.length, ExactFits types' j := fun j hj =>
      (hsame j).mpr (hall j (hlength ▸ hj))
    obtain ⟨-, hiff⟩ := exactAt_of_good hlaid (fun j u hu =>
      .inr (hfits j (List.getElem?_eq_some_iff.mp hu).1)) hi (hrank i hlt) (Nat.le_refl _)
    exact hiff.mpr (hfits i hlt)

end Tables

/-- An array of arrays of 2^32 - 1 integers each -/
def hugeArrays : List Ty :=
  [{ kind := .int }, { kind := .byte }, { kind := .array 0 4294967295 0 },
    { kind := .array 2 4294967295 0 }]

/-- `[int, byte, Slice int, Array 4 of it, struct of a byte and the array]` -/
def nestedTypes : List Ty :=
  [{ kind := .int }, { kind := .byte }, { kind := .slice 0 }, { kind := .array 2 4 0 },
    { kind := .struct [⟨1, 0⟩, ⟨3, 0⟩] }]

theorem contained_iff_nestedTypes : ∃ types', layoutAll nestedTypes = some types' ∧
    ∀ t ∈ types', PartsInside types' t := by
  obtain ⟨types', h⟩ := Option.isSome_iff_exists.mp (show (layoutAll nestedTypes).isSome by decide)
  refine ⟨types', h, (contained_iff h).mpr fun i hi => ?_⟩
  have hfits : ∀ i < 5, ((extentOf nestedTypes 5 i).any fun x => ceilTo x.payload 8 < 2 ^ 64) = true := by
    decide
  have hfit := hfits i hi
  cases hx : extentOf nestedTypes 5 i with
  | none => simp [hx] at hfit
  | some x =>
      rw [hx, Option.any_some, decide_eq_true_eq] at hfit
      exact ⟨x, hx, hfit⟩

/-- The size of the outer array wraps. -/
theorem hugeArrays_overflow : ∃ types', layoutAll hugeArrays = some types' ∧
    ¬ ∀ t ∈ types', PartsInside types' t := by
  obtain ⟨types', h⟩ := Option.isSome_iff_exists.mp (show (layoutAll hugeArrays).isSome by decide)
  refine ⟨types', h, fun hall => ?_⟩
  have hinner : (layoutAll hugeArrays).bind (fun ts => ts[2]?.map Ty.payloadSize) =
      some 34359738368 := by decide
  have houter : (layoutAll hugeArrays).bind (fun ts => ts[3]?.map Ty.kind) =
      some (.array 2 4294967295 8) := by decide
  rw [h, Option.bind_some] at hinner houter
  obtain ⟨e, he, hpayload⟩ := Option.map_eq_some_iff.mp hinner
  obtain ⟨t, ht, hkind⟩ := Option.map_eq_some_iff.mp houter
  have hcontained := (hall t (List.mem_of_getElem? ht)).2
  rw [hkind] at hcontained
  obtain ⟨e', he', hfits⟩ := hcontained
  cases he.symm.trans he'
  have hlt := t.payloadSize.toNat_lt
  rw [hpayload] at hfits
  simp at hfits
  omega

end TreeVM
