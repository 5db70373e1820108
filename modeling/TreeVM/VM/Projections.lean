import TreeVM.IR.Containment
import TreeVM.IR.Portals
import TreeVM.VM.Slices

/-!
# Projections

Pointers into a local, by `OP_ARR_AT`, `OP_SLICE_AT` and `OP_STRUCT_AT`.

* `Ty.Rounded`: payloads are multiples of the alignment, except the 12 bytes of slices and views;
* `Access`, `Projects`, `Projection`: a step to a part of the value at a pointer, and chains of them;
* `StackOffset`: where a local stands above return frames and other locals;
* `projection_aligned_iff`: when a chain ends at an aligned pointer.
-/

namespace TreeVM

/-! ## Alignment of layouts -/

section Layout

variable {types : List Ty} {rank : Nat → Nat}

theorem IsAlign.dvd_of_le {a b : UInt64} (ha : IsAlign a) (hb : IsAlign b)
    (h : a.toNat ≤ b.toNat) : a.toNat ∣ b.toNat := by
  obtain ha | ha | ha := ha <;> obtain hb | hb | hb := hb <;> rw [ha, hb] at h ⊢ <;> omega

theorem IsAlign.dvd_word {a : UInt64} (ha : IsAlign a) : a.toNat ∣ 2 ^ 64 := by
  obtain ha | ha | ha := ha <;> rw [ha] <;> decide

theorem IsAlign.dvd_cell {a : UInt64} (ha : IsAlign a) : a.toNat ∣ 8 := by
  obtain ha | ha | ha := ha <;> rw [ha] <;> decide

/-- Rounding gives a multiple of the alignment, also when it wraps. -/
theorem dvd_alignUp {a : UInt64} (ha : IsAlign a) (n : UInt64) : a.toNat ∣ (alignUp n a).toNat := by
  rw [alignUp_toNat ha]
  split
  · exact Nat.dvd_mul_left _ _
  · exact Nat.dvd_zero _

/-- A payload that is a multiple of the alignment, or that of a slice or a view -/
structure Ty.Rounded (t : Ty) : Prop where
  align : IsAlign t.align
  payload : ¬ t.kind.IsRef → t.align.toNat ∣ t.payloadSize.toNat
  ref : t.kind.IsRef → t.align.toNat = 8 ∧ t.payloadSize.toNat = 12

theorem scanFields_rounded {fields : List Field} {scan scan' : FieldScan}
    (h : scanFields types fields scan = some scan')
    (hfields : ∀ f ∈ fields, ∀ t, types[f.tid]? = some t → IsAlign t.align)
    (halign : IsAlign scan.maxAlign) :
    IsAlign scan'.maxAlign ∧ scan.maxAlign.toNat ≤ scan'.maxAlign.toNat ∧
    ∃ placed, scan'.fields = scan.fields ++ placed ∧ ∀ f ∈ placed, ∀ t, types[f.tid]? = some t →
      t.align.toNat ∣ f.offset.toNat ∧ t.align.toNat ≤ scan'.maxAlign.toNat := by
  induction fields generalizing scan with
  | nil =>
      cases h
      exact ⟨halign, Nat.le_refl _, [], by simp, nofun⟩
  | cons f fs ih =>
      obtain ⟨t, ht, h⟩ := Option.bind_eq_some_iff.mp h
      obtain ⟨hf, hfields⟩ := List.forall_mem_cons.mp hfields
      have hmax := max_toNat scan.maxAlign t.align
      obtain ⟨halign', hle, placed, hplaced, hrounded⟩ := ih h hfields (halign.max (hf t ht))
      dsimp only at hle hplaced
      rw [hmax] at hle
      refine ⟨halign', by omega, { f with offset := alignUp scan.offset t.align } :: placed, ?_, ?_⟩
      · rw [hplaced, List.append_assoc, List.singleton_append]
      · refine List.forall_mem_cons.mpr ⟨fun u hu => ?_, hrounded⟩
        cases ht.symm.trans hu
        exact ⟨dvd_alignUp (hf t ht) _, by omega⟩

theorem rounded_of_fixed {t : Ty} (hkind : ¬ t.kind.IsRef) {n : Nat}
    (hpayload : t.payloadSize.toNat = n) (halign : t.align.toNat = n) (hn : n = 1 ∨ n = 8) :
    t.Rounded where
  align := by
    rw [IsAlign, halign]
    omega
  payload _ := ⟨1, by rw [hpayload, halign, Nat.mul_one]⟩
  ref h := absurd h hkind

/-- Every entry is rounded when the entries that it refers to are. -/
theorem rounded_entry {t : Ty} (h : Settled types t)
    (hrefs : ∀ r ∈ t.kind.refs, ∀ u, types[r]? = some u → u.Rounded) : t.Rounded := by
  have hlaid := h.kind
  cases hkind : t.kind with
  | int =>
      rw [relayout_int hkind, Option.some.injEq] at hlaid
      refine rounded_of_fixed (by rw [hkind]; exact id) ?_ ?_ (.inr rfl)
      · rw [← hlaid]; rfl
      · rw [← hlaid]; rfl
  | byte =>
      rw [relayout_byte hkind, Option.some.injEq] at hlaid
      refine rounded_of_fixed (by rw [hkind]; exact id) ?_ ?_ (.inl rfl)
      · rw [← hlaid]; rfl
      · rw [← hlaid]; rfl
  | nativeFunc sig =>
      rw [relayout_nativeFunc hkind] at hlaid
      obtain ⟨-, hlaid⟩ := Option.ite_none_right_eq_some.mp hlaid
      rw [Option.some.injEq] at hlaid
      refine rounded_of_fixed (by rw [hkind]; exact id) ?_ ?_ (.inr rfl)
      · rw [← hlaid]; rfl
      · rw [← hlaid]; rfl
  | slice elem | view elem =>
      have hpayload : t.payloadSize = 12 ∧ t.align = 8 := by
        first
        | rw [relayout_slice hkind] at hlaid
        | rw [relayout_view hkind] at hlaid
        obtain ⟨e, -, hlaid⟩ := Option.map_eq_some_iff.mp hlaid
        rw [← hlaid]
        exact ⟨rfl, rfl⟩
      refine ⟨by rw [hpayload.2]; exact .inr (.inr rfl), fun hnot => ?_, fun _ => ?_⟩
      · rw [hkind] at hnot
        exact absurd trivial hnot
      · rw [hpayload.1, hpayload.2]
        exact ⟨rfl, rfl⟩
  | array elem capacity offset =>
      rw [relayout_array hkind] at hlaid
      obtain ⟨e, he, -⟩ := Option.map_eq_some_iff.mp hlaid
      obtain ⟨-, halign, hpayload⟩ := h.array_start hkind he
      have helem := hrefs elem (by simp [hkind, TypeKind.refs]) e he
      have ha : IsAlign t.align := by
        rw [halign]
        exact IsAlign.max (.inr (.inl rfl)) helem.align
      refine ⟨ha, fun _ => ?_, fun href => ?_⟩
      · rw [hpayload]
        exact dvd_alignUp ha _
      · rw [hkind] at href
        exact absurd href id
  | struct fields =>
      obtain ⟨scan, hscan, -, halign, hpayload⟩ := h.struct_fields hkind
      obtain ⟨ha, -⟩ := scanFields_rounded hscan (fun f hf u hu =>
        (hrefs f.tid (by rw [hkind]; exact List.mem_map_of_mem hf) u hu).align) (.inl rfl)
      rw [← halign] at ha
      refine ⟨ha, fun _ => ?_, fun href => ?_⟩
      · rw [hpayload]
        exact dvd_alignUp ha scan.offset
      · rw [hkind] at href
        exact absurd href id

theorem Laid.rounded (h : Laid types rank) {i : Nat} {t : Ty} (ht : types[i]? = some t) :
    t.Rounded := by
  induction hn : rank i using Nat.strongRecOn generalizing i t with
  | ind n ih =>
      subst hn
      refine rounded_entry (h.settled i t ht) fun r hr u hu => ?_
      exact ih (rank r) (h.refs i t ht r hr).2 hu rfl

end Layout

/-! ## Chains of projections -/

/-- A pointer and the type of the value there -/
structure Spot where
  tid : Nat
  addr : Nat
  deriving DecidableEq, Repr

/-- An element of an array, by `OP_ARR_AT` or over a slice of the array; the only element of a slice made
of one value; a field -/
inductive Access
  | element (n : Nat)
  | single
  | field (k : Nat)
  deriving DecidableEq, Repr

/-- The bytes of the slice at `q` have not changed. -/
def KeepsSlice (mem mem' : Mem) (q : Nat) : Prop :=
  ∀ k < 12, mem' (q + k) = mem (q + k)

/-- One step, as the machine takes it with the operands that `compile_op` writes.  The slice of a
step stands anywhere in memory and is not written between its making and its use. -/
inductive Projects (types : List Ty) : Spot → Access → Spot → Prop
  | arrAt {mem mem' : Mem} {tid p idx elem n q : Nat} {capacity : UInt32} {offset : UInt64} {t e : Ty} :
      types[tid]? = some t → t.kind = .array elem capacity offset → types[elem]? = some e →
      (readInt mem idx).toInt = n →
      (BinOp.arrAt offset e.payloadSize capacity).apply mem p idx = .ok (mem', q) →
      Projects types ⟨tid, p⟩ (.element n) ⟨elem, q⟩
  | sliceAt {mem mem₁ mem₂ mem' : Mem} {tid p idx elem n slice top q : Nat} {capacity : UInt32}
      {offset : UInt64} {t e : Ty} :
      types[tid]? = some t → t.kind = .array elem capacity offset → types[elem]? = some e →
      slice + 12 ≤ 2 ^ 64 →
      (BinOp.sliceFromArr offset e.payloadSize sliceLenOffset).apply mem slice p = .ok (mem₁, top) →
      KeepsSlice mem₁ mem₂ slice → (readInt mem₂ idx).toInt = n →
      (BinOp.sliceAt e.payloadSize sliceLenOffset).apply mem₂ slice idx = .ok (mem', q) →
      Projects types ⟨tid, p⟩ (.element n) ⟨elem, q⟩
  | sliceOne {mem mem₁ mem₂ mem' : Mem} {tid p idx slice top q : Nat} {t : Ty} :
      types[tid]? = some t → slice + 12 ≤ 2 ^ 64 →
      (BinOp.sliceFromOne sliceLenOffset).apply mem slice p = .ok (mem₁, top) →
      KeepsSlice mem₁ mem₂ slice →
      (BinOp.sliceAt t.payloadSize sliceLenOffset).apply mem₂ slice idx = .ok (mem', q) →
      Projects types ⟨tid, p⟩ .single ⟨tid, q⟩
  | structAt {mem mem' : Mem} {tid p k q : Nat} {fields : List Field} {f : Field} {t : Ty} :
      types[tid]? = some t → t.kind = .struct fields → fields[k]? = some f →
      (UnOp.structAt f.offset).apply mem p = (mem', q) →
      Projects types ⟨tid, p⟩ (.field k) ⟨f.tid, q⟩

inductive Projection (types : List Ty) : Spot → List Access → Spot → Prop
  | here (place : Spot) : Projection types place [] place
  | step {place place' place'' : Spot} {access : Access} {accesses : List Access} :
      Projects types place access place' → Projection types place' accesses place'' →
      Projection types place (access :: accesses) place''

/-- The elements of an array of slices or views are taken at even indices. -/
def EvenRefs (types : List Ty) : Nat → List Access → Prop
  | _, [] => True
  | tid, .single :: accesses => EvenRefs types tid accesses
  | tid, .element n :: accesses => ∀ t elem capacity offset, types[tid]? = some t →
      t.kind = .array elem capacity offset →
      (∀ e, types[elem]? = some e → e.kind.IsRef → n % 2 = 0) ∧ EvenRefs types elem accesses
  | tid, .field k :: accesses => ∀ t fields f, types[tid]? = some t → t.kind = .struct fields →
      fields[k]? = some f → EvenRefs types f.tid accesses

/-! ## Where a step leads -/

section Steps

variable {mem mem' mem₁ mem₂ : Mem} {p idx slice top q : Nat} {elemSize : UInt64}

theorem arrAt_addr {offset : UInt64} {capacity : UInt32} {n : Nat}
    (hn : (readInt mem idx).toInt = n)
    (h : (BinOp.arrAt offset elemSize capacity).apply mem p idx = .ok (mem', q)) :
    q = (p + offset.toNat + n * elemSize.toNat) % 2 ^ 64 := by
  simp only [BinOp.apply, ite_error_ok, Except.ok.injEq, Prod.mk.injEq] at h
  rw [← h.2.2, ptrAdd_ptrAdd_mul p offset elemSize (by omega), hn, Int.toNat_natCast]

/-- An element of a slice that starts at `data`; the index is below the length modulo `2 ^ 32`. -/
theorem sliceAt_addr {data : Nat} {len : UInt32} (hslice : slice + 12 ≤ 2 ^ 64)
    (hmade : mem₁ = writeLen (writePtr mem slice data) (ptrAdd slice sliceLenOffset) len)
    (hkeep : KeepsSlice mem₁ mem₂ slice)
    (h : (BinOp.sliceAt elemSize sliceLenOffset).apply mem₂ slice idx = .ok (mem', q)) :
    0 ≤ (readInt mem₂ idx).toInt ∧ (readInt mem₂ idx).toInt.toNat % 2 ^ 32 < len.toNat ∧
      q = (data + (readInt mem₂ idx).toInt.toNat * elemSize.toNat) % 2 ^ 64 := by
  subst hmade
  have hmade : Designates elemSize
      (writeLen (writePtr mem slice data) (ptrAdd slice sliceLenOffset) len) slice
      ⟨data, len.toNat, 0, 0⟩ := (make_designates hslice).1
  have hview := hmade.congr hkeep
  simp only [BinOp.apply, ite_error_ok, Except.ok.injEq, Prod.mk.injEq, not_or, int64_neg_iff,
    ptrAdd_len hslice] at h
  obtain ⟨⟨hpos, hlen⟩, -, hq⟩ := h
  have hpos : 0 ≤ (readInt mem₂ idx).toInt := by omega
  have hlength := hview.len
  have hdata := hview.data
  rw [UInt32.not_le, UInt32.lt_iff_toNat_lt, toCount_toNat hpos] at hlen
  simp only [Nat.zero_mul, Nat.add_zero] at hlength hdata
  refine ⟨hpos, by omega, ?_⟩
  rw [← hq, ptrAdd_mul _ _ hpos, hdata, Nat.mod_add_mod]

/-- The part at the end of a step, as the type table places it -/
def LandsAt (types : List Ty) (place place' : Spot) : Access → Prop
  | .element n => ∃ t e elem capacity offset, types[place.tid]? = some t ∧
      t.kind = .array elem capacity offset ∧ types[elem]? = some e ∧
      place' = ⟨elem, (place.addr + offset.toNat + n * e.payloadSize.toNat) % 2 ^ 64⟩
  | .single => ∃ t n, types[place.tid]? = some t ∧ n % 2 ^ 32 = 0 ∧
      place' = ⟨place.tid, (place.addr + n * t.payloadSize.toNat) % 2 ^ 64⟩
  | .field k => ∃ t fields f, types[place.tid]? = some t ∧ t.kind = .struct fields ∧
      fields[k]? = some f ∧ place' = ⟨f.tid, (place.addr + f.offset.toNat) % 2 ^ 64⟩

theorem Projects.landsAt {types : List Ty} {place place' : Spot} {access : Access}
    (h : Projects types place access place') : LandsAt types place place' access := by
  cases h with
  | arrAt ht hkind he hn happly =>
      exact ⟨_, _, _, _, _, ht, hkind, he, by rw [arrAt_addr hn happly]⟩
  | sliceAt ht hkind he hslice hmake hkeep hn happly =>
      simp only [BinOp.apply, Except.ok.injEq, Prod.mk.injEq] at hmake
      obtain ⟨-, -, hq⟩ := sliceAt_addr hslice hmake.1.symm hkeep happly
      refine ⟨_, _, _, _, _, ht, hkind, he, ?_⟩
      rw [hq, hn, Int.toNat_natCast, ptrAdd, Nat.mod_add_mod]
  | sliceOne ht hslice hmake hkeep happly =>
      simp only [BinOp.apply, Except.ok.injEq, Prod.mk.injEq] at hmake
      obtain ⟨-, hlen, hq⟩ := sliceAt_addr hslice hmake.1.symm hkeep happly
      exact ⟨_, _, ht, Nat.lt_one_iff.mp hlen, by rw [hq]⟩
  | structAt ht hkind hf happly =>
      obtain ⟨-, hq⟩ := Prod.mk.inj happly
      exact ⟨_, _, _, ht, hkind, hf, by rw [← hq, ptrAdd]⟩

end Steps

/-! ## Alignment along a chain -/

section Chains

variable {types : List Ty} {rank : Nat → Nat} {place place' : Spot} {access : Access}

/-- The place is aligned for its type. -/
def Spot.Aligned (types : List Ty) (place : Spot) : Prop :=
  ∃ t, types[place.tid]? = some t ∧ t.align.toNat ∣ place.addr

/-- A slice or a view half a word behind an aligned address -/
def Spot.Astray (types : List Ty) (place : Spot) : Prop :=
  ∃ t, types[place.tid]? = some t ∧ t.kind.IsRef ∧ place.addr % 8 = 4

/-- The data of an aligned array are aligned for the elements. -/
theorem element_start (hlaid : Laid types rank) {t e : Ty} {tid elem p : Nat} {capacity : UInt32}
    {offset : UInt64} (ht : types[tid]? = some t) (hkind : t.kind = .array elem capacity offset)
    (he : types[elem]? = some e) (hp : t.align.toNat ∣ p) : e.align.toNat ∣ p + offset.toNat := by
  obtain ⟨hoffset, halign, -⟩ := (hlaid.settled tid t ht).array_start hkind he
  have ha := (hlaid.rounded he).align
  have hle : e.align.toNat ≤ t.align.toNat := by
    rw [halign, max_toNat]
    exact Nat.le_max_right _ _
  rw [hoffset]
  exact Nat.dvd_add (Nat.dvd_trans (ha.dvd_of_le (hlaid.rounded ht).align hle) hp) (dvd_alignUp ha 4)

/-- The payload of slices and views is half a word more than a number of words. -/
theorem element_aligned {e : Ty} {start n : Nat} (hround : e.Rounded)
    (hstart : e.align.toNat ∣ start) :
    (e.kind.IsRef → n % 2 = 0) ∧ e.align.toNat ∣ (start + n * e.payloadSize.toNat) % 2 ^ 64 ∨
    (e.kind.IsRef ∧ n % 2 = 1) ∧ (start + n * e.payloadSize.toNat) % 2 ^ 64 % 8 = 4 := by
  by_cases href : e.kind.IsRef
  · obtain ⟨ha, hpayload⟩ := hround.ref href
    rw [ha] at hstart ⊢
    rw [hpayload]
    rcases Nat.mod_two_eq_zero_or_one n with hn | hn
    · exact .inl ⟨fun _ => hn, by omega⟩
    · exact .inr ⟨⟨href, hn⟩, by omega⟩
  · refine .inl ⟨fun h => absurd h href, (Nat.dvd_mod_iff hround.align.dvd_word).mpr ?_⟩
    exact Nat.dvd_add hstart (Nat.dvd_mul_left_of_dvd (hround.payload href) n)

theorem field_start (hlaid : Laid types rank) {t : Ty} {tid p k : Nat} {fields : List Field}
    {f : Field} (ht : types[tid]? = some t) (hkind : t.kind = .struct fields)
    (hf : fields[k]? = some f) (hp : t.align.toNat ∣ p) :
    ∃ u, types[f.tid]? = some u ∧ u.align.toNat ∣ p + f.offset.toNat := by
  obtain ⟨scan, hscan, hfields, halign, -⟩ := (hlaid.settled tid t ht).struct_fields hkind
  have hmem := List.mem_of_getElem? hf
  have hrefs := hlaid.refs tid t ht
  rw [hkind] at hrefs
  obtain ⟨-, -, placed, hplaced, hrounded⟩ := scanFields_rounded hscan
    (fun g _ u hu => (hlaid.rounded hu).align) (.inl rfl)
  have hu := List.getElem?_eq_getElem (hrefs f.tid (List.mem_map_of_mem hmem)).1
  rw [hfields, hplaced] at hmem
  obtain ⟨hoffset, hle⟩ := hrounded f (by simpa using hmem) _ hu
  refine ⟨_, hu, Nat.dvd_add (Nat.dvd_trans ?_ hp) hoffset⟩
  exact (hlaid.rounded hu).align.dvd_of_le (hlaid.rounded ht).align (by rw [halign]; exact hle)

/-- From an aligned place, a step leads to an aligned place or to an element with an odd index. -/
theorem Projects.aligned (h : Projects types place access place') (hlaid : Laid types rank)
    (hp : place.Aligned types) (accesses : List Access) :
    place'.Aligned types ∧
      (EvenRefs types place.tid (access :: accesses) ↔ EvenRefs types place'.tid accesses) ∨
    place'.Astray types ∧ ¬ EvenRefs types place.tid (access :: accesses) := by
  obtain ⟨t, ht, hdvd⟩ := hp
  have hlands := h.landsAt
  cases access with
  | element n =>
      obtain ⟨t', e, elem, capacity, offset, ht', hkind, he, rfl⟩ := hlands
      cases ht.symm.trans ht'
      have hstart := element_start hlaid ht hkind he hdvd
      rcases element_aligned (n := n) (hlaid.rounded he) hstart with ⟨heven, hq⟩ | ⟨⟨href, hodd⟩, hq⟩
      · refine .inl ⟨⟨e, he, hq⟩, fun h => (h t elem capacity offset ht hkind).2, ?_⟩
        intro hrest u elem' capacity' offset' hu hkind'
        cases ht.symm.trans hu
        cases hkind.symm.trans hkind'
        refine ⟨fun e' he' => ?_, hrest⟩
        cases he.symm.trans he'
        exact heven
      · refine .inr ⟨⟨e, he, href, hq⟩, fun h => ?_⟩
        have heven := (h t elem capacity offset ht hkind).1 e he href
        omega
  | single =>
      obtain ⟨t', n, ht', hn, rfl⟩ := hlands
      cases ht.symm.trans ht'
      refine .inl ⟨⟨t, ht, ?_⟩, Iff.rfl⟩
      have ha := (hlaid.rounded ht).align
      have hword : t.align.toNat ∣ n :=
        Nat.dvd_trans (Nat.dvd_trans ha.dvd_cell (by decide)) (Nat.dvd_of_mod_eq_zero hn)
      exact (Nat.dvd_mod_iff ha.dvd_word).mpr (Nat.dvd_add hdvd (Nat.dvd_mul_right_of_dvd hword _))
  | field k =>
      obtain ⟨t', fields, f, ht', hkind, hf, rfl⟩ := hlands
      cases ht.symm.trans ht'
      obtain ⟨u, hu, hstart⟩ := field_start hlaid ht hkind hf hdvd
      have ha := (hlaid.rounded hu).align
      refine .inl ⟨⟨u, hu, (Nat.dvd_mod_iff ha.dvd_word).mpr hstart⟩, ?_, ?_⟩
      · exact fun h => h t fields f ht hkind hf
      · intro hrest t' fields' f' ht' hkind' hf'
        cases ht.symm.trans ht'
        cases hkind.symm.trans hkind'
        cases hf.symm.trans hf'
        exact hrest

theorem Projects.astray (h : Projects types place access place') (hlaid : Laid types rank)
    (hp : place.Astray types) : place'.Astray types := by
  obtain ⟨t, ht, href, hhalf⟩ := hp
  have hlands := h.landsAt
  cases access with
  | element n =>
      obtain ⟨t', e, elem, capacity, offset, ht', hkind, -, -⟩ := hlands
      cases ht.symm.trans ht'
      rw [hkind] at href
      exact absurd href id
  | single =>
      obtain ⟨t', n, ht', hn, rfl⟩ := hlands
      cases ht.symm.trans ht'
      refine ⟨t, ht, href, ?_⟩
      rw [(hlaid.rounded ht).ref href |>.2]
      dsimp only
      omega
  | field k =>
      obtain ⟨t', fields, f, ht', hkind, -, -⟩ := hlands
      cases ht.symm.trans ht'
      rw [hkind] at href
      exact absurd href id

/-- From an aligned place, a chain ends aligned or astray. -/
theorem Projection.lands {accesses : List Access} (h : Projection types place accesses place')
    (hlaid : Laid types rank) :
    (place.Aligned types → place'.Aligned types ∧ EvenRefs types place.tid accesses ∨
      place'.Astray types ∧ ¬ EvenRefs types place.tid accesses) ∧
    (place.Astray types → place'.Astray types) := by
  induction h with
  | here place => exact ⟨fun hp => .inl ⟨hp, trivial⟩, id⟩
  | @step _ _ _ _ accesses hstep _ ih =>
      refine ⟨fun hp => ?_, fun hp => ih.2 (hstep.astray hlaid hp)⟩
      rcases hstep.aligned hlaid hp accesses with ⟨hp', heven⟩ | ⟨hp', hodd⟩
      · rw [heven]
        exact ih.1 hp'
      · exact .inr ⟨ih.2 hp', hodd⟩

/-- A slice or a view is not aligned half a word behind an aligned address. -/
theorem Spot.Astray.not_aligned (hlaid : Laid types rank) (h : place.Astray types) :
    ¬ place.Aligned types := by
  rintro ⟨t, ht, hdvd⟩
  obtain ⟨t', ht', href, hhalf⟩ := h
  cases ht.symm.trans ht'
  rw [((hlaid.rounded ht).ref href).1] at hdvd
  omega

end Chains

/-! ## Locals in storage -/

/-- What stands below a local: return frames and locals, each with a type table of its own -/
inductive StackOffset : Nat → Prop
  | bottom : StackOffset 0
  | returnFrame {n : Nat} : StackOffset n → StackOffset (n + VM.returnSize)
  | local {n : Nat} {types types' : List Ty} {t : Ty} : layoutAll types = some types' → t ∈ types' →
      StackOffset n → StackOffset (n + t.size.toNat)

theorem StackOffset.cells {n : Nat} (h : StackOffset n) : 8 ∣ n := by
  induction h with
  | bottom => exact Nat.dvd_zero 8
  | returnFrame _ ih => exact Nat.dvd_add ih (by decide)
  | «local» hlayout ht _ ih =>
      obtain ⟨⟨rank, hlaid⟩, -⟩ := laid_of_layoutAll hlayout
      obtain ⟨i, hi⟩ := List.mem_iff_getElem?.mp ht
      rw [(hlaid.settled i _ hi).size]
      exact Nat.dvd_add ih (dvd_alignUp isAlign_cell _)

/-- A chain of projections from a local ends at an aligned address, if and only if it takes the
elements of arrays of slices and views at even indices. -/
theorem projection_aligned_iff {types types' : List Ty} {data offset tid : Nat}
    {accesses : List Access} {place : Spot} (h : layoutAll types = some types')
    (hdata : data % 8 = 0) (hoffset : StackOffset offset) (htid : tid < types.length)
    (hchain : Projection types' ⟨tid, (data + offset) % 2 ^ 64⟩ accesses place) :
    place.Aligned types' ↔ EvenRefs types' tid accesses := by
  obtain ⟨⟨rank, hlaid⟩, hlength, -⟩ := laid_of_layoutAll h
  have ht := List.getElem?_eq_getElem (hlength ▸ htid)
  have ha := (hlaid.rounded ht).align
  have hcells : 8 ∣ data + offset := Nat.dvd_add (Nat.dvd_of_mod_eq_zero hdata) hoffset.cells
  have hstart : Spot.Aligned types' ⟨tid, (data + offset) % 2 ^ 64⟩ :=
    ⟨_, ht, (Nat.dvd_mod_iff ha.dvd_word).mpr (Nat.dvd_trans ha.dvd_cell hcells)⟩
  rcases (hchain.lands hlaid).1 hstart with ⟨haligned, heven⟩ | ⟨hastray, hodd⟩
  · exact iff_of_true haligned heven
  · exact iff_of_false (hastray.not_aligned hlaid) hodd

/-- An array of four slices in a struct at 1024, its length at 1032; the index at 512 -/
def fourSlices (n : UInt8) : Mem := fun p =>
  if p = 512 then n else if p = 1032 then 4 else 0

theorem fourSlices_projects {n : UInt8} {k q : Nat} (hn : (readInt (fourSlices n) 512).toInt = k)
    (happly : (BinOp.arrAt 8 12 4).apply (fourSlices n) 1032 512 = .ok (fourSlices n, q)) :
    ∃ types' t, layoutAll nestedTypes = some types' ∧ types'[2]? = some t ∧ t.align = 8 ∧
      Projection types' ⟨4, (1024 + 0) % 2 ^ 64⟩ [.field 1, .element k] ⟨2, q⟩ := by
  have hfield : (UnOp.structAt 8).apply (fourSlices n) 1024 = (fourSlices n, 1032) := rfl
  refine ⟨_, _, rfl, rfl, rfl, .step (.structAt rfl rfl rfl hfield) ?_⟩
  exact .step (.arrAt rfl rfl rfl hn happly) (.here _)

/-- The third slice of the array -/
theorem projection_aligned_iff_thirdSlice : ∃ types', layoutAll nestedTypes = some types' ∧
    Projection types' ⟨4, (1024 + 0) % 2 ^ 64⟩ [.field 1, .element 2] ⟨2, 1064⟩ ∧
    Spot.Aligned types' ⟨2, 1064⟩ := by
  have hidx : readInt (fourSlices 2) 512 = 2 := by decide
  have happly : (BinOp.arrAt 8 12 4).apply (fourSlices 2) 1032 512 = .ok (fourSlices 2, 1064) := by
    have hlen : readLen (fourSlices 2) 1032 = 4 := by decide
    simp only [BinOp.apply, hidx, hlen]
    rfl
  obtain ⟨types', -, h, -, -, hchain⟩ := fourSlices_projects (k := 2) (by rw [hidx]; rfl) happly
  refine ⟨types', h, hchain, ?_⟩
  exact (projection_aligned_iff h rfl .bottom (by decide) hchain).mpr
    fun _ _ _ _ _ _ => fun _ _ _ _ _ _ => ⟨fun _ _ _ => rfl, trivial⟩

/-- The second slice of the array -/
theorem secondSlice_astray : ¬ ∀ (types types' : List Ty) (data offset tid : Nat)
    (accesses : List Access) (place : Spot), layoutAll types = some types' → data % 8 = 0 →
    StackOffset offset → tid < types.length →
    Projection types' ⟨tid, (data + offset) % 2 ^ 64⟩ accesses place → place.Aligned types' := by
  intro hall
  have hidx : readInt (fourSlices 1) 512 = 1 := by decide
  have happly : (BinOp.arrAt 8 12 4).apply (fourSlices 1) 1032 512 = .ok (fourSlices 1, 1052) := by
    have hlen : readLen (fourSlices 1) 1032 = 4 := by decide
    simp only [BinOp.apply, hidx, hlen]
    rfl
  obtain ⟨types', t, h, ht, ha, hchain⟩ := fourSlices_projects (k := 1) (by rw [hidx]; rfl) happly
  obtain ⟨u, hu, hdvd⟩ := hall _ _ 1024 0 4 _ _ h rfl .bottom (by decide) hchain
  cases ht.symm.trans hu
  rw [ha] at hdvd
  exact absurd hdvd (by decide)

end TreeVM
