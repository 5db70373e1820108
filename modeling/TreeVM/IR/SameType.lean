import TreeVM.IR.TypeTable

/-!
# The same type in two tables

* `KindsMatch`: two entries of the same kind, and what they refer to is related;
* `SameType`: the types at two indices have the same structure, read in their own tables;
* `SameType.layout`: in laid-out tables they have the same size and alignment.
-/

namespace TreeVM

/-- Two kinds agree up to offsets, with what they refer to related by `R`. -/
inductive KindsMatch (R : Nat → Nat → Prop) : TypeKind → TypeKind → Prop
  | int : KindsMatch R .int .int
  | byte : KindsMatch R .byte .byte
  | array {i j capacity o o'} : R i j → KindsMatch R (.array i capacity o) (.array j capacity o')
  | slice {i j} : R i j → KindsMatch R (.slice i) (.slice j)
  | view {i j} : R i j → KindsMatch R (.view i) (.view j)
  | struct {fs gs} : List.Forall₂ (fun f g : Field => R f.tid g.tid) fs gs →
      KindsMatch R (.struct fs) (.struct gs)
  | nativeFunc {s s' : Sig} : List.Forall₂ R s.outs s'.outs →
      List.Forall₂ (fun a b : SigInput => R a.tid b.tid ∧ a.isMut = b.isMut) s.ins s'.ins →
      KindsMatch R (.nativeFunc s) (.nativeFunc s')

/-- The largest relation between indices that matches the kinds.  Native functions may take
themselves as arguments, so it is not an induction. -/
def SameType (types types' : List Ty) (i j : Nat) : Prop :=
  ∃ R : Nat → Nat → Prop, R i j ∧ ∀ i j, R i j → ∃ t t', types[i]? = some t ∧
    types'[j]? = some t' ∧ KindsMatch R t.kind t'.kind

section SameType

variable {types types' : List Ty} {rank rank' : Nat → Nat}

theorem KindsMatch.mono {R S : Nat → Nat → Prop} {k k' : TypeKind} (h : KindsMatch R k k')
    (hRS : ∀ i j, R i j → S i j) : KindsMatch S k k' := by
  cases h with
  | int => exact .int
  | byte => exact .byte
  | array h => exact .array (hRS _ _ h)
  | slice h => exact .slice (hRS _ _ h)
  | view h => exact .view (hRS _ _ h)
  | struct h => exact .struct (h.imp fun _ _ => hRS _ _)
  | nativeFunc houts hins =>
      exact .nativeFunc (houts.imp hRS) (hins.imp fun _ _ hab => ⟨hRS _ _ hab.1, hab.2⟩)

/-- The types themselves match, with what they refer to again of the same type. -/
theorem SameType.kinds {i j : Nat} (h : SameType types types' i j) : ∃ t t',
    types[i]? = some t ∧ types'[j]? = some t' ∧
      KindsMatch (SameType types types') t.kind t'.kind := by
  obtain ⟨R, hij, hstep⟩ := h
  obtain ⟨t, t', ht, ht', hkinds⟩ := hstep i j hij
  exact ⟨t, t', ht, ht', hkinds.mono fun i j hR => ⟨R, hR, hstep⟩⟩

/-- The parts of two entries that other entries are laid out by. -/
structure SameLayout (t t' : Ty) : Prop where
  payloadSize : t'.payloadSize = t.payloadSize
  align : t'.align = t.align

/-- Where two scans over fields of the same layout stand. -/
theorem scanFields_same {fs gs : List Field} {scan scan' done done' : FieldScan}
    (hfields : List.Forall₂ (fun f g : Field => ∀ t t', types[f.tid]? = some t →
      types'[g.tid]? = some t' → SameLayout t t') fs gs)
    (hscan : scanFields types fs scan = some done)
    (hscan' : scanFields types' gs scan' = some done')
    (hoffset : scan'.offset = scan.offset) (hmax : scan'.maxAlign = scan.maxAlign) :
    done'.offset = done.offset ∧ done'.maxAlign = done.maxAlign := by
  induction hfields generalizing scan scan' with
  | nil =>
      cases hscan
      cases hscan'
      exact ⟨hoffset, hmax⟩
  | cons hfg _ ih =>
      obtain ⟨t, ht, hscan⟩ := Option.bind_eq_some_iff.mp hscan
      obtain ⟨t', ht', hscan'⟩ := Option.bind_eq_some_iff.mp hscan'
      have hsame := hfg t t' ht ht'
      refine ih hscan hscan' ?_ ?_
      · simp only [hoffset, hsame.payloadSize, hsame.align]
      · simp only [hmax, hsame.align]

/-- Where the layout of an entry comes from. -/
theorem Settled.array {t e : Ty} {elem : Nat} {capacity : UInt32} {offset : UInt64}
    (h : Settled types t) (hkind : t.kind = .array elem capacity offset)
    (he : types[elem]? = some e) :
    t.align = (if 4 < e.align then e.align else 4) ∧
      t.payloadSize = alignUp (alignUp 4 e.align + e.payloadSize * capacity.toUInt64) t.align := by
  have h := h.kind
  simp only [relayout, layoutKind, hkind, lookupOnly, he, Option.map_some, Option.bind_eq_bind,
    Option.bind_some, Option.pure_def, Option.some.injEq] at h
  have halign := congrArg Ty.align h
  have hpayload := congrArg Ty.payloadSize h
  simp only at halign hpayload
  refine ⟨halign.symm, ?_⟩
  rw [← halign, ← hpayload]

theorem Settled.struct {t : Ty} {fields : List Field} (h : Settled types t)
    (hkind : t.kind = .struct fields) : ∃ scan, scanFields types fields {} = some scan ∧
      t.align = scan.maxAlign ∧ t.payloadSize = alignUp scan.offset scan.maxAlign := by
  have h := h.kind
  simp only [relayout, layoutKind, hkind, layoutFields_lookupOnly] at h
  cases hscan : scanFields types fields {} with
  | none => simp [hscan] at h
  | some scan =>
      simp only [hscan, Option.map_some, Option.bind_eq_bind, Option.bind_some, Option.pure_def,
        Option.some.injEq] at h
      exact ⟨scan, rfl, (congrArg Ty.align h).symm, (congrArg Ty.payloadSize h).symm⟩

/-- The size and the alignment of the entries that contain nothing. -/
def TypeKind.flat : TypeKind → Option (UInt64 × UInt64)
  | .int => some (8, 8)
  | .byte => some (1, 1)
  | .slice _ => some (slicePayloadSize, 8)
  | .view _ => some (slicePayloadSize, 8)
  | .nativeFunc _ => some (8, 8)
  | _ => none

theorem Settled.flat {t : Ty} {payloadSize align : UInt64} (h : Settled types t)
    (hflat : t.kind.flat = some (payloadSize, align)) :
    t.payloadSize = payloadSize ∧ t.align = align := by
  have h := h.kind
  cases hkind : t.kind with
  | array elem capacity offset => simp [hkind, TypeKind.flat] at hflat
  | struct fields => simp [hkind, TypeKind.flat] at hflat
  | nativeFunc sig =>
      simp only [hkind, TypeKind.flat, Option.some.injEq, Prod.mk.injEq] at hflat
      simp only [relayout, layoutKind, hkind] at h
      split at h
      · have h := Option.some.inj h
        exact ⟨(congrArg Ty.payloadSize h).symm.trans hflat.1,
          (congrArg Ty.align h).symm.trans hflat.2⟩
      · cases h
  | slice elem =>
      simp only [hkind, TypeKind.flat, Option.some.injEq, Prod.mk.injEq] at hflat
      simp only [relayout, layoutKind, hkind, lookupOnly] at h
      cases helem : types[elem]? with
      | none => simp [helem] at h
      | some e =>
          simp only [helem, Option.map_some, Option.bind_eq_bind, Option.bind_some,
            Option.pure_def, Option.some.injEq] at h
          exact ⟨(congrArg Ty.payloadSize h).symm.trans hflat.1,
            (congrArg Ty.align h).symm.trans hflat.2⟩
  | view elem =>
      simp only [hkind, TypeKind.flat, Option.some.injEq, Prod.mk.injEq] at hflat
      simp only [relayout, layoutKind, hkind, lookupOnly] at h
      cases helem : types[elem]? with
      | none => simp [helem] at h
      | some e =>
          simp only [helem, Option.map_some, Option.bind_eq_bind, Option.bind_some,
            Option.pure_def, Option.some.injEq] at h
          exact ⟨(congrArg Ty.payloadSize h).symm.trans hflat.1,
            (congrArg Ty.align h).symm.trans hflat.2⟩
  | int =>
      simp only [hkind, TypeKind.flat, Option.some.injEq, Prod.mk.injEq] at hflat
      simp only [relayout, layoutKind, hkind, Option.map_some, Option.some.injEq] at h
      exact ⟨(congrArg Ty.payloadSize h).symm.trans hflat.1,
        (congrArg Ty.align h).symm.trans hflat.2⟩
  | byte =>
      simp only [hkind, TypeKind.flat, Option.some.injEq, Prod.mk.injEq] at hflat
      simp only [relayout, layoutKind, hkind, Option.map_some, Option.some.injEq] at h
      exact ⟨(congrArg Ty.payloadSize h).symm.trans hflat.1,
        (congrArg Ty.align h).symm.trans hflat.2⟩

theorem sameLayout_of_flat {t t' : Ty} (h : Settled types t) (h' : Settled types' t')
    (hflat : t.kind.flat.isSome) (heq : t'.kind.flat = t.kind.flat) : SameLayout t t' := by
  obtain ⟨⟨payloadSize, align⟩, hkind⟩ := Option.isSome_iff_exists.mp hflat
  obtain ⟨hpayload, halign⟩ := h.flat hkind
  obtain ⟨hpayload', halign'⟩ := h'.flat (heq.trans hkind)
  exact ⟨hpayload'.trans hpayload.symm, halign'.trans halign.symm⟩

/-- The induction is on the rank in the first table. -/
theorem SameType.layout (hlaid : Laid types rank) (hlaid' : Laid types' rank') {i j : Nat}
    (h : SameType types types' i j) {t t' : Ty} (ht : types[i]? = some t)
    (ht' : types'[j]? = some t') : SameLayout t t' := by
  induction hrank : rank i using Nat.strongRecOn generalizing i j t t' with
  | _ n ih =>
      subst hrank
      have hsettled := hlaid.settled i t ht
      have hsettled' := hlaid'.settled j t' ht'
      obtain ⟨u, u', hu, hu', hkinds⟩ := h.kinds
      rw [ht] at hu
      rw [ht'] at hu'
      cases hu
      cases hu'
      cases hk : t.kind with
      | array elem capacity offset =>
          rw [hk] at hkinds
          generalize hk' : t'.kind = kind' at hkinds
          cases hkinds with
          | @array _ elem' _ _ offset' helem =>
              obtain ⟨e, e', he, he', -⟩ := helem.kinds
              have hlt := (hlaid.refs i t ht elem (by simp [hk, TypeKind.refs])).2
              have hsame := ih _ hlt helem he he' rfl
              obtain ⟨halign, hpayload⟩ := hsettled.array hk he
              obtain ⟨halign', hpayload'⟩ := hsettled'.array hk' he'
              have haligned : t'.align = t.align := by rw [halign, halign', hsame.align]
              refine ⟨?_, haligned⟩
              rw [hpayload, hpayload', hsame.align, hsame.payloadSize, haligned]
      | struct fields =>
          rw [hk] at hkinds
          generalize hk' : t'.kind = kind' at hkinds
          cases hkinds with
          | @struct _ fields' hfields =>
              obtain ⟨scan, hscan, halign, hpayload⟩ := hsettled.struct hk
              obtain ⟨scan', hscan', halign', hpayload'⟩ := hsettled'.struct hk'
              have hrefs : ∀ f ∈ fields, rank f.tid < rank i := fun f hf =>
                (hlaid.refs i t ht f.tid (by simpa [hk, TypeKind.refs] using ⟨f, hf, rfl⟩)).2
              have hsame : List.Forall₂ (fun f g : Field => ∀ t t', types[f.tid]? = some t →
                  types'[g.tid]? = some t' → SameLayout t t') fields fields' := by
                clear hscan hscan' hk hk'
                induction hfields with
                | nil => exact .nil
                | cons hfg _ ihfields =>
                    obtain ⟨hlt, hrefs⟩ := List.forall_mem_cons.mp hrefs
                    exact .cons (fun t t' ht ht' => ih _ hlt hfg ht ht' rfl) (ihfields hrefs)
              obtain ⟨hoffset, hmax⟩ := scanFields_same hsame hscan hscan' rfl rfl
              refine ⟨?_, ?_⟩
              · rw [hpayload, hpayload', hoffset, hmax]
              · rw [halign, halign', hmax]
      | _ =>
          refine sameLayout_of_flat hsettled hsettled' (by rw [hk]; rfl) ?_
          rw [hk] at hkinds ⊢
          generalize t'.kind = kind' at hkinds
          cases hkinds
          rfl

end SameType

end TreeVM
