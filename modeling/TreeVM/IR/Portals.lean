import TreeVM.IR.LayoutOrder

/-!
# Portals

A portal is a type whose values hold a reference.

* `PartOf`: the types that a value of a type is made of, behind no reference;
* `HoldsRef`: a slice or a view among the parts, the parts of the parts and so on;
* `portal_iff`: the flag that `type_layout_all` computes.
-/

namespace TreeVM

/-- The elements of an array and the fields of a struct. -/
def TypeKind.parts : TypeKind → List Nat
  | .array elem _ _ => [elem]
  | .struct fields => fields.map Field.tid
  | _ => []

def TypeKind.IsRef : TypeKind → Prop
  | .slice _ | .view _ => True
  | _ => False

def PartOf (types : List Ty) (i j : Nat) : Prop :=
  ∃ t, types[i]? = some t ∧ j ∈ t.kind.parts

/-- A reference is reached through array elements and struct fields. -/
def HoldsRef (types : List Ty) (i : Nat) : Prop :=
  ∃ j t, Relation.ReflTransGen (PartOf types) i j ∧ types[j]? = some t ∧ t.kind.IsRef

theorem parts_subset_refs (kind : TypeKind) : kind.parts ⊆ kind.refs := by
  cases kind <;> simp [TypeKind.parts, TypeKind.refs]

theorem parts_of_shape {kind kind' : TypeKind} (h : kind'.shape = kind.shape) :
    kind'.parts = kind.parts := by
  have hrefs := refs_of_shape h
  cases kind <;> cases kind' <;> simp_all [TypeKind.shape, TypeKind.parts, TypeKind.refs]

theorem isRef_of_shape {kind kind' : TypeKind} (h : kind'.shape = kind.shape) :
    kind'.IsRef ↔ kind.IsRef := by
  cases kind <;> cases kind' <;> simp_all [TypeKind.shape, TypeKind.IsRef]

/-- The first step to a reference. -/
theorem holdsRef_iff {types : List Ty} {i : Nat} {t : Ty} (ht : types[i]? = some t) :
    HoldsRef types i ↔ t.kind.IsRef ∨ ∃ j ∈ t.kind.parts, HoldsRef types j := by
  constructor
  · rintro ⟨k, u, hreach, hu, href⟩
    rcases Relation.ReflTransGen.cases_head hreach with rfl | ⟨j, ⟨t', ht', hj⟩, hrest⟩
    · cases ht.symm.trans hu
      exact .inl href
    · cases ht.symm.trans ht'
      exact .inr ⟨j, hj, k, u, hrest, hu, href⟩
  · rintro (href | ⟨j, hj, k, u, hreach, hu, href⟩)
    · exact ⟨i, t, .refl, ht, href⟩
    · exact ⟨k, u, .head ⟨t, ht, hj⟩ hreach, hu, href⟩

/-- The loop over the fields collects their flags. -/
theorem scanFields_portal {types : List Ty} {fields : List Field} {scan scan' : FieldScan}
    (h : scanFields types fields scan = some scan') :
    scan'.isPortal = true ↔ scan.isPortal = true ∨
      ∃ j ∈ fields.map Field.tid, ∃ u, types[j]? = some u ∧ u.isPortal = true := by
  induction fields generalizing scan with
  | nil =>
      cases h
      simp
  | cons f fs ih =>
      obtain ⟨t, ht, h⟩ := Option.bind_eq_some_iff.mp h
      rw [ih h]
      simp only [Bool.or_eq_true, List.map_cons, List.mem_cons, exists_eq_or_imp, ht,
        Option.some.injEq, exists_eq_left', or_assoc]

section Flags

variable {types types' : List Ty}

/-- The flag of one entry, from those of its parts. -/
theorem flag_step {rank : Nat → Nat} (hlaid : Laid types' rank) {i : Nat} {u : Ty}
    (hu : types'[i]? = some u) (hbasic : u.kind.Basic → u.isPortal = false) :
    u.isPortal = true ↔ u.kind.IsRef ∨
      ∃ j ∈ u.kind.parts, ∃ v, types'[j]? = some v ∧ v.isPortal = true := by
  have hsettled := (hlaid.settled i u hu).kind
  cases hkind : u.kind with
  | int | byte | nativeFunc =>
      have hflag := hbasic (by rw [hkind]; trivial)
      simp [hflag, TypeKind.IsRef, TypeKind.parts]
  | slice elem =>
      rw [relayout_slice hkind] at hsettled
      obtain ⟨e, -, hu⟩ := Option.map_eq_some_iff.mp hsettled
      have hflag : u.isPortal = true := by rw [← hu]
      simp [hflag, TypeKind.IsRef]
  | view elem =>
      rw [relayout_view hkind] at hsettled
      obtain ⟨e, -, hu⟩ := Option.map_eq_some_iff.mp hsettled
      have hflag : u.isPortal = true := by rw [← hu]
      simp [hflag, TypeKind.IsRef]
  | array elem capacity offset =>
      rw [relayout_array hkind] at hsettled
      obtain ⟨e, he, hu⟩ := Option.map_eq_some_iff.mp hsettled
      have hflag : u.isPortal = e.isPortal := by rw [← hu]
      simp [hflag, TypeKind.IsRef, TypeKind.parts, he]
  | struct fields =>
      rw [relayout_struct hkind] at hsettled
      obtain ⟨scan, hscan, hu⟩ := Option.map_eq_some_iff.mp hsettled
      have hflag : u.isPortal = scan.isPortal := by rw [← hu]
      have hfields := scanFields_portal hscan
      rw [hflag, hfields]
      simp [TypeKind.IsRef, TypeKind.parts]

/-- After layout the flag of a type tells whether its values hold a reference. -/
theorem portal_iff (h : layoutAll types = some types')
    (hbasic : ∀ t ∈ types, t.kind.Basic → t.isPortal = false) {i : Nat} {u : Ty}
    (hu : types'[i]? = some u) : u.isPortal = true ↔ HoldsRef types i := by
  obtain ⟨⟨rank, hlaid⟩, -⟩ := laid_of_layoutAll h
  have hentries := entries_of_layoutAll h
  induction hn : rank i using Nat.strongRecOn generalizing i u with
  | ind n ih =>
      subst hn
      obtain ⟨t, ht, hsame⟩ := entry_before hentries hu
      have hstart : u.kind.Basic → u.isPortal = false := fun hk => by
        have hk : t.kind.Basic := basic_of_shape hsame.shape.symm hk
        rw [hsame.flag hk]
        exact hbasic t (List.mem_of_getElem? ht) hk
      rw [flag_step hlaid hu hstart, holdsRef_iff ht, isRef_of_shape hsame.shape,
        parts_of_shape hsame.shape]
      refine or_congr_right (exists_congr fun j => and_congr_right fun hj => ?_)
      rw [← parts_of_shape hsame.shape] at hj
      obtain ⟨hlt, hrank⟩ := hlaid.refs i u hu j (parts_subset_refs _ hj)
      have hv := List.getElem?_eq_getElem hlt
      have hbelow := ih (rank j) hrank hv rfl
      rw [hv]
      simp [← hbelow]

end Flags

/-- `[int, byte, Slice int, Array 4 of it]`; the flag of the array is wrong. -/
def sliceArray : List Ty :=
  [{ kind := .int }, { kind := .byte }, { kind := .slice 0 }, { kind := .array 2 4 0 }]

theorem portal_iff_sliceArray : ∃ types' u, layoutAll sliceArray = some types' ∧
    types'[3]? = some u ∧ (u.isPortal = true ↔ HoldsRef sliceArray 3) := by
  have hbasic : ∀ t ∈ sliceArray, t.kind.Basic → t.isPortal = false := by
    simp [sliceArray]
  exact ⟨_, _, rfl, rfl, portal_iff rfl hbasic rfl⟩

end TreeVM
