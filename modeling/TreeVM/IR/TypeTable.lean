import TreeVM.IR.Layout
import Mathlib.Data.List.Forall2
import Mathlib.Tactic.Cases

/-!
# Laid-out type tables

What `type_layout_all` leaves behind.

* `TypeKind.refs`: the entries that an entry contains or points to;
* `Settled`: laying out the entry once more, with what it refers to, changes nothing;
* `Laid`: every entry is settled, and nothing refers to itself through others;
* `laid_of_layoutAll`: the tables that `type_layout_all` accepts.
-/

namespace TreeVM

def TypeKind.refs : TypeKind → List Nat
  | .int => []
  | .byte => []
  | .array elem _ _ => [elem]
  | .slice elem => [elem]
  | .view elem => [elem]
  | .struct fields => fields.map Field.tid
  | .nativeFunc _ => []

/-- The kind of an entry without the offsets that layout fills in. -/
def TypeKind.shape : TypeKind → TypeKind
  | .array elem capacity _ => .array elem capacity 0
  | .struct fields => .struct (fields.map fun f => ⟨f.tid, 0⟩)
  | kind => kind

theorem TypeKind.refs_shape (kind : TypeKind) : kind.shape.refs = kind.refs := by
  cases kind with
  | struct fields => simp [shape, refs]
  | _ => rfl

/-- Lays out nothing: the entry has to be there. -/
def lookupOnly (tid : Nat) (l : Layouts) : Option Layouts :=
  (l.types[tid]?).map fun _ => l

/-- The switch of `type_layout_one`, when the other entries are laid out. -/
def relayout (types : List Ty) (t : Ty) : Option Ty :=
  (layoutKind lookupOnly t ⟨types, []⟩).map Prod.fst

structure Settled (types : List Ty) (t : Ty) : Prop where
  kind : relayout types t = some t
  size : t.size = alignUp t.payloadSize cellAlign

structure Laid (types : List Ty) (rank : Nat → Nat) : Prop where
  settled : ∀ (tid : Nat) (t : Ty), types[tid]? = some t → Settled types t
  refs : ∀ (tid : Nat) (t : Ty), types[tid]? = some t →
    ∀ r ∈ t.kind.refs, r < types.length ∧ rank r < rank tid

/-! ## Fields -/

/-- The loop over the fields, when the types of the fields are laid out. -/
def scanFields (types : List Ty) : List Field → FieldScan → Option FieldScan
  | [], scan => some scan
  | f :: fs, scan => do
      let t ← types[f.tid]?
      let offset := alignUp scan.offset t.align
      scanFields types fs {
        fields := scan.fields ++ [{ f with offset := offset }]
        offset := offset + t.payloadSize
        maxAlign := if scan.maxAlign < t.align then t.align else scan.maxAlign
        isPortal := scan.isPortal || t.isPortal }

theorem layoutFields_lookupOnly (types : List Ty) (fields : List Field) (scan : FieldScan) :
    layoutFields lookupOnly fields scan ⟨types, []⟩ =
      (scanFields types fields scan).map fun scan => (scan, ⟨types, []⟩) := by
  induction fields generalizing scan with
  | nil => rfl
  | cons f fs ih =>
      cases ht : types[f.tid]? with
      | none => simp [layoutFields, scanFields, lookupOnly, ht]
      | some t => simpa [layoutFields, scanFields, lookupOnly, ht] using ih _

/-- Only the types of the fields matter. -/
theorem scanFields_congr {types types' : List Ty} {fields fields' : List Field} {scan : FieldScan}
    (htids : fields.map Field.tid = fields'.map Field.tid)
    (htypes : ∀ r ∈ fields.map Field.tid, types'[r]? = types[r]?) :
    scanFields types' fields' scan = scanFields types fields scan := by
  induction fields generalizing fields' scan with
  | nil =>
      rw [List.map_nil, eq_comm, List.map_eq_nil_iff] at htids
      rw [htids]
      rfl
  | cons f fs ih =>
      cases fields' with
      | nil => cases htids
      | cons f' fs' =>
          obtain ⟨hf, hfs⟩ := List.cons.inj htids
          have htype : types'[f.tid]? = types[f.tid]? := htypes f.tid List.mem_cons_self
          rw [scanFields, scanFields, ← hf, htype]
          refine Option.bind_congr fun t _ => ?_
          exact ih hfs fun r hr => htypes r (List.mem_cons_of_mem _ hr)

theorem scanFields_tids {types : List Ty} {fields : List Field} {scan scan' : FieldScan}
    (h : scanFields types fields scan = some scan') :
    scan'.fields.map Field.tid = scan.fields.map Field.tid ++ fields.map Field.tid := by
  induction fields generalizing scan with
  | nil =>
      cases h
      simp
  | cons f fs ih =>
      obtain ⟨t, -, h⟩ := Option.bind_eq_some_iff.mp h
      rw [ih h]
      simp

/-- An entry is laid out by what it refers to. -/
theorem relayout_congr {types types' : List Ty} {t : Ty} (hlen : types'.length = types.length)
    (htypes : ∀ r ∈ t.kind.refs, types'[r]? = types[r]?) :
    relayout types' t = relayout types t := by
  cases hkind : t.kind with
  | array elem capacity offset =>
      have helem : types'[elem]? = types[elem]? := htypes elem (by simp [hkind, TypeKind.refs])
      cases h : types[elem]? <;> simp [relayout, layoutKind, hkind, lookupOnly, helem, h]
  | slice elem =>
      have helem : types'[elem]? = types[elem]? := htypes elem (by simp [hkind, TypeKind.refs])
      cases h : types[elem]? <;> simp [relayout, layoutKind, hkind, lookupOnly, helem, h]
  | view elem =>
      have helem : types'[elem]? = types[elem]? := htypes elem (by simp [hkind, TypeKind.refs])
      cases h : types[elem]? <;> simp [relayout, layoutKind, hkind, lookupOnly, helem, h]
  | struct fields =>
      rw [hkind] at htypes
      have hscan : scanFields types' fields {} = scanFields types fields {} :=
        scanFields_congr rfl htypes
      cases h : scanFields types fields {} <;>
        simp [relayout, layoutKind, hkind, layoutFields_lookupOnly, hscan, h]
  | nativeFunc sig =>
      simp only [relayout, layoutKind, hkind, hlen]
      split <;> rfl
  | int => simp [relayout, layoutKind, hkind]
  | byte => simp [relayout, layoutKind, hkind]

/-! ## One entry of each kind -/

section Kinds

variable {types : List Ty} {t : Ty}

theorem relayout_int (hkind : t.kind = .int) :
    relayout types t = some { t with payloadSize := 8, align := 8 } := by
  simp [relayout, layoutKind, hkind]

theorem relayout_byte (hkind : t.kind = .byte) :
    relayout types t = some { t with payloadSize := 1, align := 1 } := by
  simp [relayout, layoutKind, hkind]

theorem relayout_array {elem : Nat} {capacity : UInt32} {offset : UInt64}
    (hkind : t.kind = .array elem capacity offset) :
    relayout types t = (types[elem]?).map fun e =>
      let align := if 4 < e.align then e.align else 4
      { t with
        kind := .array elem capacity (alignUp 4 e.align)
        isPortal := e.isPortal
        align := align
        payloadSize := alignUp (alignUp 4 e.align + e.payloadSize * capacity.toUInt64) align } := by
  cases he : types[elem]? <;> simp [relayout, layoutKind, hkind, lookupOnly, he]

theorem relayout_slice {elem : Nat} (hkind : t.kind = .slice elem) :
    relayout types t = (types[elem]?).map fun _ =>
      { t with isPortal := true, payloadSize := slicePayloadSize, align := 8 } := by
  cases he : types[elem]? <;> simp [relayout, layoutKind, hkind, lookupOnly, he]

theorem relayout_view {elem : Nat} (hkind : t.kind = .view elem) :
    relayout types t = (types[elem]?).map fun _ =>
      { t with isPortal := true, payloadSize := slicePayloadSize, align := 8 } := by
  cases he : types[elem]? <;> simp [relayout, layoutKind, hkind, lookupOnly, he]

theorem relayout_struct {fields : List Field} (hkind : t.kind = .struct fields) :
    relayout types t = (scanFields types fields {}).map fun scan =>
      { t with
        kind := .struct scan.fields
        isPortal := scan.isPortal
        align := scan.maxAlign
        payloadSize := alignUp scan.offset scan.maxAlign } := by
  cases hscan : scanFields types fields {} <;>
    simp [relayout, layoutKind, hkind, layoutFields_lookupOnly, hscan]

theorem relayout_nativeFunc {sig : Sig} (hkind : t.kind = .nativeFunc sig) :
    relayout types t = if sig.args.all (· < types.length) then
      some { t with payloadSize := 8, align := 8 } else none := by
  simp only [relayout, layoutKind, hkind]
  split <;> rfl

end Kinds

/-! ## One entry after the other -/

namespace Layouts

/-- Entries that are done or active stay as they are, and no entry changes its shape. -/
structure Keeps (l l' : Layouts) : Prop where
  types : l'.types.length = l.types.length
  stays : ∀ (i : Nat) (s : LayoutState), l.states[i]? = some s → s ≠ .pending →
    l'.states[i]? = some s ∧ l'.types[i]? = l.types[i]?
  shape : ∀ i : Nat, (l'.types[i]?).map (fun t => t.kind.shape) =
    (l.types[i]?).map fun t => t.kind.shape

/-- The entries that are done are laid out. -/
structure Ok (l : Layouts) (rank : Nat → Nat) (bound : Nat) : Prop where
  length : l.states.length = l.types.length
  below : ∀ i : Nat, l.states[i]? = some .done → rank i < bound
  settled : ∀ (i : Nat) (t : Ty), l.states[i]? = some .done → l.types[i]? = some t →
    Settled l.types t
  refs : ∀ (i : Nat) (t : Ty), l.states[i]? = some .done → l.types[i]? = some t →
    ∀ r ∈ t.kind.refs, l.states[r]? = some .done ∧ rank r < rank i

variable {l l' l'' : Layouts}

theorem Keeps.refl (l : Layouts) : l.Keeps l :=
  ⟨rfl, fun _ _ h _ => ⟨h, rfl⟩, fun _ => rfl⟩

theorem Keeps.trans (h : l.Keeps l') (h' : l'.Keeps l'') : l.Keeps l'' where
  types := h'.types.trans h.types
  stays i s hi hs := by
    obtain ⟨hstate, htype⟩ := h.stays i s hi hs
    obtain ⟨hstate', htype'⟩ := h'.stays i s hstate hs
    exact ⟨hstate', htype'.trans htype⟩
  shape i := (h'.shape i).trans (h.shape i)

theorem Keeps.done (h : l.Keeps l') {i : Nat} (hi : l.states[i]? = some .done) :
    l'.states[i]? = some .done :=
  (h.stays i .done hi (by decide)).1

end Layouts

/-- What `type_layout_one` does to the table. -/
def LaysOut (layout : Nat → Layouts → Option Layouts) : Prop :=
  ∀ tid l l' rank bound, layout tid l = some l' → l.Ok rank bound →
    ∃ rank' bound', l.Keeps l' ∧ l'.Ok rank' bound' ∧ l'.states[tid]? = some .done

section LayoutOne

variable {layout : Nat → Layouts → Option Layouts} {l l' : Layouts} {rank : Nat → Nat}
  {bound : Nat}

theorem layoutFields_spec (hlayout : LaysOut layout) {fields : List Field} {scan scan' : FieldScan}
    (h : layoutFields layout fields scan l = some (scan', l')) (hl : l.Ok rank bound) :
    ∃ rank' bound', l.Keeps l' ∧ l'.Ok rank' bound' ∧
      (∀ r ∈ fields.map Field.tid, l'.states[r]? = some .done) ∧
      scanFields l'.types fields scan = some scan' := by
  induction fields generalizing scan l rank bound with
  | nil =>
      cases h
      exact ⟨rank, bound, .refl _, hl, by simp, rfl⟩
  | cons f fs ih =>
      obtain ⟨l₁, h₁, h⟩ := Option.bind_eq_some_iff.mp h
      obtain ⟨t, ht, h⟩ := Option.bind_eq_some_iff.mp h
      obtain ⟨rank₁, bound₁, hkeeps₁, hok₁, hdone₁⟩ := hlayout _ _ _ _ _ h₁ hl
      obtain ⟨rank', bound', hkeeps, hok, hdone, hscan⟩ := ih h hok₁
      refine ⟨rank', bound', hkeeps₁.trans hkeeps, hok, ?_, ?_⟩
      · exact List.forall_mem_cons.mpr ⟨hkeeps.done hdone₁, hdone⟩
      · rw [scanFields, (hkeeps.stays _ _ hdone₁ (by decide)).2, ht]
        exact hscan

theorem layoutKind_spec (hlayout : LaysOut layout) {t t' : Ty}
    (h : layoutKind layout t l = some (t', l')) (hl : l.Ok rank bound) :
    ∃ rank' bound', l.Keeps l' ∧ l'.Ok rank' bound' ∧
      (∀ r ∈ t'.kind.refs, l'.states[r]? = some .done) ∧ t'.kind.shape = t.kind.shape ∧
      ∀ size, relayout l'.types { t' with size := size } = some { t' with size := size } := by
  cases hkind : t.kind with
  | int =>
      simp only [layoutKind, hkind, Option.some.injEq, Prod.mk.injEq] at h
      obtain ⟨rfl, rfl⟩ := h
      exact ⟨rank, bound, .refl _, hl, by simp [TypeKind.refs], by simp,
        fun size => by simp [relayout, layoutKind]⟩
  | byte =>
      simp only [layoutKind, hkind, Option.some.injEq, Prod.mk.injEq] at h
      obtain ⟨rfl, rfl⟩ := h
      exact ⟨rank, bound, .refl _, hl, by simp [TypeKind.refs], by simp,
        fun size => by simp [relayout, layoutKind]⟩
  | nativeFunc sig =>
      simp only [layoutKind, hkind] at h
      split at h
      · rename_i hall
        simp only [Option.some.injEq, Prod.mk.injEq] at h
        obtain ⟨rfl, rfl⟩ := h
        exact ⟨rank, bound, .refl _, hl, by simp [TypeKind.refs], by simp,
          fun size => by simp only [relayout, layoutKind, hall]; rfl⟩
      · cases h
  -- what the kind refers to is laid out first, so the finished table gives the same kind again
  | array elem capacity offset =>
      simp only [layoutKind, hkind] at h
      obtain ⟨l₁, h₁, h⟩ := Option.bind_eq_some_iff.mp h
      obtain ⟨e, he, h⟩ := Option.bind_eq_some_iff.mp h
      simp only [Option.pure_def, Option.some.injEq, Prod.mk.injEq] at h
      obtain ⟨rfl, rfl⟩ := h
      obtain ⟨rank', bound', hkeeps, hok, hdone⟩ := hlayout _ _ _ _ _ h₁ hl
      exact ⟨rank', bound', hkeeps, hok, by simpa [TypeKind.refs] using hdone,
        by simp [TypeKind.shape], fun size => by simp [relayout, layoutKind, lookupOnly, he]⟩
  | slice elem =>
      simp only [layoutKind, hkind] at h
      obtain ⟨l₁, h₁, h⟩ := Option.bind_eq_some_iff.mp h
      simp only [Option.pure_def, Option.some.injEq, Prod.mk.injEq] at h
      obtain ⟨rfl, rfl⟩ := h
      obtain ⟨rank', bound', hkeeps, hok, hdone⟩ := hlayout _ _ _ _ _ h₁ hl
      refine ⟨rank', bound', hkeeps, hok, by simpa [TypeKind.refs] using hdone,
        by simp, fun size => ?_⟩
      have hlt : elem < l₁.types.length := by
        rw [← hok.length]
        exact (List.getElem?_eq_some_iff.mp hdone).1
      simp [relayout, layoutKind, lookupOnly, List.getElem?_eq_getElem hlt]
  | view elem =>
      simp only [layoutKind, hkind] at h
      obtain ⟨l₁, h₁, h⟩ := Option.bind_eq_some_iff.mp h
      simp only [Option.pure_def, Option.some.injEq, Prod.mk.injEq] at h
      obtain ⟨rfl, rfl⟩ := h
      obtain ⟨rank', bound', hkeeps, hok, hdone⟩ := hlayout _ _ _ _ _ h₁ hl
      refine ⟨rank', bound', hkeeps, hok, by simpa [TypeKind.refs] using hdone,
        by simp, fun size => ?_⟩
      have hlt : elem < l₁.types.length := by
        rw [← hok.length]
        exact (List.getElem?_eq_some_iff.mp hdone).1
      simp [relayout, layoutKind, lookupOnly, List.getElem?_eq_getElem hlt]
  | struct fields =>
      simp only [layoutKind, hkind] at h
      obtain ⟨⟨scan, l₁⟩, h₁, h⟩ := Option.bind_eq_some_iff.mp h
      simp only [Option.pure_def, Option.some.injEq, Prod.mk.injEq] at h
      obtain ⟨rfl, rfl⟩ := h
      obtain ⟨rank', bound', hkeeps, hok, hdone, hscan⟩ := layoutFields_spec hlayout h₁ hl
      have htids : scan.fields.map Field.tid = fields.map Field.tid := by
        simpa using scanFields_tids hscan
      refine ⟨rank', bound', hkeeps, hok, ?_, ?_, fun size => ?_⟩
      · rw [TypeKind.refs, htids]
        exact hdone
      · have hshape := congrArg (List.map fun tid => (⟨tid, 0⟩ : Field)) htids
        rw [List.map_map, List.map_map] at hshape
        exact congrArg TypeKind.struct hshape
      · have hagain : scanFields l₁.types scan.fields {} = some scan := by
          rw [← hscan]
          exact scanFields_congr htids.symm fun _ _ => rfl
        simp [relayout, layoutKind, layoutFields_lookupOnly, hagain]

theorem Layouts.mark_states {tid i : Nat} {s : LayoutState} (h : i ≠ tid) :
    (l.mark tid s).states[i]? = l.states[i]? :=
  List.getElem?_set_ne h.symm

theorem Layouts.Ok.active (hl : l.Ok rank bound) {tid : Nat}
    (hpending : l.states[tid]? = some LayoutState.pending) :
    (l.mark tid .active).Ok rank bound := by
  have hdone : ∀ i : Nat, (l.mark tid .active).states[i]? = some LayoutState.done ↔
      l.states[i]? = some LayoutState.done := by
    intro i
    by_cases h : i = tid
    · subst h
      obtain ⟨hlt, hstate⟩ := List.getElem?_eq_some_iff.mp hpending
      simp [Layouts.mark, hlt, hstate]
    · rw [Layouts.mark_states h]
  refine ⟨by simpa [Layouts.mark] using hl.length, fun i hi => hl.below i ((hdone i).mp hi),
    fun i t hi => hl.settled i t ((hdone i).mp hi), fun i t hi ht r hr => ?_⟩
  obtain ⟨hr, hlt⟩ := hl.refs i t ((hdone i).mp hi) ht r hr
  exact ⟨(hdone r).mpr hr, hlt⟩

/-- The active entry `tid` is laid out last. -/
theorem Layouts.Ok.done (hl : l.Ok rank bound) {tid : Nat} {t : Ty}
    (hactive : l.states[tid]? = some LayoutState.active)
    (hrefs : ∀ r ∈ t.kind.refs, l.states[r]? = some LayoutState.done)
    (hkind : relayout l.types t = some t) (hsize : t.size = alignUp t.payloadSize cellAlign) :
    ((l.setType tid t).mark tid .done).Ok (fun i => if i = tid then bound else rank i)
      (bound + 1) := by
  have hlt : tid < l.states.length := (List.getElem?_eq_some_iff.mp hactive).1
  have htlt : tid < l.types.length := hl.length ▸ hlt
  have hstates : ∀ i : Nat, i ≠ tid →
      ((l.setType tid t).mark tid .done).states[i]? = l.states[i]? :=
    fun i hi => List.getElem?_set_ne hi.symm
  have htypes : ∀ i : Nat, i ≠ tid →
      ((l.setType tid t).mark tid .done).types[i]? = l.types[i]? :=
    fun i hi => List.getElem?_set_ne hi.symm
  have hnot : ∀ i : Nat, l.states[i]? = some LayoutState.done → i ≠ tid := by
    rintro i hi rfl
    rw [hactive] at hi
    cases hi
  -- what an entry refers to is done, so it is not `tid`
  have hsettled : ∀ t' : Ty, (∀ r ∈ t'.kind.refs, l.states[r]? = some LayoutState.done) →
      Settled l.types t' → Settled ((l.setType tid t).mark tid .done).types t' := by
    intro t' hrefs' h
    refine ⟨?_, h.size⟩
    rw [relayout_congr (by simp [Layouts.setType, Layouts.mark])
      fun r hr => htypes r (hnot r (hrefs' r hr))]
    exact h.kind
  refine ⟨by simpa [Layouts.mark, Layouts.setType] using hl.length, ?_, ?_, ?_⟩
  · intro i hi
    by_cases h : i = tid
    · simp [h]
    · rw [hstates i h] at hi
      have := hl.below i hi
      simp only [h, if_false]
      omega
  · intro i t' hi ht'
    by_cases h : i = tid
    · subst h
      have ht : t = t' := by simpa [Layouts.setType, Layouts.mark, htlt] using ht'
      subst ht
      exact hsettled t hrefs ⟨hkind, hsize⟩
    · rw [hstates i h] at hi
      rw [htypes i h] at ht'
      exact hsettled t' (fun r hr => (hl.refs i t' hi ht' r hr).1) (hl.settled i t' hi ht')
  · intro i t' hi ht' r hr
    by_cases h : i = tid
    · subst h
      have ht : t = t' := by simpa [Layouts.setType, Layouts.mark, htlt] using ht'
      subst ht
      have hdone := hrefs r hr
      rw [hstates r (hnot r hdone)]
      refine ⟨hdone, ?_⟩
      simp only [hnot r hdone, if_false, if_true]
      exact hl.below r hdone
    · rw [hstates i h] at hi
      rw [htypes i h] at ht'
      obtain ⟨hdone, hrank⟩ := hl.refs i t' hi ht' r hr
      rw [hstates r (hnot r hdone)]
      refine ⟨hdone, ?_⟩
      simp only [hnot r hdone, h, if_false]
      exact hrank

theorem layoutOne_spec (fuel : Nat) : LaysOut (layoutOne fuel) := by
  induction fuel with
  | zero =>
      intro tid l l' rank bound h
      cases h
  | succ fuel ih =>
      intro tid l l' rank bound h hl
      rw [layoutOne] at h
      split at h
      · rename_i t ht hpending
        obtain ⟨⟨t', l₁⟩, hkind, h⟩ := Option.bind_eq_some_iff.mp h
        simp only [Option.pure_def, Option.some.injEq] at h
        obtain ⟨rank₁, bound₁, hkeeps, hok, hrefs, hshape, hlaid⟩ :=
          layoutKind_spec ih hkind (hl.active hpending)
        have hlt : tid < l.states.length := (List.getElem?_eq_some_iff.mp hpending).1
        obtain ⟨hactive, htid⟩ := hkeeps.stays tid .active (by simp [Layouts.mark, hlt]) (by decide)
        have hdone := hok.done hactive (t := { t' with size := alignUp t'.payloadSize cellAlign })
          hrefs (hlaid _) rfl
        have hlt₁ : tid < l₁.states.length := (List.getElem?_eq_some_iff.mp hactive).1
        rw [← h]
        refine ⟨_, _, ⟨?_, ?_, ?_⟩, hdone, by simp [Layouts.mark, Layouts.setType, hlt₁]⟩
        · simpa [Layouts.mark, Layouts.setType] using hkeeps.types
        · intro i s hi hs
          have hne : i ≠ tid := by
            rintro rfl
            rw [hpending] at hi
            exact hs (Option.some.inj hi).symm
          obtain ⟨hstate, htype⟩ := hkeeps.stays i s ((Layouts.mark_states hne).trans hi) hs
          exact ⟨(List.getElem?_set_ne hne.symm).trans hstate,
            (List.getElem?_set_ne hne.symm).trans htype⟩
        · intro i
          by_cases hi : i = tid
          · subst hi
            have hlt' : i < l₁.types.length := hok.length ▸ hlt₁
            simp [Layouts.mark, Layouts.setType, hlt', ht, hshape]
          · refine Eq.trans (congrArg _ ?_) (hkeeps.shape i)
            exact List.getElem?_set_ne (Ne.symm hi)
      · rename_i t ht hstate
        cases h
        exact ⟨rank, bound, .refl _, hl, hstate⟩
      · cases h

theorem layoutFrom_spec {fuel n tid : Nat} (h : layoutFrom fuel n tid l = some l')
    (hl : l.Ok rank bound) (hbefore : ∀ i < tid, l.states[i]? = some LayoutState.done) :
    ∃ rank' bound', l.Keeps l' ∧ l'.Ok rank' bound' ∧
      ∀ i < tid + n, l'.states[i]? = some LayoutState.done := by
  induction n generalizing tid l rank bound with
  | zero =>
      cases h
      exact ⟨rank, bound, .refl _, hl, hbefore⟩
  | succ n ih =>
      obtain ⟨l₁, h₁, h⟩ := Option.bind_eq_some_iff.mp h
      obtain ⟨rank₁, bound₁, hkeeps₁, hok₁, hdone₁⟩ := layoutOne_spec fuel _ _ _ _ _ h₁ hl
      obtain ⟨rank', bound', hkeeps, hok, hdone⟩ := ih h hok₁ fun i hi => by
        rcases Nat.lt_succ_iff_lt_or_eq.mp hi with hlt | rfl
        · exact hkeeps₁.done (hbefore i hlt)
        · exact hdone₁
      refine ⟨rank', bound', hkeeps₁.trans hkeeps, hok, fun i hi => hdone i (by omega)⟩

end LayoutOne

/-- The tables that `type_layout_all` accepts are laid out, and keep their shape. -/
theorem laid_of_layoutAll {types types' : List Ty} (h : layoutAll types = some types') :
    (∃ rank, Laid types' rank) ∧ types'.length = types.length ∧
      ∀ i : Nat, (types'[i]?).map (fun t => t.kind.shape) =
        (types[i]?).map fun t => t.kind.shape := by
  rw [layoutAll] at h
  split at h
  · obtain ⟨l, hl, rfl⟩ := Option.map_eq_some_iff.mp h
    have hpending : ∀ i : Nat,
        (List.replicate types.length LayoutState.pending)[i]? ≠ some LayoutState.done := by
      intro i hi
      rw [List.getElem?_replicate] at hi
      split at hi <;> cases hi
    have hstart : Layouts.Ok ⟨types, List.replicate types.length .pending⟩ (fun _ => 0) 0 :=
      ⟨by simp, fun i hi => absurd hi (hpending i), fun i t hi => absurd hi (hpending i),
        fun i t hi => absurd hi (hpending i)⟩
    obtain ⟨rank, bound, hkeeps, hok, hdone⟩ := layoutFrom_spec hl hstart fun i hi => by omega
    rw [Nat.zero_add] at hdone
    have hlt : ∀ {i : Nat} {t : Ty}, l.types[i]? = some t → l.states[i]? = some LayoutState.done := by
      intro i t ht
      exact hdone i (hkeeps.types ▸ (List.getElem?_eq_some_iff.mp ht).1)
    refine ⟨⟨rank, fun i t ht => hok.settled i t (hlt ht) ht, fun i t ht r hr => ?_⟩,
      hkeeps.types, hkeeps.shape⟩
    obtain ⟨hr, hrank⟩ := hok.refs i t (hlt ht) ht r hr
    refine ⟨?_, hrank⟩
    rw [← hok.length]
    exact (List.getElem?_eq_some_iff.mp hr).1
  · cases h

end TreeVM
