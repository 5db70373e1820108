import TreeVM.Verify.HoldLists
import TreeVM.Logic.Probing

/-!
# The table of interned places

* `ParIdxTable`: the hash table of `verification.c`, for any hash function; `parHash`: the one used;
* `CompileContext.internPar`: interning through the table, with its assertion;
* `ParIdxTable.Wf`: what the operations keep; `get_spec`, `put_spec`, `reset_spec`;
* `tableRun_spec`: any sequence of operations is one on a finite map;
* `Indexed`: what the table says about the handles; `internPar_eq_intern`: interning is the search
  in the handles that the checker's model uses;
* `interning_bijective`: the table is a finite map and the indices of places are a bijection.

A loop that has not ended after as many steps as there are slots has no result.
-/

namespace TreeVM

/-- A part of another place. -/
def Par.IsProjection (par : Par) : Prop :=
  par.kind = .structField ∨ par.kind = .arrMember

/-- `ParKind` as a number -/
def ParKind.code : ParKind → Nat
  | .localVar => 0
  | .arg => 1
  | .global => 2
  | .structField => 3
  | .arrMember => 4

/-- `par_hash` -/
def parHash (par : Par) : Nat :=
  let h := 1469598103934665603
  let h := (h ^^^ par.kind.code) * 1099511628211 % 18446744073709551616
  let h := (h ^^^ par.idx) * 1099511628211 % 18446744073709551616
  (h ^^^ par.parent) * 1099511628211 % 18446744073709551616

/-- `ParIdxTable`; a slot that is not used is `none`. -/
structure ParIdxTable where
  slots : Probing.Slots Par Nat := []
  len : Nat := 0
  deriving DecidableEq, Repr

namespace ParIdxTable

def cap (table : ParIdxTable) : Nat :=
  table.slots.length

/-- `par_idx_table_reset` -/
def reset (table : ParIdxTable) : ParIdxTable :=
  { slots := List.replicate table.cap none, len := 0 }

section

variable (hash : Par → Nat)

/-- One slot of the old table in `par_idx_table_grow`. -/
def move (table : ParIdxTable) : Option (Par × Nat) → Option ParIdxTable
  | none => some table
  | some (key, val) => do
      let j ← Probing.walk table.slots Option.isNone table.cap (hash key &&& (table.cap - 1))
      pure { slots := table.slots.set j (some (key, val)), len := table.len + 1 }

/-- `par_idx_table_grow` -/
def grow (old : ParIdxTable) : Option ParIdxTable :=
  let cap := if old.cap ≠ 0 then old.cap * 2 else 16
  old.slots.foldlM (move hash) { slots := List.replicate cap none, len := 0 }

/-- The loop of `par_idx_table_get` and `par_idx_table_put`. -/
def seek (table : ParIdxTable) (key : Par) : Option Nat :=
  Probing.walk table.slots (Probing.stops key) table.cap (hash key &&& (table.cap - 1))

/-- `par_idx_table_get` -/
def get (table : ParIdxTable) (key : Par) : Option (Option Nat) :=
  if table.cap = 0 then some none
  else do
    let i ← table.seek hash key
    match table.slots[i]? with
    | some (some (_, val)) => pure (some val)
    | _ => pure none

/-- `par_idx_table_put` -/
def put (table : ParIdxTable) (key : Par) (val : Nat) : Option ParIdxTable := do
  let table ← if (table.len + 1) * 4 ≥ table.cap * 3 then table.grow hash else some table
  let i ← table.seek hash key
  match table.slots[i]? with
  | some (some (old, _)) => pure { table with slots := table.slots.set i (some (old, val)) }
  | _ => pure { slots := table.slots.set i (some (key, val)), len := table.len + 1 }

end

/-! ## What the operations keep -/

/-- The entries are found, their number is recorded and a quarter of the slots is free. -/
structure Wf (hash : Par → Nat) (table : ParIdxTable) : Prop where
  chained : table.slots = [] ∨ 16 ≤ table.cap ∧ Probing.Chained hash table.slots
  count : table.len = Probing.used table.slots
  load : table.len * 4 ≤ table.cap * 3

/-- The entries of the table are the map. -/
def Represents (table : ParIdxTable) (m : Par → Option Nat) : Prop :=
  ∀ key val, some (key, val) ∈ table.slots ↔ m key = some val

variable {hash : Par → Nat} {table : ParIdxTable} {m : Par → Option Nat} {key : Par} {val : Nat}

theorem wf_empty : Wf hash {} :=
  ⟨.inl rfl, rfl, Nat.le_refl 0⟩

theorem represents_empty : Represents {} fun _ => none :=
  fun _ _ => ⟨fun h => absurd h List.not_mem_nil, fun h => (nomatch h)⟩

theorem reset_spec (hw : table.Wf hash) :
    table.reset.Wf hash ∧ table.reset.Represents fun _ => none := by
  refine ⟨⟨?_, (Probing.used_replicate _).symm, Nat.zero_le _⟩, fun key val => ⟨fun h => ?_, fun h =>
    (nomatch h)⟩⟩
  · rcases hw.chained with hnil | ⟨hcap, hc⟩
    · exact .inl (by rw [reset, cap, hnil]; rfl)
    · obtain ⟨k, hk⟩ := hc.size
      refine .inr ⟨?_, ?_⟩
      · rw [reset, cap, List.length_replicate]
        exact hcap
      · rw [reset, cap, hk]
        exact Probing.chained_replicate k
  · exact absurd (List.eq_of_mem_replicate h) nofun

/-- A key that the table does not have is moved to a free slot. -/
theorem move_spec (val : Nat) (hc : Probing.Chained hash table.slots)
    (hfree : Probing.used table.slots < table.cap) (habsent : ∀ v, some (key, v) ∉ table.slots) :
    ∃ table', table.move hash (some (key, val)) = some table' ∧ table'.cap = table.cap ∧
      table'.len = table.len + 1 ∧ Probing.Chained hash table'.slots ∧
      Probing.used table'.slots = Probing.used table.slots + 1 ∧
      ∀ e, some e ∈ table'.slots ↔ e = (key, val) ∨ some e ∈ table.slots := by
  obtain ⟨k, hk⟩ := hc.size
  obtain ⟨p, hwalk, hon, hslot⟩ := Probing.seekFree_spec hc (Probing.none_mem_of_used hfree) key
  refine ⟨⟨table.slots.set p (some (key, val)), table.len + 1⟩, ?_, List.length_set, rfl, ?_, ?_,
    fun e => ?_⟩
  · rw [move, cap, Probing.and_mask hk, hwalk]
    rfl
  · exact hc.set hslot hon fun q w hq => absurd (List.mem_of_getElem? hq) (habsent w)
  · rw [Probing.used_set hslot]
    rfl
  · rw [Probing.mem_set_iff hslot]
    refine or_congr_right ⟨fun ⟨q, _, hq⟩ => List.mem_of_getElem? hq, fun he => ?_⟩
    obtain ⟨q, hq⟩ := List.getElem?_of_mem he
    refine ⟨q, fun hqp => ?_, hq⟩
    rw [hqp, hslot] at hq
    cases hq

/-- Moving the slots of an old table whose keys are new. -/
theorem foldlM_move (rest : Probing.Slots Par Nat)
    (hrest : rest.Pairwise fun a b => ∀ key v w, a = some (key, v) → b ≠ some (key, w)) :
    ∀ table : ParIdxTable, Probing.Chained hash table.slots →
      Probing.used table.slots + Probing.used rest < table.cap →
      (∀ key v w, some (key, v) ∈ rest → some (key, w) ∉ table.slots) →
      table.len = Probing.used table.slots →
      ∃ table', rest.foldlM (move hash) table = some table' ∧ table'.cap = table.cap ∧
        table'.len = Probing.used table'.slots ∧ Probing.Chained hash table'.slots ∧
        table'.len = table.len + Probing.used rest ∧
        ∀ e, some e ∈ table'.slots ↔ some e ∈ table.slots ∨ some e ∈ rest := by
  induction rest with
  | nil =>
      intro table hc _ _ hcount
      exact ⟨table, rfl, rfl, hcount, hc, rfl, fun e => by simp⟩
  | cons slot rest ih =>
      intro table hc hroom hnew hcount
      obtain ⟨hhead, htail⟩ := List.pairwise_cons.mp hrest
      cases slot with
      | none =>
          have hused : Probing.used (none :: rest) = Probing.used rest := by simp [Probing.used]
          rw [hused] at hroom ⊢
          obtain ⟨table', hrun, hcap, hcount', hc', hlen, hmem⟩ := ih htail table hc hroom
            (fun key v w hv => hnew key v w (List.mem_cons_of_mem _ hv)) hcount
          refine ⟨table', hrun, hcap, hcount', hc', hlen, fun e => ?_⟩
          rw [hmem, List.mem_cons]
          simp
      | some e₀ =>
          obtain ⟨key, val⟩ := e₀
          have hused : Probing.used (some (key, val) :: rest) = Probing.used rest + 1 := by
            simp [Probing.used]
          rw [hused] at hroom ⊢
          obtain ⟨table₁, hmove, hcap₁, hlen₁, hc₁, hused₁, hmem₁⟩ := move_spec val hc (by omega)
            (fun v => hnew key val v List.mem_cons_self)
          obtain ⟨table', hrun, hcap, hcount', hc', hlen, hmem⟩ := ih htail table₁ hc₁ (by omega)
            (fun key' v w hv hw => by
              rcases (hmem₁ _).mp hw with heq | hold
              · cases heq
                exact hhead _ hv key val v rfl rfl
              · exact hnew key' v w (List.mem_cons_of_mem _ hv) hold) (by omega)
          refine ⟨table', ?_, hcap.trans hcap₁, hcount', hc', by omega, fun e => ?_⟩
          · rw [List.foldlM_cons, hmove]
            exact hrun
          · rw [hmem, hmem₁, List.mem_cons, Option.some.injEq]
            tauto

theorem Wf.room (hw : table.Wf hash) (hcap : table.cap ≠ 0) :
    Probing.used table.slots < table.cap := by
  have hcount := hw.count
  have hload := hw.load
  omega

theorem Wf.chained_of_cap (hw : table.Wf hash) (hcap : table.cap ≠ 0) :
    16 ≤ table.cap ∧ Probing.Chained hash table.slots := by
  rcases hw.chained with hnil | h
  · exact absurd (congrArg List.length hnil) hcap
  · exact h

/-- Growing keeps the entries and makes room for one more. -/
theorem grow_spec (hw : table.Wf hash) :
    ∃ table', table.grow hash = some table' ∧ table'.Wf hash ∧ table'.cap ≠ 0 ∧
      (table'.len + 1) * 4 ≤ table'.cap * 3 ∧ ∀ e, some e ∈ table'.slots ↔ some e ∈ table.slots := by
  obtain ⟨cap, hcap⟩ : ∃ cap, (if table.cap ≠ 0 then table.cap * 2 else 16) = cap := ⟨_, rfl⟩
  have hload := hw.load
  have hcount := hw.count
  obtain ⟨k, hk, hlarge, hpairs⟩ : ∃ k, cap = 2 ^ k ∧
      (16 ≤ cap ∧ table.len * 4 + 4 ≤ cap * 3 ∧ table.len < cap) ∧ table.slots.Pairwise
        fun a b => ∀ key v w, a = some (key, v) → b ≠ some (key, w) := by
    by_cases hzero : table.cap = 0
    · rw [if_neg (fun h => h hzero)] at hcap
      have hnil : table.slots = [] := List.length_eq_zero_iff.mp hzero
      exact ⟨4, hcap.symm, by omega, by rw [hnil]; exact .nil⟩
    · obtain ⟨hsixteen, hc⟩ := hw.chained_of_cap hzero
      obtain ⟨k, hk⟩ := hc.size
      rw [if_pos hzero] at hcap
      refine ⟨k + 1, ?_, by omega, hc.pairwise⟩
      rw [← hcap, Nat.pow_succ, ← hk]
      rfl
  have hempty : ∀ e : Par × Nat, some e ∉ List.replicate cap (none : Option (Par × Nat)) :=
    fun e he => absurd (List.eq_of_mem_replicate he) nofun
  have hchained : Probing.Chained hash (List.replicate cap (none : Option (Par × Nat))) := by
    rw [hk]
    exact Probing.chained_replicate k
  obtain ⟨table', hrun, hcap', hcount', hc', hlen, hmem⟩ := foldlM_move table.slots hpairs
    { slots := List.replicate cap none, len := 0 } hchained
    (by
      rw [Probing.used_replicate, ParIdxTable.cap, List.length_replicate]
      omega)
    (fun key v w _ hw => hempty _ hw) (Probing.used_replicate _).symm
  have hcap'' : table'.cap = cap := hcap'.trans List.length_replicate
  have hlen' : table'.len = 0 + Probing.used table.slots := hlen
  refine ⟨table', ?_, ⟨.inr ⟨by omega, hc'⟩, hcount', by omega⟩, by omega, by omega, fun e => ?_⟩
  · rw [grow, hcap]
    exact hrun
  · rw [hmem]
    exact or_iff_right (hempty e)

/-- The search for a key ends at its entry, or at a free slot when it has none. -/
theorem Wf.seek (hw : table.Wf hash) (hcap : table.cap ≠ 0) (hrep : table.Represents m)
    (key : Par) : ∃ p, table.seek hash key = some p ∧ Probing.OnChain table.slots (hash key) p ∧
      ((∃ v, table.slots[p]? = some (some (key, v)) ∧ m key = some v) ∨
        table.slots[p]? = some none ∧ m key = none) := by
  obtain ⟨-, hc⟩ := hw.chained_of_cap hcap
  obtain ⟨k, hk⟩ := hc.size
  obtain ⟨p, hwalk, hon, hfound⟩ :=
    Probing.seek_spec hc (Probing.none_mem_of_used (hw.room hcap)) key
  refine ⟨p, ?_, hon, ?_⟩
  · rw [ParIdxTable.seek, cap, Probing.and_mask hk, hwalk]
  · rcases hfound with ⟨v, hv⟩ | ⟨hnone, habsent⟩
    · exact .inl ⟨v, hv, (hrep key v).mp (List.mem_of_getElem? hv)⟩
    · refine .inr ⟨hnone, ?_⟩
      cases hm : m key with
      | none => rfl
      | some v => exact absurd ((hrep key v).mpr hm) (habsent v)

theorem get_spec (hw : table.Wf hash) (hrep : table.Represents m) (key : Par) :
    table.get hash key = some (m key) := by
  rw [get]
  by_cases hcap : table.cap = 0
  · rw [if_pos hcap]
    have hnil : table.slots = [] := List.length_eq_zero_iff.mp hcap
    cases hm : m key with
    | none => rfl
    | some v =>
        have hv := (hrep key v).mpr hm
        rw [hnil] at hv
        exact absurd hv List.not_mem_nil
  · rw [if_neg hcap]
    obtain ⟨p, hseek, -, hfound⟩ := hw.seek hcap hrep key
    rw [hseek]
    rcases hfound with ⟨v, hv, hm⟩ | ⟨hnone, hm⟩
    · simp only [Option.bind_eq_bind, Option.bind_some, hv, hm]
      rfl
    · simp only [Option.bind_eq_bind, Option.bind_some, hnone, hm]
      rfl

/-- Writing where the search for the key ends. -/
theorem put_found (hw : table.Wf hash) (hcap : table.cap ≠ 0) (hrep : table.Represents m)
    (hroom : (table.len + 1) * 4 ≤ table.cap * 3) (key : Par) (val : Nat) :
    ∃ p table', table.seek hash key = some p ∧
      (match table.slots[p]? with
        | some (some (old, _)) =>
            (pure { table with slots := table.slots.set p (some (old, val)) } : Option ParIdxTable)
        | _ => pure { slots := table.slots.set p (some (key, val)), len := table.len + 1 }) =
          some table' ∧
      table'.Wf hash ∧ table'.Represents (Function.update m key (some val)) := by
  obtain ⟨hlarge, hc⟩ := hw.chained_of_cap hcap
  obtain ⟨p, hseek, hon, hfound⟩ := hw.seek hcap hrep key
  have hcount := hw.count
  have hload := hw.load
  -- the entries of the other keys stay
  have hrep' : ∀ o, table.slots[p]? = some o → (∀ e, o = some e → e.1 = key) →
      (∀ q w, table.slots[q]? = some (some (key, w)) → q = p) → ∀ k v,
      some (k, v) ∈ table.slots.set p (some (key, val)) ↔
        Function.update m key (some val) k = some v := by
    intro o ho hkey honly k v
    rw [Probing.mem_set_iff ho]
    by_cases hk : k = key
    · subst hk
      rw [Function.update_self, Option.some.injEq]
      constructor
      · rintro (heq | ⟨q, hqp, hq⟩)
        · cases heq
          rfl
        · exact absurd (honly q v hq) hqp
      · rintro rfl
        exact .inl rfl
    · rw [Function.update_of_ne hk, ← hrep k v]
      constructor
      · rintro (heq | ⟨q, -, hq⟩)
        · cases heq
          exact absurd rfl hk
        · exact List.mem_of_getElem? hq
      · intro hmem
        obtain ⟨q, hq⟩ := List.getElem?_of_mem hmem
        refine .inr ⟨q, fun hqp => ?_, hq⟩
        rw [hqp, ho] at hq
        cases hq
        exact hk (hkey _ rfl)
  rcases hfound with ⟨v, hv, hm⟩ | ⟨hnone, hm⟩
  · have honly : ∀ q w, table.slots[q]? = some (some (key, w)) → q = p :=
      fun q w hq => hc.distinct q p key w v hq hv
    refine ⟨p, { table with slots := table.slots.set p (some (key, val)) }, hseek, by rw [hv]; rfl,
      ⟨.inr ⟨?_, hc.set hv hon honly⟩, ?_, ?_⟩, hrep' _ hv (fun e he => ?_) honly⟩
    · rw [cap, List.length_set]
      exact hlarge
    · rw [Probing.used_set hv]
      exact hcount
    · rw [cap, List.length_set]
      exact hload
    · cases he
      rfl
  · have honly : ∀ q w, table.slots[q]? = some (some (key, w)) → q = p := by
      intro q w hq
      have := (hrep key w).mp (List.mem_of_getElem? hq)
      rw [hm] at this
      cases this
    refine ⟨p, { slots := table.slots.set p (some (key, val)), len := table.len + 1 }, hseek,
      by rw [hnone]; rfl, ⟨.inr ⟨?_, hc.set hnone hon honly⟩, ?_, ?_⟩, hrep' _ hnone (fun e he => ?_) honly⟩
    · rw [cap, List.length_set]
      exact hlarge
    · rw [Probing.used_set hnone, hcount]
      rfl
    · rw [cap, List.length_set]
      exact hroom
    · cases he

theorem put_spec (hw : table.Wf hash) (hrep : table.Represents m) (key : Par) (val : Nat) :
    ∃ table', table.put hash key val = some table' ∧ table'.Wf hash ∧
      table'.Represents (Function.update m key (some val)) := by
  rw [put]
  by_cases hgrow : (table.len + 1) * 4 ≥ table.cap * 3
  · obtain ⟨table₁, hrun, hw₁, hcap₁, hroom₁, hmem₁⟩ := grow_spec hw
    have hrep₁ : table₁.Represents m := fun k v => (hmem₁ _).trans (hrep k v)
    obtain ⟨p, table', hseek, hwrite, hw', hrep'⟩ := put_found hw₁ hcap₁ hrep₁ hroom₁ key val
    refine ⟨table', ?_, hw', hrep'⟩
    rw [if_pos hgrow, hrun, Option.bind_eq_bind, Option.bind_some]
    simp only [hseek, Option.bind_eq_bind, Option.bind_some]
    exact hwrite
  · have hcap : table.cap ≠ 0 := by omega
    obtain ⟨p, table', hseek, hwrite, hw', hrep'⟩ := put_found hw hcap hrep (by omega) key val
    refine ⟨table', ?_, hw', hrep'⟩
    rw [if_neg hgrow, Option.bind_eq_bind, Option.bind_some]
    simp only [hseek, Option.bind_eq_bind, Option.bind_some]
    exact hwrite

/-! ## Sequences of table operations -/

inductive TableOp
  | put (key : Par) (val : Nat)
  | get (key : Par)
  | reset
  deriving DecidableEq, Repr

/-- One operation and its answers. -/
def tableStep (hash : Par → Nat) (table : ParIdxTable) :
    TableOp → Option (List (Option Nat) × ParIdxTable)
  | .put key val => do
      let table ← table.put hash key val
      pure ([], table)
  | .get key => do
      let val ← table.get hash key
      pure ([val], table)
  | .reset => pure ([], table.reset)

def tableRun (hash : Par → Nat) : ParIdxTable → List TableOp →
    Option (List (Option Nat) × ParIdxTable)
  | table, [] => some ([], table)
  | table, op :: ops => do
      let (answers, table) ← tableStep hash table op
      let (more, table) ← tableRun hash table ops
      pure (answers ++ more, table)

/-- The same on a map. -/
def mapStep (m : Par → Option Nat) : TableOp → List (Option Nat) × (Par → Option Nat)
  | .put key val => ([], Function.update m key (some val))
  | .get key => ([m key], m)
  | .reset => ([], fun _ => none)

def mapRun : (Par → Option Nat) → List TableOp → List (Option Nat) × (Par → Option Nat)
  | m, [] => ([], m)
  | m, op :: ops =>
      let (answers, m) := mapStep m op
      let (more, m) := mapRun m ops
      (answers ++ more, m)

theorem tableStep_spec (hw : table.Wf hash) (hrep : table.Represents m) (op : TableOp) :
    ∃ table', tableStep hash table op = some ((mapStep m op).1, table') ∧ table'.Wf hash ∧
      table'.Represents (mapStep m op).2 := by
  cases op with
  | put key val =>
      obtain ⟨table', hput, hw', hrep'⟩ := put_spec hw hrep key val
      exact ⟨table', by rw [tableStep, hput]; rfl, hw', hrep'⟩
  | get key =>
      exact ⟨table, by rw [tableStep, get_spec hw hrep key]; rfl, hw, hrep⟩
  | reset =>
      obtain ⟨hw', hrep'⟩ := reset_spec hw
      exact ⟨_, rfl, hw', hrep'⟩

theorem tableRun_spec (ops : List TableOp) : ∀ {table : ParIdxTable} {m : Par → Option Nat},
    table.Wf hash → table.Represents m →
    ∃ table', tableRun hash table ops = some ((mapRun m ops).1, table') ∧ table'.Wf hash ∧
      table'.Represents (mapRun m ops).2 := by
  induction ops with
  | nil => exact fun hw hrep => ⟨_, rfl, hw, hrep⟩
  | cons op ops ih =>
      intro table m hw hrep
      obtain ⟨table₁, hstep, hw₁, hrep₁⟩ := tableStep_spec hw hrep op
      obtain ⟨table₂, hrun, hw₂, hrep₂⟩ := ih hw₁ hrep₁
      refine ⟨table₂, ?_, hw₂, hrep₂⟩
      rw [tableRun, hstep, Option.bind_eq_bind, Option.bind_some]
      simp only [hrun, Option.bind_some]
      rfl

end ParIdxTable

/-! ## Interning -/

/-- Why interning does not return. -/
inductive Halt
  | probing
  | assertion
  deriving DecidableEq, Repr

/-- `CompileContext` with its table of places. -/
structure CompileContext where
  checker : Checker := {}
  parIdxs : ParIdxTable := {}
  deriving DecidableEq, Repr

namespace CompileContext

/-- `comp_context_reset` -/
def reset (ctx : CompileContext) : CompileContext :=
  { checker := { handles := [], holds := [], pars := [] }, parIdxs := ctx.parIdxs.reset }

/-- `comp_context_intern_par` -/
def internPar (hash : Par → Nat) (ctx : CompileContext) (par : Par) :
    Except Halt (Nat × CompileContext) :=
  match ctx.parIdxs.get hash par with
  | none => .error .probing
  | some (some idx) => .ok (idx, ctx)
  | some none =>
      let len := ctx.checker.handles.length
      if len ≠ len % countRange then .error .assertion
      else
        let idx := len % countRange
        match ctx.parIdxs.put hash par idx with
        | none => .error .probing
        | some parIdxs =>
            .ok (idx, {
              checker := { ctx.checker with handles := ctx.checker.handles ++ [{ par := par }] }
              parIdxs := parIdxs })

end CompileContext

namespace Checker

variable {c : Checker} {par : Par} {i : Nat}

/-- Each place has one handle. -/
def Distinct (c : Checker) : Prop :=
  ∀ i j par, c.parOf i = some par → c.parOf j = some par → i = j

/-- The handle of a place. -/
def indexOf (c : Checker) (par : Par) : Option Nat :=
  c.handles.findIdx? fun h => h.par = par

theorem indexOf_eq_some_iff (hd : c.Distinct) : c.indexOf par = some i ↔ c.parOf i = some par := by
  constructor
  · intro h
    obtain ⟨hlt, hpar, -⟩ := List.findIdx?_eq_some_iff_getElem.mp h
    rw [parOf, List.getElem?_eq_getElem hlt, Option.map_some, of_decide_eq_true hpar]
  · intro h
    obtain ⟨handle, hhandle, hpar⟩ := handle_of_parOf h
    cases hj : c.indexOf par with
    | none =>
        have hne := List.findIdx?_eq_none_iff.mp hj handle (List.mem_of_getElem? hhandle)
        rw [decide_eq_true hpar] at hne
        cases hne
    | some j =>
        obtain ⟨hlt, hpar', -⟩ := List.findIdx?_eq_some_iff_getElem.mp hj
        have hj' : c.parOf j = some par := by
          rw [parOf, List.getElem?_eq_getElem hlt, Option.map_some, of_decide_eq_true hpar']
        rw [hd i j par h hj']

theorem indexOf_eq_none_iff (hd : c.Distinct) :
    c.indexOf par = none ↔ ∀ i, c.parOf i ≠ some par := by
  constructor
  · intro h i hi
    rw [(indexOf_eq_some_iff hd).mpr hi] at h
    cases h
  · intro h
    cases hj : c.indexOf par with
    | none => rfl
    | some j => exact absurd ((indexOf_eq_some_iff hd).mp hj) (h j)

/-- The handles with one more. -/
def pushHandle (c : Checker) (par : Par) : Checker :=
  { c with handles := c.handles ++ [{ par := par }] }

theorem parOf_pushHandle : (c.pushHandle par).parOf i =
    if i = c.handles.length then some par else c.parOf i := by
  rw [parOf, parOf, pushHandle]
  rcases Nat.lt_trichotomy i c.handles.length with hlt | rfl | hgt
  · rw [List.getElem?_append_left hlt, if_neg (Nat.ne_of_lt hlt)]
  · rw [List.getElem?_concat_length, if_pos rfl]
    rfl
  · rw [if_neg (Nat.ne_of_gt hgt), List.getElem?_eq_none, List.getElem?_eq_none (Nat.le_of_lt hgt)]
    rw [List.length_append, List.length_singleton]
    omega

theorem Distinct.pushHandle (hd : c.Distinct) (hnew : ∀ i, c.parOf i ≠ some par) :
    (c.pushHandle par).Distinct := by
  intro i j p hi hj
  rw [parOf_pushHandle] at hi hj
  split at hi <;> split at hj
  · omega
  · cases hi
    exact absurd hj (hnew j)
  · cases hj
    exact absurd hi (hnew i)
  · exact hd i j p hi hj

end Checker

namespace CompileContext

/-- The table finds each place at the handle that has it. -/
structure Indexed (hash : Par → Nat) (ctx : CompileContext) : Prop where
  wf : ctx.parIdxs.Wf hash
  places : ctx.parIdxs.Represents ctx.checker.indexOf
  distinct : ctx.checker.Distinct

variable {hash : Par → Nat} {ctx : CompileContext} {par : Par}

theorem indexed_empty : Indexed hash {} :=
  ⟨ParIdxTable.wf_empty, ParIdxTable.represents_empty, fun _ _ _ h => (nomatch h)⟩

theorem Indexed.reset (h : Indexed hash ctx) : Indexed hash ctx.reset := by
  obtain ⟨hwf, hrep⟩ := ParIdxTable.reset_spec h.wf
  exact ⟨hwf, hrep, fun _ _ _ hi => (nomatch hi)⟩

/-- A place that has a handle. -/
theorem internPar_known (h : Indexed hash ctx) {i : Nat} (hi : ctx.checker.parOf i = some par) :
    ctx.internPar hash par = .ok (i, ctx) := by
  rw [internPar, ParIdxTable.get_spec h.wf h.places,
    (Checker.indexOf_eq_some_iff h.distinct).mpr hi]

/-- A new place gets the next handle while there is an index for it. -/
theorem internPar_new (h : Indexed hash ctx) (hnew : ∀ i, ctx.checker.parOf i ≠ some par) :
    (ctx.checker.handles.length < countRange ∧ ∃ ctx', ctx'.checker = ctx.checker.pushHandle par ∧
      ctx.internPar hash par = .ok (ctx.checker.handles.length, ctx') ∧ Indexed hash ctx') ∨
    (countRange ≤ ctx.checker.handles.length ∧ ctx.internPar hash par = .error .assertion) := by
  have hget := ParIdxTable.get_spec h.wf h.places par
  rw [(Checker.indexOf_eq_none_iff h.distinct).mpr hnew] at hget
  rw [internPar, hget]
  simp only
  by_cases hlt : ctx.checker.handles.length < countRange
  · refine .inl ⟨hlt, ?_⟩
    obtain ⟨table, hput, hwf, hrep⟩ :=
      ParIdxTable.put_spec h.wf h.places par ctx.checker.handles.length
    rw [Nat.mod_eq_of_lt hlt, if_neg (fun hne => hne rfl), hput]
    have hd := h.distinct.pushHandle hnew
    refine ⟨_, rfl, rfl, hwf, fun key val => ?_, hd⟩
    rw [hrep key val]
    refine Iff.trans ?_ (Checker.indexOf_eq_some_iff hd).symm
    rw [Checker.parOf_pushHandle]
    by_cases hkey : key = par
    · rw [hkey, Function.update_self, Option.some.injEq]
      constructor
      · intro hval
        rw [if_pos hval.symm]
      · intro hval
        split at hval
        · rename_i heq
          exact heq.symm
        · exact absurd hval (hnew val)
    · rw [Function.update_of_ne hkey, Checker.indexOf_eq_some_iff h.distinct]
      split
      · rename_i hval
        refine iff_of_false (fun hold => ?_) (fun heq => hkey (Option.some.inj heq).symm)
        have := Checker.parOf_lt hold
        omega
      · rfl
  · refine .inr ⟨Nat.le_of_not_lt hlt, ?_⟩
    have hmod := Nat.mod_lt ctx.checker.handles.length (show 0 < countRange by decide)
    rw [if_pos (by omega)]

/-- While there are indices, interning is the search in the handles. -/
theorem internPar_eq_intern (h : Indexed hash ctx)
    (hlen : ctx.checker.handles.length < countRange) (par : Par) :
    ∃ ctx', ctx.internPar hash par = .ok ((ctx.checker.intern par).1, ctx') ∧
      ctx'.checker = (ctx.checker.intern par).2 ∧ Indexed hash ctx' := by
  rw [Checker.intern]
  cases hi : ctx.checker.indexOf par with
  | some i =>
      have hi' := hi
      rw [Checker.indexOf] at hi'
      rw [hi']
      exact ⟨ctx, internPar_known h ((Checker.indexOf_eq_some_iff h.distinct).mp hi), rfl, h⟩
  | none =>
      have hi' := hi
      rw [Checker.indexOf] at hi'
      rw [hi']
      rcases internPar_new h ((Checker.indexOf_eq_none_iff h.distinct).mp hi) with
        ⟨-, ctx', hchecker, hrun, hindexed⟩ | ⟨hge, -⟩
      · exact ⟨ctx', hrun, hchecker, hindexed⟩
      · omega

/-! ## Sequences of interning -/

inductive PlaceOp
  | intern (par : Par)
  | reset
  deriving DecidableEq, Repr

/-- One operation; the log has what was interned since the last reset. -/
def placeStep (hash : Par → Nat) (state : List (Par × Nat) × CompileContext) :
    PlaceOp → Except Halt (List (Par × Nat) × CompileContext)
  | .intern par =>
      match state.2.internPar hash par with
      | .error halt => .error halt
      | .ok (idx, ctx) => .ok (state.1 ++ [(par, idx)], ctx)
  | .reset => .ok ([], state.2.reset)

def placeRun (hash : Par → Nat) (ops : List PlaceOp) :
    Except Halt (List (Par × Nat) × CompileContext) :=
  ops.foldlM (placeStep hash) ([], {})

/-- What the indices of a run that has come to `log` and `ctx` say. -/
structure Bijective (hash : Par → Nat) (ops : List PlaceOp) (log : List (Par × Nat))
    (ctx : CompileContext) : Prop where
  same : ∀ p q i j, (p, i) ∈ log → (q, j) ∈ log → (p = q ↔ i = j)
  handles : ∀ p i, (p, i) ∈ log ↔ ctx.checker.parOf i = some p
  parents : ∀ before par after log₀ ctx₀, ops = before ++ .intern par :: after → .reset ∉ after →
    placeRun hash before = .ok (log₀, ctx₀) → (∀ i, (par, i) ∉ log₀) → par.IsProjection →
    par.parent < ctx₀.checker.handles.length → ∀ i, (par, i) ∈ log → par.parent < i

/-- The log and the table agree with the handles. -/
structure Logged (hash : Par → Nat) (state : List (Par × Nat) × CompileContext) : Prop where
  indexed : Indexed hash state.2
  log : ∀ p i, (p, i) ∈ state.1 ↔ state.2.checker.parOf i = some p

variable {state state' : List (Par × Nat) × CompileContext} {op : PlaceOp}

/-- One operation keeps the agreement, or finds no index for a new place. -/
theorem placeStep_spec (h : Logged hash state) (op : PlaceOp) :
    (∃ state', placeStep hash state op = .ok state' ∧ Logged hash state' ∧
      (op ≠ .reset → state.2.checker.Extends state'.2.checker)) ∨
    ∃ par, op = .intern par ∧ countRange ≤ state.2.checker.handles.length ∧
      placeStep hash state op = .error .assertion := by
  cases op with
  | reset =>
      refine .inl ⟨_, rfl, ⟨h.indexed.reset, fun p i => ⟨fun hi => absurd hi List.not_mem_nil,
        fun hi => (nomatch hi)⟩⟩, fun hne => absurd rfl hne⟩
  | intern par =>
      by_cases hold : ∃ i, state.2.checker.parOf i = some par
      · obtain ⟨i, hi⟩ := hold
        refine .inl ⟨(state.1 ++ [(par, i)], state.2), ?_, ⟨h.indexed, fun p j => ?_⟩,
          fun _ => ⟨fun _ _ hp => hp, Nat.le_refl _⟩⟩
        · rw [placeStep, internPar_known h.indexed hi]
        · rw [List.mem_append, h.log, List.mem_singleton, Prod.mk.injEq]
          refine or_iff_left_of_imp ?_
          rintro ⟨rfl, rfl⟩
          exact hi
      · have hnew : ∀ i, state.2.checker.parOf i ≠ some par := fun i hi => hold ⟨i, hi⟩
        rcases internPar_new h.indexed hnew with ⟨-, ctx', hchecker, hrun, hindexed⟩ | ⟨hge, hrun⟩
        · refine .inl ⟨(state.1 ++ [(par, state.2.checker.handles.length)], ctx'), ?_,
            ⟨hindexed, fun p j => ?_⟩, fun _ => ⟨fun i p hp => ?_, ?_⟩⟩
          · rw [placeStep, hrun]
          · rw [List.mem_append, h.log, List.mem_singleton, Prod.mk.injEq, hchecker,
              Checker.parOf_pushHandle]
            split
            · rename_i hj
              constructor
              · rintro (hp | ⟨rfl, -⟩)
                · have := Checker.parOf_lt hp
                  omega
                · rfl
              · intro hp
                exact .inr ⟨(Option.some.inj hp).symm, hj⟩
            · rename_i hj
              exact or_iff_left (fun hp => hj hp.2)
          · have hlt := Checker.parOf_lt hp
            rw [hchecker, Checker.parOf_pushHandle, if_neg (Nat.ne_of_lt hlt)]
            exact hp
          · rw [hchecker, Checker.pushHandle, List.length_append]
            exact Nat.le_add_right _ _
        · exact .inr ⟨par, rfl, hge, by rw [placeStep, hrun]⟩

theorem logged_empty : Logged hash ([], {}) :=
  ⟨indexed_empty, fun _ _ => ⟨fun h => absurd h List.not_mem_nil, fun h => (nomatch h)⟩⟩

theorem placeRun_append (xs ys : List PlaceOp) :
    placeRun hash (xs ++ ys) = placeRun hash xs >>= fun state => ys.foldlM (placeStep hash) state :=
  List.foldlM_append

/-- A run returns, or stops at the assertion for a new place. -/
theorem placeRun_spec (ops : List PlaceOp) :
    (∃ state, placeRun hash ops = .ok state ∧ Logged hash state) ∨
    ∃ before par after state, ops = before ++ .intern par :: after ∧
      placeRun hash before = .ok state ∧ countRange ≤ state.2.checker.handles.length ∧
      placeRun hash ops = .error .assertion := by
  induction ops using List.reverseRecOn with
  | nil => exact .inl ⟨_, rfl, logged_empty⟩
  | append_singleton ops op ih =>
      rw [placeRun_append]
      rcases ih with ⟨state, hrun, hlogged⟩ | ⟨before, par, after, state, heq, hrun, hge, herr⟩
      · rcases placeStep_spec hlogged op with ⟨state', hstep, hlogged', -⟩ | ⟨par, rfl, hge, hstep⟩
        · refine .inl ⟨state', ?_, hlogged'⟩
          rw [hrun]
          show placeStep hash state op >>= pure = _
          rw [hstep]
          rfl
        · refine .inr ⟨ops, par, [], state, rfl, hrun, hge, ?_⟩
          rw [hrun]
          show placeStep hash state (.intern par) >>= pure = _
          rw [hstep]
          rfl
      · refine .inr ⟨before, par, after ++ [op], state, ?_, hrun, hge, ?_⟩
        · rw [heq, List.append_assoc, List.cons_append]
        · rw [herr]
          rfl

/-- Without a reset, the handles of a run stay. -/
theorem foldlM_extends (ops : List PlaceOp) (hno : .reset ∉ ops) :
    ∀ {state state' : List (Par × Nat) × CompileContext}, Logged hash state →
      ops.foldlM (placeStep hash) state = .ok state' →
      state.2.checker.Extends state'.2.checker := by
  induction ops with
  | nil =>
      intro state state' _ hrun
      cases hrun
      exact ⟨fun _ _ hp => hp, Nat.le_refl _⟩
  | cons op ops ih =>
      intro state state' hlogged hrun
      rw [List.foldlM_cons] at hrun
      rcases placeStep_spec hlogged op with ⟨mid, hstep, hmid, hext⟩ | ⟨par, -, -, hstep⟩
      · rw [hstep] at hrun
        have hrest := ih (fun h => hno (List.mem_cons_of_mem _ h)) hmid hrun
        have hfirst := hext fun h => hno (h ▸ List.mem_cons_self)
        exact ⟨fun i p hp => hrest.pars i p (hfirst.pars i p hp),
          Nat.le_trans hfirst.length hrest.length⟩
      · rw [hstep] at hrun
        cases hrun

/-- A place that is new at some point of a run keeps the index it gets there. -/
theorem index_of_new {before after : List PlaceOp} {log₀ log : List (Par × Nat)}
    {ctx₀ ctx : CompileContext} (hno : .reset ∉ after)
    (hbefore : placeRun hash before = .ok (log₀, ctx₀)) (hnew : ∀ i, (par, i) ∉ log₀)
    (hrun : placeRun hash (before ++ .intern par :: after) = .ok (log, ctx)) :
    ctx.checker.parOf ctx₀.checker.handles.length = some par := by
  have hlogged : Logged hash (log₀, ctx₀) := by
    rcases @placeRun_spec hash before with ⟨state, hstate, hlogged⟩ | ⟨_, _, _, _, _, _, _, herr⟩
    · rw [hbefore] at hstate
      cases hstate
      exact hlogged
    · rw [hbefore] at herr
      cases herr
  rw [placeRun_append, hbefore] at hrun
  change List.foldlM (placeStep hash) (log₀, ctx₀) (.intern par :: after) = _ at hrun
  rw [List.foldlM_cons] at hrun
  have habsent : ∀ i, ctx₀.checker.parOf i ≠ some par := fun i hi => hnew i ((hlogged.log par i).mpr hi)
  rcases placeStep_spec hlogged (.intern par) with ⟨mid, hstep, hmid, hext⟩ | ⟨_, -, -, hstep⟩
  · rw [hstep] at hrun
    refine (foldlM_extends after hno hmid hrun).pars _ _ ?_
    rcases internPar_new hlogged.indexed habsent with ⟨-, ctx', hchecker, hintern, -⟩ | ⟨-, hintern⟩
    · rw [placeStep, hintern] at hstep
      cases hstep
      rw [hchecker, Checker.parOf_pushHandle, if_pos rfl]
    · rw [placeStep, hintern] at hstep
      cases hstep
  · rw [hstep] at hrun
    cases hrun

theorem bijective_of_logged {ops : List PlaceOp} {log : List (Par × Nat)} {ctx : CompileContext}
    (hrun : placeRun hash ops = .ok (log, ctx)) (h : Logged hash (log, ctx)) :
    Bijective hash ops log ctx := by
  refine ⟨fun p q i j hi hj => ⟨fun hpq => ?_, fun hij => ?_⟩, h.log,
    fun before par after log₀ ctx₀ heq hno hbefore hnew _ hparent i hi => ?_⟩
  · subst hpq
    exact h.indexed.distinct i j p ((h.log p i).mp hi) ((h.log p j).mp hj)
  · subst hij
    have hp := (h.log p i).mp hi
    rw [(h.log q i).mp hj] at hp
    exact (Option.some.inj hp).symm
  · subst heq
    have hat := index_of_new hno hbefore hnew hrun
    rw [h.indexed.distinct i _ par ((h.log par i).mp hi) hat]
    exact hparent

/-- Interning is a finite bijection: the table is a finite map whose probes end, and a run of
interning keeps one index for each place, or stops at the assertion when no index is left. -/
theorem interning_bijective (hash : Par → Nat) :
    (∀ ops, ∃ table, ParIdxTable.tableRun hash {} ops =
      some ((ParIdxTable.mapRun (fun _ => none) ops).1, table)) ∧
    ∀ ops, (∃ log ctx, placeRun hash ops = .ok (log, ctx) ∧ Bijective hash ops log ctx) ∨
      ∃ before par after log ctx, ops = before ++ .intern par :: after ∧
        placeRun hash before = .ok (log, ctx) ∧ countRange ≤ ctx.checker.handles.length ∧
        placeRun hash ops = .error .assertion := by
  refine ⟨fun ops => ?_, fun ops => ?_⟩
  · obtain ⟨table, hrun, -, -⟩ :=
      ParIdxTable.tableRun_spec ops (@ParIdxTable.wf_empty hash) ParIdxTable.represents_empty
    exact ⟨table, hrun⟩
  · rcases @placeRun_spec hash ops with ⟨⟨log, ctx⟩, hrun, hlogged⟩ |
      ⟨before, par, after, ⟨log, ctx⟩, heq, hrun, hge, herr⟩
    · exact .inl ⟨log, ctx, hrun, bijective_of_logged hrun hlogged⟩
    · exact .inr ⟨before, par, after, log, ctx, heq, hrun, hge, herr⟩

example : (placeRun parHash [.intern ⟨.localVar, 3, 0⟩, .intern ⟨.structField, 1, 0⟩,
    .intern ⟨.localVar, 3, 0⟩]).map Prod.fst =
      .ok [(⟨.localVar, 3, 0⟩, 0), (⟨.structField, 1, 0⟩, 1), (⟨.localVar, 3, 0⟩, 0)] := by
  decide

end CompileContext

end TreeVM
