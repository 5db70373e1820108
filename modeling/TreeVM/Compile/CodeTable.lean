import Mathlib.Logic.Relation
import TreeVM.Compile.CallTargets
import TreeVM.Compile.Recursion

/-!
# The code table in memory

`compile_context_func_code` takes a pointer to the slot of a callee before it compiles the callee.
Meanwhile the table may be reallocated.

* `CodeTable`: the table with its capacity and the buffer it is in; `SlotPtr`: a pointer into it;
* `compileStateAt`: `vm_compile_no_defers` on such a table, where `moves n` tells whether the
  `n`-th call of `realloc` moves the buffer;
* `cached_iff`: all callees end up in their slots, for every such `realloc`, if and only if no
  callee asks for an index that the table has to grow for.
-/

namespace TreeVM

/-! ## Slots and pointers -/

structure VmCode where
  data : UInt64
  bytes : Code
  deriving DecidableEq, Repr

/-- `CompileContext.code`: empty slots are `none`.  A buffer that has been left has another number.
`grown` counts the calls of `realloc`, `built` lists the callees whose code has been stored, or
should have been. -/
structure CodeTable where
  buffer : Nat := 0
  cap : Nat := 0
  slots : List (Option VmCode) := []
  grown : Nat := 0
  built : List Nat := []
  deriving DecidableEq, Repr

/-- `&ctx->code.data[idx]` -/
structure SlotPtr where
  buffer : Nat
  idx : Nat

/-- `while(cap <= idx) cap *= 2` -/
def doubleCap (idx : Nat) : Nat → Nat → Nat
  | 0, cap => cap
  | fuel + 1, cap => if cap ≤ idx then doubleCap idx fuel (cap * 2) else cap

/-- The capacity once the slot `idx` is there. -/
def capFor (cap idx : Nat) : Nat :=
  if cap ≤ idx then doubleCap idx (idx + 1) (if cap = 0 then 8 else cap) else cap

namespace CodeTable

/-- `ensure_code_slot` -/
def ensureSlot (moves : Nat → Bool) (m : CodeTable) (idx : Nat) : CodeTable :=
  if idx < m.slots.length then m
  else
    let grown :=
      if m.cap ≤ idx then
        { m with
          cap := capFor m.cap idx
          buffer := if moves m.grown then m.buffer + 1 else m.buffer
          grown := m.grown + 1 }
      else m
    { grown with slots := m.slots ++ List.replicate (idx + 1 - m.slots.length) none }

/-- `*code = …`.  Into a buffer that has been freed, the store does not reach the table. -/
def store (m : CodeTable) (p : SlotPtr) (code : VmCode) : CodeTable :=
  { m with
    slots := if p.buffer = m.buffer then m.slots.set p.idx (some code) else m.slots
    built := p.idx :: m.built }

end CodeTable

/-- `compile_context_func_code` -/
def contextFuncCodeAt (moves : Nat → Bool) (ctx : Context) (place : Nat → UInt64)
    (compile : Func → CodeTable → Except CodeTable (Code × CodeTable)) (idx : Nat) (m : CodeTable) :
    Except CodeTable CodeTable :=
  match ctx.funcs[idx]? with
  | none => .error m
  | some f =>
      let m := m.ensureSlot moves idx
      let code : SlotPtr := ⟨m.buffer, idx⟩
      match m.slots[idx]? with
      | some (some _) => .ok m
      | _ => do
          let (bytes, m) ← compile f m
          return m.store code ⟨place idx, bytes⟩

/-- `vm_compile_no_defers`; `blocks` bounds the recursion over blocks, the last number the recursion
over calls. -/
def compileStateAt (moves : Nat → Bool) (ctx : Context) (place : Nat → UInt64) (blocks : Nat) :
    Nat → Func → CodeTable → Except CodeTable (Compiler CodeTable)
  | 0, _, m => .error m
  | calls + 1, f, m =>
      let callee := contextFuncCodeAt moves ctx place fun f m =>
        (compileStateAt moves ctx place blocks calls f m).map Compiler.result
      compileBody ctx place callee blocks f m

/-! ## Capacity -/

theorem lt_doubleCap {idx fuel cap : Nat} (hcap : 0 < cap) (hfuel : idx < cap + fuel) :
    idx < doubleCap idx fuel cap := by
  induction fuel generalizing cap with
  | zero => exact hfuel
  | succ fuel ih =>
      rw [doubleCap]
      split
      · exact ih (by omega) (by omega)
      · omega

theorem lt_capFor (cap idx : Nat) : idx < capFor cap idx := by
  rw [capFor]
  split
  · refine lt_doubleCap ?_ (by omega)
    split <;> omega
  · omega

theorem le_capFor (cap idx : Nat) : cap ≤ capFor cap idx := by
  by_cases h : cap ≤ idx
  · exact Nat.le_of_lt (Nat.lt_of_le_of_lt h (lt_capFor cap idx))
  · exact Nat.le_of_eq (if_neg h).symm

theorem capFor_of_lt {cap idx : Nat} (h : idx < cap) : capFor cap idx = cap :=
  if_neg (Nat.not_le.mpr h)

namespace CodeTable

variable {moves : Nat → Bool} {m m' : CodeTable} {i j : Nat}

/-- The callee is in its slot. -/
def Has (m : CodeTable) (i : Nat) : Prop :=
  ∃ code, m.slots[i]? = some (some code)

theorem Has.lt (h : m.Has i) : i < m.slots.length := by
  obtain ⟨code, hcode⟩ := h
  exact (List.getElem?_eq_some_iff.mp hcode).1

/-- `ensure_code_slot` in a table that is no longer than its buffer. -/
structure Ensures (moves : Nat → Bool) (m m' : CodeTable) (idx : Nat) : Prop where
  cap : m'.cap = capFor m.cap idx
  length : m'.slots.length = max m.slots.length (idx + 1)
  stays : idx < m.cap → m'.buffer = m.buffer
  moved : m'.cap = m.cap ∧ m'.buffer = m.buffer ∨
    m'.buffer = if moves m.grown then m.buffer + 1 else m.buffer

theorem holds_append {slots : List (Option VmCode)} {n i : Nat} {code : VmCode} :
    (slots ++ List.replicate n none)[i]? = some (some code) ↔ slots[i]? = some (some code) := by
  rw [List.getElem?_append]
  split
  · exact .rfl
  · rename_i hge
    rw [List.getElem?_eq_none (Nat.not_lt.mp hge), List.getElem?_replicate]
    split <;> simp

theorem holds_ensureSlot {code : VmCode} :
    (m.ensureSlot moves j).slots[i]? = some (some code) ↔ m.slots[i]? = some (some code) := by
  rw [ensureSlot]
  split
  · exact .rfl
  · exact holds_append

theorem has_ensureSlot : (m.ensureSlot moves j).Has i ↔ m.Has i :=
  exists_congr fun _ => holds_ensureSlot

theorem built_ensureSlot : (m.ensureSlot moves j).built = m.built := by
  rw [ensureSlot]
  split
  · rfl
  · split <;> rfl

theorem ensureSlot_ensures (moves : Nat → Bool) (hfits : m.slots.length ≤ m.cap) (idx : Nat) :
    Ensures moves m (m.ensureSlot moves idx) idx := by
  have hlength : (m.slots ++ List.replicate (idx + 1 - m.slots.length) none).length =
      max m.slots.length (idx + 1) := by
    rw [List.length_append, List.length_replicate]
    omega
  rw [ensureSlot]
  split
  · rename_i hlt
    have hcap : idx < m.cap := Nat.lt_of_lt_of_le hlt hfits
    exact ⟨(capFor_of_lt hcap).symm, by omega, fun _ => rfl, .inl ⟨rfl, rfl⟩⟩
  · by_cases hcap : m.cap ≤ idx
    · simp only [if_pos hcap]
      exact ⟨rfl, hlength, fun h => by omega, .inr rfl⟩
    · simp only [if_neg hcap]
      exact ⟨(capFor_of_lt (Nat.lt_of_not_le hcap)).symm, hlength, fun _ => rfl,
        .inl ⟨rfl, rfl⟩⟩

namespace Ensures

theorem fits (h : Ensures moves m m' j) (hfits : m.slots.length ≤ m.cap) :
    m'.slots.length ≤ m'.cap := by
  have hle := le_capFor m.cap j
  have hlt := lt_capFor m.cap j
  rw [h.length, h.cap]
  omega

end Ensures

section Store

variable {p : SlotPtr} {code : VmCode}

@[simp] theorem store_cap : (m.store p code).cap = m.cap :=
  rfl

@[simp] theorem store_buffer : (m.store p code).buffer = m.buffer :=
  rfl

@[simp] theorem store_built : (m.store p code).built = p.idx :: m.built :=
  rfl

@[simp] theorem length_store : (m.store p code).slots.length = m.slots.length := by
  simp only [store]
  split
  · exact List.length_set
  · rfl

/-- A store into a buffer that has been left. -/
theorem slots_store_lost (h : p.buffer ≠ m.buffer) : (m.store p code).slots = m.slots :=
  if_neg h

theorem slots_store (h : p.buffer = m.buffer) :
    (m.store p code).slots = m.slots.set p.idx (some code) :=
  if_pos h

theorem slots_store_ne (h : p.idx ≠ i) : (m.store p code).slots[i]? = m.slots[i]? := by
  simp only [store]
  split
  · exact List.getElem?_set_ne h
  · rfl

theorem slots_store_self (h : p.buffer = m.buffer) (hlt : p.idx < m.slots.length) :
    (m.store p code).slots[p.idx]? = some (some code) := by
  rw [slots_store h, List.getElem?_set_self hlt]

theorem Has.store (h : m.Has i) : (m.store p code).Has i := by
  by_cases hi : p.idx = i
  · subst hi
    by_cases hbuffer : p.buffer = m.buffer
    · exact ⟨code, slots_store_self hbuffer h.lt⟩
    · rw [Has, slots_store_lost hbuffer]
      exact h
  · rw [Has, slots_store_ne hi]
    exact h

theorem Has.of_store (h : (m.store p code).Has i) : p.idx = i ∨ m.Has i := by
  by_cases hi : p.idx = i
  · exact .inl hi
  · rw [Has, slots_store_ne hi] at h
    exact .inr h

end Store

end CodeTable

/-! ## Runs of requests -/

section Runs

variable (moves : Nat → Bool) (ctx : Context) (place : Nat → UInt64) (blocks : Nat)

/-- The requests of one compilation, in which every callee is accepted: from one table to another. -/
inductive AsksAll : List Nat → CodeTable → CodeTable → Prop
  | nil {m : CodeTable} : AsksAll [] m m
  | cached {j : Nat} {js : List Nat} {f : Func} {m m' : CodeTable} (hf : ctx.funcs[j]? = some f)
      (hhas : m.Has j) (hrest : AsksAll js (m.ensureSlot moves j) m') : AsksAll (j :: js) m m'
  | compiled {j : Nat} {js : List Nat} {f : Func} {c : Compiler Unit} {m m₁ m' : CodeTable}
      (hf : ctx.funcs[j]? = some f) (hhas : ¬ m.Has j)
      (hends : (f.plan ctx place blocks).ends = some c)
      (hinner : AsksAll (f.plan ctx place blocks).asks (m.ensureSlot moves j) m₁)
      (hrest : AsksAll js
        (m₁.store ⟨(m.ensureSlot moves j).buffer, j⟩ ⟨place j, c.code⟩) m') :
      AsksAll (j :: js) m m'

/-- The compilation of function `i` asks for function `j`. -/
def CallsIn (i j : Nat) : Prop :=
  ∃ f, ctx.funcs[i]? = some f ∧ j ∈ (f.plan ctx place blocks).asks

/-- Function `j` is function `i`, or is called by it directly or indirectly. -/
abbrev LeadsTo : Nat → Nat → Prop :=
  Relation.ReflTransGen (CallsIn ctx place blocks)

/-- Function `i` is accepted, with everything it asks for. -/
inductive Buildable : Nat → Prop
  | intro {i : Nat} {f : Func} {c : Compiler Unit} (hf : ctx.funcs[i]? = some f)
      (hends : (f.plan ctx place blocks).ends = some c)
      (hasks : ∀ j ∈ (f.plan ctx place blocks).asks, Buildable j) : Buildable i

end Runs

section RunLemmas

variable {moves : Nat → Bool} {ctx : Context} {place : Nat → UInt64} {blocks : Nat}
  {m m' m₁ : CodeTable} {i j : Nat} {js : List Nat} {f : Func}

theorem contextFuncCodeAt_has {compile : Func → CodeTable → Except CodeTable (Code × CodeTable)}
    (hf : ctx.funcs[i]? = some f) (h : m.Has i) :
    contextFuncCodeAt moves ctx place compile i m = .ok (m.ensureSlot moves i) := by
  obtain ⟨code, hcode⟩ : (m.ensureSlot moves i).Has i := CodeTable.has_ensureSlot.mpr h
  simp only [contextFuncCodeAt, hf, hcode]

theorem contextFuncCodeAt_compiles
    {compile : Func → CodeTable → Except CodeTable (Code × CodeTable)}
    (hf : ctx.funcs[i]? = some f) (h : ¬ m.Has i) :
    contextFuncCodeAt moves ctx place compile i m = (compile f (m.ensureSlot moves i) >>= fun r =>
      pure (r.2.store ⟨(m.ensureSlot moves i).buffer, i⟩ ⟨place i, r.1⟩)) := by
  have hnone : ∀ code, (m.ensureSlot moves i).slots[i]? ≠ some (some code) :=
    fun code hcode => h (CodeTable.has_ensureSlot.mp ⟨code, hcode⟩)
  simp only [contextFuncCodeAt, hf]

theorem compileStateAt_succ {calls : Nat} : compileStateAt moves ctx place blocks (calls + 1) f m =
    askAll (contextFuncCodeAt moves ctx place fun f m =>
      (compileStateAt moves ctx place blocks calls f m).map Compiler.result)
        (f.plan ctx place blocks).asks m >>=
      endPlan (overTable CodeTable) (f.plan ctx place blocks).ends :=
  compileBody_eq_plan f ctx place blocks _ m

/-- What an accepted compilation has done. -/
theorem asksAll_of_accepts {calls : Nat} {c : Compiler CodeTable}
    (h : compileStateAt moves ctx place blocks calls f m = .ok c) :
    ∃ c₀, (f.plan ctx place blocks).ends = some c₀ ∧ c = c₀.withTable c.table ∧
      AsksAll moves ctx place blocks (f.plan ctx place blocks).asks m c.table := by
  induction calls generalizing f m c with
  | zero => cases h
  | succ calls ih =>
      have hall : ∀ js m m', askAll (contextFuncCodeAt moves ctx place fun f m =>
          (compileStateAt moves ctx place blocks calls f m).map Compiler.result) js m = .ok m' →
          AsksAll moves ctx place blocks js m m' := by
        intro js
        induction js with
        | nil =>
            intro m m' h
            cases h
            exact .nil
        | cons j js ihjs =>
            intro m m' h
            obtain ⟨m₁, hj, hrest⟩ := bind_eq_ok.mp h
            cases hf : ctx.funcs[j]? with
            | none =>
                rw [contextFuncCodeAt, hf] at hj
                cases hj
            | some g =>
                by_cases hhas : m.Has j
                · rw [contextFuncCodeAt_has hf hhas] at hj
                  cases hj
                  exact .cached hf hhas (ihjs _ _ hrest)
                · rw [contextFuncCodeAt_compiles hf hhas] at hj
                  obtain ⟨⟨code, m₂⟩, hcompiled, hj⟩ := bind_eq_ok.mp hj
                  obtain ⟨c', hc', hresult⟩ := map_eq_ok.mp hcompiled
                  cases hresult
                  cases hj
                  obtain ⟨c₀, hends, hover, hinner⟩ := ih hc'
                  refine .compiled hf hhas hends hinner ?_
                  have hcode : c₀.code = c'.code := by rw [hover]; rfl
                  rw [hcode]
                  exact ihjs _ _ hrest
      rw [compileStateAt_succ] at h
      obtain ⟨m', hasks, hends⟩ := bind_eq_ok.mp h
      cases hp : (f.plan ctx place blocks).ends with
      | none =>
          rw [hp] at hends
          cases hends
      | some c₀ =>
          rw [hp] at hends
          cases hends
          exact ⟨c₀, rfl, rfl, hall _ _ _ hasks⟩

namespace AsksAll

theorem fits (h : AsksAll moves ctx place blocks js m m') (hfits : m.slots.length ≤ m.cap) :
    m'.slots.length ≤ m'.cap := by
  induction h with
  | nil => exact hfits
  | cached _ _ _ ih => exact ih ((CodeTable.ensureSlot_ensures moves hfits _).fits hfits)
  | compiled _ _ _ _ _ ihinner ihrest =>
      have hinner := ihinner ((CodeTable.ensureSlot_ensures moves hfits _).fits hfits)
      exact ihrest (by simpa using hinner)

/-- Nothing is reallocated if there is room for all callees. -/
theorem stays (h : AsksAll moves ctx place blocks js m m') (hfits : m.slots.length ≤ m.cap)
    (hroom : ∀ j ∈ js, ∀ i, LeadsTo ctx place blocks j i → i < m.cap) :
    m'.cap = m.cap ∧ m'.buffer = m.buffer := by
  induction h with
  | nil => exact ⟨rfl, rfl⟩
  | @cached j js f m m' hf hhas hrest ih =>
      have hensures := CodeTable.ensureSlot_ensures moves hfits j
      have hj := hroom j List.mem_cons_self j .refl
      have hcap : (m.ensureSlot moves j).cap = m.cap := hensures.cap.trans (capFor_of_lt hj)
      obtain ⟨hcap', hbuffer'⟩ := ih (hensures.fits hfits) fun k hk i hi => by
        rw [hcap]
        exact hroom k (List.mem_cons_of_mem j hk) i hi
      exact ⟨hcap'.trans hcap, hbuffer'.trans (hensures.stays hj)⟩
  | @compiled j js f c m m₁ m' hf hhas hends hinner hrest ihinner ihrest =>
      have hensures := CodeTable.ensureSlot_ensures moves hfits j
      have hj := hroom j List.mem_cons_self j .refl
      have hcap : (m.ensureSlot moves j).cap = m.cap := hensures.cap.trans (capFor_of_lt hj)
      obtain ⟨hcap₁, hbuffer₁⟩ := ihinner (hensures.fits hfits) fun k hk i hi => by
        rw [hcap]
        exact hroom j List.mem_cons_self i (.head ⟨f, hf, hk⟩ hi)
      have hfits₁ := hinner.fits (hensures.fits hfits)
      obtain ⟨hcap', hbuffer'⟩ := ihrest (by simpa using hfits₁) fun k hk i hi => by
        rw [CodeTable.store_cap, hcap₁, hcap]
        exact hroom k (List.mem_cons_of_mem j hk) i hi
      exact ⟨hcap'.trans (hcap₁.trans hcap), hbuffer'.trans (hbuffer₁.trans (hensures.stays hj))⟩

theorem keeps (h : AsksAll moves ctx place blocks js m m') (hhas : m.Has i) : m'.Has i := by
  induction h with
  | nil => exact hhas
  | cached _ _ _ ih => exact ih (CodeTable.has_ensureSlot.mpr hhas)
  | compiled _ _ _ _ _ ihinner ihrest =>
      exact ihrest (ihinner (CodeTable.has_ensureSlot.mpr hhas)).store

/-- Only callees that are led to get their slots filled. -/
theorem fresh (h : AsksAll moves ctx place blocks js m m') (hhas : m'.Has i) :
    m.Has i ∨ ∃ j ∈ js, LeadsTo ctx place blocks j i := by
  induction h with
  | nil => exact .inl hhas
  | @cached j js f m m' hf hj hrest ih =>
      rcases ih hhas with hhas | ⟨k, hk, hleads⟩
      · exact .inl (CodeTable.has_ensureSlot.mp hhas)
      · exact .inr ⟨k, List.mem_cons_of_mem j hk, hleads⟩
  | @compiled j js f c m m₁ m' hf hj hends hinner hrest ihinner ihrest =>
      rcases ihrest hhas with hhas | ⟨k, hk, hleads⟩
      · rcases hhas.of_store with rfl | hhas
        · exact .inr ⟨_, List.mem_cons_self, .refl⟩
        · rcases ihinner hhas with hhas | ⟨k, hk, hleads⟩
          · exact .inl (CodeTable.has_ensureSlot.mp hhas)
          · exact .inr ⟨j, List.mem_cons_self, .head ⟨f, hf, hk⟩ hleads⟩
      · exact .inr ⟨k, List.mem_cons_of_mem j hk, hleads⟩

theorem buildable (h : AsksAll moves ctx place blocks js m m')
    (hm : ∀ i, m.Has i → Buildable ctx place blocks i) :
    (∀ j ∈ js, Buildable ctx place blocks j) ∧ ∀ i, m'.Has i → Buildable ctx place blocks i := by
  induction h with
  | nil => exact ⟨by simp, hm⟩
  | @cached j js f m m' hf hj hrest ih =>
      obtain ⟨hjs, hm'⟩ := ih fun i hi => hm i (CodeTable.has_ensureSlot.mp hi)
      exact ⟨List.forall_mem_cons.mpr ⟨hm j hj, hjs⟩, hm'⟩
  | @compiled j js f c m m₁ m' hf hj hends hinner hrest ihinner ihrest =>
      obtain ⟨hasks, hm₁⟩ := ihinner fun i hi => hm i (CodeTable.has_ensureSlot.mp hi)
      have hbuild : Buildable ctx place blocks j := .intro hf hends hasks
      obtain ⟨hjs, hm'⟩ := ihrest fun i hi => by
        rcases hi.of_store with rfl | hi
        · exact hbuild
        · exact hm₁ i hi
      exact ⟨List.forall_mem_cons.mpr ⟨hbuild, hjs⟩, hm'⟩

/-- A buffer that moves with every `realloc` is another one whenever the capacity has changed. -/
theorem grows (h : AsksAll (fun _ => true) ctx place blocks js m m')
    (hfits : m.slots.length ≤ m.cap) :
    m'.cap = m.cap ∧ m'.buffer = m.buffer ∨ m.buffer < m'.buffer := by
  have hensures : ∀ {m : CodeTable} (j), m.slots.length ≤ m.cap →
      (m.ensureSlot (fun _ => true) j).cap = m.cap ∧
        (m.ensureSlot (fun _ => true) j).buffer = m.buffer ∨
      (m.ensureSlot (fun _ => true) j).buffer = m.buffer + 1 := fun j hfits =>
    (CodeTable.ensureSlot_ensures (fun _ => true) hfits j).moved
  have hnext : ∀ {m : CodeTable} (j), m.slots.length ≤ m.cap →
      (m.ensureSlot (fun _ => true) j).slots.length ≤ (m.ensureSlot (fun _ => true) j).cap :=
    fun j hfits => (CodeTable.ensureSlot_ensures (fun _ => true) hfits j).fits hfits
  induction h with
  | nil => exact .inl ⟨rfl, rfl⟩
  | @cached j js f m m' hf hhas hrest ih =>
      have hfirst := hensures j hfits
      have hlater := ih (hnext j hfits)
      omega
  | @compiled j js f c m m₁ m' hf hhas hends hinner hrest ihinner ihrest =>
      have hfirst := hensures j hfits
      have hmiddle := ihinner (hnext j hfits)
      have hfits₁ := hinner.fits (hnext j hfits)
      have hlater := ihrest (by simpa using hfits₁)
      simp only [CodeTable.store_cap, CodeTable.store_buffer] at hlater
      omega

end AsksAll

/-- Everything that a cached callee leads to has a slot. -/
def Wide (ctx : Context) (place : Nat → UInt64) (blocks : Nat) (m : CodeTable) : Prop :=
  ∀ a, m.Has a → ∀ i, LeadsTo ctx place blocks a i → i < m.slots.length

/-- The table is long enough for everything that the requests lead to, also where stores were
lost. -/
theorem AsksAll.wide (h : AsksAll moves ctx place blocks js m m')
    (hfits : m.slots.length ≤ m.cap) (hwide : Wide ctx place blocks m) :
    Wide ctx place blocks m' ∧ m.slots.length ≤ m'.slots.length ∧
      ∀ j ∈ js, ∀ i, LeadsTo ctx place blocks j i → i < m'.slots.length := by
  induction h with
  | nil => exact ⟨hwide, Nat.le_refl _, by simp⟩
  | @cached j js f m m' hf hhas hrest ih =>
      have hensures := CodeTable.ensureSlot_ensures moves hfits j
      have hle : m.slots.length ≤ (m.ensureSlot moves j).slots.length := by
        rw [hensures.length]
        omega
      obtain ⟨hwide', hle', hjs⟩ := ih (hensures.fits hfits) fun a ha i hi =>
        Nat.lt_of_lt_of_le (hwide a (CodeTable.has_ensureSlot.mp ha) i hi) hle
      refine ⟨hwide', Nat.le_trans hle hle', List.forall_mem_cons.mpr ⟨fun i hi => ?_, hjs⟩⟩
      exact Nat.lt_of_lt_of_le (hwide j hhas i hi) (Nat.le_trans hle hle')
  | @compiled j js f c m m₁ m' hf hhas hends hinner hrest ihinner ihrest =>
      have hensures := CodeTable.ensureSlot_ensures moves hfits j
      have hle : m.slots.length ≤ (m.ensureSlot moves j).slots.length ∧
          j < (m.ensureSlot moves j).slots.length := by
        rw [hensures.length]
        omega
      obtain ⟨hwide₁, hle₁, hasks⟩ := ihinner (hensures.fits hfits) fun a ha i hi =>
        Nat.lt_of_lt_of_le (hwide a (CodeTable.has_ensureSlot.mp ha) i hi) hle.1
      have hj : ∀ i, LeadsTo ctx place blocks j i → i < m₁.slots.length := by
        intro i hi
        rcases Relation.ReflTransGen.cases_head hi with rfl | ⟨k, ⟨g, hg, hk⟩, hki⟩
        · exact Nat.lt_of_lt_of_le hle.2 hle₁
        · cases hf.symm.trans hg
          exact hasks k hk i hki
      have hfits₁ := hinner.fits (hensures.fits hfits)
      obtain ⟨hwide', hle', hjs⟩ := ihrest (by simpa using hfits₁) fun a ha i hi => by
        rw [CodeTable.length_store]
        rcases ha.of_store with rfl | ha
        · exact hj i hi
        · exact hwide₁ a ha i hi
      rw [CodeTable.length_store] at hle'
      refine ⟨hwide', Nat.le_trans hle.1 (Nat.le_trans hle₁ hle'),
        List.forall_mem_cons.mpr ⟨fun i hi => Nat.lt_of_lt_of_le (hj i hi) hle', hjs⟩⟩

/-- The code of `j` has been stored into a buffer that had been left. -/
def LostOnce (j : Nat) (m : CodeTable) : Prop :=
  1 ≤ m.built.count j ∧ (m.Has j → 2 ≤ m.built.count j)

theorem AsksAll.lostOnce (h : AsksAll moves ctx place blocks js m m') (hlost : LostOnce i m) :
    LostOnce i m' := by
  have hensure : ∀ {m : CodeTable} (j), LostOnce i m → LostOnce i (m.ensureSlot moves j) := by
    intro m j hlost
    rw [LostOnce, CodeTable.built_ensureSlot, CodeTable.has_ensureSlot]
    exact hlost
  have hstore : ∀ {m : CodeTable} (p code), LostOnce i m → LostOnce i (m.store p code) := by
    intro m p code hlost
    obtain ⟨hone, htwo⟩ := hlost
    rw [LostOnce, CodeTable.store_built, List.count_cons]
    refine ⟨by omega, fun hhas => ?_⟩
    rcases hhas.of_store with rfl | hhas
    · simp only [beq_self_eq_true, if_true]
      omega
    · exact Nat.le_trans (htwo hhas) (Nat.le_add_right _ _)
  induction h with
  | nil => exact hlost
  | cached _ _ _ ih => exact ih (hensure _ hlost)
  | compiled _ _ _ _ _ ihinner ihrest => exact ihrest (hstore _ _ (ihinner (hensure _ hlost)))

theorem Buildable.acyclic (h : Buildable ctx place blocks i) :
    ¬ Relation.TransGen (CallsIn ctx place blocks) i i := by
  induction h with
  | @intro i f c hf hends hasks ih =>
      intro hcycle
      obtain ⟨k, ⟨g, hg, hk⟩, hki⟩ := Relation.TransGen.head'_iff.mp hcycle
      cases hf.symm.trans hg
      exact ih k hk (Relation.TransGen.tail' hki ⟨f, hf, hk⟩)

theorem exists_bound {P : Nat → Nat → Prop} (h : ∀ j ∈ js, ∃ n, ∀ k ≥ n, P j k) :
    ∃ n, ∀ j ∈ js, ∀ k ≥ n, P j k := by
  induction js with
  | nil => exact ⟨0, by simp⟩
  | cons j js ih =>
      obtain ⟨n, hn⟩ := h j List.mem_cons_self
      obtain ⟨n', hn'⟩ := ih fun i hi => h i (List.mem_cons_of_mem j hi)
      refine ⟨max n n', List.forall_mem_cons.mpr ⟨fun k hk => hn k ?_, fun i hi k hk => ?_⟩⟩
      · exact Nat.le_trans (Nat.le_max_left n n') hk
      · exact hn' i hi k (Nat.le_trans (Nat.le_max_right n n') hk)

theorem askAll_accepts {τ : Type} {callee : Nat → τ → Except τ τ} {t : τ}
    (h : ∀ j ∈ js, ∀ t, ∃ t', callee j t = .ok t') : ∃ t', askAll callee js t = .ok t' := by
  induction js generalizing t with
  | nil => exact ⟨t, rfl⟩
  | cons j js ih =>
      obtain ⟨t₁, ht₁⟩ := h j List.mem_cons_self t
      rw [askAll, ht₁]
      exact ih fun i hi => h i (List.mem_cons_of_mem j hi)

/-- An accepted callee is compiled in every table, given enough fuel. -/
theorem Buildable.accepts (h : Buildable ctx place blocks i) : ∃ n, ∀ calls ≥ n, ∀ moves m,
    ∃ m', contextFuncCodeAt moves ctx place (fun f m =>
      (compileStateAt moves ctx place blocks calls f m).map Compiler.result) i m = .ok m' := by
  induction h with
  | @intro i f c hf hends hasks ih =>
      obtain ⟨n, hn⟩ := exists_bound ih
      refine ⟨n + 1, fun calls hcalls moves m => ?_⟩
      obtain ⟨calls, rfl⟩ : ∃ k, calls = k + 1 := ⟨calls - 1, by omega⟩
      by_cases hhas : m.Has i
      · exact ⟨_, contextFuncCodeAt_has hf hhas⟩
      · rw [contextFuncCodeAt_compiles hf hhas]
        obtain ⟨m', hm'⟩ := askAll_accepts (t := m.ensureSlot moves i)
          (fun j hj => hn j hj calls (Nat.le_of_succ_le_succ hcalls) moves)
        rw [compileStateAt_succ, hm', hends]
        exact ⟨_, rfl⟩

/-- A function whose callees are accepted. -/
theorem accepts_of_buildable {c : Compiler Unit} (hends : (f.plan ctx place blocks).ends = some c)
    (hasks : ∀ j ∈ (f.plan ctx place blocks).asks, Buildable ctx place blocks j)
    (moves : Nat → Bool) (m : CodeTable) : ∃ calls m',
      compileStateAt moves ctx place blocks calls f m = .ok (c.withTable m') := by
  obtain ⟨n, hn⟩ := exists_bound fun j hj => (hasks j hj).accepts
  obtain ⟨m', hm'⟩ := askAll_accepts (t := m) fun j hj => hn j hj n (Nat.le_refl n) moves
  refine ⟨n + 1, m', ?_⟩
  rw [compileStateAt_succ, hm', hends]
  rfl

end RunLemmas

/-! ## Tables that are right -/

section Ready

variable (ctx : Context) (place : Nat → UInt64) (blocks : Nat)

/-- What `vm_compile_no_defers` makes of function `i`, where the code of function `i` stands. -/
def IsCode (i : Nat) (code : VmCode) : Prop :=
  code.data = place i ∧ ∃ f, ctx.funcs[i]? = some f ∧ ∃ moves calls m c,
    compileStateAt moves ctx place blocks calls f m = .ok c ∧ c.code = code.bytes

/-- A table that accepted compilations have filled, each callee once. -/
structure CodeTable.Ready (m : CodeTable) : Prop where
  fits : m.slots.length ≤ m.cap
  isCode : ∀ (i : Nat) (code : VmCode), m.slots[i]? = some (some code) → IsCode ctx place blocks i code
  buildable : ∀ i, m.Has i → Buildable ctx place blocks i
  closed : ∀ i j, m.Has i → CallsIn ctx place blocks i j → m.Has j
  once : ∀ i, m.Has i → m.built.count i = 1
  never : ∀ i, ¬ m.Has i → m.built.count i = 0

/-- Each callee, and everything it leads to, is below the capacity of the table once the slot of
the callee is there. -/
def Roomy : List Nat → Nat → Prop
  | [], _ => True
  | j :: js, cap => (∀ i, LeadsTo ctx place blocks j i → i < capFor cap j) ∧ Roomy js (capFor cap j)

end Ready

section ReadyLemmas

variable {moves : Nat → Bool} {ctx : Context} {place : Nat → UInt64} {blocks : Nat}
  {m m' m₁ : CodeTable} {i j : Nat} {js : List Nat} {f : Func}

theorem CodeTable.Ready.ensureSlot (h : m.Ready ctx place blocks) (moves : Nat → Bool) (j : Nat) :
    (m.ensureSlot moves j).Ready ctx place blocks where
  fits := (m.ensureSlot_ensures moves h.fits j).fits h.fits
  isCode i code hcode := h.isCode i code (holds_ensureSlot.mp hcode)
  buildable i hi := h.buildable i (has_ensureSlot.mp hi)
  closed i k hi hik := has_ensureSlot.mpr (h.closed i k (has_ensureSlot.mp hi) hik)
  once i hi := by
    rw [built_ensureSlot]
    exact h.once i (has_ensureSlot.mp hi)
  never i hi := by
    rw [built_ensureSlot]
    exact h.never i fun hhas => hi (has_ensureSlot.mpr hhas)

theorem CodeTable.Ready.leads (h : m.Ready ctx place blocks) (hi : m.Has i)
    (hij : LeadsTo ctx place blocks i j) : m.Has j := by
  induction hij with
  | refl => exact hi
  | tail _ hstep ih => exact h.closed _ _ ih hstep

/-- The code of a callee reaches its slot. -/
theorem CodeTable.Ready.store {p : SlotPtr} {code : VmCode} (h : m.Ready ctx place blocks)
    (hbuffer : p.buffer = m.buffer) (hlt : p.idx < m.slots.length) (hnot : ¬ m.Has p.idx)
    (hcode : IsCode ctx place blocks p.idx code) (hbuild : Buildable ctx place blocks p.idx)
    (hasks : ∀ j, CallsIn ctx place blocks p.idx j → m.Has j) :
    (m.store p code).Ready ctx place blocks where
  fits := by simpa using h.fits
  isCode i code' hi := by
    by_cases hp : p.idx = i
    · subst hp
      rw [slots_store_self hbuffer hlt] at hi
      cases hi
      exact hcode
    · rw [slots_store_ne hp] at hi
      exact h.isCode i code' hi
  buildable i hi := by
    rcases hi.of_store with rfl | hi
    · exact hbuild
    · exact h.buildable i hi
  closed i k hi hik := by
    rcases hi.of_store with rfl | hi
    · exact (hasks k hik).store
    · exact (h.closed i k hi hik).store
  once i hi := by
    rw [store_built, List.count_cons]
    by_cases hp : p.idx = i
    · subst hp
      simp [h.never _ hnot]
    · have hold : m.Has i := hi.of_store.resolve_left hp
      simp [hp, h.once i hold]
  never i hi := by
    have hp : p.idx ≠ i := by
      rintro rfl
      exact hi ⟨code, slots_store_self hbuffer hlt⟩
    rw [store_built, List.count_cons]
    simp [hp, h.never i fun hhas => hi hhas.store]

theorem roomy_of_lt {cap : Nat} (h : ∀ j ∈ js, ∀ i, LeadsTo ctx place blocks j i → i < cap) :
    Roomy ctx place blocks js cap := by
  induction js with
  | nil => trivial
  | cons j js ih =>
      have hcap : capFor cap j = cap := capFor_of_lt (h j List.mem_cons_self j .refl)
      rw [Roomy, hcap]
      exact ⟨h j List.mem_cons_self, ih fun k hk => h k (List.mem_cons_of_mem j hk)⟩

theorem buildable_isCode {c : Compiler Unit} (h : Buildable ctx place blocks i)
    (hf : ctx.funcs[i]? = some f) (hends : (f.plan ctx place blocks).ends = some c) :
    IsCode ctx place blocks i ⟨place i, c.code⟩ := by
  obtain ⟨hg, -, hasks⟩ := h
  cases hf.symm.trans hg
  obtain ⟨calls, m', hrun⟩ := accepts_of_buildable hends hasks (fun _ => true) {}
  exact ⟨rfl, f, hf, _, calls, _, _, hrun, rfl⟩

/-- One callee that is compiled, in a table with room for everything it leads to. -/
theorem CodeTable.Ready.compiled {c : Compiler Unit} (hm : m.Ready ctx place blocks)
    (hf : ctx.funcs[j]? = some f) (hnot : ¬ m.Has j)
    (hends : (f.plan ctx place blocks).ends = some c)
    (hinner : AsksAll moves ctx place blocks (f.plan ctx place blocks).asks
      (m.ensureSlot moves j) m₁)
    (hroom : ∀ i, LeadsTo ctx place blocks j i → i < capFor m.cap j)
    (hm₁ : m₁.Ready ctx place blocks) (hasks : ∀ k ∈ (f.plan ctx place blocks).asks, m₁.Has k) :
    m₁.cap = capFor m.cap j ∧
      (m₁.store ⟨(m.ensureSlot moves j).buffer, j⟩ ⟨place j, c.code⟩).Ready ctx place blocks ∧
      (m₁.store ⟨(m.ensureSlot moves j).buffer, j⟩ ⟨place j, c.code⟩).Has j := by
  have hensures := m.ensureSlot_ensures moves hm.fits j
  have hready := hm.ensureSlot moves j
  obtain ⟨hcap, hbuffer⟩ := hinner.stays hready.fits fun k hk i hi => by
    rw [hensures.cap]
    exact hroom i (.head ⟨f, hf, hk⟩ hi)
  have hbuild : Buildable ctx place blocks j :=
    .intro hf hends fun k hk => hm₁.buildable k (hasks k hk)
  have hnot₁ : ¬ m₁.Has j := by
    intro hhas
    rcases hinner.fresh hhas with hhas | ⟨k, hk, hkj⟩
    · exact hnot (has_ensureSlot.mp hhas)
    · exact hbuild.acyclic (.head' ⟨f, hf, hk⟩ hkj)
  have hlt : j < m₁.slots.length := by
    have hle := (hinner.wide hready.fits fun a ha i hi => (hready.leads ha hi).lt).2.1
    rw [hensures.length] at hle
    omega
  refine ⟨hcap.trans hensures.cap, ?_, ⟨_, slots_store_self hbuffer.symm hlt⟩⟩
  refine hm₁.store hbuffer.symm hlt hnot₁ (buildable_isCode hbuild hf hends) hbuild ?_
  rintro k ⟨g, hg, hk⟩
  cases hf.symm.trans hg
  exact hasks k hk

/-- With room for everything, all callees end up in their slots. -/
theorem AsksAll.ready (h : AsksAll moves ctx place blocks js m m') (hm : m.Ready ctx place blocks)
    (hroom : Roomy ctx place blocks js m.cap) :
    m'.Ready ctx place blocks ∧ ∀ j ∈ js, m'.Has j := by
  induction h with
  | nil => exact ⟨hm, by simp⟩
  | @cached j js f m m' hf hhas hrest ih =>
      have hcap := (m.ensureSlot_ensures moves hm.fits j).cap
      obtain ⟨hm', hjs⟩ := ih (hm.ensureSlot moves j) (by
        rw [hcap]
        exact hroom.2)
      exact ⟨hm', List.forall_mem_cons.mpr ⟨hrest.keeps (CodeTable.has_ensureSlot.mpr hhas), hjs⟩⟩
  | @compiled j js f c m m₁ m' hf hnot hends hinner hrest ihinner ihrest =>
      have hcap := (m.ensureSlot_ensures moves hm.fits j).cap
      obtain ⟨hm₁, hasks⟩ := ihinner (hm.ensureSlot moves j) (roomy_of_lt fun k hk i hi => by
        rw [hcap]
        exact hroom.1 i (.head ⟨f, hf, hk⟩ hi))
      obtain ⟨hcap₁, hstored, hhas⟩ := hm.compiled hf hnot hends hinner hroom.1 hm₁ hasks
      obtain ⟨hm', hjs⟩ := ihrest hstored (by
        rw [CodeTable.store_cap, hcap₁]
        exact hroom.2)
      exact ⟨hm', List.forall_mem_cons.mpr ⟨hrest.keeps hhas, hjs⟩⟩

/-- Without that room, a buffer that moves with every `realloc` loses the code of a callee. -/
theorem AsksAll.lost (h : AsksAll (fun _ => true) ctx place blocks js m m')
    (hm : m.Ready ctx place blocks) (hroom : ¬ Roomy ctx place blocks js m.cap) :
    ∃ j ∈ js, LostOnce j m' := by
  have hlater : ∀ {j js m'}, (∃ k ∈ js, LostOnce k m') → ∃ k ∈ j :: js, LostOnce k m' :=
    fun ⟨k, hk, hlost⟩ => ⟨k, List.mem_cons_of_mem _ hk, hlost⟩
  induction h with
  | nil => exact (hroom trivial).elim
  | @cached j js f m m' hf hhas hrest ih =>
      have hensures := m.ensureSlot_ensures (fun _ => true) hm.fits j
      refine hlater (ih (hm.ensureSlot _ j) fun hrest => hroom ⟨fun i hi => ?_, ?_⟩)
      · have hlt := (hm.leads hhas hi).lt
        exact Nat.lt_of_lt_of_le (Nat.lt_of_lt_of_le hlt hm.fits) (le_capFor m.cap j)
      · rwa [hensures.cap] at hrest
  | @compiled j js f c m m₁ m' hf hnot hends hinner hrest ihinner ihrest =>
      have hensures := m.ensureSlot_ensures (fun _ => true) hm.fits j
      have hready := hm.ensureSlot (fun _ => true) j
      by_cases hall : ∀ i, LeadsTo ctx place blocks j i → i < capFor m.cap j
      · obtain ⟨hm₁, hasks⟩ := hinner.ready hready (roomy_of_lt fun k hk i hi => by
          rw [hensures.cap]
          exact hall i (.head ⟨f, hf, hk⟩ hi))
        obtain ⟨hcap₁, hstored, hhas⟩ := hm.compiled hf hnot hends hinner hall hm₁ hasks
        refine hlater (ihrest hstored fun hrest => hroom ⟨hall, ?_⟩)
        rwa [CodeTable.store_cap, hcap₁] at hrest
      · -- the table has grown while `j` was compiled, so its buffer has moved
        refine ⟨j, List.mem_cons_self, hrest.lostOnce ?_⟩
        have hwide₀ : Wide ctx place blocks (m.ensureSlot (fun _ => true) j) :=
          fun a ha i hi => (hready.leads ha hi).lt
        have hmoved : (m.ensureSlot (fun _ => true) j).buffer ≠ m₁.buffer := by
          intro hsame
          refine hall fun i hi => ?_
          have hcap : m₁.cap = (m.ensureSlot (fun _ => true) j).cap := by
            rcases hinner.grows hready.fits with ⟨hcap, -⟩ | hlt
            · exact hcap
            · omega
          rw [← hensures.cap, ← hcap]
          refine Nat.lt_of_lt_of_le ?_ (hinner.fits hready.fits)
          obtain ⟨-, hle, hasks⟩ := hinner.wide hready.fits hwide₀
          rcases Relation.ReflTransGen.cases_head hi with rfl | ⟨k, ⟨g, hg, hk⟩, hki⟩
          · rw [hensures.length] at hle
            omega
          · cases hf.symm.trans hg
            exact hasks k hk i hki
        have hbuild := (hinner.buildable hready.buildable).1
        have hnot₁ : ¬ m₁.Has j := by
          intro hhas
          rcases hinner.fresh hhas with hhas | ⟨k, hk, hkj⟩
          · exact hnot (CodeTable.has_ensureSlot.mp hhas)
          · exact (Buildable.intro hf hends hbuild).acyclic (.head' ⟨f, hf, hk⟩ hkj)
        refine ⟨?_, fun hhas => (hnot₁ ?_).elim⟩
        · rw [CodeTable.store_built, List.count_cons]
          simp
        · rwa [CodeTable.Has, CodeTable.slots_store_lost hmoved] at hhas

theorem CodeTable.ready_empty : ({} : CodeTable).Ready ctx place blocks where
  fits := Nat.le_refl _
  isCode i code h := by simp at h
  buildable i h := by simp [Has] at h
  closed i j h := by simp [Has] at h
  once i h := by simp [Has] at h
  never i _ := rfl

end ReadyLemmas

/-! ## Callees under their index -/

/-- Function `i` is called by `f`, directly or indirectly. -/
def Func.Called (ctx : Context) (place : Nat → UInt64) (blocks : Nat) (f : Func) (i : Nat) : Prop :=
  ∃ j ∈ (f.plan ctx place blocks).asks, LeadsTo ctx place blocks j i

/-- The `B_CALL`s of the code of `f`, in their order, go to what is in the slots of the functions that
its `OP_CALL`s name. -/
def CodeTable.Targets (m : CodeTable) (blocks : Nat) (f : Func) (bytes : Code) : Prop :=
  ∃ is : List Instr, bytes = is.flatMap encode ∧
    List.Forall₂ (fun j target => ∃ code, m.slots[j]? = some (some code) ∧ target = code.data)
      (f.calls blocks) (callTargets is)

/-- At the end of the compilation of `f`: the callees are in their slots, each compiled once, and
every `B_CALL`, of `f` and of the callees, goes to the code in the slot of the function that is
called. -/
structure Cached (ctx : Context) (place : Nat → UInt64) (blocks : Nat) (f : Func)
    (c : Compiler CodeTable) : Prop where
  slots : ∀ i, f.Called ctx place blocks i → ∃ code, c.table.slots[i]? = some (some code) ∧
    IsCode ctx place blocks i code ∧ c.table.built.count i = 1
  targets : c.table.Targets blocks f c.code
  calleeTargets : ∀ i g code, f.Called ctx place blocks i → ctx.funcs[i]? = some g →
    c.table.slots[i]? = some (some code) → c.table.Targets blocks g code.bytes

section Main

variable {ctx : Context} {place : Nat → UInt64} {blocks : Nat} {f : Func} {m : CodeTable}

/-- Tables stay right as long as there is room. -/
theorem CodeTable.Ready.accepts {moves : Nat → Bool} {calls : Nat} {c : Compiler CodeTable}
    (hm : m.Ready ctx place blocks)
    (h : compileStateAt moves ctx place blocks calls f m = .ok c)
    (hroom : Roomy ctx place blocks (f.plan ctx place blocks).asks m.cap) :
    c.table.Ready ctx place blocks ∧ ∀ i, f.Called ctx place blocks i → c.table.Has i := by
  obtain ⟨c₀, -, -, hasks⟩ := asksAll_of_accepts h
  obtain ⟨hready, hhas⟩ := hasks.ready hm hroom
  exact ⟨hready, fun i ⟨j, hj, hji⟩ => hready.leads (hhas j hj) hji⟩

/-- Calls of functions that are in their slots -/
theorem CodeTable.Ready.targets {c : Compiler Unit} (hm : m.Ready ctx place blocks)
    (hends : (f.plan ctx place blocks).ends = some c)
    (hasks : ∀ j ∈ (f.plan ctx place blocks).asks, m.Has j) : m.Targets blocks f c.code := by
  obtain ⟨hasked, is, hcode, hcalls⟩ := plan_calls hends
  refine ⟨is, hcode, ?_⟩
  rw [hcalls, List.forall₂_map_right_iff, List.forall₂_same]
  intro j hj
  obtain ⟨code, hslot⟩ := hasks j (hasked j hj)
  exact ⟨code, hslot, (hm.isCode j code hslot).1.symm⟩

/-- All callees end up under their index, however `realloc` moves the table, if and only if the
table has room for what a callee leads to before that callee is compiled. -/
theorem cached_iff (hm : m.Ready ctx place blocks)
    (haccepts : ∃ moves calls c, compileStateAt moves ctx place blocks calls f m = .ok c) :
    (∀ moves calls c, compileStateAt moves ctx place blocks calls f m = .ok c →
      Cached ctx place blocks f c) ↔
    Roomy ctx place blocks (f.plan ctx place blocks).asks m.cap := by
  refine ⟨fun hall => ?_, fun hroom moves calls c h => ?_⟩
  · by_contra hroom
    obtain ⟨moves, calls, c, h⟩ := haccepts
    obtain ⟨c₀, hends, -, hasks⟩ := asksAll_of_accepts h
    have hbuild := (hasks.buildable hm.buildable).1
    obtain ⟨calls, m', hrun⟩ := accepts_of_buildable hends hbuild (fun _ => true) m
    obtain ⟨c₁, hends₁, -, hmoved⟩ := asksAll_of_accepts hrun
    obtain ⟨j, hj, -, hlost⟩ := hmoved.lost hm hroom
    obtain ⟨code, hcode, -, honce⟩ := (hall _ _ _ hrun).slots j ⟨j, hj, .refl⟩
    have htwo := hlost ⟨code, hcode⟩
    omega
  obtain ⟨hready, hhas⟩ := hm.accepts h hroom
  constructor
  case slots =>
    intro i hi
    obtain ⟨code, hcode⟩ := hhas i hi
    exact ⟨code, hcode, hready.isCode i code hcode, hready.once i ⟨code, hcode⟩⟩
  case targets =>
    obtain ⟨c₀, hends, hover, -⟩ := asksAll_of_accepts h
    have hcode : c.code = c₀.code := by rw [hover]; rfl
    rw [hcode]
    exact hready.targets hends fun j hj => hhas j ⟨j, hj, .refl⟩
  case calleeTargets =>
    intro i g code hi hg hslot
    obtain ⟨-, g', hg', moves', calls', m', c', hcompiled, hbytes⟩ := hready.isCode i code hslot
    cases hg.symm.trans hg'
    obtain ⟨c₀, hends, hover, -⟩ := asksAll_of_accepts hcompiled
    have hcode : code.bytes = c₀.code := by rw [← hbytes, hover]; rfl
    rw [hcode]
    exact hready.targets hends fun j hj => hready.closed i j (hhas i hi) ⟨g, hg, hj⟩

end Main

/-- A function that calls function `8` of the context. -/
def callsEighth : Func :=
  ⟨⟨[], []⟩, [{ kind := .int }, { kind := .byte }], [.basic ⟨0, 1⟩], [⟨.call, 8⟩], []⟩

/-- Function `0` calls function `8`. -/
def farCallee : Context :=
  ⟨callsEighth :: List.replicate 8 callsNothing, []⟩

/-- While function `0` is compiled, the table grows for function `8`, and the code of function `0`
goes to the old buffer. -/
theorem farCallee_loses : ¬ ∀ (ctx : Context) (place : Nat → UInt64) (blocks : Nat) (f : Func),
    (∀ i, ¬ Relation.TransGen (CallsIn ctx place blocks) i i) → ∀ moves calls c,
      compileStateAt moves ctx place blocks calls f {} = .ok c → Cached ctx place blocks f c := by
  intro hall
  have heighth : (callsEighth.plan farCallee (fun _ => 0) 1).asks = [8] := by decide
  have hnothing : (callsNothing.plan farCallee (fun _ => 0) 1).asks = [] := by decide
  have hfirst : (callsFirst.plan farCallee (fun _ => 0) 1).asks = [0] := by decide
  have hlt : ∀ i j, CallsIn farCallee (fun _ => 0) 1 i j → i < j := by
    rintro i j ⟨g, hg, hj⟩
    rcases List.mem_cons.mp (List.mem_of_getElem? hg) with rfl | hmem
    · rw [heighth, List.mem_singleton] at hj
      have hi : i < farCallee.funcs.length := (List.getElem?_eq_some_iff.mp hg).1
      have hlength : farCallee.funcs.length = 9 := rfl
      have hne : i ≠ 8 := by
        rintro rfl
        exact absurd hg (by decide)
      omega
    · rw [List.eq_of_mem_replicate hmem, hnothing] at hj
      cases hj
  have hacyclic : ∀ i, ¬ Relation.TransGen (CallsIn farCallee (fun _ => 0) 1) i i := by
    intro i hcycle
    have hii : Relation.TransGen (· < ·) i i :=
      Relation.TransGen.mono hlt i i hcycle
    rw [Relation.transGen_eq_self] at hii
    exact Nat.lt_irrefl i hii
  have hrun : ∃ c, compileStateAt (fun _ => true) farCallee (fun _ => 0) 1 3 callsFirst {} = .ok c ∧
      c.table.slots[0]? = some none := by
    have hends : (compileStateAt (fun _ => true) farCallee (fun _ => 0) 1 3 callsFirst {}).toOption.map
        (fun c => c.table.slots[0]?) = some (some none) := by decide
    cases hc : compileStateAt (fun _ => true) farCallee (fun _ => 0) 1 3 callsFirst {} with
    | ok c =>
        rw [hc] at hends
        exact ⟨c, rfl, Option.some.inj hends⟩
    | error m =>
        rw [hc] at hends
        cases hends
  obtain ⟨c, hc, hempty⟩ := hrun
  obtain ⟨code, hcode, -⟩ := (hall _ _ _ _ hacyclic _ _ _ hc).slots 0 ⟨0, by simp [hfirst], .refl⟩
  cases hempty.symm.trans hcode

/-- Calls function `1` twice, and function `0` in between. -/
def callsBoth : Func :=
  ⟨⟨[], []⟩, [{ kind := .int }, { kind := .byte }], [.basic ⟨0, 3⟩],
    [⟨.call, 1⟩, ⟨.call, 0⟩, ⟨.call, 1⟩], []⟩

/-- Function `1` calls function `0`. -/
def nearCallee : Context :=
  ⟨[callsNothing, callsFirst], []⟩

/-- The code of different functions stands at different addresses. -/
def nearPlace (i : Nat) : UInt64 :=
  4096 * (UInt64.ofNat i + 1)

theorem cached_iff_callsBoth : nearPlace 0 ≠ nearPlace 1 ∧ ∃ c,
    compileStateAt (fun _ => true) nearCallee nearPlace 1 3 callsBoth {} = .ok c ∧
      Cached nearCallee nearPlace 1 callsBoth c := by
  have hboth : (callsBoth.plan nearCallee nearPlace 1).asks = [1, 0, 1] := by decide
  have hfirst : (callsFirst.plan nearCallee nearPlace 1).asks = [0] := by decide
  have hnone : (callsNothing.plan nearCallee nearPlace 1).asks = [] := by decide
  obtain ⟨c, hc⟩ : ∃ c, compileStateAt (fun _ => true) nearCallee nearPlace 1 3 callsBoth {} = .ok c := by
    have hends : (compileStateAt (fun _ => true) nearCallee nearPlace 1 3 callsBoth
        {}).toOption.isSome = true := by decide
    cases hrun : compileStateAt (fun _ => true) nearCallee nearPlace 1 3 callsBoth {} with
    | ok c => exact ⟨c, rfl⟩
    | error m =>
        rw [hrun] at hends
        cases hends
  have hstep : ∀ i j, CallsIn nearCallee nearPlace 1 i j → i = 1 ∧ j = 0 := by
    rintro i j ⟨g, hg, hj⟩
    rcases i with _ | _ | i
    · cases hg
      rw [hnone] at hj
      cases hj
    · cases hg
      rw [hfirst] at hj
      exact ⟨rfl, List.mem_singleton.mp hj⟩
    · cases hg
  have hleads : ∀ {i j}, LeadsTo nearCallee nearPlace 1 i j → j = i ∨ j = 0 := by
    intro i j h
    induction h with
    | refl => exact .inl rfl
    | tail _ hlast _ => exact .inr (hstep _ _ hlast).2
  have hroomy : Roomy nearCallee nearPlace 1 (callsBoth.plan nearCallee nearPlace 1).asks 0 := by
    rw [hboth]
    have hlt : ∀ (cap : Nat) {i j : Nat}, LeadsTo nearCallee nearPlace 1 i j → j < capFor cap i := by
      intro cap i j h
      rcases hleads h with rfl | rfl
      · exact lt_capFor _ _
      · exact Nat.lt_of_le_of_lt (Nat.zero_le i) (lt_capFor cap i)
    exact ⟨fun _ => hlt _, fun _ => hlt _, fun _ => hlt _, trivial⟩
  exact ⟨by decide, c, hc, (cached_iff CodeTable.ready_empty ⟨_, _, c, hc⟩).mpr hroomy _ _ c hc⟩

end TreeVM
