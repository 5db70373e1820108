import TreeVM.Compile.Flow

/-!
# Programs

* `Program`: a function that was compiled, with the callees that were compiled before it and on
  the way, and where the code of each stands;
* `Accepted`, `Loaded`, `Short`: what compiling, installing and the width of jumps ask for;
* `Program.code_of`: the code of each function of the program has the shape of compiled code.
-/

namespace TreeVM

structure Program where
  ctx : Context
  place : Nat → UInt64
  func : Func
  start : UInt64
  fuel : Nat
  before : Table
  code : Code
  table : Table

namespace Program

variable (P : Program)

/-- The compiler accepts the function.  Callees may have been compiled before. -/
structure Accepted : Prop where
  before : Grows P.ctx P.place [] P.before
  compiled : compileFunc P.ctx P.place P.fuel P.func P.before = .ok (P.code, P.table)

/-- `bytes` is the code of the function `f`, and it belongs at `base`. -/
inductive Has : Nat → Func → Code → Prop
  | main : Has P.start.toNat P.func P.code
  | callee {i f bytes} : P.ctx.funcs[i]? = some f → P.table[i]? = some (some bytes) →
      Has (P.place i).toNat f bytes

/-- The code stands where it belongs; objects neither begin at null nor wrap around. -/
structure Loaded (code : Nat → UInt8) : Prop where
  stands : ∀ base f bytes, P.Has base f bytes → At code base bytes
  inside : ∀ base f bytes, P.Has base f bytes → 0 < base ∧ base + bytes.length < 2 ^ 64

/-- Offsets in the code fit the operands of jumps. -/
def Short : Prop :=
  ∀ base f bytes, P.Has base f bytes → bytes.length ≤ 65535

/-- The code at `base`, with what the compiler recorded for it. -/
def image (code : Nat → UInt8) (base : Nat) (f : Func) (bytes : Code) : Image where
  code o := code (base + o)
  temps := Recorded P.ctx P.place f bytes
  ready := P.table.Has

variable {P}

theorem at_shift {code : Nat → UInt8} {base o : Nat} {bs : List UInt8} :
    At (fun o => code (base + o)) o bs ↔ At code (base + o) bs := by
  induction bs generalizing o with
  | nil => exact Iff.rfl
  | cons b bs ih => rw [At.cons, At.cons, ih, Nat.add_assoc]

/-- Each function of the program was accepted, and so were its callees. -/
theorem compiled_of_has (hP : P.Accepted) {base : Nat} {f : Func} {bytes : Code}
    (h : P.Has base f bytes) : ∃ fuel t t', compileFunc P.ctx P.place fuel f t = .ok (bytes, t') ∧
      ∀ i, t'.Has i → P.table.Has i := by
  cases h with
  | main => exact ⟨P.fuel, P.before, P.table, hP.compiled, fun _ hi => hi⟩
  | @callee i f bytes hf hbytes =>
      obtain ⟨c, hc, hresult⟩ := map_eq_ok.mp hP.compiled
      obtain ⟨-, htable⟩ := Prod.mk.inj hresult
      have hgrows := hP.before.trans (compileState_sound hc).grows
      rw [htable] at hgrows
      rcases hgrows.entry i bytes hbytes with hnil | ⟨fuel, f', t, t', hf', hcode, hcallees⟩
      · cases hnil
      · rw [hf] at hf'
        cases hf'
        exact ⟨fuel, t, t', hcode, hcallees⟩

theorem code_of (hP : P.Accepted) {code : Nat → UInt8} (hload : P.Loaded code) (hshort : P.Short)
    {base : Nat} {f : Func} {bytes : Code} (h : P.Has base f bytes) :
    CodeOf P.ctx P.place f (P.image code base f bytes) := by
  obtain ⟨fuel, t, t', hcompile, hcallees⟩ := compiled_of_has hP h
  obtain ⟨c, hc, hresult⟩ := map_eq_ok.mp hcompile
  obtain ⟨rfl, rfl⟩ := Prod.mk.inj hresult
  refine (compileState_sound hc).code (hshort _ _ _ h) ?_ (fun e he => ?_) hcallees
  · exact at_shift.mpr (hload.stands _ _ _ h)
  · exact ⟨fuel, t, c, hc, rfl, he⟩

/-! ## Programs that are compiled and loaded by evaluation -/

/-- The functions of the program with their code, as a list. -/
def entries (P : Program) : List (Nat × Func × Code) :=
  (P.start.toNat, P.func, P.code) :: (List.range P.ctx.funcs.length).filterMap fun i =>
    match P.ctx.funcs[i]?, P.table[i]? with
    | some f, some (some bytes) => some ((P.place i).toNat, f, bytes)
    | _, _ => none

theorem mem_entries {base : Nat} {f : Func} {bytes : Code} (h : P.Has base f bytes) :
    (base, f, bytes) ∈ P.entries := by
  cases h with
  | main => exact List.mem_cons_self
  | @callee i f bytes hf hbytes =>
      refine List.mem_cons_of_mem _ (List.mem_filterMap.mpr ⟨i, ?_, ?_⟩)
      · exact List.mem_range.mpr (List.getElem?_eq_some_iff.mp hf).1
      · simp only [hf, hbytes]

/-- The function is compiled with no callee compiled before, and stands at 5000; function `i` of
the context stands at `10000 + 1000 * i`. -/
def assemble (ctx : Context) (fuel : Nat) (f : Func) : Program :=
  let place := fun i => UInt64.ofNat (10000 + 1000 * i)
  let result := match compileFunc ctx place fuel f [] with
    | .ok x => x
    | .error t => ([], t)
  ⟨ctx, place, f, 5000, fuel, [], result.1, result.2⟩

/-- The memory with the code of `assemble`. -/
def memory (P : Program) (x : Nat) : UInt8 :=
  match P.entries.find? fun e => e.1 ≤ x ∧ x < e.1 + e.2.2.length with
  | some e => e.2.2.getD (x - e.1) 255
  | none => 255

theorem assemble_accepted {ctx : Context} {fuel : Nat} {f : Func}
    (h : (compileFunc ctx (assemble ctx fuel f).place fuel f []).isOk = true) :
    (assemble ctx fuel f).Accepted where
  before := Grows.refl []
  compiled := by
    show compileFunc ctx (assemble ctx fuel f).place fuel f [] = _
    simp only [assemble] at h ⊢
    split
    · rename_i hok
      rw [hok]
    · rename_i herror
      rw [herror] at h
      cases h

theorem loaded_of_entries {code : Nat → UInt8}
    (h : ∀ e ∈ P.entries, At code e.1 e.2.2 ∧ 0 < e.1 ∧ e.1 + e.2.2.length < 2 ^ 64) :
    P.Loaded code :=
  ⟨fun _ _ _ hhas => (h _ (mem_entries hhas)).1, fun _ _ _ hhas => (h _ (mem_entries hhas)).2⟩

theorem short_of_entries (h : ∀ e ∈ P.entries, e.2.2.length ≤ 65535) : P.Short :=
  fun _ _ _ hhas => h _ (mem_entries hhas)

end Program

end TreeVM
