import TreeVM.Compile.Outline

/-!
# Code that is laid out

Jump targets of any code size: a part of the compiler takes an output with open placeholders to
one with others, and every placeholder that it closes gets the target it is meant to have.

* `Jumps`: which operand is meant to be which offset, given the ends of the open scopes;
* `Agrees`: what the final code says about an output in the middle of the compilation;
* `LaidOut`: a part that keeps to its `Jumps`; parts are put together by `LaidOut.trans`.
-/

namespace TreeVM

/-- Jumps back to the start of a loop, and all others. -/
inductive Edge
  | back
  | forward
  deriving DecidableEq, Repr

/-- `J ends edge p t`: the operand at `p` is meant to be the offset `t`. -/
abbrev Jumps := List Nat → Edge → Nat → Nat → Prop

namespace Jumps

def none : Jumps := fun _ _ _ _ => False

def one (edge : Edge) (p t : Nat) : Jumps := fun _ edge' p' t' => edge' = edge ∧ p' = p ∧ t' = t

def or (J J' : Jumps) : Jumps := fun ends edge p t => J ends edge p t ∨ J' ends edge p t

/-- The jumps of the inside of a scope. -/
def inside (J : Jumps) (stop : Nat) : Jumps := fun ends => J (stop :: ends)

end Jumps

/-- The positions of the jump targets in the instruction with this opcode. -/
def targetsOf (opcode : UInt8) : List Nat :=
  if opcode = 18 then [1] else if opcode = 20 then [1, 3] else if opcode = 21 then [1] else []

theorem targetsOf_opcode (i : Instr) : targetsOf (UInt8.ofNat i.opcode) = i.targetsAt := by
  cases i with
  | binary op =>
      cases op with
      | arith op => cases op <;> rfl
      | _ => rfl
  | unary op => cases op <;> rfl
  | _ => rfl

theorem Instr.targetsAt_inside (i : Instr) :
    ∀ d ∈ i.targetsAt, 0 < d ∧ d + 2 ≤ (encode i).length := by
  cases i <;> simp [Instr.targetsAt, encode, Instr.operands, encodeOperands]

theorem Instr.targetsAt_apart (i : Instr) : i.targetsAt.Pairwise (Apart 2) := by
  cases i <;> simp [Instr.targetsAt, Apart]

/-- The final code agrees with the output up to the open placeholders, and the jumps out of an
open scope have its end as their target. -/
structure Agrees (K : Nat → UInt8) (ends holes : List Nat) (x : Output) : Prop where
  agree : AtExcept 2 (holes ++ x.pending) K x.code
  targets : List.Forall₂ (fun (s : Scope) e => ∀ p ∈ s.patches, At K p (bytesOf 2 e) ∧ e ≤ 65535)
    x.scopes ends

/-- The part from `x`, where the placeholders `hs` are open, to `x'`, where `hs'` are. -/
structure LaidOut (J : Jumps) (hs : List Nat) (x : Output) (hs' : List Nat) (x' : Output) : Prop where
  tidy : ∀ {holes}, Tidy (hs ++ holes) x → Tidy (hs' ++ holes) x'
  held : ∀ {K ends holes}, Tidy (hs ++ holes) x → Agrees K ends (hs' ++ holes) x' →
    Agrees K ends (hs ++ holes) x
  exact : ∀ {K ends holes}, Tidy (hs ++ holes) x → Agrees K ends (hs' ++ holes) x' →
    ∀ edge p t, J ends edge p t → At K p (bytesOf 2 t) ∧ (edge = .forward → t ≤ 65535)
  known : ∀ {K ends holes}, Tidy (hs ++ holes) x → Agrees K ends (hs' ++ holes) x' →
    ∀ e ∈ x'.log, e ∈ x.log ∨
      ∀ d ∈ targetsOf (K e.1), e.1 + d ∈ hs' ∨ ∃ edge t, J ends edge (e.1 + d) t
  closed : ∀ ends, ∀ p ∈ hs, p ∈ hs' ∨ ∃ edge t, J ends edge p t
  length_le : x.code.length ≤ x'.code.length

namespace LaidOut

variable {J J' : Jumps} {hs hs₁ hs₂ : List Nat} {x x₁ x₂ : Output}

theorem refl (hs : List Nat) (x : Output) : LaidOut .none hs x hs x where
  tidy ht := ht
  held _ h := h
  exact _ _ _ _ _ h := h.elim
  known _ _ _ he := .inl he
  closed _ _ hp := .inl hp
  length_le := Nat.le_refl _

theorem trans (h : LaidOut J hs x hs₁ x₁) (h' : LaidOut J' hs₁ x₁ hs₂ x₂) :
    LaidOut (J.or J') hs x hs₂ x₂ where
  tidy ht := h'.tidy (h.tidy ht)
  held ht hK := h.held ht (h'.held (h.tidy ht) hK)
  exact ht hK edge p t hj := by
    rcases hj with hj | hj
    · exact h.exact ht (h'.held (h.tidy ht) hK) edge p t hj
    · exact h'.exact (h.tidy ht) hK edge p t hj
  known {K ends holes} ht hK e he := by
    rcases h'.known (h.tidy ht) hK e he with he | hnew
    · refine (h.known ht (h'.held (h.tidy ht) hK) e he).imp_right fun hnew d hd => ?_
      rcases hnew d hd with hopen | ⟨edge, t, hj⟩
      · rcases h'.closed ends _ hopen with hopen | ⟨edge, t, hj⟩
        · exact .inl hopen
        · exact .inr ⟨edge, t, .inr hj⟩
      · exact .inr ⟨edge, t, .inl hj⟩
    · refine .inr fun d hd => ?_
      rcases hnew d hd with hopen | ⟨edge, t, hj⟩
      · exact .inl hopen
      · exact .inr ⟨edge, t, .inr hj⟩
  closed ends p hp := by
    rcases h.closed ends p hp with hp | ⟨edge, t, hj⟩
    · rcases h'.closed ends p hp with hp | ⟨edge, t, hj⟩
      · exact .inl hp
      · exact .inr ⟨edge, t, .inr hj⟩
    · exact .inr ⟨edge, t, .inl hj⟩
  length_le := Nat.le_trans h.length_le h'.length_le

/-- Other names for the same jumps. -/
theorem congr (h : LaidOut J hs x hs₁ x₁)
    (hiff : ∀ ends edge p t, J ends edge p t ↔ J' ends edge p t) : LaidOut J' hs x hs₁ x₁ := by
  have hJ : J = J' := by
    funext ends edge p t
    exact propext (hiff ends edge p t)
  exact hJ ▸ h

/-- Placeholders that are not touched. -/
theorem frame (h : LaidOut J [] x [] x₁) (hs : List Nat) : LaidOut J hs x hs x₁ where
  tidy ht := h.tidy ht
  held ht hK := h.held ht hK
  exact ht hK := h.exact ht hK
  known {K ends holes} ht hK e he := by
    refine (h.known ht hK e he).imp_right fun hnew d hd => ?_
    rcases hnew d hd with hopen | hj
    · cases hopen
    · exact .inr hj
  closed _ _ hp := .inl hp
  length_le := h.length_le

theorem perm {hs' : List Nat} (h : LaidOut J hs x hs₁ x₁) (hperm : hs'.Perm hs₁) :
    LaidOut J hs x hs' x₁ where
  tidy ht := (h.tidy ht).perm (hperm.append_right _)
  held {K ends holes} ht hK := by
    refine h.held ht ⟨hK.agree.mono fun p hp => .inl ?_, hK.targets⟩
    exact (((hperm.append_right holes).append_right x₁.pending).mem_iff).mp hp
  exact {K ends holes} ht hK := by
    refine h.exact ht ⟨hK.agree.mono fun p hp => .inl ?_, hK.targets⟩
    exact (((hperm.append_right holes).append_right x₁.pending).mem_iff).mp hp
  known {K ends holes} ht hK e he := by
    have hK' : Agrees K ends (hs₁ ++ holes) x₁ := ⟨hK.agree.mono fun p hp => .inl
      ((((hperm.append_right holes).append_right x₁.pending).mem_iff).mp hp), hK.targets⟩
    refine (h.known ht hK' e he).imp_right fun hnew d hd => ?_
    exact (hnew d hd).imp_left hperm.mem_iff.mpr
  closed ends p hp := (h.closed ends p hp).imp_left hperm.mem_iff.mpr
  length_le := h.length_le

end LaidOut

/-! ## Emitting instructions -/

section Emit

variable {hs : List Nat} {x x' : Output} {i : Instr} {ps : List Nat}

/-- The opcode of an instruction whose operands may still be open. -/
theorem Agrees.opcode {K : Nat → UInt8} {ends holes : List Nat} (h : Agrees K ends holes x')
    (hcode : x'.code = x.code ++ encode i)
    (hfree : ∀ q ∈ holes ++ x'.pending, q + 2 ≤ x.code.length ∨ x.code.length < q) :
    K x.code.length = UInt8.ofNat i.opcode := by
  have hlen : x.code.length < x'.code.length := by
    rw [hcode, List.length_append]
    have := encode_pos i
    omega
  have hhole : ¬ InHole 2 (holes ++ x'.pending) x.code.length := by
    rintro ⟨q, hq, hqi⟩
    rcases hfree q hq with hq | hq <;> omega
  rw [h.agree _ hlen hhole]
  simp only [hcode]
  rw [List.getElem_append_right (Nat.le_refl _)]
  simp [encode]

/-- An instruction whose targets are placeholders. -/
theorem LaidOut.emit (i : Instr) (hcode : x'.code = x.code ++ encode i)
    (hlog : x'.log = x.log ++ [(x.code.length, ps)]) (hscopes : x'.scopes = x.scopes) :
    LaidOut .none hs x (i.targetsAt.map (x.code.length + ·) ++ hs) x' := by
  have hpending : x'.pending = x.pending := by
    rw [Output.pending, hscopes, Output.pending]
  have hlength : x'.code.length = x.code.length + (encode i).length := by
    rw [hcode, List.length_append]
  have hnew : ∀ q ∈ i.targetsAt.map (x.code.length + ·),
      x.code.length < q ∧ q + 2 ≤ x'.code.length := by
    intro q hq
    obtain ⟨d, hd, rfl⟩ := List.mem_map.mp hq
    have := i.targetsAt_inside d hd
    omega
  refine ⟨fun {holes} ht => ⟨fun q hq => ?_, ?_⟩, fun {K ends holes} ht hK => ⟨?_, ?_⟩,
    fun _ _ _ _ _ h => h.elim, fun {K ends holes} ht hK e he => ?_, fun _ p hp => .inl ?_, by omega⟩
  · rw [hpending, List.append_assoc, List.append_assoc, List.mem_append] at hq
    rcases hq with hq | hq
    · exact (hnew q hq).2
    · rw [← List.append_assoc] at hq
      have := ht.inside q hq
      omega
  · rw [hpending, List.append_assoc, List.append_assoc, List.pairwise_append]
    refine ⟨List.pairwise_map.mpr (i.targetsAt_apart.imp fun h => ?_), ?_, fun p hp q hq => ?_⟩
    · rcases h with h | h
      · exact .inl (by omega)
      · exact .inr (by omega)
    · rw [← List.append_assoc]
      exact ht.apart
    · rw [← List.append_assoc] at hq
      have := (hnew p hp).1
      have := ht.inside q hq
      exact .inr (by omega)
  · have hagree := hK.agree
    rw [hcode] at hagree
    refine hagree.of_append.mono fun p hp => ?_
    rw [hpending, List.append_assoc, List.append_assoc, List.mem_append] at hp
    rcases hp with hp | hp
    · exact .inr (Nat.le_of_lt (hnew p hp).1)
    · rw [← List.append_assoc] at hp
      exact .inl hp
  · rw [← hscopes]
    exact hK.targets
  · rw [hlog, List.mem_append, List.mem_singleton] at he
    refine he.imp_right fun heq d hd => ?_
    subst heq
    have hop := hK.opcode hcode fun q hq => by
      rw [hpending, List.append_assoc, List.append_assoc, List.mem_append] at hq
      rcases hq with hq | hq
      · exact .inr (hnew q hq).1
      · rw [← List.append_assoc] at hq
        exact .inl (ht.inside q hq)
    simp only [hop, targetsOf_opcode] at hd
    exact .inl (List.mem_append_left _ (List.mem_map_of_mem hd))
  · exact List.mem_append_right _ hp

theorem bytesOf_offset (start : Nat) : bytesOf 2 (UInt16.ofNat start).toNat = bytesOf 2 start := by
  have hbytes : ∀ n : Nat, UInt8.ofNat (n % 65536) = UInt8.ofNat n ∧
      UInt8.ofNat (n % 65536 / 256) = UInt8.ofNat (n / 256) := by
    intro n
    constructor
    · rw [← UInt8.toNat_inj]
      simp only [UInt8.toNat_ofNat']
      omega
    · rw [← UInt8.toNat_inj]
      simp only [UInt8.toNat_ofNat']
      omega
  simp [bytesOf, hbytes]

/-- A jump to an offset that is known already. -/
theorem LaidOut.jumpBack {start : Nat} (hcode : x'.code = x.code ++ encode (.jump (UInt16.ofNat start)))
    (hlog : x'.log = x.log ++ [(x.code.length, ps)]) (hscopes : x'.scopes = x.scopes) :
    LaidOut (.one .back (x.code.length + 1) start) hs x hs x' := by
  have hpending : x'.pending = x.pending := by
    rw [Output.pending, hscopes, Output.pending]
  have hat : ∀ {K : Nat → UInt8} {ends holes : List Nat}, Tidy (hs ++ holes) x →
      Agrees K ends (hs ++ holes) x' → At K x.code.length (encode (.jump (UInt16.ofNat start))) := by
    intro K ends holes ht hK
    have hagree := hK.agree
    rw [hcode, hpending] at hagree
    exact hagree.emitted fun p hp => .inl (ht.inside p hp)
  refine ⟨fun {holes} ht => ⟨fun q hq => ?_, ?_⟩, fun {K ends holes} ht hK => ⟨?_, ?_⟩,
    fun {K ends holes} ht hK edge p t hj => ?_, fun {K ends holes} ht hK e he => ?_,
    fun _ _ hp => .inl hp, by simp [hcode]⟩
  · rw [hpending] at hq
    have := ht.inside q hq
    rw [hcode, List.length_append]
    omega
  · rw [hpending]
    exact ht.apart
  · have hagree := hK.agree
    rw [hcode, hpending] at hagree
    exact hagree.of_append
  · rw [← hscopes]
    exact hK.targets
  · obtain ⟨rfl, rfl, rfl⟩ := hj
    obtain ⟨-, hoperand⟩ := hat ht hK
    simp only [Instr.operands, encodeOperands, List.append_nil, bytesOf_offset] at hoperand
    exact ⟨hoperand, by simp⟩
  · rw [hlog, List.mem_append, List.mem_singleton] at he
    refine he.imp_right fun heq d hd => ?_
    subst heq
    rw [(hat ht hK).1, targetsOf_opcode, Instr.targetsAt, List.mem_singleton] at hd
    exact .inr ⟨.back, start, rfl, by rw [hd], rfl⟩

end Emit

/-! ## Closing placeholders -/

section Close

variable {hs : List Nat} {x x' : Output} {J : Jumps} {p t : Nat}

/-- Overwriting never shortens the code. -/
theorem Output.le_length_patch (x : Output) (p t : Nat) :
    x.code.length ≤ (x.patch p t).code.length := by
  simp only [Output.patch, List.length_append, List.length_take, List.length_drop, length_bytesOf]
  omega

theorem Output.le_length_patches (x : Output) (ps : List Nat) (t : Nat) :
    x.code.length ≤ (x.patches t ps).code.length := by
  induction ps generalizing x with
  | nil => exact Nat.le_refl _
  | cons p ps ih => exact Nat.le_trans (x.le_length_patch p t) (ih _)

/-- A placeholder is overwritten. -/
theorem LaidOut.patch (ht : t ≤ 65535) : LaidOut (.one .forward p t) (p :: hs) x hs (x.patch p t) := by
  refine ⟨fun {holes} htidy => ?_, fun {K ends holes} htidy hK => ⟨?_, hK.targets⟩,
    fun {K ends holes} htidy hK edge p' t' hj => ?_, fun _ _ _ he => .inl he, fun _ q hq => ?_,
    x.le_length_patch p t⟩
  · have hp := htidy.inside p (by simp)
    exact (Tidy.tail htidy).patch hp
  · have hp := htidy.inside p (by simp)
    exact hK.agree.before_patch (by simpa using hp) rfl
  · obtain ⟨rfl, rfl, rfl⟩ := hj
    have hp := htidy.inside p' (by simp)
    exact ⟨hK.agree.patched (by simpa using hp) rfl htidy.head, fun _ => ht⟩
  · rcases List.mem_cons.mp hq with rfl | hq
    · exact .inr ⟨.forward, t, rfl, rfl, rfl⟩
    · exact .inl hq

theorem Output.log_patches {ps : List Nat} : (x.patches t ps).log = x.log := by
  induction ps generalizing x with
  | nil => rfl
  | cons p ps ih => exact ih

/-- The output at the end of a scope. -/
theorem finishScope_output {c c' : Compiler} {broken : Bool}
    (h : c.finishScope = .ok (broken, c')) : ∃ s rest, c.scopes = s :: rest ∧
      (s.patches ≠ [] → c.code.length ≤ 65535) ∧
      c'.output = { c.output.patches c.code.length s.patches with scopes := rest } := by
  simp only [Compiler.finishScope, Compiler.fail] at h
  split at h
  · cases h
  · rename_i s rest hscopes
    obtain ⟨c₁, hpatch, h⟩ := bind_eq_ok.mp h
    obtain ⟨hsmall, rfl⟩ := patchAll_eq_ok hpatch
    cases h
    refine ⟨s, rest, hscopes, hsmall, ?_⟩
    have hlog : (c.output.patches c.code.length s.patches).log = c.log := Output.log_patches
    have htable : (c.output.patches c.code.length s.patches).table = c.table :=
      Output.table_patches
    have hrest : ∀ y : Output, y.log = c.log → y.table = c.table →
        (⟨y.code, c.log, rest, c.table⟩ : Output) = { y with scopes := rest } := by
      intro y hlog htable
      rw [← hlog, ← htable]
    exact hrest _ hlog htable

/-- A scope from its start to its end, where its jumps get their target. -/
theorem LaidOut.scope {y : Output} {s₀ s : Scope} {rest : List Scope} (hs₀ : s₀.patches = [])
    (h : LaidOut J [] { x with scopes := s₀ :: x.scopes } [] y) (hy : y.scopes = s :: rest)
    (hsmall : s.patches ≠ [] → y.code.length ≤ 65535) :
    LaidOut (J.inside y.code.length) [] x []
      { y.patches y.code.length s.patches with scopes := rest } := by
  have hpending : y.pending = s.patches ++ rest.flatMap Scope.patches := by
    simp [Output.pending, hy]
  have hstart : ∀ {holes}, Tidy ([] ++ holes) x →
      Tidy ([] ++ holes) { x with scopes := s₀ :: x.scopes } := by
    intro holes ht
    refine ⟨?_, ?_⟩
    · simpa [Output.pending, hs₀] using ht.inside
    · simpa [Output.pending, hs₀] using ht.apart
  have hinside : ∀ {holes}, Tidy ([] ++ holes) y → ∀ p ∈ s.patches, p + 2 ≤ y.code.length := by
    intro holes ht p hp
    exact ht.inside p (by simp [hpending, hp])
  have hy' : ∀ {K ends holes}, Tidy ([] ++ holes) x →
      Agrees K ends ([] ++ holes) { y.patches y.code.length s.patches with scopes := rest } →
      Agrees K (y.code.length :: ends) ([] ++ holes) y := by
    intro K ends holes ht hK
    have hty := h.tidy (hstart ht)
    have hperm : (s.patches ++ (holes ++ rest.flatMap Scope.patches)).Perm
        (holes ++ y.pending) := by
      rw [hpending, ← List.append_assoc, ← List.append_assoc]
      exact List.perm_append_comm.append_right _
    obtain ⟨hagree, hpatched⟩ := AtExcept.patches hK.agree (hinside hty)
      ((List.Perm.pairwise_iff (fun h => h.symm) hperm).mpr hty.apart)
    refine ⟨hagree.mono fun q hq => .inl (hperm.mem_iff.mp hq), ?_⟩
    rw [hy]
    exact .cons (fun p hp => ⟨hpatched p hp, hsmall (List.ne_nil_of_mem hp)⟩) hK.targets
  refine ⟨fun {holes} ht => ?_, fun {K ends holes} ht hK => ?_,
    fun {K ends holes} ht hK edge p t hj => ?_, fun {K ends holes} ht hK e he => ?_,
    fun _ _ hp => (by cases hp), Nat.le_trans h.length_le (y.le_length_patches _ _)⟩
  · have hty := h.tidy (hstart ht)
    have hlength := Output.length_patches (t := y.code.length) (hinside hty)
    have hsub : (holes ++ rest.flatMap Scope.patches).Sublist (holes ++ y.pending) := by
      rw [hpending]
      exact (List.Sublist.refl _).append (List.sublist_append_right _ _)
    refine ⟨fun q hq => ?_, hty.apart.sublist hsub⟩
    have hq := hty.inside q (hsub.subset hq)
    simp only [hlength]
    exact hq
  · have hheld := h.held (hstart ht) (hy' ht hK)
    refine ⟨?_, ?_⟩
    · simpa [Output.pending, hs₀] using hheld.agree
    · cases hheld.targets with
      | cons _ hrest => exact hrest
  · exact h.exact (hstart ht) (hy' ht hK) edge p t hj
  · have he : e ∈ y.log := by
      rw [← Output.log_patches (t := y.code.length)]
      exact he
    exact h.known (hstart ht) (hy' ht hK) e he

end Close

/-! ## Jumps out of scopes -/

/-- The jump of a break to the end of a scope. -/
theorem LaidOut.leave {n : Nat} {s : Scope} {ps hs : List Nat} {x x' : Output}
    (h : BreakJump n s ps x x') :
    LaidOut (fun ends edge p t => edge = .forward ∧ p = x.code.length + 1 ∧ ends[n]? = some t)
      hs x hs x' := by
  have hcode : x'.code = x.code ++ encode (.jump 0) := by rw [h.output]
  have hpending : ∀ holes : List Nat, (holes ++ x'.pending).Perm
      ((x.code.length + 1) :: (holes ++ x.pending)) := fun holes =>
    (h.pending.append_left holes).trans List.perm_middle
  have hop : ∀ {K : Nat → UInt8} {ends holes : List Nat}, Tidy (hs ++ holes) x →
      Agrees K ends (hs ++ holes) x' →
      K x.code.length = UInt8.ofNat (Instr.jump 0).opcode := by
    intro K ends holes ht hK
    refine hK.opcode hcode fun q hq => ?_
    rcases List.mem_cons.mp ((hpending _).mem_iff.mp hq) with rfl | hq
    · exact .inr (Nat.lt_succ_self _)
    · exact .inl (ht.inside q hq)
  -- the scope of the jump, and the end of that scope
  obtain ⟨u, hu, hmem⟩ := mem_addPatchAt (p := x.code.length + 1) h.scope
  have htarget : ∀ {K : Nat → UInt8} {ends holes : List Nat}, Agrees K ends (hs ++ holes) x' →
      ∃ e, ends[n]? = some e ∧ At K (x.code.length + 1) (bytesOf 2 e) ∧ e ≤ 65535 := by
    intro K ends holes hK
    have htargets := hK.targets
    rw [h.output] at htargets
    obtain ⟨e, he, htarget⟩ := forall₂_getElem? htargets hu
    exact ⟨e, he, htarget _ hmem⟩
  refine ⟨fun {holes} ht => ?_, fun {K ends holes} ht hK => ⟨?_, ?_⟩,
    fun {K ends holes} ht hK edge p t hj => ?_, fun {K ends holes} ht hK e he => ?_,
    fun _ _ hp => .inl hp, by simp [hcode]⟩
  · have hemit : LaidOut .none hs x ([x.code.length + 1] ++ hs) { x with
        code := x.code ++ encode (.jump 0), log := x.log ++ [(x.code.length, ps)] } :=
      .emit (.jump 0) rfl rfl rfl
    have hopen := hemit.tidy ht
    refine ⟨fun q hq => ?_, (List.Perm.pairwise_iff (fun h => h.symm) (hpending _)).mpr hopen.apart⟩
    rw [hcode]
    exact hopen.inside q ((hpending _).mem_iff.mp hq)
  · have hagree := hK.agree
    rw [hcode] at hagree
    refine hagree.of_append.mono fun q hq => ?_
    rcases List.mem_cons.mp ((hpending _).mem_iff.mp hq) with rfl | hq
    · exact .inr (Nat.le_succ _)
    · exact .inl hq
  · have htargets := hK.targets
    rw [h.output] at htargets
    exact forall₂_comp (scopes_addPatchAt (Nat.le_succ _)) htargets
      fun _ _ _ hs ht p hp => ht p (hs.1 hp)
  · obtain ⟨rfl, rfl, ht'⟩ := hj
    obtain ⟨e, he, hat, hsmall⟩ := htarget hK
    cases he.symm.trans ht'
    exact ⟨hat, fun _ => hsmall⟩
  · have hlog : x'.log = x.log ++ [(x.code.length, ps)] := by rw [h.output]
    rw [hlog, List.mem_append, List.mem_singleton] at he
    refine he.imp_right fun heq d hd => ?_
    subst heq
    simp only [hop ht hK, targetsOf_opcode, Instr.targetsAt, List.mem_singleton] at hd
    obtain ⟨e, he, -⟩ := htarget hK
    exact .inr ⟨.forward, e, rfl, by rw [hd], he⟩

end TreeVM
