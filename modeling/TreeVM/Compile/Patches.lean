import TreeVM.Compile.OpSound

/-!
# Placeholders and their patches

How the output changes when a placeholder is opened, patched, or handed to a scope, and what the
final code then says about the placeholder.

* `Appends.opens`: a placeholder in new code does not overlap the open ones;
* `patched`: patching keeps the length and closes one hole;
* `endScope_sound`: all placeholders of a scope get its end;
* `Appends.opcode`: the opcode in front of a placeholder is final.
-/

namespace TreeVM

variable {env : CompileEnv} {I : Image} {K : Nat → UInt8} {scopes : List ScopeAt}
  {holes : List Nat} {x x' x₀ : Output} {p t : Nat}

namespace Tidy

theorem perm {holes' : List Nat} (h : Tidy holes x) (hperm : holes'.Perm holes) :
    Tidy holes' x where
  inside q hq := h.inside q ((hperm.append_right _).mem_iff.mp hq)
  apart := (List.Perm.pairwise_iff (fun h => h.symm) (hperm.append_right _)).mpr h.apart

theorem tail (h : Tidy (p :: holes) x) : Tidy holes x where
  inside q hq := h.inside q (List.mem_cons_of_mem _ hq)
  apart := (List.pairwise_cons.mp h.apart).2

/-- The hole at the head overlaps no other. -/
theorem head (h : Tidy (p :: holes) x) : ∀ q ∈ holes ++ x.pending, Apart 2 p q :=
  (List.pairwise_cons.mp h.apart).1

theorem nil (h : Tidy holes x) : Tidy [] x where
  inside q hq := h.inside q (List.mem_append_right _ hq)
  apart := (List.pairwise_append.mp h.apart).2.1

end Tidy

theorem Tidy.cons (h : Tidy holes x) (hp : p + 2 ≤ x.code.length)
    (hapart : ∀ q ∈ holes ++ x.pending, Apart 2 p q) : Tidy (p :: holes) x where
  inside q hq := by
    rcases List.mem_cons.mp hq with rfl | hq
    · exact hp
    · exact h.inside q hq
  apart := List.pairwise_cons.mpr ⟨hapart, h.apart⟩

/-! ## Opening a placeholder -/

/-- A placeholder in new code. -/
theorem Appends.opens {bs : List UInt8} (h : Appends env x bs x') (ht : Tidy holes x)
    (hlow : x.code.length ≤ p) (hhigh : p + 2 ≤ x'.code.length) : Tidy (p :: holes) x' := by
  refine (h.tidy ht).cons hhigh fun q hq => ?_
  rw [h.pending] at hq
  have := ht.inside q hq
  exact .inr (by omega)

/-- Holes behind the code do not matter to it. -/
theorem FitsImage.mono {holes' : List Nat} (h : FitsImage env I scopes holes x)
    (hsub : ∀ q ∈ holes, q ∈ holes' ∨ x.code.length ≤ q) :
    FitsImage env I scopes holes' x where
  agree := h.agree.mono fun q hq => by
    rcases List.mem_append.mp hq with hq | hq
    · rcases hsub q hq with hq | hq
      · exact .inl (List.mem_append_left _ hq)
      · exact .inr hq
    · exact .inl (List.mem_append_right _ hq)
  log := h.log
  targets := h.targets
  ready := h.ready
  small := h.small

/-- The opcode of an instruction whose operands are still open. -/
theorem Appends.opcode {holes' : List Nat} {i : Instr} (h : Appends env x (encode i) x')
    (ht : Tidy holes x) (hagree : AtExcept 2 holes' K x'.code)
    (hholes : ∀ q ∈ holes', q ∈ holes ++ x.pending ∨ x.code.length < q) :
    K x.code.length = UInt8.ofNat i.opcode := by
  have hlen : x.code.length < x'.code.length := by
    rw [h.code, List.length_append]
    have := encode_pos i
    omega
  have hfree : ¬ InHole 2 holes' x.code.length := by
    rintro ⟨q, hq, hqi⟩
    rcases hholes q hq with hq | hq
    · have := ht.inside q hq
      omega
    · omega
  rw [hagree _ hlen hfree]
  simp only [h.code]
  rw [List.getElem_append_right (Nat.le_refl _)]
  simp [encode]

/-! ## Patching -/

/-- The output with two bytes overwritten. -/
def Output.patch (x : Output) (p t : Nat) : Output :=
  { x with code := x.code.take p ++ bytesOf 2 t ++ x.code.drop (p + 2) }

theorem patch_eq_ok {c c' : Compiler} (h : c.patch p t = .ok c') :
    t ≤ 65535 ∧ c' = { c with code := (c.output.patch p t).code } := by
  simp only [Compiler.patch, Compiler.fail] at h
  split at h
  · cases h
  · cases h
    exact ⟨by omega, rfl⟩

section Patch

variable (hp : p + 2 ≤ x.code.length)
include hp

theorem Output.length_patch : (x.patch p t).code.length = x.code.length := by
  simp [patch]
  omega

theorem Tidy.patch (ht : Tidy holes x) : Tidy holes (x.patch p t) where
  inside q hq := by
    rw [Output.length_patch hp]
    exact ht.inside q hq
  apart := ht.apart

/-- Only code behind `x₀` is overwritten. -/
theorem Extends.patch (h : Extends env x₀ x) (hlow : x₀.code.length ≤ p) :
    Extends env x₀ (x.patch p t) where
  code := by
    have hcode := h.code
    refine List.IsPrefix.trans ?_ (List.prefix_append_of_prefix
      (List.prefix_append_of_prefix List.prefix_rfl))
    exact List.prefix_take_iff.mpr ⟨hcode, hlow⟩
  scopes := h.scopes
  tidy _ ht := (h.tidy _ ht).patch hp
  log := h.log
  table := h.table

theorem FitsImage.patch (h : FitsImage env I scopes holes (x.patch p t)) :
    FitsImage env I scopes (p :: holes) x where
  agree := h.agree.before_patch (by simpa using hp) rfl
  log := h.log
  targets := h.targets
  ready := h.ready
  small := by
    rw [← Output.length_patch hp]
    exact h.small

omit hp in
/-- The final code holds the target. -/
theorem FitsImage.patched (h : FitsImage env I scopes holes (x.patch p t))
    (ht : Tidy (p :: holes) x) : At I.code p (bytesOf 2 t) :=
  h.agree.patched (by simpa using ht.inside p (by simp)) rfl ht.head

end Patch

/-! ## The end of a scope -/

/-- The output after all placeholders in a list were overwritten. -/
def Output.patches (t : Nat) : List Nat → Output → Output
  | [], x => x
  | p :: ps, x => (x.patch p t).patches t ps

theorem patchAll_eq_ok {ps : List Nat} {c c' : Compiler} (h : c.patchAll t ps = .ok c') :
    (ps ≠ [] → t ≤ 65535) ∧ c' = { c with code := (c.output.patches t ps).code } := by
  induction ps generalizing c with
  | nil =>
      cases h
      exact ⟨by simp, rfl⟩
  | cons p ps ih =>
      obtain ⟨c₁, hpatch, hrest⟩ := bind_eq_ok.mp h
      obtain ⟨ht, rfl⟩ := patch_eq_ok hpatch
      obtain ⟨-, rfl⟩ := ih hrest
      exact ⟨fun _ => ht, rfl⟩

section Patches

variable {ps : List Nat}

theorem Output.scopes_patches : (x.patches t ps).scopes = x.scopes := by
  induction ps generalizing x with
  | nil => rfl
  | cons p ps ih => exact ih

theorem Output.table_patches : (x.patches t ps).table = x.table := by
  induction ps generalizing x with
  | nil => rfl
  | cons p ps ih => exact ih

theorem Output.length_patches (hps : ∀ p ∈ ps, p + 2 ≤ x.code.length) :
    (x.patches t ps).code.length = x.code.length := by
  induction ps generalizing x with
  | nil => rfl
  | cons p ps ih =>
      have hp := length_patch (t := t) (hps p (by simp))
      rw [patches, ih, hp]
      intro q hq
      rw [hp]
      exact hps q (by simp [hq])

theorem Extends.patches (h : Extends env x₀ x) (hps : ∀ p ∈ ps, p + 2 ≤ x.code.length)
    (hlow : ∀ p ∈ ps, x₀.code.length ≤ p) : Extends env x₀ (x.patches t ps) := by
  induction ps generalizing x with
  | nil => exact h
  | cons p ps ih =>
      refine ih (h.patch (hps p (by simp)) (hlow p (by simp))) (fun q hq => ?_)
        fun q hq => hlow q (by simp [hq])
      rw [Output.length_patch (hps p (by simp))]
      exact hps q (by simp [hq])

theorem AtExcept.patches (h : AtExcept 2 holes K (x.patches t ps).code)
    (hps : ∀ p ∈ ps, p + 2 ≤ x.code.length) (hapart : (ps ++ holes).Pairwise (Apart 2)) :
    AtExcept 2 (ps ++ holes) K x.code ∧ ∀ p ∈ ps, At K p (bytesOf 2 t) := by
  induction ps generalizing x with
  | nil => exact ⟨h, by simp⟩
  | cons p ps ih =>
      have hp : p + 2 ≤ x.code.length := hps p (by simp)
      obtain ⟨hhead, htail⟩ := List.pairwise_cons.mp hapart
      obtain ⟨hagree, hrest⟩ := ih h (fun q hq => by
        rw [Output.length_patch hp]
        exact hps q (by simp [hq])) htail
      refine ⟨hagree.before_patch (by simpa using hp) rfl, fun q hq => ?_⟩
      rcases List.mem_cons.mp hq with rfl | hq
      · exact hagree.patched (by simpa using hp) rfl hhead
      · exact hrest q hq

end Patches

/-- The offset behind the innermost scope, if something jumps there. -/
def Compiler.endTarget (c : Compiler) : Option Nat :=
  if (c.scopes.head?.map Scope.patches).getD [] = [] then none else some c.code.length

/-- What the end of a scope does, and what it says about the state before. -/
structure EndsScope (env : CompileEnv) (r : Reach) (c : Compiler) (r' : Reach) (c' : Compiler) :
    Prop where
  reach : r' = r.orBreaks c.endTarget
  state : c' = { c with code := c'.code, scopes := c'.scopes }
  scopes : c'.scopes = c.scopes.tail
  length : c'.code.length = c.code.length
  grows : ∀ {x : Output} {s : Scope}, s.patches = [] →
    Extends env { x with scopes := s :: x.scopes } c.output → Extends env x c'.output
  fits : ∀ {I scopes holes} {s : ScopeAt}, s.target = c.endTarget →
    Tidy holes c.output → FitsImage env I scopes holes c'.output →
    FitsImage env I (s :: scopes) holes c.output

theorem endScope_sound (env : CompileEnv) {r r' : Reach} {c c' : Compiler} {s : Scope} {rest : List Scope}
    (hscopes : c.scopes = s :: rest) (ht : Tidy [] c.output) (h : endScope r c = .ok (r', c')) :
    EndsScope env r c r' c' := by
  obtain ⟨⟨hadBreaks, c₁⟩, hfinish, h⟩ := bind_eq_ok.mp h
  simp only [Compiler.finishScope, hscopes] at hfinish
  obtain ⟨c₂, hpatches, hfinish⟩ := bind_eq_ok.mp hfinish
  obtain ⟨hsmall, rfl⟩ := patchAll_eq_ok hpatches
  cases hfinish
  cases h
  have hpending : c.output.pending = s.patches ++ rest.flatMap Scope.patches := by
    simp [Output.pending, Compiler.output, hscopes]
  have hinside : ∀ p ∈ s.patches, p + 2 ≤ c.output.code.length := by
    intro p hp
    exact ht.inside p (by simp [hpending, hp])
  have hlength := Output.length_patches (x := c.output) (t := c.code.length) hinside
  refine ⟨?_, rfl, by simp [hscopes], hlength, ?_, ?_⟩
  · by_cases hs : s.patches = [] <;> simp [Compiler.endTarget, Reach.orBreaks, hscopes, hs]
  · intro x s₀ hs₀ hext
    have hfirst := hext.scopes
    simp only [Compiler.output, hscopes] at hfirst
    cases hfirst with
    | cons hs hrest =>
        have hlow : ∀ p ∈ s.patches, x.code.length ≤ p := by
          intro p hp
          rcases hs.2 p hp with hp | hp
          · simp [hs₀] at hp
          · exact hp
        have hpatched := hext.patches (t := c.code.length) hinside hlow
        refine ⟨hpatched.code, hrest, fun holes htx => ?_, hext.log, ?_⟩
        · have htx : Tidy holes { x with scopes := s₀ :: x.scopes } := by
            refine ⟨?_, ?_⟩
            · simpa [Output.pending, hs₀] using htx.inside
            · simpa [Output.pending, hs₀] using htx.apart
          have htc := hpatched.tidy holes htx
          have hpend : (c.output.patches c.code.length s.patches).pending =
              s.patches ++ rest.flatMap Scope.patches := by
            simp [Output.pending, Output.scopes_patches, Compiler.output, hscopes]
          refine ⟨fun q hq => htc.inside q ?_, htc.apart.sublist ?_⟩
          · rw [hpend]
            rcases List.mem_append.mp hq with hq | hq
            · exact List.mem_append_left _ hq
            · exact List.mem_append_right _ (List.mem_append_right _ hq)
          · rw [hpend]
            exact (List.Sublist.refl _).append (List.sublist_append_right _ _)
        · have htable := hpatched.table
          rwa [Output.table_patches] at htable
  · intro I scopes holes s' hs' htc hfits
    have hperm : (s.patches ++ (holes ++ rest.flatMap Scope.patches)).Perm
        (holes ++ c.output.pending) := by
      rw [hpending, ← List.append_assoc, ← List.append_assoc]
      exact List.perm_append_comm.append_right _
    have hinside : ∀ p ∈ s.patches, p + 2 ≤ c.output.code.length := hinside
    obtain ⟨hagree, hpatched⟩ := AtExcept.patches hfits.agree hinside
      ((List.Perm.pairwise_iff (fun h => h.symm) hperm).mpr htc.apart)
    refine ⟨hagree.mono fun q hq => .inl (hperm.mem_iff.mp hq), hfits.log, ?_, ?_, ?_⟩
    · rw [Compiler.output, hscopes]
      refine .cons (fun p hp => ?_) hfits.targets
      have hne : s.patches ≠ [] := List.ne_nil_of_mem hp
      refine ⟨c.code.length, hsmall hne, ?_, hpatched p hp⟩
      rw [hs', Compiler.endTarget, hscopes]
      exact if_neg hne
    · exact hfits.ready
    · have hlen := hfits.small
      rwa [show c.output.code.length = _ from hlength.symm]

/-! ## Jumps -/

theorem JumpAt.of_operand {o : Nat} (ht : t ≤ 65535) (hlog : I.temps o [])
    (hop : I.code o = UInt8.ofNat (Instr.jump 0).opcode)
    (hp : At I.code (o + 1) (bytesOf 2 t)) : JumpAt I o t := by
  have htarget : (UInt16.ofNat t).toNat = t := by
    simp
    omega
  refine ⟨ht, ⟨hop, ?_⟩, hlog⟩
  simpa [Instr.operands, encodeOperands, htarget] using hp

/-- `scope_add_patch` on the list of scopes. -/
def addPatchAt (n p : Nat) (l : List Scope) : List Scope :=
  l.modify n fun s => { s with patches := s.patches ++ [p] }

theorem pending_addPatchAt {n : Nat} {l : List Scope} (hn : n < l.length) :
    ((addPatchAt n p l).flatMap Scope.patches).Perm (p :: l.flatMap Scope.patches) := by
  induction l generalizing n with
  | nil => simp at hn
  | cons s l ih =>
      cases n with
      | zero =>
          simp only [addPatchAt, List.modify_zero_cons, List.flatMap_cons, List.append_assoc,
            List.singleton_append]
          exact List.perm_middle
      | succ n =>
          have ih := ih (by simpa using hn)
          simp only [addPatchAt, List.modify_succ_cons, List.flatMap_cons] at ih ⊢
          exact (ih.append_left _).trans List.perm_middle

theorem scopes_addPatchAt {n low : Nat} {l : List Scope} (hp : low ≤ p) :
    List.Forall₂ (fun s s' => s.patches ⊆ s'.patches ∧
      ∀ q ∈ s'.patches, q ∈ s.patches ∨ low ≤ q) l (addPatchAt n p l) := by
  have hsame : ∀ l : List Scope, List.Forall₂ (fun s s' => s.patches ⊆ s'.patches ∧
      ∀ q ∈ s'.patches, q ∈ s.patches ∨ low ≤ q) l l := fun l =>
    List.forall₂_same.mpr fun _ _ => ⟨List.Subset.refl _, fun _ hq => .inl hq⟩
  induction l generalizing n with
  | nil => cases n <;> exact .nil
  | cons s l ih =>
      cases n with
      | zero =>
          refine .cons ⟨by simp, fun q hq => ?_⟩ (hsame l)
          rcases List.mem_append.mp hq with hq | hq
          · exact .inl hq
          · rw [List.mem_singleton] at hq
            exact .inr (hq ▸ hp)
      | succ n => exact .cons ⟨List.Subset.refl _, fun _ hq => .inl hq⟩ ih

theorem mem_addPatchAt {n : Nat} {l : List Scope} {s : Scope} (hs : l[n]? = some s) :
    ∃ s', (addPatchAt n p l)[n]? = some s' ∧ p ∈ s'.patches := by
  refine ⟨{ s with patches := s.patches ++ [p] }, ?_, by simp⟩
  simp [addPatchAt, hs]

/-- The jump of a break: its operand goes to the placeholders of the target scope; `ps` are the
temporaries there. -/
structure BreakJump (n : Nat) (s : Scope) (ps : List Nat) (x x' : Output) : Prop where
  scope : x.scopes[n]? = some s
  output : x' = { x with
    code := x.code ++ encode (.jump 0)
    log := x.log ++ [(x.code.length, ps)]
    scopes := addPatchAt n (x.code.length + 1) x.scopes }

namespace BreakJump

variable {n : Nat} {s : Scope} {ps : List Nat}

/-- The output in front of the patch of the scope. -/
theorem appends (env : CompileEnv) (_ : BreakJump n s ps x x') : Appends env x (encode (.jump 0))
    { x with code := x.code ++ encode (.jump 0), log := x.log ++ [(x.code.length, ps)] } :=
  ⟨rfl, rfl, List.subset_append_left _ _, .refl _⟩

theorem pending (h : BreakJump n s ps x x') :
    x'.pending.Perm ((x.code.length + 1) :: x.pending) := by
  rw [h.output]
  exact pending_addPatchAt (List.getElem?_eq_some_iff.mp h.scope).1

theorem length (h : BreakJump n s ps x x') : x'.code.length = x.code.length + 3 := by
  simp [h.output, encode, Instr.operands, encodeOperands]

theorem grows (h : BreakJump n s ps x x') : Extends env x x' where
  code := by
    rw [h.output]
    exact List.prefix_append _ _
  scopes := by
    rw [h.output]
    exact scopes_addPatchAt (Nat.le_succ _)
  tidy holes ht := by
    have hopen := (h.appends env).opens ht (Nat.le_succ x.code.length)
      (by simp [encode, Instr.operands, encodeOperands])
    have hperm := (h.pending.append_left holes).trans List.perm_middle
    refine ⟨fun q hq => ?_, (List.Perm.pairwise_iff (fun h => h.symm) hperm).mpr hopen.apart⟩
    rw [h.output]
    exact hopen.inside q (hperm.mem_iff.mp hq)
  log := by
    rw [h.output]
    exact List.subset_append_left _ _
  table := by
    rw [h.output]
    exact .refl _

theorem jumpAt (h : BreakJump n s [] x x') (ht : Tidy holes x)
    (hfits : FitsImage env I scopes holes x') {s' : ScopeAt} (hs' : scopes[n]? = some s') :
    ∃ t, s'.target = some t ∧ JumpAt I x.code.length t := by
  have hagree := hfits.agree
  have hcode : x'.code = x.code ++ encode (.jump 0) := by rw [h.output]
  rw [hcode] at hagree
  have hop : I.code x.code.length = UInt8.ofNat (Instr.jump 0).opcode := by
    refine (h.appends env).opcode ht hagree fun q hq => ?_
    rcases List.mem_append.mp hq with hq | hq
    · exact .inl (List.mem_append_left _ hq)
    · rcases List.mem_cons.mp (h.pending.mem_iff.mp hq) with rfl | hq
      · exact .inr (Nat.lt_succ_self _)
      · exact .inl (List.mem_append_right _ hq)
  obtain ⟨u, hu, hmem⟩ := mem_addPatchAt (p := x.code.length + 1) h.scope
  have htargets := hfits.targets
  have hlog := hfits.log (x.code.length, []) (by simp [h.output])
  rw [h.output] at htargets
  obtain ⟨v, hv, htarget⟩ := forall₂_getElem? htargets hu
  obtain rfl : s' = v := Option.some.inj (hs'.symm.trans hv)
  obtain ⟨t, ht, htarget, hoperand⟩ := htarget _ hmem
  exact ⟨t, htarget, .of_operand ht hlog hop hoperand⟩

end BreakJump

/-! ## The jump over the other arm -/

/-- The placeholder of the jump behind a reachable arm. -/
def openEnd (r : Reach) (p : Nat) : List Nat :=
  if r = .reachable then [p] else []

/-- A jump behind a reachable arm, its operand still open; `ps` are the temporaries there. -/
structure OpensEnd (env : CompileEnv) (r : Reach) (p : Nat) (ps : List Nat) (x x' : Output) :
    Prop where
  appends : Appends env x (if r = .reachable then encode (.jump 0) else []) x'
  place : r = .reachable → p = x.code.length + 1
  log : r = .reachable → (x.code.length, ps) ∈ x'.log

theorem emitEnd_eq (env : CompileEnv) {r : Reach} {c c' : Compiler}
    (h : (if r = .reachable then emitJump c else (0, c)) = (p, c')) :
    OpensEnd env r p c.params c.output c'.output ∧
      c' = { c with code := c'.code, log := c'.log } := by
  split at h
  · rename_i hr
    cases h
    refine ⟨⟨?_, fun _ => rfl, fun _ => c.mem_log_emit _⟩, rfl⟩
    rw [if_pos hr]
    exact (Emitted.emit env c _).appends
  · rename_i hr
    cases h
    refine ⟨⟨?_, fun h => absurd h hr, fun h => absurd h hr⟩, rfl⟩
    rw [if_neg hr]
    exact ⟨by simp, rfl, List.Subset.refl _, .refl _⟩

namespace OpensEnd

variable {r : Reach} {ps : List Nat}

theorem length (h : OpensEnd env r p ps x x') :
    x'.code.length = x.code.length + if r = .reachable then 3 else 0 := by
  rw [h.appends.code, List.length_append]
  split <;> simp [encode, Instr.operands, encodeOperands]

theorem tidy (h : OpensEnd env r p ps x x') (ht : Tidy holes x) :
    Tidy (openEnd r p ++ holes) x' := by
  have hlen := h.length
  unfold openEnd
  split
  · rename_i hr
    have hp := h.place hr
    rw [if_pos hr] at hlen
    exact h.appends.opens ht (by omega) (by omega)
  · exact h.appends.tidy ht

/-- The finished jump. -/
theorem jumpAt {holes' : List Nat} (h : OpensEnd env r p [] x x') (hr : r = .reachable)
    (ht : Tidy holes x) (hfits : FitsImage env I scopes holes' x')
    (hholes : ∀ q ∈ holes', q ∈ holes ∨ x.code.length < q) (hsmall : t ≤ 65535)
    (hp : At I.code p (bytesOf 2 t)) : JumpAt I x.code.length t := by
  have happ := h.appends
  rw [if_pos hr] at happ
  rw [h.place hr] at hp
  refine .of_operand hsmall (hfits.log _ (h.log hr))
    (happ.opcode ht hfits.agree fun q hq => ?_) hp
  rcases List.mem_append.mp hq with hq | hq
  · rcases hholes q hq with hq | hq
    · exact .inl (List.mem_append_left _ hq)
    · exact .inr hq
  · exact .inl (List.mem_append_right _ (happ.pending ▸ hq))

end OpensEnd

/-- The patch of that jump. -/
structure ClosesEnd (r : Reach) (p : Nat) (x x' : Output) : Prop where
  small : r = .reachable → x.code.length ≤ 65535
  output : x' = if r = .reachable then x.patch p x.code.length else x

theorem patchEnd_eq_ok {r : Reach} {c c' : Compiler}
    (h : (if r = .reachable then c.patch p c.code.length else pure c) = .ok c') :
    ClosesEnd r p c.output c'.output ∧ c' = { c with code := c'.code } := by
  split at h
  · rename_i hr
    obtain ⟨hsmall, rfl⟩ := patch_eq_ok h
    exact ⟨⟨fun _ => hsmall, by rw [if_pos hr]; rfl⟩, rfl⟩
  · rename_i hr
    cases h
    exact ⟨⟨fun h => absurd h hr, by rw [if_neg hr]⟩, rfl⟩

namespace ClosesEnd

variable {r : Reach}

theorem length (h : ClosesEnd r p x x') (ht : Tidy (openEnd r p) x) :
    x'.code.length = x.code.length := by
  rw [h.output]
  split
  · rename_i hr
    exact Output.length_patch (ht.inside p (by simp [openEnd, hr]))
  · rfl

theorem grows (h : ClosesEnd r p x x') (ht : Tidy (openEnd r p) x) (hext : Extends env x₀ x)
    (hlow : r = .reachable → x₀.code.length ≤ p) : Extends env x₀ x' := by
  rw [h.output]
  split
  · rename_i hr
    exact hext.patch (ht.inside p (by simp [openEnd, hr])) (hlow hr)
  · exact hext

theorem fits (h : ClosesEnd r p x x') (ht : Tidy (openEnd r p ++ holes) x)
    (hfits : FitsImage env I scopes holes x') :
    FitsImage env I scopes (openEnd r p ++ holes) x ∧
      (r = .reachable → At I.code p (bytesOf 2 x.code.length)) := by
  rw [h.output] at hfits
  unfold openEnd at ht ⊢
  split at hfits
  · rename_i hr
    rw [if_pos hr] at ht ⊢
    exact ⟨hfits.patch (ht.inside p (by simp)), fun _ => hfits.patched ht⟩
  · rename_i hr
    rw [if_neg hr]
    exact ⟨hfits, fun h => absurd h hr⟩

end ClosesEnd

end TreeVM
