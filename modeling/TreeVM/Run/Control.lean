import TreeVM.Run.Meaning

/-!
# The code between operations on the machine

One lemma for each instruction that a block adds around its operations: where the machine goes on,
and what the direct semantics does meanwhile.

* `Corresponds.jump`, `branchTop`, `discard`, `grow`, `shrink`, `pushCrash`, `popCrash`;
* `Fails.caught`: a soft crash goes on at the handler of the innermost pad.
-/

namespace TreeVM

/-! ## The storage buffer -/

namespace VM

variable {vm vm' : VM} {al : Alloc}

theorem le_doubleUntil {need rounds cap : Nat} (h : need ≤ cap * 2 ^ rounds) :
    need ≤ doubleUntil need rounds cap := by
  induction rounds generalizing cap with
  | zero => simpa [doubleUntil] using h
  | succ rounds ih =>
      rw [doubleUntil]
      split
      · refine ih ?_
        rw [Nat.mul_assoc, ← Nat.pow_succ']
        exact h
      · omega

/-- A buffer that has grown lies in its memory. -/
theorem storageGrow_roomy {amount : Nat} (h : vm.storageGrow al amount = some vm') : vm'.Roomy := by
  simp only [storageGrow, Option.bind_eq_bind, Option.pure_def] at h
  split at h
  · obtain ⟨v, hv, hvm'⟩ := Option.bind_eq_some_iff.mp h
    obtain ⟨data, -, rfl⟩ := Option.map_eq_some_iff.mp hv
    cases hvm'
    refine le_doubleUntil ?_
    have hpow := Nat.lt_two_pow_self (n := vm.storage.len + amount)
    have hcap : 1 ≤ if vm.storage.cap = 0 then 64 else vm.storage.cap := by
      split <;> omega
    exact Nat.le_trans (Nat.le_of_lt hpow) (Nat.le_mul_of_pos_left _ hcap)
  · cases h
    show vm.storage.len + amount ≤ vm.storage.cap
    omega

theorem storageGrow_zero (h : vm.Roomy) : vm.storageGrow al 0 = some vm := by
  have hfits : ¬ vm.storage.cap < vm.storage.len + 0 := Nat.not_lt.mpr h
  have hnothing : ∀ p, writeBytes vm.mem p [] = vm.mem := fun p => funext fun x => by
    simp [writeBytes]
  simp only [storageGrow, Option.bind_eq_bind, Option.pure_def, if_neg hfits, Option.bind_some,
    List.replicate_zero, hnothing]
  rfl

theorem pushReturn_roomy {r : ReturnFrame} (h : vm.pushReturn al r = some vm') : vm'.Roomy := by
  rw [pushReturn] at h
  obtain ⟨v, hv, rfl⟩ := Option.map_eq_some_iff.mp h
  have hroom : v.Roomy := storageGrow_roomy hv
  exact hroom

end VM

section Control

variable {P : Program} {env : Env} {allocs : Nat → Alloc} {H : Direct.Host} {st : Status} {a : Act}
  {Γ : Ctx} {n k : Nat} {s : State} {d : Direct.State} {p : Point}

namespace Corresponds

variable (harrives : Arrives env allocs st n s d) (hc : Corresponds a p s d)

/-- The parameter stack between blocks -/
theorem args (hc : Corresponds a p s d) (htemps : p.temps = []) : s.vm.params = a.args :=
  hc.state.args hc.dropped htemps

include harrives hc

/-! ## Jumps -/

theorem jump {target : Nat} (hat : JumpAt (a.image P env.code) p.pc target) :
    ∃ s', Arrives env allocs st (n + 1) s' d ∧ Corresponds a { p with pc := target } s' d := by
  have hfetch := fetch_of_instrAt hat.2 hc.state.pc
  have hexec : exec env (allocs n)
      { s with pc := a.base + (p.pc + (Instr.jump (UInt16.ofNat target)).size) }
      (.jump (UInt16.ofNat target)) = .next { s with pc := a.base + target } := by
    simp only [exec, toNat_ofNat_uint16 hat.1, hc.state.base]
  exact ⟨_, harrives.next hfetch hexec rfl,
    ⟨hc.state.read target, hc.dropped, hc.room, hc.vm, hc.ans, hc.slots, hc.temps, hc.trouble⟩⟩

theorem branchTop {yes no : Nat} (hyes : yes ≤ 65535) (hno : no ≤ 65535) (htemps : p.temps = [intId])
    (hat : InstrAt (a.image P env.code) p.pc [intId]
      (.branchTop (UInt16.ofNat yes) (UInt16.ofNat no))) :
    ∃ s', Arrives env allocs st (n + 1) s' (Direct.Host.test d).2 ∧
      Corresponds a { p with pc := if (Direct.Host.test d).1 then yes else no, temps := [] } s'
        (Direct.Host.test d).2 := by
  have hfetch := fetch_of_instrAt hat hc.state.pc
  obtain ⟨x, ts, hts, hparams⟩ := hc.pop htemps
  obtain rfl := List.eq_nil_of_length_eq_zero hts
  have htest : Direct.Host.test d = (decide (readInt s.vm.mem x ≠ 0), d.drop 1) := by
    rw [Direct.Host.test, hc.params_eq, hparams, hc.mem_eq]
  have hexec : exec env (allocs n)
      { s with pc := a.base + (p.pc + (Instr.branchTop (UInt16.ofNat yes) (UInt16.ofNat no)).size) }
      (.branchTop (UInt16.ofNat yes) (UInt16.ofNat no)) =
      .next { s with
        pc := a.base + if readInt s.vm.mem x ≠ 0 then yes else no
        vm := { s.vm with params := [] ++ a.args } } := by
    simp only [exec, hparams, hc.state.base, State.withParams, ite_not]
    split
    · rw [toNat_ofNat_uint16 hno]
    · rw [toNat_ofNat_uint16 hyes]
  rw [htest]
  refine ⟨_, harrives.next hfetch hexec rfl, ?_⟩
  simp only [decide_eq_true_eq]
  refine hc.retemp _ [] rfl rfl rfl hc.room rfl ?_ rfl rfl ?_ rfl
  · rw [Direct.State.drop, ← hc.vm]
    show _ = { s.vm.bare with params := List.drop 1 s.vm.params }
    rw [hparams]
    rfl
  · rw [Direct.State.drop, hc.temps, htemps]
    rfl

/-- The end of a basic block -/
theorem discard (hlt : p.temps.length < 2 ^ 32)
    (hat : InstrAt (a.image P env.code) p.pc p.temps (.dropN (UInt32.ofNat p.temps.length))) :
    ∃ s', Arrives env allocs st (n + 1) s' (d.drop p.temps.length) ∧
      Corresponds a { p with pc := p.pc + 5, temps := [] } s' (d.drop p.temps.length) := by
  have hfetch := fetch_of_instrAt hat hc.state.pc
  obtain ⟨temps, hlen, hparams⟩ := hc.params
  have hdrop : s.vm.params.drop p.temps.length = [] ++ a.args := by
    rw [hparams, ← hlen, List.drop_left, List.nil_append]
  have hexec : exec env (allocs n)
      { s with pc := a.base + (p.pc + (Instr.dropN (UInt32.ofNat p.temps.length)).size) }
      (.dropN (UInt32.ofNat p.temps.length)) =
      .next { s with
        pc := a.base + (p.pc + 5)
        vm := { s.vm with params := s.vm.params.drop p.temps.length } } := by
    simp only [exec, toNat_ofNat_uint32 hlt]
    rw [if_neg (by rw [hparams, List.length_append]; omega)]
    rfl
  refine ⟨_, harrives.next hfetch hexec rfl, ?_⟩
  refine hc.retemp _ [] rfl hdrop rfl hc.room rfl ?_ rfl rfl ?_ rfl
  · rw [Direct.State.drop, ← hc.vm]
    rfl
  · rw [Direct.State.drop, hc.temps]
    exact List.drop_length

/-! ## Locals -/

/-- The frame has shrunk to some of the locals. -/
theorem shrink {slots : List Slot} {amount : Int} (hok : SlotsOk a.types p.slots) (hslots : slots <:+ p.slots)
    (hamount : amount = (frameOf a.types slots : Int) - frameOf a.types p.slots)
    (hat : AddAt (a.image P env.code) p.pc amount) :
    ∃ s', Arrives env allocs st (n + 1) s' (d.cut (a.start + frameOf a.types slots) slots) ∧
      Corresponds a { p with pc := p.pc + 3, slots := slots } s'
        (d.cut (a.start + frameOf a.types slots) slots) := by
  obtain ⟨x, hx, hat⟩ := hat
  have hfetch := fetch_of_instrAt hat hc.state.pc
  have hle := frameOf_le_of_suffix hok hslots
  have hlen : s.vm.storage.len = a.start + frameOf a.types p.slots := hc.state.storage
  have hresize : s.vm.storageResize (allocs n) x.toInt =
      some { s.vm with storage := { s.vm.storage with len := a.start + frameOf a.types slots } } := by
    rw [VM.storageResize]
    by_cases hneg : x.toInt < 0
    · have hnew : s.vm.storage.len - (-x.toInt).toNat = a.start + frameOf a.types slots := by omega
      rw [if_pos hneg, if_neg (by omega), hnew]
    · -- locals without bytes
      have hzero : x.toInt = 0 := by omega
      have hsame : s.vm.storage.len = a.start + frameOf a.types slots := by omega
      rw [hzero, if_neg (by omega), ← hsame]
      exact VM.storageGrow_zero hc.room
  have hexec : exec env (allocs n) { s with pc := a.base + (p.pc + (Instr.storageAdd x).size) }
      (.storageAdd x) =
      .next { s with
        pc := a.base + (p.pc + 3)
        vm := { s.vm with
          storage := { s.vm.storage with len := a.start + frameOf a.types slots } } } := by
    simp only [exec, hresize]
    rfl
  have hasks : (Instr.storageAdd x).asks = false := decide_eq_false (by omega)
  refine ⟨_, harrives.next hfetch hexec (by rw [hasks]; rfl), ?_⟩
  obtain ⟨temps, htlen, htparams⟩ := hc.state.params
  refine ⟨⟨rfl, hc.state.base, hc.state.paramBase, rfl, ⟨temps, htlen, htparams⟩, hc.state.crash⟩,
    hc.dropped, ?_, ?_, hc.ans, rfl, hc.temps, hc.trouble⟩
  · have hroom : s.vm.storage.len ≤ s.vm.storage.cap := hc.room
    show a.start + frameOf a.types slots ≤ s.vm.storage.cap
    omega
  · rw [Direct.State.cut, ← hc.vm]
    rfl

/-! ## Pads -/

theorem pushCrash {handler : Nat} (hsmall : handler ≤ 65535) (htemps : p.temps = [])
    (hanswer : (allocs n).crash = true)
    (hat : InstrAt (a.image P env.code) p.pc [] (.pushCrash (UInt16.ofNat handler))) :
    ∃ s', Arrives env allocs st (n + 1) s' d ∧
      Corresponds a { p with pc := p.pc + 3, pads := ⟨handler, p.slots⟩ :: p.pads } s' d := by
  have hfetch := fetch_of_instrAt hat hc.state.pc
  obtain ⟨vm, hvm⟩ : ∃ vm, s.vm.pushCrash (allocs n) (a.base + handler) a.base a.paramBase = some vm := by
    rw [VM.pushCrash]
    simp only [hanswer, if_true]
    split <;> exact ⟨_, rfl⟩
  have hexec : exec env (allocs n)
      { s with pc := a.base + (p.pc + (Instr.pushCrash (UInt16.ofNat handler)).size) }
      (.pushCrash (UInt16.ofNat handler)) = .next { s with pc := a.base + (p.pc + 3), vm := vm } := by
    simp only [exec, hc.state.base, hc.state.paramBase, toNat_ofNat_uint16 hsmall, hvm]
    rfl
  have hguarded := VM.pushCrash_spec hvm
  have hbare : vm.bare = s.vm.bare := by
    rw [VM.pushCrash] at hvm
    simp only [hanswer, if_true] at hvm
    split at hvm <;> cases hvm <;> rfl
  refine ⟨_, harrives.next hfetch hexec rfl, ?_⟩
  obtain ⟨temps, htlen, htparams⟩ := hc.state.params
  refine ⟨⟨rfl, hc.state.base, hc.state.paramBase, ?_, ⟨temps, htlen, ?_⟩, ?_⟩,
    hc.dropped, ?_, hbare.trans hc.vm, hc.ans, hc.slots, hc.temps, hc.trouble⟩
  · show vm.storage.len = _
    rw [hguarded.storage]
    exact hc.state.storage
  · exact hguarded.params.trans htparams
  · show vm.crash = _
    have hlen : s.vm.storage.len = a.start + frameOf a.types p.slots := hc.state.storage
    rw [hguarded.crash, hc.state.crash, hlen, hc.args htemps]
    rfl
  · show vm.storage.len ≤ vm.storage.cap
    rw [hguarded.storage]
    exact hc.room

theorem popCrash {pad : Pad} {pads : List Pad} (hpads : p.pads = pad :: pads)
    (hat : InstrAt (a.image P env.code) p.pc [] .popCrash) :
    ∃ s', Arrives env allocs st (n + 1) s' d ∧
      Corresponds a { p with pc := p.pc + 1, pads := pads } s' d := by
  have hfetch := fetch_of_instrAt hat hc.state.pc
  have hcrash : s.vm.crash = a.frame pad :: (pads.map a.frame ++ a.crash) := by
    rw [hc.state.crash, hpads, List.map_cons, List.cons_append]
  have hexec : exec env (allocs n) { s with pc := a.base + (p.pc + Instr.popCrash.size) } .popCrash =
      .next { s with
        pc := a.base + (p.pc + 1)
        vm := { s.vm with crash := pads.map a.frame ++ a.crash } } := by
    simp only [exec, hcrash]
    rfl
  refine ⟨_, harrives.next hfetch hexec rfl, ?_⟩
  obtain ⟨temps, htlen, htparams⟩ := hc.state.params
  exact ⟨⟨rfl, hc.state.base, hc.state.paramBase, hc.state.storage, ⟨temps, htlen, htparams⟩, rfl⟩,
    hc.dropped, hc.room, hc.vm, hc.ans, hc.slots, hc.temps, hc.trouble⟩

end Corresponds

/-- The pads inside of a scope are popped one after the other. -/
theorem Corresponds.popCrashes {top pads : List Pad} (harrives : Arrives env allocs st n s d)
    (hc : Corresponds a p s d) (hpads : p.pads = top ++ pads)
    (hat : PopsAt (a.image P env.code) p.pc top.length) :
    ∃ s', Arrives env allocs st (n + top.length) s' d ∧
      Corresponds a { p with pc := p.pc + top.length, pads := pads } s' d := by
  induction top generalizing n s p with
  | nil =>
      have hpads : p.pads = pads := hpads
      subst hpads
      exact ⟨s, harrives, hc⟩
  | cons pad top ih =>
      obtain ⟨s₁, harrives₁, hc₁⟩ := hc.popCrash harrives hpads (hat 0 (Nat.zero_lt_succ _))
      have hrest : PopsAt (a.image P env.code) (p.pc + 1) top.length := by
        intro j hj
        have hnext := hat (j + 1) (Nat.succ_lt_succ hj)
        rw [Nat.add_assoc, Nat.add_comm 1 j]
        exact hnext
      obtain ⟨s', harrives', hc'⟩ := ih harrives₁ hc₁ rfl hrest
      refine ⟨s', ?_, ?_⟩
      · rw [List.length_cons, Nat.add_comm top.length 1, ← Nat.add_assoc]
        exact harrives'
      · rw [List.length_cons, Nat.add_comm top.length 1, ← Nat.add_assoc]
        exact hc'

/-! ## Locals that begin -/

theorem enter_tracks (journey : Journey P env allocs H st)
    (htypes : layoutAll a.env.func.types = some a.env.types) {v tid o : Nat} {t : Ty}
    {target : Option Nat} (hvar : a.env.func.vars[v]? = some tid) (htid : a.env.types[tid]? = some t)
    (hat : AddAt (a.image P env.code) o t.size.toNat) (harrives : Arrives env allocs st n s d)
    (hc : Corresponds a (Γ.point o) s d) :
    Tracks env allocs st a Γ n k (Corresponds a ((Γ.local a.types target v tid).point (o + 3)))
      ((H.enter (H.typed a.env.func) a.activation v d).outcome .normal) := by
  obtain ⟨x, hx, hat⟩ := hat
  have hfetch : fetch env.code s.pc = some (.storageAdd x, a.base + (o + 3)) :=
    fetch_of_instrAt (p := Γ.point o) hat hc.state.pc
  have htyped : (H.typed a.env.func).types = a.types := by
    rw [Direct.Host.typed, htypes]
    rfl
  have hslots : d.slots = Γ.slots := hc.slots
  have hvar : a.activation.func.vars[v]? = some tid := hvar
  obtain ⟨size, hsize⟩ : ∃ size, size = stackSize a.types tid := ⟨_, rfl⟩
  have hamount : x.toInt = size := by
    rw [hx, hsize, stackSize, Act.types, htid]
  have hresize : s.vm.storageResize (allocs n) x.toInt = s.vm.storageGrow (allocs n) size := by
    rw [VM.storageResize, hamount, if_neg (by omega), Int.toNat_natCast]
  -- a local without bytes asks for nothing
  have hgrow : d.vm.storageGrow (H.alloc d.asks) size = (s.vm.storageGrow (allocs n) size).map VM.bare := by
    rw [← hc.vm, ← VM.storageGrow_bare]
    by_cases hpos : 0 < size
    · have hasks : (Instr.storageAdd x).asks = true := decide_eq_true (by omega)
      rw [← journey.alloc harrives.run hfetch hasks, harrives.asks]
    · obtain rfl : size = 0 := by omega
      have hroom : s.vm.bare.Roomy := hc.room
      rw [VM.storageGrow_zero hroom, VM.storageGrow_zero hroom]
  have hcount : (if 0 < size then d.asks + 1 else d.asks) =
      d.asks + if (Instr.storageAdd x).asks then 1 else 0 := by
    have hasks : (Instr.storageAdd x).asks = decide (0 < size) := by
      rw [Instr.asks, hamount]
      exact decide_eq_decide.mpr (by omega)
    rw [hasks]
    by_cases hpos : 0 < size <;> simp [hpos]
  rw [Direct.Host.enter, hvar]
  simp only [htyped, ← hsize, hgrow, hslots]
  cases hnew : s.vm.storageGrow (allocs n) size with
  | some vm =>
      have hgrown := VM.storageGrow_spec hnew
      have hexec : exec env (allocs n) { s with pc := a.base + (o + 3) } (.storageAdd x) =
          .next { s with pc := a.base + (o + 3), vm := vm } := by
        simp only [exec, hresize, hnew]
      refine .next harrives hfetch hexec hcount ?_
      obtain ⟨temps, htlen, htparams⟩ := hc.state.params
      refine ⟨⟨rfl, hc.state.base, hc.state.paramBase, ?_, ⟨temps, htlen, ?_⟩, ?_⟩, rfl,
        VM.storageGrow_roomy hnew, rfl, hc.ans, rfl, hc.temps, hc.trouble⟩
      · show vm.storage.len = a.start + (frameOf a.types Γ.slots + stackSize a.types tid)
        have hlen : s.vm.storage.len = a.start + frameOf a.types Γ.slots := hc.state.storage
        rw [hgrown.len, hlen, hsize, Nat.add_assoc]
      · exact hgrown.params.trans htparams
      · exact hgrown.crash.trans hc.state.crash
  | none =>
      have hexec : exec env (allocs n) { s with pc := a.base + (o + 3) } (.storageAdd x) =
          .fail { s with pc := a.base + (o + 3) } .oomStorage := by
        simp only [exec, hresize, hnew]
        rw [if_neg (by omega)]
      exact .fail harrives hfetch hexec hc rfl rfl rfl hc.room rfl ⟨[], hc.args rfl⟩ rfl (by decide)
        hc.vm rfl hcount rfl

/-! ## Crashes -/

theorem raise_tracks {o : Nat} {Q : State → Direct.State → Prop}
    (hat : InstrAt (a.image P env.code) o [] .crash) (harrives : Arrives env allocs st n s d)
    (hc : Corresponds a (Γ.point o) s d) :
    Tracks env allocs st a Γ n k Q (.crash { d with ans := d.ans.first .crash }) :=
  have hfetch := fetch_of_instrAt (p := Γ.point o) hat hc.state.pc
  .fail harrives hfetch rfl hc rfl rfl rfl hc.room rfl ⟨[], hc.args rfl⟩ rfl (by decide) hc.vm rfl
    rfl rfl

theorem hardCrash_tracks {o : Nat} {Q : State → Direct.State → Prop}
    (hat : InstrAt (a.image P env.code) o [] .hardCrash) (harrives : Arrives env allocs st n s d)
    (hc : Corresponds a (Γ.point o) s d) :
    Tracks env allocs st a Γ n k Q (.halt { d with ans := .hardCrash }) :=
  have hfetch := fetch_of_instrAt (p := Γ.point o) hat hc.state.pc
  .stop harrives hfetch rfl hc.vm rfl hc.trouble

/-- The machine at the label `crash` goes on at the handler, with the frame and the arguments that
there were when the pad was installed. -/
theorem Fails.caught {handler : Nat} {d₀ : Direct.State} {s₀ : State} {o : Nat}
    (hc : Corresponds a (Γ.point o) s₀ d₀)
    (h : Fails env allocs st a Γ.slots (Γ.guarded handler).pads n s d)
    (run : Direct.Activation → Direct.State → Outcome Direct.State) (b : Direct.Activation) :
    ∃ s', Arrives env allocs st n s' ((H.machineWith run b).restore d₀ d) ∧
      Corresponds a (Γ.handler.point handler) s' ((H.machineWith run b).restore d₀ d) := by
  obtain ⟨temps, hparams⟩ := h.params
  have hcrash : s.vm.crash = a.frame ⟨handler, Γ.slots⟩ :: (Γ.pads.map a.frame ++ a.crash) := by
    rw [h.crash]
    rfl
  have hstorage : a.start + frameOf a.types Γ.slots ≤ s.vm.storage.len := h.storage
  have hfits : ¬ (s.vm.storage.len < (a.frame ⟨handler, Γ.slots⟩).storageLen ∨
      s.vm.params.length < (a.frame ⟨handler, Γ.slots⟩).paramLen) := by
    simp only [Act.frame]
    rw [hparams, List.length_append]
    omega
  have hdrop : s.vm.params.drop (s.vm.params.length - (a.frame ⟨handler, Γ.slots⟩).paramLen) = a.args := by
    simp only [Act.frame]
    rw [hparams, List.length_append, Nat.add_sub_cancel, List.drop_left]
  have hrun := h.run
  rw [hcrash, unwind, if_neg hfits, hdrop] at hrun
  have hparams₀ : d₀.vm.params = a.args := hc.params_eq.trans (hc.args rfl)
  have hlen₀ : d₀.vm.storage.len = a.start + frameOf a.types Γ.slots := by
    rw [hc.storage_eq]
    exact hc.state.storage
  have hslots₀ : d₀.slots = Γ.slots := hc.slots
  have htemps₀ : d₀.temps = [] := hc.temps
  have hrestore : (H.machineWith run b).restore d₀ d =
      { d with
        vm := { d.vm with
          storage := { d.vm.storage with len := a.start + frameOf a.types Γ.slots }
          params := a.args }
        slots := Γ.slots
        temps := [] } := by
    show { d.cut d₀.vm.storage.len d₀.slots with
      vm := { (d.cut d₀.vm.storage.len d₀.slots).vm with params := d₀.vm.params }
      temps := d₀.temps } = _
    rw [hparams₀, hlen₀, hslots₀, htemps₀]
    rfl
  rw [hrestore]
  refine ⟨_, ⟨hrun, h.asks⟩,
    ⟨⟨rfl, rfl, rfl, rfl, ⟨[], rfl, rfl⟩, rfl⟩, rfl, ?_, ?_, h.ans, rfl, rfl, h.trouble⟩⟩
  · have hroom : s.vm.storage.len ≤ s.vm.storage.cap := h.room
    exact Nat.le_trans hstorage hroom
  · rw [← h.vm]
    rfl

end Control

end TreeVM
