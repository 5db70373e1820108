import TreeVM.Frontend.OuterLoop

/-!
# Runs of the outer interpreter

* `InterpreterHost.Ready`, `InterpreterHost.Answers`: the machine at the start, and its allocator;
* `LoopReached`: what the machine has done after some rounds; `outerRun_reached`: every run;
* `outerRun_heads`, `LoopReached.head`: the machine at the head of the loop; `outerRun_done_iff`: how
  it ends;
* `compileSourceOn_iff`: `frontend_compile_source` with the machine in place of the loop.
-/

namespace TreeVM

variable {M : Type}

/-! ## The start -/

namespace InterpreterHost

variable (h : InterpreterHost)

/-- The static variables are away from the bytes of the outer interpreter. -/
def Apart (D : Nat) : Prop :=
  ∀ k, (h.cell k).toNat + 8 ≤ D ∨ D + 40 ≤ (h.cell k).toNat

/-- `realloc` finds room. -/
structure Answers (al : Alloc) : Prop where
  param : al.param = true
  storage : ∃ D, al.storage = some D ∧ h.Apart D

/-- The machine whose stacks `frontend_compile_source` has emptied -/
structure Ready (vm : VM) : Prop where
  params : vm.params = []
  crash : vm.crash = []
  len : vm.storage.len = 0
  apart : h.Apart vm.storage.data
  cells : ∀ k, readPtr vm.mem (h.cell k).toNat = h.fn k

end InterpreterHost

section Start

variable {h : InterpreterHost} {al : Alloc} {vm : VM}

theorem readPtr_writeBytes {mem : Mem} {p q : Nat} {bs : List UInt8} (h : q + 8 ≤ p ∨ p + bs.length ≤ q) :
    readPtr (writeBytes mem p bs) q = readPtr mem q := by
  refine readNat_congr fun k hk => ?_
  rcases h with h | h
  · exact writeBytes_before (by omega)
  · exact writeBytes_behind (by omega)

theorem storageGrow_room {amount : Nat} (hal : h.Answers al) (hapart : h.Apart vm.storage.data)
    (hlen : vm.storage.len + amount ≤ 40) :
    ∃ vm', vm.storageGrow al amount = some vm' ∧ h.Apart vm'.storage.data ∧
      ∀ k, readPtr vm'.mem (h.cell k).toNat = readPtr vm.mem (h.cell k).toNat := by
  obtain ⟨D, hD, hDapart⟩ := hal.storage
  simp only [VM.storageGrow, Option.bind_eq_bind, Option.pure_def]
  by_cases hcap : vm.storage.cap < vm.storage.len + amount
  · rw [if_pos hcap, hD]
    refine ⟨_, rfl, hDapart, fun k => ?_⟩
    have hk := hDapart k
    have hclear : (List.replicate amount (0 : UInt8)).length = amount := List.length_replicate
    have hmoved : (readBytes vm.mem vm.storage.data vm.storage.len).length = vm.storage.len :=
      length_readBytes ..
    -- the old bytes are moved, then the new ones are cleared
    have hbehind : (h.cell k).toNat + 8 ≤ D + vm.storage.len ∨
        D + vm.storage.len + (List.replicate amount (0 : UInt8)).length ≤ (h.cell k).toNat := by omega
    have hat : (h.cell k).toNat + 8 ≤ D ∨
        D + (readBytes vm.mem vm.storage.data vm.storage.len).length ≤ (h.cell k).toNat := by omega
    exact (readPtr_writeBytes hbehind).trans (readPtr_writeBytes hat)
  · rw [if_neg hcap]
    refine ⟨_, rfl, hapart, fun k => ?_⟩
    have hk := hapart k
    have hclear : (List.replicate amount (0 : UInt8)).length = amount := List.length_replicate
    exact readPtr_writeBytes (by omega)

/-- `vm_run` begins in front of the two variables. -/
theorem enter_placed (hal : h.Answers al) (hvm : h.Ready vm) :
    ∃ s D, enter al vm h.base = .running s ∧ h.Apart D ∧ Placed h D 0 24 [] s := by
  have hroom : vm.storage.len + VM.returnSize ≤ 40 := by
    rw [hvm.len]
    decide
  obtain ⟨vm₁, hgrow, hapart, hcells⟩ := storageGrow_room hal hvm.apart hroom
  have hlen := (VM.storageGrow_spec hgrow).len
  rw [hvm.len, Nat.zero_add] at hlen
  -- the return frame is all that is written
  obtain ⟨vm₂, hpush, hdata, hcells₂⟩ : ∃ vm₂, vm.pushReturn al ⟨0, 0, 0⟩ = some vm₂ ∧
      vm₂.storage.data = vm₁.storage.data ∧ ∀ k, readPtr vm₂.mem (h.cell k).toNat = h.fn k := by
    rw [VM.pushReturn, hgrow]
    refine ⟨_, rfl, rfl, fun k => ?_⟩
    rw [← hvm.cells k, ← hcells k]
    refine readPtr_writeBytes ?_
    have hk := hapart k
    have hsize : VM.returnSize = 24 := rfl
    simp only [List.length_append, length_bytesOf, hlen]
    omega
  have hreturns := VM.pushReturn_returns hpush
  have hframe := hreturns.saved (by decide) (by decide) (by decide)
  rw [hvm.len] at hframe
  have henter : enter al vm h.base = .running ⟨vm₂, h.base, h.base, 0, .ok⟩ := by
    rw [enter, hpush]
  refine ⟨_, vm₁.storage.data, henter, hapart, ⟨rfl, rfl, ?_, ?_, hdata, ?_, hframe, hcells₂⟩⟩
  · exact hreturns.params.trans hvm.params
  · exact hreturns.crash.trans hvm.crash
  · exact hreturns.len.trans (by rw [hvm.len]; rfl)

/-- Each of the two variables makes the storage buffer longer. -/
theorem Placed.grow {D o o' len : Nat} {ps : List Nat} {s : State} {env : Env}
    (hp : Placed h D o len ps s) (henv : env.code = h.code) (hal : h.Answers al) (hapart : h.Apart D)
    (hentry : 24 ≤ len) (hlen : len + 8 ≤ 40)
    (hfetch : fetch h.code (h.base + o) = some (.storageAdd 8, h.base + o')) :
    ∃ s' D', step env al s = .running s' ∧ h.Apart D' ∧ Placed h D' o' (len + 8) ps s' := by
  have hroom : s.vm.storage.len + 8 ≤ 40 := by rwa [hp.len]
  obtain ⟨vm', hgrow, hapart', hcells⟩ := storageGrow_room hal (hp.data.symm ▸ hapart) hroom
  have hgrown := VM.storageGrow_spec hgrow
  refine ⟨{ s with pc := h.base + o', vm := vm' }, _, ?_, hapart',
    ⟨rfl, hp.base, ?_, ?_, rfl, ?_, ?_, fun k => ?_⟩⟩
  · have hamount : (8 : Int16).toInt = 8 := by decide
    have hpos : ¬ (8 : Int) < 0 := by decide
    have hn : (8 : Int).toNat = 8 := rfl
    rw [hp.next henv hfetch]
    simp only [exec, VM.storageResize, hamount, if_neg hpos, hn, hgrow, Exec.status]
  · rw [hgrown.params, hp.params]
  · rw [hgrown.crash, hp.crash]
  · rw [hgrown.len, hp.len]
  · rw [hgrown.savedReturn (by rw [hp.len]; exact hentry), hp.entry]
  · rw [hcells, hp.cells]

end Start

/-! ## Runs -/

section Runs

variable (h : InterpreterHost) (macros : Nat → Frontend M → Option VmResult × Frontend M)
  (literalAt : Nat → UInt64) (fe₀ : Frontend M)

/-- What the outer interpreter has done: it stands in front of the loop, it is inside of a round of
the loop, or it has ended as the plain loop does. -/
inductive LoopReached : Turn M → Prop
  | early {o len D s} : (o, len) ∈ [(0, 24), (3, 32)] → h.Apart D → Placed h D o len [] s →
      LoopReached (.running ⟨s, fe₀, []⟩)
  | inside {k o D s before calls fe fe'} : plainLoop macros literalAt fe₀ k = (before, none, fe) →
      h.Apart D → LoopSpot h macros literalAt D fe o s fe' calls →
      LoopReached (.running ⟨s, fe', before ++ calls⟩)
  | ended {k ok calls fe vm} : plainLoop macros literalAt fe₀ k = (calls, some ok, fe) →
      LoopReached (.done (if ok then .ok else .hardCrash) vm fe calls)

variable {h macros literalAt fe₀}

theorem plainLoop_succ {k : Nat} {before calls : CallLog M} {stop : Option Bool} {fe fe' : Frontend M}
    (hloop : plainLoop macros literalAt fe₀ k = (before, none, fe))
    (hturn : plainTurn macros literalAt fe = (calls, stop, fe')) :
    plainLoop macros literalAt fe₀ (k + 1) = (before ++ calls, stop, fe') := by
  rw [plainLoop, hloop]
  simp only [hturn]

theorem plainLoop_stop {k : Nat} {calls : CallLog M} {ok : Bool} {fe : Frontend M}
    (hloop : plainLoop macros literalAt fe₀ k = (calls, some ok, fe)) :
    plainLoop macros literalAt fe₀ (k + 1) = (calls, some ok, fe) := by
  rw [plainLoop, hloop]

theorem Turned.reached {D k o : Nat} {before : CallLog M} {fe : Frontend M} {t : Turn M}
    (hloop : plainLoop macros literalAt fe₀ k = (before, none, fe)) (hapart : h.Apart D)
    (hturned : Turned h macros literalAt D fe before o t) : LoopReached h macros literalAt fe₀ t := by
  cases hturned with
  | on _ hspot => exact .inside hloop hapart hspot
  | @again s fe' calls hturn hp =>
      have hnext := plainLoop_succ hloop hturn
      rw [← List.append_nil (before ++ calls)]
      exact .inside hnext hapart (.read (by simp) hp)
  | ends hturn => exact .ended (plainLoop_succ hloop hturn)

variable (hmacros : ∀ idx fe, fe.WordsFit → (macros idx fe).2.WordsFit) (hfits : fe₀.WordsFit)

variable (macros literalAt fe₀) in
set_option maxRecDepth 4000 in
theorem early_turn {al : Alloc} {o len D : Nat} {s : State} (hal : h.Answers al)
    (hmem : (o, len) ∈ [(0, 24), (3, 32)]) (hapart : h.Apart D) (hp : Placed h D o len [] s) :
    ∃ s' D', h.turn macros literalAt al ⟨s, fe₀, []⟩ = .running ⟨s', fe₀, []⟩ ∧ h.Apart D' ∧
      (o = 0 ∧ Placed h D' 3 32 [] s' ∨ o = 3 ∧ Placed h D' 6 40 [] s') := by
  have grow : ∀ o o', ∀ {len}, Placed h D o len [] s →
      fetch h.code (h.base + o) = some (.storageAdd 8, h.base + o') → 24 ≤ len → len + 8 ≤ 40 →
      ∃ s' D', step (h.env macros literalAt fe₀) al s = .running s' ∧ h.Apart D' ∧
        Placed h D' o' (len + 8) [] s' :=
    fun _ _ _ hp hfetch hentry hlen => hp.grow rfl hal hapart hentry hlen hfetch
  simp only [List.mem_cons, Prod.mk.injEq, List.not_mem_nil, or_false] at hmem
  rcases hmem with ⟨rfl, rfl⟩ | ⟨rfl, rfl⟩
  · have hfetch := h.fetch_at 0 0 3 rfl rfl rfl
    obtain ⟨s', D', hstep, hapart', hp'⟩ := grow _ _ hp hfetch (by decide) (by decide)
    exact ⟨s', D', turn_of_step hp hfetch rfl hstep, hapart', .inl ⟨rfl, hp'⟩⟩
  · have hfetch := h.fetch_at 1 3 6 rfl rfl rfl
    obtain ⟨s', D', hstep, hapart', hp'⟩ := grow _ _ hp hfetch (by decide) (by decide)
    exact ⟨s', D', turn_of_step hp hfetch rfl hstep, hapart', .inr ⟨rfl, hp'⟩⟩

include hmacros hfits in
/-- One round of the machine -/
theorem LoopReached.turn {al : Alloc} (hal : h.Answers al) {x : Interpreter M}
    (hx : LoopReached h macros literalAt fe₀ (.running x)) :
    LoopReached h macros literalAt fe₀ (h.turn macros literalAt al x) := by
  cases hx with
  | early hmem hapart hp =>
      obtain ⟨s', D', hturn, hapart', ⟨-, hp'⟩ | ⟨-, hp'⟩⟩ := early_turn _ _ _ hal hmem hapart hp
      · rw [hturn]
        exact .early (by decide) hapart' hp'
      · rw [hturn]
        exact .inside (k := 0) rfl hapart' (.read (by simp) hp')
  | @inside k _ _ _ _ _ _ _ hloop hapart hspot =>
      have hround := plainLoop_fits literalAt hmacros hfits k
      rw [hloop] at hround
      exact (hspot.turn _ hapart hal.param (hspot.fits hmacros hround)).reached hloop hapart

variable {entry : Alloc} {allocs : Nat → Alloc} {vm : VM}
  (hentry : h.Answers entry) (hallocs : ∀ n, h.Answers (allocs n)) (hvm : h.Ready vm)

include hmacros hfits hentry hallocs hvm in
theorem outerRun_reached (n : Nat) :
    LoopReached h macros literalAt fe₀ (h.outerRun macros literalAt entry allocs vm fe₀ n) := by
  induction n with
  | zero =>
      obtain ⟨s, D, henter, hapart, hp⟩ := enter_placed hentry hvm
      rw [InterpreterHost.outerRun, henter]
      exact .early (by decide) hapart hp
  | succ n ih =>
      rw [InterpreterHost.outerRun]
      split
      · rename_i x heq
        rw [heq] at ih
        exact ih.turn hmacros hfits (hallocs n)
      · exact ih

/-! ## Progress -/

theorem LoopSpot.le {D o : Nat} {s : State} {fe fe' : Frontend M} {calls : CallLog M}
    (hspot : LoopSpot h macros literalAt D fe o s fe' calls) : o ≤ 115 := by
  cases hspot with
  | read hmem | test hmem | lookup hmem | found hmem | engage hmem | fallback hmem | again hmem
  | leave hmem =>
      simp only [List.mem_cons, Prod.mk.injEq, List.not_mem_nil, or_false] at hmem
      omega

include hmacros hallocs in
/-- The machine gets from every spot to the end of the round. -/
theorem LoopSpot.round {D : Nat} {before : CallLog M} {fe : Frontend M} (hfits : fe.WordsFit)
    (hapart : h.Apart D) (d : Nat) :
    ∀ {o n : Nat} {s : State} {calls : CallLog M} {fe' : Frontend M}, 116 ≤ o + d →
      LoopSpot h macros literalAt D fe o s fe' calls →
      h.outerRun macros literalAt entry allocs vm fe₀ n = .running ⟨s, fe', before ++ calls⟩ →
      (∃ n' s' calls' fe'', plainTurn macros literalAt fe = (calls', none, fe'') ∧ Placed h D 6 40 [] s' ∧
        h.outerRun macros literalAt entry allocs vm fe₀ n' = .running ⟨s', fe'', before ++ calls'⟩) ∨
      ∃ n' vm' calls' fe'' ok, plainTurn macros literalAt fe = (calls', some ok, fe'') ∧
        h.outerRun macros literalAt entry allocs vm fe₀ n' =
          .done (if ok then .ok else .hardCrash) vm' fe'' (before ++ calls') := by
  -- the offsets grow within a round, and none is behind the last instruction
  induction d with
  | zero =>
      intro o n s calls fe' hd hspot
      have hle := hspot.le
      omega
  | succ d ih =>
      intro o n s calls fe' hd hspot hrun
      have hturned := hspot.turn before hapart (hallocs n).param (hspot.fits hmacros hfits)
      have hnext : h.outerRun macros literalAt entry allocs vm fe₀ (n + 1) =
          h.turn macros literalAt (allocs n) ⟨s, fe', before ++ calls⟩ := by
        rw [InterpreterHost.outerRun, hrun]
      rw [← hnext] at hturned
      generalize ht : h.outerRun macros literalAt entry allocs vm fe₀ (n + 1) = t at hturned
      cases hturned with
      | on hlt hspot' => exact ih (by omega) hspot' ht
      | again hturn hp => exact .inl ⟨n + 1, _, _, _, hturn, hp, ht⟩
      | ends hturn => exact .inr ⟨n + 1, _, _, _, _, hturn, ht⟩

theorem plainLoop_running {k : Nat} {calls : CallLog M} {fe : Frontend M}
    (hloop : plainLoop macros literalAt fe₀ (k + 1) = (calls, none, fe)) :
    ∃ before more fe', plainLoop macros literalAt fe₀ k = (before, none, fe') ∧
      plainTurn macros literalAt fe' = (more, none, fe) ∧ calls = before ++ more := by
  rw [plainLoop] at hloop
  split at hloop
  · rename_i before fe' heq
    rcases hturn : plainTurn macros literalAt fe' with ⟨more, stop, fe''⟩
    simp only [hturn, Prod.mk.injEq] at hloop
    obtain ⟨rfl, rfl, rfl⟩ := hloop
    exact ⟨before, more, fe', heq, hturn, rfl⟩
  · rename_i hne
    exact absurd hloop (hne calls fe)

theorem plainLoop_ended {k : Nat} {calls : CallLog M} {fe : Frontend M} {ok : Bool}
    (hloop : plainLoop macros literalAt fe₀ (k + 1) = (calls, some ok, fe)) :
    plainLoop macros literalAt fe₀ k = (calls, some ok, fe) ∨
    ∃ before more fe', plainLoop macros literalAt fe₀ k = (before, none, fe') ∧
      plainTurn macros literalAt fe' = (more, some ok, fe) ∧ calls = before ++ more := by
  rw [plainLoop] at hloop
  split at hloop
  · rename_i before fe' heq
    rcases hturn : plainTurn macros literalAt fe' with ⟨more, stop, fe''⟩
    simp only [hturn, Prod.mk.injEq] at hloop
    obtain ⟨rfl, rfl, rfl⟩ := hloop
    exact .inr ⟨before, more, fe', heq, hturn, rfl⟩
  · exact .inl hloop

include hmacros hfits hentry hallocs hvm in
/-- The machine gets to the head of the loop as often as the plain loop. -/
theorem outerRun_heads (k : Nat) : ∀ {before : CallLog M} {fe : Frontend M},
    plainLoop macros literalAt fe₀ k = (before, none, fe) →
    ∃ n D s, h.outerRun macros literalAt entry allocs vm fe₀ n = .running ⟨s, fe, before⟩ ∧
      h.Apart D ∧ Placed h D 6 40 [] s := by
  induction k with
  | zero =>
      intro before fe hloop
      cases hloop
      obtain ⟨s, D, henter, hapart, hp⟩ := enter_placed hentry hvm
      have hzero : h.outerRun macros literalAt entry allocs vm fe₀ 0 = .running ⟨s, fe₀, []⟩ := by
        rw [InterpreterHost.outerRun, henter]
      obtain ⟨s₁, D₁, hturn₁, hapart₁, ⟨-, hp₁⟩ | ⟨hne, -⟩⟩ :=
        early_turn macros literalAt fe₀ (hallocs 0) (by decide)
          hapart hp
      · obtain ⟨s₂, D₂, hturn₂, hapart₂, ⟨hne, -⟩ | ⟨-, hp₂⟩⟩ :=
          early_turn macros literalAt fe₀ (hallocs 1) (by decide)
            hapart₁ hp₁
        · cases hne
        · refine ⟨2, D₂, s₂, ?_, hapart₂, hp₂⟩
          simp only [InterpreterHost.outerRun, henter, hturn₁, hturn₂]
      · cases hne
  | succ k ih =>
      intro before fe hloop
      obtain ⟨before', more, fe', hprev, hturn, rfl⟩ := plainLoop_running hloop
      obtain ⟨n, D, s, hrun, hapart, hp⟩ := ih hprev
      have hround := plainLoop_fits literalAt hmacros hfits k
      rw [hprev] at hround
      rw [← List.append_nil before'] at hrun
      have hspot : LoopSpot h macros literalAt D fe' 6 s fe' [] := .read (by simp) hp
      obtain ⟨n', s', calls', fe'', hturn', hp', hrun'⟩ | ⟨_, _, _, _, _, hturn', -⟩ :=
        LoopSpot.round hmacros hallocs hround hapart 110 (Nat.le_refl _) hspot hrun
      · rw [hturn] at hturn'
        cases hturn'
        exact ⟨n', D, s', hrun', hapart, hp'⟩
      · rw [hturn] at hturn'
        cases hturn'

include hmacros hfits hentry hallocs hvm in
/-- The machine ends when the plain loop does. -/
theorem outerRun_ends (k : Nat) {calls : CallLog M} {fe : Frontend M} {ok : Bool}
    (hloop : plainLoop macros literalAt fe₀ k = (calls, some ok, fe)) :
    ∃ n vm', h.outerRun macros literalAt entry allocs vm fe₀ n =
      .done (if ok then .ok else .hardCrash) vm' fe calls := by
  induction k with
  | zero => cases hloop
  | succ k ih =>
      obtain hprev | ⟨before', more, fe', hprev, hturn, rfl⟩ := plainLoop_ended hloop
      · exact ih hprev
      · obtain ⟨n, D, s, hrun, hapart, hp⟩ :=
          outerRun_heads hmacros hfits hentry hallocs hvm k hprev
        have hround := plainLoop_fits literalAt hmacros hfits k
        rw [hprev] at hround
        rw [← List.append_nil before'] at hrun
        have hspot : LoopSpot h macros literalAt D fe' 6 s fe' [] := .read (by simp) hp
        obtain ⟨_, _, _, _, hturn', -⟩ | ⟨n', vm', calls', fe'', ok', hturn', hrun'⟩ :=
          LoopSpot.round hmacros hallocs hround hapart 110 (Nat.le_refl _) hspot hrun
        · rw [hturn] at hturn'
          cases hturn'
        · rw [hturn] at hturn'
          cases hturn'
          exact ⟨n', vm', hrun'⟩

/-- The calls of a spot are the first ones of its round. -/
theorem LoopSpot.calls_prefix {D o : Nat} {s : State} {fe fe' : Frontend M} {calls : CallLog M}
    (hspot : LoopSpot h macros literalAt D fe o s fe' calls) :
    calls <+: (plainTurn macros literalAt fe).1 := by
  cases hspot with
  | read => exact List.nil_prefix
  | @test _ _ t _ _ _ hnext _ =>
      cases t with
      | none =>
          simp only [plainTurn_none macros literalAt hnext, List.prefix_refl]
      | some token =>
          rw [plainTurn_some macros literalAt hnext rfl]
          exact List.prefix_append [_] _
  | lookup _ _ hnext =>
      rw [plainTurn_some macros literalAt hnext rfl]
      exact List.prefix_append [_] _
  | found _ _ hnext hfe =>
      rw [plainTurn_some macros literalAt hnext hfe]
      exact List.prefix_append [_, _] _
  | engage _ _ hnext hfe =>
      rw [plainTurn_some macros literalAt hnext hfe]
      exact List.prefix_append [_, _] _
  | fallback _ _ hnext hfe =>
      rw [plainTurn_some macros literalAt hnext hfe]
      exact List.prefix_append [_, _] _
  | again _ _ hturn =>
      simp only [hturn, List.prefix_refl]
  | leave _ _ hnext =>
      simp only [plainTurn_none macros literalAt hnext, List.prefix_refl]

theorem LoopReached.calls_prefix {x : Interpreter M} (hx : LoopReached h macros literalAt fe₀ (.running x)) :
    ∃ k, x.calls <+: (plainLoop macros literalAt fe₀ k).1 := by
  cases hx with
  | early => exact ⟨0, List.nil_prefix⟩
  | @inside k _ _ _ _ _ fe _ hloop _ hspot =>
      rcases hturn : plainTurn macros literalAt fe with ⟨more, stop, fe''⟩
      refine ⟨k + 1, ?_⟩
      rw [plainLoop_succ hloop hturn]
      have hprefix := hspot.calls_prefix
      rw [hturn] at hprefix
      exact (List.prefix_append_right_inj _).mpr hprefix

/-- The stacks at the head of the loop -/
theorem LoopReached.head {x : Interpreter M} (hx : LoopReached h macros literalAt fe₀ (.running x))
    (hpc : x.state.pc = h.base + 6) :
    x.state.vm.params = [] ∧ x.state.vm.crash = [] ∧ x.state.vm.storage.len = 40 ∧
      ∃ k, plainLoop macros literalAt fe₀ k = (x.calls, none, x.fe) := by
  -- only the first spot of a round has this offset
  have hoffset : ∀ {D o len ps}, Placed h D o len ps x.state → o = 6 := by
    intro D o len ps hp
    have hpc' := hp.pc
    omega
  cases hx with
  | early hmem _ hp =>
      rw [hoffset hp] at hmem
      simp at hmem
  | inside hloop _ hspot =>
      cases hspot with
      | read hmem hp =>
          rw [hoffset hp] at hmem
          simp at hmem
          subst hmem
          exact ⟨hp.params, hp.crash, hp.len, _, by rw [List.append_nil]; exact hloop⟩
      | test hmem hp | lookup hmem hp | found hmem hp | engage hmem hp | fallback hmem hp
      | again hmem hp | leave hmem hp =>
          rw [hoffset hp] at hmem
          simp at hmem

include hmacros hfits hentry hallocs hvm in
theorem outerRun_done_iff (r : VmResult) (calls : CallLog M) (fe : Frontend M) :
    (∃ n vm', h.outerRun macros literalAt entry allocs vm fe₀ n = .done r vm' fe calls) ↔
      ∃ k ok, plainLoop macros literalAt fe₀ k = (calls, some ok, fe) ∧
        r = if ok then .ok else .hardCrash := by
  constructor
  · rintro ⟨n, vm', hrun⟩
    have hend := @outerRun_reached M h macros literalAt fe₀ hmacros hfits entry allocs vm hentry hallocs
      hvm n
    rw [hrun] at hend
    cases hend with
    | ended hloop => exact ⟨_, _, hloop, rfl⟩
  · rintro ⟨k, ok, hloop, rfl⟩
    exact outerRun_ends hmacros hfits hentry hallocs hvm k hloop

include hmacros hfits hentry hallocs hvm in
/-- The machine performs the calls of the plain loop, has the same stacks whenever it is at the head
of the loop, and ends as the plain loop does. -/
theorem outerRun_refines :
    (∀ n x, h.outerRun macros literalAt entry allocs vm fe₀ n = .running x →
      (∃ k, x.calls <+: (plainLoop macros literalAt fe₀ k).1) ∧
      (x.state.pc = h.base + 6 →
        x.state.vm.params = [] ∧ x.state.vm.crash = [] ∧ x.state.vm.storage.len = 40 ∧
        ∃ k, plainLoop macros literalAt fe₀ k = (x.calls, none, x.fe))) ∧
    ∀ r calls fe, (∃ n vm', h.outerRun macros literalAt entry allocs vm fe₀ n = .done r vm' fe calls) ↔
      ∃ k ok, plainLoop macros literalAt fe₀ k = (calls, some ok, fe) ∧
        r = if ok then .ok else .hardCrash := by
  refine ⟨fun n x hrun => ?_, outerRun_done_iff hmacros hfits hentry hallocs hvm⟩
  have hx := @outerRun_reached M h macros literalAt fe₀ hmacros hfits entry allocs vm hentry hallocs hvm n
  rw [hrun] at hx
  exact ⟨hx.calls_prefix, hx.head⟩

/-- A source with a closing parenthesis only, on a machine with the code at 5000 and the static
variables from 16 on -/
def parenHost : InterpreterHost where
  code := writeBytes (fun _ => 0) 5000 ((interpreterListing fun k => 16 + 8 * k.ctorIdx.toUInt64).flatMap encode)
  base := 5000
  cell k := 16 + 8 * k.ctorIdx.toUInt64
  fn k := 1 + k.ctorIdx
  place _ := 0
  bytes := (interpreterListing fun k => 16 + 8 * k.ctorIdx.toUInt64).flatMap encode
  table := []
  compiled := compile_interpreter_eq _ _
  stands := at_writeBytes _ _ _
  cell_ne k := by cases k <;> decide
  fn_ne k := by cases k <;> decide
  fn_inj j k hjk := by
    cases j <;> cases k <;> first | rfl | exact absurd hjk (by decide)

def parenMachine : VM where
  mem a := if a ∈ [16, 24, 32, 40] then UInt8.ofNat (a / 8 - 1) else 0
  storage := ⟨4096, 0, 64⟩
  params := []
  paramCap := 0
  crash := []
  crashCap := 0

def parenSource : Frontend Unit where
  ctx := none
  func := ⟨⟨[], []⟩, [], [], [], []⟩
  macroVm := ()
  cursor := utf8 ")"

/-- A parenthesis outside of all scopes does nothing. -/
theorem outerRun_refines_paren : ∃ n vm' fe calls,
    parenHost.outerRun (fun _ fe => (none, fe)) (fun _ => 0) ⟨true, true, some 8192⟩
      (fun _ => ⟨true, true, some 8192⟩) parenMachine parenSource n = .done .ok vm' fe calls ∧
    calls.map Prod.fst = [.nextToken, .lookupWord, .engageWord, .nextToken] := by
  have hanswers : parenHost.Answers ⟨true, true, some 8192⟩ :=
    ⟨rfl, 8192, rfl, fun k => by cases k <;> decide⟩
  have hready : parenHost.Ready parenMachine :=
    ⟨rfl, rfl, rfl, fun k => by cases k <;> decide, fun k => by cases k <;> decide⟩
  have hfits : parenSource.WordsFit := by
    show 0 < 2 ^ 63
    decide
  have hmacros : ∀ (idx : Nat) (fe : Frontend Unit), fe.WordsFit →
      ((fun _ fe => (none, fe) : Nat → Frontend Unit → Option VmResult × Frontend Unit) idx fe).2.WordsFit :=
    fun _ _ hfe => hfe
  have hdone := (@outerRun_refines Unit parenHost _ (fun _ => 0) parenSource hmacros hfits _ _ parenMachine
    hanswers (fun _ => hanswers) hready).2
  obtain ⟨n, vm', hrun⟩ := (hdone _ _ _).mpr ⟨2, true, rfl, rfl⟩
  exact ⟨n, vm', _, _, hrun, rfl⟩

end Runs

/-! ## The source of a form -/

section Sources

variable {h : InterpreterHost} {macros : Nat → Frontend M → Option VmResult × Frontend M}
  {literalAt : Nat → UInt64} {entry : Alloc} {allocs : Nat → Alloc} {vm : VM}

/-- The first round, then the other ones -/
theorem plainLoop_first {fe fe' : Frontend M} {calls : CallLog M} (n : Nat)
    (hturn : plainTurn macros literalAt fe = (calls, none, fe')) :
    (plainLoop macros literalAt fe (n + 1)).2 = (plainLoop macros literalAt fe' n).2 := by
  induction n with
  | zero =>
      rw [plainLoop, plainLoop]
      simp only [hturn, plainLoop]
  | succ n ih =>
      rcases hfirst : plainLoop macros literalAt fe (n + 1) with ⟨before, stop, fe₁⟩
      rcases hlater : plainLoop macros literalAt fe' n with ⟨before', stop', fe₁'⟩
      rw [hfirst, hlater] at ih
      obtain ⟨rfl, rfl⟩ := Prod.mk.inj ih
      cases stop with
      | none =>
          rcases hmore : plainTurn macros literalAt fe₁ with ⟨more, stop, fe₂⟩
          rw [plainLoop_succ hfirst hmore, plainLoop_succ hlater hmore]
      | some ok => rw [plainLoop_stop hfirst, plainLoop_stop hlater]

/-- The first round ends the loop. -/
theorem plainLoop_stays {fe fe' : Frontend M} {calls : CallLog M} {ok : Bool} (n : Nat)
    (hturn : plainTurn macros literalAt fe = (calls, some ok, fe')) :
    plainLoop macros literalAt fe (n + 1) = (calls, some ok, fe') := by
  induction n with
  | zero =>
      rw [plainLoop, plainLoop]
      simp only [hturn, List.nil_append]
  | succ n ih => exact plainLoop_stop ih

/-- `interpret` is the plain loop without its calls. -/
theorem interpret_eq (n : Nat) : ∀ {fe : Frontend M} {ok : Bool} {fe' : Frontend M},
    interpret macros literalAt n fe = some (ok, fe') ↔
      (plainLoop macros literalAt fe n).2 = (some ok, fe') := by
  induction n with
  | zero =>
      intro fe ok fe'
      constructor <;> intro h <;> cases h
  | succ n ih =>
      intro fe ok fe'
      rcases hnext : nextToken fe with ⟨_ | token, fe₁⟩
      · rw [plainLoop_stays n (plainTurn_none macros literalAt hnext)]
        simp [interpret, hnext]
      · have hturn := plainTurn_some macros literalAt hnext rfl
        rcases hengage : engageToken macros literalAt (fe₁.take (some token)) with ⟨_ | u, fe₂⟩
        · rw [hengage] at hturn
          rw [plainLoop_stays n hturn]
          rw [Frontend.take] at hengage
          simp [interpret, hnext, hengage]
        · rw [hengage] at hturn
          rw [plainLoop_first n hturn, ← ih]
          rw [Frontend.take] at hengage
          simp [interpret, hnext, hengage]

/-- `frontend_compile_source`, when its machine has run for `n` rounds -/
def compileSourceOn (h : InterpreterHost) (macros : Nat → Frontend M → Option VmResult × Frontend M)
    (literalAt : Nat → UInt64) (entry : Alloc) (allocs : Nat → Alloc) (vm : VM) (n : Nat)
    (source : Text) (fe : Frontend M) : Option (Bool × Frontend M) :=
  match prepareFunc fe with
  | (none, fe) => some (false, fe)
  | (some (), fe) =>
      match h.outerRun macros literalAt entry allocs vm (fe.begin source) n with
      | .running _ => none
      | .done r _ fe _ => some (fe.conclude (r = .ok))

/-- `compileSource` says what the machine does. -/
theorem compileSourceOn_iff (hmacros : ∀ idx fe, fe.WordsFit → (macros idx fe).2.WordsFit)
    (hentry : h.Answers entry) (hallocs : ∀ n, h.Answers (allocs n)) (hvm : h.Ready vm)
    {source : Text} {fe : Frontend M} (hfits : fe.WordsFit) {result : Bool × Frontend M} :
    (∃ n, compileSourceOn h macros literalAt entry allocs vm n source fe = some result) ↔
      ∃ fuel, compileSource macros literalAt fuel source fe = some result := by
  simp only [compileSourceOn, compileSource]
  rcases hprepare : prepareFunc fe with ⟨_ | u, fe₁⟩
  · simp
  · have hfits₁ : (fe₁.begin source).WordsFit := by
      have hkept := prepareFunc_kept.words.run hprepare
      show fe₁.words.length < 2 ^ 63
      rw [hkept]
      exact hfits
    have hdone := @outerRun_done_iff M h macros literalAt _ hmacros hfits₁ _ _ _ hentry hallocs hvm
    constructor
    · rintro ⟨n, hn⟩
      dsimp only at hn
      split at hn
      · cases hn
      · rename_i r vm' fe₂ calls hrun
        obtain ⟨k, ok, hloop, rfl⟩ := (hdone r calls fe₂).mp ⟨n, vm', hrun⟩
        refine ⟨k, ?_⟩
        have hinterpret := (interpret_eq k).mpr (congrArg Prod.snd hloop)
        simp only [hinterpret, Option.map_some]
        cases ok <;> exact hn
    · rintro ⟨fuel, hfuel⟩
      obtain ⟨⟨ok, fe₂⟩, hinterpret, rfl⟩ := Option.map_eq_some_iff.mp hfuel
      have hloop := (interpret_eq fuel).mp hinterpret
      obtain ⟨n, vm', hrun⟩ := (hdone (if ok then .ok else .hardCrash) _ fe₂).mpr
        ⟨fuel, ok, Prod.ext rfl hloop, rfl⟩
      refine ⟨n, ?_⟩
      simp only [hrun]
      cases ok <;> rfl

end Sources

end TreeVM
