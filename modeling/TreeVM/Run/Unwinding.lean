import TreeVM.Run.Returns

/-!
# Crash unwinding

What happens after the first soft crash of a run, when no break leaves the handler of a crash pad.

* `Held`: which pads the handlers that are running keep below them;
* `Unwound`: the handlers of the pads that were installed at the first crash have been started in
  order, and the others are still there;
* `crash_unwinds`: it holds until the run ends.
-/

namespace TreeVM

/-- Some handler is running, in the current activation or a caller, that keeps the pads `keep`
below it.  The list has the points of the current activation and of its callers. -/
def Held (keep : List Installed) : List Point → List Installed → Prop
  | [], _ => False
  | p :: points, installed =>
      (∃ below, p.floor = some below ∧
        keep <:+ installed.drop (p.pads.length - below.length)) ∨
      Held keep points (installed.drop p.pads.length)

/-- The handler that a round starts finds the stacks as they were when its pad was installed. -/
structure StartsAsInstalled (s : State) (i : Installed) : Prop where
  storage : s.vm.storage.len = i.state.vm.storage.len
  params : s.vm.params = i.state.vm.params
  base : s.base = i.state.base
  paramBase : s.paramBase = i.state.paramBase

/-- The pads that were installed before `count`. -/
def olderThan (count : Nat) (l : List Installed) : List Installed :=
  l.filter fun i => i.id < count

/-- After the first soft crash, in the configuration `c₀`: of the pads of `c₀` the innermost `k`
have been started, innermost first, and the others are installed. -/
structure Unwound (c₀ : Config) (cause : VmResult) (c : Config) (k : Nat) : Prop where
  started : ∃ new, c.started = new ++ c₀.started ∧
    (olderThan c₀.count new).reverse = c₀.pads.take k
  installed : ∃ inner, c.pads = inner ++ c₀.pads.drop k ∧ ∀ i ∈ inner, c₀.count ≤ i.id
  first : 1 ≤ k ∧ k ≤ c₀.pads.length
  ans : c.state.ans = cause

section Unwinding

variable {P : Program} {env : Env} {strict : Prop} {vm : VM} {c : Config} {a : Act} {p : Point}
  {levels : List (Act × Point)}

theorem Held.mono {keep keep' : List Installed} {points : List Point} {installed : List Installed}
    (h : Held keep points installed) (hsuffix : keep' <:+ keep) : Held keep' points installed := by
  induction points generalizing installed with
  | nil => exact h
  | cons p points ih =>
      rcases h with ⟨below, hfloor, hkeep⟩ | h
      · exact .inl ⟨below, hfloor, hsuffix.trans hkeep⟩
      · exact .inr (ih h)

theorem Held.suffix {keep : List Installed} {points : List Point} {installed : List Installed}
    (h : Held keep points installed) : keep <:+ installed := by
  induction points generalizing installed with
  | nil => exact h.elim
  | cons p points ih =>
      rcases h with ⟨below, -, hkeep⟩ | h
      · exact hkeep.trans (List.drop_suffix _ _)
      · exact (ih h).trans (List.drop_suffix _ _)

/-- Only the pads and the floor of the points matter. -/
theorem held_congr {keep : List Installed} {p q : Point} {points : List Point}
    {installed : List Installed} (hpads : q.pads = p.pads) (hfloor : q.floor = p.floor)
    (h : Held keep (p :: points) installed) : Held keep (q :: points) installed := by
  rw [Held, hpads, hfloor]
  exact h

/-- A pad on top does not matter to the handlers that are running. -/
theorem held_push {keep : List Installed} {p q : Point} {pad : Pad} {points : List Point}
    {i : Installed} {installed : List Installed} (hpads : q.pads = pad :: p.pads)
    (hfloor : q.floor = p.floor) (hbelow : ∀ below, p.floor = some below → below <:+ p.pads) :
    Held keep (q :: points) (i :: installed) ↔ Held keep (p :: points) installed := by
  have hdrop : ∀ below, p.floor = some below → (i :: installed).drop
      (q.pads.length - below.length) = installed.drop (p.pads.length - below.length) := by
    intro below hsome
    have hle := (hbelow below hsome).length_le
    rw [hpads, List.length_cons, Nat.succ_sub hle, List.drop_succ_cons]
  rw [Held, Held, hfloor, hpads, List.length_cons, List.drop_succ_cons]
  constructor
  · rintro (⟨below, hsome, hkeep⟩ | h)
    · refine .inl ⟨below, hsome, ?_⟩
      rw [← hdrop below hsome, hpads]
      exact hkeep
    · exact .inr h
  · rintro (⟨below, hsome, hkeep⟩ | h)
    · refine .inl ⟨below, hsome, ?_⟩
      rw [← hdrop below hsome, hpads] at hkeep
      exact hkeep
    · exact .inr h

/-- A round that starts no handler keeps what is held. -/
theorem Advance.held {al : Alloc} {c' : Config} {a' : Act} {p' : Point}
    {levels' : List (Act × Point)} {keep : List Installed}
    (h : Advance P env True al c c' a p levels a' p' levels')
    (hcalm : c'.started = c.started) (hpoint : PointOk P env.code True a p)
    (hpoint' : PointOk P env.code True a' p')
    (hheld : Held keep (p :: levels.map Prod.snd) c.pads) :
    Held keep (p' :: levels'.map Prod.snd) c'.pads := by
  cases h with
  | op _ _ _ _ _ _ hpads _ =>
      rw [hpads]
      exact held_congr rfl rfl hheld
  | goes hqpads _ _ hfloor _ hpads _ =>
      rw [hpads]
      exact held_congr hqpads (hfloor trivial) hheld
  | @guard i pad pc _ _ hpads =>
      rw [hpads]
      exact (held_push (p := p) (q := { p with pc := pc, pads := pad :: p.pads }) rfl rfl
        (hpoint.floor trivial)).mpr hheld
  | @unguard i pad pads pc hppads _ hpads =>
      rw [hpads] at hheld
      exact (held_push (p := { p with pc := pc, pads := pads }) (q := p) hppads rfl
        (hpoint'.floor trivial)).mp hheld
  | call _ _ _ _ _ _ hpads =>
      rw [hpads]
      exact .inr (held_congr rfl rfl hheld)
  | ret hppads hfloor hlevels _ hpads =>
      rw [hpads]
      rw [hlevels] at hheld
      rcases hheld with ⟨below, hsome, -⟩ | hheld
      · rw [hfloor] at hsome
        cases hsome
      · rw [hppads] at hheld
        exact hheld
  | unwind _ _ _ _ hstarted =>
      rw [hstarted] at hcalm
      exact absurd (congrArg List.length hcalm) (by simp)

/-- The handler of a pad keeps the pads below it. -/
theorem held_handler {pad : Pad} {below : List Pad} {points : List Point}
    (installed : List Installed) : Held installed (pad.point below :: points) installed := by
  refine .inl ⟨below, rfl, ?_⟩
  show installed <:+ installed.drop (below.length - below.length)
  rw [Nat.sub_self]
  exact List.suffix_refl _

/-- Pads are numbered in the order in which they are installed. -/
def Numbered (c : Config) : Prop :=
  ∀ i ∈ c.pads, i.id < c.count

theorem Advance.numbered {al : Alloc} {c' : Config} {a' : Act} {p' : Point}
    {levels' : List (Act × Point)} (h : Advance P env strict al c c' a p levels a' p' levels')
    (hc : Numbered c) : Numbered c' ∧ c.count ≤ c'.count := by
  cases h with
  | op _ _ _ _ _ _ hpads hcalm => rw [Numbered, hpads, hcalm.count]; exact ⟨hc, Nat.le_refl _⟩
  | goes _ _ _ _ _ hpads hcalm => rw [Numbered, hpads, hcalm.count]; exact ⟨hc, Nat.le_refl _⟩
  | guard _ _ hpads hid hcount =>
      rw [Numbered, hpads, hcount]
      refine ⟨List.forall_mem_cons.mpr ⟨?_, fun i hi => ?_⟩, Nat.le_succ _⟩
      · rw [hid]
        exact Nat.lt_succ_self _
      · exact Nat.lt_succ_of_lt (hc i hi)
  | unguard _ _ hpads hcalm =>
      rw [Numbered, hcalm.count]
      rw [Numbered, hpads] at hc
      exact ⟨fun i hi => hc i (List.mem_cons_of_mem _ hi), Nat.le_refl _⟩
  | call _ _ _ _ _ _ hpads hcalm => rw [Numbered, hpads, hcalm.count]; exact ⟨hc, Nat.le_refl _⟩
  | ret _ _ _ _ hpads hcalm => rw [Numbered, hpads, hcalm.count]; exact ⟨hc, Nat.le_refl _⟩
  | unwind _ _ hpads _ _ hcount =>
      rw [Numbered, hcount]
      rw [Numbered, hpads] at hc
      exact ⟨fun i hi => hc i (List.mem_cons_of_mem _ hi), Nat.le_refl _⟩

/-- A round installs a pad, takes one off, or leaves them alone. -/
def Stacked (c c' : Config) : Prop :=
  c'.pads = c.pads ∨ (∃ i, c'.pads = i :: c.pads ∧ i.id = c.count) ∨ ∃ i, c.pads = i :: c'.pads

/-- The handler of the innermost pad is started. -/
structure StartsHandler (env : Env) (al : Alloc) (c c' : Config) (i : Installed) (a' : Act)
    (p' : Point) (pad : Pad) (below : List Pad) : Prop where
  point : p' = pad.point below
  pads : c.pads = i :: c'.pads
  started : c'.started = i :: c.started
  installed : ∃ q, StateAt a' { p' with pc := q } i.state
  crash : ∃ instr pc s cause, fetch env.code c.state.pc = some (instr, pc) ∧
    exec env al (c.fetched pc) instr = .fail s cause ∧ cause ≠ .ok ∧
    c'.state.ans = c.state.ans.first cause

/-- A round starts a handler or it does not. -/
theorem Advance.calm_or_starts {al : Alloc} {c' : Config} {a' : Act} {p' : Point}
    {levels' : List (Act × Point)} (h : Advance P env strict al c c' a p levels a' p' levels') :
    (c'.started = c.started ∧ c'.state.ans = c.state.ans ∧ Stacked c c') ∨
      ∃ i pad below, StartsHandler env al c c' i a' p' pad below := by
  cases h with
  | op _ _ _ _ _ _ hpads hcalm => exact .inl ⟨hcalm.started, hcalm.ans, .inl hpads⟩
  | goes _ _ _ _ _ hpads hcalm => exact .inl ⟨hcalm.started, hcalm.ans, .inl hpads⟩
  | guard _ _ hpads hid _ hstarted hans =>
      exact .inl ⟨hstarted, hans, .inr (.inl ⟨_, hpads, hid⟩)⟩
  | unguard _ _ hpads hcalm => exact .inl ⟨hcalm.started, hcalm.ans, .inr (.inr ⟨_, hpads⟩)⟩
  | call _ _ _ _ _ _ hpads hcalm => exact .inl ⟨hcalm.started, hcalm.ans, .inl hpads⟩
  | ret _ _ _ _ hpads hcalm => exact .inl ⟨hcalm.started, hcalm.ans, .inl hpads⟩
  | unwind hfetch hexec hpads _ hstarted _ hans hne _ hinstalled =>
      exact .inr ⟨_, _, _, rfl, hpads, hstarted, hinstalled, _, _, _, _, hfetch, hexec, hne, hans⟩

/-- The pads `keep` are still at the bottom when a pad is installed or another one taken off. -/
theorem Stacked.above {c' : Config} {keep : List Installed} {n : Nat} (h : Stacked c c')
    (hkeep : keep <:+ c'.pads) (hcount : n ≤ c.count)
    (habove : ∃ inner, c.pads = inner ++ keep ∧ ∀ i ∈ inner, n ≤ i.id) :
    ∃ inner, c'.pads = inner ++ keep ∧ ∀ i ∈ inner, n ≤ i.id := by
  obtain ⟨inner, hpads, hinner⟩ := habove
  rcases h with hsame | ⟨i, hpush, hid⟩ | ⟨i, hpop⟩
  · exact ⟨inner, hsame.trans hpads, hinner⟩
  · refine ⟨i :: inner, by rw [hpush, hpads, List.cons_append], ?_⟩
    exact List.forall_mem_cons.mpr ⟨by omega, hinner⟩
  · rw [hpop] at hpads
    cases inner with
    | nil =>
        have hle := hkeep.length_le
        have hlen := congrArg List.length hpads
        rw [List.nil_append, List.length_cons] at hlen
        omega
    | cons j inner =>
        obtain ⟨-, hpads⟩ := List.cons.inj hpads
        exact ⟨inner, hpads, fun i hi => hinner i (List.mem_cons_of_mem _ hi)⟩

/-! ## After the first crash -/

/-- A run that crashed for the first time in `c₀` has come to `c`. -/
structure Unwinding (P : Program) (env : Env) (vm : VM) (c₀ : Config) (cause : VmResult)
    (c : Config) (a : Act) (p : Point) (levels : List (Act × Point)) (k : Nat) : Prop where
  balanced : Balanced P env True vm c a p levels
  unwound : Unwound c₀ cause c k
  held : Held (c₀.pads.drop k) (p :: levels.map Prod.snd) c.pads
  numbered : Numbered c
  later : c₀.count ≤ c.count

/-- The handler of one more pad of `c₀` is started, or the one of a pad installed since. -/
theorem Unwound.starts {c₀ c' : Config} {cause : VmResult} {k : Nat} {i : Installed}
    (h : Unwound c₀ cause c k) (hfirst : Numbered c₀) (hpads : c.pads = i :: c'.pads)
    (hstarted : c'.started = i :: c.started) (hans : c'.state.ans = c.state.ans) :
    ∃ k', Unwound c₀ cause c' k' ∧ c₀.pads.drop k' <:+ c'.pads := by
  obtain ⟨⟨new, hnew, horder⟩, ⟨inner, hinner, hids⟩, hk, hcause⟩ := h
  rw [hpads] at hinner
  cases inner with
  | nil =>
      have hdrop : c₀.pads.drop k = i :: c'.pads := hinner.symm
      have hlt : k < c₀.pads.length := by
        by_contra hge
        rw [List.drop_eq_nil_of_le (Nat.le_of_not_lt hge)] at hdrop
        cases hdrop
      rw [List.drop_eq_getElem_cons hlt] at hdrop
      obtain ⟨hi, hrest⟩ := List.cons.inj hdrop
      have hold : i.id < c₀.count := hfirst i (by rw [← hi]; exact List.getElem_mem hlt)
      refine ⟨k + 1, ⟨⟨i :: new, ?_, ?_⟩, ⟨[], ?_, fun _ hj => by cases hj⟩, ⟨by omega, by omega⟩,
        hans.trans hcause⟩, ?_⟩
      · rw [hstarted, hnew, List.cons_append]
      · rw [olderThan, List.filter_cons_of_pos (by simpa using hold), List.reverse_cons,
          ← olderThan, horder, ← hi]
        exact (List.take_succ_eq_append_getElem hlt).symm
      · rw [hrest, List.nil_append]
      · exact hrest ▸ List.suffix_refl _
  | cons j inner =>
      obtain ⟨rfl, hrest⟩ := List.cons.inj hinner
      have hnewer : c₀.count ≤ i.id := hids i List.mem_cons_self
      refine ⟨k, ⟨⟨i :: new, ?_, ?_⟩, ⟨inner, hrest, ?_⟩, hk, hans.trans hcause⟩, ?_⟩
      · rw [hstarted, hnew, List.cons_append]
      · rw [olderThan, List.filter_cons_of_neg (by simpa using hnewer)]
        exact horder
      · exact fun i hi => hids i (List.mem_cons_of_mem _ hi)
      · rw [hrest]
        exact List.suffix_append _ _

/-- One round of unwinding. -/
theorem Unwinding.round {c₀ c' : Config} {cause : VmResult} {k : Nat}
    (h : Unwinding P env vm c₀ cause c a p levels k) (hR : P.Ready env True) {al : Alloc}
    (hcontained : Contained env vm.storage.len al c) (hround : Round env al c c')
    (hcause : cause ≠ .ok) (hfirst : Numbered c₀) :
    ∃ a' p' levels' k', Unwinding P env vm c₀ cause c' a' p' levels' k' := by
  obtain ⟨a', p', levels', hbalanced, hadvance⟩ := h.balanced.round hR hcontained hround
  obtain ⟨hnumbered, hle⟩ := hadvance.numbered h.numbered
  have hlater := Nat.le_trans h.later hle
  rcases hadvance.calm_or_starts with ⟨hcalm, hans, hstack⟩ | ⟨i, pad, below, hstarts⟩
  · have hheld := hadvance.held hcalm h.balanced.stands.point hbalanced.stands.point h.held
    obtain ⟨new, hstarted, horder⟩ := h.unwound.started
    refine ⟨a', p', levels', k, hbalanced, ⟨⟨new, hcalm.trans hstarted, horder⟩, ?_,
      h.unwound.first, hans.trans h.unwound.ans⟩, hheld, hnumbered, hlater⟩
    exact hstack.above hheld.suffix h.later h.unwound.installed
  · obtain ⟨_, _, _, _, -, -, -, hans⟩ := hstarts.crash
    have hsame : c'.state.ans = c.state.ans := by
      rw [hans, VmResult.first, if_neg (by rw [h.unwound.ans]; exact hcause)]
    obtain ⟨k', hunwound, hsuffix⟩ := h.unwound.starts hfirst hstarts.pads hstarts.started hsame
    refine ⟨a', p', levels', k', hbalanced, hunwound, ?_, hnumbered, hlater⟩
    rw [hstarts.point]
    exact (held_handler c'.pads).mono hsuffix

/-- What is known of a run before its first crash. -/
theorem quiet_of_leads (hR : P.Ready env strict) {c₀ : Config} {al : Alloc}
    (hstarts : Starts al vm P.start.toNat c) (hcount : P.func.sig.argc ≤ vm.params.length)
    (hrun : Leads env (Contained env vm.storage.len) c c₀) :
    (∃ a p levels, Balanced P env strict vm c₀ a p levels) ∧ Numbered c₀ ∧
      (c₀.started = [] → c₀.state.ans = .ok) := by
  induction hrun with
  | refl =>
      obtain ⟨a, p, h⟩ := balanced_of_starts hR hstarts hcount
      refine ⟨⟨a, p, [], h⟩, fun i hi => ?_, fun _ => ?_⟩
      · rw [hstarts.pads] at hi
        cases hi
      · have henter := hstarts.enter
        rw [enter] at henter
        split at henter
        · cases henter
        · rw [← Status.running.inj henter]
  | tail _ hstep ih =>
      obtain ⟨⟨a, p, levels, h⟩, hnumbered, hans⟩ := ih
      obtain ⟨al', hcontained, hround⟩ := hstep
      obtain ⟨a', p', levels', h', hadvance⟩ := h.round hR hcontained hround
      refine ⟨⟨a', p', levels', h'⟩, (hadvance.numbered hnumbered).1, fun hnone => ?_⟩
      rcases hadvance.calm_or_starts with ⟨hcalm, hsame, -⟩ | ⟨i, pad, below, hfirst⟩
      · rw [hsame, hans (hcalm.symm.trans hnone)]
      · rw [hfirst.started] at hnone
        cases hnone

/-- The run crashes in this round. -/
def Crashes (env : Env) (al : Alloc) (c : Config) (cause : VmResult) : Prop :=
  ∃ i pc s, fetch env.code c.state.pc = some (i, pc) ∧ exec env al (c.fetched pc) i = .fail s cause

/-- Every handler that the next round can start finds the stacks as at its pad. -/
def StartsWell (env : Env) (al : Alloc) (c : Config) : Prop :=
  ∀ c' i, Round env al c c' → c'.started = i :: c.started → StartsAsInstalled c'.state i

/-- What holds in `c`, some rounds after the run crashed for the first time, in `c₀`. -/
structure AfterCrash (env : Env) (c₀ : Config) (cause : VmResult) (al : Alloc) (c : Config) :
    Prop where
  order : ∃ k, Unwound c₀ cause c k
  starts : StartsWell env al c
  notOk : ∀ vm', step env al c.state ≠ .done .ok vm'
  ends : ∀ cause' r vm', Crashes env al c cause' → step env al c.state = .done r vm' →
    r = cause ∧ Unwound c₀ cause c c₀.pads.length

/-- The points and stacks at a pad and at its handler agree. -/
theorem StateAt.asInstalled {s : State} {q : Point} {pc : Nat} {i : Installed}
    (h : StateAt a q s) (hi : StateAt a { q with pc := pc } i.state) (hdropped : q.dropped = 0)
    (htemps : q.temps = []) : StartsAsInstalled s i where
  storage := h.storage.trans hi.storage.symm
  params := (h.args hdropped htemps).trans (hi.args hdropped htemps).symm
  base := h.base.trans hi.base.symm
  paramBase := h.paramBase.trans hi.paramBase.symm

theorem Balanced.startsWell (hR : P.Ready env strict) (h : Balanced P env strict vm c a p levels)
    {al : Alloc} (hcontained : Contained env vm.storage.len al c) : StartsWell env al c := by
  intro c' i hround hstarted
  obtain ⟨a', p', levels', h', hadvance⟩ := h.round hR hcontained hround
  rcases hadvance.calm_or_starts with ⟨hcalm, -⟩ | ⟨j, pad, below, hstarts⟩
  · rw [hstarted] at hcalm
    exact absurd (congrArg List.length hcalm) (by simp)
  · rw [hstarts.started] at hstarted
    obtain ⟨rfl, -⟩ := List.cons.inj hstarted
    obtain ⟨q, hinstalled⟩ := hstarts.installed
    have hpoint := hstarts.point
    refine h'.stands.state.asInstalled hinstalled ?_ ?_
    · rw [hpoint]
      rfl
    · rw [hpoint]
      rfl

/-- A crash ends the run only if no pad of the run is left, and then with the first cause. -/
theorem Balanced.crash_ends (hR : P.Ready env strict) (h : Balanced P env strict vm c a p levels)
    {al : Alloc} {cause r : VmResult} {vm' : VM} (hcrash : Crashes env al c cause)
    (hstep : step env al c.state = .done r vm') :
    c.pads = [] ∧ r = c.state.ans.first cause ∧ r ≠ .ok := by
  obtain ⟨i, pc, s, hfetch, hexec⟩ := hcrash
  obtain ⟨hlen, hcrash, hparams, hans, hne, -⟩ := h.crashed hR hfetch hexec
  rw [step_fetched hfetch, hexec] at hstep
  rcases h.caught (c := c) hlen hcrash hparams with ⟨hnone, -⟩ |
    ⟨_, _, _, _, _, _, s', -, hrun, -⟩
  · have hfirst := VmResult.first_ne_ok s.ans hne
    have hr := unwind_done hfirst hstep
    rw [hr, ← hans]
    exact ⟨hnone, rfl, hfirst⟩
  · rw [hrun] at hstep
    cases hstep

/-- A run that is unwinding does not end with `VM_OK`. -/
theorem Unwinding.notOk {c₀ : Config} {cause : VmResult} {k : Nat}
    (h : Unwinding P env vm c₀ cause c a p levels k) (hR : P.Ready env True) (al : Alloc) (vm' : VM) :
    step env al c.state ≠ .done .ok vm' := by
  intro hstep
  have hbalanced := h.balanced
  obtain ⟨i, pc, hfetch, hmove⟩ := move_of_stateAt hR.accepted hR.loaded hR.short hR.keeps hR.natives
    hbalanced.world.ok hbalanced.stands.point hbalanced.stands.state al
  have hrun := hstep
  rw [step_fetched hfetch] at hrun
  change Move P env True a p (c.fetched pc) i (exec env al (c.fetched pc) i) at hmove
  generalize hexec : exec env al (c.fetched pc) i = e at hmove hrun
  cases hmove with
  | op => cases hrun
  | goes => cases hrun
  | guard => cases hrun
  | unguard => cases hrun
  | call => cases hrun
  | ret hpads hfloor =>
      have hret := hbalanced.ret hR hfetch al
      rw [hexec] at hret
      cases hret with
      | out hlevels _ _ _ =>
          -- no handler is running that could have kept the pads below it
          have hheld := h.held
          rw [hlevels] at hheld
          rcases hheld with ⟨below, hsome, -⟩ | hheld
          · rw [hfloor] at hsome
            cases hsome
          · exact hheld
      | back => cases hrun
  | fail _ _ _ _ _ hne _ =>
      exact (hbalanced.crash_ends hR ⟨i, pc, _, hfetch, hexec⟩ hstep).2.2 rfl
  | hardCrash => cases hrun
  | nullGlobal => cases hrun
  | invalidArg => cases hrun
  | nullNative => cases hrun

theorem Unwinding.afterCrash {c₀ : Config} {cause : VmResult} {k : Nat}
    (h : Unwinding P env vm c₀ cause c a p levels k) (hR : P.Ready env True) (hcause : cause ≠ .ok)
    {al : Alloc} (hcontained : Contained env vm.storage.len al c) : AfterCrash env c₀ cause al c := by
  refine ⟨⟨k, h.unwound⟩, h.balanced.startsWell hR hcontained, h.notOk hR al, ?_⟩
  intro cause' r vm' hcrash hstep
  obtain ⟨hnone, hr, -⟩ := h.balanced.crash_ends hR hcrash hstep
  have hk : k = c₀.pads.length := by
    have hheld := h.held.suffix
    rw [hnone, List.suffix_nil, List.drop_eq_nil_iff] at hheld
    exact Nat.le_antisymm h.unwound.first.2 hheld
  rw [h.unwound.ans, VmResult.first, if_neg hcause] at hr
  exact ⟨hr, hk ▸ h.unwound⟩

/-- The first crash starts the handler of the innermost pad. -/
theorem Balanced.unwinding (hR : P.Ready env True) {c₀ : Config}
    (h : Balanced P env True vm c₀ a p levels) (hnumbered : Numbered c₀)
    (hans : c₀.state.ans = .ok) {al : Alloc} {cause : VmResult} (hcrash : Crashes env al c₀ cause)
    (hcontained : Contained env vm.storage.len al c₀) (hround : Round env al c₀ c) :
    ∃ a' p' levels', Unwinding P env vm c₀ cause c a' p' levels' 1 := by
  obtain ⟨a', p', levels', h', hadvance⟩ := h.round hR hcontained hround
  obtain ⟨hnumbered', hle⟩ := hadvance.numbered hnumbered
  obtain ⟨i, pc, s, hfetch, hexec⟩ := hcrash
  have hstarts : ∃ i pad below, StartsHandler env al c₀ c i a' p' pad below := by
    rcases hadvance.calm_or_starts with ⟨hcalm, -⟩ | hstarts
    · cases hround with
      | next hfetch' hexec' =>
          rw [hfetch] at hfetch'
          obtain ⟨rfl, rfl⟩ := Prod.mk.inj (Option.some.inj hfetch')
          rw [hexec] at hexec'
          cases hexec'
      | fail _ _ _ _ _ _ hstarted =>
          rw [hstarted] at hcalm
          exact absurd (congrArg List.length hcalm) (by simp)
    · exact hstarts
  obtain ⟨j, pad, below, hpoint, hpads, hstarted, -, _, _, _, _, hfetch', hexec', hne, hsame⟩ :=
    hstarts
  rw [hfetch] at hfetch'
  obtain ⟨rfl, rfl⟩ := Prod.mk.inj (Option.some.inj hfetch')
  rw [hexec] at hexec'
  cases hexec'
  have hold : j.id < c₀.count := hnumbered j (by rw [hpads]; exact List.mem_cons_self)
  rw [hans, VmResult.first, if_pos rfl] at hsame
  refine ⟨a', p', levels', h', ⟨⟨[j], hstarted, ?_⟩, ⟨[], ?_, fun _ hi => by cases hi⟩,
    ⟨Nat.le_refl _, ?_⟩, hsame⟩, ?_, hnumbered', hle⟩
  · rw [olderThan, List.filter_cons_of_pos (by simpa using hold), hpads]
    rfl
  · rw [hpads]
    rfl
  · rw [hpads, List.length_cons]
    omega
  · rw [hpoint, hpads]
    exact held_handler c.pads

/-- Unwinding goes on to the end of the run. -/
theorem Unwinding.leads {c₀ c' : Config} {cause : VmResult} {k : Nat}
    (h : Unwinding P env vm c₀ cause c a p levels k) (hR : P.Ready env True) (hcause : cause ≠ .ok)
    (hfirst : Numbered c₀) (hrun : Leads env (Contained env vm.storage.len) c c') :
    ∃ a' p' levels' k', Unwinding P env vm c₀ cause c' a' p' levels' k' := by
  induction hrun with
  | refl => exact ⟨a, p, levels, k, h⟩
  | tail _ hstep ih =>
      obtain ⟨a', p', levels', k', h'⟩ := ih
      obtain ⟨al, hcontained, hround⟩ := hstep
      exact h'.round hR hcontained hround hcause hfirst

end Unwinding

/-- Crash unwinding: `c₀` is the configuration of the first soft crash of a run whose stores stay
away from the return frames. -/
theorem crash_unwinds (P : Program) (env : Env) (vm : VM) (haccepted : P.Accepted)
    (hloaded : P.Loaded env.code) (hshort : P.Short) (hkeeps : P.KeepsHandlers)
    (hnatives : NativesKeep env) (hcount : P.func.sig.argc ≤ vm.params.length) {al al₀ : Alloc}
    {c c₀ : Config} {cause : VmResult} (hstarts : Starts al vm P.start.toNat c)
    (hrun : Leads env (Contained env vm.storage.len) c c₀) (hfirst : c₀.started = [])
    (hcrash : Crashes env al₀ c₀ cause) (hcontained : Contained env vm.storage.len al₀ c₀) :
    (∀ r vm', step env al₀ c₀.state = .done r vm' → r = cause ∧ r ≠ .ok ∧ c₀.pads = []) ∧
      StartsWell env al₀ c₀ ∧
      ∀ c₁ c₂, Round env al₀ c₀ c₁ → Leads env (Contained env vm.storage.len) c₁ c₂ →
        ∀ al₂, Contained env vm.storage.len al₂ c₂ → AfterCrash env c₀ cause al₂ c₂ := by
  have hR : P.Ready env True := ⟨haccepted, hloaded, hshort, fun _ => hkeeps, hnatives⟩
  obtain ⟨⟨a, p, levels, h⟩, hnumbered, hans⟩ := quiet_of_leads hR hstarts hcount hrun
  have hans := hans hfirst
  refine ⟨fun r vm' hstep => ?_, h.startsWell hR hcontained, fun c₁ c₂ hround hleads al₂ hal₂ => ?_⟩
  · obtain ⟨hnone, hr, hne⟩ := h.crash_ends hR hcrash hstep
    rw [hans, VmResult.first, if_pos rfl] at hr
    exact ⟨hr, hne, hnone⟩
  · obtain ⟨i, pc, s, hfetch, hexec⟩ := hcrash
    have hne := (h.crashed hR hfetch hexec).ne_ok
    obtain ⟨a₁, p₁, levels₁, h₁⟩ :=
      h.unwinding hR hnumbered hans ⟨i, pc, s, hfetch, hexec⟩ hcontained hround
    obtain ⟨a₂, p₂, levels₂, k, h₂⟩ := h₁.leads hR hne hnumbered hleads
    exact h₂.afterCrash hR hne hal₂

/-! ## A handler that forgets the crash -/

theorem Program.keepsHandlers_of_funcs {P : Program}
    (hmain : HandlersKept P.func.blocks none (.node 0))
    (hfuncs : ∀ f ∈ P.ctx.funcs, HandlersKept f.blocks none (.node 0)) : P.KeepsHandlers := by
  intro base f bytes hhas
  cases hhas with
  | main => exact hmain
  | callee hf _ => exact hfuncs f (List.mem_of_getElem? hf)

/-- The handler takes a slice of a local, leaves the local and calls `clearFirst`. -/
def forgetsCrash : Func where
  sig := ⟨[], []⟩
  types := sliceTypes
  blocks := [.var 0 1, .crashPad 2 3, .crash, .many (some 4) (some 6), .var 1 5, .basic ⟨0, 3⟩,
    .chain (some 7) none, .basic ⟨3, 2⟩]
  ops := [⟨.pushVar, 0⟩, ⟨.pushVar, 1⟩, ⟨.sliceFromOne, 0⟩, ⟨.pushVar, 0⟩, ⟨.call, 0⟩]
  vars := [2, 0]

/-- The handler of a pad crashes inside another pad. -/
def crashesTwice : Func where
  sig := ⟨[], []⟩
  types := sliceTypes
  blocks := [.crashPad 1 4, .crashPad 2 3, .crash, .crash, .basic ⟨0, 0⟩]
  ops := []
  vars := []

/-- Does the next round crash? -/
def Config.crashes (env : Env) (c : Config) (cause : VmResult) : Bool :=
  match fetch env.code c.state.pc with
  | none => false
  | some (i, pc) =>
      match exec env {} (c.fetched pc) i with
      | .fail _ r => r = cause
      | _ => false

theorem crashes_of_check {env : Env} {c : Config} {cause : VmResult}
    (h : c.crashes env cause = true) : Crashes env {} c cause := by
  rw [Config.crashes] at h
  split at h
  · cases h
  · rename_i i pc hfetch
    split at h
    · rename_i s r hexec
      rw [of_decide_eq_true h] at hexec
      exact ⟨i, pc, s, hfetch, hexec⟩
    · cases h

/-- `B_RET` of the callee of the handler finds a zero in its return frame. -/
theorem forgetsCrash_ends_ok : ¬ ∀ (P : Program) (env : Env) (vm : VM), P.Accepted →
    P.Loaded env.code → P.Short → P.KeepsHandlers → NativesKeep env →
    P.func.sig.argc ≤ vm.params.length → ∀ al al₀ c c₀ cause, Starts al vm P.start.toNat c →
    Leads env (fun _ _ => True) c c₀ → c₀.started = [] → Crashes env al₀ c₀ cause →
    ∀ c₁ c₂, Round env al₀ c₀ c₁ → Leads env (fun _ _ => True) c₁ c₂ →
    ∀ al₂ vm', step env al₂ c₂.state ≠ .done .ok vm' := by
  intro hall
  let P := Program.assemble ⟨[clearFirst], []⟩ 10 forgetsCrash
  obtain ⟨hloaded, hshort, -⟩ := Program.ready_of_check P P.env.code (by
    decide)
  have hkeeps : P.KeepsHandlers := by
    refine Program.keepsHandlers_of_funcs ?_ ?_
    · refine .var rfl (.crashPad rfl (.crash rfl) ?_)
      exact .many rfl (.link rfl (.var rfl (.basic rfl)) (.last (.basic rfl)))
    · intro f hf
      rw [List.mem_singleton.mp hf]
      exact .var rfl (.basic rfl)
  obtain ⟨c, c₀, hstarts, hrun, hcheck⟩ := reached_of_check P.env freshVM 5000 2
    (fun _ c₀ => c₀.crashes P.env .crash && c₀.started.isEmpty && (c₀.advance P.env {}).any fun c₁ =>
      (c₁.advances P.env 17).any fun c₂ => (step P.env {} c₂.state).endsWith .ok fun _ => true)
    (by decide)
  rw [Bool.and_eq_true, Bool.and_eq_true, Option.any_eq_true] at hcheck
  obtain ⟨⟨hcrash, hnone⟩, c₁, hround, hend⟩ := hcheck
  obtain ⟨c₂, hleads, hend⟩ := (Option.any_eq_true _ _).mp hend
  have hne := hall P P.env freshVM (Program.assemble_accepted (by decide)) hloaded hshort
    hkeeps P.env_natives (Nat.zero_le _) {} {} c c₀ .crash hstarts
    (leads_of_advances hrun fun _ _ _ _ => trivial) (List.isEmpty_iff.mp hnone)
    (crashes_of_check hcrash) c₁ c₂ (round_of_advance hround)
    (leads_of_advances hleads fun _ _ _ _ => trivial) {}
  obtain ⟨vm, hstep, -⟩ := Status.endsWith_iff.mp hend
  exact hne vm hstep

/-- Both pads of `crashesTwice` are unwound. -/
theorem crash_unwinds_crashesTwice : ∃ (P : Program) (env : Env) (vm : VM) (c c₀ c₂ : Config),
    P.func = crashesTwice ∧ Starts {} vm P.start.toNat c ∧ c₀.pads.length = 2 ∧
    c₂.started.length = 1 ∧ AfterCrash env c₀ .crash {} c₂ := by
  let P := Program.assemble ⟨[], []⟩ 10 crashesTwice
  obtain ⟨hloaded, hshort, -⟩ := Program.ready_of_check P P.env.code (by
    decide)
  have hkeeps : P.KeepsHandlers := by
    refine Program.keepsHandlers_of_funcs ?_ fun f hf => by cases hf
    exact .crashPad rfl (.crashPad rfl (.crash rfl) (.crash rfl)) (.basic rfl)
  obtain ⟨c, c₀, hstarts, hrun, hcheck⟩ := reached_of_check P.env freshVM 5000 2
    (fun c c₀ => c₀.crashes P.env .crash && c₀.started.isEmpty && c₀.pads.length == 2 &&
      c₀.contained P.env 0 &&
      ((List.range 2).all fun k => (c.advances P.env k).all (Config.contained P.env 0)) &&
      (c₀.advance P.env {}).any fun c₁ => c₁.contained P.env 0 && c₁.started.length == 1)
    (by decide)
  simp only [Bool.and_eq_true, Option.any_eq_true] at hcheck
  obtain ⟨⟨⟨⟨⟨hcrash, hnone⟩, hpads⟩, hlast⟩, hall⟩, c₁, hround, hc₁, hstarted⟩ := hcheck
  have hunwinds := crash_unwinds P P.env freshVM (Program.assemble_accepted (by decide))
    hloaded hshort hkeeps P.env_natives (Nat.zero_le _) hstarts (leads_contained hrun hall)
    (List.isEmpty_iff.mp hnone) (crashes_of_check hcrash) (contained_of_check hlast)
  exact ⟨P, P.env, freshVM, c, c₀, c₁, rfl, hstarts, by simpa using hpads, by simpa using hstarted,
    hunwinds.2.2 c₁ c₁ (round_of_advance hround) .refl {} (contained_of_check hc₁)⟩

end TreeVM
