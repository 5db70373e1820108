import TreeVM.Defer.PathRule

/-!
# Every entry of a protected body is followed by at most one start of its cleanup

A monitor follows one defer along the trace of a run.  Three rules cover the places a block can
have relative to that defer:

* `quiet`: outside of it, with nothing on the path that mentions it: no event concerns it;
* `guarded`: inside its protected body: its cleanup is started only by a break that leaves it;
* `closed`: around it: it is not open before and not open after.

The rules fail in one way only: a copied epilogue is left by a soft crash or a break while the
crash pad of a defer whose cleanup has been copied in front of the same break is still installed.
The monitor records it (`torn`).
-/

namespace TreeVM

structure Monitor where
  /-- the body is being run -/
  opened : Bool := false
  /-- the cleanup has been started since the body was last entered -/
  used : Bool := false
  /-- it was started a second time -/
  twice : Bool := false
  /-- a copied epilogue was left by a soft crash or a break while `opened` and `used` -/
  torn : Bool := false
  deriving DecidableEq, Repr

namespace Monitor

def start (m : Monitor) : Monitor :=
  { m with used := true, twice := m.twice || m.used }

def next (id : Nat) : Event → Monitor → Monitor
  | .mark (.enter d), m => if d = id then { m with opened := true, used := false } else m
  | .mark (.cleanup d), m => if d = id then m.start else m
  | .mark (.inlined d), m => if d = id then m.start else m
  | .mark .inlinedPad, m => m
  | .mark .padBreak, m => m
  | .mark (.place _), m => m
  | .mark (.aim _), m => m
  | .exit d, m => if d = id then { m with opened := false } else m
  | .left, m => { m with torn := m.torn || (m.opened && m.used) }
  | .op _, m => m

/-- What the trace says about the defer named `id`. -/
def of (id : Nat) (trace : List Event) : Monitor :=
  trace.foldl (fun m e => m.next id e) {}

theorem next_torn {id : Nat} {e : Event} {m : Monitor} (h : (m.next id e).torn = false) :
    m.torn = false := by
  cases e with
  | mark k => cases k <;> simp only [next] at h <;> first | exact h | (split at h <;> exact h)
  | exit d => simp only [next] at h; split at h <;> exact h
  | left => simp only [next, Bool.or_eq_false_iff] at h; exact h.1
  | op o => exact h

end Monitor

/-- The monitor of `id`, as a view of the traced machine. -/
def Machine.monitor {σ : Type} (M : Machine σ) (id : Nat) : Watch M.traced Monitor where
  view s := .of id s.2
  next e m := m.next id e
  note e s := by simp [traced, Monitor.of]
  op o s := by cases h : M.op o s.1 <;> simp [traced, h, Step.map, Monitor.of, Monitor.next]
  test _ := rfl
  discard _ _ := rfl
  enter v s := by cases h : M.enter v s.1 <;> simp [traced, h, Step.map]
  leave _ _ := rfl
  restore _ _ := rfl
  raise _ := rfl
  hard _ := rfl

section Rules

open Outcome Watch

variable {σ : Type} (M : Machine σ) (id fuel : Nat)

def Safely (P : Monitor → Prop) (m : Monitor) : Prop :=
  m.torn = false → P m

/-! ## Outside the defer -/

/-- Nothing has happened since `m₀`. -/
def Kept (m₀ m : Monitor) : Prop :=
  m.torn = false → m = m₀

theorem Kept.left (id : Nat) {m₀ m : Monitor} (h : Kept m₀ m) : Kept m₀ (m.next id .left) := by
  intro htorn
  have hm := h (Monitor.next_torn htorn)
  subst hm
  cases m
  simp_all [Monitor.next]

theorem exited_other {d : Nat} (hd : d ≠ id) (o : Outcome Monitor) :
    o.exited (M.monitor id).next d = o := by
  cases o <;> simp [exited, Machine.monitor, Monitor.next, hd]

def QuietAt (m₀ : Monitor) (u : Tree) : Prop :=
  (M.monitor id).Triple fuel (Kept m₀) u fun o => Kept m₀ o.state

/-- The epilogue of the frame does not concern `id`. -/
def Frame.QuietAt (m₀ : Monitor) : Frame → Prop
  | deferBody d c => d ≠ id ∧ TreeVM.QuietAt M id fuel m₀ c
  | padBody p => TreeVM.QuietAt M id fuel m₀ p
  | _ => True

variable {M id fuel}

/-- A copy of a quiet epilogue. -/
theorem Frame.QuietAt.copy {m₀ : Monitor} {f : Frame} {e : Tree} (h : f.QuietAt M id fuel m₀)
    (he : f.inlined = some e) :
    (M.monitor id).Triple fuel (Kept m₀) e (onNormal (Kept m₀) fun o => Kept m₀ o.state) := by
  have close : ∀ (k : Mark) (o : Outcome Monitor), (k = .inlinedPad ∨ ∃ d, k = .inlined d) →
      Kept m₀ o.state → onNormal (Kept m₀) (fun o => Kept m₀ o.state)
        (o.close (M.monitor id).next k) := by
    rintro k o hk ho
    rcases hk with rfl | ⟨d, rfl⟩ <;> cases o <;> first | exact ho | exact Kept.left id ho
  cases f with
  | deferBody d c =>
      cases he
      refine triple_mark (R := Kept m₀) (fun m hm => ?_) (h.2.post fun o => close _ o (.inr ⟨d, rfl⟩))
      simpa [Machine.monitor, Monitor.next, h.1] using hm
  | padBody p =>
      cases he
      have hp : TreeVM.QuietAt M id fuel m₀ p := h
      exact triple_mark (fun _ hm => hm) (hp.post fun o => close _ o (.inl rfl))
  | _ => simp [Frame.inlined] at he

variable (M id fuel) in
def quietRule (m₀ : Monitor) : PathRule (M.monitor id) fuel where
  pre := Kept m₀
  post _ o := Kept m₀ o.state
  ok names path := id ∉ names ∧ ∀ f ∈ reach path, f.QuietAt M id fuel m₀
  settled h := ⟨h, h, h, h⟩
  of_normal h := h
  of_crash h := h
  outer := by
    intro f path o _ ho
    split
    · simpa using ho
    · exact ho
  ok_sublist hsub h := ⟨fun hmem => h.1 (hsub.mem hmem), h.2⟩
  ok_plain := by
    intro names f path hf h
    refine ⟨h.1, ?_⟩
    cases f <;> simp_all [Frame.isPlain, reach, Frame.QuietAt]
  ok_padBody := by
    intro body pad path _ _ h hpad
    exact ⟨fun hmem => h.1 (List.mem_append_left _ hmem), by simpa [reach] using ⟨hpad, h.2⟩⟩
  brk := by
    intro names path level h hlevel
    refine triple_breakBlocks hlevel.1 (R := Kept m₀) (triple_sequence fun e he => ?_) fun _ h => h
    rw [hlevel.popped] at he
    obtain ⟨f, hf, hfe⟩ := List.mem_filterMap.mp he
    refine ((h.2 f (List.mem_of_mem_take hf)).copy hfe).post fun o ho => ?_
    cases o <;> simpa [onNormal] using ho
  defer := by
    intro d next cleanup path _ hlegal h hnext hcleanup
    simp only [Tree.names, List.mem_cons, List.mem_append, not_or] at h
    obtain ⟨⟨hd, hn, hc⟩, hpath⟩ := h
    have hd' : d ≠ id := fun h => hd h.symm
    have hcleanup := hcleanup (.cleanup :: path) hlegal.2 ⟨hc, by simp [reach]⟩
    have hnext := hnext _ hlegal.1 ⟨hn, by simpa [reach, Frame.QuietAt] using ⟨⟨hd', hcleanup⟩, hpath⟩⟩
    refine triple_deferBlocks (S := Kept m₀) (R := Kept m₀) (T := Kept m₀) ?_
      (hnext.post fun o ho => ?_) ?_ (hcleanup.post fun o ho => ?_)
    · intro m hm
      simpa [Machine.monitor, Monitor.next, hd'] using hm
    · rw [exited_other M id hd']
      cases o <;> simpa [onCrash, onNormal] using ho
    · intro m hm
      simpa [Machine.monitor, Monitor.next, hd'] using hm
    · simpa using ho

theorem quiet_lower {t : Tree} {path : List Frame} (hplain : t.Unmarked)
    (hlegal : t.BreaksIn LegalBreak path) (hid : id ∉ t.names)
    (hpath : ∀ m₀, ∀ f ∈ reach path, f.QuietAt M id fuel m₀) (m₀ : Monitor) :
    QuietAt M id fuel m₀ (t.lower path) :=
  (quietRule M id fuel m₀).lower hplain hlegal ⟨hid, hpath m₀⟩

/-- A quiet tree keeps everything the monitor says. -/
theorem QuietAt.keeps {u : Tree} (h : ∀ m₀, QuietAt M id fuel m₀ u) (P : Monitor → Prop) :
    (M.monitor id).Triple fuel (Safely P) u
      fun o => Safely P o.state := by
  intro s hs htorn
  have hkept := h ((M.monitor id).view s) s (fun _ => rfl) htorn
  rw [hkept] at htorn ⊢
  exact hs htorn

/-- Nothing runs any more. -/
def Outcome.stopped {τ : Type} : Outcome τ → Prop
  | .halt _ => True
  | .timeout _ => True
  | _ => False

/-- `P` still holds after a copied epilogue; if it was left by a soft crash or a break, then no
started cleanup is in danger. -/
def CopyEnd (P : Monitor → Prop) (o : Outcome Monitor) : Prop :=
  o.state.torn = false → P o.state ∧ (o.stopped ∨ (o.state.opened && o.state.used) = false)

theorem copyEnd_quiet {k : Mark} {u : Tree} (hk : k = .inlinedPad ∨ ∃ d, k = .inlined d)
    (h : ∀ m₀, QuietAt M id fuel m₀ u) {P : Monitor → Prop}
    (hP : ∀ m, P m → P (m.next id .left)) :
    (M.monitor id).Triple fuel (Safely P) u fun o =>
      onNormal (Safely P) (CopyEnd P) (o.close (M.monitor id).next k) := by
  refine (QuietAt.keeps h P).post fun o ho => ?_
  have left : ∀ m : Monitor, (m.torn = false → P m) → (m.next id .left).torn = false →
      P (m.next id .left) ∧ ((m.next id .left).opened && (m.next id .left).used) = false := by
    intro m hm htorn
    have hopen : (m.opened && m.used) = false := by
      simp only [Monitor.next, Bool.or_eq_false_iff] at htorn
      exact htorn.2
    exact ⟨hP m (hm (Monitor.next_torn htorn)), hopen⟩
  rcases hk with rfl | ⟨d, rfl⟩ <;> cases o with
  | normal m => exact ho
  | halt m => exact fun htorn => ⟨ho htorn, .inl trivial⟩
  | timeout m => exact fun htorn => ⟨ho htorn, .inl trivial⟩
  | _ => exact fun htorn => ⟨(left _ ho htorn).1, .inr (left _ ho htorn).2⟩

/-- The copy of an epilogue that does not concern `id`. -/
theorem copyEnd_frame {f : Frame} {e : Tree} (h : ∀ m₀, f.QuietAt M id fuel m₀)
    (he : f.inlined = some e) {P : Monitor → Prop} (hP : ∀ m, P m → P (m.next id .left)) :
    (M.monitor id).Triple fuel (Safely P) e
      (onNormal (Safely P) (CopyEnd P)) := by
  cases f with
  | deferBody d c =>
      cases he
      have hd : d ≠ id := (h {}).1
      refine triple_mark (fun m hm => ?_) (copyEnd_quiet (.inr ⟨d, rfl⟩) (fun m₀ => (h m₀).2) hP)
      simpa [Machine.monitor, Monitor.next, hd] using hm
  | padBody p =>
      cases he
      exact triple_mark (fun _ hm => hm) (copyEnd_quiet (.inl rfl) h hP)
  | _ => simp [Frame.inlined] at he

/-! ## Inside the protected body -/

/-- In the body, and its cleanup not yet started. -/
def Inside (m : Monitor) : Prop :=
  m.opened = true ∧ m.used = false ∧ m.twice = false

/-- On a break path that has started the cleanup. -/
def Leaving (m : Monitor) : Prop :=
  m.opened = true ∧ m.used = true ∧ m.twice = false

/-- The outcome leaves `n` scopes and one more, or nothing runs any more. -/
def Outcome.passes (n : Nat) : Outcome Monitor → Prop
  | .brk k _ => n < k
  | o => o.stopped

/-- If the cleanup was started, the run is on its way out of the body, `n` scopes further up. -/
def InsideEnd (n : Nat) (o : Outcome Monitor) : Prop :=
  o.state.torn = false →
    o.state.opened = true ∧ o.state.twice = false ∧ (o.state.used = true → o.passes n)

theorem CopyEnd.inside {P : Monitor → Prop} {n : Nat} {o : Outcome Monitor} (h : CopyEnd P o)
    (hP : ∀ m, P m → m.opened = true ∧ m.twice = false) : InsideEnd n o := by
  intro htorn
  obtain ⟨hp, hstop⟩ := h htorn
  obtain ⟨hopen, htwice⟩ := hP _ hp
  refine ⟨hopen, htwice, fun hused => ?_⟩
  rcases hstop with hstop | hstop
  · cases o <;> first | exact hstop | exact hstop.elim
  · simp [hopen, hused] at hstop

theorem insideEnd_of_inside {n : Nat} {o : Outcome Monitor} (h : Safely Inside o.state) :
    InsideEnd n o :=
  fun htorn => ⟨(h htorn).1, (h htorn).2.2, by simp [(h htorn).2.1]⟩

theorem InsideEnd.still {n : Nat} {o : Outcome Monitor} (h : InsideEnd n o)
    (hstay : ¬ o.passes n) : Safely Inside o.state := by
  intro htorn
  obtain ⟨hopen, htwice, hpass⟩ := h htorn
  exact ⟨hopen, Bool.eq_false_iff.mpr fun hused => hstay (hpass hused), htwice⟩

theorem InsideEnd.scope {n : Nat} {o : Outcome Monitor} (h : InsideEnd (1 + n) o) :
    InsideEnd n o.scope := by
  intro htorn
  rw [scope_state] at htorn ⊢
  obtain ⟨hopen, htwice, hpass⟩ := h htorn
  refine ⟨hopen, htwice, fun hused => ?_⟩
  have hp := hpass hused
  cases o with
  | brk k m =>
      simp only [Outcome.passes] at hp
      simp only [Outcome.scope, if_neg (show ¬ k ≤ 1 by omega), Outcome.passes]
      omega
  | _ => exact hp

theorem CopyEnd.scope {P : Monitor → Prop} {o : Outcome Monitor} (h : CopyEnd P o) :
    CopyEnd P o.scope := by
  intro htorn
  rw [scope_state] at htorn ⊢
  refine ⟨(h htorn).1, (h htorn).2.imp_left fun hstop => ?_⟩
  cases o <;> first | exact hstop | exact hstop.elim

variable (M id fuel) in
/-- Somewhere on the path, before any cleanup, stands the protected body; the epilogues up to
there do not start its cleanup and stay inside, those further out do not concern it. -/
def PathGuarded : List Frame → Prop
  | [] => False
  | .cleanup :: _ => False
  | .deferBody d c :: path =>
      (∀ m₀, QuietAt M id fuel m₀ c) ∧
        if d = id then ∀ m₀, ∀ f ∈ reach path, f.QuietAt M id fuel m₀ else PathGuarded path
  | .padBody p :: path =>
      ((M.monitor id).Triple fuel (Safely Inside) p (InsideEnd 0)) ∧
        PathGuarded path
  | _ :: path => PathGuarded path

variable (id) in
/-- The scopes between a place in the protected body and that body. -/
def above : List Frame → Nat
  | [] => 0
  | .deferBody d _ :: path => if d = id then 0 else 1 + above path
  | f :: path => (if f.counted then 1 else 0) + above path

/-- A copied handler that stays inside. -/
theorem copyEnd_padBody {o : Outcome Monitor} (h : InsideEnd 0 o) :
    onNormal (Safely Inside) (CopyEnd fun m => m.opened = true ∧ m.twice = false)
      (o.close (M.monitor id).next .inlinedPad) := by
  have left : ∀ m : Monitor, (m.torn = false → m.opened = true ∧ m.twice = false) →
      (m.next id .left).torn = false → ((m.next id .left).opened = true ∧
        (m.next id .left).twice = false) ∧
        ((m.next id .left).opened && (m.next id .left).used) = false := by
    intro m hm htorn
    have hopen : (m.opened && m.used) = false := by
      simp only [Monitor.next, Bool.or_eq_false_iff] at htorn
      exact htorn.2
    exact ⟨hm (Monitor.next_torn htorn), hopen⟩
  have hopen : ∀ htorn : o.state.torn = false, o.state.opened = true ∧ o.state.twice = false :=
    fun htorn => ⟨(h htorn).1, (h htorn).2.1⟩
  cases o with
  | normal m =>
      intro htorn
      obtain ⟨hopen, htwice, hpass⟩ := h htorn
      refine ⟨hopen, ?_, htwice⟩
      cases hused : m.used with
      | false => rfl
      | true => exact (hpass hused).elim
  | halt m => exact fun htorn => ⟨hopen htorn, .inl trivial⟩
  | timeout m => exact fun htorn => ⟨hopen htorn, .inl trivial⟩
  | _ => exact fun htorn => ⟨(left _ hopen htorn).1, .inr (left _ hopen htorn).2⟩

/-- The copies behind that of the cleanup. -/
theorem copies_leaving {fs : List Frame} (h : ∀ m₀, ∀ f ∈ fs, f.QuietAt M id fuel m₀) :
    (M.monitor id).Triple fuel (Safely Leaving) (.sequence (fs.filterMap Frame.inlined))
      (onNormal (Safely Leaving) (CopyEnd Leaving)) := by
  refine triple_sequence fun e he => ?_
  obtain ⟨f, hf, hfe⟩ := List.mem_filterMap.mp he
  exact copyEnd_frame (fun m₀ => h m₀ f hf) hfe fun _ hm => hm

/-- After the first `n` copies: the cleanup has been started only if it is one of them. -/
def Copied (id : Nat) (path : List Frame) (n : Nat) (m : Monitor) : Prop :=
  m.opened = true ∧ m.twice = false ∧ (m.used = true → above id path < n)

theorem Copied.further {path path' : List Frame} {n : Nat} {o : Outcome Monitor} {k : Nat}
    (h : onNormal (Safely (Copied id path n)) (fun o => InsideEnd k o.scope) o)
    (hpath : above id path' ≤ 1 + above id path) :
    onNormal (Safely (Copied id path' (n + 1))) (fun o => InsideEnd k o.scope) o := by
  cases o with
  | normal m =>
      intro htorn
      obtain ⟨hopen, htwice, habove⟩ := h htorn
      exact ⟨hopen, htwice, fun hused => by have := habove hused; omega⟩
  | _ => exact h

theorem copies_guarded {path : List Frame} (h : PathGuarded M id fuel path) (n k : Nat) :
    (M.monitor id).Triple fuel (Safely Inside)
      (.sequence (((reach path).take n).filterMap Frame.inlined))
      (onNormal (Safely (Copied id path n)) fun o => InsideEnd k o.scope) := by
  induction path generalizing n with
  | nil => exact h.elim
  | cons f path ih =>
      cases n with
      | zero =>
          refine triple_stop fun m hm htorn => ?_
          obtain ⟨hopen, hused, htwice⟩ := hm htorn
          exact ⟨hopen, htwice, by simp [hused]⟩
      | succ n =>
          cases f with
          | cleanup => exact h.elim
          | deferBody d c =>
              by_cases hd : d = id
              · -- from here on the cleanup has been started
                subst hd
                simp only [PathGuarded, if_true] at h
                refine triple_chain (R := Safely Leaving) (triple_mark (R := Safely Leaving) ?_
                  ((copyEnd_quiet (.inr ⟨d, rfl⟩) h.1 fun _ hm => hm).post fun o ho => ?_))
                  ((copies_leaving fun m₀ f hf => h.2 m₀ f (List.mem_of_mem_take hf)).post
                    fun o ho => ?_)
                · intro m hm htorn
                  obtain ⟨hopen, hused, htwice⟩ := hm (Monitor.next_torn htorn)
                  simp [Machine.monitor, Monitor.next, Monitor.start, Leaving, hopen, hused, htwice]
                · rw [onNormal_onNormal]
                  exact ho.imp (fun _ hm => hm) fun o ho => ho.scope.inside fun m hm => ⟨hm.1, hm.2.2⟩
                · exact ho.imp (fun m hm htorn => ⟨(hm htorn).1, (hm htorn).2.2, by simp [above]⟩)
                    fun o ho => ho.scope.inside fun m hm => ⟨hm.1, hm.2.2⟩
              · simp only [PathGuarded, if_neg hd] at h
                have hcopy := copyEnd_frame (f := .deferBody d c) (fun m₀ => ⟨hd, h.1 m₀⟩) rfl
                  (P := Inside) fun _ hm => hm
                refine triple_chain (R := Safely Inside) (hcopy.post fun o ho => ?_)
                  ((ih h.2 n).post fun o ho => Copied.further ho (by simp [above, hd]))
                rw [onNormal_onNormal]
                exact ho.imp (fun _ hm => hm) fun o ho => ho.scope.inside fun m hm => ⟨hm.1, hm.2.2⟩
          | padBody p =>
              refine triple_chain (R := Safely Inside)
                (triple_mark (fun _ hm => hm) (h.1.post fun o ho => ?_))
                ((ih h.2 n).post fun o ho => Copied.further ho (by simp [above, Frame.counted]))
              rw [onNormal_onNormal]
              exact (copyEnd_padBody ho).imp (fun _ hm => hm) fun o ho => ho.scope.inside fun m hm => hm
          | scope => exact (ih h n).post fun o ho => Copied.further ho (by simp [above, Frame.counted])
          | arm => exact (ih h n).post fun o ho => Copied.further ho (by simp [above, Frame.counted])
          | handler =>
              exact (ih h n).post fun o ho => Copied.further ho (by simp [above, Frame.counted])

variable (M id fuel) in
def guardedRule : PathRule (M.monitor id) fuel where
  pre := Safely Inside
  post path := InsideEnd (above id path)
  ok names path := id ∉ names ∧ PathGuarded M id fuel path
  settled h := ⟨insideEnd_of_inside h, insideEnd_of_inside h, insideEnd_of_inside h,
    insideEnd_of_inside h⟩
  of_normal h := InsideEnd.still h not_false
  of_crash h := InsideEnd.still h not_false
  outer := by
    intro f path o hf ho
    cases f with
    | scope => exact InsideEnd.scope ho
    | deferBody d c => simp [Frame.isPlain, Frame.isPadBody] at hf
    | cleanup => simp [Frame.isPlain, Frame.isPadBody] at hf
    | _ => simpa [above, Frame.counted] using ho
  ok_sublist hsub h := ⟨fun hmem => h.1 (hsub.mem hmem), h.2⟩
  ok_plain := by
    intro names f path hf h
    refine ⟨h.1, ?_⟩
    cases f <;> simp_all [Frame.isPlain, PathGuarded]
  ok_padBody := by
    intro body pad path _ _ h hpad
    refine ⟨fun hmem => h.1 (List.mem_append_left _ hmem), hpad.post fun o ho htorn => ?_, h.2⟩
    obtain ⟨hopen, htwice, hpass⟩ := ho htorn
    refine ⟨hopen, htwice, fun hused => ?_⟩
    have hp := hpass hused
    cases o with
    | brk k m => exact Nat.lt_of_le_of_lt (Nat.zero_le _) hp
    | _ => exact hp
  brk := by
    intro names path level h hlevel
    rw [hlevel.popped]
    refine triple_breakBlocks hlevel.1 (copies_guarded h.2 (level - 1) (above id path)) ?_
    intro m hm htorn
    obtain ⟨hopen, htwice, habove⟩ := hm htorn
    refine ⟨hopen, htwice, fun hused => ?_⟩
    have := habove hused
    show above id path < level
    omega
  defer := by
    intro d next cleanup path hplain hlegal h hnext _
    simp only [Tree.names, List.mem_cons, List.mem_append, not_or] at h
    obtain ⟨⟨hd, hn, hc⟩, hpath⟩ := h
    have hd' : d ≠ id := fun h => hd h.symm
    have hcleanup : ∀ m₀, QuietAt M id fuel m₀ (cleanup.lower (.cleanup :: path)) :=
      quiet_lower hplain.2 hlegal.2 hc (by simp [reach])
    have hnext := hnext (.deferBody d (cleanup.lower (.cleanup :: path)) :: path) hlegal.1
      ⟨hn, hcleanup, by simpa [hd'] using hpath⟩
    refine triple_deferBlocks (S := Safely Inside) (R := Safely Inside) (T := Safely Inside) ?_
      (hnext.post fun o ho => ?_) ?_ ((QuietAt.keeps hcleanup Inside).post fun o ho => ?_)
    · intro m hm
      simpa [Machine.monitor, Monitor.next, hd'] using hm
    · rw [exited_other M id hd']
      simp only [above, if_neg hd'] at ho
      cases o with
      | normal m => exact ho.still not_false
      | crash m => exact ho.still not_false
      | _ => exact ho.scope
    · intro m hm
      simpa [Machine.monitor, Monitor.next, hd'] using hm
    · exact ⟨insideEnd_of_inside (by simpa using ho), insideEnd_of_inside (by simpa using ho)⟩

theorem guarded_lower {t : Tree} {path : List Frame} (hplain : t.Unmarked)
    (hlegal : t.BreaksIn LegalBreak path) (hid : id ∉ t.names)
    (hpath : PathGuarded M id fuel path) :
    (M.monitor id).Triple fuel (Safely Inside) (t.lower path) (InsideEnd (above id path)) :=
  (guardedRule M id fuel).lower hplain hlegal ⟨hid, hpath⟩

/-! ## Around the defer -/

def Outside (m : Monitor) : Prop :=
  m.opened = false ∧ m.twice = false

/-- The body has been left, and the cleanup not yet started. -/
def Unused (m : Monitor) : Prop :=
  m.opened = false ∧ m.used = false ∧ m.twice = false

/-- The body is not open any more, unless the run ended in it. -/
def OutsideEnd (o : Outcome Monitor) : Prop :=
  o.state.torn = false → o.state.twice = false ∧ (o.stopped ∨ o.state.opened = false)

theorem outsideEnd_of_outside {o : Outcome Monitor} (h : Safely Outside o.state) : OutsideEnd o :=
  fun htorn => ⟨(h htorn).2, .inr (h htorn).1⟩

theorem OutsideEnd.still {o : Outcome Monitor} (h : OutsideEnd o) (hrun : ¬ o.stopped) :
    Safely Outside o.state :=
  fun htorn => ⟨(h htorn).2.resolve_left hrun, (h htorn).1⟩

theorem OutsideEnd.scope {o : Outcome Monitor} (h : OutsideEnd o) : OutsideEnd o.scope := by
  intro htorn
  rw [scope_state] at htorn ⊢
  refine ⟨(h htorn).1, (h htorn).2.imp_left fun hstop => ?_⟩
  cases o <;> first | exact hstop | exact hstop.elim

variable (M id fuel) in
/-- The epilogue of the frame, wherever it is copied to, closes what it opens. -/
def Frame.Closed : Frame → Prop
  | deferBody d c => d ≠ id ∧ (M.monitor id).Triple fuel (Safely Outside) c OutsideEnd
  | padBody p => (M.monitor id).Triple fuel (Safely Outside) p OutsideEnd
  | _ => True

theorem Frame.Closed.copy {f : Frame} {e : Tree} (h : f.Closed M id fuel)
    (he : f.inlined = some e) :
    (M.monitor id).Triple fuel (Safely Outside) e (onNormal (Safely Outside) OutsideEnd) := by
  have close : ∀ (k : Mark) (o : Outcome Monitor), (k = .inlinedPad ∨ ∃ d, k = .inlined d) →
      OutsideEnd o → onNormal (Safely Outside) OutsideEnd (o.close (M.monitor id).next k) := by
    have left : ∀ m : Monitor, Safely Outside m → Safely Outside (m.next id .left) :=
      fun m hm htorn => hm (Monitor.next_torn htorn)
    rintro k o hk ho
    rcases hk with rfl | ⟨d, rfl⟩ <;> cases o with
    | normal m => exact ho.still not_false
    | halt m => exact ho
    | timeout m => exact ho
    | _ => exact outsideEnd_of_outside (left _ (ho.still not_false))
  cases f with
  | deferBody d c =>
      cases he
      refine triple_mark (fun m hm => ?_) (h.2.post fun o => close _ o (.inr ⟨d, rfl⟩))
      simpa [Machine.monitor, Monitor.next, h.1] using hm
  | padBody p =>
      cases he
      have hp : (M.monitor id).Triple fuel (Safely Outside) p OutsideEnd := h
      exact triple_mark (fun _ hm => hm) (hp.post fun o => close _ o (.inl rfl))
  | _ => simp [Frame.inlined] at he

/-- The four blocks of the defer itself: enter, leave, and then start the cleanup once. -/
theorem triple_defer_own {next cleanup : Tree}
    (hnext : (M.monitor id).Triple fuel (Safely Inside) next (InsideEnd 0))
    (hcleanup : ∀ m₀, QuietAt M id fuel m₀ cleanup) :
    (M.monitor id).Triple fuel (Safely Outside) (.deferBlocks id next cleanup) OutsideEnd := by
  have enter : ∀ m : Monitor, Safely Outside m → Safely Inside (m.next id (.mark (.enter id))) := by
    intro m hm htorn
    simpa [Monitor.next, Inside] using (hm (Monitor.next_torn htorn)).2
  have exit : ∀ m : Monitor, Safely Inside m → Safely Unused (m.next id (.exit id)) := by
    intro m hm htorn
    simpa [Monitor.next, Unused] using (hm (Monitor.next_torn htorn)).2
  have start : ∀ m : Monitor, Safely Unused m → Safely Outside (m.next id (.mark (.cleanup id))) := by
    intro m hm htorn
    obtain ⟨hopen, hused, htwice⟩ := hm (Monitor.next_torn htorn)
    simp [Monitor.next, Monitor.start, Outside, hopen, hused, htwice]
  refine triple_deferBlocks enter (hnext.post fun o ho => ?_) start
    ((QuietAt.keeps hcleanup Outside).post fun o ho => ?_)
  · cases o with
    | normal m => exact exit m (ho.still not_false)
    | crash m => exact exit m (ho.still not_false)
    | brk k m =>
        have hm : Safely Outside (m.next id (.exit id)) := by
          intro htorn
          simpa [Monitor.next, Outside] using (ho (Monitor.next_torn htorn)).2.1
        exact (outsideEnd_of_outside (o := .brk k _) hm).scope
    | halt m => exact fun htorn => ⟨(ho htorn).2.1, .inl trivial⟩
    | timeout m => exact fun htorn => ⟨(ho htorn).2.1, .inl trivial⟩
  · exact ⟨outsideEnd_of_outside (by simpa using ho), outsideEnd_of_outside (by simpa using ho)⟩

variable (M id fuel) in
def closedRule : PathRule (M.monitor id) fuel where
  pre := Safely Outside
  post _ := OutsideEnd
  ok names path := names.Nodup ∧ (∀ f ∈ reach path, f.Closed M id fuel) ∧
    (id ∈ names → ∀ m₀, ∀ f ∈ reach path, f.QuietAt M id fuel m₀)
  settled h := ⟨outsideEnd_of_outside h, outsideEnd_of_outside h, outsideEnd_of_outside h,
    outsideEnd_of_outside h⟩
  of_normal h := h.still not_false
  of_crash h := h.still not_false
  outer := by
    intro f path o _ ho
    split
    · exact ho.scope
    · exact ho
  ok_sublist hsub h := ⟨h.1.sublist hsub, h.2.1, fun hmem => h.2.2 (hsub.mem hmem)⟩
  ok_plain := by
    intro names f path hf h
    refine ⟨h.1, ?_⟩
    cases f <;> simp_all [Frame.isPlain, reach, Frame.QuietAt, Frame.Closed]
  ok_padBody := by
    intro body pad path hplain hlegal h hpad
    obtain ⟨hnodup, hclosed, hquiet⟩ := h
    have hdisj := List.nodup_append.mp hnodup
    refine ⟨hdisj.1, by simpa [reach] using ⟨hpad, hclosed⟩, fun hmem m₀ => ?_⟩
    have hpath := hquiet (List.mem_append_left _ hmem)
    have hid : id ∉ pad.names := fun hp => hdisj.2.2 _ hmem _ hp rfl
    have hq : QuietAt M id fuel m₀ (pad.lower (.handler :: path)) :=
      quiet_lower hplain hlegal hid (by simpa [reach, Frame.QuietAt] using hpath) m₀
    simpa [reach] using ⟨hq, hpath m₀⟩
  brk := by
    intro names path level h hlevel
    refine triple_breakBlocks hlevel.1 (R := Safely Outside) (triple_sequence fun e he => ?_)
      fun _ hm => outsideEnd_of_outside hm
    rw [hlevel.popped] at he
    obtain ⟨f, hf, hfe⟩ := List.mem_filterMap.mp he
    refine ((h.2.1 f (List.mem_of_mem_take hf)).copy hfe).post fun o ho => ?_
    exact ho.imp (fun _ hm => hm) fun _ ho => ho.scope
  defer := by
    intro d next cleanup path hplain hlegal h hnext hcleanup
    obtain ⟨hnodup, hclosed, hquiet⟩ := h
    simp only [Tree.names, List.nodup_cons, List.mem_append, not_or] at hnodup
    obtain ⟨⟨hdn, hdc⟩, hnodup⟩ := hnodup
    have hdisj := List.nodup_append.mp hnodup
    by_cases hd : d = id
    · subst hd
      have hpath := hquiet (by simp [Tree.names])
      have hcq : ∀ m₀, QuietAt M d fuel m₀ (cleanup.lower (.cleanup :: path)) :=
        quiet_lower hplain.2 hlegal.2 hdc (by simp [reach])
      have hguarded : PathGuarded M d fuel
          (.deferBody d (cleanup.lower (.cleanup :: path)) :: path) := ⟨hcq, by simpa using hpath⟩
      have hng := guarded_lower hplain.1 hlegal.1 hdn hguarded
      simp only [above, if_true] at hng
      exact triple_defer_own hng hcq
    · have hc := hcleanup (.cleanup :: path) hlegal.2 ⟨hdisj.2.1, by simp [reach]⟩
      have hcq : id ∈ next.names → ∀ m₀, QuietAt M id fuel m₀ (cleanup.lower (.cleanup :: path)) :=
        fun hmem => quiet_lower hplain.2 hlegal.2 (fun hp => hdisj.2.2 _ hmem _ hp rfl) (by simp [reach])
      have hn := hnext (.deferBody d (cleanup.lower (.cleanup :: path)) :: path) hlegal.1
        ⟨hdisj.1, by simpa [reach] using ⟨⟨hd, hc⟩, hclosed⟩, fun hmem m₀ => by
          simpa [reach] using
            ⟨⟨hd, hcq hmem m₀⟩, hquiet (by simp [Tree.names, hmem]) m₀⟩⟩
      refine triple_deferBlocks (S := Safely Outside) (R := Safely Outside) (T := Safely Outside)
        (fun m hm => ?_) (hn.post fun o ho => ?_) (fun m hm => ?_) (hc.post fun o ho => ?_)
      · simpa [Machine.monitor, Monitor.next, hd] using hm
      · rw [exited_other M id hd]
        cases o with
        | normal m => exact ho.still not_false
        | crash m => exact ho.still not_false
        | _ => exact ho.scope
      · simpa [Machine.monitor, Monitor.next, hd] using hm
      · refine ⟨ho.scope, OutsideEnd.scope ?_⟩
        cases o with
        | normal m => exact outsideEnd_of_outside (ho.still not_false)
        | _ => exact ho

end Rules

/-- In every run of the lowered tree: unless a copied epilogue is left by a soft crash or a break
while the defer `id` is open and its cleanup already started, that cleanup is started at most
once for each entry of the body. -/
theorem removeDefers_cleanup_once {blocks : List Block} {t : Tree}
    (h : RepresentsTree blocks t) (hplain : t.Unmarked) (hnames : t.names.Nodup)
    (hlegal : t.BreaksLegal) :
    ∃ out, (∀ fuel, t.size ≤ fuel → removeDefers fuel blocks = some out) ∧
      RepresentsTree out (t.lower []) ∧
      ∀ (σ : Type) (M : Machine σ) (fuel id : Nat) (s : σ) (o : Outcome (σ × List Event)),
        (t.lower []).eval M.traced fuel (s, []) = o →
        (Monitor.of id o.state.2).torn = false → (Monitor.of id o.state.2).twice = false := by
  obtain ⟨out, hrun, hout⟩ := removeDefers_represents h hlegal.levelsWithin
  refine ⟨out, hrun, hout, ?_⟩
  rintro σ M fuel id s o rfl htorn
  have hclosed : OutsideEnd (((t.lower []).eval M.traced fuel (s, [])).map (M.monitor id).view) :=
    (closedRule M id fuel).lower hplain hlegal.legalBreak
      ⟨hnames, by simp [reach], by simp [reach]⟩ (s, []) fun _ => ⟨rfl, rfl⟩
  rw [OutsideEnd, Outcome.map_state] at hclosed
  exact (hclosed htorn).1

/-! ## A cleanup that crashes in front of a break

`Defer Crash Start Break End` inside a sequence: the copy of the cleanup runs while the crash
pad of the defer is installed. -/

def crashingCopy : List Block :=
  [.many (some 1) none, .defer 2 4, .many (some 3) none, .brk 3, .crash]

def crashingCopyTree : Tree :=
  .many (.chain (.defer 1 (.many (.chain (.brk 3) .stop)) .crash) .stop)

def bareMachine : Machine Unit where
  ops := []
  op _ s := .ok s
  discard _ s := s
  test s := (true, s)
  enter _ s := .ok s
  leave _ s := s
  restore _ s := s
  raise s := s
  hard s := s
  note _ s := s

theorem crashingCopy_represents : RepresentsTree crashingCopy crashingCopyTree :=
  .many trivial rfl (.last (.defer trivial rfl (.many trivial rfl (.last (.brk trivial rfl)))
    (.crash trivial rfl)))

theorem crashingCopy_legal : crashingCopyTree.BreaksLegal := by
  simp [Tree.BreaksLegal, crashingCopyTree, Tree.BreaksIn, Tree.scopes, Frame.counted]

theorem crashingCopy_runs_twice :
    RepresentsTree crashingCopy crashingCopyTree ∧
      crashingCopyTree.BreaksLegal ∧
      (∃ out, removeDefers crashingCopyTree.size crashingCopy = some out ∧
        RepresentsTree out (crashingCopyTree.lower [])) ∧
      (crashingCopyTree.lower []).eval bareMachine.traced 0 ((), []) =
        .crash ((), [.mark (.enter 1), .mark (.inlined 1), .left, .exit 1, .mark (.cleanup 1)]) ∧
      (Monitor.of 1 ((crashingCopyTree.lower []).eval bareMachine.traced 0 ((), [])).state.2).twice =
        true := by
  refine ⟨crashingCopy_represents, crashingCopy_legal, ?_, by decide, by decide⟩
  obtain ⟨out, hrun, hout⟩ :=
    removeDefers_represents crashingCopy_represents crashingCopy_legal.levelsWithin
  exact ⟨out, hrun _ (Nat.le_refl _), hout⟩

/-! ## A break out of two defers

`Defer Op Defer Op Start Break End`: both cleanups are copied in front of the break, and neither copy
is left early. -/

def leavingBoth : List Block :=
  [.many (some 1) none, .defer 2 3, .defer 4 5, .basic ⟨0, 0⟩, .many (some 6) none, .basic ⟨0, 0⟩, .brk 4]

def leavingBothTree : Tree :=
  .many (.chain (.defer 1 (.defer 2 (.many (.chain (.brk 4) .stop)) (.basic ⟨0, 0⟩)) (.basic ⟨0, 0⟩)) .stop)

theorem leavingBoth_represents : RepresentsTree leavingBoth leavingBothTree :=
  .many trivial rfl (.last (.defer trivial rfl (.defer trivial rfl (.many trivial rfl
    (.last (.brk trivial rfl))) (.basic trivial rfl)) (.basic trivial rfl)))

theorem leavingBoth_legal : leavingBothTree.BreaksLegal := by
  simp [Tree.BreaksLegal, leavingBothTree, Tree.BreaksIn, Tree.scopes, Frame.counted]

theorem removeDefers_cleanup_once_leavingBoth :
    ∃ out, (∀ fuel, leavingBothTree.size ≤ fuel → removeDefers fuel leavingBoth = some out) ∧
      RepresentsTree out (leavingBothTree.lower []) ∧
      (leavingBothTree.lower []).eval bareMachine.traced 0 ((), []) =
        .normal ((), [.mark (.enter 1), .mark (.enter 2), .mark (.inlined 2), .mark (.inlined 1), .exit 2,
          .exit 1]) ∧
      ∀ id ∈ [1, 2],
        (Monitor.of id ((leavingBothTree.lower []).eval bareMachine.traced 0 ((), [])).state.2).twice =
          false := by
  obtain ⟨out, hrun, hout, honce⟩ := removeDefers_cleanup_once leavingBoth_represents
    (by simp [leavingBothTree, Tree.Unmarked]) (by simp [leavingBothTree, Tree.names]) leavingBoth_legal
  have htorn : ∀ id ∈ [1, 2],
      (Monitor.of id ((leavingBothTree.lower []).eval bareMachine.traced 0 ((), [])).state.2).torn =
        false := by decide
  exact ⟨out, hrun, hout, by decide, fun id hid => honce _ bareMachine 0 id () _ rfl (htorn id hid)⟩

end TreeVM
