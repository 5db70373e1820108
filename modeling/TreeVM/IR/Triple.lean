import TreeVM.IR.Semantics

/-!
# Pre- and postconditions of block trees

Rules for what a run of a tree does to a view of the machine's state.

* `Watch M τ`: a view in `τ` that only the recorded annotations change;
* `Watch.Triple`: from a state whose view satisfies `P`, the tree ends in an outcome whose view
  satisfies `Q`;
* one rule for each block; the rule of a loop is its invariant.
-/

namespace TreeVM

namespace Outcome

variable {σ τ : Type}

def map (f : σ → τ) : Outcome σ → Outcome τ
  | normal s => normal (f s)
  | brk n s => brk n (f s)
  | crash s => crash (f s)
  | halt s => halt (f s)
  | timeout s => timeout (f s)

@[simp] theorem state_normal (s : σ) : (normal s).state = s := rfl
@[simp] theorem state_brk (n : Nat) (s : σ) : (brk n s).state = s := rfl
@[simp] theorem state_crash (s : σ) : (crash s).state = s := rfl
@[simp] theorem state_halt (s : σ) : (halt s).state = s := rfl
@[simp] theorem state_timeout (s : σ) : (timeout s).state = s := rfl

@[simp] theorem map_state (f : σ → τ) (o : Outcome σ) : (o.map f).state = f o.state := by
  cases o <;> rfl

@[simp] theorem map_scope (f : σ → τ) (o : Outcome σ) : o.scope.map f = (o.map f).scope := by
  cases o with
  | brk n s => by_cases h : n ≤ 1 <;> simp [scope, map, h]
  | _ => rfl

@[simp] theorem scope_state (o : Outcome τ) : o.scope.state = o.state := by
  cases o with
  | brk n s => by_cases h : n ≤ 1 <;> simp [scope, h, state]
  | _ => rfl

@[simp] theorem reraise_id_state (o : Outcome τ) : (o.reraise id).state = o.state := by
  cases o <;> rfl

theorem map_reraise {f : σ → τ} {raise : σ → σ} (h : ∀ s, f (raise s) = f s) (o : Outcome σ) :
    (o.reraise raise).map f = (o.map f).reraise id := by
  cases o <;> simp [reraise, map, h]

theorem map_release {f : σ → τ} {leave : σ → σ} (h : ∀ s, f (leave s) = f s) (o : Outcome σ) :
    (o.release leave).map f = o.map f := by
  cases o <;> simp [release, map, h]

theorem map_close {f : σ → τ} {note : Event → σ → σ} {next : Event → τ → τ}
    (h : ∀ e s, f (note e s) = next e (f s)) (m : Mark) (o : Outcome σ) :
    (o.close note m).map f = (o.map f).close next m := by
  cases m <;> cases o <;> simp [close, exited, leftBy, map, h]

/-- `R` after a normal end, `Q` after any other. -/
def onNormal (R : τ → Prop) (Q : Outcome τ → Prop) : Outcome τ → Prop
  | normal s => R s
  | o => Q o

@[simp] theorem onNormal_onNormal (R R' : τ → Prop) (Q : Outcome τ → Prop) :
    onNormal R (onNormal R' Q) = onNormal R Q := by
  funext o
  cases o <;> rfl

theorem onNormal.imp {R R' : τ → Prop} {Q Q' : Outcome τ → Prop} {o : Outcome τ}
    (h : onNormal R Q o) (hR : ∀ m, R m → R' m) (hQ : ∀ o, Q o → Q' o) : onNormal R' Q' o := by
  cases o with
  | normal m => exact hR m h
  | _ => exact hQ _ h

/-- `R` after a soft crash, `Q` after any other end. -/
def onCrash (R : τ → Prop) (Q : Outcome τ → Prop) : Outcome τ → Prop
  | crash s => R s
  | o => Q o

/-- `Q` however an operation ends that leaves the view as it is. -/
def Settled (Q : Outcome τ → Prop) (m : τ) : Prop :=
  Q (normal m) ∧ Q (crash m) ∧ Q (halt m) ∧ Q (timeout m)

end Outcome

open Outcome

/-- A view of the machine's state that only annotations change. -/
structure Watch {σ : Type} (M : Machine σ) (τ : Type) where
  view : σ → τ
  next : Event → τ → τ
  note : ∀ e s, view (M.note e s) = next e (view s)
  op : ∀ o s, (M.op o s).map view = (M.op o s).map fun _ => view s
  test : ∀ s, view (M.test s).2 = view s
  discard : ∀ s s', view (M.discard s s') = view s'
  enter : ∀ v s, (M.enter v s).map view = (M.enter v s).map fun _ => view s
  leave : ∀ s s', view (M.leave s s') = view s'
  restore : ∀ s s', view (M.restore s s') = view s'
  raise : ∀ s, view (M.raise s) = view s
  hard : ∀ s, view (M.hard s) = view s

namespace Watch

variable {σ τ : Type} {M : Machine σ} (w : Watch M τ) (fuel : Nat)

def Triple (P : τ → Prop) (t : Tree) (Q : Outcome τ → Prop) : Prop :=
  ∀ s, P (w.view s) → Q ((t.eval M fuel s).map w.view)

theorem runOps_view (ops : List Op) (s : σ) :
    (M.runOps ops s).map w.view = (M.runOps ops s).map fun _ => w.view s := by
  induction ops generalizing s with
  | nil => rfl
  | cons o ops ih =>
      have ho := w.op o s
      simp only [Machine.runOps]
      cases hr : M.op o s with
      | ok s' =>
          simp only [hr, Step.map, Step.ok.injEq] at ho
          rw [← ho]
          exact ih s'
      | _ => simpa [hr] using ho

variable {w fuel} {P R : τ → Prop} {Q Q' : Outcome τ → Prop}

theorem Triple.post {t : Tree} (h : w.Triple fuel P t Q) (hQ : ∀ o, Q o → Q' o) :
    w.Triple fuel P t Q' :=
  fun s hs => hQ _ (h s hs)

theorem Triple.pre {t : Tree} (h : w.Triple fuel R t Q) (hP : ∀ m, P m → R m) :
    w.Triple fuel P t Q :=
  fun s hs => h s (hP _ hs)

/-- A step that settles the postcondition and leaves the view as it is. -/
theorem outcome_settled {r : Step σ} {k : σ → Outcome σ} {m : τ}
    (hr : r.map w.view = r.map fun _ => m) (hQ : Settled Q m)
    (hk : ∀ s, w.view s = m → Q ((k s).map w.view)) : Q ((r.outcome k).map w.view) := by
  obtain ⟨_, hcrash, hhalt, htimeout⟩ := hQ
  cases r with
  | ok s =>
      cases hr
      exact hk s rfl
  | crash s =>
      cases hr
      exact hcrash
  | halt s =>
      cases hr
      exact hhalt
  | timeout s =>
      cases hr
      exact htimeout

theorem triple_basic {r : OpRange} (h : ∀ m, P m → Settled Q m) :
    w.Triple fuel P (.basic r) Q := by
  intro s hs
  refine outcome_settled (w.runOps_view _ s) (h _ hs) fun s' hs' => ?_
  simpa [Outcome.map, w.discard, hs'] using (h _ hs).1

theorem triple_many {body : Tree} (h : w.Triple fuel P body fun o => Q o.scope) :
    w.Triple fuel P (.many body) Q := by
  intro s hs
  simpa only [Tree.eval, map_scope] using h s hs

theorem triple_chain {cur next : Tree} (hcur : w.Triple fuel P cur (onNormal R Q))
    (hnext : w.Triple fuel R next Q) : w.Triple fuel P (.chain cur next) Q := by
  intro s hs
  have h := hcur s hs
  simp only [Tree.eval]
  cases hc : cur.eval M fuel s with
  | normal s' => exact hnext s' (by simpa [hc, Outcome.map, onNormal] using h)
  | _ => simpa [hc, Outcome.map, onNormal] using h

theorem triple_stop (h : ∀ m, P m → Q (.normal m)) : w.Triple fuel P .stop Q :=
  fun _ hs => h _ hs

theorem triple_crash (h : ∀ m, P m → Q (.crash m)) : w.Triple fuel P .crash Q := by
  intro s hs
  simpa [Tree.eval, Outcome.map, w.raise] using h _ hs

theorem triple_hardCrash (h : ∀ m, P m → Q (.halt m)) : w.Triple fuel P .hardCrash Q := by
  intro s hs
  simpa [Tree.eval, Outcome.map, w.hard] using h _ hs

theorem triple_crashPad {body pad : Tree} (hbody : w.Triple fuel P body (onCrash R Q))
    (hpad : w.Triple fuel R pad fun o => Q (o.reraise id)) :
    w.Triple fuel P (.crashPad body pad) Q := by
  intro s hs
  have h := hbody s hs
  simp only [Tree.eval]
  cases hb : body.eval M fuel s with
  | crash s' =>
      have := hpad (M.restore s s') (by simpa [hb, Outcome.map, onCrash, w.restore] using h)
      simpa only [map_reraise w.raise] using this
  | _ => simpa [hb, Outcome.map, onCrash] using h

theorem triple_branch {cond : OpRange} {yes no : Tree} (h : ∀ m, P m → Settled Q m)
    (hyes : w.Triple fuel P yes Q) (hno : w.Triple fuel P no Q) :
    w.Triple fuel P (.branch cond yes no) Q := by
  intro s hs
  refine outcome_settled (w.runOps_view _ s) (h _ hs) fun s' hs' => ?_
  have htest := w.test s'
  rw [hs'] at htest
  split
  · rename_i heq
    rw [heq] at htest
    exact hyes _ (by simpa only [htest] using hs)
  · rename_i heq
    rw [heq] at htest
    exact hno _ (by simpa only [htest] using hs)

theorem iterate_view {body : σ → Outcome σ} {rounds : Nat}
    (hbody : ∀ s, P (w.view s) → onNormal P Q ((body s).map w.view))
    (htimeout : ∀ m, P m → Q (.timeout m)) (s : σ) (hs : P (w.view s)) :
    Q ((Machine.iterate body rounds s).map w.view) := by
  induction rounds generalizing s with
  | zero => exact htimeout _ hs
  | succ rounds ih =>
      have h := hbody s hs
      simp only [Machine.iterate]
      cases hb : body s with
      | normal s' => exact ih s' (by simpa [hb, Outcome.map, onNormal] using h)
      | _ => simpa [hb, Outcome.map, onNormal] using h

/-- `P` is the invariant of the loop. -/
theorem triple_loop {body : Tree} (hbody : w.Triple fuel P body (onNormal P fun o => Q o.scope))
    (htimeout : ∀ m, P m → Q (.timeout m)) : w.Triple fuel P (.loop body) Q := by
  intro s hs
  simp only [Tree.eval, map_scope]
  exact iterate_view hbody htimeout s hs

theorem triple_brk {level : Nat} (h : ∀ m, P m → Q (.brk level m)) :
    w.Triple fuel P (.brk level) Q :=
  fun _ hs => h _ hs

theorem triple_var {v : Nat} {body : Tree} (h : ∀ m, P m → Settled Q m)
    (hbody : w.Triple fuel P body fun o => Q o.scope) : w.Triple fuel P (.var v body) Q := by
  intro s hs
  refine outcome_settled (w.enter _ s) (h _ hs) fun s' hs' => ?_
  rw [map_scope, map_release (w.leave s)]
  exact hbody s' (by rwa [hs'])

theorem triple_mark {m : Mark} {t : Tree} (hP : ∀ x, P x → R (w.next (.mark m) x))
    (ht : w.Triple fuel R t fun o => Q (o.close w.next m)) :
    w.Triple fuel P (.mark m t) Q := by
  intro s hs
  simp only [Tree.eval, map_close w.note]
  exact ht _ (by simpa only [w.note] using hP _ hs)

/-- What annotations keep, a tree keeps; without annotations it keeps everything. -/
theorem triple_keeps {I : τ → Prop} {t : Tree} (hfree : t.DeferFree)
    (hI : t.Unmarked ∨ ∀ e m, I m → I (w.next e m)) :
    w.Triple fuel I t fun o => I o.state := by
  have settled : ∀ m, I m → Settled (fun o => I o.state) m := fun m h => ⟨h, h, h, h⟩
  have scope : ∀ o : Outcome τ, I o.state → I o.scope.state := fun o h => by rwa [scope_state]
  induction t with
  | basic ops => exact triple_basic settled
  | defer id next cleanup _ _ => exact hfree.elim
  | many body ih => exact triple_many ((ih hfree hI).post scope)
  | chain cur next ihc ihn =>
      have hcur := ihc hfree.1 (hI.imp_left fun h => h.1)
      have hnext := ihn hfree.2 (hI.imp_left fun h => h.2)
      exact triple_chain (R := I) (hcur.post fun o ho => by cases o <;> exact ho) hnext
  | stop => exact triple_stop fun _ h => h
  | crash => exact triple_crash fun _ h => h
  | hardCrash => exact triple_hardCrash fun _ h => h
  | crashPad body pad ihb ihp =>
      have hbody := ihb hfree.1 (hI.imp_left fun h => h.1)
      have hpad := ihp hfree.2 (hI.imp_left fun h => h.2)
      exact triple_crashPad (R := I) (hbody.post fun o ho => by cases o <;> exact ho)
        (hpad.post fun o ho => by rwa [reraise_id_state])
  | branch cond yes no ihy ihn =>
      exact triple_branch settled (ihy hfree.1 (hI.imp_left fun h => h.1))
        (ihn hfree.2 (hI.imp_left fun h => h.2))
  | loop body ih =>
      refine triple_loop ((ih hfree hI).post fun o ho => ?_) fun _ h => h
      cases o <;> first | exact ho | exact scope _ ho
  | brk level => exact triple_brk fun _ h => h
  | var v body ih => exact triple_var settled ((ih hfree hI).post scope)
  | mark k t ih =>
      rcases hI with hplain | hI
      · exact hplain.elim
      · refine triple_mark (hI _) ((ih hfree (.inr hI)).post fun o ho => ?_)
        cases k <;> cases o <;> first | exact ho | exact hI _ _ ho

end Watch

end TreeVM
