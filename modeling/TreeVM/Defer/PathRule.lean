import TreeVM.Defer.Paths
import TreeVM.IR.Triple

/-!
# Pre- and postconditions of lowered trees

* rules for the blocks that the pass builds: sequences and the four blocks of a defer;
* `PathRule`: a precondition and, for every path, a postcondition that all blocks respect when
  they are lowered below that path;
* `PathRule.lower`: such a rule holds of every lowered tree.  Only what it says about defers,
  crash pads and breaks is particular to it.
-/

namespace TreeVM

/-- The level of a break counts scopes around it, and the break leaves no cleanup. -/
def LegalBreak (path : List Frame) (level : Nat) : Prop :=
  1 ≤ level ∧ level ≤ Tree.scopes path

theorem Tree.BreaksLegal.legalBreak {t : Tree} (h : t.BreaksLegal) : t.BreaksIn LegalBreak [] := h

/-- The enclosing blocks that a legal break can leave. -/
def reach : List Frame → List Frame
  | [] => []
  | .cleanup :: _ => []
  | f :: path => f :: reach path

theorem scopes_le_reach (path : List Frame) : Tree.scopes path ≤ (reach path).length := by
  induction path with
  | nil => simp [Tree.scopes]
  | cons f path ih =>
      cases f <;> simp [Tree.scopes, reach, Frame.counted] <;> omega

theorem take_reach {path : List Frame} {n : Nat} (h : n ≤ (reach path).length) :
    path.take n = (reach path).take n := by
  induction path generalizing n with
  | nil => rfl
  | cons f path ih =>
      cases n with
      | zero => rfl
      | succ n =>
          cases f with
          | cleanup => simp [reach] at h
          | _ => simpa [reach] using ih (by simpa [reach] using h)

/-- A legal break pops entries of blocks that it can leave. -/
theorem LegalBreak.level_le {path : List Frame} {level : Nat} (h : LegalBreak path level) :
    level - 1 ≤ (reach path).length := by
  have hle := scopes_le_reach path
  have hlevel := h.2
  omega

theorem LegalBreak.popped {path : List Frame} {level : Nat} (h : LegalBreak path level) :
    popped path level = ((reach path).take (level - 1)).filterMap Frame.inlined := by
  rw [TreeVM.popped, take_reach h.level_le]

/-- `BLOCK_MANY`, `BLOCK_LOOP`, `BLOCK_VAR`, an arm or a handler: these put nothing on the
epilogue stack. -/
def Frame.isPlain : Frame → Bool
  | scope => true
  | arm => true
  | handler => true
  | _ => false

section Sequence

variable {σ : Type} (M : Machine σ) (fuel : Nat)

theorem eval_sequence_append (es ts : List Tree) (s : σ) :
    (Tree.sequence (es ++ ts)).eval M fuel s =
      match (Tree.sequence es).eval M fuel s with
      | .normal s' => (Tree.sequence ts).eval M fuel s'
      | o => o := by
  induction es generalizing s with
  | nil => rfl
  | cons e es ih =>
      simp only [List.cons_append, Tree.sequence, Tree.eval]
      cases e.eval M fuel s with
      | normal s' => exact ih s'
      | _ => rfl

end Sequence

namespace Watch

open Outcome

variable {σ τ : Type} {M : Machine σ} {w : Watch M τ} {fuel : Nat}
variable {P R S T : τ → Prop} {Q : Outcome τ → Prop}

theorem triple_sequence_append {es ts : List Tree}
    (hes : w.Triple fuel P (.sequence es) (onNormal R Q)) (hts : w.Triple fuel R (.sequence ts) Q) :
    w.Triple fuel P (.sequence (es ++ ts)) Q := by
  intro s hs
  have h := hes s hs
  rw [eval_sequence_append]
  cases he : (Tree.sequence es).eval M fuel s with
  | normal s' => exact hts s' (by simpa [he, Outcome.map, onNormal] using h)
  | _ => simpa [he, Outcome.map, onNormal] using h

/-- Copies that keep `P` when they end normally. -/
theorem triple_sequence {es : List Tree} (hes : ∀ e ∈ es, w.Triple fuel P e (onNormal P Q)) :
    w.Triple fuel P (.sequence es) (onNormal P Q) := by
  induction es with
  | nil => exact triple_stop fun _ h => h
  | cons e es ih =>
      refine triple_chain (R := P) ?_ (ih fun e' he' => hes e' (by simp [he']))
      refine (hes e (by simp)).post fun o ho => ?_
      cases o <;> exact ho

/-- The blocks in the place of a break: the copies, then the break itself. -/
theorem triple_breakBlocks {es : List Tree} {level : Nat} (hlevel : 1 ≤ level)
    (hes : w.Triple fuel P (.sequence es) (onNormal R fun o => Q o.scope))
    (hbrk : ∀ m, R m → Q (.brk level m)) :
    w.Triple fuel P (.breakBlocks es level) Q := by
  unfold Tree.breakBlocks
  split
  · rename_i hnil
    subst hnil
    exact fun s hs => hbrk _ (hes s hs)
  · refine triple_many (triple_sequence_append hes ?_)
    refine triple_chain (R := fun _ => False) (triple_brk fun m hm => ?_) fun _ h => h.elim
    simpa [onNormal, scope, Nat.not_le.mpr (Nat.lt_add_of_pos_left hlevel)] using hbrk m hm

/-- The blocks in the place of a defer: the cleanup starts from `R` after the body has crashed or
ended normally. -/
theorem triple_deferBlocks {d : Nat} {next cleanup : Tree}
    (hP : ∀ m, P m → S (w.next (.mark (.enter d)) m))
    (hnext : w.Triple fuel S next fun o =>
      onCrash R (onNormal R fun o => Q o.scope) (o.exited w.next d))
    (hR : ∀ m, R m → T (w.next (.mark (.cleanup d)) m))
    (hcleanup : w.Triple fuel T cleanup fun o => Q o.scope ∧ Q (o.reraise id).scope) :
    w.Triple fuel P (.deferBlocks d next cleanup) Q := by
  refine triple_many (triple_chain (R := R) (triple_crashPad (R := R) ?_ ?_) ?_)
  · refine triple_mark hP (hnext.post fun o ho => ?_)
    cases o <;> exact ho
  · -- the handler: whatever the cleanup does, the crash pad does not end normally
    refine triple_mark hR (hcleanup.post fun o ho => ?_)
    cases o <;> exact ho.2
  · refine triple_chain (R := fun m => Q (.normal m)) ?_ (triple_stop fun _ h => h)
    refine triple_mark hR (hcleanup.post fun o ho => ?_)
    cases o <;> exact ho.1

end Watch

/-! ## Rules for all paths -/

/-- `pre` holds wherever a block starts, `post path` of how it ends; `ok names path` says what
the epilogues on the path must satisfy below which a tree with these names is lowered. -/
structure PathRule {σ τ : Type} {M : Machine σ} (w : Watch M τ) (fuel : Nat) where
  pre : τ → Prop
  post : List Frame → Outcome τ → Prop
  ok : List Nat → List Frame → Prop
  settled : ∀ {path m}, pre m → Outcome.Settled (post path) m
  of_normal : ∀ {path m}, post path (.normal m) → pre m
  of_crash : ∀ {path m}, post path (.crash m) → pre m
  outer : ∀ {f path o}, (f.isPlain ∨ f.isPadBody) → post (f :: path) o →
    post path (if f.counted then o.scope else o)
  ok_sublist : ∀ {names names' path}, names'.Sublist names → ok names path → ok names' path
  ok_plain : ∀ {names f path}, f.isPlain → ok names path → ok names (f :: path)
  ok_padBody : ∀ {body pad : Tree} {path}, pad.Unmarked → pad.BreaksIn LegalBreak (.handler :: path) →
    ok (body.names ++ pad.names) path →
    w.Triple fuel pre (pad.lower (.handler :: path)) (post (.handler :: path)) →
    ok body.names (.padBody (pad.lower (.handler :: path)) :: path)
  brk : ∀ {names path level}, ok names path → LegalBreak path level →
    w.Triple fuel pre (.breakBlocks (popped path level) level) (post path)
  defer : ∀ {d} {next cleanup : Tree} {path}, (Tree.defer d next cleanup).Unmarked →
    (Tree.defer d next cleanup).BreaksIn LegalBreak path →
    ok (Tree.defer d next cleanup).names path →
    (∀ path', next.BreaksIn LegalBreak path' → ok next.names path' →
      w.Triple fuel pre (next.lower path') (post path')) →
    (∀ path', cleanup.BreaksIn LegalBreak path' → ok cleanup.names path' →
      w.Triple fuel pre (cleanup.lower path') (post path')) →
    w.Triple fuel pre ((Tree.defer d next cleanup).lower path) (post path)

namespace PathRule

open Outcome Watch

variable {σ τ : Type} {M : Machine σ} {w : Watch M τ} {fuel : Nat}

theorem lower (r : PathRule w fuel) {t : Tree} {path : List Frame} (hplain : t.Unmarked)
    (hlegal : t.BreaksIn LegalBreak path) (hok : r.ok t.names path) :
    w.Triple fuel r.pre (t.lower path) (r.post path) := by
  induction t generalizing path with
  | basic ops => exact triple_basic fun _ => r.settled
  | stop => exact triple_stop fun _ h => (r.settled h).1
  | crash => exact triple_crash fun _ h => (r.settled h).2.1
  | hardCrash => exact triple_hardCrash fun _ h => (r.settled h).2.2.1
  | defer d next cleanup ihn ihc =>
      exact r.defer hplain hlegal hok (fun _ hl h => ihn hplain.1 hl h)
        (fun _ hl h => ihc hplain.2 hl h)
  | many body ih =>
      have hbody := ih hplain hlegal (r.ok_plain (f := .scope) rfl hok)
      exact triple_many (hbody.post fun _ ho => r.outer (.inl rfl) ho)
  | chain cur next ihc ihn =>
      have hcur := ihc hplain.1 hlegal.1 (r.ok_sublist (List.sublist_append_left _ _) hok)
      have hnext := ihn hplain.2 hlegal.2 (r.ok_sublist (List.sublist_append_right _ _) hok)
      refine triple_chain (R := r.pre) (hcur.post fun o ho => ?_) hnext
      cases o with
      | normal m => exact r.of_normal ho
      | _ => exact ho
  | crashPad body pad ihb ihp =>
      have hpad := ihp hplain.2 hlegal.2
        (r.ok_plain (f := .handler) rfl (r.ok_sublist (List.sublist_append_right _ _) hok))
      have hbody := ihb hplain.1 hlegal.1 (r.ok_padBody hplain.2 hlegal.2 hok hpad)
      refine triple_crashPad (R := r.pre) (hbody.post fun o ho => ?_) (hpad.post fun o ho => ?_)
      · cases o with
        | crash m => exact r.of_crash ho
        | _ => exact r.outer (.inr rfl) ho
      · cases o with
        | normal m => exact (r.settled (r.of_normal ho)).2.1
        | _ => exact r.outer (.inl rfl) ho
  | branch cond yes no ihy ihn =>
      have hyes := ihy hplain.1 hlegal.1
        (r.ok_plain (f := .arm) rfl (r.ok_sublist (List.sublist_append_left _ _) hok))
      have hno := ihn hplain.2 hlegal.2
        (r.ok_plain (f := .arm) rfl (r.ok_sublist (List.sublist_append_right _ _) hok))
      exact triple_branch (fun _ => r.settled) (hyes.post fun _ ho => r.outer (.inl rfl) ho)
        (hno.post fun _ ho => r.outer (.inl rfl) ho)
  | loop body ih =>
      have hbody := ih hplain hlegal (r.ok_plain (f := .scope) rfl hok)
      refine triple_loop (hbody.post fun o ho => ?_) fun _ h => (r.settled h).2.2.2
      cases o with
      | normal m => exact r.of_normal ho
      | _ => exact r.outer (.inl rfl) ho
  | brk level => exact r.brk hok hlegal
  | var v body ih =>
      have hbody := ih hplain hlegal (r.ok_plain (f := .scope) rfl hok)
      exact triple_var (fun _ => r.settled) (hbody.post fun _ ho => r.outer (.inl rfl) ho)
  | mark m t ih => exact hplain.elim

end PathRule

end TreeVM
