import TreeVM.Defer.Preservation
import TreeVM.Frontend.Exits

/-!
# The language of the frontend

What source says, without blocks, depths and levels.

* `Lexeme`: what one token does; `Stmts`: the statements up to the end of a scope, and
  `Stmts.lexemes`, how they are written, `Stmts.lexemes_injective`: in one way only;
* `Stmts.exec`: what they do on a machine;
* `Stmts.tree`: the blocks that stand for them, `Stmts.eval_tree`: which do the same.

`break` and `continue` are a way to end here.  In the tree they are levels.
-/

namespace TreeVM

/-- What a token does: one operation, a variable, a control word, or a parenthesis that counts -/
inductive Lexeme
  | op (op : Op)
  | var (v : Nat)
  | word (word : Immediate)
  | opening
  | closing
  deriving DecidableEq, Repr

/-- The statements up to the end of a scope.  The rest of the scope is the body of a `Var` and of a
prefix `Defer`. -/
inductive Stmts
  | done
  | op (op : Op) (rest : Stmts)
  | loop (body rest : Stmts)
  | ifThen (cond : List Op) (yes rest : Stmts)
  | ifElse (cond : List Op) (yes no rest : Stmts)
  | exit (isContinue : Bool) (rest : Stmts)
  /-- `Start`, `Finally`, `End` -/
  | protect (body cleanup rest : Stmts)
  | defer (cleanup rest : Stmts)
  | var (v : Nat) (rest : Stmts)
  deriving DecidableEq, Repr

/-- The depths that `Break` and `Continue` leave -/
structure LoopDepths where
  breakDepth : Nat := 0
  continueDepth : Nat := 0
  deriving DecidableEq, Repr

def LoopDepths.target (loop : LoopDepths) (isContinue : Bool) : Nat :=
  if isContinue then loop.continueDepth else loop.breakDepth

/-- A loop at this depth -/
def LoopDepths.inside (depth : Nat) : LoopDepths :=
  ⟨depth + 2, depth + 3⟩

/-- `BLOCK_MANY` with three blocks -/
def Tree.triple (before middle after : Tree) : Tree :=
  .many (.chain before (.chain middle (.chain after .stop)))

namespace Stmts

/-- How the statements are written -/
def lexemes : Stmts → List Lexeme
  | done => []
  | op o rest => .op o :: rest.lexemes
  | loop body rest => .word .loop :: (body.lexemes ++ .word .again :: rest.lexemes)
  | ifThen cond yes rest =>
      .word .ifWord :: .opening :: (cond.map .op ++ .closing :: (yes.lexemes ++
        .word .done :: rest.lexemes))
  | ifElse cond yes no rest =>
      .word .ifWord :: .opening :: (cond.map .op ++ .closing :: (yes.lexemes ++
        .word .elseWord :: (no.lexemes ++ .word .done :: rest.lexemes)))
  | exit isContinue rest => .word (exitWord isContinue) :: rest.lexemes
  | protect body cleanup rest =>
      .word .start :: (body.lexemes ++ .word .finallyWord :: (cleanup.lexemes ++
        .word .endWord :: rest.lexemes))
  | defer cleanup rest =>
      .word .defer :: .opening :: (cleanup.lexemes ++ .closing :: rest.lexemes)
  | var v rest => .var v :: rest.lexemes

/-- The operations, in the order in which they are written -/
def ops : Stmts → List Op
  | done => []
  | op o rest => o :: rest.ops
  | loop body rest => body.ops ++ rest.ops
  | ifThen cond yes rest => cond ++ (yes.ops ++ rest.ops)
  | ifElse cond yes no rest => cond ++ (yes.ops ++ (no.ops ++ rest.ops))
  | exit _ rest => rest.ops
  | protect body cleanup rest => body.ops ++ (cleanup.ops ++ rest.ops)
  | defer cleanup rest => cleanup.ops ++ rest.ops
  | var _ rest => rest.ops

/-- By how much `scope_depth` is larger behind the statements -/
def climb : Stmts → Nat
  | done => 0
  | op _ rest => rest.climb
  | loop _ rest => rest.climb + 1
  | ifThen _ _ rest => rest.climb + 1
  | ifElse _ _ _ rest => rest.climb + 1
  | exit _ rest => rest.climb + 1
  | protect _ _ rest => rest.climb + 1
  | defer _ _ => 1
  | var _ rest => rest.climb + 2

/-- The blocks of the statements: operations `start` to `pos` are in the current block already. -/
def tree : Stmts → (start pos depth : Nat) → LoopDepths → Tree
  | done, start, pos, _, _ => .basic ⟨start, pos - start⟩
  | op _ rest, start, pos, depth, l => rest.tree start (pos + 1) depth l
  | loop body rest, start, pos, depth, l =>
      let next := pos + body.ops.length
      .triple (.basic ⟨start, pos - start⟩)
        (.loop (.many (.chain (body.tree pos pos (depth + 3) (.inside depth)) .stop)))
        (rest.tree next next (depth + 1) l)
  | ifThen cond yes rest, start, pos, depth, l =>
      let first := pos + cond.length
      let next := first + yes.ops.length
      .triple (.basic ⟨start, pos - start⟩)
        (.branch ⟨pos, cond.length⟩ (yes.tree first first (depth + 1) l) (.basic ⟨next, 0⟩))
        (rest.tree next next (depth + 1) l)
  | ifElse cond yes no rest, start, pos, depth, l =>
      let first := pos + cond.length
      let second := first + yes.ops.length
      let next := second + no.ops.length
      .triple (.basic ⟨start, pos - start⟩)
        (.branch ⟨pos, cond.length⟩ (yes.tree first first (depth + 1) l)
          (no.tree second second (depth + 1) l))
        (rest.tree next next (depth + 1) l)
  | exit isContinue rest, start, pos, depth, l =>
      .triple (.basic ⟨start, pos - start⟩) (.brk (depth + 1 - l.target isContinue + 1))
        (rest.tree pos pos (depth + 1) l)
  | protect body cleanup rest, start, pos, depth, l =>
      let second := pos + body.ops.length
      let next := second + cleanup.ops.length
      .triple (.basic ⟨start, pos - start⟩)
        (.defer 0 (body.tree pos pos (depth + 2) l) (cleanup.tree second second (depth + 2) l))
        (rest.tree next next (depth + 1) l)
  | defer cleanup rest, start, pos, depth, l =>
      -- the scopes of the cleanup are still counted behind it
      let first := pos + cleanup.ops.length
      .triple (.basic ⟨start, pos - start⟩)
        (.defer 0 (rest.tree first first (depth + 2 + cleanup.climb) l)
          (cleanup.tree pos pos (depth + 2) l))
        (.basic ⟨first + rest.ops.length, 0⟩)
  | var v rest, start, pos, depth, l =>
      .many (.chain (.basic ⟨start, pos - start⟩)
        (.chain (.var v (rest.tree pos pos (depth + 2) l)) .stop))

/-- Exits stand inside of a loop, and not in a cleanup that belongs to its body. -/
def Legal (inLoop : Prop) : Stmts → Prop
  | done => True
  | op _ rest => rest.Legal inLoop
  | loop body rest => body.Legal True ∧ rest.Legal inLoop
  | ifThen _ yes rest => yes.Legal inLoop ∧ rest.Legal inLoop
  | ifElse _ yes no rest => yes.Legal inLoop ∧ no.Legal inLoop ∧ rest.Legal inLoop
  | exit _ rest => inLoop ∧ rest.Legal inLoop
  | protect body cleanup rest => body.Legal inLoop ∧ cleanup.Legal False ∧ rest.Legal inLoop
  | defer cleanup rest => cleanup.Legal False ∧ rest.Legal inLoop
  | var _ rest => rest.Legal inLoop

/-- No exit leaves the statements. -/
def Stays : Stmts → Prop
  | done => True
  | op _ rest => rest.Stays
  | loop _ rest => rest.Stays
  | ifThen _ yes rest => yes.Stays ∧ rest.Stays
  | ifElse _ yes no rest => yes.Stays ∧ no.Stays ∧ rest.Stays
  | exit _ _ => False
  | protect body cleanup rest => body.Stays ∧ cleanup.Stays ∧ rest.Stays
  | defer cleanup rest => cleanup.Stays ∧ rest.Stays
  | var _ rest => rest.Stays

/-- The rest of a scope behind a prefix `Defer` is left by no exit, or the cleanup opens no
scope. -/
def Straight : Stmts → Prop
  | done => True
  | op _ rest => rest.Straight
  | loop body rest => body.Straight ∧ rest.Straight
  | ifThen _ yes rest => yes.Straight ∧ rest.Straight
  | ifElse _ yes no rest => yes.Straight ∧ no.Straight ∧ rest.Straight
  | exit _ rest => rest.Straight
  | protect body cleanup rest => body.Straight ∧ cleanup.Straight ∧ rest.Straight
  | defer cleanup rest =>
      (cleanup.climb = 0 ∨ rest.Stays) ∧ cleanup.Straight ∧ rest.Straight
  | var _ rest => rest.Straight

end Stmts

/-! ## What is written once -/

/-- The lexeme ends statements. -/
def Lexeme.Ends : Lexeme → Prop
  | .word .again | .word .elseWord | .word .done | .word .finallyWord | .word .endWord | .closing => True
  | _ => False

/-- Statements end in front of these lexemes. -/
def EndsBefore (xs : List Lexeme) : Prop :=
  ∀ x ∈ xs.head?, x.Ends

theorem EndsBefore.nil : EndsBefore [] := by
  intro x hx
  cases hx

theorem EndsBefore.cons {x : Lexeme} {xs : List Lexeme} (h : x.Ends) : EndsBefore (x :: xs) := by
  intro y hy
  cases hy
  exact h

theorem condition_cancel {cond cond' : List Op} {xs ys : List Lexeme}
    (h : cond.map Lexeme.op ++ .closing :: xs = cond'.map Lexeme.op ++ .closing :: ys) : cond = cond' ∧ xs = ys := by
  induction cond generalizing cond' with
  | nil =>
      cases cond' with
      | nil => exact ⟨rfl, (List.cons.inj h).2⟩
      | cons o cond' => cases (List.cons.inj h).1
  | cons o cond ih =>
      cases cond' with
      | nil => cases (List.cons.inj h).1
      | cons o' cond' =>
          obtain ⟨ho, h⟩ := List.cons.inj h
          obtain ⟨rfl, rfl⟩ := ih h
          cases ho
          exact ⟨rfl, rfl⟩

/-- Statements end where a lexeme ends them, and not before. -/
theorem Stmts.lexemes_cancel {p q : Stmts} {xs ys : List Lexeme} (h : p.lexemes ++ xs = q.lexemes ++ ys)
    (hxs : EndsBefore xs) (hys : EndsBefore ys) : p = q ∧ xs = ys := by
  have hstart : ∀ {x : Lexeme} {us zs : List Lexeme}, EndsBefore us → us = x :: zs → x.Ends := by
    rintro x us zs hus rfl
    exact hus x rfl
  induction p generalizing q xs ys with
  | done =>
      -- no statement starts with a lexeme that ends statements
      cases q with
      | done => exact ⟨rfl, h⟩
      | exit c _ => cases c <;> exact (hstart hxs h).elim
      | _ => exact (hstart hxs h).elim
  | op o rest ih =>
      cases q with
      | op o' rest' =>
          obtain ⟨ho, h⟩ := List.cons.inj h
          obtain ⟨rfl, rfl⟩ := ih h hxs hys
          cases ho
          exact ⟨rfl, rfl⟩
      | done => exact (hstart hys h.symm).elim
      | _ => cases (List.cons.inj h).1
  | var v rest ih =>
      cases q with
      | var v' rest' =>
          obtain ⟨hv, h⟩ := List.cons.inj h
          obtain ⟨rfl, rfl⟩ := ih h hxs hys
          cases hv
          exact ⟨rfl, rfl⟩
      | done => exact (hstart hys h.symm).elim
      | _ => cases (List.cons.inj h).1
  | exit c rest ih =>
      cases q with
      | exit c' rest' =>
          obtain ⟨hc, h⟩ := List.cons.inj h
          obtain ⟨rfl, rfl⟩ := ih h hxs hys
          cases c <;> cases c' <;> first | exact ⟨rfl, rfl⟩ | cases hc
      | done => cases c <;> exact (hstart hys h.symm).elim
      | _ => cases c <;> cases (List.cons.inj h).1
  | loop body rest ihb ih =>
      cases q with
      | loop body' rest' =>
          simp only [lexemes, List.cons_append, List.append_assoc, List.cons.injEq, true_and] at h
          obtain ⟨rfl, h₁⟩ := ihb h (.cons trivial) (.cons trivial)
          obtain ⟨rfl, rfl⟩ := ih (List.cons.inj h₁).2 hxs hys
          exact ⟨rfl, rfl⟩
      | done => exact (hstart hys h.symm).elim
      | exit c _ => cases c <;> cases (List.cons.inj h).1
      | _ => cases (List.cons.inj h).1
  | ifThen cond yes rest ihy ih =>
      -- what ends the first arm tells whether there is a second
      cases q with
      | ifThen cond' yes' rest' =>
          simp only [lexemes, List.cons_append, List.append_assoc, List.cons.injEq, true_and] at h
          obtain ⟨rfl, h₁⟩ := condition_cancel h
          obtain ⟨rfl, h₂⟩ := ihy h₁ (.cons trivial) (.cons trivial)
          obtain ⟨rfl, rfl⟩ := ih (List.cons.inj h₂).2 hxs hys
          exact ⟨rfl, rfl⟩
      | ifElse cond' yes' no' rest' =>
          simp only [lexemes, List.cons_append, List.append_assoc, List.cons.injEq, true_and] at h
          obtain ⟨rfl, h₁⟩ := condition_cancel h
          obtain ⟨rfl, h₂⟩ := ihy h₁ (.cons trivial) (.cons trivial)
          cases (List.cons.inj h₂).1
      | done => exact (hstart hys h.symm).elim
      | exit c _ => cases c <;> cases (List.cons.inj h).1
      | _ => cases (List.cons.inj h).1
  | ifElse cond yes no rest ihy ihn ih =>
      cases q with
      | ifElse cond' yes' no' rest' =>
          simp only [lexemes, List.cons_append, List.append_assoc, List.cons.injEq, true_and] at h
          obtain ⟨rfl, h₁⟩ := condition_cancel h
          obtain ⟨rfl, h₂⟩ := ihy h₁ (.cons trivial) (.cons trivial)
          obtain ⟨rfl, h₃⟩ := ihn (List.cons.inj h₂).2 (.cons trivial) (.cons trivial)
          obtain ⟨rfl, rfl⟩ := ih (List.cons.inj h₃).2 hxs hys
          exact ⟨rfl, rfl⟩
      | ifThen cond' yes' rest' =>
          simp only [lexemes, List.cons_append, List.append_assoc, List.cons.injEq, true_and] at h
          obtain ⟨rfl, h₁⟩ := condition_cancel h
          obtain ⟨rfl, h₂⟩ := ihy h₁ (.cons trivial) (.cons trivial)
          cases (List.cons.inj h₂).1
      | done => exact (hstart hys h.symm).elim
      | exit c _ => cases c <;> cases (List.cons.inj h).1
      | _ => cases (List.cons.inj h).1
  | protect body cleanup rest ihb ihc ih =>
      cases q with
      | protect body' cleanup' rest' =>
          simp only [lexemes, List.cons_append, List.append_assoc, List.cons.injEq, true_and] at h
          obtain ⟨rfl, h₁⟩ := ihb h (.cons trivial) (.cons trivial)
          obtain ⟨rfl, h₂⟩ := ihc (List.cons.inj h₁).2 (.cons trivial) (.cons trivial)
          obtain ⟨rfl, rfl⟩ := ih (List.cons.inj h₂).2 hxs hys
          exact ⟨rfl, rfl⟩
      | done => exact (hstart hys h.symm).elim
      | exit c _ => cases c <;> cases (List.cons.inj h).1
      | _ => cases (List.cons.inj h).1
  | defer cleanup rest ihc ih =>
      cases q with
      | defer cleanup' rest' =>
          simp only [lexemes, List.cons_append, List.append_assoc, List.cons.injEq, true_and] at h
          obtain ⟨rfl, h₁⟩ := ihc h (.cons trivial) (.cons trivial)
          obtain ⟨rfl, rfl⟩ := ih (List.cons.inj h₁).2 hxs hys
          exact ⟨rfl, rfl⟩
      | done => exact (hstart hys h.symm).elim
      | exit c _ => cases c <;> cases (List.cons.inj h).1
      | _ => cases (List.cons.inj h).1

/-- What is written are these statements only. -/
theorem Stmts.lexemes_injective : Function.Injective Stmts.lexemes := by
  intro p q h
  have happend : p.lexemes ++ [] = q.lexemes ++ [] := by
    rw [List.append_nil, List.append_nil]
    exact h
  exact (lexemes_cancel happend .nil .nil).1

/-! ## What statements do -/

/-- How statements end -/
inductive Ending (σ : Type)
  | normal (s : σ)
  | exit (isContinue : Bool) (s : σ)
  | crash (s : σ)
  | halt (s : σ)
  | timeout (s : σ)

namespace Ending

variable {σ : Type}

def andThen (k : σ → Ending σ) : Ending σ → Ending σ
  | normal s => k s
  | e => e

/-- The end of a round of a loop -/
def round : Ending σ → Ending σ
  | exit true s => normal s
  | e => e

/-- The end of a loop -/
def afterLoop : Ending σ → Ending σ
  | exit _ s => normal s
  | e => e

/-- The end of a local -/
def release (leave : σ → σ) : Ending σ → Ending σ
  | normal s => normal (leave s)
  | exit isContinue s => exit isContinue (leave s)
  | e => e

/-- A cleanup that runs because of a crash ends with it. -/
def reraise (raise : σ → σ) : Ending σ → Ending σ
  | normal s => crash (raise s)
  | e => e

/-- The cleanup runs however the body ends, unless it halts. -/
def guarded (cleanup : σ → Ending σ) (restore raise : σ → σ) : Ending σ → Ending σ
  | normal s => cleanup s
  | exit isContinue s => (cleanup s).andThen (exit isContinue)
  | crash s => (cleanup (restore s)).reraise raise
  | e => e

/-- In a tree an exit is a break of some levels. -/
def toOutcome (level : Bool → Nat) : Ending σ → Outcome σ
  | normal s => .normal s
  | exit isContinue s => .brk (level isContinue) s
  | crash s => .crash s
  | halt s => .halt s
  | timeout s => .timeout s

end Ending

def Step.ending {σ : Type} (k : σ → Ending σ) : Step σ → Ending σ
  | ok s => k s
  | crash s => .crash s
  | halt s => .halt s
  | timeout s => .timeout s

/-- Rounds of a loop -/
def Ending.rounds {σ : Type} (body : σ → Ending σ) : Nat → σ → Ending σ
  | 0, s => .timeout s
  | fuel + 1, s => (body s).andThen (Ending.rounds body fuel)

/-- The statements from the state `s` on.  The temporaries since `e` are dropped where a control
word stands and at the end. -/
def Stmts.exec {σ : Type} (M : Machine σ) (fuel : Nat) : Stmts → (e s : σ) → Ending σ
  | done, e, s => .normal (M.discard e s)
  | op o rest, e, s => (M.op o s).ending fun s => rest.exec M fuel e s
  | loop body rest, e, s =>
      (Ending.rounds (fun s => (body.exec M fuel s s).round) fuel (M.discard e s)).afterLoop.andThen
        fun s => rest.exec M fuel s s
  | ifThen cond yes rest, e, s =>
      ((M.runOps cond (M.discard e s)).ending fun s =>
        match M.test s with
        | (true, s) => yes.exec M fuel s s
        | (false, s) => .normal (M.discard s s)).andThen fun s => rest.exec M fuel s s
  | ifElse cond yes no rest, e, s =>
      ((M.runOps cond (M.discard e s)).ending fun s =>
        match M.test s with
        | (true, s) => yes.exec M fuel s s
        | (false, s) => no.exec M fuel s s).andThen fun s => rest.exec M fuel s s
  | exit isContinue _, e, s => .exit isContinue (M.discard e s)
  | protect body cleanup rest, e, s =>
      let s := M.discard e s
      ((body.exec M fuel s s).guarded (fun s => cleanup.exec M fuel s s) (M.restore s) M.raise).andThen
        fun s => rest.exec M fuel s s
  | defer cleanup rest, e, s =>
      let s := M.discard e s
      ((rest.exec M fuel s s).guarded (fun s => cleanup.exec M fuel s s) (M.restore s) M.raise).andThen
        fun s => .normal (M.discard s s)
  | var v rest, e, s =>
      let s := M.discard e s
      (M.enter v s).ending fun s' => (rest.exec M fuel s' s').release (M.leave s)

/-! ## The blocks do what the statements do -/

/-- How many levels an exit at this depth leaves -/
def LoopDepths.level (l : LoopDepths) (depth : Nat) (isContinue : Bool) : Nat :=
  depth - l.target isContinue + 1

/-- The loop was opened at a smaller depth. -/
def LoopDepths.Within (l : LoopDepths) (depth : Nat) : Prop :=
  ∀ isContinue, l.target isContinue ≤ depth

/-- The machine takes no notes. -/
def Machine.Silent {σ : Type} (M : Machine σ) : Prop :=
  ∀ e s, M.note e s = s

/-- The operations stand from `pos` on. -/
def StandAt (ops : List Op) (pos : Nat) (xs : List Op) : Prop :=
  xs <+: ops.drop pos

namespace LoopDepths

variable {l : LoopDepths} {depth : Nat}

theorem Within.mono (h : l.Within depth) (k : Nat) : l.Within (depth + k) :=
  fun c => Nat.le_add_right_of_le (h c)

theorem inside_within (depth : Nat) : (inside depth).Within (depth + 3) := by
  intro c
  cases c <;> simp [inside, target]

theorem level_succ (h : l.Within depth) (c : Bool) : l.level (depth + 1) c = l.level depth c + 1 := by
  have := h c
  simp only [level]
  omega

end LoopDepths

section Ops

variable {ops xs ys : List Op} {pos : Nat}

theorem standAt_append : StandAt ops pos (xs ++ ys) ↔ StandAt ops pos xs ∧ StandAt ops (pos + xs.length) ys := by
  constructor
  · rintro ⟨zs, hzs⟩
    refine ⟨⟨ys ++ zs, by rw [← hzs, List.append_assoc]⟩, zs, ?_⟩
    rw [← List.drop_drop, ← hzs, List.append_assoc, List.drop_left]
  · rintro ⟨⟨us, hus⟩, zs, hzs⟩
    refine ⟨zs, ?_⟩
    rw [← List.drop_drop, ← hus, List.drop_left] at hzs
    rw [List.append_assoc, hzs, hus]

theorem standAt_cons {o : Op} : StandAt ops pos (o :: xs) ↔ ops[pos]? = some o ∧ StandAt ops (pos + 1) xs := by
  rw [show o :: xs = [o] ++ xs from rfl, standAt_append]
  refine and_congr_left fun _ => ?_
  rw [StandAt, List.singleton_prefix_iff_head?_eq_some, List.head?_drop]

variable {σ : Type} {M : Machine σ}

theorem Machine.range_of_standAt (h : StandAt M.ops pos xs) : M.range ⟨pos, xs.length⟩ = xs := by
  rw [Machine.range]
  exact (List.prefix_iff_eq_take.mp h).symm

theorem Machine.range_succ {start : Nat} {o : Op} (hle : start ≤ pos) (h : M.ops[pos]? = some o) :
    M.range ⟨start, pos + 1 - start⟩ = M.range ⟨start, pos - start⟩ ++ [o] := by
  have hget : (M.ops.drop start)[pos - start]? = some o := by
    rw [List.getElem?_drop, Nat.add_sub_cancel' hle]
    exact h
  simp only [Machine.range]
  rw [Nat.sub_add_comm hle, List.take_add_one, hget]
  rfl

theorem Machine.range_empty (start : Nat) : M.range ⟨start, 0⟩ = [] := by
  rw [Machine.range]
  exact List.take_zero

theorem Machine.runOps_append (k : σ → Outcome σ) (s : σ) :
    (M.runOps (xs ++ ys) s).outcome k = (M.runOps xs s).outcome fun s => (M.runOps ys s).outcome k := by
  induction xs generalizing s with
  | nil => rfl
  | cons x xs ih =>
      simp only [List.cons_append, Machine.runOps]
      cases M.op x s with
      | ok s' => exact ih s'
      | _ => rfl

end Ops

namespace Ending

variable {σ : Type} {up level : Bool → Nat} {x : Ending σ}

/-- The end of a scope is one level less. -/
theorem scope_toOutcome {l : LoopDepths} {depth : Nat} (hl : l.Within depth) :
    (x.toOutcome (l.level (depth + 1))).scope = x.toOutcome (l.level depth) := by
  cases x with
  | exit c s =>
      have hlt : ¬ l.level depth c + 1 ≤ 1 := by
        rw [LoopDepths.level]
        omega
      rw [toOutcome, LoopDepths.level_succ hl, Outcome.scope, if_neg hlt]
      rfl
  | _ => rfl

theorem step_toOutcome (k : σ → Ending σ) (r : Step σ) :
    (r.ending k).toOutcome level = r.outcome fun s => (k s).toOutcome level := by
  cases r <;> rfl

/-- The statements end by no exit. -/
def Inward : Ending σ → Prop
  | exit _ _ => False
  | _ => True

theorem Inward.toOutcome (h : x.Inward) : x.toOutcome up = x.toOutcome level := by
  cases x with
  | exit c s => exact h.elim
  | _ => rfl

theorem Inward.andThen {k : σ → Ending σ} (h : x.Inward) (hk : ∀ s, (k s).Inward) : (x.andThen k).Inward := by
  cases x with
  | normal s => exact hk s
  | exit c s => exact h.elim
  | _ => trivial

theorem Inward.step {k : σ → Ending σ} {r : Step σ} (hk : ∀ s, (k s).Inward) : (r.ending k).Inward := by
  cases r with
  | ok s => exact hk s
  | _ => trivial

theorem Inward.release {leave : σ → σ} (h : x.Inward) : (x.release leave).Inward := by
  cases x with
  | exit c s => exact h.elim
  | _ => trivial

theorem Inward.guarded {cleanup : σ → Ending σ} {restore raise : σ → σ} (h : x.Inward)
    (hcleanup : ∀ s, (cleanup s).Inward) : (x.guarded cleanup restore raise).Inward := by
  cases x with
  | normal s => exact hcleanup s
  | exit c s => exact h.elim
  | crash s =>
      have hrun := hcleanup (restore s)
      rw [Ending.guarded]
      cases hend : cleanup (restore s) with
      | exit c s' =>
          rw [hend] at hrun
          exact hrun.elim
      | _ => trivial
  | _ => trivial

theorem inward_afterLoop : x.afterLoop.Inward := by
  cases x <;> trivial

end Ending

section Eval

variable {σ : Type} {M : Machine σ} {fuel : Nat} {level : Bool → Nat} {l : LoopDepths} {depth : Nat}

/-- Statements that no exit leaves -/
theorem Stmts.exec_inward {p : Stmts} (h : p.Stays) (e s : σ) : (p.exec M fuel e s).Inward := by
  induction p generalizing e s with
  | done => trivial
  | op o rest ih => exact .step fun s => ih h e s
  | loop body rest _ ih => exact Ending.inward_afterLoop.andThen fun s => ih h s s
  | ifThen cond yes rest ihy ih =>
      refine .andThen (.step fun s => ?_) fun s => ih h.2 s s
      split
      · exact ihy h.1 _ _
      · trivial
  | ifElse cond yes no rest ihy ihn ih =>
      refine .andThen (.step fun s => ?_) fun s => ih h.2.2 s s
      split
      · exact ihy h.1 _ _
      · exact ihn h.2.1 _ _
  | exit c rest => exact h.elim
  | protect body cleanup rest ihb ihc ih =>
      exact ((ihb h.1 _ _).guarded fun s => ihc h.2.1 s s).andThen fun s => ih h.2.2 s s
  | defer cleanup rest ihc ih =>
      exact ((ih h.2 _ _).guarded fun s => ihc h.1 s s).andThen fun _ => trivial
  | var v rest ih => exact .step fun s => (ih h s s).release

/-! ### One construct -/

theorem eval_andThen {cur next : Tree} {x : Ending σ} {k : σ → Ending σ} {s : σ}
    (hcur : cur.eval M fuel s = x.toOutcome level)
    (hnext : ∀ s, next.eval M fuel s = (k s).toOutcome level) :
    (Tree.chain cur next).eval M fuel s = (x.andThen k).toOutcome level := by
  simp only [Tree.eval, hcur]
  cases x with
  | normal s' => exact hnext s'
  | _ => rfl

/-- Pending operations, then a sequence in a scope of its own -/
theorem eval_many (hl : l.Within depth) {r : OpRange} {behind : Tree} {k : σ → Ending σ}
    (hbehind : ∀ s, behind.eval M fuel s = (k s).toOutcome (l.level (depth + 1))) (e : σ) :
    (Tree.many (.chain (.basic r) behind)).eval M fuel e =
      (M.runOps (M.range r) e).outcome fun s => (k (M.discard e s)).toOutcome (l.level depth) := by
  simp only [Tree.eval]
  cases M.runOps (M.range r) e with
  | ok s =>
      simp only [Step.outcome, hbehind]
      exact Ending.scope_toOutcome hl
  | _ => rfl

theorem eval_triple (hl : l.Within depth) {r : OpRange} {middle after : Tree} {x k : σ → Ending σ}
    (hmiddle : ∀ s, middle.eval M fuel s = (x s).toOutcome (l.level (depth + 1)))
    (hafter : ∀ s, after.eval M fuel s = (k s).toOutcome (l.level (depth + 1))) (e : σ) :
    (Tree.triple (.basic r) middle after).eval M fuel e =
      (M.runOps (M.range r) e).outcome fun s =>
        ((x (M.discard e s)).andThen k).toOutcome (l.level depth) :=
  eval_many hl (k := fun s => (x s).andThen k) (fun s =>
    eval_andThen (hmiddle s) fun s => (eval_chain_stop after s).trans (hafter s)) e

theorem eval_rounds {body : σ → Ending σ} {g : σ → Outcome σ} (hbody : ∀ s, g s = (body s).toOutcome level)
    (n : Nat) (s : σ) : Machine.iterate g n s = (Ending.rounds body n s).toOutcome level := by
  induction n generalizing s with
  | zero => rfl
  | succ n ih =>
      rw [Machine.iterate, hbody, Ending.rounds]
      cases body s with
      | normal s' => exact ih s'
      | _ => rfl

theorem eval_loop (level : Bool → Nat) {body : Tree} {x : σ → Ending σ}
    (hbody : ∀ s, body.eval M fuel s = (x s).toOutcome ((LoopDepths.inside depth).level (depth + 3)))
    (s : σ) :
    (Tree.loop (.many (.chain body .stop))).eval M fuel s =
      (Ending.rounds (fun s => (x s).round) fuel s).afterLoop.toOutcome level := by
  -- a break leaves the body and the loop, a continue the body
  have hround : ∀ s, (Tree.many (.chain body .stop)).eval M fuel s = (x s).round.toOutcome fun _ => 1 := by
    intro s
    have hstop : (Tree.chain body .stop).eval M fuel s = _ := (eval_chain_stop body s).trans (hbody s)
    rw [Tree.eval, hstop]
    cases x s with
    | exit c s' => cases c <;> simp [Ending.toOutcome, Ending.round, LoopDepths.level, LoopDepths.inside,
        LoopDepths.target, Outcome.scope]
    | _ => rfl
  rw [Tree.eval, eval_rounds hround]
  cases Ending.rounds (fun s => (x s).round) fuel s <;> rfl

theorem eval_defer (hsilent : M.Silent) (hl : l.Within depth) {next cleanup : Tree} {x k : σ → Ending σ}
    (hnext : ∀ s, next.eval M fuel s = (x s).toOutcome (l.level (depth + 1)))
    (hcleanup : ∀ s, cleanup.eval M fuel s = (k s).toOutcome (l.level (depth + 1))) (s : σ) :
    (Tree.defer 0 next cleanup).eval M fuel s =
      ((x s).guarded k (M.restore s) M.raise).toOutcome (l.level depth) := by
  rw [← Ending.scope_toOutcome hl]
  simp only [Tree.eval, hsilent _ _, hnext, hcleanup]
  congr 1
  cases x s with
  | normal s' => simp only [Ending.toOutcome, Outcome.exited, hsilent _ _, Ending.guarded]
  | exit c s' =>
      simp only [Ending.toOutcome, Outcome.exited, hsilent _ _, Ending.guarded]
      cases k s' <;> rfl
  | crash s' =>
      simp only [Ending.toOutcome, Outcome.exited, hsilent _ _, Ending.guarded]
      cases k (M.restore s s') <;> rfl
  | _ => rfl

theorem eval_var (hl : l.Within depth) {v : Nat} {body : Tree} {k : σ → Ending σ}
    (hbody : ∀ s, body.eval M fuel s = (k s).toOutcome (l.level (depth + 1))) (s : σ) :
    (Tree.var v body).eval M fuel s =
      ((M.enter v s).ending fun s' => (k s').release (M.leave s)).toOutcome (l.level depth) := by
  rw [Tree.eval]
  cases M.enter v s with
  | ok s' =>
      simp only [Step.outcome, Step.ending, hbody]
      rw [← Ending.scope_toOutcome hl]
      cases k s' <;> rfl
  | _ => rfl

theorem eval_branch {cond : OpRange} {yes no : Tree} {xs : List Op} {y n : σ → Ending σ}
    (hcond : M.range cond = xs) (hyes : ∀ s, yes.eval M fuel s = (y s).toOutcome level)
    (hno : ∀ s, no.eval M fuel s = (n s).toOutcome level) (s : σ) :
    (Tree.branch cond yes no).eval M fuel s = ((M.runOps xs s).ending fun s =>
      match M.test s with
      | (true, s) => y s
      | (false, s) => n s).toOutcome level := by
  rw [Tree.eval, hcond, Ending.step_toOutcome]
  congr 1
  funext s
  cases M.test s with
  | mk b s' =>
      cases b with
      | true => exact hyes s'
      | false => exact hno s'

/-! ### All statements -/

/-- Nothing is pending where a block begins. -/
theorem eval_fresh {t : Tree} {pos : Nat} {k : σ → σ → Ending σ} (h : ∀ e, t.eval M fuel e =
    (M.runOps (M.range ⟨pos, pos - pos⟩) e).outcome fun s => (k e s).toOutcome level) (s : σ) :
    t.eval M fuel s = (k s s).toOutcome level := by
  rw [h, Nat.sub_self, Machine.range_empty]
  rfl

/-- The blocks of statements do what the statements do, behind the operations that are pending. -/
theorem Stmts.eval_tree (hsilent : M.Silent) {p : Stmts} {start pos depth : Nat} {l : LoopDepths}
    (hstraight : p.Straight) (hstand : StandAt M.ops pos p.ops) (hle : start ≤ pos) (hl : l.Within depth)
    (e : σ) : (p.tree start pos depth l).eval M fuel e =
      (M.runOps (M.range ⟨start, pos - start⟩) e).outcome fun s =>
        (p.exec M fuel e s).toOutcome (l.level depth) := by
  induction p generalizing start pos depth l e with
  | done => rfl
  | op o rest ih =>
      obtain ⟨ho, hrest⟩ := standAt_cons.mp hstand
      rw [tree, ih hstraight hrest (Nat.le_succ_of_le hle) hl e, Machine.range_succ hle ho,
        Machine.runOps_append]
      congr 1
      funext s
      rw [exec, Ending.step_toOutcome, Machine.runOps]
      cases M.op o s <;> rfl
  | loop body rest ihb ih =>
      obtain ⟨hb, hrest⟩ := standAt_append.mp hstand
      have hbody := eval_fresh (ihb hstraight.1 hb (Nat.le_refl pos) (LoopDepths.inside_within depth))
      have hafter := eval_fresh (ih hstraight.2 hrest (Nat.le_refl _) (hl.mono 1))
      exact eval_triple hl (eval_loop (l.level (depth + 1)) hbody) hafter e
  | ifThen cond yes rest ihy ih =>
      obtain ⟨hcond, hbehind⟩ := standAt_append.mp hstand
      obtain ⟨hy, hrest⟩ := standAt_append.mp hbehind
      have hyes := eval_fresh (ihy hstraight.1 hy (Nat.le_refl _) (hl.mono 1))
      have hno : ∀ s, (Tree.basic ⟨pos + cond.length + yes.ops.length, 0⟩).eval M fuel s =
          (Ending.normal (M.discard s s)).toOutcome (l.level (depth + 1)) := by
        intro s
        rw [Tree.eval, Machine.range_empty]
        rfl
      have hafter := eval_fresh (ih hstraight.2 hrest (Nat.le_refl _) (hl.mono 1))
      exact eval_triple hl (eval_branch (Machine.range_of_standAt hcond) hyes hno) hafter e
  | ifElse cond yes no rest ihy ihn ih =>
      obtain ⟨hcond, hbehind⟩ := standAt_append.mp hstand
      obtain ⟨hy, hbehind⟩ := standAt_append.mp hbehind
      obtain ⟨hn, hrest⟩ := standAt_append.mp hbehind
      have hyes := eval_fresh (ihy hstraight.1 hy (Nat.le_refl _) (hl.mono 1))
      have hno := eval_fresh (ihn hstraight.2.1 hn (Nat.le_refl _) (hl.mono 1))
      have hafter := eval_fresh (ih hstraight.2.2 hrest (Nat.le_refl _) (hl.mono 1))
      exact eval_triple hl (eval_branch (Machine.range_of_standAt hcond) hyes hno) hafter e
  | exit c rest ih =>
      have hafter := eval_fresh (ih hstraight hstand (Nat.le_refl pos) (hl.mono 1))
      have hjump : ∀ s, (Tree.brk (depth + 1 - l.target c + 1)).eval M fuel s =
          (Ending.exit c s).toOutcome (l.level (depth + 1)) := fun s => rfl
      exact eval_triple hl hjump hafter e
  | protect body cleanup rest ihb ihc ih =>
      obtain ⟨hb, hbehind⟩ := standAt_append.mp hstand
      obtain ⟨hc, hrest⟩ := standAt_append.mp hbehind
      have hbody := eval_fresh (ihb hstraight.1 hb (Nat.le_refl pos) (hl.mono 2))
      have hcleanup := eval_fresh (ihc hstraight.2.1 hc (Nat.le_refl _) (hl.mono 2))
      have hafter := eval_fresh (ih hstraight.2.2 hrest (Nat.le_refl _) (hl.mono 1))
      exact eval_triple hl (eval_defer hsilent (hl.mono 1) hbody hcleanup) hafter e
  | defer cleanup rest ihc ih =>
      obtain ⟨hc, hr⟩ := standAt_append.mp hstand
      obtain ⟨hshallow, hstraightc, hstraightr⟩ := hstraight
      have hcleanup := eval_fresh (ihc hstraightc hc (Nat.le_refl pos) (hl.mono 2))
      have hrest := eval_fresh (ih hstraightr hr (Nat.le_refl _) ((hl.mono 2).mono cleanup.climb))
      -- the levels are right, or there are none
      have hlevels : ∀ s, (rest.exec M fuel s s).toOutcome (l.level (depth + 2 + cleanup.climb)) =
          (rest.exec M fuel s s).toOutcome (l.level (depth + 2)) := by
        intro s
        rcases hshallow with hflat | hstays
        · simp only [hflat, Nat.add_zero]
        · exact (exec_inward hstays s s).toOutcome
      have hafter : ∀ s, (Tree.basic ⟨pos + cleanup.ops.length + rest.ops.length, 0⟩).eval M fuel s =
          (Ending.normal (M.discard s s)).toOutcome (l.level (depth + 1)) := by
        intro s
        rw [Tree.eval, Machine.range_empty]
        rfl
      exact eval_triple hl (eval_defer hsilent (hl.mono 1) (fun s => (hrest s).trans (hlevels s)) hcleanup)
        hafter e
  | var v rest ih =>
      have hrest := eval_fresh (ih hstraight hstand (Nat.le_refl pos) (hl.mono 2))
      have hbehind := fun s => (eval_chain_stop _ s).trans (eval_var (v := v) (hl.mono 1) hrest s)
      exact eval_many hl hbehind e

/-- The statements of a whole function -/
theorem Stmts.eval_whole (hsilent : M.Silent) {p : Stmts} (hstraight : p.Straight) (hops : M.ops = p.ops) (s : σ) :
    (p.tree 0 0 0 {}).eval M fuel s = (p.exec M fuel s s).toOutcome (({} : LoopDepths).level 0) := by
  have hstand : StandAt M.ops 0 p.ops := by
    rw [hops]
    exact List.prefix_rfl
  have hwithin : ({} : LoopDepths).Within 0 := by
    intro c
    cases c <;> exact Nat.le_refl 0
  rw [eval_tree hsilent hstraight hstand (Nat.le_refl 0) hwithin, Nat.sub_self, Machine.range_empty]
  rfl

end Eval

end TreeVM
