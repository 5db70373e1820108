import TreeVM.IR.Tree

/-!
# Running a block tree

A direct semantics of block trees over any machine that can run single operations.

* `Machine σ`: the operations and the stack discipline around blocks, on states `σ`;
* `Outcome σ`: how a tree ends (normally, by a break, by a soft crash, by a halt that skips all
  handlers, or not within the given number of loop rounds);
* `Tree.eval`: structural in the tree; `fuel` only bounds the rounds of each loop;
* `Machine.traced`: the same machine, recording every executed operation and every annotation.

`defer` is given its meaning directly; a lowered tree contains none, so on it `eval` is the
semantics of the remaining blocks.
-/

namespace TreeVM

inductive Event
  | op (op : Op)
  | mark (m : Mark)
  /-- the protected body of the defer with this name was left -/
  | exit (id : Nat)
  /-- a copied epilogue in front of a break was left by a soft crash or a break -/
  | left
  deriving DecidableEq, Repr

/-- How one operation ends. -/
inductive Step (σ : Type)
  | ok (s : σ)
  | crash (s : σ)
  | halt (s : σ)
  | timeout (s : σ)
  deriving DecidableEq, Repr

structure Machine (σ : Type) where
  ops : List Op
  op : Op → σ → Step σ
  /-- drop what a basic block left on the argument stack: entry state, final state -/
  discard : σ → σ → σ
  /-- pop the value of a condition -/
  test : σ → Bool × σ
  /-- allocate a zeroed local -/
  enter : Nat → σ → Step σ
  /-- release it: entry state, final state -/
  leave : σ → σ → σ
  /-- what a handler starts from: state at the pad, state at the crash -/
  restore : σ → σ → σ
  /-- a `BLOCK_CRASH`, or the re-raise at the end of a handler -/
  raise : σ → σ
  /-- a `BLOCK_HARD_CRASH` -/
  hard : σ → σ
  note : Event → σ → σ

/-- How a tree ends; `brk n` still has to leave `n` scopes. -/
inductive Outcome (σ : Type)
  | normal (s : σ)
  | brk (n : Nat) (s : σ)
  | crash (s : σ)
  | halt (s : σ)
  | timeout (s : σ)
  deriving DecidableEq, Repr

namespace Outcome

variable {σ : Type}

def state : Outcome σ → σ
  | normal s => s
  | brk _ s => s
  | crash s => s
  | halt s => s
  | timeout s => s

/-- The end of a scope: a break of one level stops here. -/
def scope : Outcome σ → Outcome σ
  | brk n s => if n ≤ 1 then normal s else brk (n - 1) s
  | o => o

/-- The end of a handler: falling through re-raises the crash. -/
def reraise (raise : σ → σ) : Outcome σ → Outcome σ
  | normal s => crash (raise s)
  | o => o

/-- The end of a protected body. -/
def exited (note : Event → σ → σ) (id : Nat) : Outcome σ → Outcome σ
  | normal s => normal (note (.exit id) s)
  | brk n s => brk n (note (.exit id) s)
  | crash s => crash (note (.exit id) s)
  | o => o

/-- The end of a copied epilogue. -/
def leftBy (note : Event → σ → σ) : Outcome σ → Outcome σ
  | brk n s => brk n (note .left s)
  | crash s => crash (note .left s)
  | o => o

/-- The end of an annotated subtree. -/
def close (note : Event → σ → σ) : Mark → Outcome σ → Outcome σ
  | .enter id, o => o.exited note id
  | .inlined _, o => o.leftBy note
  | .inlinedPad, o => o.leftBy note
  | .cleanup _, o => o
  | .padBreak, o => o
  | .place _, o => o
  | .aim _, o => o

/-- The end of a local: its storage is released on the normal path and by breaks; a crash
leaves that to the handler. -/
def release (leave : σ → σ) : Outcome σ → Outcome σ
  | normal s => normal (leave s)
  | brk n s => brk n (leave s)
  | o => o

end Outcome

def Step.outcome {σ : Type} (k : σ → Outcome σ) : Step σ → Outcome σ
  | ok s => k s
  | crash s => .crash s
  | halt s => .halt s
  | timeout s => .timeout s

namespace Machine

variable {σ : Type} (M : Machine σ)

def range (r : OpRange) : List Op :=
  (M.ops.drop r.start).take r.len

def runOps : List Op → σ → Step σ
  | [], s => .ok s
  | o :: os, s =>
      match M.op o s with
      | .ok s => runOps os s
      | r => r

/-- Rounds of a loop body. -/
def iterate (body : σ → Outcome σ) : Nat → σ → Outcome σ
  | 0, s => .timeout s
  | fuel + 1, s =>
      match body s with
      | .normal s => iterate body fuel s
      | o => o

end Machine

open Machine in
def Tree.eval {σ : Type} (M : Machine σ) (fuel : Nat) : Tree → σ → Outcome σ
  | basic ops, s => (M.runOps (M.range ops) s).outcome fun s' => .normal (M.discard s s')
  | defer id next cleanup, s =>
      Outcome.scope <|
        match (next.eval M fuel (M.note (.mark (.enter id)) s)).exited M.note id with
        | .normal s' => cleanup.eval M fuel (M.note (.mark (.cleanup id)) s')
        | .brk n s' =>
            match cleanup.eval M fuel (M.note (.mark (.cleanup id)) s') with
            | .normal s'' => .brk n s''
            | o => o
        | .crash s' =>
            (cleanup.eval M fuel (M.note (.mark (.cleanup id)) (M.restore s s'))).reraise M.raise
        | o => o
  | many body, s => (body.eval M fuel s).scope
  | chain cur next, s =>
      match cur.eval M fuel s with
      | .normal s' => next.eval M fuel s'
      | o => o
  | stop, s => .normal s
  | crash, s => .crash (M.raise s)
  | hardCrash, s => .halt (M.hard s)
  | crashPad body pad, s =>
      match body.eval M fuel s with
      | .crash s' => (pad.eval M fuel (M.restore s s')).reraise M.raise
      | o => o
  | branch cond yes no, s =>
      (M.runOps (M.range cond) s).outcome fun s' =>
        match M.test s' with
        | (true, s'') => yes.eval M fuel s''
        | (false, s'') => no.eval M fuel s''
  | loop body, s => (iterate (body.eval M fuel) fuel s).scope
  | brk level, s => .brk level s
  | var v body, s =>
      (M.enter v s).outcome fun s' => ((body.eval M fuel s').release (M.leave s)).scope
  | mark m t, s => (t.eval M fuel (M.note (.mark m) s)).close M.note m

/-! ## Traces -/

def Step.map {σ τ : Type} (f : σ → τ) : Step σ → Step τ
  | ok s => .ok (f s)
  | crash s => .crash (f s)
  | halt s => .halt (f s)
  | timeout s => .timeout (f s)

/-- Record every executed operation, in order.  No rule of the machine looks at the record,
and no rule rolls it back. -/
def Machine.traced {σ : Type} (M : Machine σ) : Machine (σ × List Event) where
  ops := M.ops
  op o s := (M.op o s.1).map fun s' => (s', s.2 ++ [.op o])
  discard s s' := (M.discard s.1 s'.1, s'.2)
  test s := ((M.test s.1).1, (M.test s.1).2, s.2)
  enter v s := (M.enter v s.1).map fun s' => (s', s.2)
  leave s s' := (M.leave s.1 s'.1, s'.2)
  restore s s' := (M.restore s.1 s'.1, s'.2)
  raise s := (M.raise s.1, s.2)
  hard s := (M.hard s.1, s.2)
  note e s := (M.note e s.1, s.2 ++ [e])

end TreeVM
