import TreeVM.IR.Block

/-!
# `remove_defers`

The lowering pass of `ir.c`, on block arrays, statement by statement:

* `res` is the array being built; `extend` is `EXTEND_HEAP` (new cells are unset);
* `epis` is the epilogue stack, top first.  Every call pushes one entry, `0` or the index
  in `res` of a finished cleanup, so the entry pushed for a block is the head of the list its
  children receive;
* `linkChild` is the code that appends one child to a `BLOCK_MANY` under construction
  (written out twice in the source, for `BLOCK_MANY` and for `BLOCK_BREAK`).

`fuel` bounds the recursion; `none` means that it ran out, that an index was out of range or
that the assertion on the epilogue stack failed.
-/

namespace TreeVM

/-- `EXTEND_HEAP(res, n)` -/
def extend (res : List Block) (n : Nat) : List Block :=
  res ++ List.replicate n Block.unset

/-- `res->data[i].data.chain.next = link` -/
def setNext (res : List Block) (i : Nat) (link : Option Nat) : Option (List Block) :=
  match res[i]? with
  | some (.many cur _) => some (res.set i (.many cur link))
  | some (.chain cur _) => some (res.set i (.chain cur link))
  | _ => none

/-- Append `child` to the `BLOCK_MANY` at `dst`; `prev` is `prev_link`. -/
def linkChild (res : List Block) (dst child : Nat) (prev : Option Nat) :
    Option (List Block × Option Nat) :=
  match res[dst]? with
  | some (.many none next) => some (res.set dst (.many (some child) next), prev)
  | some (.many (some _) next) => do
      -- append_chain_node
      let link := res.length
      let res := res ++ [.chain (some child) none]
      let hook ← if next = none then some dst else prev
      let res ← setNext res hook (some link)
      return (res, some link)
  | _ => none

/-- The `while` loop of `BLOCK_MANY`: `recurse src_child dst_child` fills each fresh slot. -/
def copyChildren (blocks : List Block)
    (recurse : Nat → Nat → List Block → Option (List Block)) (dst : Nat) :
    Nat → Option Nat → Option Nat → Option Nat → List Block →
      Option (List Block)
  | _, none, _, _, res => some res
  | 0, some _, _, _, _ => none
  | fuel + 1, some child, link, prev, res => do
      let slot := res.length
      let (res, prev) ← linkChild (extend res 1) dst slot prev
      let res ← recurse child slot res
      match link with
      | none => return res
      | some l =>
          match blocks[l]? with
          | some (.chain cur next) => copyChildren blocks recurse dst fuel cur next prev res
          | _ => return res

/-- The `for` loop of `BLOCK_BREAK`: pop `level` entries, copy the root of each epilogue. -/
def copyEpilogues (dst : Nat) :
    Nat → List Nat → Option Nat → List Block → Option (List Block × Option Nat)
  | 0, _, prev, res => some (res, prev)
  -- assert(stack.len)
  | _ + 1, [], _, _ => none
  | level + 1, d :: stack, prev, res =>
      if d = 0 then copyEpilogues dst level stack prev res
      else do
        let slot := res.length
        let root ← res[d]?
        let (res, prev) ← linkChild ((extend res 1).set slot root) dst slot prev
        copyEpilogues dst level stack prev res

/-- After that loop: nothing was copied and the break stays, or the break, one level up,
becomes the last child. -/
def finishBreak (dst : Nat) (level : Nat) (res : List Block) (prev : Option Nat) :
    Option (List Block) :=
  match res[dst]? with
  | some (.many none _) => some (res.set dst (.brk level))
  | _ => do
      let slot := res.length
      let (res, _) ← linkChild ((extend res 1).set slot (.brk (level + 1))) dst slot prev
      return res

/-- The `BLOCK_BREAK` case. -/
def expandBreak (dst : Nat) (level : Nat) (stack : List Nat) (res : List Block) :
    Option (List Block) := do
  let (res, prev) ← copyEpilogues dst level stack none (res.set dst (.many none none))
  finishBreak dst level res prev

def removeDefersAux (blocks : List Block) :
    Nat → Nat → Nat → List Block → List Nat → Option (List Block)
  | 0, _, _, _, _ => none
  | fuel + 1, src, dst, res, epis => do
      let b ← blocks[src]?
      let res := res.set dst b
      -- the slots that the case allocates start here
      let n := res.length
      match b with
      | .basic _ => return res
      | .defer next defer =>
          let res := extend res 4
          let res := res.set dst (.many (some n) (some (n + 1)))
          let res := res.set (n + 1) (.chain (some (n + 2)) none)
          let res := res.set n (.crashPad (n + 3) (n + 2))
          let res ← removeDefersAux blocks fuel defer (n + 2) res (0 :: epis)
          removeDefersAux blocks fuel next (n + 3) res ((n + 2) :: epis)
      | .crashPad body pad =>
          let res := (extend res 2).set dst (.crashPad n (n + 1))
          let res ← removeDefersAux blocks fuel pad (n + 1) res (0 :: epis)
          removeDefersAux blocks fuel body n res ((n + 1) :: epis)
      | .many cur next =>
          copyChildren blocks
            (fun child slot res => removeDefersAux blocks fuel child slot res (0 :: epis))
            dst fuel cur next none (res.set dst (.many none none))
      | .chain _ _ => return res
      | .crash => return res
      | .hardCrash => return res
      | .branch cond yes no =>
          let res := (extend res 2).set dst (.branch cond n (n + 1))
          let res ← removeDefersAux blocks fuel yes n res (0 :: epis)
          removeDefersAux blocks fuel no (n + 1) res (0 :: epis)
      | .loop body =>
          let res := (extend res 1).set dst (.loop n)
          removeDefersAux blocks fuel body n res (0 :: epis)
      | .brk level => expandBreak dst level (0 :: epis) res
      | .var v body =>
          let res := (extend res 1).set dst (.var v n)
          removeDefersAux blocks fuel body n res (0 :: epis)

def removeDefers (fuel : Nat) (blocks : List Block) : Option (List Block) :=
  removeDefersAux blocks fuel 0 0 (extend [] 1) []

end TreeVM
