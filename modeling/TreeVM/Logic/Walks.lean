import Mathlib.Data.Finset.Basic
import Mathlib.Data.Finset.Card
import Mathlib.Data.List.Basic

/-!
# Walks with a log

A walk visits a point and then its children, one after the other; some points only stand for
another one.  It keeps a log of its visits and stops at a point that clashes with an earlier visit.
Nothing else stops it, so it may come back to a point again and again.

* `walk`, `walkAll`: the program; `Visits`: the visits of a complete walk, in order;
* `visits_of_walk`, `walk_of_visits`: a walk succeeds if it is finite and no two of its visits clash;
  `into_of_clash`: it stops at a visit that clashes with an earlier one;
* `Visits.mem`, `Visits.mem_kids`: what a complete walk has visited;
* `Into`: how far a walk can get; `Returns`: it gets back to a point it is still walking from;
* `Endless`: it gets from point to point for ever; `ends_iff_not_endless`: otherwise it ends;
* `ends_iff`: a walk over finitely many points ends if and only if it never returns.
-/

namespace TreeVM

namespace Walks

inductive Stop
  | clash
  | outOfFuel
  deriving DecidableEq, Repr

section Program

variable {β : Type} (redirect : β → Option β) (kids : β → List β) (clash : β → β → Prop)
  [DecidableRel clash]

/-- The points of a list, one after the other; the log has the latest visit first. -/
def walkAll (f : β → List β → Except Stop (List β)) : List β → List β → Except Stop (List β)
  | [], log => .ok log
  | x :: xs, log => do
      let log ← f x log
      walkAll f xs log

def walk : Nat → β → List β → Except Stop (List β)
  | 0, _, _ => .error .outOfFuel
  | fuel + 1, x, log =>
      match redirect x with
      | some y => walk fuel y log
      | none =>
          if log.any fun y => clash y x then .error .clash
          else walkAll (walk fuel) (kids x) (x :: log)

/-- The visits of a complete walk from a list of points. -/
inductive Visits : List β → List β → Prop
  | nil : Visits [] []
  | redirect {x y xs V} : redirect x = some y → Visits (y :: xs) V → Visits (x :: xs) V
  | visit {x xs U V} : redirect x = none → Visits (kids x) U → Visits xs V →
      Visits (x :: xs) (x :: (U ++ V))

/-- The point that `x` stands for in the end -/
inductive StandsFor : β → β → Prop
  | self {x} : redirect x = none → StandsFor x x
  | step {x y z} : redirect x = some y → StandsFor y z → StandsFor x z

/-- A walk from a list of points can get to `y` after the visits `V`. -/
inductive Into : List β → List β → β → Prop
  | here {x xs} : redirect x = none → Into (x :: xs) [] x
  | redirect {x y xs V z} : redirect x = some y → Into (y :: xs) V z → Into (x :: xs) V z
  | down {x xs V z} : redirect x = none → Into (kids x) V z → Into (x :: xs) (x :: V) z
  | next {x xs U V z} : redirect x = none → Visits redirect kids (kids x) U → Into xs V z →
      Into (x :: xs) (x :: (U ++ V)) z

/-- The visits `V` clash neither with the log nor with each other. -/
def Clear (log V : List β) : Prop :=
  (∀ y ∈ log, ∀ x ∈ V, ¬ clash y x) ∧ V.Pairwise fun y x => ¬ clash y x

/-- Starting with a log, the walk ends. -/
def Ends (xs log : List β) : Prop :=
  ∃ fuel, walkAll (walk redirect kids clash fuel) xs log ≠ .error .outOfFuel

/-- The walk can get to a point, and from there back to the same point, without a clash. -/
def Returns (xs log : List β) : Prop :=
  ∃ V x U, Into redirect kids xs V x ∧ Into redirect kids (kids x) U x ∧
    Clear clash log (V ++ x :: (U ++ [x]))

/-- Every situation of a family leads to another one: the walk gets from the points that are to
come to one of them without a clash, and goes on with its children. -/
def Endless (xs log : List β) : Prop :=
  ∃ P : List β → List β → Prop, P xs log ∧ ∀ xs log, P xs log →
    ∃ V x, Into redirect kids xs V x ∧ Clear clash log (V ++ [x]) ∧
      P (kids x) (x :: (V.reverse ++ log))

end Program

section Facts

variable {β : Type} {redirect : β → Option β} {kids : β → List β} {clash : β → β → Prop}

theorem clear_nil (log : List β) : Clear clash log [] :=
  ⟨fun _ _ _ h => (List.not_mem_nil h).elim, List.Pairwise.nil⟩

/-- A first visit, and then the others with a longer log. -/
theorem clear_cons {log V : List β} {x : β} :
    Clear clash log (x :: V) ↔ (∀ y ∈ log, ¬ clash y x) ∧ Clear clash (x :: log) V := by
  constructor
  · rintro ⟨hlog, hpair⟩
    obtain ⟨hx, hpair⟩ := List.pairwise_cons.mp hpair
    refine ⟨fun y hy => hlog y hy x List.mem_cons_self, fun y hy z hz => ?_, hpair⟩
    rcases List.mem_cons.mp hy with rfl | hy
    · exact hx z hz
    · exact hlog y hy z (List.mem_cons_of_mem _ hz)
  · rintro ⟨hx, hlog, hpair⟩
    refine ⟨fun y hy z hz => ?_, ?_⟩
    · rcases List.mem_cons.mp hz with rfl | hz
      · exact hx y hy
      · exact hlog y (List.mem_cons_of_mem _ hy) z hz
    · exact List.pairwise_cons.mpr ⟨hlog x List.mem_cons_self, hpair⟩

theorem clear_append {log U V : List β} :
    Clear clash log (U ++ V) ↔ Clear clash log U ∧ Clear clash (U.reverse ++ log) V := by
  induction U generalizing log with
  | nil => exact ⟨fun h => ⟨clear_nil log, h⟩, fun h => h.2⟩
  | cons x U ih =>
      rw [List.cons_append, clear_cons, clear_cons, ih, List.reverse_cons, List.append_assoc,
        and_assoc]
      rfl

theorem Clear.append_left {log U V : List β} (h : Clear clash log (U ++ V)) : Clear clash log U :=
  (clear_append.mp h).1

/-! ## Visits -/

theorem Visits.append {xs ys U V : List β} (hU : Visits redirect kids xs U)
    (hV : Visits redirect kids ys V) : Visits redirect kids (xs ++ ys) (U ++ V) := by
  induction hU with
  | nil => exact hV
  | redirect hr _ ih => exact .redirect hr ih
  | visit hr hkids _ _ ih =>
      rw [List.cons_append, List.cons_append, List.append_assoc]
      exact .visit hr hkids ih

theorem Into.target {xs V : List β} {z : β} (h : Into redirect kids xs V z) : redirect z = none := by
  induction h with
  | here hr => exact hr
  | redirect _ _ ih => exact ih
  | down _ _ ih => exact ih
  | next _ _ _ ih => exact ih

/-- A property that children and redirections inherit holds of all visits. -/
theorem Visits.forall {xs V : List β} {P : β → Prop} (h : Visits redirect kids xs V)
    (hkids : ∀ x, P x → ∀ y ∈ kids x, P y) (hredirect : ∀ x y, redirect x = some y → P x → P y)
    (hxs : ∀ x ∈ xs, P x) : ∀ v ∈ V, P v := by
  induction h with
  | nil => exact hxs
  | @redirect x y xs V hr _ ih =>
      obtain ⟨hx, hxs⟩ := List.forall_mem_cons.mp hxs
      exact ih (List.forall_mem_cons.mpr ⟨hredirect x y hr hx, hxs⟩)
  | visit _ _ _ ihkids ihrest =>
      obtain ⟨hx, hxs⟩ := List.forall_mem_cons.mp hxs
      refine List.forall_mem_cons.mpr ⟨hx, fun v hv => ?_⟩
      rcases List.mem_append.mp hv with hv | hv
      · exact ihkids (hkids _ hx) v hv
      · exact ihrest hxs v hv

theorem Into.forall {xs V : List β} {z : β} {P : β → Prop} (h : Into redirect kids xs V z)
    (hkids : ∀ x, P x → ∀ y ∈ kids x, P y) (hredirect : ∀ x y, redirect x = some y → P x → P y)
    (hxs : ∀ x ∈ xs, P x) : ∀ v ∈ V, P v := by
  induction h with
  | here _ => exact fun v hv => (List.not_mem_nil hv).elim
  | @redirect x y xs V z hr _ ih =>
      obtain ⟨hx, hxs⟩ := List.forall_mem_cons.mp hxs
      exact ih (List.forall_mem_cons.mpr ⟨hredirect x y hr hx, hxs⟩)
  | down _ _ ih =>
      obtain ⟨hx, -⟩ := List.forall_mem_cons.mp hxs
      exact List.forall_mem_cons.mpr ⟨hx, ih (hkids _ hx)⟩
  | next _ hvisits _ ih =>
      obtain ⟨hx, hxs⟩ := List.forall_mem_cons.mp hxs
      refine List.forall_mem_cons.mpr ⟨hx, fun v hv => ?_⟩
      rcases List.mem_append.mp hv with hv | hv
      · exact hvisits.forall hkids hredirect (hkids _ hx) v hv
      · exact ih hxs v hv

/-- A complete walk visits what its points stand for. -/
theorem Visits.mem {xs V : List β} {x z : β} (h : Visits redirect kids xs V) (hx : x ∈ xs)
    (hz : StandsFor redirect x z) : z ∈ V := by
  induction h generalizing x with
  | nil => exact (List.not_mem_nil hx).elim
  | redirect hr _ ih =>
      rcases List.mem_cons.mp hx with rfl | hx
      · cases hz with
        | self hnone => simp [hr] at hnone
        | step hr' hz =>
            rw [hr] at hr'
            cases hr'
            exact ih List.mem_cons_self hz
      · exact ih (List.mem_cons_of_mem _ hx) hz
  | visit hr _ _ _ ih =>
      rcases List.mem_cons.mp hx with rfl | hx
      · cases hz with
        | self => exact List.mem_cons_self
        | step hr' _ => simp [hr] at hr'
      · exact List.mem_cons_of_mem _ (List.mem_append_right _ (ih hx hz))

/-- And what the children of its visits stand for. -/
theorem Visits.mem_kids {xs V : List β} {x y z : β} (h : Visits redirect kids xs V) (hx : x ∈ V)
    (hy : y ∈ kids x) (hz : StandsFor redirect y z) : z ∈ V := by
  induction h with
  | nil => exact (List.not_mem_nil hx).elim
  | redirect _ _ ih => exact ih hx
  | visit _ hkids _ ihkids ihrest =>
      refine List.mem_cons_of_mem _ ?_
      rcases List.mem_cons.mp hx with rfl | hx
      · exact List.mem_append_left _ (hkids.mem hy hz)
      · rcases List.mem_append.mp hx with hx | hx
        · exact List.mem_append_left _ (ihkids hx)
        · exact List.mem_append_right _ (ihrest hx)

theorem Visits.unique {xs V W : List β} (h : Visits redirect kids xs V)
    (h' : Visits redirect kids xs W) : V = W := by
  induction h generalizing W with
  | nil =>
      cases h'
      rfl
  | redirect hr _ ih =>
      cases h' with
      | redirect hr' h' =>
          rw [hr] at hr'
          cases hr'
          exact ih h'
      | visit hr' _ _ => simp [hr] at hr'
  | visit hr _ _ ihkids ihrest =>
      cases h' with
      | redirect hr' _ => simp [hr] at hr'
      | visit _ hkids hrest => rw [ihkids hkids, ihrest hrest]

/-- A complete walk from two lists is one from each. -/
theorem Visits.split {xs ys W : List β} (h : Visits redirect kids (xs ++ ys) W) :
    ∃ U V, Visits redirect kids xs U ∧ Visits redirect kids ys V ∧ W = U ++ V := by
  generalize hzs : xs ++ ys = zs at h
  induction h generalizing xs with
  | nil =>
      obtain ⟨rfl, rfl⟩ := List.append_eq_nil_iff.mp hzs
      exact ⟨[], [], .nil, .nil, rfl⟩
  | @redirect x y rest W hr h ih =>
      cases xs with
      | nil =>
          cases hzs
          exact ⟨[], W, .nil, .redirect hr h, rfl⟩
      | cons x' xs =>
          cases hzs
          obtain ⟨U, V, hU, hV, rfl⟩ := @ih (y :: xs) rfl
          exact ⟨U, V, .redirect hr hU, hV, rfl⟩
  | @visit x rest K W hr hkids h _ ih =>
      cases xs with
      | nil =>
          cases hzs
          exact ⟨[], x :: (K ++ W), .nil, .visit hr hkids h, rfl⟩
      | cons x' xs =>
          cases hzs
          obtain ⟨U, V, hU, hV, rfl⟩ := @ih xs rfl
          exact ⟨x :: (K ++ U), V, .visit hr hkids hU, hV, by simp⟩

/-- What a walk can get to is among the visits of the complete walk, after the same visits. -/
theorem Into.split_visits {xs V W : List β} {z : β} (h : Into redirect kids xs V z)
    (hW : Visits redirect kids xs W) : ∃ R, W = V ++ z :: R := by
  induction h generalizing W with
  | here hr =>
      cases hW with
      | redirect hr' _ => simp [hr] at hr'
      | visit _ _ _ => exact ⟨_, rfl⟩
  | redirect hr _ ih =>
      cases hW with
      | redirect hr' hW =>
          rw [hr] at hr'
          cases hr'
          exact ih hW
      | visit hr' _ _ => simp [hr] at hr'
  | down hr _ ih =>
      cases hW with
      | redirect hr' _ => simp [hr] at hr'
      | @visit _ _ _ rest _ hkids _ =>
          obtain ⟨R, rfl⟩ := ih hkids
          exact ⟨R ++ rest, by simp only [List.cons_append, List.append_assoc]⟩
  | next hr hvisits _ ih =>
      cases hW with
      | redirect hr' _ => simp [hr] at hr'
      | visit _ hkids hrest =>
          obtain ⟨R, rfl⟩ := ih hrest
          rw [hvisits.unique hkids]
          exact ⟨R, by simp only [List.cons_append, List.append_assoc]⟩

/-- A walk from two lists gets to its points from the first one, or from the second one after all
visits of the first. -/
theorem Into.split {xs ys W : List β} {z : β} (h : Into redirect kids (xs ++ ys) W z) :
    Into redirect kids xs W z ∨
      ∃ U V, Visits redirect kids xs U ∧ Into redirect kids ys V z ∧ W = U ++ V := by
  generalize hzs : xs ++ ys = zs at h
  induction h generalizing xs with
  | here hr =>
      cases xs with
      | nil =>
          cases hzs
          exact .inr ⟨[], [], .nil, .here hr, rfl⟩
      | cons x' xs =>
          cases hzs
          exact .inl (.here hr)
  | @redirect x y rest W z hr h ih =>
      cases xs with
      | nil =>
          cases hzs
          exact .inr ⟨[], W, .nil, .redirect hr h, rfl⟩
      | cons x' xs =>
          cases hzs
          rcases @ih (y :: xs) rfl with hleft | ⟨U, V, hU, hV, rfl⟩
          · exact .inl (.redirect hr hleft)
          · exact .inr ⟨U, V, .redirect hr hU, hV, rfl⟩
  | @down x rest W z hr h _ =>
      cases xs with
      | nil =>
          cases hzs
          exact .inr ⟨[], x :: W, .nil, .down hr h, rfl⟩
      | cons x' xs =>
          cases hzs
          exact .inl (.down hr h)
  | @next x rest K W z hr hkids h ih =>
      cases xs with
      | nil =>
          cases hzs
          exact .inr ⟨[], x :: (K ++ W), .nil, .next hr hkids h, rfl⟩
      | cons x' xs =>
          cases hzs
          rcases @ih xs rfl with hleft | ⟨U, V, hU, hV, rfl⟩
          · exact .inl (.next hr hkids hleft)
          · exact .inr ⟨x :: (K ++ U), V, .visit hr hkids hU, hV, by simp⟩

theorem Into.forall_target {xs V : List β} {z : β} {P : β → Prop} (h : Into redirect kids xs V z)
    (hkids : ∀ x, P x → ∀ y ∈ kids x, P y) (hredirect : ∀ x y, redirect x = some y → P x → P y)
    (hxs : ∀ x ∈ xs, P x) : P z := by
  induction h with
  | here _ => exact hxs _ List.mem_cons_self
  | @redirect x y xs V z hr _ ih =>
      obtain ⟨hx, hxs⟩ := List.forall_mem_cons.mp hxs
      exact ih (List.forall_mem_cons.mpr ⟨hredirect x y hr hx, hxs⟩)
  | down _ _ ih => exact ih (hkids _ (hxs _ List.mem_cons_self))
  | next _ _ _ ih => exact ih fun x hx => hxs x (List.mem_cons_of_mem _ hx)

/-! ## Returning -/

/-- A point that a walk cannot clash with by coming back to it. -/
def Weak (clash : β → β → Prop) (x : β) : Prop :=
  ¬ clash x x

theorem Into.append_right {xs ys V : List β} {z : β} (h : Into redirect kids xs V z) :
    Into redirect kids (xs ++ ys) V z := by
  induction h with
  | here hr => exact .here hr
  | redirect hr _ ih => exact .redirect hr ih
  | down hr hkids _ => exact .down hr hkids
  | next hr hvisits _ ih => exact .next hr hvisits ih

theorem Visits.into {xs ys U V : List β} {z : β} (hU : Visits redirect kids xs U)
    (h : Into redirect kids ys V z) : Into redirect kids (xs ++ ys) (U ++ V) z := by
  induction hU with
  | nil => exact h
  | redirect hr _ ih => exact .redirect hr ih
  | visit hr hkids _ _ ih =>
      rw [List.cons_append, List.cons_append, List.append_assoc]
      exact .next hr hkids ih

/-- The walk cannot get to the points of `A`. -/
def Avoids (redirect : β → Option β) (kids : β → List β) (clash : β → β → Prop) (A : Finset β)
    (xs log : List β) : Prop :=
  ∀ a ∈ A, ∀ U, Into redirect kids xs U a → ¬ Clear clash log (U ++ [a])

/-- Walks for ever neither into a point of `A` nor back to where it is. -/
structure Forward (redirect : β → Option β) (kids : β → List β) (clash : β → β → Prop)
    (A : Finset β) (xs log : List β) : Prop where
  avoids : Avoids redirect kids clash A xs log
  onward : ¬ Returns redirect kids clash xs log

namespace Forward

variable {A : Finset β} {x : β} {xs log : List β}

theorem head (h : Forward redirect kids clash A (x :: xs) log) :
    Forward redirect kids clash A [x] log := by
  refine ⟨fun a ha U hU => h.avoids a ha U hU.append_right, ?_⟩
  rintro ⟨V, z, U, hV, hU, hclear⟩
  exact h.onward ⟨V, z, U, hV.append_right, hU, hclear⟩

theorem tail (h : Forward redirect kids clash A (x :: xs) log) {V : List β}
    (hV : Visits redirect kids [x] V) (hclear : Clear clash log V) :
    Forward redirect kids clash A xs (V.reverse ++ log) := by
  constructor
  · intro a ha U hU hc
    refine h.avoids a ha (V ++ U) (hV.into hU) ?_
    rw [List.append_assoc]
    exact clear_append.mpr ⟨hclear, hc⟩
  · rintro ⟨W, z, U, hW, hU, hc⟩
    refine h.onward ⟨V ++ W, z, U, hV.into hW, hU, ?_⟩
    rw [List.append_assoc]
    exact clear_append.mpr ⟨hclear, hc⟩

theorem of_redirect (h : Forward redirect kids clash A [x] log) {y : β}
    (hr : redirect x = some y) : Forward redirect kids clash A [y] log := by
  refine ⟨fun a ha U hU => h.avoids a ha U (.redirect hr hU), ?_⟩
  rintro ⟨V, z, U, hV, hU, hclear⟩
  exact h.onward ⟨V, z, U, .redirect hr hV, hU, hclear⟩

variable [DecidableEq β]

theorem below (h : Forward redirect kids clash A [x] log) (hr : redirect x = none)
    (hc : ∀ y ∈ log, ¬ clash y x) :
    Forward redirect kids clash (insert x A) (kids x) (x :: log) := by
  constructor
  · intro a ha U hU hclear
    rcases Finset.mem_insert.mp ha with rfl | ha
    · exact h.onward ⟨[], a, U, .here hr, hU, clear_cons.mpr ⟨hc, hclear⟩⟩
    · exact h.avoids a ha (x :: U) (.down hr hU) (clear_cons.mpr ⟨hc, hclear⟩)
  · rintro ⟨V, z, U, hV, hU, hclear⟩
    exact h.onward ⟨x :: V, z, U, .down hr hV, hU, clear_cons.mpr ⟨hc, hclear⟩⟩

end Forward

variable [DecidableRel clash]

/-! ## One point -/

theorem walk_redirect {fuel : Nat} {x y : β} {log : List β} (hr : redirect x = some y) :
    walk redirect kids clash (fuel + 1) x log = walk redirect kids clash fuel y log := by
  rw [walk, hr]

theorem walk_clash {fuel : Nat} {x : β} {log : List β} (hr : redirect x = none)
    (hc : ∃ y ∈ log, clash y x) :
    walk redirect kids clash (fuel + 1) x log = .error .clash := by
  rw [walk, hr]
  exact if_pos (by simpa using hc)

theorem walk_visit {fuel : Nat} {x : β} {log : List β} (hr : redirect x = none)
    (hc : ∀ y ∈ log, ¬ clash y x) :
    walk redirect kids clash (fuel + 1) x log =
      walkAll (walk redirect kids clash fuel) (kids x) (x :: log) := by
  rw [walk, hr]
  exact if_neg (by simpa using hc)

theorem walkAll_cons {f : β → List β → Except Stop (List β)} {x : β} {xs log log' : List β}
    (h : f x log = .ok log') : walkAll f (x :: xs) log = walkAll f xs log' := by
  rw [walkAll, h]
  rfl

theorem walkAll_stop {f : β → List β → Except Stop (List β)} {x : β} {xs log : List β} {s : Stop}
    (h : f x log = .error s) : walkAll f (x :: xs) log = .error s := by
  rw [walkAll, h]
  rfl

/-! ## More fuel -/

theorem walkAll_mono {f g : β → List β → Except Stop (List β)}
    (hfg : ∀ x log, f x log ≠ .error .outOfFuel → g x log = f x log) {xs log : List β}
    (h : walkAll f xs log ≠ .error .outOfFuel) : walkAll g xs log = walkAll f xs log := by
  induction xs generalizing log with
  | nil => rfl
  | cons x xs ih =>
      have hx : f x log ≠ .error .outOfFuel := by
        intro hf
        rw [walkAll, hf] at h
        exact h rfl
      rw [walkAll, walkAll, hfg x log hx]
      cases hf : f x log with
      | error s => rfl
      | ok log' =>
          rw [walkAll, hf] at h
          exact ih h

theorem walk_mono {fuel fuel' : Nat} (hle : fuel ≤ fuel') {x : β} {log : List β}
    (h : walk redirect kids clash fuel x log ≠ .error .outOfFuel) :
    walk redirect kids clash fuel' x log = walk redirect kids clash fuel x log := by
  induction fuel generalizing fuel' x log with
  | zero => exact absurd rfl h
  | succ fuel ih =>
      cases fuel' with
      | zero => omega
      | succ fuel' =>
          have hle := Nat.le_of_succ_le_succ hle
          cases hr : redirect x with
          | some y =>
              rw [walk_redirect hr] at h ⊢
              rw [walk_redirect hr]
              exact ih hle h
          | none =>
              by_cases hc : ∃ y ∈ log, clash y x
              · rw [walk_clash hr hc, walk_clash hr hc]
              · have hc : ∀ y ∈ log, ¬ clash y x := fun y hy hyx => hc ⟨y, hy, hyx⟩
                rw [walk_visit hr hc] at h ⊢
                rw [walk_visit hr hc]
                exact walkAll_mono (fun y log' h' => ih hle h') h

theorem walkAll_walk_mono {fuel fuel' : Nat} (hle : fuel ≤ fuel') {xs log : List β}
    (h : walkAll (walk redirect kids clash fuel) xs log ≠ .error .outOfFuel) :
    walkAll (walk redirect kids clash fuel') xs log =
      walkAll (walk redirect kids clash fuel) xs log :=
  walkAll_mono (fun _ _ hx => walk_mono hle hx) h

/-- The amount of fuel does not change how a walk ends. -/
theorem walkAll_agree {fuel fuel' : Nat} {xs log : List β}
    (h : walkAll (walk redirect kids clash fuel) xs log ≠ .error .outOfFuel)
    (h' : walkAll (walk redirect kids clash fuel') xs log ≠ .error .outOfFuel) :
    walkAll (walk redirect kids clash fuel) xs log =
      walkAll (walk redirect kids clash fuel') xs log :=
  (walkAll_walk_mono (Nat.le_add_right fuel fuel') h).symm.trans
    (walkAll_walk_mono (Nat.le_add_left fuel' fuel) h')

/-! ## Success -/

/-- A walk that succeeds has made all its visits. -/
theorem visits_of_walk {fuel : Nat} {xs log log' : List β}
    (h : walkAll (walk redirect kids clash fuel) xs log = .ok log') :
    ∃ V, Visits redirect kids xs V ∧ Clear clash log V ∧ log' = V.reverse ++ log := by
  induction fuel generalizing xs log log' with
  | zero =>
      cases xs with
      | nil =>
          cases h
          exact ⟨[], .nil, clear_nil _, rfl⟩
      | cons x xs => cases h
  | succ fuel ih =>
      induction xs generalizing log with
      | nil =>
          cases h
          exact ⟨[], .nil, clear_nil _, rfl⟩
      | cons x xs ihxs =>
          cases hx : walk redirect kids clash (fuel + 1) x log with
          | error s =>
              rw [walkAll_stop hx] at h
              cases h
          | ok log₁ =>
              rw [walkAll_cons hx] at h
              obtain ⟨V, hV, hclear, rfl⟩ := ihxs h
              cases hr : redirect x with
              | some y =>
                  rw [walk_redirect hr] at hx
                  have hy : walkAll (walk redirect kids clash fuel) [y] log = .ok log₁ := walkAll_cons hx
                  obtain ⟨U, hU, hclearU, rfl⟩ := ih hy
                  exact ⟨U ++ V, .redirect hr (hU.append hV), clear_append.mpr ⟨hclearU, hclear⟩,
                    by simp⟩
              | none =>
                  by_cases hc : ∃ y ∈ log, clash y x
                  · rw [walk_clash hr hc] at hx
                    cases hx
                  · have hc : ∀ y ∈ log, ¬ clash y x := fun y hy hyx => hc ⟨y, hy, hyx⟩
                    rw [walk_visit hr hc] at hx
                    obtain ⟨U, hU, hclearU, rfl⟩ := ih hx
                    refine ⟨x :: (U ++ V), .visit hr hU hV, ?_, by simp⟩
                    rw [clear_cons, clear_append]
                    exact ⟨hc, hclearU, by simpa using hclear⟩

theorem walk_of_visits {xs V log : List β} (h : Visits redirect kids xs V)
    (hclear : Clear clash log V) :
    ∃ fuel, walkAll (walk redirect kids clash fuel) xs log = .ok (V.reverse ++ log) := by
  induction h generalizing log with
  | nil => exact ⟨0, rfl⟩
  | @redirect x y xs V hr _ ih =>
      obtain ⟨fuel, hwalk⟩ := ih hclear
      refine ⟨fuel + 1, ?_⟩
      cases hy : walk redirect kids clash fuel y log with
      | error s =>
          rw [walkAll_stop hy] at hwalk
          cases hwalk
      | ok log₁ =>
          rw [walkAll_cons hy] at hwalk
          rw [walkAll_cons ((walk_redirect hr).trans hy),
            walkAll_walk_mono (Nat.le_succ fuel) (by rw [hwalk]; simp), hwalk]
  | @visit x xs U V hr _ _ ihkids ihrest =>
      obtain ⟨hx, hclear⟩ := clear_cons.mp hclear
      obtain ⟨hU, hV⟩ := clear_append.mp hclear
      obtain ⟨fuel, hkids⟩ := ihkids hU
      obtain ⟨fuel', hrest⟩ := ihrest hV
      refine ⟨fuel + fuel' + 1, ?_⟩
      have hwalk : walk redirect kids clash (fuel + fuel' + 1) x log =
          .ok (U.reverse ++ x :: log) := by
        rw [walk_visit hr hx, walkAll_walk_mono (Nat.le_add_right fuel fuel') (by rw [hkids]; simp),
          hkids]
      rw [walkAll_cons hwalk,
        walkAll_walk_mono (by omega : fuel' ≤ fuel + fuel' + 1) (by rw [hrest]; simp), hrest]
      simp

/-! ## Clashes -/

/-- A walk stops at a visit that clashes with the log or with an earlier visit. -/
theorem into_of_clash {fuel : Nat} {xs log : List β}
    (h : walkAll (walk redirect kids clash fuel) xs log = .error .clash) :
    ∃ V x, Into redirect kids xs V x ∧ ∃ y ∈ V.reverse ++ log, clash y x := by
  induction fuel generalizing xs log with
  | zero =>
      cases xs with
      | nil => cases h
      | cons x xs => cases h
  | succ fuel ih =>
      induction xs generalizing log with
      | nil => cases h
      | cons x xs ihxs =>
          cases hx : walk redirect kids clash (fuel + 1) x log with
          | ok log₁ =>
              -- the first point is complete, a later one stops
              have hone : walkAll (walk redirect kids clash (fuel + 1)) [x] log = .ok log₁ :=
                walkAll_cons hx
              rw [walkAll_cons hx] at h
              obtain ⟨U, hU, -, rfl⟩ := visits_of_walk hone
              obtain ⟨V, z, hinto, y, hy, hclash⟩ := ihxs h
              exact ⟨U ++ V, z, hU.into hinto, y, by simpa using hy, hclash⟩
          | error s =>
              rw [walkAll_stop hx] at h
              cases h
              cases hr : redirect x with
              | some y =>
                  rw [walk_redirect hr] at hx
                  have hy : walkAll (walk redirect kids clash fuel) [y] log = .error .clash :=
                    walkAll_stop hx
                  obtain ⟨V, z, hinto, hclash⟩ := ih hy
                  exact ⟨V, z, Into.append_right (.redirect hr hinto), hclash⟩
              | none =>
                  by_cases hc : ∃ y ∈ log, clash y x
                  · exact ⟨[], x, .here hr, hc⟩
                  · have hc : ∀ y ∈ log, ¬ clash y x := fun y hy hyx => hc ⟨y, hy, hyx⟩
                    rw [walk_visit hr hc] at hx
                    obtain ⟨V, z, hinto, y, hy, hclash⟩ := ih hx
                    exact ⟨x :: V, z, .down hr hinto, y, by simpa using hy, hclash⟩

/-! ## Termination -/

/-- While the walk from `y` has not ended, neither has one that gets to `y`. -/
theorem Into.outOfFuel {xs V log : List β} {y : β} {fuel : Nat} (h : Into redirect kids xs V y)
    (hclear : Clear clash log V)
    (hy : ∀ f ≤ fuel, walk redirect kids clash f y (V.reverse ++ log) = .error .outOfFuel) :
    walkAll (walk redirect kids clash fuel) xs log = .error .outOfFuel := by
  induction h generalizing log fuel with
  | here hr => exact walkAll_stop (hy fuel (Nat.le_refl _))
  | @redirect x y xs V z hr _ ih =>
      cases fuel with
      | zero => rfl
      | succ fuel =>
          have hlow := ih hclear fun f hf => hy f (Nat.le_succ_of_le hf)
          have hhigh := ih hclear hy
          cases hwalk : walk redirect kids clash fuel y log with
          | error s =>
              rw [walkAll_stop hwalk] at hlow
              exact walkAll_stop ((walk_redirect hr).trans (hwalk.trans hlow))
          | ok log₁ =>
              rw [walkAll_cons ((walk_mono (Nat.le_succ fuel) (by rw [hwalk]; simp)).trans hwalk)]
                at hhigh
              rw [walkAll_cons ((walk_redirect hr).trans hwalk), hhigh]
  | @down x xs V z hr _ ih =>
      cases fuel with
      | zero => rfl
      | succ fuel =>
          obtain ⟨hx, hclear⟩ := clear_cons.mp hclear
          refine walkAll_stop ((walk_visit hr hx).trans (ih hclear fun f hf => ?_))
          have := hy f (Nat.le_succ_of_le hf)
          simpa using this
  | @next x xs U V z hr hvisits _ ih =>
      cases fuel with
      | zero => rfl
      | succ fuel =>
          obtain ⟨hx, hclear⟩ := clear_cons.mp hclear
          obtain ⟨hU, hV⟩ := clear_append.mp hclear
          obtain ⟨fuel', hok⟩ := walk_of_visits hvisits hU
          by_cases hkids : walkAll (walk redirect kids clash fuel) (kids x) (x :: log) =
              .error .outOfFuel
          · exact walkAll_stop ((walk_visit hr hx).trans hkids)
          · have hkids := (walkAll_agree hkids (by rw [hok]; simp)).trans hok
            rw [walkAll_cons ((walk_visit hr hx).trans hkids)]
            refine ih hV fun f hf => ?_
            have := hy f hf
            simpa using this

/-- A walk that returns goes on for ever, if every clash has a point that clashes with itself and
the points behind a weak one are weak. -/
theorem not_ends_of_returns {xs log : List β}
    (hclash : ∀ y x, clash y x → ¬ Weak clash y ∨ ¬ Weak clash x)
    (hkids : ∀ x, Weak clash x → ∀ y ∈ kids x, Weak clash y)
    (hredirect : ∀ x y, redirect x = some y → Weak clash x → Weak clash y)
    (h : Returns redirect kids clash xs log) : ¬ Ends redirect kids clash xs log := by
  obtain ⟨V, x, U, hV, hU, hclear⟩ := h
  obtain ⟨hclearV, hclear⟩ := clear_append.mp hclear
  obtain ⟨-, hback⟩ := clear_cons.mp hclear
  have hx : Weak clash x := hback.1 x List.mem_cons_self x (by simp)
  have hweak : ∀ u ∈ x :: U, Weak clash u :=
    List.forall_mem_cons.mpr ⟨hx, hU.forall hkids hredirect (hkids x hx)⟩
  have hfree : ∀ y ∈ x :: U, ∀ z ∈ x :: U, ¬ clash y z := by
    intro y hy z hz hc
    rcases hclash y z hc with hno | hno
    · exact hno (hweak y hy)
    · exact hno (hweak z hz)
  -- every round leaves a log that lets the next one begin
  have hround : ∀ fuel log', (∀ y ∈ log', ∀ u ∈ x :: U, ¬ clash y u) →
      ∀ f ≤ fuel, walk redirect kids clash f x log' = .error .outOfFuel := by
    intro fuel
    induction fuel with
    | zero =>
        intro log' _ f hf
        rw [Nat.le_zero.mp hf]
        rfl
    | succ fuel ih =>
        intro log' hlog' f hf
        cases f with
        | zero => rfl
        | succ f =>
            rw [walk_visit hV.target fun y hy => hlog' y hy x List.mem_cons_self]
            refine hU.outOfFuel ⟨?_, ?_⟩ fun g hg => ih _ ?_ g (by omega)
            · refine List.forall_mem_cons.mpr ⟨fun u hu => ?_, fun y hy u hu => ?_⟩
              · exact hfree x List.mem_cons_self u (List.mem_cons_of_mem _ hu)
              · exact hlog' y hy u (List.mem_cons_of_mem _ hu)
            · refine List.Pairwise.imp_of_mem (fun hy hz _ => ?_)
                (List.pairwise_of_forall (R := fun _ _ => True) fun _ _ => trivial)
              exact hfree _ (List.mem_cons_of_mem _ hy) _ (List.mem_cons_of_mem _ hz)
            · intro y hy u hu
              rcases List.mem_append.mp hy with hy | hy
              · exact hfree y (List.mem_cons_of_mem _ (List.mem_reverse.mp hy)) u hu
              · rcases List.mem_cons.mp hy with rfl | hy
                · exact hfree y List.mem_cons_self u hu
                · exact hlog' y hy u hu
  rintro ⟨fuel, hends⟩
  refine hends (hV.outOfFuel hclearV fun f hf => hround fuel _ ?_ f hf)
  intro y hy u hu
  refine hclear.1 y hy u ?_
  rcases List.mem_cons.mp hu with rfl | hu
  · exact List.mem_cons_self
  · exact List.mem_cons_of_mem _ (List.mem_append_left _ hu)

/-- Once the first point and the others end, the list does. -/
theorem Ends.cons {x : β} {xs log : List β} (hx : Ends redirect kids clash [x] log)
    (hxs : ∀ V, Visits redirect kids [x] V → Clear clash log V →
      Ends redirect kids clash xs (V.reverse ++ log)) : Ends redirect kids clash (x :: xs) log := by
  obtain ⟨fuel, hfuel⟩ := hx
  cases hwalk : walk redirect kids clash fuel x log with
  | error s =>
      rw [walkAll_stop hwalk] at hfuel
      refine ⟨fuel, ?_⟩
      rw [walkAll_stop hwalk]
      exact hfuel
  | ok log₁ =>
      have hx : walkAll (walk redirect kids clash fuel) [x] log = .ok log₁ := walkAll_cons hwalk
      obtain ⟨V, hV, hclear, rfl⟩ := visits_of_walk hx
      obtain ⟨fuel', hends⟩ := hxs V hV hclear
      refine ⟨fuel + fuel', ?_⟩
      rw [walkAll_cons ((walk_mono (Nat.le_add_right fuel fuel') (by rw [hwalk]; simp)).trans hwalk),
        walkAll_walk_mono (Nat.le_add_left fuel' fuel) hends]
      exact hends

theorem Ends.of_redirect {x y : β} {log : List β} (hr : redirect x = some y)
    (h : Ends redirect kids clash [y] log) : Ends redirect kids clash [x] log := by
  obtain ⟨fuel, hfuel⟩ := h
  refine ⟨fuel + 1, ?_⟩
  cases hwalk : walk redirect kids clash fuel y log with
  | error s =>
      rw [walkAll_stop hwalk] at hfuel
      rw [walkAll_stop ((walk_redirect hr).trans hwalk)]
      exact hfuel
  | ok log₁ =>
      rw [walkAll_cons ((walk_redirect hr).trans hwalk)]
      exact fun h => by cases h

theorem Ends.of_visit {x : β} {log : List β} (hr : redirect x = none)
    (h : (∀ y ∈ log, ¬ clash y x) → Ends redirect kids clash (kids x) (x :: log)) :
    Ends redirect kids clash [x] log := by
  by_cases hc : ∃ y ∈ log, clash y x
  · refine ⟨1, ?_⟩
    rw [walkAll_stop (walk_clash hr hc)]
    exact fun h => by cases h
  · have hc : ∀ y ∈ log, ¬ clash y x := fun y hy hyx => hc ⟨y, hy, hyx⟩
    obtain ⟨fuel, hfuel⟩ := h hc
    refine ⟨fuel + 1, ?_⟩
    cases hwalk : walkAll (walk redirect kids clash fuel) (kids x) (x :: log) with
    | error s =>
        rw [hwalk] at hfuel
        rw [walkAll_stop ((walk_visit hr hc).trans hwalk)]
        exact hfuel
    | ok log₁ =>
        rw [walkAll_cons ((walk_visit hr hc).trans hwalk)]
        exact fun h => by cases h

/-- A walk that does not end gets to a point whose children it does not get through. -/
theorem into_of_not_ends {size : β → Nat}
    (hsize : ∀ x y, redirect x = some y → size y < size x) {xs log : List β}
    (h : ¬ Ends redirect kids clash xs log) :
    ∃ V x, Into redirect kids xs V x ∧ Clear clash log (V ++ [x]) ∧
      ¬ Ends redirect kids clash (kids x) (x :: (V.reverse ++ log)) := by
  -- one point, by its redirections
  have hone : ∀ n x log, size x = n → ¬ Ends redirect kids clash [x] log →
      ∃ V z, Into redirect kids [x] V z ∧ Clear clash log (V ++ [z]) ∧
        ¬ Ends redirect kids clash (kids z) (z :: (V.reverse ++ log)) := by
    intro n
    induction n using Nat.strong_induction_on with
    | _ n ih =>
        intro x log hn h
        cases hr : redirect x with
        | some y =>
            obtain ⟨V, z, hinto, hclear, hnot⟩ :=
              ih _ (hn ▸ hsize x y hr) y log rfl fun hy => h (.of_redirect hr hy)
            exact ⟨V, z, .redirect hr hinto, hclear, hnot⟩
        | none =>
            have hc : ∀ y ∈ log, ¬ clash y x := by
              intro y hy hyx
              exact h (.of_visit hr fun hfree => absurd hyx (hfree y hy))
            exact ⟨[], x, .here hr, clear_cons.mpr ⟨hc, clear_nil _⟩,
              fun hkids => h (.of_visit hr fun _ => hkids)⟩
  induction xs generalizing log with
  | nil => exact absurd ⟨0, fun h => by cases h⟩ h
  | cons x xs ih =>
      by_cases hx : Ends redirect kids clash [x] log
      · have hrest : ∃ V, Visits redirect kids [x] V ∧ Clear clash log V ∧
            ¬ Ends redirect kids clash xs (V.reverse ++ log) := by
          by_contra hall
          refine h (hx.cons fun V hV hclear => ?_)
          by_contra hnot
          exact hall ⟨V, hV, hclear, hnot⟩
        obtain ⟨U, hU, hclearU, hnot⟩ := hrest
        obtain ⟨V, z, hinto, hclear, hkids⟩ := ih hnot
        refine ⟨U ++ V, z, hU.into hinto, ?_, by simpa using hkids⟩
        rw [List.append_assoc]
        exact clear_append.mpr ⟨hclearU, hclear⟩
      · obtain ⟨V, z, hinto, hclear, hnot⟩ := hone _ x log rfl hx
        exact ⟨V, z, hinto.append_right, hclear, hnot⟩

/-- A walk ends, or it gets from point to point for ever. -/
theorem ends_iff_not_endless {size : β → Nat}
    (hsize : ∀ x y, redirect x = some y → size y < size x) {xs log : List β} :
    Ends redirect kids clash xs log ↔ ¬ Endless redirect kids clash xs log := by
  constructor
  · rintro ⟨fuel, hends⟩ ⟨P, hP, hstep⟩
    refine hends ?_
    clear hends
    -- a situation of the family uses up any fuel
    induction fuel using Nat.strong_induction_on generalizing xs log with
    | _ fuel ih =>
        obtain ⟨V, x, hinto, hclear, hnext⟩ := hstep xs log hP
        obtain ⟨hclearV, hclearx⟩ := clear_append.mp hclear
        refine hinto.outOfFuel hclearV fun f hf => ?_
        cases f with
        | zero => rfl
        | succ f =>
            rw [walk_visit hinto.target (clear_cons.mp hclearx).1]
            exact ih f hf hnext
  · intro hnot
    by_contra hends
    exact hnot ⟨fun xs log => ¬ Ends redirect kids clash xs log, hends,
      fun _ _ h => into_of_not_ends hsize h⟩

/-- Over finitely many points a walk that never returns ends.  The induction is on the points of
`S` that the walk is not in, then on the redirections of the first point. -/
theorem ends_of_not_returns [DecidableEq β] {size : β → Nat}
    (hsize : ∀ x y, redirect x = some y → size y < size x) {S : Finset β}
    (hkids : ∀ x ∈ S, ∀ y ∈ kids x, y ∈ S)
    (hredirect : ∀ x ∈ S, ∀ y, redirect x = some y → y ∈ S) {xs log : List β}
    (hxs : ∀ x ∈ xs, x ∈ S) (h : ¬ Returns redirect kids clash xs log) :
    Ends redirect kids clash xs log := by
  -- lists end when single points do
  have hlist : ∀ A, (∀ x log, x ∈ S → Forward redirect kids clash A [x] log →
      Ends redirect kids clash [x] log) → ∀ xs log, (∀ x ∈ xs, x ∈ S) →
      Forward redirect kids clash A xs log → Ends redirect kids clash xs log := by
    intro A hsingle xs
    induction xs with
    | nil => exact fun log _ _ => ⟨0, fun h => by cases h⟩
    | cons x xs ih =>
        intro log hxs hforward
        obtain ⟨hx, hxs⟩ := List.forall_mem_cons.mp hxs
        exact (hsingle x log hx hforward.head).cons fun V hV hclear =>
          ih _ hxs (hforward.tail hV hclear)
  have hmain : ∀ n A, (S \ A).card = n → ∀ m x log, size x = m → x ∈ S →
      Forward redirect kids clash A [x] log → Ends redirect kids clash [x] log := by
    intro n
    induction n using Nat.strong_induction_on with
    | _ n ihn =>
        intro A hcard m
        induction m using Nat.strong_induction_on with
        | _ m ihm =>
            intro x log hm hx hforward
            cases hr : redirect x with
            | some y =>
                have hlt : size y < m := hm ▸ hsize x y hr
                exact .of_redirect hr
                  (ihm _ hlt y log rfl (hredirect x hx y hr) (hforward.of_redirect hr))
            | none =>
                refine .of_visit hr fun hc => ?_
                have hnot : x ∉ A := fun hxA =>
                  hforward.avoids x hxA [] (.here hr) (clear_cons.mpr ⟨hc, clear_nil _⟩)
                have hlt : (S \ insert x A).card < n := by
                  rw [← hcard]
                  refine Finset.card_lt_card (Finset.ssubset_iff_subset_ne.mpr ⟨?_, fun heq => ?_⟩)
                  · exact Finset.sdiff_subset_sdiff (Finset.Subset.refl S) (Finset.subset_insert x A)
                  · have hmem : x ∈ S \ A := Finset.mem_sdiff.mpr ⟨hx, hnot⟩
                    rw [← heq] at hmem
                    exact (Finset.mem_sdiff.mp hmem).2 (Finset.mem_insert_self x A)
                exact hlist (insert x A) (fun z log' hz hf => ihn _ hlt _ rfl _ z log' rfl hz hf)
                  (kids x) _ (hkids x hx) (hforward.below hr hc)
  refine hlist ∅ (fun x log hx hforward => hmain _ ∅ rfl _ x log rfl hx
    hforward) xs log hxs ⟨fun a ha => ?_, h⟩
  exact absurd ha (Finset.notMem_empty a)

/-- A walk over finitely many points ends if and only if it never returns. -/
theorem ends_iff [DecidableEq β] {size : β → Nat}
    (hclash : ∀ y x, clash y x → ¬ Weak clash y ∨ ¬ Weak clash x)
    (hweak : ∀ x, Weak clash x → ∀ y ∈ kids x, Weak clash y)
    (hweak' : ∀ x y, redirect x = some y → Weak clash x → Weak clash y)
    (hsize : ∀ x y, redirect x = some y → size y < size x) {S : Finset β}
    (hkids : ∀ x ∈ S, ∀ y ∈ kids x, y ∈ S)
    (hredirect : ∀ x ∈ S, ∀ y, redirect x = some y → y ∈ S) {xs log : List β}
    (hxs : ∀ x ∈ xs, x ∈ S) :
    Ends redirect kids clash xs log ↔ ¬ Returns redirect kids clash xs log := by
  constructor
  · exact fun hends hreturns => not_ends_of_returns hclash hweak hweak' hreturns hends
  · exact ends_of_not_returns hsize hkids hredirect hxs

end Facts

end Walks

end TreeVM
