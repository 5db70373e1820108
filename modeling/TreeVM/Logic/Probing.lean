import Mathlib.Data.List.Basic
import Mathlib.Order.Nat
import Mathlib.Algebra.Order.Group.Nat

/-!
# Open addressing with linear probing

Slots are `none` or an entry of a key and a value; their number is a power of two.

* `walk`: the loop that goes from slot to slot, around the end, until one stops it;
* `walk_spec`: it ends where the first slot stops it, if any slot does;
* `Chained`: each key has one entry, and every slot on the way to it is used;
* `seek_spec`: where the search for a key ends; `Chained.set`: writing there.
-/

namespace TreeVM

namespace Probing

section Walk

variable {σ : Type}

/-- The index of the slot that stops the loop; no result when none does within `fuel` steps. -/
def walk (slots : List σ) (stop : σ → Bool) : Nat → Nat → Option Nat
  | 0, _ => none
  | fuel + 1, i =>
      match slots[i]? with
      | none => none
      | some s => if stop s then some i else walk slots stop fuel ((i + 1) &&& (slots.length - 1))

/-- Slot `n` of the way that starts at `start`. -/
def slotAt (slots : List σ) (start n : Nat) : Option σ :=
  slots[(start + n) % slots.length]?

variable {slots : List σ} {stop : σ → Bool} {start : Nat}

theorem and_mask {k : Nat} (hlen : slots.length = 2 ^ k) (i : Nat) :
    i &&& (slots.length - 1) = i % slots.length := by
  rw [hlen, Nat.and_two_pow_sub_one_eq_mod]

theorem slotAt_isSome (start : Nat) (hpos : 0 < slots.length) (n : Nat) : ∃ s, slotAt slots start n = some s :=
  ⟨_, List.getElem?_eq_getElem (Nat.mod_lt _ hpos)⟩

/-- Every slot is on the way. -/
theorem slotAt_of_index (start : Nat) {p : Nat} (hp : p < slots.length) :
    ∃ n, n < slots.length ∧ (start + n) % slots.length = p := by
  have hs : start % slots.length < slots.length := Nat.mod_lt _ (by omega)
  have hstart := Nat.div_add_mod start slots.length
  by_cases hle : start % slots.length ≤ p
  · refine ⟨p - start % slots.length, by omega, ?_⟩
    have hsum : start + (p - start % slots.length) = p + slots.length * (start / slots.length) := by
      omega
    rw [hsum, Nat.add_mul_mod_self_left, Nat.mod_eq_of_lt hp]
  · refine ⟨p + slots.length - start % slots.length, by omega, ?_⟩
    have hsum : start + (p + slots.length - start % slots.length) =
        p + slots.length * (start / slots.length + 1) := by
      rw [Nat.mul_add]
      omega
    rw [hsum, Nat.add_mul_mod_self_left, Nat.mod_eq_of_lt hp]

theorem walk_of_first {k n : Nat} (hlen : slots.length = 2 ^ k)
    (hstop : ∃ s, slotAt slots start n = some s ∧ stop s = true)
    (hbefore : ∀ m, m < n → ∃ s, slotAt slots start m = some s ∧ stop s = false) (fuel : Nat) :
    walk slots stop (fuel + n + 1) (start % slots.length) = some ((start + n) % slots.length) := by
  induction n generalizing start with
  | zero =>
      obtain ⟨s, hs, htrue⟩ := hstop
      rw [slotAt, Nat.add_zero] at hs
      rw [walk, hs]
      simp only
      rw [if_pos htrue, Nat.add_zero]
  | succ n ih =>
      obtain ⟨s, hs, hfalse⟩ := hbefore 0 (Nat.succ_pos n)
      rw [slotAt, Nat.add_zero] at hs
      have hshift : ∀ m, slotAt slots (start + 1) m = slotAt slots start (m + 1) := by
        intro m
        rw [slotAt, slotAt, Nat.add_assoc, Nat.add_comm 1 m]
      have hrest := @ih (start + 1) (by rwa [hshift])
        (fun m hm => by rw [hshift]; exact hbefore (m + 1) (by omega))
      rw [walk, hs]
      simp only
      rw [if_neg (by rw [hfalse]; exact Bool.false_ne_true), and_mask hlen, Nat.mod_add_mod,
        ← Nat.add_assoc fuel, hrest, Nat.add_assoc start, Nat.add_comm 1 n]

/-- The loop ends at the first slot that stops it. -/
theorem walk_spec (stop : σ → Bool) (start : Nat) {k : Nat} (hlen : slots.length = 2 ^ k)
    (hsome : ∃ s ∈ slots, stop s = true) :
    ∃ n, n < slots.length ∧
      walk slots stop slots.length (start % slots.length) = some ((start + n) % slots.length) ∧
      (∃ s, slotAt slots start n = some s ∧ stop s = true) ∧
      ∀ m, m < n → ∃ s, slotAt slots start m = some s ∧ stop s = false := by
  have hpos : 0 < slots.length := by rw [hlen]; exact Nat.two_pow_pos k
  have hex : ∃ n, n < slots.length ∧ ∃ s, slotAt slots start n = some s ∧ stop s = true := by
    obtain ⟨s, hs, htrue⟩ := hsome
    obtain ⟨p, hp, hget⟩ := List.getElem_of_mem hs
    obtain ⟨n, hn, hnp⟩ := slotAt_of_index start hp
    exact ⟨n, hn, s, by rw [slotAt, hnp, List.getElem?_eq_getElem hp, hget], htrue⟩
  classical
  obtain ⟨hn, hstop⟩ := Nat.find_spec hex
  have hmin : ∀ m, m < Nat.find hex → ∃ s, slotAt slots start m = some s ∧ stop s = false := by
    intro m hm
    obtain ⟨s, hs⟩ := slotAt_isSome start hpos m
    refine ⟨s, hs, ?_⟩
    by_contra htrue
    exact Nat.find_min hex hm ⟨hm.trans hn, s, hs, by simpa using htrue⟩
  refine ⟨Nat.find hex, hn, ?_, hstop, hmin⟩
  have hwalk := walk_of_first hlen hstop hmin (slots.length - Nat.find hex - 1)
  rwa [show slots.length - Nat.find hex - 1 + Nat.find hex + 1 = slots.length by omega] at hwalk

end Walk

/-! ## Chains -/

variable {κ β : Type}

abbrev Slots (κ β : Type) := List (Option (κ × β))

/-- Slot `p` is on the way from `start`, and every slot before it is used. -/
def OnChain (slots : Slots κ β) (start p : Nat) : Prop :=
  ∃ n, n < slots.length ∧ (start + n) % slots.length = p ∧
    ∀ m, m < n → ∃ e, slotAt slots start m = some (some e)

structure Chained (hash : κ → Nat) (slots : Slots κ β) : Prop where
  size : ∃ k, slots.length = 2 ^ k
  chain : ∀ (p : Nat) (key : κ) (v : β), slots[p]? = some (some (key, v)) → OnChain slots (hash key) p
  distinct : ∀ (p q : Nat) (key : κ) (v w : β), slots[p]? = some (some (key, v)) → slots[q]? = some (some (key, w)) →
    p = q

/-- The search for a key stops at its entry and at a free slot. -/
def stops [DecidableEq κ] (key : κ) : Option (κ × β) → Bool
  | none => true
  | some (k, _) => decide (k = key)

variable {hash : κ → Nat} {slots : Slots κ β} {key : κ} {v w : β} {p : Nat}

/-- Before a free slot on its way, a key must have been found. -/
theorem Chained.found_before (hc : Chained hash slots) {n : Nat} (hn : n < slots.length)
    (hfree : slotAt slots (hash key) n = some none) (hv : some (key, v) ∈ slots) :
    ∃ m, m < n ∧ slotAt slots (hash key) m = some (some (key, v)) := by
  obtain ⟨p, hp⟩ := List.getElem?_of_mem hv
  obtain ⟨m, hm, hmp, hused⟩ := hc.chain p key v hp
  have hat : slotAt slots (hash key) m = some (some (key, v)) := by rw [slotAt, hmp, hp]
  refine ⟨m, ?_, hat⟩
  rcases Nat.lt_trichotomy m n with hlt | rfl | hgt
  · exact hlt
  · rw [hfree] at hat
    cases hat
  · obtain ⟨e, he⟩ := hused n hgt
    rw [hfree] at he
    cases he

/-- The search for a key ends, at its entry if it has one. -/
theorem seek_spec [DecidableEq κ] (hc : Chained hash slots) (hfree : none ∈ slots) (key : κ) :
    ∃ p, walk slots (stops key) slots.length (hash key % slots.length) = some p ∧
      OnChain slots (hash key) p ∧
      ((∃ v, slots[p]? = some (some (key, v))) ∨
        slots[p]? = some none ∧ ∀ v, some (key, v) ∉ slots) := by
  obtain ⟨k, hlen⟩ := hc.size
  obtain ⟨n, hn, hwalk, ⟨s, hs, hstop⟩, hbefore⟩ :=
    walk_spec (stops key) (hash key) hlen ⟨none, hfree, rfl⟩
  refine ⟨_, hwalk, ⟨n, hn, rfl, fun m hm => ?_⟩, ?_⟩
  · obtain ⟨s', hs', hfalse⟩ := hbefore m hm
    cases s' with
    | none => cases hfalse
    | some e => exact ⟨e, hs'⟩
  · cases s with
    | some e =>
        obtain ⟨k', v⟩ := e
        obtain rfl : k' = key := of_decide_eq_true hstop
        exact .inl ⟨v, hs⟩
    | none =>
        refine .inr ⟨hs, fun v hv => ?_⟩
        obtain ⟨m, hm, hat⟩ := hc.found_before hn hs hv
        obtain ⟨s', hs', hfalse⟩ := hbefore m hm
        rw [hat] at hs'
        cases hs'
        exact absurd (decide_eq_true (rfl : key = key)) (by rw [stops] at hfalse; rw [hfalse]; nofun)

/-- The search for a free slot ends. -/
theorem seekFree_spec (hc : Chained hash slots) (hfree : none ∈ slots) (key : κ) :
    ∃ p, walk slots Option.isNone slots.length (hash key % slots.length) = some p ∧
      OnChain slots (hash key) p ∧ slots[p]? = some none := by
  obtain ⟨k, hlen⟩ := hc.size
  obtain ⟨n, hn, hwalk, ⟨s, hs, hstop⟩, hbefore⟩ :=
    walk_spec Option.isNone (hash key) hlen ⟨none, hfree, rfl⟩
  refine ⟨_, hwalk, ⟨n, hn, rfl, fun m hm => ?_⟩, ?_⟩
  · obtain ⟨s', hs', hfalse⟩ := hbefore m hm
    cases s' with
    | none => cases hfalse
    | some e => exact ⟨e, hs'⟩
  · cases s with
    | none => exact hs
    | some e => cases hstop

/-! ## Writing -/

section Write

variable {p : Nat}

theorem slotAt_set {σ : Type} (l : List σ) (start n p : Nat) (s : σ) :
    slotAt (l.set p s) start n =
      if p = (start + n) % l.length ∧ p < l.length then some s else slotAt l start n := by
  rw [slotAt, slotAt, List.length_set, List.getElem?_set]
  by_cases hp : p = (start + n) % l.length
  · subst hp
    by_cases hlt : (start + n) % l.length < l.length
    · simp [hlt]
    · rw [if_pos rfl, if_neg hlt, if_neg (fun h => hlt h.2)]
      exact (List.getElem?_eq_none (Nat.le_of_not_lt hlt)).symm
  · rw [if_neg hp, if_neg (fun h => hp h.1)]

theorem OnChain.set {start q : Nat} {e : κ × β} (h : OnChain slots start q) :
    OnChain (slots.set p (some e)) start q := by
  obtain ⟨n, hn, hq, hused⟩ := h
  refine ⟨n, by rwa [List.length_set], by rwa [List.length_set], fun m hm => ?_⟩
  rw [slotAt_set]
  split
  · exact ⟨e, rfl⟩
  · exact hused m hm

theorem lt_of_slot {o : Option (κ × β)} (h : slots[p]? = some o) : p < slots.length :=
  (List.getElem?_eq_some_iff.mp h).1

theorem mem_set_iff {o : Option (κ × β)} (h : slots[p]? = some o) (e e' : κ × β) :
    some e' ∈ slots.set p (some e) ↔ e' = e ∨ ∃ q, q ≠ p ∧ slots[q]? = some (some e') := by
  constructor
  · intro hmem
    obtain ⟨q, hq⟩ := List.getElem?_of_mem hmem
    by_cases hqp : q = p
    · rw [hqp, List.getElem?_set_self (lt_of_slot h)] at hq
      cases hq
      exact .inl rfl
    · rw [List.getElem?_set_ne (Ne.symm hqp)] at hq
      exact .inr ⟨q, hqp, hq⟩
  · rintro (rfl | ⟨q, hqp, hq⟩)
    · exact List.mem_of_getElem? (List.getElem?_set_self (lt_of_slot h))
    · exact List.mem_of_getElem? (by rw [List.getElem?_set_ne (Ne.symm hqp), hq])

/-- A slot on the way of a key is written when no other slot has the key. -/
theorem Chained.set (hc : Chained hash slots) {o : Option (κ × β)} (hp : slots[p]? = some o)
    (hon : OnChain slots (hash key) p)
    (honly : ∀ q w, slots[q]? = some (some (key, w)) → q = p) :
    Chained hash (slots.set p (some (key, v))) := by
  have hself := List.getElem?_set_self (lt_of_slot hp) (a := some (key, v))
  have hget : ∀ q e, (slots.set p (some (key, v)))[q]? = some (some e) →
      (q = p ∧ e = (key, v)) ∨ q ≠ p ∧ slots[q]? = some (some e) := by
    intro q e hq
    by_cases hqp : q = p
    · rw [hqp, hself] at hq
      cases hq
      exact .inl ⟨hqp, rfl⟩
    · rw [List.getElem?_set_ne (Ne.symm hqp)] at hq
      exact .inr ⟨hqp, hq⟩
  refine ⟨?_, fun q key' v' hq => ?_, fun q r key' v' w' hq hr => ?_⟩
  · rw [List.length_set]
    exact hc.size
  · rcases hget q _ hq with ⟨rfl, heq⟩ | ⟨-, hq'⟩
    · cases heq
      exact hon.set
    · exact (hc.chain q key' v' hq').set
  · rcases hget q _ hq with ⟨rfl, heq⟩ | ⟨-, hq'⟩
    · cases heq
      rcases hget r _ hr with ⟨rfl, -⟩ | ⟨-, hr'⟩
      · rfl
      · exact (honly r w' hr').symm
    · rcases hget r _ hr with ⟨rfl, heq⟩ | ⟨-, hr'⟩
      · cases heq
        exact honly q v' hq'
      · exact hc.distinct q r key' v' w' hq' hr'

/-- The number of used slots. -/
def used (slots : Slots κ β) : Nat :=
  slots.countP Option.isSome

theorem none_mem_of_used (h : used slots < slots.length) : none ∈ slots := by
  by_contra hnone
  refine absurd (List.countP_eq_length.mpr fun o ho => ?_) (Nat.ne_of_lt h)
  cases o with
  | none => exact absurd ho hnone
  | some e => rfl

theorem used_set {o : Option (κ × β)} (hp : slots[p]? = some o) (e : κ × β) :
    used (slots.set p (some e)) = used slots + if o.isSome then 0 else 1 := by
  obtain ⟨hlt, rfl⟩ := List.getElem?_eq_some_iff.mp hp
  rw [used, List.countP_set hlt, used]
  cases ho : slots[p].isSome with
  | false => simp
  | true =>
      have hpos : 0 < slots.countP Option.isSome :=
        List.countP_pos_iff.mpr ⟨slots[p], List.getElem_mem hlt, ho⟩
      simp only [if_true, Option.isSome_some]
      omega

theorem used_replicate (n : Nat) : used (List.replicate n (none : Option (κ × β))) = 0 := by
  simp [used, List.countP_replicate]

theorem chained_replicate (k : Nat) :
    Chained hash (List.replicate (2 ^ k) (none : Option (κ × β))) := by
  have hnone : ∀ (p : Nat) (e : κ × β), (List.replicate (2 ^ k) (none : Option (κ × β)))[p]? ≠ some (some e) := by
    intro p e h
    have := List.eq_of_mem_replicate (List.mem_of_getElem? h)
    cases this
  exact ⟨⟨k, List.length_replicate⟩, fun p _ _ h => absurd h (hnone p _),
    fun p _ _ _ _ h => absurd h (hnone p _)⟩

/-- No two slots have the same key. -/
theorem Chained.pairwise (hc : Chained hash slots) :
    slots.Pairwise fun a b => ∀ key v w, a = some (key, v) → b ≠ some (key, w) := by
  rw [List.pairwise_iff_getElem]
  intro i j hi hj hij key v w hv hw
  have hp : slots[i]? = some (some (key, v)) := by rw [List.getElem?_eq_getElem hi, hv]
  have hq : slots[j]? = some (some (key, w)) := by rw [List.getElem?_eq_getElem hj, hw]
  exact absurd (hc.distinct i j key v w hp hq) (Nat.ne_of_lt hij)

end Write

end Probing

end TreeVM
