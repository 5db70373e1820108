import Mathlib.Data.List.Forall2
import Mathlib.Tactic.Cases

/-!
# Results of fallible steps, and lists related entry by entry

* `bind_eq_ok`, `map_eq_ok`, `ite_error_ok`: when a step that can fail succeeds;
* `forall₂_comp`, `forall₂_getElem?`, `forall₂_left`: from one of the lists to the other.
-/

namespace TreeVM

theorem bind_eq_ok {ε α β : Type} {x : Except ε α} {f : α → Except ε β} {b : β} :
    (x >>= f) = .ok b ↔ ∃ a, x = .ok a ∧ f a = .ok b := by
  cases x <;> simp [bind, Except.bind]

theorem map_eq_ok {ε α β : Type} {x : Except ε α} {f : α → β} {b : β} :
    x.map f = .ok b ↔ ∃ a, x = .ok a ∧ f a = b := by
  cases x <;> simp [Except.map]

/-- A result that is computed in two ways and then used in one. -/
theorem ite_bind {ε α β : Type} {p : Prop} [Decidable p] {x y : Except ε α}
    {f : α → Except ε β} : (if p then x >>= f else y >>= f) = (if p then x else y) >>= f := by
  split <;> rfl

theorem ite_error_ok {ε α : Type} {p : Prop} [Decidable p] {e : ε} {x : α} {y : Except ε α} :
    (if p then .error e else y) = .ok x ↔ ¬ p ∧ y = .ok x := by
  by_cases h : p <;> simp [h]

theorem forall₂_comp {α β γ : Type} {R : α → β → Prop} {S : β → γ → Prop} {T : α → γ → Prop}
    {l : List α} {l' : List β} {l'' : List γ} (h : List.Forall₂ R l l')
    (h' : List.Forall₂ S l' l'') (hT : ∀ a b c, R a b → S b c → T a c) :
    List.Forall₂ T l l'' := by
  induction h generalizing l'' with
  | nil =>
      cases h'
      exact .nil
  | cons hR _ ih =>
      cases h' with
      | cons hS hrest => exact .cons (hT _ _ _ hR hS) (ih hrest)

theorem forall₂_getElem? {α β : Type} {R : α → β → Prop} {l : List α} {l' : List β} {n : Nat}
    {a : α} (h : List.Forall₂ R l l') (ha : l[n]? = some a) : ∃ b, l'[n]? = some b ∧ R a b := by
  induction h generalizing n with
  | nil => simp at ha
  | cons hR _ ih =>
      cases n with
      | zero =>
          simp only [List.getElem?_cons_zero, Option.some.injEq] at ha
          subst ha
          exact ⟨_, rfl, hR⟩
      | succ n => exact ih ha

theorem forall₂_left {α β : Type} {R : α → β → Prop} {l : List α} {l' : List β}
    (h : List.Forall₂ R l l') {a : α} (ha : a ∈ l) : ∃ b ∈ l', R a b := by
  induction h with
  | nil => cases ha
  | @cons a' b l l' hab _ ih =>
      rcases List.mem_cons.mp ha with rfl | ha
      · exact ⟨b, List.mem_cons_self, hab⟩
      · obtain ⟨b', hb', hab'⟩ := ih ha
        exact ⟨b', List.mem_cons_of_mem _ hb', hab'⟩

theorem forall₂_right {α β : Type} {R : α → β → Prop} {l : List α} {l' : List β}
    (h : List.Forall₂ R l l') {b : β} (hb : b ∈ l') : ∃ a ∈ l, R a b :=
  forall₂_left (R := flip R) h.flip hb

end TreeVM
