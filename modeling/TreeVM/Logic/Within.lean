import Mathlib.Data.List.Basic

/-!
# Points that stay within a closed set

`F P a` says that every successor of the point `a` satisfies `P`, for some notion of point and
successor.  A point is within `F` up to `Q` when some set of points contains it and every
successor of the set lies in the set or in `Q`: a greatest fixed point, relative to `Q`.

* `Within.exit`, `step`, `bind`: where it begins, one step, and composition;
* `Within.loop`: points of `Q` that go back to the start can be taken out of `Q`;
* `Within.unfold`: up to nothing, every point goes to points of the same kind.
-/

namespace TreeVM

variable {α : Type}

/-- More is allowed of the successors. -/
def MonoStep (F : (α → Prop) → α → Prop) : Prop :=
  ∀ (P Q : α → Prop) (a : α), (∀ b, P b → Q b) → F P a → F Q a

def Within (F : (α → Prop) → α → Prop) (Q : α → Prop) (a : α) : Prop :=
  ∃ P : α → Prop, (P a ∨ Q a) ∧ ∀ b, P b → F (fun c => P c ∨ Q c) b

namespace Within

variable {F : (α → Prop) → α → Prop} {Q R : α → Prop} {a : α}

theorem exit (h : Q a) : Within F Q a :=
  ⟨fun _ => False, .inr h, fun _ hb => hb.elim⟩

/-- The points within `F` form a closed set themselves. -/
theorem unfold_or (hF : MonoStep F) (h : Within F Q a) : Q a ∨ F (Within F Q) a := by
  obtain ⟨P, hP | hQ, hclosed⟩ := h
  · refine .inr (hF _ _ _ (fun b hb => ?_) (hclosed a hP))
    exact ⟨P, hb, hclosed⟩
  · exact .inl hQ

theorem bind (hF : MonoStep F) (h : Within F Q a) (hQ : ∀ b, Q b → Within F R b) :
    Within F R a := by
  obtain ⟨P, hPQ, hclosed⟩ := h
  refine ⟨fun b => P b ∨ Within F R b ∧ ¬ R b, ?_, ?_⟩
  · rcases hPQ with hP | hq
    · exact .inl (.inl hP)
    · by_cases hR : R a
      · exact .inr hR
      · exact .inl (.inr ⟨hQ a hq, hR⟩)
  · have hcover : ∀ c, Within F R c → (P c ∨ Within F R c ∧ ¬ R c) ∨ R c := by
      intro c hc
      by_cases hR : R c
      · exact .inr hR
      · exact .inl (.inr ⟨hc, hR⟩)
    rintro b (hP | ⟨hW, hR⟩)
    · refine hF _ _ _ (fun c hc => ?_) (hclosed b hP)
      rcases hc with hc | hc
      · exact .inl (.inl hc)
      · exact hcover c (hQ c hc)
    · rcases hW.unfold_or hF with hr | hstep
      · exact absurd hr hR
      · exact hF _ _ _ hcover hstep

theorem mono (hF : MonoStep F) (h : Within F Q a) (hQ : ∀ b, Q b → R b) : Within F R a :=
  h.bind hF fun b hb => .exit (hQ b hb)

theorem step (hF : MonoStep F) (h : F (Within F Q) a) : Within F Q a := by
  refine ⟨fun b => b = a ∨ Within F Q b ∧ ¬ Q b, .inl (.inl rfl), ?_⟩
  have hcover : ∀ c, Within F Q c → (c = a ∨ Within F Q c ∧ ¬ Q c) ∨ Q c := by
    intro c hc
    by_cases hQ : Q c
    · exact .inr hQ
    · exact .inl (.inr ⟨hc, hQ⟩)
  rintro b (rfl | ⟨hW, hQ⟩)
  · exact hF _ _ _ hcover h
  · rcases hW.unfold_or hF with hq | hstep
    · exact absurd hq hQ
    · exact hF _ _ _ hcover hstep

/-- Exits that only lead back to the start. -/
theorem loop {B : α → Prop} (hF : MonoStep F) (h : Within F (fun b => B b ∨ Q b) a)
    (hB : ∀ b, B b → F (fun c => c = a) b) : Within F Q a := by
  obtain ⟨P, hP, hclosed⟩ := h
  refine ⟨fun b => P b ∨ B b, ?_, ?_⟩
  · rcases hP with hP | hb | hq
    · exact .inl (.inl hP)
    · exact .inl (.inr hb)
    · exact .inr hq
  · have hcover : ∀ c, P c ∨ B c ∨ Q c → (P c ∨ B c) ∨ Q c := by
      rintro c (hP | hb | hq)
      · exact .inl (.inl hP)
      · exact .inl (.inr hb)
      · exact .inr hq
    rintro b (hPb | hBb)
    · exact hF _ _ _ hcover (hclosed b hPb)
    · refine hF _ _ _ (fun c hc => ?_) (hB b hBb)
      rw [hc]
      exact hcover a hP

/-- Up to nothing, every point goes on. -/
theorem unfold (hF : MonoStep F) (h : Within F (fun _ => False) a) :
    F (Within F fun _ => False) a :=
  (h.unfold_or hF).resolve_left id

end Within

end TreeVM
