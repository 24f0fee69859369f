/-
LintHost/Proofs/Text/Pairing.lean

Lists held against each other element by element.  What a partial function makes of a
list is paired with it (`mapM_eq_some_iff`), and each element of the one list has its
partner in the other (`exists_of_mem_right`, `exists_of_mem_left`), in the same place
(`exists_getElem?_of_forall₂`).
-/
import Mathlib.Data.List.Forall2

namespace LintHost.Text

variable {α β : Type}

/-- Whether a partial function answers on a whole list can be asked element by element. -/
theorem mapM_eq_some_iff {f : α → Option β} {l : List α} {r : List β} :
    l.mapM f = some r ↔ List.Forall₂ (fun a b => f a = some b) l r := by
  induction l generalizing r with
  | nil => simp [eq_comm]
  | cons a l ih =>
    simp only [List.mapM_cons, Option.bind_eq_bind, Option.bind_eq_some_iff, Option.pure_def,
      Option.some.injEq, List.forall₂_cons_left_iff, ih]
    exact ⟨fun ⟨b, hb, r', hr, e⟩ => ⟨b, r', hb, hr, e.symm⟩,
      fun ⟨b, r', hb, hr, e⟩ => ⟨b, hb, r', hr, e.symm⟩⟩

theorem exists_of_mem_right {R : α → β → Prop} {l : List α} {r : List β}
    (h : List.Forall₂ R l r) : ∀ b ∈ r, ∃ a ∈ l, R a b := by
  induction h with
  | nil => simp
  | cons hab _ ih => simpa [hab] using fun b hb => Or.inr (ih b hb)

theorem exists_of_mem_left {R : α → β → Prop} {l : List α} {r : List β}
    (h : List.Forall₂ R l r) : ∀ a ∈ l, ∃ b ∈ r, R a b := by
  induction h with
  | nil => simp
  | cons hab _ ih => simpa [hab] using fun a ha => Or.inr (ih a ha)

/-- What is held against two lists in a row falls into two parts. -/
theorem exists_append_of_forall₂ {R : α → β → Prop} {a b : List α} {l : List β}
    (h : List.Forall₂ R (a ++ b) l) :
    ∃ c d, l = c ++ d ∧ List.Forall₂ R a c ∧ List.Forall₂ R b d := by
  induction a generalizing l with
  | nil => exact ⟨[], l, rfl, .nil, h⟩
  | cons x a ih =>
    obtain ⟨y, l', hxy, hl, rfl⟩ := List.forall₂_cons_left_iff.1 h
    obtain ⟨c, d, rfl, hc, hd⟩ := ih hl
    exact ⟨y :: c, d, rfl, .cons hxy hc, hd⟩

/-- In each place there is a pair. -/
theorem exists_getElem?_of_forall₂ {R : α → β → Prop} {l : List α} {r : List β}
    (h : List.Forall₂ R l r) {i : Nat} (hi : i < r.length) :
    ∃ a b, l[i]? = some a ∧ r[i]? = some b ∧ R a b := by
  have hl : i < l.length := h.length_eq ▸ hi
  exact ⟨l[i], r[i], List.getElem?_eq_getElem hl, List.getElem?_eq_getElem hi, h.get hl hi⟩

/-- Lists held against each other by way of a third one. -/
theorem forall₂_trans {γ : Type} {R : α → β → Prop} {S : β → γ → Prop} {T : α → γ → Prop}
    (h : ∀ a b c, R a b → S b c → T a c) {l : List α} {m : List β} {r : List γ}
    (hlm : List.Forall₂ R l m) (hmr : List.Forall₂ S m r) : List.Forall₂ T l r := by
  induction hlm generalizing r with
  | nil =>
    cases hmr
    exact .nil
  | cons hab _ ih =>
    cases hmr with
    | cons hbc hr => exact .cons (h _ _ _ hab hbc) (ih hr)

end LintHost.Text
