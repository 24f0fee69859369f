/-
LintHost/Proofs/Toml/Cutting.lean

Where statements end.  A row is solid from a depth on if no statement ends in it there,
and as deep after it as before; brackets around a row make it solid one level further
out.  Statements that are written on lines of their own are told apart again
(`splitStatements_lines`), and no line end outside brackets stands in one that was read
(`runs_of_splitStatements`).
-/
import LintHost.Proofs.Toml.Paths
import LintHost.Toml.Document

namespace LintHost.Toml

/-! ### Flat tokens -/

/-- Whether a token opens or closes no bracket. -/
def Token.isFlat : Token → Bool
  | char c => !(c == '[' || c == ']' || c == '{' || c == '}')
  | quoted .. | comment _ | newline => true

theorem nesting_of_isFlat {t : Token} (h : t.isFlat = true) (depth : Nat) :
    nesting depth t = depth := by
  cases t with
  | char c =>
    simp only [Token.isFlat, Bool.not_eq_true', Bool.or_eq_false_iff, beq_eq_false_iff_ne] at h
    simp only [nesting]
    split <;> simp_all
  | quoted | comment | newline => rfl

theorem Token.isFlat_of_isGap {t : Token} (h : t.isGap = true) : t.isFlat = true := by
  cases t with
  | char c => rcases isBlank_iff.1 h with e | e <;> cases e <;> rfl
  | quoted | comment | newline => rfl

theorem Token.isFlat_of_isLabel {t : Token} (h : t.isLabel = true) : t.isFlat = true := by
  cases t with
  | char c =>
    simp only [isFlat, Bool.not_eq_true', Bool.or_eq_false_iff, beq_eq_false_iff_ne]
    refine ⟨⟨⟨?_, ?_⟩, ?_⟩, ?_⟩ <;> rintro rfl <;> exact absurd h (by decide)
  | quoted | comment | newline => rfl

/-- A path opens and closes no bracket. -/
theorem flat_pathTokens {path : List Key} {last : Key} (hp : ∀ k ∈ path, k.Legible)
    (hlast : path.getLast? = some last) (hf : last.Fringed Token.isGap Token.isGap) :
    (pathTokens path).all Token.isFlat = true :=
  List.all_eq_true.2 fun t ht => by
    rcases mem_pathTokens hp hlast hf ht with h | h | rfl
    · exact Token.isFlat_of_isLabel h
    · exact Token.isFlat_of_isGap h
    · rfl

/-! ### Solid rows -/

/-- No statement ends in a row that stands at the given depth or deeper, and the row opens as many
brackets as it closes. -/
def Solid (least : Nat) (ts : List Token) : Prop :=
  ∀ depth, least ≤ depth → ∀ rest, splitStatements true depth (ts ++ rest)
    = ts.foldr Text.consFirst (splitStatements true depth rest)

theorem Solid.nil (least : Nat) : Solid least [] :=
  fun _ _ _ => rfl

theorem Solid.append {least : Nat} {a b : List Token} (ha : Solid least a) (hb : Solid least b) :
    Solid least (a ++ b) := by
  intro depth hd rest
  rw [List.append_assoc, ha depth hd, hb depth hd, List.foldr_append]

theorem Solid.mono {least more : Nat} (h : least ≤ more) {ts : List Token} (hs : Solid least ts) :
    Solid more ts :=
  fun depth hd => hs depth (Nat.le_trans h hd)

theorem splitStatements_cons {t : Token} {depth : Nat} (h : t ≠ .newline ∨ depth ≠ 0)
    (ts : List Token) : splitStatements true depth (t :: ts)
      = Text.consFirst t (splitStatements true (nesting depth t) ts) := by
  rw [splitStatements, if_neg (by rintro ⟨h1, -, h2⟩; exact h.elim (· h1) (· h2)), Bool.true_or]

/-- Flat tokens are solid, with line ends among them within brackets only. -/
theorem solid_of_flat {least : Nat} {ts : List Token} (hf : ts.all Token.isFlat = true)
    (hn : least = 0 → Token.newline ∉ ts) : Solid least ts := by
  induction ts with
  | nil => exact Solid.nil least
  | cons t ts ih =>
    rw [List.all_cons, Bool.and_eq_true] at hf
    intro depth hd rest
    have ht : t ≠ .newline ∨ depth ≠ 0 := by
      by_cases h0 : least = 0
      · exact Or.inl fun e => hn h0 (e ▸ List.mem_cons_self)
      · exact Or.inr (by omega)
    rw [List.cons_append, splitStatements_cons ht, nesting_of_isFlat hf.1,
      ih hf.2 (fun h0 hm => hn h0 (List.mem_cons_of_mem _ hm)) depth hd, List.foldr_cons]

/-- Within brackets rows are solid one level further out. -/
theorem Solid.brackets {least : Nat} {o c : Char} (ho : ∀ d, nesting d (.char o) = d + 1)
    (hc : ∀ d, nesting d (.char c) = d - 1) {ts : List Token} (h : Solid (least + 1) ts) :
    Solid least (.char o :: ts ++ [.char c]) := by
  intro depth hd rest
  rw [List.append_assoc, List.cons_append, splitStatements_cons (Or.inl (by simp)), ho,
    h (depth + 1) (by omega), List.singleton_append, splitStatements_cons (Or.inl (by simp)), hc,
    Nat.add_sub_cancel]
  simp [List.foldr_append]

/-! ### Statements on lines of their own -/

/-- A row that is cut off whole at the line end behind it. -/
def Whole (piece : List Token) : Prop :=
  ∀ rest, splitStatements false 0 (piece ++ .newline :: rest)
    = piece :: splitStatements false 0 rest

theorem foldr_consFirst (ts piece : List Token) (pieces : List (List Token)) :
    ts.foldr Text.consFirst (piece :: pieces) = (ts ++ piece) :: pieces := by
  induction ts with
  | nil => rfl
  | cons t ts ih => rw [List.foldr_cons, ih]; rfl

/-- What goes before a statement is part of it. -/
theorem splitStatements_gap {lead : List Token} (h : lead.all Token.isGap = true)
    (rest : List Token) : splitStatements false 0 (lead ++ rest)
      = lead.foldr Text.consFirst (splitStatements false 0 rest) := by
  induction lead with
  | nil => rfl
  | cons t lead ih =>
    rw [List.all_cons, Bool.and_eq_true] at h
    rw [List.cons_append, splitStatements, if_neg (by simp),
      nesting_of_isFlat (Token.isFlat_of_isGap h.1), h.1, Bool.not_true, Bool.or_false, ih h.2]
    rfl

theorem whole_of_solid {lead body : List Token} {t : Token} (hl : lead.all Token.isGap = true)
    (ht : body.head? = some t) (hg : t.isGap = false) (hs : Solid 0 body) :
    Whole (lead ++ body) := by
  intro rest
  have hbegin : splitStatements false 0 (body ++ .newline :: rest)
      = splitStatements true 0 (body ++ .newline :: rest) := by
    cases body with
    | nil => cases ht
    | cons u body =>
      rw [List.head?_cons, Option.some.injEq] at ht
      have hn : t ≠ .newline := by
        rintro rfl
        cases hg
      subst ht
      rw [List.cons_append, splitStatements, splitStatements_cons (Or.inl hn), if_neg (by simp),
        hg]
      rfl
  rw [List.append_assoc, splitStatements_gap hl, hbegin, hs 0 (Nat.le_refl 0), splitStatements,
    if_pos ⟨rfl, rfl, rfl⟩, foldr_consFirst, foldr_consFirst, List.append_nil]

/-- Lines that are cut off whole are told apart, and what stands behind them is not cut. -/
theorem splitStatements_lines {pieces : List (List Token)} (h : ∀ p ∈ pieces, Whole p)
    {rest : List Token} (hr : rest.all Token.isGap = true) :
    splitStatements false 0 (pieces.flatMap (· ++ [.newline]) ++ rest) = pieces ++ [rest] := by
  induction pieces with
  | nil =>
    have := splitStatements_gap hr []
    rw [List.append_nil, splitStatements, foldr_consFirst, List.append_nil] at this
    exact this
  | cons p pieces ih =>
    have hp := h p List.mem_cons_self
    rw [List.flatMap_cons, List.append_assoc, List.append_assoc, List.singleton_append, hp,
      ih fun q hq => h q (List.mem_cons_of_mem _ hq)]
    rfl

/-! ### What reading cuts -/

/-- No token of a row ends a statement. -/
def Runs : (begun : Bool) → (depth : Nat) → List Token → Prop
  | _, _, [] => True
  | begun, depth, t :: ts =>
    ¬(t = .newline ∧ begun = true ∧ depth = 0) ∧ Runs (begun || !t.isGap) (nesting depth t) ts

/-- No token of a piece ends a statement. -/
theorem runs_of_splitStatements (begun : Bool) (depth : Nat) (ts : List Token) :
    ∃ first pieces, splitStatements begun depth ts = first :: pieces ∧ Runs begun depth first ∧
      ∀ p ∈ pieces, Runs false 0 p := by
  induction ts generalizing begun depth with
  | nil => exact ⟨[], [], rfl, trivial, by simp⟩
  | cons t ts ih =>
    rw [splitStatements]
    split
    · obtain ⟨first, pieces, e, hf, hp⟩ := ih false 0
      exact ⟨[], _, rfl, trivial, by simpa [e] using ⟨hf, hp⟩⟩
    · next h =>
      obtain ⟨first, pieces, e, hf, hp⟩ := ih (begun || !t.isGap) (nesting depth t)
      exact ⟨t :: first, pieces, by rw [e]; rfl, ⟨h, hf⟩, hp⟩

/-- Behind flat tokens a row goes on at the same depth, and has begun if one of them is no gap. -/
theorem Runs.right {begun : Bool} {depth : Nat} {a b : List Token} (h : Runs begun depth (a ++ b))
    (ha : a.all Token.isFlat = true) : Runs (begun || a.any (!·.isGap)) depth b := by
  induction a generalizing begun with
  | nil => simpa using h
  | cons t a ih =>
    rw [List.all_cons, Bool.and_eq_true] at ha
    have := h.2
    rw [nesting_of_isFlat ha.1] at this
    simpa [Bool.or_assoc] using ih this ha.2

/-- No line end stands in a gap behind the begin of a statement. -/
theorem Runs.newline_not_mem {g b : List Token} (h : Runs true 0 (g ++ b))
    (hg : g.all Token.isGap = true) : Token.newline ∉ g := by
  induction g with
  | nil => simp
  | cons t g ih =>
    rw [List.all_cons, Bool.and_eq_true] at hg
    have hrest := h.2
    rw [nesting_of_isFlat (Token.isFlat_of_isGap hg.1), Bool.true_or] at hrest
    rw [List.mem_cons, not_or]
    exact ⟨fun e => h.1 ⟨e.symm, rfl, rfl⟩, ih hrest hg.2⟩

end LintHost.Toml
